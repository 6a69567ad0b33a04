import KernelDev.SerialRuns

/-!
# `SER_init`

`SER_init` sets up the chip, reads a byte back to test it, and then puts both ring pointers back to
the start of the ring and frees the transmitter. It leaves `count` as it is. What calls of
`SER_write` before it leave in `count` is therefore still counted afterwards, with pointers that
are the same again : `count` is what tells a full ring from an empty one, so bytes that are not
there are sent.

`serInit_empty_iff` says for which calls that is no bytes. Before `SER_init` the pointers are
`NULL` and the transmitter is free, so the first byte of all is sent at once, and every further one
is counted and stays (`Early`) : the queue is empty afterwards exactly if the calls were for one
byte at most altogether. Behind `SER_init` everything but `count` is what it should be
(`setUp_start`), so an empty queue is all that is needed for the rest : from then on only accepted
bytes are sent, from the first one on, whatever happens (`StartsEmpty`).

The statement is about all calls of `SER_write` before `SER_init` and all runs after it, with any
lengths; a length that is negative takes nothing. `serInit_counts_early_byte` is the smallest run
that goes wrong.
-/

namespace KernelDev

/-- `COM1` -/
def com1 : BitVec 16 := 0x3f8

/-- `COM_INT_ENABLE_REG_OFFSET` -/
def comIntEnableRegOffset : BitVec 16 := 1

/-- `COM_DIV_LATCH_LOW_OFFSET` -/
def comDivLatchLowOffset : BitVec 16 := 0

/-- `COM_DIV_LATCH_HIGH_OFFSET` -/
def comDivLatchHighOffset : BitVec 16 := 1

/-- `COM_FIFO_CTL_REG_OFFSET` -/
def comFifoCtlRegOffset : BitVec 16 := 2

/-- `COM_LINE_CTL_REG_OFFSET` -/
def comLineCtlRegOffset : BitVec 16 := 3

/-- `COM_MODEM_CTL_REG_OFFSET` -/
def comModemCtlRegOffset : BitVec 16 := 4

/-- `COM_BAUD_DIVISOR_115200` -/
def comBaudDivisor115200 : BitVec 16 := 1

/-- `COM_MODEM_CTL_DTR | COM_MODEM_CTL_RTS | COM_MODEM_CTL_AUX_OUT2` -/
def comModemCtlReady : BitVec 8 := 0x01 ||| 0x02 ||| 0x08

namespace Uart

/-- `SER_init` up to the test of the chip. -/
def setUp (u : Uart) : Uart :=
  let u := { u with
    consumer := u.buff
    producer := u.buff
    txBusy := false
    portBase := com1
    initialized := false }
  -- interrupts off, then the baud rate under `COM_LINE_CTL_DLAB`
  let u := u.outb (u.portBase + comIntEnableRegOffset) 0x00
  let u := u.outb (u.portBase + comLineCtlRegOffset) 0x80
  let u := u.outb (u.portBase + comDivLatchLowOffset) (comBaudDivisor115200.setWidth 8)
  let u := u.outb (u.portBase + comDivLatchHighOffset) ((comBaudDivisor115200 >>> 8).setWidth 8)
  -- 8 data bits, one stop bit, no parity
  let u := u.outb (u.portBase + comLineCtlRegOffset) (0x03 ||| 0x00 ||| 0x00)
  -- FIFO on, transmit side cleared, 14-byte threshold
  let u := u.outb (u.portBase + comFifoCtlRegOffset) (0x01 ||| 0x04 ||| 0xc0)
  let u := u.outb (u.portBase + comModemCtlRegOffset) comModemCtlReady
  -- loopback
  let u := u.outb (u.portBase + comModemCtlRegOffset) (comModemCtlReady ||| 0x10)
  u.outb (u.portBase + comTransmitOffset) 0xae

/-- The rest of `SER_init`, for a chip that works. `IRQ_clear_mask(4)` is a matter of the
interrupt controller. -/
def start (u : Uart) : Uart :=
  let u := u.outb (u.portBase + comModemCtlRegOffset) comModemCtlReady
  -- transmitter-empty and line-status interrupts
  let u := u.outb (u.portBase + comIntEnableRegOffset) (0x02 ||| 0x04)
  { u with initialized := true }

end Uart

namespace Console

/-- `SER_init`. The byte that `inb` reads back from the chip is an argument. -/
def serInit (s : Console) (received : BitVec 8) : Option Console := do
  let s := { s with uart := s.uart.setUp }
  if received ≠ 0xae then
    let (s, _) ← s.printk (chars "Serial port at 0x%x is faulty\n" ++ [0])
      [.word (s.uart.portBase.setWidth 64)]
    return s
  return { s with uart := s.uart.start }

end Console

namespace Uart

variable {u : Uart}

/-- The variables of `serial.c` before the first call: all zero. -/
structure Zero (u : Uart) : Prop where
  consumer : u.consumer = 0
  producer : u.producer = 0
  txBusy : u.txBusy = false
  count : u.count = 0
  initialized : u.initialized = false
  portBase : u.portBase = 0

/-- What calls for `n` bytes altogether leave in `count` and `tx_busy`: the first byte is sent
at once, no other one is. -/
structure Early (u : Uart) (n : ℕ) : Prop where
  count : 0 ≤ u.count ∧ u.count ≤ buffSize
  /-- One byte is sent and not counted. -/
  empty : u.count = 0 ↔ n ≤ 1
  /-- The first byte makes the transmitter busy. -/
  busy : u.txBusy = true ↔ 0 < n

theorem Zero.early (h : u.Zero) : u.Early 0 := by
  refine ⟨by rw [h.count]; decide, by simp [h.count], by simp [h.txBusy]⟩

/-- The loop of `SER_write` counts its bytes and leaves the transmitter alone. -/
theorem enqueueFrom_count (buff : ℕ → BitVec 8) (u : Uart) : ∀ n : ℕ,
    (u.enqueueFrom buff n).count = u.count + n ∧ (u.enqueueFrom buff n).txBusy = u.txBusy
  | 0 => by simp [enqueueFrom]
  | n + 1 => by
    obtain ⟨hcount, hbusy⟩ := enqueueFrom_count buff u n
    have hstep : u.enqueueFrom buff (n + 1) = (u.enqueueFrom buff n).enqueue (buff n) := by
      rw [enqueueFrom, List.range_succ, List.foldl_append]
      rfl
    rw [hstep]
    refine ⟨?_, hbusy⟩
    show (u.enqueueFrom buff n).count + 1 = _
    rw [hcount]
    omega

theorem early_write {n : ℕ} (h : u.Early n) (buff : ℕ → BitVec 8) (len : ℤ) :
    (u.write buff len).Early (n + len.toNat) := by
  obtain ⟨⟨hpos, hle⟩, hempty, hbusy⟩ := h
  obtain ⟨hcount, htx⟩ := enqueueFrom_count buff u (u.bytesToCopy len).toNat
  have hcopy := bytesToCopy_eq u len
  rw [write]
  generalize u.enqueueFrom buff (u.bytesToCopy len).toNat = v at hcount htx ⊢
  unfold buffSize at *
  unfold hardwareWrite
  by_cases hn : 0 < n
  · -- a byte is under way, and the others wait
    have htrue : v.txBusy = true := htx.trans (hbusy.2 hn)
    rw [if_neg fun hc => by simp [htrue] at hc]
    refine ⟨⟨by omega, by unfold buffSize; omega⟩, by omega, ?_⟩
    exact iff_of_true htrue (by omega)
  · have hfalse : v.txBusy = false := by
      rw [htx, ← Bool.not_eq_true, hbusy]
      exact hn
    have hzero : u.count = 0 := hempty.2 (by omega)
    by_cases hlen : 0 < len
    · rw [if_pos ⟨hfalse, by omega⟩]
      have hone : (v.count - 1 = 0) ↔ n + len.toNat ≤ 1 := by omega
      refine ⟨⟨?_, ?_⟩, hone, iff_of_true rfl (by omega)⟩
      · show 0 ≤ v.count - 1
        omega
      · show v.count - 1 ≤ 16
        omega
    · rw [if_neg fun hc => by omega]
      refine ⟨⟨by omega, by unfold buffSize; omega⟩, by omega, ?_⟩
      exact iff_of_false (by simp [hfalse]) (by omega)

section

variable (u : Uart) (port : BitVec 16) (val : BitVec 8)

@[simp] theorem outb_consumer : (u.outb port val).consumer = u.consumer := rfl
@[simp] theorem outb_producer : (u.outb port val).producer = u.producer := rfl
@[simp] theorem outb_buff : (u.outb port val).buff = u.buff := rfl
@[simp] theorem outb_count : (u.outb port val).count = u.count := rfl
@[simp] theorem outb_portBase : (u.outb port val).portBase = u.portBase := rfl

end

theorem start_initialized (u : Uart) : u.start.initialized = true := rfl

/-- `SER_init` on a chip that works: everything but `count` is set. -/
theorem setUp_start (u : Uart) :
    u.setUp.start.buff = u.buff ∧ u.setUp.start.consumer = u.buff ∧
      u.setUp.start.producer = u.buff ∧ u.setUp.start.count = u.count ∧
      u.setUp.start.portBase = com1 := by
  simp only [start, setUp, outb_consumer, outb_producer, outb_buff, outb_count, outb_portBase,
    and_self]

/-- After `SER_init` the queue is empty exactly if nothing was counted before. -/
theorem queue_setUp_start (u : Uart) : u.setUp.start.Queue [] ↔ u.count = 0 := by
  obtain ⟨hbuff, hconsumer, hproducer, hcount, -⟩ := u.setUp_start
  constructor
  · rintro ⟨-, -, -, hzero, -⟩
    rw [← hcount, hzero]
    rfl
  · intro hzero
    refine ⟨0, ?_, ?_, by rw [hcount, hzero]; rfl, .nil (by decide)⟩
    · rw [hconsumer, hbuff]
      simp
    · rw [hproducer, hbuff]
      simp

end Uart

namespace Console

/-- What can happen to the port after `SER_init`: a call of `SER_write`, or an interrupt with
the values that the handler reads. -/
inductive PortEvent where
  | serWrite (buff : ℕ → BitVec 8) (len : ℤ)
  | interrupt (iir lsr : BitVec 8)

/-- The effect of an event. -/
def PortEvent.run (s : Console) : PortEvent → Option Console
  | serWrite buff len => some (s.serWrite buff len).1
  | interrupt iir lsr => s.serialInterruptHandler iir lsr

/-- Every event keeps the ring clean and loses no byte. -/
theorem PortEvent.flows {s : Console} (h : s.uart.Clean) (e : PortEvent) :
    ∃ s' bs, e.run s = some s' ∧ Uart.Flows s.uart s'.uart bs := by
  cases e with
  | serWrite buff len =>
    refine ⟨_, (List.range (s.uart.bytesToCopy len).toNat).map buff, rfl, ?_⟩
    rw [serWrite_eq]
    exact Uart.flows_write h buff len
  | interrupt iir lsr => exact serialInterruptHandler_flows h iir lsr

/-- The calls of `SER_write` before `SER_init`. -/
def earlyWrites (s : Console) (calls : List ((ℕ → BitVec 8) × ℤ)) : Console :=
  calls.foldl (fun s call => (s.serWrite call.1 call.2).1) s

/-- All calls of `SER_write` before `SER_init`. -/
theorem early_earlyWrites (calls : List ((ℕ → BitVec 8) × ℤ)) : ∀ {s : Console} {n : ℕ},
    s.uart.Early n →
      (s.earlyWrites calls).uart.Early (n + (calls.map fun call => call.2.toNat).sum) := by
  induction calls with
  | nil => exact fun h => h
  | cons call calls ih =>
    intro s n h
    have hcall := Uart.early_write h call.1 call.2
    have hrest := @ih (s.serWrite call.1 call.2).1 _ (by rw [serWrite_eq]; exact hcall)
    rw [List.map_cons, List.sum_cons, ← Nat.add_assoc]
    exact hrest

/-- The queue is empty, and whatever happens next, only accepted bytes are sent to `COM1`, from
the first one on. -/
def StartsEmpty (s : Console) : Prop :=
  s.uart.Queue [] ∧ ∀ es : List PortEvent, ∃ t accepted sent, es.foldlM PortEvent.run s = some t ∧
    t.uart.stored = s.uart.stored ++ accepted ∧
    t.uart.out = s.uart.out ++ sent.map (fun b => (com1 + comTransmitOffset, b)) ∧
    sent <+: accepted

/-- From an empty queue on, accepted bytes are sent in order. -/
theorem startsEmpty_of_queue {s : Console} (h : s.uart.Queue []) (hport : s.uart.portBase = com1) :
    s.StartsEmpty := by
  refine ⟨h, fun es => ?_⟩
  obtain ⟨hclean, hqueued⟩ := h.clean fun hne => absurd rfl hne
  obtain ⟨t, accepted, ht, hflows⟩ := flows_foldlM PortEvent.flows es hclean
  obtain ⟨sent, hout, hflow⟩ := hflows.transfers.sent
  rw [hqueued, List.nil_append] at hflow
  rw [hport] at hout
  exact ⟨t, accepted, sent, ht, hflows.transfers.stored, hout, hflow ▸ List.prefix_append _ _⟩

/-- `SER_init` on a chip that works. -/
theorem serInit_eq (s : Console) :
    s.serInit 0xae = some { s with uart := s.uart.setUp.start } := by
  rw [serInit, if_neg (by decide)]
  rfl

/-- `SER_init` leaves the queue empty exactly if the calls before it were for one byte at most. -/
theorem serInit_empty_iff (s : Console) (h : s.uart.Zero) (calls : List ((ℕ → BitVec 8) × ℤ)) :
    ∃ t, (s.earlyWrites calls).serInit 0xae = some t ∧ t.uart.initialized = true ∧
      (t.StartsEmpty ↔ (calls.map fun call => call.2.toNat).sum ≤ 1) := by
  have hearly := early_earlyWrites calls h.early
  rw [Nat.zero_add] at hearly
  have hqueue := (s.earlyWrites calls).uart.queue_setUp_start
  obtain ⟨-, -, -, -, hport⟩ := (s.earlyWrites calls).uart.setUp_start
  refine ⟨_, serInit_eq _, Uart.start_initialized _, ?_⟩
  rw [← hearly.empty, ← hqueue]
  exact ⟨fun hstart => hstart.1, fun hempty => startsEmpty_of_queue hempty hport⟩

theorem zero_atStart (mem : ByteMem.Mem) (buff : ByteMem.Addr)
    (h : buff.toNat + buffSize < 2 ^ 64) : (atStart mem buff h).uart.Zero :=
  ⟨rfl, rfl, rfl, rfl, rfl, rfl⟩

theorem serInit_empty_after_one :
    ∃ t, ((atStart (fun _ => 0) 0x200000 (by decide)).earlyWrites
        [(fun _ => 0x41, 1), (fun _ => 0x42, -3)]).serInit 0xae = some t ∧
      t.uart.initialized = true ∧ (t.StartsEmpty ↔ 1 ≤ 1) :=
  serInit_empty_iff _ (zero_atStart _ _ _) _

/-- Of two bytes written too early the second one is still counted. -/
theorem serInit_counts_early_byte :
    ∃ t, ((atStart (fun _ => 0) 0x200000 (by decide)).earlyWrites
      [(fun _ => 0x41, 2)]).serInit 0xae = some t ∧ ¬t.StartsEmpty := by
  have hzero := zero_atStart (fun _ => 0) 0x200000 (by decide)
  have hearly := early_earlyWrites [(fun _ => 0x41, 2)] hzero.early
  refine ⟨_, serInit_eq _, fun hstart => ?_⟩
  have hcount := (Uart.queue_setUp_start _).1 hstart.1
  exact absurd (hearly.empty.1 hcount) (by decide)

end Console

end KernelDev
