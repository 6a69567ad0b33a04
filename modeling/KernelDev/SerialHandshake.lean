import KernelDev.Lib.Run
import KernelDev.SerialInit

/-!
# The handshake with the transmitter

`tx_busy` says that the byte last written to the transmit register is still on its way. It is set
when a byte is sent, and cleared when a transmitter-empty interrupt is handled. The handler clears
it twice, and sends a byte each time if there is one : the second time it takes the byte that it
has just sent for gone (`transmitterEmpty_twice`). With one byte in the queue that byte is sent and
`tx_busy` cleared at once; with more of them two are written to the register without an interrupt
in between.

`Handshake` keeps the console together with the numbers that this is about : the bytes written to
the transmit register, the interrupts handled, and the bytes for which none was handled yet.
`OneInFlight` is what the driver is meant to keep : the flag is set exactly if a byte is in flight,
and no more than one byte is written beyond the interrupts.

`oneInFlight_iff` says when it does so. In runs in which every interrupt finds the queue empty the
invariant `Waits` is kept (`Waits.step`). For the other direction the run must be one whose
interrupts each answer a byte that is in flight, that is `tx_busy` is set when they come
(`FindsBusy`); then at most one byte in flight in all states of the run means that every interrupt
found the queue empty (`Waits.empty`, `empty_of_oneInFlight`). `second_byte_forgotten` is the run
with two bytes and one interrupt.
-/

namespace KernelDev

namespace Console

/-! ## Runs -/

/-- The interrupt is pending, and is one for an empty transmitter. -/
def IsTransmitterEmpty (iir : BitVec 8) : Prop :=
  iir &&& comIntIdentPending = 0 ∧ iir &&& comIntIdentMask = comIntIdentTransmitterEmpty

/-- A call of `SER_write` or a transmitter-empty interrupt. -/
def PortEvent.Handshakes : PortEvent → Prop
  | serWrite _ _ => True
  | interrupt iir _ => IsTransmitterEmpty iir

/-- The console, with the number of bytes that were written to the transmit register, of the
transmitter-empty interrupts that were handled, and of the bytes for which none was yet. -/
structure Handshake where
  console : Console
  /-- The bytes written to the transmit register. -/
  written : ℕ
  /-- The transmitter-empty interrupts handled. -/
  handled : ℕ
  /-- The bytes for which no interrupt was handled yet. -/
  inFlight : ℕ

namespace Handshake

/-- Nothing was written yet. -/
def start (s : Console) : Handshake :=
  ⟨s, 0, 0, 0⟩

/-- The effect of an event. An interrupt is for a byte that is in flight, if there is one. -/
def run (h : Handshake) (e : PortEvent) : Option Handshake := do
  let t ← e.run h.console
  let sent := t.uart.out.length - h.console.uart.out.length
  match e with
  | .serWrite _ _ => some ⟨t, h.written + sent, h.handled, h.inFlight + sent⟩
  | .interrupt _ _ => some ⟨t, h.written + sent, h.handled + 1, h.inFlight - 1 + sent⟩

/-- A step of a run, in which the console allows for the event. -/
def Step (ok : Console → PortEvent → Prop) (h : Handshake) (e : PortEvent) (h' : Handshake) :
    Prop :=
  e.Handshakes ∧ ok h.console e ∧ h.run e = some h'

/-- `tx_busy` is set exactly if a byte is in flight, and the bytes written are at most one more
than the interrupts handled. -/
def OneInFlight (h : Handshake) : Prop :=
  (h.console.uart.txBusy = true ↔ 0 < h.inFlight) ∧ h.written ≤ 1 + h.handled

end Handshake

/-- An interrupt finds the queue empty. -/
def FindsEmpty (s : Console) : PortEvent → Prop
  | .serWrite _ _ => True
  | .interrupt _ _ => s.uart.count = 0

/-- An interrupt finds the transmitter busy. -/
def FindsBusy (s : Console) : PortEvent → Prop
  | .serWrite _ _ => True
  | .interrupt _ _ => s.uart.txBusy = true

end Console

/-! ## What is sent -/

namespace Uart

variable {u : Uart}

/-- With the transmitter free `SER_write` sends one byte, if it takes any. With the transmitter
busy it sends none. -/
theorem write_sent (u : Uart) (buff : ℕ → BitVec 8) (len : ℤ) :
    (u.txBusy = false ∧ (u.write buff len).txBusy = true ∧
        (u.write buff len).out.length = u.out.length + 1) ∨
      (u.write buff len).txBusy = u.txBusy ∧ (u.write buff len).out.length = u.out.length := by
  have hbusy := (enqueueFrom_count buff u (u.bytesToCopy len).toNat).2
  have hout := (enqueueFrom_kept buff u (u.bytesToCopy len).toNat).1
  rw [write, ← hbusy, ← hout]
  generalize u.enqueueFrom buff (u.bytesToCopy len).toNat = v
  by_cases hidle : v.txBusy = true ∨ v.count ≤ 0
  · rw [hardwareWrite_idle hidle]
    exact Or.inr ⟨rfl, rfl⟩
  · rw [not_or, Bool.not_eq_true, not_le] at hidle
    obtain ⟨htrue, -, hlen⟩ := hardwareWrite_sends hidle.1 hidle.2
    exact Or.inl ⟨hidle.1, htrue, hlen⟩

/-- With an empty queue the transmitter is freed and nothing is sent. -/
theorem transmitterEmpty_idle (h : u.count ≤ 0) :
    u.transmitterEmpty = { u with txBusy := false } :=
  hardwareWrite_idle (u := { u with txBusy := false }) (Or.inr h)

/-- With bytes in the queue the first one is sent. -/
theorem transmitterEmpty_sends (h : 0 < u.count) :
    u.transmitterEmpty.txBusy = true ∧ u.transmitterEmpty.count = u.count - 1 ∧
      u.transmitterEmpty.out.length = u.out.length + 1 :=
  hardwareWrite_sends (u := { u with txBusy := false }) rfl h

/-- The two statements of the handler, done twice : a single byte in the queue is sent and taken
for gone, and of more of them two are sent. -/
theorem transmitterEmpty_twice (u : Uart) :
    (u.count ≤ 0 ∧ u.transmitterEmpty.transmitterEmpty.txBusy = false ∧
        u.transmitterEmpty.transmitterEmpty.out.length = u.out.length) ∨
      (u.count = 1 ∧ u.transmitterEmpty.transmitterEmpty.txBusy = false ∧
        u.transmitterEmpty.transmitterEmpty.out.length = u.out.length + 1) ∨
      2 ≤ u.count ∧ u.transmitterEmpty.transmitterEmpty.txBusy = true ∧
        u.transmitterEmpty.transmitterEmpty.out.length = u.out.length + 2 := by
  by_cases hpos : 0 < u.count
  · obtain ⟨-, hcount, hout⟩ := transmitterEmpty_sends hpos
    by_cases hone : u.count = 1
    · have hzero : u.transmitterEmpty.count ≤ 0 := by omega
      rw [transmitterEmpty_idle hzero]
      exact Or.inr (Or.inl ⟨hone, rfl, hout⟩)
    · obtain ⟨htrue, -, hlen⟩ := transmitterEmpty_sends (u := u.transmitterEmpty) (by omega)
      exact Or.inr (Or.inr ⟨by omega, htrue, by rw [hlen, hout]⟩)
  · have hidle : u.count ≤ 0 := by omega
    rw [transmitterEmpty_idle hidle, transmitterEmpty_idle (by exact hidle)]
    exact Or.inl ⟨hidle, rfl, rfl⟩

end Uart

namespace Console

namespace Handshake

variable {h h' : Handshake} {e : PortEvent} {es : List PortEvent} {t : Console}

/-! ## The invariant -/

/-- The ring is clean, at most one byte is in flight, and `tx_busy` says so. -/
structure Waits (h : Handshake) : Prop where
  clean : h.console.uart.Clean
  busy : h.console.uart.txBusy = true ↔ 0 < h.inFlight
  one : h.inFlight ≤ 1
  written : h.written ≤ h.handled + h.inFlight

/-- The invariant says what is asked for. -/
theorem Waits.oneInFlight (hw : h.Waits) : h.OneInFlight := by
  have hone := hw.one
  have hwritten := hw.written
  exact ⟨hw.busy, by omega⟩

/-- A transmitter-empty interrupt does the two statements twice. -/
theorem interrupt_run {iir : BitVec 8} (hempty : IsTransmitterEmpty iir) (s : Console)
    (lsr : BitVec 8) : (PortEvent.interrupt iir lsr).run s =
      some { s with uart := s.uart.transmitterEmpty.transmitterEmpty } := by
  obtain ⟨hpending, hsource⟩ := hempty
  have hservice : s.serviceInterrupt comIntIdentTransmitterEmpty lsr =
      some { s with uart := s.uart.transmitterEmpty } := by
    rw [serviceInterrupt, if_neg (by decide : ¬comIntIdentTransmitterEmpty = comIntIdentLineStatus),
      if_pos rfl]
    rfl
  show s.serialInterruptHandler iir lsr = _
  unfold serialInterruptHandler
  rw [if_neg (not_not.2 hpending), hsource]
  dsimp only
  rw [hservice]
  rfl

theorem run_serWrite (h : Handshake) (buff : ℕ → BitVec 8) (len : ℤ) :
    h.run (.serWrite buff len) =
      some ⟨{ h.console with uart := h.console.uart.write buff len },
        h.written + ((h.console.uart.write buff len).out.length - h.console.uart.out.length),
        h.handled,
        h.inFlight + ((h.console.uart.write buff len).out.length - h.console.uart.out.length)⟩ := by
  rw [run, PortEvent.run, serWrite_eq]
  rfl

/-- An interrupt is handled, and may send two bytes. -/
theorem run_interrupt {iir : BitVec 8} (hempty : IsTransmitterEmpty iir) (h : Handshake)
    (lsr : BitVec 8) :
    h.run (.interrupt iir lsr) =
      some ⟨{ h.console with uart := h.console.uart.transmitterEmpty.transmitterEmpty },
        h.written + (h.console.uart.transmitterEmpty.transmitterEmpty.out.length -
          h.console.uart.out.length),
        h.handled + 1,
        h.inFlight - 1 + (h.console.uart.transmitterEmpty.transmitterEmpty.out.length -
          h.console.uart.out.length)⟩ := by
  rw [run, interrupt_run hempty]
  rfl

/-- An interrupt that finds the queue empty keeps the invariant, and so does `SER_write`. -/
theorem Waits.step (hw : h.Waits) (hstep : Step FindsEmpty h e h') : h'.Waits := by
  obtain ⟨hclean, hbusy, hone, hwritten⟩ := hw
  obtain ⟨hshakes, hfinds, hrun⟩ := hstep
  cases e with
  | serWrite buff len =>
    rw [run_serWrite] at hrun
    cases hrun
    have hkept := (Uart.flows_write hclean buff len).clean
    rcases h.console.uart.write_sent buff len with ⟨hfree, htrue, hlen⟩ | ⟨hsame, hlen⟩
    · have hnone : ¬0 < h.inFlight := by
        rw [← hbusy, hfree]
        exact Bool.false_ne_true
      refine ⟨hkept, iff_of_true htrue ?_, ?_, ?_⟩ <;> simp only [hlen] <;> omega
    · refine ⟨hkept, ?_, ?_, ?_⟩ <;> simp only [hlen, hsame, Nat.sub_self, Nat.add_zero]
      · exact hbusy
      · exact hone
      · exact hwritten
  | interrupt iir lsr =>
    rw [run_interrupt hshakes] at hrun
    cases hrun
    have hkept := (Uart.flows_transmitterEmpty (Uart.flows_transmitterEmpty hclean).clean).clean
    have hzero : h.console.uart.count = 0 := hfinds
    rcases h.console.uart.transmitterEmpty_twice with ⟨-, hfalse, hlen⟩ | ⟨hcount, -⟩ | ⟨hcount, -⟩
    · refine ⟨hkept, iff_of_false ?_ ?_, ?_, ?_⟩
      · rw [hfalse]
        exact Bool.false_ne_true
      all_goals
        simp only [hlen]
        omega
    · omega
    · omega

/-- A run whose interrupts find the queue empty keeps the invariant. -/
theorem waits_run (hstart : (start t).Waits) (hrun : Run (Step FindsEmpty) (start t) es h) :
    h.Waits :=
  hrun.invariant (fun _ h => h.Waits) hstart fun _ _ _ _ _ hw hstep => hw.step hstep

/-- If at most one byte is in flight behind an interrupt that finds the transmitter busy, then the
queue was empty. -/
theorem Waits.empty (hw : h.Waits) (heq : h.written = h.handled + h.inFlight)
    (hstep : Step FindsBusy h e h') (hlater : h'.OneInFlight) :
    FindsEmpty h.console e ∧ h'.written = h'.handled + h'.inFlight := by
  obtain ⟨hclean, hbusy, hone, -⟩ := hw
  obtain ⟨hshakes, hfinds, hrun⟩ := hstep
  cases e with
  | serWrite buff len =>
    rw [run_serWrite] at hrun
    cases hrun
    exact ⟨trivial, by simp only; omega⟩
  | interrupt iir lsr =>
    rw [run_interrupt hshakes] at hrun
    cases hrun
    obtain ⟨hflag, hbound⟩ := hlater
    have hflying : 0 < h.inFlight := hbusy.1 hfinds
    have hpos := hclean.count.1
    simp only at hflag hbound ⊢
    rcases h.console.uart.transmitterEmpty_twice with
      ⟨hcount, -, hlen⟩ | ⟨-, hfalse, hlen⟩ | ⟨-, -, hlen⟩
    · exact ⟨show h.console.uart.count = 0 by omega, by omega⟩
    · -- the byte that was just sent is in flight
      rw [hfalse] at hflag
      exact absurd (hflag.2 (by omega)) Bool.false_ne_true
    · omega

/-- A run is determined by its events. -/
theorem foldlM_of_run {ok : Console → PortEvent → Prop} {g : Handshake}
    (hrun : Run (Step ok) g es h) : es.foldlM run g = some h := by
  induction hrun with
  | nil => rfl
  | snoc _ hstep ih =>
    rw [List.foldlM_append, ih]
    show [_].foldlM run _ = _
    rw [List.foldlM_cons, hstep.2.2]
    rfl

/-- Along a run of `FindsBusy` every state has one byte in flight exactly if every interrupt finds
the queue empty. -/
theorem empty_of_oneInFlight (hstart : (start t).Waits) (hrun : Run (Step FindsBusy) (start t) es h)
    (hone : ∀ es' h', es' <+: es → Run (Step FindsBusy) (start t) es' h' → h'.OneInFlight) :
    Run (Step FindsEmpty) (start t) es h ∧ h.written = h.handled + h.inFlight := by
  induction hrun with
  | nil => exact ⟨.nil, rfl⟩
  | snoc hr hstep ih =>
    obtain ⟨hempty, heq⟩ := ih fun es' h' hes hr' =>
      hone es' h' (hes.trans (List.prefix_append _ _)) hr'
    have hlater := hone _ _ (List.prefix_refl _) (hr.snoc hstep)
    obtain ⟨hfinds, heq'⟩ := (waits_run hstart hempty).empty heq hstep hlater
    exact ⟨hempty.snoc ⟨hstep.1, hfinds, hstep.2.2⟩, heq'⟩

/-- A prefix of a run whose interrupts find the queue empty is one too. -/
theorem empty_prefix {es' : List PortEvent} (hrun : Run (Step FindsEmpty) (start t) es h)
    (hes : es' <+: es) (hrun' : Run (Step FindsBusy) (start t) es' h') :
    Run (Step FindsEmpty) (start t) es' h' := by
  obtain ⟨rest, rfl⟩ := hes
  obtain ⟨g, hg, -⟩ := hrun.split
  have heq := (foldlM_of_run hg).symm.trans (foldlM_of_run hrun')
  rwa [Option.some.inj heq] at hg

end Handshake

/-- After `SER_init` nothing is in flight. -/
theorem waits_start {s : Console} (h : s.uart.count = 0) :
    (Handshake.start { s with uart := s.uart.setUp.start }).Waits := by
  obtain ⟨hclean, -⟩ := ((Uart.queue_setUp_start s.uart).2 h).clean fun hne => absurd rfl hne
  exact ⟨hclean, iff_of_false Bool.false_ne_true (lt_irrefl 0), Nat.zero_le 1, le_refl 0⟩

/-- One byte in flight per transmitter-empty interrupt. From `SER_init` with nothing counted on,
the flag says whether a byte is in flight, and at most one is written more than there were
interrupts, as long as every interrupt finds the queue empty. In a run whose interrupts each answer
a byte that is as long as it is true. -/
theorem oneInFlight_iff (s : Console) (h : s.uart.count = 0) :
    ∃ t, s.serInit 0xae = some t ∧
      (∀ es g, Run (Handshake.Step FindsEmpty) (.start t) es g → g.OneInFlight) ∧
      ∀ es g, Run (Handshake.Step FindsBusy) (.start t) es g →
        ((∀ es' g', es' <+: es → Run (Handshake.Step FindsBusy) (.start t) es' g' →
            g'.OneInFlight) ↔
          Run (Handshake.Step FindsEmpty) (.start t) es g) := by
  have hstart := waits_start h
  refine ⟨_, serInit_eq s, fun es g hrun => (Handshake.waits_run hstart hrun).oneInFlight,
    fun es g hrun => ⟨fun hone => (Handshake.empty_of_oneInFlight hstart hrun hone).1, ?_⟩⟩
  intro hempty es' g' hes hrun'
  exact (Handshake.waits_run hstart (Handshake.empty_prefix hempty hes hrun')).oneInFlight

theorem ring_placed : (0x200000 : ByteMem.Addr).toNat + buffSize < 2 ^ 64 := by decide

/-- The console before the first call, with the ring at 2 MiB. -/
def quietConsole : Console :=
  atStart (fun _ => 0) 0x200000 ring_placed

theorem isTransmitterEmpty_two : IsTransmitterEmpty 0x02 :=
  ⟨by decide, by decide⟩

/-- A byte, its interrupt and another byte : at most one is in flight all the time. Two bytes and an
interrupt : at some time more are. -/
theorem oneInFlight_quietConsole :
    ∃ t, quietConsole.serInit 0xae = some t ∧
      (∃ g, Run (Handshake.Step FindsEmpty) (.start t)
        [.serWrite (fun _ => 0x41) 1, .interrupt 0x02 0, .serWrite (fun _ => 0x42) 1] g ∧
        g.written = 2 ∧ g.OneInFlight) ∧
      ∃ g, Run (Handshake.Step FindsBusy) (.start t)
        [.serWrite (fun _ => 0x41) 2, .interrupt 0x02 0] g ∧
        ¬∀ es' g', es' <+: [.serWrite (fun _ => 0x41) 2, .interrupt 0x02 0] →
          Run (Handshake.Step FindsBusy) (.start t) es' g' → g'.OneInFlight := by
  obtain ⟨t, ht, hone, hiff⟩ := oneInFlight_iff quietConsole rfl
  obtain rfl := Option.some.inj (ht.symm.trans (serInit_eq quietConsole))
  refine ⟨_, ht, ?_, ?_⟩
  · have hrun : Run (Handshake.Step FindsEmpty)
        (.start { quietConsole with uart := quietConsole.uart.setUp.start })
        ((([] ++ [.serWrite (fun _ => 0x41) 1]) ++ [.interrupt 0x02 0]) ++
          [.serWrite (fun _ => 0x42) 1]) _ :=
      ((Run.nil.snoc ⟨trivial, trivial, rfl⟩).snoc
        ⟨isTransmitterEmpty_two, rfl, rfl⟩).snoc ⟨trivial, trivial, rfl⟩
    exact ⟨_, hrun, by decide, hone _ _ hrun⟩
  · have hbusy : (quietConsole.uart.setUp.start.write (fun _ => 0x41) 2).txBusy = true := by decide
    have hwrite : Run (Handshake.Step FindsBusy)
        (.start { quietConsole with uart := quietConsole.uart.setUp.start })
        ([] ++ [.serWrite (fun _ => 0x41) 2]) _ := .snoc .nil ⟨trivial, trivial, rfl⟩
    have hrun := hwrite.snoc
      (show Handshake.Step _ _ (.interrupt 0x02 0) _ from ⟨isTransmitterEmpty_two, hbusy, rfl⟩)
    refine ⟨_, hrun, fun hall => ?_⟩
    -- the second byte is still in the queue when the interrupt comes
    obtain ⟨g, hwrite, hinterrupt⟩ := Run.snoc_iff.1 ((hiff _ _ hrun).1 hall)
    obtain ⟨g₀, hnil, hstep⟩ := Run.snoc_iff.1 hwrite
    obtain rfl := Run.nil_iff.1 hnil
    obtain rfl := Option.some.inj hstep.2.2
    have hcount : (quietConsole.uart.setUp.start.write (fun _ => 0x41) 2).count = 0 :=
      hinterrupt.2.1
    exact absurd hcount (by decide)

/-- Two bytes, and the interrupt for the first one : the second one is sent, and taken for gone. -/
theorem second_byte_forgotten : ¬∀ (s t : Console) (es : List PortEvent) (g : Handshake),
    s.uart.count = 0 → s.serInit 0xae = some t →
      Run (Handshake.Step fun _ _ => True) (.start t) es g → g.OneInFlight := by
  intro h
  have hwrite : Run (Handshake.Step fun _ _ => True)
      (.start { quietConsole with uart := quietConsole.uart.setUp.start })
      ([] ++ [.serWrite (fun _ => 0x41) 2]) _ := .snoc .nil ⟨trivial, trivial, rfl⟩
  have hinterrupt := hwrite.snoc
    (show Handshake.Step _ _ (.interrupt 0x02 0) _ from ⟨isTransmitterEmpty_two, trivial, rfl⟩)
  have hone := h quietConsole _ _ _ rfl (serInit_eq _) hinterrupt
  exact absurd (hone.1.2 (by decide)) (by decide)

end Console

end KernelDev
