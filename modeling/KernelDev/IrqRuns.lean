import KernelDev.HandlerPorts
import KernelDev.IrqInit
import KernelDev.Lib.Processor

/-!
# The kernel between interrupts

The kernel behind `IRQ_init`, with interrupts at any time. Any program runs, on any devices; it may
change the variables of the kernel and the masks of the chips, but leaves their command ports
alone. Whenever a chip requests and interrupts are on, the processor acknowledges, and the handler
of the vector runs to its end with interrupts off.

The invariant is what is in service. A handler ends with its end of interrupt, which goes to the
slave too for a line of its own, and no handler is interrupted; so while the main program runs
nothing is in service (`settled`), and while a handler runs at most one line of each chip is
(`Settles`). A spurious interrupt puts nothing in service on its chip, where the end of interrupt
behind it ends nothing (`picSendEOI_triple`). What a handler does before that goes to ports of its
own device (`callIrq_straight`), unless the serial port were at the address of a chip : `Placed` is
the condition on that address, which `SER_init` meets.

`irqs_never_block` is the result for the whole of a run : at most one line of each chip is in
service at any moment, every handler can come to its end, and outside handlers the processor is
interrupted for the first line in the order of priority that requests and is not masked. The rules
of the processor of the library give it from `kernel_serves`, which is about one interrupt.

The board at the end has a serial port that becomes empty when it likes, and the program on it
masks the keyboard.
-/

namespace KernelDev

open ByteMem

/-! ## The handlers and the command ports -/

/-- The ports that are no command ports of the chips. -/
def OffCommand (port : BitVec 16) : Prop :=
  port ≠ pic1Command ∧ port ≠ pic2Command

namespace Kernel

variable {s : Kernel}

/-- The serial port is `COM1`, or it is not set up yet. -/
def Placed (s : Kernel) : Prop :=
  s.console.uart.portBase = 0 ∨ s.console.uart.portBase = com1

/-- What goes to the serial port goes to no command port. -/
theorem Placed.offCommand (h : s.Placed) (offset : BitVec 16) (hoffset : offset.toNat < 8) :
    OffCommand (s.console.uart.portBase + offset) := by
  have hbase : s.console.uart.portBase.toNat = 0 ∨ s.console.uart.portBase.toNat = 0x3f8 :=
    h.imp (congrArg BitVec.toNat) (congrArg BitVec.toNat)
  unfold OffCommand pic1Command pic2Command
  constructor
  all_goals
    intro heq
    rcases hbase with hbase | hbase
    all_goals bv_omega

/-- Printing keeps the serial port in its place. -/
theorem Placed.emits (h : s.Placed) {c : Console} (hc : Uart.Emits s.console.uart c.uart) :
    c.uart.portBase = 0 ∨ c.uart.portBase = com1 :=
  h.imp hc.1.trans hc.1.trans

/-- What is done for a line leaves the command ports alone. -/
theorem callIrq_straight (table : IrqTable IrqHandler) (i : Fin 16) (errCode : BitVec 64)
    (h : s.Placed) :
    (callIrq calls table i errCode (missingIrq i) s).Straight OffCommand (fun _ _ => True)
      Placed := by
  unfold callIrq
  split
  · rename_i handler _
    cases handler with
    | kb =>
      exact kbHandler_straight ⟨by decide, by decide⟩ ⟨by decide, by decide⟩
        (h.offCommand _ (by decide)) h fun _ _ _ _ hc => h.emits hc
    | serial => exact serialHandler_straight h.offCommand h fun _ _ _ _ _ hc => h.emits hc
  · unfold missingIrq
    split_ifs
    · exact ⟨⟨by decide, by decide⟩, fun _ _ => h⟩
    · exact ⟨⟨by decide, by decide⟩, fun _ _ => h⟩
    · exact h

end Kernel

/-! ## The chips -/

/-- A chip as `IRQ_init` leaves it, but for its requests and its mask. -/
def settledChip (base cascade : BitVec 8) : Pic where
  irr := fun _ => false
  isr := fun _ => false
  imr := 0
  base := base
  cascade := cascade
  mode8086 := true
  needsIcw4 := true
  phase := .ready

/-- Both chips. -/
def settled : Cascade :=
  ⟨settledChip 0x20 4, settledChip 0x28 2⟩

namespace Board

variable {S : Type} {P : Peripherals S} {b b' : Board S} {c : Cascade}

/-- The vectors of chips with the bases of old. -/
theorem vector_eq (h : c.master.base = 0x20 ∧ c.slave.base = 0x28) (l : PicLine) :
    c.vector l = BitVec.ofNat 8 (32 + l.irq.val) := by
  rw [← vector_initialised c]
  cases l with
  | master i => exact congrArg (fun base => base &&& 0xf8 ||| BitVec.ofNat 8 i) h.1
  | slave j => exact congrArg (fun base => base &&& 0xf8 ||| BitVec.ofNat 8 j) h.2

/-- The bases of the vectors are fixed. -/
theorem base_of_fixed {c' : Cascade} (h : c.fixed = c') :
    c.master.base = c'.master.base ∧ c.slave.base = c'.slave.base := by
  rw [← h]
  exact ⟨rfl, rfl⟩

theorem own_fixed (h : Own P b b') : b'.pics.fixed = b.pics.fixed := by
  cases h with
  | device => rfl
  | @drop l _ => cases l <;> rfl

/-- The devices leave all but the requests alone. -/
theorem moves_fixed (h : (device P).Moves b b') : b'.pics.fixed = b.pics.fixed := by
  induction h with
  | refl => rfl
  | tail _ hown ih => exact (own_fixed hown).trans ih

/-- Reading a port leaves all but the requests alone. -/
theorem readPort_fixed (port : BitVec 16) (b : Board S) :
    (readPort P port b).2.pics.fixed = b.pics.fixed := by
  unfold readPort
  split_ifs <;> rfl

/-- A write to any port but the command ports changes masks at most. -/
theorem writePort_fixed (h : Ready b.pics) {port : BitVec 16} (hport : OffCommand port)
    (val : BitVec 8) : (writePort P port val b).pics.fixed = b.pics.fixed := by
  unfold writePort
  rw [if_neg hport.1]
  split_ifs with h1 h2 h3
  · exact congrArg (Cascade.mk · _) (Pic.fixed_writeData h.1 val)
  · exact absurd h2 hport.2
  · exact congrArg (Cascade.mk _) (Pic.fixed_writeData h.2 val)
  · rfl

/-- With the command ports left alone, only requests and masks change. -/
theorem keeps_fixed (hready : Ready c) (hserved : c.OneServed) (p : Prop) :
    (device P).Keeps (fun b => b.pics.OneServed) OffCommand
      fun b => p ∧ b.pics.fixed = c where
  own _ _ h hown := ⟨h.1, (own_fixed hown).trans h.2⟩
  safe b h := by
    have hfixed : b.pics.fixed.OneServed := h.2 ▸ hserved
    exact ⟨hfixed.master, hfixed.slave⟩
  read port b _ h := ⟨h.1, (readPort_fixed port b).trans h.2⟩
  write port val b hport h := by
    have hb : Ready b.pics.fixed := h.2 ▸ hready
    exact ⟨h.1, (writePort_fixed hb hport val).trans h.2⟩

/-- The chips after `PIC_sendEOI`. -/
def afterEoi (i : Fin 16) (c : Cascade) : Cascade :=
  ⟨c.master.eoi, if 8 ≤ i.val then c.slave.eoi else c.slave⟩

/-- The chips behind an end of interrupt. -/
theorem fixed_writeEoi (c : Pic) : (c.writeCommand picEoi).fixed = c.fixed.eoi :=
  c.fixed_eoi

/-- Settled chips have nothing in service. -/
theorem idle_settled : settled.Idle :=
  ⟨fun _ => rfl, fun _ => rfl⟩

/-- What is known of a chip of which at most one line is in service. -/
structure Settles (c : Cascade) : Prop where
  ready : Ready c
  served : c.OneServed

theorem Settles.master (h : Settles c) : Settles { c with master := c.master.eoi } where
  ready := ⟨by rw [Pic.eoi_eq]; exact h.ready.1, h.ready.2⟩
  served := ⟨h.served.master.eoi.oneServed, h.served.slave⟩

theorem Settles.slave (h : Settles c) : Settles { c with slave := c.slave.eoi } where
  ready := ⟨h.ready.1, by rw [Pic.eoi_eq]; exact h.ready.2⟩
  served := ⟨h.served.master, h.served.slave.eoi.oneServed⟩

/-- An end of interrupt for the master. -/
theorem eoi1_triple (h : Settles c) (p : Prop) :
    (device P).Triple (fun b => b.pics.OneServed) (fun b => p ∧ b.pics.fixed = c)
      (outb pic1Command picEoi)
      fun _ b => p ∧ b.pics.fixed = { c with master := c.master.eoi } :=
  .write (keeps_fixed h.ready h.served p).toStays
    (keeps_fixed h.master.ready h.master.served p).toStays fun b hb => by
      refine ⟨hb.1, ?_⟩
      rw [← hb.2]
      exact congrArg (Cascade.mk · _) (fixed_writeEoi b.pics.master)

/-- An end of interrupt for the slave. -/
theorem eoi2_triple (h : Settles c) (p : Prop) :
    (device P).Triple (fun b => b.pics.OneServed) (fun b => p ∧ b.pics.fixed = c)
      (outb pic2Command picEoi)
      fun _ b => p ∧ b.pics.fixed = { c with slave := c.slave.eoi } :=
  .write (keeps_fixed h.ready h.served p).toStays
    (keeps_fixed h.slave.ready h.slave.served p).toStays fun b hb => by
      refine ⟨hb.1, ?_⟩
      rw [← hb.2]
      exact congrArg (Cascade.mk _) (fixed_writeEoi b.pics.slave)

/-- `PIC_sendEOI` leaves nothing in service. -/
theorem picSendEOI_triple (h : Settles c) (i : Fin 16) (p : Prop) :
    (device P).Triple (fun b => b.pics.OneServed) (fun b => p ∧ b.pics.fixed = c)
      (picSendEOI (BitVec.ofNat 8 i)) fun _ b => p ∧ b.pics.fixed = afterEoi i c := by
  have hval : (BitVec.ofNat 8 i.val).toNat = i.val := Nat.mod_eq_of_lt (by omega)
  unfold picSendEOI afterEoi
  rw [hval]
  split_ifs
  · exact (eoi2_triple h p).bind fun _ => eoi1_triple h.slave p
  · exact eoi1_triple h p

/-- A line is served. -/
theorem serveIrq_holds (table : IrqTable IrqHandler) (h : Settles c) {i : Fin 16}
    (hend : afterEoi i c = settled) (errCode : BitVec 64) {k : Kernel} (hk : k.Placed)
    (hb : b.pics.fixed = c) :
    (device P).Holds (fun b => b.pics.OneServed)
      (serveIrq Kernel.calls table i errCode (missingIrq i) k)
      (fun k b => k.Placed ∧ b.pics.fixed = settled) b := by
  have hcall := Kernel.callIrq_straight table i errCode hk
  have hkeeps : (device P).Keeps (fun b => b.pics.OneServed) OffCommand
      fun b => True ∧ b.pics.fixed = c := keeps_fixed h.ready h.served True
  refine (hkeeps.straight hcall (fun _ _ _ => trivial) ⟨trivial, hb⟩).bind fun k b hkb => ?_
  obtain ⟨hk, -, hb⟩ := hkb b (.refl b)
  refine ((picSendEOI_triple h i k.Placed).bind fun _ => ?_) b ⟨hk, hb⟩
  rw [hend]
  exact .ret (Q := fun (k : Kernel) (b : Board S) => k.Placed ∧ b.pics.fixed = settled)
    (keeps_fixed ⟨rfl, rfl⟩ ⟨idle_settled.master.oneServed, idle_settled.slave.oneServed⟩
      k.Placed).toStays

/-! ## The processor on the board -/

/-- The board with the handlers of the kernel. A vector leads to `interrupt_handler` with a frame
that has its number. -/
def platform (P : Peripherals S) (table : IrqTable IrqHandler) (changes : Kernel → Kernel → Prop) :
    Platform (BitVec 16) (BitVec 8) (Board S) Kernel (BitVec 8) where
  device := device P
  accept := Inta P
  handler v k h := ∃ frame : InterruptFrame, frame.intNo = v.setWidth 64 ∧
    h = interruptHandler Kernel.calls table frame k
  changes := changes

/-- A settled chip with a line in service. -/
theorem settledChip_ack (base cascade : BitVec 8) (i : Fin 8) :
    ((settledChip base cascade).ack i).fixed.OneServed ∧
      ((settledChip base cascade).ack i).fixed.eoi = settledChip base cascade := by
  have hidle : (settledChip base cascade).Idle := fun _ => rfl
  refine ⟨hidle.ack i, ?_⟩
  rw [← Pic.fixed_eoi, hidle.eoi_ack]
  rfl

/-- A settled chip has nothing in service. -/
theorem settledChip_idle (base cascade : BitVec 8) :
    (settledChip base cascade).OneServed ∧
      (settledChip base cascade).eoi = settledChip base cascade := by
  have hidle : (settledChip base cascade).Idle := fun _ => rfl
  exact ⟨hidle.oneServed, hidle.eoi⟩

/-- The vector of a line leads to its branch of `interrupt_handler`. -/
theorem handler_eq {table : IrqTable IrqHandler} {changes : Kernel → Kernel → Prop} {l : PicLine}
    {v : BitVec 8} (hv : v = BitVec.ofNat 8 (32 + l.irq.val)) {k : Kernel} {p : Port Kernel}
    (hp : (platform P table changes).handler v k p) :
    ∃ errCode, p = serveIrq Kernel.calls table l.irq errCode (missingIrq l.irq) k := by
  obtain ⟨frame, hframe, rfl⟩ := hp
  have hno : frame.intNo = BitVec.ofNat 64 (32 + l.irq.val) := by
    rw [hframe, hv]
    refine BitVec.eq_of_toNat_eq ?_
    have := l.irq.isLt
    simp only [BitVec.toNat_setWidth, BitVec.toNat_ofNat]
    omega
  exact ⟨frame.errCode, interruptHandler_irq _ _ hno k⟩

/-- The interrupt for a line is served. -/
theorem handler_holds {table : IrqTable IrqHandler} {changes : Kernel → Kernel → Prop}
    (h : Settles c) {l : PicLine} {v : BitVec 8} (hv : v = BitVec.ofNat 8 (32 + l.irq.val))
    (hend : afterEoi l.irq c = settled) {k : Kernel} (hk : k.Placed) (hb : b.pics.fixed = c)
    {p : Port Kernel} (hp : (platform P table changes).handler v k p) :
    (device P).Holds (fun b => b.pics.OneServed) p
      (fun k b => k.Placed ∧ b.pics.fixed = settled) b := by
  obtain ⟨errCode, rfl⟩ := handler_eq hv hp
  exact serveIrq_holds table h hend errCode hk hb

/-- The handlers of the kernel serve every interrupt, a spurious one too. -/
theorem kernel_serves (P : Peripherals S) (table : IrqTable IrqHandler)
    {changes : Kernel → Kernel → Prop} (hchanges : ∀ k k', changes k k' → k'.Placed) :
    (platform P table changes).Serves OffCommand (fun b => b.pics.OneServed)
      fun k b => k.Placed ∧ b.pics.fixed = settled where
  rest k := keeps_fixed ⟨rfl, rfl⟩
    ⟨idle_settled.master.oneServed, idle_settled.slave.oneServed⟩ k.Placed
  changes k k' _ hk h := ⟨hchanges k k' hk, h.2⟩
  accept v k p b b' hinta hp hrest := by
    obtain ⟨hk, hb⟩ := hrest
    obtain ⟨hm, hmeoi⟩ := settledChip_idle 0x20 4
    obtain ⟨hs, hseoi⟩ := settledChip_idle 0x28 2
    have hack : ∀ i, ({ b with pics.master := b.pics.master.ack i } : Board S).pics.fixed =
        ⟨((settledChip 0x20 4).ack i).fixed, settledChip 0x28 2⟩ := by
      intro i
      exact congrArg (fun c : Cascade => (⟨(c.master.ack i).fixed, c.slave⟩ : Cascade)) hb
    cases hinta with
    | @master _ i _ =>
      obtain ⟨hserved, heoi⟩ := settledChip_ack 0x20 4 i
      refine handler_holds (l := .master i) ⟨⟨rfl, rfl⟩, hserved, hs⟩
        (vector_eq (base_of_fixed hb) (.master i)) ?_ hk (hack i) hp
      rw [afterEoi, if_neg (by show ¬8 ≤ i.val; omega), heoi]
      rfl
    | @slave _ b' j _ hmoves _ =>
      obtain ⟨hserved, heoi⟩ := settledChip_ack 0x20 4 2
      obtain ⟨hserved', heoi'⟩ := settledChip_ack 0x28 2 j
      have hb' := (moves_fixed hmoves).trans (hack 2)
      have hfixed : ({ b' with pics.slave := b'.pics.slave.ack j } : Board S).pics.fixed =
          ⟨((settledChip 0x20 4).ack 2).fixed, ((settledChip 0x28 2).ack j).fixed⟩ :=
        congrArg (fun c : Cascade => (⟨c.master, (c.slave.ack j).fixed⟩ : Cascade)) hb'
      refine handler_holds (l := .slave j) ⟨⟨rfl, rfl⟩, ⟨hserved, hserved'⟩⟩
        (vector_eq (base_of_fixed hb') (.slave j)) ?_ hk hfixed hp
      rw [afterEoi, if_pos (by show 8 ≤ 8 + j.val; omega), heoi, heoi']
      rfl
    | spuriousMaster _ =>
      refine handler_holds (l := .master 7) ⟨⟨rfl, rfl⟩, hm, hs⟩
        (vector_eq (base_of_fixed hb) (.master 7)) ?_ hk hb hp
      rw [afterEoi, if_neg (by decide)]
      exact congrArg (Cascade.mk · _) hmeoi
    | @spuriousSlave _ b' _ hmoves _ =>
      obtain ⟨hserved, heoi⟩ := settledChip_ack 0x20 4 2
      have hb' := (moves_fixed hmoves).trans (hack 2)
      refine handler_holds (l := .slave 7) ⟨⟨rfl, rfl⟩, hserved, hs⟩
        (vector_eq (base_of_fixed hb') (.slave 7)) ?_ hk hb' hp
      rw [afterEoi, if_pos (by decide), heoi]
      exact congrArg (Cascade.mk _) hseoi

end Board

open Board

/-- After `IRQ_init` no request waits for another that is behind it. Whatever program runs that
leaves the command ports of the chips alone, whatever it does to the variables of the kernel but
for the address of the serial port, with whatever devices and with interrupts at any time :
at most one line of each chip is in service at any moment and every handler can come to its end;
outside handlers nothing is in service, and the processor is interrupted for the first line in the
order of priority that requests and is not masked. -/
theorem irqs_never_block {S : Type} (P : Peripherals S) {b₀ b : Board S} {s r : IrqState}
    {sym : Symbols} (hinit : (Board.device P).Reaches (irqInit s sym, b₀) (.ret r, b))
    {A : Type} {main : Port A} (hmain : main.Uses OffCommand) {k : Kernel} (hk : k.Placed)
    {x : Processor (BitVec 16) (BitVec 8) (Board S) Kernel A}
    (hx : (platform P r.table fun _ k' => k'.Placed).Reaches ⟨main, none, k, b⟩ x) :
    x.dev.pics.OneServed ∧
    (x.handler = none →
      x.dev.pics.Idle ∧ x.dev.pics.next = PicLine.order.find? x.dev.pics.wanted) ∧
    ∃ k' b', (platform P r.table fun _ k' => k'.Placed).Reaches x ⟨x.main, none, k', b'⟩ := by
  have hb : b.pics.fixed = settled := by
    obtain ⟨-, hknows⟩ := ((irqInit_triple s sym b₀.pics.unlatched b₀ rfl).sound hinit).2.1 r rfl
    exact congrArg Cascade.fixed hknows
  obtain ⟨hserved, hrest, hback⟩ := (kernel_serves P r.table fun _ _ h => h).sound hmain ⟨hk, hb⟩ hx
  refine ⟨hserved, fun hnone => ?_, hback⟩
  have hidle : x.dev.pics.Idle := by
    have hfixed : x.dev.pics.fixed.Idle := (hrest hnone).2 ▸ idle_settled
    exact ⟨hfixed.master, hfixed.slave⟩
  exact ⟨hidle, hidle.next_eq⟩

/-- What `IRQ_init` works on when the kernel starts. -/
def startIrq : IrqState where
  table := fun _ => ⟨none, 0⟩
  tables :=
    { idt := fun _ => 0, idtp := fun _ => 0, tss := fun _ => 0, gdt := fun _ => 0
      idtrLimit := 0, idtrBase := 0, tr := 0 }
  prints := []

def startSymbols : Symbols where
  isr := fun i => BitVec.ofNat 64 (0x100000 + 16 * i)
  defaultInterrupt := 0x100400
  idt := 0x110000
  tss := 0x111000
  doubleFaultStack := 0x112000
  pageFaultStack := 0x113000
  generalProtectionStack := 0x114000

theorem placed_start : (0x200000 : Addr).toNat + buffSize < 2 ^ 64 := by
  decide

/-- The variables of the kernel when it starts. -/
def startKernel : Kernel where
  console := Console.atStart (fun _ => 0) 0x200000 placed_start
  kb := .clear
  mmu :=
    { mem := fun _ => 0, overflowPage := fun _ _ => 0, cr3 := 0, memoryRegions := [],
      freePageHead := 0, totalMemory := 0, totalPages := 0, freePages := 0, reservedPages := 0
      freeListInitialized := false, kernelBrk := 0, invlpgs := [], console := [] }
  cr2 := 0

/-- The variables of the kernel with the serial port set up. -/
def keyedKernel : Kernel :=
  { startKernel with
    console := { startKernel.console with
      uart := { startKernel.console.uart with portBase := com1 } } }

/-- A serial port that requests when its transmitter is empty and until that is read, and that
may be empty or not at any time. -/
def serialPort : Peripherals Bool where
  device :=
    { read := fun port empty =>
        if port = com1 + comIntIdentRegOffset then
          (if empty then comIntIdentTransmitterEmpty else comIntIdentPending, false)
        else (0, empty)
      write := fun _ _ empty => empty
      own := fun _ _ => True }
  lines empty l := empty && decide (l = .master 4)

/-- A board with the serial port, and all lines masked. -/
def serialBoard : Board Bool :=
  ⟨⟨{ settledChip 0 0 with imr := 0xff }, { settledChip 0 0 with imr := 0xff }⟩, false⟩

/-- The chips of that board after `IRQ_init` and `IRQ_set_mask` of the keyboard. -/
def serialOnly : Cascade :=
  setMask 1 (initialised serialBoard.pics.unlatched)

theorem masked_serialBoard (l : PicLine) : serialBoard.pics.unlatched.masked l = true := by
  have hbit : ∀ i : Fin 8, (0xff : BitVec 8).getLsbD i = true := by
    decide
  cases l with
  | master i => exact hbit i
  | slave j => exact hbit j

/-- Only the serial port is let through. -/
theorem masked_serialOnly {l : PicLine} (h : l ≠ .master 4) : serialOnly.masked l = true := by
  rw [serialOnly, masked_setMask (by decide) (ready_initialised _), Bool.or_eq_true,
    masked_initialised]
  by_cases h1 : l = .master 1
  · exact .inr (by rw [h1]; rfl)
  · exact .inl ⟨masked_serialBoard l, h1, h⟩

/-- The devices of the board go to another state. -/
theorem own_serialPort (b : Board Bool) (empty : Bool) :
    (device serialPort).own b (b.follow serialPort empty) :=
  .device trivial

/-- When the transmitter gets empty the processor is interrupted for the serial port. -/
theorem wanted_serialPort {b : Board Bool} (hb : Knows serialOnly b) :
    PicLine.order.find?
      ((b.follow serialPort false).follow serialPort true).pics.wanted = some (.master 4) := by
  have hmasked : ∀ l, ((b.follow serialPort false).follow serialPort true).pics.masked l =
      serialOnly.masked l := by
    intro l
    rw [← hb]
    cases l <;> rfl
  have hwanted : ((b.follow serialPort false).follow serialPort true).pics.wanted =
      fun l => decide (l = .master 4) := by
    funext l
    by_cases hl : l = .master 4
    · have hmask : b.pics.master.imr.getLsbD 4 = false := by
        have hfour : serialOnly.masked (.master 4) = false := by decide
        rw [← hb] at hfour
        exact hfour
      have hrises : ((b.follow serialPort false).follow serialPort true).pics.master.irr 4 =
          true := Bool.or_true _
      rw [hl]
      show (true && (((b.follow serialPort false).follow serialPort true).pics.master.irr 4 &&
        !b.pics.master.imr.getLsbD 4)) = true
      rw [hrises, hmask]
      rfl
    · rw [Cascade.wanted_of_masked ((hmasked l).trans (masked_serialOnly hl)), decide_eq_false hl]
  rw [hwanted]
  decide

/-- The serial port interrupts a program that has masked the keyboard, and is served. -/
theorem irqs_never_block_serialBoard :
    ∃ r b x y, (Board.device serialPort).Reaches (irqInit startIrq startSymbols, serialBoard)
      (.ret r, b) ∧
    (platform serialPort r.table fun _ k' => k'.Placed).Reaches
      ⟨irqSetMask 1, none, keyedKernel, b⟩ x ∧
    x.dev.pics.Idle ∧ x.dev.pics.next = some (.master 4) ∧
    (platform serialPort r.table fun _ k' => k'.Placed).Step x y ∧
    y.dev.pics.master.isr 4 = true ∧ y.dev.pics.OneServed ∧
    ∃ k' b', (platform serialPort r.table fun _ k' => k'.Placed).Reaches y
      ⟨y.main, none, k', b'⟩ := by
  have hinit := irqInit_triple (P := serialPort) startIrq startSymbols
    serialBoard.pics.unlatched serialBoard rfl
  obtain ⟨r, b, hr⟩ := hinit.finish
  obtain ⟨-, hb⟩ := (hinit.sound hr).2.1 r rfl
  have hmain : (irqSetMask 1).Uses OffCommand :=
    ⟨⟨by decide, by decide⟩, fun _ => ⟨⟨by decide, by decide⟩, trivial⟩⟩
  have hmask := irqSetMask_triple (P := serialPort) (initialised serialBoard.pics.unlatched) 1 b hb
  obtain ⟨a, c, hc⟩ := hmask.finish
  have hknows : Knows serialOnly c := (hmask.sound hc).2.1 a rfl
  have hx : (platform serialPort r.table fun _ k' => k'.Placed).Reaches
      ⟨irqSetMask 1, none, keyedKernel, b⟩ ⟨.ret a, none, keyedKernel,
        (c.follow serialPort false).follow serialPort true⟩ :=
    ((Platform.reaches_main hc).tail (.main (.own (own_serialPort _ false)))).tail
      (.main (.own (own_serialPort _ true)))
  obtain ⟨hidle, hnext⟩ := (irqs_never_block serialPort hr hmain (.inr rfl) hx).2.1 rfl
  have hfour := hnext.trans (wanted_serialPort hknows)
  have hstep : (platform serialPort r.table fun _ k' => k'.Placed).Step _ _ :=
    .accept (p := .ret a) (k := keyedKernel) (.master hfour)
      ⟨{ InterruptFrame.load (fun _ => 0) 0 with intNo := _ }, rfl, rfl⟩
  obtain ⟨hserved, -, hback⟩ :=
    irqs_never_block serialPort hr hmain (.inr rfl) (hx.tail hstep)
  exact ⟨r, b, _, _, hr, hx, hidle, hfour, hstep, Pic.isr_ack _ 4, hserved, hback⟩

end KernelDev
