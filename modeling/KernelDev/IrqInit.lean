import KernelDev.Pic
import KernelDev.IsrRuns

/-!
# `IRQ_init`

`IRQ_init` starts with chips of which nothing is known. They may be in the middle of an
initialisation of their own, have lines in service or any mask. The devices raise and lower their
lines all the time, so which requests are latched is not in the hands of `IRQ_init`; everything
else is. `Knows` is therefore about the chips without their requests, and the devices keep it
(`stays_knows`).

Each function has a triple with a result of its own : a chip after `PIC_remap` is `remapped`, and
the chips after `IRQ_set_mask` and `IRQ_clear_mask` are `setMask` and `clearMask`. These two read a
mask, change the bit of their line and write it back, so they change the mask of no other line
(`masked_setMask`, `masked_clearMask`), as long as no chip awaits a word of its initialisation,
which it would take what is written for (`Ready`).

`irqInit_triple` puts them in a row. `irqInit_sets_up` reads the result : `IRQ_init` can always
come to its end, nothing is in service, and no initialisation is under way. A line has the
interrupt number `32` plus its own, the gate of that number leads to the stub of the line, and the
stub passes on this number; the lines of the keyboard and the serial port are unmasked, and no
other mask has changed. `irq_table` has the handlers of these two lines and of no other.
-/

namespace KernelDev

namespace Board

open PicLine

variable {S : Type} {P : Peripherals S} {c : Cascade} {A : Type}

/-- What a write to a port does to the chips. -/
def chipWrite (port : BitVec 16) (val : BitVec 8) (c : Cascade) : Cascade :=
  if port = pic1Command then { c with master := c.master.writeCommand val }
  else if port = pic1Data then { c with master := c.master.writeData val }
  else if port = pic2Command then { c with slave := c.slave.writeCommand val }
  else if port = pic2Data then { c with slave := c.slave.writeData val }
  else c

/-- The chips, but for the requests they have latched. -/
def Knows (c : Cascade) (b : Board S) : Prop :=
  b.pics.unlatched = c

/-- What a write does to the chips, but for the requests. -/
theorem unlatched_writePort (port : BitVec 16) (val : BitVec 8) (b : Board S) :
    (writePort P port val b).pics.unlatched = chipWrite port val b.pics.unlatched := by
  unfold writePort chipWrite
  split_ifs
  · exact congrArg (Cascade.mk · _) (b.pics.master.unlatched_writeCommand val)
  · exact congrArg (Cascade.mk · _) (b.pics.master.unlatched_writeData val)
  · exact congrArg (Cascade.mk _) (b.pics.slave.unlatched_writeCommand val)
  · exact congrArg (Cascade.mk _) (b.pics.slave.unlatched_writeData val)
  · rfl

/-- The devices change nothing but requests. -/
theorem own_unlatched {b b' : Board S} (h : Own P b b') : b'.pics.unlatched = b.pics.unlatched := by
  cases h with
  | device => rfl
  | @drop l _ => cases l <;> rfl

/-- The devices keep what is known of the chips. -/
theorem stays_knows (c : Cascade) : (device P).Stays (fun _ => True) (Knows c) where
  own _ _ h hown := (own_unlatched hown).trans h
  safe _ _ := trivial

theorem outb_triple (c : Cascade) (port : BitVec 16) (val : BitVec 8) :
    (device P).Triple (fun _ => True) (Knows c) (outb port val)
      fun _ => Knows (chipWrite port val c) :=
  .write (stays_knows c) (stays_knows _) fun b h => by
    rw [Knows, ← h]
    exact unlatched_writePort port val b

theorem outbs_triple : ∀ (ws : List (BitVec 16 × BitVec 8)) (c : Cascade),
    (device P).Triple (fun _ => True) (Knows c) (outbs ws)
      fun _ => Knows (ws.foldl (fun c w => chipWrite w.1 w.2 c) c)
  | [], c => .ret (Q := fun _ => Knows c) (stays_knows c)
  | w :: ws, c => (outb_triple c w.1 w.2).bind fun _ => outbs_triple ws _

/-- The data ports give the masks. -/
def maskOf (port : BitVec 16) (c : Cascade) : BitVec 8 :=
  if port = pic1Data then c.master.imr else c.slave.imr

/-- A mask is read. -/
theorem inb_triple {f : BitVec 8 → Port A} {Q : A → Board S → Prop} {port : BitVec 16}
    (hport : port = pic1Data ∨ port = pic2Data)
    (h : (device P).Triple (fun _ => True) (Knows c) (f (maskOf port c)) Q) :
    (device P).Triple (fun _ => True) (Knows c) ((inb port).bind f) Q := by
  have hread : (device P).Triple (fun _ => True) (Knows c) (inb port)
      fun v b => v = maskOf port c ∧ Knows c b := by
    refine .read (stays_knows c) (fun v => ⟨fun b b' hb hown => ?_, fun _ _ => trivial⟩)
      fun b hb => ?_
    · exact ⟨hb.1, (stays_knows c).own b b' hb.2 hown⟩
    · rcases hport with rfl | rfl
      · exact ⟨congrArg (fun c => c.master.imr) hb, hb⟩
      · exact ⟨congrArg (fun c => c.slave.imr) hb, hb⟩
  refine hread.bind fun v b hb => ?_
  rw [hb.1]
  exact h b hb.2

/-! ## The functions -/

/-- A chip after its initialisation. -/
def remapped (c : Pic) (offset cascade : BitVec 8) : Pic where
  irr := fun _ => false
  isr := fun _ => false
  imr := c.imr
  base := offset
  cascade := cascade
  mode8086 := true
  needsIcw4 := true
  phase := .ready

/-- `PIC_remap` initialises both chips and puts their masks back. -/
theorem picRemap_triple (c : Cascade) (offset1 offset2 : BitVec 8) :
    (device P).Triple (fun _ => True) (Knows c) (picRemap offset1 offset2)
      fun _ => Knows ⟨remapped c.master offset1 4, remapped c.slave offset2 2⟩ :=
  inb_triple (.inl rfl) <| inb_triple (.inr rfl) <|
    outbs_triple [(pic1Command, icw1), (0x80, 0), (pic2Command, icw1), (0x80, 0),
      (pic1Data, offset1), (0x80, 0), (pic2Data, offset2), (0x80, 0), (pic1Data, 4), (0x80, 0),
      (pic2Data, 2), (0x80, 0), (pic1Data, icw4), (0x80, 0), (pic2Data, icw4), (0x80, 0),
      (pic1Data, c.master.imr), (pic2Data, c.slave.imr)] c

theorem irqPort_data (irq : BitVec 8) :
    (irqPort irq).1 = pic1Data ∨ (irqPort irq).1 = pic2Data := by
  unfold irqPort
  split_ifs
  · exact .inl rfl
  · exact .inr rfl

/-- The chips after `IRQ_set_mask`. -/
def setMask (irq : BitVec 8) (c : Cascade) : Cascade :=
  chipWrite (irqPort irq).1 (((maskOf (irqPort irq).1 c).setWidth 32 |||
    1#32 <<< (irqPort irq).2.toNat).setWidth 8) c

/-- The chips after `IRQ_clear_mask`. -/
def clearMask (irq : BitVec 8) (c : Cascade) : Cascade :=
  chipWrite (irqPort irq).1 (((maskOf (irqPort irq).1 c).setWidth 32 &&&
    ~~~(1#32 <<< (irqPort irq).2.toNat)).setWidth 8) c

/-- `IRQ_set_mask` on the chips. -/
theorem irqSetMask_triple (c : Cascade) (irq : BitVec 8) :
    (device P).Triple (fun _ => True) (Knows c) (irqSetMask irq) fun _ => Knows (setMask irq c) :=
  inb_triple (irqPort_data irq) (outb_triple c _ _)

/-- `IRQ_clear_mask` on the chips. -/
theorem irqClearMask_triple (c : Cascade) (irq : BitVec 8) :
    (device P).Triple (fun _ => True) (Knows c) (irqClearMask irq)
      fun _ => Knows (clearMask irq c) :=
  inb_triple (irqPort_data irq) (outb_triple c _ _)

/-- Neither chip is in the middle of its initialisation. -/
def Ready (c : Cascade) : Prop :=
  c.master.phase = .ready ∧ c.slave.phase = .ready

/-- The bit of a line, in the low byte. -/
theorem getLsbD_bit (k : ℕ) (i : Fin 8) : (1#32 <<< k).getLsbD i = decide (i.val = k) := by
  rw [← BitVec.twoPow_eq, BitVec.getLsbD_twoPow]
  by_cases hk : k = i.val
  · rw [hk]
    simpa using by omega
  · rw [decide_eq_false hk, decide_eq_false (Ne.symm hk), Bool.and_false]

/-- A mask that is read, changed at the bit of its line and written back. -/
theorem masked_chipWrite {f : ℕ → BitVec 8 → BitVec 8} {g : Bool → Bool → Bool} {irq : BitVec 8}
    (hf : ∀ k m (i : Fin 8), (f k m).getLsbD i = g (m.getLsbD i) (decide (i.val = k)))
    (hg : ∀ b, g b false = b) (hirq : irq.toNat < 16) (h : Ready c) (l : PicLine) :
    (chipWrite (irqPort irq).1 (f (irqPort irq).2.toNat (maskOf (irqPort irq).1 c)) c).masked l =
      g (c.masked l) (decide (l.irq.val = irq.toNat)) := by
  by_cases h8 : irq.toNat < 8
  · rw [irqPort, if_pos h8]
    cases l with
    | master i =>
      have himr : ∀ v, (c.master.writeData v).imr = v := fun v => by rw [Pic.writeData, h.1]
      exact (congrArg (·.getLsbD i) (himr _)).trans (hf _ _ i)
    | slave j =>
      have hne : (PicLine.slave j).irq.val ≠ irq.toNat := by
        show 8 + j.val ≠ irq.toNat
        omega
      rw [decide_eq_false hne, hg]
      rfl
  · rw [irqPort, if_neg h8]
    cases l with
    | master i =>
      have hne : (PicLine.master i).irq.val ≠ irq.toNat := by
        show i.val ≠ irq.toNat
        omega
      rw [decide_eq_false hne, hg]
      rfl
    | slave j =>
      have himr : ∀ v, (c.slave.writeData v).imr = v := fun v => by rw [Pic.writeData, h.2]
      have hline : (j.val = (irq - 8).toNat) = ((PicLine.slave j).irq.val = irq.toNat) := by
        show _ = (8 + j.val = irq.toNat)
        rw [BitVec.toNat_sub_of_le (by bv_omega)]
        exact propext (by simpa using by omega)
      refine (congrArg (·.getLsbD j) (himr _)).trans ((hf _ _ j).trans ?_)
      simp only [hline]
      rfl

/-- `IRQ_set_mask` masks its line and no other. -/
theorem masked_setMask {irq : BitVec 8} (hirq : irq.toNat < 16) (h : Ready c) (l : PicLine) :
    (setMask irq c).masked l = (c.masked l || decide (l.irq.val = irq.toNat)) :=
  masked_chipWrite (f := fun k m => (m.setWidth 32 ||| 1#32 <<< k).setWidth 8) (g := or)
    (fun k m i => by
      have h32 : i.val < 32 := by omega
      rw [BitVec.getLsbD_setWidth, BitVec.getLsbD_or, BitVec.getLsbD_setWidth, getLsbD_bit]
      simp [h32]) Bool.or_false hirq h l

/-- `IRQ_clear_mask` lets its line through and changes no other. -/
theorem masked_clearMask {irq : BitVec 8} (hirq : irq.toNat < 16) (h : Ready c) (l : PicLine) :
    (clearMask irq c).masked l = (c.masked l && !decide (l.irq.val = irq.toNat)) :=
  masked_chipWrite (f := fun k m => (m.setWidth 32 &&& ~~~(1#32 <<< k)).setWidth 8)
    (g := fun a b => a && !b) (fun k m i => by
      have h32 : i.val < 32 := by omega
      rw [BitVec.getLsbD_setWidth, BitVec.getLsbD_and, BitVec.getLsbD_setWidth,
        BitVec.getLsbD_not, getLsbD_bit]
      simp [h32]) Bool.and_true hirq h l

/-! ## `IRQ_init` -/

/-- What `IRQ_init` makes of the chips. -/
def initialised (c : Cascade) : Cascade :=
  clearMask 4 (clearMask 1 ⟨remapped c.master 0x20 4, remapped c.slave 0x28 2⟩)

/-- What `IRQ_init` returns. -/
def irqInitResult (s : IrqState) (sym : Symbols) : IrqState :=
  (({ s.clearTable with tables := s.tables.idtInit sym }).setHandler 1 .kb).setHandler 4 .serial

/-- `IRQ_init` up to its `sti`. -/
theorem irqInit_triple (s : IrqState) (sym : Symbols) (c : Cascade) :
    (device P).Triple (fun _ => True) (Knows c) (irqInit s sym)
      fun r b => r = irqInitResult s sym ∧ Knows (initialised c) b := by
  have hend : (device P).Stays (fun _ => True)
      fun b => irqInitResult s sym = irqInitResult s sym ∧ Knows (initialised c) b :=
    ⟨fun b b' hb hown => ⟨rfl, (stays_knows _).own b b' hb.2 hown⟩, fun _ _ => trivial⟩
  refine (picRemap_triple c 0x20 0x28).bind fun _ => (irqClearMask_triple _ 1).bind fun _ => ?_
  refine (irqClearMask_triple _ 4).bind fun _ => ?_
  exact (Device.Triple.ret (Q := fun r b => r = irqInitResult s sym ∧ Knows (initialised c) b)
    hend).pre fun b hb => ⟨rfl, hb⟩

/-- The table that `IRQ_init` leaves. -/
def irqTable : IrqTable IrqHandler :=
  fun i => ⟨if i = 1 then some .kb else if i = 4 then some .serial else none, 0⟩

/-- The table after the first loop of `IRQ_init`. -/
theorem clearTable_apply (s : IrqState) (i : Fin 16) : s.clearTable.table i = ⟨none, 0⟩ := by
  have hfold : ∀ (is : List (Fin 16)) (t : IrqTable IrqHandler), i ∈ is →
      is.foldl (fun t i => Function.update t i ⟨none, 0⟩) t i = ⟨none, 0⟩ := by
    intro is
    induction is using List.reverseRecOn with
    | nil => exact fun _ h => absurd h List.not_mem_nil
    | append_singleton is j ih =>
      intro t h
      rw [List.foldl_concat]
      by_cases hj : i = j
      · rw [hj, Function.update_self]
      · rw [Function.update_of_ne hj]
        exact ih t ((List.mem_append.1 h).resolve_right fun h => hj (List.mem_singleton.1 h))
  exact hfold _ s.table (List.mem_finRange i)

theorem irqInitResult_table (s : IrqState) (sym : Symbols) :
    (irqInitResult s sym).table = irqTable := by
  ext i : 1
  show Function.update (Function.update s.clearTable.table 1 ⟨some .kb, 0⟩) 4
    ⟨some .serial, 0⟩ i = _
  unfold irqTable
  by_cases h4 : i = 4
  · rw [h4, Function.update_self]
    rfl
  by_cases h1 : i = 1
  · rw [h1]
    rfl
  · rw [Function.update_of_ne h4, Function.update_of_ne h1, clearTable_apply, if_neg h1, if_neg h4]

/-- Nothing is in service. -/
theorem idle_initialised (c : Cascade) : (initialised c).Idle :=
  ⟨fun _ => rfl, fun _ => rfl⟩

/-- No initialisation is under way. -/
theorem ready_initialised (c : Cascade) : Ready (initialised c) :=
  ⟨rfl, rfl⟩

/-- The vector of a line is `32` plus its number. -/
theorem vector_initialised (c : Cascade) (l : PicLine) :
    (initialised c).vector l = BitVec.ofNat 8 (32 + l.irq.val) := by
  cases l with
  | master i =>
    have hvector : ∀ i : Fin 8,
        (0x20#8 &&& 0xf8 ||| BitVec.ofNat 8 i) = BitVec.ofNat 8 (32 + i) := by
      decide
    exact hvector i
  | slave j =>
    have hvector : ∀ j : Fin 8,
        (0x28#8 &&& 0xf8 ||| BitVec.ofNat 8 j) = BitVec.ofNat 8 (32 + (8 + j)) := by
      decide
    exact hvector j

/-- The two lines with handlers are let through, and the other masks are kept. -/
theorem masked_initialised (c : Cascade) (l : PicLine) :
    (initialised c).masked l = true ↔
      c.masked l = true ∧ l ≠ .master 1 ∧ l ≠ .master 4 := by
  have hready : Ready ⟨remapped c.master 0x20 4, remapped c.slave 0x28 2⟩ := ⟨rfl, rfl⟩
  have hmasks : (⟨remapped c.master 0x20 4, remapped c.slave 0x28 2⟩ : Cascade).masked l =
      c.masked l := by
    cases l <;> rfl
  have hline : ∀ k : PicLine, decide (l.irq.val = k.irq.val) = decide (l = k) := fun k =>
    decide_eq_decide.2 (by rw [← Fin.ext_iff, irq_injective.eq_iff])
  have hone : decide (l.irq.val = (1 : BitVec 8).toNat) = decide (l = .master 1) :=
    hline (.master 1)
  have hfour : decide (l.irq.val = (4 : BitVec 8).toNat) = decide (l = .master 4) :=
    hline (.master 4)
  rw [initialised, masked_clearMask (by decide) ⟨rfl, rfl⟩, masked_clearMask (by decide) hready,
    hmasks, hone, hfour]
  simp [and_assoc]

end Board

open Board

/-- The gate that `idt_init` sets for a line of the chips. -/
theorem decode_irq (t : Tables) (sym : Symbols) (i : Fin 16) :
    IdtGate.decode (t.idtInit sym).idt (BitVec.ofNat 8 (32 + i.val)) =
      { offset := sym.isr (i.natAdd 32)
        selector := 0x08
        ist := 0
        type := 0xE
        storage := false
        dpl := 0
        present := true } := by
  have hval : (BitVec.ofNat 8 (32 + i.val)).toNat = 32 + i.val :=
    Nat.mod_eq_of_lt (by omega)
  have hist : ∀ i : Fin 16, (istIndex (BitVec.ofNat 8 (32 + i.val))).setWidth 3 = 0 := by
    decide
  have hlt : (BitVec.ofNat 8 (32 + i.val)).toNat < 48 := by omega
  rw [t.decode_idtInit, Symbols.handler, dif_pos hlt, hist]
  congr

/-- The number that the stub of a line passes on. -/
theorem intNo_irq (handler : Cpu → Cpu) (cpu : Cpu) (gate : Gate) (i : Fin 16)
    (errCode : BitVec 64) :
    (InterruptFrame.load (cpu.atHandler handler gate (.ofVector (32 + i.val)) errCode).mem
      ((cpu.atHandler handler gate (.ofVector (32 + i.val)) errCode).regs .rdi)).intNo =
        BitVec.ofNat 64 (32 + i.val) := by
  have hstub : ∀ i : Fin 16, (Stub.ofVector (32 + i.val)).intNo = BitVec.ofNat 64 (32 + i.val) := by
    decide
  obtain ⟨hstack, hrdi⟩ := cpu.onStack_atHandler handler gate (.ofVector (32 + i.val)) errCode
  rw [hrdi, Cpu.load_frame hstack]
  exact hstub i

/-- `IRQ_init` can always come to its end, whatever the chips were doing and the devices do. Then
nothing is in service and the chips await no more initialisation words; each line has the
interrupt number `32` plus its own, whose gate leads to its stub, which passes on that number; the
lines of the keyboard and the serial port are unmasked and the masks of the others are what they
were; and the table has the handlers of these two lines and no others. -/
theorem irqInit_sets_up {S : Type} (P : Peripherals S) (b : Board S) (s : IrqState)
    (sym : Symbols) :
    (∀ p t, (Board.device P).Reaches (irqInit s sym, b) (p, t) →
      ∃ r u, (Board.device P).Reaches (p, t) (.ret r, u)) ∧
    ∀ r t, (Board.device P).Reaches (irqInit s sym, b) (.ret r, t) →
      t.pics.Idle ∧ Ready t.pics ∧ r.table = irqTable ∧
      ∀ l : PicLine,
        (t.pics.masked l = true ↔ b.pics.masked l = true ∧ l ≠ .master 1 ∧ l ≠ .master 4) ∧
        (t.pics.vector l).toNat = 32 + l.irq.val ∧
        (IdtGate.decode r.tables.idt (t.pics.vector l)).present = true ∧
        (IdtGate.decode r.tables.idt (t.pics.vector l)).offset =
          sym.isr (l.irq.natAdd 32) ∧
        ∀ (handler : Cpu → Cpu) (cpu : Cpu) (errCode : BitVec 64),
          let gate := (IdtGate.decode r.tables.idt (t.pics.vector l)).toGate r.tables.tss
          let called := cpu.atHandler handler gate (.ofVector (t.pics.vector l).toNat) errCode
          (InterruptFrame.load called.mem (called.regs .rdi)).intNo.toNat = 32 + l.irq.val := by
  have hholds := irqInit_triple (P := P) s sym b.pics.unlatched b rfl
  refine ⟨fun p t hr => ?_, fun r t hr => ?_⟩
  · obtain ⟨-, -, r, u, hu⟩ := hholds.sound hr
    exact ⟨r, u, hu⟩
  · obtain ⟨rfl, hknows⟩ := (hholds.sound hr).2.1 r rfl
    have hidle : t.pics.unlatched.Idle := hknows ▸ idle_initialised _
    have hready : Ready t.pics.unlatched := hknows ▸ ready_initialised _
    refine ⟨⟨hidle.master, hidle.slave⟩, hready, irqInitResult_table s sym, fun l => ?_⟩
    have hmasked : t.pics.masked l = (initialised b.pics.unlatched).masked l := by
      rw [← hknows]
      cases l <;> rfl
    have hvector : t.pics.vector l = BitVec.ofNat 8 (32 + l.irq.val) := by
      rw [← vector_initialised b.pics.unlatched, ← hknows]
      cases l <;> rfl
    have hval : (BitVec.ofNat 8 (32 + l.irq.val)).toNat = 32 + l.irq.val :=
      Nat.mod_eq_of_lt (by omega)
    rw [hmasked, hvector, hval]
    have hgate := decode_irq s.tables sym l.irq
    refine ⟨(masked_initialised _ l).trans ?_, rfl, congrArg IdtGate.present hgate,
      congrArg IdtGate.offset hgate, fun handler cpu errCode => ?_⟩
    · cases l <;> rfl
    · exact (congrArg BitVec.toNat (intNo_irq handler cpu _ l.irq errCode)).trans
        (Nat.mod_eq_of_lt (by omega))

end KernelDev
