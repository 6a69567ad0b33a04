import KernelDev.KeyboardLine

/-!
# Every key reaches the screen

The kernel behind the keyboard. `Told` is what its variables say of the bytes that were handled :
the static variables of `kb_interrupt_handler` and the screen are those of `kb_interrupt_handler`
called for each of these bytes, once and in order, and nothing else was printed. The handler of
line 1 adds the byte that it reads (`Told.byte`), and does nothing if there is none; every other
handler leaves the keyboard and the screen alone (`Told.quiet`).

The handler of the serial port would not, if the line had an error, since it prints a message then.
`Clean` says that the status of the serial line shows no errors, and with that it prints nothing
(`serialInterruptHandler_quiet`). In the same way the main program may do what it likes to the
variables but for these two and the address of the serial port (`Leaves`).

`keyboard_serves` is the statement about one interrupt : whatever the vector, the handler ends with
a kernel that was told of the bytes read so far, and with line 1 heard. It extends `kernel_serves`,
from which it takes the chips.
-/

namespace KernelDev

open PicLine

/-! ## The variables -/

/-- The handler does not look at the other bits of the status. -/
theorem kbInterruptHandler_status (k : KbStatics) {status : BitVec 8} (scancode : BitVec 8)
    (h : status &&& ps2StatusOutput ≠ 0) :
    kbInterruptHandler k status scancode = kbInterruptHandler k ps2StatusOutput scancode := by
  unfold kbInterruptHandler
  rw [if_neg h, if_neg (by decide : ¬ps2StatusOutput &&& ps2StatusOutput = 0)]

/-- The calls of the handler for a byte have a text. -/
theorem prints_kbInterruptHandler (k : KbStatics) (status scancode : BitVec 8) :
    ∃ text, Prints (kbInterruptHandler k status scancode).2 text := by
  rcases kbInterruptHandler_calls k status scancode with h | h
  · exact ⟨[], h ▸ prints_nil⟩
  · exact ⟨_, h ▸ prints_print k scancode⟩

/-- From `k₀` on the bytes were handled, and nothing else was printed. -/
structure Told (k₀ : Kernel) (bytes : List (BitVec 8)) (k : Kernel) : Prop where
  port : k.console.uart.portBase = com1
  kb : k.kb = (kbInterrupts k₀.kb bytes).1
  /-- The screen has got the text of the bytes. -/
  shown : ∃ text, Prints (kbInterrupts k₀.kb bytes).2 text ∧
    k.console.vga.shown = k₀.console.vga.shown ++ text

namespace Told

variable {k₀ k k' : Kernel} {bytes : List (BitVec 8)}

theorem nil (h : k.console.uart.portBase = com1) : Told k [] k :=
  ⟨h, rfl, [], prints_nil, (List.append_nil _).symm⟩

/-- What leaves the keyboard and the screen alone. -/
theorem quiet (h : Told k₀ bytes k) (hport : k'.console.uart.portBase = com1) (hkb : k'.kb = k.kb)
    (hshown : k'.console.vga.shown = k.console.vga.shown) : Told k₀ bytes k' where
  port := hport
  kb := hkb.trans h.kb
  shown := hshown ▸ h.shown

/-- One more byte. -/
theorem byte (h : Told k₀ bytes k) {status b : BitVec 8} (hstatus : status &&& ps2StatusOutput ≠ 0)
    {c : Console} (hc : k.console.printAll (kbInterruptHandler k.kb status b).2 = some c)
    (hemits : Uart.Emits k.console.uart c.uart) :
    Told k₀ (bytes ++ [b]) { k with console := c, kb := (kbInterruptHandler k.kb status b).1 } := by
  obtain ⟨text, htext, hshown⟩ := h.shown
  obtain ⟨text', htext'⟩ := prints_kbInterruptHandler k.kb status b
  obtain ⟨c', hc', hshown'⟩ := htext' k.console
  obtain rfl : c' = c := Option.some.inj (hc'.symm.trans hc)
  have happend := kbInterrupts_append [b] bytes k₀.kb
  have hbyte :
      kbInterrupts (kbInterrupts k₀.kb bytes).1 [b] = kbInterruptHandler k.kb status b := by
    rw [← h.kb, kbInterruptHandler_status k.kb b hstatus, kbInterrupts, kbInterrupts,
      List.append_nil]
  rw [hbyte] at happend
  refine ⟨hemits.1.trans h.port, ?_, text ++ text', ?_, ?_⟩
  · rw [happend]
  · rw [happend]
    exact htext.append htext'
  · rw [hshown', hshown, List.append_assoc]

end Told

/-- A line status without errors prints nothing. -/
theorem serialInterruptHandler_quiet {s s' : Console} {iir lsr : BitVec 8}
    (hlsr : lsr &&& comLineStatusErrors = 0) (h : s.serialInterruptHandler iir lsr = some s') :
    s'.vga = s.vga := by
  have hservice : ∀ {source : BitVec 8} {t : Console}, s.serviceInterrupt source lsr = some t →
      t.vga = s.vga := by
    intro source t ht
    unfold Console.serviceInterrupt at ht
    rw [if_neg (not_not.2 hlsr)] at ht
    split_ifs at ht
    all_goals
      cases ht
      rfl
  unfold Console.serialInterruptHandler at h
  split_ifs at h
  · cases h
    rfl
  · obtain ⟨t, ht, hret⟩ := Option.bind_eq_some_iff.1 h
    have hvga := hservice ht
    split_ifs at hret
    all_goals
      cases hret
      exact hvga

namespace Board

variable {R : Type} {Q : Peripherals R} {b : Board (KeyedPs2 × R)} {k₀ k : Kernel}
  {bytes : List (BitVec 8)}

/-- The serial line has no errors. -/
def Clean (Q : Peripherals R) : Prop :=
  ∀ r, (Q.device.read (com1 + comLineStatusOffset) r).1 &&& comLineStatusErrors = 0

/-- What the ports give when the serial line has no errors. -/
def cleanGives (port : BitVec 16) (v : BitVec 8) : Prop :=
  port = com1 + comLineStatusOffset → v &&& comLineStatusErrors = 0

/-- What the ports of the serial line give. -/
theorem gives_clean (hQ : Clean Q) (port : BitVec 16) (b : Board (KeyedPs2 × R)) :
    cleanGives port ((device (withKeyboard Q)).read port b).1 := by
  rintro rfl
  exact hQ b.rest.2

/-- The serial port is none of the ports in between. -/
theorem offLine_com1 {offset : BitVec 16} (h : offset.toNat < 8) : OffLine (com1 + offset) := by
  have hne : ∀ port : BitVec 16, port.toNat < 0x3f8 → com1 + offset ≠ port := by
    rintro port hport rfl
    unfold com1 at hport
    bv_omega
  exact ⟨⟨hne _ (by decide), hne _ (by decide)⟩, hne _ (by decide), hne _ (by decide),
    hne _ (by decide), hne _ (by decide)⟩

/-- The handlers of the other lines leave the keyboard and the screen alone. -/
theorem callIrq_quiet {i : Fin 16} (hi : i ≠ 1) (errCode : BitVec 64) (h : Told k₀ bytes k) :
    (callIrq Kernel.calls irqTable i errCode (missingIrq i) k).Straight OffLine cleanGives
      (Told k₀ bytes) := by
  by_cases h4 : i = 4
  · subst h4
    show k.serialHandler.Straight OffLine cleanGives (Told k₀ bytes)
    refine Kernel.serialHandler_straight (fun offset hoffset => ?_) h
      fun iir lsr c hlsr hc hemits => ?_
    · rw [h.port]
      exact offLine_com1 hoffset
    · have hclean : lsr &&& comLineStatusErrors = 0 := by
        rcases hlsr with rfl | hlsr
        · rfl
        · exact hlsr (by rw [h.port])
      exact h.quiet (hemits.1.trans h.port) rfl
        (congrArg Vga.shown (serialInterruptHandler_quiet hclean hc))
  · have hnone : (irqTable i).handler = none := by
      unfold irqTable
      rw [if_neg hi, if_neg h4]
    unfold callIrq
    rw [hnone, missingIrq, if_neg hi, if_neg h4]
    exact h

/-- What is known when a handler returns. -/
def Handled (k₀ : Kernel) (k : Kernel) (b : Board (KeyedPs2 × R)) : Prop :=
  ∃ bytes, Told k₀ bytes k ∧ b.kbLine.Heard bytes

/-- The status is read. -/
theorem read_ps2Cmd (b : Board (KeyedPs2 × R)) :
    ((device (withKeyboard Q)).read ps2Cmd b).1 = b.rest.1.ctl.status ∧
      ((device (withKeyboard Q)).read ps2Cmd b).2.kbLine = b.kbLine :=
  ⟨rfl, kbLine_follow b b.rest.2⟩

/-- The byte is read, and the line falls. -/
theorem read_ps2Data (b : Board (KeyedPs2 × R)) :
    ((device (withKeyboard Q)).read ps2Data b).1 = b.rest.1.ctl.output.getD 0 ∧
      ((device (withKeyboard Q)).read ps2Data b).2.kbLine =
        { b.kbLine with
          kb := { b.kbLine.kb with ctl := { b.kbLine.kb.ctl with output := none } } } := by
  refine ⟨rfl, ?_⟩
  show KbLine.mk (b.pics.master.irr 1 || false && !b.rest.1.line) _ _ = _
  rw [Bool.false_and, Bool.or_false]
  rfl

/-- A byte that waits is taken. -/
theorem kbHandler_waits {c : BitVec 8} (h : Told k₀ bytes k)
    (hb : b.kbLine.Waits bytes c) :
    (device (withKeyboard Q)).Holds (fun _ => True) k.kbHandler
      (fun k b => Told k₀ (bytes ++ [c]) k ∧ b.kbLine.Heard (bytes ++ [c])) b := by
  have hwaits := keeps_line (Q := Q) fun x y (hx : x.Waits bytes c) => hx.own
  have hheard := keeps_line (Q := Q) fun x y (hx : x.Heard (bytes ++ [c])) => hx.own
  intro t ht
  refine ⟨trivial, ?_⟩
  have hbt : t.kbLine.Waits bytes c := hwaits.moves hb ht
  obtain ⟨hstatus, hsame⟩ := read_ps2Cmd (Q := Q) t
  have hfull : t.rest.1.ctl.status &&& ps2StatusOutput ≠ 0 := by
    rw [Ne, Ps2Controller.status_output, show t.rest.1.ctl.output = some c from hbt.2]
    exact Option.some_ne_none c
  show (device (withKeyboard Q)).Holds _ (ite _ _ _) _ _
  rw [if_neg (by rwa [hstatus])]
  intro u hu
  refine ⟨trivial, ?_⟩
  have hbu : u.kbLine.Waits bytes c := hwaits.moves (hsame ▸ hbt) hu
  obtain ⟨hbyte, hline⟩ := read_ps2Data (Q := Q) u
  have hc : ((device (withKeyboard Q)).read ps2Data u).1 = c := by
    rw [hbyte, show u.rest.1.ctl.output = some c from hbu.2]
    rfl
  rw [hc]
  have hport : OffLine (k.console.uart.portBase + comTransmitOffset) := by
    rw [h.port]
    exact offLine_com1 (by decide)
  have hstraight := @Kernel.kbPrint_straight OffLine (fun _ _ => True) k (Told k₀ (bytes ++ [c]))
    ((device (withKeyboard Q)).read ps2Cmd t).1 c hport
    fun console hconsole hemits => h.byte (by rwa [hstatus]) hconsole hemits
  exact hheard.straight hstraight (fun _ _ _ => trivial) (by
    show KbLine.Heard _ (((device (withKeyboard Q)).read ps2Data u).2.kbLine)
    rw [hline]
    exact hbu.read)

/-- The handler of the keyboard, whatever it finds. -/
theorem kbHandler_holds (h : Told k₀ bytes k) (hb : b.kbLine.Reads bytes) :
    (device (withKeyboard Q)).Holds (fun _ => True) k.kbHandler (Handled k₀) b := by
  have hreads := keeps_line (Q := Q) fun x y (hx : x.Reads bytes) => hx.own
  have hheard := keeps_line (Q := Q) fun x y (hx : x.Heard bytes) => hx.own
  intro t ht
  have hbt : t.kbLine.Reads bytes := hreads.moves hb ht
  cases hout : t.rest.1.ctl.output with
  | some c =>
    have hwaits := (kbHandler_waits (Q := Q) h ⟨hbt, hout⟩).mono fun k b hkb =>
      (⟨_, hkb⟩ : Handled k₀ k b)
    exact hwaits t (.refl t)
  | none =>
    refine ⟨trivial, ?_⟩
    obtain ⟨hstatus, hsame⟩ := read_ps2Cmd (Q := Q) t
    show (device (withKeyboard Q)).Holds _ (ite _ _ _) _ _
    rw [if_pos (by rw [hstatus, Ps2Controller.status_output, hout])]
    intro u hu
    have hline : ((device (withKeyboard Q)).read ps2Cmd t).2.kbLine.Heard bytes := by
      rw [hsame]
      exact ⟨hbt, fun hne => absurd hout hne⟩
    exact ⟨trivial, bytes, h, hheard.moves hline hu⟩

/-- A line is served, when what its handler leaves is known. -/
theorem serveIrq_line {i : Fin 16} {errCode : BitVec 64} {T : Kernel → List (BitVec 8) → Prop}
    (h : (device (withKeyboard Q)).Holds (fun _ => True)
      (callIrq Kernel.calls irqTable i errCode (missingIrq i) k)
      (fun k b => ∃ bytes, T k bytes ∧ b.kbLine.Heard bytes) b) :
    (device (withKeyboard Q)).Holds (fun _ => True)
      (serveIrq Kernel.calls irqTable i errCode (missingIrq i) k)
      (fun k b => ∃ bytes, T k bytes ∧ b.kbLine.Heard bytes) b := by
  refine h.bind fun k b hkb => ?_
  obtain ⟨bytes, hT, hb⟩ := hkb b (.refl b)
  have hown : ∀ x y : KbLine, (T k bytes ∧ x.Heard bytes) → x.Own y → T k bytes ∧ y.Heard bytes :=
    fun x y hx hxy => ⟨hx.1, hx.2.own hxy⟩
  refine ((picSendEOI_line (Q := Q) hown _).bind fun _ => ?_) b ⟨hT, hb⟩
  intro u hu t ht
  obtain ⟨hT', hline⟩ := (keeps_line (Q := Q) hown).moves hu ht
  exact ⟨trivial, bytes, hT', hline⟩

/-- An interrupt is accepted : its vector is that of a line, and unless that is line 1, a byte that
waits still has a request. -/
theorem inta_kbLine {v : BitVec 8} {b' : Board (KeyedPs2 × R)} (h : Inta (withKeyboard Q) v b b')
    (hb : b.pics.fixed = settled) (hheard : b.kbLine.Heard bytes) :
    ∃ l : PicLine, v = BitVec.ofNat 8 (32 + l.irq.val) ∧ b'.kbLine.Reads bytes ∧
      (l ≠ .master 1 → b'.kbLine.Heard bytes) := by
  have hstays := (keeps_line (Q := Q) fun x y (hx : x.Heard bytes) => hx.own).toStays
  have hack : ∀ {b' : Board (KeyedPs2 × R)}, (device (withKeyboard Q)).Moves
      { b with pics.master := b.pics.master.ack 2 } b' →
      b'.kbLine.Heard bytes ∧ b'.pics.master.base = 0x20 ∧ b'.pics.slave.base = 0x28 := by
    intro b' hmoves
    refine ⟨hstays.moves ?_ hmoves, ?_⟩
    · show KbLine.Heard bytes ({ b with pics.master := b.pics.master.ack 2 } : Board _).kbLine
      rwa [ack_kbLine (by decide)]
    · have hmoved := base_of_fixed (moves_fixed hmoves)
      have hbase := base_of_fixed hb
      exact ⟨hmoved.1.trans hbase.1, hmoved.2.trans hbase.2⟩
  cases h with
  | @master _ i _ =>
    refine ⟨.master i, vector_eq (base_of_fixed hb) _, hheard.1, fun hi => ?_⟩
    have hne : i ≠ 1 := fun heq => hi (congrArg _ heq)
    rwa [ack_kbLine hne]
  | @slave _ b' j _ hmoves _ =>
    obtain ⟨hb', hbase⟩ := hack hmoves
    exact ⟨.slave j, vector_eq hbase _, hb'.1, fun _ => hb'⟩
  | spuriousMaster _ =>
    exact ⟨.master 7, vector_eq (base_of_fixed hb) _, hheard.1, fun _ => hheard⟩
  | spuriousSlave _ hmoves _ =>
    obtain ⟨hb', hbase⟩ := hack hmoves
    exact ⟨.slave 7, vector_eq hbase _, hb'.1, fun _ => hb'⟩

/-- What the main program may do to the variables while the keyboard is in use. -/
def Leaves (k k' : Kernel) : Prop :=
  k'.console.uart.portBase = com1 ∧ k'.kb = k.kb ∧ k'.console.vga.shown = k.console.vga.shown

/-- The handlers of the kernel take what is typed. -/
theorem keyboard_serves (hQ : Clean Q) (k₀ : Kernel) :
    (platform (withKeyboard Q) irqTable Leaves).Serves OffLine
      (fun b => b.pics.OneServed ∧ True)
      fun k b => (k.Placed ∧ b.pics.fixed = settled) ∧ Handled k₀ k b := by
  refine (kernel_serves (withKeyboard Q) irqTable fun k k' h => .inr h.1).and (fun _ h => h.command)
    (fun k => ?_) (fun k k' b h hb => ?_) fun v k p b b' hinta hp hrest hb => ?_
  · have hown : ∀ x y : KbLine, (∃ bytes, Told k₀ bytes k ∧ x.Heard bytes) → x.Own y →
        ∃ bytes, Told k₀ bytes k ∧ y.Heard bytes := by
      rintro x y ⟨bytes, htold, hheard⟩ hxy
      exact ⟨bytes, htold, hheard.own hxy⟩
    exact keeps_line (Q := Q) hown
  · obtain ⟨bytes, htold, hheard⟩ := hb
    exact ⟨bytes, htold.quiet h.1 h.2.1 h.2.2, hheard⟩
  · obtain ⟨bytes, htold, hheard⟩ := hb
    obtain ⟨l, hv, hreads, hheard'⟩ := inta_kbLine hinta hrest.2 hheard
    obtain ⟨errCode, rfl⟩ := handler_eq hv hp
    refine serveIrq_line (T := fun k bytes => Told k₀ bytes k) ?_
    by_cases hl : l = .master 1
    · rw [hl]
      exact kbHandler_holds htold hreads
    · have hirq : l.irq ≠ 1 := fun h => hl (irq_injective (h.trans rfl))
      have hkeeps := keeps_line (Q := Q) fun x y (hx : x.Heard bytes) => hx.own
      refine (hkeeps.straight (callIrq_quiet hirq errCode htold)
        (fun port b _ => gives_clean hQ port b) (hheard' hl)).mono ?_
      exact fun k b hkb => ⟨bytes, hkb⟩

end Board

end KernelDev
