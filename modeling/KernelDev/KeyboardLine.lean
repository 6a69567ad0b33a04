import KernelDev.IrqRuns
import KernelDev.KbInit

/-!
# From the keys to the screen

The way of a byte from the keyboard to the processor, in its last part. A byte that the controller
has for the processor raises line 1; the chip latches the rise; the processor is interrupted, and
the handler reads the byte, which lets the line fall. The next byte gets to the output buffer only
after that, so the line rises again for it. One interrupt for each byte is therefore enough, and no
byte is left in the output buffer without a request : this is `KbLine.Heard`, and each step of the
controller, of the chips and of the handlers keeps it.

A request may be latched without a byte, such as for one that somebody else has read. Then the
handler finds the output buffer empty and does nothing. What may not happen is the other way round,
and it needs that nobody but the handler reads the data port : `OffLine` is the ports that the main
program and the other handlers may use.

`Reads` relates the bytes that were read to the keys. `keyed` is the bytes of keys that were on
their way at the start and those typed since, and with a controller that is set up (`SetUp`), the
bytes read and then those on their way are all of these, in order (`Owes`). Line 1 of a board with
other devices is looked at on its own (`kbLine`), as these do not reach it (`keeps_line`).
-/

namespace KernelDev

open PicLine Ps2Keyboard

/-- A controller with a keyboard, and the bytes of the keys : those on their way at the start and
those pressed since. -/
structure KeyedPs2 where
  ctl : Ps2Controller
  /-- The bytes of the keys, read or not. -/
  keyed : List (BitVec 8)

namespace KeyedPs2

/-- What the controller and the keyboard do by themselves. -/
inductive Own : KeyedPs2 → KeyedPs2 → Prop
  | own {s : KeyedPs2} {t : Ps2Controller} : Ps2Controller.Own s.ctl t →
    t.keyboard.typed = s.ctl.keyboard.typed → Own s ⟨t, s.keyed⟩
  | press {s : KeyedPs2} {bs : List (BitVec 8)} : s.ctl.keyboard.scanning = true → Clear bs →
    Own s ⟨{ s.ctl with keyboard := s.ctl.keyboard.press bs }, s.keyed ++ bs⟩

/-- The request line : there is a byte for the processor, and the configuration lets it
interrupt. -/
def line (s : KeyedPs2) : Bool :=
  s.ctl.output.isSome && s.ctl.config.getLsbD 0

end KeyedPs2

/-- A keyboard beside other devices. Line 1 is that of its controller. -/
def withKeyboard {R : Type} (Q : Peripherals R) : Peripherals (KeyedPs2 × R) where
  device :=
    { read := fun port s =>
        if port = ps2Cmd ∨ port = ps2Data then
          let r := Ps2Controller.readPort port s.1.ctl
          (r.1, { s.1 with ctl := r.2 }, s.2)
        else
          let r := Q.device.read port s.2
          (r.1, s.1, r.2)
      write := fun port val s =>
        if port = ps2Cmd ∨ port = ps2Data then
          ({ s.1 with ctl := Ps2Controller.writePort port val s.1.ctl }, s.2)
        else (s.1, Q.device.write port val s.2)
      own := fun s t => KeyedPs2.Own s.1 t.1 ∧ t.2 = s.2 ∨ t.1 = s.1 ∧ Q.device.own s.2 t.2 }
  lines s l := if l = .master 1 then s.1.line else Q.lines s.2 l

/-! ## The controller -/

namespace Ps2Controller

/-- A controller that `ps2_init` and `kb_init` have set up and that has taken what it was sent. The
interrupts go to the chips. -/
structure SetUp (s : Ps2Controller) : Prop extends s.Masked where
  input : s.input = none
  interrupts : s.config.getLsbD 0 = true

variable {s t : Ps2Controller}

/-- The steps of a controller that is set up. -/
theorem SetUp.own (h : s.SetUp) (hown : Own s t) :
    t.SetUp ∧ (s.output ≠ none → t.output = s.output) ∧
      ∃ bs, t.stream = s.stream ++ bs ∧ t.keyboard.typed = s.keyboard.typed + bs.length := by
  have hquiet := own_quiet hown h.input
  rcases own_masked h.toMasked hown with ⟨c, hc, -⟩ | ⟨b, hb, -⟩ | ⟨bs, htyped⟩
  · simp [h.input] at hc
  · simp [h.input] at hb
  · refine ⟨⟨htyped.masked, htyped.input.trans h.input, hquiet.config ▸ h.interrupts⟩, ?_, bs,
      htyped.stream, htyped.typed⟩
    intro hout
    cases hown with
    | command hin _ => simp [h.input] at hin
    | data hin => simp [h.input] at hin
    | send hnone _ _ => exact absurd hnone hout
    | press _ _ => rfl
    | second _ hnone _ => exact absurd hnone hout
    | interrupt hirq _ _ => simp [h.irq] at hirq

end Ps2Controller

namespace KeyedPs2

variable {s t : KeyedPs2}

/-- The bytes that are read from a controller, and then those on their way, are those of the
keys. -/
def Owes (bytes : List (BitVec 8)) (s : KeyedPs2) : Prop :=
  s.ctl.SetUp ∧ bytes ++ s.ctl.stream = s.keyed

/-- The line is high while a byte waits. -/
theorem Owes.line {bytes : List (BitVec 8)} (h : Owes bytes s) :
    s.line = s.ctl.output.isSome := by
  rw [KeyedPs2.line, h.1.interrupts, Bool.and_true]

/-- The steps of a controller that is set up : the bytes stay in order, and a byte for the processor
stays until it is read. -/
theorem own_owes {bytes : List (BitVec 8)} (h : Owes bytes s) (hown : Own s t) :
    Owes bytes t ∧ (s.ctl.output ≠ none → t.ctl.output = s.ctl.output) := by
  obtain ⟨hup, hbytes⟩ := h
  cases hown with
  | @own t hown htyped =>
    obtain ⟨hup', hout, bs, hstream, hlen⟩ := hup.own hown
    obtain rfl : bs = [] := List.length_eq_zero_iff.1 (by omega)
    refine ⟨⟨hup', ?_⟩, hout⟩
    rw [hstream, List.append_nil]
    exact hbytes
  | @press bs hscan hclear =>
    obtain ⟨hup', hout, -⟩ := hup.own (.press hscan hclear)
    refine ⟨⟨hup', ?_⟩, hout⟩
    show bytes ++ (s.ctl.output.toList ++ (s.ctl.keyboard.queue ++ bs)) = s.keyed ++ bs
    rw [← hbytes, Ps2Controller.stream]
    simp only [List.append_assoc]

/-- The byte that is read is the next one. -/
theorem Owes.read {bytes : List (BitVec 8)} {b : BitVec 8} (h : Owes bytes s)
    (hout : s.ctl.output = some b) :
    Owes (bytes ++ [b]) { s with ctl := { s.ctl with output := none } } := by
  obtain ⟨hup, hbytes⟩ := h
  refine ⟨⟨⟨hup.safe, hup.irq, hup.port1, hup.port2, hup.idle⟩, hup.input, hup.interrupts⟩, ?_⟩
  rw [List.append_assoc, List.singleton_append, ← Ps2Controller.stream_read hout]
  exact hbytes

end KeyedPs2

/-! ## The line -/

/-- What is known of line 1 : whether its request is latched, whether it is masked, and what is
behind it. -/
structure KbLine where
  /-- The chip has the request of the line. -/
  latched : Bool
  masked : Bool
  kb : KeyedPs2

namespace KbLine

/-- The bytes were read, and the line is not masked. -/
def Reads (bytes : List (BitVec 8)) (x : KbLine) : Prop :=
  x.kb.Owes bytes ∧ x.masked = false

/-- A byte for the processor has a request. -/
def Heard (bytes : List (BitVec 8)) (x : KbLine) : Prop :=
  x.Reads bytes ∧ (x.kb.ctl.output ≠ none → x.latched = true)

/-- A byte waits for the processor. -/
def Waits (bytes : List (BitVec 8)) (b : BitVec 8) (x : KbLine) : Prop :=
  x.Reads bytes ∧ x.kb.ctl.output = some b

/-- The steps of the line : a device moves, or the request is dropped as the line is low. -/
inductive Own : KbLine → KbLine → Prop
  | refl {x : KbLine} : Own x x
  | device {x : KbLine} {kb : KeyedPs2} : KeyedPs2.Own x.kb kb →
    Own x ⟨x.latched || kb.line && !x.kb.line, x.masked, kb⟩
  | drop {x : KbLine} : x.kb.line = false → Own x { x with latched := false }

variable {x y : KbLine} {bytes : List (BitVec 8)} {b : BitVec 8}

/-- The steps of the line keep what was read. -/
theorem Reads.own (h : x.Reads bytes) (hown : Own x y) : y.Reads bytes := by
  cases hown with
  | refl => exact h
  | device hkb => exact ⟨(KeyedPs2.own_owes h.1 hkb).1, h.2⟩
  | drop => exact h

/-- A byte that gets to the output buffer raises the line, and has its request latched. -/
theorem Heard.own (h : x.Heard bytes) (hown : Own x y) : y.Heard bytes := by
  refine ⟨h.1.own hown, fun hout => ?_⟩
  cases hown with
  | refl => exact h.2 hout
  | @device kb hkb =>
    obtain ⟨howes, hkeeps⟩ := KeyedPs2.own_owes h.1.1 hkb
    by_cases hnone : x.kb.ctl.output = none
    · have hrise : kb.line = true ∧ x.kb.line = false := by
        rw [howes.line, h.1.1.line, hnone]
        exact ⟨Option.isSome_iff_ne_none.2 hout, rfl⟩
      simp [hrise]
    · simp [h.2 hnone]
  | drop hlow =>
    rw [h.1.1.line] at hlow
    exact absurd (Option.isSome_iff_ne_none.2 hout) (by simp [hlow])

/-- A byte that waits goes on waiting. -/
theorem Waits.own (h : x.Waits bytes b) (hown : Own x y) : y.Waits bytes b := by
  refine ⟨h.1.own hown, ?_⟩
  cases hown with
  | refl => exact h.2
  | device hkb =>
    exact ((KeyedPs2.own_owes h.1.1 hkb).2 (by simp [h.2])).trans h.2
  | drop => exact h.2

/-- Reading the byte lets the line fall. -/
theorem Waits.read (h : x.Waits bytes b) :
    Heard (bytes ++ [b])
      { x with kb := { x.kb with ctl := { x.kb.ctl with output := none } } } :=
  ⟨⟨h.1.1.read h.2, h.1.2⟩, fun hout => absurd rfl hout⟩

end KbLine

/-! ## The board -/

/-- The ports that are neither those of the chips nor those of the controller. -/
structure OffLine (port : BitVec 16) : Prop where
  command : OffCommand port
  pic1Data : port ≠ pic1Data
  pic2Data : port ≠ pic2Data
  ps2Cmd : port ≠ ps2Cmd
  ps2Data : port ≠ ps2Data

namespace Board

variable {R : Type} {Q : Peripherals R} {b b' : Board (KeyedPs2 × R)} {p : KbLine → Prop}

/-- Line 1 of the board. -/
def kbLine (b : Board (KeyedPs2 × R)) : KbLine :=
  ⟨b.pics.master.irr 1, b.pics.master.imr.getLsbD 1, b.rest.1⟩

/-- The other devices do not reach line 1. -/
theorem kbLine_follow (b : Board (KeyedPs2 × R)) (r : R) :
    (b.follow (withKeyboard Q) (b.rest.1, r)).kbLine = b.kbLine := by
  show KbLine.mk (b.pics.master.irr 1 || b.rest.1.line && !b.rest.1.line) _ _ = _
  rw [Bool.and_not_self, Bool.or_false]
  rfl

/-- What a step of the board is for the line. -/
theorem own_kbLine (h : Own (withKeyboard Q) b b') : b.kbLine.Own b'.kbLine := by
  cases h with
  | @device rest hrest =>
    obtain ⟨kb, r⟩ := rest
    rcases hrest with ⟨hkb, -⟩ | ⟨hkb, -⟩
    · exact .device hkb
    · obtain rfl : kb = b.rest.1 := hkb
      rw [kbLine_follow]
      exact .refl
  | @drop l hlow =>
    cases l with
    | master i =>
      by_cases hi : i = 1
      · subst hi
        exact .drop hlow
      · have hsame : ({ b with pics := b.pics.request false (.master i) } : Board _).kbLine =
            b.kbLine := by
          show KbLine.mk (Function.update b.pics.master.irr i false 1) _ _ = _
          rw [Function.update_of_ne (Ne.symm hi)]
          rfl
        rw [hsame]
        exact .refl
    | slave j => exact .refl

/-- Reading a port that is neither of the chips nor of the controller. -/
theorem readPort_kbLine {port : BitVec 16} (h : OffLine port) :
    (readPort (withKeyboard Q) port b).2.kbLine = b.kbLine := by
  rw [readPort, if_neg h.command.1, if_neg h.pic1Data, if_neg h.command.2, if_neg h.pic2Data]
  have hread : ((withKeyboard Q).device.read port b.rest).2 =
      (b.rest.1, (Q.device.read port b.rest.2).2) :=
    congrArg Prod.snd (if_neg (not_or.2 ⟨h.ps2Cmd, h.ps2Data⟩))
  rw [hread, kbLine_follow]

/-- Writing a port that is neither of the chips nor of the controller. -/
theorem writePort_kbLine {port : BitVec 16} (h : OffLine port) (val : BitVec 8) :
    (writePort (withKeyboard Q) port val b).kbLine = b.kbLine := by
  rw [writePort, if_neg h.command.1, if_neg h.pic1Data, if_neg h.command.2, if_neg h.pic2Data]
  have hwrite : (withKeyboard Q).device.write port val b.rest =
      (b.rest.1, Q.device.write port val b.rest.2) :=
    if_neg (not_or.2 ⟨h.ps2Cmd, h.ps2Data⟩)
  rw [hwrite, kbLine_follow]

/-- An end of interrupt leaves the line alone. -/
theorem writeEoi_kbLine (b : Board (KeyedPs2 × R)) :
    (writePort (withKeyboard Q) pic1Command picEoi b).kbLine = b.kbLine ∧
      (writePort (withKeyboard Q) pic2Command picEoi b).kbLine = b.kbLine := by
  refine ⟨?_, rfl⟩
  show KbLine.mk (b.pics.master.eoi.irr 1) (b.pics.master.eoi.imr.getLsbD 1) _ = _
  rw [Pic.eoi_eq]
  rfl

/-- Another line of the master is acknowledged. -/
theorem ack_kbLine {i : Fin 8} (hi : i ≠ 1) (b : Board (KeyedPs2 × R)) :
    ({ b with pics.master := b.pics.master.ack i } : Board _).kbLine = b.kbLine := by
  show KbLine.mk (Function.update b.pics.master.irr i false 1) _ _ = _
  rw [Function.update_of_ne (Ne.symm hi)]
  rfl

/-- What the steps of line 1 keep, no other device changes. -/
theorem keeps_line (h : ∀ x y, p x → KbLine.Own x y → p y) :
    (device (withKeyboard Q)).Keeps (fun _ => True) OffLine fun b => p b.kbLine where
  own _ _ hb hown := h _ _ hb (own_kbLine hown)
  safe _ _ := trivial
  read port b hport hb := by
    show p (readPort (withKeyboard Q) port b).2.kbLine
    rwa [readPort_kbLine hport]
  write port val b hport hb := by
    show p (writePort (withKeyboard Q) port val b).kbLine
    rwa [writePort_kbLine hport]

/-- `PIC_sendEOI` leaves the line alone. -/
theorem picSendEOI_line (h : ∀ x y, p x → KbLine.Own x y → p y) (irq : BitVec 8) :
    (device (withKeyboard Q)).Triple (fun _ => True) (fun b => p b.kbLine) (picSendEOI irq)
      fun _ b => p b.kbLine := by
  have hstays := (keeps_line (Q := Q) h).toStays
  have h1 : (device (withKeyboard Q)).Triple (fun _ => True) (fun b => p b.kbLine)
      (outb pic1Command picEoi) fun _ b => p b.kbLine :=
    .write hstays hstays fun b hb => by
      show p (writePort (withKeyboard Q) pic1Command picEoi b).kbLine
      rwa [(writeEoi_kbLine b).1]
  have h2 : (device (withKeyboard Q)).Triple (fun _ => True) (fun b => p b.kbLine)
      (outb pic2Command picEoi) fun _ b => p b.kbLine :=
    .write hstays hstays fun b hb => by
      show p (writePort (withKeyboard Q) pic2Command picEoi b).kbLine
      rwa [(writeEoi_kbLine b).2]
  unfold picSendEOI
  split_ifs
  · exact h2.bind fun _ => h1
  · exact h1

end Board

end KernelDev
