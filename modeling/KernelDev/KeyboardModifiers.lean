import KernelDev.Keyboard

/-!
# The modifier flags and the keys

The model of the keyboard that the flags are compared with. Keys are pressed, repeat while they are
held, and are released; each of these events is a sequence of scan codes or several (`sequences`).
Print Screen and the arrows may have Shift made or broken around their own codes, depending on what
is held and on Num Lock, and Pause sends all of its codes at once when it is pressed.

`kb_interrupt_handler` has one flag for both Shift keys, one for both Ctrl keys and one for both
Alt keys, and toggles its Caps Lock flag with each make code. It follows the keys unless an event
is not `Faithful` : a Shift is released while the other one is held, Caps Lock repeats, or the
codes around an extended key make or break a Shift that is not held as they say.

The statement is shown for one event first. `kbInterrupts_sequences` is what the handler makes of
complete sequences, `KeyEvent.effect` what that does to the flags, and `showsKeys_effect` says that
the flags show the keys after an event just if it is faithful, provided that they did before it.
The count of the changes of `kb_capslock` takes the same course (`countP_sequences`). Over a run
the statement is about every event in the state of the keys before it (`Throughout`), and
`modifiers_follow_keys_iff` is by induction on the events, from the last one.

`shift_lost` is the smallest run that is not followed : both Shift keys, of which the left one is
released.
-/

namespace KernelDev

/-- The code of a key that is no modifier. -/
abbrev PlainCode := { c : BitVec 8 // c ≠ kbExtended ∧ c ≠ kbKeyRelease ∧ isModifier c = false }

/-- The keys. A key other than the modifiers and Pause has a code of its own, which may be
behind `KB_EXTENDED`. -/
inductive Key where
  | leftShift
  | rightShift
  | leftCtrl
  | rightCtrl
  | leftAlt
  | rightAlt
  | capsLock
  | pause
  | plain (c : PlainCode)
  | extended (c : PlainCode)
  deriving DecidableEq

inductive KeyAction where
  | press
  | typematic
  | release
  deriving DecidableEq

/-- The sequences that a key may have besides its usual one: around the code of an extended key
a Shift can be made or broken, as with Print Screen or, depending on Num Lock, the arrows, and
Pause has another sequence while a Ctrl is held. -/
inductive KeyForm where
  | usual
  | shiftMade (code : BitVec 8) (h : code = kbScLshift ∨ code = kbScRshift)
  | shiftBroken (code : BitVec 8) (h : code = kbScLshift ∨ code = kbScRshift)
  | ctrlPause
  deriving DecidableEq

/-- A Shift key has no prefix for its code. -/
theorem ne_prefix_of_shift {code : BitVec 8} (h : code = kbScLshift ∨ code = kbScRshift) :
    code ≠ kbExtended ∧ code ≠ kbKeyRelease := by
  rcases h with rfl | rfl <;> decide

structure KeyEvent where
  key : Key
  action : KeyAction
  /-- Which of its sequences the key has. -/
  form : KeyForm

/-- The codes around that of an extended key. -/
def KeyForm.around : KeyForm → List ScanSequence
  | shiftMade code h => [⟨true, false, code, ne_prefix_of_shift h⟩]
  | shiftBroken code h => [⟨true, true, code, ne_prefix_of_shift h⟩]
  | _ => []

/-- The sequence of a key with the code `c`, behind `KB_EXTENDED` or not. -/
def KeyAction.sequence (extended : Bool) (c : BitVec 8) (h : c ≠ kbExtended ∧ c ≠ kbKeyRelease)
    (a : KeyAction) : ScanSequence :=
  ⟨extended, a = .release, c, h⟩

namespace KeyEvent

/-- The sequences of the event. Pause sends all of its codes when it is pressed, and does not
repeat. -/
def sequences (e : KeyEvent) : List ScanSequence :=
  match e.key with
  | .leftShift => [e.action.sequence false kbScLshift (by decide)]
  | .rightShift => [e.action.sequence false kbScRshift (by decide)]
  | .leftCtrl => [e.action.sequence false kbScLctrl (by decide)]
  | .rightCtrl => [e.action.sequence true kbScLctrl (by decide)]
  | .leftAlt => [e.action.sequence false kbScLalt (by decide)]
  | .rightAlt => [e.action.sequence true kbScLalt (by decide)]
  | .capsLock => [e.action.sequence false kbScCapslock (by decide)]
  | .pause =>
    if e.action ≠ .press then []
    else if e.form = .ctrlPause then
      [⟨true, false, 0x7e, by decide⟩, ⟨true, true, 0x7e, by decide⟩]
    else
      [⟨false, false, 0xe1, by decide⟩, ⟨false, false, 0x14, by decide⟩,
        ⟨false, false, 0x77, by decide⟩, ⟨false, false, 0xe1, by decide⟩,
        ⟨false, true, 0x14, by decide⟩, ⟨false, true, 0x77, by decide⟩]
  | .plain c => [e.action.sequence false c.1 ⟨c.2.1, c.2.2.1⟩]
  | .extended c =>
    if e.action = .release then e.action.sequence true c.1 ⟨c.2.1, c.2.2.1⟩ :: e.form.around
    else e.form.around ++ [e.action.sequence true c.1 ⟨c.2.1, c.2.2.1⟩]

/-- The keys held after the event. -/
def hold (held : Key → Bool) (e : KeyEvent) : Key → Bool :=
  match e.action with
  | .press => Function.update held e.key true
  | .typematic => held
  | .release => Function.update held e.key false

/-- A key is pressed when it is up, and repeats and is released when it is down. -/
def Possible (held : Key → Bool) (e : KeyEvent) : Prop :=
  match e.action with
  | .press => held e.key = false
  | _ => held e.key = true

/-- The event leaves the flags with the keys. -/
def Faithful (held : Key → Bool) (e : KeyEvent) : Prop :=
  match e.key, e.action with
  | .leftShift, .release => held .rightShift = false
  | .rightShift, .release => held .leftShift = false
  | .leftCtrl, .release => held .rightCtrl = false
  | .rightCtrl, .release => held .leftCtrl = false
  | .leftAlt, .release => held .rightAlt = false
  | .rightAlt, .release => held .leftAlt = false
  | .capsLock, .typematic => False
  | .pause, .press => e.form = .ctrlPause ∨ held .leftCtrl = false ∧ held .rightCtrl = false
  | .extended _, _ =>
    match e.form with
    | .shiftMade _ _ => held .leftShift = true ∨ held .rightShift = true
    | .shiftBroken _ _ => held .leftShift = false ∧ held .rightShift = false
    | _ => True
  | _, _ => True

/-- A press of Caps Lock. -/
def isCapsPress (e : KeyEvent) : Bool :=
  e.key = .capsLock ∧ e.action = .press

end KeyEvent

/-- The keys held after the events, none being held at first. -/
def heldAfter (es : List KeyEvent) : Key → Bool :=
  es.foldl KeyEvent.hold fun _ => false

/-- Each event has the property in the state of the keys before it. -/
def Throughout (P : (Key → Bool) → KeyEvent → Prop) (es : List KeyEvent) : Prop :=
  ∀ p e, p ++ [e] <+: es → P (heldAfter p) e

/-- The scan codes of the events. -/
def scanCodes (es : List KeyEvent) : List (BitVec 8) :=
  (es.flatMap KeyEvent.sequences).flatMap ScanSequence.bytes

/-- How often `kb_capslock` changes while the bytes come in. -/
def capslockFlips : KbStatics → List (BitVec 8) → ℕ
  | _, [] => 0
  | k, b :: bytes =>
    let k' := (kbInterruptHandler k ps2StatusOutput b).1
    (if k'.capslock = k.capslock then 0 else 1) + capslockFlips k' bytes

/-- The flags of `kb_interrupt_handler` show the keys that are held. -/
@[mk_iff]
structure ShowsKeys (held : Key → Bool) (f : KbFlags) : Prop where
  /-- One flag for both Shift keys. -/
  shift : f.shift = true ↔ held .leftShift = true ∨ held .rightShift = true
  ctrl : f.ctrl = true ↔ held .leftCtrl = true ∨ held .rightCtrl = true
  alt : f.alt = true ↔ held .leftAlt = true ∨ held .rightAlt = true

/-- After the events, the flags show the keys, and `kb_capslock` has changed once for each press
of Caps Lock. -/
def FollowsKeys (es : List KeyEvent) : Prop :=
  ShowsKeys (heldAfter es) (kbInterrupts KbStatics.clear (scanCodes es)).1.toKbFlags ∧
    capslockFlips KbStatics.clear (scanCodes es) = es.countP KeyEvent.isCapsPress

/-- The codes of Pause. -/
example : scanCodes [⟨.pause, .press, .usual⟩] =
    [0xe1, 0x14, 0x77, 0xe1, 0xf0, 0x14, 0xf0, 0x77] := by
  decide

/-! ## The handler over sequences -/

/-- The changes over some bytes, and from there over the others. -/
theorem capslockFlips_append (bytes' : List (BitVec 8)) : ∀ (bytes : List (BitVec 8)) k,
    capslockFlips k (bytes ++ bytes') =
      capslockFlips k bytes + capslockFlips (kbInterrupts k bytes).1 bytes'
  | [], _ => (Nat.zero_add _).symm
  | b :: bytes, k => by
    rw [List.cons_append, capslockFlips, capslockFlips, capslockFlips_append bytes' bytes,
      Nat.add_assoc]
    rfl

/-- The code of Caps Lock pressed. -/
def ScanSequence.isCaps (q : ScanSequence) : Bool :=
  !q.broken && q.code == kbScCapslock

theorem KbFlags.capslock_release (f : KbFlags) (scancode : BitVec 8) :
    (f.release scancode).capslock = f.capslock := by
  unfold release
  split_ifs <;> rfl

theorem KbFlags.capslock_press (f : KbFlags) (scancode : BitVec 8) :
    (f.press scancode).capslock =
      if scancode = kbScCapslock then !f.capslock else f.capslock := by
  unfold press
  split_ifs <;> rfl

/-- `kb_capslock` changes with a sequence of Caps Lock pressed, and with no other one. -/
theorem capslockFlips_bytes {k : KbStatics} (h : k.Between) (q : ScanSequence) :
    capslockFlips k q.bytes = if q.isCaps then 1 else 0 := by
  obtain ⟨f, awaiting⟩ := k
  obtain rfl : awaiting = false := h.awaitingBreakCode
  obtain ⟨e, b, c, hc⟩ := q
  cases e <;> cases b <;>
    simp [ScanSequence.bytes, ScanSequence.isCaps, capslockFlips, kbInterruptHandler_extended,
      kbInterruptHandler_release, kbInterruptHandler_made hc, kbInterruptHandler_broken hc,
      KbFlags.capslock_press, KbFlags.capslock_release]

/-- The handler over complete sequences: the flags, and how often `kb_capslock` changes. -/
theorem kbInterrupts_sequences (qs : List ScanSequence) : ∀ {k : KbStatics}, k.Between →
    (kbInterrupts k (qs.flatMap ScanSequence.bytes)).1 =
        ⟨qs.foldl KbFlags.after k.toKbFlags, false⟩ ∧
      capslockFlips k (qs.flatMap ScanSequence.bytes) = qs.countP ScanSequence.isCaps := by
  induction qs with
  | nil =>
    rintro ⟨f, awaiting⟩ h
    obtain rfl : awaiting = false := h.awaitingBreakCode
    exact ⟨rfl, rfl⟩
  | cons q qs ih =>
    intro k h
    have hbetween : (⟨k.toKbFlags.after q, false⟩ : KbStatics).Between :=
      ⟨(k.toKbFlags.extended_after q).trans h.extended, rfl⟩
    obtain ⟨hflags, hflips⟩ := ih hbetween
    have hq : (kbInterrupts k q.bytes).1 = ⟨k.toKbFlags.after q, false⟩ := by
      rw [kbInterrupts_bytes h q]
    rw [List.flatMap_cons, kbInterrupts_append, capslockFlips_append, hq, hflags, hflips,
      capslockFlips_bytes h, List.countP_cons, Nat.add_comm]
    exact ⟨rfl, rfl⟩

/-! ## One event -/

/-- A code that is no modifier leaves the flags alone. -/
theorem KbFlags.after_plain (f : KbFlags) {q : ScanSequence} (h : isModifier q.code = false) :
    f.after q = f ∧ q.isCaps = false := by
  simp only [isModifier, Bool.or_eq_false_iff, beq_eq_false_iff_ne, ne_eq] at h
  simp [after, press, release, ScanSequence.isCaps, h]

/-- What the event does to the flags. -/
def KeyEvent.effect (e : KeyEvent) (f : KbFlags) : KbFlags :=
  match e.key, e.action with
  | .leftShift, a | .rightShift, a => { f with shift := decide (a ≠ .release) }
  | .leftCtrl, a | .rightCtrl, a => { f with ctrl := decide (a ≠ .release) }
  | .leftAlt, a | .rightAlt, a => { f with alt := decide (a ≠ .release) }
  | .capsLock, a => { f with capslock := f.capslock ^^ decide (a ≠ .release) }
  | .pause, .press => { f with ctrl := f.ctrl && decide (e.form = .ctrlPause) }
  | .pause, _ => f
  | .plain _, _ => f
  | .extended _, _ =>
    match e.form with
    | .shiftMade _ _ => { f with shift := true }
    | .shiftBroken _ _ => { f with shift := false }
    | _ => f

/-- The codes around that of an extended key are those of Shift. -/
theorem foldl_around (f : KbFlags) (form : KeyForm) (c : PlainCode) :
    form.around.foldl KbFlags.after f = KeyEvent.effect ⟨.extended c, .press, form⟩ f ∧
      form.around.countP ScanSequence.isCaps = 0 := by
  cases form with
  | usual => exact ⟨rfl, rfl⟩
  | ctrlPause => exact ⟨rfl, rfl⟩
  | shiftMade code h => rcases h with rfl | rfl <;> exact ⟨rfl, rfl⟩
  | shiftBroken code h => rcases h with rfl | rfl <;> exact ⟨rfl, rfl⟩

/-- The sequences of an event, one after the other. -/
theorem foldl_sequences (f : KbFlags) (e : KeyEvent) :
    e.sequences.foldl KbFlags.after f = e.effect f := by
  obtain ⟨key, action, form⟩ := e
  cases key
  case plain c =>
    exact (f.after_plain (q := action.sequence false c.1 ⟨c.2.1, c.2.2.1⟩) c.2.2.2).1
  case extended c =>
    obtain ⟨haround, -⟩ := foldl_around f form c
    have hplain (g : KbFlags) := (g.after_plain
      (q := action.sequence true c.1 ⟨c.2.1, c.2.2.1⟩) c.2.2.2).1
    unfold KeyEvent.sequences
    dsimp only
    split_ifs with h
    · subst h
      rw [List.foldl_cons, hplain, haround]
      rfl
    · rw [List.foldl_append, haround, List.foldl_cons, hplain]
      rfl
  case pause =>
    cases action
    case press =>
      unfold KeyEvent.sequences KeyEvent.effect
      by_cases h : form = .ctrlPause <;>
        simp [h, KbFlags.after, KbFlags.press, KbFlags.release, kbScCapslock, kbScLshift,
          kbScRshift, kbScLctrl, kbScLalt]
    all_goals rfl
  all_goals cases action <;>
    simp [KeyEvent.sequences, KeyAction.sequence, KeyEvent.effect, KbFlags.after, KbFlags.press,
      KbFlags.release, kbScCapslock, kbScLshift, kbScRshift, kbScLctrl, kbScLalt]

/-- A sequence of Caps Lock comes from a press or from a repeat. -/
theorem countP_sequences (e : KeyEvent) :
    e.sequences.countP ScanSequence.isCaps =
      if e.key = .capsLock ∧ e.action ≠ .release then 1 else 0 := by
  obtain ⟨key, action, form⟩ := e
  cases key
  case plain c =>
    have hplain := (KbFlags.clear.after_plain
      (q := action.sequence false c.1 ⟨c.2.1, c.2.2.1⟩) c.2.2.2).2
    simp [KeyEvent.sequences, hplain]
  case extended c =>
    have haround := (foldl_around .clear form c).2
    have hplain := (KbFlags.clear.after_plain
      (q := action.sequence true c.1 ⟨c.2.1, c.2.2.1⟩) c.2.2.2).2
    rw [if_neg (by simp), KeyEvent.sequences]
    dsimp only
    split_ifs
    · rw [List.countP_cons, haround, hplain]
      rfl
    · rw [List.countP_append, haround, List.countP_singleton, hplain]
      rfl
  case pause =>
    rw [if_neg (by simp), KeyEvent.sequences]
    dsimp only
    split_ifs <;> rfl
  all_goals cases action <;> rfl

/-- An event leaves the flags with the keys exactly if it is faithful. -/
theorem showsKeys_effect {held : Key → Bool} {f : KbFlags} {e : KeyEvent}
    (h : ShowsKeys held f) (he : e.Possible held) :
    ShowsKeys (e.hold held) (e.effect f) ∧
      e.sequences.countP ScanSequence.isCaps = (if e.isCapsPress then 1 else 0) ↔
      e.Faithful held := by
  rw [countP_sequences, showsKeys_iff]
  obtain ⟨hshift, hctrl, halt⟩ := h
  obtain ⟨key, action, form⟩ := e
  cases key
  case pause =>
    cases action
    case press =>
      have hiff : (held .leftCtrl = true ∨ held .rightCtrl = true → form = .ctrlPause) ↔
          form = .ctrlPause ∨ held .leftCtrl = false ∧ held .rightCtrl = false := by
        cases held .leftCtrl <;> cases held .rightCtrl <;> simp
      simp_all [KeyEvent.effect, KeyEvent.hold, KeyEvent.Faithful, KeyEvent.isCapsPress]
    all_goals simp_all [KeyEvent.effect, KeyEvent.hold, KeyEvent.Faithful, KeyEvent.isCapsPress]
  case extended c =>
    cases action <;> cases form <;>
      simp_all [KeyEvent.effect, KeyEvent.hold, KeyEvent.Faithful, KeyEvent.isCapsPress]
  all_goals cases action <;>
    simp_all [KeyEvent.effect, KeyEvent.hold, KeyEvent.Faithful, KeyEvent.Possible,
      KeyEvent.isCapsPress]

/-! ## Runs -/

theorem throughout_nil (P : (Key → Bool) → KeyEvent → Prop) : Throughout P [] := by
  intro p e h
  simp at h

theorem throughout_concat {P : (Key → Bool) → KeyEvent → Prop} {es : List KeyEvent}
    {e : KeyEvent} : Throughout P (es ++ [e]) ↔ Throughout P es ∧ P (heldAfter es) e := by
  constructor
  · intro h
    exact ⟨fun p e' hp => h p e' (hp.trans (List.prefix_append _ _)),
      h es e (List.prefix_refl _)⟩
  · rintro ⟨hes, he⟩ p e' hp
    rcases List.prefix_concat_iff.1 hp with heq | hp
    · obtain ⟨rfl, hsingle⟩ := List.append_inj' heq rfl
      obtain rfl := List.singleton_inj.1 hsingle
      exact he
    · exact hes p e' hp

theorem heldAfter_concat (es : List KeyEvent) (e : KeyEvent) :
    heldAfter (es ++ [e]) = e.hold (heldAfter es) := by
  rw [heldAfter, heldAfter, List.foldl_append]
  rfl

/-- The flags after the events, and the changes of `kb_capslock`. -/
theorem followsKeys_iff (es : List KeyEvent) :
    FollowsKeys es ↔ ShowsKeys (heldAfter es) (es.foldl (fun f e => e.effect f) .clear) ∧
      (es.flatMap KeyEvent.sequences).countP ScanSequence.isCaps =
        es.countP KeyEvent.isCapsPress := by
  have hflags : (es.flatMap KeyEvent.sequences).foldl KbFlags.after .clear =
      es.foldl (fun f e => e.effect f) .clear := by
    rw [List.foldl_flatMap]
    simp only [foldl_sequences]
  obtain ⟨hstate, hflips⟩ := kbInterrupts_sequences (es.flatMap KeyEvent.sequences)
    KbStatics.between_clear
  rw [FollowsKeys, scanCodes, hstate, hflips, ← hflags]
  rfl

theorem followsKeys_nil : FollowsKeys [] := by
  rw [followsKeys_iff, showsKeys_iff]
  simp [heldAfter, KbFlags.clear]

theorem followsKeys_concat {es : List KeyEvent} {e : KeyEvent} (h : FollowsKeys es)
    (he : e.Possible (heldAfter es)) :
    FollowsKeys (es ++ [e]) ↔ e.Faithful (heldAfter es) := by
  obtain ⟨hshows, hflips⟩ := (followsKeys_iff es).1 h
  rw [followsKeys_iff, ← showsKeys_effect hshows he, heldAfter_concat, List.foldl_append,
    List.flatMap_append, List.countP_append, List.countP_append, hflips, Nat.add_left_cancel_iff,
    List.flatMap_singleton, List.countP_singleton]
  rfl

/-- After every event the flags of the interrupt handler show the keys, and `kb_capslock` has
changed once for each press of Caps Lock, exactly if every event is faithful: a Shift, Ctrl or
Alt is not released while its twin is held, Caps Lock does not repeat, Pause is not pressed with
its usual codes while a Ctrl is held, and around an extended key a Shift is made only while one
is held and broken only while none is. -/
theorem modifiers_follow_keys_iff (es : List KeyEvent) (h : Throughout KeyEvent.Possible es) :
    (∀ p, p <+: es → FollowsKeys p) ↔ Throughout KeyEvent.Faithful es := by
  induction es using List.reverseRecOn with
  | nil =>
    refine iff_of_true (fun p hp => ?_) (throughout_nil _)
    rw [List.prefix_nil.1 hp]
    exact followsKeys_nil
  | append_singleton es e ih =>
    obtain ⟨hes, he⟩ := throughout_concat.1 h
    rw [throughout_concat, ← ih hes]
    constructor
    · intro hall
      have hfollows (p : List KeyEvent) (hp : p <+: es) : FollowsKeys p :=
        hall p (hp.trans (List.prefix_append _ _))
      exact ⟨hfollows, (followsKeys_concat (hfollows es (List.prefix_refl _)) he).1
        (hall _ (List.prefix_refl _))⟩
    · rintro ⟨hfollows, hfaithful⟩ p hp
      rcases List.prefix_concat_iff.1 hp with rfl | hp
      · exact (followsKeys_concat (hfollows es (List.prefix_refl _)) he).2 hfaithful
      · exact hfollows p hp

/-- A capital letter with the right Shift. -/
def capitalRun : List KeyEvent :=
  [⟨.rightShift, .press, .usual⟩, ⟨.rightShift, .typematic, .usual⟩,
    ⟨.plain ⟨0x1c, by decide⟩, .press, .usual⟩, ⟨.plain ⟨0x1c, by decide⟩, .release, .usual⟩,
    ⟨.rightShift, .release, .usual⟩]

theorem modifiers_follow_keys_capitalRun :
    (∀ p, p <+: capitalRun → FollowsKeys p) ↔ Throughout KeyEvent.Faithful capitalRun := by
  refine modifiers_follow_keys_iff capitalRun ?_
  have hsplit : capitalRun = ((((([] ++ [⟨.rightShift, .press, .usual⟩]) ++
      [⟨.rightShift, .typematic, .usual⟩]) ++ [⟨.plain ⟨0x1c, by decide⟩, .press, .usual⟩]) ++
      [⟨.plain ⟨0x1c, by decide⟩, .release, .usual⟩]) ++ [⟨.rightShift, .release, .usual⟩]) := rfl
  rw [hsplit]
  simp only [throughout_concat]
  exact ⟨⟨⟨⟨⟨throughout_nil _, rfl⟩, rfl⟩, rfl⟩, rfl⟩, rfl⟩

/-- Both Shift keys, of which the left one is released. -/
theorem shift_lost : ¬∀ es : List KeyEvent, Throughout KeyEvent.Possible es →
    ∀ p, p <+: es → FollowsKeys p := by
  intro h
  have hpossible : Throughout KeyEvent.Possible ((([] ++ [⟨.leftShift, .press, .usual⟩]) ++
      [⟨.rightShift, .press, .usual⟩]) ++ [⟨.leftShift, .release, .usual⟩]) := by
    simp only [throughout_concat]
    exact ⟨⟨⟨throughout_nil _, rfl⟩, rfl⟩, rfl⟩
  have hshift := (h _ hpossible _ (List.prefix_refl _)).1.shift
  exact absurd (hshift.2 (.inr rfl)) (by decide)

end KernelDev
