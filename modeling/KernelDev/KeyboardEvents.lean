import KernelDev.KeyboardDrivers
import KernelDev.KeyboardModifiers

/-!
# Key events behind the bytes

`kb_interrupt_handler` sees one byte at a time, and interrupts without a byte in between : an
interrupt may be spurious, and then the status says that there is nothing to read. Above it there
are only key events and four modifiers. An event changes the modifier of its code, or is shown as a
text that depends on its code, its own prefix and the modifiers; Caps Lock toggles when it is
pressed, and its release has no effect.

The handler refines that. A `Stroke` is an event with the interrupts that deliver its bytes, among
them any number of spurious ones, in any places. `Decodes` is what is said of one : behind it the
two prefix flags are clear; a break clears the modifier of its code at most; a make sets or toggles
that of its code; and one of a code without a modifier prints its text, which the other flags have
no part in (`flags_modifiers`).

Spurious interrupts are dealt with first : only the bytes delivered count (`kbRun_eq`), so that an
event is one run of the handler over the bytes of its sequence (`kbInterrupts_bytes`). That the
prefix flags are clear before it comes from the events before (`between_kbAfter`), by induction on
them. `decodes_stroke` puts the two together, for every list of events from the first interrupt on.
-/

namespace KernelDev

/-! ## Key events -/

inductive Modifier where
  | capslock
  | shift
  | ctrl
  | alt
  deriving DecidableEq

/-- The modifier of a code. -/
def Modifier.ofCode (code : BitVec 8) : Option Modifier :=
  if code = kbScCapslock then some capslock
  else if code = kbScLshift ∨ code = kbScRshift then some shift
  else if code = kbScLctrl then some ctrl
  else if code = kbScLalt then some alt
  else none

/-- Which modifiers are on. -/
abbrev Modifiers := Modifier → Bool

namespace Modifiers

/-- A key is pressed. Caps Lock toggles. -/
def press (m : Modifiers) : Option Modifier → Modifiers
  | none => m
  | some .capslock => Function.update m .capslock (!m .capslock)
  | some x => Function.update m x true

/-- A key is released. That of Caps Lock has no effect. -/
def release (m : Modifiers) : Option Modifier → Modifiers
  | none => m
  | some .capslock => m
  | some x => Function.update m x false

/-- The flags of `kb_interrupt_handler` behind a prefix. -/
def flags (m : Modifiers) (extended : Bool) : KbFlags :=
  ⟨extended, m .capslock, m .shift, m .ctrl, m .alt⟩

end Modifiers

/-- The modifiers that the handler keeps. -/
def KbFlags.modifiers (f : KbFlags) : Modifiers
  | .capslock => f.capslock
  | .shift => f.shift
  | .ctrl => f.ctrl
  | .alt => f.alt

/-! ## Interrupts -/

/-- An interrupt, with the bytes that the two ports give. -/
structure KbInterrupt where
  status : BitVec 8
  data : BitVec 8

/-- The interrupts, one after the other. -/
def kbRun : KbStatics → List KbInterrupt → KbStatics × List KbPrint
  | k, [] => (k, [])
  | k, i :: is =>
    let first := kbInterruptHandler k i.status i.data
    let rest := kbRun first.1 is
    (rest.1, first.2 ++ rest.2)

/-- The bytes of the interrupts that are not spurious. -/
def delivered (is : List KbInterrupt) : List (BitVec 8) :=
  (is.filter fun i => i.status &&& ps2StatusOutput ≠ 0).map KbInterrupt.data

/-- A key event, with the interrupts that deliver its bytes. Any of these may be spurious. -/
structure Stroke where
  sequence : ScanSequence
  interrupts : List KbInterrupt
  /-- The bytes come in order, spurious interrupts aside. -/
  delivers : delivered interrupts = sequence.bytes

/-- The handler from the first interrupt on. -/
def kbAfter (strokes : List Stroke) : KbStatics :=
  (kbRun .clear (strokes.flatMap Stroke.interrupts)).1

/-- From `k` to `k'` the handler made the calls, as the event has it : the prefix flags are clear
behind it, a break clears the modifier of its code at most, a make sets or toggles that of its code,
and one without a modifier prints its text. -/
structure Decodes (k : KbStatics) (q : ScanSequence) (k' : KbStatics) (calls : List KbPrint) :
    Prop where
  /-- No prefix is left behind the event. -/
  prefixes : k'.extended = false ∧ k'.awaitingBreakCode = false
  broken : q.broken = true →
    calls = [] ∧ k'.modifiers = k.modifiers.release (Modifier.ofCode q.code)
  modifier : q.broken = false → ∀ x, Modifier.ofCode q.code = some x →
    calls = [] ∧ k'.modifiers = k.modifiers.press (some x)
  other : q.broken = false → Modifier.ofCode q.code = none →
    k'.modifiers = k.modifiers ∧ Prints calls ((k.modifiers.flags q.extended).text q.code)

/-! ## Spurious interrupts -/

/-- A spurious interrupt does nothing, and of any other one only the byte counts. -/
theorem kbRun_eq (is : List KbInterrupt) (k : KbStatics) :
    kbRun k is = kbInterrupts k (delivered is) := by
  induction is generalizing k with
  | nil => rfl
  | cons i is ih =>
    by_cases hspurious : i.status &&& ps2StatusOutput = 0
    · have hskip : delivered (i :: is) = delivered is := by
        rw [delivered, List.filter_cons_of_neg (by simpa using hspurious)]
        rfl
      have hsame : kbInterruptHandler k i.status i.data = (k, []) := if_pos hspurious
      rw [kbRun, hsame, hskip, ← ih]
      rfl
    · have htake : delivered (i :: is) = i.data :: delivered is := by
        rw [delivered, List.filter_cons_of_pos (by simpa using hspurious)]
        rfl
      have hsame : kbInterruptHandler k i.status i.data =
          kbInterruptHandler k ps2StatusOutput i.data := by
        rw [kbInterruptHandler, kbInterruptHandler, if_neg hspurious,
          if_neg (by decide : ¬ps2StatusOutput &&& ps2StatusOutput = 0)]
      rw [kbRun, hsame, htake, kbInterrupts, ih]

/-- The bytes of all events. -/
theorem delivered_strokes (strokes : List Stroke) :
    delivered (strokes.flatMap Stroke.interrupts) =
      (strokes.map Stroke.sequence).flatMap ScanSequence.bytes := by
  induction strokes with
  | nil => rfl
  | cons stroke strokes ih =>
    rw [List.flatMap_cons, List.map_cons, List.flatMap_cons, ← ih, ← stroke.delivers, delivered,
      List.filter_append, List.map_append]
    rfl

/-! ## One event -/

/-- A key pressed changes the flag of its modifier. -/
theorem modifiers_press (f : KbFlags) (code : BitVec 8) :
    (f.press code).modifiers = f.modifiers.press (Modifier.ofCode code) := by
  unfold KbFlags.press Modifier.ofCode
  split_ifs <;> ext x <;> cases x <;> rfl

/-- A key released changes the flag of its modifier. -/
theorem modifiers_release (f : KbFlags) (code : BitVec 8) :
    (f.release code).modifiers = f.modifiers.release (Modifier.ofCode code) := by
  have hcaps : ¬(kbScCapslock = kbScLshift ∨ kbScCapslock = kbScRshift) ∧
      kbScCapslock ≠ kbScLctrl ∧ kbScCapslock ≠ kbScLalt := by decide
  by_cases hc : code = kbScCapslock
  · subst hc
    rw [KbFlags.release, if_neg hcaps.1, if_neg hcaps.2.1, if_neg hcaps.2.2, Modifier.ofCode,
      if_pos rfl]
    rfl
  · unfold KbFlags.release Modifier.ofCode
    rw [if_neg hc]
    split_ifs <;> ext x <;> cases x <;> rfl

/-- `is_modifier` knows the codes of the modifiers. -/
theorem isModifier_eq (code : BitVec 8) : isModifier code = (Modifier.ofCode code).isSome := by
  unfold isModifier Modifier.ofCode
  split_ifs with h1 h2 h3 h4
  · simp [h1]
  · rcases h2 with h2 | h2 <;> simp [h2]
  · simp [h3]
  · simp [h4]
  · rw [not_or] at h2
    simp [h1, h2.1, h2.2, h3, h4]

/-- The modifiers are all that the text reads of the flags. -/
theorem flags_modifiers (f : KbFlags) (extended : Bool) :
    f.modifiers.flags extended = { f with extended := extended } :=
  rfl

/-- An event whose bytes come without spurious interrupts. -/
theorem decodes_bytes {k : KbStatics} (h : k.Between) (q : ScanSequence) :
    Decodes k q (kbInterrupts k q.bytes).1 (kbInterrupts k q.bytes).2 := by
  rw [kbInterrupts_bytes h q]
  refine ⟨⟨(k.toKbFlags.extended_after q).trans h.extended, rfl⟩, fun hb => ?_, fun hb x hx => ?_,
    fun hb hx => ?_⟩
  · refine ⟨if_pos (Or.inl hb), ?_⟩
    rw [KbFlags.after, if_pos hb]
    exact modifiers_release _ _
  · have hmod : isModifier q.code = true := by rw [isModifier_eq, hx, Option.isSome_some]
    refine ⟨if_pos (Or.inr hmod), ?_⟩
    rw [KbFlags.after, if_neg (by rw [hb]; exact Bool.false_ne_true), ← hx]
    exact modifiers_press _ _
  · have hmod : isModifier q.code = false := by rw [isModifier_eq, hx, Option.isSome_none]
    refine ⟨?_, ?_⟩
    · rw [KbFlags.after, if_neg (by rw [hb]; exact Bool.false_ne_true)]
      have hpress := modifiers_press k.toKbFlags q.code
      rw [hx] at hpress
      exact hpress
    · rw [if_neg (by simp [hb, hmod]), flags_modifiers]
      exact prints_print _ _

/-- Behind whole events no prefix is left. -/
theorem between_kbAfter (strokes : List Stroke) : (kbAfter strokes).Between := by
  have hflags := (kbInterrupts_sequences (strokes.map Stroke.sequence) KbStatics.between_clear).1
  have hextended : ∀ (qs : List ScanSequence) (f : KbFlags),
      (qs.foldl KbFlags.after f).extended = f.extended := by
    intro qs
    induction qs with
    | nil => exact fun f => rfl
    | cons q qs ih => exact fun f => (ih _).trans (f.extended_after q)
  rw [kbAfter, kbRun_eq, delivered_strokes, hflags]
  exact ⟨hextended _ _, rfl⟩

/-- Byte-level decoding refines key events. From the first interrupt on, whatever events came
before and wherever spurious interrupts fall, the handler does with the bytes of an event what the
event has it do. -/
theorem decodes_stroke (strokes : List Stroke) (stroke : Stroke) :
    Decodes (kbAfter strokes) stroke.sequence (kbAfter (strokes ++ [stroke]))
      (kbRun (kbAfter strokes) stroke.interrupts).2 := by
  have hnext : kbAfter (strokes ++ [stroke]) =
      (kbRun (kbAfter strokes) stroke.interrupts).1 := by
    have hsplit : delivered ((strokes ++ [stroke]).flatMap Stroke.interrupts) =
        delivered (strokes.flatMap Stroke.interrupts) ++ stroke.sequence.bytes := by
      rw [delivered_strokes, delivered_strokes, List.map_append, List.flatMap_append]
      exact congrArg _ (List.flatMap_singleton ..)
    rw [kbAfter, kbAfter, kbRun_eq, kbRun_eq, kbRun_eq, hsplit, kbInterrupts_append,
      stroke.delivers]
  rw [hnext, kbRun_eq, stroke.delivers]
  exact decodes_bytes (between_kbAfter strokes) stroke.sequence

end KernelDev
