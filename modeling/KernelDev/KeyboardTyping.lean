import Mathlib.Data.Bool.AllAny
import KernelDev.KeyboardEvents

/-!
# Keys with modifiers

What a key is shown as while modifiers are on. A key has its own character, which for a letter is
the small one (`ownChar`); with Shift and Caps Lock the modifiers map that to another one
(`Modifiers.mapped`), and with Ctrl or Alt a text is shown that names the key. `Types` says that a
keystroke is shown in that way, once and as a text of ASCII characters.

Letters are mapped under Shift and Ctrl alike. The other keys are not. Some have no mapping with
Shift at all, such as Space, for which `scancode_to_ascii` has no entry there, and nothing is
shown. The arithmetic of control characters is done on letters only but undone on every character,
so that with Ctrl only a letter is shown as itself (`ctrlChar_iff`).

`types_iff` says which keys are shown as they should be, behind any events whatever : a letter
always, and another key if Ctrl is off and it has a mapping with Shift in case Shift is on
(`KeepsKey`). The tables are read once, entry by entry, in `letterKeys_spec` and its likes; the
rest is about the branches of the handler : with Ctrl (`types_ctrl_iff`), with Alt (`types_alt`),
and without both (`types_char`).

`types_shifted_letter` is a capital letter, and `shifted_space_lost` the key that most texts need :
Space while Shift is held.
-/

namespace KernelDev

/-! ## What should be shown -/

/-- The character of a key without modifiers, which for a letter is the small one. -/
def ownChar (code : BitVec 8) : BitVec 8 :=
  scancodeToAscii code false false false

/-- The character of a key with the modifiers. -/
def Modifiers.mapped (m : Modifiers) (code : BitVec 8) : BitVec 8 :=
  scancodeToAscii code false (m .capslock) (m .shift)

/-- A key with a character is pressed, and is no extended one. -/
structure ScanSequence.IsKey (q : ScanSequence) : Prop where
  broken : q.broken = false
  extended : q.extended = false
  char : ownChar q.code ≠ 0

/-- There is one call, for a character, or for a text with Ctrl or Alt. -/
structure Types (m : Modifiers) (code : BitVec 8) (calls : List KbPrint) : Prop where
  /-- The key is shown once. -/
  one : calls.length = 1
  text : ∃ text, Prints calls text ∧ (∀ b ∈ text, b < 0x80) ∧
    if m .ctrl then text = chars "Ctrl+" ++ [ownChar code]
    else if m .alt then text = chars "Alt+" ++ [m.mapped code]
    else ∃ c ≠ 0, text = [c]

/-- The key is a letter, or Ctrl is off and the key has a mapping with Shift if Shift is on. -/
def KeepsKey (m : Modifiers) (code : BitVec 8) : Prop :=
  letterKeys.lookup code ≠ none ∨
    m .ctrl = false ∧ (m .shift = false ∨ shiftKeys.lookup code ≠ none)

/-! ## The tables -/

theorem mem_of_lookup {β : Type} {l : List (BitVec 8 × β)} {code : BitVec 8} {b : β}
    (h : l.lookup code = some b) : (code, b) ∈ l := by
  obtain ⟨l₁, l₂, rfl, -⟩ := List.lookup_eq_some_iff.1 h
  exact List.mem_append_right _ (List.mem_cons_self ..)

/-- The character stands for the letter : it is made a control character, and that the small
letter again. -/
def IsLetter (low c : BitVec 8) : Prop :=
  c ≠ 0 ∧ c < 0x80 ∧ ctrlChar c ≠ 0 ∧ ctrlChar c + 0x60 = low

instance (low c : BitVec 8) : Decidable (IsLetter low c) :=
  inferInstanceAs (Decidable (_ ∧ _))

/-- The characters of `letterKeys` have control characters. -/
theorem letterKeys_spec : ∀ e ∈ letterKeys, IsLetter e.2.1 e.2.1 ∧ IsLetter e.2.1 e.2.2 :=
  List.all_iff_forall_prop.1 (by decide)

/-- The characters of `shiftKeys` : there are no control characters for them. -/
theorem shiftKeys_spec : ∀ e ∈ shiftKeys, e.2 ≠ 0 ∧ e.2 < 0x80 ∧ ¬ctrlChar e.2 + 0x60 < 0x80 :=
  List.all_iff_forall_prop.1 (by decide)

/-- The characters of `noShiftKeys` : there are no control characters for them either. -/
theorem noShiftKeys_spec : ∀ e ∈ noShiftKeys,
    e.2 ≠ 0 ∧ e.2 < 0x80 ∧ ctrlChar e.2 + 0x60 ≠ e.2 :=
  List.all_iff_forall_prop.1 (by decide)

section

variable {code : BitVec 8}

/-- A letter is mapped under all modifiers. -/
theorem scancodeToAscii_letter {low up : BitVec 8} (h : letterKeys.lookup code = some (low, up))
    (capslock shift : Bool) :
    IsLetter low (scancodeToAscii code false capslock shift) ∧ ownChar code = low := by
  obtain ⟨hsmall, hcapital⟩ := letterKeys_spec _ (mem_of_lookup h)
  have hlow : low ≠ 0 := hsmall.1
  have hif : ∀ capslock shift : Bool, scancodeToAscii code false capslock shift =
      if (shift && !capslock) || (!shift && capslock) then up else low := by
    intro capslock shift
    unfold scancodeToAscii
    rw [h]
    exact if_pos hlow
  rw [ownChar, hif, hif]
  refine ⟨?_, rfl⟩
  split_ifs
  · exact hcapital
  · exact hsmall

theorem scancodeToAscii_other (h : letterKeys.lookup code = none) (capslock shift : Bool) :
    scancodeToAscii code false capslock shift =
      if shift then (shiftKeys.lookup code).getD 0 else (noShiftKeys.lookup code).getD 0 := by
  unfold scancodeToAscii
  rw [h]
  rfl

/-- The characters of keys are ASCII characters. -/
theorem scancodeToAscii_lt (code : BitVec 8) (capslock shift : Bool) :
    scancodeToAscii code false capslock shift < 0x80 := by
  cases hl : letterKeys.lookup code with
  | some e => exact (scancodeToAscii_letter hl capslock shift).1.2.1
  | none =>
    rw [scancodeToAscii_other hl]
    split_ifs
    · cases hs : shiftKeys.lookup code with
      | none => decide
      | some c => exact (shiftKeys_spec _ (mem_of_lookup hs)).2.1
    · cases hs : noShiftKeys.lookup code with
      | none => decide
      | some c => exact (noShiftKeys_spec _ (mem_of_lookup hs)).2.1

/-- A modifier has no character. -/
theorem ownChar_modifier (h : isModifier code = true) : ownChar code = 0 := by
  simp only [isModifier, Bool.or_eq_true, beq_iff_eq] at h
  rcases h with (((rfl | rfl) | rfl) | rfl) | rfl <;> decide

/-- A key with a character is mapped unless it has no mapping with Shift. -/
theorem mapped_iff (h : ownChar code ≠ 0) (capslock shift : Bool) :
    scancodeToAscii code false capslock shift ≠ 0 ↔
      letterKeys.lookup code ≠ none ∨ shift = false ∨ shiftKeys.lookup code ≠ none := by
  cases hl : letterKeys.lookup code with
  | some e =>
    have hne := (scancodeToAscii_letter hl capslock shift).1.1
    exact iff_of_true hne (Or.inl (Option.some_ne_none e))
  | none =>
    rw [ownChar, scancodeToAscii_other hl] at h
    rw [scancodeToAscii_other hl]
    cases shift with
    | false => exact iff_of_true h (Or.inr (Or.inl rfl))
    | true =>
      cases hs : shiftKeys.lookup code with
      | none => simp
      | some c =>
        have hc : c ≠ 0 := (shiftKeys_spec _ (mem_of_lookup hs)).1
        exact iff_of_true hc (Or.inr (Or.inr (Option.some_ne_none c)))

/-- Only for letters the arithmetic of control characters leads back to the key. -/
theorem ctrlChar_iff (code : BitVec 8) (capslock shift : Bool) :
    ctrlChar (scancodeToAscii code false capslock shift) ≠ 0 ∧
        ctrlChar (scancodeToAscii code false capslock shift) + 0x60 = ownChar code ↔
      letterKeys.lookup code ≠ none := by
  cases hl : letterKeys.lookup code with
  | some e =>
    obtain ⟨⟨-, -, hctrl, hback⟩, hown⟩ := scancodeToAscii_letter hl capslock shift
    rw [hown]
    exact iff_of_true ⟨hctrl, hback⟩ (Option.some_ne_none e)
  | none =>
    refine iff_of_false (fun hback => ?_) fun hne => hne rfl
    obtain ⟨hctrl, hback⟩ := hback
    have hlt : ownChar code < 0x80 := scancodeToAscii_lt code false false
    rw [scancodeToAscii_other hl] at hctrl hback
    cases shift with
    | true =>
      -- a shifted character is a printable one, and goes beyond 0x7f
      cases hs : shiftKeys.lookup code with
      | none =>
        rw [hs] at hctrl
        exact hctrl rfl
      | some c =>
        rw [hs] at hback
        rw [← hback] at hlt
        exact (shiftKeys_spec _ (mem_of_lookup hs)).2.2 hlt
    | false =>
      rw [ownChar, scancodeToAscii_other hl] at hback
      cases hs : noShiftKeys.lookup code with
      | none =>
        rw [hs] at hctrl
        exact hctrl rfl
      | some c =>
        rw [hs] at hback
        exact (noShiftKeys_spec _ (mem_of_lookup hs)).2.2 hback

end

/-! ## One key -/

/-- Calls have one text. -/
theorem Prints.unique {calls : List KbPrint} {text text' : List (BitVec 8)} (h : Prints calls text)
    (h' : Prints calls text') : text = text' := by
  let start := Console.atStart (fun _ => 0) 0 (by decide)
  obtain ⟨s, hs, hshown⟩ := h start
  obtain ⟨s', hs', hshown'⟩ := h' start
  obtain rfl := Option.some.inj (hs.symm.trans hs')
  exact List.append_cancel_left (hshown.symm.trans hshown')

section

variable {m : Modifiers} {code : BitVec 8}

theorem print_flags (m : Modifiers) (code : BitVec 8) (awaiting : Bool) :
    KbStatics.print ⟨m.flags false, awaiting⟩ code =
      if m .ctrl then
        if ctrlChar (m.mapped code) ≠ 0 then [.ctrl (ctrlChar (m.mapped code))] else []
      else if m .alt then if m.mapped code ≠ 0 then [.alt (m.mapped code)] else []
      else if m.mapped code ≠ 0 then [.char (m.mapped code)] else [] := by
  unfold KbStatics.print Modifiers.mapped Modifiers.flags
  cases m .ctrl <;> cases m .alt <;> simp

/-- A key that makes no call is not shown. -/
theorem not_types_nil : ¬Types m code [] := by
  intro h
  exact absurd h.one Nat.zero_ne_one

/-- With Ctrl the text is right if the arithmetic leads back to the key. -/
theorem types_ctrl_iff (hctrl : m .ctrl = true) (c : BitVec 8) :
    Types m code [.ctrl c] ↔ c + 0x60 = ownChar code := by
  constructor
  · rintro ⟨-, text, hprints, -, htext⟩
    rw [if_pos hctrl, hprints.unique (prints_ctrl c)] at htext
    exact List.singleton_inj.1 (List.append_cancel_left htext)
  · intro heq
    refine ⟨rfl, _, prints_ctrl c, ?_, ?_⟩
    · have hname : ∀ b ∈ chars "Ctrl+", b < 0x80 := by decide
      rw [ctrlText, heq]
      exact List.forall_mem_append.2 ⟨hname, List.forall_mem_singleton.2
        (scancodeToAscii_lt code false false)⟩
    · rw [if_pos hctrl, ctrlText, heq]

/-- With Alt and without Ctrl every key that is mapped is shown. -/
theorem types_alt (hctrl : m .ctrl = false) (halt : m .alt = true) :
    Types m code [.alt (m.mapped code)] := by
  refine ⟨rfl, _, prints_alt _, ?_, ?_⟩
  · have hname : ∀ b ∈ chars "Alt+", b < 0x80 := by decide
    exact List.forall_mem_append.2
      ⟨hname, List.forall_mem_singleton.2 (scancodeToAscii_lt code _ _)⟩
  · rw [hctrl, halt]
    rfl

/-- Without Ctrl and Alt every key that is mapped is shown. -/
theorem types_char (hctrl : m .ctrl = false) (halt : m .alt = false) (hne : m.mapped code ≠ 0) :
    Types m code [.char (m.mapped code)] := by
  refine ⟨rfl, _, prints_char _, List.forall_mem_singleton.2 (scancodeToAscii_lt code _ _), ?_⟩
  rw [hctrl, halt]
  exact ⟨_, hne, rfl⟩

/-- The handler shows a key as it should exactly if the modifiers keep it. -/
theorem types_print_iff (h : ownChar code ≠ 0) (awaiting : Bool) :
    Types m code (KbStatics.print ⟨m.flags false, awaiting⟩ code) ↔ KeepsKey m code := by
  have hmapped := mapped_iff h (m .capslock) (m .shift)
  have hback := ctrlChar_iff code (m .capslock) (m .shift)
  rw [print_flags, KeepsKey]
  cases hctrl : m .ctrl with
  | true =>
    rw [if_pos rfl]
    simp only [Bool.true_eq_false, false_and, or_false]
    rw [← hback]
    split_ifs with hne
    · rw [types_ctrl_iff hctrl]
      exact (and_iff_right hne).symm
    · exact iff_of_false not_types_nil fun hkey => hne hkey.1
  | false =>
    rw [if_neg Bool.false_ne_true]
    simp only [true_and]
    rw [← hmapped]
    cases halt : m .alt with
    | true =>
      rw [if_pos rfl]
      split_ifs with hne
      · exact iff_of_true (types_alt hctrl halt) hne
      · exact iff_of_false not_types_nil hne
    | false =>
      rw [if_neg Bool.false_ne_true]
      split_ifs with hne
      · exact iff_of_true (types_char hctrl halt hne) hne
      · exact iff_of_false not_types_nil hne

end

/-- No keystroke is lost or garbled by modifiers. Behind any events, a key with a character is
shown as it should exactly if it is a letter, or Ctrl is off and the key has a mapping with Shift
if Shift is on. -/
theorem types_iff (strokes : List Stroke) (stroke : Stroke) (h : stroke.sequence.IsKey) :
    Types (kbAfter strokes).modifiers stroke.sequence.code
        (kbRun (kbAfter strokes) stroke.interrupts).2 ↔
      KeepsKey (kbAfter strokes).modifiers stroke.sequence.code := by
  have hplain : isModifier stroke.sequence.code = false := by
    rw [← Bool.not_eq_true]
    exact fun hmod => h.char (ownChar_modifier hmod)
  rw [kbRun_eq, stroke.delivers, kbInterrupts_bytes (between_kbAfter strokes),
    if_neg (by simp [h.broken, hplain]), h.extended]
  exact types_print_iff h.char _

/-- An event without spurious interrupts. -/
def Stroke.ofSequence (q : ScanSequence) : Stroke where
  sequence := q
  interrupts := q.bytes.map fun b => ⟨ps2StatusOutput, b⟩
  delivers := by
    have hall : ∀ i ∈ q.bytes.map fun b => (⟨ps2StatusOutput, b⟩ : KbInterrupt),
        decide (i.status &&& ps2StatusOutput ≠ 0) = true := by
      intro i hi
      obtain ⟨b, -, rfl⟩ := List.mem_map.1 hi
      exact decide_eq_true (by decide : ps2StatusOutput &&& ps2StatusOutput ≠ 0)
    rw [delivered, List.filter_eq_self.2 hall, List.map_map]
    exact List.map_id _

theorem lshift_ne : kbScLshift ≠ kbExtended ∧ kbScLshift ≠ kbKeyRelease := by decide

/-- Left Shift is pressed. -/
def shiftDown : Stroke :=
  .ofSequence ⟨false, false, kbScLshift, lshift_ne⟩

/-- A letter with Shift is shown. -/
theorem types_shifted_letter :
    Types (kbAfter [shiftDown]).modifiers 0x1c
      (kbRun (kbAfter [shiftDown])
        (Stroke.ofSequence ⟨false, false, 0x1c, by decide⟩).interrupts).2 :=
  (types_iff [shiftDown] (.ofSequence ⟨false, false, 0x1c, by decide⟩) ⟨rfl, rfl, by decide⟩).2
    (.inl (by decide))

/-- Space with Shift is lost. -/
theorem shifted_space_lost : ¬∀ (strokes : List Stroke) (stroke : Stroke),
    stroke.sequence.IsKey → Types (kbAfter strokes).modifiers stroke.sequence.code
      (kbRun (kbAfter strokes) stroke.interrupts).2 := by
  intro h
  have hspace := h [shiftDown] (.ofSequence ⟨false, false, 0x29, by decide⟩)
    ⟨rfl, rfl, by decide⟩
  exact absurd hspace.one (by decide)

end KernelDev
