import KernelDev.Keyboard

/-!
# The two keyboard drivers

The two drivers on one stream of complete sequences. Their modifier flags are always the same
(`KbFlags.poll_flags`), but not all else. `kb_polling` leaves its extended flag set where it ends a
round with `continue`, such as behind a break, while `kb_interrupt_handler` clears it behind every
sequence; the next key is then taken for an extended one. And `kb_polling` prints a NUL for a key
that has no character, where `kb_interrupt_handler` prints nothing.

The texts are what is compared, and not the calls. `Prints` says what text calls have on every
console, and `KbFlags.pollTextOf` and `KbFlags.textOf` are the texts of the two drivers for one
sequence, with the flags of `kb_polling` before it. `DriversAgree` asks of every sequence, in the
flags that those before it have left, that these are the same.

`drivers_agree_iff` : the texts of the whole stream are the same just if that is so. The direction
to the sequences is the harder one, as a driver that has fallen behind might catch up with a later
sequence. It does not : `kb_polling` gets ahead only with a character of an extended key or a NUL,
and to catch up `kb_interrupt_handler` would have to print these one by one from sequences of its
own, for each of which `kb_polling` prints one more (`not_caught_up`).

`drivers_differ` is an arrow key followed by a letter.
-/

namespace KernelDev

/-! ## What the calls print -/

/-- On every console, the calls print the text. -/
def Prints (calls : List KbPrint) (text : List (BitVec 8)) : Prop :=
  ∀ s : Console, ∃ s', s.printAll calls = some s' ∧ s'.vga.shown = s.vga.shown ++ text

theorem prints_nil : Prints [] [] :=
  fun s => ⟨s, rfl, (List.append_nil _).symm⟩

/-- The texts of calls one after the other. -/
theorem Prints.append {calls calls' : List KbPrint} {text text' : List (BitVec 8)}
    (h : Prints calls text) (h' : Prints calls' text') :
    Prints (calls ++ calls') (text ++ text') := by
  intro s
  obtain ⟨t, ht, hshown⟩ := h s
  obtain ⟨u, hu, hshown'⟩ := h' t
  refine ⟨u, ?_, by rw [hshown', hshown, List.append_assoc]⟩
  rw [Console.printAll, List.foldlM_append, ← Console.printAll, ht]
  exact hu

theorem Prints.ite {p : Prop} [Decidable p] {calls calls' : List KbPrint}
    {text text' : List (BitVec 8)} (h : Prints calls text) (h' : Prints calls' text') :
    Prints (if p then calls else calls') (if p then text else text') := by
  split_ifs
  · exact h
  · exact h'

/-- A call whose format consists of the pieces. -/
theorem prints_pieces (call : KbPrint) (ps : List Piece)
    (hfmt : call.fmt = ps.flatMap Piece.fmt ++ [0]) (hargs : call.args = ps.flatMap Piece.args) :
    Prints [call] (ps.flatMap Piece.render) := by
  intro s
  obtain ⟨s', r, hs', hshown, -⟩ := s.printk_renders ps [] []
  rw [List.append_nil, ← hfmt, ← hargs] at hs'
  refine ⟨s', ?_, hshown⟩
  rw [Console.printAll, List.foldlM_cons, hs']
  rfl

/-- The text of a call with `"Ctrl+%c"`. -/
def ctrlText (c : BitVec 8) : List (BitVec 8) :=
  chars "Ctrl+" ++ [c + 0x60]

/-- The text of a call with `"Alt+%c"`. -/
def altText (c : BitVec 8) : List (BitVec 8) :=
  chars "Alt+" ++ [c]

/-- A `char` as an argument of `printk` and back. -/
theorem setWidth_char : ∀ c : BitVec 8, ((c.signExtend 32).setWidth 64).setWidth 8 = c := by
  decide +kernel

theorem setWidth_ctrl : ∀ c : BitVec 8,
    ((c.signExtend 32 + (ch 'a').signExtend 32 - 1).setWidth 64).setWidth 8 = c + 0x60 := by
  decide +kernel

/-- The text of a call with `"%c"`. -/
theorem prints_char (c : BitVec 8) : Prints [.char c] [c] := by
  have h := prints_pieces (.char c) [.char ((c.signExtend 32).setWidth 64)] rfl rfl
  rwa [List.flatMap_singleton, Piece.render, setWidth_char] at h

/-- The text of a call with `"Alt+%c"`. -/
theorem prints_alt (c : BitVec 8) : Prints [.alt c] (altText c) := by
  have h := prints_pieces (.alt c) [.lit (ch 'A') (by decide), .lit (ch 'l') (by decide),
    .lit (ch 't') (by decide), .lit (ch '+') (by decide),
    .char ((c.signExtend 32).setWidth 64)] rfl rfl
  simp only [List.flatMap_cons, List.flatMap_nil, Piece.render, setWidth_char] at h
  exact h

/-- The text of a call with `"Ctrl+%c"`. -/
theorem prints_ctrl (c : BitVec 8) : Prints [.ctrl c] (ctrlText c) := by
  have h := prints_pieces (.ctrl c) [.lit (ch 'C') (by decide),
    .lit (ch 't') (by decide), .lit (ch 'r') (by decide), .lit (ch 'l') (by decide),
    .lit (ch '+') (by decide),
    .char ((c.signExtend 32 + (ch 'a').signExtend 32 - 1).setWidth 64)] rfl rfl
  simp only [List.flatMap_cons, List.flatMap_nil, Piece.render, setWidth_ctrl] at h
  exact h

/-! ## One sequence -/

/-- The text that `kb_interrupt_handler` prints for a code that is no modifier. -/
def KbFlags.text (f : KbFlags) (scancode : BitVec 8) : List (BitVec 8) :=
  let c := scancodeToAscii scancode f.extended f.capslock f.shift
  if f.ctrl ∧ ¬f.extended then if ctrlChar c ≠ 0 then ctrlText (ctrlChar c) else []
  else if f.alt ∧ ¬f.extended then if c ≠ 0 then altText c else []
  else if c ≠ 0 then [c] else []

/-- The text that `kb_polling` prints for a code that is no modifier. -/
def KbFlags.pollText (f : KbFlags) (scancode : BitVec 8) : List (BitVec 8) :=
  let c := scancodeToAscii scancode f.extended f.capslock f.shift
  if f.ctrl ∧ ¬f.extended then if ctrlChar c ≠ 0 then ctrlText (ctrlChar c) else []
  else if f.alt ∧ ¬f.extended then if c ≠ 0 then altText c else []
  else [c]

/-- The text of `kb_interrupt_handler` for a code. -/
theorem prints_print (k : KbStatics) (scancode : BitVec 8) :
    Prints (k.print scancode) (k.toKbFlags.text scancode) :=
  .ite (.ite (prints_ctrl _) prints_nil)
    (.ite (.ite (prints_alt _) prints_nil) (.ite (prints_char _) prints_nil))

/-- The text of `kb_polling` for a code. -/
theorem prints_key {f : KbFlags} {scancode : BitVec 8} (h : isModifier scancode = false) :
    Prints (f.key scancode).2 (f.pollText scancode) := by
  unfold KbFlags.key
  simp only [apply_ite Prod.snd, if_pos h]
  exact .ite (.ite (prints_ctrl _) prints_nil)
    (.ite (.ite (prints_alt _) prints_nil) (prints_char _))

/-- A round of `kb_polling` for the sequence. -/
def KbFlags.poll (f : KbFlags) (q : ScanSequence) : KbFlags × List KbPrint :=
  let f := { f with extended := f.extended || q.extended }
  if q.broken then (f.release q.code, []) else f.make q.code

/-- A round of `kb_polling` reads a whole sequence. -/
theorem kbPollingRound_bytes (f : KbFlags) (q : ScanSequence) (rest : List (BitVec 8)) :
    kbPollingRound f (q.bytes ++ rest) = some ((f.poll q).1, (f.poll q).2, rest) := by
  obtain ⟨e, b, c, hc⟩ := q
  have hne : ¬kbKeyRelease = kbExtended := by decide
  cases e <;> cases b <;>
    simp [ScanSequence.bytes, kbPollingRound, ps2ReadData, KbFlags.poll, hc, hne]

/-- The calls of `kb_polling` for the sequences. -/
def pollCalls : KbFlags → List ScanSequence → List KbPrint
  | _, [] => []
  | f, q :: qs => (f.poll q).2 ++ pollCalls (f.poll q).1 qs

/-- `kb_polling` on complete sequences : a round for each. -/
theorem kbPollingRounds_sequences : ∀ (qs : List ScanSequence) (n : ℕ) (f : KbFlags),
    qs.length ≤ n → kbPollingRounds n f (qs.flatMap ScanSequence.bytes) = pollCalls f qs
  | [], 0, _, _ => rfl
  | [], _ + 1, _, _ => rfl
  | q :: qs, n + 1, f, h => by
    rw [List.flatMap_cons, kbPollingRounds, kbPollingRound_bytes]
    dsimp only
    rw [kbPollingRounds_sequences qs n _ (Nat.le_of_succ_le_succ h), pollCalls]

theorem length_le_bytes (qs : List ScanSequence) :
    qs.length ≤ (qs.flatMap ScanSequence.bytes).length := by
  rw [List.length_flatMap]
  induction qs with
  | nil => exact Nat.le_refl 0
  | cons q qs ih =>
    have hq : 1 ≤ q.bytes.length := by
      rw [ScanSequence.bytes, List.length_append]
      exact Nat.le_add_left _ _
    rw [List.map_cons, List.sum_cons, List.length_cons]
    omega

/-- The calls of `kb_interrupt_handler` for the sequence, between sequences with the flags `f`. -/
def KbFlags.interrupt (f : KbFlags) (q : ScanSequence) : List KbPrint :=
  if q.broken = true ∨ isModifier q.code = true then []
  else KbStatics.print ⟨{ f with extended := q.extended }, false⟩ q.code

/-- The calls of `kb_interrupt_handler` for the sequences. -/
def interruptCalls : KbFlags → List ScanSequence → List KbPrint
  | _, [] => []
  | f, q :: qs => f.interrupt q ++ interruptCalls (f.after q) qs

/-- `kb_interrupt_handler` on complete sequences. -/
theorem kbInterrupts_calls : ∀ (qs : List ScanSequence) {f : KbFlags}, f.extended = false →
    (kbInterrupts ⟨f, false⟩ (qs.flatMap ScanSequence.bytes)).2 = interruptCalls f qs
  | [], _, _ => rfl
  | q :: qs, f, h => by
    have hq := kbInterrupts_bytes (k := ⟨f, false⟩) ⟨h, rfl⟩ q
    rw [List.flatMap_cons, kbInterrupts_append, hq, interruptCalls]
    dsimp only
    rw [kbInterrupts_calls qs ((f.extended_after q).trans h)]
    rfl

theorem KbFlags.key_flags (f : KbFlags) (scancode : BitVec 8) :
    { (f.key scancode).1 with extended := false } = { f with extended := false } := by
  unfold key
  simp only [apply_ite Prod.fst]
  split_ifs <;> rfl

theorem KbFlags.make_flags (f : KbFlags) (scancode : BitVec 8) :
    { (f.make scancode).1 with extended := false } =
      { f.press scancode with extended := false } := by
  unfold make press
  split_ifs
  · exact key_flags _ _
  · rfl
  · rfl
  · rfl
  · exact key_flags _ _

/-- Apart from the extended flag, both drivers do the same to the flags. -/
theorem KbFlags.poll_flags (f : KbFlags) (q : ScanSequence) :
    { (f.poll q).1 with extended := false } = { f with extended := false }.after q := by
  unfold poll after
  split_ifs
  · dsimp only
    rw [release_extended f (f.extended || q.extended), release_extended f false]
  · rw [make_flags, press_extended f (f.extended || q.extended), press_extended f false]

/-! ## The texts of a sequence -/

/-- The text of `kb_polling` for the sequence. -/
def KbFlags.pollTextOf (f : KbFlags) (q : ScanSequence) : List (BitVec 8) :=
  if q.broken = true ∨ isModifier q.code = true then []
  else { f with extended := f.extended || q.extended }.pollText q.code

/-- The text of `kb_interrupt_handler` for the sequence. -/
def KbFlags.textOf (f : KbFlags) (q : ScanSequence) : List (BitVec 8) :=
  if q.broken = true ∨ isModifier q.code = true then []
  else { f with extended := q.extended }.text q.code

/-- Caps Lock has no character. -/
theorem scancodeToAscii_capslock : ∀ e c s : Bool, scancodeToAscii kbScCapslock e c s = 0 := by
  decide

theorem key_capslock (f : KbFlags) : (f.key kbScCapslock).2 = [] := by
  have hzero : ctrlChar 0 = 0 := by decide
  have hmod : ¬isModifier kbScCapslock = false := by decide
  unfold KbFlags.key
  simp only [scancodeToAscii_capslock, hzero, ne_eq, not_true, if_false, if_neg hmod,
    apply_ite Prod.snd, ite_self]

theorem prints_poll (f : KbFlags) (q : ScanSequence) : Prints (f.poll q).2 (f.pollTextOf q) := by
  unfold KbFlags.poll KbFlags.pollTextOf
  generalize ({ f with extended := f.extended || q.extended } : KbFlags) = g
  dsimp only
  by_cases hb : q.broken = true
  · rw [if_pos hb, if_pos (.inl hb)]
    exact prints_nil
  · rw [if_neg hb]
    by_cases hm : isModifier q.code = true
    · rw [if_pos (.inr hm)]
      have hnil : (g.make q.code).2 = [] := by
        unfold KbFlags.make
        split_ifs with hcaps
        · rw [hcaps, key_capslock]
        · rfl
        · rfl
        · rfl
        · simp_all [isModifier]
      rw [hnil]
      exact prints_nil
    · rw [if_neg (by simp [hb, hm])]
      have hkey : g.make q.code = g.key q.code := by
        have hmod := hm
        simp only [isModifier, Bool.or_eq_true, beq_iff_eq, not_or] at hmod
        simp [KbFlags.make, hmod]
      rw [hkey]
      exact prints_key (by simpa using hm)

theorem prints_interrupt (f : KbFlags) (q : ScanSequence) :
    Prints (f.interrupt q) (f.textOf q) :=
  .ite prints_nil (prints_print _ _)

/-- The text of `kb_polling` for the sequences. -/
def pollTexts : KbFlags → List ScanSequence → List (BitVec 8)
  | _, [] => []
  | f, q :: qs => f.pollTextOf q ++ pollTexts (f.poll q).1 qs

/-- The text of `kb_interrupt_handler` for the sequences, where `kb_polling` has the flags `f`. -/
def interruptTexts : KbFlags → List ScanSequence → List (BitVec 8)
  | _, [] => []
  | f, q :: qs => f.textOf q ++ interruptTexts (f.poll q).1 qs

/-- The text of `kb_polling` on the sequences. -/
theorem prints_pollCalls : ∀ (qs : List ScanSequence) (f : KbFlags),
    Prints (pollCalls f qs) (pollTexts f qs)
  | [], _ => prints_nil
  | q :: qs, f => (prints_poll f q).append (prints_pollCalls qs _)

/-- The text of `kb_interrupt_handler` on the sequences. -/
theorem prints_interruptCalls : ∀ (qs : List ScanSequence) (f : KbFlags),
    Prints (interruptCalls { f with extended := false } qs) (interruptTexts f qs)
  | [], _ => prints_nil
  | q :: qs, f => by
    rw [interruptCalls, ← f.poll_flags q]
    exact (prints_interrupt f q).append (prints_interruptCalls qs _)

/-! ## When the texts agree -/

/-- With the flags `f` of `kb_polling` before the sequence, both drivers print the same. After a
leftover extended flag, the key is taken for an extended one. -/
def KbFlags.Agrees (f : KbFlags) (q : ScanSequence) : Prop :=
  q.broken = true ∨ isModifier q.code = true ∨
    if f.extended = true ∧ q.extended = false then
      f.ctrl = false ∧ f.alt = false ∧
        scancodeToAscii q.code true f.capslock f.shift =
          scancodeToAscii q.code false f.capslock f.shift ∧
        scancodeToAscii q.code false f.capslock f.shift ≠ 0
    else
      (f.ctrl = true ∨ f.alt = true) ∧ q.extended = false ∨
        scancodeToAscii q.code q.extended f.capslock f.shift ≠ 0

/-- Along the sequences, both drivers print the same. -/
def DriversAgree : KbFlags → List ScanSequence → Prop
  | _, [] => True
  | f, q :: qs => f.Agrees q ∧ DriversAgree (f.poll q).1 qs

/-- What `scancode_to_ascii` gives for extended keys. -/
def extendedChars : List (BitVec 8) :=
  0 :: extendedKeys.map Prod.snd

/-- An extended key has one of these characters or none. -/
theorem scancodeToAscii_extended (scancode : BitVec 8) (capslock shift : Bool) :
    scancodeToAscii scancode true capslock shift ∈ extendedChars := by
  rw [scancodeToAscii, if_pos rfl]
  cases h : extendedKeys.lookup scancode with
  | none => exact List.mem_cons_self
  | some c =>
    obtain ⟨l₁, l₂, hl, -⟩ := List.lookup_eq_some_iff.1 h
    rw [extendedChars, hl, Option.getD_some]
    simp

/-- What the two drivers may print for a sequence. -/
inductive Texts : List (BitVec 8) → List (BitVec 8) → Prop
  | none : Texts [] []
  | ahead {c : BitVec 8} : c ∈ extendedChars → Texts [c] []
  | one {c c' : BitVec 8} : c' = c ∨ c' ∈ extendedChars → Texts [c'] [c]
  | long {p rest : List (BitVec 8)} {d : BitVec 8} : d ∉ extendedChars →
      (p = d :: rest ∨ ∃ c ∈ extendedChars, p = [c]) → Texts p (d :: rest)

theorem texts_ctrl (c : BitVec 8) : ∃ d rest, ctrlText c = d :: rest ∧ d ∉ extendedChars :=
  ⟨ch 'C', _, rfl, by decide⟩

theorem texts_alt (c : BitVec 8) : ∃ d rest, altText c = d :: rest ∧ d ∉ extendedChars :=
  ⟨ch 'A', _, rfl, by decide⟩

/-- The interrupt handler prints a key with Ctrl or Alt, the other one the same or an extended
key. -/
theorem Texts.of_long {p t : List (BitVec 8)} {P : Prop} [Decidable P]
    (ht : ∃ d rest, t = d :: rest ∧ d ∉ extendedChars)
    (hp : p = (if P then t else []) ∨ ∃ c ∈ extendedChars, p = [c]) :
    Texts p (if P then t else []) := by
  obtain ⟨d, rest, rfl, hd⟩ := ht
  split_ifs at hp ⊢
  · exact .long hd hp
  · rcases hp with rfl | ⟨c, hc, rfl⟩
    · exact .none
    · exact .ahead hc

theorem Texts.of_char {p : List (BitVec 8)} {c : BitVec 8}
    (hp : p = [c] ∨ ∃ c ∈ extendedChars, p = [c]) :
    Texts p (if c ≠ 0 then [c] else []) := by
  split_ifs with h
  · rcases hp with rfl | ⟨c', hc', rfl⟩
    · exact .one (.inl rfl)
    · exact .one (.inr hc')
  · rcases hp with rfl | ⟨c', hc', rfl⟩
    · obtain rfl := not_not.1 h
      exact .ahead List.mem_cons_self
    · exact .ahead hc'

theorem texts_text {f : KbFlags} {scancode : BitVec 8} {p : List (BitVec 8)}
    (hp : p = f.pollText scancode ∨ ∃ c ∈ extendedChars, p = [c]) :
    Texts p (f.text scancode) := by
  unfold KbFlags.text
  unfold KbFlags.pollText at hp
  dsimp only at hp ⊢
  by_cases hctrl : f.ctrl = true ∧ ¬f.extended = true
  · rw [if_pos hctrl] at hp ⊢
    exact .of_long (texts_ctrl _) hp
  rw [if_neg hctrl] at hp ⊢
  by_cases halt : f.alt = true ∧ ¬f.extended = true
  · rw [if_pos halt] at hp ⊢
    exact .of_long (texts_alt _) hp
  rw [if_neg halt] at hp ⊢
  exact .of_char hp

theorem pollText_extended {f : KbFlags} (h : f.extended = true) (scancode : BitVec 8) :
    f.pollText scancode = [scancodeToAscii scancode true f.capslock f.shift] := by
  rw [KbFlags.pollText, h]
  simp

/-- What the drivers print for a sequence. -/
theorem texts_sequence (f : KbFlags) (q : ScanSequence) : Texts (f.pollTextOf q) (f.textOf q) := by
  unfold KbFlags.pollTextOf KbFlags.textOf
  by_cases h : q.broken = true ∨ isModifier q.code = true
  · rw [if_pos h, if_pos h]
    exact .none
  rw [if_neg h, if_neg h]
  refine texts_text ?_
  cases f.extended
  · exact .inl rfl
  · exact .inr ⟨_, scancodeToAscii_extended _ _ _, pollText_extended rfl _⟩

/-- With the same extended flag the texts differ only by the NUL of a key without a character. -/
theorem pollText_eq_iff (f : KbFlags) (scancode : BitVec 8) :
    f.pollText scancode = f.text scancode ↔ (f.ctrl = true ∨ f.alt = true) ∧ f.extended = false ∨
      scancodeToAscii scancode f.extended f.capslock f.shift ≠ 0 := by
  rw [KbFlags.pollText, KbFlags.text]
  obtain ⟨extended, capslock, shift, ctrl, alt⟩ := f
  cases extended <;> cases ctrl <;> cases alt <;> simp

/-- A leftover extended flag, where the other driver has none. -/
theorem extended_text_iff (c : BitVec 8) {f : KbFlags} (h : f.extended = false)
    (scancode : BitVec 8) :
    [c] = f.text scancode ↔ f.ctrl = false ∧ f.alt = false ∧
      c = scancodeToAscii scancode false f.capslock f.shift ∧
      scancodeToAscii scancode false f.capslock f.shift ≠ 0 := by
  have hctrl (c c' : BitVec 8) : [c] ≠ ctrlText c' := by simp [ctrlText, chars]
  have halt (c c' : BitVec 8) : [c] ≠ altText c' := by simp [altText, chars]
  rw [KbFlags.text, h]
  generalize scancodeToAscii scancode false f.capslock f.shift = c'
  cases f.ctrl <;> cases f.alt <;> split_ifs <;> simp_all

theorem pollTextOf_eq_iff (f : KbFlags) (q : ScanSequence) :
    f.pollTextOf q = f.textOf q ↔ f.Agrees q := by
  unfold KbFlags.pollTextOf KbFlags.textOf KbFlags.Agrees
  by_cases h : q.broken = true ∨ isModifier q.code = true
  · rw [if_pos h, if_pos h, ← or_assoc]
    exact iff_of_true rfl (.inl h)
  rw [if_neg h, if_neg h, ← or_assoc, or_iff_right h]
  by_cases hleft : f.extended = true ∧ q.extended = false
  · rw [if_pos hleft, hleft.1, hleft.2, Bool.true_or, pollText_extended rfl]
    exact extended_text_iff _ rfl _
  · have hextended : (f.extended || q.extended) = q.extended := by
      cases he : q.extended
      · simpa [he] using hleft
      · exact Bool.or_true _
    rw [if_neg hleft, hextended]
    exact pollText_eq_iff _ _

/-- `kb_polling` is ahead with characters of extended keys, and stays ahead: to catch up,
`kb_interrupt_handler` would have to print them one by one, and for each of them `kb_polling`
prints one more. -/
theorem not_caught_up : ∀ (qs : List ScanSequence) (f : KbFlags) (l : List (BitVec 8)),
    l ≠ [] → (∀ c ∈ l, c ∈ extendedChars) → l ++ pollTexts f qs ≠ interruptTexts f qs
  | [], _, l, hne, _ => fun h => hne (List.append_eq_nil_iff.1 h).1
  | q :: qs, f, [], hne, _ => absurd rfl hne
  | q :: qs, f, c :: l, _, hl => by
    obtain ⟨hc, hrest⟩ := List.forall_mem_cons.1 hl
    have hmore {c' : BitVec 8} (hc' : c' ∈ extendedChars) {l : List (BitVec 8)}
        (hl : ∀ c ∈ l, c ∈ extendedChars) : ∀ c ∈ l ++ [c'], c ∈ extendedChars :=
      List.forall_mem_append.2 ⟨hl, List.forall_mem_singleton.2 hc'⟩
    have htexts := texts_sequence f q
    rw [pollTexts, interruptTexts, ← List.append_assoc]
    generalize f.pollTextOf q = p at htexts ⊢
    generalize f.textOf q = i at htexts ⊢
    cases htexts with
    | none =>
      rw [List.append_nil]
      exact not_caught_up qs _ _ (List.cons_ne_nil _ _) hl
    | ahead hc' => exact not_caught_up qs _ _ (List.cons_ne_nil _ _) (hmore hc' hl)
    | one hc' =>
      intro h
      obtain ⟨rfl, htail⟩ := List.cons.inj h
      refine not_caught_up qs _ _ (List.append_ne_nil_of_right_ne_nil _ (List.cons_ne_nil _ _))
        (hmore ?_ hrest) htail
      rcases hc' with rfl | hc'
      · exact hc
      · exact hc'
    | long hd =>
      intro h
      obtain ⟨rfl, -⟩ := List.cons.inj h
      exact hd hc

/-- The texts of streams are the same if those of each sequence are. -/
theorem texts_eq_iff : ∀ (qs : List ScanSequence) (f : KbFlags),
    pollTexts f qs = interruptTexts f qs ↔ DriversAgree f qs
  | [], _ => iff_of_true rfl trivial
  | q :: qs, f => by
    rw [DriversAgree, ← pollTextOf_eq_iff, ← texts_eq_iff qs, pollTexts, interruptTexts]
    have htexts := texts_sequence f q
    generalize f.pollTextOf q = p at htexts ⊢
    generalize f.textOf q = i at htexts ⊢
    cases htexts with
    | none => simp
    | ahead hc =>
      refine iff_of_false ?_ (by simp)
      exact not_caught_up qs _ _ (List.cons_ne_nil _ _) (List.forall_mem_singleton.2 hc)
    | one hc => simp
    | @long _ _ d hd hp =>
      rcases hp with rfl | ⟨c, hc, rfl⟩
      · simp
      · have hne : c ≠ d := ne_of_mem_of_not_mem hc hd
        simp [hne]

/-- On a stream of complete sequences, from clear flags, `kb_polling` prints the same text as
`kb_interrupt_handler` called for each byte exactly if the drivers agree on each sequence. -/
theorem drivers_agree_iff (s : Console) (qs : List ScanSequence) :
    ∃ p i, s.printAll (kbPolling (qs.flatMap ScanSequence.bytes)) = some p ∧
      s.printAll (kbInterrupts .clear (qs.flatMap ScanSequence.bytes)).2 = some i ∧
      (p.vga.shown = i.vga.shown ↔ DriversAgree .clear qs) := by
  obtain ⟨p, hp, hpoll⟩ := prints_pollCalls qs .clear s
  obtain ⟨i, hi, hinterrupt⟩ := prints_interruptCalls qs .clear s
  refine ⟨p, i, ?_, ?_, ?_⟩
  · rw [kbPolling, kbPollingRounds_sequences qs _ _ (length_le_bytes qs), hp]
  · rw [← hi]
    exact congrArg s.printAll (kbInterrupts_calls qs rfl)
  · rw [hpoll, hinterrupt, List.append_cancel_left_eq, texts_eq_iff]

/-- Up pressed and released, then `a`. -/
def arrowThenLetter : List ScanSequence :=
  [⟨true, false, 0x75, by decide⟩, ⟨true, true, 0x75, by decide⟩, ⟨false, false, 0x1c, by decide⟩]

/-- After the arrow, `kb_polling` takes the letter for an extended key. -/
theorem drivers_differ : ¬∀ (s : Console) (qs : List ScanSequence),
    ∃ p i, s.printAll (kbPolling (qs.flatMap ScanSequence.bytes)) = some p ∧
      s.printAll (kbInterrupts .clear (qs.flatMap ScanSequence.bytes)).2 = some i ∧
      p.vga.shown = i.vga.shown := by
  intro h
  obtain ⟨p, i, hp, hi, heq⟩ := h (Console.atStart (fun _ => 0) 0x200000 (by decide))
    arrowThenLetter
  have hpoll : ((Console.atStart (fun _ => 0) 0x200000 (by decide)).printAll
      (kbPolling (arrowThenLetter.flatMap ScanSequence.bytes))).map (fun s => s.vga.shown) =
      some [ch '^', 0] := by
    decide +kernel
  have hinterrupt : ((Console.atStart (fun _ => 0) 0x200000 (by decide)).printAll
      (kbInterrupts .clear (arrowThenLetter.flatMap ScanSequence.bytes)).2).map
        (fun s => s.vga.shown) = some [ch '^', ch 'a'] := by
    decide +kernel
  rw [hp, Option.map_some] at hpoll
  rw [hi, Option.map_some, ← heq, hpoll] at hinterrupt
  exact absurd hinterrupt (by decide)

end KernelDev
