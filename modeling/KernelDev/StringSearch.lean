import KernelDev.StringCopy
import Mathlib.Data.List.Lex

/-!
# `string.c`, comparing and searching

`strcmp` and `strchr`, on strings in one memory. Bytes are compared as `unsigned char`. The loop of
`strcmp` compares them as `char`, but only for equality; its result is a difference of `unsigned
char`s, so that the sign of `char` has no part in it. It is the lexicographic order of the strings
as lists of bytes (`strcmp_orders`), with a string before those it is the beginning of, as its NUL
comes before every character. `Compares` is what a number says of two lists, and it goes through
the two together : equal heads leave the result to the tails (`compares_cons`), and different ones
decide it (`compares_heads`).

`strchr` looks for its argument as an `unsigned char` too, so of the `int` only the low byte
counts. The NUL of a string is one of the characters that it finds, which is a test of its own
behind the loop. `strchr_first` : the result is the address of the first occurrence, the NUL
included, or a null pointer if there is none.

Both loops end with the strings. The number of tests is bounded by the length of a string, which is
part of the statements.
-/

namespace KernelDev

open ByteMem

/-- The condition of the loop of `strcmp`. -/
def strcmpMore (m : Mem) (p : Addr × Addr) : Bool :=
  decide (m p.1 ≠ 0 ∧ m p.1 = m p.2)

/-- `strcmp`, if its loop is over after `fuel` tests. -/
def strcmp (fuel : ℕ) (m : Mem) (s1 s2 : Addr) : Option ℤ :=
  (Loop.run (strcmpMore m) (fun p => (p.1 + 1, p.2 + 1)) fuel (s1, s2)).map fun p =>
    (m p.1).toNat - (m p.2).toNat

/-- The loop of `strchr` goes on : it is not at the NUL, and does not return what it has found. -/
def strchrMore (m : Mem) (ch : BitVec 8) (p : Addr) : Bool :=
  decide (m p ≠ 0 ∧ m p ≠ ch)

/-- `strchr`, if its loop is over after `fuel` tests. -/
def strchr (fuel : ℕ) (m : Mem) (s : Addr) (c : BitVec 32) : Option Addr :=
  let ch : BitVec 8 := c.setWidth 8
  (Loop.run (strchrMore m ch) (· + 1) fuel s).map fun p =>
    if m p ≠ 0 then p else if ch = 0 then p else 0

/-- The `n` bytes at `p`. -/
def bytesAt (m : Mem) : Addr → ℕ → List (BitVec 8)
  | _, 0 => []
  | p, n + 1 => m p :: bytesAt m (p + 1) n

variable {m : Mem} {p s s1 s2 : Addr} {n n1 n2 fuel : ℕ}

namespace StringAt

/-- An empty string starts with its NUL. -/
theorem head_eq_zero (h : StringAt m p 0) : m p = 0 := by
  have hnul := h.nul
  rwa [BitVec.add_zero] at hnul

/-- Any other string starts with a character. -/
theorem head_ne_zero (h : StringAt m p (n + 1)) : m p ≠ 0 := by
  have hchar := h.chars 0 n.succ_pos
  rwa [BitVec.add_zero] at hchar

theorem tail (h : StringAt m p (n + 1)) : StringAt m (p + 1) n where
  short := Nat.lt_of_succ_lt h.short
  chars i hi := by
    rw [add_one_add_ofNat]
    exact h.chars (i + 1) (Nat.succ_lt_succ hi)
  nul := by
    rw [add_one_add_ofNat]
    exact h.nul

end StringAt

/-! ## `strcmp` -/

/-- A number that compares two lists : its sign is that of their order. -/
def Compares (r : ℤ) (as bs : List (BitVec 8)) : Prop :=
  (r < 0 ↔ as < bs) ∧ (r = 0 ↔ as = bs) ∧ (0 < r ↔ bs < as)

/-- The heads decide if they differ. -/
theorem compares_heads {a b : BitVec 8} (h : a ≠ b) (as bs : List (BitVec 8)) :
    Compares (a.toNat - b.toNat) (a :: as) (b :: bs) := by
  have hne : a.toNat ≠ b.toNat := fun heq => h (BitVec.eq_of_toNat_eq heq)
  refine ⟨?_, ?_, ?_⟩
  · rw [List.cons_lt_cons_iff, BitVec.lt_def]
    constructor
    · intro hlt
      exact .inl (by omega)
    · rintro (hlt | ⟨heq, -⟩)
      · omega
      · exact absurd heq h
  · constructor
    · intro hzero
      omega
    · intro heq
      exact absurd (List.cons.inj heq).1 h
  · rw [List.cons_lt_cons_iff, BitVec.lt_def]
    constructor
    · intro hlt
      exact .inl (by omega)
    · rintro (hlt | ⟨heq, -⟩)
      · omega
      · exact absurd heq.symm h

/-- Equal heads leave it to the tails. -/
theorem compares_cons {r : ℤ} {as bs : List (BitVec 8)} (a : BitVec 8) (h : Compares r as bs) :
    Compares r (a :: as) (a :: bs) := by
  have hirr : ¬a < a := by
    rw [BitVec.lt_def]
    exact lt_irrefl _
  unfold Compares
  simp only [List.cons_lt_cons_iff, hirr, false_or, true_and, List.cons.injEq]
  exact h

/-- A string that has ended comes first. -/
theorem compares_nil {b : BitVec 8} (h : b ≠ 0) (bs : List (BitVec 8)) :
    Compares (0 - b.toNat) [] (b :: bs) ∧ Compares (b.toNat - 0) (b :: bs) [] := by
  have hpos : 0 < b.toNat := Nat.pos_of_ne_zero fun hzero => h (BitVec.eq_of_toNat_eq hzero)
  constructor
  · exact ⟨iff_of_true (by omega) (List.nil_lt_cons b bs), iff_of_false (by omega) nofun,
      iff_of_false (by omega) (List.not_lt_nil _)⟩
  · exact ⟨iff_of_false (by omega) (List.not_lt_nil _), iff_of_false (by omega) nofun,
      iff_of_true (by omega) (List.nil_lt_cons b bs)⟩

/-- The loop ends at the NUL or where the strings differ. -/
theorem strcmp_stop (h : ¬(m s1 ≠ 0 ∧ m s1 = m s2)) :
    strcmp (fuel + 1) m s1 s2 = some ((m s1).toNat - (m s2).toNat : ℤ) := by
  rw [strcmp, Loop.run_stop (show strcmpMore m (s1, s2) = false from decide_eq_false h)]
  rfl

/-- A round of the loop. -/
theorem strcmp_step (h : m s1 ≠ 0) (heq : m s1 = m s2) :
    strcmp (fuel + 1) m s1 s2 = strcmp fuel m (s1 + 1) (s2 + 1) := by
  rw [strcmp, Loop.run_step (show strcmpMore m (s1, s2) = true from decide_eq_true ⟨h, heq⟩)]
  rfl

/-- `strcmp` of two strings, in one memory and overlapping or not : its sign is their
lexicographic order. -/
theorem strcmp_orders (h1 : StringAt m s1 n1) (h2 : StringAt m s2 n2)
    (hfuel : min n1 n2 < fuel) :
    ∃ r, strcmp fuel m s1 s2 = some r ∧ Compares r (bytesAt m s1 n1) (bytesAt m s2 n2) := by
  induction n1 generalizing s1 s2 n2 fuel with
  | zero =>
    obtain ⟨k, rfl⟩ := Nat.exists_eq_add_of_le' (Nat.zero_lt_of_lt hfuel)
    refine ⟨_, strcmp_stop (fun h => h.1 h1.head_eq_zero), ?_⟩
    rw [h1.head_eq_zero]
    cases n2 with
    | zero =>
      rw [h2.head_eq_zero]
      exact ⟨iff_of_false (Int.lt_irrefl 0) (List.not_lt_nil _), iff_of_true rfl rfl,
        iff_of_false (Int.lt_irrefl 0) (List.not_lt_nil _)⟩
    | succ n2 => exact (compares_nil h2.head_ne_zero _).1
  | succ n1 ih =>
    obtain ⟨k, rfl⟩ := Nat.exists_eq_add_of_le' (Nat.zero_lt_of_lt hfuel)
    by_cases heq : m s1 = m s2
    · rw [strcmp_step h1.head_ne_zero heq]
      cases n2 with
      | zero => exact absurd (heq.trans h2.head_eq_zero) h1.head_ne_zero
      | succ n2 =>
        have hlt : min n1 n2 < k := by omega
        obtain ⟨r, hr, hcompares⟩ := ih h1.tail h2.tail hlt
        refine ⟨r, hr, ?_⟩
        rw [bytesAt, bytesAt, ← heq]
        exact compares_cons _ hcompares
    · refine ⟨_, strcmp_stop (fun h => heq h.2), ?_⟩
      cases n2 with
      | zero =>
        rw [h2.head_eq_zero]
        exact (compares_nil h1.head_ne_zero _).2
      | succ n2 => exact compares_heads heq _ _

/-- A memory with `ab` and `a` in it. -/
def twoStrings : Mem := fun p =>
  if p = 0x1000 then 0x61 else if p = 0x1001 then 0x62 else if p = 0x2000 then 0x61 else 0

theorem stringAt_ab : StringAt twoStrings 0x1000 2 := ⟨by decide, by decide, by decide⟩

theorem stringAt_a : StringAt twoStrings 0x2000 1 := ⟨by decide, by decide, by decide⟩

theorem strcmp_orders_twoStrings : ∃ r, strcmp 2 twoStrings 0x1000 0x2000 = some r ∧
    Compares r [0x61, 0x62] [0x61] :=
  strcmp_orders stringAt_ab stringAt_a (by decide)

/-! ## `strchr` -/

/-- `strchr` of a string : the address of the first occurrence of the character, the NUL of the
string included, or a null pointer. -/
theorem strchr_first (c : BitVec 32) (h : StringAt m s n) (hfuel : n < fuel) :
    strchr fuel m s c =
      some (if c.setWidth 8 ∈ bytesAt m s (n + 1) then
        s + BitVec.ofNat 64 ((bytesAt m s (n + 1)).idxOf (c.setWidth 8)) else 0) := by
  induction n generalizing s fuel with
  | zero =>
    obtain ⟨k, rfl⟩ := Nat.exists_eq_add_of_le' (Nat.zero_lt_of_lt hfuel)
    have hstop : strchrMore m (c.setWidth 8) s = false :=
      decide_eq_false fun hmore => hmore.1 h.head_eq_zero
    rw [strchr, Loop.run_stop hstop, Option.map_some,
      if_neg (not_not.2 h.head_eq_zero), bytesAt, bytesAt, h.head_eq_zero]
    by_cases hc : c.setWidth 8 = (0 : BitVec 8)
    · rw [if_pos hc, hc, if_pos List.mem_cons_self, List.idxOf_cons_self, BitVec.add_zero]
    · rw [if_neg hc, if_neg (fun hmem => hc (List.mem_singleton.1 hmem))]
  | succ n ih =>
    obtain ⟨k, rfl⟩ := Nat.exists_eq_add_of_le' (Nat.zero_lt_of_lt hfuel)
    by_cases hc : m s = c.setWidth 8
    · have hstop : strchrMore m (c.setWidth 8) s = false :=
        decide_eq_false fun hmore => hmore.2 hc
      rw [strchr, Loop.run_stop hstop, Option.map_some, if_pos h.head_ne_zero,
        bytesAt, ← hc, if_pos List.mem_cons_self, List.idxOf_cons_self, BitVec.add_zero]
    · have hmore : strchrMore m (c.setWidth 8) s = true := decide_eq_true ⟨h.head_ne_zero, hc⟩
      have hstep : strchr (k + 1) m s c = strchr k m (s + 1) c := by
        rw [strchr, Loop.run_step hmore]
        rfl
      have hbytes : bytesAt m s (n + 2) = m s :: bytesAt m (s + 1) (n + 1) := rfl
      rw [hstep, ih h.tail (by omega), hbytes, List.idxOf_cons_ne _ hc, ← add_one_add_ofNat]
      simp only [List.mem_cons, Ne.symm hc, false_or]

theorem strchr_first_twoStrings : strchr 3 twoStrings 0x1000 0x162 = some 0x1001 :=
  strchr_first 0x162 stringAt_ab (by decide)

end KernelDev
