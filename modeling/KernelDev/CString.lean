import KernelDev.Lib.Memory

/-!
# `string.c`

The functions of `string.c` that the others build on. `memset` and `memcpy` work on one byte at a
time, from the first one on. On a range that does not come back to its start `memset` is
`ByteMem.fill` (`memset_eq_fill`), and nothing after this file unfolds the loop; `memcpy` from an
object outside the destination copies the words of that object (`loadLE_memcpy`).

A string is the list of the bytes at its address, which ends in a NUL or at the end of the list;
`strChars` are its characters before the NUL, and `strlen` counts them (`strlen_eq`). `strlenAt` is
`strlen` on memory itself, for the one call that passes on a pointer that is no string.
-/

namespace KernelDev

open ByteMem

/-- `memset`: store the byte `c` at `dst`, `n` times over consecutive addresses. -/
def memset (m : Mem) (dst : Addr) (c : BitVec 8) : ℕ → Mem
  | 0 => m
  | n + 1 => memset (Function.update m dst c) (dst + 1) c n

/-- A byte after `memset`. -/
theorem memset_apply (c : BitVec 8) : ∀ {n : ℕ} (m : Mem) (dst x : Addr), n ≤ 2 ^ 64 →
    memset m dst c n x = if Within dst n x then c else m x
  | 0, m, dst, x, _ => by simp [memset]
  | n + 1, m, dst, x, hn => by
    rw [memset, memset_apply c _ _ _ (by omega)]
    by_cases hx : x = dst
    · subst hx
      rw [if_neg (not_within_self_succ (by omega)), Function.update_self,
        if_pos ((within_succ (by omega)).2 (Or.inl rfl))]
    · simp only [within_succ (show n < 2 ^ 64 by omega), hx, false_or,
        Function.update_of_ne hx]

/-- On a range that does not come back to its start, `memset` fills it. -/
theorem memset_eq_fill (m : Mem) (dst : Addr) (c : BitVec 8) {n : ℕ} (hn : n ≤ 2 ^ 64) :
    memset m dst c n = fill m dst c n :=
  funext fun x => memset_apply c m dst x hn

attribute [irreducible] memset

/-- `memcpy` : copy `n` bytes over consecutive addresses, from `p` in the object `src` to `dst`. -/
def memcpy (m : Mem) (dst : Addr) (src : Mem) (p : Addr) : ℕ → Mem
  | 0 => m
  | n + 1 => memcpy (Function.update m dst (src p)) (dst + 1) src (p + 1) n

/-- A byte after `memcpy`. -/
theorem memcpy_apply (src : Mem) : ∀ {n : ℕ} (m : Mem) (dst p x : Addr), n ≤ 2 ^ 64 →
    memcpy m dst src p n x = if Within dst n x then src (p + (x - dst)) else m x
  | 0, m, dst, p, x, _ => by simp [memcpy]
  | n + 1, m, dst, p, x, hn => by
    rw [memcpy, memcpy_apply src _ _ _ _ (by omega)]
    by_cases hx : x = dst
    · subst hx
      rw [if_neg (not_within_self_succ (by omega)), Function.update_self,
        if_pos ((within_succ (by omega)).2 (Or.inl rfl)), BitVec.sub_self, BitVec.add_zero]
    · have hsrc : p + 1 + (x - (dst + 1)) = p + (x - dst) := by bv_omega
      simp only [within_succ (show n < 2 ^ 64 by omega), hx, false_or,
        Function.update_of_ne hx, hsrc]

/-- A word of a copied range is the word of the source. -/
theorem loadLE_memcpy {src m : Mem} {dst p : Addr} {n o w : ℕ} (hn : n ≤ 2 ^ 64)
    (h : o + w ≤ n) : loadLE (memcpy m dst src p n) (dst + BitVec.ofNat 64 o) w =
      loadLE src (p + BitVec.ofNat 64 o) w := by
  refine loadLE_eq_of_bytes fun i hi => ?_
  have hoff : dst + BitVec.ofNat 64 o + BitVec.ofNat 64 i - dst = BitVec.ofNat 64 (o + i) := by
    rw [BitVec.ofNat_add]
    bv_omega
  have hin : Within dst n (dst + BitVec.ofNat 64 o + BitVec.ofNat 64 i) := by
    rw [Within, hoff, BitVec.toNat_ofNat]
    exact Nat.lt_of_le_of_lt (Nat.mod_le _ _) (by omega)
  rw [memcpy_apply src m dst p _ hn, if_pos hin, hoff, BitVec.ofNat_add, BitVec.add_assoc]

attribute [irreducible] memcpy

/-- `strlen` -/
def strlen : List (BitVec 8) → ℕ
  | [] => 0
  | c :: s => if c = 0 then 0 else strlen s + 1

/-- `strlen` on memory. There is a NUL in memory, at the latest behind a string literal, so that
`2 ^ 64` bytes are enough to look at. -/
def strlenAt (m : Mem) (p : Addr) : ℕ → ℕ
  | 0 => 0
  | n + 1 => if m p = 0 then 0 else strlenAt m (p + 1) n + 1

/-- The characters of a string, without the NUL. -/
def strChars (s : List (BitVec 8)) : List (BitVec 8) :=
  s.takeWhile fun c => decide (c ≠ 0)

theorem strChars_cons {c : BitVec 8} (hc : c ≠ 0) (s : List (BitVec 8)) :
    strChars (c :: s) = c :: strChars s :=
  List.takeWhile_cons_of_pos (decide_eq_true hc)

/-- `strlen` counts the characters before the NUL. -/
theorem strlen_eq : ∀ s : List (BitVec 8), strlen s = (strChars s).length
  | [] => rfl
  | c :: s => by
    rw [strlen]
    split_ifs with hc
    · rw [hc]
      rfl
    · rw [strChars_cons hc, strlen_eq s, List.length_cons]

/-- The characters before the first NUL. -/
theorem strChars_append : ∀ (s t : List (BitVec 8)), (0 : BitVec 8) ∉ s → strChars (s ++ 0 :: t) = s
  | [], _, _ => rfl
  | c :: s, t, hs => by
    rw [List.mem_cons, not_or] at hs
    obtain ⟨hc, hs⟩ := hs
    rw [List.cons_append, strChars_cons (Ne.symm hc), strChars_append s t hs]

end KernelDev
