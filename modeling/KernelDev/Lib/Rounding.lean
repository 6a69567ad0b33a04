import Mathlib.Tactic.SplitIfs
import Mathlib.Algebra.Group.Nat.Defs
import Mathlib.Algebra.Order.Group.Nat

/-!
# Rounding machine words

Words are rounded to multiples of `2 ^ k` by masking the low `k` bits off (`down`), and rounded up
by adding `2 ^ k - 1` before that (`up`). This is how sizes are rounded to an alignment, and
addresses to page boundaries.

Rounding down is division, at any width and for any `k` (`toNat_down`), as the mask keeps the bits
from `k` on (`down_eq_shift`). Rounding up is division as long as the sum does not wrap around
(`toNat_up`). Where the sum wraps around, what is left of it is below `2 ^ k`, and the mask makes
zero of it (`toNat_up_of_wraps`) : a size close to the end of the range is rounded up to nothing.
The two lemmas about `up` cover every word, so a caller only has to compare its word with the last
multiple.
-/

namespace Rounding

variable {w k : ℕ} {x : BitVec w}

/-- The bits from `k` on. -/
def mask (w k : ℕ) : BitVec w :=
  BitVec.allOnes w <<< k

/-- `x` rounded down to a multiple of `2 ^ k`. -/
def down (k : ℕ) (x : BitVec w) : BitVec w :=
  x &&& mask w k

/-- `x` rounded up to a multiple of `2 ^ k`, if that is a word. -/
def up (k : ℕ) (x : BitVec w) : BitVec w :=
  down k (x + BitVec.ofNat w (2 ^ k - 1))

/-- Masking the low bits off is shifting them out and in again. -/
theorem down_eq_shift (x : BitVec w) : down k x = (x >>> k) <<< k := by
  unfold down mask
  ext i hi
  by_cases hk : i < k
  · simp [hk]
  · simp [hk, show k + (i - k) = i by omega, hi, BitVec.getLsbD_eq_getElem]

/-- Rounding down is division. -/
theorem toNat_down (x : BitVec w) : (down k x).toNat = x.toNat / 2 ^ k * 2 ^ k := by
  rw [down_eq_shift, BitVec.toNat_shiftLeft, BitVec.toNat_ushiftRight, Nat.shiftRight_eq_div_pow,
    Nat.shiftLeft_eq, Nat.mod_eq_of_lt]
  exact (Nat.div_mul_le_self _ _).trans_lt x.isLt

/-- So is rounding up, as long as the sum does not wrap around. -/
theorem toNat_up (hk : k ≤ w) (h : x.toNat + (2 ^ k - 1) < 2 ^ w) :
    (up k x).toNat = (x.toNat + (2 ^ k - 1)) / 2 ^ k * 2 ^ k := by
  have hpow := Nat.pow_le_pow_right (Nat.zero_lt_two) hk
  rw [up, toNat_down, BitVec.toNat_add, BitVec.toNat_ofNat, Nat.mod_eq_of_lt (a := 2 ^ k - 1),
    Nat.mod_eq_of_lt h]
  have := Nat.two_pow_pos k
  omega

/-- Where the sum wraps around, there are fewer than `2 ^ k` past the end. -/
theorem toNat_up_of_wraps (hk : k ≤ w) (h : 2 ^ w ≤ x.toNat + (2 ^ k - 1)) :
    (up k x).toNat = 0 := by
  have hpow := Nat.pow_le_pow_right (Nat.zero_lt_two) hk
  have hpos := Nat.two_pow_pos k
  have hx := x.isLt
  have hsum : (x + BitVec.ofNat w (2 ^ k - 1)).toNat = x.toNat + (2 ^ k - 1) - 2 ^ w := by
    rw [BitVec.toNat_add, BitVec.toNat_ofNat, Nat.mod_eq_of_lt (a := 2 ^ k - 1) (by omega),
      Nat.mod_eq_sub_mod h, Nat.mod_eq_of_lt (by omega)]
  rw [up, toNat_down, hsum, Nat.div_eq_of_lt (by omega), Nat.zero_mul]

end Rounding
