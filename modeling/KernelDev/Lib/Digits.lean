import Mathlib.Data.Nat.Digits.Lemmas

/-!
# Numerals

The numeral of a number lists its digits in a base, most significant first, and is the digit zero
for zero (`Digits.numeral`). It is what a conversion routine prints, and `Digits.foldl_numeral`
says that it is a numeral : reading it digit by digit gives the number back.

There are two ways to it. Dividing by decreasing powers of the base gives a fixed number of digits,
the first one first (`Digits.fixed`). That is the numeral when the number of digits is right
(`Digits.fixed_eq`), which asks for the largest power of the base in the number
(`Digits.pow_le_of_pos`). Dividing by the base again and again gives the digits from the last one
on, which is `Nat.digits` read backwards, and needs the number of digits for the place of the last
one.

The bounds are what a buffer of a fixed size needs : each digit is below the base
(`Digits.numeral_lt`), a number below `2 ^ w` has at most `w` digits in any base
(`Digits.length_digits_le`), and only zero has the digit zero in front
(`Digits.numeral_eq_zero_cons`).
-/

namespace Digits

variable {b n : ℕ}

/-- The digits of `n` in base `b`, most significant first, and `[0]` for zero. -/
def numeral (b n : ℕ) : List ℕ :=
  if n = 0 then [0] else (Nat.digits b n).reverse

/-- The last `k` digits of `n`, found with decreasing powers of the base. -/
def fixed (b : ℕ) : ℕ → ℕ → List ℕ
  | 0, _ => []
  | k + 1, n => n / b ^ k :: fixed b k (n % b ^ k)

/-- One digit more is the last digit of the number. -/
theorem fixed_concat : ∀ {k n : ℕ}, n < b ^ (k + 1) →
    fixed b (k + 1) n = fixed b k (n / b) ++ [n % b]
  | 0, n, hn => by
    rw [Nat.zero_add, pow_one] at hn
    simp [fixed, Nat.mod_eq_of_lt hn]
  | k + 1, n, hn => by
    have hpos : 0 < b ^ (k + 1) := by
      rcases Nat.eq_zero_or_pos b with rfl | hb
      · simp at hn
      · exact Nat.pow_pos hb
    rw [fixed, fixed_concat (Nat.mod_lt n hpos), fixed, Nat.div_div_eq_div_mul, pow_succ' b k,
      Nat.mod_mul_right_div_self, Nat.mod_mul_right_mod, List.cons_append]

/-- With as many digits as `n` has, `fixed` gives its numeral. -/
theorem fixed_eq (hb : 1 < b) : ∀ n, fixed b (Nat.digits b n).length n = (Nat.digits b n).reverse :=
  Nat.strongRec fun n ih => by
    rcases Nat.eq_zero_or_pos n with rfl | hn
    · simp [fixed]
    · have hlt := Nat.lt_base_pow_length_digits (m := n) hb
      rw [Nat.digits_def' hb hn] at hlt ⊢
      rw [List.length_cons] at hlt ⊢
      rw [fixed_concat hlt, ih _ (Nat.div_lt_self hn hb), List.reverse_cons]

/-- A digit is below the base. -/
theorem numeral_lt (hb : 1 < b) {d : ℕ} (hd : d ∈ numeral b n) : d < b := by
  unfold numeral at hd
  split_ifs at hd
  · obtain rfl := List.mem_singleton.1 hd
    omega
  · exact Nat.digits_lt_base hb (List.mem_reverse.1 hd)

/-- A numeral is read from its first digit on. -/
theorem foldl_numeral (b n : ℕ) : (numeral b n).foldl (fun v d => b * v + d) 0 = n := by
  unfold numeral
  split_ifs with hn
  · rw [List.foldl_cons, List.foldl_nil, mul_zero, zero_add, hn]
  · rw [List.foldl_reverse]
    calc (Nat.digits b n).foldr (fun d v => b * v + d) 0
        = (Nat.digits b n).foldr (fun d v => d + b * v) 0 := by
          simp only [Nat.add_comm]
      _ = Nat.ofDigits b (Nat.digits b n) := (Nat.ofDigits_eq_foldr b _).symm
      _ = n := Nat.ofDigits_digits b n

/-- Only zero starts with the digit zero. -/
theorem numeral_eq_zero_cons {t : List ℕ} (h : numeral b n = 0 :: t) : t = [] := by
  unfold numeral at h
  split_ifs at h with hn
  · exact (List.cons.inj h).2.symm
  · have hlast := Nat.getLast_digit_ne_zero b hn
    rw [List.getLast_eq_head_reverse] at hlast
    simp [h] at hlast

/-- The largest power of the base in `n`. -/
theorem pow_le_of_pos (hb : 1 < b) (hn : 0 < n) : b ^ ((Nat.digits b n).length - 1) ≤ n := by
  have hle := Nat.base_pow_length_digits_le b n hb hn.ne'
  have hpos : 0 < (Nat.digits b n).length :=
    List.length_pos_iff.2 (Nat.digits_ne_nil_iff_ne_zero.2 hn.ne')
  obtain ⟨k, hk⟩ := Nat.exists_eq_succ_of_ne_zero hpos.ne'
  rw [hk, pow_succ'] at hle
  rw [hk]
  exact Nat.le_of_mul_le_mul_left hle (by omega)

/-- A number below `2 ^ w` has at most `w` digits, whatever the base. -/
theorem length_digits_le (hb : 1 < b) {w : ℕ} (hn : n < 2 ^ w) : (Nat.digits b n).length ≤ w := by
  rw [Nat.digits_length_le_iff hb]
  exact hn.trans_le (Nat.pow_le_pow_left hb w)

end Digits
