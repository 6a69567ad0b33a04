import KernelDev.PrintkFormat

/-!
# Reading the numbers of `printk` back

What a reader makes of a text : `readInt` is the value of a numeral in a base, found from the
characters alone, with a minus sign or without, and `IsNumeral` is the text that one expects of a
number : it reads back as that number, has a minus sign exactly if the number is negative, and no
leading zero. Nothing here is defined by means of the conversions, so that a text that is a numeral
is right for its reader.

Both conversions leave such a text, and store every character of it once, in the order of their
loops. For `int_to_string` the indices of the stores are that of the NUL first and then those of
the sign and the digits, upwards; for `uint_to_string` that of the NUL and then those of the
digits, downwards. All are inside of `print_buf`. A zero takes a way of its own, through index `0`
and `1`.

The loop that finds the place value multiplies by the base as long as the test lets it; the product
then fits in 64 bits (`mul_base`), and the last one is the place value of the first digit
(`findPlaceValue_numeralText`). `count_digits` gives the length of the numeral
(`countDigits_numeralText`).

`digit_loops_agree` puts this together for every value and every base from 2 to 36, for which both
conversions are total; below `2 ^ 63` the two texts are the same, as only `int_to_string` in base
10 takes a value for negative (`intValue`).
-/

namespace KernelDev

/-! ## The reader -/

/-- The value of a digit, unless the character is none in the base. -/
def readDigit (b : ℕ) (c : BitVec 8) : Option ℕ :=
  let v := if ch '0' ≤ c ∧ c ≤ ch '9' then c.toNat - 48
    else if ch 'a' ≤ c ∧ c ≤ ch 'z' then c.toNat - 87
    else b
  if v < b then some v else none

/-- The value of a text of digits, at least one. -/
def readNat (b : ℕ) (text : List (BitVec 8)) : Option ℕ :=
  if text = [] then none else text.foldlM (fun v c => (readDigit b c).map (b * v + ·)) 0

/-- The text has a minus sign. -/
def hasMinus (text : List (BitVec 8)) : Bool :=
  text.head? == some (ch '-')

/-- The text without its minus sign. -/
def unsignedPart (text : List (BitVec 8)) : List (BitVec 8) :=
  if hasMinus text then text.tail else text

/-- The value of a text of digits, perhaps with a minus sign. -/
def readInt (b : ℕ) (text : List (BitVec 8)) : Option ℤ :=
  (readNat b (unsignedPart text)).map fun n => if hasMinus text then -n else n

/-- The text is the number `v` in base `b`, without a leading zero. -/
structure IsNumeral (b : ℕ) (v : ℤ) (text : List (BitVec 8)) : Prop where
  /-- It reads back as the number. -/
  value : readInt b text = some v
  sign : hasMinus text = true ↔ v < 0
  /-- A zero in front is all there is. -/
  leading : ∀ t, unsignedPart text = ch '0' :: t → t = []

/-- A digit is read as its value. -/
theorem readDigit_digitChar {b d : ℕ} (hd : d < b) (hb : b ≤ 36) :
    readDigit b (digitChar d) = some d := by
  have hlt : d < 36 := hd.trans_le hb
  have hval : (if ch '0' ≤ digitChar d ∧ digitChar d ≤ ch '9' then (digitChar d).toNat - 48
      else if ch 'a' ≤ digitChar d ∧ digitChar d ≤ ch 'z' then (digitChar d).toNat - 87
      else b) = d := by
    clear hd
    interval_cases d <;> rfl
  rw [readDigit, hval]
  exact if_pos hd

theorem foldlM_digits {b : ℕ} (hb : b ≤ 36) : ∀ (ds : List ℕ) (v : ℕ), (∀ d ∈ ds, d < b) →
    (ds.map digitChar).foldlM (fun v c => (readDigit b c).map (b * v + ·)) v =
      some (ds.foldl (fun v d => b * v + d) v)
  | [], v, _ => rfl
  | d :: ds, v, h => by
    rw [List.map_cons, List.foldlM_cons, readDigit_digitChar (h d List.mem_cons_self) hb,
      List.foldl_cons]
    exact foldlM_digits hb ds _ fun d hd => h d (List.mem_cons_of_mem _ hd)

theorem numeralText_ne_nil (b n : ℕ) : numeralText b n ≠ [] := by
  intro h
  have hlen := length_numeralText b n
  rw [h, List.length_nil] at hlen
  omega

/-- A numeral is read as its number. -/
theorem readNat_numeralText {b : ℕ} (hb : 1 < b) (hb' : b ≤ 36) (n : ℕ) :
    readNat b (numeralText b n) = some n := by
  rw [readNat, if_neg (numeralText_ne_nil b n), numeralText,
    foldlM_digits hb' _ 0 fun d hd => Digits.numeral_lt hb hd, Digits.foldl_numeral]

/-- A digit is no minus sign, and it is the character of zero only for zero. -/
theorem digitChar_cases {d : ℕ} (hd : d < 36) :
    digitChar d ≠ ch '-' ∧ (digitChar d = ch '0' ↔ d = 0) := by
  revert d
  decide

theorem hasMinus_numeralText {b : ℕ} (hb : 1 < b) (hb' : b ≤ 36) (n : ℕ) :
    hasMinus (numeralText b n) = false := by
  obtain ⟨c, t, htext⟩ := List.exists_cons_of_ne_nil (numeralText_ne_nil b n)
  obtain ⟨d, ds, hnum, rfl, -⟩ := List.map_eq_cons_iff.1 htext
  have hlt : d < b := Digits.numeral_lt hb (n := n) (hnum ▸ List.mem_cons_self)
  rw [hasMinus, htext]
  simpa using (digitChar_cases (hlt.trans_le hb')).1

/-- Only zero begins with a zero. -/
theorem numeralText_eq_zero_cons {b : ℕ} (hb : 1 < b) (hb' : b ≤ 36) {n : ℕ}
    {t : List (BitVec 8)} (h : numeralText b n = ch '0' :: t) : t = [] := by
  obtain ⟨d, ds, hnum, hd, rfl⟩ := List.map_eq_cons_iff.1 h
  have hlt : d < b := Digits.numeral_lt hb (n := n) (hnum ▸ List.mem_cons_self)
  obtain rfl := (digitChar_cases (hlt.trans_le hb')).2.1 hd
  rw [Digits.numeral_eq_zero_cons hnum]
  rfl

/-- The numeral of a number is one. -/
theorem isNumeral_numeralText {b : ℕ} (hb : 1 < b) (hb' : b ≤ 36) (n : ℕ) :
    IsNumeral b n (numeralText b n) := by
  have hminus := hasMinus_numeralText hb hb' n
  have hpart : unsignedPart (numeralText b n) = numeralText b n := by
    rw [unsignedPart, hminus]
    rfl
  refine ⟨?_, ?_, fun t ht => numeralText_eq_zero_cons hb hb' (hpart.symm.trans ht)⟩
  · rw [readInt, hpart, readNat_numeralText hb hb', hminus]
    rfl
  · rw [hminus]
    exact iff_of_false Bool.false_ne_true (Int.natCast_nonneg n).not_gt

/-- So is the decimal text of an integer. -/
theorem isNumeral_signedText (v : ℤ) : IsNumeral 10 v (signedText v) := by
  have hb : 1 < 10 := by decide
  have hb' : 10 ≤ 36 := by decide
  unfold signedText
  split_ifs with hneg
  · have hminus : hasMinus (ch '-' :: numeralText 10 v.natAbs) = true := beq_self_eq_true _
    have hpart : unsignedPart (ch '-' :: numeralText 10 v.natAbs) = numeralText 10 v.natAbs := by
      rw [unsignedPart, hminus]
      rfl
    refine ⟨?_, ?_, fun t ht => numeralText_eq_zero_cons hb hb' (hpart.symm.trans ht)⟩
    · rw [readInt, hpart, readNat_numeralText hb hb', hminus]
      exact congrArg some (show -(v.natAbs : ℤ) = v by omega)
    · rw [hminus]
      exact iff_of_true rfl hneg
  · have hnumeral := isNumeral_numeralText hb hb' v.natAbs
    rwa [show (v.natAbs : ℤ) = v by omega] at hnumeral

namespace DigitBuf

/-! ## The conversions -/

/-- The number that `int_to_string` stands for : signed in base 10 only. -/
def intValue (value : BitVec 64) (base : BitVec 32) : ℤ :=
  if base = 10 then value.toInt else value.toNat

/-- The number of minus signs that `int_to_string` writes. -/
def signLen (value : BitVec 64) (base : BitVec 32) : ℕ :=
  if value.slt 0 ∧ base = 10 then 1 else 0

/-- The number whose digits `int_to_string` writes. -/
def magnitude (value : BitVec 64) (base : BitVec 32) : BitVec 64 :=
  if value.slt 0 ∧ base = 10 then -value else value

/-- From `d` to `d'` the text of `v` was left in the buffer, by stores to `indices`. -/
structure Leaves (d d' : DigitBuf) (b : ℕ) (v : ℤ) (indices : List ℕ) : Prop where
  text : IsNumeral b v (strChars d'.str)
  /-- The stores, in the order of the loops. -/
  stores : d'.stores = d.stores ++ indices
  inside : ∀ i ∈ indices, i < printBufLen

theorem length_intText (value : BitVec 64) (base : BitVec 32) : (intText value base).length =
    signLen value base + (numeralText base.toNat (magnitude value base).toNat).length := by
  unfold intText signLen magnitude
  split_ifs with hneg
  · rw [List.length_cons, Nat.add_comm, hneg.2]
    rfl
  · rw [Nat.zero_add]

theorem intText_of_lt {value : BitVec 64} (base : BitVec 32) (h : value.toNat < 2 ^ 63) :
    intText value base = numeralText base.toNat value.toNat := by
  refine if_neg fun hneg => ?_
  have hlt : value.toInt < 0 := BitVec.slt_iff_toInt_lt.1 hneg.1
  rw [BitVec.toInt_eq_toNat_of_lt (by omega)] at hlt
  omega

/-- The sign and the digits behind it are the indices before the NUL. -/
theorem range_signLen (s n : ℕ) : List.range (s + n) = List.range s ++ List.range' s n := by
  rw [List.range_eq_range', List.range_eq_range', ← List.range'_append_1, Nat.zero_add]

/-- The stores are inside of the buffer. -/
theorem indices_inside {value : BitVec 64} {nul : ℕ} {is : List ℕ} (hnul : nul < printBufLen)
    (his : ∀ i ∈ is, i < nul) :
    ∀ i ∈ (if value = 0 then [0, 1] else nul :: is), i < printBufLen := by
  split_ifs
  · decide
  · exact List.forall_mem_cons.2 ⟨hnul, fun i hi => (his i hi).trans hnul⟩

section Base

variable {base : BitVec 32} (hb : 2 ≤ base.toNat) (hb' : base.toNat ≤ 36)

include hb hb'

theorem isNumeral_intText (value : BitVec 64) :
    IsNumeral base.toNat (intValue value base) (intText value base) := by
  unfold intValue
  split_ifs with hten
  · have htext := intText_signExtend (Nat.le_refl 64) value
    rw [BitVec.signExtend_eq] at htext
    rw [hten, htext]
    exact isNumeral_signedText value.toInt
  · rw [intText, if_neg fun h => hten h.2]
    exact isNumeral_numeralText hb hb' value.toNat

/-- Counting gives the length of the numeral. -/
theorem countDigits_numeralText (v : BitVec 64) :
    countDigits v base = some (numeralText base.toNat v.toNat).length := by
  rcases eq_or_ne v 0 with rfl | hv
  · rfl
  · rw [countDigits_eq hb hb' hv, numeralText_of_ne_zero (toNat_pos hv).ne', List.length_map,
      List.length_reverse]

/-- The loop for the place value goes on only with products that fit in 64 bits. -/
theorem mul_base {place v : BitVec 64} (h : place ≤ v / base.signExtend 64) :
    (place * base.signExtend 64).toNat = place.toNat * base.toNat := by
  rw [BitVec.le_def, div_base hb hb', Nat.le_div_iff_mul_le (by omega)] at h
  rw [BitVec.toNat_mul, toNat_base hb hb', Nat.mod_eq_of_lt (h.trans_lt v.isLt)]

/-- It ends with the place value of the first digit. -/
theorem findPlaceValue_numeralText {v : BitVec 64} (hv : v ≠ 0) : ∃ place,
    findPlaceValue v base = some place ∧
      place.toNat = base.toNat ^ ((numeralText base.toNat v.toNat).length - 1) := by
  have hpow := Digits.pow_le_of_pos (b := base.toNat) hb (toNat_pos hv)
  refine ⟨_, findPlaceValue_eq hb hb' hv, ?_⟩
  rw [numeralText_of_ne_zero (toNat_pos hv).ne', List.length_map, List.length_reverse,
    BitVec.toNat_ofNat, Nat.mod_eq_of_lt (hpow.trans_lt v.isLt)]

end Base

theorem magnitude_ne_zero {value : BitVec 64} (h : value ≠ 0) (base : BitVec 32) :
    magnitude value base ≠ 0 := by
  unfold magnitude
  split_ifs
  · exact fun hneg => h (BitVec.neg_eq_zero_iff.1 hneg)
  · exact h

/-- The two loops over the digits. Whatever place value the test lets through, the product fits
in 64 bits, and the last one is the place value of the first digit. `int_to_string` stores the
NUL behind as many digits as `count_digits` says, and then the sign and the digits up to it;
`uint_to_string` stores the NUL and then the digits down to the first. Both texts read back as
the number, and below `2 ^ 63` they are the same. -/
theorem digit_loops_agree (value : BitVec 64) (base : BitVec 32) (hb : 2 ≤ base.toNat)
    (hb' : base.toNat ≤ 36) (d e : DigitBuf) :
    (∀ place, place ≤ magnitude value base / base.signExtend 64 →
      (place * base.signExtend 64).toNat = place.toNat * base.toNat) ∧
    ∃ n m d' e', countDigits (magnitude value base) base = some n ∧
      (value ≠ 0 → ∃ place, findPlaceValue (magnitude value base) base = some place ∧
        place.toNat = base.toNat ^ (n - 1)) ∧
      d.intToString value base = some d' ∧
      Leaves d d' base.toNat (intValue value base) (if value = 0 then [0, 1] else
        (signLen value base + n) ::
          (List.range (signLen value base) ++ List.range' (signLen value base) n)) ∧
      (strChars d'.str).length = signLen value base + n ∧
      countDigits value base = some m ∧ e.uintToString value base = some e' ∧
      Leaves e e' base.toNat value.toNat
        (if value = 0 then [0, 1] else m :: (List.range m).reverse) ∧
      (strChars e'.str).length = m ∧
      (value.toNat < 2 ^ 63 → strChars d'.str = strChars e'.str) := by
  obtain ⟨d', hd', hreads, -, hstores⟩ := d.intToString_spec value hb hb'
  obtain ⟨e', he', hreads', -, hstores'⟩ := e.uintToString_spec value hb hb'
  have hstr := hreads.str (zero_notMem_intText value hb hb')
  have hstr' := hreads'.str (zero_notMem_numeralText hb hb')
  have hlen := length_intText value base
  refine ⟨fun place => mul_base hb hb', _, _, d', e', countDigits_numeralText hb hb' _,
    fun hv => findPlaceValue_numeralText hb hb' (magnitude_ne_zero hv base), hd', ⟨?_, ?_, ?_⟩,
    ?_, countDigits_numeralText hb hb' _, he', ⟨?_, ?_, ?_⟩, ?_, ?_⟩
  · rw [hstr]
    exact isNumeral_intText hb hb' value
  · rw [hstores, hlen, range_signLen]
  · refine indices_inside (hlen ▸ hreads.short) fun i hi => ?_
    rwa [← List.mem_range, range_signLen]
  · rw [hstr, hlen]
  · rw [hstr']
    exact isNumeral_numeralText hb hb' _
  · exact hstores'
  · refine indices_inside hreads'.short fun i hi => ?_
    rwa [← List.mem_range, ← List.mem_reverse]
  · rw [hstr']
  · intro hlt
    rw [hstr, hstr', intText_of_lt base hlt]

/-- The least value, whose negation is itself. -/
theorem digit_loops_agree_least : ∃ d',
    DigitBuf.intToString ⟨fun _ => 0, 0, []⟩ (BitVec.intMin 64) 10 = some d' ∧
      IsNumeral 10 (-2 ^ 63) (strChars d'.str) := by
  obtain ⟨-, _, _, d', _, -, -, hd', hleaves, -⟩ := digit_loops_agree (BitVec.intMin 64) 10
    (by decide) (by decide) ⟨fun _ => 0, 0, []⟩ ⟨fun _ => 0, 0, []⟩
  exact ⟨d', hd', hleaves.text⟩

end DigitBuf

end KernelDev
