import KernelDev.Lib.Digits
import KernelDev.Printk

/-!
# The digits of `printk`

Both conversions leave the numeral of their argument in `print_buf`, with a NUL behind it :
`int_to_string` from the first digit on (`intToString_spec`), `uint_to_string` from the last one
(`uintToString_spec`). Only the first one forgets `int_len` for zero. Both are total for bases from
2 to 36, for which the digits are `0` to `9` and letters.

`Fills` describes what a piece of the code does to the buffer : it stores these characters at this
place, and nothing outside of them. Two neighbouring pieces make one, whichever of them is written
first (`Fills.append`, `Fills.append_left`), which is how the two directions are treated alike.
`Reads` is the end result : the buffer holds the text and a NUL, inside of its 65 bytes.

The loops come in between. Dividing by the base until zero counts the digits (`run_divide`); the
place value of the first digit is the largest power of the base in the number
(`findPlaceValue_eq`), and does not overflow, as the loop compares before it multiplies; with it
the digits come out one by one (`run_emit`). `run_fill` is the loop of `uint_to_string`.

`intText` is the text of a value as `int_to_string` understands it : with base 10 it is signed, and
in any other base it is not. It is short enough for the buffer (`intText_length_lt`), also with its
sign.
-/

namespace KernelDev

/-- The character of a digit. -/
def digitChar (d : ℕ) : BitVec 8 :=
  BitVec.ofNat 8 (if d < 10 then 48 + d else 87 + d)

/-- The text of a number. -/
def numeralText (b n : ℕ) : List (BitVec 8) :=
  (Digits.numeral b n).map digitChar

theorem digitChar_ne_zero {d : ℕ} (hd : d < 36) : digitChar d ≠ 0 := by
  revert d
  decide

theorem zero_notMem_numeralText {b n : ℕ} (hb : 1 < b) (hb' : b ≤ 36) :
    (0 : BitVec 8) ∉ numeralText b n := by
  intro h
  obtain ⟨d, hd, hd0⟩ := List.mem_map.1 h
  exact digitChar_ne_zero ((Digits.numeral_lt hb hd).trans_le hb') hd0

theorem numeralText_zero (b : ℕ) : numeralText b 0 = [ch '0'] :=
  rfl

/-- Zero has one digit. -/
theorem length_numeralText (b n : ℕ) :
    (numeralText b n).length = max 1 (Nat.digits b n).length := by
  rcases Nat.eq_zero_or_pos n with rfl | hn
  · simp [numeralText_zero]
  · have hpos := List.length_pos_iff.2 (Nat.digits_ne_nil_iff_ne_zero (b := b).2 hn.ne')
    rw [numeralText, Digits.numeral, if_neg hn.ne', List.length_map, List.length_reverse]
    omega

theorem numeralText_of_ne_zero {b n : ℕ} (hn : n ≠ 0) :
    numeralText b n = (Nat.digits b n).reverse.map digitChar := by
  rw [numeralText, Digits.numeral, if_neg hn]

namespace DigitBuf

variable {d d' d'' : DigitBuf} {pos : ℕ} {bs bs' : List (BitVec 8)} {base : BitVec 32}

/-! ## Filling the buffer -/

/-- From `d` to `d'` the characters `bs` were stored at `pos`, and nothing outside of them. -/
structure Fills (d d' : DigitBuf) (pos : ℕ) (bs : List (BitVec 8)) : Prop where
  inside : ∀ i b, bs[i]? = some b → d'.printBuf (pos + i) = b
  outside : ∀ i, i < pos ∨ pos + bs.length ≤ i → d'.printBuf i = d.printBuf i
  /-- Every store was at one of the characters or before them. -/
  stores : ∃ is, d'.stores = d.stores ++ is ∧ ∀ i ∈ is, i < pos + bs.length
  intLen : d'.intLen = d.intLen

theorem Fills.nil (d : DigitBuf) (pos : ℕ) : Fills d d pos [] :=
  ⟨by simp, fun _ _ => rfl, ⟨[], by simp, by simp⟩, rfl⟩

theorem fills_store (d : DigitBuf) (pos : ℕ) (c : BitVec 8) : Fills d (d.store pos c) pos [c] := by
  refine ⟨fun i b hi => ?_, fun i hi => ?_, ⟨[pos], rfl, by simp⟩, rfl⟩
  · obtain ⟨hlt, rfl⟩ := List.getElem?_eq_some_iff.1 hi
    obtain rfl : i = 0 := by simpa using hlt
    exact Function.update_self _ _ _
  · refine Function.update_of_ne ?_ _ _
    rw [List.length_singleton] at hi
    omega

/-- Two pieces, one after the other, leave alone what is outside of both. -/
theorem Fills.within {p q : ℕ} (h : Fills d d' p bs) (h' : Fills d' d'' q bs') (lo hi : ℕ)
    (hp : lo ≤ p ∧ p + bs.length ≤ hi) (hq : lo ≤ q ∧ q + bs'.length ≤ hi) :
    (∀ i, i < lo ∨ hi ≤ i → d''.printBuf i = d.printBuf i) ∧
      (∃ is, d''.stores = d.stores ++ is ∧ ∀ i ∈ is, i < hi) ∧ d''.intLen = d.intLen := by
  obtain ⟨is, his, hin⟩ := h.stores
  obtain ⟨is', his', hin'⟩ := h'.stores
  refine ⟨fun i hout => ?_, ⟨is ++ is', ?_, fun i hmem => ?_⟩, h'.intLen.trans h.intLen⟩
  · rw [h'.outside i (by omega), h.outside i (by omega)]
  · rw [his', his, List.append_assoc]
  · rcases List.mem_append.1 hmem with hmem | hmem
    · have := hin i hmem
      omega
    · have := hin' i hmem
      omega

/-- Two neighbouring pieces, the left one first. -/
theorem Fills.append (h : Fills d d' pos bs) (h' : Fills d' d'' (pos + bs.length) bs') :
    Fills d d'' pos (bs ++ bs') := by
  have hlen : (bs ++ bs').length = bs.length + bs'.length := List.length_append
  obtain ⟨hout, hstores, hintLen⟩ := h.within h' pos
    (pos + (bs ++ bs').length) (by omega) (by omega)
  refine ⟨fun i b hi => ?_, hout, hstores, hintLen⟩
  rcases lt_or_ge i bs.length with hlt | hge
  · rw [List.getElem?_append_left hlt] at hi
    rw [h'.outside _ (Or.inl (by omega)), h.inside i b hi]
  · rw [List.getElem?_append_right hge] at hi
    rw [← h'.inside _ b hi, Nat.add_assoc, Nat.add_sub_cancel' hge]

/-- Two neighbouring pieces, the right one first. -/
theorem Fills.append_left (h : Fills d d' (pos + bs.length) bs') (h' : Fills d' d'' pos bs) :
    Fills d d'' pos (bs ++ bs') := by
  have hlen : (bs ++ bs').length = bs.length + bs'.length := List.length_append
  obtain ⟨hout, hstores, hintLen⟩ := h.within h' pos
    (pos + (bs ++ bs').length) (by omega) (by omega)
  refine ⟨fun i b hi => ?_, hout, hstores, hintLen⟩
  rcases lt_or_ge i bs.length with hlt | hge
  · rw [List.getElem?_append_left hlt] at hi
    exact h'.inside i b hi
  · rw [List.getElem?_append_right hge] at hi
    rw [h'.outside _ (Or.inr (by omega)), ← h.inside _ b hi, Nat.add_assoc,
      Nat.add_sub_cancel' hge]

/-- The buffer holds `bs` and a NUL. -/
structure Reads (d : DigitBuf) (bs : List (BitVec 8)) : Prop where
  chars : ∀ i b, bs[i]? = some b → d.printBuf i = b
  /-- There is a NUL behind the text. -/
  nul : d.printBuf bs.length = 0
  short : bs.length < printBufLen

theorem Reads.str (h : d.Reads bs) (hbs : (0 : BitVec 8) ∉ bs) : strChars d.str = bs := by
  obtain ⟨m, hm⟩ := Nat.exists_eq_add_of_lt h.short
  have hpre : (List.range bs.length).map d.printBuf = bs := by
    refine List.ext_getElem (by simp) fun i hi hi' => ?_
    rw [List.getElem_map, List.getElem_range]
    exact h.chars i _ (List.getElem?_eq_getElem hi')
  rw [DigitBuf.str, hm, Nat.add_assoc, List.range_add, List.map_append, hpre, Nat.add_comm m,
    List.range_add, List.range_one, List.map_append, List.map_singleton, List.map_append,
    List.map_singleton, Nat.add_zero, h.nul]
  exact strChars_append _ _ hbs

end DigitBuf

/-! ## The loops -/

theorem toNat_pos {v : BitVec 64} (hv : v ≠ 0) : 0 < v.toNat :=
  Nat.pos_of_ne_zero fun h => hv (BitVec.eq_of_toNat_eq h)

section Loops

variable {base : BitVec 32} (hb : 2 ≤ base.toNat) (hb' : base.toNat ≤ 36)
include hb hb'

theorem toNat_base : (base.signExtend 64).toNat = base.toNat := by
  rw [BitVec.toNat_signExtend, BitVec.msb_eq_false_iff_two_mul_lt.2 (by omega)]
  simp only [BitVec.toNat_setWidth, Bool.false_eq_true, if_false, Nat.add_zero]
  omega

theorem div_base (v : BitVec 64) : (v / base.signExtend 64).toNat = v.toNat / base.toNat := by
  rw [BitVec.toNat_udiv, toNat_base hb hb']

/-- Dividing by the base until zero takes as many steps as there are digits. -/
theorem run_divide (fuel : ℕ) {v : BitVec 64} {count : ℕ}
    (hfuel : (Nat.digits base.toNat v.toNat).length < fuel) :
    Loop.run (fun (_, value) => decide (value > 0))
      (fun (count, value) => (count + 1, value / base.signExtend 64)) fuel (count, v) =
      some (count + (Nat.digits base.toNat v.toNat).length, 0) := by
  induction fuel generalizing v count with
  | zero => omega
  | succ fuel ih =>
    rcases eq_or_ne v 0 with rfl | hv
    · rw [Loop.run_stop (by rfl)]
      simp
    · have hpos : 0 < v.toNat := toNat_pos hv
      rw [Nat.digits_def' hb hpos, List.length_cons, ← div_base hb hb'] at hfuel ⊢
      rw [Loop.run_step (by simpa [BitVec.lt_def] using hpos), ih (by omega), Nat.add_assoc,
        Nat.add_comm 1]

/-- `count_digits` counts the digits. -/
theorem countDigits_eq {v : BitVec 64} (hv : v ≠ 0) :
    countDigits v base = some (Nat.digits base.toNat v.toNat).length := by
  have hlen := Digits.length_digits_le (b := base.toNat) hb v.isLt
  rw [countDigits, if_neg hv, run_divide hb hb' _ (by unfold digitTests; omega)]
  simp

/-- The place value of the first digit. -/
theorem findPlaceValue_eq {v : BitVec 64} (hv : v ≠ 0) : findPlaceValue v base =
    some (BitVec.ofNat 64 (base.toNat ^ ((Nat.digits base.toNat v.toNat).length - 1))) := by
  have hlen := Digits.length_digits_le (b := base.toNat) hb v.isLt
  have hpow := Digits.pow_le_of_pos (b := base.toNat) hb (toNat_pos hv)
  have hlt := Nat.lt_base_pow_length_digits (m := v.toNat) (b := base.toNat) hb
  have hpos : 0 < (Nat.digits base.toNat v.toNat).length :=
    List.length_pos_iff.2 (Nat.digits_ne_nil_iff_ne_zero.2 (toNat_pos hv).ne')
  generalize (Nat.digits base.toNat v.toNat).length = len at *
  have htest : ∀ j, j < len → decide (BitVec.ofNat 64 (base.toNat ^ j) ≤ v / base.signExtend 64) =
      decide (j + 1 < len) := fun j hj => by
    have hjle : base.toNat ^ j ≤ base.toNat ^ (len - 1) :=
      Nat.pow_le_pow_right (by omega) (by omega)
    rw [decide_eq_decide, BitVec.le_def, div_base hb hb', BitVec.toNat_ofNat,
      Nat.mod_eq_of_lt (by omega), Nat.le_div_iff_mul_le (by omega), ← pow_succ]
    refine ⟨fun h => ?_, fun h => (Nat.pow_le_pow_right (by omega) (by omega)).trans hpow⟩
    exact (Nat.pow_lt_pow_iff_right hb).1 (h.trans_lt hlt)
  have hrun : ∀ k j fuel, j + k + 1 = len → k < fuel →
      Loop.run (fun placeValue => decide (placeValue ≤ v / base.signExtend 64))
        (fun placeValue => placeValue * base.signExtend 64) fuel
        (BitVec.ofNat 64 (base.toNat ^ j)) = some (BitVec.ofNat 64 (base.toNat ^ (len - 1))) := by
    intro k
    induction k with
    | zero =>
      intro j fuel hj hfuel
      obtain ⟨fuel, rfl⟩ := Nat.exists_eq_succ_of_ne_zero hfuel.ne'
      rw [Loop.run_stop (by rw [htest j (by omega)]; simp; omega), ← hj]
      rfl
    | succ k ih =>
      intro j fuel hj hfuel
      obtain ⟨fuel, rfl⟩ := Nat.exists_eq_succ_of_ne_zero (show fuel ≠ 0 by omega)
      rw [Loop.run_step (by rw [htest j (by omega)]; simp; omega), ← ih (j + 1) fuel (by omega)
        (by omega)]
      congr 1
      rw [pow_succ, BitVec.ofNat_mul]
      congr 1
      exact BitVec.eq_of_toNat_eq (by rw [toNat_base hb hb', BitVec.toNat_ofNat]; omega)
  exact hrun (len - 1) 0 digitTests (by omega) (by unfold digitTests; omega)

end Loops

namespace DigitBuf

section Loops

variable {base : BitVec 32} (hb : 2 ≤ base.toNat) (hb' : base.toNat ≤ 36)

theorem intDigit_eq {digit : ℕ} (h : digit < 36) :
    intDigit (BitVec.ofNat 32 digit) = digitChar digit := by
  revert digit
  decide

theorem uintDigit_eq {digit : ℕ} (h : digit < 36) :
    uintDigit (BitVec.ofNat 32 digit) = digitChar digit := by
  revert digit
  decide

include hb hb'

/-- The place values go down to `1`, and `0` ends the loop. -/
theorem run_emit (k : ℕ) : ∀ (fuel : ℕ) (d : DigitBuf) (pos : ℕ) (v place : BitVec 64),
    k < fuel → place.toNat = (if k = 0 then 0 else base.toNat ^ (k - 1)) →
    v.toNat < base.toNat ^ k → ∃ d' rest,
      Loop.run (fun (_, _, _, placeValue) => decide (placeValue > 0))
        (fun (d, pos, unsignedValue, placeValue) =>
          let digit := (unsignedValue / placeValue).setWidth 32
          (store d pos (intDigit digit), pos + 1, unsignedValue % placeValue,
            placeValue / base.signExtend 64)) fuel (d, pos, v, place) = some (d', rest) ∧
      Fills d d' pos ((Digits.fixed base.toNat k v.toNat).map digitChar) ∧
      d'.stores = d.stores ++ List.range' pos k := by
  induction k with
  | zero =>
    intro fuel d pos v place hfuel hplace _
    obtain ⟨fuel, rfl⟩ := Nat.exists_eq_succ_of_ne_zero hfuel.ne'
    obtain rfl : place = 0 := BitVec.eq_of_toNat_eq (by simpa using hplace)
    exact ⟨d, _, Loop.run_stop (by rfl), .nil _ _, (List.append_nil _).symm⟩
  | succ k ih =>
    intro fuel d pos v place hfuel hplace hv
    obtain ⟨fuel, rfl⟩ := Nat.exists_eq_succ_of_ne_zero (show fuel ≠ 0 by omega)
    rw [if_neg (by omega), Nat.add_sub_cancel] at hplace
    have hpos : 0 < base.toNat ^ k := Nat.pow_pos (by omega)
    have hdigit : v.toNat / base.toNat ^ k < base.toNat := by
      rw [Nat.div_lt_iff_lt_mul hpos, ← pow_succ']
      exact hv
    have hnext : (place / base.signExtend 64).toNat =
        if k = 0 then 0 else base.toNat ^ (k - 1) := by
      rw [div_base hb hb', hplace]
      rcases Nat.eq_zero_or_pos k with rfl | hk
      · simp [Nat.div_eq_of_lt (show 1 < base.toNat from hb)]
      · rw [if_neg hk.ne', ← Nat.pow_div (by omega) (by omega), pow_one]
    have hmod : (v % place).toNat = v.toNat % base.toNat ^ k := by
      rw [BitVec.toNat_umod, hplace]
    obtain ⟨d', rest, hrun, hfills, hstores⟩ := ih fuel
      (d.store pos (digitChar (v.toNat / base.toNat ^ k))) (pos + 1) (v % place) _
      (by omega) hnext (by rw [hmod]; exact Nat.mod_lt _ hpos)
    have hchar : intDigit ((v / place).setWidth 32) = digitChar (v.toNat / base.toNat ^ k) := by
      rw [← intDigit_eq (by omega), ← hplace, ← BitVec.toNat_udiv]
      rfl
    refine ⟨d', rest, ?_, ?_, ?_⟩
    · rw [Loop.run_step (by simp [BitVec.lt_def, hplace, hpos]), ← hrun, ← hchar]
    · rw [hmod] at hfills
      exact (fills_store d pos _).append hfills
    · rw [hstores, store, List.append_assoc]
      rfl

/-- The digits are found from the last one on, and zero ends the loop. -/
theorem run_fill (n : ℕ) : ∀ (fuel : ℕ) (d : DigitBuf) {v : BitVec 64},
    n < fuel → (Nat.digits base.toNat v.toNat).length = n → ∃ d' rest,
      Loop.run (fun ((_, pos, value) : DigitBuf × ℤ × BitVec 64) =>
          decide (value > 0) && decide (pos ≥ 0))
        (fun (d, pos, value) =>
          let digit := (value % base.signExtend 64).setWidth 32
          (store d pos.toNat (uintDigit digit), pos - 1, value / base.signExtend 64))
        fuel (d, (n : ℤ) - 1, v) = some (d', rest) ∧
      Fills d d' 0 ((Nat.digits base.toNat v.toNat).reverse.map digitChar) ∧
      d'.stores = d.stores ++ (List.range n).reverse := by
  induction n with
  | zero =>
    intro fuel d v hfuel hlen
    obtain ⟨fuel, rfl⟩ := Nat.exists_eq_succ_of_ne_zero hfuel.ne'
    rw [List.length_eq_zero_iff.1 hlen]
    exact ⟨d, _, Loop.run_stop (by simp), .nil _ _, (List.append_nil _).symm⟩
  | succ n ih =>
    intro fuel d v hfuel hlen
    obtain ⟨fuel, rfl⟩ := Nat.exists_eq_succ_of_ne_zero (show fuel ≠ 0 by omega)
    have hpos : 0 < v.toNat := by
      refine Nat.pos_of_ne_zero fun h => ?_
      rw [h, Nat.digits_zero] at hlen
      simp at hlen
    rw [Nat.digits_def' hb hpos, ← div_base hb hb'] at hlen ⊢
    rw [List.length_cons, Nat.add_right_cancel_iff] at hlen
    have hdigit : v.toNat % base.toNat < base.toNat := Nat.mod_lt _ (by omega)
    obtain ⟨d', rest, hrun, hfills, hstores⟩ := ih fuel
      (d.store n (digitChar (v.toNat % base.toNat))) (by omega) hlen
    have hchar : uintDigit ((v % base.signExtend 64).setWidth 32) =
        digitChar (v.toNat % base.toNat) := by
      rw [← uintDigit_eq (by omega), ← toNat_base hb hb', ← BitVec.toNat_umod]
      rfl
    refine ⟨d', rest, ?_, ?_, ?_⟩
    · rw [Nat.cast_succ, Int.add_sub_cancel, Loop.run_step (by simp [BitVec.lt_def, hpos]),
        ← hrun, ← hchar]
      rfl
    · rw [List.reverse_cons, List.map_append, List.map_singleton]
      refine (Fills.append_left ?_ hfills)
      rw [List.length_map, List.length_reverse, hlen, Nat.zero_add]
      exact fills_store d n _
    · rw [hstores, store, List.append_assoc, List.range_succ, List.reverse_append]
      rfl

/-- Behind a sign, the digits fill the room before the NUL. -/
theorem emitDigits_reads {d₀ d₁ : DigitBuf} {v : BitVec 64} (hv : v ≠ 0)
    (sign : List (BitVec 8)) {total : ℕ}
    (htotal : total = sign.length + (Nat.digits base.toNat v.toNat).length)
    (hlt : total < printBufLen) (hsign : Fills (d₀.store total 0) d₁ 0 sign)
    (hlog : d₁.stores = d₀.stores ++ total :: List.range sign.length) :
    ∃ d', d₁.emitDigits sign.length v
        (BitVec.ofNat 64
          (base.toNat ^ ((Nat.digits base.toNat v.toNat).length - 1))) base = some d' ∧
      d'.Reads (sign ++ numeralText base.toNat v.toNat) ∧ d'.intLen = d₀.intLen ∧
      d'.stores = d₀.stores ++ total :: List.range total := by
  have hpos : 0 < (Nat.digits base.toNat v.toNat).length :=
    List.length_pos_iff.2 (Nat.digits_ne_nil_iff_ne_zero.2 (toNat_pos hv).ne')
  have hle := Digits.pow_le_of_pos (b := base.toNat) hb (toNat_pos hv)
  have hlast := Nat.lt_base_pow_length_digits (m := v.toNat) (b := base.toNat) hb
  have hfixed := Digits.fixed_eq (b := base.toNat) hb v.toNat
  have hsize : ((Nat.digits base.toNat v.toNat).reverse.map digitChar).length =
      (Nat.digits base.toNat v.toNat).length := by simp
  rw [numeralText_of_ne_zero (toNat_pos hv).ne']
  generalize (Nat.digits base.toNat v.toNat).length = len at *
  obtain ⟨d', rest, hrun, hfills, hstores⟩ := run_emit hb hb' len digitTests d₁
    sign.length v (BitVec.ofNat 64 (base.toNat ^ (len - 1)))
    (by unfold digitTests; unfold printBufLen at hlt; omega)
    (by rw [if_neg hpos.ne', BitVec.toNat_ofNat, Nat.mod_eq_of_lt (by omega)]) hlast
  rw [hfixed] at hfills
  have hall := hsign.append ((Nat.zero_add sign.length).symm ▸ hfills)
  refine ⟨d', by rw [emitDigits, hrun]; rfl, ⟨fun i b hi => ?_, ?_, ?_⟩, hall.intLen, ?_⟩
  · rw [← hall.inside i b hi, Nat.zero_add]
  · rw [List.length_append, hsize, ← htotal, hall.outside total
      (Or.inr (by rw [Nat.zero_add, List.length_append, hsize, htotal]))]
    exact Function.update_self _ _ _
  · rw [List.length_append, hsize, ← htotal]
    exact hlt
  · rw [hstores, hlog, List.append_assoc, List.cons_append, List.range_eq_range',
      List.range_eq_range', htotal, ← List.range'_append_1, Nat.zero_add]

end Loops

/-- What `int_to_string` makes of a value. -/
def intText (value : BitVec 64) (base : BitVec 32) : List (BitVec 8) :=
  if value.slt 0 ∧ base = 10 then ch '-' :: numeralText 10 (-value).toNat
  else numeralText base.toNat value.toNat

/-- A text and its NUL fit into the buffer. -/
theorem intText_length_lt (value : BitVec 64) {base : BitVec 32} (hb : 2 ≤ base.toNat) :
    (intText value base).length < printBufLen := by
  unfold intText printBufLen
  split_ifs with h
  · rw [List.length_cons, length_numeralText]
    have hdec : (Nat.digits 10 (-value).toNat).length ≤ 20 := by
      rw [Nat.digits_length_le_iff (by omega)]
      omega
    omega
  · have hlen := Digits.length_digits_le (b := base.toNat) hb value.isLt
    rw [length_numeralText]
    omega

/-- A text has no NUL. -/
theorem zero_notMem_intText (value : BitVec 64) {base : BitVec 32} (hb : 2 ≤ base.toNat)
    (hb' : base.toNat ≤ 36) : (0 : BitVec 8) ∉ intText value base := by
  unfold intText
  split_ifs
  · rw [List.mem_cons, not_or]
    exact ⟨by decide, zero_notMem_numeralText (by omega) (by omega)⟩
  · exact zero_notMem_numeralText hb hb'

theorem reads_zero (d : DigitBuf) : ((d.store 0 (ch '0')).store 1 0).Reads [ch '0'] := by
  have h := (fills_store d 0 (ch '0')).append (fills_store (d.store 0 (ch '0')) 1 0)
  refine ⟨fun i b hi => ?_, rfl, by decide⟩
  rw [← Nat.zero_add i]
  refine h.inside i b ?_
  rw [List.getElem?_append_left (List.getElem?_eq_some_iff.1 hi).1]
  exact hi

/-- `int_to_string` leaves the text of its value in the buffer, and its length in `int_len` unless
it is zero. -/
theorem intToString_spec (d : DigitBuf) (value : BitVec 64) {base : BitVec 32}
    (hb : 2 ≤ base.toNat) (hb' : base.toNat ≤ 36) :
    ∃ d', d.intToString value base = some d' ∧ d'.Reads (intText value base) ∧
      d'.intLen = (if value = 0 then d.intLen else
        BitVec.ofNat 32 (intText value base).length) ∧
      d'.stores = d.stores ++ if value = 0 then [0, 1] else
        (intText value base).length :: List.range (intText value base).length := by
  by_cases hneg : value.slt 0 ∧ base = 10
  · have hne : value ≠ 0 := by
      rintro rfl
      simp at hneg
    have hv : -value ≠ 0 := fun h => hne (BitVec.neg_eq_zero_iff.1 h)
    obtain ⟨hslt, rfl⟩ := hneg
    have htext : intText value 10 = [ch '-'] ++ numeralText (BitVec.toNat (10 : BitVec 32))
        (-value).toNat := by
      rw [intText, if_pos ⟨hslt, rfl⟩]
      rfl
    have hsize : (Nat.digits (BitVec.toNat (10 : BitVec 32)) (-value).toNat).length + 1 =
        (intText value 10).length := by
      rw [htext, numeralText_of_ne_zero (toNat_pos hv).ne']
      simp
    have hlt := hsize.trans_lt (intText_length_lt value hb)
    obtain ⟨d', hemit, hreads, hint, hstores⟩ := emitDigits_reads hb hb' hv [ch '-']
      (Nat.add_comm _ _) hlt (fills_store (d.store _ 0) 0 _) (List.append_assoc _ _ _)
    rw [← htext] at hreads
    rw [List.length_singleton] at hemit hstores
    rw [hsize] at hstores
    refine ⟨{ d' with intLen := BitVec.ofNat 32 (intText value 10).length }, ?_,
      ⟨hreads.chars, hreads.nul, hreads.short⟩, by rw [if_neg hne], by rw [if_neg hne, ← hstores]⟩
    rw [intToString]
    simp only [hslt, true_and, if_true, if_neg hv, countDigits_eq hb hb' hv,
      findPlaceValue_eq hb hb' hv, Option.bind_eq_bind, Option.bind_some, if_neg hlt.not_ge,
      hemit]
    rw [hsize]
    rfl
  · have htext : intText value base = [] ++ numeralText base.toNat value.toNat := by
      rw [intText, if_neg hneg]
      rfl
    rcases eq_or_ne value 0 with rfl | hv
    · refine ⟨(d.store 0 (ch '0')).store 1 0, rfl, ?_, rfl, List.append_assoc _ _ _⟩
      rw [htext]
      exact d.reads_zero
    · have hsize : (Nat.digits base.toNat value.toNat).length + 0 =
          (intText value base).length := by
        rw [htext, numeralText_of_ne_zero (toNat_pos hv).ne']
        simp
      have hlt := hsize.trans_lt (intText_length_lt value hb)
      obtain ⟨d', hemit, hreads, hint, hstores⟩ := emitDigits_reads hb hb' hv []
        (Nat.add_comm _ _) hlt (.nil (d.store _ 0) 0) rfl
      rw [← htext] at hreads
      rw [List.length_nil] at hemit hstores
      rw [hsize] at hstores
      refine ⟨{ d' with intLen := BitVec.ofNat 32 (intText value base).length }, ?_,
        ⟨hreads.chars, hreads.nul, hreads.short⟩, by rw [if_neg hv], by rw [if_neg hv, ← hstores]⟩
      rw [intToString]
      simp only [hneg, if_false, if_neg hv, countDigits_eq hb hb' hv,
        findPlaceValue_eq hb hb' hv, Option.bind_eq_bind, Option.bind_some, if_neg hlt.not_ge,
        hemit]
      rw [hsize]
      rfl

/-- `uint_to_string` leaves the numeral of its value in the buffer, and its length in `int_len`. -/
theorem uintToString_spec (d : DigitBuf) (value : BitVec 64) {base : BitVec 32}
    (hb : 2 ≤ base.toNat) (hb' : base.toNat ≤ 36) :
    ∃ d', d.uintToString value base = some d' ∧ d'.Reads (numeralText base.toNat value.toNat) ∧
      d'.intLen = BitVec.ofNat 32 (numeralText base.toNat value.toNat).length ∧
      d'.stores = d.stores ++ if value = 0 then [0, 1] else
        (numeralText base.toNat value.toNat).length ::
          (List.range (numeralText base.toNat value.toNat).length).reverse := by
  rcases eq_or_ne value 0 with rfl | hv
  · have hzero := d.reads_zero
    exact ⟨_, rfl, ⟨hzero.chars, hzero.nul, hzero.short⟩, rfl, List.append_assoc _ _ _⟩
  · have hlen := Digits.length_digits_le (b := base.toNat) hb value.isLt
    have hlt : (Nat.digits base.toNat value.toNat).length < printBufLen := Nat.lt_succ_of_le hlen
    have hsize : (numeralText base.toNat value.toNat).length =
        (Nat.digits base.toNat value.toNat).length := by
      rw [numeralText_of_ne_zero (toNat_pos hv).ne', List.length_map, List.length_reverse]
    generalize hd₁ :
      ({ d with intLen := .ofNat 32 (Nat.digits base.toNat value.toNat).length } : DigitBuf) = d₁
    obtain ⟨d', rest, hrun, hfills, hstores⟩ := run_fill hb hb' _ digitTests
      (d₁.store (Nat.digits base.toNat value.toNat).length 0) hlt rfl
    rw [← numeralText_of_ne_zero (toNat_pos hv).ne'] at hfills
    refine ⟨d', ?_, ⟨fun i b hi => ?_, ?_, by rwa [hsize]⟩, ?_, ?_⟩
    · rw [uintToString]
      rw [if_neg hv, run_divide hb hb' digitTests hlt]
      dsimp only [Option.bind_eq_bind, Option.bind_some]
      rw [Nat.zero_add, if_neg hlt.not_ge, hd₁, fillDigits, hrun]
      rfl
    · rw [← hfills.inside i b hi, Nat.zero_add]
    · rw [hsize, hfills.outside _ (Or.inr (by rw [hsize, Nat.zero_add]))]
      exact Function.update_self _ _ _
    · rw [hfills.intLen, hsize, ← hd₁]
      rfl
    · rw [hstores, store, ← hd₁, List.append_assoc, if_neg hv, hsize]
      rfl

end DigitBuf

end KernelDev
