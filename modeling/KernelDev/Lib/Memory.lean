import Mathlib.Algebra.Group.Nat.Defs
import Mathlib.Logic.Function.Basic
import Mathlib.Data.Nat.Init
import Mathlib.Tactic.Cases
import Mathlib.Tactic.SplitIfs

/-!
# Byte-addressed memory

A memory is a function from 64-bit addresses to bytes. A range of `n` bytes from `a` is counted
round the end of the address space (`Within`), so no lemma asks that a range does not wrap. Words
are little-endian (`loadLE`, `storeLE`) : a store is read back modulo `256 ^ n` (`loadLE_storeLE`),
and changes no byte outside its range (`storeLE_of_not_within`). `fill` sets a range to one byte.
`read32`, `read64`, `write32` and `write64` are the words of the usual sizes.

The lemmas come in two kinds. The frame lemmas say what a store leaves alone : a load reads only
its own range (`loadLE_congr`), and a load apart from a store reads what was there
(`loadLE_storeLE_of_disjoint`). The others say what a store puts there, also where a word is
written in two halves (`read64_write32`).

The second half cuts memory into 4096-byte pages. A page is named by its aligned base address
(`Aligned`), the number of the page an address lies in is `pageOf`, and the 512 words of a page go
by a 9-bit index (`slot`, `word`). As an index cannot be too large, the ranges of two different
words of pages are disjoint without any condition (`not_within_slot`). Stores, fills and single
bytes are described by what they do to the words and bytes of every page (`word_write64_slot`,
`word_fill_zero`, `word_update`), so a structure that lives in the words of pages, such as a tree
of tables, never has to look at bytes.
-/

namespace ByteMem

/-- A 64-bit address. -/
abbrev Addr := BitVec 64

/-- A byte for every address. -/
abbrev Mem := Addr → BitVec 8

/-- `x` is one of the `n` bytes from `a`. -/
def Within (a : Addr) (n : ℕ) (x : Addr) : Prop :=
  (x - a).toNat < n

instance (a : Addr) (n : ℕ) (x : Addr) : Decidable (Within a n x) :=
  inferInstanceAs (Decidable (_ < _))

/-- The little-endian value of the `n` bytes from `a`. -/
def loadLE (m : Mem) : Addr → ℕ → ℕ
  | _, 0 => 0
  | a, n + 1 => (m a).toNat + 256 * loadLE m (a + 1) n

/-- Write the `n` low bytes of `v` from `a`, low byte first. -/
def storeLE (m : Mem) : Addr → ℕ → ℕ → Mem
  | _, 0, _ => m
  | a, n + 1, v => storeLE (Function.update m a (BitVec.ofNat 8 v)) (a + 1) n (v / 256)

/-- Set the `n` bytes from `a` to `b`. -/
def fill (m : Mem) (a : Addr) (b : BitVec 8) (n : ℕ) : Mem :=
  fun x => if Within a n x then b else m x

/-! ## Ranges -/

/-- An empty range has no byte. -/
@[simp] theorem not_within_zero (a x : Addr) : ¬Within a 0 x :=
  Nat.not_lt_zero _

/-- The range from `a` is `a` and the range from the next address. -/
theorem within_succ {a x : Addr} {n : ℕ} (hn : n < 2 ^ 64) :
    Within a (n + 1) x ↔ x = a ∨ Within (a + 1) n x := by
  unfold Within
  constructor
  · intro h
    by_cases hx : x = a
    · exact Or.inl hx
    · right
      bv_omega
  · rintro (rfl | h)
    · simp
    · bv_omega

/-- A range of at most `2 ^ 64` bytes does not come back to the address before it. -/
theorem not_within_self_succ {a : Addr} {n : ℕ} (hn : n < 2 ^ 64) : ¬Within (a + 1) n a := by
  unfold Within
  bv_omega

/-- A range that starts `o` bytes behind `a`. -/
theorem within_add {a x : Addr} {o n : ℕ} (h : o + n ≤ 2 ^ 64) :
    Within (a + BitVec.ofNat 64 o) n x ↔ o ≤ (x - a).toNat ∧ (x - a).toNat < o + n := by
  unfold Within
  rcases Nat.eq_zero_or_pos n with rfl | hn
  · omega
  · bv_omega

/-! ## Words -/

/-- A store changes no byte outside its range. -/
theorem storeLE_of_not_within {x : Addr} : ∀ {n : ℕ} {m : Mem} {a : Addr} {v : ℕ},
    n ≤ 2 ^ 64 → ¬Within a n x → storeLE m a n v x = m x
  | 0, _, _, _, _, _ => rfl
  | n + 1, m, a, v, hn, hx => by
    rw [within_succ (by omega), not_or] at hx
    rw [storeLE, storeLE_of_not_within (by omega) hx.2, Function.update_of_ne hx.1]

/-- A store sets the bytes of its range, whatever was there. -/
theorem storeLE_congr {x : Addr} : ∀ {n : ℕ} {m m' : Mem} {a : Addr} {v : ℕ},
    n ≤ 2 ^ 64 → Within a n x → storeLE m a n v x = storeLE m' a n v x
  | 0, _, _, _, _, _, hx => absurd hx (not_within_zero _ _)
  | n + 1, m, m', a, v, hn, hx => by
    rw [storeLE, storeLE]
    by_cases hrest : Within (a + 1) n x
    · exact storeLE_congr (by omega) hrest
    · obtain rfl := ((within_succ (by omega)).1 hx).resolve_right hrest
      rw [storeLE_of_not_within (by omega) hrest, storeLE_of_not_within (by omega) hrest,
        Function.update_self, Function.update_self]

/-- A load reads only its own range. -/
theorem loadLE_congr {m m' : Mem} : ∀ {n : ℕ} {a : Addr}, n ≤ 2 ^ 64 →
    (∀ x, Within a n x → m x = m' x) → loadLE m a n = loadLE m' a n
  | 0, _, _, _ => rfl
  | n + 1, a, hn, h => by
    have hw : ∀ x, x = a ∨ Within (a + 1) n x → m x = m' x := fun x hx =>
      h x ((within_succ (by omega)).2 hx)
    rw [loadLE, loadLE, hw a (Or.inl rfl), loadLE_congr (by omega) fun x hx => hw x (Or.inr hx)]

theorem add_one_add_ofNat (a : Addr) (n : ℕ) :
    a + 1 + BitVec.ofNat 64 n = a + BitVec.ofNat 64 (n + 1) := by
  rw [BitVec.add_assoc, Nat.add_comm n 1, BitVec.ofNat_add]
  rfl

/-- Two ranges with the same bytes hold the same word. -/
theorem loadLE_eq_of_bytes {m m' : Mem} : ∀ {n : ℕ} {a b : Addr},
    (∀ i < n, m (a + BitVec.ofNat 64 i) = m' (b + BitVec.ofNat 64 i)) →
    loadLE m a n = loadLE m' b n
  | 0, _, _, _ => rfl
  | n + 1, a, b, h => by
    have hhead := h 0 (Nat.succ_pos n)
    rw [BitVec.add_zero, BitVec.add_zero] at hhead
    rw [loadLE, loadLE, hhead, loadLE_eq_of_bytes fun i hi => ?_]
    rw [add_one_add_ofNat, add_one_add_ofNat]
    exact h (i + 1) (Nat.succ_lt_succ hi)

/-- A stored word is read back, cut to its length. -/
theorem loadLE_storeLE : ∀ {n : ℕ} (m : Mem) (a : Addr) (v : ℕ), n ≤ 2 ^ 64 →
    loadLE (storeLE m a n v) a n = v % 256 ^ n
  | 0, _, _, _, _ => by simp [loadLE, Nat.mod_one]
  | n + 1, m, a, v, hn => by
    have hhead : storeLE m a (n + 1) v a = BitVec.ofNat 8 v := by
      rw [storeLE, storeLE_of_not_within (by omega) (not_within_self_succ (by omega)),
        Function.update_self]
    have hpow : 256 ^ (n + 1) = 256 * 256 ^ n := Nat.pow_succ'
    rw [loadLE, hhead, storeLE, loadLE_storeLE _ _ _ (by omega), BitVec.toNat_ofNat, hpow]
    exact Nat.mod_mul.symm

/-- A load apart from a store reads what was there. -/
theorem loadLE_storeLE_of_disjoint {m : Mem} {a b : Addr} {n k v : ℕ} (hn : n ≤ 2 ^ 64)
    (hk : k ≤ 2 ^ 64) (h : ∀ x, Within b k x → ¬Within a n x) :
    loadLE (storeLE m a n v) b k = loadLE m b k :=
  loadLE_congr hk fun x hx => storeLE_of_not_within hn (h x hx)

/-- A word of `n` bytes is below `256 ^ n`. -/
theorem loadLE_lt (m : Mem) : ∀ (n : ℕ) (a : Addr), loadLE m a n < 256 ^ n
  | 0, _ => by simp [loadLE]
  | n + 1, a => by
    have := loadLE_lt m n (a + 1)
    have := (m a).isLt
    rw [loadLE, Nat.pow_succ']
    omega

/-- A word of zero bytes is zero. -/
theorem loadLE_eq_zero {m : Mem} : ∀ {n : ℕ} {a : Addr}, n ≤ 2 ^ 64 →
    (∀ x, Within a n x → m x = 0) → loadLE m a n = 0
  | 0, _, _, _ => rfl
  | n + 1, a, hn, h => by
    have hw : ∀ x, x = a ∨ Within (a + 1) n x → m x = 0 := fun x hx =>
      h x ((within_succ (by omega)).2 hx)
    rw [loadLE, hw a (Or.inl rfl), loadLE_eq_zero (by omega) fun x hx => hw x (Or.inr hx)]
    rfl

/-- A load is the load of its first `n` bytes and of the `k` bytes after them. -/
theorem loadLE_add (m : Mem) : ∀ (n : ℕ) (a : Addr) (k : ℕ),
    loadLE m a (n + k) = loadLE m a n + 256 ^ n * loadLE m (a + BitVec.ofNat 64 n) k
  | 0, a, k => by simp [loadLE]
  | n + 1, a, k => by
    rw [show n + 1 + k = n + k + 1 by omega, loadLE, loadLE, loadLE_add m n (a + 1) k,
      add_one_add_ofNat, Nat.mul_add, Nat.pow_succ', Nat.mul_assoc, Nat.add_assoc]

/-- The 32-bit word at `a`. -/
def read32 (m : Mem) (a : Addr) : BitVec 32 :=
  BitVec.ofNat 32 (loadLE m a 4)

/-- The 64-bit word at `a`. -/
def read64 (m : Mem) (a : Addr) : BitVec 64 :=
  BitVec.ofNat 64 (loadLE m a 8)

/-- Write the 64-bit word `v` at `a`. -/
def write64 (m : Mem) (a : Addr) (v : BitVec 64) : Mem :=
  storeLE m a 8 v.toNat

/-- A 64-bit word is read back. -/
@[simp] theorem read64_write64_self (m : Mem) (a : Addr) (v : BitVec 64) :
    read64 (write64 m a v) a = v := by
  have hlt : v.toNat < 256 ^ 8 := Nat.lt_of_lt_of_eq v.isLt (by decide)
  rw [read64, write64, loadLE_storeLE _ _ _ (by decide), Nat.mod_eq_of_lt hlt, BitVec.ofNat_toNat,
    BitVec.setWidth_eq]

/-- Write the 32-bit word `v` at `a`. -/
def write32 (m : Mem) (a : Addr) (v : BitVec 32) : Mem :=
  storeLE m a 4 v.toNat

/-- A 32-bit word is read back. -/
theorem read32_write32_self (m : Mem) (a : Addr) (v : BitVec 32) :
    read32 (write32 m a v) a = v := by
  have hlt : v.toNat < 256 ^ 4 := Nat.lt_of_lt_of_eq v.isLt (by decide)
  rw [read32, write32, loadLE_storeLE _ _ _ (by decide), Nat.mod_eq_of_lt hlt, BitVec.ofNat_toNat,
    BitVec.setWidth_eq]

theorem write32_of_not_within {m : Mem} {a x : Addr} {v : BitVec 32} (h : ¬Within a 4 x) :
    write32 m a v x = m x :=
  storeLE_of_not_within (by decide) h

/-- The low half of a zero word is written without changing its high half. -/
theorem read64_write32 {m : Mem} {a : Addr} (h : read64 m a = 0) (v : BitVec 32) :
    read64 (write32 m a v) a = v.setWidth 64 := by
  have hzero : loadLE m a 8 = 0 := by
    have hlt : loadLE m a 8 < 2 ^ 64 := loadLE_lt m 8 a
    have := congrArg BitVec.toNat h
    rwa [read64, BitVec.toNat_ofNat, Nat.mod_eq_of_lt hlt] at this
  have hhigh : loadLE m (a + 4) 4 = 0 := by
    have := loadLE_add m 4 a 4
    rw [hzero] at this
    exact (Nat.mul_eq_zero.1 (Nat.add_eq_zero_iff.1 this.symm).2).resolve_left (by decide)
  have hkeep : loadLE (write32 m a v) (a + 4) 4 = 0 := by
    rw [write32, loadLE_storeLE_of_disjoint (by decide) (by decide) fun x hx hx' => ?_, hhigh]
    unfold Within at *
    bv_omega
  have hlow : loadLE (write32 m a v) a 4 = v.toNat := by
    rw [write32, loadLE_storeLE _ _ _ (by decide)]
    exact Nat.mod_eq_of_lt v.isLt
  have hsplit : loadLE (write32 m a v) a 8 = v.toNat := by
    rw [show (8 : ℕ) = 4 + 4 from rfl, loadLE_add, hlow]
    exact (congrArg (fun n => v.toNat + 256 ^ 4 * n) hkeep).trans (by simp)
  apply BitVec.eq_of_toNat_eq
  rw [read64, hsplit, BitVec.toNat_ofNat, BitVec.toNat_setWidth]

/-- A 64-bit store changes no byte outside its range. -/
theorem write64_of_not_within {m : Mem} {a x : Addr} {v : BitVec 64} (h : ¬Within a 8 x) :
    write64 m a v x = m x :=
  storeLE_of_not_within (by decide) h

/-- Words at disjoint ranges are written in either order. -/
theorem write64_comm (m : Mem) {a b : Addr} (h : ∀ x, Within a 8 x → ¬Within b 8 x)
    (v w : BitVec 64) : write64 (write64 m a v) b w = write64 (write64 m b w) a v := by
  funext x
  by_cases ha : Within a 8 x
  · rw [write64_of_not_within (h x ha)]
    exact storeLE_congr (by decide) ha
  · rw [write64_of_not_within ha]
    by_cases hb : Within b 8 x
    · exact storeLE_congr (by decide) hb
    · rw [write64_of_not_within hb, write64_of_not_within hb, write64_of_not_within ha]

theorem read64_congr {m m' : Mem} {a : Addr} (h : ∀ x, Within a 8 x → m x = m' x) :
    read64 m a = read64 m' a := by
  rw [read64, read64, loadLE_congr (by decide) h]

theorem read64_eq_zero {m : Mem} {a : Addr} (h : ∀ x, Within a 8 x → m x = 0) :
    read64 m a = 0 := by
  rw [read64, loadLE_eq_zero (by decide) h]
  rfl

/-! ## Pages -/

/-- `f` is the base address of a 4096-byte page. -/
def Aligned (f : Addr) : Prop :=
  f.toNat % 4096 = 0

instance (f : Addr) : Decidable (Aligned f) :=
  inferInstanceAs (Decidable (_ = _))

/-- The number of the page `x` lies in. -/
def pageOf (x : Addr) : ℕ :=
  x.toNat / 4096

/-- A page is determined by its number. -/
theorem Aligned.eq_of_pageOf_eq {f g : Addr} (hf : Aligned f) (hg : Aligned g)
    (h : pageOf f = pageOf g) : f = g := by
  unfold Aligned pageOf at *
  bv_omega

theorem Aligned.pageOf_ne {f g : Addr} (hf : Aligned f) (hg : Aligned g) (h : f ≠ g) :
    pageOf f ≠ pageOf g := fun hp => h (hf.eq_of_pageOf_eq hg hp)

/-- The bytes of a page are the range of 4096 bytes from its base. -/
theorem Aligned.within_iff {f x : Addr} (hf : Aligned f) :
    Within f 4096 x ↔ pageOf x = pageOf f := by
  unfold Aligned Within pageOf at *
  constructor <;> intro h <;> bv_omega

/-- The address of word `i` of the page at `f`. -/
def slot (f : Addr) (i : BitVec 9) : Addr :=
  f + 8 * i.setWidth 64

/-- The address of a word of a page, which does not wrap around. -/
theorem Aligned.slot_toNat {f : Addr} (hf : Aligned f) (i : BitVec 9) :
    (slot f i).toNat = f.toNat + 8 * i.toNat := by
  unfold Aligned slot at *
  have := i.isLt
  bv_omega

@[simp] theorem slot_zero (f : Addr) : slot f 0 = f := by
  simp [slot]

theorem slot_ne_zero {f : Addr} (hf : Aligned f) (hne : f ≠ 0) (i : BitVec 9) : slot f i ≠ 0 := by
  intro h
  have hs := hf.slot_toNat i
  rw [h] at hs
  exact hne (BitVec.eq_of_toNat_eq (by simpa using (Nat.add_eq_zero_iff.1 hs.symm).1))

theorem slot_ne_zero_of_index {f : Addr} (hf : Aligned f) {i : BitVec 9} (hi : i ≠ 0) :
    slot f i ≠ 0 := by
  intro h
  have hs := hf.slot_toNat i
  rw [h] at hs
  refine hi (BitVec.eq_of_toNat_eq ?_)
  have hzero : f.toNat + 8 * i.toNat = 0 := hs.symm
  rw [show (0 : BitVec 9).toNat = 0 from rfl]
  omega

theorem Aligned.pageOf_of_within_slot {f x : Addr} {i : BitVec 9} (hf : Aligned f)
    (h : Within (slot f i) 8 x) : pageOf x = pageOf f := by
  have hs := hf.slot_toNat i
  have := i.isLt
  unfold Aligned Within pageOf at *
  bv_omega

/-- The ranges of two different words are disjoint. -/
theorem not_within_slot {f g x : Addr} {i j : BitVec 9} (hf : Aligned f) (hg : Aligned g)
    (hne : ¬(g = f ∧ j = i)) (hx : Within (slot g j) 8 x) : ¬Within (slot f i) 8 x := by
  intro hx'
  apply hne
  have hi := hf.slot_toNat i
  have hj := hg.slot_toNat j
  have := i.isLt
  have := j.isLt
  unfold Aligned Within at *
  constructor
  · apply BitVec.eq_of_toNat_eq
    bv_omega
  · apply BitVec.eq_of_toNat_eq
    bv_omega

/-- Word `i` of the page at `f`. -/
def word (m : Mem) (f : Addr) (i : BitVec 9) : BitVec 64 :=
  read64 m (slot f i)

/-- A word of a page is read at its address. -/
theorem read64_slot (m : Mem) (f : Addr) (i : BitVec 9) : read64 m (slot f i) = word m f i :=
  rfl

theorem read64_eq_word (m : Mem) (f : Addr) : read64 m f = word m f 0 := by
  rw [word, slot_zero]

/-- A page's words are read off its own bytes. -/
theorem word_congr {m m' : Mem} {f : Addr} (hf : Aligned f)
    (h : ∀ x, pageOf x = pageOf f → m x = m' x) (i : BitVec 9) : word m f i = word m' f i :=
  read64_congr fun x hx => h x (hf.pageOf_of_within_slot hx)

/-- Writing a word changes no byte of another page. -/
theorem write64_slot_of_pageOf_ne {m : Mem} {f x : Addr} {i : BitVec 9} {v : BitVec 64}
    (hf : Aligned f) (hx : pageOf x ≠ pageOf f) : write64 m (slot f i) v x = m x :=
  write64_of_not_within fun h => hx (hf.pageOf_of_within_slot h)

/-- Writing a word changes that word and no other. -/
theorem word_write64_slot {m : Mem} {f g : Addr} (hf : Aligned f) (hg : Aligned g)
    (i j : BitVec 9) (v : BitVec 64) :
    word (write64 m (slot f i) v) g j = if g = f ∧ j = i then v else word m g j := by
  split_ifs with h
  · rw [h.1, h.2, word, read64_write64_self]
  · exact read64_congr fun x hx => write64_of_not_within (not_within_slot hf hg h hx)

/-- Writing the low half of a zero word sets that word and no other. -/
theorem word_write32_slot {m : Mem} {f g : Addr} (hf : Aligned f) (hg : Aligned g)
    {i : BitVec 9} (j : BitVec 9) (h : word m f i = 0) (v : BitVec 32) :
    word (write32 m (slot f i) v) g j = if g = f ∧ j = i then v.setWidth 64 else word m g j := by
  split_ifs with hself
  · rw [hself.1, hself.2, word, read64_write32 h]
  · refine read64_congr fun x hx => write32_of_not_within fun hx' => ?_
    exact not_within_slot hf hg hself hx (Nat.lt_of_lt_of_le hx' (by decide))

theorem fill_page (m : Mem) {f : Addr} (hf : Aligned f) (b : BitVec 8) (x : Addr) :
    fill m f b 4096 x = if pageOf x = pageOf f then b else m x := by
  simp only [fill, hf.within_iff]

/-- Filling a page with zero bytes zeroes its words and no other. -/
theorem word_fill_zero {m : Mem} {f g : Addr} (hf : Aligned f) (hg : Aligned g) (j : BitVec 9) :
    word (fill m f 0 4096) g j = if g = f then 0 else word m g j := by
  split_ifs with h
  · subst h
    refine read64_eq_zero fun x hx => ?_
    rw [fill_page m hf, if_pos (hf.pageOf_of_within_slot hx)]
  · refine word_congr hg (fun x hx => ?_) j
    rw [fill_page m hf, if_neg fun hp => hg.pageOf_ne hf h (hx ▸ hp)]

/-- The first words of pages, after one of them is written. -/
theorem read64_write64_page {m : Mem} {f g : Addr} (hf : Aligned f) (hg : Aligned g)
    (v : BitVec 64) : read64 (write64 m f v) g = if g = f then v else read64 m g := by
  have h := word_write64_slot (m := m) hf hg 0 0 v
  simpa only [slot_zero, read64_eq_word, and_true] using h

/-- The first words of pages, after one of them is cleared. -/
theorem read64_fill_page {m : Mem} {f g : Addr} (hf : Aligned f) (hg : Aligned g) :
    read64 (fill m f 0 4096) g = if g = f then 0 else read64 m g := by
  rw [read64_eq_word, read64_eq_word, word_fill_zero hf hg]

/-- Writing one byte leaves the words of every other page alone. -/
theorem word_update {m : Mem} {g x : Addr} (hg : Aligned g) (hx : pageOf x ≠ pageOf g)
    (b : BitVec 8) (j : BitVec 9) : word (Function.update m x b) g j = word m g j := by
  refine word_congr hg (fun y hy => ?_) j
  rw [Function.update_of_ne]
  rintro rfl
  exact hx hy

end ByteMem
