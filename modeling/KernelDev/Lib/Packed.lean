import KernelDev.Lib.Memory
import Mathlib.Algebra.BigOperators.Group.List.Basic
import Mathlib.Algebra.GroupWithZero.Nat

/-!
# Packed structs

A packed struct has its fields one after the other, without padding between them. `Packed` lists
the fields of such a struct in their order, each with a size in bytes, and every field is in the
list. The offset of a field is what the fields before it take up (`offset`), `bytes` is the size of
the whole struct, and `set` and `get` assign to a field of the struct at an address and read it
again.

Reading a field after an assignment gives the value, cut to the size of the field, or what was
there in the case of another field (`get_set`) : two fields do not overlap (`apart`), and a struct
is small enough not to meet itself around the end of the address space. An array of structs has its
elements one after the other (`elem`), and an assignment to a field of one of them leaves the
others alone (`get_set_elem`).

The pieces of words at the beginning are for structs that keep a word in several fields, such as
the gates and descriptors of a processor : what is masked and shifted into the pieces and read back
from them is the word again (`append_setWidth`, `ofNat_mask`).
-/

open ByteMem

/-- A packed struct with the fields `F`, in the order of `fields`. -/
structure Packed (F : Type*) [DecidableEq F] where
  /-- The bytes of a field. -/
  size : F → ℕ
  /-- The fields in the order in which they lie in memory. -/
  fields : List F
  complete : ∀ f, f ∈ fields
  /-- The struct is no larger than the address space. -/
  fits : (fields.map size).sum ≤ 2 ^ 64

namespace Packed

/-! ## Pieces of words -/

/-- Two neighbouring pieces of a word. -/
theorem append_setWidth {w : ℕ} (x : BitVec w) (k m : ℕ) :
    (x >>> k).setWidth m ++ x.setWidth k = x.setWidth (m + k) := by
  ext i hi
  rw [BitVec.getElem_append]
  split_ifs with h
  · simp
  · simp [show k + (i - k) = i by omega]

/-- A piece of a word that was masked out before it was cut. -/
theorem setWidth_mask {w k : ℕ} (x : BitVec w) {mask : BitVec w}
    (h : mask.setWidth k = BitVec.allOnes k) : (x &&& mask).setWidth k = x.setWidth k := by
  rw [BitVec.setWidth_and, h, BitVec.and_allOnes]

/-- A word that is read back as `k` bytes. -/
theorem ofNat_toNat_mod {w : ℕ} (x : BitVec w) (k : ℕ) :
    BitVec.ofNat (8 * k) (x.toNat % 256 ^ k) = x.setWidth (8 * k) := by
  refine BitVec.eq_of_toNat_eq ?_
  rw [BitVec.toNat_ofNat, BitVec.toNat_setWidth, Nat.pow_mul]
  exact Nat.mod_mod _ _

/-- A masked piece that is read back as `k` bytes. -/
theorem ofNat_mask {w k : ℕ} (x : BitVec w) {mask : BitVec w}
    (h : mask.setWidth (8 * k) = BitVec.allOnes (8 * k)) :
    BitVec.ofNat (8 * k) ((x &&& mask).toNat % 256 ^ k) = x.setWidth (8 * k) :=
  (ofNat_toNat_mod _ k).trans (setWidth_mask x h)

/-! ## Fields -/

variable {F : Type*} [DecidableEq F] (S : Packed F)

/-- `sizeof` -/
def bytes : ℕ :=
  (S.fields.map S.size).sum

/-- The bytes before a field. -/
def offset (f : F) : ℕ :=
  ((S.fields.take (S.fields.idxOf f)).map S.size).sum

/-- Assign to a field of the struct at `a`. -/
def set (m : Mem) (a : Addr) (f : F) (v : ℕ) : Mem :=
  storeLE m (a + BitVec.ofNat 64 (S.offset f)) (S.size f) v

/-- Read a field of the struct at `a`. -/
def get (m : Mem) (a : Addr) (f : F) : ℕ :=
  loadLE m (a + BitVec.ofNat 64 (S.offset f)) (S.size f)

/-- The element `n` of an array of structs at `0`. -/
def elem (n : ℕ) : Addr :=
  BitVec.ofNat 64 (n * S.bytes)

variable {S} {m m' : Mem} {a x : Addr} {f g : F}

theorem bytes_le (S : Packed F) : S.bytes ≤ 2 ^ 64 :=
  S.fits

/-- A field ends where the next one begins. -/
theorem offset_add_size (f : F) :
    S.offset f + S.size f = ((S.fields.take (S.fields.idxOf f + 1)).map S.size).sum := by
  have hlt := List.idxOf_lt_length_of_mem (S.complete f)
  rw [List.take_succ_eq_append_getElem hlt, List.getElem_idxOf, List.map_append, List.sum_append,
    List.map_singleton, List.sum_singleton, offset]

theorem sum_take_le {i j : ℕ} (h : i ≤ j) :
    ((S.fields.take i).map S.size).sum ≤ ((S.fields.take j).map S.size).sum := by
  obtain ⟨k, rfl⟩ := Nat.exists_eq_add_of_le h
  rw [List.take_add, List.map_append, List.sum_append]
  exact Nat.le_add_right _ _

/-- A field ends inside the struct. -/
theorem end_le (f : F) : S.offset f + S.size f ≤ S.bytes := by
  have hle := sum_take_le (S := S) (List.idxOf_lt_length_of_mem (S.complete f))
  rwa [← offset_add_size, List.take_length] at hle

/-- Two fields do not overlap. -/
theorem apart (h : f ≠ g) :
    S.offset f + S.size f ≤ S.offset g ∨ S.offset g + S.size g ≤ S.offset f := by
  rw [offset_add_size, offset_add_size]
  rcases Nat.lt_trichotomy (S.fields.idxOf f) (S.fields.idxOf g) with hlt | heq | hlt
  · exact Or.inl (sum_take_le hlt)
  · exact absurd (List.idxOf_inj (S.complete f) |>.1 heq) h
  · exact Or.inr (sum_take_le hlt)

theorem within_field : Within (a + BitVec.ofNat 64 (S.offset f)) (S.size f) x ↔
    S.offset f ≤ (x - a).toNat ∧ (x - a).toNat < S.offset f + S.size f :=
  within_add (Nat.le_trans (S.end_le f) S.fits)

theorem size_le (f : F) : S.size f ≤ 2 ^ 64 :=
  Nat.le_trans (Nat.le_add_left _ _) (Nat.le_trans (S.end_le f) S.fits)

/-- Reading a field after an assignment. -/
theorem get_set (m : Mem) (a : Addr) (f g : F) (v : ℕ) :
    S.get (S.set m a f v) a g = if g = f then v % 256 ^ S.size f else S.get m a g := by
  split_ifs with h
  · rw [h]
    exact loadLE_storeLE m _ v (size_le f)
  · refine loadLE_storeLE_of_disjoint (size_le f) (size_le g) fun x hx hx' => ?_
    rw [within_field] at hx hx'
    have := S.apart h
    omega

/-- An assignment changes no byte outside its field. -/
theorem set_of_not_within (v : ℕ) (h : ¬ Within a S.bytes x) : S.set m a f v x = m x := by
  refine storeLE_of_not_within (size_le f) fun hx => h ?_
  exact Nat.lt_of_lt_of_le (within_field.1 hx).2 (S.end_le f)

/-- A field is read off its own bytes. -/
theorem get_congr (h : ∀ x, Within a S.bytes x → m x = m' x) (f : F) :
    S.get m a f = S.get m' a f := by
  refine loadLE_congr (size_le f) fun x hx => h x ?_
  exact Nat.lt_of_lt_of_le (within_field.1 hx).2 (S.end_le f)

/-- The fields of two elements of an array are apart. -/
theorem not_within_elem {n k : ℕ} (hn : (n + 1) * S.bytes ≤ 2 ^ 64)
    (hk : (k + 1) * S.bytes ≤ 2 ^ 64) (h : k ≠ n) (hx : Within (S.elem k) S.bytes x) :
    ¬ Within (S.elem n) S.bytes x := by
  intro hx'
  have hbase : ∀ j, S.elem j = 0 + BitVec.ofNat 64 (j * S.bytes) := fun j =>
    (BitVec.zero_add _).symm
  have hend : ∀ i j, i < j → i * S.bytes + S.bytes ≤ j * S.bytes := fun i j hij => by
    rw [← Nat.succ_mul]
    exact Nat.mul_le_mul_right S.bytes hij
  rw [hbase, within_add (by rwa [← Nat.succ_mul])] at hx hx'
  rcases Nat.lt_or_gt_of_ne h with hlt | hlt
  · have := hend k n hlt
    omega
  · have := hend n k hlt
    omega

/-- An assignment to an element of an array leaves the other elements. -/
theorem get_set_elem {n k : ℕ} (hn : (n + 1) * S.bytes ≤ 2 ^ 64)
    (hk : (k + 1) * S.bytes ≤ 2 ^ 64) (h : k ≠ n) (v : ℕ) :
    S.get (S.set m (S.elem n) f v) (S.elem k) g = S.get m (S.elem k) g :=
  get_congr (fun _ hx => set_of_not_within v (not_within_elem hn hk h hx)) g

end Packed
