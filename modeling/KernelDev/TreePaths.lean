import KernelDev.Heap
import KernelDev.Lib.Paths
import KernelDev.Lib.Rounding

/-!
# Page tables as a tree of frames

The page tables under a root are a store of nodes in the sense of `PathTree` : an entry that is
present and not huge links its table to the frame it names (`childOf`). The paths looked at are all
paths to tables, at most three indices, and the four-index paths of heap pages, which reach the
frames mapped there (`treePaths`). They are closed under taking a prefix, so the library applies.

A virtual address has one path for each level (`pdptPath`, `pdPath`, `tablePath`, `pathOf`), each
the one before with one index more, and an offset. The indices are those of `get_page_indices`, as
`entryAt_eq_slot` says. Two addresses have one path exactly if they are in one page, of the 48 bits
that a walk reads (`pathOf_eq_iff_virtPage`); in the heap these are all bits that differ.

`leafEntry` is the last-level entry of a virtual page, zero where a table is missing. The walkers
of the kernel and of the processor read the same entries as the paths do, in a part of the tree
without huge entries (`HeapLinks`).
-/

namespace KernelDev

open ByteMem PathTree

/-- A 9-bit table index. -/
abbrev Index := BitVec 9

/-- Virtual addresses of the kernel heap. -/
def InHeap (v : BitVec 64) : Prop :=
  kernelHeapAdr ≤ v ∧ v < kernelGrowthAdrStart

instance (v : BitVec 64) : Decidable (InHeap v) :=
  inferInstanceAs (Decidable (_ ∧ _))

theorem inHeap_kernelHeapAdr : InHeap kernelHeapAdr := by decide

/-- The heap, by numbers. -/
theorem inHeap_iff {v : BitVec 64} : InHeap v ↔ 2 ^ 40 ≤ v.toNat ∧ v.toNat < 2 ^ 41 :=
  Iff.rfl

/-! ## Indices and paths of a virtual address -/

/-- The last-level index of a virtual address. -/
def ptIndex (v : BitVec 64) : Index :=
  (v >>> 12).setWidth 9

/-- The path to the second table of a virtual address. -/
def pdptPath (v : BitVec 64) : List Index :=
  [(v >>> 39).setWidth 9]

/-- The path to the third table of a virtual address. -/
def pdPath (v : BitVec 64) : List Index :=
  (v >>> 30).setWidth 9 :: pdptPath v

/-- The path to the last-level table of a virtual address. -/
def tablePath (v : BitVec 64) : List Index :=
  (v >>> 21).setWidth 9 :: pdPath v

/-- The path to the frame of a virtual address. -/
def pathOf (v : BitVec 64) : List Index :=
  ptIndex v :: tablePath v

@[simp] theorem length_pdptPath (v : BitVec 64) : (pdptPath v).length = 1 :=
  rfl

@[simp] theorem length_pdPath (v : BitVec 64) : (pdPath v).length = 2 :=
  rfl

@[simp] theorem length_tablePath (v : BitVec 64) : (tablePath v).length = 3 :=
  rfl

@[simp] theorem length_pathOf (v : BitVec 64) : (pathOf v).length = 4 :=
  rfl

/-- The page offset of a virtual address. -/
def pageOffset (v : BitVec 64) : BitVec 64 :=
  v &&& (pageSize - 1)

theorem and_511 (v : BitVec 64) : v &&& (512 - 1) = (v.setWidth 9).setWidth 64 := by
  apply BitVec.eq_of_toNat_eq
  rw [BitVec.toNat_and, BitVec.toNat_setWidth, BitVec.toNat_setWidth]
  rw [show (512 - 1 : BitVec 64).toNat = 2 ^ 9 - 1 from rfl, Nat.and_two_pow_sub_one_eq_mod]
  omega

theorem pageOffset_toNat (v : BitVec 64) : (pageOffset v).toNat = v.toNat % 4096 := by
  rw [pageOffset, BitVec.toNat_and, show (pageSize - 1).toNat = 2 ^ 12 - 1 from rfl,
    Nat.and_two_pow_sub_one_eq_mod]

/-- `get_page_indices` reads the indices of the path. -/
theorem entryAt_eq_slot (t : Addr) (v : BitVec 64) :
    entryAt t (v &&& (512 - 1)) = slot t (v.setWidth 9) := by
  rw [entryAt, slot, and_511]

/-- The page of an address, by the 48 bits that a walk reads. -/
def virtPage (v : BitVec 64) : ℕ :=
  v.toNat % 2 ^ 48 / 4096

/-- Two addresses have one path exactly if they are in one page. -/
theorem pathOf_eq_iff_virtPage {u v : BitVec 64} :
    pathOf u = pathOf v ↔ virtPage u = virtPage v := by
  simp only [pathOf, tablePath, pdPath, pdptPath, ptIndex, List.cons.injEq, and_true,
    ← BitVec.toNat_inj,
    BitVec.toNat_setWidth, BitVec.toNat_ushiftRight, Nat.shiftRight_eq_div_pow, virtPage]
  omega

theorem virtPage_of_lt {v : BitVec 64} (hv : v.toNat < 2 ^ 48) : virtPage v = pageOf v := by
  rw [virtPage, Nat.mod_eq_of_lt hv, pageOf]

/-- Below `2 ^ 48` addresses of one path are in one page. -/
theorem pathOf_eq_iff {u v : BitVec 64} (hu : u.toNat < 2 ^ 48) (hv : v.toNat < 2 ^ 48) :
    pathOf u = pathOf v ↔ pageOf u = pageOf v := by
  rw [pathOf_eq_iff_virtPage, virtPage_of_lt hu, virtPage_of_lt hv]

/-! ## The tree -/

/-- The frame a present entry that is not huge links to. -/
def childOf (m : Mem) (t : Addr) (i : Index) : Option Addr :=
  if word m t i &&& ptePresent ≠ 0 ∧ word m t i &&& pteHuge = 0 then some (word m t i &&& pageMask)
  else none

/-- The paths to tables, and those of heap pages to their frames. -/
def treePaths : Set (List Index) :=
  {p | p.length ≤ 3 ∨ ∃ v, InHeap v ∧ p = pathOf v}

/-- The node a path reaches from the root `r`. -/
abbrev node (m : Mem) (r : Addr) (p : List Index) : Option Addr :=
  walk (childOf m) r p

/-- The last-level entry of `v`, zero where a table is missing. -/
def leafEntry (m : Mem) (r : Addr) (v : BitVec 64) : BitVec 64 :=
  match node m r (tablePath v) with
  | some pt => word m pt (ptIndex v)
  | none => 0

/-- The last-level entry is in the table that the path reaches. -/
theorem leafEntry_of_node {m : Mem} {r pt : Addr} {v : BitVec 64}
    (h : node m r (tablePath v) = some pt) : leafEntry m r v = word m pt (ptIndex v) := by
  rw [leafEntry, h]

/-- Without a table it is zero. -/
theorem leafEntry_of_none {m : Mem} {r : Addr} {v : BitVec 64}
    (h : node m r (tablePath v) = none) : leafEntry m r v = 0 := by
  rw [leafEntry, h]

theorem pdptPath_ne_pdPath (u v : BitVec 64) : pdptPath u ≠ pdPath v :=
  ne_of_apply_ne List.length (by simp)

theorem pdptPath_ne_tablePath (u v : BitVec 64) : pdptPath u ≠ tablePath v :=
  ne_of_apply_ne List.length (by simp)

theorem pdPath_ne_tablePath (u v : BitVec 64) : pdPath u ≠ tablePath v :=
  ne_of_apply_ne List.length (by simp)

theorem tablePath_ne_pathOf (u v : BitVec 64) : tablePath u ≠ pathOf v :=
  ne_of_apply_ne List.length (by simp)

/-- The paths above a path of the tree are in the tree. -/
theorem parentClosed_treePaths : ParentClosed treePaths := by
  rintro i p (h | ⟨v, -, h⟩)
  · exact Or.inl (by simp at h; omega)
  · obtain ⟨-, rfl⟩ := List.cons.inj h
    exact Or.inl le_rfl

theorem tablePath_mem (v : BitVec 64) : tablePath v ∈ treePaths :=
  Or.inl le_rfl

theorem pathOf_mem {v : BitVec 64} (hv : InHeap v) : pathOf v ∈ treePaths :=
  Or.inr ⟨v, hv, rfl⟩

/-- Only tables have children in the tree. -/
theorem length_le_of_cons_mem {i : Index} {p : List Index} (h : i :: p ∈ treePaths) :
    p.length ≤ 3 := by
  rcases h with h | ⟨v, -, h⟩
  · simp at h
    omega
  · obtain ⟨-, rfl⟩ := List.cons.inj h
    exact le_rfl

theorem pageMask_eq : pageMask = Rounding.mask 64 12 := by
  decide

/-- Masking an address leaves a page. -/
theorem and_pageMask_toNat (e : BitVec 64) : (e &&& pageMask).toNat = e.toNat / 4096 * 4096 := by
  rw [pageMask_eq]
  exact Rounding.toNat_down e

theorem aligned_and_pageMask (e : BitVec 64) : Aligned (e &&& pageMask) := by
  rw [Aligned, and_pageMask_toNat, Nat.mul_mod_left]

/-- The tables and frames of a tree are pages. -/
theorem aligned_of_node {m : Mem} {r t : Addr} (hr : Aligned r) :
    ∀ {p : List Index}, node m r p = some t → Aligned t
  | [], h => by
    obtain rfl : r = t := by simpa using h
    exact hr
  | i :: p, h => by
    obtain ⟨u, -, hu⟩ := walk_cons_eq_some.1 h
    unfold childOf at hu
    split_ifs at hu
    obtain rfl := Option.some.inj hu
    exact aligned_and_pageMask _

end KernelDev
