import KernelDev.MapPage

/-!
# The range that `MMU_free_pages` frees

`MMU_free_pages` calls `MMU_free_page` for the addresses `(uint64_t)vaddr + i * PAGE_SIZE`. The
cast is on `vaddr` only : the offset is a product of two `int`s, which is widened when it has been
computed. From page 524288 on, 2 GiB into the range, the product overflows, and C does not say what
it is. The heap of `mmu.h` is 1 TiB, and the argument counts up to `2 ^ 31 - 1` pages.

So the function frees its range exactly if it has at most 524288 pages (`freesRange_iff`) : then no
product overflows and the pages are those of the range, in order (`mmuFreePages_eq_foldl`). Nothing
is said of what a longer call does. In the model the address of a page whose product overflows is
whatever the state has for it (`Mmu.overflowPage`), and the results hold for all that it may be.

For the entries of the page tables more is needed. The tables on the walks of heap addresses have
to be apart from each other and from the frames that are given back (`HeapApart`), as freeing a
page writes the link of the free list into its frame. Under this condition one call clears one
entry (`HeapApart.mmuFreePage`) and leaves the tables apart (`HeapApart.clears`), so that a call
for a range clears exactly the entries of its pages (`HeapApart.clearsRange`). `map_page` leaves
the tables apart too (`HeapApart.mapPage`), and so there are pages to free.
-/

namespace KernelDev

open ByteMem

namespace Mmu

/-- The addresses that `MMU_free_pages` passes to `MMU_free_page`, in order. -/
def freedPages (s : Mmu) (vaddr : Addr) (num : BitVec 32) : List Addr :=
  (List.range num.toInt.toNat).map fun i => s.pageAt vaddr (BitVec.ofNat 32 i)

theorem freePagesFrom_eq_foldl (pages : BitVec 32 → Addr) : ∀ (n i : ℕ) (s : Mmu),
    s.freePagesFrom pages (BitVec.ofNat 32 i) n =
      ((List.range' i n).map fun j => pages (BitVec.ofNat 32 j)).foldl mmuFreePage s
  | 0, _, _ => rfl
  | n + 1, i, s => by
    have hnext : BitVec.ofNat 32 i + 1 = BitVec.ofNat 32 (i + 1) := (BitVec.ofNat_add i 1).symm
    rw [freePagesFrom, hnext, freePagesFrom_eq_foldl pages n (i + 1), List.range'_succ,
      List.map_cons, List.foldl_cons]

/-- `MMU_free_pages` is one call of `MMU_free_page` for each of the addresses. -/
theorem mmuFreePages_eq_foldl (s : Mmu) (vaddr : Addr) (num : BitVec 32) :
    s.mmuFreePages vaddr num = (s.freedPages vaddr num).foldl mmuFreePage s := by
  rw [mmuFreePages, show (0 : BitVec 32) = BitVec.ofNat 32 0 from rfl, freePagesFrom_eq_foldl,
    freedPages, List.range_eq_range']

/-- The addresses of `num` pages from `vaddr` on. -/
def rangePages (vaddr : Addr) (num : BitVec 32) : List Addr :=
  (List.range num.toInt.toNat).map fun i => vaddr + BitVec.ofNat 64 (4096 * i)

/-- `MMU_free_pages` frees the pages of the range, and no product overflows. -/
def FreesRange (s : Mmu) (vaddr : Addr) (num : BitVec 32) : Prop :=
  s.freedPages vaddr num = rangePages vaddr num ∧
    ∀ i < num.toInt.toNat, (BitVec.ofNat 32 i).smulOverflow 4096 = false

/-- `MMU_free_pages` clears the last-level entries of the range and of no other heap page. -/
def ClearsRange (s : Mmu) (vaddr : Addr) (num : BitVec 32) : Prop :=
  ∀ u, InHeap u → pathEntry (s.mmuFreePages vaddr num).mem s.pml4t (pathOf u) =
    if ∃ a ∈ rangePages vaddr num, pageOf u = pageOf a then 0
    else pathEntry s.mem s.pml4t (pathOf u)

end Mmu

/-! ## The range -/

/-- `MMU_free_pages` frees its range exactly if it has at most 524288 pages. -/
theorem freesRange_iff {s : Mmu} {vaddr : Addr} {num : BitVec 32} :
    s.FreesRange vaddr num ↔ num.toInt ≤ 524288 := by
  have hnum : num.toInt < 2 ^ 31 := num.toInt_lt
  constructor
  · rintro ⟨-, hover⟩
    by_contra hc
    exact absurd ((smulOverflow_page (by decide)).1 (hover 524288 (by omega))) (by decide)
  · intro hle
    refine ⟨List.map_congr_left fun i hi => ?_,
      fun i hi => (smulOverflow_page (by omega)).2 (by omega)⟩
    rw [List.mem_range] at hi
    rw [← pageAt_ofNat s (by omega)]
    simp

/-! ## The entries -/

/-- The tables on the walks of heap addresses are distinct frames without huge entries, and no
frame of a heap page is a table. An entry at the null address is not in use. -/
structure HeapApart (s : Mmu) : Prop where
  distinct : DistinctTables s.mem s.pml4t
  noHuge : ∀ v, InHeap v → NoHuge s.mem s.pml4t v
  null : ∀ v, InHeap v → entrySlot s.mem s.pml4t v = 0 →
    pathEntry s.mem s.pml4t (pathOf v) = 0
  frames : ∀ v, InHeap v → pathEntry s.mem s.pml4t (pathOf v) &&& ptePresent ≠ 0 →
    NotTable s.mem s.pml4t (pathEntry s.mem s.pml4t (pathOf v) &&& pageMask)

/-- `s'` is `s` with the entries of some paths to pages cleared. -/
structure Clears (paths : List (List Index)) (s s' : Mmu) : Prop where
  pml4t : s'.pml4t = s.pml4t
  tables : ∀ q, q.length ≤ 3 → tableAt s'.mem s.pml4t q = tableAt s.mem s.pml4t q
  entries : ∀ q, q.length ≤ 4 →
    pathEntry s'.mem s.pml4t q = if q ∈ paths then 0 else pathEntry s.mem s.pml4t q

section

variable {s : Mmu} {v : BitVec 64}

/-- Clearing the entry of a page, after stores that leave the tables alone. -/
theorem clears_store {s₁ : Mmu} {pt : Addr} (hd : DistinctTables s.mem s.pml4t)
    (hpt : tableAt s.mem s.pml4t (tablePath v) = some pt) (hroot : s₁.pml4t = s.pml4t)
    (hwords : ∀ q u j, q.length ≤ 3 → tableAt s.mem s.pml4t q = some u →
      word s₁.mem u j = word s.mem u j) :
    Clears [pathOf v] s ((s₁.store64 (slot pt (ptIndex v)) 0).invlpg v) := by
  have hal := aligned_tableAt (aligned_pml4t s) hpt
  have hw : SameWords s.mem (write64 s₁.mem (slot pt (ptIndex v)) 0) s.pml4t pt (ptIndex v) := by
    intro q u j hq hu hne
    rw [word_write64_slot hal (aligned_tableAt (aligned_pml4t s) hu), if_neg hne,
      hwords q u j hq hu]
  have hnew : word (write64 s₁.mem (slot pt (ptIndex v)) 0) pt (ptIndex v) = 0 := by
    rw [word_write64_slot hal hal, if_pos ⟨rfl, rfl⟩]
  refine ⟨hroot, fun q hq => hw.tableAt_leaf hd (length_tablePath v) hpt hq, fun q hq => ?_⟩
  simp only [List.mem_singleton]
  rw [Mmu.invlpg_mem, Mmu.store64_mem, hw.pathEntry_leaf hd (length_tablePath v) hpt hq, hnew,
    pathOf]

/-- `MMU_free_page` clears the entry of its page. -/
theorem HeapApart.mmuFreePage (h : HeapApart s) (hv : InHeap v) :
    Clears [pathOf v] s (s.mmuFreePage v) := by
  rw [Mmu.mmuFreePage, getPte_find (h.noHuge v hv)]
  simp only
  by_cases hnull : entrySlot s.mem s.pml4t v = 0
  · rw [if_pos hnull]
    refine ⟨rfl, fun _ _ => rfl, fun q _ => ?_⟩
    split_ifs with hq
    · rw [List.mem_singleton.1 hq]
      exact h.null v hv hnull
    · rfl
  cases hpt : tableAt s.mem s.pml4t (tablePath v) with
  | none => exact absurd (entrySlot_of_none hpt) hnull
  | some pt =>
  have hframe := h.frames v hv
  rw [pathOf, pathEntry_cons hpt] at hframe
  rw [if_neg hnull, entrySlot_of_some hpt, read64_slot]
  split_ifs with hpres
  · refine clears_store h.distinct hpt (mmuPfFree_pml4t s _) fun q u j hq hu => ?_
    refine mmuPfFree_word s (aligned_and_pageMask _) (aligned_tableAt (aligned_pml4t s) hu) ?_ j
    rintro rfl
    exact hframe hpres q hq hu
  · exact clears_store h.distinct hpt rfl fun _ _ _ _ _ => rfl

/-- The tables stay apart when entries of pages are cleared. -/
theorem HeapApart.clears {paths : List (List Index)} {s' : Mmu} (h : HeapApart s)
    (hc : Clears paths s s') (hpaths : ∀ q ∈ paths, q.length = 4) : HeapApart s' := by
  have htab : ∀ q, q.length ≤ 3 → tableAt s'.mem s'.pml4t q = tableAt s.mem s.pml4t q := by
    intro q hq
    rw [hc.pml4t, hc.tables q hq]
  have hentry : ∀ q, q.length ≤ 4 → pathEntry s'.mem s'.pml4t q =
      if q ∈ paths then 0 else pathEntry s.mem s.pml4t q := by
    intro q hq
    rw [hc.pml4t, hc.entries q hq]
  have hshort : ∀ q, q.length ≤ 3 → pathEntry s'.mem s'.pml4t q = pathEntry s.mem s.pml4t q := by
    intro q hq
    rw [hentry q (Nat.le_succ_of_le hq), if_neg fun hmem => by have := hpaths q hmem; omega]
  refine ⟨h.distinct.congr htab, fun v hv q hq hpres => ?_, fun v hv hnull => ?_,
    fun v hv hpres p hp hpt => ?_⟩
  · have hlen : q.length ≤ 3 := by rcases hq with rfl | rfl <;> simp
    rw [hshort q hlen] at hpres ⊢
    exact h.noHuge v hv q hq hpres
  · rw [entrySlot, htab _ (by simp)] at hnull
    rw [hentry _ (by simp), h.null v hv hnull, ite_self]
  · rw [htab p hp] at hpt
    rw [hentry _ (by simp)] at hpres hpt
    split_ifs at hpres hpt
    · exact hpres Mmu.zero_and_present
    · exact h.frames v hv hpres p hp hpt

/-- Freeing heap pages one after the other clears their entries. -/
theorem HeapApart.foldl_mmuFreePage : ∀ {pages : List Addr} {s : Mmu}, HeapApart s →
    (∀ a ∈ pages, InHeap a) → Clears (pages.map pathOf) s (pages.foldl Mmu.mmuFreePage s)
  | [], _, _, _ => ⟨rfl, fun _ _ => rfl, fun _ _ => by simp⟩
  | a :: pages, s, h, hpages => by
    have hc := h.mmuFreePage (hpages a (by simp))
    have hrest : ∀ b ∈ pages, InHeap b := fun b hb => hpages b (List.mem_cons_of_mem a hb)
    obtain ⟨hroot, htab, hentry⟩ := (h.clears hc (by simp)).foldl_mmuFreePage hrest
    rw [hc.pml4t] at hroot htab hentry
    refine ⟨hroot, fun q hq => (htab q hq).trans (hc.tables q hq), fun q hq => ?_⟩
    rw [List.foldl_cons, hentry q hq, hc.entries q hq, List.map_cons]
    simp only [List.mem_cons, List.not_mem_nil, or_false]
    split_ifs <;> tauto

/-- With at most 524288 pages `MMU_free_pages` clears exactly the entries of its range. -/
theorem HeapApart.clearsRange (h : HeapApart s) {num : BitVec 32}
    (hv : HeapPages v num.toInt.toNat) (hnum : num.toInt ≤ 524288) : s.ClearsRange v num := by
  have hin : ∀ a ∈ Mmu.rangePages v num, InHeap a := by
    intro a ha
    obtain ⟨i, hi, rfl⟩ := List.mem_map.1 ha
    exact hv.inHeap (List.mem_range.1 hi)
  have hc := h.foldl_mmuFreePage hin
  intro u hu
  have hmem : pathOf u ∈ (Mmu.rangePages v num).map pathOf ↔
      ∃ a ∈ Mmu.rangePages v num, pageOf u = pageOf a := by
    rw [List.mem_map]
    refine exists_congr fun a => and_congr_right fun ha => ?_
    rw [eq_comm, hu.pathOf_eq_iff (hin a ha)]
  rw [s.mmuFreePages_eq_foldl, (freesRange_iff.2 hnum).1, hc.entries _ (by simp)]
  exact if_congr hmem rfl rfl

/-- On every state `MMU_free_pages` frees the pages of its range, without an overflow, exactly if
they are at most 524288 : then it is one call of `MMU_free_page` for each of them, in order. Where
the tables of the heap are apart, the entries of those pages are then cleared, and those of no
other heap page. Of a longer call nothing is said, as its products are undefined. -/
theorem mmuFreePages_range_iff (s : Mmu) {num : BitVec 32} (hv : HeapPages v num.toInt.toNat) :
    (s.FreesRange v num ↔ num.toInt ≤ 524288) ∧
      (num.toInt ≤ 524288 →
        s.mmuFreePages v num = (Mmu.rangePages v num).foldl Mmu.mmuFreePage s) ∧
      (HeapApart s → (s.FreesRange v num ∧ s.ClearsRange v num ↔ num.toInt ≤ 524288)) := by
  refine ⟨freesRange_iff, fun hnum => ?_,
    fun h => ⟨fun hc => freesRange_iff.1 hc.1, fun hnum => ?_⟩⟩
  · rw [s.mmuFreePages_eq_foldl, (freesRange_iff.2 hnum).1]
  · exact ⟨freesRange_iff.2 hnum, h.clearsRange hv hnum⟩

end

/-! ## States whose tables are apart -/

section

variable {s s₁ : Mmu} {free free' : List Addr} {v p e flags : BitVec 64} {pt : Addr}

/-- Where no table is at `0`, only a missing table makes the address of an entry null. -/
theorem pathEntry_of_entrySlot (hnull : NotTable s.mem s.pml4t 0)
    (hslot : entrySlot s.mem s.pml4t v = 0) : pathEntry s.mem s.pml4t (pathOf v) = 0 := by
  cases hpt : tableAt s.mem s.pml4t (tablePath v) with
  | none => exact pathEntry_cons_of_none hpt _
  | some pt =>
    rw [entrySlot_of_some hpt] at hslot
    exact absurd hslot (hnull.slot_ne_zero (aligned_pml4t s) hpt _)

/-- The tables of the heap stay apart when free frames are linked as tables. -/
theorem HeapApart.grows (h : HeapApart s) (hg : Grows s free s₁ free') (hinv : TableInv s free)
    (hnull : NotTable s.mem s.pml4t 0) (hzero : 0 ∉ free)
    (hframes : ∀ u, InHeap u → pathEntry s.mem s.pml4t (pathOf u) &&& ptePresent ≠ 0 →
      pathEntry s.mem s.pml4t (pathOf u) &&& pageMask ∉ free) : HeapApart s₁ where
  distinct := hg.inv.distinct
  noHuge u hu := by
    rw [hg.pml4t]
    exact hg.noHuge hinv (h.noHuge u hu)
  null u _ hslot := pathEntry_of_entrySlot (hg.notTable hinv hzero hnull) hslot
  frames u hu hpres := by
    have hleaf : pathEntry s₁.mem s₁.pml4t (pathOf u) = pathEntry s.mem s.pml4t (pathOf u) := by
      rw [hg.pml4t, hg.leaf]
    rw [hleaf] at hpres ⊢
    exact hg.notTable hinv (hframes u hu hpres) (h.frames u hu hpres)

/-- They stay apart when a page gets a frame that is no table. -/
theorem HeapApart.store (h : HeapApart s) (hinv : TableInv s free)
    (hnull : NotTable s.mem s.pml4t 0) (hpt : tableAt s.mem s.pml4t (tablePath v) = some pt)
    (he : NotTable s.mem s.pml4t (e &&& pageMask)) :
    HeapApart (s.store64 (slot pt (ptIndex v)) e) := by
  have hroot : (s.store64 (slot pt (ptIndex v)) e).pml4t = s.pml4t := rfl
  have htab := fun q => hinv.tableAt_store (e := e) hpt (q := q)
  refine ⟨(hinv.store hpt).distinct, fun u hu q hq hpres => ?_, fun u _ hslot => ?_,
    fun u hu hpres => ?_⟩
  · have hlen : q.length ≤ 3 := by rcases hq with rfl | rfl <;> simp
    have hne : q ≠ pathOf v := by
      rintro rfl
      simp at hlen
    rw [hroot, hinv.pathEntry_store hpt (Nat.le_succ_of_le hlen), if_neg hne] at hpres ⊢
    exact h.noHuge u hu q hq hpres
  · rw [hroot] at hslot ⊢
    exact pathEntry_of_entrySlot (s := s.store64 (slot pt (ptIndex v)) e) (hnull.congr htab) hslot
  · rw [hroot] at hpres ⊢
    refine NotTable.congr ?_ htab
    rw [hinv.pathEntry_store hpt (by simp)] at hpres ⊢
    split_ifs at hpres ⊢ with hpath
    · exact he
    · exact h.frames u hu hpres

/-- `map_page` leaves them apart if it maps a page to a frame that is neither a table nor free. -/
theorem HeapApart.mapPage (h : HeapApart s) (hinv : TableInv s free)
    (hnull : NotTable s.mem s.pml4t 0) (hzero : 0 ∉ free)
    (hframes : ∀ u, InHeap u → pathEntry s.mem s.pml4t (pathOf u) &&& ptePresent ≠ 0 →
      pathEntry s.mem s.pml4t (pathOf u) &&& pageMask ∉ free)
    (hv : NoHuge s.mem s.pml4t v) (hp : Aligned p) (hflags : flags.toNat < 4096)
    (hfree : p ∉ free) (hnot : NotTable s.mem s.pml4t p) :
    HeapApart (s.mapPage s.pml4t v p flags) := by
  obtain ⟨s₁, free', hg, ⟨pt, -, hpt, heq⟩ | ⟨-, heq⟩⟩ := mapPage_spec hinv hv p flags
  · have hgrown := h.grows hg hinv hnull hzero hframes
    have hframe : NotTable s₁.mem s₁.pml4t (pageEntry p flags &&& pageMask) := by
      rw [pageEntry_pageMask hp hflags]
      exact hg.notTable hinv hfree hnot
    have hstored := hgrown.store hg.inv (hg.notTable hinv hzero hnull) hpt hframe
    rw [heq]
    exact ⟨hstored.distinct, hstored.noHuge, hstored.null, hstored.frames⟩
  · have hgrown := h.grows hg hinv hnull hzero hframes
    rw [heq]
    exact ⟨hgrown.distinct, hgrown.noHuge, hgrown.null, hgrown.frames⟩

end

/-! ## A heap with one page -/

theorem leaf_bareHeap (v : BitVec 64) :
    pathEntry bareHeap.mem bareHeap.pml4t (pathOf v) &&& ptePresent = 0 := by
  rw [pathOf, pathEntry_cons_of_none (tableAt_bareHeap (by simp [tablePath])),
    Mmu.zero_and_present]

theorem heapApart_bareHeap : HeapApart bareHeap where
  distinct := tableInv_bareHeap.distinct
  noHuge v _ := noHuge_bareHeap v
  null _ _ hslot := pathEntry_of_entrySlot notTable_zero_bareHeap hslot
  frames v _ hpres := absurd (leaf_bareHeap v) hpres

/-- `bareHeap` with the first page of the heap mapped. -/
def mappedHeap : Mmu :=
  bareHeap.mapPage bareHeap.pml4t kernelHeapAdr 0x200000 pteWritable

theorem heapApart_mappedHeap : HeapApart mappedHeap :=
  heapApart_bareHeap.mapPage tableInv_bareHeap notTable_zero_bareHeap (by decide)
    (fun u _ hpres => absurd (leaf_bareHeap u) hpres) (noHuge_bareHeap _) (by decide) (by decide)
    (by decide) fun _ _ hq => absurd (eq_nil_of_tableAt_bareHeap hq).2 (by decide)

/-- The page that is mapped is freed with seven others. -/
theorem mmuFreePages_range_mappedHeap :
    pathEntry mappedHeap.mem mappedHeap.pml4t (pathOf kernelHeapAdr) &&& ptePresent ≠ 0 ∧
      mappedHeap.FreesRange kernelHeapAdr 8 ∧ mappedHeap.ClearsRange kernelHeapAdr 8 := by
  have hpages : HeapPages kernelHeapAdr (8 : BitVec 32).toInt.toNat :=
    fun _ => ⟨by decide, by decide⟩
  have hroot : mappedHeap.pml4t = bareHeap.pml4t :=
    mapPage_pml4t tableInv_bareHeap (noHuge_bareHeap _) _ _
  refine ⟨?_, ((mmuFreePages_range_iff mappedHeap hpages).2.2 heapApart_mappedHeap).2 (by decide)⟩
  rw [hroot, mappedHeap, pathEntry_mapPage tableInv_bareHeap (noHuge_bareHeap _)
    (mapSucceeds_bareHeap _)]
  exact pageEntry_present

/-- A call for 524289 pages of the heap : the product for the last one overflows. -/
theorem pageProduct_overflows :
    HeapPages kernelHeapAdr (524289 : BitVec 32).toInt.toNat ∧
      (BitVec.ofNat 32 524288).smulOverflow 4096 = true ∧
      ¬bareHeap.FreesRange kernelHeapAdr 524289 :=
  ⟨fun _ => ⟨by decide, by decide⟩, by decide, fun h => absurd (freesRange_iff.1 h) (by decide)⟩

end KernelDev
