import KernelDev.AllocFrame
import KernelDev.HeapPages

/-!
# The heap operations

One specification for each operation of `mmu.c` on the heap : the invariant is kept, no frame is
lost, and which heap bytes change. Callers use these and do not unfold the operations.

`MMU_free_page` clears an entry and gives its frame back (`mmuFreePage_spec`); at an address
without tables it does nothing. The loop of `MMU_free_pages` frees the pages it counts
(`freePagesFrom_spec`), which are those of the range if no offset overflows (`pageAt_ofNat`), that
is for at most 524288 pages.

An allocation takes the pages at `kernel_brk`, which then read zero, or it fails and the heap is as
it was (`Allocates`), except that `kernel_brk` may have moved. For one page that is `get_pte` and
the store that marks the entry (`reserve_spec`). For several it is an induction on the pages that
are left (`allocPagesFrom_spec`) : the pages taken so far are in use, and when a page fails exactly
these are freed again (`allocResult_rollback`), so that nothing from the start on is in use.

A page fault at a page that waits for a frame gives it one, if there is one
(`pageFaultHandler_demand`); at any other heap page the handler halts. Either way no byte of the
heap changes (`pageFaultHandler_spec`), since what waits for a frame reads zero already.
-/

namespace KernelDev

open ByteMem PathTree

namespace Mmu

variable (s : Mmu)

@[simp] theorem growBrk_mem : s.growBrk.mem = s.mem := by
  rw [growBrk]
@[simp] theorem growBrk_cr3 : s.growBrk.cr3 = s.cr3 := by
  rw [growBrk]
@[simp] theorem growBrk_kernelBrk : s.growBrk.kernelBrk = s.kernelBrk + pageSize := by
  rw [growBrk]
@[simp] theorem growBrk_freePageHead : s.growBrk.freePageHead = s.freePageHead := by
  rw [growBrk]
@[simp] theorem growBrk_freeListInitialized :
    s.growBrk.freeListInitialized = s.freeListInitialized := by
  rw [growBrk]
@[simp] theorem growBrk_pml4t : s.growBrk.pml4t = s.pml4t := by
  rw [pml4t, pml4t, growBrk_cr3]

end Mmu

/-- The page behind a heap page does not wrap. -/
theorem InHeap.brk_next {b : BitVec 64} (hb : InHeap b) (hal : Aligned b) :
    (b + pageSize).toNat = b.toNat + 4096 ∧ Aligned (b + pageSize) := by
  rw [inHeap_iff] at hb
  exact aligned_next hal (by omega)

/-- Moving `kernel_brk` up by a page keeps the invariant. -/
theorem HeapInv.growBrk {s : Mmu} {free : List Addr} (h : HeapInv s free)
    (hb : InHeap s.kernelBrk) : HeapInv s.growBrk free := by
  obtain ⟨hsum, hal⟩ := hb.brk_next h.brkAligned
  refine ⟨?_, ?_, h.nodup, h.frames, ?_, ?_, ?_, ?_, ?_, fun v hv hle => ?_, ?_⟩
  · exact s.growBrk_freeListInitialized.trans h.listed
  · rw [Mmu.FreeList, Mmu.growBrk_mem, Mmu.growBrk_freePageHead]
    exact h.list
  all_goals simp only [Mmu.growBrk_pml4t, Mmu.growBrk_mem, Mmu.growBrk_kernelBrk] at *
  · exact h.unique
  · exact h.fresh
  · exact h.links
  · exact h.leaf
  · exact hal
  · exact h.unused v hv (by omega)
  · exact h.null

/-- The null page is not in the heap. -/
theorem InHeap.ne_zero {v : BitVec 64} (hv : InHeap v) : v ≠ 0 := by
  rintro rfl
  exact absurd hv (by decide)

/-! ## Freeing -/

section

variable {s : Mmu} {free : List Addr} {v : BitVec 64}

/-- A present heap entry maps a frame. -/
theorem HeapInv.mapped (h : HeapInv s free) (hv : InHeap v)
    (hpres : leafEntry s.mem s.pml4t v &&& ptePresent ≠ 0) :
    ∃ f, IsFrame f ∧ leafEntry s.mem s.pml4t v = mappedEntry f := by
  rcases h.leaf v hv with he | he | he
  · exact absurd he.1 hpres
  · rw [he] at hpres
    exact absurd (by decide) hpres
  · exact he

/-- Without a table nothing is freed. -/
theorem mmuFreePage_null (hl : HeapLinks s.mem s.pml4t) (hv : InHeap v)
    (hnull : leafSlot s.mem s.pml4t v = 0) : s.mmuFreePage v = s := by
  rw [Mmu.mmuFreePage, getPte_lookup hl hv, hnull]
  rfl

/-- The entry of a page without a frame is cleared. -/
theorem mmuFreePage_unbacked (hl : HeapLinks s.mem s.pml4t) (hv : InHeap v) {pt : Addr}
    (hpt : node s.mem s.pml4t (tablePath v) = some pt) (hnull : slot pt (ptIndex v) ≠ 0)
    (hpres : leafEntry s.mem s.pml4t v &&& ptePresent = 0) :
    s.mmuFreePage v = (writeLeaf s (slot pt (ptIndex v)) 0 s.kernelBrk).invlpg v := by
  rw [leafEntry_of_node hpt, word] at hpres
  rw [Mmu.mmuFreePage, getPte_lookup hl hv, leafSlot_of_node hpt]
  simp only [if_neg hnull, if_neg (not_not.2 hpres)]
  rfl

/-- The frame of a page is given back, and its entry cleared. -/
theorem mmuFreePage_backed (hl : HeapLinks s.mem s.pml4t) (hv : InHeap v) {pt f : Addr}
    (hpt : node s.mem s.pml4t (tablePath v) = some pt) (hnull : slot pt (ptIndex v) ≠ 0)
    (hf : IsFrame f) (he : leafEntry s.mem s.pml4t v = mappedEntry f) :
    s.mmuFreePage v = (releaseLeaf s f (slot pt (ptIndex v))).invlpg v := by
  rw [leafEntry_of_node hpt, word] at he
  rw [Mmu.mmuFreePage, getPte_lookup hl hv, leafSlot_of_node hpt]
  simp only [if_neg hnull, he, if_pos (mappedEntry_present f), mappedEntry_pageMask hf.aligned,
    Mmu.mmuPfFree_frame s hf.ne_zero hf.aligned]
  rfl

/-- What `MMU_free_page` does at a heap address: nothing where the address has no table, otherwise
it clears the entry and, if a frame was behind it, frees the frame. -/
theorem mmuFreePage_cases (h : HeapInv s free) (hv : InHeap v) :
    (leafSlot s.mem s.pml4t v = 0 ∧ s.mmuFreePage v = s) ∨
    ∃ pt, node s.mem s.pml4t (tablePath v) = some pt ∧ slot pt (ptIndex v) ≠ 0 ∧
      ((leafEntry s.mem s.pml4t v &&& ptePresent = 0 ∧
          s.mmuFreePage v = (writeLeaf s (slot pt (ptIndex v)) 0 s.kernelBrk).invlpg v) ∨
        ∃ f, IsFrame f ∧ leafEntry s.mem s.pml4t v = mappedEntry f ∧
          s.mmuFreePage v = (releaseLeaf s f (slot pt (ptIndex v))).invlpg v) := by
  by_cases hnull : leafSlot s.mem s.pml4t v = 0
  · exact Or.inl ⟨hnull, mmuFreePage_null h.links hv hnull⟩
  cases hpt : node s.mem s.pml4t (tablePath v) with
  | none => exact absurd (leafSlot_of_none hpt) hnull
  | some pt =>
    rw [leafSlot_of_node hpt] at hnull
    refine Or.inr ⟨pt, rfl, hnull, ?_⟩
    by_cases hpres : leafEntry s.mem s.pml4t v &&& ptePresent = 0
    · exact Or.inl ⟨hpres, mmuFreePage_unbacked h.links hv hpt hnull hpres⟩
    · obtain ⟨f, hf, he⟩ := h.mapped hv hpres
      exact Or.inr ⟨f, hf, he, mmuFreePage_backed h.links hv hpt hnull hf he⟩

/-- `MMU_free_page` at a heap address. -/
theorem mmuFreePage_spec (h : HeapInv s free) (hv : InHeap v) :
    ∃ free', Conserves s free (s.mmuFreePage v) free' ∧
      (s.mmuFreePage v).kernelBrk = s.kernelBrk ∧
      ∀ u, InHeap u → heapByte (s.mmuFreePage v).mem s.pml4t u =
        if pageOf u = pageOf v then none else heapByte s.mem s.pml4t u := by
  obtain ⟨hnull, heq⟩ | ⟨pt, hpt, hnull, ⟨hpres, heq⟩ | ⟨f, hf, he, heq⟩⟩ := mmuFreePage_cases h hv
  · rw [heq]
    refine ⟨free, .refl h, rfl, fun u hu => ?_⟩
    split_ifs with hpage
    · have hun := h.null v hv hnull
      rw [← leafEntry_congr hu hv hpage] at hun
      exact heapByte_of_unmapped hun
    · rfl
  · rw [heq]
    refine ⟨free, (conserves_writeLeaf h hv hpt hnull le_rfl h.brkAligned hpres
      (Or.inl unmapped_zero)).invlpg v, rfl, fun u hu => ?_⟩
    split_ifs with hpage
    · refine heapByte_of_unmapped ?_
      rw [Mmu.invlpg_mem, (setsLeaf_writeLeaf hpt hnull le_rfl h.brkAligned).leaf h hv hu,
        if_pos hpage]
      exact unmapped_zero
    · rw [Mmu.invlpg_mem]
      exact bytes_writeLeaf h hv hpt hnull le_rfl h.brkAligned hu hpage
  · rw [heq]
    refine ⟨f :: free, (conserves_releaseLeaf h hv hpt hnull hf he).invlpg v, rfl,
      fun u hu => ?_⟩
    split_ifs with hpage
    · refine heapByte_of_unmapped ?_
      rw [Mmu.invlpg_mem, (setsLeaf_releaseLeaf h hv hpt hnull hf he).leaf h hv hu,
        if_pos hpage]
      exact unmapped_zero
    · rw [Mmu.invlpg_mem]
      exact bytes_releaseLeaf h hv hpt hnull hf he hu hpage

/-- `u` is in one of the `n` pages from page `i` on, as the loops count them. -/
def InPages (pages : BitVec 32 → Addr) (i : BitVec 32) (n : ℕ) (u : BitVec 64) : Prop :=
  ∃ j < n, pageOf u = pageOf (pages (i + BitVec.ofNat 32 j))

variable {pages : BitVec 32 → Addr}

theorem inPages_succ {i : BitVec 32} {n : ℕ} {u : BitVec 64} :
    InPages pages i (n + 1) u ↔ pageOf u = pageOf (pages i) ∨ InPages pages (i + 1) n u := by
  have hshift : ∀ j, i + 1 + BitVec.ofNat 32 j = i + BitVec.ofNat 32 (j + 1) := fun j => by
    rw [BitVec.ofNat_add, BitVec.add_assoc, BitVec.add_comm (BitVec.ofNat 32 j)]
    rfl
  refine ⟨?_, ?_⟩
  · rintro ⟨_ | j, hj, hu⟩
    · exact Or.inl (by simpa using hu)
    · exact Or.inr ⟨j, by omega, by rwa [hshift]⟩
  · rintro (hu | ⟨j, hj, hu⟩)
    · exact ⟨0, by omega, by simpa using hu⟩
    · exact ⟨j + 1, by omega, by rwa [hshift] at hu⟩

/-- The first page the loop counts, and the pages after it. -/
theorem pages_succ {P : Addr → Prop} {i : BitVec 32} {n : ℕ}
    (h : ∀ j < n + 1, P (pages (i + BitVec.ofNat 32 j))) :
    P (pages i) ∧ ∀ j < n, P (pages (i + 1 + BitVec.ofNat 32 j)) := by
  refine ⟨by simpa using h 0 (by omega), fun j hj => ?_⟩
  have := h (j + 1) (by omega)
  rwa [BitVec.ofNat_add, BitVec.add_comm (BitVec.ofNat 32 j), ← BitVec.add_assoc] at this

/-- The loop of `MMU_free_pages` : it frees the pages it counts. -/
theorem freePagesFrom_spec : ∀ {n : ℕ} {s : Mmu} {free : List Addr} {i : BitVec 32},
    HeapInv s free → (∀ j < n, InHeap (pages (i + BitVec.ofNat 32 j))) →
    ∃ free', Conserves s free (s.freePagesFrom pages i n) free' ∧
      (s.freePagesFrom pages i n).kernelBrk = s.kernelBrk ∧
      (∀ u, InHeap u → InPages pages i n u →
        heapByte (s.freePagesFrom pages i n).mem s.pml4t u = none) ∧
      ∀ u, InHeap u → ¬InPages pages i n u →
        heapByte (s.freePagesFrom pages i n).mem s.pml4t u = heapByte s.mem s.pml4t u
  | 0, s, free, i, h, _ => by
    refine ⟨free, .refl h, rfl, fun u _ hu => ?_, fun u _ _ => rfl⟩
    obtain ⟨j, hj, -⟩ := hu
    omega
  | n + 1, s, free, i, h, hheap => by
    obtain ⟨hi, hrest⟩ := pages_succ hheap
    obtain ⟨free₁, hc₁, hbrk₁, hbytes₁⟩ := mmuFreePage_spec h hi
    obtain ⟨free₂, hc₂, hbrk₂, hin₂, hout₂⟩ := freePagesFrom_spec hc₁.inv hrest
    rw [hc₁.pml4t] at hin₂ hout₂
    refine ⟨free₂, hc₁.trans hc₂, hbrk₂.trans hbrk₁, fun u hu hmem => ?_, fun u hu hmem => ?_⟩
    · by_cases hlater : InPages pages (i + 1) n u
      · exact hin₂ u hu hlater
      · have hpage := (inPages_succ.1 hmem).resolve_right hlater
        exact (hout₂ u hu hlater).trans ((hbytes₁ u hu).trans (if_pos hpage))
    · rw [inPages_succ, not_or] at hmem
      exact (hout₂ u hu hmem.2).trans ((hbytes₁ u hu).trans (if_neg hmem.1))

/-- The product of `int`s for the offset of page `i` overflows from page 524288 on. -/
theorem smulOverflow_page {i : ℕ} (hi : i < 2 ^ 31) :
    (BitVec.ofNat 32 i).smulOverflow 4096 = false ↔ i < 524288 := by
  have hint : (BitVec.ofNat 32 i).toInt = i := by
    rw [BitVec.toInt_eq_toNat_of_lt] <;> rw [BitVec.toNat_ofNat] <;> omega
  rw [BitVec.smulOverflow, hint, show (4096 : BitVec 32).toInt = 4096 from rfl]
  simp only [Bool.or_eq_false_iff, decide_eq_false_iff_not, not_le, not_lt]
  omega

/-- With at most 524288 pages the offsets of `MMU_free_pages` do not overflow. -/
theorem pageAt_ofNat (s : Mmu) {j : ℕ} (hj : j < 524288) :
    s.pageAt v (0 + BitVec.ofNat 32 j) = v + BitVec.ofNat 64 (4096 * j) := by
  have hzero : (0 : BitVec 32) + BitVec.ofNat 32 j = BitVec.ofNat 32 j := by simp
  have hover := (smulOverflow_page (by omega)).2 hj
  have hprod : (BitVec.ofNat 32 j * 4096).toNat = 4096 * j := by
    rw [BitVec.toNat_mul, BitVec.toNat_ofNat, show (4096 : BitVec 32).toNat = 4096 from rfl]
    omega
  have hmsb : (BitVec.ofNat 32 j * 4096).msb = false := by
    rw [BitVec.msb_eq_false_iff_two_mul_lt, hprod]
    omega
  rw [hzero, Mmu.pageAt, hover, if_neg Bool.false_ne_true,
    BitVec.signExtend_eq_setWidth_of_msb_false hmsb]
  congr 1
  apply BitVec.eq_of_toNat_eq
  rw [BitVec.toNat_setWidth, hprod, BitVec.toNat_ofNat]

/-- Pages of a range, by their numbers. -/
theorem pageOf_add_pages {j : ℕ} (hj : v.toNat + 4096 * j < 2 ^ 64) :
    pageOf (v + BitVec.ofNat 64 (4096 * j)) = pageOf v + j := by
  unfold pageOf
  rw [BitVec.toNat_add, BitVec.toNat_ofNat, Nat.mod_eq_of_lt (by omega : 4096 * j < 2 ^ 64),
    Nat.mod_eq_of_lt hj]
  omega

/-- `n` pages from `v` are heap pages. -/
def HeapPages (v : BitVec 64) (n : ℕ) : Prop :=
  0 < n → InHeap v ∧ v.toNat + 4096 * (n - 1) < 2 ^ 41

/-- All addresses of heap pages are in the heap. -/
theorem HeapPages.inHeap {n j : ℕ} (h : HeapPages v n) (hj : j < n) :
    InHeap (v + BitVec.ofNat 64 (4096 * j)) := by
  obtain ⟨hv, hlt⟩ := h (by omega)
  rw [inHeap_iff] at hv ⊢
  rw [BitVec.toNat_add, BitVec.toNat_ofNat]
  omega

theorem HeapPages.pageAt {n : ℕ} (h : HeapPages v n) (hn : n ≤ 524288) (s : Mmu) :
    ∀ j < n, InHeap (s.pageAt v (0 + BitVec.ofNat 32 j)) := fun j hj => by
  rw [pageAt_ofNat s (by omega)]
  exact h.inHeap hj

/-- The pages that the loop counts are those of the range. -/
theorem inPages_iff {n : ℕ} {u : BitVec 64} (hn : n ≤ 524288) (hv : HeapPages v n) :
    InPages (s.pageAt v) 0 n u ↔ pageOf v ≤ pageOf u ∧ pageOf u < pageOf v + n := by
  have hpage : ∀ j < n, pageOf (s.pageAt v (0 + BitVec.ofNat 32 j)) = pageOf v + j :=
    fun j hj => by
      obtain ⟨-, hlt⟩ := hv (by omega)
      rw [pageAt_ofNat s (by omega), pageOf_add_pages (by omega)]
  refine ⟨?_, fun ⟨hle, hlt⟩ => ⟨pageOf u - pageOf v, by omega, ?_⟩⟩
  · rintro ⟨j, hj, hu⟩
    rw [hpage j hj] at hu
    omega
  · rw [hpage _ (by omega)]
    omega

/-- `MMU_free_pages` on at most 524288 heap pages. -/
theorem mmuFreePages_spec (h : HeapInv s free) (num : BitVec 32) (hnum : num.toInt.toNat ≤ 524288)
    (hv : HeapPages v num.toInt.toNat) :
    ∃ free', Conserves s free (s.mmuFreePages v num) free' ∧
      (s.mmuFreePages v num).kernelBrk = s.kernelBrk ∧
      ∀ u, InHeap u → heapByte (s.mmuFreePages v num).mem s.pml4t u =
        if pageOf v ≤ pageOf u ∧ pageOf u < pageOf v + num.toInt.toNat then none
        else heapByte s.mem s.pml4t u := by
  obtain ⟨free', hc, hbrk, hin, hout⟩ := freePagesFrom_spec h (hv.pageAt hnum s)
  refine ⟨free', hc, hbrk, fun u hu => ?_⟩
  split_ifs with hmem
  · exact hin u hu ((inPages_iff hnum hv).2 hmem)
  · exact hout u hu fun hc => hmem ((inPages_iff hnum hv).1 hc)

end

/-! ## `kernel_brk` moves in the allocation functions only -/

namespace Mmu

variable (s : Mmu)

theorem mmuPfFree_kernelBrk (pf : Addr) : (s.mmuPfFree pf).kernelBrk = s.kernelBrk := by
  unfold mmuPfFree
  split_ifs <;> rfl

theorem mmuFreePage_kernelBrk (vaddr : Addr) : (s.mmuFreePage vaddr).kernelBrk = s.kernelBrk := by
  have hpte := getPte_kernelBrk s s.pml4t vaddr false
  unfold mmuFreePage
  generalize s.getPte s.pml4t vaddr false = r at hpte ⊢
  simp only
  split_ifs <;> simp [mmuPfFree_kernelBrk, hpte]

theorem mmuAllocPage_kernelBrk : s.mmuAllocPage.1.kernelBrk = s.kernelBrk + pageSize := by
  have hpte := getPte_kernelBrk s.growBrk s.growBrk.pml4t s.kernelBrk true
  unfold mmuAllocPage
  simp only
  split_ifs
  · exact hpte.trans s.growBrk_kernelBrk
  · exact hpte.trans s.growBrk_kernelBrk

theorem freePagesFrom_kernelBrk (pages : BitVec 32 → Addr) : ∀ (n : ℕ) (s : Mmu) (i : BitVec 32),
    (s.freePagesFrom pages i n).kernelBrk = s.kernelBrk
  | 0, _, _ => rfl
  | n + 1, s, _ => (freePagesFrom_kernelBrk pages n _ _).trans (mmuFreePage_kernelBrk s _)

/-- `MMU_alloc_pages` never moves `kernel_brk` down. -/
theorem allocPagesFrom_kernelBrk_le (pml4t startAddr : Addr) : ∀ (n : ℕ) (s : Mmu) (i : BitVec 32),
    s.kernelBrk.toNat + 4096 * n < 2 ^ 64 →
    s.kernelBrk.toNat ≤ (s.allocPagesFrom pml4t startAddr i n).1.kernelBrk.toNat
  | 0, _, _, _ => le_rfl
  | n + 1, s, i, hlt => by
    have hpte := getPte_kernelBrk s pml4t s.kernelBrk true
    unfold allocPagesFrom
    simp only
    split_ifs
    · rw [mmuFreePages, freePagesFrom_kernelBrk, hpte]
    · have hsum : ((s.getPte pml4t s.kernelBrk true).1.kernelBrk + pageSize).toNat =
          s.kernelBrk.toNat + 4096 := by
        rw [hpte, BitVec.toNat_add, show pageSize.toNat = 4096 from rfl]
        omega
      refine le_trans ?_ (allocPagesFrom_kernelBrk_le pml4t startAddr n _ _ ?_)
      · simp only [growBrk_kernelBrk, store64_kernelBrk]
        omega
      · simp only [growBrk_kernelBrk, store64_kernelBrk]
        omega

end Mmu

/-! ## Allocating -/

section

variable {s : Mmu} {free : List Addr} {v : BitVec 64}

/-- `get_pte` for a page that is not in use, and the store that marks it. -/
theorem reserve_spec (h : HeapInv s free) (hv : InHeap v)
    (hun : Unmapped (leafEntry s.mem s.pml4t v)) :
    ∃ free', Extends s free (s.getPte s.pml4t v true).1 free' ∧
      ((s.getPte s.pml4t v true).2 ≠ 0 → ∀ k : BitVec 64, s.kernelBrk.toNat ≤ k.toNat → Aligned k →
        v.toNat < k.toNat →
        Conserves s free
          (writeLeaf (s.getPte s.pml4t v true).1 (s.getPte s.pml4t v true).2 demandEntry k) free' ∧
        ∀ u, InHeap u → heapByte
          (writeLeaf (s.getPte s.pml4t v true).1 (s.getPte s.pml4t v true).2 demandEntry k).mem
            s.pml4t u = if pageOf u = pageOf v then some 0 else heapByte s.mem s.pml4t u) := by
  obtain ⟨free', he, hpte⟩ := getPte_create h hv
  refine ⟨free', he, fun hne k hk hka hvk => ?_⟩
  obtain ⟨pt, hpt, hslot⟩ := hpte hne
  generalize s.getPte s.pml4t v true = r at he hpt hslot hne
  rw [hslot] at hne ⊢
  rw [← he.pml4t] at hpt
  rw [← he.brk] at hk
  have hleaf := he.leaf v hv
  rw [← hleaf, ← he.pml4t] at hun
  have hmark := conserves_writeLeaf he.inv hv hpt hne hk hka hun.1 (Or.inr ⟨rfl, hvk⟩)
  refine ⟨he.conserves.trans hmark, fun u hu => ?_⟩
  rw [← he.pml4t]
  split_ifs with hpage
  · refine heapByte_of_demand ?_
    rw [(setsLeaf_writeLeaf hpt hne hk hka).leaf he.inv hv hu, if_pos hpage]
  · rw [bytes_writeLeaf he.inv hv hpt hne hk hka hu hpage, he.pml4t, he.bytes u hu]

theorem store64_demand (t : Mmu) (a : Addr) {k : BitVec 64} (hk : t.kernelBrk = k) :
    t.store64 a (pteDemandPaging ||| pteWritable) = writeLeaf t a demandEntry k := by
  rw [← hk, writeLeaf, demandEntry, Mmu.store64]

/-- The pages from an aligned address. -/
theorem pageOf_eq_brk_iff {b u : BitVec 64} (hb : Aligned b) :
    pageOf u = pageOf b ↔ b.toNat ≤ u.toNat ∧ u.toNat < b.toNat + 4096 := by
  unfold Aligned pageOf at *
  omega

/-- What an allocation of `n` pages does : it takes the pages at `kernel_brk`, which then read
zero, or it fails and the heap is as it was. -/
def Allocates (s : Mmu) (free : List Addr) (n : ℕ) (r : Mmu × Addr) : Prop :=
  ∃ free', Conserves s free r.1 free' ∧ s.kernelBrk.toNat ≤ r.1.kernelBrk.toNat ∧
    (r.2 = 0 ∧ (∀ u, InHeap u → heapByte r.1.mem s.pml4t u = heapByte s.mem s.pml4t u) ∨
      r.2 = s.kernelBrk ∧ r.1.kernelBrk.toNat = s.kernelBrk.toNat + 4096 * n ∧
        ∀ u, InHeap u → heapByte r.1.mem s.pml4t u =
          if s.kernelBrk.toNat ≤ u.toNat ∧ u.toNat < s.kernelBrk.toNat + 4096 * n then some 0
          else heapByte s.mem s.pml4t u)

/-- `MMU_alloc_page` -/
theorem mmuAllocPage_spec (h : HeapInv s free) (hb : InHeap s.kernelBrk) :
    Allocates s free 1 s.mmuAllocPage := by
  obtain ⟨hsum, hal⟩ := hb.brk_next h.brkAligned
  have hmoved := h.growBrk hb
  have hun := h.unused _ hb le_rfl
  rw [← s.growBrk_pml4t, ← s.growBrk_mem] at hun
  obtain ⟨free', he, hmark⟩ := reserve_spec hmoved hb hun
  rw [Mmu.growBrk_pml4t] at he hmark
  have hconserves : Conserves s free s.growBrk free := by
    refine ⟨hmoved, s.growBrk_cr3, fun f hf => ?_⟩
    rwa [Placed, Mmu.growBrk_pml4t, Mmu.growBrk_mem]
  have hbytes := he.bytes
  rw [Mmu.growBrk_pml4t, Mmu.growBrk_mem] at hbytes
  unfold Allocates Mmu.mmuAllocPage
  simp only [Mmu.growBrk_pml4t]
  have hbrk := he.brk
  split_ifs with hnull
  · refine ⟨free', (hconserves.trans he.conserves).printk _ _, ?_, Or.inl ⟨rfl, fun u hu => ?_⟩⟩
    · rw [Mmu.printk_kernelBrk, hbrk, Mmu.growBrk_kernelBrk, hsum]
      omega
    · rw [Mmu.printk_mem]
      exact hbytes u hu
  · rw [store64_demand _ _ hbrk]
    obtain ⟨hc, hbytes⟩ := hmark hnull _ le_rfl hal (by rw [Mmu.growBrk_kernelBrk, hsum]; omega)
    rw [Mmu.growBrk_mem] at hbytes
    rw [writeLeaf_kernelBrk, Mmu.growBrk_kernelBrk, hsum]
    refine ⟨free', hconserves.trans hc, by omega, Or.inr ⟨rfl, rfl, fun u hu => ?_⟩⟩
    refine (hbytes u hu).trans ?_
    simp only [pageOf_eq_brk_iff h.brkAligned]

theorem growBrk_store64_demand (t : Mmu) (a : Addr) {k : BitVec 64} (hk : t.kernelBrk = k) :
    (t.store64 a (pteDemandPaging ||| pteWritable)).growBrk =
      writeLeaf t a demandEntry (k + pageSize) := by
  rw [← hk, writeLeaf, demandEntry, Mmu.growBrk, Mmu.store64_kernelBrk]

/-- A heap page at or above `kernel_brk` has no byte. -/
theorem HeapInv.heapByte_unused (h : HeapInv s free) (hv : InHeap v)
    (hle : s.kernelBrk.toNat ≤ v.toNat) : heapByte s.mem s.pml4t v = none :=
  heapByte_of_unmapped (h.unused v hv hle)

/-- What an allocation of the pages up to `last` leaves : on success they are the pages from
`kernel_brk` on and read zero, on failure nothing from `startAddr` on is in use. -/
def AllocResult (s : Mmu) (free : List Addr) (startAddr : Addr) (last : ℕ) (r : Mmu × Addr) :
    Prop :=
  ∃ free', Conserves s free r.1 free' ∧
    (r.2 = 0 ∧ (∀ u, InHeap u → heapByte r.1.mem s.pml4t u =
        if startAddr.toNat ≤ u.toNat then none else heapByte s.mem s.pml4t u) ∨
      r.2 = startAddr ∧ r.1.kernelBrk.toNat = last ∧
        ∀ u, InHeap u → heapByte r.1.mem s.pml4t u =
          if s.kernelBrk.toNat ≤ u.toNat ∧ u.toNat < last then some 0
          else heapByte s.mem s.pml4t u)

/-- The pages that a failed iteration frees : all that were taken so far. -/
theorem heapPages_taken {startAddr b : Addr} (hstart : InHeap startAddr) (hb : InHeap b) {i : ℕ}
    (hbrk : b.toNat = startAddr.toNat + 4096 * i) (hi : i ≤ 524288) :
    (BitVec.ofNat 32 i).toInt.toNat = i ∧
      HeapPages startAddr (BitVec.ofNat 32 i).toInt.toNat := by
  have hnum : (BitVec.ofNat 32 i).toInt.toNat = i := by
    rw [BitVec.toInt_eq_toNat_of_lt] <;> simp only [BitVec.toNat_ofNat] <;> omega
  rw [inHeap_iff] at hb
  exact ⟨hnum, fun _ => ⟨hstart, by omega⟩⟩

/-- A failed iteration frees the pages from `startAddr` to `kernel_brk` again. -/
theorem allocResult_rollback {startAddr : Addr} (hstart : InHeap startAddr)
    (hsal : Aligned startAddr) {i last : ℕ} {t : Mmu} {free₁ : List Addr} (h : HeapInv s free)
    (hb : InHeap s.kernelBrk) (hbrk : s.kernelBrk.toNat = startAddr.toNat + 4096 * i)
    (hi : i ≤ 524288) (he : Extends s free t free₁) :
    AllocResult s free startAddr last (t.mmuFreePages startAddr (BitVec.ofNat 32 i), 0) := by
  obtain ⟨hnum, hpages⟩ := heapPages_taken hstart hb hbrk hi
  obtain ⟨free₂, hc, -, hbytes⟩ :=
    mmuFreePages_spec he.inv (BitVec.ofNat 32 i) (by omega) hpages
  rw [he.pml4t, hnum] at hbytes
  refine ⟨free₂, he.conserves.trans hc, Or.inl ⟨rfl, fun u hu => ?_⟩⟩
  rw [hbytes u hu, he.bytes u hu]
  unfold Aligned at hsal
  unfold pageOf
  split_ifs with hin hge hge
  · rfl
  · omega
  · exact h.heapByte_unused hu (by omega)
  · rfl

/-- An iteration that takes the page at `kernel_brk`, and the rest of the loop. -/
theorem allocResult_step {startAddr : Addr} {last : ℕ} {t : Mmu} {free₁ : List Addr}
    {r : Mmu × Addr} (hal : Aligned s.kernelBrk) (hstart : startAddr.toNat ≤ s.kernelBrk.toNat)
    (hc : Conserves s free t free₁) (hbrk : t.kernelBrk.toNat = s.kernelBrk.toNat + 4096)
    (hlast : t.kernelBrk.toNat ≤ last)
    (hbytes : ∀ u, InHeap u → heapByte t.mem s.pml4t u =
      if pageOf u = pageOf s.kernelBrk then some 0 else heapByte s.mem s.pml4t u)
    (h : AllocResult t free₁ startAddr last r) : AllocResult s free startAddr last r := by
  obtain ⟨free', hc', hr⟩ := h
  rw [hc.pml4t] at hr
  refine ⟨free', hc.trans hc', ?_⟩
  rcases hr with ⟨hnull, hrest⟩ | ⟨haddr, hend, hrest⟩
  · refine Or.inl ⟨hnull, fun u hu => ?_⟩
    rw [hrest u hu, hbytes u hu]
    simp only [pageOf_eq_brk_iff hal]
    split_ifs <;> first | rfl | omega
  · refine Or.inr ⟨haddr, hend, fun u hu => ?_⟩
    rw [hrest u hu, hbytes u hu]
    simp only [pageOf_eq_brk_iff hal]
    split_ifs <;> first | rfl | omega

/-- `kernel_brk` only grows in the loop of `MMU_alloc_pages`, so that it was in the heap before. -/
theorem allocPagesFrom_inHeap {startAddr : Addr} (hstart : InHeap startAddr) {n i : ℕ} {s : Mmu}
    (hbrk : s.kernelBrk.toNat = startAddr.toNat + 4096 * i) (hn : i + n ≤ 524288)
    (hlt : (s.allocPagesFrom s.pml4t startAddr (BitVec.ofNat 32 i) n).1.kernelBrk.toNat < 2 ^ 41) :
    InHeap s.kernelBrk := by
  have hstart' := inHeap_iff.1 hstart
  have hle := Mmu.allocPagesFrom_kernelBrk_le s.pml4t startAddr n s (BitVec.ofNat 32 i) (by omega)
  exact inHeap_iff.2 (by omega)

/-- The loop of `MMU_alloc_pages`. -/
theorem allocPagesFrom_spec {startAddr : Addr} (hstart : InHeap startAddr)
    (hsal : Aligned startAddr) : ∀ (n : ℕ) {s : Mmu} {free : List Addr} {i : ℕ},
    HeapInv s free → s.kernelBrk.toNat = startAddr.toNat + 4096 * i → i + n ≤ 524288 →
    (s.allocPagesFrom s.pml4t startAddr (BitVec.ofNat 32 i) n).1.kernelBrk.toNat < 2 ^ 41 →
    AllocResult s free startAddr (startAddr.toNat + 4096 * (i + n))
      (s.allocPagesFrom s.pml4t startAddr (BitVec.ofNat 32 i) n) := by
  intro n
  induction n with
  | zero =>
    intro s free i h hbrk _ _
    refine ⟨free, .refl h, Or.inr ⟨rfl, hbrk, fun u hu => ?_⟩⟩
    rw [if_neg (by omega), Mmu.allocPagesFrom]
  | succ n ih =>
    intro s free i h hbrk hn hlt
    have hb := allocPagesFrom_inHeap hstart hbrk hn hlt
    have hb' := inHeap_iff.1 hb
    obtain ⟨hsum, hal⟩ := hb.brk_next h.brkAligned
    obtain ⟨free₁, he, hmark⟩ := reserve_spec h hb (h.unused _ hb le_rfl)
    have hnext : BitVec.ofNat 32 i + 1 = BitVec.ofNat 32 (i + 1) := by
      rw [BitVec.ofNat_add]
      rfl
    unfold Mmu.allocPagesFrom at hlt ⊢
    simp only [growBrk_store64_demand _ _ he.brk, hnext] at hlt ⊢
    split_ifs at hlt ⊢ with hnull
    · exact allocResult_rollback hstart hsal h hb hbrk (by omega) he
    · obtain ⟨hc, hbytes⟩ := hmark hnull _ (by omega) hal (by omega)
      have hbrk' := writeLeaf_kernelBrk (s.getPte s.pml4t s.kernelBrk true).1
        (s.getPte s.pml4t s.kernelBrk true).2 demandEntry (s.kernelBrk + pageSize)
      generalize writeLeaf (s.getPte s.pml4t s.kernelBrk true).1
        (s.getPte s.pml4t s.kernelBrk true).2 demandEntry (s.kernelBrk + pageSize) = t
        at hc hbytes hbrk' hlt ⊢
      rw [← hbrk'] at hsum
      rw [← hc.pml4t] at hlt ⊢
      have hnexti : t.kernelBrk.toNat = startAddr.toNat + 4096 * (i + 1) := by
        rw [hsum, hbrk]
        omega
      have hrest := ih hc.inv hnexti (by omega) hlt
      rw [hc.pml4t, show i + 1 + n = i + (n + 1) by omega] at hrest
      rw [hc.pml4t]
      exact allocResult_step h.brkAligned (by omega) hc hsum (by omega) hbytes hrest

/-- `MMU_alloc_pages` of at most 524288 pages, with `kernel_brk` still in the heap after it. -/
theorem mmuAllocPages_spec (h : HeapInv s free) (hb : InHeap s.kernelBrk) {num : BitVec 32}
    (hnum : num.toInt.toNat ≤ 524288) (hend : InHeap (s.mmuAllocPages num).1.kernelBrk) :
    Allocates s free num.toInt.toNat (s.mmuAllocPages num) := by
  have hb' := inHeap_iff.1 hb
  unfold Mmu.mmuAllocPages at hend ⊢
  split_ifs at hend ⊢ with hpos
  · exact ⟨free, .refl h, le_rfl, Or.inl ⟨rfl, fun _ _ => rfl⟩⟩
  · have hle := Mmu.allocPagesFrom_kernelBrk_le s.pml4t s.kernelBrk num.toInt.toNat s 0 (by omega)
    obtain ⟨free', hc, hr⟩ := allocPagesFrom_spec hb h.brkAligned num.toInt.toNat (i := 0) h
      (by omega) (by omega) (inHeap_iff.1 hend).2
    refine ⟨free', hc, hle, ?_⟩
    rcases hr with ⟨hnull, hbytes⟩ | ⟨haddr, hlast, hbytes⟩
    · refine Or.inl ⟨hnull, fun u hu => (hbytes u hu).trans ?_⟩
      split_ifs with hge
      · exact (h.heapByte_unused hu hge).symm
      · rfl
    · rw [Nat.zero_add] at hlast hbytes
      exact Or.inr ⟨haddr, hlast, hbytes⟩

end

/-! ## Page faults -/

/-- The state an interrupted access finds, or a halted machine keeps. -/
def Outcome.state : Outcome → Mmu
  | .returned s => s
  | .halted s => s

section

variable {s : Mmu} {free : List Addr} {v : BitVec 64} {frame : FaultFrame}

theorem Conserves.reportFault {s₁ : Mmu} {free₁ : List Addr} (h : Conserves s free s₁ free₁)
    (a : Addr) :
    Conserves s free (s₁.reportFault frame a) free₁ := by
  unfold Mmu.reportFault
  split_ifs <;> repeat apply Conserves.printk
  all_goals exact h

theorem reportFault_mem (a : Addr) : (s.reportFault frame a).mem = s.mem := by
  simp only [Mmu.reportFault, Mmu.printk_mem, apply_ite Mmu.mem, ite_self]

theorem reportFault_kernelBrk (a : Addr) : (s.reportFault frame a).kernelBrk = s.kernelBrk := by
  simp only [Mmu.reportFault, Mmu.printk_kernelBrk, apply_ite Mmu.kernelBrk, ite_self]

theorem pageFaultHandler_kernelBrk (s : Mmu) (frame : FaultFrame) (a : Addr) :
    (s.pageFaultHandler frame a).state.kernelBrk = s.kernelBrk := by
  have hpte := s.getPte_kernelBrk s.pml4t a false
  unfold Mmu.pageFaultHandler
  generalize s.getPte s.pml4t a false = r at hpte ⊢
  have halloc := r.1.mmuPfAlloc_kernelBrk.trans hpte
  simp only
  generalize r.1.mmuPfAlloc = q at halloc ⊢
  split_ifs
  · exact (reportFault_kernelBrk a).trans halloc
  · simpa only [Outcome.state, Mmu.invlpg_kernelBrk, Mmu.store64_kernelBrk,
      Mmu.clearPage_kernelBrk] using halloc
  · exact (reportFault_kernelBrk a).trans hpte

/-- The entry the handler stores is the mapped entry of the new frame. -/
theorem faultEntry {f : Addr} (hf : Aligned f) :
    (f &&& pageMask) ||| (demandEntry &&& ~~~pteDemandPaging) ||| ptePresent = mappedEntry f := by
  rw [and_pageMask_of_aligned hf]
  rfl

/-- The entry of a page that waits for a frame, read after the frame is taken and cleared. -/
theorem read64_takeFrame {f pt : Addr} {l : List Addr} (h : HeapInv s (f :: l))
    (hpt : node s.mem s.pml4t (tablePath v) = some pt) :
    read64 ((s.takeFrame f).clearPage f).mem (slot pt (ptIndex v)) = leafEntry s.mem s.pml4t v := by
  have hf := h.frames f (by simp)
  have hfpt : pt ≠ f := by
    rintro rfl
    exact h.fresh pt (by simp) ⟨_, tablePath_mem v, hpt⟩
  have hal := aligned_of_node (aligned_pml4t s) hpt
  rw [leafEntry_of_node hpt, ← word, Mmu.clearPage_mem, word_fill_zero hf.aligned hal, if_neg hfpt]
  show word (fill s.mem f 0 4096) pt (ptIndex v) = _
  rw [word_fill_zero hf.aligned hal, if_neg hfpt]

/-- A fault at a page that waits for a frame, with frames left. -/
theorem pageFaultHandler_demand {f pt : Addr} {l : List Addr} (h : HeapInv s (f :: l))
    (hv : InHeap v) (hpt : node s.mem s.pml4t (tablePath v) = some pt)
    (hnull : slot pt (ptIndex v) ≠ 0) (he : leafEntry s.mem s.pml4t v = demandEntry) :
    s.pageFaultHandler frame v = .returned ((linkFrame s f (slot pt (ptIndex v))).invlpg v) := by
  have hf := h.frames f (by simp)
  have hread := (read64_takeFrame h hpt).trans he
  rw [leafEntry_of_node hpt, word] at he
  unfold Mmu.pageFaultHandler
  rw [getPte_lookup h.links hv, leafSlot_of_node hpt]
  simp only [he, if_pos (And.intro hnull demandEntry_demand), Mmu.mmuPfAlloc_cons h.listed h.list,
    if_neg hf.ne_zero, hread, faultEntry hf.aligned]
  rfl

/-- A fault at a page that waits for a frame, with no frame left. -/
theorem pageFaultHandler_exhausted {pt : Addr} (h : HeapInv s []) (hv : InHeap v)
    (hpt : node s.mem s.pml4t (tablePath v) = some pt) (hnull : slot pt (ptIndex v) ≠ 0)
    (he : leafEntry s.mem s.pml4t v = demandEntry) :
    s.pageFaultHandler frame v =
      .halted (((s.printk "ERROR: Out of memory, no free pages available\n" []).printk
        "Out of memory during demand paging\n" []).reportFault frame v) := by
  rw [leafEntry_of_node hpt, word] at he
  unfold Mmu.pageFaultHandler
  rw [getPte_lookup h.links hv, leafSlot_of_node hpt]
  simp only [he, if_pos (And.intro hnull demandEntry_demand), Mmu.mmuPfAlloc_nil h.listed h.list,
    if_true]

/-- A fault at any other heap page. -/
theorem pageFaultHandler_other (h : HeapInv s free) (hv : InHeap v)
    (he : leafEntry s.mem s.pml4t v ≠ demandEntry) :
    s.pageFaultHandler frame v = .halted (s.reportFault frame v) := by
  unfold Mmu.pageFaultHandler
  rw [getPte_lookup h.links hv]
  refine if_neg ?_
  rintro ⟨hnull, hdem⟩
  cases hpt : node s.mem s.pml4t (tablePath v) with
  | none => exact hnull (leafSlot_of_none hpt)
  | some pt =>
    rw [leafSlot_of_node hpt] at hdem
    have hword : read64 s.mem (slot pt (ptIndex v)) = leafEntry s.mem s.pml4t v :=
      (leafEntry_of_node hpt).symm
    rw [hword] at hdem
    rcases h.leaf v hv with hl | hl | ⟨f, hf, hl⟩
    · exact hdem hl.2
    · exact he hl
    · rw [hl] at hdem
      exact hdem (mappedEntry_demand hf.aligned)

/-- A page that waits for a frame has a table, and its entry is not at the null address. -/
theorem HeapInv.node_of_demand (h : HeapInv s free) (hv : InHeap v)
    (he : leafEntry s.mem s.pml4t v = demandEntry) :
    ∃ pt, node s.mem s.pml4t (tablePath v) = some pt ∧ slot pt (ptIndex v) ≠ 0 := by
  have hnull : leafSlot s.mem s.pml4t v ≠ 0 := fun hnull => by
    have hun := h.null v hv hnull
    rw [he] at hun
    exact demandEntry_demand hun.2
  cases hpt : node s.mem s.pml4t (tablePath v) with
  | none => exact absurd (leafSlot_of_none hpt) hnull
  | some pt =>
    rw [leafSlot_of_node hpt] at hnull
    exact ⟨pt, rfl, hnull⟩

/-- What `page_fault_handler` does at a heap address: it returns only from a page that waits for a
frame, when there is one. -/
theorem pageFaultHandler_cases (h : HeapInv s free) (frame : FaultFrame) (hv : InHeap v) :
    s.pageFaultHandler frame v = .halted (s.reportFault frame v) ∨
    ∃ pt, node s.mem s.pml4t (tablePath v) = some pt ∧ slot pt (ptIndex v) ≠ 0 ∧
      leafEntry s.mem s.pml4t v = demandEntry ∧
      ((free = [] ∧ s.pageFaultHandler frame v =
          .halted (((s.printk "ERROR: Out of memory, no free pages available\n" []).printk
            "Out of memory during demand paging\n" []).reportFault frame v)) ∨
        ∃ f l, free = f :: l ∧ s.pageFaultHandler frame v =
          .returned ((linkFrame s f (slot pt (ptIndex v))).invlpg v)) := by
  by_cases he : leafEntry s.mem s.pml4t v = demandEntry
  · obtain ⟨pt, hpt, hnull⟩ := h.node_of_demand hv he
    refine Or.inr ⟨pt, hpt, hnull, he, ?_⟩
    cases free with
    | nil => exact Or.inl ⟨rfl, pageFaultHandler_exhausted h hv hpt hnull he⟩
    | cons f l => exact Or.inr ⟨f, l, rfl, pageFaultHandler_demand h hv hpt hnull he⟩
  · exact Or.inl (pageFaultHandler_other h hv he)

/-- `page_fault_handler` at a heap address changes no byte of the heap. -/
theorem pageFaultHandler_spec (h : HeapInv s free) (frame : FaultFrame) (hv : InHeap v) :
    ∃ free', Conserves s free (s.pageFaultHandler frame v).state free' ∧
      (s.pageFaultHandler frame v).state.kernelBrk = s.kernelBrk ∧
      ∀ u, InHeap u →
        heapByte (s.pageFaultHandler frame v).state.mem s.pml4t u = heapByte s.mem s.pml4t u := by
  obtain heq | ⟨pt, hpt, hnull, he, ⟨rfl, heq⟩ | ⟨f, l, rfl, heq⟩⟩ :=
    pageFaultHandler_cases h frame hv
  · rw [heq]
    refine ⟨free, (Conserves.refl h).reportFault v, reportFault_kernelBrk v, fun u _ => ?_⟩
    rw [Outcome.state, reportFault_mem]
  · rw [heq]
    refine ⟨[], (((Conserves.refl h).printk _ _).printk _ _).reportFault v,
      reportFault_kernelBrk v, fun u _ => ?_⟩
    rw [Outcome.state, reportFault_mem]
    rfl
  · rw [heq]
    refine ⟨l, (conserves_linkFrame h hv hpt hnull he).invlpg v, ?_, fun u hu => ?_⟩
    · rw [Outcome.state, Mmu.invlpg_kernelBrk, linkFrame_kernelBrk]
    · rw [Outcome.state, Mmu.invlpg_mem]
      exact bytes_linkFrame h hv hpt hnull he hu

end

end KernelDev
