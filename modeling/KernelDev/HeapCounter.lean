import KernelDev.BootHeap
import KernelDev.FreeCounter

/-!
# `free_pages` and the heap

The heap takes its frames from the free list and gives them back, and `free_pages` is counted down
and up with it. What it counts beyond the free frames is, from boot on, the pages below 1 MiB,
which are never listed, and those that were given up for want of room in the region table. This
never changes along a run of the heap (`surplus_heapRelation`), with any failures and page faults :
it is a relation of the kind that `HeapSteps` asks for, and of the four changes two move a frame,
which `MMU_pf_alloc` and `MMU_pf_free` count.

So the allocator is exhausted when `free_pages` has come down to the surplus, and not at zero.
`booted_free_pages` says it for every run of the heap from boot on. The first allocation builds the
list; building counts nothing, so that the surplus is the one that `MMU_init` has left.
-/

namespace KernelDev

open ByteMem PathTree

/-- What `free_pages` counts beyond the free frames stays the same. -/
def KeepsSurplus (s s' : Mmu) : Prop :=
  ∀ free, s.FreeList free → ∃ free', s'.FreeList free' ∧
    s'.freePages + BitVec.ofNat 64 free.length = s.freePages + BitVec.ofNat 64 free'.length

section

variable {s s₁ s₂ : Mmu} {free l : List Addr} {f t pt : Addr} {i : Index} {p : List Index}
  {v e : BitVec 64}

theorem KeepsSurplus.trans (h : KeepsSurplus s s₁) (h' : KeepsSurplus s₁ s₂) :
    KeepsSurplus s s₂ := by
  intro free hfree
  obtain ⟨free₁, hfree₁, heq₁⟩ := h free hfree
  obtain ⟨free₂, hfree₂, heq₂⟩ := h' free₁ hfree₁
  refine ⟨free₂, hfree₂, ?_⟩
  grind

/-- A frame is taken and counted down. -/
theorem keepsSurplus_linkFrame (h : HeapInv s (f :: l)) (hp : HeapPath (i :: p))
    (ht : node s.mem s.pml4t p = some t) : KeepsSurplus s (linkFrame s f (slot t i)) := by
  intro free hfree
  obtain rfl := hfree.unique h.list
  have hpages : (linkFrame s f (slot t i)).freePages = s.freePages - 1 := rfl
  refine ⟨l, list_linkFrame h hp.mem ht, ?_⟩
  rw [hpages, List.length_cons, BitVec.ofNat_add]
  grind

/-- A frame is given back and counted up. -/
theorem keepsSurplus_releaseLeaf (h : HeapInv s free) (hv : InHeap v)
    (hpt : node s.mem s.pml4t (tablePath v) = some pt) (hf : IsFrame f)
    (he : leafEntry s.mem s.pml4t v = mappedEntry f) :
    KeepsSurplus s (releaseLeaf s f (slot pt (ptIndex v))) := by
  intro free' hfree
  obtain rfl := hfree.unique h.list
  have hpages : (releaseLeaf s f (slot pt (ptIndex v))).freePages = s.freePages + 1 := rfl
  refine ⟨f :: free', list_releaseLeaf h hv hpt hf he, ?_⟩
  rw [hpages, List.length_cons, BitVec.ofNat_add]
  grind

/-- The four changes keep the surplus. -/
theorem surplus_heapRelation : HeapRelation KeepsSurplus where
  trans := KeepsSurplus.trans
  same := fun {s t} _ hmem hhead hpages free hfree => by
    refine ⟨free, ?_, by rw [hpages]⟩
    rw [Mmu.FreeList, hmem, hhead]
    exact hfree
  link := fun h hp ht _ => keepsSurplus_linkFrame h hp ht
  mark := fun h _ hpt _ _ k free' hfree => by
    obtain rfl := hfree.unique h.list
    exact ⟨free', list_writeLeaf h hpt, rfl⟩
  release := fun h hv hpt _ hf he => keepsSurplus_releaseLeaf h hv hpt hf he
  store := fun h hv hf he b free' hfree => by
    obtain rfl := hfree.unique h.list
    exact ⟨free', (storeByte_spec h hv hf he b).1.inv.list, rfl⟩

end

/-! ## From boot on -/

/-- An allocation fails exactly if the list, built or to be built, is empty. -/
theorem Mmu.mmuPfAlloc_null_iff {s : Mmu} {free : List Addr}
    (h : s.freeListInitialized = false → Unbuilt s) (hlist : s.built.FreeList free) :
    s.mmuPfAlloc.2 = 0 ↔ free = [] := by
  obtain ⟨m, head, hbuilt⟩ := exists_built_eq h
  have hlisted : s.built.freeListInitialized = true := by rw [hbuilt]
  have halloc : s.mmuPfAlloc = s.built.mmuPfAlloc := by
    cases hs : s.freeListInitialized with
    | true => rw [built_of_listed hs]
    | false =>
      rw [built_of_unbuilt hs] at hlisted ⊢
      exact mmuPfAlloc_first hs hlisted
  rw [halloc]
  cases free with
  | nil =>
    rw [mmuPfAlloc_nil hlisted hlist]
    exact iff_of_true rfl rfl
  | cons f l =>
    rw [mmuPfAlloc_cons hlisted hlist]
    exact iff_of_false (Chain.cons_iff.1 hlist).2.1 (List.cons_ne_nil f l)

section

variable {t : BootTables} {s u v : Mmu} {multibootInfo : Addr} {free : List Addr}
  {tr : List HeapEvent}

/-- The free frames of a run are frames that were free at its start, and counted. -/
theorem BootTree.run_surplus (htree : BootTree t u free) (h : FreshHeap u free)
    (hrun : Run HeapStepIn u tr v) :
    (v.freeListInitialized = false → Unbuilt v) ∧
      ∃ left, v.built.FreeList left ∧ left.Nodup ∧ left ⊆ free ∧
        v.freePages + BitVec.ofNat 64 free.length = u.freePages + BitVec.ofNat 64 left.length := by
  rcases h.run_built hrun with ⟨rfl, -⟩ | hrun'
  · exact ⟨htree.first, free, htree.list, htree.nodup, List.Subset.refl free, rfl⟩
  obtain ⟨left, hsim⟩ := heapSim_run h.first.start hrun'
  have hlisted : ¬v.freeListInitialized = false := by simp [hsim.inv.listed]
  have hconf := confines_heapRelation.run h.first.start hrun'
  obtain ⟨left', hleft, hcount⟩ :=
    surplus_heapRelation.run h.first.start hrun' free htree.list
  obtain rfl := hleft.unique hsim.inv.list
  obtain ⟨m, head, hbuilt⟩ := Mmu.exists_built_eq htree.first
  rw [hbuilt] at hcount
  rw [Mmu.built_of_listed hsim.inv.listed]
  exact ⟨fun hs => absurd hs hlisted, left', hleft, hsim.inv.nodup,
    fun f hf => htree.mem_of_owned (hconf.owned f (.inl ⟨left', hleft, hf⟩)), hcount⟩

/-- From boot on, along every run of the heap, `free_pages` is ahead of the frames that are free
by what it was after `MMU_init`, and the allocator is exhausted exactly when no more than that is
left of it. -/
theorem booted_free_pages {n : ℕ} (h : CleanBoot t s multibootInfo)
    (hinit : (t.enablePaging s).mmuInit multibootInfo = some u)
    (hn : (listedFrames u.memoryRegions).length = n) (hrun : Run HeapStepIn u tr v) :
    n ≤ u.freePages.toNat ∧
      (∃ left, v.built.FreeList left ∧ left.Nodup ∧ left ⊆ listedFrames u.memoryRegions ∧
        v.freePages.toNat = u.freePages.toNat - n + left.length) ∧
      (v.mmuPfAlloc.2 = 0 ↔ v.freePages.toNat = u.freePages.toNat - n) := by
  obtain ⟨lost, hboot⟩ := h.booted hinit
  have hle : n ≤ u.freePages.toNat := by
    rw [hboot.accounts.free, ← hn]
    exact (length_listedFrames_le _).trans (Nat.le_add_right _ _)
  obtain ⟨hfirst, left, hlist, hnodup, hsub, hcount⟩ :=
    (h.bootTree hinit).run_surplus (h.freshHeap hinit) hrun
  rw [List.length_reverse, hn] at hcount
  have hsub' : left ⊆ listedFrames u.memoryRegions := fun f hf => List.mem_reverse.1 (hsub hf)
  have hlen : left.length ≤ n := hn ▸ (List.subperm_of_subset hnodup hsub').length_le
  have hpages : v.freePages.toNat = u.freePages.toNat - n + left.length := by
    have hlt := u.freePages.isLt
    have hnat := congrArg BitVec.toNat hcount
    simp only [BitVec.toNat_add, BitVec.toNat_ofNat] at hnat
    omega
  refine ⟨hle, ⟨left, hlist, hnodup, hsub', hpages⟩, ?_⟩
  rw [Mmu.mmuPfAlloc_null_iff hfirst hlist, hpages, ← List.length_eq_zero_iff]
  omega

theorem booted_free_pages_eightPages :
    ∃ u, (BootTables.inRow.enablePaging eightPages).mmuInit 0x9000 = some u ∧
      (u.mmuAllocPage.1.mmuPfAlloc.2 = 0 ↔ u.mmuAllocPage.1.freePages.toNat = 0) := by
  obtain ⟨u, hinit, hregions, hfree⟩ := mmuInit_eightPages
  have hn : (listedFrames u.memoryRegions).length = 8 := by
    rw [hregions]
    decide
  have hbrk : InHeap u.mmuAllocPage.1.kernelBrk := by
    rw [Mmu.mmuAllocPage_kernelBrk, (cleanBoot_eightPages.freshHeap hinit).brk]
    decide
  have halloc : HeapStepIn u (.allocPage u.mmuAllocPage.2) u.mmuAllocPage.1 := ⟨.allocPage, hbrk⟩
  have hpages := (booted_free_pages cleanBoot_eightPages hinit hn (Run.nil.snoc halloc)).2.2
  rw [hfree] at hpages
  exact ⟨u, hinit, hpages⟩

end

end KernelDev
