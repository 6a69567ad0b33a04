import KernelDev.Heap

/-!
# What the frame allocator leaves alone

The frame allocator and `get_pte` neither read nor write `CR3` and `kernel_brk`. `kernel_brk` is
what the heap moves around such a call, before it in `MMU_alloc_page` and after it in
`MMU_alloc_pages`, so it has to be known that the call does the same in both places.

Each of their functions commutes with a change of the two (`reframe`), in every state : no
invariant is assumed, and the frames need not be in order. The lemmas follow the functions, from
the stores up to `get_pte` (`getPte_reframe`). That `CR3` and `kernel_brk` are kept is the case of
no change.
-/

namespace KernelDev

open ByteMem

namespace Mmu

/-- The state with other values of `CR3` and `kernel_brk`. -/
def reframe (s : Mmu) (c k : BitVec 64) : Mmu :=
  { s with cr3 := c, kernelBrk := k }

variable (s : Mmu) (c k : BitVec 64)

@[simp] theorem reframe_cr3 : (s.reframe c k).cr3 = c := rfl
@[simp] theorem reframe_kernelBrk : (s.reframe c k).kernelBrk = k := rfl
@[simp] theorem reframe_mem : (s.reframe c k).mem = s.mem := rfl
@[simp] theorem reframe_freePageHead : (s.reframe c k).freePageHead = s.freePageHead := rfl
@[simp] theorem reframe_freeListInitialized :
    (s.reframe c k).freeListInitialized = s.freeListInitialized := rfl
@[simp] theorem reframe_memoryRegions : (s.reframe c k).memoryRegions = s.memoryRegions := rfl

/-- `kernel_brk += PAGE_SIZE` is such a change. -/
theorem growBrk_eq_reframe : s.growBrk = s.reframe s.cr3 (s.kernelBrk + pageSize) := rfl

theorem store64_reframe (a : Addr) (v : BitVec 64) :
    (s.reframe c k).store64 a v = (s.store64 a v).reframe c k :=
  rfl

theorem addPageToFreeList_reframe (page : Addr) :
    (s.reframe c k).addPageToFreeList page = (s.addPageToFreeList page).reframe c k := by
  unfold addPageToFreeList
  rw [store64_reframe, reframe_freePageHead]
  rfl

theorem addPagesFrom_reframe (end_ : Addr) : ∀ (n : ℕ) (s : Mmu) (addr : Addr),
    (s.reframe c k).addPagesFrom addr end_ n = (s.addPagesFrom addr end_ n).reframe c k
  | 0, _, _ => rfl
  | n + 1, s, addr => by
    rw [addPagesFrom, addPagesFrom]
    split_ifs
    · rw [addPageToFreeList_reframe, addPagesFrom_reframe end_ n]
    · rfl

theorem addRegion_reframe (region : MemRegion) :
    (s.reframe c k).addRegion region = (s.addRegion region).reframe c k := by
  unfold addRegion
  split_ifs <;> simp only <;> split_ifs <;> first | rfl | exact addPagesFrom_reframe c k _ _ _ _

theorem initFreePageList_reframe :
    (s.reframe c k).initFreePageList = s.initFreePageList.reframe c k := by
  have hfold : ∀ (l : List MemRegion) (s : Mmu),
      l.foldl addRegion (s.reframe c k) = (l.foldl addRegion s).reframe c k := by
    intro l
    induction l with
    | nil => exact fun _ => rfl
    | cons region l ih =>
      intro s
      rw [List.foldl_cons, addRegion_reframe, ih, List.foldl_cons]
  unfold initFreePageList
  rw [reframe_freeListInitialized]
  split_ifs
  · rfl
  · exact hfold _ { s with freeListInitialized := true }

/-- `MMU_pf_alloc` does not read them. -/
theorem mmuPfAlloc_reframe :
    (s.reframe c k).mmuPfAlloc = (s.mmuPfAlloc.1.reframe c k, s.mmuPfAlloc.2) := by
  have hbuilt : (if !(s.reframe c k).freeListInitialized then (s.reframe c k).initFreePageList
      else s.reframe c k) =
        (if !s.freeListInitialized then s.initFreePageList else s).reframe c k := by
    rw [reframe_freeListInitialized, initFreePageList_reframe, apply_ite (fun t => reframe t c k)]
  unfold mmuPfAlloc
  rw [hbuilt]
  generalize (if !s.freeListInitialized then s.initFreePageList else s) = t
  by_cases hhead : t.freePageHead = 0
  · rw [if_pos hhead, if_pos (show (t.reframe c k).freePageHead = 0 from hhead)]
    rfl
  · rw [if_neg hhead, if_neg (show ¬(t.reframe c k).freePageHead = 0 from hhead)]
    simp only [clearPage_eq]
    rfl

/-- One level of `get_pte` does not read them. -/
theorem nextTable_reframe (entry : Addr) (create : Bool) (msg : String) :
    (s.reframe c k).nextTable entry create msg =
      ((s.nextTable entry create msg).1.reframe c k, (s.nextTable entry create msg).2) := by
  unfold nextTable
  simp only [reframe_mem, mmuPfAlloc_reframe]
  split_ifs with hpres hcreate hnull
  · rfl
  · rfl
  · simp only [clearPage_eq]
    rfl
  · rfl

/-- `get_pte` does not read them. -/
theorem getPte_reframe (pml4t : Addr) (vaddr : BitVec 64) (create : Bool) :
    (s.reframe c k).getPte pml4t vaddr create =
      ((s.getPte pml4t vaddr create).1.reframe c k, (s.getPte pml4t vaddr create).2) := by
  unfold getPte
  simp only [nextTable_reframe]
  rcases s.nextTable _ _ _ with ⟨s₁, _ | pdpt⟩
  · rfl
  simp only [nextTable_reframe]
  rcases s₁.nextTable _ _ _ with ⟨s₂, _ | pdt⟩
  · rfl
  simp only [nextTable_reframe]
  rcases s₂.nextTable _ _ _ with ⟨s₃, _ | pt⟩
  · rfl
  · rfl

/-! ## `CR3` and `kernel_brk` are kept -/

@[simp] theorem mmuPfAlloc_kernelBrk : s.mmuPfAlloc.1.kernelBrk = s.kernelBrk :=
  congrArg (·.1.kernelBrk) (mmuPfAlloc_reframe s s.cr3 s.kernelBrk)

/-- `get_pte` keeps `kernel_brk`. -/
theorem getPte_kernelBrk (pml4t : Addr) (vaddr : BitVec 64) (create : Bool) :
    (s.getPte pml4t vaddr create).1.kernelBrk = s.kernelBrk :=
  congrArg (·.1.kernelBrk) (getPte_reframe s s.cr3 s.kernelBrk pml4t vaddr create)

/-- `get_pte` keeps `CR3`. -/
theorem getPte_cr3 (pml4t : Addr) (vaddr : BitVec 64) (create : Bool) :
    (s.getPte pml4t vaddr create).1.cr3 = s.cr3 :=
  congrArg (·.1.cr3) (getPte_reframe s s.cr3 s.kernelBrk pml4t vaddr create)

end Mmu

end KernelDev
