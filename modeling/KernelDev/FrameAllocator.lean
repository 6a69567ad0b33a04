import KernelDev.Mmu
import KernelDev.Lib.Chain

/-!
# The frame allocator of `mmu.c`

`init_free_page_list`, `MMU_pf_alloc` and `MMU_pf_free`. The free list is intrusive : the first
word of a free frame is the address of the next one, and the static variable `free_page_head` is
the address of the first, or `NULL`. It is built at the first allocation, from the AVAILABLE
regions above 1 MiB; each page is pushed at the head, so the last page of the last region is handed
out first.

The list is memory that others may write, and whether it is a list at all has to be shown.
`FreeList` says so for a state, as a chain of the library : `free` is what is met by following the
links from the head. Taking the first frame and clearing it leaves the rest of the chain in place
(`FreeList.takeFrame`), since a frame is on it once; pushing a frame that is not on it makes a
chain again (`FreeList.giveFrame`).

`MMU_pf_alloc` takes the frame at the head (`mmuPfAlloc_cons`) or returns `NULL` for an empty list
(`mmuPfAlloc_nil`). `MMU_pf_free` refuses a null pointer and an address within a page, and believes
the caller otherwise.
-/

namespace KernelDev

open ByteMem

namespace Mmu

/-- `add_page_to_free_list` -/
def addPageToFreeList (s : Mmu) (page : Addr) : Mmu :=
  { s.store64 page s.freePageHead with freePageHead := page }

/-- The loop `for (addr = start; addr < end; addr += PAGE_SIZE)` of `init_free_page_list`,
for at most the given number of iterations. -/
def addPagesFrom (s : Mmu) (addr end_ : Addr) : ℕ → Mmu
  | 0 => s
  | n + 1 =>
    if addr < end_ then addPagesFrom (s.addPageToFreeList addr) (addr + pageSize) end_ n else s

/-- The loop body of `init_free_page_list` for one region. A region bound is a multiple of
the page size, so the inner loop runs once for each page. -/
def addRegion (s : Mmu) (region : MemRegion) : Mmu :=
  if region.type = multibootMemoryAvailable then
    let start := if region.start < 0x100000 then 0x100000 else region.start
    if start ≥ region.end_ then s
    else s.addPagesFrom start region.end_ ((region.end_ - start).toNat / 4096 + 1)
  else s

/-- `init_free_page_list` -/
def initFreePageList (s : Mmu) : Mmu :=
  if s.freeListInitialized then s
  else s.memoryRegions.foldl addRegion { s with freeListInitialized := true }

/-- `MMU_pf_alloc`, with `0` for `NULL`. -/
def mmuPfAlloc (s : Mmu) : Mmu × Addr :=
  let s := if !s.freeListInitialized then s.initFreePageList else s
  if s.freePageHead = 0 then
    (s.printk "ERROR: Out of memory, no free pages available\n" [], 0)
  else
    let page := s.freePageHead
    let s := { s with freePageHead := read64 s.mem page }
    let s := s.clearPage page
    ({ s with freePages := s.freePages - 1 }, page)

/-- `MMU_pf_free` -/
def mmuPfFree (s : Mmu) (pf : Addr) : Mmu :=
  if pf = 0 then s.printk "ERROR: Null page\n" []
  else if pf % pageSize ≠ 0 then
    s.printk "ERROR: Trying to free unaligned page: 0x%p\n" [.word pf]
  else
    let s := s.addPageToFreeList pf
    { s with freePages := s.freePages + 1 }

/-! ## One call on a built list -/

/-- The free list of a state : the chain of `free` from `free_page_head`. -/
def FreeList (s : Mmu) (free : List Addr) : Prop :=
  Chain (read64 s.mem) 0 s.freePageHead free

/-- The state after the frame `f` at the head is taken : the head is unlinked and cleared. -/
def takeFrame (s : Mmu) (f : Addr) : Mmu :=
  { s with
    freePageHead := read64 s.mem f
    mem := fill s.mem f 0 4096
    freePages := s.freePages - 1 }

/-- The state after the frame `f` is pushed. -/
def giveFrame (s : Mmu) (f : Addr) : Mmu :=
  { s with
    freePageHead := f
    mem := write64 s.mem f s.freePageHead
    freePages := s.freePages + 1 }

theorem giveFrame_mem (s : Mmu) (f : Addr) :
    (s.giveFrame f).mem = write64 s.mem f s.freePageHead := rfl

theorem giveFrame_freePageHead (s : Mmu) (f : Addr) : (s.giveFrame f).freePageHead = f := rfl

/-- With a null head nothing is handed out. -/
theorem mmuPfAlloc_null {s : Mmu} (hs : s.freeListInitialized = true) (hhead : s.freePageHead = 0) :
    s.mmuPfAlloc = (s.printk "ERROR: Out of memory, no free pages available\n" [], 0) := by
  simp [mmuPfAlloc, hs, hhead]

/-- The frame at the head is handed out. -/
theorem mmuPfAlloc_head {s : Mmu} (hs : s.freeListInitialized = true) (hne : s.freePageHead ≠ 0) :
    s.mmuPfAlloc = (s.takeFrame s.freePageHead, s.freePageHead) := by
  have hbuilt : (if !s.freeListInitialized then s.initFreePageList else s) = s := by simp [hs]
  unfold mmuPfAlloc
  simp only [hbuilt, if_neg hne, clearPage_eq]
  rfl

/-- An empty list gives nothing. -/
theorem mmuPfAlloc_nil {s : Mmu} (hs : s.freeListInitialized = true) (h : s.FreeList []) :
    s.mmuPfAlloc = (s.printk "ERROR: Out of memory, no free pages available\n" [], 0) :=
  mmuPfAlloc_null hs (h.eq_nil_iff.1 rfl)

/-- A list gives its first frame. -/
theorem mmuPfAlloc_cons {s : Mmu} {f : Addr} {l : List Addr} (hs : s.freeListInitialized = true)
    (h : s.FreeList (f :: l)) : s.mmuPfAlloc = (s.takeFrame f, f) := by
  obtain ⟨rfl, hne, -⟩ := Chain.cons_iff.1 h
  exact mmuPfAlloc_head hs hne

/-- A frame that is freed is pushed. -/
theorem mmuPfFree_frame (s : Mmu) {f : Addr} (hne : f ≠ 0) (hf : Aligned f) :
    s.mmuPfFree f = s.giveFrame f := by
  have hmod : f % pageSize = 0 := BitVec.eq_of_toNat_eq hf
  rw [mmuPfFree, if_neg hne, if_neg (not_not.2 hmod)]
  rfl

/-- Clearing the head frame leaves the rest of the list in place. -/
theorem FreeList.takeFrame {s : Mmu} {f : Addr} {l : List Addr} (h : s.FreeList (f :: l))
    (hal : ∀ g ∈ f :: l, Aligned g) (hnd : (f :: l).Nodup) : (s.takeFrame f).FreeList l := by
  obtain ⟨-, -, ht⟩ := Chain.cons_iff.1 h
  refine ht.congr fun g hg => ?_
  have hne : g ≠ f := by
    rintro rfl
    exact (List.nodup_cons.1 hnd).1 hg
  show read64 (fill s.mem f 0 4096) g = read64 s.mem g
  rw [read64_fill_page (hal f (by simp)) (hal g (by simp [hg])), if_neg hne]

/-- A frame that is not on the list is pushed onto it. -/
theorem chain_push {m : Mem} {head f : Addr} {l : List Addr} (h : Chain (read64 m) 0 head l)
    (hal : ∀ g ∈ l, Aligned g) (hf : Aligned f) (hne : f ≠ 0) (hfl : f ∉ l) :
    Chain (read64 (write64 m f head)) 0 f (f :: l) := by
  refine Chain.push h hne (read64_write64_self _ _ _) fun g hg => ?_
  have hgf : g ≠ f := by
    rintro rfl
    exact hfl hg
  rw [read64_write64_page hf (hal g hg), if_neg hgf]

/-- A frame that is given back is the first of the list. -/
theorem FreeList.giveFrame {s : Mmu} {f : Addr} {l : List Addr} (h : s.FreeList l)
    (hal : ∀ g ∈ l, Aligned g) (hf : Aligned f) (hne : f ≠ 0) (hfl : f ∉ l) :
    (s.giveFrame f).FreeList (f :: l) := by
  simp only [FreeList, Mmu.giveFrame]
  exact chain_push h hal hf hne hfl

end Mmu

end KernelDev
