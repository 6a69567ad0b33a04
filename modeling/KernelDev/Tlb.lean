import KernelDev.Heap
import KernelDev.Lib.Cache

/-!
# The TLB and the memory events of `mmu.c`

The TLB caches pairs of a page number and the entry the walk of the processor ends at, and may take
up such a pair between any two memory accesses, or drop one. So it matters in which order a call
stores and flushes, and what the tables say in between. The calls of `mmu.c` are cut into events,
one for each store and each `invlpg`, in program order : `memset` stores single bytes, the rest
words.

For each function of `mmu.c` there is the list of its events (`mmuPfAllocEvents`, `getPteEvents`
and so on), written like the function : with the same branches, and the state that each part starts
in. `Traces` ties the two together. The events of a call, one after the other, lead to the memory
that the function leaves, and the pages they flush are those that it flushes. It composes, so the
proof for a function follows its text and uses the lemmas of the functions it calls, down to the
byte stores of `memset` (`replay_memsetEvents`).

The other fields of the state have no part in this (`Traces.congr`). What holds of the TLB between
two events is the matter of `HeapTlb`.
-/

namespace KernelDev

open ByteMem

/-- A store or an `invlpg`. -/
inductive MemEvent where
  | byte (a : Addr) (b : BitVec 8)
  | word (a : Addr) (v : BitVec 64)
  | invlpg (a : Addr)

namespace MemEvent

/-- Memory after an event. -/
def run : MemEvent → Mem → Mem
  | byte a b, m => Function.update m a b
  | word a v, m => write64 m a v
  | invlpg _, m => m

/-- The address an `invlpg` is for. -/
def flushed : MemEvent → Option Addr
  | invlpg a => some a
  | _ => none

/-- The pages whose entries the TLB drops. -/
def flush (e : MemEvent) : Set ℕ :=
  {p | ∃ a, e.flushed = some a ∧ pageOf a = p}

end MemEvent

/-- The entry the processor finds for a page. -/
def tlbWalk (cr3 : BitVec 64) (m : Mem) (page : ℕ) : Option (BitVec 64) :=
  hwPte m cr3 (BitVec.ofNat 64 (4096 * page))

/-! ## The events of the functions -/

/-- The stores of `memset`. -/
def memsetEvents (dst : Addr) (c : BitVec 8) : ℕ → List MemEvent
  | 0 => []
  | n + 1 => .byte dst c :: memsetEvents (dst + 1) c n

namespace Mmu

/-- `add_page_to_free_list` -/
def addPageToFreeListEvents (s : Mmu) (page : Addr) : List MemEvent :=
  [.word page s.freePageHead]

/-- The inner loop of `init_free_page_list`. -/
def addPagesFromEvents (s : Mmu) (addr end_ : Addr) : ℕ → List MemEvent
  | 0 => []
  | n + 1 =>
    if addr < end_ then
      s.addPageToFreeListEvents addr ++
        (s.addPageToFreeList addr).addPagesFromEvents (addr + pageSize) end_ n
    else []

/-- The loop body of `init_free_page_list` for one region. -/
def addRegionEvents (s : Mmu) (region : MemRegion) : List MemEvent :=
  if region.type = multibootMemoryAvailable then
    let start := if region.start < 0x100000 then 0x100000 else region.start
    if start ≥ region.end_ then []
    else s.addPagesFromEvents start region.end_ ((region.end_ - start).toNat / 4096 + 1)
  else []

/-- The outer loop of `init_free_page_list`. -/
def addRegionsEvents (s : Mmu) : List MemRegion → List MemEvent
  | [] => []
  | region :: regions => s.addRegionEvents region ++ (s.addRegion region).addRegionsEvents regions

/-- `init_free_page_list` -/
def initFreePageListEvents (s : Mmu) : List MemEvent :=
  if s.freeListInitialized then []
  else { s with freeListInitialized := true }.addRegionsEvents s.memoryRegions

/-- The free list as `MMU_pf_alloc` finds it : built, if it was not yet. -/
def built (s : Mmu) : Mmu :=
  if !s.freeListInitialized then s.initFreePageList else s

/-- The events that build it. -/
def builtEvents (s : Mmu) : List MemEvent :=
  if !s.freeListInitialized then s.initFreePageListEvents else []

/-- `MMU_pf_alloc` -/
def mmuPfAllocEvents (s : Mmu) : List MemEvent :=
  s.builtEvents ++
    if s.built.freePageHead = 0 then [] else memsetEvents s.built.freePageHead 0 pageSize.toNat

/-- `MMU_pf_free` -/
def mmuPfFreeEvents (s : Mmu) (pf : Addr) : List MemEvent :=
  if pf = 0 then []
  else if pf % pageSize ≠ 0 then []
  else s.addPageToFreeListEvents pf

/-- One level of `get_pte`. -/
def nextTableEvents (s : Mmu) (entry : Addr) (create : Bool) : List MemEvent :=
  if read64 s.mem entry &&& ptePresent = 0 then
    if !create then []
    else
      let newTable := s.mmuPfAlloc.2
      s.mmuPfAllocEvents ++
        if newTable = 0 then []
        else memsetEvents newTable 0 pageSize.toNat ++
          [.word entry ((newTable &&& pageMask) ||| ptePresent ||| pteWritable)]
  else []

/-- `get_pte` -/
def getPteEvents (s : Mmu) (pml4t : Addr) (vaddr : BitVec 64) (create : Bool) : List MemEvent :=
  let ix := getPageIndices vaddr
  let step₁ := s.nextTable (entryAt pml4t ix.pml4Idx) create "Failed to allocate PDPT\n"
  s.nextTableEvents (entryAt pml4t ix.pml4Idx) create ++
  step₁.2.elim [] fun pdpt =>
    let step₂ := step₁.1.nextTable (entryAt pdpt ix.pdptIdx) create "Failed to allocate PD\n"
    step₁.1.nextTableEvents (entryAt pdpt ix.pdptIdx) create ++
    step₂.2.elim [] fun pdt => step₂.1.nextTableEvents (entryAt pdt ix.pdIdx) create

/-- `MMU_alloc_page` -/
def mmuAllocPageEvents (s : Mmu) : List MemEvent :=
  let r := s.growBrk.getPte s.growBrk.pml4t s.kernelBrk true
  s.growBrk.getPteEvents s.growBrk.pml4t s.kernelBrk true ++
    if r.2 = 0 then [] else [.word r.2 (pteDemandPaging ||| pteWritable)]

/-- `MMU_free_page` -/
def mmuFreePageEvents (s : Mmu) (vaddr : Addr) : List MemEvent :=
  let r := s.getPte s.pml4t vaddr false
  s.getPteEvents s.pml4t vaddr false ++
    if r.2 = 0 then []
    else
      (if read64 r.1.mem r.2 &&& ptePresent ≠ 0 then
        r.1.mmuPfFreeEvents (read64 r.1.mem r.2 &&& pageMask)
      else []) ++ [.word r.2 0, .invlpg vaddr]

/-- The loop of `MMU_free_pages`. -/
def freePagesFromEvents (s : Mmu) (pages : BitVec 32 → Addr) (i : BitVec 32) :
    ℕ → List MemEvent
  | 0 => []
  | n + 1 => s.mmuFreePageEvents (pages i) ++
      (s.mmuFreePage (pages i)).freePagesFromEvents pages (i + 1) n

/-- `MMU_free_pages` -/
def mmuFreePagesEvents (s : Mmu) (vaddr : Addr) (num : BitVec 32) : List MemEvent :=
  s.freePagesFromEvents (s.pageAt vaddr) 0 num.toInt.toNat

/-- The loop of `MMU_alloc_pages`. -/
def allocPagesFromEvents (s : Mmu) (pml4t startAddr : Addr) (i : BitVec 32) : ℕ → List MemEvent
  | 0 => []
  | n + 1 =>
    let r := s.getPte pml4t s.kernelBrk true
    s.getPteEvents pml4t s.kernelBrk true ++
      if r.2 = 0 then r.1.mmuFreePagesEvents startAddr i
      else
        .word r.2 (pteDemandPaging ||| pteWritable) ::
          (r.1.store64 r.2 (pteDemandPaging ||| pteWritable)).growBrk.allocPagesFromEvents pml4t
            startAddr (i + 1) n

/-- `MMU_alloc_pages` -/
def mmuAllocPagesEvents (s : Mmu) (num : BitVec 32) : List MemEvent :=
  if num.sle 0 then []
  else s.allocPagesFromEvents s.pml4t s.kernelBrk 0 num.toInt.toNat

/-- `page_fault_handler` -/
def pageFaultHandlerEvents (s : Mmu) (faultAddress : Addr) : List MemEvent :=
  let r := s.getPte s.pml4t faultAddress false
  s.getPteEvents s.pml4t faultAddress false ++
    if r.2 ≠ 0 ∧ read64 r.1.mem r.2 &&& pteDemandPaging ≠ 0 then
      let pageFrame := r.1.mmuPfAlloc.2
      r.1.mmuPfAllocEvents ++
        if pageFrame = 0 then []
        else
          memsetEvents pageFrame 0 pageSize.toNat ++
            [.word r.2 ((pageFrame &&& pageMask) |||
              (read64 (r.1.mmuPfAlloc.1.clearPage pageFrame).mem r.2 &&& ~~~pteDemandPaging) |||
                ptePresent), .invlpg faultAddress]
    else []

end Mmu

/-! ## The events lead where the functions lead -/

/-- The events store what leads from `s` to `s'`, and flush what is flushed on the way. -/
structure Traces (s : Mmu) (es : List MemEvent) (s' : Mmu) : Prop where
  mem : Cache.replay MemEvent.run s.mem es = s'.mem
  /-- What is flushed comes behind what was flushed before. -/
  invlpgs : s'.invlpgs = s.invlpgs ++ es.filterMap MemEvent.flushed

namespace Traces

variable {s t u : Mmu} {es es' : List MemEvent}

theorem refl (s : Mmu) : Traces s [] s :=
  ⟨rfl, (List.append_nil _).symm⟩

theorem trans (h : Traces s es t) (h' : Traces t es' u) : Traces s (es ++ es') u := by
  refine ⟨?_, ?_⟩
  · rw [Cache.replay_append, h.mem, h'.mem]
  · rw [h'.invlpgs, h.invlpgs, List.filterMap_append, List.append_assoc]

/-- The other fields of the states are free. -/
theorem congr (h : Traces s es t) {s' t' : Mmu} (hs : s'.mem = s.mem)
    (hsi : s'.invlpgs = s.invlpgs) (ht : t'.mem = t.mem) (hti : t'.invlpgs = t.invlpgs) :
    Traces s' es t' :=
  ⟨by rw [hs, ht, h.mem], by rw [hsi, hti, h.invlpgs]⟩

theorem store64 (s : Mmu) (a : Addr) (v : BitVec 64) : Traces s [.word a v] (s.store64 a v) :=
  ⟨rfl, (List.append_nil _).symm⟩

theorem invlpg (s : Mmu) (a : Addr) : Traces s [.invlpg a] (s.invlpg a) :=
  ⟨rfl, rfl⟩

theorem addPageToFreeList (s : Mmu) (page : Addr) :
    Traces s (s.addPageToFreeListEvents page) (s.addPageToFreeList page) :=
  (store64 s page s.freePageHead).congr rfl rfl rfl rfl

end Traces

/-- The byte stores of `memset` fill the range. -/
theorem replay_memsetEvents (c : BitVec 8) : ∀ (n : ℕ) (dst : Addr) (m : Mem),
    Cache.replay MemEvent.run m (memsetEvents dst c n) = memset m dst c n
  | 0, _, _ => by rw [memset]; rfl
  | n + 1, dst, m => by
    rw [memset, ← replay_memsetEvents c n]
    rfl

theorem flushed_memsetEvents (c : BitVec 8) : ∀ (n : ℕ) (dst : Addr),
    (memsetEvents dst c n).filterMap MemEvent.flushed = []
  | 0, _ => rfl
  | n + 1, dst => flushed_memsetEvents c n (dst + 1)

theorem Traces.clearPage (s : Mmu) (page : Addr) :
    Traces s (memsetEvents page 0 pageSize.toNat) (s.clearPage page) :=
  ⟨replay_memsetEvents _ _ _ _, by rw [flushed_memsetEvents, List.append_nil, Mmu.clearPage]⟩

namespace Mmu

theorem traces_addPagesFrom (end_ : Addr) : ∀ (n : ℕ) (s : Mmu) (addr : Addr),
    Traces s (s.addPagesFromEvents addr end_ n) (s.addPagesFrom addr end_ n)
  | 0, s, _ => .refl s
  | n + 1, s, addr => by
    rw [addPagesFromEvents, addPagesFrom]
    split_ifs
    · exact (Traces.addPageToFreeList s addr).trans (traces_addPagesFrom end_ n _ _)
    · exact .refl s

theorem traces_addRegion (s : Mmu) (region : MemRegion) :
    Traces s (s.addRegionEvents region) (s.addRegion region) := by
  unfold addRegionEvents addRegion
  simp only
  split_ifs
  all_goals first | exact .refl s | exact traces_addPagesFrom _ _ _ _

theorem traces_addRegions : ∀ (regions : List MemRegion) (s : Mmu),
    Traces s (s.addRegionsEvents regions) (regions.foldl addRegion s)
  | [], s => .refl s
  | region :: regions, s => (traces_addRegion s region).trans (traces_addRegions regions _)

theorem traces_initFreePageList (s : Mmu) :
    Traces s s.initFreePageListEvents s.initFreePageList := by
  unfold initFreePageListEvents initFreePageList
  split_ifs
  · exact .refl s
  · exact (traces_addRegions s.memoryRegions _).congr rfl rfl rfl rfl

theorem traces_built (s : Mmu) : Traces s s.builtEvents s.built := by
  unfold builtEvents built
  split_ifs
  · exact traces_initFreePageList s
  · exact .refl s

/-- The events of `MMU_pf_alloc`. -/
theorem traces_mmuPfAlloc (s : Mmu) : Traces s s.mmuPfAllocEvents s.mmuPfAlloc.1 := by
  have hbuilt := traces_built s
  unfold mmuPfAllocEvents mmuPfAlloc
  rw [show (if !s.freeListInitialized then s.initFreePageList else s) = s.built from rfl]
  simp only
  split_ifs
  · exact (hbuilt.trans (.refl _)).congr rfl rfl rfl rfl
  · exact (hbuilt.trans (Traces.clearPage _ _)).congr rfl rfl rfl rfl

theorem traces_mmuPfFree (s : Mmu) (pf : Addr) :
    Traces s (s.mmuPfFreeEvents pf) (s.mmuPfFree pf) := by
  unfold mmuPfFreeEvents mmuPfFree
  split_ifs
  · exact (Traces.refl s).congr rfl rfl rfl rfl
  · exact (Traces.refl s).congr rfl rfl rfl rfl
  · exact (Traces.addPageToFreeList s pf).congr rfl rfl rfl rfl

/-- The events of one level. -/
theorem traces_nextTable (s : Mmu) (entry : Addr) (create : Bool) (msg : String) :
    Traces s (s.nextTableEvents entry create) (s.nextTable entry create msg).1 := by
  have halloc := traces_mmuPfAlloc s
  unfold nextTableEvents nextTable
  generalize s.mmuPfAlloc = r at halloc ⊢
  obtain ⟨t, newTable⟩ := r
  simp only
  split_ifs
  · exact .refl s
  · exact (halloc.trans (.refl t)).congr rfl rfl rfl rfl
  · exact halloc.trans ((Traces.clearPage t newTable).trans (Traces.store64 _ _ _))
  · exact .refl s

/-- The events of `get_pte`. -/
theorem traces_getPte (s : Mmu) (pml4t : Addr) (vaddr : BitVec 64) (create : Bool) :
    Traces s (s.getPteEvents pml4t vaddr create) (s.getPte pml4t vaddr create).1 := by
  unfold getPteEvents getPte
  generalize getPageIndices vaddr = ix
  simp only
  have h₁ := traces_nextTable s (entryAt pml4t ix.pml4Idx) create "Failed to allocate PDPT\n"
  generalize s.nextTable (entryAt pml4t ix.pml4Idx) create "Failed to allocate PDPT\n" = r₁ at h₁ ⊢
  obtain ⟨s₁, _ | pdpt⟩ := r₁
  · exact h₁.trans (.refl s₁)
  refine h₁.trans ?_
  simp only [Option.elim_some]
  have h₂ := traces_nextTable s₁ (entryAt pdpt ix.pdptIdx) create "Failed to allocate PD\n"
  generalize s₁.nextTable (entryAt pdpt ix.pdptIdx) create "Failed to allocate PD\n" = r₂ at h₂ ⊢
  obtain ⟨s₂, _ | pdt⟩ := r₂
  · exact h₂.trans (.refl s₂)
  refine h₂.trans ?_
  simp only [Option.elim_some]
  have h₃ := traces_nextTable s₂ (entryAt pdt ix.pdIdx) create "Failed to allocate PT\n"
  generalize s₂.nextTable (entryAt pdt ix.pdIdx) create "Failed to allocate PT\n" = r₃ at h₃ ⊢
  obtain ⟨s₃, _ | pt⟩ := r₃
  · exact h₃
  · exact h₃

theorem traces_growBrk (s : Mmu) : Traces s [] s.growBrk := by
  rw [growBrk]
  exact ⟨rfl, (List.append_nil _).symm⟩

theorem traces_mmuAllocPage (s : Mmu) : Traces s s.mmuAllocPageEvents s.mmuAllocPage.1 := by
  have hpte := (traces_growBrk s).trans (traces_getPte s.growBrk s.growBrk.pml4t s.kernelBrk true)
  unfold mmuAllocPageEvents mmuAllocPage
  simp only
  generalize s.growBrk.getPte s.growBrk.pml4t s.kernelBrk true = r at hpte ⊢
  refine hpte.trans ?_
  split_ifs
  · exact (Traces.refl r.1).congr rfl rfl rfl rfl
  · exact Traces.store64 _ _ _

/-- The events of `MMU_free_page`. -/
theorem traces_mmuFreePage (s : Mmu) (vaddr : Addr) :
    Traces s (s.mmuFreePageEvents vaddr) (s.mmuFreePage vaddr) := by
  have hpte := traces_getPte s s.pml4t vaddr false
  unfold mmuFreePageEvents mmuFreePage
  simp only
  generalize s.getPte s.pml4t vaddr false = r at hpte ⊢
  have hstore (t : Mmu) : Traces t [.word r.2 0, .invlpg vaddr] ((t.store64 r.2 0).invlpg vaddr) :=
    (Traces.store64 t r.2 0).trans (Traces.invlpg _ vaddr)
  refine hpte.trans ?_
  split_ifs
  · exact .refl r.1
  · exact (traces_mmuPfFree r.1 _).trans (hstore _)
  · exact hstore r.1

theorem traces_freePagesFrom (pages : BitVec 32 → Addr) : ∀ (n : ℕ) (s : Mmu) (i : BitVec 32),
    Traces s (s.freePagesFromEvents pages i n) (s.freePagesFrom pages i n)
  | 0, s, _ => .refl s
  | n + 1, s, i =>
    (traces_mmuFreePage s (pages i)).trans (traces_freePagesFrom pages n _ _)

theorem traces_mmuFreePages (s : Mmu) (vaddr : Addr) (num : BitVec 32) :
    Traces s (s.mmuFreePagesEvents vaddr num) (s.mmuFreePages vaddr num) :=
  traces_freePagesFrom (s.pageAt vaddr) _ s 0

/-- The events of the loop of `MMU_alloc_pages`, with those of its failure. -/
theorem traces_allocPagesFrom (pml4t startAddr : Addr) : ∀ (n : ℕ) (s : Mmu) (i : BitVec 32),
    Traces s (s.allocPagesFromEvents pml4t startAddr i n)
      (s.allocPagesFrom pml4t startAddr i n).1
  | 0, s, _ => .refl s
  | n + 1, s, i => by
    have hpte := traces_getPte s pml4t s.kernelBrk true
    unfold allocPagesFromEvents allocPagesFrom
    simp only
    generalize s.getPte pml4t s.kernelBrk true = r at hpte ⊢
    refine hpte.trans ?_
    split_ifs
    · exact traces_mmuFreePages r.1 startAddr i
    · have hstore : Traces r.1 [.word r.2 (pteDemandPaging ||| pteWritable)]
          (r.1.store64 r.2 (pteDemandPaging ||| pteWritable)).growBrk :=
        (Traces.store64 r.1 _ _).congr rfl rfl rfl rfl
      exact hstore.trans (traces_allocPagesFrom pml4t startAddr n _ (i + 1))

theorem traces_mmuAllocPages (s : Mmu) (num : BitVec 32) :
    Traces s (s.mmuAllocPagesEvents num) (s.mmuAllocPages num).1 := by
  unfold mmuAllocPagesEvents mmuAllocPages
  split_ifs
  · exact .refl s
  · exact traces_allocPagesFrom _ _ _ s 0

end Mmu

end KernelDev
