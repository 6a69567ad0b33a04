import KernelDev.HeapAccess
import KernelDev.Lib.Run
import Mathlib.Data.List.Nodup

/-!
# Runs of the heap

From a table tree whose heap is unmapped and a list of free frames outside it (`HeapStart`), every
sequence of allocations, frees, page faults and accesses keeps the heap invariant. The operations
are any calls at heap addresses, with at most 524288 pages, so that no offset overflows; they may
fail at any level, and a page fault may halt. `kernel_brk` has to stay in the heap, which the code
does not see to.

No frame is lost or shared. `tablePaths` and `leafPaths` are the ways in which a frame is used : by
a path that reaches it as a table below the root, or by a heap page whose entry maps it.
`InOnePlace` says that a frame is on the free list once, or linked once as a table, or mapped by
one heap page, and that it is only one of these. Each operation conserves the frames
(`conserves_step`), so this holds after every run (`heap_frames_in_one_place`). In the invariant it
comes from the uniqueness of paths and from the free frames being outside of the tree
(`HeapInv.inOnePlace`).

`bareHeap` is a start with an empty top-level table and four free frames.
-/

namespace KernelDev

open ByteMem PathTree

/-- Where the runs start : the tables are distinct frames, the heap is unmapped, and the
free frames are distinct pages of physical memory outside the tables. -/
structure HeapStart (s : Mmu) (free : List Addr) : Prop where
  listed : s.freeListInitialized = true
  list : s.FreeList free
  nodup : free.Nodup
  frames : ∀ f ∈ free, IsFrame f
  root : s.pml4t.toNat < 2 ^ 52
  tables : UniquePaths (childOf s.mem) s.pml4t {p | p.length ≤ 3}
  /-- No free frame is a table. -/
  outside : ∀ f ∈ free, ¬Reached (childOf s.mem) s.pml4t {p | p.length ≤ 3} f
  links : HeapLinks s.mem s.pml4t
  /-- No heap page is in use. -/
  unmapped : ∀ v, InHeap v → Unmapped (leafEntry s.mem s.pml4t v)
  brkAligned : Aligned s.kernelBrk
  brkInHeap : InHeap s.kernelBrk

theorem node_pathOf_eq_none {m : Mem} {r : Addr} {v : BitVec 64}
    (h : leafEntry m r v &&& ptePresent = 0) : node m r (pathOf v) = none := by
  cases hpt : node m r (tablePath v) with
  | none => exact walk_cons_of_none hpt _
  | some pt =>
    rw [leafEntry_of_node hpt] at h
    exact (walk_cons_of_some hpt _).trans (childOf_eq_none h)

/-- At the start the paths of the tree reach tables only. -/
theorem HeapStart.length_le {s : Mmu} {free : List Addr} (h : HeapStart s free) {p : List Index}
    {t : Addr} (hp : p ∈ treePaths) (ht : node s.mem s.pml4t p = some t) : p.length ≤ 3 := by
  rcases hp with hp | ⟨v, hv, rfl⟩
  · exact hp
  · rw [node_pathOf_eq_none (h.unmapped v hv).1] at ht
    cases ht

theorem HeapStart.inv {s : Mmu} {free : List Addr} (h : HeapStart s free) : HeapInv s free where
  listed := h.listed
  list := h.list
  nodup := h.nodup
  frames := h.frames
  unique := fun p hp q hq t htp htq =>
    h.tables p (h.length_le hp htp) q (h.length_le hq htq) t htp htq
  fresh := fun f hf ⟨p, hp, ht⟩ => h.outside f hf ⟨p, h.length_le hp ht, ht⟩
  links := h.links
  leaf := fun v hv => Or.inl (h.unmapped v hv)
  brkAligned := h.brkAligned
  unused := fun v hv _ => h.unmapped v hv
  null := fun v hv _ => h.unmapped v hv

/-- An empty top-level table at `0x1000`, and four free frames after it. -/
def bareHeap : Mmu where
  mem := write64 (write64 (write64 (fun _ => 0) 0x4000 0x5000) 0x3000 0x4000) 0x2000 0x3000
  overflowPage := fun _ _ => 0
  cr3 := 0x1000
  memoryRegions := [⟨0, 0x6000, multibootMemoryAvailable⟩]
  freePageHead := 0x2000
  totalMemory := 0x6000
  totalPages := 6
  freePages := 4
  reservedPages := 2
  freeListInitialized := true
  kernelBrk := kernelHeapAdr
  invlpgs := []
  console := []

/-- The words of the tables and the free frames. -/
theorem word_bareHeap {g : Addr} (hg : Aligned g) (j : Index) :
    word bareHeap.mem g j = if g = 0x2000 ∧ j = 0 then 0x3000 else if g = 0x3000 ∧ j = 0 then 0x4000
      else if g = 0x4000 ∧ j = 0 then 0x5000 else 0 := by
  have hzero : word (fun _ => 0) g j = 0 := read64_eq_zero fun _ _ => rfl
  have hmem : bareHeap.mem = write64 (write64 (write64 (fun _ => 0) (slot 0x4000 0) 0x5000)
      (slot 0x3000 0) 0x4000) (slot 0x2000 0) 0x3000 := by
    rw [slot_zero, slot_zero, slot_zero, bareHeap]
  rw [hmem, word_write64_slot (by decide) hg, word_write64_slot (by decide) hg,
    word_write64_slot (by decide) hg, hzero]

theorem word_bareHeap_root (i : Index) : word bareHeap.mem bareHeap.pml4t i = 0 := by
  have hroot : bareHeap.pml4t = 0x1000 := by decide
  rw [word_bareHeap (aligned_pml4t bareHeap), hroot]
  simp

theorem node_bareHeap : ∀ p : List Index, p ≠ [] → node bareHeap.mem bareHeap.pml4t p = none
  | [], h => absurd rfl h
  | [i], _ => by
    refine (walk_cons_of_some walk_nil i).trans (childOf_eq_none ?_)
    rw [word_bareHeap_root]
    rfl
  | i :: j :: p, _ => walk_cons_of_none (node_bareHeap (j :: p) (by simp)) i

theorem read64_bareHeap {g : Addr} (hg : Aligned g) :
    read64 bareHeap.mem g = if g = 0x2000 then 0x3000 else if g = 0x3000 then 0x4000
      else if g = 0x4000 then 0x5000 else 0 := by
  rw [read64_eq_word, word_bareHeap hg]
  simp

theorem heapStart_bareHeap : HeapStart bareHeap [0x2000, 0x3000, 0x4000, 0x5000] := by
  have hpath : ∀ p t, node bareHeap.mem bareHeap.pml4t p = some t → p = [] := by
    rintro (_ | ⟨i, p⟩) t ht
    · rfl
    · rw [node_bareHeap _ (by simp)] at ht
      cases ht
  refine ⟨rfl, ?_, by decide, ?_, by decide, ?_, ?_, ?_, fun v _ => ?_, by decide, by decide⟩
  · refine .cons (by decide) ?_
    rw [show bareHeap.freePageHead = 0x2000 from rfl, read64_bareHeap (by decide)]
    refine .cons (by decide) ?_
    rw [if_pos rfl, read64_bareHeap (by decide)]
    refine .cons (by decide) ?_
    rw [if_neg (by decide), if_pos rfl, read64_bareHeap (by decide)]
    refine .cons (by decide) ?_
    rw [if_neg (by decide), if_neg (by decide), if_pos rfl, read64_bareHeap (by decide)]
    exact .nil
  · intro f hf
    rcases List.mem_cons.1 hf with rfl | hf
    · exact ⟨by decide, by decide, by decide⟩
    rcases List.mem_cons.1 hf with rfl | hf
    · exact ⟨by decide, by decide, by decide⟩
    rcases List.mem_cons.1 hf with rfl | hf
    · exact ⟨by decide, by decide, by decide⟩
    obtain rfl := List.mem_singleton.1 hf
    exact ⟨by decide, by decide, by decide⟩
  · intro p _ q _ t hp hq
    rw [hpath p t hp, hpath q t hq]
  · rintro f hf ⟨p, -, ht⟩
    obtain rfl := hpath p f ht
    have hroot : bareHeap.pml4t = f := Option.some.inj ht
    rw [← hroot] at hf
    exact absurd hf (by decide)
  · intro i p t _ ht hpres
    obtain rfl := hpath p t ht
    obtain rfl := Option.some.inj ht
    rw [word_bareHeap_root] at hpres
    exact absurd (by decide) hpres
  · rw [leafEntry_of_none (node_bareHeap _ (by simp [tablePath]))]
    decide

/-- An allocation leaves `kernel_brk` in the heap. -/
theorem mmuAllocPage_brk_bareHeap : InHeap bareHeap.mmuAllocPage.1.kernelBrk := by
  rw [Mmu.mmuAllocPage_kernelBrk]
  decide

/-! ## Where a frame is -/

/-- The paths below the root that reach `f` as a page table. -/
def tablePaths (s : Mmu) (f : Addr) : Set (List Index) :=
  {p | p ≠ [] ∧ p.length ≤ 3 ∧ node s.mem s.pml4t p = some f}

/-- The paths of the heap pages whose present last-level entry maps `f`. -/
def leafPaths (s : Mmu) (f : Addr) : Set (List Index) :=
  {p | ∃ v, InHeap v ∧ p = pathOf v ∧ leafEntry s.mem s.pml4t v &&& ptePresent ≠ 0 ∧
    leafEntry s.mem s.pml4t v &&& pageMask = f}

/-- `f` is on the free list once, or linked once as a table, or mapped once, and only one of
these. -/
def InOnePlace (s : Mmu) (free : List Addr) (f : Addr) : Prop :=
  free.count f = 1 ∧ tablePaths s f = ∅ ∧ leafPaths s f = ∅ ∨
  free.count f = 0 ∧ (∃ p, tablePaths s f = {p}) ∧ leafPaths s f = ∅ ∨
  free.count f = 0 ∧ tablePaths s f = ∅ ∧ ∃ p, leafPaths s f = {p}

/-! ## Operations -/

/-- The operations on the heap. -/
inductive HeapOp where
  | allocPage
  | allocPages (num : BitVec 32)
  | freePage (vaddr : Addr)
  | freePages (vaddr : Addr) (num : BitVec 32)
  | fault (frame : FaultFrame) (vaddr : Addr)

/-- What an operation is called with : heap addresses, and at most 524288 pages. -/
def HeapOp.Valid : HeapOp → Prop
  | .allocPage => True
  | .allocPages num => num.toInt.toNat ≤ 524288
  | .freePage vaddr => InHeap vaddr
  | .freePages vaddr num => num.toInt.toNat ≤ 524288 ∧ HeapPages vaddr num.toInt.toNat
  | .fault _ vaddr => InHeap vaddr

/-- The state an operation leaves. -/
def HeapOp.run (s : Mmu) : HeapOp → Mmu
  | .allocPage => s.mmuAllocPage.1
  | .allocPages num => (s.mmuAllocPages num).1
  | .freePage vaddr => s.mmuFreePage vaddr
  | .freePages vaddr num => s.mmuFreePages vaddr num
  | .fault frame vaddr => (s.pageFaultHandler frame vaddr).state

/-- One operation that leaves `kernel_brk` in the heap. -/
def HeapOpStep (s : Mmu) (op : HeapOp) (s' : Mmu) : Prop :=
  op.Valid ∧ s' = op.run s ∧ InHeap s'.kernelBrk

/-- Every operation keeps the invariant and every frame. -/
theorem conserves_step {s s' : Mmu} {free : List Addr} {op : HeapOp} (h : HeapInv s free)
    (hb : InHeap s.kernelBrk) (hstep : HeapOpStep s op s') :
    ∃ free', Conserves s free s' free' := by
  obtain ⟨hvalid, rfl, hend⟩ := hstep
  cases op with
  | allocPage =>
    obtain ⟨free', hc, -⟩ := mmuAllocPage_spec h hb
    exact ⟨free', hc⟩
  | allocPages num =>
    obtain ⟨free', hc, -⟩ := mmuAllocPages_spec h hb hvalid hend
    exact ⟨free', hc⟩
  | freePage vaddr =>
    obtain ⟨free', hc, -⟩ := mmuFreePage_spec h hvalid
    exact ⟨free', hc⟩
  | freePages vaddr num =>
    obtain ⟨free', hc, -⟩ := mmuFreePages_spec h _ hvalid.1 hvalid.2
    exact ⟨free', hc⟩
  | fault frame vaddr =>
    obtain ⟨free', hc, -⟩ := pageFaultHandler_spec h frame hvalid
    exact ⟨free', hc⟩

/-- Every run keeps the invariant and every frame. -/
theorem conserves_run {s₀ s : Mmu} {free₀ : List Addr} {ops : List HeapOp} (h : HeapStart s₀ free₀)
    (hrun : Run HeapOpStep s₀ ops s) :
    InHeap s.kernelBrk ∧ ∃ free, Conserves s₀ free₀ s free := by
  refine Run.invariant (fun _ s => InHeap s.kernelBrk ∧ ∃ free, Conserves s₀ free₀ s free)
    ⟨h.brkInHeap, free₀, .refl h.inv⟩ ?_ hrun
  rintro _ t op u - ⟨hb, free, hc⟩ hstep
  obtain ⟨free', hc'⟩ := conserves_step hc.inv hb hstep
  exact ⟨hstep.2.2, free', hc.trans hc'⟩

/-- A path is in `leafPaths` exactly if it is a heap path that reaches the frame. -/
theorem mem_leafPaths_iff {s : Mmu} {free : List Addr} (h : HeapInv s free) {f : Addr}
    {p : List Index} :
    p ∈ leafPaths s f ↔ (∃ v, InHeap v ∧ p = pathOf v) ∧ node s.mem s.pml4t p = some f := by
  refine ⟨?_, ?_⟩
  · rintro ⟨v, hv, rfl, hpres, hmask⟩
    obtain ⟨g, hg, he⟩ := h.mapped hv hpres
    rw [he, mappedEntry_pageMask hg.aligned] at hmask
    subst hmask
    exact ⟨⟨v, hv, rfl⟩, node_of_leafEntry hg.aligned he⟩
  · rintro ⟨⟨v, hv, rfl⟩, ht⟩
    have hpres : leafEntry s.mem s.pml4t v &&& ptePresent ≠ 0 := by
      intro hz
      rw [node_pathOf_eq_none hz] at ht
      cases ht
    obtain ⟨g, hg, he⟩ := h.mapped hv hpres
    rw [node_of_leafEntry hg.aligned he, Option.some.injEq] at ht
    refine ⟨v, hv, rfl, hpres, ?_⟩
    rw [he, mappedEntry_pageMask hg.aligned, ht]

/-- A frame other than the root that is free or in the tree is in one place. -/
theorem HeapInv.inOnePlace {s : Mmu} {free : List Addr} (h : HeapInv s free) {f : Addr}
    (hroot : f ≠ s.pml4t) (hf : Placed s free f) : InOnePlace s free f := by
  have hleaf := @mem_leafPaths_iff s free h f
  rcases hf with hf | ⟨p, hp, ht⟩
  · refine Or.inl ⟨List.count_eq_one_of_mem h.nodup hf, ?_, ?_⟩
    · ext p
      refine ⟨fun ⟨_, hlen, ht⟩ => h.fresh f hf ⟨p, Or.inl hlen, ht⟩, False.elim⟩
    · ext p
      refine ⟨fun hp => ?_, False.elim⟩
      obtain ⟨hp, ht⟩ := hleaf.1 hp
      exact h.fresh f hf ⟨p, Or.inr hp, ht⟩
  · have hcount : free.count f = 0 := List.count_eq_zero.2 fun hf => h.fresh f hf ⟨p, hp, ht⟩
    have hsame : ∀ q ∈ treePaths, node s.mem s.pml4t q = some f → q = p := fun q hq htq =>
      h.unique q hq p hp f htq ht
    rcases hp with hlen | ⟨v, hv, rfl⟩
    · refine Or.inr (Or.inl ⟨hcount, ⟨p, ?_⟩, ?_⟩)
      · ext q
        refine ⟨fun ⟨_, hlenq, htq⟩ => hsame q (Or.inl hlenq) htq, ?_⟩
        rintro rfl
        refine ⟨?_, hlen, ht⟩
        rintro rfl
        exact hroot (Option.some.inj ht).symm
      · ext q
        refine ⟨fun hq => ?_, False.elim⟩
        obtain ⟨⟨v, hv, rfl⟩, htq⟩ := hleaf.1 hq
        rw [← hsame _ (pathOf_mem hv) htq] at hlen
        exact absurd hlen (by simp)
    · refine Or.inr (Or.inr ⟨hcount, ?_, pathOf v, ?_⟩)
      · ext q
        refine ⟨fun ⟨_, hlen, htq⟩ => ?_, False.elim⟩
        rw [hsame q (Or.inl hlen) htq] at hlen
        exact absurd hlen (by simp)
      · ext q
        refine ⟨fun hq => ?_, ?_⟩
        · obtain ⟨hq, htq⟩ := hleaf.1 hq
          exact hsame q (Or.inr hq) htq
        · rintro rfl
          exact hleaf.2 ⟨⟨v, hv, rfl⟩, ht⟩

/-- After every run of heap operations each frame that was free at the start is on the free
list once, or linked once as a page table, or mapped by one heap page. -/
theorem heap_frames_in_one_place {s₀ s : Mmu} {free₀ : List Addr} {ops : List HeapOp}
    (h : HeapStart s₀ free₀) (hrun : Run HeapOpStep s₀ ops s) :
    ∃ free, s.FreeList free ∧ ∀ f ∈ free₀, InOnePlace s free f := by
  obtain ⟨-, free, hc⟩ := conserves_run h hrun
  refine ⟨free, hc.inv.list, fun f hf => hc.inv.inOnePlace ?_ (hc.placed f (Or.inl hf))⟩
  rw [hc.pml4t]
  rintro rfl
  exact h.outside _ hf ⟨[], by simp, rfl⟩

theorem heap_frames_in_one_place_bareHeap :
    ∃ free, (bareHeap.mmuAllocPage.1.mmuFreePage kernelHeapAdr).FreeList free ∧
      ∀ f ∈ [0x2000, 0x3000, 0x4000, 0x5000],
        InOnePlace (bareHeap.mmuAllocPage.1.mmuFreePage kernelHeapAdr) free f := by
  have hbrk := mmuAllocPage_brk_bareHeap
  have hstep : ∀ s : Mmu, InHeap s.mmuAllocPage.1.kernelBrk →
      HeapOpStep s .allocPage s.mmuAllocPage.1 := fun _ hb => ⟨trivial, rfl, hb⟩
  have halloc := hstep bareHeap hbrk
  generalize bareHeap.mmuAllocPage.1 = s at hbrk halloc ⊢
  have hfree : HeapOpStep s (.freePage kernelHeapAdr) (s.mmuFreePage kernelHeapAdr) :=
    ⟨inHeap_kernelHeapAdr, rfl, by rwa [Mmu.mmuFreePage_kernelBrk]⟩
  exact heap_frames_in_one_place heapStart_bareHeap ((Run.nil.snoc halloc).snoc hfree)

end KernelDev
