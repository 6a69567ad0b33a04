import KernelDev.HeapSteps

/-!
# Where the heap writes

The heap writes into the frames of its free list, into its own tables and frames, and into the
entries of the top-level table that heap addresses go through. `footprint` is that set, for a
state. A call may take a frame from the list and make it a table, which changes what the frame is
for but not the set; what a call adds to the heap was in the heap before. So the set never grows,
and is fixed by where a run starts.

`Confines` says it from one state to another : `CR3` is kept, what the heap has in the end it had
at the start, and memory outside of the footprint keeps every byte. It is a relation of the kind
that `HeapSteps` asks for (`confines_heapRelation`), so that four changes are all there is to look
at, each of which writes to one page of the heap or to one entry on a walk of a heap address.

`heap_confined` is about every run of calls, faults, reads and writes. No byte changes but those of
the footprint, in particular none of the kernel and none of the tables of other addresses; and no
call hands the allocator a page that the heap did not have.
-/

namespace KernelDev

open ByteMem PathTree

/-- The heap has the page at `f` : it is free, or a table or frame below the top-level table. -/
def Owned (s : Mmu) (f : Addr) : Prop :=
  (∃ free, s.FreeList free ∧ f ∈ free) ∨ ∃ p ≠ [], HeapPath p ∧ node s.mem s.pml4t p = some f

/-- What the heap may write : its pages, and its entries in the top-level table. -/
def footprint (s : Mmu) : Set Addr :=
  {x | (∃ f, Owned s f ∧ pageOf x = pageOf f) ∨ ∃ i, HeapPath [i] ∧ Within (slot s.pml4t i) 8 x}

/-- From `s` to `s'` only the footprint is written, and it does not grow. -/
structure Confines (s s' : Mmu) : Prop where
  cr3 : s'.cr3 = s.cr3
  /-- No page is added to the heap. -/
  owned : ∀ f, Owned s' f → Owned s f
  /-- Nothing is written outside of the footprint. -/
  kept : ∀ x ∉ footprint s, s'.mem x = s.mem x

/-! ## The footprint -/

/-- The entries on the walks of heap addresses are in the footprint. -/
theorem slot_mem_footprint {s : Mmu} {i : Index} {p : List Index} {t x : Addr}
    (hp : HeapPath (i :: p)) (ht : node s.mem s.pml4t p = some t) (hx : Within (slot t i) 8 x) :
    x ∈ footprint s := by
  cases p with
  | nil =>
    obtain rfl := Option.some.inj ht
    exact .inr ⟨i, hp, hx⟩
  | cons j q =>
    have hal := aligned_of_node (aligned_pml4t s) ht
    exact .inl ⟨t, .inr ⟨_, List.cons_ne_nil j q, hp.tail, ht⟩, hal.pageOf_of_within_slot hx⟩

namespace Confines

variable {s s₁ s₂ : Mmu}

theorem pml4t (h : Confines s s₁) : s₁.pml4t = s.pml4t := by
  rw [Mmu.pml4t, Mmu.pml4t, h.cr3]

theorem footprint (h : Confines s s₁) : footprint s₁ ⊆ footprint s := by
  rintro x (⟨f, hf, hx⟩ | ⟨i, hi, hx⟩)
  · exact .inl ⟨f, h.owned f hf, hx⟩
  · exact .inr ⟨i, hi, h.pml4t ▸ hx⟩

theorem trans (h : Confines s s₁) (h' : Confines s₁ s₂) : Confines s s₂ :=
  ⟨h'.cr3.trans h.cr3, fun f hf => h.owned f (h'.owned f hf), fun x hx =>
    (h'.kept x fun hc => hx (h.footprint hc)).trans (h.kept x hx)⟩

/-- A step that changes neither memory nor the free list. -/
theorem of_same (hcr3 : s₁.cr3 = s.cr3) (hmem : s₁.mem = s.mem)
    (hhead : s₁.freePageHead = s.freePageHead) : Confines s s₁ := by
  have howned : Owned s₁ = Owned s := by
    unfold Owned Mmu.FreeList Mmu.pml4t
    rw [hcr3, hmem, hhead]
  exact ⟨hcr3, fun f hf => howned ▸ hf, fun x _ => congrFun hmem x⟩

end Confines

/-! ## Changing an entry -/

section

variable {s : Mmu} {free l : List Addr} {f t pt : Addr} {i : Index} {p : List Index}
  {v e : BitVec 64}

/-- A frame is taken and linked. -/
theorem confines_linkFrame (h : HeapInv s (f :: l)) (hp : HeapPath (i :: p))
    (ht : node s.mem s.pml4t p = some t) (hnone : childOf s.mem t i = none) :
    Confines s (linkFrame s f (slot t i)) := by
  have hf : Owned s f := .inl ⟨_, h.list, List.mem_cons_self⟩
  refine ⟨linkFrame_cr3 _ _ _, ?_, fun x hx => ?_⟩
  · rintro g (⟨free, hlist, hg⟩ | ⟨q, hne, hq, hnode⟩)
    · obtain rfl := hlist.unique (list_linkFrame h hp.mem ht)
      exact .inl ⟨_, h.list, List.mem_cons_of_mem f hg⟩
    · rw [linkFrame_pml4t, node_linkFrame h hp.mem ht hnone q hq.mem] at hnode
      split_ifs at hnode
      · obtain rfl := Option.some.inj hnode
        exact hf
      · exact .inr ⟨q, hne, hq, hnode⟩
  · have hpage : pageOf x ≠ pageOf f := fun hc => hx (.inl ⟨f, hf, hc⟩)
    have hslot : ¬Within (slot t i) 8 x := fun hc => hx (slot_mem_footprint hp ht hc)
    have hal := (h.frames f List.mem_cons_self).aligned
    show write64 ((s.takeFrame f).clearPage f).mem (slot t i) (mappedEntry f) x = _
    rw [write64_of_not_within hslot, Mmu.clearPage_mem, fill_page _ hal, if_neg hpage]
    show fill s.mem f 0 4096 x = _
    rw [fill_page _ hal, if_neg hpage]

/-- The entry of a page is set, to one that is not present. -/
theorem confines_writeLeaf (h : HeapInv s free) (hv : InHeap v)
    (hpt : node s.mem s.pml4t (tablePath v) = some pt) (hnull : slot pt (ptIndex v) ≠ 0)
    (he : e &&& ptePresent = 0) (k : BitVec 64) :
    Confines s (writeLeaf s (slot pt (ptIndex v)) e k) := by
  have hsets := setsLeaf_writeLeaf (e := e) hpt hnull le_rfl h.brkAligned
  have hnone := childOf_eq_none (by rw [hsets.entry]; exact he)
  have hnodes := hsets.nodes h hv hnone
  refine ⟨rfl, ?_, fun x hx => ?_⟩
  · rintro g (⟨free', hlist, hg⟩ | ⟨q, hne, hq, hnode⟩)
    · obtain rfl := hlist.unique (list_writeLeaf h hpt)
      exact .inl ⟨_, h.list, hg⟩
    · have hold := (hnodes q hq.mem).symm.trans hnode
      split_ifs at hold
      exact .inr ⟨q, hne, hq, hold⟩
  · rw [writeLeaf_mem, write64_of_not_within fun hc =>
      hx (slot_mem_footprint (heapPath_pathOf hv) hpt hc)]

/-- The frame of a page is given back. -/
theorem confines_releaseLeaf (h : HeapInv s free) (hv : InHeap v)
    (hpt : node s.mem s.pml4t (tablePath v) = some pt) (hnull : slot pt (ptIndex v) ≠ 0)
    (hf : IsFrame f) (he : leafEntry s.mem s.pml4t v = mappedEntry f) :
    Confines s (releaseLeaf s f (slot pt (ptIndex v))) := by
  have hsets := setsLeaf_releaseLeaf h hv hpt hnull hf he
  have hnone := childOf_eq_none (by rw [hsets.entry]; rfl)
  have hnodes := hsets.nodes h hv hnone
  have howned : Owned s f := .inr ⟨pathOf v, List.cons_ne_nil _ _, heapPath_pathOf hv,
    node_of_leafEntry hf.aligned he⟩
  refine ⟨rfl, ?_, fun x hx => ?_⟩
  · rintro g (⟨free', hlist, hg⟩ | ⟨q, hne, hq, hnode⟩)
    · obtain rfl := hlist.unique (list_releaseLeaf h hv hpt hf he)
      rcases List.mem_cons.1 hg with rfl | hg
      · exact howned
      · exact .inl ⟨_, h.list, hg⟩
    · have hold := (hnodes q hq.mem).symm.trans hnode
      split_ifs at hold
      exact .inr ⟨q, hne, hq, hold⟩
  · have hslot : ¬Within (slot pt (ptIndex v)) 8 x := fun hc =>
      hx (slot_mem_footprint (heapPath_pathOf hv) hpt hc)
    have hword : ¬Within f 8 x := fun hc => by
      rw [← slot_zero f] at hc
      exact hx (.inl ⟨f, howned, hf.aligned.pageOf_of_within_slot hc⟩)
    rw [releaseLeaf_mem, write64_of_not_within hslot, write64_of_not_within hword]

/-- A byte of a heap page is stored. -/
theorem confines_storeByte (h : HeapInv s free) (hv : InHeap v) (hf : IsFrame f)
    (he : leafEntry s.mem s.pml4t v = mappedEntry f) (b : BitVec 8) :
    Confines s (s.storeByte (f + pageOffset v) b) := by
  have hframe : pageOf (f + pageOffset v) = pageOf f := pageOf_add_pageOffset hf.aligned v
  have howned : Owned s f := .inr ⟨pathOf v, List.cons_ne_nil _ _, heapPath_pathOf hv,
    node_of_leafEntry hf.aligned he⟩
  have hmem : ∀ x, pageOf x ≠ pageOf f → (s.storeByte (f + pageOffset v) b).mem x = s.mem x := by
    intro x hx
    refine Function.update_of_ne ?_ _ _
    rintro rfl
    exact hx hframe
  have hnodes := (h.keepsTables_frame hv hf he hmem).nodes
  have hlist := (storeByte_spec h hv hf he b).1.inv.list
  refine ⟨rfl, ?_, fun x hx => hmem x fun hc => hx (.inl ⟨f, howned, hc⟩)⟩
  rintro g (⟨free', hlist', hg⟩ | ⟨q, hne, hq, hnode⟩)
  · obtain rfl := hlist'.unique hlist
    exact .inl ⟨_, h.list, hg⟩
  · exact .inr ⟨q, hne, hq, (hnodes q hq.mem).symm.trans hnode⟩

end

/-! ## Runs -/

/-- The four changes are confined. -/
theorem confines_heapRelation : HeapRelation Confines where
  trans := Confines.trans
  same := fun hcr3 hmem hhead _ => .of_same hcr3 hmem hhead
  link := confines_linkFrame
  mark := confines_writeLeaf
  release := confines_releaseLeaf
  store := confines_storeByte

/-- Along every run of the heap, whatever is allocated, freed, read and written, no byte changes
but those of the frames that were free at the start, of the heap's own tables, and of its entries
in the top-level table. And a page that is free in the end, or a table or frame of the heap, was one
of these at the start : no call hands the allocator a page that the heap did not have. -/
theorem heap_confined {s₀ s : Mmu} {free₀ : List Addr} {tr : List HeapEvent}
    (h : HeapStart s₀ free₀) (hrun : Run HeapStepIn s₀ tr s) :
    (∀ x ∉ footprint s₀, s.mem x = s₀.mem x) ∧ ∀ f, Owned s f → Owned s₀ f :=
  ⟨(confines_heapRelation.run h hrun).kept, (confines_heapRelation.run h hrun).owned⟩

theorem notMem_footprint_bareHeap : (0x6000 : Addr) ∉ footprint bareHeap := by
  rintro (⟨f, ⟨free, hlist, hf⟩ | ⟨p, hne, -, hnode⟩, hx⟩ | ⟨i, -, hx⟩)
  · obtain rfl := hlist.unique heapStart_bareHeap.list
    simp only [List.mem_cons, List.not_mem_nil, or_false] at hf
    rcases hf with rfl | rfl | rfl | rfl <;> exact absurd hx (by decide)
  · rw [node_bareHeap p hne] at hnode
    cases hnode
  · have hpage := (aligned_pml4t bareHeap).pageOf_of_within_slot hx
    rw [show bareHeap.pml4t = 0x1000 by decide] at hpage
    exact absurd hpage (by decide)

theorem heap_confined_bareHeap : ∃ s b, Run HeapStepIn bareHeap
    [.allocPage kernelHeapAdr, .write kernelHeapAdr 42, .read kernelHeapAdr b] s ∧
      s.mem 0x6000 = bareHeap.mem 0x6000 ∧ ¬Owned s 0x6000 := by
  obtain ⟨s, b, -, hrun⟩ := run_accessed_bareHeap
  obtain ⟨hkept, howned⟩ := heap_confined heapStart_bareHeap hrun
  refine ⟨s, b, hrun, hkept 0x6000 notMem_footprint_bareHeap, fun h => ?_⟩
  exact notMem_footprint_bareHeap (.inl ⟨0x6000, howned 0x6000 h, rfl⟩)

end KernelDev
