import KernelDev.HeapInvariant

/-!
# Growing the page tables

`get_pte` with `create_if_not_exist` takes frames off the free list and links them as tables, in
any number from none to three, whether or not it succeeds : when there is no frame for a level,
those of the levels before stay linked. `Extends` says what every such step keeps : the invariant,
the nodes the paths reach, the entries and bytes of the heap, and that each frame taken is now a
table. It composes, so the three levels of `get_pte` are one step lemma (`nextTable_create`) used
three times.

The step itself is `linkFrame` : the frame at the head of the free list is taken, cleared, cleared
again and linked. Its words are zero, so the new table leads nowhere (`links_linkFrame`), the paths
through it are new (`node_linkFrame`), and no byte of the heap has changed, as the frame was free
(`linkFrame_frame_byte`). The head of the list is now the next frame (`FreeList.linkFrame`).

`getPte_create` is the specification for its callers : what is returned is null, or the address of
the last-level entry of the page. `getPte_lookup` is the other mode, which changes nothing.
-/

namespace KernelDev

open ByteMem PathTree

/-- `s'` is `s` with some free frames linked as tables. -/
structure Extends (s : Mmu) (free : List Addr) (s' : Mmu) (free' : List Addr) : Prop where
  inv : HeapInv s' free'
  cr3 : s'.cr3 = s.cr3
  brk : s'.kernelBrk = s.kernelBrk
  nodes : ∀ p ∈ treePaths, ∀ t, node s.mem s.pml4t p = some t → node s'.mem s.pml4t p = some t
  leaf : ∀ v, InHeap v → leafEntry s'.mem s.pml4t v = leafEntry s.mem s.pml4t v
  bytes : ∀ v, InHeap v → heapByte s'.mem s.pml4t v = heapByte s.mem s.pml4t v
  /-- A frame that was taken is a table now. -/
  kept : ∀ f ∈ free, f ∈ free' ∨ Reached (childOf s'.mem) s.pml4t treePaths f

namespace Extends

variable {s s₁ s₂ : Mmu} {free free₁ free₂ : List Addr}

theorem pml4t (h : Extends s free s₁ free₁) : s₁.pml4t = s.pml4t := by
  rw [Mmu.pml4t, Mmu.pml4t, h.cr3]

theorem refl (h : HeapInv s free) : Extends s free s free :=
  ⟨h, rfl, rfl, fun _ _ _ ht => ht, fun _ _ => rfl, fun _ _ => rfl, fun _ hf => Or.inl hf⟩

/-- Printing changes nothing the invariant reads. -/
theorem printk (h : Extends s free s₁ free₁) (fmt : String) (args : List PrintkArg) :
    Extends s free (s₁.printk fmt args) free₁ where
  inv := { h.inv with }
  cr3 := h.cr3
  brk := h.brk
  nodes := h.nodes
  leaf := h.leaf
  bytes := h.bytes
  kept := h.kept

theorem trans (h : Extends s free s₁ free₁) (h' : Extends s₁ free₁ s₂ free₂) :
    Extends s free s₂ free₂ := by
  have hroot := h.pml4t
  have hnodes := h'.nodes
  have hleaf := h'.leaf
  have hbytes := h'.bytes
  have hkept := h'.kept
  rw [hroot] at hnodes hleaf hbytes hkept
  refine ⟨h'.inv, h'.cr3.trans h.cr3, h'.brk.trans h.brk,
    fun p hp t ht => hnodes p hp t (h.nodes p hp t ht),
    fun v hv => (hleaf v hv).trans (h.leaf v hv), fun v hv => (hbytes v hv).trans (h.bytes v hv),
    fun f hf => ?_⟩
  rcases h.kept f hf with hf | ⟨p, hp, ht⟩
  · exact hkept f hf
  · exact Or.inr ⟨p, hp, hnodes p hp f ht⟩

end Extends

/-! ## Heap pages and their frames -/

/-- The frame a heap page is mapped to is reached by its path. -/
theorem node_of_leafEntry {m : Mem} {r f : Addr} {v : BitVec 64} (hf : Aligned f)
    (h : leafEntry m r v = mappedEntry f) : node m r (pathOf v) = some f := by
  cases hpt : node m r (tablePath v) with
  | none =>
    rw [leafEntry_of_none hpt] at h
    exact absurd (by rw [← h]; rfl) (mappedEntry_present f)
  | some pt =>
    rw [leafEntry_of_node hpt] at h
    exact (walk_cons_of_some hpt _).trans (childOf_mapped hf h)

/-- A frame mapped in the heap is not a table. -/
theorem HeapInv.frame_ne_table {s : Mmu} {free : List Addr} (h : HeapInv s free)
    {v : BitVec 64} {g t : Addr} {p : List Index} (hv : InHeap v) (hg : Aligned g)
    (he : leafEntry s.mem s.pml4t v = mappedEntry g) (hp : p.length ≤ 3)
    (ht : node s.mem s.pml4t p = some t) : g ≠ t := by
  rintro rfl
  have hpath := h.unique _ (pathOf_mem hv) p (Or.inl hp) g (node_of_leafEntry hg he) ht
  rw [← hpath] at hp
  exact absurd hp (by simp)

/-- A frame mapped in the heap is not free. -/
theorem HeapInv.frame_notMem {s : Mmu} {free : List Addr} (h : HeapInv s free)
    {v : BitVec 64} {g : Addr} (hv : InHeap v) (hg : Aligned g)
    (he : leafEntry s.mem s.pml4t v = mappedEntry g) : g ∉ free := fun hmem =>
  h.fresh g hmem ⟨_, pathOf_mem hv, node_of_leafEntry hg he⟩

theorem pageOf_add_pageOffset {f : Addr} (hf : Aligned f) (v : BitVec 64) :
    pageOf (f + pageOffset v) = pageOf f := by
  have hoff := pageOffset_toNat v
  have := v.isLt
  unfold Aligned pageOf at *
  bv_omega

/-- A heap byte depends on its entry and on the frame that entry maps. -/
theorem heapByte_congr {m m' : Mem} {r : Addr} {v : BitVec 64} (hl : HeapLeaf (leafEntry m r v))
    (he : leafEntry m' r v = leafEntry m r v)
    (hb : ∀ f, IsFrame f → leafEntry m r v = mappedEntry f →
      m' (f + pageOffset v) = m (f + pageOffset v)) : heapByte m' r v = heapByte m r v := by
  unfold heapByte
  rw [he]
  rcases hl with h | h | ⟨f, hf, h⟩
  · simp only [h.1, h.2, ne_eq, not_true_eq_false, if_false]
  · simp only [h, if_neg (not_not.2 demandEntry_absent)]
  · simp only [h, mappedEntry_pageMask hf.aligned]
    rw [hb f hf h]

/-! ## Linking a fresh frame -/

/-- The state after the frame `f` is taken, cleared again, and linked at the entry `a`. -/
def linkFrame (s : Mmu) (f a : Addr) : Mmu :=
  ((s.takeFrame f).clearPage f).store64 a (mappedEntry f)

section

variable {s : Mmu} {f t : Addr} {l : List Addr} {i : Index} {p : List Index}

@[simp] theorem linkFrame_cr3 (s : Mmu) (f a : Addr) : (linkFrame s f a).cr3 = s.cr3 := by
  rw [linkFrame, Mmu.store64_cr3, Mmu.clearPage_cr3]
  rfl

@[simp] theorem linkFrame_kernelBrk (s : Mmu) (f a : Addr) :
    (linkFrame s f a).kernelBrk = s.kernelBrk := by
  rw [linkFrame, Mmu.store64_kernelBrk, Mmu.clearPage_kernelBrk]
  rfl

@[simp] theorem linkFrame_freeListInitialized (s : Mmu) (f a : Addr) :
    (linkFrame s f a).freeListInitialized = s.freeListInitialized := by
  rw [linkFrame, Mmu.store64_freeListInitialized, Mmu.clearPage_freeListInitialized]
  rfl

@[simp] theorem linkFrame_pml4t (s : Mmu) (f a : Addr) : (linkFrame s f a).pml4t = s.pml4t := by
  rw [Mmu.pml4t, Mmu.pml4t, linkFrame_cr3]

/-- The words after a frame is linked. -/
theorem word_linkFrame {g : Addr} (hf : Aligned f) (ht : Aligned t) (hg : Aligned g) (j : Index) :
    word (linkFrame s f (slot t i)).mem g j =
      if g = t ∧ j = i then mappedEntry f else if g = f then 0 else word s.mem g j := by
  show word (write64 ((s.takeFrame f).clearPage f).mem (slot t i) (mappedEntry f)) g j = _
  rw [word_write64_slot ht hg, Mmu.clearPage_mem, word_fill_zero hf hg]
  show (if _ then _ else if _ then _ else word (fill s.mem f 0 4096) g j) = _
  rw [word_fill_zero hf hg]
  split_ifs <;> rfl

theorem linkFrame_byte {x : Addr} (hf : Aligned f) (ht : Aligned t) (hxf : pageOf x ≠ pageOf f)
    (hxt : pageOf x ≠ pageOf t) : (linkFrame s f (slot t i)).mem x = s.mem x := by
  show write64 ((s.takeFrame f).clearPage f).mem (slot t i) (mappedEntry f) x = _
  rw [write64_slot_of_pageOf_ne ht hxt, Mmu.clearPage_mem, fill_page _ hf, if_neg hxf]
  show fill s.mem f 0 4096 x = _
  rw [fill_page _ hf, if_neg hxf]

theorem sameTables_linkFrame (h : HeapInv s (f :: l)) (ht : node s.mem s.pml4t p = some t) :
    SameTables s.mem (linkFrame s f (slot t i)).mem s.pml4t t i := by
  intro q u j hq hu hne
  have hroot := aligned_pml4t s
  have huf : u ≠ f := by
    rintro rfl
    exact h.fresh u (by simp) ⟨q, parentClosed_treePaths _ _ hq, hu⟩
  rw [word_linkFrame (h.frames f (by simp)).aligned (aligned_of_node hroot ht)
    (aligned_of_node hroot hu), if_neg hne, if_neg huf]

/-- The entry leads to the frame. -/
theorem word_linkFrame_self (h : HeapInv s (f :: l)) (ht : node s.mem s.pml4t p = some t) :
    word (linkFrame s f (slot t i)).mem t i = mappedEntry f := by
  have hal := aligned_of_node (aligned_pml4t s) ht
  rw [word_linkFrame (h.frames f (by simp)).aligned hal hal, if_pos ⟨rfl, rfl⟩]

/-- The new table is empty. -/
theorem word_linkFrame_fresh (h : HeapInv s (f :: l)) (hp : i :: p ∈ treePaths)
    (ht : node s.mem s.pml4t p = some t) (j : Index) :
    word (linkFrame s f (slot t i)).mem f j = 0 := by
  have hf := (h.frames f (by simp)).aligned
  have hft : f ≠ t := by
    rintro rfl
    exact h.fresh f (by simp) ⟨p, parentClosed_treePaths _ _ hp, ht⟩
  rw [word_linkFrame hf (aligned_of_node (aligned_pml4t s) ht) hf, if_neg fun hc => hft hc.1,
    if_pos rfl]

/-- The nodes of the tree after a frame is linked. -/
theorem node_linkFrame (h : HeapInv s (f :: l)) (hp : i :: p ∈ treePaths)
    (ht : node s.mem s.pml4t p = some t) (hnone : childOf s.mem t i = none) :
    ∀ q ∈ treePaths, node (linkFrame s f (slot t i)).mem s.pml4t q =
      if q = i :: p then some f else node s.mem s.pml4t q :=
  node_set h.unique hp ht (sameTables_linkFrame h ht)
    (childOf_mapped (h.frames f (by simp)).aligned (word_linkFrame_self h ht))
    (fun _ => hnone) fun _ _ hg j => Option.some.inj hg ▸ word_linkFrame_fresh h hp ht j

/-- No page is reached by two paths after a frame is linked. -/
theorem unique_linkFrame (h : HeapInv s (f :: l)) (hp : i :: p ∈ treePaths)
    (ht : node s.mem s.pml4t p = some t) (hnone : childOf s.mem t i = none) :
    UniquePaths (childOf (linkFrame s f (slot t i)).mem) s.pml4t treePaths := by
  refine h.unique.set (node_linkFrame h hp ht hnone) fun g hg q hq hqg => ?_
  obtain rfl := Option.some.inj hg
  exact h.fresh f (by simp) ⟨q, hq, hqg⟩

/-- The other free frames are not in the tree. -/
theorem fresh_linkFrame (h : HeapInv s (f :: l)) (hp : i :: p ∈ treePaths)
    (ht : node s.mem s.pml4t p = some t) (hnone : childOf s.mem t i = none)
    {g : Addr} (hg : g ∈ l) :
    ¬Reached (childOf (linkFrame s f (slot t i)).mem) s.pml4t treePaths g := by
  rintro ⟨q, hq, hqg⟩
  have hn := (node_linkFrame h hp ht hnone q hq).symm.trans hqg
  split_ifs at hn
  · obtain rfl := Option.some.inj hn
    exact (List.nodup_cons.1 h.nodup).1 hg
  · exact h.fresh g (by simp [hg]) ⟨q, hq, hn⟩

/-- Linking the head frame in a page that is not free leaves the rest of the list in place. -/
theorem Mmu.FreeList.linkFrame (h : s.FreeList (f :: l)) (hal : ∀ g ∈ f :: l, Aligned g)
    (hnd : (f :: l).Nodup) (ht : Aligned t) (htl : t ∉ l) :
    (linkFrame s f (slot t i)).FreeList l := by
  refine Chain.congr (h.takeFrame hal hnd) fun g hg => ?_
  have hgf : g ≠ f := by
    rintro rfl
    exact (List.nodup_cons.1 hnd).1 hg
  have hgt : g ≠ t := by
    rintro rfl
    exact htl hg
  have hg' := hal g (by simp [hg])
  have hf := hal f (by simp)
  show read64 (KernelDev.linkFrame s f (slot t i)).mem g = read64 (fill s.mem f 0 4096) g
  rw [read64_eq_word, read64_eq_word, word_linkFrame hf ht hg', if_neg fun hc => hgt hc.1,
    if_neg hgf, word_fill_zero hf hg', if_neg hgf]

theorem list_linkFrame (h : HeapInv s (f :: l)) (hp : i :: p ∈ treePaths)
    (ht : node s.mem s.pml4t p = some t) : (linkFrame s f (slot t i)).FreeList l := by
  refine h.list.linkFrame (fun g hg => (h.frames g hg).aligned) h.nodup
    (aligned_of_node (aligned_pml4t s) ht) fun htl => ?_
  exact h.fresh t (List.mem_cons_of_mem f htl) ⟨p, parentClosed_treePaths _ _ hp, ht⟩

/-- The frame of a heap page keeps its bytes when another frame is linked. -/
theorem linkFrame_frame_byte (h : HeapInv s (f :: l)) (hp : i :: p ∈ treePaths)
    (ht : node s.mem s.pml4t p = some t) {v : BitVec 64} {g : Addr} (hv : InHeap v) (hg : IsFrame g)
    (he : leafEntry s.mem s.pml4t v = mappedEntry g) :
    (linkFrame s f (slot t i)).mem (g + pageOffset v) = s.mem (g + pageOffset v) := by
  have hgf : g ≠ f := by
    rintro rfl
    exact h.frame_notMem hv hg.aligned he (by simp)
  have hgt : g ≠ t := h.frame_ne_table hv hg.aligned he (length_le_of_cons_mem hp) ht
  have hf := (h.frames f (by simp)).aligned
  have htal := aligned_of_node (aligned_pml4t s) ht
  refine linkFrame_byte hf htal ?_ ?_
  · rw [pageOf_add_pageOffset hg.aligned]
    exact hg.aligned.pageOf_ne hf hgf
  · rw [pageOf_add_pageOffset hg.aligned]
    exact hg.aligned.pageOf_ne htal hgt

/-- The link to a frame is not huge and names a physical address, and its own words are zero. -/
theorem links_linkFrame (h : HeapInv s (f :: l)) (hp : i :: p ∈ treePaths)
    (ht : node s.mem s.pml4t p = some t) (hnone : childOf s.mem t i = none) :
    HeapLinks (linkFrame s f (slot t i)).mem s.pml4t := by
  intro j q u hq hu hpres
  have hf := h.frames f (by simp)
  have hn := (node_linkFrame h hp ht hnone q (parentClosed_treePaths _ _ hq.mem)).symm.trans hu
  split_ifs at hn
  · obtain rfl := Option.some.inj hn
    rw [word_linkFrame_fresh h hp ht] at hpres
    exact absurd (by simp) hpres
  · by_cases hslot : u = t ∧ j = i
    · obtain ⟨rfl, rfl⟩ := hslot
      rw [word_linkFrame_self h ht]
      refine ⟨mappedEntry_huge hf.aligned, ?_⟩
      rw [mappedEntry_pageMask hf.aligned]
      have := hf.below
      omega
    · rw [sameTables_linkFrame h ht q u j hq.mem hn hslot] at hpres ⊢
      exact h.links j q u hq hn hpres

/-- Linking a frame as a table of the heap. -/
theorem extends_linkFrame (h : HeapInv s (f :: l)) (hp : HeapTablePath (i :: p))
    (ht : node s.mem s.pml4t p = some t) (hnone : childOf s.mem t i = none) :
    Extends s (f :: l) (linkFrame s f (slot t i)) l := by
  have hlen : p.length < 3 := hp.length_le
  have hf := h.frames f (by simp)
  have hnode := node_linkFrame h hp.mem ht hnone
  have hleaf : ∀ v, InHeap v →
      leafEntry (linkFrame s f (slot t i)).mem s.pml4t v = leafEntry s.mem s.pml4t v := fun v hv =>
    leafEntry_link h.unique hlen ht (sameTables_linkFrame h ht) hnone hnode
      (word_linkFrame_fresh h hp.mem ht) hv
  have hinv : HeapInv (linkFrame s f (slot t i)) l := by
    refine ⟨by simpa using h.listed, list_linkFrame h hp.mem ht, (List.nodup_cons.1 h.nodup).2,
      fun g hg => h.frames g (by simp [hg]), ?_, fun g hg => ?_, ?_, fun v hv => ?_,
      by simpa using h.brkAligned, fun v hv hbrk => ?_, fun v hv hnull => ?_⟩
    · simpa using unique_linkFrame h hp.mem ht hnone
    · simpa using fresh_linkFrame h hp.mem ht hnone hg
    · simpa using links_linkFrame h hp.mem ht hnone
    · simpa [hleaf v hv] using h.leaf v hv
    · rw [linkFrame_pml4t, hleaf v hv]
      exact h.unused v hv (by simpa using hbrk)
    · rw [linkFrame_pml4t] at hnull ⊢
      rw [hleaf v hv]
      have hv' := hnode _ (tablePath_mem v)
      split_ifs at hv' with hpath
      · rw [leafSlot_of_node hv'] at hnull
        exact absurd hnull (slot_ne_zero hf.aligned hf.ne_zero _)
      · refine h.null v hv ?_
        rwa [leafSlot, ← hv']
  refine ⟨hinv, linkFrame_cr3 _ _ _, linkFrame_kernelBrk _ _ _, fun q hq u hu => ?_, hleaf,
    fun v hv => ?_, fun g hg => ?_⟩
  · rw [hnode q hq, if_neg, hu]
    rintro rfl
    rw [node, walk_cons_of_some ht, hnone] at hu
    cases hu
  · exact heapByte_congr (h.leaf v hv) (hleaf v hv) fun g hg he =>
      linkFrame_frame_byte h hp.mem ht hv hg he
  · rcases List.mem_cons.1 hg with rfl | hg
    · exact Or.inr ⟨i :: p, hp.mem, (hnode _ hp.mem).trans (if_pos rfl)⟩
    · exact Or.inl hg

/-- A table that is there. -/
theorem nextTable_present (hpres : word s.mem t i &&& ptePresent ≠ 0) (create : Bool)
    (msg : String) :
    s.nextTable (slot t i) create msg = (s, some (word s.mem t i &&& pageMask)) := by
  unfold Mmu.nextTable
  rw [read64_slot, if_neg hpres]
  rfl

/-- A missing table that is not created. -/
theorem nextTable_absent (habsent : word s.mem t i &&& ptePresent = 0) (msg : String) :
    s.nextTable (slot t i) false msg = (s, none) := by
  unfold Mmu.nextTable
  rw [read64_slot, if_pos habsent]
  rfl

/-- A missing table without a frame for it. -/
theorem nextTable_nil (hs : s.freeListInitialized = true) (h : s.FreeList [])
    (habsent : word s.mem t i &&& ptePresent = 0) (msg : String) :
    s.nextTable (slot t i) true msg =
      ((s.printk "ERROR: Out of memory, no free pages available\n" []).printk msg [], none) := by
  unfold Mmu.nextTable
  rw [read64_slot, if_pos habsent, Mmu.mmuPfAlloc_nil hs h]
  rfl

/-- A missing table that gets the first free frame. -/
theorem nextTable_cons (hs : s.freeListInitialized = true) (h : s.FreeList (f :: l))
    (hf : Aligned f) (ht : Aligned t) (habsent : word s.mem t i &&& ptePresent = 0)
    (msg : String) :
    s.nextTable (slot t i) true msg = (linkFrame s f (slot t i), some f) := by
  have hne : f ≠ 0 := h.ne_null f (by simp)
  have hentry : f &&& pageMask ||| ptePresent ||| pteWritable = mappedEntry f := by
    rw [and_pageMask_of_aligned hf, mappedEntry, BitVec.or_assoc, BitVec.or_assoc,
      BitVec.or_comm ptePresent]
  unfold Mmu.nextTable
  rw [read64_slot, if_pos habsent, Mmu.mmuPfAlloc_cons hs h]
  simp only [Bool.not_true, Bool.false_eq_true, if_false, if_neg hne, hentry]
  show (_, some (word (linkFrame s f (slot t i)).mem t i &&& pageMask)) = _
  rw [word_linkFrame hf ht ht, if_pos ⟨rfl, rfl⟩, mappedEntry_pageMask hf]
  rfl

/-- One level of `get_pte` that may create. -/
theorem nextTable_create {free : List Addr} (h : HeapInv s free) (hp : HeapTablePath (i :: p))
    (ht : node s.mem s.pml4t p = some t) (msg : String) :
    ∃ free', Extends s free (s.nextTable (slot t i) true msg).1 free' ∧
      ∀ u, (s.nextTable (slot t i) true msg).2 = some u →
        node (s.nextTable (slot t i) true msg).1.mem s.pml4t (i :: p) = some u := by
  by_cases hpres : word s.mem t i &&& ptePresent = 0
  · have hnone := childOf_eq_none hpres
    cases free with
    | nil =>
      rw [nextTable_nil h.listed h.list hpres]
      exact ⟨[], ((Extends.refl h).printk _ _).printk _ _, fun u hu => by cases hu⟩
    | cons f l =>
      rw [nextTable_cons h.listed h.list (h.frames f (by simp)).aligned
        (aligned_of_node (aligned_pml4t s) ht) hpres]
      refine ⟨l, extends_linkFrame h hp ht hnone, fun u hu => ?_⟩
      exact ((node_linkFrame h hp.mem ht hnone _ hp.mem).trans (if_pos rfl)).trans hu
  · rw [nextTable_present hpres]
    refine ⟨free, Extends.refl h, fun u hu => ?_⟩
    rw [node, walk_cons_of_some ht, childOf, if_pos ⟨hpres, (h.links i p t hp ht hpres).1⟩]
    exact hu

/-- One level of `get_pte` that only looks. -/
theorem nextTable_lookup (hl : HeapLinks s.mem s.pml4t) (hp : HeapTablePath (i :: p))
    (ht : node s.mem s.pml4t p = some t) (msg : String) :
    s.nextTable (slot t i) false msg = (s, node s.mem s.pml4t (i :: p)) := by
  rw [node, walk_cons_of_some ht]
  by_cases hpres : word s.mem t i &&& ptePresent = 0
  · rw [nextTable_absent hpres, childOf_eq_none hpres]
  · rw [nextTable_present hpres, childOf, if_pos ⟨hpres, (hl i p t hp ht hpres).1⟩]

end

/-! ## `get_pte` -/

theorem heapTablePath_table {v : BitVec 64} (hv : InHeap v) : HeapTablePath (tablePath v) :=
  ⟨v, hv, List.suffix_rfl⟩

theorem HeapTablePath.tail {i : Index} {p : List Index} (h : HeapTablePath (i :: p)) :
    HeapTablePath p := by
  obtain ⟨v, hv, h⟩ := h
  exact ⟨v, hv, (List.suffix_cons i p).trans h⟩

theorem heapTablePath_pd {v : BitVec 64} (hv : InHeap v) : HeapTablePath (pdPath v) :=
  (heapTablePath_table hv).tail

theorem heapTablePath_pdpt {v : BitVec 64} (hv : InHeap v) : HeapTablePath (pdptPath v) :=
  (heapTablePath_pd hv).tail

/-- `get_pte` without `create_if_not_exist` is the path lookup. -/
theorem getPte_lookup {s : Mmu} (hl : HeapLinks s.mem s.pml4t) {v : BitVec 64} (hv : InHeap v) :
    s.getPte s.pml4t v false = (s, leafSlot s.mem s.pml4t v) := by
  have h4 := nextTable_lookup (p := []) hl (heapTablePath_pdpt hv) rfl "Failed to allocate PDPT\n"
  unfold Mmu.getPte getPageIndices
  simp only [entryAt_eq_slot, h4]
  cases h3 : node s.mem s.pml4t (pdptPath v) with
  | none =>
    rw [leafSlot_of_none (walk_cons_of_none (walk_cons_of_none h3 _) _)]
    rw [pdptPath] at h3
    rw [h3]
  | some pdpt =>
    have h3' := nextTable_lookup hl (heapTablePath_pd hv) h3 "Failed to allocate PD\n"
    rw [pdptPath] at h3
    simp only [h3, h3']
    cases h2 : node s.mem s.pml4t (pdPath v) with
    | none =>
      rw [leafSlot_of_none (walk_cons_of_none h2 _)]
      rw [pdPath] at h2
      rw [h2]
    | some pdt =>
      have h2' := nextTable_lookup hl (heapTablePath_table hv) h2 "Failed to allocate PT\n"
      rw [pdPath] at h2
      simp only [h2, h2']
      cases h1 : node s.mem s.pml4t (tablePath v) with
      | none =>
        rw [leafSlot_of_none h1]
        rw [tablePath] at h1
        rw [h1]
      | some pt =>
        rw [leafSlot_of_node h1]
        rw [tablePath] at h1
        rw [h1]
        rfl

section

variable {s : Mmu} {t u v : Addr} {i : Index} {p : List Index}

/-- A table of the heap that is there is found, whether or not it may be created. -/
theorem nextTable_node (ht : node s.mem s.pml4t p = some t)
    (hu : node s.mem s.pml4t (i :: p) = some u) (create : Bool) (msg : String) :
    s.nextTable (slot t i) create msg = (s, some u) := by
  rw [node, walk_cons_of_some ht, childOf] at hu
  split_ifs at hu with hlink
  rw [nextTable_present hlink.1, hu]

/-- Where no table is missing `get_pte` returns the entry of the page. -/
theorem getPte_node (hpt : node s.mem s.pml4t (tablePath v) = some t) (create : Bool) :
    s.getPte s.pml4t v create = (s, slot t (ptIndex v)) := by
  obtain ⟨pd, hpd, -⟩ := walk_cons_eq_some.1 hpt
  obtain ⟨pdpt, hpdpt, -⟩ := walk_cons_eq_some.1 hpd
  unfold Mmu.getPte getPageIndices
  simp only [entryAt_eq_slot, nextTable_node rfl hpdpt, nextTable_node hpdpt hpd,
    nextTable_node hpd hpt]
  rfl

end


/-- `get_pte` with `create_if_not_exist` keeps the heap, and what it returns is null or the
entry of the page. -/
theorem getPte_create {s : Mmu} {free : List Addr} (h : HeapInv s free) {v : BitVec 64}
    (hv : InHeap v) :
    ∃ free', Extends s free (s.getPte s.pml4t v true).1 free' ∧
      ((s.getPte s.pml4t v true).2 ≠ 0 →
        ∃ pt, node (s.getPte s.pml4t v true).1.mem s.pml4t (tablePath v) = some pt ∧
          (s.getPte s.pml4t v true).2 = slot pt (ptIndex v)) := by
  obtain ⟨free₁, he₁, ht₁⟩ :=
    nextTable_create (p := []) h (heapTablePath_pdpt hv) rfl "Failed to allocate PDPT\n"
  unfold Mmu.getPte getPageIndices
  simp only [entryAt_eq_slot]
  generalize hs₁ : s.nextTable (slot s.pml4t ((v >>> 39).setWidth 9)) true
    "Failed to allocate PDPT\n" = step₁ at he₁ ht₁
  obtain ⟨s₁, _ | pdpt⟩ := step₁
  · exact ⟨free₁, he₁, fun hne => absurd rfl hne⟩
  have hpdpt := ht₁ pdpt rfl
  rw [← he₁.pml4t] at hpdpt
  obtain ⟨free₂, he₂, ht₂⟩ :=
    nextTable_create he₁.inv (heapTablePath_pd hv) hpdpt "Failed to allocate PD\n"
  generalize hs₂ : s₁.nextTable (slot pdpt ((v >>> 30).setWidth 9)) true
    "Failed to allocate PD\n" = step₂ at he₂ ht₂
  have he₂' := he₁.trans he₂
  obtain ⟨s₂, _ | pdt⟩ := step₂
  · simp only [hs₂]
    exact ⟨free₂, he₂', fun hne => absurd rfl hne⟩
  simp only [hs₂]
  have hpdt := ht₂ pdt rfl
  rw [he₁.pml4t, ← he₂'.pml4t] at hpdt
  obtain ⟨free₃, he₃, ht₃⟩ :=
    nextTable_create he₂.inv (heapTablePath_table hv) hpdt "Failed to allocate PT\n"
  generalize hs₃ : s₂.nextTable (slot pdt ((v >>> 21).setWidth 9)) true
    "Failed to allocate PT\n" = step₃ at he₃ ht₃
  have he₃' := he₂'.trans he₃
  obtain ⟨s₃, _ | pt⟩ := step₃
  · simp only
    exact ⟨free₃, he₃', fun hne => absurd rfl hne⟩
  simp only
  refine ⟨free₃, he₃', fun _ => ⟨pt, ?_, rfl⟩⟩
  have hpt := ht₃ pt rfl
  rwa [he₂'.pml4t] at hpt

end KernelDev
