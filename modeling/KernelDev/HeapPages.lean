import KernelDev.HeapTables

/-!
# Changing one heap page

The four ways the last-level entry of a heap page changes : it is marked for demand paging, it is
cleared, it is cleared and its frame given back, and a frame is put in its place. `SetsLeaf` is
what they have in common : one word of one table is changed, no other word that a path reads is,
and `kernel_brk` does not move down. From it the invariant follows once (`SetsLeaf.inv`), given
what became of the free list, and so do the bytes of the other pages (`SetsLeaf.bytes`). Each way
adds its free list and the bytes of the page itself.

`writeLeaf` sets the entry to one that maps no frame, and `kernel_brk` with it, as the allocations
do. `releaseLeaf` pushes the frame of the page first : its first word becomes the link of the free
list, which no path reads any more once the entry is cleared. `linkFrame` from `HeapTables` puts a
frame into an entry that waits for one; the page read zero before, and so does the cleared frame
(`bytes_linkFrame`).

`Conserves` adds that no frame is lost : each that was free or in the tree is so afterwards, in
whatever place.
-/

namespace KernelDev

open ByteMem PathTree

/-! ## Pages of the heap -/

theorem InHeap.pathOf_eq_iff {u v : BitVec 64} (hu : InHeap u) (hv : InHeap v) :
    pathOf u = pathOf v ↔ pageOf u = pageOf v := by
  rw [inHeap_iff] at hu hv
  exact KernelDev.pathOf_eq_iff (by omega) (by omega)

/-- Addresses of one heap page share their last-level entry. -/
theorem leafEntry_congr {m : Mem} {r : Addr} {u v : BitVec 64} (hu : InHeap u) (hv : InHeap v)
    (h : pageOf u = pageOf v) : leafEntry m r u = leafEntry m r v := by
  obtain ⟨hidx, htab⟩ := List.cons.inj ((hu.pathOf_eq_iff hv).2 h)
  rw [leafEntry, leafEntry, hidx, htab]

/-- The page that starts at `brk` has no address below `brk`. -/
theorem pageOf_ne_of_brk {u v brk : BitVec 64} (hbrk : Aligned brk) (hv : v.toNat < brk.toNat)
    (hu : brk.toNat ≤ u.toNat) : pageOf u ≠ pageOf v := by
  unfold Aligned pageOf at *
  omega

/-- A frame is free, or the tree has it as a table or as the frame of a heap page. -/
def Placed (s : Mmu) (free : List Addr) (f : Addr) : Prop :=
  f ∈ free ∨ Reached (childOf s.mem) s.pml4t treePaths f

/-- `s'` is in order and no frame of `s` has left the free list and the tree. -/
structure Conserves (s : Mmu) (free : List Addr) (s' : Mmu) (free' : List Addr) : Prop where
  inv : HeapInv s' free'
  cr3 : s'.cr3 = s.cr3
  /-- No frame is lost. -/
  placed : ∀ f, Placed s free f → Placed s' free' f

namespace Conserves

variable {s s₁ s₂ : Mmu} {free free₁ free₂ : List Addr}

theorem pml4t (h : Conserves s free s₁ free₁) : s₁.pml4t = s.pml4t := by
  rw [Mmu.pml4t, Mmu.pml4t, h.cr3]

theorem refl (h : HeapInv s free) : Conserves s free s free :=
  ⟨h, rfl, fun _ hf => hf⟩

theorem trans (h : Conserves s free s₁ free₁) (h' : Conserves s₁ free₁ s₂ free₂) :
    Conserves s free s₂ free₂ :=
  ⟨h'.inv, h'.cr3.trans h.cr3, fun f hf => h'.placed f (h.placed f hf)⟩

theorem printk (h : Conserves s free s₁ free₁) (fmt : String) (args : List PrintkArg) :
    Conserves s free (s₁.printk fmt args) free₁ :=
  ⟨{ h.inv with }, h.cr3, h.placed⟩

theorem invlpg (h : Conserves s free s₁ free₁) (a : Addr) :
    Conserves s free (s₁.invlpg a) free₁ :=
  ⟨{ h.inv with }, h.cr3, h.placed⟩

end Conserves

theorem Extends.conserves {s s' : Mmu} {free free' : List Addr} (h : Extends s free s' free') :
    Conserves s free s' free' := by
  refine ⟨h.inv, h.cr3, fun f hf => ?_⟩
  rw [Placed, h.pml4t]
  rcases hf with hf | ⟨p, hp, ht⟩
  · exact h.kept f hf
  · exact Or.inr ⟨p, hp, h.nodes p hp f ht⟩

/-! ## The common part -/

/-- `s'` is `s` with the last-level entry of `v`, in the table `pt`, changed to `e`. -/
structure SetsLeaf (s s' : Mmu) (v pt : Addr) (e : BitVec 64) : Prop where
  table : node s.mem s.pml4t (tablePath v) = some pt
  entry : word s'.mem pt (ptIndex v) = e
  /-- No other word of a table changes. -/
  tables : SameTables s.mem s'.mem s.pml4t pt (ptIndex v)
  cr3 : s'.cr3 = s.cr3
  brk : s.kernelBrk.toNat ≤ s'.kernelBrk.toNat
  brkAligned : Aligned s'.kernelBrk
  nonnull : slot pt (ptIndex v) ≠ 0

namespace SetsLeaf

variable {s s' : Mmu} {free free' : List Addr} {v pt : Addr} {e : BitVec 64}

theorem pml4t (hs : SetsLeaf s s' v pt e) : s'.pml4t = s.pml4t := by
  rw [Mmu.pml4t, Mmu.pml4t, hs.cr3]

theorem nodes (hs : SetsLeaf s s' v pt e) (h : HeapInv s free) (hv : InHeap v) {x : Option Addr}
    (hx : childOf s'.mem pt (ptIndex v) = x) :
    ∀ q ∈ treePaths, node s'.mem s.pml4t q = if q = pathOf v then x else node s.mem s.pml4t q :=
  node_set h.unique (pathOf_mem hv) hs.table hs.tables hx (fun hlt => absurd hlt (by simp))
    fun hlt => absurd hlt (by simp)

theorem leaf (hs : SetsLeaf s s' v pt e) (h : HeapInv s free) (hv : InHeap v) {u : BitVec 64}
    (hu : InHeap u) :
    leafEntry s'.mem s.pml4t u = if pageOf u = pageOf v then e else leafEntry s.mem s.pml4t u := by
  rw [leafEntry_store h.unique hs.table hs.tables (hs.nodes h hv rfl) hu, hs.entry]
  simp only [hu.pathOf_eq_iff hv]

theorem leafSlot (hs : SetsLeaf s s' v pt e) (h : HeapInv s free) (hv : InHeap v) (u : BitVec 64) :
    leafSlot s'.mem s.pml4t u = leafSlot s.mem s.pml4t u := by
  have hu := hs.nodes h hv rfl _ (tablePath_mem u)
  rw [if_neg (tablePath_ne_pathOf u v)] at hu
  rw [KernelDev.leafSlot, KernelDev.leafSlot, hu]

theorem links (hs : SetsLeaf s s' v pt e) (h : HeapInv s free) (hv : InHeap v) :
    HeapLinks s'.mem s.pml4t := by
  intro j q u hq hu hpres
  have hne : q ≠ pathOf v := by
    rintro rfl
    exact absurd hq.length_le (by simp)
  have hu' := (hs.nodes h hv rfl q (parentClosed_treePaths _ _ hq.mem)).symm.trans hu
  rw [if_neg hne] at hu'
  have hsame : word s'.mem u j = word s.mem u j := by
    refine hs.tables q u j hq.mem hu' ?_
    rintro ⟨rfl, -⟩
    have hlen := hq.length_le
    rw [h.unique q (parentClosed_treePaths _ _ hq.mem) _ (tablePath_mem v) _ hu' hs.table] at hlen
    exact absurd hlen (by simp)
  rw [hsame] at hpres ⊢
  exact h.links j q u hq hu' hpres

/-- The invariant after the entry of one page changed, given what became of the free list. -/
theorem inv (hs : SetsLeaf s s' v pt e) (h : HeapInv s free) (hv : InHeap v) (he : HeapLeaf e)
    (hbrk : v.toNat < s'.kernelBrk.toNat ∨ Unmapped e) (hlisted : s'.freeListInitialized = true)
    (hlist : s'.FreeList free') (hnodup : free'.Nodup) (hframes : ∀ f ∈ free', IsFrame f)
    (hfresh : ∀ f ∈ free', ¬Reached (childOf s'.mem) s.pml4t treePaths f)
    (hnew : ∀ f, childOf s'.mem pt (ptIndex v) = some f →
      ∀ q ∈ treePaths, node s.mem s.pml4t q ≠ some f) : HeapInv s' free' := by
  refine ⟨hlisted, hlist, hnodup, hframes, ?_, ?_, ?_, fun u hu => ?_, hs.brkAligned,
    fun u hu hle => ?_, fun u hu hnull => ?_⟩
  · rw [hs.pml4t]
    exact h.unique.set (hs.nodes h hv rfl) hnew
  · rwa [hs.pml4t]
  · rw [hs.pml4t]
    exact hs.links h hv
  · rw [hs.pml4t, hs.leaf h hv hu]
    split_ifs
    · exact he
    · exact h.leaf u hu
  · rw [hs.pml4t, hs.leaf h hv hu]
    split_ifs with hpage
    · rcases hbrk with hbrk | he
      · exact absurd hpage (pageOf_ne_of_brk hs.brkAligned hbrk hle)
      · exact he
    · exact h.unused u hu (hs.brk.trans hle)
  · rw [hs.pml4t, hs.leafSlot h hv] at hnull
    rw [hs.pml4t, hs.leaf h hv hu]
    split_ifs with hpage
    · obtain ⟨hidx, htab⟩ := List.cons.inj ((hu.pathOf_eq_iff hv).2 hpage)
      rw [leafSlot_of_node (htab ▸ hs.table), hidx] at hnull
      exact absurd hnull hs.nonnull
    · exact h.null u hu hnull

/-- The heap bytes after the entry of one page changed : the frames of the others are kept. -/
theorem bytes (hs : SetsLeaf s s' v pt e) (h : HeapInv s free) (hv : InHeap v) {u : BitVec 64}
    (hu : InHeap u) (hne : pageOf u ≠ pageOf v)
    (hb : ∀ g, IsFrame g → leafEntry s.mem s.pml4t u = mappedEntry g →
      s'.mem (g + pageOffset u) = s.mem (g + pageOffset u)) :
    heapByte s'.mem s.pml4t u = heapByte s.mem s.pml4t u := by
  have he : leafEntry s'.mem s.pml4t u = leafEntry s.mem s.pml4t u :=
    (hs.leaf h hv hu).trans (if_neg hne)
  exact heapByte_congr (h.leaf u hu) he hb

end SetsLeaf

/-! ## Bytes by entry -/

section

variable {m : Mem} {r : Addr} {v : BitVec 64}

/-- A page that is not in use has no byte. -/
theorem heapByte_of_unmapped (h : Unmapped (leafEntry m r v)) : heapByte m r v = none := by
  simp only [heapByte, h.1, h.2, ne_eq, not_true_eq_false, if_false]

/-- A page that waits for its frame reads zero. -/
theorem heapByte_of_demand (h : leafEntry m r v = demandEntry) : heapByte m r v = some 0 := by
  simp only [heapByte, h, if_neg (not_not.2 demandEntry_absent), if_pos demandEntry_demand]

/-- A mapped page has the bytes of its frame. -/
theorem heapByte_of_mapped {f : Addr} (hf : Aligned f) (h : leafEntry m r v = mappedEntry f) :
    heapByte m r v = some (m (f + pageOffset v)) := by
  simp only [heapByte, h, if_pos (mappedEntry_present f), mappedEntry_pageMask hf]

end

/-! ## Writing an entry that maps no frame -/

section

variable {s s' : Mmu} {free : List Addr} {v pt : Addr} {e k : BitVec 64}

/-- The state after the entry `a` is set to `e`, with `kernel_brk` at `k`. -/
def writeLeaf (s : Mmu) (a : Addr) (e k : BitVec 64) : Mmu :=
  { s.store64 a e with kernelBrk := k }

theorem writeLeaf_kernelBrk (s : Mmu) (a : Addr) (e k : BitVec 64) :
    (writeLeaf s a e k).kernelBrk = k := by
  rw [writeLeaf]

theorem writeLeaf_mem (s : Mmu) (a : Addr) (e k : BitVec 64) :
    (writeLeaf s a e k).mem = write64 s.mem a e :=
  rfl

theorem setsLeaf_writeLeaf (hpt : node s.mem s.pml4t (tablePath v) = some pt)
    (hne : slot pt (ptIndex v) ≠ 0) (hk : s.kernelBrk.toNat ≤ k.toNat) (hka : Aligned k) :
    SetsLeaf s (writeLeaf s (slot pt (ptIndex v)) e k) v pt e := by
  have hal := aligned_of_node (aligned_pml4t s) hpt
  refine ⟨hpt, ?_, fun q u j _ hu hj => ?_, rfl, hk, hka, hne⟩
  · rw [writeLeaf_mem, word_write64_slot hal hal, if_pos ⟨rfl, rfl⟩]
  · rw [writeLeaf_mem, word_write64_slot hal (aligned_of_node (aligned_pml4t s) hu), if_neg hj]

theorem list_writeLeaf (h : HeapInv s free) (hpt : node s.mem s.pml4t (tablePath v) = some pt) :
    (writeLeaf s (slot pt (ptIndex v)) e k).FreeList free := by
  have hal := aligned_of_node (aligned_pml4t s) hpt
  refine Chain.congr h.list fun g hg => ?_
  have hgpt : g ≠ pt := by
    rintro rfl
    exact h.fresh g hg ⟨_, tablePath_mem v, hpt⟩
  rw [writeLeaf_mem, read64_eq_word, read64_eq_word, word_write64_slot hal (h.frames g hg).aligned,
    if_neg fun hc => hgpt hc.1]

theorem writeLeaf_frame_byte (h : HeapInv s free)
    (hpt : node s.mem s.pml4t (tablePath v) = some pt) {u : BitVec 64} {g : Addr} (hu : InHeap u)
    (hg : IsFrame g) (he : leafEntry s.mem s.pml4t u = mappedEntry g) :
    (writeLeaf s (slot pt (ptIndex v)) e k).mem (g + pageOffset u) = s.mem (g + pageOffset u) := by
  have hal := aligned_of_node (aligned_pml4t s) hpt
  rw [writeLeaf_mem]
  refine write64_slot_of_pageOf_ne hal ?_
  rw [pageOf_add_pageOffset hg.aligned]
  exact hg.aligned.pageOf_ne hal (h.frame_ne_table hu hg.aligned he (by simp) hpt)

/-- Changing an entry that maps no frame to one that maps no frame. -/
theorem conserves_writeLeaf (h : HeapInv s free) (hv : InHeap v)
    (hpt : node s.mem s.pml4t (tablePath v) = some pt) (hnull : slot pt (ptIndex v) ≠ 0)
    (hk : s.kernelBrk.toNat ≤ k.toNat) (hka : Aligned k)
    (hold : leafEntry s.mem s.pml4t v &&& ptePresent = 0)
    (he : Unmapped e ∨ e = demandEntry ∧ v.toNat < k.toNat) :
    Conserves s free (writeLeaf s (slot pt (ptIndex v)) e k) free := by
  have hs := setsLeaf_writeLeaf (e := e) hpt hnull hk hka
  have hpres : e &&& ptePresent = 0 := by
    rcases he with he | ⟨rfl, -⟩
    · exact he.1
    · rfl
  have hnone : childOf (writeLeaf s (slot pt (ptIndex v)) e k).mem pt (ptIndex v) = none :=
    childOf_eq_none (by rw [hs.entry, hpres])
  have hnodes := hs.nodes h hv hnone
  rw [leafEntry_of_node hpt] at hold
  have hsame : ∀ q ∈ treePaths, ∀ t,
      node (writeLeaf s (slot pt (ptIndex v)) e k).mem s.pml4t q = some t ↔
      node s.mem s.pml4t q = some t := by
    intro q hq t
    rw [hnodes q hq]
    split_ifs with hqv
    · rw [hqv, pathOf, node, walk_cons_of_some hpt, childOf_eq_none hold]
      simp
    · rfl
  have hreached : ∀ f,
      Reached (childOf (writeLeaf s (slot pt (ptIndex v)) e k).mem) s.pml4t treePaths f ↔
      Reached (childOf s.mem) s.pml4t treePaths f := fun f =>
    exists_congr fun q => and_congr_right fun hq => hsame q hq f
  refine ⟨hs.inv h hv ?_ ?_ h.listed (list_writeLeaf h hpt) h.nodup h.frames ?_ ?_, hs.cr3, ?_⟩
  · exact he.imp_right fun he => Or.inl he.1
  · exact he.symm.imp_left fun he => he.2
  · intro f hf hr
    exact h.fresh f hf ((hreached f).1 hr)
  · intro f hf
    rw [hnone] at hf
    cases hf
  · intro f hf
    rw [Placed, hs.pml4t]
    exact hf.imp_right (hreached f).2

/-- The bytes after the entry is set. -/
theorem bytes_writeLeaf (h : HeapInv s free) (hv : InHeap v)
    (hpt : node s.mem s.pml4t (tablePath v) = some pt) (hnull : slot pt (ptIndex v) ≠ 0)
    (hk : s.kernelBrk.toNat ≤ k.toNat) (hka : Aligned k) {u : BitVec 64} (hu : InHeap u)
    (hne : pageOf u ≠ pageOf v) :
    heapByte (writeLeaf s (slot pt (ptIndex v)) e k).mem s.pml4t u = heapByte s.mem s.pml4t u :=
  (setsLeaf_writeLeaf hpt hnull hk hka).bytes h hv hu hne fun _ hg he =>
    writeLeaf_frame_byte h hpt hu hg he

end

/-! ## Giving a frame back -/

section

variable {s : Mmu} {free : List Addr} {v pt f : Addr}

/-- The state after the frame `f` is pushed and the entry `a` cleared. -/
def releaseLeaf (s : Mmu) (f a : Addr) : Mmu :=
  (s.giveFrame f).store64 a 0

theorem releaseLeaf_mem (s : Mmu) (f a : Addr) :
    (releaseLeaf s f a).mem = write64 (write64 s.mem f s.freePageHead) a 0 :=
  rfl

theorem word_releaseLeaf {g : Addr} {i : Index} (hf : Aligned f) (hpt : Aligned pt) (hg : Aligned g)
    (j : Index) :
    word (releaseLeaf s f (slot pt i)).mem g j =
      if g = pt ∧ j = i then 0 else if g = f ∧ j = 0 then s.freePageHead else word s.mem g j := by
  rw [releaseLeaf_mem, word_write64_slot hpt hg]
  nth_rewrite 1 [← slot_zero f]
  rw [word_write64_slot hf hg]

/-- The entry is cleared and the frame pushed. -/
theorem setsLeaf_releaseLeaf (h : HeapInv s free) (hv : InHeap v)
    (hpt : node s.mem s.pml4t (tablePath v) = some pt) (hnull : slot pt (ptIndex v) ≠ 0)
    (hf : IsFrame f) (he : leafEntry s.mem s.pml4t v = mappedEntry f) :
    SetsLeaf s (releaseLeaf s f (slot pt (ptIndex v))) v pt 0 := by
  have hal := aligned_of_node (aligned_pml4t s) hpt
  refine ⟨hpt, ?_, fun q u j hq hu hne => ?_, rfl, le_rfl, h.brkAligned, hnull⟩
  · rw [word_releaseLeaf hf.aligned hal hal, if_pos ⟨rfl, rfl⟩]
  · have hfu : f ≠ u := h.frame_ne_table hv hf.aligned he (length_le_of_cons_mem hq) hu
    rw [word_releaseLeaf hf.aligned hal (aligned_of_node (aligned_pml4t s) hu), if_neg hne,
      if_neg fun hc => hfu hc.1.symm]

/-- The frame is the first of the list. -/
theorem list_releaseLeaf (h : HeapInv s free) (hv : InHeap v)
    (hpt : node s.mem s.pml4t (tablePath v) = some pt) (hf : IsFrame f)
    (he : leafEntry s.mem s.pml4t v = mappedEntry f) :
    (releaseLeaf s f (slot pt (ptIndex v))).FreeList (f :: free) := by
  have hal := aligned_of_node (aligned_pml4t s) hpt
  have hgive := h.list.giveFrame (fun g hg => (h.frames g hg).aligned) hf.aligned hf.ne_zero
    (h.frame_notMem hv hf.aligned he)
  refine Chain.congr hgive fun g hg => ?_
  have hg' : Aligned g := by
    rcases List.mem_cons.1 hg with rfl | hg
    · exact hf.aligned
    · exact (h.frames g hg).aligned
  have hgpt : g ≠ pt := by
    rcases List.mem_cons.1 hg with rfl | hg
    · exact h.frame_ne_table hv hf.aligned he (by simp) hpt
    · rintro rfl
      exact h.fresh g hg ⟨_, tablePath_mem v, hpt⟩
  rw [releaseLeaf, Mmu.store64_mem, read64_eq_word, read64_eq_word, word_write64_slot hal hg',
    if_neg fun hc => hgpt hc.1]

/-- Giving back the frame of a page. -/
theorem conserves_releaseLeaf (h : HeapInv s free) (hv : InHeap v)
    (hpt : node s.mem s.pml4t (tablePath v) = some pt) (hnull : slot pt (ptIndex v) ≠ 0)
    (hf : IsFrame f) (he : leafEntry s.mem s.pml4t v = mappedEntry f) :
    Conserves s free (releaseLeaf s f (slot pt (ptIndex v))) (f :: free) := by
  have hs := setsLeaf_releaseLeaf h hv hpt hnull hf he
  have hnone : childOf (releaseLeaf s f (slot pt (ptIndex v))).mem pt (ptIndex v) = none :=
    childOf_eq_none (by rw [hs.entry]; rfl)
  have hnodes := hs.nodes h hv hnone
  have hvf := node_of_leafEntry hf.aligned he
  refine ⟨hs.inv h hv (Or.inl (by decide)) (Or.inr (by decide)) h.listed
    (list_releaseLeaf h hv hpt hf he)
    (List.nodup_cons.2 ⟨h.frame_notMem hv hf.aligned he, h.nodup⟩) ?_ ?_ ?_, rfl, ?_⟩
  · intro g hg
    rcases List.mem_cons.1 hg with rfl | hg
    · exact hf
    · exact h.frames g hg
  · rintro g hg ⟨q, hq, hqg⟩
    rw [← node, hnodes q hq] at hqg
    split_ifs at hqg with hqv
    rcases List.mem_cons.1 hg with rfl | hg
    · exact hqv (h.unique q hq _ (pathOf_mem hv) _ hqg hvf)
    · exact h.fresh g hg ⟨q, hq, hqg⟩
  · intro g hg
    rw [hnone] at hg
    cases hg
  · rintro g (hg | ⟨q, hq, hqg⟩)
    · exact Or.inl (List.mem_cons_of_mem _ hg)
    · by_cases hqv : q = pathOf v
      · rw [hqv, ← node, hvf, Option.some.injEq] at hqg
        exact Or.inl (by simp [hqg])
      · exact Or.inr ⟨q, hq, (hnodes q hq).trans ((if_neg hqv).trans hqg)⟩

/-- The bytes after the frame is given back. -/
theorem bytes_releaseLeaf (h : HeapInv s free) (hv : InHeap v)
    (hpt : node s.mem s.pml4t (tablePath v) = some pt) (hnull : slot pt (ptIndex v) ≠ 0)
    (hf : IsFrame f) (he : leafEntry s.mem s.pml4t v = mappedEntry f) {u : BitVec 64}
    (hu : InHeap u)
    (hne : pageOf u ≠ pageOf v) :
    heapByte (releaseLeaf s f (slot pt (ptIndex v))).mem s.pml4t u = heapByte s.mem s.pml4t u := by
  refine (setsLeaf_releaseLeaf h hv hpt hnull hf he).bytes h hv hu hne fun g hg heg => ?_
  have hal := aligned_of_node (aligned_pml4t s) hpt
  have hgf : g ≠ f := by
    rintro rfl
    have hpath := h.unique _ (pathOf_mem hu) _ (pathOf_mem hv) _
      (node_of_leafEntry hg.aligned heg) (node_of_leafEntry hg.aligned he)
    exact hne ((hu.pathOf_eq_iff hv).1 hpath)
  have hgpt := hg.aligned.pageOf_ne hal (h.frame_ne_table hu hg.aligned heg (by simp) hpt)
  rw [releaseLeaf_mem, write64_slot_of_pageOf_ne hal, ← slot_zero f,
    write64_slot_of_pageOf_ne hf.aligned]
  · rw [pageOf_add_pageOffset hg.aligned]
    exact hg.aligned.pageOf_ne hf.aligned hgf
  · rwa [pageOf_add_pageOffset hg.aligned]

end

/-! ## Giving a frame to a page that waits for one -/

section

variable {s : Mmu} {l : List Addr} {v pt f : Addr}

theorem setsLeaf_linkFrame (h : HeapInv s (f :: l))
    (hpt : node s.mem s.pml4t (tablePath v) = some pt)
    (hnull : slot pt (ptIndex v) ≠ 0) :
    SetsLeaf s (linkFrame s f (slot pt (ptIndex v))) v pt (mappedEntry f) :=
  ⟨hpt, word_linkFrame_self h hpt, sameTables_linkFrame h hpt, linkFrame_cr3 _ _ _,
    by rw [linkFrame_kernelBrk], by rw [linkFrame_kernelBrk]; exact h.brkAligned, hnull⟩

/-- A heap page marked for demand paging is below `kernel_brk`. -/
theorem HeapInv.lt_brk_of_demand {s : Mmu} {free : List Addr} (h : HeapInv s free) (hv : InHeap v)
    (he : leafEntry s.mem s.pml4t v = demandEntry) : v.toNat < s.kernelBrk.toNat := by
  by_contra hlt
  have hun := h.unused v hv (Nat.not_lt.1 hlt)
  rw [he] at hun
  exact absurd hun (by decide)

/-- A page that waits for a frame gets one. -/
theorem conserves_linkFrame (h : HeapInv s (f :: l)) (hv : InHeap v)
    (hpt : node s.mem s.pml4t (tablePath v) = some pt) (hnull : slot pt (ptIndex v) ≠ 0)
    (he : leafEntry s.mem s.pml4t v = demandEntry) :
    Conserves s (f :: l) (linkFrame s f (slot pt (ptIndex v))) l := by
  have hs := setsLeaf_linkFrame h hpt hnull
  have hf := h.frames f (by simp)
  have hbrk := h.lt_brk_of_demand hv he
  rw [leafEntry_of_node hpt] at he
  have hnone : childOf s.mem pt (ptIndex v) = none := childOf_eq_none (by rw [he]; rfl)
  have hmapped := childOf_mapped hf.aligned hs.entry
  have hnodes := node_linkFrame h (pathOf_mem hv) hpt hnone
  refine ⟨hs.inv h hv (Or.inr (Or.inr ⟨f, hf, rfl⟩)) (Or.inl ?_) (by simpa using h.listed)
    (list_linkFrame h (pathOf_mem hv) hpt) (List.nodup_cons.1 h.nodup).2
    (fun g hg => h.frames g (by simp [hg]))
    (fun g hg => fresh_linkFrame h (pathOf_mem hv) hpt hnone hg) ?_, hs.cr3, ?_⟩
  · rwa [linkFrame_kernelBrk]
  · intro g hg q hq hqg
    rw [hmapped, Option.some.injEq] at hg
    exact h.fresh f (by simp) ⟨q, hq, hg ▸ hqg⟩
  · intro g hg
    rw [Placed, linkFrame_pml4t]
    rcases hg with hg | ⟨q, hq, hqg⟩
    · rcases List.mem_cons.1 hg with rfl | hg
      · exact Or.inr ⟨pathOf v, pathOf_mem hv, (hnodes _ (pathOf_mem hv)).trans (if_pos rfl)⟩
      · exact Or.inl hg
    · refine Or.inr ⟨q, hq, (hnodes q hq).trans ((if_neg ?_).trans hqg)⟩
      rintro rfl
      have hqv := (walk_cons_of_some hpt (ptIndex v)).trans hnone
      rw [hqv] at hqg
      cases hqg

/-- A page that waits for a frame reads zero, and so does its frame. -/
theorem bytes_linkFrame (h : HeapInv s (f :: l)) (hv : InHeap v)
    (hpt : node s.mem s.pml4t (tablePath v) = some pt) (hnull : slot pt (ptIndex v) ≠ 0)
    (he : leafEntry s.mem s.pml4t v = demandEntry) {u : BitVec 64} (hu : InHeap u) :
    heapByte (linkFrame s f (slot pt (ptIndex v))).mem s.pml4t u = heapByte s.mem s.pml4t u := by
  have hs := setsLeaf_linkFrame h hpt hnull
  have hf := (h.frames f (by simp)).aligned
  by_cases hpage : pageOf u = pageOf v
  · have hleaf := (hs.leaf h hv hu).trans (if_pos hpage)
    have hfpt : f ≠ pt := by
      rintro rfl
      exact h.fresh f (by simp) ⟨_, tablePath_mem v, hpt⟩
    have hal := aligned_of_node (aligned_pml4t s) hpt
    have hold := leafEntry_congr (m := s.mem) (r := s.pml4t) hu hv hpage
    rw [heapByte_of_mapped hf hleaf, heapByte_of_demand (hold.trans he), linkFrame,
      Mmu.store64_mem, write64_slot_of_pageOf_ne hal, Mmu.clearPage_mem, fill_page _ hf, if_pos]
    · exact pageOf_add_pageOffset hf u
    · rw [pageOf_add_pageOffset hf]
      exact hf.pageOf_ne hal hfpt
  · exact hs.bytes h hv hu hpage fun g hg heg =>
      linkFrame_frame_byte h (pathOf_mem hv) hpt hu hg heg

end

end KernelDev
