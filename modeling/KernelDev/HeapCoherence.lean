import KernelDev.HeapTlb

/-!
# The TLB and the heap operations

The heap operations leave no stale translation. An allocation overwrites entries that were never
present, which the TLB cannot hold. A page fault replaces an entry that waits for a frame, which is
not present either. Only a free takes a present entry away, and it flushes the page before it
returns. In between, while the entry is cleared and not yet flushed, the TLB may be stale, and this
is all that it may be.

For each operation there is a lemma about its events (`mmuFreePage_steps`, `mmuAllocPage_steps` and
so on), from every state that is ready, with or without the free list; the operation may fail. They
go through the functions with the rules of `HeapTlb`.

A run is a sequence of operations, each with whatever the TLB takes up and loses before, between
and after its stores (`TlbStep`). `tlb_coherent` is the result for every state of a run : each heap
translation that the TLB holds is the present last-level entry of the page, and it holds none of a
page that the last operation freed, as that has no entry any more. Every operation can be such a
step, whatever the TLB holds before it (`tlbStep_tlbOf`).
-/

namespace KernelDev

open ByteMem PathTree

section

variable {s : Mmu} {free : List Addr} {v : BitVec 64}

/-! ## Freeing -/

theorem HeapReady.brkAligned (h : HeapReady s free) : Aligned s.kernelBrk :=
  h.built_kernelBrk ▸ h.inv.brkAligned

/-- A page with a frame : the frame is given back, the entry cleared and the page flushed. -/
theorem releaseLeaf_keeps {pt f : Addr} (h : HeapInv s free) (hcr3 : entryAddr s.cr3 = s.pml4t)
    (hv : InHeap v) (hpt : node s.mem s.pml4t (tablePath v) = some pt)
    (hnull : slot pt (ptIndex v) ≠ 0) (hf : IsFrame f)
    (he : leafEntry s.mem s.pml4t v = mappedEntry f) :
    TlbKeeps s.cr3 heapPages heapPages s.mem
      ([.word f s.freePageHead] ++ ([.word (slot pt (ptIndex v)) 0] ++ [.invlpg v])) := by
  have hs := setsLeaf_releaseLeaf h hv hpt hnull hf he
  have hpages : ∀ m', (∀ x, pageOf x ∉ framePages [f] → m' x = s.mem x) →
      KeepsTables s.mem m' s.pml4t := fun m' hm => by
    refine h.keepsTables_frame hv hf he fun x hx => hm x ?_
    rintro ⟨g, hg, hpage⟩
    obtain rfl := List.mem_singleton.1 hg
    exact hx hpage.symm
  have hpush : (MemEvent.word f s.freePageHead).In (framePages [f]) :=
    in_word (by simp) hf.aligned _
  have hkept : KeepsTables s.mem (write64 s.mem f s.freePageHead) s.pml4t :=
    hpages _ fun x hx => run_of_in hpush s.mem hx
  refine (keeps_of_in hcr3 h.links hpages (by simpa using hpush)).append (Cache.Keeps.append ?_
    (keeps_invlpg s.cr3 _ v))
  refine keeps_of_leaf hcr3 (hkept.links h.links) (hs.links h hv) (fun p hp => hp.1)
    fun u hu hne => Or.inr ?_
  exact ((hs.leaf h hv hu).trans (if_neg hne.2)).trans (hkept.leafEntry hu).symm

/-- `MMU_free_page` at a heap address. The entry of the page is not present after it. -/
theorem mmuFreePage_steps (h : HeapReady s free) (hv : InHeap v) :
    ∃ free', Steps s free (s.mmuFreePageEvents v) (s.mmuFreePage v) free' ∧
      ∀ u, InHeap u →
        if pageOf u = pageOf v then Unmapped (leafEntry (s.mmuFreePage v).mem s.pml4t u)
        else leafEntry (s.mmuFreePage v).mem s.pml4t u = leafEntry s.mem s.pml4t u := by
  have hev : s.mmuFreePageEvents v = if leafSlot s.mem s.pml4t v = 0 then []
      else (if read64 s.mem (leafSlot s.mem s.pml4t v) &&& ptePresent ≠ 0 then
        s.mmuPfFreeEvents (read64 s.mem (leafSlot s.mem s.pml4t v) &&& pageMask)
        else []) ++ [.word (leafSlot s.mem s.pml4t v) 0, .invlpg v] := by
    rw [Mmu.mmuFreePageEvents, getPte_lookup h.links hv, getPteEvents_lookup, List.nil_append]
  by_cases hnull : leafSlot s.mem s.pml4t v = 0
  · rw [mmuFreePage_null h.links hv hnull, hev, if_pos hnull]
    refine ⟨free, .refl h, fun u hu => ?_⟩
    split_ifs with hpage
    · rw [← h.leafSlot_eq, ← h.built_pml4t] at hnull
      have hunused := h.inv.null v hv hnull
      rwa [h.built_pml4t, h.leafEntry_eq hv, ← leafEntry_congr hu hv hpage] at hunused
    · rfl
  cases hpt : node s.mem s.pml4t (tablePath v) with
  | none => exact absurd (leafSlot_of_none hpt) hnull
  | some pt =>
  have hread : read64 s.mem (leafSlot s.mem s.pml4t v) = leafEntry s.mem s.pml4t v := by
    rw [leafSlot_of_node hpt, leafEntry_of_node hpt, read64_slot]
  rw [if_neg hnull, hread, leafSlot_of_node hpt] at hev
  rw [leafSlot_of_node hpt] at hnull
  by_cases hpres : leafEntry s.mem s.pml4t v &&& ptePresent = 0
  · rw [hev, if_neg (not_not.2 hpres), List.nil_append,
      mmuFreePage_unbacked h.links hv hpt hnull hpres]
    have hstore := writeLeaf_steps h hv hpt hnull le_rfl h.brkAligned hpres (Or.inl unmapped_zero)
    have hleaf :=
      (writeLeaf_ready h hv hpt hnull le_rfl h.brkAligned hpres (Or.inl unmapped_zero)).2
    refine ⟨free, hstore.trans (.invlpg hstore.ready v), fun u hu => ?_⟩
    rw [Mmu.invlpg_mem, hleaf u hu]
    split_ifs with hpage
    · exact unmapped_zero
    · rfl
  · -- a mapped page : the list is built
    have hs : s.freeListInitialized = true := by
      by_contra hs
      have hfirst := h.unmapped (by simpa using hs) v hv
      rw [h.leafEntry_eq hv] at hfirst
      exact hpres hfirst
    have hinv : HeapInv s free := Mmu.built_of_listed hs ▸ h.inv
    obtain ⟨f, hf, he⟩ := hinv.mapped hv hpres
    have hfree : s.mmuPfFreeEvents f = [.word f s.freePageHead] := by
      have hmod : f % pageSize = 0 := BitVec.eq_of_toNat_eq hf.aligned
      rw [Mmu.mmuPfFreeEvents, if_neg hf.ne_zero, if_neg (not_not.2 hmod)]
      rfl
    have hsets := setsLeaf_releaseLeaf hinv hv hpt hnull hf he
    have hconserves := (conserves_releaseLeaf hinv hv hpt hnull hf he).invlpg v
    have htr := Mmu.traces_mmuFreePage s v
    rw [hev, he, if_pos (mappedEntry_present f), mappedEntry_pageMask hf.aligned, hfree] at htr ⊢
    rw [mmuFreePage_backed h.links hv hpt hnull hf he] at htr ⊢
    refine ⟨f :: free, ⟨hconserves.inv.ready (hconserves.pml4t.symm ▸ h.root), hconserves.cr3, htr,
      releaseLeaf_keeps hinv h.entryAddr_cr3 hv hpt hnull hf he⟩, fun u hu => ?_⟩
    rw [Mmu.invlpg_mem, hsets.leaf hinv hv hu]
    split_ifs with hpage
    · exact unmapped_zero
    · rfl

/-- The loop of `MMU_free_pages`. -/
theorem freePagesFrom_steps {pages : BitVec 32 → Addr} :
    ∀ {n : ℕ} {s : Mmu} {free : List Addr} {i : BitVec 32},
    HeapReady s free → (∀ j < n, InHeap (pages (i + BitVec.ofNat 32 j))) →
    ∃ free', Steps s free (s.freePagesFromEvents pages i n) (s.freePagesFrom pages i n) free' ∧
      ∀ u, InHeap u →
        (InPages pages i n u → Unmapped (leafEntry (s.freePagesFrom pages i n).mem s.pml4t u)) ∧
        (¬InPages pages i n u →
          leafEntry (s.freePagesFrom pages i n).mem s.pml4t u = leafEntry s.mem s.pml4t u)
  | 0, s, free, i, h, _ => by
    refine ⟨free, .refl h, fun u _ => ⟨?_, fun _ => rfl⟩⟩
    rintro ⟨j, hj, -⟩
    omega
  | n + 1, s, free, i, h, hheap => by
    obtain ⟨hi, hrest⟩ := pages_succ hheap
    obtain ⟨free₁, hs₁, hleaf₁⟩ := mmuFreePage_steps h hi
    obtain ⟨free₂, hs₂, hleaf₂⟩ := freePagesFrom_steps hs₁.ready hrest
    rw [hs₁.pml4t] at hleaf₂
    refine ⟨free₂, hs₁.trans hs₂, fun u hu => ?_⟩
    have hu₁ := hleaf₁ u hu
    obtain ⟨hin, hout⟩ := hleaf₂ u hu
    rw [inPages_succ]
    refine ⟨fun hmem => ?_, fun hmem => ?_⟩
    · by_cases hlater : InPages pages (i + 1) n u
      · exact hin hlater
      · rw [if_pos (hmem.resolve_right hlater)] at hu₁
        rw [← hout hlater] at hu₁
        exact hu₁
    · rw [not_or] at hmem
      rw [if_neg hmem.1] at hu₁
      exact (hout hmem.2).trans hu₁

/-- `MMU_free_pages` on heap pages. Their entries are not present after it. -/
theorem mmuFreePages_steps (h : HeapReady s free) (num : BitVec 32)
    (hnum : num.toInt.toNat ≤ 524288) (hv : HeapPages v num.toInt.toNat) :
    ∃ free', Steps s free (s.mmuFreePagesEvents v num) (s.mmuFreePages v num) free' ∧
      ∀ u, InHeap u → pageOf v ≤ pageOf u ∧ pageOf u < pageOf v + num.toInt.toNat →
        Unmapped (leafEntry (s.mmuFreePages v num).mem s.pml4t u) := by
  obtain ⟨free', hs, hleaf⟩ := freePagesFrom_steps h (hv.pageAt hnum s)
  exact ⟨free', hs, fun u hu hmem => (hleaf u hu).1 ((inPages_iff hnum hv).2 hmem)⟩

/-! ## Allocating -/

theorem HeapReady.unused (h : HeapReady s free) (hv : InHeap v)
    (hle : s.kernelBrk.toNat ≤ v.toNat) : Unmapped (leafEntry s.mem s.pml4t v) := by
  rw [← h.built_kernelBrk] at hle
  have hun := h.inv.unused v hv hle
  rwa [h.built_pml4t, h.leafEntry_eq hv] at hun

/-- `get_pte` for a page that is not in use, and the store that marks it. -/
theorem reserve_steps (h : HeapReady s free) (hv : InHeap v)
    (hun : Unmapped (leafEntry s.mem s.pml4t v)) :
    ∃ free', Steps s free (s.getPteEvents s.pml4t v true) (s.getPte s.pml4t v true).1 free' ∧
      (s.getPte s.pml4t v true).1.kernelBrk = s.kernelBrk ∧
      ((s.getPte s.pml4t v true).2 ≠ 0 → ∀ k : BitVec 64, s.kernelBrk.toNat ≤ k.toNat → Aligned k →
        v.toNat < k.toNat → Steps (s.getPte s.pml4t v true).1 free'
          [.word (s.getPte s.pml4t v true).2 demandEntry]
          (writeLeaf (s.getPte s.pml4t v true).1 (s.getPte s.pml4t v true).2 demandEntry k)
          free') := by
  obtain ⟨free', hs, he, hpte⟩ := getPte_steps h hv
  have hbrk := s.getPte_kernelBrk s.pml4t v true
  generalize s.getPte s.pml4t v true = r at hs he hpte hbrk ⊢
  refine ⟨free', hs, hbrk, fun hne k hk hka hvk => ?_⟩
  obtain ⟨pt, hpt, hslot⟩ := hpte hne
  have hleaf := he.leaf v hv
  rw [h.built_pml4t, h.leafEntry_eq hv, ← hs.pml4t, hs.ready.leafEntry_eq hv] at hleaf
  rw [hslot] at hne ⊢
  rw [← hs.pml4t] at hpt
  refine writeLeaf_steps hs.ready hv hpt hne (hbrk.symm ▸ hk) hka ?_ (Or.inr ⟨rfl, hvk⟩)
  rw [hleaf, hs.pml4t]
  exact hun.1

/-- `MMU_alloc_page` -/
theorem mmuAllocPage_steps (h : HeapReady s free) (hb : InHeap s.kernelBrk) :
    ∃ free', Steps s free s.mmuAllocPageEvents s.mmuAllocPage.1 free' := by
  obtain ⟨hsum, hal⟩ := hb.brk_next h.brkAligned
  have hmoved := Steps.growBrk h hb
  have hun := h.unused hb le_rfl
  rw [← s.growBrk_pml4t, ← s.growBrk_mem] at hun
  obtain ⟨free', hs, hbrk, hmark⟩ := reserve_steps hmoved.ready hb hun
  rw [Mmu.growBrk_kernelBrk] at hbrk hmark
  have hs' := hmoved.trans hs
  unfold Mmu.mmuAllocPageEvents Mmu.mmuAllocPage
  simp only
  generalize s.growBrk.getPte s.growBrk.pml4t s.kernelBrk true = r at hs hs' hbrk hmark ⊢
  split_ifs with hnull
  · exact ⟨free', hs'.trans (.printk hs.ready _ _)⟩
  · rw [store64_demand _ _ hbrk]
    exact ⟨free', hs'.trans (hmark hnull _ le_rfl hal (by omega))⟩

/-- The loop of `MMU_alloc_pages`. -/
theorem allocPagesFrom_steps {startAddr : Addr} (hstart : InHeap startAddr) : ∀ (n : ℕ) {s : Mmu}
    {free : List Addr} {i : ℕ}, HeapReady s free →
    s.kernelBrk.toNat = startAddr.toNat + 4096 * i → i + n ≤ 524288 →
    (s.allocPagesFrom s.pml4t startAddr (BitVec.ofNat 32 i) n).1.kernelBrk.toNat < 2 ^ 41 →
    ∃ free', Steps s free (s.allocPagesFromEvents s.pml4t startAddr (BitVec.ofNat 32 i) n)
      (s.allocPagesFrom s.pml4t startAddr (BitVec.ofNat 32 i) n).1 free' := by
  intro n
  induction n with
  | zero => exact fun {s free i} h _ _ _ => ⟨free, .refl h⟩
  | succ n ih =>
    intro s free i h hbrk hn hlt
    have hb := allocPagesFrom_inHeap hstart hbrk hn hlt
    have hb' := inHeap_iff.1 hb
    obtain ⟨hsum, hal⟩ := hb.brk_next h.brkAligned
    obtain ⟨free₁, hs, hbrk₁, hmark⟩ := reserve_steps h hb (h.unused hb le_rfl)
    have hnext : BitVec.ofNat 32 i + 1 = BitVec.ofNat 32 (i + 1) := by
      rw [BitVec.ofNat_add]
      rfl
    unfold Mmu.allocPagesFromEvents
    unfold Mmu.allocPagesFrom at hlt ⊢
    simp only [growBrk_store64_demand _ _ hbrk₁, hnext] at hlt ⊢
    generalize s.getPte s.pml4t s.kernelBrk true = r at hs hbrk₁ hmark hlt ⊢
    split_ifs at hlt ⊢ with hnull
    · -- the pages taken so far are freed again
      obtain ⟨hnum, hpages⟩ := heapPages_taken hstart hb hbrk (by omega)
      obtain ⟨free₂, hs₂, -⟩ := mmuFreePages_steps hs.ready (BitVec.ofNat 32 i) (by omega) hpages
      exact ⟨free₂, hs.trans hs₂⟩
    · have hmarked := hmark hnull (s.kernelBrk + pageSize) (by omega) hal (by omega)
      have hbrk' := writeLeaf_kernelBrk r.1 r.2 demandEntry (s.kernelBrk + pageSize)
      have hs₂ := hs.trans hmarked
      generalize writeLeaf r.1 r.2 demandEntry (s.kernelBrk + pageSize) = t at hs₂ hbrk' hlt ⊢
      rw [← hbrk'] at hsum
      rw [← hs₂.pml4t] at hlt
      have hnexti : t.kernelBrk.toNat = startAddr.toNat + 4096 * (i + 1) := by
        rw [hsum, hbrk]
        omega
      obtain ⟨free', hrest⟩ := ih hs₂.ready hnexti (by omega) hlt
      refine ⟨free', ?_⟩
      have hall := hs₂.trans hrest
      rw [hs₂.pml4t, List.append_assoc] at hall
      exact hall

/-- `MMU_alloc_pages` of at most 524288 pages, with `kernel_brk` still in the heap after it. -/
theorem mmuAllocPages_steps (h : HeapReady s free) (hb : InHeap s.kernelBrk) {num : BitVec 32}
    (hnum : num.toInt.toNat ≤ 524288) (hend : InHeap (s.mmuAllocPages num).1.kernelBrk) :
    ∃ free', Steps s free (s.mmuAllocPagesEvents num) (s.mmuAllocPages num).1 free' := by
  unfold Mmu.mmuAllocPagesEvents
  unfold Mmu.mmuAllocPages at hend ⊢
  split_ifs at hend ⊢ with hpos
  · exact ⟨free, .refl h⟩
  · exact allocPagesFrom_steps hb num.toInt.toNat (i := 0) h (by omega) (by omega)
      (inHeap_iff.1 hend).2

/-! ## Page faults -/

theorem traces_reportFault (s : Mmu) (frame : FaultFrame) (a : Addr) :
    Traces s [] (s.reportFault frame a) := by
  refine (Traces.refl s).congr rfl rfl (reportFault_mem a) ?_
  simp only [Mmu.reportFault, Mmu.printk, apply_ite Mmu.invlpgs, ite_self]

/-- The report of a fault stores nothing. -/
theorem Steps.reportFault (h : HeapReady s free) (frame : FaultFrame) (a : Addr) :
    Steps s free [] (s.reportFault frame a) free := by
  have hready : HeapReady (s.reportFault frame a) free := by
    unfold Mmu.reportFault
    split_ifs <;> repeat apply HeapReady.printk
    all_goals exact h
  have hcr3 : (s.reportFault frame a).cr3 = s.cr3 := by
    simp only [Mmu.reportFault, Mmu.printk_cr3, apply_ite Mmu.cr3, ite_self]
  exact ⟨hready, hcr3, traces_reportFault s frame a, Cache.keeps_nil⟩

/-- `MMU_pf_alloc` with no frame left. -/
theorem mmuPfAlloc_null_steps (h : HeapReady s free) (hnull : s.mmuPfAlloc.2 = 0) :
    Steps s free s.mmuPfAllocEvents s.mmuPfAlloc.1 free := by
  have htr := Mmu.traces_mmuPfAlloc s
  rw [← Mmu.mmuPfAlloc_built h.inv.listed] at hnull htr ⊢
  cases free with
  | nil =>
    have hbuilt : HeapReady s.built [] := h.inv.ready (h.built_pml4t.symm ▸ h.root)
    rw [Mmu.mmuPfAlloc_nil h.inv.listed h.inv.list] at htr ⊢
    exact ⟨hbuilt.printk _ _, h.built_cr3, htr, h.keeps_of_in h.in_mmuPfAllocEvents⟩
  | cons f l =>
    rw [Mmu.mmuPfAlloc_cons h.inv.listed h.inv.list] at hnull
    exact absurd hnull (h.inv.frames f (by simp)).ne_zero

/-- A page that waits for a frame gets one. -/
theorem demand_steps (h : HeapReady s free) (hv : InHeap v)
    (hdemand : leafSlot s.mem s.pml4t v ≠ 0 ∧
      read64 s.mem (leafSlot s.mem s.pml4t v) &&& pteDemandPaging ≠ 0)
    (hnull : s.mmuPfAlloc.2 ≠ 0) {x : BitVec 64}
    (hx : x = (s.mmuPfAlloc.2 &&& pageMask) |||
      (read64 (s.mmuPfAlloc.1.clearPage s.mmuPfAlloc.2).mem (leafSlot s.mem s.pml4t v) &&&
        ~~~pteDemandPaging) ||| ptePresent) :
    ∃ free', Steps s free (s.mmuPfAllocEvents ++ (memsetEvents s.mmuPfAlloc.2 0 pageSize.toNat ++
        [.word (leafSlot s.mem s.pml4t v) x, .invlpg v]))
      (((s.mmuPfAlloc.1.clearPage s.mmuPfAlloc.2).store64 (leafSlot s.mem s.pml4t v) x).invlpg v)
      free' := by
  obtain ⟨hslot, hbit⟩ := hdemand
  cases hpt : node s.mem s.pml4t (tablePath v) with
  | none => exact absurd (leafSlot_of_none hpt) hslot
  | some pt =>
  have hpt' : node s.built.mem s.built.pml4t (tablePath v) = some pt := by
    rw [h.built_pml4t, h.node_eq (tablePath_mem v), hpt]
  have he : leafEntry s.built.mem s.built.pml4t v = demandEntry := by
    rw [leafSlot_of_node hpt, read64_slot, ← leafEntry_of_node hpt, ← h.leafEntry_eq hv,
      ← h.built_pml4t] at hbit
    rcases h.inv.leaf v hv with hl | hl | ⟨f, hf, hl⟩
    · exact absurd hl.2 hbit
    · exact hl
    · rw [hl, mappedEntry_demand hf.aligned] at hbit
      exact absurd rfl hbit
  have htr : Traces s (s.mmuPfAllocEvents ++ (memsetEvents s.mmuPfAlloc.2 0 pageSize.toNat ++
      [.word (leafSlot s.mem s.pml4t v) x]))
      ((s.mmuPfAlloc.1.clearPage s.mmuPfAlloc.2).store64 (leafSlot s.mem s.pml4t v) x) :=
    (Mmu.traces_mmuPfAlloc s).trans ((Traces.clearPage _ _).trans (Traces.store64 _ _ _))
  have hkeeps := h.keeps_link hnull htr
  cases free with
  | nil => exact absurd (h.mmuPfAlloc_mem hnull) (by simp)
  | cons f l =>
  have hf := h.inv.frames f (by simp)
  have halloc : s.mmuPfAlloc = (s.built.takeFrame f, f) := by
    rw [← Mmu.mmuPfAlloc_built h.inv.listed, Mmu.mmuPfAlloc_cons h.inv.listed h.inv.list]
  rw [leafSlot_of_node hpt] at hslot hx htr hkeeps ⊢
  have hstate : (s.mmuPfAlloc.1.clearPage s.mmuPfAlloc.2).store64 (slot pt (ptIndex v)) x =
      linkFrame s.built f (slot pt (ptIndex v)) := by
    rw [hx, halloc, read64_takeFrame h.inv hpt', he, faultEntry hf.aligned, linkFrame]
  rw [hstate] at htr hkeeps ⊢
  have hsets := setsLeaf_linkFrame h.inv hpt' hslot
  have hconserves := conserves_linkFrame h.inv hv hpt' hslot he
  have hlinks := hsets.links h.inv hv
  rw [h.built_pml4t] at hlinks
  have hleaf : ∀ u, InHeap u → leafEntry s.mem s.pml4t u &&& ptePresent = 0 ∨
      leafEntry (linkFrame s.built f (slot pt (ptIndex v))).mem s.pml4t u =
        leafEntry s.mem s.pml4t u := fun u hu => by
    have hu' := hsets.leaf h.inv hv hu
    rw [h.built_pml4t, h.leafEntry_eq hu] at hu'
    rw [h.built_pml4t, h.leafEntry_eq hv] at he
    split_ifs at hu' with hpage
    · rw [leafEntry_congr hu hv hpage, he]
      exact Or.inl (by decide)
    · exact Or.inr hu'
  have hcr3 := hconserves.cr3.trans h.built_cr3
  have hready : HeapReady (linkFrame s.built f (slot pt (ptIndex v))) l := by
    refine hconserves.inv.ready ?_
    rw [hconserves.pml4t, h.built_pml4t]
    exact h.root
  have hsteps : Steps s (f :: l) _ _ l := ⟨hready, hcr3, htr, hkeeps hlinks hleaf⟩
  refine ⟨l, ?_⟩
  simpa only [List.append_assoc, List.singleton_append] using hsteps.trans (.invlpg hready v)

/-- `page_fault_handler` at a heap address. -/
theorem pageFaultHandler_steps (h : HeapReady s free) (frame : FaultFrame) (hv : InHeap v) :
    ∃ free', Steps s free (s.pageFaultHandlerEvents v)
      (s.pageFaultHandler frame v).state free' := by
  unfold Mmu.pageFaultHandlerEvents Mmu.pageFaultHandler
  rw [getPte_lookup h.links hv, getPteEvents_lookup]
  simp only [List.nil_append]
  split_ifs with hdemand hnull
  · -- no frame is left
    have halloc := mmuPfAlloc_null_steps h hnull
    have hprint := halloc.trans (.printk halloc.ready "Out of memory during demand paging\n" [])
    have hreport := hprint.trans (.reportFault hprint.ready frame v)
    rw [List.append_nil] at hreport
    exact ⟨free, hreport⟩
  · exact demand_steps h hv hdemand hnull rfl
  · exact ⟨free, .reportFault h frame v⟩

end

/-! ## Runs -/

/-- The pairs of a page number and an entry that the TLB holds. -/
abbrev Tlb := Set (ℕ × BitVec 64)

/-- The events of an operation. -/
def HeapOp.events (s : Mmu) : HeapOp → List MemEvent
  | .allocPage => s.mmuAllocPageEvents
  | .allocPages num => s.mmuAllocPagesEvents num
  | .freePage vaddr => s.mmuFreePageEvents vaddr
  | .freePages vaddr num => s.mmuFreePagesEvents vaddr num
  | .fault _ vaddr => s.pageFaultHandlerEvents vaddr

/-- The pages an operation takes back. -/
def HeapOp.frees : HeapOp → Set ℕ
  | .freePage vaddr => {p | p = pageOf vaddr}
  | .freePages vaddr num => {p | pageOf vaddr ≤ p ∧ p < pageOf vaddr + num.toInt.toNat}
  | _ => ∅

/-- The events of `page_fault_handler`. -/
theorem traces_pageFaultHandler (s : Mmu) (frame : FaultFrame) (v : Addr) :
    Traces s (s.pageFaultHandlerEvents v) (s.pageFaultHandler frame v).state := by
  have hpte := Mmu.traces_getPte s s.pml4t v false
  unfold Mmu.pageFaultHandlerEvents Mmu.pageFaultHandler
  simp only
  generalize s.getPte s.pml4t v false = r at hpte ⊢
  have halloc := hpte.trans (Mmu.traces_mmuPfAlloc r.1)
  generalize r.1.mmuPfAlloc = q at halloc ⊢
  split_ifs
  · have hprint : Traces q.1 [] (q.1.printk "Out of memory during demand paging\n" []) :=
      (Traces.refl q.1).congr rfl rfl rfl rfl
    simpa only [List.append_assoc, List.append_nil, Outcome.state] using
      halloc.trans (hprint.trans (traces_reportFault _ frame v))
  · rw [← List.append_assoc]
    exact halloc.trans ((Traces.clearPage q.1 q.2).trans
      ((Traces.store64 _ _ _).trans (Traces.invlpg _ v)))
  · exact hpte.trans (traces_reportFault r.1 frame v)

/-- The events of an operation are its stores and flushes, in any state. -/
theorem HeapOp.traces (s : Mmu) (op : HeapOp) : Traces s (op.events s) (op.run s) := by
  cases op with
  | allocPage => exact s.traces_mmuAllocPage
  | allocPages num => exact s.traces_mmuAllocPages num
  | freePage vaddr => exact s.traces_mmuFreePage vaddr
  | freePages vaddr num => exact s.traces_mmuFreePages vaddr num
  | fault frame vaddr => exact traces_pageFaultHandler s frame vaddr

/-- An operation on the heap, with what the TLB takes up and loses meanwhile. -/
def TlbStep (x : Mmu × Tlb) (op : HeapOp) (y : Mmu × Tlb) : Prop :=
  HeapOpStep x.1 op y.1 ∧ Cache.Runs MemEvent.run MemEvent.flush (tlbWalk x.1.cr3) x.1.mem x.2
    (op.events x.1) y.1.mem y.2

/-- Every operation keeps the TLB coherent, and what it frees has no present entry. -/
theorem HeapOp.steps {s s' : Mmu} {free : List Addr} {op : HeapOp} (h : HeapReady s free)
    (hb : InHeap s.kernelBrk) (hstep : HeapOpStep s op s') :
    ∃ free', Steps s free (op.events s) s' free' ∧ ∀ v, InHeap v → pageOf v ∈ op.frees →
      Unmapped (leafEntry s'.mem s.pml4t v) := by
  obtain ⟨hvalid, rfl, hend⟩ := hstep
  cases op with
  | allocPage =>
    obtain ⟨free', hs⟩ := mmuAllocPage_steps h hb
    exact ⟨free', hs, fun _ _ hmem => hmem.elim⟩
  | allocPages num =>
    obtain ⟨free', hs⟩ := mmuAllocPages_steps h hb hvalid hend
    exact ⟨free', hs, fun _ _ hmem => hmem.elim⟩
  | freePage vaddr =>
    obtain ⟨free', hs, hleaf⟩ := mmuFreePage_steps h hvalid
    refine ⟨free', hs, fun v hv hmem => ?_⟩
    have hun := hleaf v hv
    have hpage : pageOf v = pageOf vaddr := hmem
    rwa [if_pos hpage] at hun
  | freePages vaddr num =>
    exact mmuFreePages_steps h num hvalid.1 hvalid.2
  | fault frame vaddr =>
    obtain ⟨free', hs⟩ := pageFaultHandler_steps h frame hvalid
    exact ⟨free', hs, fun _ _ hmem => hmem.elim⟩

/-- The TLB agrees with the tables on the heap. -/
def TlbInv (x : Mmu × Tlb) : Prop :=
  InHeap x.1.kernelBrk ∧ (∃ free, HeapReady x.1 free) ∧
    Cache.CoherentOn (tlbWalk x.1.cr3) heapPages x.1.mem x.2

theorem tlbInv_step {x y : Mmu × Tlb} {op : HeapOp} (h : TlbInv x) (hstep : TlbStep x op y) :
    TlbInv y ∧ ∀ v, InHeap v → pageOf v ∈ op.frees → Unmapped (leafEntry y.1.mem y.1.pml4t v) := by
  obtain ⟨hb, ⟨free, hready⟩, hcoh⟩ := h
  obtain ⟨hop, hruns⟩ := hstep
  obtain ⟨free', hs, hfreed⟩ := HeapOp.steps hready hb hop
  obtain ⟨-, hcoh'⟩ := hs.keeps _ _ _ hruns hcoh
  rw [← hs.cr3] at hcoh'
  rw [← hs.pml4t] at hfreed
  exact ⟨⟨hop.2.2, ⟨free', hs.ready⟩, hcoh'⟩, hfreed⟩

/-- A coherent TLB holds the present entries of the tables. -/
theorem TlbInv.entry {x : Mmu × Tlb} (h : TlbInv x) {v e : BitVec 64} (hv : InHeap v)
    (hmem : (pageOf v, e) ∈ x.2) :
    leafEntry x.1.mem x.1.pml4t v = e ∧ e &&& ptePresent ≠ 0 := by
  obtain ⟨-, ⟨free, hready⟩, hcoh⟩ := h
  have hwalk := hcoh _ (pageOf_mem hv) e hmem
  rw [tlbWalk_heap hready.entryAddr_cr3 hready.links hv] at hwalk
  split_ifs at hwalk with hpres
  obtain rfl := Option.some.inj hwalk
  exact ⟨rfl, hpres⟩

theorem tlbInv_run {s₀ : Mmu} {c₀ : Tlb} {x : Mmu × Tlb} {free₀ : List Addr} {ops : List HeapOp}
    (h : HeapFirst s₀ free₀) (hempty : ∀ v e, InHeap v → (pageOf v, e) ∉ c₀)
    (hrun : Run TlbStep (s₀, c₀) ops x) : TlbInv x := by
  refine Run.invariant (fun _ x => TlbInv x) ⟨h.brkInHeap, ⟨free₀, h.ready⟩, ?_⟩ ?_ hrun
  · rintro p ⟨v, hv, rfl⟩ e hmem
    exact absurd hmem (hempty v e hv)
  · exact fun _ _ _ _ _ hx hstep => (tlbInv_step hx hstep).1

/-- After every run of heap operations, whatever the TLB takes up and loses meanwhile, each
heap translation it holds is the present last-level entry of the page, and it holds none of
a page the last operation freed. -/
theorem tlb_coherent {s₀ s : Mmu} {c₀ c : Tlb} {free₀ : List Addr} {ops : List HeapOp}
    (h : HeapFirst s₀ free₀) (hempty : ∀ v e, InHeap v → (pageOf v, e) ∉ c₀)
    (hrun : Run TlbStep (s₀, c₀) ops (s, c)) :
    (∀ v e, InHeap v → (pageOf v, e) ∈ c →
      leafEntry s.mem s.pml4t v = e ∧ e &&& ptePresent ≠ 0) ∧
    ∀ ops' op, ops = ops' ++ [op] → ∀ v e, InHeap v → pageOf v ∈ op.frees → (pageOf v, e) ∉ c := by
  have hinv := tlbInv_run h hempty hrun
  refine ⟨fun v e hv hmem => hinv.entry hv hmem, ?_⟩
  rintro ops' op rfl v e hv hfreed hmem
  obtain ⟨x, hrun', hstep⟩ := Run.snoc_iff.1 hrun
  have hun := (tlbInv_step (tlbInv_run h hempty hrun') hstep).2 v hv hfreed
  obtain ⟨hentry, hpres⟩ := hinv.entry hv hmem
  rw [hentry] at hun
  exact hpres hun.1

/-- The TLB that holds the entry of one page, if the tables have a present one. -/
def tlbOf (s : Mmu) (p : ℕ) : Tlb :=
  {y | y.1 = p ∧ tlbWalk s.cr3 s.mem p = some y.2}

/-- Every operation can go through with any TLB, and leave it with the entry of any page. -/
theorem tlbStep_tlbOf {s s' : Mmu} {free : List Addr} {op : HeapOp} (h : HeapReady s free)
    (hb : InHeap s.kernelBrk) (hstep : HeapOpStep s op s') (c : Tlb) (p : ℕ) :
    TlbStep (s, c) op (s', tlbOf s' p) := by
  obtain ⟨free', hs, -⟩ := HeapOp.steps h hb hstep
  have hmem : Cache.replay MemEvent.run s.mem (op.events s) = s'.mem := by
    rw [hstep.2.1, (op.traces s).mem]
  refine ⟨hstep, ?_⟩
  rw [tlbOf, hs.cr3, ← hmem]
  exact Cache.runs_fill p _ _ c

/-- An allocation, as an operation. -/
theorem heapOpStep_allocPage {s : Mmu} (hb : InHeap s.mmuAllocPage.1.kernelBrk) :
    HeapOpStep s .allocPage s.mmuAllocPage.1 :=
  ⟨trivial, rfl, hb⟩

/-- A page is allocated, gets its frame and is freed, and the TLB takes up its entry after
each of the three. -/
theorem tlb_coherent_bareHeap :
    (∀ v e, InHeap v → (pageOf v, e) ∈ tlbOf
        (bareHeap.mmuAllocPage.1.pageFaultHandler ⟨2, 0⟩ kernelHeapAdr).state
          (pageOf kernelHeapAdr) →
      leafEntry (bareHeap.mmuAllocPage.1.pageFaultHandler ⟨2, 0⟩ kernelHeapAdr).state.mem
          (bareHeap.mmuAllocPage.1.pageFaultHandler ⟨2, 0⟩ kernelHeapAdr).state.pml4t v = e ∧
        e &&& ptePresent ≠ 0) ∧
      ∀ e, (pageOf kernelHeapAdr, e) ∉
        tlbOf ((bareHeap.mmuAllocPage.1.pageFaultHandler ⟨2, 0⟩ kernelHeapAdr).state.mmuFreePage
          kernelHeapAdr) (pageOf kernelHeapAdr) := by
  have hempty : ∀ v e, InHeap v → (pageOf v, e) ∉ (∅ : Tlb) := fun _ _ _ => id
  have hfirst := heapStart_bareHeap.first
  have halloc := heapOpStep_allocPage mmuAllocPage_brk_bareHeap
  -- the kernel must not unfold the states
  obtain ⟨s₁, hs₁⟩ : ∃ s₁, s₁ = bareHeap.mmuAllocPage.1 := ⟨_, rfl⟩
  rw [← hs₁] at halloc ⊢
  have hfault : HeapOpStep s₁ (.fault ⟨2, 0⟩ kernelHeapAdr)
      (s₁.pageFaultHandler ⟨2, 0⟩ kernelHeapAdr).state :=
    ⟨inHeap_kernelHeapAdr, rfl, by rw [pageFaultHandler_kernelBrk]; exact halloc.2.2⟩
  obtain ⟨s₂, hs₂⟩ : ∃ s₂, s₂ = (s₁.pageFaultHandler ⟨2, 0⟩ kernelHeapAdr).state := ⟨_, rfl⟩
  rw [← hs₂] at hfault ⊢
  have hfree : HeapOpStep s₂ (.freePage kernelHeapAdr) (s₂.mmuFreePage kernelHeapAdr) :=
    ⟨inHeap_kernelHeapAdr, rfl, by rw [Mmu.mmuFreePage_kernelBrk]; exact hfault.2.2⟩
  have hrun₁ := Run.nil.snoc (tlbStep_tlbOf hfirst.ready hfirst.brkInHeap halloc ∅
    (pageOf kernelHeapAdr))
  obtain ⟨-, ⟨free₁, hready₁⟩, -⟩ := tlbInv_run hfirst hempty hrun₁
  have hrun₂ := hrun₁.snoc (tlbStep_tlbOf hready₁ halloc.2.2 hfault _ (pageOf kernelHeapAdr))
  obtain ⟨-, ⟨free₂, hready₂⟩, -⟩ := tlbInv_run hfirst hempty hrun₂
  have hrun₃ := hrun₂.snoc (tlbStep_tlbOf hready₂ hfault.2.2 hfree _ (pageOf kernelHeapAdr))
  exact ⟨(tlb_coherent hfirst hempty hrun₂).1,
    fun e => (tlb_coherent hfirst hempty hrun₃).2 _ _ rfl kernelHeapAdr e inHeap_kernelHeapAdr rfl⟩

end KernelDev
