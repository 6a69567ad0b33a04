import KernelDev.HeapOps

/-!
# Kernel accesses to the heap

A byte access walks the tables the way the processor does. A walk that ends at an entry that is not
present raises a page fault, and the instruction is tried again when the handler returns.
`Completes` is such an access that goes through in the end, after any number of faults; a handler
that halts the machine never completes it.

In the tables of the heap the walk of the processor is that of `get_pte`, level by level
(`hwLevel`, `heapWalk`) : the entries are not huge, and the bits that the processor takes for the
address are those of `PAGE_MASK`, as the addresses are physical. So it finds the frame of the page
(`hwTranslate_heap`), and the byte there is `heapByte`.

`completes_spec` and `storeByte_spec` are for the callers. The faults on the way change no byte of
the heap; a read returns the byte of its address (`read_spec`); and a write changes this byte and
no other, since no two heap addresses share a physical byte (`HeapInv.eq_of_byte_eq`).
`HeapInv.completes` says when an access does go through : the byte is there, and its page has a
frame or gets one.
-/

namespace KernelDev

open ByteMem PathTree

/-- The access at `v` goes through : it starts in the first state, reaches the second after
any page faults, and finds the byte at the physical address. -/
inductive Completes (v : BitVec 64) : Mmu → Mmu → Addr → Prop
  | hit {s : Mmu} {pa : Addr} : hwTranslate s.mem s.cr3 v = some pa → Completes v s s pa
  | fault {s s₁ s' : Mmu} {pa : Addr} {frame : FaultFrame} : hwTranslate s.mem s.cr3 v = none →
      s.pageFaultHandler frame v = .returned s₁ → Completes v s₁ s' pa → Completes v s s' pa

/-! ## The processor's walk -/

/-- The processor takes the address of an entry from the bits that `PAGE_MASK` leaves. -/
theorem entryAddr_eq {e : BitVec 64} (h : (e &&& pageMask).toNat < 2 ^ 52) :
    entryAddr e = e &&& pageMask := by
  have hsplit : entryAddr e = (e &&& pageMask) &&& (2 ^ 52 - 1) := by
    rw [entryAddr, BitVec.and_assoc]
    rfl
  apply BitVec.eq_of_toNat_eq
  rw [hsplit, BitVec.toNat_and, show ((2 ^ 52 - 1 : BitVec 64)).toNat = 2 ^ 52 - 1 from rfl,
    Nat.and_two_pow_sub_one_eq_mod, Nat.mod_eq_of_lt h]

section

variable {s : Mmu} {free : List Addr} {v : BitVec 64}

/-- One level of the processor's walk through the heap tables. -/
theorem hwLevel {m : Mem} {r t : Addr} {i : Index} {p : List Index} (hl : HeapLinks m r)
    (hp : HeapTablePath (i :: p)) (ht : node m r p = some t) :
    word m t i &&& ptePresent = 0 ∧ node m r (i :: p) = none ∨
      word m t i &&& ptePresent ≠ 0 ∧ word m t i &&& pteHuge = 0 ∧
        node m r (i :: p) = some (entryAddr (word m t i)) := by
  by_cases hpres : word m t i &&& ptePresent = 0
  · exact Or.inl ⟨hpres, (walk_cons_of_some ht i).trans (childOf_eq_none hpres)⟩
  · obtain ⟨hhuge, hlt⟩ := hl i p t hp ht hpres
    refine Or.inr ⟨hpres, hhuge, (walk_cons_of_some ht i).trans ?_⟩
    rw [childOf, if_pos ⟨hpres, hhuge⟩, entryAddr_eq hlt]

/-- The processor's walk for a heap address goes through its tables to its last-level entry. -/
theorem heapWalk {m : Mem} {r : Addr} {cr3 : BitVec 64} (hcr3 : entryAddr cr3 = r)
    (hl : HeapLinks m r) (hv : InHeap v) :
    leafEntry m r v &&& ptePresent = 0 ∧ hwPte m cr3 v = none ∨
      leafEntry m r v &&& ptePresent ≠ 0 ∧ hwPte m cr3 v = some (leafEntry m r v) ∧
        hwTranslate m cr3 v = some (entryAddr (leafEntry m r v) + pageOffset v) := by
  unfold hwPte hwTranslate getPageIndices
  simp only [hcr3, entryAt_eq_slot, read64_slot]
  rcases hwLevel (p := []) hl (heapTablePath_pdpt hv) rfl with
    ⟨hpres, hnode⟩ | ⟨hpres, -, hpdpt⟩
  · rw [if_pos hpres, leafEntry_of_none (walk_cons_of_none (walk_cons_of_none hnode _) _)]
    exact Or.inl ⟨rfl, rfl⟩
  rw [if_neg hpres, if_neg hpres]
  rcases hwLevel hl (heapTablePath_pd hv) hpdpt with ⟨hpres, hnode⟩ | ⟨hpres, hhuge, hpd⟩
  · rw [if_pos hpres, leafEntry_of_none (walk_cons_of_none hnode _)]
    exact Or.inl ⟨rfl, rfl⟩
  rw [if_neg hpres, if_neg hpres, if_neg (not_not.2 hhuge), if_neg (not_not.2 hhuge)]
  rcases hwLevel hl (heapTablePath_table hv) hpd with ⟨hpres, hnode⟩ | ⟨hpres, hhuge, hpt⟩
  · rw [if_pos hpres, leafEntry_of_none hnode]
    exact Or.inl ⟨rfl, rfl⟩
  rw [if_neg hpres, if_neg hpres, if_neg (not_not.2 hhuge), if_neg (not_not.2 hhuge),
    leafEntry_of_node hpt]
  by_cases hleaf : leafEntry m r v &&& ptePresent = 0
  · rw [leafEntry_of_node hpt] at hleaf
    exact Or.inl ⟨hleaf, if_pos hleaf⟩
  · rw [leafEntry_of_node hpt] at hleaf
    exact Or.inr ⟨hleaf, if_neg hleaf, if_neg hleaf⟩

/-- The processor finds the last-level entry of a heap page, if it is present. -/
theorem hwPte_heap {m : Mem} {r : Addr} {cr3 : BitVec 64} (hcr3 : entryAddr cr3 = r)
    (hl : HeapLinks m r) (hv : InHeap v) :
    hwPte m cr3 v =
      if leafEntry m r v &&& ptePresent = 0 then none else some (leafEntry m r v) := by
  rcases heapWalk hcr3 hl hv with ⟨hpres, hpte⟩ | ⟨hpres, hpte, -⟩
  · rw [hpte, if_pos hpres]
  · rw [hpte, if_neg hpres]

/-- The processor finds a heap byte in the frame of its page. -/
theorem hwTranslate_heap (h : HeapInv s free) (hroot : s.pml4t.toNat < 2 ^ 52) (hv : InHeap v) :
    hwTranslate s.mem s.cr3 v =
      if leafEntry s.mem s.pml4t v &&& ptePresent = 0 then none
      else some ((leafEntry s.mem s.pml4t v &&& pageMask) + pageOffset v) := by
  have hcr3 : entryAddr s.cr3 = s.pml4t := entryAddr_eq hroot
  rcases heapWalk hcr3 h.links hv with ⟨hpres, hpte⟩ | ⟨hpres, -, htr⟩
  · rw [if_pos hpres, (hwPte_eq_none_iff _ _ _).1 hpte]
  · obtain ⟨f, hf, he⟩ := h.mapped hv hpres
    have hlt : (leafEntry s.mem s.pml4t v &&& pageMask).toNat < 2 ^ 52 := by
      rw [he, mappedEntry_pageMask hf.aligned]
      exact hf.below
    rw [if_neg hpres, htr, entryAddr_eq hlt]

end

/-! ## Accesses that go through -/

section

variable {s s' : Mmu} {free : List Addr} {v : BitVec 64} {pa : Addr}

/-- A heap access that goes through finds the byte of its page's frame; the page faults on
the way change no heap byte. -/
theorem completes_spec (hroot : s.pml4t.toNat < 2 ^ 52) (hv : InHeap v) (hc : Completes v s s' pa)
    (h : HeapInv s free) :
    ∃ free', Conserves s free s' free' ∧ s'.kernelBrk = s.kernelBrk ∧
      (∀ u, InHeap u → heapByte s'.mem s.pml4t u = heapByte s.mem s.pml4t u) ∧
      ∃ f, IsFrame f ∧ leafEntry s'.mem s.pml4t v = mappedEntry f ∧ pa = f + pageOffset v := by
  induction hc generalizing free with
  | hit htr =>
    rw [hwTranslate_heap h hroot hv] at htr
    split_ifs at htr with hpres
    obtain ⟨f, hf, he⟩ := h.mapped hv hpres
    rw [he, mappedEntry_pageMask hf.aligned, Option.some.injEq] at htr
    exact ⟨free, .refl h, rfl, fun _ _ => rfl, f, hf, he, htr.symm⟩
  | @fault s s₁ s' pa frame _ hret _ ih =>
    obtain ⟨free₁, hc₁, hbrk₁, hbytes₁⟩ := pageFaultHandler_spec h frame hv
    rw [hret, Outcome.state] at hc₁ hbrk₁ hbytes₁
    obtain ⟨free₂, hc₂, hbrk₂, hbytes₂, hf⟩ := ih (hc₁.pml4t ▸ hroot) hc₁.inv
    rw [hc₁.pml4t] at hbytes₂ hf
    exact ⟨free₂, hc₁.trans hc₂, hbrk₂.trans hbrk₁,
      fun u hu => (hbytes₂ u hu).trans (hbytes₁ u hu), hf⟩

/-- A heap access goes through if the byte is there, and the page has a frame or gets one. -/
theorem HeapInv.completes (h : HeapInv s free) (hroot : s.pml4t.toNat < 2 ^ 52) (hv : InHeap v)
    {b : BitVec 8} (hb : heapByte s.mem s.pml4t v = some b) (hfree : b ≠ 0 ∨ free ≠ []) :
    ∃ t pa, Completes v s t pa := by
  rcases h.leaf v hv with hl | hl | ⟨f, hf, hl⟩
  · rw [heapByte_of_unmapped hl] at hb
    cases hb
  · have hzero : b = 0 := by
      rw [heapByte_of_demand hl] at hb
      exact (Option.some.inj hb).symm
    obtain ⟨f, l, rfl⟩ := List.exists_cons_of_ne_nil (hfree.resolve_left (not_not.2 hzero))
    obtain ⟨pt, hpt, hnull⟩ := h.node_of_demand hv hl
    have hmiss : hwTranslate s.mem s.cr3 v = none := by
      rw [hwTranslate_heap h hroot hv, hl, if_pos demandEntry_absent]
    have hlinked := (conserves_linkFrame h hv hpt hnull hl).invlpg v
    have hleaf := ((setsLeaf_linkFrame h hpt hnull).leaf h hv hv).trans (if_pos rfl)
    have hhit := hwTranslate_heap hlinked.inv (hlinked.pml4t.symm ▸ hroot) hv
    rw [hlinked.pml4t, Mmu.invlpg_mem, hleaf, if_neg (mappedEntry_present f)] at hhit
    have hret : s.pageFaultHandler ⟨0, 0⟩ v =
        .returned ((linkFrame s f (slot pt (ptIndex v))).invlpg v) :=
      pageFaultHandler_demand h hv hpt hnull hl
    exact ⟨_, _, .fault hmiss hret (.hit hhit)⟩
  · have hhit := hwTranslate_heap h hroot hv
    rw [hl, if_neg (mappedEntry_present f)] at hhit
    exact ⟨s, _, .hit hhit⟩

/-- What a completed read returns. -/
theorem read_spec (h : HeapInv s free) (hroot : s.pml4t.toNat < 2 ^ 52) (hv : InHeap v)
    (hc : Completes v s s' pa) : heapByte s.mem s.pml4t v = some (s'.mem pa) := by
  obtain ⟨-, -, -, hbytes, f, hf, he, rfl⟩ := completes_spec hroot hv hc h
  rw [← hbytes v hv, heapByte_of_mapped hf.aligned he]

/-- A state whose tables and free frames read as those of `s` do is in order. -/
theorem conserves_of_words (h : HeapInv s free) (s' : Mmu) (hcr3 : s'.cr3 = s.cr3)
    (hbrk : s'.kernelBrk = s.kernelBrk) (hhead : s'.freePageHead = s.freePageHead)
    (hlisted : s'.freeListInitialized = s.freeListInitialized)
    (htables : KeepsTables s.mem s'.mem s.pml4t)
    (hfree : ∀ f ∈ free, read64 s'.mem f = read64 s.mem f) :
    Conserves s free s' free := by
  have hroot : s'.pml4t = s.pml4t := by rw [Mmu.pml4t, Mmu.pml4t, hcr3]
  have hnodes := htables.nodes
  refine ⟨⟨hlisted.trans h.listed, ?_, h.nodup, h.frames, ?_, fun f hf hr => ?_, ?_,
    fun u hu => ?_, hbrk ▸ h.brkAligned, fun u hu hle => ?_, fun u hu hnull => ?_⟩, hcr3,
    fun f hf => ?_⟩
  · rw [Mmu.FreeList, hhead]
    exact Chain.congr h.list hfree
  · intro p hp q hq t htp htq
    rw [hroot] at htp htq
    exact h.unique p hp q hq t ((hnodes p hp).symm.trans htp) ((hnodes q hq).symm.trans htq)
  · rw [hroot] at hr
    exact h.fresh f hf ((htables.reached_iff f).1 hr)
  · rw [hroot]
    exact htables.links h.links
  · rw [hroot, htables.leafEntry hu]
    exact h.leaf u hu
  · rw [hroot, htables.leafEntry hu]
    exact h.unused u hu (hbrk ▸ hle)
  · rw [hroot] at hnull ⊢
    rw [htables.leafEntry hu]
    exact h.null u hu ((htables.leafSlot u).symm.trans hnull)
  · rw [Placed, hroot]
    exact hf.imp_right (htables.reached_iff f).2

/-- Heap addresses with one physical byte are one address. -/
theorem HeapInv.eq_of_byte_eq (h : HeapInv s free) {u : BitVec 64} {f g : Addr} (hu : InHeap u)
    (hv : InHeap v) (hg : IsFrame g) (hf : IsFrame f)
    (heg : leafEntry s.mem s.pml4t u = mappedEntry g)
    (hef : leafEntry s.mem s.pml4t v = mappedEntry f)
    (hpa : g + pageOffset u = f + pageOffset v) : u = v := by
  have hgf : g = f := by
    refine hg.aligned.eq_of_pageOf_eq hf.aligned ?_
    rw [← pageOf_add_pageOffset hg.aligned u, ← pageOf_add_pageOffset hf.aligned v, hpa]
  subst hgf
  have hpath := h.unique _ (pathOf_mem hu) _ (pathOf_mem hv) _
    (node_of_leafEntry hg.aligned heg) (node_of_leafEntry hf.aligned hef)
  have hpage := (hu.pathOf_eq_iff hv).1 hpath
  have hoff : pageOffset u = pageOffset v := by
    simpa only [BitVec.add_right_inj] using hpa
  have hoff' : u.toNat % 4096 = v.toNat % 4096 := by
    rw [← pageOffset_toNat, ← pageOffset_toNat, hoff]
  unfold pageOf at hpage
  apply BitVec.eq_of_toNat_eq
  omega

/-- The tables stay when only the frame of a heap page changes. -/
theorem HeapInv.keepsTables_frame (h : HeapInv s free) (hv : InHeap v) {f : Addr} (hf : IsFrame f)
    (he : leafEntry s.mem s.pml4t v = mappedEntry f) {m : Mem}
    (hm : ∀ x, pageOf x ≠ pageOf f → m x = s.mem x) : KeepsTables s.mem m s.pml4t := by
  refine .of_pages (P := {pageOf f}) (aligned_pml4t s) hm fun p t hp ht hpage => ?_
  exact h.frame_ne_table hv hf.aligned he hp ht
    (hf.aligned.eq_of_pageOf_eq (aligned_of_node (aligned_pml4t s) ht) hpage.symm)

/-- Storing a byte in the frame of a heap page changes that byte of the heap and no other. -/
theorem storeByte_spec (h : HeapInv s free) (hv : InHeap v) {f : Addr} (hf : IsFrame f)
    (he : leafEntry s.mem s.pml4t v = mappedEntry f) (b : BitVec 8) :
    Conserves s free (s.storeByte (f + pageOffset v) b) free ∧
      ∀ u, InHeap u → heapByte (s.storeByte (f + pageOffset v) b).mem s.pml4t u =
        if u = v then some b else heapByte s.mem s.pml4t u := by
  have hframe : pageOf (f + pageOffset v) = pageOf f := pageOf_add_pageOffset hf.aligned v
  have htables : KeepsTables s.mem (s.storeByte (f + pageOffset v) b).mem s.pml4t := by
    refine h.keepsTables_frame hv hf he fun x hx => Function.update_of_ne ?_ _ _
    rintro rfl
    exact hx hframe
  have hleaf {u : BitVec 64} (hu : InHeap u) := htables.leafEntry hu
  refine ⟨conserves_of_words h _ rfl rfl rfl rfl htables fun g hg => ?_, fun u hu => ?_⟩
  · have hgf : f ≠ g := by
      rintro rfl
      exact h.frame_notMem hv hf.aligned he hg
    have hal := (h.frames g hg).aligned
    rw [read64_eq_word, read64_eq_word]
    exact word_update hal (hframe ▸ hf.aligned.pageOf_ne hal hgf) b 0
  split_ifs with huv
  · rw [huv, heapByte_of_mapped hf.aligned ((hleaf hv).trans he)]
    exact congrArg some (Function.update_self _ _ _)
  · refine heapByte_congr (h.leaf u hu) (hleaf hu) fun g hg heg => ?_
    exact Function.update_of_ne (fun hpa => huv (h.eq_of_byte_eq hu hv hg hf heg he hpa)) _ _

end

end KernelDev
