import KernelDev.HeapBuilt

/-!
# The TLB and the page tables

A store may leave a cached entry stale. Three kinds of stores do not : into a page that is not a
table, of a link to a cleared table, and over an entry of the heap that is not present, since the
TLB cannot hold it. A store that clears a present entry does, until the page is flushed.

The cache of the library has a rule for each of these, on sets of pages whose entries are coherent.
`TlbKeeps` is its instance for the walk of the processor : the events keep the entries of the pages
of `D` coherent, up to those of `D'`, which may be fewer after a store and more after a flush.
`tlbWalk_heap` says what the walk of a heap page reads, so that the rules can be used.

`Steps` carries this through the functions of `mmu.c` with their events : the state is in order
again, the events are those of the function, and the cached heap translations stay coherent. It
composes, and its rules are about parts that functions have in common : stores into free frames, as
building and taking from the free list are; a frame that is taken, cleared and linked
(`Steps.keeps_link`); and the levels of `get_pte` (`nextTable_steps`).
-/

namespace KernelDev

open ByteMem PathTree

/-! ## The walk of a heap page -/

/-- The pages of the heap. -/
def heapPages : Set ℕ :=
  {p | ∃ v, InHeap v ∧ pageOf v = p}

theorem pageOf_mem {v : BitVec 64} (hv : InHeap v) : pageOf v ∈ heapPages :=
  ⟨v, hv, rfl⟩

/-- The first address of a heap page is in the heap and in the page. -/
theorem heapPage_base {v : BitVec 64} (hv : InHeap v) :
    InHeap (BitVec.ofNat 64 (4096 * pageOf v)) ∧
      pageOf (BitVec.ofNat 64 (4096 * pageOf v)) = pageOf v := by
  rw [inHeap_iff] at hv ⊢
  unfold pageOf
  rw [BitVec.toNat_ofNat]
  omega

/-- The walk of a heap page ends at its last-level entry, if that is present. -/
theorem tlbWalk_heap {m : Mem} {r : Addr} {cr3 v : BitVec 64} (hcr3 : entryAddr cr3 = r)
    (hl : HeapLinks m r) (hv : InHeap v) :
    tlbWalk cr3 m (pageOf v) =
      if leafEntry m r v &&& ptePresent = 0 then none else some (leafEntry m r v) := by
  obtain ⟨hbase, hpage⟩ := heapPage_base hv
  rw [tlbWalk, hwPte_heap hcr3 hl hbase, leafEntry_congr hbase hv hpage]

/-! ## Events that leave no stale entry -/

/-- From `m` the events keep the cached entries of the pages of `D` coherent, up to the pages
of `D'`. -/
abbrev TlbKeeps (cr3 : BitVec 64) (D D' : Set ℕ) (m : Mem) (es : List MemEvent) : Prop :=
  Cache.Keeps MemEvent.run MemEvent.flush (tlbWalk cr3) D D' m es

section

variable {cr3 : BitVec 64} {r : Addr} {m : Mem} {es : List MemEvent} {e : MemEvent} {D : Set ℕ}

/-- A store over entries that are not present leaves no stale one. -/
theorem keeps_of_leaf (hcr3 : entryAddr cr3 = r) (hl : HeapLinks m r)
    (hl' : HeapLinks (e.run m) r) (hD : D ⊆ heapPages)
    (h : ∀ v, InHeap v → pageOf v ∈ D → leafEntry m r v &&& ptePresent = 0 ∨
      leafEntry (e.run m) r v = leafEntry m r v) : TlbKeeps cr3 heapPages D m [e] := by
  refine Cache.keeps_event fun p hp => Or.inr ⟨hD hp, ?_⟩
  obtain ⟨v, hv, rfl⟩ := hD hp
  rw [tlbWalk_heap hcr3 hl hv, tlbWalk_heap hcr3 hl' hv]
  rcases h v hv hp with hpres | hsame
  · exact Or.inl (if_pos hpres)
  · rw [hsame]
    exact Or.inr rfl

/-- Stores into pages that are not tables. -/
theorem keeps_of_in {P : Set ℕ} (hcr3 : entryAddr cr3 = r) (hl : HeapLinks m r)
    (hP : ∀ m', (∀ x, pageOf x ∉ P → m' x = m x) → KeepsTables m m' r)
    (hes : ∀ e ∈ es, e.In P) : TlbKeeps cr3 heapPages heapPages m es := by
  refine Cache.keeps_of_walk_eq fun pre hpre p hp => ?_
  obtain ⟨v, hv, rfl⟩ := hp
  have hkeeps := hP (Cache.replay MemEvent.run m pre) fun x hx =>
    replay_of_in hx m fun e he => hes e (hpre.subset he)
  rw [tlbWalk_heap hcr3 hl hv, tlbWalk_heap hcr3 (hkeeps.links hl) hv, hkeeps.leafEntry hv]

/-- An `invlpg` makes the entries of its page coherent. -/
theorem keeps_invlpg (cr3 : BitVec 64) (m : Mem) (v : BitVec 64) :
    TlbKeeps cr3 (heapPages \ {pageOf v}) heapPages m [.invlpg v] := by
  refine Cache.keeps_event fun p hp => ?_
  by_cases hpage : p = pageOf v
  · exact Or.inl ⟨v, rfl, hpage.symm⟩
  · exact Or.inr ⟨⟨hp, hpage⟩, Or.inr rfl⟩

theorem keeps_invlpg_self (cr3 : BitVec 64) (m : Mem) (v : BitVec 64) :
    TlbKeeps cr3 heapPages heapPages m [.invlpg v] :=
  Cache.keeps_event fun _ hp => Or.inr ⟨hp, Or.inr rfl⟩

end

/-! ## Steps -/

/-- The events lead from `s` to `s'`, which is in order, and keep the TLB coherent. -/
structure Steps (s : Mmu) (free : List Addr) (es : List MemEvent) (s' : Mmu) (free' : List Addr) :
    Prop where
  /-- The state is in order again. -/
  ready : HeapReady s' free'
  cr3 : s'.cr3 = s.cr3
  traces : Traces s es s'
  /-- The heap translations of the TLB stay coherent. -/
  keeps : TlbKeeps s.cr3 heapPages heapPages s.mem es

namespace Steps

variable {s t u : Mmu} {free free₁ free₂ : List Addr} {es es' : List MemEvent}

theorem pml4t (h : Steps s free es t free₁) : t.pml4t = s.pml4t := by
  rw [Mmu.pml4t, Mmu.pml4t, h.cr3]

theorem refl (h : HeapReady s free) : Steps s free [] s free :=
  ⟨h, rfl, .refl s, Cache.keeps_nil⟩

theorem trans (h : Steps s free es t free₁) (h' : Steps t free₁ es' u free₂) :
    Steps s free (es ++ es') u free₂ := by
  refine ⟨h'.ready, h'.cr3.trans h.cr3, h.traces.trans h'.traces, h.keeps.append ?_⟩
  rw [h.traces.mem, ← h.cr3]
  exact h'.keeps

theorem printk (h : HeapReady s free) (fmt : String) (args : List PrintkArg) :
    Steps s free [] (s.printk fmt args) free :=
  ⟨h.printk fmt args, rfl, (Traces.refl s).congr rfl rfl rfl rfl, Cache.keeps_nil⟩

theorem invlpg (h : HeapReady s free) (a : Addr) : Steps s free [.invlpg a] (s.invlpg a) free :=
  ⟨h.invlpg a, rfl, .invlpg s a, keeps_invlpg_self _ _ a⟩

theorem growBrk (h : HeapReady s free) (hb : InHeap s.kernelBrk) :
    Steps s free [] s.growBrk free :=
  ⟨h.growBrk hb, s.growBrk_cr3, Mmu.traces_growBrk s, Cache.keeps_nil⟩

end Steps

namespace HeapReady

variable {s s' : Mmu} {free free' : List Addr} {es : List MemEvent} {v : BitVec 64}

theorem entryAddr_cr3 (h : HeapReady s free) : entryAddr s.cr3 = s.pml4t :=
  entryAddr_eq h.root

/-- Stores into free frames. -/
theorem keeps_of_in (h : HeapReady s free) (hes : ∀ e ∈ es, e.In (framePages free)) :
    TlbKeeps s.cr3 heapPages heapPages s.mem es :=
  KernelDev.keeps_of_in h.entryAddr_cr3 h.links (fun _ hm => h.keepsTables hm) hes

/-- Stores into free frames, and then one that changes no present entry. -/
theorem keeps_append_store (h : HeapReady s free) {e : MemEvent}
    (hes : ∀ e ∈ es, e.In (framePages free)) (htr : Traces s (es ++ [e]) s')
    (hl : HeapLinks s'.mem s.pml4t)
    (hleaf : ∀ v, InHeap v → leafEntry s.mem s.pml4t v &&& ptePresent = 0 ∨
      leafEntry s'.mem s.pml4t v = leafEntry s.mem s.pml4t v) :
    TlbKeeps s.cr3 heapPages heapPages s.mem (es ++ [e]) := by
  have hlast : e.run (Cache.replay MemEvent.run s.mem es) = s'.mem := by
    rw [← htr.mem, Cache.replay_append]
    rfl
  have hkeeps := h.keepsTables (m := Cache.replay MemEvent.run s.mem es) fun x hx =>
    replay_of_in hx s.mem hes
  refine (h.keeps_of_in hes).append
    (keeps_of_leaf h.entryAddr_cr3 (hkeeps.links h.links) (hlast ▸ hl) subset_rfl fun v hv _ => ?_)
  rw [hlast, hkeeps.leafEntry hv]
  exact hleaf v hv

/-- A frame `MMU_pf_alloc` returns was free. -/
theorem mmuPfAlloc_mem (h : HeapReady s free) (hne : s.mmuPfAlloc.2 ≠ 0) :
    s.mmuPfAlloc.2 ∈ free := by
  rw [← Mmu.mmuPfAlloc_built h.inv.listed] at hne ⊢
  cases free with
  | nil =>
    rw [Mmu.mmuPfAlloc_nil h.inv.listed h.inv.list] at hne
    exact absurd rfl hne
  | cons f l =>
    rw [Mmu.mmuPfAlloc_cons h.inv.listed h.inv.list]
    exact List.mem_cons_self

/-- `MMU_pf_alloc` stores into free frames. -/
theorem in_mmuPfAllocEvents (h : HeapReady s free) :
    ∀ e ∈ s.mmuPfAllocEvents, e.In (framePages free) := by
  intro e he
  rcases List.mem_append.1 he with he | he
  · exact Mmu.builtEvents_in h.first h.inv.list e he
  · split_ifs at he with hhead
    · cases he
    · have hmem : s.built.freePageHead ∈ free := by
        cases free with
        | nil => exact absurd (h.inv.list.eq_nil_iff.1 rfl) hhead
        | cons f l =>
          rw [(Chain.cons_iff.1 h.inv.list).1]
          exact List.mem_cons_self
      exact in_clear hmem (h.inv.frames _ hmem).aligned e he

/-- A frame is taken and cleared, and a store follows that changes no present entry. -/
theorem keeps_link (h : HeapReady s free) {e : MemEvent} (hne : s.mmuPfAlloc.2 ≠ 0)
    (htr : Traces s
      (s.mmuPfAllocEvents ++ (memsetEvents s.mmuPfAlloc.2 0 pageSize.toNat ++ [e])) s')
    (hl : HeapLinks s'.mem s.pml4t)
    (hleaf : ∀ v, InHeap v → leafEntry s.mem s.pml4t v &&& ptePresent = 0 ∨
      leafEntry s'.mem s.pml4t v = leafEntry s.mem s.pml4t v) :
    TlbKeeps s.cr3 heapPages heapPages s.mem
      (s.mmuPfAllocEvents ++ (memsetEvents s.mmuPfAlloc.2 0 pageSize.toNat ++ [e])) := by
  have hmem := h.mmuPfAlloc_mem hne
  rw [← List.append_assoc] at htr ⊢
  refine h.keeps_append_store (fun e he => ?_) htr hl hleaf
  rcases List.mem_append.1 he with he | he
  · exact h.in_mmuPfAllocEvents e he
  · exact in_clear hmem (h.inv.frames _ hmem).aligned e he

end HeapReady

/-! ## `get_pte` -/

section

variable {s : Mmu} {free : List Addr} {t : Addr} {i : Index} {p : List Index} {v : BitVec 64}

/-- One level of `get_pte` that may create. -/
theorem nextTable_steps (h : HeapReady s free) (hp : HeapTablePath (i :: p))
    (ht : node s.mem s.pml4t p = some t) (msg : String) :
    ∃ free', Steps s free (s.nextTableEvents (slot t i) true) (s.nextTable (slot t i) true msg).1
        free' ∧
      Extends s.built free (s.nextTable (slot t i) true msg).1.built free' ∧
      ∀ u, (s.nextTable (slot t i) true msg).2 = some u →
        node (s.nextTable (slot t i) true msg).1.mem s.pml4t (i :: p) = some u := by
  have hpD := parentClosed_treePaths i p hp.mem
  have ht' : node s.built.mem s.built.pml4t p = some t := by
    rw [h.built_pml4t, h.node_eq hpD, ht]
  obtain ⟨free', he, hnode⟩ := nextTable_create h.inv hp ht' msg
  have hword : word s.built.mem t i = word s.mem t i := h.keeps_built p t i hp.mem ht
  have htr := Mmu.traces_nextTable s (slot t i) true msg
  by_cases hpres : word s.mem t i &&& ptePresent = 0
  · -- a frame is taken, so the list is built from here on
    have hsame : s.built.nextTable (slot t i) true msg = s.nextTable (slot t i) true msg := by
      unfold Mmu.nextTable
      rw [read64_slot, read64_slot, hword, if_pos hpres, if_pos hpres,
        Mmu.mmuPfAlloc_built h.inv.listed]
      simp only [Bool.not_true, Bool.false_eq_true, if_false]
    have hev : s.nextTableEvents (slot t i) true = s.mmuPfAllocEvents ++
        if s.mmuPfAlloc.2 = 0 then []
        else memsetEvents s.mmuPfAlloc.2 0 pageSize.toNat ++
          [.word (slot t i) ((s.mmuPfAlloc.2 &&& pageMask) ||| ptePresent ||| pteWritable)] := by
      unfold Mmu.nextTableEvents
      rw [read64_slot, if_pos hpres]
      rfl
    rw [hsame] at he hnode
    have hcr3 := he.cr3
    have hleaf := he.leaf
    have hlinks := he.inv.links
    rw [he.pml4t] at hlinks
    rw [h.built_pml4t] at hnode hleaf hlinks
    rw [h.built_cr3] at hcr3
    have hready : HeapReady (s.nextTable (slot t i) true msg).1 free' := by
      refine he.inv.ready ?_
      rw [he.pml4t, h.built_pml4t]
      exact h.root
    refine ⟨free', ⟨hready, hcr3, htr, ?_⟩, (Mmu.built_of_listed he.inv.listed).symm ▸ he, hnode⟩
    rw [hev] at htr ⊢
    split_ifs at htr ⊢ with hnull
    · rw [List.append_nil]
      exact h.keeps_of_in h.in_mmuPfAllocEvents
    · refine h.keeps_link hnull htr hlinks fun v hv => Or.inr ?_
      rw [hleaf v hv, h.leafEntry_eq hv]
  · have hstep : s.nextTable (slot t i) true msg = (s, some (word s.mem t i &&& pageMask)) := by
      unfold Mmu.nextTable
      rw [read64_slot, if_neg hpres, physToVirt]
    have hstep' : s.built.nextTable (slot t i) true msg =
        (s.built, some (word s.mem t i &&& pageMask)) := by
      unfold Mmu.nextTable
      rw [read64_slot, hword, if_neg hpres, physToVirt]
    have hev : s.nextTableEvents (slot t i) true = [] := by
      unfold Mmu.nextTableEvents
      rw [read64_slot, if_neg hpres]
    rw [hstep'] at hnode
    rw [hstep, hev]
    refine ⟨free, .refl h, .refl h.inv, fun u hu => ?_⟩
    rw [← h.node_eq hp.mem, ← h.built_pml4t]
    exact hnode u hu

/-- `get_pte` with `create_if_not_exist`. -/
theorem getPte_steps (h : HeapReady s free) (hv : InHeap v) :
    ∃ free', Steps s free (s.getPteEvents s.pml4t v true) (s.getPte s.pml4t v true).1 free' ∧
      Extends s.built free (s.getPte s.pml4t v true).1.built free' ∧
      ((s.getPte s.pml4t v true).2 ≠ 0 →
        ∃ pt, node (s.getPte s.pml4t v true).1.mem s.pml4t (tablePath v) = some pt ∧
          (s.getPte s.pml4t v true).2 = slot pt (ptIndex v)) := by
  obtain ⟨free₁, hs₁, he₁, ht₁⟩ :=
    nextTable_steps (p := []) h (heapTablePath_pdpt hv) rfl "Failed to allocate PDPT\n"
  unfold Mmu.getPteEvents Mmu.getPte getPageIndices
  simp only [entryAt_eq_slot]
  generalize s.nextTable (slot s.pml4t ((v >>> 39).setWidth 9)) true
    "Failed to allocate PDPT\n" = step₁ at hs₁ he₁ ht₁
  obtain ⟨s₁, _ | pdpt⟩ := step₁
  · refine ⟨free₁, ?_, he₁, fun hne => absurd rfl hne⟩
    rw [Option.elim_none, List.append_nil]
    exact hs₁
  have hpdpt := ht₁ pdpt rfl
  rw [← hs₁.pml4t] at hpdpt
  obtain ⟨free₂, hs₂, he₂, ht₂⟩ :=
    nextTable_steps hs₁.ready (heapTablePath_pd hv) hpdpt "Failed to allocate PD\n"
  simp only [Option.elim_some]
  generalize s₁.nextTable (slot pdpt ((v >>> 30).setWidth 9)) true
    "Failed to allocate PD\n" = step₂ at hs₂ he₂ ht₂
  have hs₂' := hs₁.trans hs₂
  obtain ⟨s₂, _ | pdt⟩ := step₂
  · refine ⟨free₂, ?_, he₁.trans he₂, fun hne => absurd rfl hne⟩
    rw [Option.elim_none, List.append_nil]
    exact hs₂'
  have hpdt := ht₂ pdt rfl
  rw [hs₁.pml4t, ← hs₂'.pml4t] at hpdt
  obtain ⟨free₃, hs₃, he₃, ht₃⟩ :=
    nextTable_steps hs₂.ready (heapTablePath_table hv) hpdt "Failed to allocate PT\n"
  simp only [Option.elim_some]
  generalize s₂.nextTable (slot pdt ((v >>> 21).setWidth 9)) true
    "Failed to allocate PT\n" = step₃ at hs₃ he₃ ht₃
  have hs₃' := hs₁.trans (hs₂.trans hs₃)
  have he₃' := he₁.trans (he₂.trans he₃)
  obtain ⟨s₃, _ | pt⟩ := step₃
  · exact ⟨free₃, hs₃', he₃', fun hne => absurd rfl hne⟩
  refine ⟨free₃, hs₃', he₃', fun _ => ⟨pt, ?_, rfl⟩⟩
  have hpt := ht₃ pt rfl
  rwa [hs₂'.pml4t] at hpt

/-- `get_pte` that only looks stores nothing. -/
theorem getPteEvents_lookup (s : Mmu) (r v : BitVec 64) : s.getPteEvents r v false = [] := by
  have hlevel : ∀ (s : Mmu) (a : Addr), s.nextTableEvents a false = [] := fun s a => by
    unfold Mmu.nextTableEvents
    split_ifs with habsent hcreate
    · rfl
    · exact absurd rfl hcreate
    · rfl
  have helim : ∀ (o : Option Addr) (f : Addr → List MemEvent), (∀ x, f x = []) →
      o.elim [] f = [] := fun o f hf => by
    cases o with
    | none => rfl
    | some x => exact hf x
  unfold Mmu.getPteEvents
  simp only [hlevel, List.nil_append]
  exact helim _ _ fun pdpt => helim _ _ fun pdt => rfl

/-! ## The stores to last-level entries -/

variable {pt : Addr} {e k : BitVec 64}

/-- The store commutes with building the list. -/
theorem beforeBuild_writeLeaf (h : HeapReady s free)
    (hpt : node s.mem s.pml4t (tablePath v) = some pt) :
    BeforeBuild (writeLeaf · (slot pt (ptIndex v)) e k) s free := by
  have hal := aligned_of_node (aligned_pml4t s) hpt
  refine .writeLeaf s e k hal fun f hf => ⟨(h.inv.frames f hf).aligned, ?_⟩
  rintro rfl
  refine h.inv.fresh f hf ⟨_, tablePath_mem v, ?_⟩
  rw [h.built_pml4t]
  exact (h.node_eq (tablePath_mem v)).trans hpt

/-- A store over an entry that is not present, of one that is not. -/
theorem writeLeaf_ready (h : HeapReady s free) (hv : InHeap v)
    (hpt : node s.mem s.pml4t (tablePath v) = some pt) (hnull : slot pt (ptIndex v) ≠ 0)
    (hk : s.kernelBrk.toNat ≤ k.toNat) (hka : Aligned k)
    (hold : leafEntry s.mem s.pml4t v &&& ptePresent = 0)
    (he : Unmapped e ∨ e = demandEntry ∧ v.toNat < k.toNat) :
    HeapReady (writeLeaf s (slot pt (ptIndex v)) e k) free ∧ ∀ u, InHeap u →
      leafEntry (writeLeaf s (slot pt (ptIndex v)) e k).mem s.pml4t u =
        if pageOf u = pageOf v then e else leafEntry s.mem s.pml4t u := by
  have hcomm := beforeBuild_writeLeaf (e := e) (k := k) h hpt
  have hpt' : node s.built.mem s.built.pml4t (tablePath v) = some pt := by
    rw [h.built_pml4t, h.node_eq (tablePath_mem v), hpt]
  have hk' : s.built.kernelBrk.toNat ≤ k.toNat := h.built_kernelBrk ▸ hk
  have hold' : leafEntry s.built.mem s.built.pml4t v &&& ptePresent = 0 := by
    rw [h.built_pml4t, h.leafEntry_eq hv, hold]
  have hinv := (conserves_writeLeaf h.inv hv hpt' hnull hk' hka hold' he).inv
  have hleaf : ∀ u, InHeap u →
      leafEntry (writeLeaf s.built (slot pt (ptIndex v)) e k).mem s.pml4t u =
        if pageOf u = pageOf v then e else leafEntry s.built.mem s.pml4t u := fun u hu => by
    have := (setsLeaf_writeLeaf (e := e) hpt' hnull hk' hka).leaf h.inv hv hu
    rwa [h.built_pml4t] at this
  have hready : HeapReady (writeLeaf s (slot pt (ptIndex v)) e k) free := by
    refine hcomm.ready h hinv fun u hu => ?_
    rw [hleaf u hu]
    split_ifs
    · rcases he with he | ⟨rfl, -⟩
      · exact Or.inl he.1
      · exact Or.inl rfl
    · exact Or.inr rfl
  refine ⟨hready, fun u hu => ?_⟩
  have hu' := hready.leafEntry_eq hu
  rwa [hcomm.pml4t, hcomm.built h, hleaf u hu, h.leafEntry_eq hu, eq_comm] at hu'

/-- The store to the entry of a page, as an event. -/
theorem writeLeaf_steps (h : HeapReady s free) (hv : InHeap v)
    (hpt : node s.mem s.pml4t (tablePath v) = some pt) (hnull : slot pt (ptIndex v) ≠ 0)
    (hk : s.kernelBrk.toNat ≤ k.toNat) (hka : Aligned k)
    (hold : leafEntry s.mem s.pml4t v &&& ptePresent = 0)
    (he : Unmapped e ∨ e = demandEntry ∧ v.toNat < k.toNat) :
    Steps s free [.word (slot pt (ptIndex v)) e] (writeLeaf s (slot pt (ptIndex v)) e k) free := by
  have hcomm := beforeBuild_writeLeaf (e := e) (k := k) h hpt
  obtain ⟨hready, hleaf⟩ := writeLeaf_ready h hv hpt hnull hk hka hold he
  have htr : Traces s ([] ++ [.word (slot pt (ptIndex v)) e])
      (writeLeaf s (slot pt (ptIndex v)) e k) := (Traces.store64 s _ _).congr rfl rfl rfl rfl
  have hlinks := hready.links
  rw [hcomm.pml4t] at hlinks
  refine ⟨hready, hcomm.cr3, htr, ?_⟩
  refine h.keeps_append_store (fun e he => absurd he (by simp)) htr hlinks fun u hu => ?_
  rw [hleaf u hu]
  split_ifs with hpage
  · rw [leafEntry_congr hu hv hpage]
    exact Or.inl hold
  · exact Or.inr rfl

end

end KernelDev
