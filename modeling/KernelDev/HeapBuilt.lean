import KernelDev.Tlb
import KernelDev.HeapRuns
import KernelDev.FrameContract

/-!
# The heap before its first frame

The free list is built by the first call of `MMU_pf_alloc`, which can come late : pages are marked
and freed without a frame as long as their tables exist. So a run of the heap may begin with a list
that is not there. `HeapReady` is the heap invariant for the list that is built or will be, and all
that is known of the heap is said of the state with the list built (`Mmu.built`).

Building the list stores into the frames it lists and nowhere else (`in_builtEvents`), so it keeps
the tables (`HeapReady.keeps_built`). And it commutes with all that happens before it : such a step
does not touch the frames that will be listed, does not look at the head, and leaves the flag and
the region table as they are. `BeforeBuild` is that condition on a step, and `built_of_first` says
that the step can be taken before the list is built or after it. `printk`, `invlpg`, moving
`kernel_brk` and the store to the entry of a page are such steps.

What was shown with a built list then holds of any start : `HeapFirst` is one in either state.
-/

namespace KernelDev

open ByteMem PathTree

/-! ## Where events store -/

/-- The event stores into pages of `P`. -/
def MemEvent.In (P : Set ℕ) : MemEvent → Prop
  | byte a _ => pageOf a ∈ P
  | word a _ => ∀ x, Within a 8 x → pageOf x ∈ P
  | invlpg _ => True

/-- The pages of the frames. -/
def framePages (frames : List Addr) : Set ℕ :=
  {p | ∃ f ∈ frames, pageOf f = p}

/-- An event changes no byte outside of the pages it stores into. -/
theorem run_of_in {P : Set ℕ} {e : MemEvent} (he : e.In P) (m : Mem) {x : Addr}
    (hx : pageOf x ∉ P) : e.run m x = m x := by
  cases e with
  | byte a b =>
    have hne : x ≠ a := by
      rintro rfl
      exact hx he
    exact Function.update_of_ne hne b m
  | word a v => exact write64_of_not_within fun hw => hx (he x hw)
  | invlpg a => rfl

theorem replay_of_in {P : Set ℕ} {x : Addr} (hx : pageOf x ∉ P) : ∀ {es : List MemEvent} (m : Mem),
    (∀ e ∈ es, e.In P) → Cache.replay MemEvent.run m es x = m x
  | [], _, _ => rfl
  | e :: es, m, h =>
    (replay_of_in hx (e.run m) fun e' he' => h e' (by simp [he'])).trans
      (run_of_in (h e (by simp)) m hx)

/-- `memset` stores into its range. -/
theorem in_memsetEvents {P : Set ℕ} {c : BitVec 8} : ∀ {n : ℕ} {dst : Addr}, n ≤ 2 ^ 64 →
    (∀ x, Within dst n x → pageOf x ∈ P) → ∀ e ∈ memsetEvents dst c n, e.In P
  | 0, _, _, _, _, he => absurd he (by simp [memsetEvents])
  | n + 1, dst, hn, h, e, he => by
    have hw : ∀ x, x = dst ∨ Within (dst + 1) n x → pageOf x ∈ P := fun x hx =>
      h x ((within_succ (by omega)).2 hx)
    rcases List.mem_cons.1 he with rfl | he
    · exact hw dst (Or.inl rfl)
    · exact in_memsetEvents (by omega) (fun x hx => hw x (Or.inr hx)) e he

theorem in_clear {frames : List Addr} {f : Addr} (hf : f ∈ frames) (hal : Aligned f) :
    ∀ e ∈ memsetEvents f 0 pageSize.toNat, e.In (framePages frames) :=
  in_memsetEvents (by decide) fun x hx => ⟨f, hf, (hal.within_iff.1 hx).symm⟩

theorem in_word {frames : List Addr} {f : Addr} (hf : f ∈ frames) (hal : Aligned f)
    (v : BitVec 64) : (MemEvent.word f v).In (framePages frames) := by
  intro x hx
  rw [← slot_zero f] at hx
  exact ⟨f, hf, (hal.pageOf_of_within_slot hx).symm⟩

namespace Mmu

/-- The inner loop of `init_free_page_list` stores into the pages it lists. -/
theorem in_addPagesFromEvents {end_ : Addr} (hend : Aligned end_) {frames : List Addr} :
    ∀ {n k : ℕ} {s : Mmu} {addr : Addr}, Aligned addr → end_.toNat - addr.toNat = 4096 * k →
    (∀ f ∈ framesFrom addr k, f ∈ frames) →
    ∀ e ∈ s.addPagesFromEvents addr end_ n, e.In (framePages frames)
  | 0, _, _, _, _, _, _, _, he => absurd he (by simp [addPagesFromEvents])
  | n + 1, 0, s, addr, _, hdiff, _, e, he => by
    have hge : ¬addr < end_ := fun hlt => by
      have : addr.toNat < end_.toNat := hlt
      omega
    rw [addPagesFromEvents, if_neg hge] at he
    cases he
  | n + 1, k + 1, s, addr, hal, hdiff, hsub, e, he => by
    have hlt : addr.toNat < end_.toNat := by omega
    obtain ⟨hnext, hal'⟩ := next_page hend hal hlt
    rw [addPagesFromEvents, if_pos (show addr < end_ from hlt)] at he
    rcases List.mem_append.1 he with he | he
    · obtain rfl := List.mem_singleton.1 he
      exact in_word (hsub addr (by simp [framesFrom])) hal _
    · exact in_addPagesFromEvents (k := k) hend hal' (by omega)
        (fun f hf => hsub f (by simp [framesFrom, hf])) e he

theorem in_addRegionEvents {s : Mmu} {r : MemRegion} (hs : Aligned r.start) (he : Aligned r.end_)
    {frames : List Addr} (hsub : ∀ f ∈ r.frames, f ∈ frames) :
    ∀ e ∈ s.addRegionEvents r, e.In (framePages frames) := by
  have hfloor := MemRegion.aligned_floor hs
  intro e hmem
  by_cases htype : r.type = multibootMemoryAvailable
  · rw [MemRegion.frames, if_pos htype] at hsub
    rw [addRegionEvents, if_pos htype] at hmem
    have hmem : e ∈ if r.floor ≥ r.end_ then [] else
      s.addPagesFromEvents r.floor r.end_ ((r.end_ - r.floor).toNat / 4096 + 1) := hmem
    split_ifs at hmem with hge
    · cases hmem
    · have hlt : r.floor.toNat < r.end_.toNat := Nat.not_le.1 hge
      refine in_addPagesFromEvents he hfloor ?_ hsub e hmem
      unfold Aligned at he hfloor
      omega
  · rw [addRegionEvents, if_neg htype] at hmem
    cases hmem

theorem in_addRegionsEvents {frames : List Addr} : ∀ {regions : List MemRegion} {s : Mmu},
    (∀ r ∈ regions, Aligned r.start ∧ Aligned r.end_) →
    (∀ f ∈ listedFrames regions, f ∈ frames) →
    ∀ e ∈ s.addRegionsEvents regions, e.In (framePages frames)
  | [], _, _, _, _, he => absurd he (by simp [addRegionsEvents])
  | r :: regions, s, hal, hsub, e, he => by
    have hr := hal r (by simp)
    rw [listedFrames, List.flatMap_cons] at hsub
    rcases List.mem_append.1 he with he | he
    · exact in_addRegionEvents hr.1 hr.2 (fun f hf => hsub f (by simp [hf])) e he
    · exact in_addRegionsEvents (fun r hr => hal r (by simp [hr]))
        (fun f hf => hsub f (List.mem_append_right _ hf)) e he

/-- Building the list stores into the frames it lists. -/
theorem in_builtEvents {s : Mmu} (hal : ∀ r ∈ s.memoryRegions, Aligned r.start ∧ Aligned r.end_) :
    ∀ e ∈ s.builtEvents, e.In (framePages (listedFrames s.memoryRegions)) := by
  intro e he
  unfold builtEvents initFreePageListEvents at he
  split_ifs at he
  · cases he
  · exact in_addRegionsEvents hal (fun _ hf => hf) e he
  · cases he

/-! ## The built list -/

/-- A list that is built is not built again. -/
theorem built_of_listed {s : Mmu} (hs : s.freeListInitialized = true) : s.built = s := by
  simp [built, hs]

/-- A list that is not built is built. -/
theorem built_of_unbuilt {s : Mmu} (hs : s.freeListInitialized = false) :
    s.built = s.initFreePageList := by
  simp [built, hs]

theorem builtEvents_of_listed {s : Mmu} (hs : s.freeListInitialized = true) :
    s.builtEvents = [] := by
  simp [builtEvents, hs]

/-- `MMU_pf_alloc` starts with the built list. -/
theorem mmuPfAlloc_built {s : Mmu} (hs : s.built.freeListInitialized = true) :
    s.built.mmuPfAlloc = s.mmuPfAlloc := by
  have hbuilt : (if !s.freeListInitialized then s.initFreePageList else s) = s.built := rfl
  have hagain : (if !s.built.freeListInitialized then s.built.initFreePageList else s.built) =
      s.built := built_of_listed hs
  rw [mmuPfAlloc, mmuPfAlloc, hbuilt, hagain]

/-- What does not touch the listed frames can come before the pushes. -/
theorem foldl_addPageToFreeList_comm {g : Mmu → Mmu} : ∀ {frames : List Addr} (s : Mmu),
    (∀ f ∈ frames, ∀ t : Mmu, (g t).addPageToFreeList f = g (t.addPageToFreeList f)) →
    frames.foldl addPageToFreeList (g s) = g (frames.foldl addPageToFreeList s)
  | [], _, _ => rfl
  | f :: frames, s, h => by
    rw [List.foldl_cons, List.foldl_cons, h f (by simp)]
    exact foldl_addPageToFreeList_comm _ fun f' hf' => h f' (by simp [hf'])

end Mmu

/-- The flag `free_list_initialized` set. -/
def Mmu.markListed (s : Mmu) : Mmu :=
  { s with freeListInitialized := true }

/-- The list is built by marking it and pushing the listed frames. -/
theorem Unbuilt.built_foldl {s : Mmu} (h : Unbuilt s) :
    s.built = (listedFrames s.memoryRegions).foldl Mmu.addPageToFreeList s.markListed := by
  rw [Mmu.built_of_unbuilt h.built]
  exact Mmu.initFreePageList_eq h.table.aligned h.built

/-- Building the list changes memory and the head. -/
theorem Unbuilt.built_eq {s : Mmu} (h : Unbuilt s) :
    ∃ m head, s.built = { s with freeListInitialized := true, mem := m, freePageHead := head } ∧
      Chain (read64 m) 0 head (listedFrames s.memoryRegions).reverse := by
  obtain ⟨m, head, heq, hlist⟩ := Mmu.initFreePageList_listsTo h.table h.built h.head
  exact ⟨m, head, (Mmu.built_of_unbuilt h.built).trans heq, hlist⟩

/-- What is to be listed is the free frames. -/
theorem Unbuilt.listed_eq {s : Mmu} {free : List Addr} (h : Unbuilt s)
    (hlist : s.built.FreeList free) : (listedFrames s.memoryRegions).reverse = free := by
  obtain ⟨m, head, heq, hchain⟩ := h.built_eq
  rw [heq] at hlist
  exact hchain.unique hlist

/-- Building the list stores into the free frames. -/
theorem Mmu.builtEvents_in {s : Mmu} {free : List Addr}
    (h : s.freeListInitialized = false → Unbuilt s) (hlist : s.built.FreeList free) :
    ∀ e ∈ s.builtEvents, e.In (framePages free) := by
  cases hs : s.freeListInitialized with
  | true =>
    rw [Mmu.builtEvents_of_listed hs]
    exact fun e he => absurd he (by simp)
  | false =>
    have hpages : framePages (listedFrames s.memoryRegions) = framePages free := by
      rw [← (h hs).listed_eq hlist]
      simp only [framePages, List.mem_reverse]
    rw [← hpages]
    exact Mmu.in_builtEvents (h hs).table.aligned

theorem Mmu.built_mem {s : Mmu} {free : List Addr} (h : s.freeListInitialized = false → Unbuilt s)
    (hlist : s.built.FreeList free) {x : Addr} (hx : pageOf x ∉ framePages free) :
    s.built.mem x = s.mem x := by
  rw [← (Mmu.traces_built s).mem]
  exact replay_of_in hx _ (Mmu.builtEvents_in h hlist)

theorem Mmu.built_cr3 {s : Mmu} (h : s.freeListInitialized = false → Unbuilt s) :
    s.built.cr3 = s.cr3 := by
  cases hs : s.freeListInitialized with
  | true => rw [Mmu.built_of_listed hs]
  | false =>
    obtain ⟨m, head, heq, -⟩ := (h hs).built_eq
    rw [heq]

/-- The heap invariant holds, with the free list built or to be built. Until it is built no
heap page is mapped. -/
structure HeapReady (s : Mmu) (free : List Addr) : Prop where
  /-- The invariant, with the list built. -/
  inv : HeapInv s.built free
  root : s.pml4t.toNat < 2 ^ 52
  first : s.freeListInitialized = false → Unbuilt s
  unmapped : s.freeListInitialized = false →
    ∀ v, InHeap v → leafEntry s.built.mem s.pml4t v &&& ptePresent = 0

theorem HeapInv.ready {s : Mmu} {free : List Addr} (h : HeapInv s free)
    (hroot : s.pml4t.toNat < 2 ^ 52) : HeapReady s free := by
  have hlisted : ¬s.freeListInitialized = false := by simp [h.listed]
  exact ⟨(Mmu.built_of_listed h.listed).symm ▸ h, hroot, fun hs => absurd hs hlisted,
    fun hs => absurd hs hlisted⟩

/-- Where the runs start, with the free list built or still to be built from `free`. -/
structure HeapFirst (s : Mmu) (free : List Addr) : Prop where
  start : HeapStart s.built free
  first : s.freeListInitialized = false → Unbuilt s

theorem HeapStart.first {s : Mmu} {free : List Addr} (h : HeapStart s free) : HeapFirst s free :=
  ⟨(Mmu.built_of_listed h.listed).symm ▸ h, fun hs => absurd hs (by simp [h.listed])⟩

theorem HeapFirst.ready {s : Mmu} {free : List Addr} (h : HeapFirst s free) :
    HeapReady s free := by
  have hpml4t : s.built.pml4t = s.pml4t := by rw [Mmu.pml4t, Mmu.pml4t, Mmu.built_cr3 h.first]
  refine ⟨h.start.inv, hpml4t ▸ h.start.root, h.first, fun _ v hv => ?_⟩
  rw [← hpml4t]
  exact (h.start.unmapped v hv).1

/-- The tables stay when only pages of free frames change. -/
theorem HeapInv.keepsTables {s : Mmu} {free : List Addr} (h : HeapInv s free) {m : Mem}
    (hm : ∀ x, pageOf x ∉ framePages free → m x = s.mem x) : KeepsTables s.mem m s.pml4t := by
  refine .of_pages (aligned_pml4t s) hm ?_
  rintro p t hp ht ⟨f, hf, hpage⟩
  obtain rfl := (h.frames f hf).aligned.eq_of_pageOf_eq (aligned_of_node (aligned_pml4t s) ht) hpage
  exact h.fresh f hf ⟨p, Or.inl hp, ht⟩

namespace HeapReady

variable {s : Mmu} {free : List Addr} {v : BitVec 64}

theorem built_cr3 (h : HeapReady s free) : s.built.cr3 = s.cr3 :=
  Mmu.built_cr3 h.first

theorem built_kernelBrk (h : HeapReady s free) : s.built.kernelBrk = s.kernelBrk := by
  cases hs : s.freeListInitialized with
  | true => rw [Mmu.built_of_listed hs]
  | false =>
    obtain ⟨m, head, heq, -⟩ := (h.first hs).built_eq
    rw [heq]

theorem built_pml4t (h : HeapReady s free) : s.built.pml4t = s.pml4t := by
  rw [Mmu.pml4t, Mmu.pml4t, h.built_cr3]

/-- Building the list keeps the tables. -/
theorem keeps_built (h : HeapReady s free) : KeepsTables s.mem s.built.mem s.pml4t := by
  rw [← h.built_pml4t]
  exact (h.inv.keepsTables fun x hx => (Mmu.built_mem h.first h.inv.list hx).symm).symm

theorem node_eq (h : HeapReady s free) {p : List Index} (hp : p ∈ treePaths) :
    node s.built.mem s.pml4t p = node s.mem s.pml4t p :=
  h.keeps_built.nodes p hp

theorem leafEntry_eq (h : HeapReady s free) (hv : InHeap v) :
    leafEntry s.built.mem s.pml4t v = leafEntry s.mem s.pml4t v :=
  h.keeps_built.leafEntry hv

theorem leafSlot_eq (h : HeapReady s free) (v : BitVec 64) :
    leafSlot s.built.mem s.pml4t v = leafSlot s.mem s.pml4t v :=
  h.keeps_built.leafSlot v

theorem links (h : HeapReady s free) : HeapLinks s.mem s.pml4t := by
  have hl := h.inv.links
  rw [h.built_pml4t] at hl
  exact h.keeps_built.symm.links hl

/-- The tables stay when only pages of free frames change. -/
theorem keepsTables (h : HeapReady s free) {m : Mem}
    (hm : ∀ x, pageOf x ∉ framePages free → m x = s.mem x) : KeepsTables s.mem m s.pml4t := by
  have hbuilt := h.inv.keepsTables (m := m) fun x hx => by
    rw [hm x hx, Mmu.built_mem h.first h.inv.list hx]
  rw [h.built_pml4t] at hbuilt
  intro q t j hq ht
  have ht' := (h.node_eq (parentClosed_treePaths _ _ hq)).trans ht
  exact (hbuilt q t j hq ht').trans (h.keeps_built q t j hq ht)

end HeapReady

/-! ## Steps that can come before the list is built -/

/-- The step `g` leaves the free list alone, so it can come before the list is built. -/
structure BeforeBuild (g : Mmu → Mmu) (s : Mmu) (free : List Addr) : Prop where
  listed : (g s).freeListInitialized = s.freeListInitialized
  regions : (g s).memoryRegions = s.memoryRegions
  head : (g s).freePageHead = s.freePageHead
  cr3 : (g s).cr3 = s.cr3
  mark : (g s).markListed = g s.markListed
  /-- The step can come before a frame is pushed, or after. -/
  push : ∀ f ∈ free, ∀ t : Mmu, (g t).addPageToFreeList f = g (t.addPageToFreeList f)

namespace BeforeBuild

variable {g : Mmu → Mmu} {s : Mmu} {free : List Addr}

theorem pml4t (hg : BeforeBuild g s free) : (g s).pml4t = s.pml4t := by
  rw [Mmu.pml4t, Mmu.pml4t, hg.cr3]

theorem unbuilt (hg : BeforeBuild g s free) (h : Unbuilt s) : Unbuilt (g s) :=
  ⟨hg.regions ▸ h.table, hg.listed.trans h.built, hg.head.trans h.head⟩

/-- Such a step can be taken before the list is built, or after. -/
theorem built_of_first (hg : BeforeBuild g s free) (h : s.freeListInitialized = false → Unbuilt s)
    (hlist : s.built.FreeList free) : (g s).built = g s.built := by
  cases hs : s.freeListInitialized with
  | true => rw [Mmu.built_of_listed hs, Mmu.built_of_listed (hg.listed.trans hs)]
  | false =>
    rw [(h hs).built_foldl, (hg.unbuilt (h hs)).built_foldl, hg.regions, hg.mark]
    refine Mmu.foldl_addPageToFreeList_comm _ fun f hf => hg.push f ?_
    rw [← (h hs).listed_eq hlist]
    exact List.mem_reverse.2 hf

theorem built (hg : BeforeBuild g s free) (h : HeapReady s free) : (g s).built = g s.built :=
  hg.built_of_first h.first h.inv.list

/-- A step that keeps the invariant of the built list, and maps nothing. -/
theorem ready (hg : BeforeBuild g s free) (h : HeapReady s free) (hinv : HeapInv (g s.built) free)
    (hleaf : ∀ v, InHeap v → leafEntry (g s.built).mem s.pml4t v &&& ptePresent = 0 ∨
      leafEntry (g s.built).mem s.pml4t v = leafEntry s.built.mem s.pml4t v) :
    HeapReady (g s) free := by
  refine ⟨(hg.built h).symm ▸ hinv, hg.pml4t.symm ▸ h.root, fun hs => ?_, fun hs v hv => ?_⟩
  · exact hg.unbuilt (h.first (hg.listed.symm.trans hs))
  · rw [hg.built h, hg.pml4t]
    rcases hleaf v hv with hpres | hsame
    · exact hpres
    · rw [hsame]
      exact h.unmapped (hg.listed.symm.trans hs) v hv

theorem printk (s : Mmu) (free : List Addr) (fmt : String) (args : List PrintkArg) :
    BeforeBuild (Mmu.printk · fmt args) s free := by
  refine ⟨rfl, rfl, rfl, rfl, rfl, fun f _ t => ?_⟩
  simp only [Mmu.printk, Mmu.addPageToFreeList, Mmu.store64]

theorem invlpg (s : Mmu) (free : List Addr) (a : Addr) : BeforeBuild (Mmu.invlpg · a) s free := by
  refine ⟨rfl, rfl, rfl, rfl, rfl, fun f _ t => ?_⟩
  simp only [Mmu.invlpg, Mmu.addPageToFreeList, Mmu.store64]

theorem growBrk (s : Mmu) (free : List Addr) : BeforeBuild Mmu.growBrk s free := by
  refine ⟨?_, ?_, ?_, ?_, ?_, fun f _ t => ?_⟩ <;>
    simp only [Mmu.growBrk, Mmu.markListed, Mmu.addPageToFreeList, Mmu.store64]

/-- A store into a page that is not free. -/
theorem writeLeaf (s : Mmu) {t : Addr} {i : Index} (e k : BitVec 64) (ht : Aligned t)
    (hfree : ∀ f ∈ free, Aligned f ∧ f ≠ t) :
    BeforeBuild (KernelDev.writeLeaf · (slot t i) e k) s free := by
  refine ⟨rfl, rfl, rfl, rfl, rfl, fun f hf u => ?_⟩
  obtain ⟨hal, hne⟩ := hfree f hf
  have hdisj : ∀ x, Within (slot t i) 8 x → ¬Within f 8 x := by
    intro x hx
    rw [← slot_zero f]
    exact not_within_slot hal ht (fun hc => hne hc.1.symm) hx
  simp only [KernelDev.writeLeaf, Mmu.addPageToFreeList, Mmu.store64, write64_comm u.mem hdisj]

end BeforeBuild

namespace HeapReady

variable {s : Mmu} {free : List Addr} {v : BitVec 64}

theorem printk (h : HeapReady s free) (fmt : String) (args : List PrintkArg) :
    HeapReady (s.printk fmt args) free :=
  (BeforeBuild.printk s free fmt args).ready h { h.inv with } fun _ _ => Or.inr rfl

theorem invlpg (h : HeapReady s free) (a : Addr) : HeapReady (s.invlpg a) free :=
  (BeforeBuild.invlpg s free a).ready h { h.inv with } fun _ _ => Or.inr rfl

theorem growBrk (h : HeapReady s free) (hb : InHeap s.kernelBrk) : HeapReady s.growBrk free := by
  rw [← h.built_kernelBrk] at hb
  refine (BeforeBuild.growBrk s free).ready h (h.inv.growBrk hb) fun v _ => Or.inr ?_
  rw [Mmu.growBrk_mem]

end HeapReady

theorem HeapFirst.brkInHeap {s : Mmu} {free : List Addr} (h : HeapFirst s free) :
    InHeap s.kernelBrk :=
  h.ready.built_kernelBrk ▸ h.start.brkInHeap

end KernelDev
