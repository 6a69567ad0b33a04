import KernelDev.AllocFailure
import KernelDev.FreeRange

/-!
# Page-table trees under every call

The functions of `mmu.c` that work on pages and frames keep a tree in order, with the free list
built or still to be built (`PageState`), as long as they walk page tables and are given no frame
that is a table or free. Each of them stores the entry of its own page and of no other one; so what
is known of the entry of a page stays true until a call is about that page.

`PageState s free v Q` has both : the tree is in order, and the last-level entry of `v` satisfies
`Q`. There is a lemma for every function, from the frame allocator up to `MMU_alloc_pages`, for
other pages than that of `v`. The conditions are on the call and the state before it : a frame can
be given back (`FrameApart`), `MMU_free_page` meets no huge page and frees such a frame
(`FreeApart`), and the same for each page in turn where a function has a loop (`FreesApart`,
`AllocsApart`), with the state that the loop is in by then.

A page fault is the one event that may map a page that nobody mapped. It halts the machine if the
page is not marked or no frame is left, and gives it the first free frame otherwise.
-/

namespace KernelDev

open ByteMem

theorem KeepsEntries.trans {m m' m'' : Mem} {r : Addr} (h : KeepsEntries m m' r)
    (h' : KeepsEntries m' m'' r) : KeepsEntries m m'' r := fun q u j hq hu =>
  (h' q u j hq ((h.tableAt hq).trans hu)).trans (h q u j hq hu)

/-- Clearing a page that is no table. -/
theorem keepsEntries_fill {m : Mem} {r f : Addr} (hr : Aligned r) (hf : Aligned f)
    (hnot : NotTable m r f) : KeepsEntries m (fill m f 0 4096) r := by
  intro q u j hq hu
  rw [word_fill_zero hf (aligned_tableAt hr hu), if_neg]
  rintro rfl
  exact hnot q hq hu

namespace Mmu

/-- The last-level entry of `vaddr`. -/
def leafOf (s : Mmu) (vaddr : BitVec 64) : BitVec 64 :=
  pathEntry s.mem s.pml4t (pathOf vaddr)

/-- The frame `f` can be given back : it is no page table, and the list is built and does not
have it. -/
def FrameApart (s : Mmu) (f : Addr) : Prop :=
  s.freeListInitialized = true ∧ NotTable s.mem s.pml4t f ∧ ∀ free, s.FreeList free → f ∉ free

/-- `MMU_free_page` walks page tables, and a frame that it gives back can be given back. -/
def FreeApart (s : Mmu) (vaddr : Addr) : Prop :=
  NoHuge s.mem s.pml4t vaddr ∧ (s.leafOf vaddr &&& ptePresent ≠ 0 →
    s.leafOf vaddr &&& pageMask ≠ 0 → s.FrameApart (s.leafOf vaddr &&& pageMask))

/-- So do the calls of `MMU_free_page` for the addresses, one after the other. -/
def FreesApart (s : Mmu) : List Addr → Prop
  | [] => True
  | vaddr :: pages => s.FreeApart vaddr ∧ FreesApart (s.mmuFreePage vaddr) pages

/-- `get_pte` walks page tables for the page at `kernel_brk`, which is not that of `vaddr`. -/
def BrkApart (s : Mmu) (vaddr : BitVec 64) : Prop :=
  NoHuge s.mem s.pml4t s.kernelBrk ∧ virtPage s.kernelBrk ≠ virtPage vaddr

/-- The loop of `MMU_alloc_pages` does so for each page, and the pages that it gives up can be
freed. -/
def AllocsApart (vaddr : BitVec 64) (startAddr : Addr) : Mmu → BitVec 32 → ℕ → Prop
  | _, _, 0 => True
  | s, i, n + 1 => s.BrkApart vaddr ∧
    if s.brkPte.2 = 0 then s.brkPte.1.FreesApart (s.brkPte.1.freedPages startAddr i)
    else AllocsApart vaddr startAddr s.reservePage (i + 1) n

end Mmu

theorem Mmu.leafOf_invlpg (s : Mmu) (a : Addr) (v : BitVec 64) :
    (s.invlpg a).leafOf v = s.leafOf v :=
  rfl

theorem Mmu.leafOf_growBrk (s : Mmu) (v : BitVec 64) : s.growBrk.leafOf v = s.leafOf v := by
  rw [Mmu.leafOf, Mmu.growBrk_mem, Mmu.growBrk_pml4t, Mmu.leafOf]

/-! ## Steps before the list is built -/

section

variable {s : Mmu} {free : List Addr} {pt f : Addr} {w e : BitVec 64}

theorem TableInv.growBrk (h : TableInv s free) : TableInv s.growBrk free := by
  refine ⟨?_, ?_, h.nodup, h.aligned, ?_, ?_⟩
  · rw [Mmu.growBrk_freeListInitialized]
    exact h.listed
  · rw [Mmu.FreeList, Mmu.growBrk_mem, Mmu.growBrk_freePageHead]
    exact h.list
  · rw [Mmu.growBrk_mem, Mmu.growBrk_pml4t]
    exact h.distinct
  · rw [Mmu.growBrk_mem, Mmu.growBrk_pml4t]
    exact h.apart

/-- A store into a page that is not free. -/
theorem BeforeBuild.store64 {i : Index} (hpt : Aligned pt)
    (hfree : ∀ f ∈ free, Aligned f ∧ f ≠ pt) :
    BeforeBuild (Mmu.store64 · (slot pt i) e) s free := by
  refine ⟨rfl, rfl, rfl, rfl, rfl, fun f hf u => ?_⟩
  obtain ⟨hal, hne⟩ := hfree f hf
  have hdisj : ∀ x, Within (slot pt i) 8 x → ¬Within f 8 x := by
    intro x hx
    rw [← slot_zero f]
    exact not_within_slot hal hpt (fun hc => hne hc.1.symm) hx
  simp only [Mmu.addPageToFreeList, Mmu.store64, write64_comm u.mem hdisj]

/-- Clearing a frame that is neither a table nor free. -/
theorem TableInv.clearPage (h : TableInv s free) (hf : Aligned f) (hnot : NotTable s.mem s.pml4t f)
    (hfree : f ∉ free) : TableInv (s.clearPage f) free := by
  have hroot : (s.clearPage f).pml4t = s.pml4t := by rw [Mmu.pml4t, Mmu.clearPage_cr3, Mmu.pml4t]
  have htab : ∀ q, q.length ≤ 3 →
      tableAt (s.clearPage f).mem (s.clearPage f).pml4t q = tableAt s.mem s.pml4t q :=
      fun q hq => by
    rw [hroot, Mmu.clearPage_mem, (keepsEntries_fill (aligned_pml4t s) hf hnot).tableAt hq]
  refine ⟨?_, ?_, h.nodup, h.aligned, h.distinct.congr htab, fun g hg => (h.apart g hg).congr htab⟩
  · rw [Mmu.clearPage_freeListInitialized]
    exact h.listed
  · rw [Mmu.FreeList, Mmu.clearPage_freePageHead]
    refine Chain.congr h.list fun g hg => ?_
    rw [Mmu.clearPage_mem, read64_fill_page hf (h.aligned g hg), if_neg]
    rintro rfl
    exact hfree hg

/-- The frame at the head of the list is taken. -/
theorem TableInv.takeFrame {l : List Addr} (h : TableInv s (f :: l)) :
    TableInv (s.takeFrame f) l := by
  have hf := h.aligned f (by simp)
  have htab : ∀ q, q.length ≤ 3 →
      tableAt (s.takeFrame f).mem (s.takeFrame f).pml4t q = tableAt s.mem s.pml4t q := fun q hq =>
    (keepsEntries_fill (aligned_pml4t s) hf (h.apart f (by simp))).tableAt hq
  exact ⟨h.listed, h.list.takeFrame h.aligned h.nodup, (List.nodup_cons.1 h.nodup).2,
    fun g hg => h.aligned g (by simp [hg]), h.distinct.congr htab,
    fun g hg => (h.apart g (by simp [hg])).congr htab⟩

/-- A step that leaves the free list alone keeps the state in order if it does so with the list
built. -/
theorem TableReady.before {g : Mmu → Mmu} (h : TableReady s free) (hg : BeforeBuild g s free)
    (hinv : TableInv (g s.built) free) : TableReady (g s) free :=
  ⟨(hg.built_of_first h.first h.inv.list).symm ▸ hinv,
    fun hs => hg.unbuilt (h.first (hg.listed.symm.trans hs))⟩

theorem TableReady.printk (h : TableReady s free) (fmt : String) (args : List PrintkArg) :
    TableReady (s.printk fmt args) free :=
  h.before (.printk s free fmt args) (h.inv.printk fmt args)

theorem TableReady.invlpg (h : TableReady s free) (a : Addr) : TableReady (s.invlpg a) free :=
  h.before (.invlpg s free a) (h.inv.invlpg a)

theorem TableReady.growBrk (h : TableReady s free) : TableReady s.growBrk free :=
  h.before (.growBrk s free) h.inv.growBrk

/-- The tables are distinct frames. -/
theorem TableReady.distinct (h : TableReady s free) : DistinctTables s.mem s.pml4t :=
  h.inv.distinct.congr fun q hq => by rw [h.built_pml4t, h.tableAt_built hq]

/-- No free frame is a table. -/
theorem TableReady.apart (h : TableReady s free) {f : Addr} (hf : f ∈ free) :
    NotTable s.mem s.pml4t f :=
  (h.inv.apart f hf).congr fun q hq => by rw [h.built_pml4t, h.tableAt_built hq]

/-- A store to the entry of a page. -/
theorem TableReady.store (h : TableReady s free)
    (hpt : tableAt s.mem s.pml4t (tablePath w) = some pt) :
    TableReady (s.store64 (slot pt (ptIndex w)) e) free := by
  have hbuilt : tableAt s.built.mem s.built.pml4t (tablePath w) = some pt := by
    rw [h.built_pml4t, h.tableAt_built (by simp), hpt]
  refine h.before (.store64 (aligned_tableAt (aligned_pml4t s) hpt) fun f hf => ?_)
    (h.inv.store hbuilt)
  refine ⟨h.inv.aligned f hf, ?_⟩
  rintro rfl
  exact h.apart hf _ (by simp) hpt

end

/-! ## One page -/

/-- The tree is in order, with no table at `0`, the walk of `v` meets no huge entry, and its
last-level entry satisfies `Q`. -/
structure PageState (Q : BitVec 64 → Prop) (v : BitVec 64) (s : Mmu) (free : List Addr) : Prop where
  ready : TableReady s free
  null : NotTable s.mem s.pml4t 0
  noHuge : NoHuge s.mem s.pml4t v
  /-- What is known of the entry of the page. -/
  leaf : Q (s.leafOf v)

namespace PageState

variable {Q : BitVec 64 → Prop} {v w e : BitVec 64} {s s' : Mmu} {free free' : List Addr}
  {pt f : Addr}

theorem printk (h : PageState Q v s free) (fmt : String) (args : List PrintkArg) :
    PageState Q v (s.printk fmt args) free :=
  { h with ready := h.ready.printk fmt args }

theorem invlpg (h : PageState Q v s free) (a : Addr) : PageState Q v (s.invlpg a) free :=
  { h with ready := h.ready.invlpg a }

theorem growBrk (h : PageState Q v s free) : PageState Q v s.growBrk free := by
  refine ⟨h.ready.growBrk, ?_, ?_, ?_⟩
  · rw [Mmu.growBrk_mem, Mmu.growBrk_pml4t]
    exact h.null
  · rw [Mmu.growBrk_mem, Mmu.growBrk_pml4t]
    exact h.noHuge
  · rw [Mmu.leafOf_growBrk]
    exact h.leaf

/-- Stores that leave the tables alone. -/
theorem keeps (h : PageState Q v s free) (hready : TableReady s' free')
    (hroot : s'.pml4t = s.pml4t) (hk : KeepsEntries s.mem s'.mem s.pml4t) :
    PageState Q v s' free' := by
  have htab : ∀ q, q.length ≤ 3 → tableAt s'.mem s'.pml4t q = tableAt s.mem s.pml4t q :=
    fun q hq => by rw [hroot, hk.tableAt hq]
  refine ⟨hready, h.null.congr htab, fun q hq hpres => ?_, ?_⟩
  · have hlen : q.length ≤ 4 := by rcases hq with rfl | rfl <;> simp
    rw [hroot, hk.pathEntry hlen] at hpres ⊢
    exact h.noHuge q hq hpres
  · rw [Mmu.leafOf, hroot, hk.pathEntry (by simp)]
    exact h.leaf

theorem built (h : PageState Q v s free) : PageState Q v s.built free :=
  h.keeps h.ready.inv.ready h.ready.built_pml4t h.ready.keeps_built.symm

theorem grows (h : PageState Q v s free) (hinv : TableInv s free) (hg : Grows s free s' free') :
    PageState Q v s' free' := by
  refine ⟨hg.inv.ready, hg.notTable hinv (fun hc => hinv.list.ne_null 0 hc rfl) h.null, ?_, ?_⟩
  · rw [hg.pml4t]
    exact hg.noHuge hinv h.noHuge
  · rw [Mmu.leafOf, hg.pml4t, hg.leaf v]
    exact h.leaf

/-- `get_pte` with `create_if_not_exist`. -/
theorem getPte (h : PageState Q v s free) (hw : NoHuge s.mem s.pml4t w) :
    ∃ free', PageState Q v (s.getPte s.pml4t w true).1 free' ∧
      ((s.getPte s.pml4t w true).2 = 0 ∨ ∃ pt,
        tableAt (s.getPte s.pml4t w true).1.mem (s.getPte s.pml4t w true).1.pml4t (tablePath w) =
          some pt ∧ (s.getPte s.pml4t w true).2 = slot pt (ptIndex w)) := by
  cases hpt : tableAt s.mem s.pml4t (tablePath w) with
  | some pt =>
    rw [getPte_of_tableAt hpt]
    exact ⟨free, h, Or.inr ⟨pt, hpt, rfl⟩⟩
  | none =>
    have hw' := h.ready.noHuge_built hw
    rw [← h.ready.built_pml4t] at hw'
    obtain ⟨free', hg, hpte⟩ := getPte_grow h.ready.inv hw'
    rw [h.ready.getPte_built hw hpt]
    refine ⟨free', h.built.grows h.ready.inv hg, ?_⟩
    rcases hpte with ⟨pt, hpt', hslot, -⟩ | ⟨hnull, -⟩
    · exact Or.inr ⟨pt, by rw [hg.pml4t, hpt'], hslot⟩
    · exact Or.inl hnull

/-- The entry of a page after a store. -/
theorem leafOf_store (h : PageState Q v s free)
    (hpt : tableAt s.mem s.pml4t (tablePath w) = some pt) (u : BitVec 64) :
    (s.store64 (slot pt (ptIndex w)) e).leafOf u =
      if virtPage w = virtPage u then e else s.leafOf u := by
  have hal := aligned_tableAt (aligned_pml4t s) hpt
  have hnew : word (s.store64 (slot pt (ptIndex w)) e).mem pt (ptIndex w) = e := by
    rw [Mmu.store64_mem, word_write64_slot hal hal, if_pos ⟨rfl, rfl⟩]
  change pathEntry _ s.pml4t (pathOf u) = _
  rw [(sameWords_store hpt).pathEntry_leaf h.ready.distinct (length_tablePath w) hpt (by simp),
    hnew]
  refine if_congr ?_ rfl rfl
  rw [← pathOf_eq_iff_virtPage, eq_comm]
  rfl

/-- A store to the entry of another page, or of one that keeps to `Q`. -/
theorem store (h : PageState Q v s free) (hpt : tableAt s.mem s.pml4t (tablePath w) = some pt)
    (hQ : virtPage w = virtPage v → Q e) :
    PageState Q v (s.store64 (slot pt (ptIndex w)) e) free := by
  have hw := sameWords_store (e := e) hpt
  have htab := fun q => hw.tableAt_leaf h.ready.distinct (length_tablePath w) hpt (q := q)
  have hentry := fun q => hw.pathEntry_leaf h.ready.distinct (length_tablePath w) hpt (q := q)
  refine ⟨h.ready.store hpt, h.null.congr htab, fun q hq hpres => ?_, ?_⟩
  · have hne : q ≠ ptIndex w :: tablePath w := by
      rintro rfl
      rcases hq with hc | hc <;> simpa using congrArg List.length hc
    have hlen : q.length ≤ 4 := by rcases hq with rfl | rfl <;> simp
    change pathEntry _ s.pml4t q &&& _ ≠ 0 at hpres
    change pathEntry _ s.pml4t q &&& _ = 0
    rw [hentry q hlen, if_neg hne] at hpres ⊢
    exact h.noHuge q hq hpres
  · rw [h.leafOf_store hpt]
    split_ifs with hpage
    · exact hQ hpage
    · exact h.leaf

/-- The entry that `get_pte` finds. -/
theorem entrySlot_cases (h : PageState Q v s free) (w : BitVec 64) :
    entrySlot s.mem s.pml4t w = 0 ∧ s.leafOf w = 0 ∨ ∃ pt,
      tableAt s.mem s.pml4t (tablePath w) = some pt ∧
      entrySlot s.mem s.pml4t w = slot pt (ptIndex w) ∧ slot pt (ptIndex w) ≠ 0 ∧
      read64 s.mem (slot pt (ptIndex w)) = s.leafOf w := by
  cases hpt : tableAt s.mem s.pml4t (tablePath w) with
  | none =>
    exact Or.inl ⟨entrySlot_of_none hpt, pathEntry_cons_of_none hpt _⟩
  | some pt =>
    refine Or.inr ⟨pt, rfl, entrySlot_of_some hpt,
      h.null.slot_ne_zero (aligned_pml4t s) hpt _, ?_⟩
    rw [read64_slot, Mmu.leafOf, pathOf, pathEntry_cons hpt]

/-! ### Frames -/

/-- With the list built the state is in order itself. -/
theorem inv_of_listed (h : PageState Q v s free) (hs : s.freeListInitialized = true) :
    TableInv s free := by
  have hinv := h.ready.inv
  rwa [Mmu.built_of_listed hs] at hinv

/-- Clearing a frame that is neither a table nor free. -/
theorem clearPage (h : PageState Q v s free) (hinv : TableInv s free) (hf : Aligned f)
    (hnot : NotTable s.mem s.pml4t f) (hfree : f ∉ free) : PageState Q v (s.clearPage f) free := by
  refine h.keeps (hinv.clearPage hf hnot hfree).ready (by rw [Mmu.pml4t, Mmu.clearPage_cr3]; rfl) ?_
  rw [Mmu.clearPage_mem]
  exact keepsEntries_fill (aligned_pml4t s) hf hnot

/-- `MMU_pf_alloc` takes the first free frame. -/
theorem mmuPfAlloc (h : PageState Q v s free) :
    PageState Q v s.mmuPfAlloc.1 free.tail ∧ s.mmuPfAlloc.1.pml4t = s.pml4t ∧
      KeepsEntries s.mem s.mmuPfAlloc.1.mem s.pml4t ∧ s.mmuPfAlloc.2 = free.headD 0 := by
  have hroot := h.ready.built_pml4t
  have hkeep := h.ready.keeps_built.symm
  have hinv := h.ready.inv
  rw [← Mmu.mmuPfAlloc_built hinv.listed]
  cases free with
  | nil =>
    rw [Mmu.mmuPfAlloc_nil hinv.listed hinv.list]
    exact ⟨h.built.printk _ _, hroot, hkeep, rfl⟩
  | cons f l =>
    rw [Mmu.mmuPfAlloc_cons hinv.listed hinv.list]
    have hfill : KeepsEntries s.mem (s.built.takeFrame f).mem s.pml4t :=
      hkeep.trans (hroot ▸ keepsEntries_fill (aligned_pml4t _) (hinv.aligned f (by simp))
        (hinv.apart f (by simp)))
    exact ⟨h.keeps hinv.takeFrame.ready hroot hfill, hroot, hfill, rfl⟩

/-- `MMU_pf_free` for a frame that can be given back, or one that it refuses. -/
theorem mmuPfFree (h : PageState Q v s free) (hf : f ≠ 0 → Aligned f → s.FrameApart f) :
    (∃ free', PageState Q v (s.mmuPfFree f) free') ∧
      KeepsEntries s.mem (s.mmuPfFree f).mem s.pml4t := by
  by_cases hnull : f = 0
  · rw [Mmu.mmuPfFree, if_pos hnull]
    exact ⟨⟨free, h.printk _ _⟩, fun _ _ _ _ _ => rfl⟩
  by_cases hal : Aligned f
  · obtain ⟨hlisted, hnot, hfree⟩ := hf hnull hal
    have hinv := h.inv_of_listed hlisted
    have hkeep := keepsEntries_mmuPfFree hal hnot
    exact ⟨⟨f :: free, h.keeps (hinv.mmuPfFree hal hnull (hfree free hinv.list) hnot).ready
      (mmuPfFree_pml4t s f) hkeep⟩, hkeep⟩
  · have hmod : f % pageSize ≠ 0 := fun hc => hal (congrArg BitVec.toNat hc)
    rw [Mmu.mmuPfFree, if_neg hnull, if_pos hmod]
    exact ⟨⟨free, h.printk _ _⟩, fun _ _ _ _ _ => rfl⟩

/-! ### Entries of pages -/

/-- `unmap_page` -/
theorem unmapPage (h : PageState Q v s free) (hw : NoHuge s.mem s.pml4t w) (hQ : Q 0) :
    PageState Q v (s.unmapPage s.pml4t w) free := by
  rcases unmapPage_spec hw with heq | ⟨pt, hpt, heq⟩
  · rwa [heq]
  · rw [heq]
    exact (h.store hpt fun _ => hQ).invlpg w

/-- `map_page` for another page. -/
theorem mapPage (h : PageState Q v s free) (hw : NoHuge s.mem s.pml4t w)
    (hne : virtPage w ≠ virtPage v) (p flags : BitVec 64) :
    ∃ free', PageState Q v (s.mapPage s.pml4t w p flags) free' := by
  obtain ⟨free', h', hpte⟩ := h.getPte hw
  unfold Mmu.mapPage
  generalize s.getPte s.pml4t w true = r at h' hpte ⊢
  obtain ⟨s₁, pte⟩ := r
  refine ⟨free', ?_⟩
  by_cases hnull : pte = 0
  · show PageState Q v (if pte = 0 then _ else _) free'
    rw [if_pos hnull]
    exact h'.printk _ _
  · obtain ⟨pt, hpt, rfl⟩ := hpte.resolve_left hnull
    show PageState Q v (if slot pt (ptIndex w) = 0 then _ else _) free'
    rw [if_neg hnull]
    exact (h'.store hpt fun hc => absurd hc hne).invlpg w

/-- `map_page` for the page itself. -/
theorem mapPage_self (h : PageState Q v s free) (hok : s.MapSucceeds v) (p flags : BitVec 64) :
    ∃ free', PageState (fun e => e = pageEntry p flags) v (s.mapPage s.pml4t v p flags) free' := by
  obtain ⟨free', h', hpte⟩ := h.getPte h.noHuge
  obtain ⟨pt, hpt, hslot⟩ := hpte.resolve_left hok
  have hany : PageState (fun _ => True) v (s.getPte s.pml4t v true).1 free' :=
    ⟨h'.ready, h'.null, h'.noHuge, trivial⟩
  have hstore := hany.store (e := pageEntry p flags) hpt fun _ => trivial
  have hleaf := (hany.leafOf_store (e := pageEntry p flags) hpt v).trans (if_pos rfl)
  have heq : s.mapPage s.pml4t v p flags =
      ((s.getPte s.pml4t v true).1.store64 (slot pt (ptIndex v)) (pageEntry p flags)).invlpg v := by
    rw [← hslot]
    exact if_neg hok
  rw [heq]
  exact ⟨free', PageState.invlpg ⟨hstore.ready, hstore.null, hstore.noHuge, hleaf⟩ v⟩

/-- `MMU_free_page` -/
theorem mmuFreePage (h : PageState Q v s free) (hw : s.FreeApart w) (hQ : Q 0) :
    ∃ free', PageState Q v (s.mmuFreePage w) free' := by
  obtain ⟨hhuge, hframe⟩ := hw
  rw [Mmu.mmuFreePage, getPte_find hhuge]
  simp only
  rcases h.entrySlot_cases w with ⟨hslot, -⟩ | ⟨pt, hpt, hslot, hne, hread⟩
  · rw [if_pos hslot]
    exact ⟨free, h⟩
  rw [hslot, if_neg hne, hread]
  split_ifs with hpres
  · obtain ⟨⟨free', h'⟩, hkeep⟩ := h.mmuPfFree fun hnull _ => hframe hpres hnull
    rw [← hkeep.tableAt (by simp), ← mmuPfFree_pml4t s (s.leafOf w &&& pageMask)] at hpt
    exact ⟨free', (h'.store hpt fun _ => hQ).invlpg w⟩
  · exact ⟨free, (h.store hpt fun _ => hQ).invlpg w⟩

/-- `MMU_free_pages` -/
theorem foldl_mmuFreePage (hQ : Q 0) : ∀ {pages : List Addr} {s : Mmu} {free : List Addr},
    PageState Q v s free → s.FreesApart pages →
      ∃ free', PageState Q v (pages.foldl Mmu.mmuFreePage s) free'
  | [], _, free, h, _ => ⟨free, h⟩
  | a :: pages, _, _, h, hap => by
    obtain ⟨free', h'⟩ := h.mmuFreePage hap.1 hQ
    rw [List.foldl_cons]
    exact foldl_mmuFreePage hQ h' hap.2

/-- `get_pte` for the page at `kernel_brk`, and the mark in its entry. -/
theorem reservePage (h : PageState Q v s free) (hb : s.BrkApart v) :
    ∃ free', PageState Q v s.brkPte.1 free' ∧
      (s.brkPte.2 ≠ 0 → PageState Q v s.reservePage free') := by
  obtain ⟨free', h', hpte⟩ := h.getPte hb.1
  refine ⟨free', h', fun hne => ?_⟩
  obtain ⟨pt, hpt, hslot⟩ := hpte.resolve_left hne
  rw [Mmu.reservePage, Mmu.brkPte, hslot]
  exact (h'.store hpt fun hc => absurd hc hb.2).growBrk

/-- `MMU_alloc_page` for another page. -/
theorem mmuAllocPage (h : PageState Q v s free) (hb : s.BrkApart v) :
    ∃ free', PageState Q v s.mmuAllocPage.1 free' := by
  obtain ⟨free', h', hreserve⟩ := h.reservePage hb
  refine ⟨free', ?_⟩
  by_cases hnull : s.brkPte.2 = 0
  · rw [Mmu.mmuAllocPage_null hnull]
    exact h'.growBrk.printk _ _
  · rw [Mmu.mmuAllocPage_reserve hnull]
    exact hreserve hnull

/-- The loop of `MMU_alloc_pages`, for other pages. -/
theorem allocPagesFrom (hQ : Q 0) (startAddr : Addr) : ∀ (n : ℕ) {s : Mmu} {free : List Addr}
    (i : BitVec 32), PageState Q v s free → Mmu.AllocsApart v startAddr s i n →
      ∃ free', PageState Q v (s.allocPagesFrom s.pml4t startAddr i n).1 free'
  | 0, _, free, _, h, _ => ⟨free, h⟩
  | n + 1, s, _, i, h, hap => by
    obtain ⟨hb, hrest⟩ := hap
    obtain ⟨free', h', hreserve⟩ := h.reservePage hb
    by_cases hnull : s.brkPte.2 = 0
    · rw [if_pos hnull] at hrest
      rw [Mmu.allocPagesFrom_null hnull, Mmu.mmuFreePages_eq_foldl]
      exact foldl_mmuFreePage hQ h' hrest
    · rw [if_neg hnull] at hrest
      rw [Mmu.allocPagesFrom_reserve hnull]
      exact allocPagesFrom hQ startAddr n (i + 1) (hreserve hnull) hrest

/-- `MMU_alloc_pages` for other pages. -/
theorem mmuAllocPages (h : PageState Q v s free) (hQ : Q 0) (num : BitVec 32)
    (hap : Mmu.AllocsApart v s.kernelBrk s 0 num.toInt.toNat) :
    ∃ free', PageState Q v (s.mmuAllocPages num).1 free' := by
  by_cases hnum : 0 < num.toInt
  · rw [mmuAllocPages_pos hnum]
    exact allocPagesFrom hQ s.kernelBrk _ 0 h hap
  · rw [Mmu.mmuAllocPages, if_pos]
    · exact ⟨free, h⟩
    · rw [BitVec.sle_iff_toInt_le, show (0 : BitVec 32).toInt = 0 from rfl]
      omega

/-! ### Page faults -/

/-- A page fault halts the machine if the page is not marked for demand paging, or there is no
frame for it. -/
theorem pageFaultHandler_halted (h : PageState Q v s free) (hw : NoHuge s.mem s.pml4t w)
    (hno : s.leafOf w &&& pteDemandPaging = 0 ∨ free = []) (frame : FaultFrame) :
    ∃ t, s.pageFaultHandler frame w = .halted t := by
  rw [Mmu.pageFaultHandler, getPte_find hw]
  simp only
  split_ifs with hdem hnull
  · exact ⟨_, rfl⟩
  · rcases h.entrySlot_cases w with ⟨hslot, -⟩ | ⟨pt, -, hslot, -, hread⟩
    · exact absurd hslot hdem.1
    rcases hno with hno | rfl
    · rw [hslot, hread] at hdem
      exact absurd hno hdem.2
    · exact absurd h.mmuPfAlloc.2.2.2 hnull
  · exact ⟨_, rfl⟩

/-- A page that is marked gets the first free frame. -/
theorem pageFaultHandler_returned {f : Addr} {l : List Addr} (h : PageState Q v s (f :: l))
    (hw : NoHuge s.mem s.pml4t w) (hdem : s.leafOf w &&& pteDemandPaging ≠ 0) (frame : FaultFrame) :
    ∃ t, s.pageFaultHandler frame w = .returned t ∧ t.leafOf w &&& ptePresent ≠ 0 ∧
      (virtPage w ≠ virtPage v → PageState Q v t l) := by
  obtain ⟨h', hroot, hkeep, hpage⟩ := h.mmuPfAlloc
  have hinv := h.ready.inv
  have hf : Aligned f := hinv.aligned f (by simp)
  have hnot : NotTable s.mmuPfAlloc.1.mem s.mmuPfAlloc.1.pml4t f :=
    (h.ready.apart (f := f) (by simp)).congr fun q hq => by rw [hroot, hkeep.tableAt hq]
  have hlisted : s.mmuPfAlloc.1.freeListInitialized = true := by
    rw [← Mmu.mmuPfAlloc_built hinv.listed, Mmu.mmuPfAlloc_cons hinv.listed hinv.list]
    exact hinv.listed
  have hclear := h'.clearPage (h'.inv_of_listed hlisted) hf hnot (List.nodup_cons.1 hinv.nodup).1
  rcases h.entrySlot_cases w with ⟨-, hleaf⟩ | ⟨pt, hpt, hslot, hne, hread⟩
  · rw [hleaf] at hdem
    exact absurd (by decide) hdem
  have hpt' : tableAt (s.mmuPfAlloc.1.clearPage f).mem (s.mmuPfAlloc.1.clearPage f).pml4t
      (tablePath w) = some pt := by
    rw [← hpt, ← hkeep.tableAt (by simp), ← hroot, Mmu.clearPage_mem, Mmu.pml4t, Mmu.clearPage_cr3]
    exact (keepsEntries_fill (aligned_pml4t _) hf hnot).tableAt (by simp)
  rw [Mmu.pageFaultHandler, getPte_find hw]
  simp only
  rw [hslot, hread, if_pos ⟨hne, hdem⟩, hpage, List.headD_cons,
    if_neg (hinv.list.ne_null f (by simp))]
  refine ⟨_, rfl, ?_, fun hother => (hclear.store hpt' fun hc => absurd hc hother).invlpg w⟩
  rw [Mmu.leafOf_invlpg, hclear.leafOf_store hpt', if_pos rfl]
  exact or_ptePresent _

end PageState

end KernelDev
