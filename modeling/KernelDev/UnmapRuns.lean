import KernelDev.HeapRange
import KernelDev.TableRuns

/-!
# Pages that were unmapped

The entry of a page is zero, marked for demand paging, or present. `unmap_page` clears a present
entry only. `MMU_free_page` clears any entry, and `page_fault_handler` gives any marked one a
frame. So a page that was allocated and never accessed is still marked after `unmap_page`, and the
next access maps it.

`Mmu.StaysUnmapped` is about all that may come afterwards : page faults at any addresses, and calls
of the functions that work on pages and frames. Along such a run the address is not mapped, and a
fault in its page halts the machine. The calls have to keep apart from the page (`Apart`) : they do
not map or allocate it, and they neither free a frame that is in use nor take the data of a huge
page for a table, by which any memory could be written.

Right after the call the address is not mapped, whatever the tables hold and even where they are
shared (`Mmu.notMapped_unmapPage`). Afterwards the entry of the page is followed along the run with
the invariant of `TableRuns` : no step stores it (`PageState.step`).

`unmapPage_stays_unmapped_iff` : it stays unmapped exactly if the page was not marked when
`unmap_page` was called. `unmapPage_leaves_pending` is the page that is not unmapped.
-/

namespace KernelDev

open ByteMem

/-- The page of `vaddr` is marked for demand paging and has no frame yet. -/
def Mmu.Pending (s : Mmu) (vaddr : BitVec 64) : Prop :=
  s.leafOf vaddr &&& ptePresent = 0 ∧ s.leafOf vaddr &&& pteDemandPaging ≠ 0

/-! ## Runs -/

/-- A page fault, or a call of the functions that work on pages and frames. -/
inductive PageOp where
  | map (vaddr paddr flags : BitVec 64)
  | unmap (vaddr : BitVec 64)
  | allocPage
  | allocPages (num : BitVec 32)
  | freePage (vaddr : Addr)
  | freePages (vaddr : Addr) (num : BitVec 32)
  | pfAlloc
  | pfFree (pf : Addr)
  | fault (frame : FaultFrame) (faultAddress : Addr)

namespace PageOp

/-- The state after the call, unless the machine is halted. -/
def run (s : Mmu) : PageOp → Option Mmu
  | map vaddr paddr flags => some (s.mapPage s.pml4t vaddr paddr flags)
  | unmap vaddr => some (s.unmapPage s.pml4t vaddr)
  | allocPage => some s.mmuAllocPage.1
  | allocPages num => some (s.mmuAllocPages num).1
  | freePage vaddr => some (s.mmuFreePage vaddr)
  | freePages vaddr num => some (s.mmuFreePages vaddr num)
  | pfAlloc => some s.mmuPfAlloc.1
  | pfFree pf => some (s.mmuPfFree pf)
  | fault frame faultAddress =>
    match s.pageFaultHandler frame faultAddress with
    | .returned t => some t
    | .halted _ => none

/-- In the state `s` the call does not map or allocate the page of `v`, and it takes neither the
data of a huge page for a table nor gives back a frame in use. -/
def Apart (v : BitVec 64) (s : Mmu) : PageOp → Prop
  | map vaddr _ _ => NoHuge s.mem s.pml4t vaddr ∧ virtPage vaddr ≠ virtPage v
  | unmap vaddr => NoHuge s.mem s.pml4t vaddr
  | allocPage => s.BrkApart v
  | allocPages num => Mmu.AllocsApart v s.kernelBrk s 0 num.toInt.toNat
  | freePage vaddr => s.FreeApart vaddr
  | freePages vaddr num => s.FreesApart (s.freedPages vaddr num)
  | pfAlloc => True
  | pfFree pf => pf ≠ 0 → Aligned pf → s.FrameApart pf
  | fault _ faultAddress => NoHuge s.mem s.pml4t faultAddress

end PageOp

/-- One step of a run : a call that keeps apart from the page of `v`, and leaves the machine
running. -/
def PageStep (v : BitVec 64) (s : Mmu) (op : PageOp) (t : Mmu) : Prop :=
  op.Apart v s ∧ op.run s = some t

/-- Along every run `v` is not mapped, and a fault in its page halts the machine. -/
def Mmu.StaysUnmapped (s : Mmu) (v : BitVec 64) : Prop :=
  ∀ ops t, Run (PageStep v) s ops t → t.NotMapped v ∧
    ∀ frame a, virtPage a = virtPage v → ∃ u, t.pageFaultHandler frame a = .halted u

/-! ## One page along a run -/

section

variable {s t : Mmu} {v w : BitVec 64} {free : List Addr} {op : PageOp} {ops : List PageOp}

/-- Addresses of one page have one entry. -/
theorem Mmu.leafOf_congr (h : virtPage w = virtPage v) : s.leafOf w = s.leafOf v := by
  rw [Mmu.leafOf, Mmu.leafOf, pathOf_eq_iff_virtPage.2 h]

theorem NoHuge.congr {m : Mem} {r : Addr} (hv : NoHuge m r v) (h : virtPage w = virtPage v) :
    NoHuge m r w := by
  have hpath := pathOf_eq_iff_virtPage.2 h
  have htable : tablePath w = tablePath v := (List.cons.inj hpath).2
  have hpd : pdPath w = pdPath v := (List.cons.inj htable).2
  rwa [NoHuge, hpd, htable]

/-- A step keeps the entry of a page that is neither present nor marked so. -/
theorem PageState.step (h : PageState Unmapped v s free) (hstep : PageStep v s op t) :
    ∃ free', PageState Unmapped v t free' := by
  obtain ⟨hap, hrun⟩ := hstep
  cases op with
  | map vaddr paddr flags =>
    obtain rfl := Option.some.inj hrun
    exact h.mapPage hap.1 hap.2 paddr flags
  | unmap vaddr =>
    obtain rfl := Option.some.inj hrun
    exact ⟨free, h.unmapPage hap unmapped_zero⟩
  | allocPage =>
    obtain rfl := Option.some.inj hrun
    exact h.mmuAllocPage hap
  | allocPages num =>
    obtain rfl := Option.some.inj hrun
    exact h.mmuAllocPages unmapped_zero num hap
  | freePage vaddr =>
    obtain rfl := Option.some.inj hrun
    exact h.mmuFreePage hap unmapped_zero
  | freePages vaddr num =>
    obtain rfl := Option.some.inj hrun
    rw [Mmu.mmuFreePages_eq_foldl]
    exact foldl_mmuFreePage unmapped_zero h hap
  | pfAlloc =>
    obtain rfl := Option.some.inj hrun
    exact ⟨free.tail, h.mmuPfAlloc.1⟩
  | pfFree pf =>
    obtain rfl := Option.some.inj hrun
    exact (h.mmuPfFree hap).1
  | fault frame a =>
    by_cases hno : s.leafOf a &&& pteDemandPaging = 0 ∨ free = []
    · obtain ⟨u, hhalt⟩ := h.pageFaultHandler_halted hap hno frame
      simp only [PageOp.run, hhalt, reduceCtorEq] at hrun
    · obtain ⟨hdem, hfree⟩ := not_or.1 hno
      obtain ⟨f, l, rfl⟩ := List.exists_cons_of_ne_nil hfree
      obtain ⟨u, hret, -, hinv⟩ := h.pageFaultHandler_returned hap hdem frame
      simp only [PageOp.run, hret, Option.some.injEq] at hrun
      subst hrun
      refine ⟨l, hinv fun hsame => hdem ?_⟩
      rw [Mmu.leafOf_congr hsame]
      exact h.leaf.2

/-- Every run keeps the entry of such a page. -/
theorem PageState.run (h : PageState Unmapped v s free) (hrun : Run (PageStep v) s ops t) :
    ∃ free', PageState Unmapped v t free' :=
  hrun.invariant (fun _ u => ∃ free', PageState Unmapped v u free') ⟨free, h⟩
    fun _ _ _ _ _ ⟨_, hu⟩ hstep => hu.step hstep

/-- An address without a translation is not mapped. -/
theorem Mmu.notMapped_of_translation (h : s.translation v = none) : s.NotMapped v := by
  rcases s.virtToPhys_eq v with ⟨pa, hpa, -⟩ | ⟨-, hnot⟩
  · rw [h] at hpa
    cases hpa
  · exact hnot

/-- A page whose entry is not present is not mapped. -/
theorem Mmu.notMapped_of_leaf (h : s.leafOf v &&& ptePresent = 0)
    (hv : NoHuge s.mem s.pml4t v) : s.NotMapped v := by
  refine Mmu.notMapped_of_translation ?_
  rw [Mmu.translation, translate,
    if_pos (show pathEntry s.mem s.pml4t (pathOf v) &&& ptePresent = 0 from h)]
  split_ifs with h4 h3 hhuge3 h2 hhuge2
  · rfl
  · rfl
  · exact absurd (hv _ (Or.inl rfl) h3) hhuge3
  · rfl
  · exact absurd (hv _ (Or.inr rfl) h2) hhuge2
  · rfl

/-! ## The call itself -/

/-- Clearing an entry of a table cuts a level of a walk off, or leaves it as it was. -/
theorem tableAt_clear {m : Mem} {r pt u : Addr} {i j : Index} {p : List Index} (hr : Aligned r)
    (hpt : Aligned pt) (hu : tableAt m r p = some u)
    (hu' : tableAt (write64 m (slot pt j) 0) r p = some u) :
    pathEntry (write64 m (slot pt j) 0) r (i :: p) &&& ptePresent = 0 ∨
      tableAt (write64 m (slot pt j) 0) r (i :: p) = tableAt m r (i :: p) := by
  rw [pathEntry_cons hu', tableAt_cons hu', tableAt_cons hu, tableLink, tableLink,
    word_write64_slot hpt (aligned_tableAt hr hu)]
  by_cases hsame : u = pt ∧ i = j
  · rw [if_pos hsame]
    exact Or.inl Mmu.zero_and_present
  · rw [if_neg hsame]
    exact Or.inr rfl

/-- Clearing the last-level entry of `v` ends its walk, even where tables are shared. -/
theorem translate_clear {m : Mem} {r pt : Addr} (hr : Aligned r)
    (hpt : tableAt m r (tablePath v) = some pt) :
    translate (pathEntry (write64 m (slot pt (ptIndex v)) 0) r) v = none := by
  have hal := aligned_tableAt hr hpt
  obtain ⟨pd, hpd⟩ := tableAt_of_cons hpt
  obtain ⟨pdpt, hpdpt⟩ := tableAt_of_cons hpd
  rcases tableAt_clear (i := (v >>> 39).setWidth 9) (j := ptIndex v) hr hal tableAt_nil tableAt_nil
    with h4 | h4
  · rw [translate, pdptPath, if_pos h4]
  have hpdpt' := h4.trans hpdpt
  rcases tableAt_clear (i := (v >>> 30).setWidth 9) hr hal hpdpt hpdpt' with h3 | h3
  · rw [translate, pdPath, if_pos h3, ite_self]
  have hpd' : tableAt _ r (pdPath v) = some pd := h3.trans hpd
  rcases tableAt_clear (i := (v >>> 21).setWidth 9) hr hal hpd hpd' with h2 | h2
  · have hhuge : pathEntry _ r (pdPath v) &&& pteHuge = 0 :=
      (tableAt_cons_eq_some hpd').2.1.resolve_left (by simp)
    rw [translate, tablePath, if_neg (not_not.2 hhuge), if_pos h2, ite_self, ite_self]
  have hpt' : tableAt _ r (tablePath v) = some pt := h2.trans hpt
  have hnew : word (write64 m (slot pt (ptIndex v)) 0) pt (ptIndex v) = 0 := by
    rw [word_write64_slot hal hal, if_pos ⟨rfl, rfl⟩]
  rw [translate_of_tableAt hpt', pathOf, pathEntry_cons hpt', hnew, if_pos Mmu.zero_and_present]

/-- After `unmap_page` the address is not mapped, whatever the tables hold. -/
theorem Mmu.notMapped_unmapPage (hv : NoHuge s.mem s.pml4t v) (hnull : NotTable s.mem s.pml4t 0) :
    (s.unmapPage s.pml4t v).NotMapped v := by
  cases hpt : tableAt s.mem s.pml4t (tablePath v) with
  | none =>
    have hsame : s.unmapPage s.pml4t v = s := by
      rcases unmapPage_spec hv with heq | ⟨pt, hpt', -⟩
      · exact heq
      · rw [hpt] at hpt'
        cases hpt'
    rw [hsame]
    refine Mmu.notMapped_of_leaf ?_ hv
    rw [Mmu.leafOf, pathOf, pathEntry_cons_of_none hpt, Mmu.zero_and_present]
  | some pt =>
    have hslot := hnull.slot_ne_zero (aligned_pml4t s) hpt (ptIndex v)
    rw [Mmu.unmapPage, getPte_find hv]
    simp only [entrySlot_of_some hpt, read64_slot]
    split_ifs with hpres
    · refine Mmu.notMapped_of_translation ?_
      show translate (pathEntry (write64 s.mem (slot pt (ptIndex v)) 0) s.pml4t) v = none
      exact translate_clear (aligned_pml4t s) hpt
    · refine Mmu.notMapped_of_leaf ?_ hv
      rw [Mmu.leafOf, pathOf, pathEntry_cons hpt]
      exact not_not.1 fun hc => hpres ⟨hslot, hc⟩

/-- Where `v` was not marked for demand paging, `unmap_page` leaves an entry that is neither
present nor marked. -/
theorem PageState.unmapped_unmapPage {Q : BitVec 64 → Prop} (h : PageState Q v s free)
    (hnot : ¬s.Pending v) : Unmapped ((s.unmapPage s.pml4t v).leafOf v) := by
  rw [Mmu.unmapPage, getPte_find h.noHuge]
  simp only
  rcases h.entrySlot_cases v with ⟨hslot, hleaf⟩ | ⟨pt, hpt, hslot, hne, hread⟩
  · rw [if_neg fun hc => hc.1 hslot, hleaf]
    decide
  rw [hslot, hread]
  split_ifs with hpres
  · change Unmapped ((s.store64 (slot pt (ptIndex v)) 0).leafOf v)
    rw [h.leafOf_store hpt, if_pos rfl]
    decide
  · have habsent := not_not.1 fun hc => hpres ⟨hne, hc⟩
    exact ⟨habsent, not_not.1 fun hdem => hnot ⟨habsent, hdem⟩⟩

/-- A marked entry is left alone. -/
theorem PageState.unmapPage_pending {Q : BitVec 64 → Prop} (h : PageState Q v s free)
    (hp : s.Pending v) : s.unmapPage s.pml4t v = s := by
  rw [Mmu.unmapPage, getPte_find h.noHuge]
  simp only
  rcases h.entrySlot_cases v with ⟨hslot, -⟩ | ⟨pt, -, hslot, -, hread⟩
  · rw [if_neg fun hc => hc.1 hslot]
  · rw [hslot, hread, if_neg fun hc => hc.2 hp.1]

/-- A page whose entry is neither present nor marked stays unmapped. -/
theorem PageState.staysUnmapped (h : PageState Unmapped v s free) : s.StaysUnmapped v := by
  intro ops t hrun
  obtain ⟨free', ht⟩ := h.run hrun
  refine ⟨Mmu.notMapped_of_leaf ht.leaf.1 ht.noHuge, fun frame a ha => ?_⟩
  refine ht.pageFaultHandler_halted (ht.noHuge.congr ha) (Or.inl ?_) frame
  rw [Mmu.leafOf_congr ha]
  exact ht.leaf.2

/-- After `unmap_page` the address is not mapped. It stays so, whatever page faults and calls for
other pages follow, unless its page was marked for demand paging : then the mark is left, and a
fault gives the page a frame as long as there is one. -/
theorem unmapPage_stays_unmapped_iff (hv : NoHuge s.mem s.pml4t v)
    (hnull : NotTable s.mem s.pml4t 0) :
    (s.unmapPage s.pml4t v).NotMapped v ∧
      ∀ free, TableReady s free →
        (¬s.Pending v → (s.unmapPage s.pml4t v).StaysUnmapped v) ∧
        (free ≠ [] → ((s.unmapPage s.pml4t v).StaysUnmapped v ↔ ¬s.Pending v)) := by
  refine ⟨Mmu.notMapped_unmapPage hv hnull, fun free hready => ?_⟩
  have h : PageState (fun _ => True) v s free := ⟨hready, hnull, hv, trivial⟩
  have hstays : ¬s.Pending v → (s.unmapPage s.pml4t v).StaysUnmapped v := fun hnot => by
    obtain ⟨hready', hnull', hv', -⟩ := h.unmapPage hv trivial
    exact PageState.staysUnmapped ⟨hready', hnull', hv', h.unmapped_unmapPage hnot⟩
  refine ⟨hstays, fun hfree => ⟨fun hs hp => ?_, hstays⟩⟩
  rw [h.unmapPage_pending hp] at hs
  obtain ⟨f, l, rfl⟩ := List.exists_cons_of_ne_nil hfree
  obtain ⟨t, hret, -⟩ := h.pageFaultHandler_returned hv hp.2 ⟨0, 0⟩
  obtain ⟨u, hhalt⟩ := (hs [] s .nil).2 ⟨0, 0⟩ v rfl
  rw [hret] at hhalt
  cases hhalt

end

/-! ## A page that is mapped -/

theorem pageState_bareHeap :
    PageState (fun _ => True) kernelHeapAdr bareHeap [0x2000, 0x3000, 0x4000, 0x5000] :=
  ⟨tableInv_bareHeap.ready, notTable_zero_bareHeap, noHuge_bareHeap _, trivial⟩

/-- The page is present when it is unmapped. -/
theorem unmapPage_stays_unmapped_bareHeap :
    let s := bareHeap.mapPage bareHeap.pml4t kernelHeapAdr 0x200000 pteWritable
    s.leafOf kernelHeapAdr &&& ptePresent ≠ 0 ∧
      (s.unmapPage s.pml4t kernelHeapAdr).StaysUnmapped kernelHeapAdr := by
  have hok : bareHeap.MapSucceeds kernelHeapAdr := brkPte_bareHeap
  obtain ⟨free, h⟩ := pageState_bareHeap.mapPage_self hok 0x200000 pteWritable
  have hpres : pageEntry 0x200000 pteWritable &&& ptePresent ≠ 0 := pageEntry_present
  refine ⟨by rwa [h.leaf], ((unmapPage_stays_unmapped_iff h.noHuge h.null).2 free h.ready).1 ?_⟩
  rintro ⟨habsent, -⟩
  rw [h.leaf] at habsent
  exact hpres habsent

/-! ## A page that was never accessed -/

/-- The page that `MMU_alloc_page` hands out first is marked, and a frame is left. -/
theorem pageState_allocated : ∃ f l,
    PageState (fun e => e = demandEntry) kernelHeapAdr bareHeap.mmuAllocPage.1 (f :: l) := by
  have h := pageState_bareHeap
  obtain ⟨free', hg, hpte⟩ := getPte_grow tableInv_bareHeap (noHuge_bareHeap bareHeap.kernelBrk)
  rw [missingTables_bareHeap] at hpte
  obtain ⟨pt, hpt, hslot, hcount⟩ := hpte.resolve_right fun hc => absurd hc.2 (by decide)
  obtain ⟨f, l, rfl⟩ := List.exists_cons_of_ne_nil fun hc : free' = [] => by simp [hc] at hcount
  have h' := h.grows tableInv_bareHeap hg
  have hpt' : tableAt bareHeap.brkPte.1.mem bareHeap.brkPte.1.pml4t
      (tablePath bareHeap.kernelBrk) = some pt := (congrArg (tableAt _ · _) hg.pml4t).trans hpt
  refine ⟨f, l, ?_⟩
  rw [Mmu.mmuAllocPage_reserve brkPte_bareHeap, Mmu.reservePage,
    show bareHeap.brkPte.2 = slot pt (ptIndex bareHeap.kernelBrk) from hslot]
  obtain ⟨hready, hnull, hhuge, -⟩ := (h'.store (e := demandEntry) hpt' fun _ => trivial).growBrk
  refine ⟨hready, hnull, hhuge, ?_⟩
  rw [Mmu.leafOf_growBrk]
  exact (h'.leafOf_store hpt' kernelHeapAdr).trans (if_pos rfl)

/-- `unmap_page` does not unmap a page that was allocated and not accessed yet : the next fault
makes it present. -/
theorem unmapPage_leaves_pending :
    let s := bareHeap.mmuAllocPage.1.unmapPage bareHeap.mmuAllocPage.1.pml4t kernelHeapAdr
    s.NotMapped kernelHeapAdr ∧ (∃ t, s.pageFaultHandler ⟨0, 0⟩ kernelHeapAdr = .returned t ∧
      t.leafOf kernelHeapAdr &&& ptePresent ≠ 0) ∧ ¬s.StaysUnmapped kernelHeapAdr := by
  obtain ⟨f, l, h⟩ := pageState_allocated
  have hp : bareHeap.mmuAllocPage.1.Pending kernelHeapAdr := by
    rw [Mmu.Pending, h.leaf]
    decide
  obtain ⟨t, hret, hpres, -⟩ := h.pageFaultHandler_returned h.noHuge hp.2 ⟨0, 0⟩
  refine ⟨Mmu.notMapped_unmapPage h.noHuge h.null, ?_, fun hs => ?_⟩
  · rw [h.unmapPage_pending hp]
    exact ⟨t, hret, hpres⟩
  · rw [h.unmapPage_pending hp] at hs
    obtain ⟨u, hhalt⟩ := (hs [] _ .nil).2 ⟨0, 0⟩ kernelHeapAdr rfl
    rw [hret] at hhalt
    cases hhalt

end KernelDev
