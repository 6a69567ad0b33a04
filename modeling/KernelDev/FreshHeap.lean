import KernelDev.HeapBulk
import KernelDev.HeapMemory
import KernelDev.TableBuilt

/-!
# The heap before its first allocation

A kernel starts with no table of the heap and with a free list that is still to be built
(`FreshHeap`). Up to the first allocation nothing happens to the heap : there is nothing to free,
and no access goes through, as a fault finds no entry and halts the machine (`not_completes`). The
first allocation comes to a missing table and builds the list (`brkPte_built`).

So a run does nothing, or it is a run from the state with the list built (`FreshHeap.run_built`) :
the first event that is an allocation does the same in both, and from there on the two states are
one. What is known of runs from a built list is thereby known of runs from the start of a kernel.
The bytes of the heap are those of the trace in either case (`FreshHeap.run_contents`).
-/

namespace KernelDev

open ByteMem PathTree

/-- Building the list changes memory and the head. -/
theorem Mmu.exists_built_eq {s : Mmu} (h : s.freeListInitialized = false → Unbuilt s) :
    ∃ m head, s.built =
      { s with freeListInitialized := true, mem := m, freePageHead := head } := by
  cases hs : s.freeListInitialized with
  | true => exact ⟨s.mem, s.freePageHead, by rw [Mmu.built_of_listed hs, ← hs]⟩
  | false =>
    obtain ⟨m, head, heq, -⟩ := (h hs).built_eq
    exact ⟨m, head, heq⟩

/-- Nothing was handed out yet, and the heap has no table. The free list is built, or will be. -/
structure FreshHeap (s : Mmu) (free : List Addr) : Prop where
  first : HeapFirst s free
  brk : s.kernelBrk = kernelHeapAdr
  /-- No entry of the top-level table for the heap is present. -/
  absent : ∀ v, InHeap v → word s.mem s.pml4t ((v >>> 39).setWidth 9) &&& ptePresent = 0

namespace FreshHeap

variable {s s' : Mmu} {free : List Addr} {v : BitVec 64} {pa : Addr} {e : HeapEvent}

theorem printk (h : FreshHeap s free) (fmt : String) (args : List PrintkArg) :
    FreshHeap (s.printk fmt args) free := by
  have hprint := BeforeBuild.printk s free fmt args
  have hbuilt := hprint.built h.first.ready
  refine ⟨⟨?_, fun hs => hprint.unbuilt (h.first.first hs)⟩, h.brk, h.absent⟩
  rw [hbuilt]
  exact { h.first.start with }

theorem brkInHeap (h : FreshHeap s free) : InHeap s.kernelBrk :=
  h.brk ▸ by decide

/-- The entries of the top-level table are the same with the list built. -/
theorem absent_built (h : FreshHeap s free) (hv : InHeap v) :
    word s.built.mem s.built.pml4t ((v >>> 39).setWidth 9) &&& ptePresent = 0 := by
  have hready := h.first.ready
  rw [hready.built_pml4t, hready.keeps_built [] s.pml4t _ (heapTablePath_pdpt hv).mem rfl]
  exact h.absent v hv

theorem built (h : FreshHeap s free) : FreshHeap s.built free :=
  ⟨h.first.start.first, h.first.ready.built_kernelBrk.trans h.brk, fun _ hv => h.absent_built hv⟩

/-! ## Up to the first allocation -/

/-- There is no last-level table. -/
theorem leafSlot_eq_zero (h : FreshHeap s free) (hv : InHeap v) :
    leafSlot s.mem s.pml4t v = 0 := by
  have hpdpt : node s.mem s.pml4t (pdptPath v) = none :=
    (walk_cons_of_some walk_nil _).trans (childOf_eq_none (h.absent v hv))
  exact leafSlot_of_none (walk_cons_of_none (walk_cons_of_none hpdpt _) _)

/-- No heap page is in use. -/
theorem unmapped (h : FreshHeap s free) (hv : InHeap v) :
    Unmapped (leafEntry s.mem s.pml4t v) := by
  rw [← h.first.ready.leafEntry_eq hv, ← h.first.ready.built_pml4t]
  exact h.first.start.unmapped v hv

/-- There is nothing to free. -/
theorem mmuFreePage (h : FreshHeap s free) (hv : InHeap v) : s.mmuFreePage v = s :=
  mmuFreePage_null h.first.ready.links hv (h.leafSlot_eq_zero hv)

theorem freePagesFrom (h : FreshHeap s free) {pages : BitVec 32 → Addr} :
    ∀ {n : ℕ} {i : BitVec 32}, (∀ j < n, InHeap (pages (i + BitVec.ofNat 32 j))) →
      s.freePagesFrom pages i n = s
  | 0, _, _ => rfl
  | n + 1, i, hheap => by
    obtain ⟨hi, hrest⟩ := pages_succ hheap
    rw [Mmu.freePagesFrom, h.mmuFreePage hi]
    exact h.freePagesFrom hrest

theorem mmuFreePages (h : FreshHeap s free) {num : BitVec 32} (hnum : num.toInt.toNat ≤ 524288)
    (hv : HeapPages v num.toInt.toNat) : s.mmuFreePages v num = s :=
  h.freePagesFrom (hv.pageAt hnum s)

/-- An access is a fault that halts the machine. -/
theorem not_completes (h : FreshHeap s free) (hv : InHeap v) : ¬Completes v s s' pa := by
  have hready := h.first.ready
  have hleaf := (h.unmapped hv).1
  intro hc
  cases hc with
  | hit htr =>
    have hwalk := heapWalk (entryAddr_eq hready.root) hready.links hv
    rw [(hwPte_eq_none_iff _ _ _).1 (hwalk.resolve_right fun hc => hc.1 hleaf).2] at htr
    cases htr
  | fault _ hret _ =>
    rw [Mmu.pageFaultHandler, getPte_lookup hready.links hv, h.leafSlot_eq_zero hv] at hret
    cases hret

/-! ## The first allocation -/

/-- The first allocation comes to a missing table, which builds the free list. -/
theorem brkPte_built (h : FreshHeap s free) : s.brkPte = s.built.brkPte := by
  have hready := h.first.ready
  have habsent := h.absent_built h.brkInHeap
  rw [hready.built_pml4t] at habsent
  rw [Mmu.brkPte, Mmu.brkPte, hready.built_pml4t, hready.built_kernelBrk]
  unfold Mmu.getPte getPageIndices
  simp only [entryAt_eq_slot, nextTable_built hready.inv.listed (h.absent _ h.brkInHeap) habsent]

theorem reservePage_built (h : FreshHeap s free) : s.reservePage = s.built.reservePage := by
  rw [Mmu.reservePage, Mmu.reservePage, h.brkPte_built]

/-- `MMU_alloc_page` begins as if the list were built. -/
theorem mmuAllocPage_built (h : FreshHeap s free) : s.mmuAllocPage = s.built.mmuAllocPage := by
  have hpte := h.brkPte_built
  by_cases hnull : s.brkPte.2 = 0
  · rw [Mmu.mmuAllocPage_null hnull, Mmu.mmuAllocPage_null (hpte ▸ hnull), hpte,
      h.first.ready.built_kernelBrk]
  · rw [Mmu.mmuAllocPage_reserve hnull, Mmu.mmuAllocPage_reserve (hpte ▸ hnull),
      h.reservePage_built, h.first.ready.built_kernelBrk]

/-- `MMU_alloc_pages` does too. -/
theorem mmuAllocPages_built (h : FreshHeap s free) {num : BitVec 32} (hpos : ¬num.sle 0) :
    s.mmuAllocPages num = s.built.mmuAllocPages num := by
  have hpte := h.brkPte_built
  obtain ⟨n, hn⟩ : ∃ n, num.toInt.toNat = n + 1 := by
    rw [BitVec.sle_iff_toInt_le, show (0 : BitVec 32).toInt = 0 from rfl] at hpos
    exact Nat.exists_eq_succ_of_ne_zero (by omega)
  rw [Mmu.mmuAllocPages, if_neg hpos, Mmu.mmuAllocPages, if_neg hpos, hn,
    h.first.ready.built_kernelBrk]
  by_cases hnull : s.brkPte.2 = 0
  · rw [Mmu.allocPagesFrom_null hnull, Mmu.allocPagesFrom_null (hpte ▸ hnull), hpte]
  · rw [Mmu.allocPagesFrom_reserve hnull, Mmu.allocPagesFrom_reserve (hpte ▸ hnull),
      h.reservePage_built]

/-! ## Runs -/

/-- The first event does nothing, or it is the same with the list built. -/
theorem step_built (h : FreshHeap s free) (hstep : HeapStepIn s e s') :
    s' = s ∧ HeapStepIn s.built e s.built ∨ HeapStepIn s.built e s' := by
  obtain ⟨hstep, hend⟩ := hstep
  have hbrk := h.built.brkInHeap
  cases hstep with
  | allocPage =>
    rw [h.mmuAllocPage_built] at hend ⊢
    exact .inr ⟨.allocPage, hend⟩
  | @allocPages num hnum =>
    by_cases hpos : num.sle 0
    · have hnone : ∀ s : Mmu, s.mmuAllocPages num = (s, 0) := fun s => by
        rw [Mmu.mmuAllocPages, if_pos hpos]
      have hsame : HeapStep s.built (.allocPages num _) _ := .allocPages hnum
      rw [hnone] at hsame ⊢
      exact .inl ⟨rfl, hsame, hbrk⟩
    · rw [h.mmuAllocPages_built hpos] at hend ⊢
      exact .inr ⟨.allocPages hnum, hend⟩
  | freePage hv =>
    have hsame : HeapStep s.built _ _ := .freePage hv
    rw [h.built.mmuFreePage hv] at hsame
    rw [h.mmuFreePage hv]
    exact .inl ⟨rfl, hsame, hbrk⟩
  | freePages hnum hv =>
    have hsame : HeapStep s.built _ _ := .freePages hnum hv
    rw [h.built.mmuFreePages hnum hv] at hsame
    rw [h.mmuFreePages hnum hv]
    exact .inl ⟨rfl, hsame, hbrk⟩
  | read hv hacc => exact absurd hacc (h.not_completes hv)
  | write hv hacc => exact absurd hacc (h.not_completes hv)

/-- A run does nothing, or it is a run from the built list. -/
theorem run_built {tr : List HeapEvent} (h : FreshHeap s free) (hrun : Run HeapStepIn s tr s') :
    s' = s ∧ Run HeapStepIn s.built tr s.built ∨ Run HeapStepIn s.built tr s' := by
  refine Run.invariant (fun tr s' => s' = s ∧ Run HeapStepIn s.built tr s.built ∨
    Run HeapStepIn s.built tr s') (.inl ⟨rfl, .nil⟩) ?_ hrun
  rintro tr t e u - (⟨rfl, hrun'⟩ | hrun') hstep
  · exact (h.step_built hstep).imp (fun ⟨heq, hsame⟩ => ⟨heq, hrun'.snoc hsame⟩) hrun'.snoc
  · exact .inr (hrun'.snoc hstep)

/-- The bytes of the heap are those of the trace. -/
theorem run_contents {tr : List HeapEvent} (h : FreshHeap s free) (hrun : Run HeapStepIn s tr s')
    {a : Addr} (ha : InHeap a) : heapByte s'.mem s'.pml4t a = HeapEvent.contents tr a := by
  have hstart := h.first.start
  rcases h.run_built hrun with ⟨rfl, hrun'⟩ | hrun' <;>
    obtain ⟨free', hsim⟩ := heapSim_run hstart hrun'
  · rw [← hsim.bytes a ha, heapByte_of_unmapped (h.unmapped ha),
      heapByte_of_unmapped (hstart.unmapped a ha)]
  · rw [hsim.pml4t]
    exact hsim.bytes a ha

end FreshHeap

end KernelDev
