import KernelDev.HeapBulk
import KernelDev.MapPage
import KernelDev.TableBuilt

/-!
# Failed heap allocations

`MMU_alloc_page` moves `kernel_brk` before it asks for the entry, and does not move it back when
there is none. `MMU_alloc_pages` clears the entries of the pages it had marked, but leaves
`kernel_brk` after them. So a failed call leaves the heap as it was exactly if it is one of
`MMU_alloc_pages` that fails at its first page.

`HeapUnchanged` is about `kernel_brk` and the last-level entries of the heap. Tables may have been
linked before the failure; they are empty and stay, which is no matter to it
(`TableReady.getPte_leaf`).

`mmuAlloc_unchanged_iff` says it for a failing call of either function from any tree in order, with
the free list built or not : never for `MMU_alloc_page`, and for `MMU_alloc_pages` just if there
are fewer free frames than tables missing for its first page. That is known before the call.
`mmuAllocPage_noFrames` is the failed call of a kernel without frames, which has moved
`kernel_brk`.
-/

namespace KernelDev

open ByteMem

/-- `kernel_brk` and the last-level entries of the heap pages are those of `s`. -/
structure HeapUnchanged (s s' : Mmu) : Prop where
  brk : s'.kernelBrk = s.kernelBrk
  /-- A page is in use just if it was, with the same entry. -/
  leaf : ∀ u, InHeap u →
    pathEntry s'.mem s'.pml4t (pathOf u) = pathEntry s.mem s.pml4t (pathOf u)

section

variable {s : Mmu} {free : List Addr} {num : BitVec 32}

/-- `MMU_alloc_page` never leaves the heap as it was. -/
theorem mmuAllocPage_changes (s : Mmu) : ¬HeapUnchanged s s.mmuAllocPage.1 := by
  intro h
  have hbrk := h.brk
  rw [Mmu.mmuAllocPage_kernelBrk, pageSize] at hbrk
  bv_omega

/-- A call for at least one page enters the loop. -/
theorem mmuAllocPages_pos (hnum : 0 < num.toInt) :
    s.mmuAllocPages num = s.allocPagesFrom s.pml4t s.kernelBrk 0 num.toInt.toNat := by
  rw [Mmu.mmuAllocPages, if_neg]
  rw [BitVec.sle_iff_toInt_le, show (0 : BitVec 32).toInt = 0 from rfl]
  omega

/-- A call that fails at its first page gives up at once. -/
theorem mmuAllocPages_first (hnum : 0 < num.toInt) (hnull : s.brkPte.2 = 0) :
    s.mmuAllocPages num = (s.brkPte.1, 0) := by
  obtain ⟨n, hn⟩ := Nat.exists_eq_succ_of_ne_zero (show num.toInt.toNat ≠ 0 by omega)
  rw [mmuAllocPages_pos hnum, hn, Mmu.allocPagesFrom_null hnull]
  rfl

/-- A call that has an entry for its first page moves `kernel_brk` for good. -/
theorem brkPte_null_of_unchanged (hnum : 0 < num.toInt)
    (h : HeapUnchanged s (s.mmuAllocPages num).1) : s.brkPte.2 = 0 := by
  by_contra hne
  have hmax : num.toInt < 2 ^ 31 := num.toInt_lt
  obtain ⟨j, hj, hbrk, hpos⟩ :=
    Mmu.allocPagesFrom_kernelBrk s.kernelBrk num.toInt.toNat s 0
  have hj' : 0 < j := hpos (by omega) hne
  rw [← mmuAllocPages_pos hnum, h.brk] at hbrk
  rw [← BitVec.toNat_inj, BitVec.toNat_add, BitVec.toNat_ofNat] at hbrk
  omega

/-- `get_pte` changes no entry of a page. -/
theorem TableReady.getPte_leaf (h : TableReady s free) {v : BitVec 64}
    (hv : NoHuge s.mem s.pml4t v) (u : BitVec 64) :
    pathEntry (s.getPte s.pml4t v true).1.mem s.pml4t (pathOf u) =
      pathEntry s.mem s.pml4t (pathOf u) := by
  cases hpt : tableAt s.mem s.pml4t (tablePath v) with
  | some pt => rw [getPte_of_tableAt hpt]
  | none =>
    have hv' := h.noHuge_built hv
    rw [← h.built_pml4t] at hv'
    obtain ⟨free', hg, -⟩ := getPte_grow h.inv hv'
    have hleaf := hg.leaf u
    rw [← h.getPte_built hv hpt, h.built_pml4t, h.pathEntry_built (by simp)] at hleaf
    exact hleaf

/-- `MMU_alloc_page` never leaves the heap as it was. `MMU_alloc_pages` does so only if it fails
at its first page : exactly if there are fewer free frames than tables missing for it. -/
theorem mmuAlloc_unchanged_iff (s : Mmu) (hnum : 0 < num.toInt) :
    ¬HeapUnchanged s s.mmuAllocPage.1 ∧
      (HeapUnchanged s (s.mmuAllocPages num).1 → s.brkPte.2 = 0) ∧
      ∀ free, TableReady s free → NoHuge s.mem s.pml4t s.kernelBrk → NotTable s.mem s.pml4t 0 →
        (HeapUnchanged s (s.mmuAllocPages num).1 ↔
          free.length < missingTables s.mem s.pml4t s.kernelBrk) := by
  refine ⟨mmuAllocPage_changes s, brkPte_null_of_unchanged hnum, fun free h hhuge hzero => ?_⟩
  rw [← h.getPte_eq_zero_iff hhuge hzero]
  refine ⟨brkPte_null_of_unchanged hnum, fun hnull => ?_⟩
  have hroot : s.brkPte.1.pml4t = s.pml4t := by
    rw [Mmu.pml4t, Mmu.brkPte_cr3, Mmu.pml4t]
  rw [mmuAllocPages_first hnum hnull]
  refine ⟨s.brkPte_kernelBrk, fun u _ => ?_⟩
  rw [hroot]
  exact h.getPte_leaf hhuge u

end

/-! ## No frames -/

/-- An empty top-level table, and no free frame. -/
def noFrames : Mmu :=
  { bareHeap with freePageHead := 0 }

theorem tableInv_noFrames : TableInv noFrames [] :=
  ⟨rfl, .nil, List.nodup_nil, by simp, tableInv_bareHeap.distinct, by simp⟩

theorem notTable_zero_noFrames : NotTable noFrames.mem noFrames.pml4t 0 := fun _ _ hp =>
  absurd (eq_nil_of_tableAt_bareHeap hp).2 (by decide)

/-- All tables below the root are missing. -/
theorem missingTables_noFrames (v : BitVec 64) :
    missingTables noFrames.mem noFrames.pml4t v = 3 :=
  missingTables_bareHeap v

/-- Without frames `get_pte` fails. -/
theorem brkPte_noFrames : noFrames.brkPte.2 = 0 := by
  rw [Mmu.brkPte, tableInv_noFrames.ready.getPte_eq_zero_iff (noHuge_bareHeap _)
    notTable_zero_noFrames, missingTables_noFrames]
  exact Nat.succ_pos 2

theorem mmuAlloc_unchanged_noFrames : HeapUnchanged noFrames (noFrames.mmuAllocPages 2).1 :=
  ((mmuAlloc_unchanged_iff noFrames (by decide)).2.2 [] tableInv_noFrames.ready
    (noHuge_bareHeap _) notTable_zero_noFrames).2
      (by rw [missingTables_noFrames]; exact Nat.succ_pos 2)

/-- A failed `MMU_alloc_page` that has moved `kernel_brk`. -/
theorem mmuAllocPage_noFrames :
    noFrames.mmuAllocPage.2 = 0 ∧
      noFrames.mmuAllocPage.1.kernelBrk = kernelHeapAdr + pageSize ∧
      ¬HeapUnchanged noFrames noFrames.mmuAllocPage.1 := by
  refine ⟨?_, Mmu.mmuAllocPage_kernelBrk _, mmuAllocPage_changes _⟩
  rw [Mmu.mmuAllocPage_null brkPte_noFrames]

end KernelDev
