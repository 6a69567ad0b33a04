import KernelDev.BootHeap
import KernelDev.KmainTests

/-!
# The tests of a booted kernel

`kmain` tests the heap right after `MMU_init`, with the tables of `boot.asm` and a free list that
is still to be built. How the tests end is decided by the number of frames that `MMU_init` leaves,
and `kmain_tests` says it for every information block of a clean boot : with fewer than three
frames the tests fail and `kmain` goes on, with three to six it halts in a page fault, and from
seven on they pass.

The number of frames is that of the pages that `init_free_page_list` lists for the regions
(`listedFrames`). The tests themselves are those of `KmainTests`, from the state of
`CleanBoot.freshHeap`.
-/

namespace KernelDev

open ByteMem HeapProgram

/-- What `kmain` does after `MMU_init`, up to its loop. -/
def HeapProgram.afterMmuInit (rip : Addr → Addr) (tries : ℕ) : HeapProgram Unit := do
  printk "MMU initialized\n" []
  printk "Virtual memory initialized (by boot.asm)\n" []
  heapTests rip tries

/-- All that is printed after `MMU_init`, with `n` frames. -/
def afterMmuInitLines (cr3 : BitVec 64) (rip : Addr → Addr) (n : ℕ) : List PrintkCall :=
  ⟨"MMU initialized\n", []⟩ :: ⟨"Virtual memory initialized (by boot.asm)\n", []⟩ ::
    testLines cr3 rip n

/-- After `boot.asm` and `MMU_init`, whatever the boot loader offers : with fewer than three frames
the tests fail and `kmain` goes on, with three to six it halts in a page fault, and from seven on
the tests pass. Then all frames are free again but three, and the heap is as empty as before. -/
theorem kmain_tests {t : BootTables} {s u : Mmu} {multibootInfo : Addr} {n tries : ℕ}
    (rip : Addr → Addr) (h : CleanBoot t s multibootInfo)
    (hinit : (t.enablePaging s).mmuInit multibootInfo = some u)
    (hn : (listedFrames u.memoryRegions).length = n) (htries : 2 ≤ tries) :
    ∃ v, (afterMmuInit rip tries).Ends u (if n < 3 ∨ 7 ≤ n then .ok () else .error .halted) v
        (afterMmuInitLines (linear t.p4Table) rip n) ∧
      (7 ≤ n → v.kernelBrk = heapPage 5 ∧ (∀ a, InHeap a → heapByte v.mem v.pml4t a = none) ∧
        ∃ free, HeapInv v free ∧ free.length + 3 = n) := by
  have hcr3 : u.cr3 = linear t.p4Table := (mmuInit_samePaging hinit).1
  have hstart := ((h.freshHeap hinit).printk "MMU initialized\n" []).printk
    "Virtual memory initialized (by boot.asm)\n" []
  obtain ⟨v, hend, hpass⟩ := heapTests_ends rip hstart htries
  rw [List.length_reverse, hn] at hend hpass
  refine ⟨v, ?_, hpass⟩
  rw [afterMmuInitLines, ← hcr3]
  exact (ends_printk "MMU initialized\n" [] u).bind ((ends_printk _ _ _).bind hend)

theorem kmain_tests_eightPages :
    ∃ u v, (BootTables.inRow.enablePaging eightPages).mmuInit 0x9000 = some u ∧
      (afterMmuInit (fun _ => 0x100000) 2).Ends u (.ok ()) v
        (afterMmuInitLines 0x108000 (fun _ => 0x100000) 8) ∧
      v.kernelBrk = heapPage 5 := by
  obtain ⟨u, hinit, hregions, -⟩ := mmuInit_eightPages
  have hn : (listedFrames u.memoryRegions).length = 8 := by
    rw [hregions]
    decide
  obtain ⟨v, hend, hpass⟩ :=
    kmain_tests (fun _ => 0x100000) cleanBoot_eightPages hinit hn (show 2 ≤ 2 by omega)
  exact ⟨u, v, hinit, hend, (hpass (by omega)).1⟩

end KernelDev
