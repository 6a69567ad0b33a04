import KernelDev.HeapRuns

/-!
# Bulk allocation

`MMU_alloc_pages` moves `kernel_brk` after each page is reserved, `MMU_alloc_page` before it; the
one gives up at the first page that fails and frees those before it, and the other leaves
`kernel_brk` moved when it fails. As long as nothing fails they should do the same.

They do, from any state. `get_pte` does not read `kernel_brk`, so one iteration of the loop that
does not fail leaves the state of one single allocation (`mmuAllocPage_reserve`,
`allocPagesFrom_reserve`) : `reservePage` is that state, with the entry of the page at `kernel_brk`
marked. A run of the loop is then that of as many single allocations, by induction on their number
(`allocPagesFrom_cases`).

`mmuAllocPages_eq_allocPageTimes` : bulk allocation succeeds exactly if as many successive single
ones do, returns the first of their addresses, which are those of consecutive pages, and leaves the
state they leave. The pages are in the heap, as the page at `0` would be taken for a failure.
-/

namespace KernelDev

open ByteMem

namespace Mmu

variable (s : Mmu)

/-- The results of `n` successive calls of `MMU_alloc_page`, and the state after them. -/
def allocPageTimes (s : Mmu) : ℕ → Mmu × List Addr
  | 0 => (s, [])
  | n + 1 =>
    let (s, vaddr) := s.mmuAllocPage
    let (s, vaddrs) := s.allocPageTimes n
    (s, vaddr :: vaddrs)

/-! ## The page at `kernel_brk` -/

/-- `get_pte` for the page at `kernel_brk`, as the allocation functions call it. -/
def brkPte (s : Mmu) : Mmu × Addr :=
  s.getPte s.pml4t s.kernelBrk true

/-- The state after the entry of the page at `kernel_brk` is marked, and `kernel_brk` moved. -/
def reservePage (s : Mmu) : Mmu :=
  (s.brkPte.1.store64 s.brkPte.2 (pteDemandPaging ||| pteWritable)).growBrk

theorem brkPte_kernelBrk : s.brkPte.1.kernelBrk = s.kernelBrk :=
  getPte_kernelBrk s _ _ _

theorem brkPte_cr3 : s.brkPte.1.cr3 = s.cr3 :=
  getPte_cr3 s _ _ _

theorem store64_growBrk (a : Addr) (e : BitVec 64) :
    s.growBrk.store64 a e = (s.store64 a e).growBrk := by
  simp only [growBrk, store64]

/-- `get_pte` does the same before and after `kernel_brk` moves. -/
theorem brkPte_growBrk :
    s.growBrk.getPte s.growBrk.pml4t s.kernelBrk true = (s.brkPte.1.growBrk, s.brkPte.2) := by
  rw [growBrk_pml4t, growBrk_eq_reframe, getPte_reframe, growBrk_eq_reframe, brkPte_kernelBrk,
    brkPte_cr3, brkPte]

theorem reservePage_kernelBrk : s.reservePage.kernelBrk = s.kernelBrk + pageSize := by
  rw [reservePage, growBrk_kernelBrk, store64_kernelBrk, brkPte_kernelBrk]

theorem reservePage_pml4t : s.reservePage.pml4t = s.pml4t := by
  rw [reservePage, growBrk_pml4t, pml4t, store64_cr3, brkPte_cr3, pml4t]

variable {s}

/-- A single allocation that fails. -/
theorem mmuAllocPage_null (h : s.brkPte.2 = 0) : s.mmuAllocPage =
    (s.brkPte.1.growBrk.printk "Failed to get PTE for address %lx\n" [.word s.kernelBrk], 0) := by
  unfold mmuAllocPage
  simp only [brkPte_growBrk]
  rw [if_pos h]

/-- A single allocation that succeeds. -/
theorem mmuAllocPage_reserve (h : s.brkPte.2 ≠ 0) :
    s.mmuAllocPage = (s.reservePage, s.kernelBrk) := by
  unfold mmuAllocPage
  simp only [brkPte_growBrk]
  rw [if_neg h, store64_growBrk, reservePage]

/-- An iteration that fails. -/
theorem allocPagesFrom_null (h : s.brkPte.2 = 0) (startAddr : Addr) (i : BitVec 32) (n : ℕ) :
    s.allocPagesFrom s.pml4t startAddr i (n + 1) = (s.brkPte.1.mmuFreePages startAddr i, 0) := by
  rw [allocPagesFrom]
  exact if_pos h

/-- An iteration that succeeds. -/
theorem allocPagesFrom_reserve (h : s.brkPte.2 ≠ 0) (startAddr : Addr) (i : BitVec 32) (n : ℕ) :
    s.allocPagesFrom s.pml4t startAddr i (n + 1) =
      s.reservePage.allocPagesFrom s.reservePage.pml4t startAddr (i + 1) n := by
  rw [allocPagesFrom, reservePage_pml4t]
  exact if_neg h

/-- The loop moves `kernel_brk` by one page for each iteration that does not fail. -/
theorem allocPagesFrom_kernelBrk (startAddr : Addr) : ∀ (n : ℕ) (s : Mmu) (i : BitVec 32),
    ∃ j ≤ n, (s.allocPagesFrom s.pml4t startAddr i n).1.kernelBrk =
      s.kernelBrk + BitVec.ofNat 64 (4096 * j) ∧ (0 < n → s.brkPte.2 ≠ 0 → 0 < j)
  | 0, s, i => ⟨0, le_rfl, (BitVec.add_zero _).symm, fun hn => absurd hn (lt_irrefl 0)⟩
  | n + 1, s, i => by
    by_cases hnull : s.brkPte.2 = 0
    · rw [allocPagesFrom_null hnull, mmuFreePages, freePagesFrom_kernelBrk, brkPte_kernelBrk]
      exact ⟨0, Nat.zero_le _, (BitVec.add_zero _).symm, fun _ hne => absurd hnull hne⟩
    · obtain ⟨j, hj, hbrk, -⟩ := allocPagesFrom_kernelBrk startAddr n s.reservePage (i + 1)
      rw [allocPagesFrom_reserve hnull, hbrk, reservePage_kernelBrk, BitVec.add_assoc,
        show pageSize = BitVec.ofNat 64 4096 from rfl, ← BitVec.ofNat_add]
      exact ⟨j + 1, Nat.succ_le_succ hj, by rw [Nat.mul_succ, Nat.add_comm], fun _ _ => j.succ_pos⟩

theorem allocPageTimes_null (h : s.brkPte.2 = 0) (n : ℕ) : 0 ∈ (s.allocPageTimes (n + 1)).2 := by
  simp only [allocPageTimes, mmuAllocPage_null h, List.mem_cons, true_or]

/-- The first of several single allocations succeeds. -/
theorem allocPageTimes_reserve (h : s.brkPte.2 ≠ 0) (n : ℕ) : s.allocPageTimes (n + 1) =
    ((s.reservePage.allocPageTimes n).1, s.kernelBrk :: (s.reservePage.allocPageTimes n).2) := by
  simp only [allocPageTimes, mmuAllocPage_reserve h]

/-! ## Bulk against single allocation -/

/-- The `n` page addresses from `vaddr` on. -/
def pagesFrom (vaddr : Addr) (n : ℕ) : List Addr :=
  (List.range n).map fun i => vaddr + BitVec.ofNat 64 (4096 * i)

theorem pagesFrom_succ (vaddr : Addr) (n : ℕ) :
    pagesFrom vaddr (n + 1) = vaddr :: pagesFrom (vaddr + pageSize) n := by
  rw [pagesFrom, List.range_succ_eq_map, List.map_cons, List.map_map]
  refine congrArg₂ List.cons (by simp) (List.map_congr_left fun i _ => ?_)
  rw [Function.comp_apply, BitVec.add_assoc, show pageSize = BitVec.ofNat 64 4096 from rfl,
    ← BitVec.ofNat_add, Nat.mul_succ, Nat.add_comm]

/-- The loop against as many single allocations, from pages none of which is at `0`. -/
theorem allocPagesFrom_cases (startAddr : Addr) : ∀ (n : ℕ) (s : Mmu) (i : BitVec 32),
    0 ∉ pagesFrom s.kernelBrk n →
    0 ∈ (s.allocPageTimes n).2 ∧ (s.allocPagesFrom s.pml4t startAddr i n).2 = 0 ∨
    s.allocPagesFrom s.pml4t startAddr i n = ((s.allocPageTimes n).1, startAddr) ∧
      (s.allocPageTimes n).2 = pagesFrom s.kernelBrk n
  | 0, _, _, _ => Or.inr ⟨rfl, rfl⟩
  | n + 1, s, i, hpages => by
    rw [pagesFrom_succ, List.mem_cons, not_or] at hpages
    by_cases hnull : s.brkPte.2 = 0
    · rw [allocPagesFrom_null hnull]
      exact Or.inl ⟨allocPageTimes_null hnull n, rfl⟩
    · rw [allocPagesFrom_reserve hnull, allocPageTimes_reserve hnull, pagesFrom_succ,
        ← reservePage_kernelBrk]
      rw [← reservePage_kernelBrk] at hpages
      rcases allocPagesFrom_cases startAddr n s.reservePage (i + 1) hpages.2 with
        h | ⟨hloop, htimes⟩
      · exact Or.inl ⟨List.mem_cons_of_mem _ h.1, h.2⟩
      · exact Or.inr ⟨hloop, congrArg (s.kernelBrk :: ·) htimes⟩

end Mmu

/-- No heap page is at `0`. -/
theorem HeapPages.zero_notMem {v : BitVec 64} {n : ℕ} (h : HeapPages v n) :
    0 ∉ Mmu.pagesFrom v n := by
  simp only [Mmu.pagesFrom, List.mem_map, List.mem_range, not_exists, not_and]
  exact fun i hi => (h.inHeap hi).ne_zero

/-- `MMU_alloc_pages` succeeds exactly if as many successive calls of `MMU_alloc_page` do. It
then returns the first of their addresses, which are those of consecutive pages, and leaves
the state they leave. -/
theorem mmuAllocPages_eq_allocPageTimes (s : Mmu) (num : BitVec 32) (hnum : 0 < num.toInt)
    (hheap : HeapPages s.kernelBrk num.toInt.toNat) :
    ((s.mmuAllocPages num).2 ≠ 0 ↔ ∀ vaddr ∈ (s.allocPageTimes num.toInt.toNat).2, vaddr ≠ 0) ∧
    ((s.mmuAllocPages num).2 ≠ 0 →
      (s.allocPageTimes num.toInt.toNat).2.head? = some (s.mmuAllocPages num).2 ∧
      (∀ i < num.toInt.toNat, (s.allocPageTimes num.toInt.toNat).2[i]? =
        some ((s.mmuAllocPages num).2 + BitVec.ofNat 64 (4096 * i))) ∧
      (s.mmuAllocPages num).1 = (s.allocPageTimes num.toInt.toNat).1) := by
  have hpos : ¬num.sle 0 = true := by
    rw [BitVec.sle_iff_toInt_le, show (0 : BitVec 32).toInt = 0 from rfl]
    omega
  have hn : 0 < num.toInt.toNat := by omega
  have hbrk : s.kernelBrk ≠ 0 := (hheap hn).1.ne_zero
  rw [Mmu.mmuAllocPages, if_neg hpos]
  generalize num.toInt.toNat = n at hheap hn ⊢
  rcases Mmu.allocPagesFrom_cases s.kernelBrk n s 0 hheap.zero_notMem with
    ⟨hmem, hnull⟩ | ⟨hloop, htimes⟩
  · rw [hnull]
    exact ⟨⟨fun hc => absurd rfl hc, fun hc => absurd rfl (hc 0 hmem)⟩, fun hc => absurd rfl hc⟩
  · rw [hloop, htimes]
    refine ⟨⟨fun _ vaddr hv hz => hheap.zero_notMem (hz ▸ hv), fun _ => hbrk⟩,
      fun _ => ⟨?_, ?_, rfl⟩⟩
    · obtain ⟨m, rfl⟩ := Nat.exists_eq_succ_of_ne_zero hn.ne'
      rw [Mmu.pagesFrom_succ, List.head?_cons]
    · intro i hi
      rw [Mmu.pagesFrom, List.getElem?_map, List.getElem?_range hi, Option.map_some]

/-- The tables of the first heap page are linked, and no frame is free. -/
def linkedHeap : Mmu :=
  { bareHeap with
    mem := write64 (write64 (write64 (fun _ => 0) 0x1010 0x2003) 0x2000 0x3003) 0x3000 0x4003
    freePageHead := 0, freePages := 0 }

/-- Two pages at once are the first two pages of the heap, one after the other. -/
theorem mmuAllocPages_eq_allocPageTimes_linkedHeap :
    (∀ vaddr ∈ (linkedHeap.allocPageTimes 2).2, vaddr ≠ 0) ∧
    (linkedHeap.allocPageTimes 2).2[0]? = some kernelHeapAdr ∧
    (linkedHeap.allocPageTimes 2).2[1]? = some (kernelHeapAdr + pageSize) ∧
    (linkedHeap.mmuAllocPages 2).1 = (linkedHeap.allocPageTimes 2).1 := by
  have hpages : (linkedHeap.mmuAllocPages 2).2 = kernelHeapAdr := by decide +kernel
  obtain ⟨hnull, hall⟩ := mmuAllocPages_eq_allocPageTimes linkedHeap 2 (by decide)
    fun _ => ⟨by decide, by decide⟩
  have hne : (linkedHeap.mmuAllocPages 2).2 ≠ 0 := by
    rw [hpages]
    decide
  obtain ⟨-, hat, hstate⟩ := hall hne
  have hat₀ := hat 0 (by decide)
  have hat₁ := hat 1 (by decide)
  rw [hpages] at hat₀ hat₁
  exact ⟨hnull.1 hne, hat₀, hat₁, hstate⟩

end KernelDev
