import KernelDev.AllocFailure
import KernelDev.HeapMemory
import KernelDev.Lib.Run

/-!
# The range of the heap

The heap of `mmu.h` ends at `KERNEL_GROWTH_ADR_START`, and `mmu.c` never looks at that constant.
`kernel_brk` moves up only, by at most as many pages as a call asks for, and is compared with no
limit. So an allocation is inside the range exactly if the pages it asks for end before it
(`HasRoom`), and a run whose allocations all have room stays inside it. The condition is on the
call and `kernel_brk` before it.

Failing calls use the range up too : a single allocation that fails leaves `kernel_brk` moved, and
so do the pages that a failing bulk allocation took before it failed. That is what makes the range
run out in practice, as a failing call needs no frame.

`heap_in_range_iff` has two parts. In every run from `KERNEL_HEAP_ADR` whose calls all have room,
every allocation is inside the range; and the next allocation is, if and only if it has room. The
calls are all of `mmu.c`, in any state, with page faults in between.

`heap_out_of_range` is a run that leaves the range : without a frame every allocation fails until
`kernel_brk` is at the end of it (`Exhausted`), then three frames are freed, and the next page is
handed out.
-/

namespace KernelDev

open ByteMem

/-- A call of a run, and the page faults between the calls. -/
inductive MmuCall where
  | allocPage
  | allocPages (num : BitVec 32)
  | freePage (vaddr : Addr)
  | freePages (vaddr : Addr) (num : BitVec 32)
  | pfAlloc
  | pfFree (pf : Addr)
  | fault (frame : FaultFrame) (vaddr : Addr)

namespace MmuCall

/-- The pages of the heap that a call asks for. -/
def pages : MmuCall → ℕ
  | allocPage => 1
  | allocPages num => num.toInt.toNat
  | _ => 0

/-- The state a call leaves, and the heap address it returns, null for the other calls. -/
def run (s : Mmu) : MmuCall → Mmu × Addr
  | allocPage => s.mmuAllocPage
  | allocPages num => s.mmuAllocPages num
  | freePage vaddr => (s.mmuFreePage vaddr, 0)
  | freePages vaddr num => (s.mmuFreePages vaddr num, 0)
  | pfAlloc => (s.mmuPfAlloc.1, 0)
  | pfFree pf => (s.mmuPfFree pf, 0)
  | fault frame vaddr => ((s.pageFaultHandler frame vaddr).state, 0)

end MmuCall

/-- The `n` pages from `a` on are inside `[KERNEL_HEAP_ADR, KERNEL_GROWTH_ADR_START)`. -/
def InHeapRange (a : Addr) (n : ℕ) : Prop :=
  kernelHeapAdr.toNat ≤ a.toNat ∧ a.toNat + 4096 * n ≤ kernelGrowthAdrStart.toNat

/-- The pages that a call asks for end inside the range. -/
def HasRoom (s : Mmu) (c : MmuCall) : Prop :=
  s.kernelBrk.toNat + 4096 * c.pages ≤ kernelGrowthAdrStart.toNat

/-- One call, with the address it returns. -/
def CallStep (s : Mmu) (e : MmuCall × Addr) (s' : Mmu) : Prop :=
  e.1.run s = (s', e.2)

/-- One call that has room. -/
def RoomStep (s : Mmu) (e : MmuCall × Addr) (s' : Mmu) : Prop :=
  CallStep s e s' ∧ HasRoom s e.1

theorem callStep_run (s : Mmu) (c : MmuCall) : CallStep s (c, (c.run s).2) (c.run s).1 :=
  rfl

theorem callStep_allocPage {s s' : Mmu} {a : Addr} (h : s.mmuAllocPage = (s', a)) :
    CallStep s (.allocPage, a) s' :=
  h

theorem callStep_pfFree (s : Mmu) (f : Addr) : CallStep s (.pfFree f, 0) (s.mmuPfFree f) :=
  rfl

/-! ## One call -/

section

variable {s s' : Mmu} {c : MmuCall} {a : Addr}

/-- The loop returns null or the old `kernel_brk`. -/
theorem allocPagesFrom_result (pml4t startAddr : Addr) : ∀ (n : ℕ) (s : Mmu) (i : BitVec 32),
    (s.allocPagesFrom pml4t startAddr i n).2 = 0 ∨
      (s.allocPagesFrom pml4t startAddr i n).2 = startAddr
  | 0, _, _ => Or.inr rfl
  | n + 1, s, i => by
    rw [Mmu.allocPagesFrom]
    simp only
    split_ifs
    · exact Or.inl rfl
    · exact allocPagesFrom_result pml4t startAddr n _ _

/-- An allocation returns null or the old `kernel_brk`. -/
theorem MmuCall.run_result (s : Mmu) (c : MmuCall) :
    (c.run s).2 = 0 ∨ (c.run s).2 = s.kernelBrk := by
  cases c with
  | allocPage =>
    by_cases hnull : s.brkPte.2 = 0
    · exact Or.inl (by rw [run, Mmu.mmuAllocPage_null hnull])
    · exact Or.inr (by rw [run, Mmu.mmuAllocPage_reserve hnull])
  | allocPages num =>
    rw [run, Mmu.mmuAllocPages]
    split_ifs
    · exact Or.inl rfl
    · exact allocPagesFrom_result _ _ _ _ _
  | _ => exact Or.inl rfl

/-- A call moves `kernel_brk` up by at most the pages it asks for. -/
theorem MmuCall.run_kernelBrk (s : Mmu) (c : MmuCall) :
    ∃ j ≤ c.pages, (c.run s).1.kernelBrk = s.kernelBrk + BitVec.ofNat 64 (4096 * j) := by
  have hsame : s.kernelBrk = s.kernelBrk + BitVec.ofNat 64 (4096 * 0) := (BitVec.add_zero _).symm
  cases c with
  | allocPage => exact ⟨1, le_rfl, s.mmuAllocPage_kernelBrk⟩
  | allocPages num =>
    rw [run, Mmu.mmuAllocPages]
    split_ifs
    · exact ⟨0, Nat.zero_le _, hsame⟩
    · obtain ⟨j, hj, hbrk, -⟩ := Mmu.allocPagesFrom_kernelBrk s.kernelBrk num.toInt.toNat s 0
      exact ⟨j, hj, hbrk⟩
  | freePage vaddr => exact ⟨0, le_rfl, (s.mmuFreePage_kernelBrk vaddr).trans hsame⟩
  | freePages vaddr num => exact ⟨0, le_rfl, (s.freePagesFrom_kernelBrk _ _ _).trans hsame⟩
  | pfAlloc => exact ⟨0, le_rfl, s.mmuPfAlloc_kernelBrk.trans hsame⟩
  | pfFree pf => exact ⟨0, le_rfl, (s.mmuPfFree_kernelBrk pf).trans hsame⟩
  | fault frame vaddr =>
    exact ⟨0, le_rfl, (pageFaultHandler_kernelBrk s frame vaddr).trans hsame⟩

/-- From the range on, what a successful allocation returns is inside it exactly if the call
has room. -/
theorem MmuCall.inHeapRange_iff (hbrk : kernelHeapAdr.toNat ≤ s.kernelBrk.toNat)
    (hok : (c.run s).2 ≠ 0) : InHeapRange (c.run s).2 c.pages ↔ HasRoom s c := by
  rw [(c.run_result s).resolve_left hok]
  exact ⟨fun h => h.2, fun h => ⟨hbrk, h⟩⟩

/-- A call that has room leaves `kernel_brk` in the range. -/
theorem MmuCall.brk_le (hroom : HasRoom s c) :
    s.kernelBrk.toNat ≤ (c.run s).1.kernelBrk.toNat := by
  obtain ⟨j, hj, hbrk⟩ := c.run_kernelBrk s
  have hlimit : kernelGrowthAdrStart.toNat = 2 ^ 41 := rfl
  unfold HasRoom at hroom
  rw [hbrk, BitVec.toNat_add, BitVec.toNat_ofNat]
  omega

end

/-! ## Runs -/

section

variable {s₀ s : Mmu} {tr : List (MmuCall × Addr)}

/-- Along a run whose calls have room `kernel_brk` does not leave the range downwards, and every
allocation is inside it. -/
theorem inHeapRange_run (hstart : s₀.kernelBrk = kernelHeapAdr) (hrun : Run RoomStep s₀ tr s) :
    kernelHeapAdr.toNat ≤ s.kernelBrk.toNat ∧ ∀ e ∈ tr, e.2 ≠ 0 → InHeapRange e.2 e.1.pages := by
  refine Run.invariant (fun tr s => kernelHeapAdr.toNat ≤ s.kernelBrk.toNat ∧
    ∀ e ∈ tr, e.2 ≠ 0 → InHeapRange e.2 e.1.pages) ⟨by rw [hstart], by simp⟩ ?_ hrun
  rintro tr t ⟨c, a⟩ u - ⟨hbrk, htr⟩ ⟨hstep, hroom⟩
  have hstep : c.run t = (u, a) := hstep
  have hle := MmuCall.brk_le hroom
  have hiff := MmuCall.inHeapRange_iff (c := c) hbrk
  rw [hstep] at hle hiff
  refine ⟨hbrk.trans hle, fun e he hne => ?_⟩
  rcases List.mem_append.1 he with he | he
  · exact htr e he hne
  · obtain rfl := List.mem_singleton.1 he
    exact (hiff hne).2 hroom

/-- In every run from `KERNEL_HEAP_ADR` whose calls all have room, every allocation is inside the
range of the heap; and the next one is if and only if it has room. -/
theorem heap_in_range_iff (hstart : s₀.kernelBrk = kernelHeapAdr) (hrun : Run RoomStep s₀ tr s) :
    (∀ e ∈ tr, e.2 ≠ 0 → InHeapRange e.2 e.1.pages) ∧
      ∀ c : MmuCall, (c.run s).2 ≠ 0 → (InHeapRange (c.run s).2 c.pages ↔ HasRoom s c) := by
  obtain ⟨hbrk, htr⟩ := inHeapRange_run hstart hrun
  exact ⟨htr, fun c hok => MmuCall.inHeapRange_iff hbrk hok⟩

end

theorem heap_in_range_bareHeap : InHeapRange bareHeap.mmuAllocPage.2 1 := by
  have hstart : bareHeap.kernelBrk = kernelHeapAdr := rfl
  have hroom : HasRoom bareHeap .allocPage :=
    show kernelHeapAdr.toNat + 4096 * 1 ≤ kernelGrowthAdrStart.toNat by decide
  -- one call, whatever it leaves
  have hcall : ∀ x : Mmu × Addr, CallStep bareHeap (.allocPage, x.2) x.1 → x.2 ≠ 0 →
      InHeapRange x.2 1 := fun x hstep hok =>
    (heap_in_range_iff hstart (Run.nil.snoc ⟨hstep, hroom⟩)).1 (.allocPage, x.2)
      (List.mem_singleton_self _) hok
  exact hcall _ (callStep_run bareHeap .allocPage) (by rw [mmuAllocPage_bareHeap]; decide)

/-! ## A run that leaves the range -/

/-- The tables and the empty free list of `noFrames`, with `kernel_brk` at `brk`. -/
structure Exhausted (s : Mmu) (brk : Addr) : Prop where
  mem : s.mem = noFrames.mem
  cr3 : s.cr3 = noFrames.cr3
  head : s.freePageHead = 0
  listed : s.freeListInitialized = true
  brk : s.kernelBrk = brk

section

variable {s : Mmu} {brk : Addr}

/-- `get_pte` fails at the first level. -/
theorem Exhausted.brkPte (h : Exhausted s brk) : s.brkPte =
    ((s.printk "ERROR: Out of memory, no free pages available\n" []).printk
      "Failed to allocate PDPT\n" [], 0) := by
  have hroot : s.pml4t = bareHeap.pml4t := by rw [Mmu.pml4t, h.cr3]; rfl
  have hlist : s.FreeList [] := by
    rw [Mmu.FreeList, h.head]
    exact .nil
  have hmem : s.mem = bareHeap.mem := h.mem
  have habsent : word s.mem s.pml4t ((s.kernelBrk >>> 39).setWidth 9) &&& ptePresent = 0 := by
    rw [hroot, hmem, word_bareHeap_root, Mmu.zero_and_present]
  unfold Mmu.brkPte Mmu.getPte getPageIndices
  simp only [entryAt_eq_slot]
  rw [nextTable_nil h.listed hlist habsent]

/-- A failed allocation moves `kernel_brk` and nothing else. -/
theorem Exhausted.allocPage (h : Exhausted s brk) :
    s.mmuAllocPage.2 = 0 ∧ Exhausted s.mmuAllocPage.1 (brk + pageSize) := by
  have hbrk := s.mmuAllocPage_kernelBrk
  rw [h.brk] at hbrk
  rw [Mmu.mmuAllocPage_null (by rw [h.brkPte])] at hbrk ⊢
  rw [h.brkPte] at hbrk ⊢
  exact ⟨rfl, by simpa using h.mem, by simpa using h.cr3, by simpa using h.head,
    by simpa using h.listed, hbrk⟩

end

/-- Any number of failed allocations. -/
theorem exhausted_run (n : ℕ) : ∃ tr s, Run CallStep noFrames tr s ∧
    Exhausted s (kernelHeapAdr + BitVec.ofNat 64 (4096 * n)) := by
  induction n with
  | zero => exact ⟨[], noFrames, .nil, rfl, rfl, rfl, rfl, (BitVec.add_zero _).symm⟩
  | succ n ih =>
    obtain ⟨tr, s, hrun, hs⟩ := ih
    obtain ⟨hnull, hs'⟩ := hs.allocPage
    have hstep : s.mmuAllocPage = (s.mmuAllocPage.1, 0) := Prod.ext rfl hnull
    refine ⟨_, s.mmuAllocPage.1, hrun.snoc (callStep_allocPage hstep), ?_⟩
    rwa [BitVec.add_assoc, show pageSize = BitVec.ofNat 64 4096 from rfl, ← BitVec.ofNat_add,
      ← Nat.mul_succ] at hs'

/-- A well-formed tree that is only its root. -/
structure OnlyRoot (s : Mmu) (free : List Addr) : Prop where
  inv : TableInv s free
  root : ∀ p t, p.length ≤ 3 → tableAt s.mem s.pml4t p = some t → p = [] ∧ t = 0x1000

section

variable {s : Mmu} {free : List Addr} {brk f : Addr}

theorem Exhausted.onlyRoot (h : Exhausted s brk) : OnlyRoot s [] := by
  have hroot : s.pml4t = noFrames.pml4t := by rw [Mmu.pml4t, h.cr3, Mmu.pml4t]
  refine ⟨⟨h.listed, ?_, List.nodup_nil, by simp, ?_, by simp⟩, fun p t _ ht => ?_⟩
  · rw [Mmu.FreeList, h.head]
    exact .nil
  · rw [h.mem, hroot]
    exact tableInv_noFrames.distinct
  · rw [h.mem, hroot] at ht
    exact eq_nil_of_tableAt_bareHeap ht

/-- A frame is freed beside a tree that is only its root. -/
theorem OnlyRoot.pfFree (h : OnlyRoot s free) (hf : Aligned f) (hne : f ≠ 0) (hroot : f ≠ 0x1000)
    (hfree : f ∉ free) : OnlyRoot (s.mmuPfFree f) (f :: free) := by
  have hnot : NotTable s.mem s.pml4t f := fun p hp ht => hroot (h.root p f hp ht).2
  refine ⟨h.inv.mmuPfFree hf hne hfree hnot, fun p t hp ht => h.root p t hp ?_⟩
  rwa [mmuPfFree_pml4t, (keepsEntries_mmuPfFree hf hnot).tableAt hp] at ht

/-- With three free frames the next page can be allocated. -/
theorem OnlyRoot.allocPage (h : OnlyRoot s free) (hfree : 3 ≤ free.length) :
    s.mmuAllocPage = (s.reservePage, s.kernelBrk) := by
  have hnone : ∀ p, p ≠ [] → p.length ≤ 3 → tableAt s.mem s.pml4t p = none := fun p hp hlen => by
    by_contra hc
    obtain ⟨t, ht⟩ := Option.ne_none_iff_exists'.1 hc
    exact hp (h.root p t hlen ht).1
  have hhuge : NoHuge s.mem s.pml4t s.kernelBrk := by
    rintro q (rfl | rfl) -
    · rw [pdPath, pathEntry_cons_of_none (hnone _ (by simp [pdptPath]) (by simp))]
      rfl
    · rw [tablePath, pathEntry_cons_of_none (hnone _ (by simp [pdPath]) (by simp))]
      rfl
  refine Mmu.mmuAllocPage_reserve ?_
  rw [Mmu.brkPte, getPte_ne_zero_iff h.inv hhuge fun p hp ht =>
    absurd (h.root p 0 hp ht).2 (by decide)]
  exact (missingTables_le _ _ _).trans hfree

end

/-- A run of allocations and frees that gives out the page at `KERNEL_GROWTH_ADR_START`. -/
theorem heap_out_of_range : noFrames.kernelBrk = kernelHeapAdr ∧
    ∃ tr s, Run CallStep noFrames tr s ∧ ∃ e ∈ tr, e.2 ≠ 0 ∧ ¬InHeapRange e.2 e.1.pages := by
  refine ⟨rfl, ?_⟩
  -- 2 ^ 28 calls fail for want of a frame
  obtain ⟨tr, s, hrun, hs⟩ := exhausted_run (2 ^ 28)
  have hend : kernelHeapAdr + BitVec.ofNat 64 (4096 * 2 ^ 28) = kernelGrowthAdrStart := by decide
  rw [hend] at hs
  -- three frames are given back
  have h₁ := hs.onlyRoot.pfFree (f := 0x2000) (by decide) (by decide) (by decide) (by simp)
  have h₂ := h₁.pfFree (f := 0x3000) (by decide) (by decide) (by decide) (by simp)
  have h₃ := h₂.pfFree (f := 0x4000) (by decide) (by decide) (by decide) (by simp)
  have hbrk : (((s.mmuPfFree 0x2000).mmuPfFree 0x3000).mmuPfFree 0x4000).kernelBrk =
      kernelGrowthAdrStart := by
    rw [Mmu.mmuPfFree_kernelBrk, Mmu.mmuPfFree_kernelBrk, Mmu.mmuPfFree_kernelBrk, hs.brk]
  have halloc := h₃.allocPage (by simp)
  rw [hbrk] at halloc
  have hfreed := ((hrun.snoc (callStep_pfFree s 0x2000)).snoc (callStep_pfFree _ 0x3000)).snoc
    (callStep_pfFree _ 0x4000)
  refine ⟨_, _, hfreed.snoc (callStep_allocPage halloc), (.allocPage, kernelGrowthAdrStart),
    by simp, by decide, ?_⟩
  show ¬(kernelHeapAdr.toNat ≤ kernelGrowthAdrStart.toNat ∧
    kernelGrowthAdrStart.toNat + 4096 * 1 ≤ kernelGrowthAdrStart.toNat)
  decide

end KernelDev
