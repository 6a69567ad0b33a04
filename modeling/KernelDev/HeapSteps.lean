import KernelDev.HeapBulk
import KernelDev.HeapMemory

/-!
# The changes that the heap makes

All that the calls and accesses of the heap do to memory comes down to four changes : a free frame
is linked into an entry, the entry of a page is set to one that is not present, the frame of a page
is given back, and a byte of a page is stored. What a call does besides, such as printing, flushing
and moving `kernel_brk`, leaves `CR3`, memory and the head of the free list as they are.

A statement about whole runs that compares two states can be shown from that. A `HeapRelation` is a
transitive relation on states that holds from before to after each of the changes, in a state with
the heap invariant; the invariant gives it what is known of the frame and of the entry, such as
that the frame is not in the tree. The lemmas go through the functions once, from the levels of
`get_pte` up to `MMU_alloc_pages` with its failure, and `HeapRelation.run` is the result for a run.

Two relations are shown in this way : that only certain memory is written (`heap_confined`), and
that `free_pages` counts the free frames. Neither looks at a function of `mmu.c` again.
-/

namespace KernelDev

open ByteMem PathTree

/-- The paths of heap addresses, to their tables and frames. -/
def HeapPath (p : List Index) : Prop :=
  ∃ v, InHeap v ∧ p <:+ pathOf v

theorem HeapPath.mem {p : List Index} (h : HeapPath p) : p ∈ treePaths := by
  obtain ⟨v, hv, hp⟩ := h
  rcases List.suffix_cons_iff.1 hp with rfl | hp
  · exact pathOf_mem hv
  · exact .inl hp.length_le

theorem HeapPath.tail {i : Index} {p : List Index} (h : HeapPath (i :: p)) : HeapPath p := by
  obtain ⟨v, hv, hp⟩ := h
  exact ⟨v, hv, (List.suffix_cons i p).trans hp⟩

theorem HeapTablePath.heapPath {p : List Index} (h : HeapTablePath p) : HeapPath p := by
  obtain ⟨v, hv, hp⟩ := h
  exact ⟨v, hv, hp.trans (List.suffix_cons _ _)⟩

theorem heapPath_pathOf {v : BitVec 64} (hv : InHeap v) : HeapPath (pathOf v) :=
  ⟨v, hv, List.suffix_rfl⟩

/-- `R` holds from before to after each change that the heap makes. -/
structure HeapRelation (R : Mmu → Mmu → Prop) : Prop where
  /-- Changes one after the other. -/
  trans {s t u : Mmu} : R s t → R t u → R s u
  /-- Memory and the free list are left alone. -/
  same {s t : Mmu} : t.cr3 = s.cr3 → t.mem = s.mem → t.freePageHead = s.freePageHead →
    t.freePages = s.freePages → R s t
  /-- A free frame is linked into an entry. -/
  link {s : Mmu} {f t : Addr} {l : List Addr} {i : Index} {p : List Index} :
    HeapInv s (f :: l) → HeapPath (i :: p) → node s.mem s.pml4t p = some t →
    childOf s.mem t i = none → R s (linkFrame s f (slot t i))
  /-- The entry of a page is set to one that is not present. -/
  mark {s : Mmu} {free : List Addr} {v e : BitVec 64} {pt : Addr} :
    HeapInv s free → InHeap v → node s.mem s.pml4t (tablePath v) = some pt →
    slot pt (ptIndex v) ≠ 0 → e &&& ptePresent = 0 → ∀ k,
    R s (writeLeaf s (slot pt (ptIndex v)) e k)
  /-- The frame of a page is given back. -/
  release {s : Mmu} {free : List Addr} {v : BitVec 64} {f pt : Addr} :
    HeapInv s free → InHeap v → node s.mem s.pml4t (tablePath v) = some pt →
    slot pt (ptIndex v) ≠ 0 → IsFrame f → leafEntry s.mem s.pml4t v = mappedEntry f →
    R s (releaseLeaf s f (slot pt (ptIndex v)))
  /-- A byte of a page is stored. -/
  store {s : Mmu} {free : List Addr} {v : BitVec 64} {f : Addr} :
    HeapInv s free → InHeap v → IsFrame f → leafEntry s.mem s.pml4t v = mappedEntry f →
    ∀ b, R s (s.storeByte (f + pageOffset v) b)

theorem growBrk_freePages (s : Mmu) : s.growBrk.freePages = s.freePages := by
  rw [Mmu.growBrk]

theorem HeapInv.reservePage {s : Mmu} {free : List Addr} (h : HeapInv s free)
    (hb : InHeap s.kernelBrk) (hne : s.brkPte.2 ≠ 0) : ∃ free', HeapInv s.reservePage free' := by
  obtain ⟨hsum, hal⟩ := hb.brk_next h.brkAligned
  obtain ⟨free₁, he, hmark⟩ := reserve_spec h hb (h.unused _ hb le_rfl)
  obtain ⟨hc, -⟩ := hmark hne _ (by omega) hal (by omega)
  rw [Mmu.reservePage, Mmu.brkPte, growBrk_store64_demand _ _ he.brk]
  exact ⟨free₁, hc.inv⟩

namespace HeapRelation

variable {R : Mmu → Mmu → Prop} {s t : Mmu} {free l : List Addr} {f u : Addr} {i : Index}
  {p : List Index} {v : BitVec 64} (hR : HeapRelation R)

include hR

theorem refl (s : Mmu) : R s s :=
  hR.same rfl rfl rfl rfl

theorem printk (h : R s t) (fmt : String) (args : List PrintkArg) :
    R s (t.printk fmt args) :=
  hR.trans h (hR.same rfl rfl rfl rfl)

theorem invlpg (h : R s t) (a : Addr) : R s (t.invlpg a) :=
  hR.trans h (hR.same rfl rfl rfl rfl)

theorem reportFault (h : R s t) (frame : FaultFrame) (a : Addr) :
    R s (t.reportFault frame a) := by
  unfold Mmu.reportFault
  split_ifs <;> repeat apply hR.printk
  all_goals exact h

/-! ## The calls -/

/-- One level of `get_pte` that may create. -/
theorem nextTable (h : HeapInv s free) (hp : HeapTablePath (i :: p))
    (ht : node s.mem s.pml4t p = some u) (msg : String) :
    R s (s.nextTable (slot u i) true msg).1 := by
  by_cases hpres : word s.mem u i &&& ptePresent = 0
  · cases free with
    | nil =>
      rw [nextTable_nil h.listed h.list hpres]
      exact hR.printk (hR.printk (hR.refl s) _ _) _ _
    | cons f l =>
      rw [nextTable_cons h.listed h.list (h.frames f List.mem_cons_self).aligned
        (aligned_of_node (aligned_pml4t s) ht) hpres]
      exact hR.link h hp.heapPath ht (childOf_eq_none hpres)
  · rw [nextTable_present hpres]
    exact hR.refl s

/-- `get_pte` with `create_if_not_exist`. -/
theorem getPte (h : HeapInv s free) (hv : InHeap v) :
    R s (s.getPte s.pml4t v true).1 := by
  have hc₁ := hR.nextTable (p := []) h (heapTablePath_pdpt hv) rfl
    "Failed to allocate PDPT\n"
  obtain ⟨free₁, he₁, ht₁⟩ :=
    nextTable_create (p := []) h (heapTablePath_pdpt hv) rfl "Failed to allocate PDPT\n"
  unfold Mmu.getPte getPageIndices
  simp only [entryAt_eq_slot]
  generalize s.nextTable (slot s.pml4t ((v >>> 39).setWidth 9)) true
    "Failed to allocate PDPT\n" = step₁ at hc₁ he₁ ht₁
  obtain ⟨s₁, _ | pdpt⟩ := step₁
  · exact hc₁
  have hpdpt := ht₁ pdpt rfl
  rw [← he₁.pml4t] at hpdpt
  have hc₂ := hR.trans hc₁ (hR.nextTable he₁.inv (heapTablePath_pd hv) hpdpt
    "Failed to allocate PD\n")
  obtain ⟨free₂, he₂, ht₂⟩ :=
    nextTable_create he₁.inv (heapTablePath_pd hv) hpdpt "Failed to allocate PD\n"
  simp only
  generalize s₁.nextTable (slot pdpt ((v >>> 30).setWidth 9)) true
    "Failed to allocate PD\n" = step₂ at hc₂ he₂ ht₂
  obtain ⟨s₂, _ | pdt⟩ := step₂
  · exact hc₂
  have hpdt := ht₂ pdt rfl
  rw [← he₂.pml4t] at hpdt
  have hc₃ := hR.trans hc₂ (hR.nextTable he₂.inv (heapTablePath_table hv) hpdt
    "Failed to allocate PT\n")
  simp only
  generalize s₂.nextTable (slot pdt ((v >>> 21).setWidth 9)) true
    "Failed to allocate PT\n" = step₃ at hc₃
  obtain ⟨s₃, _ | pt⟩ := step₃
  · exact hc₃
  · exact hc₃

/-- `MMU_free_page` -/
theorem mmuFreePage (h : HeapInv s free) (hv : InHeap v) :
    R s (s.mmuFreePage v) := by
  obtain ⟨-, heq⟩ | ⟨pt, hpt, hnull, ⟨-, heq⟩ | ⟨f, hf, he, heq⟩⟩ := mmuFreePage_cases h hv
  · rw [heq]
    exact hR.refl s
  · rw [heq]
    exact hR.invlpg (hR.mark h hv hpt hnull rfl _) v
  · rw [heq]
    exact hR.invlpg (hR.release h hv hpt hnull hf he) v

/-- The loop of `MMU_free_pages`. -/
theorem freePagesFrom {pages : BitVec 32 → Addr} :
    ∀ {n : ℕ} {s : Mmu} {free : List Addr} {i : BitVec 32},
    HeapInv s free → (∀ j < n, InHeap (pages (i + BitVec.ofNat 32 j))) →
    R s (s.freePagesFrom pages i n)
  | 0, s, _, _, _, _ => hR.refl s
  | n + 1, s, free, i, h, hheap => by
    obtain ⟨hi, hrest⟩ := pages_succ hheap
    obtain ⟨free₁, hc, -⟩ := mmuFreePage_spec h hi
    exact hR.trans (hR.mmuFreePage h hi) (freePagesFrom hc.inv hrest)

/-- `MMU_free_pages` -/
theorem mmuFreePages (h : HeapInv s free) {num : BitVec 32}
    (hnum : num.toInt.toNat ≤ 524288) (hv : HeapPages v num.toInt.toNat) :
    R s (s.mmuFreePages v num) :=
  hR.freePagesFrom h (hv.pageAt hnum s)

/-- The page at `kernel_brk` is marked. -/
theorem reservePage (h : HeapInv s free) (hb : InHeap s.kernelBrk)
    (hne : s.brkPte.2 ≠ 0) : R s s.reservePage := by
  have hgrow := hR.getPte h hb
  obtain ⟨free₁, he, hpte⟩ := getPte_create h hb
  obtain ⟨pt, hpt, hslot⟩ := hpte hne
  rw [Mmu.brkPte, hslot] at hne
  rw [Mmu.reservePage, Mmu.brkPte, hslot, growBrk_store64_demand _ _ he.brk]
  generalize s.getPte s.pml4t s.kernelBrk true = r at hgrow he hpt
  rw [← he.pml4t] at hpt
  exact hR.trans hgrow (hR.mark he.inv hb hpt hne rfl _)

/-- `MMU_alloc_page` -/
theorem mmuAllocPage (h : HeapInv s free) (hb : InHeap s.kernelBrk) :
    R s s.mmuAllocPage.1 := by
  by_cases hnull : s.brkPte.2 = 0
  · rw [Mmu.mmuAllocPage_null hnull]
    refine hR.printk (hR.trans (hR.getPte h hb) ?_) _ _
    exact hR.same (Mmu.growBrk_cr3 _) (Mmu.growBrk_mem _) (Mmu.growBrk_freePageHead _)
      (growBrk_freePages _)
  · rw [Mmu.mmuAllocPage_reserve hnull]
    exact hR.reservePage h hb hnull

/-- The loop of `MMU_alloc_pages`. -/
theorem allocPagesFrom {startAddr : Addr} (hstart : InHeap startAddr) :
    ∀ (n : ℕ) {s : Mmu} {free : List Addr} {i : ℕ}, HeapInv s free →
    s.kernelBrk.toNat = startAddr.toNat + 4096 * i → i + n ≤ 524288 →
    (s.allocPagesFrom s.pml4t startAddr (BitVec.ofNat 32 i) n).1.kernelBrk.toNat < 2 ^ 41 →
    R s (s.allocPagesFrom s.pml4t startAddr (BitVec.ofNat 32 i) n).1 := by
  intro n
  induction n with
  | zero => exact fun _ _ _ _ => hR.refl _
  | succ n ih =>
    intro s free i h hbrk hn hlt
    have hb := allocPagesFrom_inHeap hstart hbrk hn hlt
    by_cases hnull : s.brkPte.2 = 0
    · rw [Mmu.allocPagesFrom_null hnull]
      obtain ⟨free₁, he, -⟩ := getPte_create h hb
      obtain ⟨hnum, hpages⟩ := heapPages_taken hstart hb hbrk (by omega)
      exact hR.trans (hR.getPte h hb) (hR.mmuFreePages he.inv (by omega) hpages)
    · have hnext : BitVec.ofNat 32 i + 1 = BitVec.ofNat 32 (i + 1) := (BitVec.ofNat_add i 1).symm
      obtain ⟨free₁, hinv⟩ := h.reservePage hb hnull
      have hbrk' : s.reservePage.kernelBrk.toNat = startAddr.toNat + 4096 * (i + 1) := by
        rw [Mmu.reservePage_kernelBrk, (hb.brk_next h.brkAligned).1, hbrk, Nat.mul_succ,
          Nat.add_assoc]
      rw [Mmu.allocPagesFrom_reserve hnull, hnext] at hlt ⊢
      exact hR.trans (hR.reservePage h hb hnull)
        (ih hinv hbrk' (by rwa [Nat.add_assoc, Nat.add_comm 1]) hlt)

/-- `MMU_alloc_pages` -/
theorem mmuAllocPages (h : HeapInv s free) (hb : InHeap s.kernelBrk) {num : BitVec 32}
    (hnum : num.toInt.toNat ≤ 524288) (hend : InHeap (s.mmuAllocPages num).1.kernelBrk) :
    R s (s.mmuAllocPages num).1 := by
  unfold Mmu.mmuAllocPages at hend ⊢
  split_ifs at hend ⊢
  · exact hR.refl s
  · exact hR.allocPagesFrom hb _ (i := 0) h rfl (by omega) (inHeap_iff.1 hend).2

/-- `page_fault_handler` -/
theorem pageFaultHandler (h : HeapInv s free) (frame : FaultFrame) (hv : InHeap v) :
    R s (s.pageFaultHandler frame v).state := by
  obtain heq | ⟨pt, hpt, hnull, he, ⟨rfl, heq⟩ | ⟨f, l, rfl, heq⟩⟩ :=
    pageFaultHandler_cases h frame hv
  · rw [heq]
    exact hR.reportFault (hR.refl s) frame v
  · rw [heq]
    exact hR.reportFault (hR.printk (hR.printk (hR.refl s) _ _) _ _) frame v
  · rw [heq]
    rw [leafEntry_of_node hpt] at he
    have hnone := childOf_eq_none (m := s.mem) (t := pt) (i := ptIndex v) (by rw [he]; decide)
    exact hR.invlpg (hR.link h (heapPath_pathOf hv) hpt hnone) v

/-- An access that goes through. -/
theorem completes {s' : Mmu} {pa : Addr} (hv : InHeap v) (hc : Completes v s s' pa)
    (h : HeapInv s free) : R s s' := by
  induction hc generalizing free with
  | hit _ => exact hR.refl _
  | @fault s s₁ s' pa frame _ hret _ ih =>
    have hfault := hR.pageFaultHandler h frame hv
    obtain ⟨free₁, hc₁, -⟩ := pageFaultHandler_spec h frame hv
    rw [hret] at hfault hc₁
    exact hR.trans hfault (ih hc₁.inv)

/-! ## Runs -/

theorem step {s s' : Mmu} {free : List Addr} {e : HeapEvent} (h : HeapInv s free)
    (hroot : s.pml4t.toNat < 2 ^ 52) (hb : InHeap s.kernelBrk) (hstep : HeapStepIn s e s') :
    R s s' := by
  obtain ⟨hstep, hend⟩ := hstep
  cases hstep with
  | allocPage => exact hR.mmuAllocPage h hb
  | allocPages hnum => exact hR.mmuAllocPages h hb hnum hend
  | freePage hv => exact hR.mmuFreePage h hv
  | freePages hnum hv => exact hR.mmuFreePages h hnum hv
  | read hv hacc => exact hR.completes hv hacc h
  | @write s₁ v pa b hv hacc =>
    obtain ⟨free₁, hc, -, -, f, hf, he, rfl⟩ := completes_spec hroot hv hacc h
    rw [← hc.pml4t] at he
    exact hR.trans (hR.completes hv hacc h) (hR.store hc.inv hv hf he b)

theorem run {s₀ s : Mmu} {free₀ : List Addr} {tr : List HeapEvent}
    (h : HeapStart s₀ free₀) (hrun : Run HeapStepIn s₀ tr s) : R s₀ s := by
  refine Run.invariant (fun _ s => R s₀ s) (hR.refl s₀) ?_ hrun
  intro tr t e u hrun' hc hstep
  obtain ⟨free, hsim⟩ := heapSim_run h hrun'
  exact hR.trans hc (hR.step hsim.inv (hsim.pml4t ▸ h.root) hsim.brkInHeap hstep)

end HeapRelation

end KernelDev
