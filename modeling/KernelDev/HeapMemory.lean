import KernelDev.HeapBulk
import KernelDev.MapPage
import Mathlib.Data.Set.Lattice
import Mathlib.Order.CompletePartialOrder

/-!
# The heap as a memory

What the heap is for : a partial map from addresses to bytes. An allocation adds zero bytes, a free
removes the bytes of its pages, a write sets one byte, and a read returns one. The map after a
trace of events is `contents`, which looks at the calls and their results only.
`contents_of_written` reads it in the usual way : the last byte written to an address since its
allocation is the one it has.

Along every run `heapByte` is that map (`HeapSim`), whatever the tables and the frames are. One
event is the work : `Simulates` says that the bytes of the heap change as the memory does, and that
what is allocated is what `kernel_brk` passes over, so that it cannot meet what was allocated
before. It is shown from the specifications of the operations (`simulates_step`), and the run is an
induction on the trace (`heapSim_run`).

`heap_is_memory` is the result. A read that completes returns the byte that the memory has,
whatever its frame was used for before. And no two allocations overlap. The run at the end
allocates a page, writes to it and reads it back, with the page fault of the first access, and
allocates the next page.
-/

namespace KernelDev

open ByteMem PathTree

/-- What a program sees of the heap : calls with their results, and completed accesses. -/
inductive HeapEvent where
  | allocPage (result : Addr)
  | allocPages (num : BitVec 32) (result : Addr)
  | freePage (vaddr : Addr)
  | freePages (vaddr : Addr) (num : BitVec 32)
  | read (vaddr : Addr) (b : BitVec 8)
  | write (vaddr : Addr) (b : BitVec 8)

namespace HeapEvent

/-- The addresses of `n` pages from `vaddr`. -/
def pages (vaddr : Addr) (n : ℕ) : Set Addr :=
  {u | vaddr.toNat ≤ u.toNat ∧ u.toNat < vaddr.toNat + 4096 * n}

/-- The addresses an allocation returned. -/
def allocated : HeapEvent → Set Addr
  | allocPage result => {u | result ≠ 0 ∧ u ∈ pages result 1}
  | allocPages num result => {u | result ≠ 0 ∧ u ∈ pages result num.toInt.toNat}
  | _ => ∅

/-- The addresses a free takes back : all of each page it is called for. -/
def freed : HeapEvent → Set Addr
  | freePage vaddr => {u | pageOf u = pageOf vaddr}
  | freePages vaddr num =>
    {u | pageOf vaddr ≤ pageOf u ∧ pageOf u < pageOf vaddr + num.toInt.toNat}
  | _ => ∅

/-- The byte a write puts at `u`. -/
def written : HeapEvent → Addr → Option (BitVec 8)
  | write vaddr b, u => if u = vaddr then some b else none
  | _, _ => none

instance (e : HeapEvent) (u : Addr) : Decidable (u ∈ e.allocated) :=
  match e with
  | allocPage _ | allocPages _ _ => inferInstanceAs (Decidable (_ ≠ _ ∧ _ ≤ _ ∧ _ < _))
  | freePage _ | freePages _ _ | read _ _ | write _ _ => inferInstanceAs (Decidable False)

instance (e : HeapEvent) (u : Addr) : Decidable (u ∈ e.freed) :=
  match e with
  | freePage _ => inferInstanceAs (Decidable (_ = _))
  | freePages _ _ => inferInstanceAs (Decidable (_ ≤ _ ∧ _ < _))
  | allocPage _ | allocPages _ _ | read _ _ | write _ _ => inferInstanceAs (Decidable False)

/-- The effect of an event on the memory. A write changes a byte that is there. -/
def apply (e : HeapEvent) (bytes : Addr → Option (BitVec 8)) : Addr → Option (BitVec 8) := fun u =>
  if u ∈ e.allocated then some 0
  else if u ∈ e.freed then none
  else (bytes u).map fun b => (e.written u).getD b

/-- The memory after a trace. -/
def contents (tr : List HeapEvent) : Addr → Option (BitVec 8) :=
  tr.foldl (fun bytes e => e.apply bytes) fun _ => none

@[simp] theorem contents_nil (u : Addr) : contents [] u = none := rfl

theorem contents_snoc (tr : List HeapEvent) (e : HeapEvent) :
    contents (tr ++ [e]) = e.apply (contents tr) := by
  rw [contents, List.foldl_append]
  rfl

/-- An event reads the memory at the address it is asked for only. -/
theorem apply_congr (e : HeapEvent) {bytes bytes' : Addr → Option (BitVec 8)} {u : Addr}
    (h : bytes u = bytes' u) : e.apply bytes u = e.apply bytes' u := by
  rw [apply, apply, h]

theorem written_of_ne {u v : Addr} {b : BitVec 8} (h : u ≠ v) : (write v b).written u = none :=
  if_neg h

/-- A write to a live address. -/
theorem apply_write {bytes : Addr → Option (BitVec 8)} {u : Addr} {c : BitVec 8}
    (h : bytes u = some c) (b : BitVec 8) : (write u b).apply bytes u = some b := by
  have ha : u ∉ (write u b).allocated := id
  have hf : u ∉ (write u b).freed := id
  rw [apply, if_neg ha, if_neg hf, h, written, if_pos rfl]
  rfl

/-- An address that is freed has no byte. -/
theorem apply_of_freed {e : HeapEvent} {bytes : Addr → Option (BitVec 8)} {u : Addr}
    (ha : u ∉ e.allocated) (hf : u ∈ e.freed) : e.apply bytes u = none := by
  rw [apply, if_neg ha, if_pos hf]

/-- An event that neither allocates, frees nor writes an address leaves its byte. -/
theorem apply_of_untouched {e : HeapEvent} {bytes : Addr → Option (BitVec 8)} {u : Addr}
    (ha : u ∉ e.allocated) (hf : u ∉ e.freed) (hw : e.written u = none) :
    e.apply bytes u = bytes u := by
  rw [apply, if_neg ha, if_neg hf, hw]
  exact Option.map_id'

/-- The last byte written to an address since its allocation is the one it has. -/
theorem contents_of_written {tr tr' : List HeapEvent} {u : Addr} {b : BitVec 8}
    (h : ∀ e ∈ tr', u ∉ e.allocated ∧ u ∉ e.freed ∧ e.written u = none)
    (hb : contents tr u = some b) : contents (tr ++ tr') u = some b := by
  induction tr' using List.reverseRecOn with
  | nil => rwa [List.append_nil]
  | append_singleton tr' e ih =>
    obtain ⟨ha, hf, hw⟩ := h e (by simp)
    rw [← List.append_assoc, contents_snoc, apply_of_untouched ha hf hw]
    exact ih fun e' he' => h e' (by simp [he'])

end HeapEvent

/-! ## Steps -/

/-- One event at the heap : a call of `mmu.c`, or an access that completes. -/
inductive HeapStep : Mmu → HeapEvent → Mmu → Prop
  | allocPage {s : Mmu} : HeapStep s (.allocPage s.mmuAllocPage.2) s.mmuAllocPage.1
  | allocPages {s : Mmu} {num : BitVec 32} : num.toInt.toNat ≤ 524288 →
      HeapStep s (.allocPages num (s.mmuAllocPages num).2) (s.mmuAllocPages num).1
  | freePage {s : Mmu} {vaddr : Addr} : InHeap vaddr →
      HeapStep s (.freePage vaddr) (s.mmuFreePage vaddr)
  | freePages {s : Mmu} {vaddr : Addr} {num : BitVec 32} : num.toInt.toNat ≤ 524288 →
      HeapPages vaddr num.toInt.toNat → HeapStep s (.freePages vaddr num) (s.mmuFreePages vaddr num)
  | read {s s' : Mmu} {vaddr pa : Addr} : InHeap vaddr → Completes vaddr s s' pa →
      HeapStep s (.read vaddr (s'.mem pa)) s'
  | write {s s' : Mmu} {vaddr pa : Addr} {b : BitVec 8} : InHeap vaddr → Completes vaddr s s' pa →
      HeapStep s (.write vaddr b) (s'.storeByte pa b)

/-- An event that leaves `kernel_brk` in the heap. -/
def HeapStepIn (s : Mmu) (e : HeapEvent) (s' : Mmu) : Prop :=
  HeapStep s e s' ∧ InHeap s'.kernelBrk

/-- What an event does to the state : the heap bytes change as the memory does, and what it
allocates is what `kernel_brk` passes over. -/
structure Simulates (s : Mmu) (free : List Addr) (e : HeapEvent) (s' : Mmu) (free' : List Addr) :
    Prop where
  conserves : Conserves s free s' free'
  brk : s.kernelBrk.toNat ≤ s'.kernelBrk.toNat
  /-- The heap bytes change as the memory does. -/
  bytes : ∀ u, InHeap u →
    heapByte s'.mem s.pml4t u = e.apply (heapByte s.mem s.pml4t) u
  allocated : ∀ u ∈ e.allocated, s.kernelBrk.toNat ≤ u.toNat ∧ u.toNat < s'.kernelBrk.toNat
  /-- A read returns the byte of its address. -/
  read : ∀ v b, e = .read v b → heapByte s.mem s.pml4t v = some b

/-- An allocation, as an event with its result. -/
theorem simulates_alloc {s : Mmu} {free : List Addr} {n : ℕ} {r : Mmu × Addr} {e : HeapEvent}
    (hb : InHeap s.kernelBrk) (h : Allocates s free n r)
    (ha : e.allocated = {u | r.2 ≠ 0 ∧ u ∈ HeapEvent.pages r.2 n}) (hf : e.freed = ∅)
    (hw : ∀ u, e.written u = none) (hr : ∀ v b, e ≠ .read v b) :
    ∃ free', Simulates s free e r.1 free' := by
  obtain ⟨free', hc, hle, hres⟩ := h
  refine ⟨free', hc, hle, fun u hu => ?_, fun u hu => ?_, fun v b he => absurd he (hr v b)⟩
  · rcases hres with ⟨hnull, hbytes⟩ | ⟨haddr, hend, hbytes⟩
    · rw [hbytes u hu, HeapEvent.apply_of_untouched _ _ (hw u)]
      · rw [ha]
        exact fun hc => hc.1 hnull
      · rw [hf]
        exact id
    · rw [hbytes u hu]
      split_ifs with hin
      · have hmem : u ∈ e.allocated := by
          rw [ha, haddr]
          exact ⟨hb.ne_zero, hin⟩
        exact (if_pos hmem).symm
      · rw [HeapEvent.apply_of_untouched _ _ (hw u)]
        · rw [ha, haddr]
          exact fun hc => hin hc.2
        · rw [hf]
          exact id
  · rw [ha] at hu
    rcases hres with ⟨hnull, -⟩ | ⟨haddr, hend, -⟩
    · exact absurd hnull hu.1
    · have hin := hu.2
      rw [haddr] at hin
      exact ⟨hin.1, hend ▸ hin.2⟩

/-- A call that frees, as an event. -/
theorem simulates_free {s t : Mmu} {free : List Addr} {e : HeapEvent} {gone : Addr → Prop}
    [DecidablePred gone]
    (h : ∃ free', Conserves s free t free' ∧ t.kernelBrk = s.kernelBrk ∧ ∀ u, InHeap u →
      heapByte t.mem s.pml4t u = if gone u then none else heapByte s.mem s.pml4t u)
    (ha : e.allocated = ∅) (hf : e.freed = {u | gone u}) (hw : ∀ u, e.written u = none)
    (hr : ∀ v b, e ≠ .read v b) : ∃ free', Simulates s free e t free' := by
  obtain ⟨free', hc, hbrk, hbytes⟩ := h
  have hkept : ∀ u, u ∉ e.allocated := fun u hu => by
    rw [ha] at hu
    exact hu
  refine ⟨free', hc, by rw [hbrk], fun u hu => (hbytes u hu).trans ?_,
    fun u hu => absurd hu (hkept u), fun v b he => absurd he (hr v b)⟩
  split_ifs with hin
  · exact (HeapEvent.apply_of_freed (hkept u) (by rwa [hf])).symm
  · exact (HeapEvent.apply_of_untouched (hkept u) (by rwa [hf]) (hw u)).symm

/-- Each event does to the heap what it does to the memory. -/
theorem simulates_step {s s' : Mmu} {free : List Addr} {e : HeapEvent} (h : HeapInv s free)
    (hroot : s.pml4t.toNat < 2 ^ 52) (hb : InHeap s.kernelBrk) (hstep : HeapStepIn s e s') :
    ∃ free', Simulates s free e s' free' := by
  obtain ⟨hstep, hend⟩ := hstep
  cases hstep with
  | allocPage =>
    exact simulates_alloc hb (mmuAllocPage_spec h hb) rfl rfl (fun _ => rfl) fun _ _ he => by
      cases he
  | allocPages hnum =>
    exact simulates_alloc hb (mmuAllocPages_spec h hb hnum hend) rfl rfl (fun _ => rfl)
      fun _ _ he => by cases he
  | freePage hv =>
    exact simulates_free (mmuFreePage_spec h hv) rfl rfl (fun _ => rfl) fun _ _ he => by cases he
  | freePages hnum hv =>
    exact simulates_free (mmuFreePages_spec h _ hnum hv) rfl rfl (fun _ => rfl) fun _ _ he => by
      cases he
  | read hv hacc =>
    obtain ⟨free', hc, hbrk, hbytes, -⟩ := completes_spec hroot hv hacc h
    refine ⟨free', hc, by rw [hbrk], fun u hu => (hbytes u hu).trans ?_, fun u hu => hu.elim,
      fun v b he => ?_⟩
    · exact (HeapEvent.apply_of_untouched id id rfl).symm
    · cases he
      exact read_spec h hroot hv hacc
  | @write s₁ v pa b hv hacc =>
    obtain ⟨free₁, hc₁, hbrk₁, hbytes₁, f, hf, he, rfl⟩ := completes_spec hroot hv hacc h
    rw [← hc₁.pml4t] at he
    obtain ⟨hc₂, hbytes₂⟩ := storeByte_spec hc₁.inv hv hf he b
    rw [hc₁.pml4t] at hbytes₂
    refine ⟨free₁, hc₁.trans hc₂, (congrArg BitVec.toNat hbrk₁).ge,
      fun u hu => (hbytes₂ u hu).trans ?_, fun u hu => hu.elim, fun _ _ he => by cases he⟩
    split_ifs with huv
    · subst huv
      have hlive : heapByte s.mem s.pml4t u = some (s₁.mem (f + pageOffset u)) :=
        read_spec h hroot hv hacc
      exact (HeapEvent.apply_write hlive b).symm
    · rw [hbytes₁ u hu]
      exact (HeapEvent.apply_of_untouched id id (HeapEvent.written_of_ne huv)).symm

/-! ## Runs -/

/-- The state after a trace : its heap bytes are the memory, and everything allocated is
below `kernel_brk`, in ranges that do not meet. -/
structure HeapSim (s₀ : Mmu) (tr : List HeapEvent) (s : Mmu) (free : List Addr) : Prop where
  inv : HeapInv s free
  pml4t : s.pml4t = s₀.pml4t
  brkInHeap : InHeap s.kernelBrk
  bytes : ∀ u, InHeap u → heapByte s.mem s₀.pml4t u = HeapEvent.contents tr u
  /-- Everything allocated is below `kernel_brk`. -/
  below : ∀ e ∈ tr, ∀ u ∈ e.allocated, u.toNat < s.kernelBrk.toNat
  disjoint : tr.Pairwise fun e e' => Disjoint e.allocated e'.allocated

/-- Along a run the heap bytes are the memory. -/
theorem heapSim_run {s₀ s : Mmu} {free₀ : List Addr} {tr : List HeapEvent} (h : HeapStart s₀ free₀)
    (hrun : Run HeapStepIn s₀ tr s) : ∃ free, HeapSim s₀ tr s free := by
  refine Run.invariant (fun tr s => ∃ free, HeapSim s₀ tr s free) ?_ ?_ hrun
  · exact ⟨free₀, h.inv, rfl, h.brkInHeap, fun u hu => heapByte_of_unmapped (h.unmapped u hu),
      by simp, .nil⟩
  · rintro tr t e u - ⟨free, hsim⟩ hstep
    have hroot : t.pml4t.toNat < 2 ^ 52 := hsim.pml4t ▸ h.root
    obtain ⟨free', hs⟩ := simulates_step hsim.inv hroot hsim.brkInHeap hstep
    have hbytes := hs.bytes
    rw [hsim.pml4t] at hbytes
    refine ⟨free', hs.conserves.inv, hs.conserves.pml4t.trans hsim.pml4t, hstep.2,
      fun a ha => ?_, fun e' he' a ha => ?_, ?_⟩
    · rw [hbytes a ha, HeapEvent.contents_snoc, e.apply_congr (hsim.bytes a ha)]
    · rcases List.mem_append.1 he' with he' | he'
      · exact (hsim.below e' he' a ha).trans_le hs.brk
      · obtain rfl := List.mem_singleton.1 he'
        exact (hs.allocated a ha).2
    · refine List.pairwise_append.2 ⟨hsim.disjoint, by simp, fun e₁ he₁ e₂ he₂ => ?_⟩
      obtain rfl := List.mem_singleton.1 he₂
      refine Set.disjoint_left.2 fun a ha ha' => ?_
      have hbelow := hsim.below e₁ he₁ a ha
      have habove := (hs.allocated a ha').1
      omega

/-- Along every run of the heap a read that completes returns the byte the memory has : zero
after the allocation and then what was written last. And no two allocations overlap. -/
theorem heap_is_memory {s₀ s : Mmu} {free₀ : List Addr} {tr : List HeapEvent}
    (h : HeapStart s₀ free₀) (hrun : Run HeapStepIn s₀ tr s) :
    (∀ tr₁ tr₂ v b, tr = tr₁ ++ .read v b :: tr₂ → HeapEvent.contents tr₁ v = some b) ∧
      tr.Pairwise fun e e' => Disjoint e.allocated e'.allocated := by
  refine ⟨?_, ?_⟩
  · rintro tr₁ tr₂ v b rfl
    obtain ⟨t, t', hrun₁, hstep, -⟩ := hrun.at_label
    obtain ⟨free, hsim⟩ := heapSim_run h hrun₁
    have hroot : t.pml4t.toNat < 2 ^ 52 := hsim.pml4t ▸ h.root
    obtain ⟨free', hs⟩ := simulates_step hsim.inv hroot hsim.brkInHeap hstep
    have hv : InHeap v := by
      cases hstep.1 with
      | read hv _ => exact hv
    rw [← hsim.bytes v hv, ← hsim.pml4t]
    exact hs.read v b rfl
  · obtain ⟨free, hsim⟩ := heapSim_run h hrun
    exact hsim.disjoint

/-! ## A page is allocated, written and read, and a second one is allocated -/

theorem brkPte_bareHeap : bareHeap.brkPte.2 ≠ 0 :=
  mapSucceeds_bareHeap bareHeap.kernelBrk

/-- The first page is handed out. -/
theorem mmuAllocPage_bareHeap : bareHeap.mmuAllocPage = (bareHeap.reservePage, kernelHeapAdr) :=
  Mmu.mmuAllocPage_reserve brkPte_bareHeap

/-- The tables take three of the four frames. -/
theorem freePageHead_bareHeap : bareHeap.reservePage.freePageHead ≠ 0 := by
  obtain ⟨free, hg, hpte⟩ := getPte_grow tableInv_bareHeap (noHuge_bareHeap bareHeap.kernelBrk)
  rw [missingTables_bareHeap] at hpte
  obtain ⟨-, -, -, hcount⟩ := hpte.resolve_right fun hc => absurd hc.2 (by decide)
  rw [Mmu.reservePage, Mmu.growBrk_freePageHead, Mmu.store64_freePageHead, Mmu.brkPte, ne_eq,
    ← hg.inv.list.eq_nil_iff]
  rintro rfl
  simp at hcount

/-- The first allocation, as a run. -/
theorem run_bareHeap :
    Run HeapStepIn bareHeap [.allocPage kernelHeapAdr] bareHeap.reservePage := by
  have hstep : HeapStep bareHeap (.allocPage bareHeap.mmuAllocPage.2) bareHeap.mmuAllocPage.1 :=
    .allocPage
  have hbrk := mmuAllocPage_brk_bareHeap
  rw [mmuAllocPage_bareHeap] at hstep hbrk
  exact Run.nil.snoc ⟨hstep, hbrk⟩

/-- An access at the end of a run goes through if the byte is there, and is not zero or a frame is
free. -/
theorem HeapStart.access {s₀ s : Mmu} {free₀ : List Addr} {tr : List HeapEvent} {v : Addr}
    {c : BitVec 8} (h : HeapStart s₀ free₀) (hrun : Run HeapStepIn s₀ tr s) (hv : InHeap v)
    (hc : HeapEvent.contents tr v = some c) (hfree : c ≠ 0 ∨ s.freePageHead ≠ 0) :
    ∃ t pa, Completes v s t pa ∧ t.kernelBrk = s.kernelBrk ∧ InHeap t.kernelBrk := by
  obtain ⟨free, hsim⟩ := heapSim_run h hrun
  have hroot : s.pml4t.toNat < 2 ^ 52 := hsim.pml4t ▸ h.root
  have hbyte := (hsim.bytes v hv).trans hc
  rw [← hsim.pml4t] at hbyte
  have hne : c ≠ 0 ∨ free ≠ [] := hfree.imp_right fun hhead hnil =>
    hhead (hsim.inv.list.eq_nil_iff.1 hnil)
  obtain ⟨t, pa, hcomp⟩ := hsim.inv.completes hroot hv hbyte hne
  obtain ⟨-, -, hbrk, -⟩ := completes_spec hroot hv hcomp hsim.inv
  exact ⟨t, pa, hcomp, hbrk, hbrk ▸ hsim.brkInHeap⟩

/-- The page at `KERNEL_HEAP_ADR` gets a byte, which is then read. -/
theorem run_accessed_bareHeap : ∃ s b, s.kernelBrk = kernelHeapAdr + pageSize ∧
    Run HeapStepIn bareHeap
      [.allocPage kernelHeapAdr, .write kernelHeapAdr 42, .read kernelHeapAdr b] s := by
  have hv := inHeap_kernelHeapAdr
  have hzero : HeapEvent.contents [.allocPage kernelHeapAdr] kernelHeapAdr = some 0 := by decide
  have hwritten : HeapEvent.contents [.allocPage kernelHeapAdr, .write kernelHeapAdr 42]
      kernelHeapAdr = some 42 := by decide
  obtain ⟨t, pa, hc, hbrk, hin⟩ :=
    heapStart_bareHeap.access run_bareHeap hv hzero (.inr freePageHead_bareHeap)
  have hwrite : HeapStepIn bareHeap.reservePage (.write kernelHeapAdr 42) (t.storeByte pa 42) :=
    ⟨.write hv hc, hin⟩
  have hrun := run_bareHeap.snoc hwrite
  obtain ⟨u, pa', hc', hbrk', hin'⟩ :=
    heapStart_bareHeap.access hrun hv hwritten (.inl (by decide))
  refine ⟨u, u.mem pa', hbrk'.trans (hbrk.trans ?_), hrun.snoc ⟨.read hv hc', hin'⟩⟩
  rw [Mmu.reservePage_kernelBrk]
  rfl

/-- A page beside one that is in use has its table, so that it can be handed out. -/
theorem Mmu.brkPte_ne_zero {s : Mmu} {v : Addr} {b : BitVec 8}
    (hb : heapByte s.mem s.pml4t v = some b)
    (htable : tablePath s.kernelBrk = tablePath v) (hindex : ptIndex s.kernelBrk ≠ 0) :
    s.brkPte.2 ≠ 0 := by
  cases hpt : node s.mem s.pml4t (tablePath v) with
  | none =>
    have hun : Unmapped (leafEntry s.mem s.pml4t v) := by
      rw [leafEntry_of_none hpt]
      exact unmapped_zero
    rw [heapByte_of_unmapped hun] at hb
    cases hb
  | some pt =>
    have hal := aligned_of_node (aligned_pml4t s) hpt
    rw [← htable] at hpt
    rw [Mmu.brkPte, getPte_node hpt]
    exact slot_ne_zero_of_index hal hindex

/-- The next page has the table of the first. -/
theorem heap_is_memory_bareHeap : ∃ s b, Run HeapStepIn bareHeap
    [.allocPage kernelHeapAdr, .write kernelHeapAdr 42, .read kernelHeapAdr b,
      .allocPage (kernelHeapAdr + pageSize)] s ∧
      b = 42 ∧ Disjoint (HeapEvent.allocPage kernelHeapAdr).allocated
        (HeapEvent.allocPage (kernelHeapAdr + pageSize)).allocated := by
  obtain ⟨s, b, hbrk, hrun⟩ := run_accessed_bareHeap
  have hnext : HeapStepIn s (.allocPage (kernelHeapAdr + pageSize)) s.reservePage := by
    obtain ⟨free, hsim⟩ := heapSim_run heapStart_bareHeap hrun
    have hbyte := (hsim.bytes _ inHeap_kernelHeapAdr).trans (show _ = some 42 from rfl)
    rw [← hsim.pml4t] at hbyte
    have hpte := Mmu.brkPte_ne_zero hbyte (by rw [hbrk]; decide) (by rw [hbrk]; decide)
    have hstep : HeapStep s (.allocPage s.mmuAllocPage.2) s.mmuAllocPage.1 := .allocPage
    rw [Mmu.mmuAllocPage_reserve hpte, hbrk] at hstep
    refine ⟨hstep, ?_⟩
    rw [Mmu.reservePage_kernelBrk, hbrk]
    decide
  have hrun' := hrun.snoc hnext
  obtain ⟨hread, hdisjoint⟩ := heap_is_memory heapStart_bareHeap hrun'
  have hb := hread [.allocPage kernelHeapAdr, .write kernelHeapAdr 42] _ kernelHeapAdr b rfl
  have hwritten : HeapEvent.contents [.allocPage kernelHeapAdr, .write kernelHeapAdr 42]
      kernelHeapAdr = some 42 := by decide
  refine ⟨_, b, hrun', Option.some.inj (hb.symm.trans hwritten), ?_⟩
  exact (List.pairwise_cons.1 hdisjoint).1 _ (by simp)

end KernelDev
