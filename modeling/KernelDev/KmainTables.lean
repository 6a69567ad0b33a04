import KernelDev.FreshHeap
import KernelDev.KmainPages

/-!
# The tables of the tests

The first allocation has to link the tables of its page, one frame each. `Lacks` says how far the
tables go : of the three below the root the first `k` are there and the next is not, so the lowest
ones are missing. With a free frame one more is linked (`Lacks.getPte_cons`), without one `get_pte`
gives up there and prints which table it could not create (`Lacks.getPte_nil`).

By induction on the tables that are missing, `get_pte` links as many as there are frames for
(`Lacks.getPte`). So the first allocation takes three frames and succeeds (`allocPage`), or takes
those there are and fails (`allocPage_null`). In the latter case the tables that it has linked
stay, and `kernel_brk` has moved, so the next allocation is for the next page; it goes through the
same tables.
-/

namespace KernelDev

open ByteMem PathTree

/-- Of the tables of `v` below the root the first `k` are there and the next is not. -/
inductive Lacks (m : Mem) (r : Addr) (v : BitVec 64) : ℕ → Prop
  | pdpt : word m r ((v >>> 39).setWidth 9) &&& ptePresent = 0 → Lacks m r v 0
  | pd {t : Addr} : node m r (pdptPath v) = some t →
      word m t ((v >>> 30).setWidth 9) &&& ptePresent = 0 → Lacks m r v 1
  | pt {t : Addr} : node m r (pdPath v) = some t →
      word m t ((v >>> 21).setWidth 9) &&& ptePresent = 0 → Lacks m r v 2

/-- What is printed for a missing table. -/
def missingTableLine : ℕ → PrintkCall
  | 0 => ⟨"Failed to allocate PDPT\n", []⟩
  | 1 => ⟨"Failed to allocate PD\n", []⟩
  | _ => ⟨"Failed to allocate PT\n", []⟩

/-- What `get_pte` prints where a table cannot be created. -/
def noTableLines (k : ℕ) : List PrintkCall :=
  [⟨"ERROR: Out of memory, no free pages available\n", []⟩, missingTableLine k]

theorem Lacks.congr {m : Mem} {r : Addr} {v v' : BitVec 64} {k : ℕ}
    (hpath : tablePath v = tablePath v') (h : Lacks m r v k) : Lacks m r v' k := by
  obtain ⟨h2, hpd⟩ := List.cons.inj hpath
  obtain ⟨h3, hpdpt⟩ := List.cons.inj hpd
  have h4 := (List.cons.inj hpdpt).1
  cases h with
  | pdpt habsent => exact .pdpt (h4 ▸ habsent)
  | pd ht habsent => exact .pd (hpdpt ▸ ht) (h3 ▸ habsent)
  | pt ht habsent => exact .pt (hpd ▸ ht) (h2 ▸ habsent)

section

variable {s : Mmu} {f : Addr} {l free : List Addr} {v : BitVec 64} {k : ℕ}

/-- Without a frame `get_pte` gives up at the missing table. -/
theorem Lacks.getPte_nil (h : Lacks s.mem s.pml4t v k) (hinv : HeapInv s []) :
    s.getPte s.pml4t v true =
      ((s.printk "ERROR: Out of memory, no free pages available\n" []).printk
        (missingTableLine k).fmt (missingTableLine k).args, 0) := by
  have hnil {t : Addr} {i : Index} (habsent : word s.mem t i &&& ptePresent = 0) (msg : String) :=
    nextTable_nil hinv.listed hinv.list habsent msg
  unfold Mmu.getPte getPageIndices
  simp only [entryAt_eq_slot]
  cases h with
  | pdpt habsent =>
    rw [hnil habsent]
    rfl
  | pd ht habsent =>
    simp only [nextTable_node rfl ht, hnil habsent]
    rfl
  | pt ht habsent =>
    obtain ⟨t, ht', -⟩ := walk_cons_eq_some.1 ht
    simp only [nextTable_node rfl ht', nextTable_node ht' ht, hnil habsent]
    rfl

/-- A free frame is linked at a missing entry, and has no entry itself. -/
theorem nextTable_link {t : Addr} {i : Index} {p : List Index} (h : HeapInv s (f :: l))
    (hp : HeapTablePath (i :: p)) (ht : node s.mem s.pml4t p = some t)
    (habsent : word s.mem t i &&& ptePresent = 0) :
    ∃ s', (∀ msg, s.nextTable (slot t i) true msg = (s', some f)) ∧ Extends s (f :: l) s' l ∧
      s'.console = s.console ∧ node s'.mem s'.pml4t (i :: p) = some f ∧
      ∀ j, word s'.mem f j &&& ptePresent = 0 := by
  have hnone := childOf_eq_none habsent
  refine ⟨linkFrame s f (slot t i), fun msg => ?_, extends_linkFrame h hp ht hnone, rfl, ?_,
    fun j => ?_⟩
  · exact nextTable_cons h.listed h.list (h.frames f (by simp)).aligned
      (aligned_of_node (aligned_pml4t s) ht) habsent msg
  · rw [linkFrame_pml4t]
    exact (node_linkFrame h hp.mem ht hnone _ hp.mem).trans (if_pos rfl)
  · rw [word_linkFrame_fresh h hp.mem ht]
    exact BitVec.zero_and

/-- With a frame the missing table is linked, and `get_pte` goes on from there. -/
theorem Lacks.getPte_cons (h : Lacks s.mem s.pml4t v k) (hinv : HeapInv s (f :: l))
    (hv : InHeap v) :
    ∃ t, s.getPte s.pml4t v true = t.getPte t.pml4t v true ∧ Extends s (f :: l) t l ∧
      t.console = s.console ∧
      (k < 2 ∧ Lacks t.mem t.pml4t v (k + 1) ∨
        k = 2 ∧ node t.mem t.pml4t (tablePath v) = some f) := by
  unfold Mmu.getPte getPageIndices
  simp only [entryAt_eq_slot]
  cases h with
  | pdpt habsent =>
    obtain ⟨t, hlink, hext, hcon, hnode, hfresh⟩ :=
      nextTable_link hinv (heapTablePath_pdpt hv) rfl habsent
    refine ⟨t, ?_, hext, hcon, Or.inl ⟨by omega, .pd hnode (hfresh _)⟩⟩
    rw [hlink, nextTable_node rfl hnode]
  | pd ht habsent =>
    obtain ⟨t, hlink, hext, hcon, hnode, hfresh⟩ :=
      nextTable_link hinv (heapTablePath_pd hv) ht habsent
    have ht' := hext.nodes _ (heapTablePath_pdpt hv).mem _ ht
    rw [← hext.pml4t] at ht'
    refine ⟨t, ?_, hext, hcon, Or.inl ⟨by omega, .pt hnode (hfresh _)⟩⟩
    simp only [nextTable_node rfl ht, hlink, nextTable_node rfl ht', nextTable_node ht' hnode]
  | pt ht habsent =>
    obtain ⟨u, hu, -⟩ := walk_cons_eq_some.1 ht
    obtain ⟨t, hlink, hext, hcon, hnode, -⟩ :=
      nextTable_link hinv (heapTablePath_table hv) ht habsent
    have ht' := hext.nodes _ (heapTablePath_pd hv).mem _ ht
    have hu' := hext.nodes _ (heapTablePath_pdpt hv).mem _ hu
    rw [← hext.pml4t] at ht' hu'
    refine ⟨t, ?_, hext, hcon, Or.inr ⟨rfl, hnode⟩⟩
    simp only [nextTable_node rfl hu, nextTable_node hu ht, hlink, nextTable_node rfl hu',
      nextTable_node hu' ht', nextTable_node ht' hnode]

/-- `get_pte` links tables until one page has them all, or there is no frame left. -/
theorem Lacks.getPte : ∀ {free : List Addr} {s : Mmu} {k : ℕ}, Lacks s.mem s.pml4t v k →
    HeapInv s free → InHeap v →
    ∃ t free', s.getPte s.pml4t v true = t.getPte t.pml4t v true ∧ Extends s free t free' ∧
      t.console = s.console ∧
      (free.length + k < 3 ∧ free' = [] ∧ Lacks t.mem t.pml4t v (free.length + k) ∨
        free.length + k = free'.length + 3 ∧
          ∃ f ∈ free, node t.mem t.pml4t (tablePath v) = some f)
  | [], s, k, h, hinv, _ => by
    refine ⟨s, [], rfl, .refl hinv, rfl, Or.inl ⟨?_, rfl, ?_⟩⟩
    · cases h <;> simp
    · rwa [List.length_nil, Nat.zero_add]
  | f :: l, s, k, h, hinv, hv => by
    obtain ⟨t, heq, hext, hcon, hnext | ⟨rfl, hnode⟩⟩ := h.getPte_cons hinv hv
    · obtain ⟨t', free', heq', hext', hcon', hres⟩ := hnext.2.getPte hext.inv hv
      refine ⟨t', free', heq.trans heq', hext.trans hext', hcon'.trans hcon, ?_⟩
      rw [List.length_cons, Nat.add_right_comm, Nat.add_assoc]
      rcases hres with hres | ⟨hlen, g, hg, hnode⟩
      · exact Or.inl hres
      · exact Or.inr ⟨hlen, g, List.mem_cons_of_mem f hg, hnode⟩
    · exact ⟨t, l, heq, hext, hcon, Or.inr ⟨rfl, f, by simp, hnode⟩⟩

end

/-! ## The first allocation -/

theorem heapPage_zero : heapPage 0 = kernelHeapAdr :=
  BitVec.add_zero _

namespace FreshHeap

variable {s : Mmu} {free : List Addr}

/-- At the start all three tables are missing. -/
theorem built_lacks (h : FreshHeap s free) :
    Lacks s.built.mem s.built.pml4t s.built.kernelBrk 0 :=
  .pdpt (h.absent_built h.built.brkInHeap)

/-- What `get_pte` leaves for the first page. -/
theorem brkPte (h : FreshHeap s free) :
    ∃ t free', s.brkPte = t.brkPte ∧ HeapInv t free' ∧ t.cr3 = s.cr3 ∧
      t.kernelBrk = kernelHeapAdr ∧ t.console = s.console ∧
      (∀ v, InHeap v → Unmapped (leafEntry t.mem t.pml4t v)) ∧
      (free.length < 3 ∧ free' = [] ∧ Lacks t.mem t.pml4t kernelHeapAdr free.length ∨
        free.length = free'.length + 3 ∧
          ∃ f, IsFrame f ∧ node t.mem t.pml4t (tablePath kernelHeapAdr) = some f) := by
  have hready := h.first.ready
  have hbrk : s.built.kernelBrk = kernelHeapAdr := hready.built_kernelBrk.trans h.brk
  have hlacks := h.built_lacks
  rw [hbrk] at hlacks
  obtain ⟨t, free', heq, hext, hcon, hres⟩ := hlacks.getPte hready.inv (by decide)
  have hbrk' : t.kernelBrk = kernelHeapAdr := hext.brk.trans hbrk
  have hcon' : s.built.console = s.console := by
    obtain ⟨m, head, hbuilt⟩ := Mmu.exists_built_eq h.first.first
    rw [hbuilt]
  refine ⟨t, free', ?_, hext.inv, hext.cr3.trans hready.built_cr3, hbrk', hcon.trans hcon',
    fun v hv => ?_, ?_⟩
  · rw [h.brkPte_built, Mmu.brkPte, Mmu.brkPte, hbrk, hbrk', heq]
  · rw [hext.pml4t, hext.leaf v hv]
    exact h.first.start.unmapped v hv
  · rw [Nat.add_zero] at hres
    rcases hres with hres | ⟨hlen, f, hf, hnode⟩
    · exact Or.inl hres
    · exact Or.inr ⟨hlen, f, h.first.start.frames f hf, hnode⟩

/-- With three frames the first page is handed out. -/
theorem allocPage (h : FreshHeap s free) (hfree : 3 ≤ free.length) :
    ∃ t free', free.length = free'.length + 3 ∧ s.mmuAllocPage = (t, heapPage 0) ∧
      t.console = s.console ∧
      SmallHeap s.cr3 t free' 1 (Function.update (fun _ => .unmapped) 0 .waiting) := by
  obtain ⟨t, free', heq, hinv, hcr3, hbrk, hcon, hun, hres⟩ := h.brkPte
  obtain ⟨hlen, f, hf, hnode⟩ := hres.resolve_left fun hc => by omega
  have hroot : t.pml4t = s.pml4t := by rw [Mmu.pml4t, Mmu.pml4t, hcr3]
  have hsmall : SmallHeap s.cr3 t free' 0 fun _ => .unmapped := by
    refine ⟨hinv, hcr3, hroot ▸ h.first.ready.root, ⟨f, hf, hnode⟩, ?_, fun i hi => ?_⟩
    · rw [hbrk, heapPage_zero]
    · exact hun _ (inHeap_heapPage (Nat.le_of_lt hi))
  obtain ⟨hne, -⟩ := hsmall.brkPte (by omega)
  obtain ⟨hres, hcon'⟩ := hsmall.reserve (by omega)
  have hpage : s.reservePage = t.reservePage := by
    rw [Mmu.reservePage, Mmu.reservePage, heq]
  rw [← heq] at hne
  refine ⟨t.reservePage, free', hlen, ?_, hcon'.trans hcon, hres⟩
  rw [Mmu.mmuAllocPage_reserve hne, hpage, h.brk, heapPage_zero]

/-- With fewer the first page is lost, and the last-level table is still missing. -/
theorem allocPage_null (h : FreshHeap s free) (hfree : free.length < 3) :
    ∃ t, s.mmuAllocPage = (t, 0) ∧ HeapInv t [] ∧ t.kernelBrk = heapPage 1 ∧
      Lacks t.mem t.pml4t (heapPage 1) free.length ∧
      t.console = s.console ++ (noTableLines free.length ++
        [⟨"Failed to get PTE for address %lx\n", [.word kernelHeapAdr]⟩]) := by
  obtain ⟨t, free', heq, hinv, -, hbrk, hcon, -, hres⟩ := h.brkPte
  obtain ⟨-, rfl, hlacks⟩ := hres.resolve_right fun hc => by omega
  have hnil := hlacks.getPte_nil hinv
  rw [← hbrk, ← Mmu.brkPte, ← heq] at hnil
  have hnull : s.brkPte.2 = 0 := by rw [hnil]
  have hpath : tablePath kernelHeapAdr = tablePath (heapPage 1) :=
    (tablePath_heapPage (by omega)).symm
  rw [Mmu.mmuAllocPage_null hnull, hnil, h.brk]
  generalize hu : (t.printk "ERROR: Out of memory, no free pages available\n" []).printk
    (missingTableLine free.length).fmt (missingTableLine free.length).args = u
  have hinvu : HeapInv u [] := hu ▸ { hinv with }
  have hbrku : u.kernelBrk = kernelHeapAdr := hu ▸ hbrk
  have hlacksu : Lacks u.mem u.pml4t kernelHeapAdr free.length := hu ▸ hlacks
  have hconu : u.console = s.console ++ noTableLines free.length := by
    rw [← hu, ← hcon]
    simp only [Mmu.printk, noTableLines, List.append_assoc]
    rfl
  have hin : InHeap u.kernelBrk := by
    rw [hbrku]
    decide
  have hgrow := hinvu.growBrk hin
  have hbrkg : u.growBrk.kernelBrk = heapPage 1 := by
    rw [Mmu.growBrk_kernelBrk, hbrku, ← heapPage_zero, heapPage_succ]
  have hcong : u.growBrk.console = u.console := by
    rw [Mmu.growBrk]
  rw [← u.growBrk_mem, ← u.growBrk_pml4t] at hlacksu
  rw [← hcong] at hconu
  generalize u.growBrk = w at hgrow hbrkg hlacksu hconu
  refine ⟨_, rfl, { hgrow with }, hbrkg, hlacksu.congr hpath, ?_⟩
  rw [Mmu.printk, hconu, List.append_assoc]

end FreshHeap

end KernelDev
