import KernelDev.HeapBuilt
import KernelDev.HeapBulk
import KernelDev.Kmain

/-!
# The pages of the tests

The pages that `kmain` works on are the first of the heap and have one last-level table
(`tablePath_heapPage`). Once it is there, an allocation takes no frame, the first access to a page
takes one, or halts the machine if there is none, and a free gives the frame of its page back.

`SmallHeap` is such a heap : the heap invariant, how many of its pages were handed out, and what
each of them is used for (`PageUse`). A page is not handed out, or waits for a frame, or has a
frame which starts with a certain word. Each operation has a lemma that says how the use of one
page changes and what becomes of the free frames; the uses of the others stay, since their entries
and bytes do (`PageUse.At.congr`).

A fault without a frame prints the report of `page_fault_handler`, of which all lines are known
(`outOfMemoryLines`).
-/

namespace KernelDev

open ByteMem PathTree

/-! ## Addresses -/

/-- Page `i` of the heap. -/
def heapPage (i : ℕ) : Addr :=
  kernelHeapAdr + BitVec.ofNat 64 (4096 * i)

section

variable {i j : ℕ}

theorem heapPage_toNat (hi : i ≤ 512) : (heapPage i).toNat = 2 ^ 40 + 4096 * i := by
  rw [heapPage, BitVec.toNat_add, BitVec.toNat_ofNat,
    show kernelHeapAdr.toNat = 2 ^ 40 from rfl]
  omega

theorem inHeap_heapPage (hi : i ≤ 512) : InHeap (heapPage i) := by
  rw [inHeap_iff, heapPage_toNat hi]
  omega

theorem pageOf_heapPage (hi : i ≤ 512) : pageOf (heapPage i) = 2 ^ 28 + i := by
  rw [pageOf, heapPage_toNat hi]
  omega

theorem heapPage_ne (hi : i ≤ 512) (hj : j ≤ 512) (h : i ≠ j) :
    pageOf (heapPage i) ≠ pageOf (heapPage j) := by
  rw [pageOf_heapPage hi, pageOf_heapPage hj]
  omega

theorem pageOffset_heapPage (hi : i ≤ 512) : pageOffset (heapPage i) = 0 := by
  apply BitVec.eq_of_toNat_eq
  rw [pageOffset_toNat, heapPage_toNat hi]
  show _ = 0
  omega

theorem heapPage_succ (i : ℕ) : heapPage i + pageSize = heapPage (i + 1) := by
  rw [heapPage, heapPage, BitVec.add_assoc, show pageSize = BitVec.ofNat 64 4096 from rfl,
    ← BitVec.ofNat_add, Nat.mul_succ]

/-- The pages of a range, as `MMU_free_pages` counts them. -/
theorem pageAt_heapPage (s : Mmu) (hi : i + j < 524288) :
    s.pageAt (heapPage i) (BitVec.ofNat 32 j) = heapPage (i + j) := by
  have hpage := pageAt_ofNat (v := heapPage i) (j := j) s (by omega)
  rw [show (0 : BitVec 32) + BitVec.ofNat 32 j = BitVec.ofNat 32 j by simp] at hpage
  rw [hpage, heapPage, heapPage, BitVec.add_assoc, ← BitVec.ofNat_add, Nat.mul_add]

/-- The pages have one last-level table. -/
theorem tablePath_heapPage (hi : i < 512) : tablePath (heapPage i) = tablePath kernelHeapAdr := by
  have hnat := heapPage_toNat (Nat.le_of_lt hi)
  have hidx : ∀ k, 21 ≤ k → ((heapPage i) >>> k).setWidth 9 = (kernelHeapAdr >>> k).setWidth 9 := by
    intro k hk
    apply BitVec.eq_of_toNat_eq
    rw [BitVec.toNat_setWidth, BitVec.toNat_setWidth, BitVec.toNat_ushiftRight,
      BitVec.toNat_ushiftRight, Nat.shiftRight_eq_div_pow, Nat.shiftRight_eq_div_pow, hnat,
      show kernelHeapAdr.toNat = 2 ^ 40 from rfl]
    obtain ⟨d, rfl⟩ := Nat.exists_eq_add_of_le hk
    rw [Nat.pow_add, ← Nat.div_div_eq_div_mul, ← Nat.div_div_eq_div_mul]
    congr 2
    omega
  rw [tablePath, pdPath, pdptPath, hidx 21 (by omega), hidx 30 (by omega), hidx 39 (by omega)]
  rfl

end

/-! ## What the pages are used for -/

/-- A page that is not handed out, one that waits for a frame, or one whose frame starts with a
word. -/
inductive PageUse where
  | unmapped
  | waiting
  | holds (w : BitVec 32)

/-- The use of the pages after the use of `n` pages from page `b` on is set. -/
def setRange (pages : ℕ → PageUse) (b n : ℕ) (use : ℕ → PageUse) : ℕ → PageUse :=
  fun i => if b ≤ i ∧ i < b + n then use i else pages i

theorem setRange_zero (pages : ℕ → PageUse) (b : ℕ) (use : ℕ → PageUse) :
    setRange pages b 0 use = pages := by
  funext i
  exact if_neg (by omega)

theorem setRange_succ (pages : ℕ → PageUse) (b n : ℕ) (use : ℕ → PageUse) :
    setRange (Function.update pages b (use b)) (b + 1) n use = setRange pages b (n + 1) use := by
  funext i
  unfold setRange
  by_cases hi : i = b
  · rw [hi, Function.update_self, if_neg (by omega), if_pos (by omega)]
  · rw [Function.update_of_ne hi]
    exact if_congr (by omega) rfl rfl

/-- The last-level entry of the page at `v` has it in use so. -/
def PageUse.At (s : Mmu) (v : Addr) : PageUse → Prop
  | unmapped => Unmapped (leafEntry s.mem s.pml4t v)
  | waiting => leafEntry s.mem s.pml4t v = demandEntry
  | holds w => ∃ f, IsFrame f ∧ leafEntry s.mem s.pml4t v = mappedEntry f ∧ read32 s.mem f = w

/-- A heap of the tables at `cr3` with the last-level table of its first pages, `brk` of which were
handed out so far, and what these pages are used for. -/
structure SmallHeap (cr3 : BitVec 64) (s : Mmu) (free : List Addr) (brk : ℕ)
    (pages : ℕ → PageUse) : Prop where
  inv : HeapInv s free
  cr3 : s.cr3 = cr3
  root : s.pml4t.toNat < 2 ^ 52
  /-- The last-level table is there. -/
  table : ∃ pt, IsFrame pt ∧ node s.mem s.pml4t (tablePath kernelHeapAdr) = some pt
  brk : s.kernelBrk = heapPage brk
  /-- What each page is used for. -/
  page : ∀ i < 512, (pages i).At s (heapPage i)

/-- The bytes of a word in the frame of a page are bytes of the heap. -/
theorem read32_of_heapByte {s t : Mmu} {f : Addr} {i : ℕ} (hi : i ≤ 511) (hf : IsFrame f)
    (he : leafEntry s.mem s.pml4t (heapPage i) = mappedEntry f)
    (he' : leafEntry t.mem s.pml4t (heapPage i) = mappedEntry f)
    (hbytes : ∀ u, InHeap u → pageOf u = pageOf (heapPage i) →
      heapByte t.mem s.pml4t u = heapByte s.mem s.pml4t u) :
    read32 t.mem f = read32 s.mem f := by
  have hv := inHeap_heapPage (i := i) (by omega)
  have hnat := heapPage_toNat (i := i) (by omega)
  rw [read32, read32, loadLE_eq_of_bytes fun k hk => ?_]
  have hsum : (heapPage i + BitVec.ofNat 64 k).toNat = (heapPage i).toNat + k := by
    rw [BitVec.toNat_add, BitVec.toNat_ofNat]
    omega
  have hu : InHeap (heapPage i + BitVec.ofNat 64 k) := by
    rw [inHeap_iff, hsum]
    omega
  have hpage : pageOf (heapPage i + BitVec.ofNat 64 k) = pageOf (heapPage i) := by
    rw [pageOf, pageOf, hsum]
    omega
  have hoff : pageOffset (heapPage i + BitVec.ofNat 64 k) = BitVec.ofNat 64 k := by
    apply BitVec.eq_of_toNat_eq
    rw [pageOffset_toNat, hsum, BitVec.toNat_ofNat]
    omega
  have hbyte := hbytes _ hu hpage
  rw [heapByte_of_mapped hf.aligned ((leafEntry_congr hu hv hpage).trans he'),
    heapByte_of_mapped hf.aligned ((leafEntry_congr hu hv hpage).trans he), hoff] at hbyte
  exact Option.some.inj hbyte

/-- A page whose entry and bytes stay is used as before. -/
theorem PageUse.At.congr {s t : Mmu} {use : PageUse} {i : ℕ} (hi : i < 512)
    (h : use.At s (heapPage i)) (hroot : t.pml4t = s.pml4t)
    (hleaf : leafEntry t.mem s.pml4t (heapPage i) = leafEntry s.mem s.pml4t (heapPage i))
    (hbytes : ∀ u, InHeap u → pageOf u = pageOf (heapPage i) →
      heapByte t.mem s.pml4t u = heapByte s.mem s.pml4t u) : use.At t (heapPage i) := by
  cases use with
  | unmapped =>
    rw [PageUse.At, hroot, hleaf]
    exact h
  | waiting =>
    rw [PageUse.At, hroot, hleaf]
    exact h
  | holds w =>
    obtain ⟨f, hf, he, hw⟩ := h
    refine ⟨f, hf, by rw [hroot, hleaf, he], ?_⟩
    rw [read32_of_heapByte (by omega) hf he (hleaf.trans he) hbytes, hw]

namespace SmallHeap

variable {cr3 : BitVec 64} {s t : Mmu} {free free' : List Addr} {brk brk' i : ℕ}
  {pages : ℕ → PageUse} {use : PageUse}

theorem printk (h : SmallHeap cr3 s free brk pages) (fmt : String) (args : List PrintkArg) :
    SmallHeap cr3 (s.printk fmt args) free brk pages :=
  ⟨{ h.inv with }, h.cr3, h.root, h.table, h.brk, h.page⟩

theorem invlpg (h : SmallHeap cr3 s free brk pages) (a : Addr) :
    SmallHeap cr3 (s.invlpg a) free brk pages :=
  ⟨{ h.inv with }, h.cr3, h.root, h.table, h.brk, h.page⟩

/-- The table that has the entry of a page. -/
theorem table_heapPage (h : SmallHeap cr3 s free brk pages) (hi : i < 512) :
    ∃ pt, node s.mem s.pml4t (tablePath (heapPage i)) = some pt ∧
      slot pt (ptIndex (heapPage i)) ≠ 0 := by
  obtain ⟨pt, hpt, hnode⟩ := h.table
  refine ⟨pt, by rw [tablePath_heapPage hi, hnode], ?_⟩
  exact slot_ne_zero hpt.aligned hpt.ne_zero _

/-- One page is used otherwise, and the bytes of the others stay. -/
theorem set (h : SmallHeap cr3 s free brk pages) (hi : i < 512) (hinv : HeapInv t free')
    (hcr3 : t.cr3 = s.cr3) (hbrk : t.kernelBrk = heapPage brk')
    (htable : node t.mem s.pml4t (tablePath kernelHeapAdr) =
      node s.mem s.pml4t (tablePath kernelHeapAdr))
    (hleaf : ∀ u, InHeap u → pageOf u ≠ pageOf (heapPage i) →
      leafEntry t.mem s.pml4t u = leafEntry s.mem s.pml4t u)
    (hbytes : ∀ u, InHeap u → pageOf u ≠ pageOf (heapPage i) →
      heapByte t.mem s.pml4t u = heapByte s.mem s.pml4t u)
    (huse : use.At t (heapPage i)) :
    SmallHeap cr3 t free' brk' (Function.update pages i use) := by
  have hroot : t.pml4t = s.pml4t := by rw [Mmu.pml4t, Mmu.pml4t, hcr3]
  have htable' := h.table
  rw [← htable, ← hroot] at htable'
  refine ⟨hinv, hcr3.trans h.cr3, hroot ▸ h.root, htable', hbrk, fun j hj => ?_⟩
  by_cases hji : j = i
  · rw [hji, Function.update_self]
    exact huse
  · have hne := heapPage_ne (Nat.le_of_lt hj) (Nat.le_of_lt hi) hji
    rw [Function.update_of_ne hji]
    exact (h.page j hj).congr hj hroot (hleaf _ (inHeap_heapPage (Nat.le_of_lt hj)) hne)
      fun u hu hpage => hbytes u hu (hpage ▸ hne)

/-- The entry of one page is set. -/
theorem setLeaf (h : SmallHeap cr3 s free brk pages) (hi : i < 512) {pt : Addr} {e : BitVec 64}
    (hs : SetsLeaf s t (heapPage i) pt e) (hinv : HeapInv t free')
    (hbrk : t.kernelBrk = heapPage brk')
    (hbytes : ∀ u, InHeap u → pageOf u ≠ pageOf (heapPage i) →
      heapByte t.mem s.pml4t u = heapByte s.mem s.pml4t u)
    (huse : use.At t (heapPage i)) :
    SmallHeap cr3 t free' brk' (Function.update pages i use) := by
  have hv := inHeap_heapPage (Nat.le_of_lt hi)
  refine h.set hi hinv hs.cr3 hbrk ?_ (fun u hu hne => ?_) hbytes huse
  · have htable := hs.nodes h.inv hv rfl _ (tablePath_mem (heapPage i))
    rwa [if_neg (tablePath_ne_pathOf _ _), tablePath_heapPage hi] at htable
  · rw [hs.leaf h.inv hv hu, if_neg hne]

end SmallHeap

/-! ## Allocation -/

namespace SmallHeap

variable {cr3 : BitVec 64} {s : Mmu} {free : List Addr} {brk i : ℕ} {pages : ℕ → PageUse}

/-- `get_pte` finds the entry of the next page. -/
theorem brkPte (h : SmallHeap cr3 s free brk pages) (hbrk : brk < 512) :
    s.brkPte.2 ≠ 0 ∧ s.brkPte.1 = s := by
  obtain ⟨pt, hpt, hne⟩ := h.table_heapPage hbrk
  rw [Mmu.brkPte, h.brk, getPte_node hpt]
  exact ⟨hne, rfl⟩

/-- The next page is handed out, to wait for a frame. -/
theorem reserve (h : SmallHeap cr3 s free brk pages) (hbrk : brk < 512) :
    SmallHeap cr3 s.reservePage free (brk + 1) (Function.update pages brk .waiting) ∧
      s.reservePage.console = s.console := by
  obtain ⟨pt, hpt, hne⟩ := h.table_heapPage hbrk
  have hv := inHeap_heapPage (Nat.le_of_lt hbrk)
  have hun := h.inv.unused _ hv (by rw [h.brk])
  have heq : s.reservePage =
      writeLeaf s (slot pt (ptIndex (heapPage brk))) demandEntry (heapPage (brk + 1)) := by
    rw [Mmu.reservePage, Mmu.brkPte, h.brk, getPte_node hpt, Mmu.growBrk, Mmu.store64_kernelBrk,
      h.brk, heapPage_succ]
    rfl
  have hle : s.kernelBrk.toNat ≤ (heapPage (brk + 1)).toNat := by
    rw [h.brk, heapPage_toNat (by omega), heapPage_toNat (by omega)]
    omega
  have hal : Aligned (heapPage (brk + 1)) := by
    rw [Aligned, heapPage_toNat (by omega)]
    omega
  have hlt : (heapPage brk).toNat < (heapPage (brk + 1)).toNat := by
    rw [heapPage_toNat (by omega), heapPage_toNat (by omega)]
    omega
  have hs := setsLeaf_writeLeaf (e := demandEntry) hpt hne hle hal
  have hc := conserves_writeLeaf h.inv hv hpt hne hle hal hun.1 (Or.inr ⟨rfl, hlt⟩)
  rw [heq]
  refine ⟨h.setLeaf hbrk hs hc.inv (writeLeaf_kernelBrk _ _ _ _) (fun u hu hpage => ?_) ?_, rfl⟩
  · exact bytes_writeLeaf h.inv hv hpt hne hle hal hu hpage
  · rw [PageUse.At, hs.pml4t, hs.leaf h.inv hv hv, if_pos rfl]

/-- The loop of `MMU_alloc_pages` hands out the next pages. -/
theorem allocPagesFrom (startAddr : Addr) : ∀ {n : ℕ} {s : Mmu} {brk : ℕ} {pages : ℕ → PageUse}
    (j : BitVec 32), SmallHeap cr3 s free brk pages → brk + n ≤ 512 →
    ∃ t, s.allocPagesFrom s.pml4t startAddr j n = (t, startAddr) ∧ t.console = s.console ∧
      SmallHeap cr3 t free (brk + n) (setRange pages brk n fun _ => .waiting)
  | 0, s, brk, pages, j, h, _ => ⟨s, rfl, rfl, by rwa [setRange_zero]⟩
  | n + 1, s, brk, pages, j, h, hle => by
    obtain ⟨hne, -⟩ := h.brkPte (by omega)
    obtain ⟨h₁, hcon₁⟩ := h.reserve (by omega)
    obtain ⟨t, heq, hcon, ht⟩ :=
      allocPagesFrom startAddr (j + 1) h₁ (show brk + 1 + n ≤ 512 by omega)
    refine ⟨t, (Mmu.allocPagesFrom_reserve hne startAddr j n).trans heq, hcon.trans hcon₁, ?_⟩
    rw [← setRange_succ, show brk + (n + 1) = brk + 1 + n by omega]
    exact ht

end SmallHeap

/-! ## Accesses -/

/-- What is printed for a write to a page that waits for a frame when there is none. -/
def outOfMemoryLines (cr3 rip a : BitVec 64) : List PrintkCall :=
  [⟨"ERROR: Out of memory, no free pages available\n", []⟩,
    ⟨"Out of memory during demand paging\n", []⟩,
    ⟨"=== PAGE FAULT ===\n", []⟩,
    ⟨"Address: 0x%lx\n", [.word a]⟩,
    ⟨"Page table (CR3): 0x%lx\n", [.word cr3]⟩,
    ⟨"Error code: 0x%lx\n", [.word 2]⟩,
    ⟨"Page not present\n", []⟩,
    ⟨"Write access\n", []⟩,
    ⟨"Kernel mode access\n", []⟩,
    ⟨"Faulting instruction at: 0x%lx\n", [.word rip]⟩,
    ⟨"Unhandled page fault - halting\n", []⟩]

theorem reportFault_console (s : Mmu) (rip a : Addr) :
    ((((s.printk "ERROR: Out of memory, no free pages available\n" []).printk
      "Out of memory during demand paging\n" []).reportFault
        ⟨HeapProgram.writeFault, rip⟩ a).console) = s.console ++ outOfMemoryLines s.cr3 rip a := by
  have hpresent : HeapProgram.writeFault &&& 1 = 0 := by decide
  have hwrite : HeapProgram.writeFault &&& 2 ≠ 0 := by decide
  have huser : ¬HeapProgram.writeFault &&& 4 ≠ 0 := by decide
  have hreserved : ¬HeapProgram.writeFault &&& 8 ≠ 0 := by decide
  have hfetch : ¬HeapProgram.writeFault &&& 16 ≠ 0 := by decide
  simp only [Mmu.reportFault, if_pos hpresent, if_pos hwrite, if_neg huser, if_neg hreserved,
    if_neg hfetch, Mmu.printk, List.append_assoc]
  rfl

namespace SmallHeap

variable {cr3 : BitVec 64} {s : Mmu} {free : List Addr} {brk i : ℕ} {pages : ℕ → PageUse} {f : Addr}
  {w : BitVec 32}

/-- The processor finds the frame of a page. -/
theorem hwTranslate_mapped (h : SmallHeap cr3 s free brk pages) (hi : i < 512) (hf : IsFrame f)
    (he : leafEntry s.mem s.pml4t (heapPage i) = mappedEntry f) :
    hwTranslate s.mem s.cr3 (heapPage i) = some f := by
  rw [hwTranslate_heap h.inv h.root (inHeap_heapPage (Nat.le_of_lt hi)), he,
    if_neg (mappedEntry_present f), mappedEntry_pageMask hf.aligned,
    pageOffset_heapPage (Nat.le_of_lt hi)]
  exact congrArg some (BitVec.add_zero f)

/-- The processor finds no frame for a page that waits. -/
theorem hwTranslate_waiting (h : SmallHeap cr3 s free brk pages) (hi : i < 512)
    (he : leafEntry s.mem s.pml4t (heapPage i) = demandEntry) :
    hwTranslate s.mem s.cr3 (heapPage i) = none := by
  rw [hwTranslate_heap h.inv h.root (inHeap_heapPage (Nat.le_of_lt hi)), he]
  rfl

/-- The frame of a page gets a word at its start. -/
theorem write (h : SmallHeap cr3 s free brk pages) (hi : i < 512) (hf : IsFrame f)
    (he : leafEntry s.mem s.pml4t (heapPage i) = mappedEntry f) :
    SmallHeap cr3 { s with mem := write32 s.mem f w } free brk
      (Function.update pages i (.holds w)) := by
  have hv := inHeap_heapPage (Nat.le_of_lt hi)
  have hmem : ∀ x, pageOf x ≠ pageOf f → write32 s.mem f w x = s.mem x := fun x hx => by
    refine write32_of_not_within fun hw => hx ?_
    rw [← slot_zero f] at hw
    refine hf.aligned.pageOf_of_within_slot (i := 0) ?_
    unfold Within at *
    omega
  have hkeeps := h.inv.keepsTables_frame hv hf he hmem
  have hc := conserves_of_words h.inv { s with mem := write32 s.mem f w } rfl rfl rfl rfl hkeeps
    fun g hg => ?_
  · refine h.set hi hc.inv rfl h.brk (hkeeps.nodes _ (tablePath_mem kernelHeapAdr))
      (fun u hu _ => hkeeps.leafEntry hu) (fun u hu hpage => ?_) ?_
    · refine heapByte_congr (h.inv.leaf u hu) (hkeeps.leafEntry hu) fun g hg heg => hmem _ ?_
      rw [pageOf_add_pageOffset hg.aligned]
      refine hg.aligned.pageOf_ne hf.aligned ?_
      rintro rfl
      have hpath := h.inv.unique _ (pathOf_mem hu) _ (pathOf_mem hv) _
        (node_of_leafEntry hg.aligned heg) (node_of_leafEntry hg.aligned he)
      exact hpage ((hu.pathOf_eq_iff hv).1 hpath)
    · exact ⟨f, hf, (hkeeps.leafEntry hv).trans he, read32_write32_self _ _ _⟩
  · have hne : pageOf g ≠ pageOf f := by
      refine (h.inv.frames g hg).aligned.pageOf_ne hf.aligned ?_
      rintro rfl
      exact h.inv.frame_notMem hv hf.aligned he hg
    refine read64_congr fun x hx => hmem x ?_
    rw [← slot_zero g] at hx
    rwa [(h.inv.frames g hg).aligned.pageOf_of_within_slot hx]

/-- A page that waits gets the first free frame. -/
theorem fault (h : SmallHeap cr3 s (f :: free) brk pages) (hi : i < 512)
    (huse : pages i = .waiting) (frame : FaultFrame) :
    ∃ t w, s.pageFaultHandler frame (heapPage i) = .returned t ∧ IsFrame f ∧
      leafEntry t.mem t.pml4t (heapPage i) = mappedEntry f ∧ t.console = s.console ∧
      SmallHeap cr3 t free brk (Function.update pages i (.holds w)) := by
  have hv := inHeap_heapPage (Nat.le_of_lt hi)
  have he := h.page i hi
  rw [huse] at he
  have hf := h.inv.frames f (by simp)
  obtain ⟨pt, hpt, hne⟩ := h.table_heapPage hi
  have hs := setsLeaf_linkFrame h.inv hpt hne
  have hc := conserves_linkFrame h.inv hv hpt hne he
  have hleaf := (hs.leaf h.inv hv hv).trans (if_pos rfl)
  rw [← hs.pml4t] at hleaf
  have hbrk : (linkFrame s f (slot pt (ptIndex (heapPage i)))).kernelBrk = heapPage brk := by
    rw [linkFrame_kernelBrk, h.brk]
  have hlinked := h.setLeaf hi hs hc.inv hbrk
    (fun u hu _ => bytes_linkFrame h.inv hv hpt hne he hu)
    (show (PageUse.holds _).At _ _ from ⟨f, hf, hleaf, rfl⟩)
  exact ⟨_, _, pageFaultHandler_demand h.inv hv hpt hne he, hf, hleaf, rfl, hlinked.invlpg _⟩

variable (rip : Addr → Addr) {tries : ℕ}

/-- A write to a page that waits takes a frame, and the page has the word. -/
theorem store32 (h : SmallHeap cr3 s (f :: free) brk pages) (hi : i < 512)
    (huse : pages i = .waiting) (htries : 2 ≤ tries) (w : BitVec 32) :
    ∃ t, (HeapProgram.store32 rip tries (heapPage i) w).Ends s (.ok ()) t [] ∧
      SmallHeap cr3 t free brk (Function.update pages i (.holds w)) := by
  obtain ⟨n, rfl⟩ := Nat.exists_eq_add_of_le' htries
  have he := h.page i hi
  rw [huse] at he
  obtain ⟨t, w', hfault, hf, het, hcon, ht⟩ :=
    h.fault hi huse ⟨HeapProgram.writeFault, rip (heapPage i)⟩
  have haccess :
      HeapProgram.access rip HeapProgram.writeFault (heapPage i) (n + 2) s = .ok f t := by
    simp only [HeapProgram.access, h.hwTranslate_waiting hi he, hfault,
      ht.hwTranslate_mapped hi hf het]
  have hwrite := ht.write (w := w) hi hf het
  rw [Function.update_idem] at hwrite
  refine ⟨{ t with mem := write32 t.mem f w }, ⟨?_, ?_⟩, hwrite⟩
  · simp only [HeapProgram.store32, bind, EStateM.bind, haccess]
    rfl
  · rw [List.append_nil, ← hcon]

/-- Without a frame the machine is halted. -/
theorem store32_halted (h : SmallHeap cr3 s [] brk pages) (hi : i < 512)
    (huse : pages i = .waiting) (htries : 2 ≤ tries) (w : BitVec 32) :
    ∃ t, (HeapProgram.store32 rip tries (heapPage i) w).Ends s (.error .halted) t
      (outOfMemoryLines cr3 (rip (heapPage i)) (heapPage i)) := by
  obtain ⟨n, rfl⟩ := Nat.exists_eq_add_of_le' htries
  have he := h.page i hi
  rw [huse] at he
  obtain ⟨pt, hpt, hne⟩ := h.table_heapPage hi
  have hfault (frame : FaultFrame) : s.pageFaultHandler frame (heapPage i) = _ :=
    pageFaultHandler_exhausted h.inv (inHeap_heapPage (Nat.le_of_lt hi)) hpt hne he
  refine ⟨_, ⟨?_, h.cr3 ▸ reportFault_console s (rip (heapPage i)) (heapPage i)⟩⟩
  simp only [HeapProgram.store32, bind, EStateM.bind, HeapProgram.access,
    h.hwTranslate_waiting hi he, hfault]

/-- A read of a page that has a frame. -/
theorem load32 (h : SmallHeap cr3 s free brk pages) (hi : i < 512)
    (huse : pages i = .holds w) (htries : 2 ≤ tries) :
    (HeapProgram.load32 rip tries (heapPage i)).Ends s (.ok w) s [] := by
  obtain ⟨n, rfl⟩ := Nat.exists_eq_add_of_le' htries
  have hpage := h.page i hi
  rw [huse] at hpage
  obtain ⟨f, hf, he, hw⟩ := hpage
  refine ⟨?_, (List.append_nil _).symm⟩
  simp only [HeapProgram.load32, bind, EStateM.bind, HeapProgram.access,
    h.hwTranslate_mapped hi hf he]
  exact congrArg (EStateM.Result.ok · s) hw

/-- The frame of a page that is freed is free again. -/
theorem freePage (h : SmallHeap cr3 s free brk pages) (hi : i < 512) (huse : pages i = .holds w) :
    ∃ f, (s.mmuFreePage (heapPage i)).console = s.console ∧
      SmallHeap cr3 (s.mmuFreePage (heapPage i)) (f :: free) brk
        (Function.update pages i .unmapped) := by
  have hv := inHeap_heapPage (Nat.le_of_lt hi)
  have hpage := h.page i hi
  rw [huse] at hpage
  obtain ⟨f, hf, he, -⟩ := hpage
  obtain ⟨pt, hpt, hne⟩ := h.table_heapPage hi
  have hs := setsLeaf_releaseLeaf h.inv hv hpt hne hf he
  have hc := conserves_releaseLeaf h.inv hv hpt hne hf he
  rw [mmuFreePage_backed h.inv.links hv hpt hne hf he]
  refine ⟨f, rfl, (h.setLeaf hi hs hc.inv h.brk (fun u hu hpage => ?_) ?_).invlpg _⟩
  · exact bytes_releaseLeaf h.inv hv hpt hne hf he hu hpage
  · rw [PageUse.At, hs.pml4t, hs.leaf h.inv hv hv, if_pos rfl]
    decide

end SmallHeap

end KernelDev
