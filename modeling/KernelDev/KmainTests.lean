import KernelDev.KmainTables

/-!
# The tests of the heap, by the number of free frames

Three frames go to the tables of the heap, one to the page of the first test, which gives it back,
and four to the pages of the second. `testLines` is all that the tests print with `n` free frames :
with fewer than three no page can be handed out and both tests say so; with three to six the
machine is halted at the first page that gets no frame, in the first test or in one of the four
stores of the second; and from seven on they pass.

The two loops of the second test are inductions on the pages that are left. The loop that writes
gives a frame to each page, and knows the word at the start of those before (`writePages`); if the
frames run out it stops in the middle, with the lines of the pages that were written
(`writePages_halted`). The loop that reads finds these words (`checkPages`), and the pages are
freed one by one (`freePagesFrom`).

`heapTests_ends` is the result for any number of frames, from any state with the boot tables :
which of the ends it is, the lines that are printed, and, when the tests pass, that the frames of
the pages are free again and no page of the heap is mapped.
-/

namespace KernelDev

open ByteMem PathTree HeapProgram

/-! ## The loops of the second test -/

/-- What is printed for `n` pages that were written, from index `j` on, the first of all being page
`b` of the heap. -/
def wroteLines (b j : ℕ) : ℕ → List PrintkCall
  | 0 => []
  | n + 1 => ⟨"Wrote 0x%x to page %d at address %p\n",
      [.word ((pageValue (BitVec.ofNat 32 j)).setWidth 64),
        .word ((BitVec.ofNat 32 j).setWidth 64), .word (heapPage (b + j))]⟩ ::
      wroteLines b (j + 1) n

/-- The use of a page that was written, the first of all being page `b`. -/
def written (b : ℕ) : ℕ → PageUse :=
  fun i => .holds (pageValue (BitVec.ofNat 32 (i - b)))

namespace SmallHeap

variable (rip : Addr → Addr) {cr3 : BitVec 64} {s : Mmu} {free : List Addr} {brk b j n tries : ℕ}
  {pages : ℕ → PageUse}

/-- The uses of the pages after the first are as before. -/
theorem update_agrees {f : ℕ → PageUse}
    (huse : ∀ i, b + j ≤ i → i < b + j + (n + 1) → pages i = f i) (use : PageUse) :
    ∀ i, b + (j + 1) ≤ i → i < b + (j + 1) + n →
      Function.update pages (b + j) use i = f i := fun i hi hlt => by
  rw [Function.update_of_ne (by omega)]
  exact huse i (by omega) (by omega)

theorem ofNat_succ (j : ℕ) : BitVec.ofNat 32 j + 1 = BitVec.ofNat 32 (j + 1) :=
  (BitVec.ofNat_add j 1).symm

/-- One turn of the loop that writes the pages, with a frame for its page. -/
theorem writePages_succ (htries : 2 ≤ tries) {f : Addr}
    (h : SmallHeap cr3 s (f :: free) brk pages) (hle : b + j + (n + 1) ≤ 512)
    (huse : ∀ i, b + j ≤ i → i < b + j + (n + 1) → pages i = .waiting) :
    ∃ t, SmallHeap cr3 t free brk (Function.update pages (b + j) (written b (b + j))) ∧
      ∀ {r u out}, (HeapProgram.writePages rip tries (heapPage b) (BitVec.ofNat 32 (j + 1)) n).Ends
          t r u out →
        (HeapProgram.writePages rip tries (heapPage b) (BitVec.ofNat 32 j) (n + 1)).Ends s r u
          (wroteLines b j 1 ++ out) := by
  have hpage := ends_pageAddr s (heapPage b) (BitVec.ofNat 32 j)
  rw [pageAt_heapPage s (by omega)] at hpage
  obtain ⟨t, hstore, ht⟩ := h.store32 rip (by omega) (huse (b + j) le_rfl (by omega)) htries
    (pageValue (BitVec.ofNat 32 j))
  have hprinted := ht.printk "Wrote 0x%x to page %d at address %p\n"
    [.word ((pageValue (BitVec.ofNat 32 j)).setWidth 64),
      .word ((BitVec.ofNat 32 j).setWidth 64), .word (heapPage (b + j))]
  rw [written, Nat.add_sub_cancel_left]
  refine ⟨_, hprinted, fun {r u out} hrest => ?_⟩
  rw [← ofNat_succ] at hrest
  exact hpage.bind (hstore.bind ((ends_printk _ _ t).bind hrest))

/-- The loop that writes the pages, with a frame for each. -/
theorem writePages (htries : 2 ≤ tries) : ∀ {n j : ℕ} {s : Mmu} {free : List Addr}
    {pages : ℕ → PageUse}, SmallHeap cr3 s free brk pages → b + j + n ≤ 512 →
    (∀ i, b + j ≤ i → i < b + j + n → pages i = .waiting) → n ≤ free.length →
    ∃ t free', (HeapProgram.writePages rip tries (heapPage b) (BitVec.ofNat 32 j) n).Ends s (.ok ())
        t (wroteLines b j n) ∧ free.length = free'.length + n ∧
      SmallHeap cr3 t free' brk (setRange pages (b + j) n (written b))
  | 0, j, s, free, pages, h, _, _, _ =>
    ⟨s, free, ends_pure () s, rfl, by rwa [setRange_zero]⟩
  | n + 1, j, s, [], pages, h, _, _, hlen => absurd hlen (by simp)
  | n + 1, j, s, f :: l, pages, h, hle, huse, hlen => by
    obtain ⟨t, ht, hturn⟩ := h.writePages_succ rip htries hle huse
    obtain ⟨u, free', hrest, hlen', hu⟩ := ht.writePages htries (by omega) (update_agrees huse _)
      (Nat.le_of_succ_le_succ hlen)
    refine ⟨u, free', hturn hrest, by rw [List.length_cons, hlen']; omega, ?_⟩
    rw [← setRange_succ, Nat.add_assoc]
    exact hu

/-- The loop that writes the pages, with fewer frames than pages. -/
theorem writePages_halted (htries : 2 ≤ tries) : ∀ {n j : ℕ} {s : Mmu} {free : List Addr}
    {pages : ℕ → PageUse}, SmallHeap cr3 s free brk pages → b + j + n ≤ 512 →
    (∀ i, b + j ≤ i → i < b + j + n → pages i = .waiting) → free.length < n →
    ∃ t, (HeapProgram.writePages rip tries (heapPage b) (BitVec.ofNat 32 j) n).Ends s
      (.error .halted) t (wroteLines b j free.length ++
        outOfMemoryLines cr3 (rip (heapPage (b + j + free.length)))
          (heapPage (b + j + free.length)))
  | 0, j, s, free, pages, h, _, _, hlen => absurd hlen (Nat.not_lt_zero _)
  | n + 1, j, s, [], pages, h, hle, huse, _ => by
    have hpage := ends_pageAddr s (heapPage b) (BitVec.ofNat 32 j)
    rw [pageAt_heapPage s (by omega)] at hpage
    obtain ⟨t, hstore⟩ := h.store32_halted rip (by omega) (huse (b + j) le_rfl (by omega)) htries
      (pageValue (BitVec.ofNat 32 j))
    exact ⟨t, hpage.bind hstore.stop⟩
  | n + 1, j, s, f :: l, pages, h, hle, huse, hlen => by
    obtain ⟨t, ht, hturn⟩ := h.writePages_succ rip htries hle huse
    obtain ⟨u, hrest⟩ := ht.writePages_halted htries (by omega) (update_agrees huse _)
      (Nat.lt_of_succ_lt_succ hlen)
    rw [show b + (j + 1) + l.length = b + j + (f :: l).length by
      rw [List.length_cons]; omega] at hrest
    exact ⟨u, hturn hrest⟩

/-- The loop that reads the pages back finds no error. -/
theorem checkPages (htries : 2 ≤ tries) (h : SmallHeap cr3 s free brk pages) :
    ∀ {n j : ℕ}, b + j + n ≤ 512 →
    (∀ i, b + j ≤ i → i < b + j + n → pages i = written b i) →
    (HeapProgram.checkPages rip tries (heapPage b) (BitVec.ofNat 32 j) 0 n).Ends s (.ok 0) s []
  | 0, j, _, _ => ends_pure 0 s
  | n + 1, j, hle, huse => by
    have hpage := ends_pageAddr s (heapPage b) (BitVec.ofNat 32 j)
    rw [pageAt_heapPage s (by omega)] at hpage
    have huse' := huse (b + j) le_rfl (by omega)
    rw [written, Nat.add_sub_cancel_left] at huse'
    have hload := h.load32 rip (by omega) huse' htries
    have hrest := h.checkPages htries (n := n) (j := j + 1) (by omega) fun i hi hlt =>
      huse i (by omega) (by omega)
    refine hpage.bind (hload.bind ?_)
    rw [if_neg (not_not.2 rfl), ofNat_succ]
    exact hrest

/-- The loop of `MMU_free_pages` gives the frames of the pages back. -/
theorem freePagesFrom {addr : BitVec 32 → Addr}
    (haddr : ∀ j, b + j < 524288 → addr (BitVec.ofNat 32 j) = heapPage (b + j)) :
    ∀ {n j : ℕ} {s : Mmu} {free : List Addr} {pages : ℕ → PageUse},
    SmallHeap cr3 s free brk pages → b + j + n ≤ 512 →
    (∀ i, b + j ≤ i → i < b + j + n → pages i = written b i) →
    ∃ free', (s.freePagesFrom addr (BitVec.ofNat 32 j) n).console = s.console ∧
      free'.length = free.length + n ∧
      SmallHeap cr3 (s.freePagesFrom addr (BitVec.ofNat 32 j) n) free' brk
        (setRange pages (b + j) n fun _ => .unmapped)
  | 0, j, s, free, pages, h, _, _ => ⟨free, rfl, rfl, by rwa [setRange_zero]⟩
  | n + 1, j, s, free, pages, h, hle, huse => by
    have hpage := haddr j (by omega)
    obtain ⟨f, hcon, hfree⟩ := h.freePage (by omega) (huse (b + j) le_rfl (by omega))
    have hsame := update_agrees huse .unmapped
    obtain ⟨free', hcon', hlen, ht⟩ := freePagesFrom haddr hfree (by omega) hsame
    rw [Mmu.freePagesFrom, hpage, ofNat_succ, ← setRange_succ]
    exact ⟨free', hcon'.trans hcon, by rw [hlen, List.length_cons]; omega, ht⟩

/-- Pages that were freed again leave no byte of the heap. -/
theorem heapByte_eq_none (h : SmallHeap cr3 s free brk pages) (hbrk : brk ≤ 512)
    (huse : ∀ i < brk, pages i = .unmapped) {u : BitVec 64} (hu : InHeap u) :
    heapByte s.mem s.pml4t u = none := by
  by_cases hlt : u.toNat < (heapPage brk).toNat
  · have hnat := heapPage_toNat hbrk
    obtain ⟨hle, -⟩ := inHeap_iff.1 hu
    have hi : pageOf u - 2 ^ 28 < brk := by
      unfold pageOf
      omega
    have hpage := h.page (pageOf u - 2 ^ 28) (by omega)
    rw [huse _ hi] at hpage
    have hsame : pageOf u = pageOf (heapPage (pageOf u - 2 ^ 28)) := by
      rw [pageOf_heapPage (by omega)]
      unfold pageOf
      omega
    refine heapByte_of_unmapped ?_
    rw [leafEntry_congr hu (inHeap_heapPage (by omega)) hsame]
    exact hpage
  · exact h.inv.heapByte_unused hu (h.brk ▸ Nat.not_lt.1 hlt)

end SmallHeap

/-! ## The tests -/

/-- What the first test prints with `n` free frames. -/
def testOneLines (cr3 : BitVec 64) (rip : Addr → Addr) (n : ℕ) : List PrintkCall :=
  ⟨"Test 1: MMU_alloc_page and MMU_free_page\n", []⟩ ::
    if n < 3 then noTableLines n ++
      [⟨"Failed to get PTE for address %lx\n", [.word kernelHeapAdr]⟩,
        ⟨"ERROR: Failed to allocate page\n", []⟩]
    else ⟨"Successfully allocated page at virtual address %p\n", [.word (heapPage 0)]⟩ ::
      if n = 3 then outOfMemoryLines cr3 (rip (heapPage 0)) (heapPage 0)
      else
        [⟨"Successfully wrote 0xDEADBEEF to allocated page\n", []⟩,
          ⟨"Read back value: 0x%x %s\n", [.word 0xdeadbeef, .str "(correct)"]⟩,
          ⟨"Successfully freed page\n", []⟩]

/-- What the second test prints with `n` free frames at the start. -/
def testTwoLines (cr3 : BitVec 64) (rip : Addr → Addr) (n : ℕ) : List PrintkCall :=
  ⟨"Test 2: MMU_alloc_pages and MMU_free_pages\n", []⟩ ::
    if n < 3 then noTableLines n ++ [⟨"ERROR: Failed to allocate multiple pages\n", []⟩]
    else ⟨"Successfully allocated %d pages starting at virtual address %p\n",
        [.word 4, .word (heapPage 1)]⟩ ::
      if n < 7 then wroteLines 1 0 (n - 3) ++
        outOfMemoryLines cr3 (rip (heapPage (n - 2))) (heapPage (n - 2))
      else wroteLines 1 0 4 ++
        [⟨"All pages verified successfully\n", []⟩,
          ⟨"Successfully freed all %d pages\n", [.word 4]⟩]

section

variable (rip : Addr → Addr) {cr3 : BitVec 64} {s : Mmu} {free : List Addr} {tries : ℕ}

variable (tries) in
/-- The first test without tables for its page. -/
theorem testOne_unallocated (h : FreshHeap s free) (hfree : free.length < 3) :
    ∃ t, (testOne rip tries).Ends s (.ok ()) t (testOneLines s.cr3 rip free.length) ∧
      HeapInv t [] ∧ t.kernelBrk = heapPage 1 ∧
      Lacks t.mem t.pml4t (heapPage 1) free.length := by
  obtain ⟨t, halloc, hinv, hbrk, hlacks, hcon⟩ :=
    (h.printk "Test 1: MMU_alloc_page and MMU_free_page\n" []).allocPage_null hfree
  refine ⟨t.printk "ERROR: Failed to allocate page\n" [], ?_, { hinv with }, hbrk, hlacks⟩
  rw [testOneLines, if_pos hfree, testOne]
  refine (ends_printk _ _ s).bind ((ends_call halloc hcon).bind ?_)
  rw [if_neg (not_not.2 rfl)]
  exact ends_printk "ERROR: Failed to allocate page\n" [] t

/-- The first test without a frame for its page. -/
theorem testOne_halted (h : FreshHeap s free) (hfree : free.length = 3) (htries : 2 ≤ tries) :
    ∃ t, (testOne rip tries).Ends s (.error .halted) t (testOneLines s.cr3 rip free.length) := by
  obtain ⟨t, free', hlen, halloc, hcon, ht⟩ :=
    (h.printk "Test 1: MMU_alloc_page and MMU_free_page\n" []).allocPage hfree.ge
  obtain rfl := List.eq_nil_of_length_eq_zero (show free'.length = 0 by omega)
  obtain ⟨u, hstore⟩ := (ht.printk "Successfully allocated page at virtual address %p\n"
    [.word (heapPage 0)]).store32_halted rip (by omega) (Function.update_self _ _ _) htries
    0xdeadbeef
  rw [← List.append_nil (s.printk _ _).console] at hcon
  refine ⟨u, ?_⟩
  rw [testOneLines, if_neg (by omega), if_pos hfree, testOne]
  refine (ends_printk _ _ s).bind ((ends_call halloc hcon).bind ?_)
  rw [if_pos (by decide)]
  exact (ends_printk _ _ t).bind hstore.stop

/-- The first test passes. -/
theorem testOne_passes (h : FreshHeap s free) (hfree : 4 ≤ free.length) (htries : 2 ≤ tries) :
    ∃ t free', (testOne rip tries).Ends s (.ok ()) t (testOneLines s.cr3 rip free.length) ∧
      free.length = free'.length + 3 ∧ SmallHeap s.cr3 t free' 1 fun _ => .unmapped := by
  obtain ⟨t, free', hlen, halloc, hcon, ht⟩ :=
    (h.printk "Test 1: MMU_alloc_page and MMU_free_page\n" []).allocPage (by omega)
  cases free' with
  | nil => exact absurd hlen (by simp; omega)
  | cons f l =>
  rw [← List.append_nil (s.printk _ _).console] at hcon
  obtain ⟨u, hstore, hu⟩ := (ht.printk "Successfully allocated page at virtual address %p\n"
    [.word (heapPage 0)]).store32 rip (by omega) (Function.update_self _ _ _) htries 0xdeadbeef
  have hread := hu.printk "Successfully wrote 0xDEADBEEF to allocated page\n" []
  have hload := hread.load32 rip (by omega) (Function.update_self _ _ _) htries
  have hwritten := hread.printk "Read back value: 0x%x %s\n" [.word 0xdeadbeef, .str "(correct)"]
  obtain ⟨g, hfreed, hpages⟩ := hwritten.freePage (by omega) (Function.update_self _ _ _)
  rw [Function.update_idem, Function.update_idem, Function.update_eq_self] at hpages
  refine ⟨_, g :: l, ?_, hlen, hpages.printk "Successfully freed page\n" []⟩
  rw [testOneLines, if_neg (by omega), if_neg (by omega), testOne]
  refine (ends_printk _ _ s).bind ((ends_call halloc hcon).bind ?_)
  rw [if_pos (by decide)]
  refine (ends_printk _ _ t).bind (hstore.bind ((ends_printk _ _ u).bind (hload.bind ?_)))
  rw [if_pos rfl]
  exact (ends_printk _ _ _).bind ((ends_call_void hfreed).bind (ends_printk _ _ _))

variable (cr3 tries) in
/-- The second test without tables for its pages. -/
theorem testTwo_unallocated {k : ℕ} (h : HeapInv s []) (hbrk : s.kernelBrk = heapPage 1)
    (hlacks : Lacks s.mem s.pml4t (heapPage 1) k) (hk : k < 3) :
    ∃ t, (testTwo rip tries).Ends s (.ok ()) t (testTwoLines cr3 rip k) := by
  have hinv : HeapInv (s.printk "Test 2: MMU_alloc_pages and MMU_free_pages\n" []) [] :=
    { h with }
  generalize hs₁ : s.printk "Test 2: MMU_alloc_pages and MMU_free_pages\n" [] = s₁ at hinv
  have hlacks₁ : Lacks s₁.mem s₁.pml4t (heapPage 1) k := hs₁ ▸ hlacks
  have hbrk₁ : s₁.kernelBrk = heapPage 1 := hs₁ ▸ hbrk
  have hpte := hlacks₁.getPte_nil hinv
  rw [← hbrk₁, ← Mmu.brkPte] at hpte
  have hnull : s₁.brkPte.2 = 0 := by rw [hpte]
  have hnum : numPages.toInt.toNat = 3 + 1 := by decide
  have halloc : s₁.mmuAllocPages numPages = (s₁.brkPte.1, 0) := by
    rw [Mmu.mmuAllocPages, if_neg (by decide), hnum, Mmu.allocPagesFrom_null hnull]
    rfl
  have hcon : s₁.brkPte.1.console = s₁.console ++ noTableLines k := by
    rw [hpte, noTableLines, Mmu.printk, Mmu.printk, List.append_assoc]
    rfl
  refine ⟨s₁.brkPte.1.printk "ERROR: Failed to allocate multiple pages\n" [], ?_⟩
  rw [testTwoLines, if_pos hk, testTwo]
  refine (ends_printk _ _ s).bind ?_
  rw [hs₁]
  refine (ends_call halloc hcon).bind ?_
  rw [if_neg (not_not.2 rfl)]
  exact ends_printk "ERROR: Failed to allocate multiple pages\n" [] s₁.brkPte.1

/-- The second test hands its pages out. -/
theorem mmuAllocPages_four (h : SmallHeap cr3 s free 1 fun _ => .unmapped) :
    ∃ t, s.mmuAllocPages numPages = (t, heapPage 1) ∧ t.console = s.console ++ [] ∧
      SmallHeap cr3 t free 5 (setRange (fun _ => .unmapped) 1 4 fun _ => .waiting) := by
  obtain ⟨t, halloc, hcon, ht⟩ := h.allocPagesFrom (heapPage 1) (n := 4) 0 (by omega)
  have hnum : numPages.toInt.toNat = 4 := by decide
  refine ⟨t, ?_, hcon.trans (List.append_nil _).symm, ht⟩
  rw [Mmu.mmuAllocPages, if_neg (by decide), hnum, h.brk, halloc]

theorem setRange_of_mem {pages use : ℕ → PageUse} {b n i : ℕ} (hle : b ≤ i) (hlt : i < b + n) :
    setRange pages b n use i = use i :=
  if_pos ⟨hle, hlt⟩

/-- The second test with too few frames for its pages. -/
theorem testTwo_halted (h : SmallHeap cr3 s free 1 fun _ => .unmapped) (hfree : free.length < 4)
    (htries : 2 ≤ tries) : ∃ t, (testTwo rip tries).Ends s (.error .halted) t
      (testTwoLines cr3 rip (free.length + 3)) := by
  have hs₁ := h.printk "Test 2: MMU_alloc_pages and MMU_free_pages\n" []
  obtain ⟨t, halloc, hcon, ht⟩ := mmuAllocPages_four hs₁
  have hnum : numPages.toInt.toNat = 4 := by decide
  obtain ⟨u, hwrite⟩ := (ht.printk
    "Successfully allocated %d pages starting at virtual address %p\n"
    [.word 4, .word (heapPage 1)]).writePages_halted rip (b := 1) (j := 0) (n := 4) htries
    (by omega) (fun i hle hlt => setRange_of_mem hle hlt) hfree
  rw [show 1 + 0 + free.length = free.length + 3 - 2 by omega,
    show wroteLines 1 0 free.length = wroteLines 1 0 (free.length + 3 - 3) by
      rw [Nat.add_sub_cancel]] at hwrite
  refine ⟨u, ?_⟩
  rw [testTwoLines, if_neg (by omega), if_pos (by omega), testTwo, hnum]
  refine (ends_printk _ _ s).bind ((ends_call halloc hcon).bind ?_)
  rw [if_pos (by decide)]
  exact (ends_printk _ _ t).bind hwrite.stop

/-- The second test passes. -/
theorem testTwo_passes (h : SmallHeap cr3 s free 1 fun _ => .unmapped) (hfree : 4 ≤ free.length)
    (htries : 2 ≤ tries) :
    ∃ t free', (testTwo rip tries).Ends s (.ok ()) t (testTwoLines cr3 rip (free.length + 3)) ∧
      free'.length = free.length ∧ SmallHeap cr3 t free' 5 fun _ => .unmapped := by
  have hs₁ := h.printk "Test 2: MMU_alloc_pages and MMU_free_pages\n" []
  obtain ⟨t, halloc, hcon, ht⟩ := mmuAllocPages_four hs₁
  have hnum : numPages.toInt.toNat = 4 := by decide
  obtain ⟨u, free₁, hwrite, hlen, hu⟩ := (ht.printk
    "Successfully allocated %d pages starting at virtual address %p\n"
    [.word 4, .word (heapPage 1)]).writePages rip (b := 1) (j := 0) (n := 4) htries
    (by omega) (fun i hle hlt => setRange_of_mem hle hlt) hfree
  have hcheck := hu.checkPages rip (b := 1) (n := 4) (j := 0) htries (by omega)
    fun i hle hlt => setRange_of_mem hle hlt
  have hverified := hu.printk "All pages verified successfully\n" []
  obtain ⟨free', hfreed, hlen', hpages⟩ := SmallHeap.freePagesFrom (b := 1) (j := 0) (n := 4)
    (fun _ => pageAt_heapPage _) hverified (by omega) fun i hle hlt => setRange_of_mem hle hlt
  have hnone : setRange (setRange (setRange (fun _ => .unmapped) 1 4 fun _ => .waiting) (1 + 0) 4
      (written 1)) (1 + 0) 4 (fun _ => .unmapped) = fun _ => .unmapped := by
    funext i
    unfold setRange
    split_ifs <;> rfl
  rw [hnone] at hpages
  refine ⟨_, free', ?_, by omega, hpages.printk "Successfully freed all %d pages\n" [.word 4]⟩
  rw [testTwoLines, if_neg (by omega), if_neg (by omega), testTwo, hnum]
  refine (ends_printk _ _ s).bind ((ends_call halloc hcon).bind ?_)
  rw [if_pos (by decide)]
  refine (ends_printk _ _ t).bind (hwrite.bind (hcheck.bind ?_))
  rw [if_pos rfl]
  refine (ends_printk _ _ u).bind ((ends_call_void ?_).bind (ends_printk _ _ _))
  rw [Mmu.mmuFreePages, hnum]
  exact hfreed

/-! ## All of it -/

/-- All that the tests print with `n` free frames. -/
def testLines (cr3 : BitVec 64) (rip : Addr → Addr) (n : ℕ) : List PrintkCall :=
  ⟨"Testing virtual memory functions\n", []⟩ :: testOneLines cr3 rip n ++
    if n = 3 then []
    else testTwoLines cr3 rip n ++
      if n < 3 ∨ 7 ≤ n then [⟨"Virtual mem test complete\n", []⟩] else []

/-- The tests, from any state with `free` as its free frames : they come to an end or halt the
machine, as the number of these frames says, and print `testLines`. When they pass, the frames of
the pages are free again, three frames are tables, and no page of the heap is mapped. -/
theorem heapTests_ends (h : FreshHeap s free) (htries : 2 ≤ tries) :
    ∃ t, (heapTests rip tries).Ends s
        (if free.length < 3 ∨ 7 ≤ free.length then .ok () else .error .halted) t
        (testLines s.cr3 rip free.length) ∧
      (7 ≤ free.length → t.kernelBrk = heapPage 5 ∧
        (∀ u, InHeap u → heapByte t.mem t.pml4t u = none) ∧
        ∃ free', HeapInv t free' ∧ free'.length + 3 = free.length) := by
  have h₁ := h.printk "Testing virtual memory functions\n" []
  have hstart := ends_printk "Testing virtual memory functions\n" [] s
  rcases Nat.lt_or_ge free.length 3 with hlt | hge
  · obtain ⟨t, hone, hinv, hbrk, hlacks⟩ := testOne_unallocated rip tries h₁ hlt
    obtain ⟨u, htwo⟩ := testTwo_unallocated rip s.cr3 tries hinv hbrk hlacks hlt
    refine ⟨u.printk "Virtual mem test complete\n" [], ?_, fun hc => absurd hc (by omega)⟩
    rw [testLines, if_pos (Or.inl hlt), if_neg (by omega), if_pos (Or.inl hlt), heapTests]
    exact hstart.bind (hone.bind (htwo.bind (ends_printk _ _ u)))
  rcases Nat.eq_or_lt_of_le hge with heq | hgt
  · obtain ⟨t, hone⟩ := testOne_halted rip h₁ heq.symm htries
    refine ⟨t, ?_, fun hc => absurd hc (by omega)⟩
    rw [testLines, if_neg (by omega), if_pos heq.symm, List.append_nil, heapTests]
    exact hstart.bind hone.stop
  obtain ⟨t, free₁, hone, hlen, ht⟩ := testOne_passes rip h₁ hgt htries
  rcases Nat.lt_or_ge free₁.length 4 with hlt' | hge'
  · obtain ⟨u, htwo⟩ := testTwo_halted rip ht hlt' htries
    rw [← hlen] at htwo
    refine ⟨u, ?_, fun hc => absurd hc (by omega)⟩
    rw [testLines, if_neg (by omega), if_neg (by omega), if_neg (by omega), List.append_nil,
      heapTests]
    exact hstart.bind (hone.bind htwo.stop)
  · obtain ⟨u, free', htwo, hlen', hu⟩ := testTwo_passes rip ht hge' htries
    rw [← hlen] at htwo
    have hpass : free.length < 3 ∨ 7 ≤ free.length := by omega
    refine ⟨u.printk "Virtual mem test complete\n" [], ?_, fun _ => ⟨hu.brk, fun v hv => ?_,
      free', { hu.inv with }, by omega⟩⟩
    · rw [testLines, if_pos hpass, if_neg (by omega), if_pos hpass, heapTests]
      exact hstart.bind (hone.bind (htwo.bind (ends_printk _ _ u)))
    · exact hu.heapByte_eq_none (by omega) (fun _ _ => rfl) hv

end

end KernelDev
