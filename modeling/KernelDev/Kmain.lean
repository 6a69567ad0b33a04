import KernelDev.Heap

/-!
# `kernel.c`

The tests of the heap that `kmain` makes before it waits for interrupts, with all their messages.
One page is allocated, written, read and freed, and then four pages are.

The pages it is given have no frames yet, so that its first access to each is a page fault, after
which the instruction is tried again. An access is the walk of the processor, the handler and the
next try (`access`), with a bound on the number of tries; a fault that cannot be handled halts the
machine, and then nothing comes after it. `HeapProgram` is a stretch of code that may end in this
way, with `Stop` for the reason.

`Ends` is the specification of such a stretch : from a state it ends in another one or stops, and
has printed certain lines. It composes (`Ends.bind`), with the lines in order, so that the tests
can be put together from their statements.

The stores and loads are of 32 bits, in the frame of one page.
-/

namespace KernelDev

open ByteMem

/-- Why the tests do not go on : the machine was halted, or the faults of an access were not
over after so many tries. -/
inductive Stop where
  | halted | tries
  deriving DecidableEq

/-- A stretch of the kernel that works on the heap. -/
abbrev HeapProgram := EStateM Stop Mmu

namespace HeapProgram

/-- The error code of a kernel read from a page that is not present. -/
def readFault : BitVec 64 := 0

/-- The error code of a kernel write to a page that is not present. -/
def writeFault : BitVec 64 := 2

/-- `printk` -/
def printk (fmt : String) (args : List PrintkArg) : HeapProgram Unit :=
  fun s => .ok () (s.printk fmt args)

/-- A call of a function of `mmu.c`. -/
def call {A : Type} (f : Mmu → Mmu × A) : HeapProgram A :=
  fun s => .ok (f s).2 (f s).1

section

variable (rip : Addr → Addr) (tries : ℕ)

/-- The physical address that an access at `v` gets to, by the instruction at `rip v`. -/
def access (errCode : BitVec 64) (v : Addr) : ℕ → HeapProgram Addr
  | 0 => throw .tries
  | n + 1 => fun s =>
    match hwTranslate s.mem s.cr3 v with
    | some pa => .ok pa s
    | none =>
      match s.pageFaultHandler ⟨errCode, rip v⟩ v with
      | .returned s => access errCode v n s
      | .halted s => .error .halted s

/-- A 32-bit store that stays in one page. -/
def store32 (v : Addr) (w : BitVec 32) : HeapProgram Unit := do
  let pa ← access rip writeFault v tries
  modify fun s => { s with mem := write32 s.mem pa w }

/-- A 32-bit load that stays in one page. -/
def load32 (v : Addr) : HeapProgram (BitVec 32) := do
  let pa ← access rip readFault v tries
  let s ← get
  return read32 s.mem pa

/-- `Test 1` -/
def testOne : HeapProgram Unit := do
  printk "Test 1: MMU_alloc_page and MMU_free_page\n" []
  let singlePage ← call Mmu.mmuAllocPage
  if singlePage ≠ 0 then
    printk "Successfully allocated page at virtual address %p\n" [.word singlePage]
    store32 rip tries singlePage 0xdeadbeef
    printk "Successfully wrote 0xDEADBEEF to allocated page\n" []
    let readVal ← load32 rip tries singlePage
    printk "Read back value: 0x%x %s\n" [.word (readVal.setWidth 64),
      .str (if readVal = 0xdeadbeef then "(correct)" else "(ERROR)")]
    call fun s => (s.mmuFreePage singlePage, ())
    printk "Successfully freed page\n" []
  else
    printk "ERROR: Failed to allocate page\n" []

/-- `NUM_PAGES` -/
def numPages : BitVec 32 := 4

/-- The value for page `i`. -/
def pageValue (i : BitVec 32) : BitVec 32 :=
  0xcafe0000 + i

/-- The address `(uint64_t)multi_pages + i * PAGE_SIZE`. -/
def pageAddr (multiPages : Addr) (i : BitVec 32) : HeapProgram Addr :=
  return (← get).pageAt multiPages i

/-- The loop that writes the pages, from page `i` on, `n` pages. -/
def writePages (multiPages : Addr) (i : BitVec 32) : ℕ → HeapProgram Unit
  | 0 => return
  | n + 1 => do
    let pageAddr ← pageAddr multiPages i
    store32 rip tries pageAddr (pageValue i)
    printk "Wrote 0x%x to page %d at address %p\n"
      [.word ((pageValue i).setWidth 64), .word (i.setWidth 64), .word pageAddr]
    writePages multiPages (i + 1) n

/-- The loop that reads the pages back, from page `i` on, `n` pages, with the errors so far. -/
def checkPages (multiPages : Addr) (i errors : BitVec 32) : ℕ → HeapProgram (BitVec 32)
  | 0 => return errors
  | n + 1 => do
    let pageAddr ← pageAddr multiPages i
    let expected := pageValue i
    let actual ← load32 rip tries pageAddr
    if actual ≠ expected then
      printk "ERROR: Page %d contains 0x%x, expected 0x%x\n"
        [.word (i.setWidth 64), .word (actual.setWidth 64), .word (expected.setWidth 64)]
      checkPages multiPages (i + 1) (errors + 1) n
    else checkPages multiPages (i + 1) errors n

/-- `Test 2` -/
def testTwo : HeapProgram Unit := do
  printk "Test 2: MMU_alloc_pages and MMU_free_pages\n" []
  let multiPages ← call (Mmu.mmuAllocPages · numPages)
  if multiPages ≠ 0 then
    printk "Successfully allocated %d pages starting at virtual address %p\n"
      [.word (numPages.setWidth 64), .word multiPages]
    writePages rip tries multiPages 0 numPages.toInt.toNat
    let errors ← checkPages rip tries multiPages 0 0 numPages.toInt.toNat
    if errors = 0 then
      printk "All pages verified successfully\n" []
    call fun s => (s.mmuFreePages multiPages numPages, ())
    printk "Successfully freed all %d pages\n" [.word (numPages.setWidth 64)]
  else
    printk "ERROR: Failed to allocate multiple pages\n" []

/-- The tests of `kmain`. -/
def heapTests : HeapProgram Unit := do
  printk "Testing virtual memory functions\n" []
  testOne rip tries
  testTwo rip tries
  printk "Virtual mem test complete\n" []

end

/-! ## Runs -/

/-- The run of a program from `s` ends in `t` with this result, and has printed the lines. -/
structure Ends {A : Type} (p : HeapProgram A) (s : Mmu) (result : Except Stop A) (t : Mmu)
    (lines : List PrintkCall) : Prop where
  run : p s = match result with
    | .ok a => .ok a t
    | .error e => .error e t
  console : t.console = s.console ++ lines

section

variable {A B : Type} {p : HeapProgram A} {f : A → HeapProgram B} {s t u : Mmu} {a : A}
  {lines lines' : List PrintkCall}

theorem Ends.bind {result : Except Stop B} (h : Ends p s (.ok a) t lines)
    (h' : Ends (f a) t result u lines') : Ends (p >>= f) s result u (lines ++ lines') := by
  refine ⟨?_, ?_⟩
  · rw [← h'.run]
    simp only [Bind.bind, EStateM.bind, h.run]
  · rw [h'.console, h.console, List.append_assoc]

/-- A stretch that stops ends the whole. -/
theorem Ends.stop {e : Stop} (h : Ends p s (.error e) t lines) :
    Ends (p >>= f) s (.error e) t lines := by
  refine ⟨?_, h.console⟩
  simp only [Bind.bind, EStateM.bind, h.run]

theorem ends_pure (a : A) (s : Mmu) : Ends (pure a) s (.ok a) s [] :=
  ⟨rfl, (List.append_nil _).symm⟩

/-- A line is printed. -/
theorem ends_printk (fmt : String) (args : List PrintkArg) (s : Mmu) :
    Ends (printk fmt args) s (.ok ()) (s.printk fmt args) [⟨fmt, args⟩] :=
  ⟨rfl, rfl⟩

/-- A call of a function of `mmu.c`. -/
theorem ends_call {g : Mmu → Mmu × A} (h : g s = (t, a)) (hcon : t.console = s.console ++ lines) :
    Ends (call g) s (.ok a) t lines := by
  refine ⟨?_, hcon⟩
  simp only [call, h]

theorem ends_pageAddr (s : Mmu) (multiPages : Addr) (i : BitVec 32) :
    Ends (pageAddr multiPages i) s (.ok (s.pageAt multiPages i)) s [] :=
  ⟨rfl, (List.append_nil _).symm⟩

theorem ends_call_void {g : Mmu → Mmu} (hcon : (g s).console = s.console) :
    Ends (call fun s => (g s, ())) s (.ok ()) (g s) [] :=
  ends_call rfl (hcon.trans (List.append_nil _).symm)

end

end HeapProgram

end KernelDev
