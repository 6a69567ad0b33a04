import KernelDev.PageTables

/-!
# The kernel heap of `mmu.c`

`MMU_alloc_page` and `MMU_alloc_pages` hand out virtual pages at `kernel_brk` and mark their
entries for demand paging; `page_fault_handler` gives such a page a frame at the first access;
`MMU_free_page` and `MMU_free_pages` clear entries and give frames back. `kernel_brk` never moves
down, so no address is handed out twice, and no limit is checked.

The two allocation functions differ in when they move `kernel_brk`. `MMU_alloc_page` moves it first
and leaves it moved if it fails; `MMU_alloc_pages` moves it after each page, and when a page fails
it frees those before it and leaves `kernel_brk` behind them.

`num` and the loop counters are C `int`s. The offset `i * PAGE_SIZE` is a product of two of them,
which overflows from page 524288 on, and C does not say what it is then : `pageAt` takes the page
from the state (`Mmu.overflowPage`).

A handler that does not return halts the machine (`Outcome`). The messages of the page fault report
are those of the source, with the bits of the error code that they depend on.
-/

namespace KernelDev

open ByteMem

/-- The fields of `struct interrupt_frame` that `page_fault_handler` reads. -/
structure FaultFrame where
  errCode : BitVec 64
  rip : BitVec 64

/-- A handler returns to the interrupted code or halts the machine. -/
inductive Outcome where
  | returned (s : Mmu)
  | halted (s : Mmu)

namespace Mmu

/-- `kernel_brk += PAGE_SIZE` -/
def growBrk (s : Mmu) : Mmu :=
  { s with kernelBrk := s.kernelBrk + pageSize }

/-- `MMU_alloc_page` -/
def mmuAllocPage (s : Mmu) : Mmu × Addr :=
  let vaddr := s.kernelBrk
  let s := s.growBrk
  let (s, pte) := s.getPte s.pml4t vaddr true
  if pte = 0 then (s.printk "Failed to get PTE for address %lx\n" [.word vaddr], 0)
  else (s.store64 pte (pteDemandPaging ||| pteWritable), vaddr)

/-- `MMU_free_page` -/
def mmuFreePage (s : Mmu) (vaddr : Addr) : Mmu :=
  let (s, pte) := s.getPte s.pml4t vaddr false
  if pte = 0 then s
  else
    let s :=
      if read64 s.mem pte &&& ptePresent ≠ 0 then s.mmuPfFree (read64 s.mem pte &&& pageMask)
      else s
    (s.store64 pte 0).invlpg vaddr

/-- The address `(uint64_t)vaddr + i * PAGE_SIZE`. The product is one of two `int`s, and C does not
define it where it overflows. -/
def pageAt (s : Mmu) (vaddr : Addr) (i : BitVec 32) : Addr :=
  if i.smulOverflow 4096 then s.overflowPage vaddr i else vaddr + (i * 4096).signExtend 64

/-- The loop of `MMU_free_pages` from iteration `i` on, `n` iterations. Page `i` is `pages i`. -/
def freePagesFrom (s : Mmu) (pages : BitVec 32 → Addr) (i : BitVec 32) : ℕ → Mmu
  | 0 => s
  | n + 1 => (s.mmuFreePage (pages i)).freePagesFrom pages (i + 1) n

/-- `MMU_free_pages` -/
def mmuFreePages (s : Mmu) (vaddr : Addr) (num : BitVec 32) : Mmu :=
  s.freePagesFrom (s.pageAt vaddr) 0 num.toInt.toNat

/-- The loop of `MMU_alloc_pages` from iteration `i` on, `n` iterations. -/
def allocPagesFrom (s : Mmu) (pml4t startAddr : Addr) (i : BitVec 32) : ℕ → Mmu × Addr
  | 0 => (s, startAddr)
  | n + 1 =>
    let vaddr := s.kernelBrk
    let (s, pte) := s.getPte pml4t vaddr true
    if pte = 0 then (s.mmuFreePages startAddr i, 0)
    else
      let s := (s.store64 pte (pteDemandPaging ||| pteWritable)).growBrk
      s.allocPagesFrom pml4t startAddr (i + 1) n

/-- `MMU_alloc_pages` -/
def mmuAllocPages (s : Mmu) (num : BitVec 32) : Mmu × Addr :=
  if num.sle 0 then (s, 0)
  else s.allocPagesFrom s.pml4t s.kernelBrk 0 num.toInt.toNat

/-- The report `page_fault_handler` prints before it halts. -/
def reportFault (s : Mmu) (frame : FaultFrame) (faultAddress : Addr) : Mmu :=
  let s := s.printk "=== PAGE FAULT ===\n" []
  let s := s.printk "Address: 0x%lx\n" [.word faultAddress]
  let s := s.printk "Page table (CR3): 0x%lx\n" [.word s.cr3]
  let s := s.printk "Error code: 0x%lx\n" [.word frame.errCode]
  let s := if frame.errCode &&& 1 = 0 then s.printk "Page not present\n" []
    else s.printk "Page protection violation\n" []
  let s := if frame.errCode &&& 2 ≠ 0 then s.printk "Write access\n" []
    else s.printk "Read access\n" []
  let s := if frame.errCode &&& 4 ≠ 0 then s.printk "User mode access\n" []
    else s.printk "Kernel mode access\n" []
  let s := if frame.errCode &&& 8 ≠ 0 then s.printk "Reserved bits set in page table\n" [] else s
  let s := if frame.errCode &&& 16 ≠ 0 then s.printk "Instruction fetch\n" [] else s
  let s := s.printk "Faulting instruction at: 0x%lx\n" [.word frame.rip]
  s.printk "Unhandled page fault - halting\n" []

/-- `page_fault_handler`, with the fault address `CR2` holds. -/
def pageFaultHandler (s : Mmu) (frame : FaultFrame) (faultAddress : Addr) : Outcome :=
  let (s, pte) := s.getPte s.pml4t faultAddress false
  if pte ≠ 0 ∧ read64 s.mem pte &&& pteDemandPaging ≠ 0 then
    let (s, pageFrame) := s.mmuPfAlloc
    if pageFrame = 0 then
      .halted ((s.printk "Out of memory during demand paging\n" []).reportFault frame faultAddress)
    else
      let s := s.clearPage pageFrame
      let s := s.store64 pte ((pageFrame &&& pageMask) |||
        (read64 s.mem pte &&& ~~~pteDemandPaging) ||| ptePresent)
      .returned (s.invlpg faultAddress)
  else .halted (s.reportFault frame faultAddress)

end Mmu

end KernelDev
