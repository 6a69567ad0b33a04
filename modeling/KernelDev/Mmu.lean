import KernelDev.CString

/-!
# The state of `mmu.c`

`Mmu` holds physical memory, the `CR3` register and the static variables of `mmu.c`. All pointers
are physical addresses : the kernel reaches page tables and frames through the identity map. The
region table is the list of its used entries, so `num_memory_regions` is its length. `console`
records the calls of `printk` and `invlpgs` the flushed addresses, in order; neither is read back,
and they are kept so that what a call prints and flushes can be stated.

One field stands for what C leaves open. The offset of a page in `MMU_free_pages` is a product of
two `int`s, and `overflowPage` is the page that is freed where that product overflows. Nothing is
assumed of it, so that a theorem about a call that overflows holds for any page.

The constants are those of `mmu.h`. Virtual addresses are divided by them : from `KERNEL_HEAP_ADR`
up to `KERNEL_GROWTH_ADR_START` is the heap, and the other areas follow.

The functions of the module are the stores, one for each width that `mmu.c` uses, and the calls
that change no memory. Each has a simp lemma for each field that the proofs read, so that a state
after a few of them never has to be unfolded.
-/

namespace KernelDev

open ByteMem

/-! ## Constants of `mmu.h` -/

/-- `PAGE_SIZE` -/
def pageSize : BitVec 64 := 4096

/-- `PAGE_MASK` -/
def pageMask : BitVec 64 := ~~~(pageSize - 1)

/-- `MAX_MEMORY_REGIONS` -/
def maxMemoryRegions : ℕ := 64

/-- `MULTIBOOT_MEMORY_AVAILABLE` -/
def multibootMemoryAvailable : BitVec 32 := 1

/-- `MULTIBOOT_MEMORY_RESERVED` -/
def multibootMemoryReserved : BitVec 32 := 2

/-- `KERNEL_HEAP_ADR` -/
def kernelHeapAdr : BitVec 64 := 0x10000000000

/-- `KERNEL_GROWTH_ADR_START` -/
def kernelGrowthAdrStart : BitVec 64 := 0x20000000000

/-- `KERNEL_STACKS_ADR` -/
def kernelStacksAdr : BitVec 64 := 0xF0000000000

/-- `USER_SPACE_ADR` -/
def userSpaceAdr : BitVec 64 := 0x100000000000

/-- `PTE_PRESENT` -/
def ptePresent : BitVec 64 := 1 <<< 0

/-- `PTE_WRITABLE` -/
def pteWritable : BitVec 64 := 1 <<< 1

/-- `PTE_HUGE` -/
def pteHuge : BitVec 64 := 1 <<< 7

/-- `PTE_DEMAND_PAGING` -/
def pteDemandPaging : BitVec 64 := 1 <<< 9

/-- The next page, short of the end of memory. -/
theorem aligned_next {addr : Addr} (hal : Aligned addr) (h : addr.toNat + 4096 < 2 ^ 64) :
    (addr + pageSize).toNat = addr.toNat + 4096 ∧ Aligned (addr + pageSize) := by
  have hnext : (addr + pageSize).toNat = addr.toNat + 4096 := by
    rw [BitVec.toNat_add, show pageSize.toNat = 4096 from rfl]
    omega
  refine ⟨hnext, ?_⟩
  unfold Aligned at *
  omega

/-! ## The state -/

/-- An argument of `printk`, by the register word or the string it is passed. -/
inductive PrintkArg where
  | word (v : BitVec 64)
  | str (s : String)
  deriving DecidableEq

/-- One call of `printk`. -/
structure PrintkCall where
  /-- The format, as the source has it. -/
  fmt : String
  args : List PrintkArg
  deriving DecidableEq

/-- `struct mem_region`: an inclusive start, an exclusive end and a region type. -/
structure MemRegion where
  start : BitVec 64
  end_ : BitVec 64
  type : BitVec 32
  deriving DecidableEq

/-- Physical memory and the static variables of `mmu.c`, and what the C code leaves open. -/
structure Mmu where
  /-- Physical memory. -/
  mem : Mem
  /-- The address that the compiled loop of `MMU_free_pages` has for page `i` from `vaddr` on where
  the product `i * PAGE_SIZE` overflows `int`. C leaves it undefined, so it may be any. -/
  overflowPage : Addr → BitVec 32 → Addr
  cr3 : BitVec 64
  /-- The used entries of `memory_regions`. -/
  memoryRegions : List MemRegion
  /-- The head of the free list, or `0`. -/
  freePageHead : Addr
  totalMemory : BitVec 64
  totalPages : BitVec 64
  freePages : BitVec 64
  reservedPages : BitVec 64
  freeListInitialized : Bool
  kernelBrk : BitVec 64
  /-- The addresses that `invlpg` was called for. -/
  invlpgs : List Addr
  /-- The calls of `printk`. -/
  console : List PrintkCall

namespace Mmu

/-- A call of `printk` from `mmu.c`. It changes no state of `mmu.c`. -/
def printk (s : Mmu) (fmt : String) (args : List PrintkArg) : Mmu :=
  { s with console := s.console ++ [⟨fmt, args⟩] }

/-- `invlpg` -/
def invlpg (s : Mmu) (addr : Addr) : Mmu :=
  { s with invlpgs := s.invlpgs ++ [addr] }

/-- Store a 64-bit word. -/
def store64 (s : Mmu) (a : Addr) (v : BitVec 64) : Mmu :=
  { s with mem := write64 s.mem a v }

/-- Store a byte, as the code that owns a page does. -/
def storeByte (s : Mmu) (pa : Addr) (b : BitVec 8) : Mmu :=
  { s with mem := Function.update s.mem pa b }

/-- Clear a page, as `memset(page, 0, PAGE_SIZE)` does. -/
def clearPage (s : Mmu) (page : Addr) : Mmu :=
  { s with mem := memset s.mem page 0 pageSize.toNat }

variable (s : Mmu) (fmt : String) (args : List PrintkArg) (a page : Addr) (v : BitVec 64)

@[simp] theorem printk_mem : (s.printk fmt args).mem = s.mem := rfl
@[simp] theorem printk_cr3 : (s.printk fmt args).cr3 = s.cr3 := rfl
@[simp] theorem printk_memoryRegions : (s.printk fmt args).memoryRegions = s.memoryRegions := rfl
@[simp] theorem printk_freePageHead : (s.printk fmt args).freePageHead = s.freePageHead := rfl
@[simp] theorem printk_freePages : (s.printk fmt args).freePages = s.freePages := rfl
@[simp] theorem printk_totalPages : (s.printk fmt args).totalPages = s.totalPages := rfl
@[simp] theorem printk_reservedPages : (s.printk fmt args).reservedPages = s.reservedPages := rfl
@[simp] theorem printk_freeListInitialized :
    (s.printk fmt args).freeListInitialized = s.freeListInitialized := rfl
@[simp] theorem printk_kernelBrk : (s.printk fmt args).kernelBrk = s.kernelBrk := rfl

@[simp] theorem invlpg_mem : (s.invlpg a).mem = s.mem := rfl
@[simp] theorem invlpg_cr3 : (s.invlpg a).cr3 = s.cr3 := rfl
@[simp] theorem invlpg_freePageHead : (s.invlpg a).freePageHead = s.freePageHead := rfl
@[simp] theorem invlpg_freeListInitialized :
    (s.invlpg a).freeListInitialized = s.freeListInitialized := rfl
@[simp] theorem invlpg_kernelBrk : (s.invlpg a).kernelBrk = s.kernelBrk := rfl

@[simp] theorem store64_mem : (s.store64 a v).mem = write64 s.mem a v := rfl
@[simp] theorem store64_cr3 : (s.store64 a v).cr3 = s.cr3 := rfl
@[simp] theorem store64_freePageHead : (s.store64 a v).freePageHead = s.freePageHead := rfl
@[simp] theorem store64_freeListInitialized :
    (s.store64 a v).freeListInitialized = s.freeListInitialized := rfl
@[simp] theorem store64_kernelBrk : (s.store64 a v).kernelBrk = s.kernelBrk := rfl

/-- A cleared page is a page of zero bytes. -/
theorem clearPage_eq : s.clearPage page = { s with mem := fill s.mem page 0 4096 } := by
  rw [clearPage, memset_eq_fill _ _ _ (by decide)]
  rfl

@[simp] theorem clearPage_mem : (s.clearPage page).mem = fill s.mem page 0 4096 := by
  rw [clearPage_eq]
@[simp] theorem clearPage_cr3 : (s.clearPage page).cr3 = s.cr3 := by
  rw [clearPage_eq]
@[simp] theorem clearPage_freePageHead : (s.clearPage page).freePageHead = s.freePageHead := by
  rw [clearPage_eq]
@[simp] theorem clearPage_freePages : (s.clearPage page).freePages = s.freePages := by
  rw [clearPage_eq]
@[simp] theorem clearPage_freeListInitialized :
    (s.clearPage page).freeListInitialized = s.freeListInitialized := by
  rw [clearPage_eq]
@[simp] theorem clearPage_kernelBrk : (s.clearPage page).kernelBrk = s.kernelBrk := by
  rw [clearPage_eq]

end Mmu

end KernelDev
