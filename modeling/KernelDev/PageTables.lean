import KernelDev.FrameAllocator

/-!
# The page-table walkers of `mmu.c`

`get_pte` walks the four levels of a page table, and with `create_if_not_exist` links a cleared
frame wherever a level is missing. Its three level steps differ only in the entry and the message,
so they are one definition (`nextTable`). A null pointer is `0`. A frame is cleared twice on the
way, by `MMU_pf_alloc` and by `get_pte`, as in the source. If there is no frame for a level, those
that were linked before it stay linked.

`get_pte` does not look at the page-size bit, and neither do its callers, so below a huge page it
takes data for a table; `virt_to_phys` does look at it.

`hwTranslate` is the processor's walk for a kernel access : bits 51 to 12 of an entry are the
address, and a set page-size bit ends the walk at a 1 GiB or 2 MiB page. `CR0.WP` is clear, so the
writable bit does not stop the kernel. `hwPte` is the entry the walk ends at. Both are written from
the format of the tables and share nothing with `get_pte` but the indices.
-/

namespace KernelDev

open ByteMem

/-- The results of `get_page_indices`. -/
structure PageIndices where
  pml4Idx : BitVec 64
  pdptIdx : BitVec 64
  pdIdx : BitVec 64
  ptIdx : BitVec 64
  offset : BitVec 64

/-- `get_page_indices` -/
def getPageIndices (vaddr : BitVec 64) : PageIndices where
  pml4Idx := (vaddr >>> 39) &&& (512 - 1)
  pdptIdx := (vaddr >>> 30) &&& (512 - 1)
  pdIdx := (vaddr >>> 21) &&& (512 - 1)
  ptIdx := (vaddr >>> 12) &&& (512 - 1)
  offset := vaddr &&& (pageSize - 1)

/-- `phys_to_virt`: memory is identity mapped. -/
def physToVirt (paddr : BitVec 64) : Addr :=
  paddr

/-- The address of entry `idx` of the table at `table`. -/
def entryAt (table : Addr) (idx : BitVec 64) : Addr :=
  table + 8 * idx

namespace Mmu

/-- The top-level table, `phys_to_virt(get_cr3() & PAGE_MASK)`. -/
def pml4t (s : Mmu) : Addr :=
  physToVirt (s.cr3 &&& pageMask)

/-- One level of `get_pte`: the table the entry points at. A missing table is allocated,
cleared and linked if `create`, and reported by `msg` if there is no frame for it. -/
def nextTable (s : Mmu) (entry : Addr) (create : Bool) (msg : String) : Mmu × Option Addr :=
  if read64 s.mem entry &&& ptePresent = 0 then
    if !create then (s, none)
    else
      let (s, newTable) := s.mmuPfAlloc
      if newTable = 0 then (s.printk msg [], none)
      else
        let s := s.clearPage newTable
        let s := s.store64 entry ((newTable &&& pageMask) ||| ptePresent ||| pteWritable)
        (s, some (physToVirt (read64 s.mem entry &&& pageMask)))
  else (s, some (physToVirt (read64 s.mem entry &&& pageMask)))

/-- `get_pte` -/
def getPte (s : Mmu) (pml4t : Addr) (vaddr : BitVec 64) (create : Bool) : Mmu × Addr :=
  let ix := getPageIndices vaddr
  match s.nextTable (entryAt pml4t ix.pml4Idx) create "Failed to allocate PDPT\n" with
  | (s, none) => (s, 0)
  | (s, some pdpt) =>
    match s.nextTable (entryAt pdpt ix.pdptIdx) create "Failed to allocate PD\n" with
    | (s, none) => (s, 0)
    | (s, some pdt) =>
      match s.nextTable (entryAt pdt ix.pdIdx) create "Failed to allocate PT\n" with
      | (s, none) => (s, 0)
      | (s, some pt) => (s, entryAt pt ix.ptIdx)

end Mmu

/-! ## The processor's walk -/

/-- Bits 51 to 12 of an entry, the address of the table or page it points at. -/
def entryAddr (e : BitVec 64) : Addr :=
  e &&& 0x000ffffffffff000

/-- The physical address of `vaddr`, if the walk from `cr3` meets only present entries. -/
def hwTranslate (m : Mem) (cr3 vaddr : BitVec 64) : Option Addr :=
  let ix := getPageIndices vaddr
  let pml4e := read64 m (entryAt (entryAddr cr3) ix.pml4Idx)
  if pml4e &&& ptePresent = 0 then none
  else
    let pdpte := read64 m (entryAt (entryAddr pml4e) ix.pdptIdx)
    if pdpte &&& ptePresent = 0 then none
    else if pdpte &&& pteHuge ≠ 0 then
      some ((entryAddr pdpte &&& ~~~0x3fffffff) + (vaddr &&& 0x3fffffff))
    else
      let pde := read64 m (entryAt (entryAddr pdpte) ix.pdIdx)
      if pde &&& ptePresent = 0 then none
      else if pde &&& pteHuge ≠ 0 then
        some ((entryAddr pde &&& ~~~0x1fffff) + (vaddr &&& 0x1fffff))
      else
        let pte := read64 m (entryAt (entryAddr pde) ix.ptIdx)
        if pte &&& ptePresent = 0 then none
        else some (entryAddr pte + ix.offset)

/-- The present entry at which the walk of the processor for `vaddr` ends. -/
def hwPte (m : Mem) (cr3 vaddr : BitVec 64) : Option (BitVec 64) :=
  let ix := getPageIndices vaddr
  let pml4e := read64 m (entryAt (entryAddr cr3) ix.pml4Idx)
  if pml4e &&& ptePresent = 0 then none
  else
    let pdpte := read64 m (entryAt (entryAddr pml4e) ix.pdptIdx)
    if pdpte &&& ptePresent = 0 then none
    else if pdpte &&& pteHuge ≠ 0 then some pdpte
    else
      let pde := read64 m (entryAt (entryAddr pdpte) ix.pdIdx)
      if pde &&& ptePresent = 0 then none
      else if pde &&& pteHuge ≠ 0 then some pde
      else
        let pte := read64 m (entryAt (entryAddr pde) ix.ptIdx)
        if pte &&& ptePresent = 0 then none
        else some pte

/-- The walk finds an entry for the addresses that are translated. -/
theorem hwPte_eq_none_iff (m : Mem) (cr3 vaddr : BitVec 64) :
    hwPte m cr3 vaddr = none ↔ hwTranslate m cr3 vaddr = none := by
  unfold hwPte hwTranslate
  simp only
  split_ifs <;> simp

end KernelDev
