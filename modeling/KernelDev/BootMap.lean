import KernelDev.Lib.Loop
import KernelDev.Mmu

/-!
# The boot memory map of `mmu.c`

`MMU_init` walks the tags of the multiboot information block. `process_mmap_tag` appends the
available memory to the region table, rounded to whole pages, and `process_elf_sections_tag` takes
the sections of the kernel out of it; other tags are printed or skipped. The block is read from
memory at the offsets of the structs of `mmu.h`, and nothing of it is believed here : every field
is a word of memory, which may be anything.

Loops that the source bounds are folds. The loop over the sections runs `num` times; the loop over
the regions visits those that it appends too, and as the table has 64 entries it is a fold over as
many numbers (`reservePages`). The loops that run on pointers have fuel : that of
`process_mmap_tag`, which does not end if the entries have no bytes, and the walk over the tags. A
handler that does not end gives nothing, and then neither does `MMU_init`.

Products and sums are of the widths that C gives them. `i * elf_tag->entsize` has 32 bits, and so
has the rounding of a tag's size (`nextTag`). That the folds are what the loops do is shown in
`BootLoops`.
-/

namespace KernelDev

open ByteMem

/-! ## Constants of `mmu.h` -/

/-- `MULTIBOOT_TAG_TYPE_END` -/
def multibootTagTypeEnd : BitVec 32 := 0

/-- `MULTIBOOT_TAG_TYPE_CMDLINE` -/
def multibootTagTypeCmdline : BitVec 32 := 1

/-- `MULTIBOOT_TAG_TYPE_BOOT_LOADER_NAME` -/
def multibootTagTypeBootLoaderName : BitVec 32 := 2

/-- `MULTIBOOT_TAG_TYPE_BASIC_MEMINFO` -/
def multibootTagTypeBasicMeminfo : BitVec 32 := 4

/-- `MULTIBOOT_TAG_TYPE_MMAP` -/
def multibootTagTypeMmap : BitVec 32 := 6

/-- `MULTIBOOT_TAG_TYPE_ELF_SECTIONS` -/
def multibootTagTypeElfSections : BitVec 32 := 9

/-- `SHT_PROGBITS` -/
def shtProgbits : BitVec 32 := 1

/-- `SHT_NOBITS` -/
def shtNobits : BitVec 32 := 8

/-- `SHF_WRITE` -/
def shfWrite : BitVec 64 := 0x1

/-- `SHF_ALLOC` -/
def shfAlloc : BitVec 64 := 0x2

/-- `SHF_EXECINSTR` -/
def shfExecinstr : BitVec 64 := 0x4

namespace Mmu

/-- Write the region behind the last one of the table. -/
def appendRegion (s : Mmu) (region : MemRegion) : Mmu :=
  { s with memoryRegions := s.memoryRegions ++ [region] }

/-- `memory_regions[j] = region` -/
def setRegion (s : Mmu) (j : ℕ) (region : MemRegion) : Mmu :=
  { s with memoryRegions := s.memoryRegions.set j region }

/-! ## `process_mmap_tag` -/

/-- The loop body of `process_mmap_tag`, for the entry at `entry`. -/
def addEntry (s : Mmu) (entry : Addr) : Mmu :=
  let addr := read64 s.mem entry
  let len := read64 s.mem (entry + 8)
  let type := read32 s.mem (entry + 16)
  if type = multibootMemoryAvailable then
    if s.memoryRegions.length < maxMemoryRegions then
      let start := (addr + pageSize - 1) &&& pageMask
      let end_ := (addr + len) &&& pageMask
      if start < end_ then
        let regionSize := end_ - start
        let regionPages := regionSize / pageSize
        { s.appendRegion ⟨start, end_, type⟩ with
          totalMemory := s.totalMemory + regionSize
          totalPages := s.totalPages + regionPages
          freePages := s.freePages + regionPages }
      else s
    else s.printk "WARNING: Too many memory regions, ignoring some\n" []
  else s

/-- `process_mmap_tag`. With entries of at least one byte there are no more of them than the
tag has bytes. -/
def processMmapTag (s : Mmu) (mmapTag : Addr) : Option Mmu := do
  let size := read32 s.mem (mmapTag + 4)
  let entrySize := read32 s.mem (mmapTag + 8)
  let endPtr := mmapTag + size.setWidth 64
  let (s, _) ← Loop.run (fun (_, entryPtr) => decide (entryPtr < endPtr))
    (fun (s, entryPtr) => (addEntry s entryPtr, entryPtr + entrySize.setWidth 64))
    (size.toNat + 1) (s, mmapTag + 16)
  return s

/-! ## `process_elf_sections_tag` -/

/-- The loop body of `process_elf_sections_tag` for the region `j` : the pages from
`page_start` to `page_end` are taken out of it. -/
def reserveRegion (pageStart pageEnd : BitVec 64) (s : Mmu) (j : ℕ) : Mmu :=
  match s.memoryRegions[j]? with
  | none => s
  | some region =>
    if region.type ≠ multibootMemoryAvailable then s
    else if pageStart ≥ region.end_ ∨ pageEnd ≤ region.start then s
    else
      let overlapStart := if pageStart > region.start then pageStart else region.start
      let overlapEnd := if pageEnd < region.end_ then pageEnd else region.end_
      if overlapStart ≥ overlapEnd then s
      else
        let overlapPages := (overlapEnd - overlapStart) / pageSize
        let s :=
          { s with
            freePages := s.freePages - overlapPages
            reservedPages := s.reservedPages + overlapPages }
        if overlapStart = region.start ∧ overlapEnd = region.end_ then
          s.setRegion j { region with type := multibootMemoryReserved }
        else if overlapStart = region.start then
          s.setRegion j { region with start := overlapEnd }
        else if overlapEnd = region.end_ then
          s.setRegion j { region with end_ := overlapStart }
        else if s.memoryRegions.length < maxMemoryRegions then
          (s.appendRegion ⟨overlapEnd, region.end_, multibootMemoryAvailable⟩).setRegion j
            { region with end_ := overlapStart }
        else
          (s.printk "WARNING: No space for split region, marking entire region as reserved\n"
            []).setRegion j { region with type := multibootMemoryReserved }

/-- The loop over the regions. It also visits the regions it appends, of which there is none
from index 64 on. -/
def reservePages (s : Mmu) (pageStart pageEnd : BitVec 64) : Mmu :=
  (List.range maxMemoryRegions).foldl (reserveRegion pageStart pageEnd) s

/-- The name `process_elf_sections_tag` prints for a section. -/
def sectionType (shType : BitVec 32) (shFlags : BitVec 64) : String :=
  if shType = shtProgbits then
    if shFlags &&& shfExecinstr ≠ 0 then "code"
    else if shFlags &&& shfWrite ≠ 0 then "data"
    else "read-only"
  else if shType = shtNobits then "bss"
  else "idk"

/-- The loop body of `process_elf_sections_tag`, for the section header at `shdr`. -/
def processSection (s : Mmu) (shdr : Addr) : Mmu :=
  let shType := read32 s.mem (shdr + 4)
  let shFlags := read64 s.mem (shdr + 8)
  let shAddr := read64 s.mem (shdr + 16)
  let shSize := read64 s.mem (shdr + 32)
  if shFlags &&& shfAlloc = 0 then s
  else
    let start := shAddr
    let end_ := shAddr + shSize
    if start = end_ then s
    else
      let s := s.printk "  Kernel section (%s): addr=0x%lx, size=0x%lx\n"
        [.str (sectionType shType shFlags), .word start, .word shSize]
      s.reservePages (start &&& pageMask) ((end_ + pageSize - 1) &&& pageMask)

/-- The header `i` of a sections tag. `i * elf_tag->entsize` is a 32-bit product. -/
def sectionHeader (m : Mem) (elfTag : Addr) (i : ℕ) : Addr :=
  elfTag + 20 + (BitVec.ofNat 32 i * read32 m (elfTag + 12)).setWidth 64

/-- `process_elf_sections_tag` -/
def processElfSectionsTag (s : Mmu) (elfTag : Addr) : Mmu :=
  (List.range (read32 s.mem (elfTag + 8)).toNat).foldl
    (fun s i => s.processSection (sectionHeader s.mem elfTag i)) s

/-! ## `MMU_init` -/

/-- The `switch` of `MMU_init`. -/
def processTag (s : Mmu) (tag : Addr) : Option Mmu :=
  let type := read32 s.mem tag
  if type = multibootTagTypeMmap then s.processMmapTag tag
  else if type = multibootTagTypeElfSections then some (s.processElfSectionsTag tag)
  else if type = multibootTagTypeCmdline then
    some (s.printk "Command line: %s\n" [.word (tag + 8)])
  else if type = multibootTagTypeBootLoaderName then
    some (s.printk "Boot loader: %s\n" [.word (tag + 8)])
  else if type = multibootTagTypeBasicMeminfo then
    some (s.printk "Basic memory info: lower=%uKB, upper=%uKB\n"
      [.word ((read32 s.mem (tag + 8)).setWidth 64), .word ((read32 s.mem (tag + 12)).setWidth 64)])
  else
    some (s.printk "Skipping tag type %u of size %u\n"
      [.word (type.setWidth 64), .word ((read32 s.mem (tag + 4)).setWidth 64)])

/-- The address of the tag behind `tag`. -/
def nextTag (m : Mem) (tag : Addr) : Addr :=
  tag + ((read32 m (tag + 4) + 7) &&& ~~~7).setWidth 64

/-- The loop of `MMU_init` over the tags, for at most the given number of tests. The flag
says that it did not stop at an invalid tag. -/
def walkTags (end_ : Addr) : ℕ → Mmu → Addr → Option (Mmu × Bool)
  | 0, _, _ => none
  | fuel + 1, s, current =>
    if current < end_ then
      if read32 s.mem current = multibootTagTypeEnd then some (s, true)
      else
        let size := read32 s.mem (current + 4)
        if size < 8 ∨ current + size.setWidth 64 > end_ then
          some (s.printk "ERROR: Invalid tag size at 0x%lx\n" [.word current], false)
        else do
          let s ← s.processTag current
          walkTags end_ fuel s (nextTag s.mem current)
    else some (s, true)

/-- The lines `MMU_init` prints at its end. -/
def printSummary (s : Mmu) : Mmu :=
  let s := s.printk "Memory management initialized:\n" []
  let s := s.printk "  Total memory: %lu MB\n" [.word (s.totalMemory / (1024 * 1024))]
  let s := s.printk "  Total pages: %lu\n" [.word s.totalPages]
  let s := s.printk "  Free pages: %lu\n" [.word s.freePages]
  let s := s.printk "  Reserved pages: %lu\n" [.word s.reservedPages]
  s.printk "  Memory regions: %d\n" [.word (BitVec.ofNat 64 s.memoryRegions.length)]

/-- `MMU_init`. Tags are at least 8 bytes apart. -/
def mmuInit (s : Mmu) (multibootInfo : Addr) : Option Mmu := do
  let totalSize := read32 s.mem multibootInfo
  let (s, ok) ← s.walkTags (multibootInfo + totalSize.setWidth 64) (totalSize.toNat + 1)
    (multibootInfo + 8)
  return if ok then s.printSummary else s

end Mmu

end KernelDev
