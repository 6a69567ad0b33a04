import KernelDev.BootRuns

/-!
# The page accounts of the boot map

After boot `free_pages` should be the number of pages in AVAILABLE regions, and together with
`reserved_pages` it should be `total_pages`. The second is always so. The first fails if a section
has to split a region and the table is full : the whole region is marked as reserved, but only the
pages of the section are moved from the one counter to the other.

`BootTag` is one of the two kinds of tags that change the table, and the statement is about any
list of them in any order, from an empty table (`page_accounting_iff`) : the accounts are right
just when every section found room for the regions it splits, which is `AllFit` of the items of the
tags. It includes that the handlers end, for tags that are well formed.

`page_accounting_crowdedMap` has 64 regions and a section of one page in the middle of one of them
: one page was reserved and 16 are gone.
-/

namespace KernelDev

open ByteMem

/-- A tag that `MMU_init` takes memory from. -/
inductive BootTag where
  | mmap (tag : Addr)
  | elf (tag : Addr)

namespace BootTag

/-- The effect of a tag, if its handler ends. -/
def run (s : Mmu) : BootTag → Option Mmu
  | mmap tag => s.processMmapTag tag
  | elf tag => some (s.processElfSectionsTag tag)

/-- The items of a tag. -/
def items (m : Mem) : BootTag → List BootItem
  | mmap tag => mmapItems m tag
  | elf tag => elfItems m tag

/-- A memory map tag in the lower half of memory, whose entries take up room. A sections tag
needs no condition. -/
def WellFormed (m : Mem) : BootTag → Prop
  | mmap tag => tag.toNat < 2 ^ 63 ∧ read32 m (tag + 8) ≠ 0
  | elf _ => True

/-- A tag runs its items. -/
theorem run_items {s : Mmu} {tag : BootTag} (h : tag.WellFormed s.mem) :
    tag.run s = some ((tag.items s.mem).foldl BootItem.run s) := by
  cases tag with
  | mmap tag =>
    obtain ⟨t, ht⟩ := s.processMmapTag_ends (h.1.trans (by decide)) h.2
    rw [run, ht, Mmu.processMmapTag_items ht]
    rfl
  | elf tag => rw [run, Mmu.processElfSectionsTag_items, items]

theorem foldlM_run (tags : List BootTag) : ∀ {s : Mmu}, (∀ tag ∈ tags, tag.WellFormed s.mem) →
    tags.foldlM run s = some ((tags.flatMap (items s.mem)).foldl BootItem.run s) := by
  induction tags with
  | nil => exact fun _ => rfl
  | cons tag tags ih =>
    intro s h
    have hmem := (Mmu.foldl_run_keeps (tag.items s.mem) s).mem
    rw [List.foldlM_cons, run_items (h tag (by simp)), Option.bind_eq_bind, Option.bind_some,
      List.flatMap_cons, List.foldl_append]
    have hrest := ih (s := (tag.items s.mem).foldl BootItem.run s) fun q hq => by
      rw [hmem]
      exact h q (by simp [hq])
    rw [hmem] at hrest
    exact hrest

end BootTag

/-- The page accounting of the boot map. After any well-formed tags `free_pages` is the number
of pages in AVAILABLE regions, and `free_pages` and `reserved_pages` add up to `total_pages`
without a wrap, just when every section finds room for the regions it splits. -/
theorem page_accounting_iff {s : Mmu} (h : s.BootStart) (tags : List BootTag)
    (htags : ∀ tag ∈ tags, tag.WellFormed s.mem) :
    ∃ t, tags.foldlM BootTag.run s = some t ∧
      ((t.freePages.toNat = availablePages t.memoryRegions ∧
          t.freePages.toNat + t.reservedPages.toNat = t.totalPages.toNat ∧
          t.totalPages.toNat ≤ 64 * 2 ^ 52) ↔
        AllFit s (tags.flatMap (BootTag.items s.mem))) := by
  obtain ⟨l, hl⟩ := h.accounts.foldl_run (tags.flatMap (BootTag.items s.mem))
  have haccounts := hl.accounts
  rw [← hl.fits_iff]
  refine ⟨_, BootTag.foldlM_run tags htags, ?_⟩
  clear hl
  generalize (tags.flatMap (BootTag.items s.mem)).foldl BootItem.run s = t at haccounts ⊢
  have hfree := haccounts.free
  have hbound := Nat.le_trans haccounts.bound (Nat.mul_le_mul_right _ haccounts.size)
  refine ⟨fun hall => ?_, fun hnone => ⟨?_, haccounts.total, hbound⟩⟩
  · obtain ⟨hcount, -⟩ := hall
    omega
  · omega

/-- A map of 64 entries of 16 pages at `0x1000`, and at `0x8000` a section in the middle of the
first one. -/
def crowdedMap : Mem :=
  wordMem fun i =>
    if i < 0x404 then [6, 1552, 24, 0].getD (i - 0x400) 0
    else if i < 0x584 then
      let k := (i - 0x404) / 6
      [BitVec.ofNat 32 (0x100000 * (k + 1)), 0, 0x10000, 0, 1, 0].getD ((i - 0x404) % 6) 0
    else [9, 84, 1, 64, 0, 0, 1, 2, 0, 0x104000, 0, 0, 0, 0x1000].getD (i - 0x2000) 0

/-- The first entry of `crowdedMap` alone, and the section in the middle of it. -/
def roomyMap : Mem :=
  wordMem fun i =>
    if i < 0x404 then [6, 40, 24, 0].getD (i - 0x400) 0
    else if i < 0x40a then [0x100000, 0, 0x10000, 0, 1, 0].getD (i - 0x404) 0
    else [9, 84, 1, 64, 0, 0, 1, 2, 0, 0x104000, 0, 0, 0, 0x1000].getD (i - 0x2000) 0

/-- The section splits the only region of `roomyMap`. -/
theorem allFit_roomyMap : AllFit (.atBoot roomyMap)
    ([BootTag.mmap 0x1000, .elf 0x8000].flatMap (BootTag.items roomyMap)) := by
  have hitems : [BootTag.mmap 0x1000, .elf 0x8000].flatMap (BootTag.items roomyMap) =
      [.entry 0x1010, .header 0x8014] := by
    decide +kernel
  have hsection : sectionPages roomyMap 0x8014 = some (0x104000, 0x105000) := by
    decide +kernel
  rw [hitems]
  refine ⟨trivial, fun ps pe hpages => ?_, trivial⟩
  obtain ⟨rfl, rfl⟩ := Prod.mk.inj (Option.some.inj (hsection.symm.trans hpages))
  decide +kernel

theorem run_crowdedMap :
    ([BootTag.mmap 0x1000, .elf 0x8000].foldlM BootTag.run (.atBoot crowdedMap)).map
      (fun t => (t.freePages.toNat, availablePages t.memoryRegions)) = some (1023, 1008) := by
  decide +kernel

/-- The accounts of `roomyMap` are right as its section fits, and the section of `crowdedMap` does
not fit as the accounts are wrong. -/
theorem page_accounting_iff_crowdedMap :
    (∃ t, [BootTag.mmap 0x1000, .elf 0x8000].foldlM BootTag.run (.atBoot roomyMap) = some t ∧
      t.freePages.toNat = availablePages t.memoryRegions ∧
      t.freePages.toNat + t.reservedPages.toNat = t.totalPages.toNat) ∧
    ¬AllFit (.atBoot crowdedMap)
      ([BootTag.mmap 0x1000, .elf 0x8000].flatMap (BootTag.items crowdedMap)) := by
  constructor
  · obtain ⟨t, ht, hiff⟩ := page_accounting_iff (Mmu.bootStart_atBoot roomyMap)
      [.mmap 0x1000, .elf 0x8000] (by simp [BootTag.WellFormed]; decide +kernel)
    obtain ⟨hfree, htotal, -⟩ := hiff.2 allFit_roomyMap
    exact ⟨t, ht, hfree, htotal⟩
  · intro hfit
    obtain ⟨t, ht, hiff⟩ := page_accounting_iff (Mmu.bootStart_atBoot crowdedMap)
      [.mmap 0x1000, .elf 0x8000] (by simp [BootTag.WellFormed]; decide +kernel)
    have hrun := run_crowdedMap
    rw [ht, Option.map_some, Option.some_inj, Prod.mk.injEq] at hrun
    have hfree := (hiff.2 hfit).1
    rw [hrun.1, hrun.2] at hfree
    exact absurd hfree (by decide)

/-- The section is in the middle of a region of the full table. One page was reserved and 16
are gone. -/
theorem page_accounting_crowdedMap :
    ∃ t, [BootTag.mmap 0x1000, .elf 0x8000].foldlM BootTag.run (.atBoot crowdedMap) = some t ∧
      t.freePages.toNat = 1023 ∧ availablePages t.memoryRegions = 1008 := by
  obtain ⟨t, ht, heq⟩ := Option.map_eq_some_iff.1 run_crowdedMap
  exact ⟨t, ht, congrArg Prod.fst heq, congrArg Prod.snd heq⟩

end KernelDev
