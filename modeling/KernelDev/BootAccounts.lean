import KernelDev.BootItems

/-!
# The page counters

`free_pages` counts the pages of the AVAILABLE regions and those that were given up for want of
room in the region table. `Mmu.Accounts lost` says that `lost` pages are of the second kind, and
that `free_pages` and `reserved_pages` add up to `total_pages` without a wrap.

Recording an entry and taking the pages of a section keep it so. An entry that is recorded adds the
pages of its region to `free_pages` and to `total_pages` (`Accounts.record`). A section moves the
pages that it takes from `free_pages` to `reserved_pages`; where a region is given up as a whole,
its other pages stay counted as free (`Accounts.reserves`). The table has 64 regions at most and a
region fewer than `2 ^ 52` pages, which is why the counters cannot wrap.

`addEntry_cases` and `processSection_cases` are the two handlers in this view : an entry is
recorded as the region that it has (`entryRegion`) or passed over, and a section takes its pages
(`sectionPages`) or is passed over.
-/

namespace KernelDev

open ByteMem

/-! ## Entries and sections -/

theorem aligned_pageMask (x : Addr) : Aligned (x &&& pageMask) := by
  unfold Aligned
  rw [BitVec.toNat_and, show (4096 : ℕ) = 2 ^ 12 from rfl, Nat.and_mod_two_pow,
    show pageMask.toNat % 2 ^ 12 = 0 from by decide, Nat.and_zero]

/-- The region that `process_mmap_tag` records for an entry, if it is AVAILABLE and has a whole
page. -/
def entryRegion (m : Mem) (a : Addr) : Option MemRegion :=
  let start := (read64 m a + pageSize - 1) &&& pageMask
  let end_ := (read64 m a + read64 m (a + 8)) &&& pageMask
  if read32 m (a + 16) = multibootMemoryAvailable ∧ start < end_ then
    some ⟨start, end_, multibootMemoryAvailable⟩
  else none

/-- The pages that `process_elf_sections_tag` reserves for a section, if it occupies memory. -/
def sectionPages (m : Mem) (shdr : Addr) : Option (Addr × Addr) :=
  let start := read64 m (shdr + 16)
  let end_ := start + read64 m (shdr + 32)
  if read64 m (shdr + 8) &&& shfAlloc ≠ 0 ∧ start ≠ end_ then
    some (start &&& pageMask, (end_ + pageSize - 1) &&& pageMask)
  else none

/-- The region of an entry has whole pages. -/
theorem whole_entryRegion {m : Mem} {a : Addr} {r : MemRegion} (h : entryRegion m a = some r) :
    r.Whole ∧ r.type = multibootMemoryAvailable := by
  unfold entryRegion at h
  dsimp only at h
  split_ifs at h with hr
  cases h
  exact ⟨⟨aligned_pageMask _, aligned_pageMask _, hr.2⟩, rfl⟩

/-- The pages of a section begin and end at pages. -/
theorem aligned_sectionPages {m : Mem} {shdr ps pe : Addr}
    (h : sectionPages m shdr = some (ps, pe)) : Aligned ps ∧ Aligned pe := by
  unfold sectionPages at h
  dsimp only at h
  split_ifs at h
  cases h
  exact ⟨aligned_pageMask _, aligned_pageMask _⟩

namespace Mmu

/-- The state after a region is recorded. -/
def record (s : Mmu) (r : MemRegion) : Mmu :=
  { s.appendRegion r with
    totalMemory := s.totalMemory + (r.end_ - r.start)
    totalPages := s.totalPages + (r.end_ - r.start) / pageSize
    freePages := s.freePages + (r.end_ - r.start) / pageSize }

/-- An entry is recorded if it has a region and the table has room. -/
theorem addEntry_cases (s : Mmu) (a : Addr) :
    (∃ r, entryRegion s.mem a = some r ∧ s.memoryRegions.length < maxMemoryRegions ∧
      s.addEntry a = s.record r) ∨
    ((entryRegion s.mem a = none ∨ maxMemoryRegions ≤ s.memoryRegions.length) ∧
      OnlyPrints s (s.addEntry a)) := by
  unfold addEntry entryRegion
  dsimp only
  by_cases htype : read32 s.mem (a + 16) = multibootMemoryAvailable
  · rw [if_pos htype, htype]
    by_cases hroom : s.memoryRegions.length < maxMemoryRegions
    · rw [if_pos hroom]
      by_cases hlt : (read64 s.mem a + pageSize - 1) &&& pageMask <
          (read64 s.mem a + read64 s.mem (a + 8)) &&& pageMask
      · rw [if_pos hlt, if_pos ⟨rfl, hlt⟩]
        exact Or.inl ⟨_, rfl, hroom, rfl⟩
      · rw [if_neg hlt, if_neg fun h => hlt h.2]
        exact Or.inr ⟨Or.inl rfl, s.console, rfl⟩
    · rw [if_neg hroom]
      exact Or.inr ⟨Or.inr (Nat.not_lt.1 hroom), onlyPrints_printk s _ _⟩
  · rw [if_neg htype, if_neg fun h => htype h.1]
    exact Or.inr ⟨Or.inl rfl, s.console, rfl⟩

/-- A section is passed over, or its pages are reserved. -/
theorem processSection_cases (s : Mmu) (shdr : Addr) :
    (sectionPages s.mem shdr = none ∧ s.processSection shdr = s) ∨
    ∃ ps pe u, sectionPages s.mem shdr = some (ps, pe) ∧ OnlyPrints s u ∧
      s.processSection shdr = u.reservePages ps pe := by
  unfold processSection sectionPages
  dsimp only
  by_cases halloc : read64 s.mem (shdr + 8) &&& shfAlloc = 0
  · exact Or.inl ⟨if_neg fun h => h.1 halloc, if_pos halloc⟩
  · rw [if_neg halloc]
    by_cases hempty : read64 s.mem (shdr + 16) =
        read64 s.mem (shdr + 16) + read64 s.mem (shdr + 32)
    · exact Or.inl ⟨if_neg fun h => h.2 hempty, if_pos hempty⟩
    · rw [if_neg hempty, if_pos ⟨halloc, hempty⟩]
      exact Or.inr ⟨_, _, _, rfl, onlyPrints_printk s _ _, rfl⟩

/-! ## Accounts -/

/-- The counters of a region table : `free_pages` counts `lost` pages beyond those of the
AVAILABLE regions, and nothing has wrapped around. -/
structure Accounts (s : Mmu) (lost : ℕ) : Prop where
  whole : ∀ r ∈ s.memoryRegions, r.Whole
  size : s.memoryRegions.length ≤ maxMemoryRegions
  /-- `lost` pages are counted that are not on offer. -/
  free : s.freePages.toNat = availablePages s.memoryRegions + lost
  /-- The sum does not wrap. -/
  total : s.freePages.toNat + s.reservedPages.toNat = s.totalPages.toNat
  bound : s.totalPages.toNat ≤ s.memoryRegions.length * 2 ^ 52

variable {s t : Mmu} {lost : ℕ}

theorem Accounts.onlyPrints (h : s.Accounts lost) (ht : OnlyPrints s t) : t.Accounts lost := by
  obtain ⟨console, rfl⟩ := ht
  exact ⟨h.whole, h.size, h.free, h.total, h.bound⟩

/-- `region_pages` -/
theorem toNat_regionPages {r : MemRegion} (hr : r.Whole)
    (htype : r.type = multibootMemoryAvailable) :
    ((r.end_ - r.start) / pageSize).toNat = r.pages := by
  rw [BitVec.toNat_udiv, BitVec.toNat_sub_of_le (Nat.le_of_lt hr.lt), MemRegion.pages, if_pos htype]
  rfl

/-- Recording a region counts its pages. -/
theorem Accounts.record (h : s.Accounts lost) (hroom : s.memoryRegions.length < maxMemoryRegions)
    {r : MemRegion} (hr : r.Whole) (htype : r.type = multibootMemoryAvailable) :
    (s.record r).Accounts lost := by
  have hlt := hr.lt
  have hend := r.end_.isLt
  have hpages := toNat_regionPages hr htype
  have hsmall : r.pages ≤ 2 ^ 52 := by
    rw [MemRegion.pages, if_pos htype]
    omega
  have hfree := h.free
  have htotal := h.total
  have hbound := h.bound
  unfold maxMemoryRegions at hroom
  have hfree' : (s.freePages + (r.end_ - r.start) / pageSize).toNat =
      s.freePages.toNat + r.pages := by
    rw [BitVec.toNat_add, hpages]
    omega
  have htotal' : (s.totalPages + (r.end_ - r.start) / pageSize).toNat =
      s.totalPages.toNat + r.pages := by
    rw [BitVec.toNat_add, hpages]
    omega
  have hlen : (s.memoryRegions ++ [r]).length = s.memoryRegions.length + 1 := by simp
  refine ⟨fun q hq => ?_, ?_, ?_, ?_, ?_⟩
  · rcases List.mem_append.1 hq with hq | hq
    · exact h.whole q hq
    · rwa [List.mem_singleton.1 hq]
  · exact hlen.trans_le hroom
  · refine hfree'.trans ?_
    show _ = availablePages (s.memoryRegions ++ [r]) + lost
    rw [availablePages_append, availablePages_cons, availablePages_nil]
    omega
  · show (s.freePages + (r.end_ - r.start) / pageSize).toNat + s.reservedPages.toNat =
      (s.totalPages + (r.end_ - r.start) / pageSize).toNat
    omega
  · show (s.totalPages + (r.end_ - r.start) / pageSize).toNat ≤
      (s.memoryRegions ++ [r]).length * 2 ^ 52
    omega

/-- Reserved pages change sides, and given up ones stay counted. -/
theorem Accounts.reserves (h : s.Accounts lost) {ps pe : Addr} {overlap l : ℕ}
    (hr : Reserves ps pe s t overlap l) : t.Accounts (lost + l) := by
  have hfree := h.free
  have htotal := h.total
  have hbound := h.bound
  have hgrown := hr.grown
  have hpages := hr.pages
  have hlt := s.totalPages.isLt
  have hfree' : (s.freePages - BitVec.ofNat 64 overlap).toNat = s.freePages.toNat - overlap := by
    rw [BitVec.toNat_sub_of_le]
    · rw [BitVec.toNat_ofNat]
      omega
    · rw [BitVec.le_def, BitVec.toNat_ofNat]
      omega
  have hreserved : (s.reservedPages + BitVec.ofNat 64 overlap).toNat =
      s.reservedPages.toNat + overlap := by
    rw [BitVec.toNat_add, BitVec.toNat_ofNat]
    omega
  have hf : t.freePages = s.freePages - BitVec.ofNat 64 overlap := congrArg Mmu.freePages hr.state
  have hres : t.reservedPages = s.reservedPages + BitVec.ofNat 64 overlap :=
    congrArg Mmu.reservedPages hr.state
  have htot : t.totalPages = s.totalPages := (congrArg Mmu.totalPages hr.state).trans rfl
  refine ⟨hr.whole, hr.size, ?_, ?_, ?_⟩
  · rw [hf]
    omega
  · rw [hf, hres, htot]
    omega
  · rw [htot]
    exact Nat.le_trans hbound (Nat.mul_le_mul_right _ hgrown)

end Mmu

end KernelDev
