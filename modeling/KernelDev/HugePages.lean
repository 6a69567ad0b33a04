import KernelDev.BootTables

/-!
# `get_pte` and huge pages

`virt_to_phys` ends its walk at an entry with `PTE_HUGE` set, `get_pte` does not look at the bit.
In a huge page `get_pte` goes on into mapped data : it takes a word of the page, or the address
bits of the 2 MiB entry itself, for a page table. Elsewhere the two see one mapping.

Both are brought to the entries that they read first (`getPte_false`, `virtToPhys_entries`), on any
memory, with tables that may be shared or overlap. `SameMapping` is the comparison : a present
entry that `get_pte` finds is a slot of the level-1 table on the walk, and gives the result of
`virt_to_phys`; and in a huge page `get_pte` finds no entry at all.

`sameMapping_iff` is exact. In a huge page `get_pte` may still find nothing, by accident : if the
word of data that it takes for an entry has its lowest bit clear, or if what it finds is at the
null address. In the identity map these are words of whatever memory holds there.
`getPte_identity_map` is an address of the boot tables for which `get_pte` returns a pointer into
the data.
-/

namespace KernelDev

open ByteMem

namespace Mmu

/-- The PML4 entry of `vaddr`. -/
def pml4Entry (s : Mmu) (vaddr : BitVec 64) : BitVec 64 :=
  read64 s.mem (entryAt s.pml4t (getPageIndices vaddr).pml4Idx)

/-- The PDPT entry of `vaddr`, if its PML4 entry is present. -/
def pdptEntry (s : Mmu) (vaddr : BitVec 64) : BitVec 64 :=
  read64 s.mem (entryAt (s.pml4Entry vaddr &&& pageMask) (getPageIndices vaddr).pdptIdx)

/-- The word that `get_pte` takes for the PD entry of `vaddr`. In a 1 GiB page it is data. -/
def pdEntry (s : Mmu) (vaddr : BitVec 64) : BitVec 64 :=
  read64 s.mem (entryAt (s.pdptEntry vaddr &&& pageMask) (getPageIndices vaddr).pdIdx)

/-- The PT entry of `vaddr`, if its PD entry links a page table. -/
def ptEntry (s : Mmu) (vaddr : BitVec 64) : BitVec 64 :=
  read64 s.mem (entryAt (s.pdEntry vaddr &&& pageMask) (getPageIndices vaddr).ptIdx)

/-- `vaddr` is in a 1 GiB page or in a 2 MiB page. -/
def InHugePage (s : Mmu) (vaddr : BitVec 64) : Prop :=
  s.pml4Entry vaddr &&& ptePresent ≠ 0 ∧ s.pdptEntry vaddr &&& ptePresent ≠ 0 ∧
    (s.pdptEntry vaddr &&& pteHuge ≠ 0 ∨
      s.pdEntry vaddr &&& ptePresent ≠ 0 ∧ s.pdEntry vaddr &&& pteHuge ≠ 0)

/-- `pt` is the level-1 page table on the walk of `vaddr`. -/
def LevelOneTable (s : Mmu) (vaddr : BitVec 64) (pt : Addr) : Prop :=
  s.pml4Entry vaddr &&& ptePresent ≠ 0 ∧
    (s.pdptEntry vaddr &&& ptePresent ≠ 0 ∧ s.pdptEntry vaddr &&& pteHuge = 0) ∧
    (s.pdEntry vaddr &&& ptePresent ≠ 0 ∧ s.pdEntry vaddr &&& pteHuge = 0) ∧
    pt = s.pdEntry vaddr &&& pageMask

/-- `get_pte` and `virt_to_phys` see the same mapping of `vaddr` : a present entry that
`get_pte` finds is a slot of the page table on the walk and gives the result of
`virt_to_phys`, and in a huge page `get_pte` finds no entry. -/
def SameMapping (s : Mmu) (vaddr : BitVec 64) : Prop :=
  let pte := (s.getPte s.pml4t vaddr false).2
  (pte ≠ 0 → read64 s.mem pte &&& ptePresent ≠ 0 →
    (∃ pt, s.LevelOneTable vaddr pt ∧ pte = entryAt pt (getPageIndices vaddr).ptIdx) ∧
    (read64 s.mem pte &&& highBits = 0 →
      (s.virtToPhys vaddr).2 = entryAddr (read64 s.mem pte) + (getPageIndices vaddr).offset)) ∧
  (s.InHugePage vaddr → pte = 0)

variable {s : Mmu} {v : BitVec 64}

/-! ## The two walkers by the entries they read -/

/-- One level that only looks. -/
theorem nextTable_false (entry : Addr) (msg : String) : s.nextTable entry false msg =
    (s, if read64 s.mem entry &&& ptePresent = 0 then none
      else some (read64 s.mem entry &&& pageMask)) := by
  unfold nextTable
  by_cases hpres : read64 s.mem entry &&& ptePresent = 0
  · rw [if_pos hpres, if_pos hpres]
    rfl
  · rw [if_neg hpres, if_neg hpres]
    rfl

/-- `get_pte` without `create_if_not_exist`, by the entries it reads. -/
theorem getPte_false : s.getPte s.pml4t v false =
    (s, if s.pml4Entry v &&& ptePresent = 0 then 0
      else if s.pdptEntry v &&& ptePresent = 0 then 0
      else if s.pdEntry v &&& ptePresent = 0 then 0
      else entryAt (s.pdEntry v &&& pageMask) (getPageIndices v).ptIdx) := by
  unfold getPte
  simp only [nextTable_false, ← pml4Entry.eq_def]
  by_cases h4 : s.pml4Entry v &&& ptePresent = 0
  · simp only [h4, if_true]
  simp only [h4, if_false, ← pdptEntry.eq_def]
  by_cases h3 : s.pdptEntry v &&& ptePresent = 0
  · simp only [h3, if_true]
  simp only [h3, if_false, ← pdEntry.eq_def]
  by_cases h2 : s.pdEntry v &&& ptePresent = 0
  · simp only [h2, if_true]
  simp only [h2, if_false]

/-- An entry has the null address exactly if it is the first of a table at 0. -/
theorem entryAt_eq_zero_iff (e v : BitVec 64) :
    entryAt (e &&& pageMask) (getPageIndices v).ptIdx = 0 ↔
    e &&& pageMask = 0 ∧ (getPageIndices v).ptIdx = 0 := by
  have hslot := (aligned_and_pageMask e).slot_toNat (ptIndex v)
  have hidx : (getPageIndices v).ptIdx = (ptIndex v).setWidth 64 := and_511 _
  rw [show entryAt (e &&& pageMask) (getPageIndices v).ptIdx =
    slot (e &&& pageMask) (ptIndex v) from
    entryAt_eq_slot _ _, hidx, ← BitVec.toNat_inj, hslot, ← BitVec.toNat_inj, ← BitVec.toNat_inj]
  have hi := (ptIndex v).isLt
  have hzero : (0 : BitVec 64).toNat = 0 := rfl
  rw [BitVec.toNat_setWidth, Nat.mod_eq_of_lt (by omega : (ptIndex v).toNat < 2 ^ 64), hzero]
  omega

/-- `get_pte` finds an entry if the three words it reads are present. -/
theorem getPte_false_ne_zero_iff : (s.getPte s.pml4t v false).2 ≠ 0 ↔
    (s.pml4Entry v &&& ptePresent ≠ 0 ∧ s.pdptEntry v &&& ptePresent ≠ 0) ∧
      s.pdEntry v &&& ptePresent ≠ 0 ∧
      ¬(s.pdEntry v &&& pageMask = 0 ∧ (getPageIndices v).ptIdx = 0) := by
  rw [getPte_false, ← entryAt_eq_zero_iff]
  by_cases h4 : s.pml4Entry v &&& ptePresent = 0
  · simp only [h4, if_true, ne_eq, not_true_eq_false, false_and]
  by_cases h3 : s.pdptEntry v &&& ptePresent = 0
  · simp only [h4, h3, if_true, if_false, ne_eq, not_true_eq_false, and_false, false_and]
  by_cases h2 : s.pdEntry v &&& ptePresent = 0
  · simp only [h4, h3, h2, if_true, if_false, ne_eq, not_true_eq_false, and_false, false_and]
  · simp only [h4, h3, h2, if_false, ne_eq, not_false_eq_true, true_and]

/-- `virt_to_phys`, by the same entries. -/
theorem virtToPhys_entries : s.virtToPhys v =
    if s.pml4Entry v &&& ptePresent = 0 then
      (s.printk "PML4 entry not present for address %p\n" [.word v], 0)
    else if s.pdptEntry v &&& ptePresent = 0 then
      (s.printk "PDPT entry not present for address %p\n" [.word v], 0)
    else if s.pdptEntry v &&& pteHuge ≠ 0 then
      (s, (s.pdptEntry v &&& 0xffffffc0000000) + (v &&& 0x3fffffff))
    else if s.pdEntry v &&& ptePresent = 0 then
      (s.printk "PD entry not present for address %p\n" [.word v], 0)
    else if s.pdEntry v &&& pteHuge ≠ 0 then
      (s, (s.pdEntry v &&& 0xfffffffe00000) + (v &&& 0x1fffff))
    else if s.ptEntry v &&& ptePresent = 0 then
      (s.printk "PT entry not present for address %p\n" [.word v], 0)
    else (s, (s.ptEntry v &&& pageMask) + (getPageIndices v).offset) :=
  rfl

/-- Below a level-1 table the walk of `virt_to_phys` ends at its entry. -/
theorem LevelOneTable.virtToPhys {pt : Addr} (h : s.LevelOneTable v pt)
    (hpres : read64 s.mem (entryAt pt (getPageIndices v).ptIdx) &&& ptePresent ≠ 0) :
    s.virtToPhys v = (s, (read64 s.mem (entryAt pt (getPageIndices v).ptIdx) &&& pageMask) +
      (getPageIndices v).offset) := by
  obtain ⟨h4, ⟨h3, hhuge3⟩, ⟨h2, hhuge2⟩, rfl⟩ := h
  rw [← ptEntry] at hpres ⊢
  rw [virtToPhys_entries, if_neg h4, if_neg h3, if_neg (not_not.2 hhuge3), if_neg h2,
    if_neg (not_not.2 hhuge2), if_neg hpres]

/-- Outside the huge pages the walk of `get_pte` ends in a level-1 table. -/
theorem levelOneTable (h : (s.getPte s.pml4t v false).2 ≠ 0) (hhuge : ¬s.InHugePage v) :
    s.LevelOneTable v (s.pdEntry v &&& pageMask) := by
  obtain ⟨⟨h4, h3⟩, h2, -⟩ := getPte_false_ne_zero_iff.1 h
  have htable3 : s.pdptEntry v &&& pteHuge = 0 := by
    by_contra hc
    exact hhuge ⟨h4, h3, Or.inl hc⟩
  have htable2 : s.pdEntry v &&& pteHuge = 0 := by
    by_contra hc
    exact hhuge ⟨h4, h3, Or.inr ⟨h2, hc⟩⟩
  exact ⟨h4, ⟨h3, htable3⟩, ⟨h2, htable2⟩, rfl⟩

/-! ## Where the two agree -/

/-- The present entries that `get_pte` finds outside the huge pages. -/
theorem entry_of_getPte (h : (s.getPte s.pml4t v false).2 ≠ 0) (hhuge : ¬s.InHugePage v)
    (hpres : read64 s.mem (s.getPte s.pml4t v false).2 &&& ptePresent ≠ 0) :
    (∃ pt, s.LevelOneTable v pt ∧
      (s.getPte s.pml4t v false).2 = entryAt pt (getPageIndices v).ptIdx) ∧
    (read64 s.mem (s.getPte s.pml4t v false).2 &&& highBits = 0 → (s.virtToPhys v).2 =
      entryAddr (read64 s.mem (s.getPte s.pml4t v false).2) + (getPageIndices v).offset) := by
  have htable := levelOneTable h hhuge
  obtain ⟨⟨h4, h3⟩, h2, -⟩ := getPte_false_ne_zero_iff.1 h
  have hpte : (s.getPte s.pml4t v false).2 =
      entryAt (s.pdEntry v &&& pageMask) (getPageIndices v).ptIdx := by
    rw [getPte_false, if_neg h4, if_neg h3, if_neg h2]
  rw [hpte] at hpres ⊢
  refine ⟨⟨_, htable, rfl⟩, fun hclear => ?_⟩
  rw [htable.virtToPhys hpres, and_pageMask_eq_iff.2 hclear]

/-- `get_pte` and `virt_to_phys` see the same mapping of `vaddr` exactly if `vaddr` is not in a
huge page, or `get_pte` ends there by accident : the word it takes for the PD entry is not
present, or makes the first entry of a table at 0. -/
theorem sameMapping_iff (s : Mmu) (v : BitVec 64) : s.SameMapping v ↔
    ¬s.InHugePage v ∨ s.pdEntry v &&& ptePresent = 0 ∨
      s.pdEntry v &&& pageMask = 0 ∧ (getPageIndices v).ptIdx = 0 := by
  constructor
  · rintro ⟨-, hnull⟩
    by_cases hhuge : s.InHugePage v
    · refine Or.inr ?_
      by_contra hc
      rw [not_or] at hc
      exact getPte_false_ne_zero_iff.2 ⟨⟨hhuge.1, hhuge.2.1⟩, hc.1, hc.2⟩ (hnull hhuge)
    · exact Or.inl hhuge
  · intro h
    -- where `get_pte` finds an entry, the condition leaves the addresses outside huge pages
    have hout : (s.getPte s.pml4t v false).2 ≠ 0 → ¬s.InHugePage v := fun hne => by
      obtain ⟨-, h2, hnull⟩ := getPte_false_ne_zero_iff.1 hne
      rcases h with h | h | h
      · exact h
      · exact absurd h h2
      · exact absurd h hnull
    refine ⟨fun hne hpres => entry_of_getPte hne (hout hne) hpres, fun hhuge => ?_⟩
    by_contra hne
    exact hout hne hhuge

end Mmu

/-! ## The identity map -/

namespace BootTables

variable {t : BootTables} {s : Mmu} {v : BitVec 64}

/-- The entries of the first GiB. -/
theorem entries_low (hz : t.Zeroed s.mem) (hv : v.toNat < 2 ^ 30) :
    (t.enablePaging s).pml4Entry v = tableEntry t.pdptLow ∧
      (t.enablePaging s).pdptEntry v = tableEntry t.pdTable ∧
      (t.enablePaging s).pdEntry v = hugeEntry ((v >>> 21).setWidth 9) := by
  have hlow : t.pdptLow ∈ t.tables := by simp [tables]
  have hpd : t.pdTable ∈ t.tables := by simp [tables]
  have hix4 : (v >>> 39).setWidth 9 = 0 := by bv_omega
  have hix3 : (v >>> 30).setWidth 9 = 0 := by bv_omega
  have hroot : (t.enablePaging s).pml4t = linear t.p4Table := pml4t_enablePaging
  have hword : t.HasWords (t.enablePaging s).mem t.bootWord := hasWords_setUpPageTables hz
  have h4 : (t.enablePaging s).pml4Entry v = tableEntry t.pdptLow := by
    simp only [Mmu.pml4Entry, getPageIndices, entryAt_eq_slot, read64_slot, hroot, hix4]
    rw [hword _ (by simp [tables]), bootWord_p4Table]
    rfl
  have h3 : (t.enablePaging s).pdptEntry v = tableEntry t.pdTable := by
    simp only [Mmu.pdptEntry, h4, tableEntry_pageMask hlow, getPageIndices, entryAt_eq_slot,
      read64_slot, hix3]
    rw [hword _ hlow, bootWord_pdptLow, if_pos rfl]
  refine ⟨h4, h3, ?_⟩
  simp only [Mmu.pdEntry, h3, tableEntry_pageMask hpd, getPageIndices, entryAt_eq_slot, read64_slot]
  rw [hword _ hpd, bootWord_pdTable]

/-- The identity map consists of 2 MiB pages. -/
theorem inHugePage_low (hz : t.Zeroed s.mem) (hv : v.toNat < 2 ^ 30) :
    (t.enablePaging s).InHugePage v := by
  obtain ⟨h4, h3, h2⟩ := entries_low hz hv
  rw [Mmu.InHugePage, h4, h3, h2]
  exact ⟨tableEntry_present _, tableEntry_present _, Or.inr (hugeEntry_present _)⟩

/-- In the second 2 MiB page `get_pte` returns a pointer into the mapped data. -/
theorem getPte_identity_map : ¬∀ (s : Mmu) (v : BitVec 64), v.toNat < 2 ^ 48 → s.SameMapping v := by
  intro h
  have hlow : (0x200000 : BitVec 64).toNat < 2 ^ 30 := by decide
  obtain ⟨h4, h3, h2⟩ := entries_low (s := Mmu.atBoot fun _ => 0) zeroed_inRow hlow
  obtain ⟨-, hnull⟩ := h (inRow.enablePaging (Mmu.atBoot fun _ => 0)) 0x200000 (by decide)
  refine Mmu.getPte_false_ne_zero_iff.2 ?_ (hnull (inHugePage_low zeroed_inRow hlow))
  rw [h4, h3, h2]
  exact ⟨⟨tableEntry_present _, tableEntry_present _⟩, (hugeEntry_present _).1, by decide⟩

end BootTables

end KernelDev
