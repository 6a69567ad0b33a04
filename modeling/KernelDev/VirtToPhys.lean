import KernelDev.BootRuns
import KernelDev.HeapAccess

/-!
# `virt_to_phys`

`virt_to_phys` walks the tables like the processor, but takes other bits of an entry for its
address : `PAGE_MASK` keeps bits 63 to 52 of a table pointer and of a 4 KiB page, and the mask of a
1 GiB page keeps bits 55 to 52. The mask of a 2 MiB page has the right bits. The processor uses the
upper ones for flags, of which `PTE_NX` is bit 63.

Such a bit in the last entry ends up in the result. In an entry above it, the table pointer leads
outside of physical memory, which has 52 bits; what a read there finds is not known. `Agrees`
therefore asks for the processor's result whatever these reads find, that is in every memory that
holds the same bytes at physical addresses. With two of these, all zeros and all ones outside, the
results are seen to differ (`DependsOutside`, `dependsOutside_cr3` and the others) : a walk through
zeros reports nothing mapped, and one through ones ends in a huge page.

`virtToPhys_agrees_iff` is exact for every mapped address, in any tables : the bits that the one
takes for the address and the other does not have to be clear, in `CR3` and at each level of the
walk (`HighBitsClear`). `virtToPhys_nx` is a page with `PTE_NX`.
-/

namespace KernelDev

open ByteMem

namespace Mmu

/-- `virt_to_phys` -/
def virtToPhys (s : Mmu) (vaddr : BitVec 64) : Mmu × BitVec 64 :=
  let pml4t := physToVirt (s.cr3 &&& pageMask)
  let ix := getPageIndices vaddr
  let pml4e := read64 s.mem (entryAt pml4t ix.pml4Idx)
  if pml4e &&& ptePresent = 0 then
    (s.printk "PML4 entry not present for address %p\n" [.word vaddr], 0)
  else
    let pdpt := physToVirt (pml4e &&& pageMask)
    let pdpte := read64 s.mem (entryAt pdpt ix.pdptIdx)
    if pdpte &&& ptePresent = 0 then
      (s.printk "PDPT entry not present for address %p\n" [.word vaddr], 0)
    -- check if a 1GB page
    else if pdpte &&& pteHuge ≠ 0 then
      (s, (pdpte &&& 0xffffffc0000000) + (vaddr &&& 0x3fffffff))
    else
      let pdt := physToVirt (pdpte &&& pageMask)
      let pde := read64 s.mem (entryAt pdt ix.pdIdx)
      if pde &&& ptePresent = 0 then
        (s.printk "PD entry not present for address %p\n" [.word vaddr], 0)
      -- check if a 2MB page
      else if pde &&& pteHuge ≠ 0 then
        (s, (pde &&& 0xfffffffe00000) + (vaddr &&& 0x1fffff))
      else
        let pt := physToVirt (pde &&& pageMask)
        let pte := read64 s.mem (entryAt pt ix.ptIdx)
        if pte &&& ptePresent = 0 then
          (s.printk "PT entry not present for address %p\n" [.word vaddr], 0)
        else (s, (pte &&& pageMask) + ix.offset)

end Mmu

/-! ## Bits and masks -/

/-- The bits of an entry above a physical address. -/
def highBits : BitVec 64 := 0xfff0000000000000

/-- Two masks give one result exactly if what the larger one adds is clear. -/
theorem and_or_eq_and_iff {e a b : BitVec 64} (hab : a &&& b = 0) :
    e &&& (a ||| b) = e &&& a ↔ e &&& b = 0 := by
  have habsorb : (a ||| b) &&& b = b := by
    ext i hi
    simp only [BitVec.getElem_and, BitVec.getElem_or]
    cases a[i] <;> simp
  constructor
  · intro h
    calc e &&& b = (e &&& (a ||| b)) &&& b := by rw [BitVec.and_assoc, habsorb]
      _ = e &&& (a &&& b) := by rw [h, BitVec.and_assoc]
      _ = 0 := by rw [hab]; exact BitVec.and_zero
  · intro h
    rw [BitVec.and_or_distrib_left, h]
    exact BitVec.or_zero

/-- `PAGE_MASK` keeps twelve bits too many. -/
theorem and_pageMask_eq_iff {e : BitVec 64} : e &&& pageMask = entryAddr e ↔ e &&& highBits = 0 :=
  and_or_eq_and_iff (show 0x000ffffffffff000 &&& highBits = 0 by decide)

/-- The mask of a 1 GiB page keeps four bits too many. -/
theorem and_gigaMask_eq_iff {e : BitVec 64} :
    e &&& 0xffffffc0000000 = entryAddr e &&& ~~~0x3fffffff ↔ e &&& 0x00f0000000000000 = 0 := by
  rw [entryAddr, BitVec.and_assoc]
  exact and_or_eq_and_iff (show 0x000fffffc0000000 &&& 0x00f0000000000000 = 0 by decide)

/-- The mask of a 2 MiB page keeps the address bits. -/
theorem and_megaMask_eq (e : BitVec 64) :
    e &&& 0xfffffffe00000 = entryAddr e &&& ~~~0x1fffff := by
  rw [entryAddr, BitVec.and_assoc]
  rfl

/-- A pointer with a high bit set points outside physical memory. -/
theorem le_and_pageMask {e : BitVec 64} (h : e &&& highBits ≠ 0) :
    2 ^ 52 ≤ (e &&& pageMask).toNat := by
  by_contra hlt
  exact h (and_pageMask_eq_iff.1 (entryAddr_eq (Nat.lt_of_not_le hlt)).symm)

theorem aligned_entryAddr (e : BitVec 64) : Aligned (entryAddr e) := by
  have h : entryAddr e = entryAddr e &&& pageMask := by
    rw [entryAddr, BitVec.and_assoc]
    rfl
  rw [h]
  exact aligned_and_pageMask _

/-- The processor takes a physical address from an entry. -/
theorem entryAddr_lt (e : BitVec 64) : (entryAddr e).toNat < 2 ^ 52 := by
  rw [entryAddr, BitVec.toNat_and]
  exact Nat.lt_of_le_of_lt Nat.and_le_right (by decide)

/-! ## Physical memory -/

/-- The memories hold the same bytes at physical addresses. -/
def SamePhysical (m m' : Mem) : Prop :=
  ∀ x : Addr, x.toNat < 2 ^ 52 → m x = m' x

/-- Memory whose reads outside physical memory find the byte `b`. -/
def outside (m : Mem) (b : BitVec 8) : Mem := fun x =>
  if x.toNat < 2 ^ 52 then m x else b

/-- What is outside of physical memory may be anything. -/
theorem samePhysical_outside (m : Mem) (b : BitVec 8) : SamePhysical m (outside m b) :=
  fun _ hx => (if_pos hx).symm

/-- Without high bits both walks read one entry. -/
theorem word_and_pageMask {m m' : Mem} (h : SamePhysical m m') {e : BitVec 64}
    (he : e &&& highBits = 0) (i : BitVec 9) :
    word m' (e &&& pageMask) i = word m (entryAddr e) i := by
  rw [and_pageMask_eq_iff.2 he]
  refine (word_congr (aligned_entryAddr e) (fun x hx => h x ?_) i).symm
  have := entryAddr_lt e
  have := aligned_entryAddr e
  unfold Aligned pageOf at *
  omega

/-- With a high bit `virt_to_phys` reads outside physical memory. -/
theorem word_outside (m : Mem) (b : BitVec 8) {e : BitVec 64} (he : e &&& highBits ≠ 0)
    (i : BitVec 9) : word (outside m b) (e &&& pageMask) i = word (fun _ => b) 0 0 := by
  have hconst : word (fun _ => b) (e &&& pageMask) i = word (fun _ => b) 0 0 := by
    simp only [word, read64, loadLE]
  rw [← hconst]
  refine word_congr (aligned_and_pageMask e) (fun x hx => if_neg ?_) i
  have := le_and_pageMask he
  have := aligned_and_pageMask e
  unfold Aligned pageOf at *
  omega

theorem word_outside_zero (m : Mem) {e : BitVec 64} (he : e &&& highBits ≠ 0) (i : BitVec 9) :
    word (outside m 0) (e &&& pageMask) i = 0 :=
  word_outside m 0 he i

theorem word_outside_ones (m : Mem) {e : BitVec 64} (he : e &&& highBits ≠ 0) (i : BitVec 9) :
    word (outside m 255) (e &&& pageMask) i = BitVec.allOnes 64 :=
  word_outside m 255 he i

/-! ## What the reads outside memory decide -/

namespace Mmu

/-- The bits that `virt_to_phys` takes for address bits, and the processor does not, are clear
in `CR3` and in the entries of the walk. A 2 MiB entry has no such bits. -/
def HighBitsClear (m : Mem) (cr3 vaddr : BitVec 64) : Prop :=
  let ix := getPageIndices vaddr
  let pml4e := read64 m (entryAt (entryAddr cr3) ix.pml4Idx)
  let pdpte := read64 m (entryAt (entryAddr pml4e) ix.pdptIdx)
  let pde := read64 m (entryAt (entryAddr pdpte) ix.pdIdx)
  let pte := read64 m (entryAt (entryAddr pde) ix.ptIdx)
  cr3 &&& highBits = 0 ∧ pml4e &&& highBits = 0 ∧
    (pdpte &&& pteHuge ≠ 0 ∧ pdpte &&& 0x00f0000000000000 = 0 ∨
      pdpte &&& pteHuge = 0 ∧ pdpte &&& highBits = 0 ∧
        (pde &&& pteHuge ≠ 0 ∨ pde &&& highBits = 0 ∧ pte &&& highBits = 0))

instance (m : Mem) (cr3 vaddr : BitVec 64) : Decidable (HighBitsClear m cr3 vaddr) :=
  inferInstanceAs (Decidable (_ ∧ _ ∧ (_ ∧ _ ∨ _ ∧ _ ∧ (_ ∨ _ ∧ _))))

/-- The result depends on what is found outside physical memory. -/
def DependsOutside (s : Mmu) (vaddr : BitVec 64) : Prop :=
  ∃ m₁ m₂, SamePhysical s.mem m₁ ∧ SamePhysical s.mem m₂ ∧
    (virtToPhys { s with mem := m₁ } vaddr).2 ≠ (virtToPhys { s with mem := m₂ } vaddr).2

theorem dependsOutside {s : Mmu} {v : BitVec 64}
    (h0 : (virtToPhys { s with mem := outside s.mem 0 } v).2 = 0)
    (h1 : (virtToPhys { s with mem := outside s.mem 255 } v).2 ≠ 0) : s.DependsOutside v :=
  ⟨_, _, samePhysical_outside _ _, samePhysical_outside _ _, fun h => h1 (h.symm.trans h0)⟩

section

variable {s : Mmu} {v : BitVec 64}

/-- The result of a walk that meets entries of ones is not zero. -/
theorem ones_base_ne_zero (v : BitVec 64) :
    (BitVec.allOnes 64 &&& 0xffffffc0000000) + (v &&& 0x3fffffff) ≠ 0 ∧
      (BitVec.allOnes 64 &&& 0xfffffffe00000) + (v &&& 0x1fffff) ≠ 0 ∧
      (BitVec.allOnes 64 &&& pageMask) + (v &&& (pageSize - 1)) ≠ 0 := by
  have hg : (v &&& 0x3fffffff).toNat ≤ 0x3fffffff := Nat.and_le_right
  have hm : (v &&& 0x1fffff).toNat ≤ 0x1fffff := Nat.and_le_right
  have hp : (v &&& (pageSize - 1)).toNat ≤ 0xfff := Nat.and_le_right
  refine ⟨?_, ?_, ?_⟩ <;> intro h <;> have := congrArg BitVec.toNat h <;>
    rw [BitVec.toNat_add] at this <;> simp [pageMask, pageSize] at * <;> omega

theorem zero_and_present : (0 : BitVec 64) &&& ptePresent = 0 := by decide
theorem ones_and_present : BitVec.allOnes 64 &&& ptePresent ≠ 0 := by decide
theorem ones_and_huge : BitVec.allOnes 64 &&& pteHuge ≠ 0 := by decide
theorem ones_and_high : BitVec.allOnes 64 &&& highBits ≠ 0 := by decide

/-- The top-level table is outside memory. -/
theorem dependsOutside_cr3 (hcr3 : s.cr3 &&& highBits ≠ 0) : s.DependsOutside v := by
  refine dependsOutside ?_ ?_
  · simp only [virtToPhys, physToVirt, getPageIndices, entryAt_eq_slot, read64_slot,
      word_outside_zero _ hcr3, zero_and_present, if_true]
  · simp only [virtToPhys, physToVirt, getPageIndices, entryAt_eq_slot, read64_slot,
      word_outside_ones _ hcr3, word_outside_ones _ ones_and_high, ones_and_present,
      ones_and_huge, if_false, if_true, ne_eq, not_false_eq_true]
    exact (ones_base_ne_zero v).1

/-- `virt_to_phys` gives the processor's result, whatever is read outside memory. -/
def Agrees (s : Mmu) (v pa : BitVec 64) : Prop :=
  ∀ m', SamePhysical s.mem m' → (virtToPhys { s with mem := m' } v).2 = pa

/-- Where nothing is read outside memory, one result decides. -/
theorem agrees_iff {x pa : BitVec 64}
    (h : ∀ m', SamePhysical s.mem m' → (virtToPhys { s with mem := m' } v).2 = x) :
    s.Agrees v pa ↔ x = pa :=
  ⟨fun ha => (h s.mem fun _ _ => rfl).symm.trans (ha s.mem fun _ _ => rfl),
    fun hx m' hm => (h m' hm).trans hx⟩

theorem Agrees.not_dependsOutside {pa : BitVec 64} (h : s.Agrees v pa) : ¬s.DependsOutside v :=
  fun ⟨_, _, h1, h2, hne⟩ => hne ((h _ h1).trans (h _ h2).symm)

section

variable {pml4e pdpte pde : BitVec 64} (hcr3 : s.cr3 &&& highBits = 0)
  (h4 : word s.mem (entryAddr s.cr3) ((v >>> 39).setWidth 9) = pml4e)
  (hpres4 : pml4e &&& ptePresent ≠ 0)

include hcr3 h4 hpres4

/-- The second table is outside memory. -/
theorem dependsOutside_pml4e (hhigh : pml4e &&& highBits ≠ 0) : s.DependsOutside v := by
  have hread4 := fun b => word_and_pageMask (samePhysical_outside s.mem b) hcr3
  refine dependsOutside ?_ ?_
  · simp only [virtToPhys, physToVirt, getPageIndices, entryAt_eq_slot, read64_slot, hread4, h4,
      hpres4, word_outside_zero _ hhigh, zero_and_present, if_true, if_false]
  · simp only [virtToPhys, physToVirt, getPageIndices, entryAt_eq_slot, read64_slot, hread4, h4,
      hpres4, word_outside_ones _ hhigh, ones_and_present, ones_and_huge, if_false, if_true, ne_eq,
      not_false_eq_true]
    exact (ones_base_ne_zero v).1

variable (hclear4 : pml4e &&& highBits = 0)
  (h3 : word s.mem (entryAddr pml4e) ((v >>> 30).setWidth 9) = pdpte)
  (hpres3 : pdpte &&& ptePresent ≠ 0)

include hclear4 h3 hpres3

/-- On a 1 GiB page the result is the base of the page with the offset in it. -/
theorem agrees_gigaPage {pa : BitVec 64} (hhuge3 : pdpte &&& pteHuge ≠ 0) :
    s.Agrees v pa ↔ (pdpte &&& 0xffffffc0000000) + (v &&& 0x3fffffff) = pa := by
  refine agrees_iff fun m' hm => ?_
  have hread4 := (word_and_pageMask hm hcr3 ((v >>> 39).setWidth 9)).trans h4
  have hread3 := (word_and_pageMask hm hclear4 ((v >>> 30).setWidth 9)).trans h3
  simp only [virtToPhys, physToVirt, getPageIndices, entryAt_eq_slot, read64_slot, hread4, hpres4,
    hread3, hpres3, if_pos hhuge3, if_false]

variable (htable3 : pdpte &&& pteHuge = 0)

include htable3

/-- The third table is outside memory. -/
theorem dependsOutside_pdpte (hhigh : pdpte &&& highBits ≠ 0) : s.DependsOutside v := by
  have hread4 := fun b => word_and_pageMask (samePhysical_outside s.mem b) hcr3
  have hread3 := fun b => word_and_pageMask (samePhysical_outside s.mem b) hclear4
  refine dependsOutside ?_ ?_
  · simp only [virtToPhys, physToVirt, getPageIndices, entryAt_eq_slot, read64_slot, hread4, h4,
      hpres4, hread3, h3, hpres3, htable3, word_outside_zero _ hhigh, zero_and_present, if_true,
      if_false, ne_eq, not_true_eq_false]
  · simp only [virtToPhys, physToVirt, getPageIndices, entryAt_eq_slot, read64_slot, hread4, h4,
      hpres4, hread3, h3, hpres3, htable3, word_outside_ones _ hhigh, ones_and_present,
      ones_and_huge, if_false, if_true, ne_eq, not_false_eq_true, not_true_eq_false]
    exact (ones_base_ne_zero v).2.1

variable (hclear3 : pdpte &&& highBits = 0)
  (h2 : word s.mem (entryAddr pdpte) ((v >>> 21).setWidth 9) = pde)
  (hpres2 : pde &&& ptePresent ≠ 0)

include hclear3 h2 hpres2

/-- On a 2 MiB page the result is the base of the page with the offset in it. -/
theorem agrees_megaPage {pa : BitVec 64} (hhuge2 : pde &&& pteHuge ≠ 0) :
    s.Agrees v pa ↔ (pde &&& 0xfffffffe00000) + (v &&& 0x1fffff) = pa := by
  refine agrees_iff fun m' hm => ?_
  have hread4 := (word_and_pageMask hm hcr3 ((v >>> 39).setWidth 9)).trans h4
  have hread3 := (word_and_pageMask hm hclear4 ((v >>> 30).setWidth 9)).trans h3
  have hread2 := (word_and_pageMask hm hclear3 ((v >>> 21).setWidth 9)).trans h2
  simp only [virtToPhys, physToVirt, getPageIndices, entryAt_eq_slot, read64_slot, hread4, hpres4,
    hread3, hpres3, htable3, hread2, hpres2, if_pos hhuge2, if_false, ne_eq, not_true_eq_false]

variable (htable2 : pde &&& pteHuge = 0)

include htable2

/-- The last table is outside memory. -/
theorem dependsOutside_pde (hhigh : pde &&& highBits ≠ 0) : s.DependsOutside v := by
  have hread4 := fun b => word_and_pageMask (samePhysical_outside s.mem b) hcr3
  have hread3 := fun b => word_and_pageMask (samePhysical_outside s.mem b) hclear4
  have hread2 := fun b => word_and_pageMask (samePhysical_outside s.mem b) hclear3
  refine dependsOutside ?_ ?_
  · simp only [virtToPhys, physToVirt, getPageIndices, entryAt_eq_slot, read64_slot, hread4, h4,
      hpres4, hread3, h3, hpres3, htable3, hread2, h2, hpres2, htable2, word_outside_zero _ hhigh,
      zero_and_present, if_true, if_false, ne_eq, not_true_eq_false]
  · simp only [virtToPhys, physToVirt, getPageIndices, entryAt_eq_slot, read64_slot, hread4, h4,
      hpres4, hread3, h3, hpres3, htable3, hread2, h2, hpres2, htable2, word_outside_ones _ hhigh,
      ones_and_present, if_false, ne_eq, not_true_eq_false]
    exact (ones_base_ne_zero v).2.2

/-- On a 4 KiB page the result is the address in the entry, high bits included, with the offset. -/
theorem agrees_smallPage {pte pa : BitVec 64} (hclear2 : pde &&& highBits = 0)
    (h1 : word s.mem (entryAddr pde) ((v >>> 12).setWidth 9) = pte)
    (hpres1 : pte &&& ptePresent ≠ 0) :
    s.Agrees v pa ↔ (pte &&& pageMask) + (v &&& (pageSize - 1)) = pa := by
  refine agrees_iff fun m' hm => ?_
  have hread4 := (word_and_pageMask hm hcr3 ((v >>> 39).setWidth 9)).trans h4
  have hread3 := (word_and_pageMask hm hclear4 ((v >>> 30).setWidth 9)).trans h3
  have hread2 := (word_and_pageMask hm hclear3 ((v >>> 21).setWidth 9)).trans h2
  have hread1 := (word_and_pageMask hm hclear2 ((v >>> 12).setWidth 9)).trans h1
  simp only [virtToPhys, physToVirt, getPageIndices, entryAt_eq_slot, read64_slot, hread4, hpres4,
    hread3, hpres3, htable3, hread2, hpres2, htable2, hread1, hpres1, if_false, ne_eq,
    not_true_eq_false]

end

/-- Exactly when `virt_to_phys` agrees with the processor on a mapped address. -/
theorem virtToPhys_agrees_iff {pa : BitVec 64} (h : hwTranslate s.mem s.cr3 v = some pa) :
    s.Agrees v pa ↔ HighBitsClear s.mem s.cr3 v := by
  unfold HighBitsClear
  unfold hwTranslate at h
  simp only [getPageIndices, entryAt_eq_slot, read64_slot] at h ⊢
  generalize h4 : word s.mem (entryAddr s.cr3) ((v >>> 39).setWidth 9) = pml4e at h ⊢
  generalize h3 : word s.mem (entryAddr pml4e) ((v >>> 30).setWidth 9) = pdpte at h ⊢
  generalize h2 : word s.mem (entryAddr pdpte) ((v >>> 21).setWidth 9) = pde at h ⊢
  generalize h1 : word s.mem (entryAddr pde) ((v >>> 12).setWidth 9) = pte at h ⊢
  -- the pointers to tables first: with a high bit there, the result is not determined
  by_cases hcr3 : s.cr3 &&& highBits = 0
  swap
  · exact iff_of_false (fun ha => ha.not_dependsOutside (dependsOutside_cr3 hcr3))
      fun hc => hcr3 hc.1
  rw [ite_eq_iff] at h
  obtain ⟨-, h⟩ | ⟨hpres4, h⟩ := h
  · cases h
  by_cases hclear4 : pml4e &&& highBits = 0
  swap
  · exact iff_of_false
      (fun ha => ha.not_dependsOutside (dependsOutside_pml4e hcr3 h4 hpres4 hclear4))
      fun hc => hclear4 hc.2.1
  rw [ite_eq_iff] at h
  obtain ⟨-, h⟩ | ⟨hpres3, h⟩ := h
  · cases h
  rw [ite_eq_iff] at h
  obtain ⟨hhuge3, h⟩ | ⟨htable3, h⟩ := h
  · rw [agrees_gigaPage hcr3 h4 hpres4 hclear4 h3 hpres3 hhuge3, ← Option.some.inj h,
      BitVec.add_left_inj, and_gigaMask_eq_iff]
    refine ⟨fun hc => ⟨hcr3, hclear4, Or.inl ⟨hhuge3, hc⟩⟩, ?_⟩
    rintro ⟨-, -, ⟨-, hc⟩ | ⟨hc, -⟩⟩
    · exact hc
    · exact absurd hc hhuge3
  have htable3 := not_not.1 htable3
  simp only [htable3, ne_eq, not_true_eq_false, false_and, false_or, true_and]
  by_cases hclear3 : pdpte &&& highBits = 0
  swap
  · exact iff_of_false (fun ha => ha.not_dependsOutside
      (dependsOutside_pdpte hcr3 h4 hpres4 hclear4 h3 hpres3 htable3 hclear3))
      fun hc => hclear3 hc.2.2.1
  rw [ite_eq_iff] at h
  obtain ⟨-, h⟩ | ⟨hpres2, h⟩ := h
  · cases h
  rw [ite_eq_iff] at h
  obtain ⟨hhuge2, h⟩ | ⟨htable2, h⟩ := h
  · rw [agrees_megaPage hcr3 h4 hpres4 hclear4 h3 hpres3 htable3 hclear3 h2 hpres2 hhuge2,
      and_megaMask_eq, Option.some.inj h]
    exact iff_of_true rfl ⟨hcr3, hclear4, hclear3, Or.inl hhuge2⟩
  have htable2 := not_not.1 htable2
  by_cases hclear2 : pde &&& highBits = 0
  swap
  · exact iff_of_false (fun ha => ha.not_dependsOutside
      (dependsOutside_pde hcr3 h4 hpres4 hclear4 h3 hpres3 htable3 hclear3 h2 hpres2 htable2
        hclear2))
      fun hc => hc.2.2.2.elim (fun hh => hh htable2) fun hh => hclear2 hh.1
  rw [ite_eq_iff] at h
  obtain ⟨-, h⟩ | ⟨hpres1, h⟩ := h
  · cases h
  rw [agrees_smallPage hcr3 h4 hpres4 hclear4 h3 hpres3 htable3 hclear3 h2 hpres2 htable2 hclear2
    h1 hpres1, ← Option.some.inj h, BitVec.add_left_inj, and_pageMask_eq_iff]
  exact ⟨fun hc => ⟨hcr3, hclear4, hclear3, Or.inr ⟨hclear2, hc⟩⟩,
    fun hc => hc.2.2.2.elim (fun hh => absurd htable2 hh) fun hh => hh.2⟩

end

/-- Tables at 0 that map page 0 to the frame at `0x4000`, by an entry with the given high half. -/
def leafTables (high : BitVec 32) : Mem :=
  wordMem fun i =>
    if i = 0 then 0x1003 else if i = 1024 then 0x2003 else if i = 2048 then 0x3003
    else if i = 3072 then 0x4003 else if i = 3073 then high else 0

theorem virtToPhys_agrees_leafTables :
    (atBoot (leafTables 0)).Agrees 0xabc 0x4abc :=
  (@virtToPhys_agrees_iff (atBoot (leafTables 0)) 0xabc 0x4abc (by decide)).2 (by decide)

/-- `PTE_NX` of a 4 KiB page ends up in the result. -/
theorem virtToPhys_nx : ¬∀ (s : Mmu) (v pa : BitVec 64), v.toNat < 2 ^ 48 →
    hwTranslate s.mem s.cr3 v = some pa → (s.virtToPhys v).2 = pa := by
  intro h
  have hnx := h (atBoot (leafTables 0x80000000)) 0xabc 0x4abc (by decide) (by decide)
  exact absurd hnx (by decide)

end Mmu

end KernelDev
