import KernelDev.VirtToPhys

/-!
# The page tables of `boot.asm`

`set_up_page_tables` runs in 32-bit mode, before paging, and writes the low halves of the entries
it fills; their high halves are zero because `.bss` is. It clears five pages and not six :
`pd_table` is filled entirely afterwards. `bootWord` says what it leaves in every word of the six
tables, wherever the linker puts these (`BootTables`), and `hasWords_setUpPageTables` is by one
store after the other, with the loop of 512 half entries as a lemma of its own (`word_mapP2Table`).

The identity map of the first GiB is `virtToPhys_boot` : `virt_to_phys` gives back every address
below 1 GiB, and reports every other one below `2 ^ 48` as not mapped.

The last part is about the layout of `mmu.h`. `boot.asm` fills the entries 1, 15 and 16 of the
top-level table for the heap, the kernel stacks and user space, but a PML4 entry spans 512 GiB, and
the indices of these addresses are twice as large (`pml4Idx_of_contains`). So the tables that were
made for the three are not those that their addresses go through (`not_selectedAt`), for any
address of any of them. `get_pte` makes other tables when they are needed.
-/

namespace KernelDev

open ByteMem

/-- The physical address of a 32-bit pointer. -/
def linear (a : BitVec 32) : Addr :=
  a.setWidth 64

/-- `rep stosb`: store `al` in the `ecx` bytes from `edi`. -/
def repStosb (al : BitVec 8) : ℕ → BitVec 32 → Mem → Mem
  | 0, _, m => m
  | ecx + 1, edi, m => repStosb al ecx (edi + 1) (Function.update m (linear edi) al)

/-- The loop `.map_p2_table`: map the `ecx`-th and all later 2 MiB pages. -/
def mapP2Table (pdTable ecx : BitVec 32) (m : Mem) : Mem :=
  let eax := 0x200000 * ecx
  let eax := eax ||| 0b10000011
  let m := write32 m (linear (pdTable + ecx * 8)) eax
  if h : ecx + 1 = 512 then m else mapP2Table pdTable (ecx + 1) m
termination_by (512 - (ecx + 1)).toNat
decreasing_by bv_omega

/-- Where the linker puts the page tables of `boot.asm`. -/
structure BootTables where
  p4Table : BitVec 32
  pdptLow : BitVec 32
  pdptHeap : BitVec 32
  pdptStacks : BitVec 32
  pdptUser : BitVec 32
  pdTable : BitVec 32
  /-- Each table is a page. -/
  aligned : ∀ t ∈ [p4Table, pdptLow, pdptHeap, pdptStacks, pdptUser, pdTable], t.toNat % 4096 = 0
  /-- No two tables share a page. -/
  distinct : [p4Table, pdptLow, pdptHeap, pdptStacks, pdptUser, pdTable].Nodup

namespace BootTables

variable (t : BootTables)

/-- The six tables. -/
def tables : List (BitVec 32) :=
  [t.p4Table, t.pdptLow, t.pdptHeap, t.pdptStacks, t.pdptUser, t.pdTable]

/-- `set_up_page_tables` -/
def setUpPageTables (m : Mem) : Mem :=
  -- clear all page tables first
  let m := repStosb 0 (4096 * 5) t.p4Table m
  -- setting up p4_table
  let m := write32 m (linear t.p4Table) (t.pdptLow ||| 0b11)
  let m := write32 m (linear (t.p4Table + 8)) (t.pdptHeap ||| 0b11)
  let m := write32 m (linear (t.p4Table + 15 * 8)) (t.pdptStacks ||| 0b11)
  let m := write32 m (linear (t.p4Table + 16 * 8)) (t.pdptUser ||| 0b11)
  -- setting up pdpt_low
  let m := write32 m (linear t.pdptLow) (t.pdTable ||| 0b11)
  mapP2Table t.pdTable 0 m

/-- `set_up_page_tables` and `enable_paging` -/
def enablePaging (s : Mmu) : Mmu :=
  { s with mem := t.setUpPageTables s.mem, cr3 := linear t.p4Table }

/-- The tables lie in zeroed memory, as `.bss` is. -/
def Zeroed (m : Mem) : Prop :=
  ∀ table ∈ t.tables, ∀ x, pageOf x = pageOf (linear table) → m x = 0

end BootTables

/-! ## The clearing loop -/

/-- The clearing loop leaves a zero byte zero. -/
theorem repStosb_zero {x : Addr} : ∀ (n : ℕ) (edi : BitVec 32) {m : Mem}, m x = 0 →
    repStosb 0 n edi m x = 0
  | 0, _, _, h => h
  | n + 1, edi, m, h => by
    rw [repStosb]
    refine repStosb_zero n _ ?_
    rw [Function.update_apply]
    split_ifs
    · rfl
    · exact h

attribute [irreducible] repStosb

/-! ## The tables as pages -/

/-- A pointer in 32-bit mode is its own physical address. -/
theorem linear_toNat (a : BitVec 32) : (linear a).toNat = a.toNat := by
  rw [linear, BitVec.toNat_setWidth, Nat.mod_eq_of_lt (Nat.lt_trans a.isLt (by decide))]

/-- Different pointers are different addresses. -/
theorem linear_injective : Function.Injective linear := fun a b h =>
  BitVec.eq_of_toNat_eq (by rw [← linear_toNat, h, linear_toNat])

theorem aligned_linear {a : BitVec 32} (ha : a.toNat % 4096 = 0) : Aligned (linear a) := by
  rwa [Aligned, linear_toNat]

/-- Entry `i` of a table, as the assembler addresses it. -/
theorem linear_add {a k : BitVec 32} (ha : a.toNat % 4096 = 0) (hk : k.toNat < 512) :
    linear (a + k * 8) = slot (linear a) (k.setWidth 9) := by
  apply BitVec.eq_of_toNat_eq
  rw [(aligned_linear ha).slot_toNat, linear_toNat, linear_toNat]
  bv_omega

/-! ## What is in the tables -/

/-- An entry that points to a table: present and writable. -/
def tableEntry (table : BitVec 32) : BitVec 64 :=
  (table ||| 0b11).setWidth 64

/-- The entry of the `j`-th 2 MiB page: present, writable and huge. -/
def hugeEntry (j : BitVec 9) : BitVec 64 :=
  (0x200000 * j.setWidth 32 ||| 0b10000011).setWidth 64

section

variable {pdTable : BitVec 32} (hpd : pdTable.toNat % 4096 = 0) {g : Addr} (hg : Aligned g)

include hpd hg

/-- One round of the loop writes one entry. -/
theorem word_mapEntry {ecx : BitVec 32} {m : Mem} (hecx : ecx.toNat < 512)
    (hzero : word m (linear pdTable) (ecx.setWidth 9) = 0) (j : BitVec 9) :
    word (write32 m (linear (pdTable + ecx * 8)) (0x200000 * ecx ||| 0b10000011)) g j =
      if g = linear pdTable ∧ j.toNat = ecx.toNat then hugeEntry j else word m g j := by
  have hindex : j = ecx.setWidth 9 ↔ j.toNat = ecx.toNat := by
    rw [← BitVec.toNat_inj, BitVec.toNat_setWidth, Nat.mod_eq_of_lt hecx]
  rw [linear_add hpd hecx, word_write32_slot (aligned_linear hpd) hg j hzero]
  refine ite_congr (by rw [hindex]) (fun h => ?_) fun _ => rfl
  have hecx' : ecx = j.setWidth 32 := by
    apply BitVec.eq_of_toNat_eq
    rw [BitVec.toNat_setWidth, h.2, Nat.mod_eq_of_lt ecx.isLt]
  rw [hugeEntry, ← hecx']

/-- The loop fills the entries from the `ecx`-th on, and changes no other word. -/
theorem word_mapP2Table (j : BitVec 9) : ∀ (n : ℕ) {ecx : BitVec 32} {m : Mem},
    ecx.toNat + n = 511 →
    (∀ i : BitVec 9, ecx.toNat ≤ i.toNat → word m (linear pdTable) i = 0) →
    word (mapP2Table pdTable ecx m) g j =
      if g = linear pdTable ∧ ecx.toNat ≤ j.toNat then hugeEntry j else word m g j := by
  intro n
  induction n with
  | zero =>
    intro ecx m hn hzero
    have hlast : ecx + 1 = 512 := by bv_omega
    have hj : ecx.toNat ≤ j.toNat ↔ j.toNat = ecx.toNat := by have := j.isLt; omega
    rw [mapP2Table, dif_pos hlast]
    refine (word_mapEntry hpd hg (by omega) (hzero _ (by bv_omega)) j).trans ?_
    exact ite_congr (by rw [hj]) (fun _ => rfl) fun _ => rfl
  | succ n ih =>
    intro ecx m hn hzero
    have hnext : ecx + 1 ≠ 512 := by bv_omega
    have hecx : (ecx + 1).toNat = ecx.toNat + 1 := by bv_omega
    have hentry := hzero (ecx.setWidth 9) (by bv_omega)
    rw [mapP2Table, dif_neg hnext, ih (by omega) fun i hi => ?_, hecx,
      word_mapEntry hpd hg (by omega) hentry j]
    · by_cases hgt : g = linear pdTable
      · simp only [hgt, true_and]
        rcases Nat.lt_trichotomy j.toNat ecx.toNat with hj | hj | hj
        · rw [if_neg (by omega), if_neg (by omega), if_neg (by omega)]
        · rw [if_neg (by omega), if_pos hj, if_pos (by omega)]
        · rw [if_pos (by omega), if_pos (by omega)]
      · simp only [hgt, false_and, if_false]
    · rw [word_mapEntry hpd (aligned_linear hpd) (by omega) hentry i, if_neg (by omega)]
      exact hzero i (by omega)

end

namespace BootTables

variable (t : BootTables)

/-- What `set_up_page_tables` leaves in word `j` of a table. -/
def bootWord (table : BitVec 32) (j : BitVec 9) : BitVec 64 :=
  if table = t.pdTable then hugeEntry j
  else if table = t.pdptLow ∧ j = 0 then tableEntry t.pdTable
  else if table = t.p4Table ∧ j = 16 then tableEntry t.pdptUser
  else if table = t.p4Table ∧ j = 15 then tableEntry t.pdptStacks
  else if table = t.p4Table ∧ j = 1 then tableEntry t.pdptHeap
  else if table = t.p4Table ∧ j = 0 then tableEntry t.pdptLow
  else 0

/-- Word `j` of every table is `words table j`. -/
def HasWords (m : Mem) (words : BitVec 32 → BitVec 9 → BitVec 64) : Prop :=
  ∀ table ∈ t.tables, ∀ j, word m (linear table) j = words table j

/-- The tables are apart. -/
theorem tables_ne : t.p4Table ≠ t.pdptLow ∧ t.p4Table ≠ t.pdTable ∧ t.pdptLow ≠ t.pdTable := by
  have h := t.distinct
  simp only [List.nodup_cons, List.mem_cons, not_or] at h
  exact ⟨h.1.1, h.1.2.2.2.2.1, h.2.1.2.2.2.1⟩

variable {t}

/-- One store of `set_up_page_tables`, to an entry that is still zero. -/
theorem HasWords.storeEntry {m : Mem} {words : BitVec 32 → BitVec 9 → BitVec 64}
    (h : t.HasWords m words) (a : BitVec 32) {table : BitVec 32} (ht : table ∈ t.tables)
    (k : BitVec 9) (ha : a = table + k.setWidth 32 * 8) (hzero : words table k = 0)
    (e : BitVec 32) :
    t.HasWords (write32 m (linear a) (e ||| 0b11))
      fun g j => if g = table ∧ j = k then tableEntry e else words g j := by
  intro g hg j
  have hk : (k.setWidth 32).setWidth 9 = k := by bv_omega
  rw [ha, linear_add (t.aligned _ ht) (by bv_omega), hk,
    word_write32_slot (aligned_linear (t.aligned _ ht)) (aligned_linear (t.aligned _ hg)) j
      ((h _ ht k).trans hzero), h g hg]
  exact ite_congr (by rw [linear_injective.eq_iff]) (fun _ => rfl) fun _ => rfl

/-- The tables after they are cleared. -/
theorem hasWords_clear {m : Mem} (hz : t.Zeroed m) :
    t.HasWords (repStosb 0 (4096 * 5) t.p4Table m) fun _ _ => 0 := fun g hg _ =>
  read64_eq_zero fun x hx =>
    repStosb_zero _ _ (hz g hg x ((aligned_linear (t.aligned _ hg)).pageOf_of_within_slot hx))

/-- The words of all tables at the end. -/
theorem hasWords_setUpPageTables {m : Mem} (hz : t.Zeroed m) :
    t.HasWords (t.setUpPageTables m) t.bootWord := by
  have hp4 : t.p4Table ∈ t.tables := by simp [tables]
  have hlow : t.pdptLow ∈ t.tables := by simp [tables]
  have hpd : t.pdTable ∈ t.tables := by simp [tables]
  obtain ⟨hp4low, hp4pd, hlowpd⟩ := t.tables_ne
  have h₁ := (hasWords_clear hz).storeEntry t.p4Table hp4 0 (by simp) rfl t.pdptLow
  have h₂ := h₁.storeEntry (t.p4Table + 8) hp4 1 rfl (by simp) t.pdptHeap
  have h₃ := h₂.storeEntry (t.p4Table + 15 * 8) hp4 15 rfl (by simp) t.pdptStacks
  have h₄ := h₃.storeEntry (t.p4Table + 16 * 8) hp4 16 rfl (by simp) t.pdptUser
  have hwords := h₄.storeEntry t.pdptLow hlow 0 (by simp) (by simp [hp4low.symm]) t.pdTable
  intro g hg j
  unfold setUpPageTables
  dsimp only
  -- the loop starts on a cleared `pd_table`
  rw [word_mapP2Table (t.aligned _ hpd) (aligned_linear (t.aligned _ hg)) j 511 rfl fun i _ => ?_,
    hwords g hg, bootWord]
  · exact ite_congr (by simp [linear_injective.eq_iff]) (fun _ => rfl) fun _ => rfl
  · rw [hwords _ hpd]
    simp [hp4pd.symm, hlowpd.symm]

/-- The entries of `p4_table`, as `boot.asm` fills them. -/
theorem bootWord_p4Table (j : BitVec 9) : t.bootWord t.p4Table j =
    if j = 16 then tableEntry t.pdptUser else if j = 15 then tableEntry t.pdptStacks
    else if j = 1 then tableEntry t.pdptHeap else if j = 0 then tableEntry t.pdptLow else 0 := by
  simp only [bootWord, t.tables_ne, true_and, false_and, if_false]

theorem bootWord_pdptLow (j : BitVec 9) : t.bootWord t.pdptLow j =
    if j = 0 then tableEntry t.pdTable else 0 := by
  simp only [bootWord, t.tables_ne, t.tables_ne.1.symm, true_and, false_and, if_false]

theorem bootWord_pdTable (j : BitVec 9) : t.bootWord t.pdTable j = hugeEntry j :=
  if_pos rfl

/-- The tables of the other regions are empty. -/
theorem bootWord_empty {table : BitVec 32}
    (h : table = t.pdptHeap ∨ table = t.pdptStacks ∨ table = t.pdptUser) (j : BitVec 9) :
    t.bootWord table j = 0 := by
  have := t.distinct
  simp only [List.nodup_cons, List.mem_cons, not_or] at this
  have hne : table ≠ t.pdTable ∧ table ≠ t.pdptLow ∧ table ≠ t.p4Table := by
    grind
  simp only [bootWord, hne, false_and, if_false]

end BootTables

/-! ## The identity map -/

theorem tableEntry_eq (table : BitVec 32) : tableEntry table = mappedEntry (linear table) := by
  have hor : (0b11 : BitVec 32).setWidth 64 = pteWritable ||| ptePresent := by decide
  rw [tableEntry, BitVec.setWidth_or, hor, ← BitVec.or_assoc]
  rfl

theorem hugeEntry_toNat (j : BitVec 9) : (hugeEntry j).toNat = 2 ^ 21 * j.toNat + 0x83 := by
  have hj := j.isLt
  have hmul : ((0x200000 : BitVec 32) * j.setWidth 32).toNat = 2 ^ 21 * j.toNat := by
    bv_omega
  have hor : 2 ^ 21 * j.toNat ||| 0x83 = 2 ^ 21 * j.toNat + 0x83 :=
    (Nat.two_pow_add_eq_or_of_lt (by decide) _).symm
  rw [hugeEntry, BitVec.toNat_setWidth, BitVec.toNat_or, hmul]
  refine (congrArg (· % 2 ^ 64) hor).trans (Nat.mod_eq_of_lt ?_)
  omega

theorem hugeEntry_present (j : BitVec 9) :
    hugeEntry j &&& ptePresent ≠ 0 ∧ hugeEntry j &&& pteHuge ≠ 0 := by
  have hbits : ∀ b : BitVec 64, b &&& (0b10000011 : BitVec 32).setWidth 64 = b →
      hugeEntry j &&& b = b := fun b hb => by
    ext i hi
    have := congrArg (fun x : BitVec 64 => x[i]) hb
    simp only [BitVec.getElem_and] at this
    simp only [hugeEntry, BitVec.setWidth_or, BitVec.getElem_and, BitVec.getElem_or]
    grind
  rw [hbits _ (by decide), hbits _ (by decide)]
  decide

/-- The mask of a 2 MiB page rounds a physical address down. -/
theorem and_megaMask_toNat {e : BitVec 64} (he : e.toNat < 2 ^ 52) :
    (e &&& 0xfffffffe00000).toNat = e.toNat / 2 ^ 21 * 2 ^ 21 := by
  have hmask : ∀ i, ∀ h : i < 64, (0xfffffffe00000 : BitVec 64)[i] = decide (21 ≤ i ∧ i < 52) := by
    decide
  have hhigh : ∀ i, ∀ h : i < 64, 52 ≤ i → e[i] = false := fun i h hi => by
    rw [← BitVec.getLsbD_eq_getElem]
    exact Nat.testBit_lt_two_pow (Nat.lt_of_lt_of_le he (Nat.pow_le_pow_right (by decide) hi))
  have h : e &&& (0xfffffffe00000 : BitVec 64) = (e >>> 21) <<< 21 := by
    ext i hi
    rw [BitVec.getElem_and, hmask i hi]
    by_cases hlow : i < 21
    · simp [hlow]
    · by_cases hi' : i < 52
      · simp [hlow, hi', show 21 + (i - 21) = i by omega, BitVec.getLsbD_eq_getElem hi,
          Nat.not_lt.1 hlow]
      · simp [hlow, hi', show 21 + (i - 21) = i by omega, BitVec.getLsbD_eq_getElem hi,
          hhigh i hi (by omega)]
  rw [h, BitVec.toNat_shiftLeft, BitVec.toNat_ushiftRight, Nat.shiftRight_eq_div_pow,
    Nat.shiftLeft_eq]
  omega

/-- A 2 MiB entry gives the page it was made for. -/
theorem hugeEntry_base {v : BitVec 64} (hv : v.toNat < 2 ^ 30) :
    (hugeEntry ((v >>> 21).setWidth 9) &&& 0xfffffffe00000) + (v &&& 0x1fffff) = v := by
  have hindex : ((v >>> 21).setWidth 9).toNat = v.toNat / 2 ^ 21 := by
    rw [BitVec.toNat_setWidth, BitVec.toNat_ushiftRight, Nat.shiftRight_eq_div_pow]
    omega
  have hlow : (v &&& 0x1fffff).toNat = v.toNat % 2 ^ 21 := by
    rw [BitVec.toNat_and, show (0x1fffff : BitVec 64).toNat = 2 ^ 21 - 1 from rfl,
      Nat.and_two_pow_sub_one_eq_mod]
  apply BitVec.eq_of_toNat_eq
  rw [BitVec.toNat_add, hlow, and_megaMask_toNat (by rw [hugeEntry_toNat, hindex]; omega),
    hugeEntry_toNat, hindex]
  omega

namespace Mmu

/-- The messages of `virt_to_phys`. -/
def notPresent : List String :=
  ["PML4 entry not present for address %p\n", "PDPT entry not present for address %p\n",
    "PD entry not present for address %p\n", "PT entry not present for address %p\n"]

/-- `virt_to_phys` meets an entry that is not present, and reports it. -/
def NotMapped (s : Mmu) (vaddr : BitVec 64) : Prop :=
  ∃ msg ∈ notPresent, s.virtToPhys vaddr = (s.printk msg [.word vaddr], 0)

end Mmu

namespace BootTables

variable {t : BootTables} {s : Mmu}

/-- The walk starts at `p4_table`. -/
theorem pml4t_enablePaging : (t.enablePaging s).cr3 &&& pageMask = linear t.p4Table :=
  and_pageMask_of_aligned (aligned_linear (t.aligned _ (by simp)))

theorem tableEntry_present (table : BitVec 32) : tableEntry table &&& ptePresent ≠ 0 := by
  rw [tableEntry_eq]
  exact mappedEntry_present _

theorem tableEntry_pageMask {table : BitVec 32} (h : table ∈ t.tables) :
    tableEntry table &&& pageMask = linear table := by
  rw [tableEntry_eq, mappedEntry_pageMask (aligned_linear (t.aligned _ h))]

theorem tableEntry_huge {table : BitVec 32} (h : table ∈ t.tables) :
    tableEntry table &&& pteHuge = 0 := by
  rw [tableEntry_eq, mappedEntry_huge (aligned_linear (t.aligned _ h))]

/-- The walk of an address of the first GiB. -/
theorem virtToPhys_low (hz : t.Zeroed s.mem) {v : BitVec 64} (hv : v.toNat < 2 ^ 30) :
    (t.enablePaging s).virtToPhys v = (t.enablePaging s, v) := by
  have hlow : t.pdptLow ∈ t.tables := by simp [tables]
  have hpd : t.pdTable ∈ t.tables := by simp [tables]
  have hix4 : (v >>> 39).setWidth 9 = 0 := by bv_omega
  have hix3 : (v >>> 30).setWidth 9 = 0 := by bv_omega
  have hword : t.HasWords (t.enablePaging s).mem t.bootWord := hasWords_setUpPageTables hz
  have h4 : word (t.enablePaging s).mem (linear t.p4Table) 0 = tableEntry t.pdptLow := by
    rw [hword _ (by simp [tables]), bootWord_p4Table]
    rfl
  have h3 : word (t.enablePaging s).mem (linear t.pdptLow) 0 = tableEntry t.pdTable := by
    rw [hword _ hlow, bootWord_pdptLow, if_pos rfl]
  have h2 : ∀ j, word (t.enablePaging s).mem (linear t.pdTable) j = hugeEntry j := fun j => by
    rw [hword _ hpd, bootWord_pdTable]
  simp only [Mmu.virtToPhys, physToVirt, getPageIndices, pml4t_enablePaging, entryAt_eq_slot,
    read64_slot, hix4, h4, tableEntry_present, tableEntry_pageMask hlow, hix3, h3,
    tableEntry_pageMask hpd, tableEntry_huge hpd, h2, hugeEntry_present, if_false, if_true, ne_eq,
    not_true_eq_false, not_false_eq_true, hugeEntry_base hv]

/-- A walk that ends at the first level. -/
theorem notMapped_pml4 {v : BitVec 64}
    (h4 : word (t.enablePaging s).mem (linear t.p4Table) ((v >>> 39).setWidth 9) = 0) :
    (t.enablePaging s).NotMapped v := by
  refine ⟨_, List.mem_cons_self, ?_⟩
  simp only [Mmu.virtToPhys, physToVirt, getPageIndices, pml4t_enablePaging, entryAt_eq_slot,
    read64_slot, h4, Mmu.zero_and_present, if_true]

/-- A walk that ends at the second level. -/
theorem notMapped_pdpt {v : BitVec 64} {table : BitVec 32} (htable : table ∈ t.tables)
    (h4 : word (t.enablePaging s).mem (linear t.p4Table) ((v >>> 39).setWidth 9) =
      tableEntry table)
    (h3 : word (t.enablePaging s).mem (linear table) ((v >>> 30).setWidth 9) = 0) :
    (t.enablePaging s).NotMapped v := by
  refine ⟨_, List.mem_cons_of_mem _ List.mem_cons_self, ?_⟩
  simp only [Mmu.virtToPhys, physToVirt, getPageIndices, pml4t_enablePaging, entryAt_eq_slot,
    read64_slot, h4, tableEntry_present, tableEntry_pageMask htable, h3, Mmu.zero_and_present,
    if_true, if_false]

/-- The walk of any other address. -/
theorem virtToPhys_high (hz : t.Zeroed s.mem) {v : BitVec 64} (hge : 2 ^ 30 ≤ v.toNat)
    (hlt : v.toNat < 2 ^ 48) : (t.enablePaging s).NotMapped v := by
  have hword : t.HasWords (t.enablePaging s).mem t.bootWord := hasWords_setUpPageTables hz
  have h4 := hword _ (show t.p4Table ∈ t.tables by simp [tables]) ((v >>> 39).setWidth 9)
  rw [bootWord_p4Table] at h4
  have hempty : ∀ table, table = t.pdptHeap ∨ table = t.pdptStacks ∨ table = t.pdptUser →
      word (t.enablePaging s).mem (linear t.p4Table) ((v >>> 39).setWidth 9) = tableEntry table →
      (t.enablePaging s).NotMapped v := fun table htable h4 => by
    have hmem : table ∈ t.tables := by
      rcases htable with rfl | rfl | rfl <;> simp [tables]
    exact notMapped_pdpt hmem h4 ((hword _ hmem _).trans (bootWord_empty htable _))
  split_ifs at h4 with h16 h15 h1 h0
  · exact hempty _ (Or.inr (Or.inr rfl)) h4
  · exact hempty _ (Or.inr (Or.inl rfl)) h4
  · exact hempty _ (Or.inl rfl) h4
  · have hmem : t.pdptLow ∈ t.tables := by simp [tables]
    have hix3 : (v >>> 30).setWidth 9 ≠ 0 := by bv_omega
    refine notMapped_pdpt hmem h4 ?_
    rw [hword _ hmem, bootWord_pdptLow, if_neg hix3]
  · exact notMapped_pml4 h4

/-- The boot tables map the first GiB to itself, and nothing else below `2 ^ 48`. -/
theorem virtToPhys_boot (hz : t.Zeroed s.mem) (v : BitVec 64) :
    (v.toNat < 2 ^ 30 → (t.enablePaging s).virtToPhys v = (t.enablePaging s, v)) ∧
      (2 ^ 30 ≤ v.toNat → v.toNat < 2 ^ 48 → (t.enablePaging s).NotMapped v) :=
  ⟨virtToPhys_low hz, virtToPhys_high hz⟩

/-- A placement of the tables in a row. -/
def inRow : BootTables :=
  ⟨0x108000, 0x109000, 0x10a000, 0x10b000, 0x10c000, 0x10d000, by simp, by simp⟩

theorem zeroed_inRow : inRow.Zeroed fun _ => 0 := fun _ _ _ _ => rfl

theorem virtToPhys_inRow :
    ((inRow.enablePaging (Mmu.atBoot fun _ => 0)).virtToPhys 0x12345678).2 = 0x12345678 ∧
      (inRow.enablePaging (Mmu.atBoot fun _ => 0)).NotMapped 0x40000000 :=
  ⟨congrArg Prod.snd ((virtToPhys_boot zeroed_inRow 0x12345678).1 (by decide)),
    (virtToPhys_boot zeroed_inRow 0x40000000).2 (by decide) (by decide)⟩

end BootTables

/-! ## The layout of `mmu.h` -/

/-- The regions of `mmu.h` that have a table of their own in `boot.asm`. -/
inductive LayoutRegion where
  | kernelHeap
  | kernelStacks
  | userSpace

namespace LayoutRegion

/-- The addresses of a region; of user space, what one PML4 entry spans. -/
def Contains : LayoutRegion → BitVec 64 → Prop
  | kernelHeap, v => kernelHeapAdr ≤ v ∧ v < kernelGrowthAdrStart
  | kernelStacks, v => kernelStacksAdr ≤ v ∧ v < userSpaceAdr
  | userSpace, v => userSpaceAdr ≤ v ∧ v.toNat < userSpaceAdr.toNat + 2 ^ 39

/-- The table made for a region. -/
def table (t : BootTables) : LayoutRegion → BitVec 32
  | kernelHeap => t.pdptHeap
  | kernelStacks => t.pdptStacks
  | userSpace => t.pdptUser

/-- The walk of `v` goes through the PML4 entry that `boot.asm` made for the region. -/
def SelectedAt (t : BootTables) (m : Mem) (r : LayoutRegion) (v : BitVec 64) : Prop :=
  read64 m (entryAt (linear t.p4Table) (getPageIndices v).pml4Idx) = tableEntry (r.table t)

variable {t : BootTables} {m : Mem}

/-- The PML4 indices of the layout are twice the slot numbers. -/
theorem pml4Idx_of_contains {r : LayoutRegion} {v : BitVec 64} (hv : r.Contains v) :
    2 ≤ ((v >>> 39).setWidth 9).toNat ∧ ((v >>> 39).setWidth 9).toNat ≠ 15 ∧
      ((v >>> 39).setWidth 9).toNat ≠ 16 := by
  have hindex : ((v >>> 39).setWidth 9).toNat = v.toNat / 2 ^ 39 % 512 := by
    rw [BitVec.toNat_setWidth, BitVec.toNat_ushiftRight, Nat.shiftRight_eq_div_pow]
  rw [hindex]
  cases r with
  | kernelHeap =>
    have hge : 2 ^ 40 ≤ v.toNat := hv.1
    have hlt : v.toNat < 2 ^ 41 := hv.2
    omega
  | kernelStacks =>
    have hge : 15 * 2 ^ 40 ≤ v.toNat := hv.1
    have hlt : v.toNat < 2 ^ 44 := hv.2
    omega
  | userSpace =>
    have hge : 2 ^ 44 ≤ v.toNat := hv.1
    have hlt : v.toNat < 2 ^ 44 + 2 ^ 39 := hv.2
    omega

/-- No address of the layout reaches an entry that `boot.asm` filled. -/
theorem pml4_entry_zero (hz : t.Zeroed m) {r : LayoutRegion} {v : BitVec 64} (hv : r.Contains v) :
    read64 (t.setUpPageTables m) (entryAt (linear t.p4Table) (getPageIndices v).pml4Idx) = 0 := by
  obtain ⟨h2, h15, h16⟩ := pml4Idx_of_contains hv
  have hne16 : (v >>> 39).setWidth 9 ≠ 16 := fun h => h16 (by rw [h]; rfl)
  have hne15 : (v >>> 39).setWidth 9 ≠ 15 := fun h => h15 (by rw [h]; rfl)
  have hne1 : (v >>> 39).setWidth 9 ≠ 1 := fun h => by
    rw [h] at h2
    exact absurd h2 (by decide)
  have hne0 : (v >>> 39).setWidth 9 ≠ 0 := fun h => by
    rw [h] at h2
    exact absurd h2 (by decide)
  unfold getPageIndices
  rw [entryAt_eq_slot, read64_slot,
    BootTables.hasWords_setUpPageTables hz _ (by simp [BootTables.tables]),
    BootTables.bootWord_p4Table, if_neg hne16, if_neg hne15, if_neg hne1, if_neg hne0]

theorem zero_ne_tableEntry (table : BitVec 32) : 0 ≠ tableEntry table := fun h =>
  BootTables.tableEntry_present table (by rw [← h, Mmu.zero_and_present])

/-- The tables of `boot.asm` are not the ones the layout of `mmu.h` uses. -/
theorem not_selectedAt (hz : t.Zeroed m) {r : LayoutRegion} {v : BitVec 64} (hv : r.Contains v) :
    ¬r.SelectedAt t (t.setUpPageTables m) v := by
  rw [SelectedAt, pml4_entry_zero hz hv]
  exact zero_ne_tableEntry _

theorem not_selectedAt_kernelStacks :
    ¬kernelStacks.SelectedAt .inRow (BootTables.inRow.setUpPageTables fun _ => 0) kernelStacksAdr :=
  not_selectedAt (r := kernelStacks) BootTables.zeroed_inRow ⟨by decide, by decide⟩

/-- The heap begins in an entry that `boot.asm` leaves empty. -/
theorem kernelHeapAdr_not_selected : ¬∀ (t : BootTables) (m : Mem), t.Zeroed m →
    ∀ (r : LayoutRegion) (v : BitVec 64), r.Contains v →
      r.SelectedAt t (t.setUpPageTables m) v := by
  intro h
  have hsel := h .inRow _ BootTables.zeroed_inRow kernelHeap kernelHeapAdr ⟨by decide, by decide⟩
  rw [SelectedAt, pml4_entry_zero (r := kernelHeap) BootTables.zeroed_inRow
    ⟨by decide, by decide⟩] at hsel
  exact zero_ne_tableEntry _ hsel

end LayoutRegion

end KernelDev
