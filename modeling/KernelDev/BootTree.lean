import KernelDev.TableBuilt

/-!
# The tree of the boot tables

`set_up_page_tables` links four tables at the top level and `pd_table` below the first of them. The
entries of `pd_table` are the huge pages of the identity map, which link nothing. So the tree of
the boot tables has six tables, each on one path (`tableOf`, `tableOf_injective`), and no
last-level table outside of the identity map (`BootTree.tableAt_tablePath`).

`BootTree` is a state with these tables installed and with free frames apart from them. The free
list may be built or not. With the list built it is a well-formed tree (`BootTree.tableInv`), and
so the state is one in which everything that is known of such trees applies, from the first call on
(`BootTree.ready`).

`OutsideIdentityMap` is a condition on an address by the 48 bits that a walk reads, as addresses
that differ above them go through the same entries.
-/

namespace KernelDev

open ByteMem

namespace BootTables

/-- The table that a path reaches in the boot tables. -/
def tableOf (t : BootTables) : List Index → Option (BitVec 32)
  | [] => some t.p4Table
  | [i] =>
    if i = 16 then some t.pdptUser else if i = 15 then some t.pdptStacks
    else if i = 1 then some t.pdptHeap else if i = 0 then some t.pdptLow else none
  | [j, i] => if i = 0 ∧ j = 0 then some t.pdTable else none
  | _ => none

variable {t : BootTables}

/-- The tables on the paths are those of `boot.asm`. -/
theorem tableOf_mem {p : List Index} {table : BitVec 32} (h : t.tableOf p = some table) :
    table ∈ t.tables := by
  unfold tableOf at h
  split at h
  · obtain rfl := Option.some.inj h
    simp [tables]
  · split_ifs at h <;> obtain rfl := Option.some.inj h <;> simp [tables]
  · split_ifs at h
    obtain rfl := Option.some.inj h
    simp [tables]
  · cases h

/-- Different paths reach different tables. -/
theorem tableOf_injective {p q : List Index} {table : BitVec 32} (hp : t.tableOf p = some table)
    (hq : t.tableOf q = some table) : p = q := by
  have hd := t.distinct
  simp only [List.nodup_cons, List.mem_cons, not_or] at hd
  unfold tableOf at hp hq
  split at hp <;> split at hq <;> grind

section

variable {m : Mem} {i : Index} {p : List Index} {table : BitVec 32}

/-- An entry that points to a table links it. -/
theorem tableLink_tableEntry {depth : ℕ} {u : Addr} (ht : table ∈ t.tables)
    (h : word m u i = tableEntry table) : tableLink m depth u i = some (linear table) := by
  rw [tableLink, h, if_pos ⟨tableEntry_present table, Or.inr (tableEntry_huge ht)⟩,
    tableEntry_pageMask ht]

/-- The entries of a boot table : they link another one, or there is none below them. -/
theorem bootWord_cases (i : Index) : ∀ {p : List Index}, t.tableOf p = some table →
    (∃ u, t.tableOf (i :: p) = some u ∧ t.bootWord table i = tableEntry u) ∨
      t.tableOf (i :: p) = none ∧
        (t.bootWord table i = 0 ∨ p = [0, 0] ∧ t.bootWord table i = hugeEntry i)
  | [], hp => by
    obtain rfl := Option.some.inj hp
    rw [bootWord_p4Table, tableOf]
    split_ifs <;> simp
  | [a], hp => by
    rw [tableOf] at hp
    by_cases ha : a = 0
    · subst ha
      obtain rfl := Option.some.inj hp
      rw [bootWord_pdptLow, tableOf]
      split_ifs <;> simp_all
    · have hempty : table = t.pdptHeap ∨ table = t.pdptStacks ∨ table = t.pdptUser := by
        grind
      rw [bootWord_empty hempty, tableOf, if_neg fun hc => ha hc.1]
      exact Or.inr ⟨rfl, Or.inl rfl⟩
  | [b, a], hp => by
    rw [tableOf] at hp
    split_ifs at hp with hab
    obtain ⟨rfl, rfl⟩ := hab
    obtain rfl := Option.some.inj hp
    exact Or.inr ⟨rfl, Or.inr ⟨rfl, bootWord_pdTable i⟩⟩

theorem tableOf_cons_of_none (i : Index) : ∀ {p : List Index}, t.tableOf p = none →
    t.tableOf (i :: p) = none
  | [], h => by cases h
  | [a], h => by
    rw [tableOf] at h
    rw [tableOf, if_neg]
    rintro ⟨rfl, -⟩
    simp at h
  | _ :: _ :: _, _ => rfl

/-- One step in the tree of the boot tables. -/
theorem tableLink_bootWord (hw : t.HasWords m t.bootWord) (hp : t.tableOf p = some table)
    (i : Index) :
    tableLink m p.length (linear table) i = (t.tableOf (i :: p)).map linear := by
  have hword := hw table (tableOf_mem hp) i
  rcases bootWord_cases i hp with ⟨u, hu, hentry⟩ | ⟨hnone, hzero | ⟨rfl, hhuge⟩⟩
  · rw [hu, tableLink_tableEntry (tableOf_mem hu) (hword.trans hentry), Option.map_some]
  · rw [hnone, tableLink_eq_none (by rw [hword, hzero]; rfl), Option.map_none]
  · rw [hnone, tableLink, hword, hhuge, if_neg, Option.map_none]
    rintro ⟨-, hdepth | hclear⟩
    · simp at hdepth
    · exact (hugeEntry_present i).2 hclear

/-- The tree of the boot tables. -/
theorem tableAt_bootWord (hw : t.HasWords m t.bootWord) : ∀ p : List Index,
    tableAt m (linear t.p4Table) p = (t.tableOf p).map linear
  | [] => rfl
  | i :: p => by
    cases htab : t.tableOf p with
    | none =>
      rw [tableAt_cons_of_none ((tableAt_bootWord hw p).trans (congrArg _ htab)),
        tableOf_cons_of_none i htab, Option.map_none]
    | some table =>
      rw [tableAt_cons ((tableAt_bootWord hw p).trans (congrArg _ htab))]
      exact tableLink_bootWord hw htab i

end

end BootTables

/-! ## Where the runs start -/

/-- The boot tables are in memory and installed. The free list is built from `free`, or will
be, and the free frames are distinct pages apart from the tables. -/
structure BootTree (t : BootTables) (s : Mmu) (free : List Addr) : Prop where
  words : t.HasWords s.mem t.bootWord
  root : s.pml4t = linear t.p4Table
  /-- The list is built, or can be. -/
  first : s.freeListInitialized = false → Unbuilt s
  list : s.built.FreeList free
  nodup : free.Nodup
  aligned : ∀ f ∈ free, Aligned f
  /-- No free frame is one of the tables. -/
  apart : ∀ f ∈ free, ∀ table ∈ t.tables, f ≠ linear table

namespace BootTree

variable {t : BootTables} {s : Mmu} {free : List Addr}

theorem listed (h : BootTree t s free) : s.built.freeListInitialized = true := by
  cases hs : s.freeListInitialized with
  | true => rw [Mmu.built_of_listed hs, hs]
  | false =>
    obtain ⟨m, head, heq, -⟩ := (h.first hs).built_eq
    rw [heq]

theorem built_pml4t (h : BootTree t s free) : s.built.pml4t = linear t.p4Table := by
  rw [Mmu.pml4t, Mmu.built_cr3 h.first, ← Mmu.pml4t, h.root]

/-- Building the list leaves the tables alone. -/
theorem built_words (h : BootTree t s free) : t.HasWords s.built.mem t.bootWord := by
  intro table ht j
  rw [← h.words table ht j]
  have hal := aligned_linear (t.aligned table ht)
  refine word_congr hal (fun x hx => Mmu.built_mem h.first h.list ?_) j
  rintro ⟨f, hf, hpage⟩
  rw [hx] at hpage
  exact h.apart f hf table ht ((h.aligned f hf).eq_of_pageOf_eq hal hpage)

/-- With its free list built, the boot state is well formed. -/
theorem tableInv (h : BootTree t s free) : TableInv s.built free := by
  have htab := BootTables.tableAt_bootWord h.built_words
  rw [← h.built_pml4t] at htab
  refine ⟨h.listed, h.list, h.nodup, h.aligned, fun p q u _ _ hp hq => ?_, fun f hf p _ hp => ?_⟩
  · rw [htab] at hp hq
    obtain ⟨table, htp, rfl⟩ := Option.map_eq_some_iff.1 hp
    obtain ⟨table', htq, heq⟩ := Option.map_eq_some_iff.1 hq
    obtain rfl := linear_injective heq
    exact BootTables.tableOf_injective htp htq
  · rw [htab] at hp
    obtain ⟨table, htp, rfl⟩ := Option.map_eq_some_iff.1 hp
    exact h.apart _ hf table (BootTables.tableOf_mem htp) rfl

theorem ready (h : BootTree t s free) : TableReady s free :=
  ⟨h.tableInv, h.first⟩

/-- A page without a boot table is no table. -/
theorem notTable (h : BootTree t s free) {f : Addr} (hf : ∀ table ∈ t.tables, f ≠ linear table) :
    NotTable s.built.mem s.built.pml4t f := by
  intro p _ hp
  rw [h.built_pml4t, BootTables.tableAt_bootWord h.built_words] at hp
  obtain ⟨table, htp, heq⟩ := Option.map_eq_some_iff.1 hp
  exact hf table (BootTables.tableOf_mem htp) heq.symm

end BootTree

/-! ## Outside the identity map -/

/-- `v` is not in the first GiB, by the 48 bits that a walk reads. -/
def OutsideIdentityMap (v : BitVec 64) : Prop :=
  2 ^ 30 ≤ v.toNat % 2 ^ 48

instance (v : BitVec 64) : Decidable (OutsideIdentityMap v) :=
  inferInstanceAs (Decidable (_ ≤ _))

theorem OutsideIdentityMap.pdPath_ne {v : BitVec 64} (h : OutsideIdentityMap v) :
    pdPath v ≠ [0, 0] := by
  intro hc
  simp only [pdPath, pdptPath, List.cons.injEq, and_true, ← BitVec.toNat_inj, BitVec.toNat_setWidth,
    BitVec.toNat_ushiftRight, Nat.shiftRight_eq_div_pow] at hc
  have hzero : (0 : Index).toNat = 0 := rfl
  unfold OutsideIdentityMap at h
  omega

/-- Outside the identity map a walk comes to no third table. -/
theorem OutsideIdentityMap.tableOf {t : BootTables} {v : BitVec 64} (h : OutsideIdentityMap v) :
    t.tableOf (pdPath v) = none := by
  have hne := h.pdPath_ne
  simp only [pdPath, pdptPath, ne_eq, List.cons.injEq, and_true] at hne
  rw [pdPath, pdptPath, BootTables.tableOf, if_neg fun hc => hne ⟨hc.2, hc.1⟩]

namespace BootTree

variable {t : BootTables} {s : Mmu} {free : List Addr} {v : BitVec 64}

/-- There is no last-level table outside the identity map. -/
theorem tableAt_tablePath (h : BootTree t s free) (hv : OutsideIdentityMap v) :
    tableAt s.mem s.pml4t (tablePath v) = none := by
  rw [h.root, BootTables.tableAt_bootWord h.words, tablePath,
    BootTables.tableOf_cons_of_none _ hv.tableOf, Option.map_none]

end BootTree

end KernelDev
