import KernelDev.HeapInvariant
import KernelDev.HugePages

/-!
# The map that page tables describe

What a tree of page tables says, apart from how it is walked. A path of at most three indices
reaches a table (`tableAt`) : a present entry links one, except for the huge entries of the second
and third level. A PML4 entry is never huge. `pathEntry` is the entry a path of at most four
indices ends at, zero where a table is missing. `virt_to_phys` depends on the entries of four paths
(`Mmu.virtToPhys_eq`), so what a store does to a translation is said by what it does to
`pathEntry`.

The tables are distinct frames, each linked once (`DistinctTables`). It follows that a store into a
table changes one entry of one path and no other. Two stores are looked at. One is to a word that
links no table, as the entry of a page (`SameWords.tableAt_leaf`, `SameWords.pathEntry_leaf`). The
other links a fresh cleared table at an entry that linked none : the tables are those of before and
the new one, and its entries are zero (`SameWords.tableAt_link`, `SameWords.pathEntry_link`).

The tree of the heap in `HeapInvariant` has the frames of its pages as well. Here pages have no
frames that matter, and an entry of a page may be anything; the two meet in the library of path
trees, of which this is an instance (`tableNext`).
-/

namespace KernelDev

open ByteMem PathTree

/-! ## Tables by their paths -/

/-- The table that entry `i` of a table at the given depth links. -/
def tableLink (m : Mem) (depth : ℕ) (t : Addr) (i : Index) : Option Addr :=
  if word m t i &&& ptePresent ≠ 0 ∧ (depth = 0 ∨ word m t i &&& pteHuge = 0) then
    some (word m t i &&& pageMask)
  else none

/-- The table that a path reaches from the root `r`. -/
def tableAt (m : Mem) (r : Addr) : List Index → Option Addr
  | [] => some r
  | i :: p => (tableAt m r p).bind (tableLink m p.length · i)

/-- The entry that a path ends at, zero where a table is missing. -/
def pathEntry (m : Mem) (r : Addr) : List Index → BitVec 64
  | [] => 0
  | i :: p => ((tableAt m r p).map (word m · i)).getD 0

/-- The tables are distinct frames, each linked once. -/
def DistinctTables (m : Mem) (r : Addr) : Prop :=
  ∀ p q t, p.length ≤ 3 → q.length ≤ 3 → tableAt m r p = some t → tableAt m r q = some t → p = q

/-- No page table is at `f`. -/
def NotTable (m : Mem) (r f : Addr) : Prop :=
  ∀ p, p.length ≤ 3 → tableAt m r p ≠ some f

section

variable {m m' : Mem} {r t : Addr} {i : Index} {p : List Index}

/-- The empty path reaches the root. -/
theorem tableAt_nil : tableAt m r [] = some r :=
  rfl

/-- A path goes on at the table that it has reached. -/
theorem tableAt_cons (h : tableAt m r p = some t) (i : Index) :
    tableAt m r (i :: p) = tableLink m p.length t i := by
  rw [tableAt, h, Option.bind_some]

theorem tableAt_cons_of_none (h : tableAt m r p = none) (i : Index) :
    tableAt m r (i :: p) = none := by
  rw [tableAt, h, Option.bind_none]

theorem pathEntry_cons (h : tableAt m r p = some t) (i : Index) :
    pathEntry m r (i :: p) = word m t i := by
  rw [pathEntry, h, Option.map_some, Option.getD_some]

theorem pathEntry_cons_of_none (h : tableAt m r p = none) (i : Index) :
    pathEntry m r (i :: p) = 0 := by
  rw [pathEntry, h, Option.map_none, Option.getD_none]

theorem tableLink_eq_none {depth : ℕ} (h : word m t i &&& ptePresent = 0) :
    tableLink m depth t i = none :=
  if_neg fun hc => hc.1 h

/-- A table is reached through the entry that links it. -/
theorem tableAt_cons_eq_some {u : Addr} (h : tableAt m r (i :: p) = some u) :
    pathEntry m r (i :: p) &&& ptePresent ≠ 0 ∧
      (p.length = 0 ∨ pathEntry m r (i :: p) &&& pteHuge = 0) ∧
      u = pathEntry m r (i :: p) &&& pageMask := by
  cases hp : tableAt m r p with
  | none =>
    rw [tableAt_cons_of_none hp] at h
    cases h
  | some t =>
    rw [tableAt_cons hp, tableLink] at h
    rw [pathEntry_cons hp]
    split_ifs at h with hlink
    exact ⟨hlink.1, hlink.2, (Option.some.inj h).symm⟩

/-- A present entry that is not huge links a table. -/
theorem tableAt_cons_of_present (hpres : pathEntry m r (i :: p) &&& ptePresent ≠ 0)
    (hhuge : p.length = 0 ∨ pathEntry m r (i :: p) &&& pteHuge = 0) :
    tableAt m r (i :: p) = some (pathEntry m r (i :: p) &&& pageMask) := by
  cases hp : tableAt m r p with
  | none =>
    rw [pathEntry_cons_of_none hp] at hpres
    exact absurd Mmu.zero_and_present hpres
  | some t =>
    rw [pathEntry_cons hp] at hpres hhuge ⊢
    rw [tableAt_cons hp, tableLink, if_pos ⟨hpres, hhuge⟩]

theorem tableAt_cons_of_absent (habsent : pathEntry m r (i :: p) &&& ptePresent = 0) :
    tableAt m r (i :: p) = none := by
  cases hp : tableAt m r (i :: p) with
  | none => rfl
  | some u => exact absurd habsent (tableAt_cons_eq_some hp).1

/-- The tables above a table. -/
theorem tableAt_of_cons {u : Addr} (h : tableAt m r (i :: p) = some u) :
    ∃ t, tableAt m r p = some t := by
  cases hp : tableAt m r p with
  | none =>
    rw [tableAt_cons_of_none hp] at h
    cases h
  | some t => exact ⟨t, rfl⟩

theorem tableAt_pdptPath {v : BitVec 64} (h : pathEntry m r (pdptPath v) &&& ptePresent ≠ 0) :
    tableAt m r (pdptPath v) = some (pathEntry m r (pdptPath v) &&& pageMask) :=
  tableAt_cons_of_present h (Or.inl rfl)

theorem tableAt_pdPath {v : BitVec 64} (h : pathEntry m r (pdPath v) &&& ptePresent ≠ 0)
    (hhuge : pathEntry m r (pdPath v) &&& pteHuge = 0) :
    tableAt m r (pdPath v) = some (pathEntry m r (pdPath v) &&& pageMask) :=
  tableAt_cons_of_present h (Or.inr hhuge)

theorem tableAt_tablePath {v : BitVec 64} (h : pathEntry m r (tablePath v) &&& ptePresent ≠ 0)
    (hhuge : pathEntry m r (tablePath v) &&& pteHuge = 0) :
    tableAt m r (tablePath v) = some (pathEntry m r (tablePath v) &&& pageMask) :=
  tableAt_cons_of_present h (Or.inr hhuge)

/-- Tables are at page addresses. -/
theorem aligned_tableAt (hr : Aligned r) : ∀ {p : List Index} {t : Addr}, tableAt m r p = some t →
    Aligned t
  | [], _, h => Option.some.inj h ▸ hr
  | _ :: _, _, h => by
    obtain ⟨-, -, rfl⟩ := tableAt_cons_eq_some h
    exact aligned_and_pageMask _

/-- Where no table is at `0`, no entry of a table is at the null address. -/
theorem NotTable.slot_ne_zero (h : NotTable m r 0) (hr : Aligned r) {v t : Addr}
    (ht : tableAt m r (tablePath v) = some t) (i : Index) : slot t i ≠ 0 := by
  have hne : t ≠ 0 := by
    rintro rfl
    exact h _ (by simp) ht
  exact ByteMem.slot_ne_zero (aligned_tableAt hr ht) hne i

/-- A root without a present entry links no table. -/
theorem tableAt_of_empty (h : ∀ i, word m r i &&& ptePresent = 0) :
    ∀ {p : List Index}, p ≠ [] → tableAt m r p = none
  | [], hne => absurd rfl hne
  | [i], _ => (tableAt_cons tableAt_nil i).trans (tableLink_eq_none (h i))
  | i :: j :: p, _ => tableAt_cons_of_none (tableAt_of_empty h (List.cons_ne_nil j p)) i

/-- The same words make the same tables. -/
theorem DistinctTables.congr {r' : Addr} (h : DistinctTables m r)
    (htab : ∀ q, q.length ≤ 3 → tableAt m' r' q = tableAt m r q) : DistinctTables m' r' :=
  fun p q t hp hq hpt hqt =>
    h p q t hp hq ((htab p hp).symm.trans hpt) ((htab q hq).symm.trans hqt)

theorem NotTable.congr {r' f : Addr} (h : NotTable m r f)
    (htab : ∀ q, q.length ≤ 3 → tableAt m' r' q = tableAt m r q) : NotTable m' r' f :=
  fun p hp hpt => h p hp ((htab p hp).symm.trans hpt)

/-- The store of nodes in the sense of `PathTree`, with the depth of each table. -/
def tableNext (m : Mem) (u : ℕ × Addr) (i : Index) : Option (ℕ × Addr) :=
  (tableLink m u.1 u.2 i).map (Prod.mk (u.1 + 1))

theorem walk_tableNext (m : Mem) (r : Addr) : ∀ p : List Index,
    walk (tableNext m) (0, r) p = (tableAt m r p).map (Prod.mk p.length)
  | [] => rfl
  | i :: p => by
    rw [walk_cons, walk_tableNext m r p]
    cases hp : tableAt m r p with
    | none => rw [tableAt_cons_of_none hp]; rfl
    | some t => rw [tableAt_cons hp]; rfl

theorem walk_tableNext_eq_some {u : ℕ × Addr} : walk (tableNext m) (0, r) p = some u ↔
    tableAt m r p = some u.2 ∧ u.1 = p.length := by
  rw [walk_tableNext, Option.map_eq_some_iff]
  constructor
  · rintro ⟨t, ht, rfl⟩
    exact ⟨ht, rfl⟩
  · rintro ⟨ht, hlen⟩
    exact ⟨u.2, ht, by rw [← hlen]⟩

/-- The paths to tables. -/
def shortPaths : Set (List Index) :=
  {p | p.length ≤ 3}

/-- The paths above a short path are short. -/
theorem parentClosed_shortPaths : ParentClosed shortPaths := fun _ _ h => Nat.le_of_succ_le h

/-- Distinct tables are reached by one path each. -/
theorem DistinctTables.uniquePaths (h : DistinctTables m r) :
    UniquePaths (tableNext m) (0, r) shortPaths := by
  intro p hp q hq u hpu hqu
  exact h p q u.2 hp hq (walk_tableNext_eq_some.1 hpu).1 (walk_tableNext_eq_some.1 hqu).1

end

/-! ## Changing one entry -/

section

variable {m m' : Mem} {r t f : Addr} {i : Index} {p : List Index}

/-- The words of the tables are the same in `m'`, but for one. -/
def SameWords (m m' : Mem) (r t : Addr) (i : Index) : Prop :=
  ∀ q u j, q.length ≤ 3 → tableAt m r q = some u → ¬(u = t ∧ j = i) → word m' u j = word m u j

/-- Tables whose links are the same are reached by the same paths. -/
theorem tableAt_congr (h : ∀ q u j, q.length ≤ 2 → tableAt m r q = some u →
    tableLink m' q.length u j = tableLink m q.length u j) :
    ∀ {q : List Index}, q.length ≤ 3 → tableAt m' r q = tableAt m r q
  | [], _ => rfl
  | j :: q, hq => by
    have hq' : q.length ≤ 2 := Nat.le_of_succ_le_succ hq
    rw [tableAt, tableAt, tableAt_congr h (Nat.le_succ_of_le hq')]
    cases hu : tableAt m r q with
    | none => rw [Option.bind_none, Option.bind_none]
    | some u =>
      rw [Option.bind_some, Option.bind_some]
      exact h q u j hq' hu

/-- The words of the tables are the same in `m'`. -/
def KeepsEntries (m m' : Mem) (r : Addr) : Prop :=
  ∀ q u j, q.length ≤ 3 → tableAt m r q = some u → word m' u j = word m u j

theorem KeepsEntries.tableAt (h : KeepsEntries m m' r) {q : List Index} (hq : q.length ≤ 3) :
    tableAt m' r q = tableAt m r q :=
  tableAt_congr (fun p u j hp hu => by
    rw [tableLink, tableLink, h p u j (Nat.le_succ_of_le hp) hu]) hq

theorem KeepsEntries.pathEntry (h : KeepsEntries m m' r) : ∀ {q : List Index}, q.length ≤ 4 →
    pathEntry m' r q = pathEntry m r q
  | [], _ => rfl
  | j :: q, hq => by
    have hq' : q.length ≤ 3 := Nat.le_of_succ_le_succ hq
    have htab := h.tableAt hq'
    cases hu : KernelDev.tableAt m r q with
    | none => rw [pathEntry_cons_of_none (htab.trans hu), pathEntry_cons_of_none hu]
    | some u => rw [pathEntry_cons (htab.trans hu), pathEntry_cons hu, h q u j hq' hu]

theorem KeepsEntries.symm (h : KeepsEntries m m' r) : KeepsEntries m' m r := fun q u j hq hu =>
  (h q u j hq ((h.tableAt hq).symm.trans hu)).symm

/-- A word that is no link of a table changes. -/
theorem SameWords.tableAt_leaf (hd : DistinctTables m r) (hw : SameWords m m' r t i)
    (hp : p.length = 3) (ht : tableAt m r p = some t) {q : List Index} (hq : q.length ≤ 3) :
    tableAt m' r q = tableAt m r q := by
  refine tableAt_congr (fun q u j hq hu => ?_) hq
  have hne : ¬(u = t ∧ j = i) := by
    rintro ⟨rfl, -⟩
    have hsame := hd q p u (Nat.le_succ_of_le hq) (Nat.le_of_eq hp) hu ht
    rw [hsame] at hq
    omega
  rw [tableLink, tableLink, hw q u j (Nat.le_succ_of_le hq) hu hne]

/-- A fresh cleared table `f` is linked at an entry that linked none. -/
theorem SameWords.tableAt_link (hd : DistinctTables m r) (hw : SameWords m m' r t i)
    (hp : p.length ≤ 2) (ht : tableAt m r p = some t) (hold : tableLink m p.length t i = none)
    (hlink : tableLink m' p.length t i = some f) (hzero : ∀ j, word m' f j = 0) {q : List Index}
    (hq : q.length ≤ 3) : tableAt m' r q = if q = i :: p then some f else tableAt m r q := by
  have hwalk : walk (tableNext m') (0, r) q =
      if q = i :: p then some (p.length + 1, f) else walk (tableNext m) (0, r) q := by
    refine walk_set parentClosed_shortPaths hd.uniquePaths (Nat.succ_le_succ hp)
      ((walk_tableNext_eq_some (u := (p.length, t))).2 ⟨ht, rfl⟩) ?_ ?_ ?_ ?_ q hq
    · rintro q ⟨d, u⟩ j hq hu hne
      obtain ⟨hu, rfl⟩ := walk_tableNext_eq_some.1 hu
      have hq' : q.length ≤ 3 := parentClosed_shortPaths j q hq
      have hne' : ¬(u = t ∧ j = i) := by
        rintro ⟨rfl, rfl⟩
        exact hne ⟨by rw [hd q p u hq' (by omega) hu ht], rfl⟩
      simp only [tableNext, tableLink, hw q u j hq' hu hne']
    · rw [tableNext, hlink]
      rfl
    · intro j _
      rw [walk_tableNext, tableAt_cons_of_none ((tableAt_cons ht i).trans hold)]
      rfl
    · rintro j u - hu
      obtain rfl := Option.some.inj hu
      rw [tableNext, tableLink_eq_none (by rw [hzero]; rfl)]
      rfl
  rw [walk_tableNext, walk_tableNext] at hwalk
  split_ifs at hwalk ⊢ with hpath
  · obtain ⟨u, hu, heq⟩ := Option.map_eq_some_iff.1 hwalk
    rw [hu, (Prod.mk.inj heq).2]
  · cases hq' : tableAt m' r q with
    | none =>
      rw [hq', Option.map_none] at hwalk
      exact (Option.map_eq_none_iff.1 hwalk.symm).symm
    | some u =>
      rw [hq', Option.map_some] at hwalk
      obtain ⟨u', hu', heq⟩ := Option.map_eq_some_iff.1 hwalk.symm
      rw [hu', (Prod.mk.inj heq).2]

/-- The entries of a table that is still where it was. -/
theorem SameWords.pathEntry_cons (hd : DistinctTables m r) (hw : SameWords m m' r t i)
    (hp : p.length ≤ 3) (ht : tableAt m r p = some t) {q : List Index} (hq : q.length ≤ 3)
    (htab : tableAt m' r q = tableAt m r q) (j : Index) :
    pathEntry m' r (j :: q) = if j :: q = i :: p then word m' t i else pathEntry m r (j :: q) := by
  cases hu : tableAt m r q with
  | none =>
    rw [pathEntry_cons_of_none (htab.trans hu), pathEntry_cons_of_none hu, if_neg]
    rintro h
    obtain ⟨rfl, rfl⟩ := List.cons.inj h
    rw [hu] at ht
    cases ht
  | some u =>
    rw [KernelDev.pathEntry_cons (htab.trans hu), KernelDev.pathEntry_cons hu]
    split_ifs with hpath
    · obtain ⟨rfl, rfl⟩ := List.cons.inj hpath
      rw [hu, Option.some.injEq] at ht
      rw [ht]
    · refine hw q u j hq hu ?_
      rintro ⟨rfl, rfl⟩
      exact hpath (by rw [hd q p u hq hp hu ht])

/-- The entries after the entry of a page changed. -/
theorem SameWords.pathEntry_leaf (hd : DistinctTables m r) (hw : SameWords m m' r t i)
    (hp : p.length = 3) (ht : tableAt m r p = some t) : ∀ {q : List Index}, q.length ≤ 4 →
    pathEntry m' r q = if q = i :: p then word m' t i else pathEntry m r q
  | [], _ => rfl
  | j :: _, hq =>
    have hq' := Nat.le_of_succ_le_succ hq
    hw.pathEntry_cons hd (Nat.le_of_eq hp) ht hq' (hw.tableAt_leaf hd hp ht hq') j

/-- The entries after a fresh cleared table was linked. -/
theorem SameWords.pathEntry_link (hd : DistinctTables m r) (hw : SameWords m m' r t i)
    (hp : p.length ≤ 2) (ht : tableAt m r p = some t) (hold : tableLink m p.length t i = none)
    (hlink : tableLink m' p.length t i = some f) (hzero : ∀ j, word m' f j = 0) :
    ∀ {q : List Index}, q.length ≤ 4 →
      pathEntry m' r q = if q = i :: p then word m' t i else pathEntry m r q
  | [], _ => rfl
  | j :: q, hq => by
    have hq' : q.length ≤ 3 := Nat.le_of_succ_le_succ hq
    have htab := hw.tableAt_link hd hp ht hold hlink hzero hq'
    by_cases hbelow : q = i :: p
    · -- the entries of the new table
      rw [if_pos hbelow] at htab
      have hne : j :: q ≠ i :: p := fun h => by
        have hlen := congrArg List.length h
        rw [hbelow] at hlen
        simp at hlen
      have hnone : tableAt m r q = none := by
        rw [hbelow, tableAt_cons ht, hold]
      rw [KernelDev.pathEntry_cons htab, hzero, if_neg hne, pathEntry_cons_of_none hnone]
    · rw [if_neg hbelow] at htab
      exact hw.pathEntry_cons hd (Nat.le_succ_of_le hp) ht hq' htab j

end

/-! ## `virt_to_phys` by the entries of a path -/

/-- The physical address of `v` by the entries of its four paths, if they are present. -/
def translate (entry : List Index → BitVec 64) (v : BitVec 64) : Option (BitVec 64) :=
  if entry (pdptPath v) &&& ptePresent = 0 then none
  else if entry (pdPath v) &&& ptePresent = 0 then none
  else if entry (pdPath v) &&& pteHuge ≠ 0 then
    some ((entry (pdPath v) &&& 0xffffffc0000000) + (v &&& 0x3fffffff))
  else if entry (tablePath v) &&& ptePresent = 0 then none
  else if entry (tablePath v) &&& pteHuge ≠ 0 then
    some ((entry (tablePath v) &&& 0xfffffffe00000) + (v &&& 0x1fffff))
  else if entry (pathOf v) &&& ptePresent = 0 then none
  else some ((entry (pathOf v) &&& pageMask) + pageOffset v)

section

variable {entry entry' : List Index → BitVec 64} {v : BitVec 64}

/-- A translation depends on four entries. -/
theorem translate_congr (h4 : entry' (pdptPath v) = entry (pdptPath v))
    (h3 : entry' (pdPath v) = entry (pdPath v)) (h2 : entry' (tablePath v) = entry (tablePath v))
    (h1 : entry' (pathOf v) = entry (pathOf v)) : translate entry' v = translate entry v := by
  rw [translate, translate, h4, h3, h2, h1]

/-- The entries above a last-level table. -/
theorem walk_of_tableAt {m : Mem} {r pt : Addr} (h : tableAt m r (tablePath v) = some pt) :
    pathEntry m r (pdptPath v) &&& ptePresent ≠ 0 ∧
      (pathEntry m r (pdPath v) &&& ptePresent ≠ 0 ∧ pathEntry m r (pdPath v) &&& pteHuge = 0) ∧
      pathEntry m r (tablePath v) &&& ptePresent ≠ 0 ∧
      pathEntry m r (tablePath v) &&& pteHuge = 0 := by
  obtain ⟨pd, hpd⟩ := tableAt_of_cons h
  obtain ⟨pdpt, hpdpt⟩ := tableAt_of_cons hpd
  obtain ⟨h3, hhuge3, -⟩ := tableAt_cons_eq_some hpd
  obtain ⟨h2, hhuge2, -⟩ := tableAt_cons_eq_some h
  exact ⟨(tableAt_cons_eq_some hpdpt).1, ⟨h3, hhuge3.resolve_left (by simp)⟩, h2,
    hhuge2.resolve_left (by simp)⟩

/-- The translation of an address with a last-level table. -/
theorem translate_of_tableAt {m : Mem} {r pt : Addr} (h : tableAt m r (tablePath v) = some pt) :
    translate (pathEntry m r) v =
      if pathEntry m r (pathOf v) &&& ptePresent = 0 then none
      else some ((pathEntry m r (pathOf v) &&& pageMask) + pageOffset v) := by
  obtain ⟨h4, ⟨h3, hhuge3⟩, h2, hhuge2⟩ := walk_of_tableAt h
  rw [translate, if_neg h4, if_neg h3, if_neg (not_not.2 hhuge3), if_neg h2,
    if_neg (not_not.2 hhuge2)]

/-- An entry that was missing, with none below it, may come to link a table. -/
theorem translate_link {a : List Index} (hlen : a.length ≤ 3)
    (heq : ∀ q, q.length ≤ 4 → q ≠ a → entry' q = entry q) (hold : entry a &&& ptePresent = 0)
    (hhuge : entry' a &&& pteHuge = 0) (hbelow : ∀ j, entry (j :: a) &&& ptePresent = 0)
    (v : BitVec 64) : translate entry' v = translate entry v := by
  have h1 : entry' (pathOf v) = entry (pathOf v) := by
    refine heq _ (Nat.le_refl _) fun h => ?_
    rw [← h, length_pathOf] at hlen
    omega
  by_cases h4 : a = pdptPath v
  · subst h4
    have hnext : entry' (pdPath v) &&& ptePresent = 0 := by
      rw [heq _ (by simp) (pdptPath_ne_pdPath v v).symm]
      exact hbelow _
    have hnone' : translate entry' v = none := by rw [translate, if_pos hnext, ite_self]
    rw [hnone', translate, if_pos hold]
  by_cases h3 : a = pdPath v
  · subst h3
    have hnext : entry' (tablePath v) &&& ptePresent = 0 := by
      rw [heq _ (by simp) (pdPath_ne_tablePath v v).symm]
      exact hbelow _
    have hnone' : translate entry' v = none := by
      rw [translate, if_neg (not_not.2 hhuge), if_pos hnext, ite_self, ite_self]
    rw [hnone', translate, if_pos hold, ite_self]
  by_cases h2 : a = tablePath v
  · subst h2
    have hnext : entry' (pathOf v) &&& ptePresent = 0 := by
      rw [h1]
      exact hbelow _
    have h4' := heq _ (by simp) (Ne.symm h4)
    have h3' := heq _ (by simp) (Ne.symm h3)
    rw [translate, translate, h4', h3', if_neg (not_not.2 hhuge), if_pos hnext, if_pos hold,
      ite_self]
  · exact translate_congr (heq _ (by simp) (Ne.symm h4))
      (heq _ (by simp) (Ne.symm h3)) (heq _ (by simp) (Ne.symm h2)) h1

end

namespace Mmu

/-- The two states translate `v` to one physical address, or neither maps it. -/
def SameTranslation (s s' : Mmu) (v : BitVec 64) : Prop :=
  (∃ pa, s.virtToPhys v = (s, pa) ∧ s'.virtToPhys v = (s', pa)) ∨ s.NotMapped v ∧ s'.NotMapped v

/-- The translation of `v` that the page tables hold. -/
def translation (s : Mmu) (v : BitVec 64) : Option (BitVec 64) :=
  translate (pathEntry s.mem s.pml4t) v

variable {s : Mmu} {v : BitVec 64}

theorem pml4Entry_eq (s : Mmu) (v : BitVec 64) :
    s.pml4Entry v = pathEntry s.mem s.pml4t (pdptPath v) := by
  rw [pml4Entry, getPageIndices, entryAt_eq_slot, read64_slot, pdptPath, pathEntry_cons tableAt_nil]

theorem pdptEntry_eq (h4 : s.pml4Entry v &&& ptePresent ≠ 0) :
    s.pdptEntry v = pathEntry s.mem s.pml4t (pdPath v) := by
  rw [pml4Entry_eq] at h4
  rw [pdptEntry, getPageIndices, entryAt_eq_slot, read64_slot, pml4Entry_eq, pdPath,
    pathEntry_cons (tableAt_pdptPath h4)]

theorem pdEntry_eq (h4 : s.pml4Entry v &&& ptePresent ≠ 0) (h3 : s.pdptEntry v &&& ptePresent ≠ 0)
    (hhuge : s.pdptEntry v &&& pteHuge = 0) :
    s.pdEntry v = pathEntry s.mem s.pml4t (tablePath v) := by
  rw [pdptEntry_eq h4] at h3 hhuge
  rw [pdEntry, getPageIndices, entryAt_eq_slot, read64_slot, pdptEntry_eq h4, tablePath,
    pathEntry_cons (tableAt_pdPath h3 hhuge)]

theorem ptEntry_eq (h4 : s.pml4Entry v &&& ptePresent ≠ 0) (h3 : s.pdptEntry v &&& ptePresent ≠ 0)
    (hhuge3 : s.pdptEntry v &&& pteHuge = 0) (h2 : s.pdEntry v &&& ptePresent ≠ 0)
    (hhuge2 : s.pdEntry v &&& pteHuge = 0) :
    s.ptEntry v = pathEntry s.mem s.pml4t (pathOf v) := by
  rw [pdEntry_eq h4 h3 hhuge3] at h2 hhuge2
  rw [ptEntry, getPageIndices, entryAt_eq_slot, read64_slot, pdEntry_eq h4 h3 hhuge3, pathOf,
    pathEntry_cons (tableAt_tablePath h2 hhuge2), ptIndex]

/-- The entries on the walk of an address with a last-level table. -/
theorem entries_of_tableAt {pt : Addr} (h : tableAt s.mem s.pml4t (tablePath v) = some pt) :
    s.pml4Entry v = pathEntry s.mem s.pml4t (pdptPath v) ∧
      s.pdptEntry v = pathEntry s.mem s.pml4t (pdPath v) ∧
      s.pdEntry v = pathEntry s.mem s.pml4t (tablePath v) ∧
      s.ptEntry v = pathEntry s.mem s.pml4t (pathOf v) := by
  obtain ⟨h4, ⟨h3, hhuge3⟩, h2, hhuge2⟩ := walk_of_tableAt h
  rw [← pml4Entry_eq] at h4
  have e3 := pdptEntry_eq h4
  rw [← e3] at h3 hhuge3
  have e2 := pdEntry_eq h4 h3 hhuge3
  rw [← e2] at h2 hhuge2
  exact ⟨pml4Entry_eq s v, e3, e2, ptEntry_eq h4 h3 hhuge3 h2 hhuge2⟩

/-- `virt_to_phys` finds the translation, or reports that there is none. -/
theorem virtToPhys_eq (s : Mmu) (v : BitVec 64) :
    (∃ pa, s.translation v = some pa ∧ s.virtToPhys v = (s, pa)) ∨
      s.translation v = none ∧ s.NotMapped v := by
  rw [NotMapped, notPresent, virtToPhys_entries, translation, translate, ← pml4Entry_eq]
  by_cases h4 : s.pml4Entry v &&& ptePresent = 0
  · rw [if_pos h4, if_pos h4]
    exact Or.inr ⟨rfl, _, by simp, rfl⟩
  rw [if_neg h4, if_neg h4, ← pdptEntry_eq h4]
  by_cases h3 : s.pdptEntry v &&& ptePresent = 0
  · rw [if_pos h3, if_pos h3]
    exact Or.inr ⟨rfl, _, by simp, rfl⟩
  rw [if_neg h3, if_neg h3]
  by_cases hhuge3 : s.pdptEntry v &&& pteHuge = 0
  swap
  · rw [if_pos hhuge3, if_pos hhuge3]
    exact Or.inl ⟨_, rfl, rfl⟩
  rw [if_neg (not_not.2 hhuge3), if_neg (not_not.2 hhuge3), ← pdEntry_eq h4 h3 hhuge3]
  by_cases h2 : s.pdEntry v &&& ptePresent = 0
  · rw [if_pos h2, if_pos h2]
    exact Or.inr ⟨rfl, _, by simp, rfl⟩
  rw [if_neg h2, if_neg h2]
  by_cases hhuge2 : s.pdEntry v &&& pteHuge = 0
  swap
  · rw [if_pos hhuge2, if_pos hhuge2]
    exact Or.inl ⟨_, rfl, rfl⟩
  rw [if_neg (not_not.2 hhuge2), if_neg (not_not.2 hhuge2), ← ptEntry_eq h4 h3 hhuge3 h2 hhuge2]
  by_cases h1 : s.ptEntry v &&& ptePresent = 0
  · rw [if_pos h1, if_pos h1]
    exact Or.inr ⟨rfl, _, by simp, rfl⟩
  · rw [if_neg h1, if_neg h1]
    exact Or.inl ⟨_, rfl, rfl⟩

theorem virtToPhys_of_translation {pa : BitVec 64} (h : s.translation v = some pa) :
    s.virtToPhys v = (s, pa) := by
  rcases s.virtToPhys_eq v with ⟨pa', hpa', heq⟩ | ⟨hnone, -⟩
  · rw [heq, Option.some.inj (hpa'.symm.trans h)]
  · rw [hnone] at h
    cases h

theorem sameTranslation_of_eq {s' : Mmu} (h : s'.translation v = s.translation v) :
    s.SameTranslation s' v := by
  rcases s.virtToPhys_eq v with ⟨pa, hpa, heq⟩ | ⟨hnone, hnot⟩
  · exact Or.inl ⟨pa, heq, virtToPhys_of_translation (h.trans hpa)⟩
  · rcases s'.virtToPhys_eq v with ⟨pa, hpa, -⟩ | ⟨-, hnot'⟩
    · rw [h, hnone] at hpa
      cases hpa
    · exact Or.inr ⟨hnot, hnot'⟩

end Mmu

end KernelDev
