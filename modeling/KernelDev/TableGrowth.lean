import KernelDev.HeapTables
import KernelDev.TableMap

/-!
# Growing any page-table tree

`HeapInv` is about the heap; `TableInv` is what every caller of `get_pte` keeps : the tables are
distinct frames and no free frame is one. `Grows` says what `get_pte` does to such a tree when it
links frames as tables, in any number and whether or not it succeeds : the tables and the entries
of the pages are kept, and so is every translation, and the frames taken are the first ones of the
free list.

How many frames it takes is known before. A page lacks three tables at most (`missingTables`), and
below one that is missing all are. Each level that is missing takes one frame, or there is none
left and the walk ends (`nextTable_grow`). So `get_pte` succeeds exactly if there are enough free
frames (`getPte_ne_zero_iff`), as long as no table is at the address `0`, where an entry would be
taken for a failure.

`getPte_grow` is the specification with creation, `getPte_find` the one without. `entrySlot` is the
entry that both find. The stores of the callers come behind : to the entry of a page, which changes
no table (`TableInv.store`), and into a frame that is given back (`TableInv.mmuPfFree`).
-/

namespace KernelDev

open ByteMem PathTree

/-- The page tables are distinct frames, the free frames are distinct pages, and none of them
is a page table. -/
structure TableInv (s : Mmu) (free : List Addr) : Prop where
  listed : s.freeListInitialized = true
  list : s.FreeList free
  nodup : free.Nodup
  aligned : ∀ f ∈ free, Aligned f
  distinct : DistinctTables s.mem s.pml4t
  /-- No free frame is a table. -/
  apart : ∀ f ∈ free, NotTable s.mem s.pml4t f

theorem TableInv.printk {s : Mmu} {free : List Addr} (h : TableInv s free) (fmt : String)
    (args : List PrintkArg) : TableInv (s.printk fmt args) free :=
  { h with }

theorem TableInv.invlpg {s : Mmu} {free : List Addr} (h : TableInv s free) (a : Addr) :
    TableInv (s.invlpg a) free :=
  { h with }

/-- The walk of `v` meets no huge entry. -/
def NoHuge (m : Mem) (r : Addr) (v : BitVec 64) : Prop :=
  ∀ q, q = pdPath v ∨ q = tablePath v → pathEntry m r q &&& ptePresent ≠ 0 →
    pathEntry m r q &&& pteHuge = 0

/-- `s'` is `s` with some free frames linked as tables. -/
structure Grows (s : Mmu) (free : List Addr) (s' : Mmu) (free' : List Addr) : Prop where
  inv : TableInv s' free'
  /-- The first frames of the list are taken. -/
  suffix : free' <:+ free
  cr3 : s'.cr3 = s.cr3
  brk : s'.kernelBrk = s.kernelBrk
  tables : ∀ p t, p.length ≤ 3 → tableAt s.mem s.pml4t p = some t →
    tableAt s'.mem s.pml4t p = some t
  entries : ∀ q, q.length ≤ 4 → pathEntry s'.mem s.pml4t q = pathEntry s.mem s.pml4t q ∨
    q.length ≤ 3 ∧ pathEntry s.mem s.pml4t q &&& ptePresent = 0 ∧
      ∃ f ∈ free, pathEntry s'.mem s.pml4t q = mappedEntry f
  /-- No translation changes. -/
  translations : ∀ u, translate (pathEntry s'.mem s.pml4t) u = translate (pathEntry s.mem s.pml4t) u

namespace Grows

variable {s s₁ s₂ : Mmu} {free free₁ free₂ : List Addr}

theorem pml4t (h : Grows s free s₁ free₁) : s₁.pml4t = s.pml4t := by
  rw [Mmu.pml4t, Mmu.pml4t, h.cr3]

theorem refl (h : TableInv s free) : Grows s free s free :=
  ⟨h, List.suffix_refl _, rfl, rfl, fun _ _ _ ht => ht, fun _ _ => Or.inl rfl, fun _ => rfl⟩

theorem printk (h : Grows s free s₁ free₁) (fmt : String) (args : List PrintkArg) :
    Grows s free (s₁.printk fmt args) free₁ :=
  ⟨h.inv.printk fmt args, h.suffix, h.cr3, h.brk, h.tables, h.entries, h.translations⟩

theorem trans (h : Grows s free s₁ free₁) (h' : Grows s₁ free₁ s₂ free₂) :
    Grows s free s₂ free₂ := by
  have htables := h'.tables
  have hentries := h'.entries
  have htrans := h'.translations
  rw [h.pml4t] at htables hentries htrans
  refine ⟨h'.inv, h'.suffix.trans h.suffix, h'.cr3.trans h.cr3, h'.brk.trans h.brk,
    fun p t hp ht => htables p t hp (h.tables p t hp ht), fun q hq => ?_,
    fun u => (htrans u).trans (h.translations u)⟩
  rcases hentries q hq with heq' | ⟨hlen, habsent, f, hf, heq'⟩
  · rw [heq']
    exact h.entries q hq
  · rcases h.entries q hq with heq | ⟨-, -, g, -, heq⟩
    · exact Or.inr ⟨hlen, heq ▸ habsent, f, h.suffix.subset hf, heq'⟩
    · rw [heq] at habsent
      exact absurd habsent (mappedEntry_present g)

/-- The entries of the pages are kept. -/
theorem leaf (h : Grows s free s₁ free₁) (u : BitVec 64) :
    pathEntry s₁.mem s.pml4t (pathOf u) = pathEntry s.mem s.pml4t (pathOf u) := by
  rcases h.entries (pathOf u) (Nat.le_refl _) with heq | ⟨hlen, -⟩
  · exact heq
  · exact absurd hlen (by simp)

/-- The tables are those that were there and some that were free. -/
theorem table_cases (h : Grows s free s₁ free₁) (hfree : TableInv s free) {t : Addr} :
    ∀ {p : List Index}, p.length ≤ 3 → tableAt s₁.mem s.pml4t p = some t →
      tableAt s.mem s.pml4t p = some t ∨ t ∈ free
  | [], _, ht => Or.inl ht
  | i :: p, hp, ht => by
    obtain ⟨hpres, hhuge, rfl⟩ := tableAt_cons_eq_some ht
    rcases h.entries (i :: p) (Nat.le_succ_of_le hp) with heq | ⟨-, -, f, hf, heq⟩
    · rw [heq] at hpres hhuge ⊢
      exact Or.inl (tableAt_cons_of_present hpres hhuge)
    · rw [heq, mappedEntry_pageMask (hfree.aligned f hf)]
      exact Or.inr hf

/-- A page that is neither a table nor free is no table afterwards. -/
theorem notTable (h : Grows s free s₁ free₁) (hfree : TableInv s free) {f : Addr} (hf : f ∉ free)
    (hnot : NotTable s.mem s.pml4t f) : NotTable s₁.mem s₁.pml4t f := by
  intro p hp ht
  rw [h.pml4t] at ht
  rcases h.table_cases hfree hp ht with ht | hmem
  · exact hnot p hp ht
  · exact hf hmem

/-- The new entries are not huge. -/
theorem noHuge (h : Grows s free s₁ free₁) (hfree : TableInv s free) {v : BitVec 64}
    (hv : NoHuge s.mem s.pml4t v) : NoHuge s₁.mem s.pml4t v := by
  intro q hq hpres
  have hlen : q.length ≤ 4 := by
    rcases hq with rfl | rfl
    · simp
    · simp
  rcases h.entries q hlen with heq | ⟨-, -, f, hf, heq⟩
  · rw [heq] at hpres ⊢
    exact hv q hq hpres
  · rw [heq]
    exact mappedEntry_huge (hfree.aligned f hf)

end Grows

/-! ## Linking a fresh frame -/

section

variable {s : Mmu} {f t : Addr} {l : List Addr} {i : Index} {p : List Index}

/-- A frame is linked by one word. -/
theorem sameWords_linkFrame (h : TableInv s (f :: l)) (ht : tableAt s.mem s.pml4t p = some t) :
    SameWords s.mem (linkFrame s f (slot t i)).mem s.pml4t t i := by
  intro q u j hq hu hne
  have hroot := aligned_pml4t s
  have huf : u ≠ f := by
    rintro rfl
    exact h.apart u (by simp) q hq hu
  rw [word_linkFrame (h.aligned f (by simp)) (aligned_tableAt hroot ht) (aligned_tableAt hroot hu),
    if_neg hne, if_neg huf]

/-- The entries of the new table are zero. -/
theorem TableInv.word_fresh (h : TableInv s (f :: l)) (hp : p.length ≤ 3)
    (ht : tableAt s.mem s.pml4t p = some t) (j : Index) :
    word (linkFrame s f (slot t i)).mem f j = 0 := by
  have hf := h.aligned f (by simp)
  have hft : f ≠ t := by
    rintro rfl
    exact h.apart f (by simp) p hp ht
  rw [word_linkFrame hf (aligned_tableAt (aligned_pml4t s) ht) hf, if_neg fun hc => hft hc.1,
    if_pos rfl]

theorem TableInv.word_link (h : TableInv s (f :: l)) (ht : tableAt s.mem s.pml4t p = some t) :
    word (linkFrame s f (slot t i)).mem t i = mappedEntry f := by
  have hal := aligned_tableAt (aligned_pml4t s) ht
  rw [word_linkFrame (h.aligned f (by simp)) hal hal, if_pos ⟨rfl, rfl⟩]

/-- The new entry links the frame. -/
theorem tableLink_mapped {m : Mem} {depth : ℕ} (hf : Aligned f) (h : word m t i = mappedEntry f) :
    tableLink m depth t i = some f := by
  rw [tableLink, h, if_pos ⟨mappedEntry_present f, Or.inr (mappedEntry_huge hf)⟩,
    mappedEntry_pageMask hf]

/-- The tables after a frame is linked at a missing entry. -/
theorem tableAt_linkFrame (h : TableInv s (f :: l)) (hp : p.length ≤ 2)
    (ht : tableAt s.mem s.pml4t p = some t) (habsent : word s.mem t i &&& ptePresent = 0)
    {q : List Index} (hq : q.length ≤ 3) :
    tableAt (linkFrame s f (slot t i)).mem s.pml4t q =
      if q = i :: p then some f else tableAt s.mem s.pml4t q :=
  (sameWords_linkFrame h ht).tableAt_link h.distinct hp ht (tableLink_eq_none habsent)
    (tableLink_mapped (h.aligned f (by simp)) (h.word_link ht))
    (h.word_fresh (Nat.le_succ_of_le hp) ht) hq

/-- The entries after a frame is linked at a missing entry. -/
theorem pathEntry_linkFrame (h : TableInv s (f :: l)) (hp : p.length ≤ 2)
    (ht : tableAt s.mem s.pml4t p = some t) (habsent : word s.mem t i &&& ptePresent = 0)
    {q : List Index} (hq : q.length ≤ 4) :
    pathEntry (linkFrame s f (slot t i)).mem s.pml4t q =
      if q = i :: p then mappedEntry f else pathEntry s.mem s.pml4t q := by
  rw [← h.word_link (i := i) ht]
  exact (sameWords_linkFrame h ht).pathEntry_link h.distinct hp ht (tableLink_eq_none habsent)
    (tableLink_mapped (h.aligned f (by simp)) (h.word_link ht))
    (h.word_fresh (Nat.le_succ_of_le hp) ht) hq

/-- The linked frame is a new table, the other free frames are still free. -/
theorem tableInv_linkFrame (h : TableInv s (f :: l)) (hp : p.length ≤ 2)
    (ht : tableAt s.mem s.pml4t p = some t) (habsent : word s.mem t i &&& ptePresent = 0) :
    TableInv (linkFrame s f (slot t i)) l := by
  have htable := fun q => tableAt_linkFrame h hp ht habsent (q := q)
  have hapart : ∀ q, q.length ≤ 3 → tableAt s.mem s.pml4t q ≠ some f := h.apart f (by simp)
  refine ⟨by simpa using h.listed, ?_, (List.nodup_cons.1 h.nodup).2,
    fun g hg => h.aligned g (List.mem_cons_of_mem f hg), ?_, fun g hg q hq hqg => ?_⟩
  · exact h.list.linkFrame h.aligned h.nodup (aligned_tableAt (aligned_pml4t s) ht) fun htl =>
      h.apart t (List.mem_cons_of_mem f htl) p (Nat.le_succ_of_le hp) ht
  · intro q q' u hq hq' hu hu'
    rw [linkFrame_pml4t, htable _ hq] at hu
    rw [linkFrame_pml4t, htable _ hq'] at hu'
    split_ifs at hu hu' with h1 h2 h2
    · rw [h1, h2]
    · exact absurd (hu'.trans hu.symm) (hapart q' hq')
    · exact absurd (hu.trans hu'.symm) (hapart q hq)
    · exact h.distinct q q' u hq hq' hu hu'
  · rw [linkFrame_pml4t, htable q hq] at hqg
    split_ifs at hqg
    · obtain rfl := Option.some.inj hqg
      exact (List.nodup_cons.1 h.nodup).1 hg
    · exact h.apart g (List.mem_cons_of_mem f hg) q hq hqg

/-- Linking a frame as a table of a missing entry. -/
theorem grows_linkFrame (h : TableInv s (f :: l)) (hp : p.length ≤ 2)
    (ht : tableAt s.mem s.pml4t p = some t) (habsent : word s.mem t i &&& ptePresent = 0) :
    Grows s (f :: l) (linkFrame s f (slot t i)) l := by
  have hnone : tableAt s.mem s.pml4t (i :: p) = none :=
    (tableAt_cons ht i).trans (tableLink_eq_none habsent)
  have hentry := fun q => pathEntry_linkFrame h hp ht habsent (q := q)
  have hold : pathEntry s.mem s.pml4t (i :: p) &&& ptePresent = 0 := by
    rw [pathEntry_cons ht]
    exact habsent
  have hlen : (i :: p).length ≤ 3 := Nat.succ_le_succ hp
  refine ⟨tableInv_linkFrame h hp ht habsent, List.suffix_cons f l, linkFrame_cr3 _ _ _,
    linkFrame_kernelBrk _ _ _, fun q u hq hu => ?_, fun q hq => ?_,
    translate_link hlen ?_ hold ?_ ?_⟩
  · rw [tableAt_linkFrame h hp ht habsent hq, if_neg, hu]
    rintro rfl
    rw [hnone] at hu
    cases hu
  · rw [hentry q hq]
    split_ifs with hpath
    · rw [hpath]
      exact Or.inr ⟨hlen, hold, f, by simp, rfl⟩
    · exact Or.inl rfl
  · intro q hq hne
    rw [hentry q hq, if_neg hne]
  · rw [hentry _ (Nat.le_succ_of_le hlen), if_pos rfl]
    exact mappedEntry_huge (h.aligned f (by simp))
  · intro j
    rw [pathEntry_cons_of_none hnone]
    exact Mmu.zero_and_present

end

/-! ## `get_pte` -/

/-- The number of missing tables at a path. -/
def missing (m : Mem) (r : Addr) (p : List Index) : ℕ :=
  if tableAt m r p = none then 1 else 0

/-- The number of tables that `get_pte` has to create for `v`. -/
def missingTables (m : Mem) (r : Addr) (v : BitVec 64) : ℕ :=
  missing m r (pdptPath v) + missing m r (pdPath v) + missing m r (tablePath v)

section

variable {s : Mmu} {free : List Addr} {t : Addr} {i : Index} {p : List Index}

theorem missing_of_some (h : tableAt s.mem s.pml4t p = some t) : missing s.mem s.pml4t p = 0 := by
  rw [missing, h, if_neg (by simp)]

theorem missing_of_none (h : tableAt s.mem s.pml4t p = none) : missing s.mem s.pml4t p = 1 := by
  rw [missing, if_pos h]

/-- At a path one table is missing at most. -/
theorem missing_le (m : Mem) (r : Addr) (p : List Index) : missing m r p ≤ 1 := by
  rw [missing]
  split_ifs <;> omega

/-- `get_pte` creates three tables at most. -/
theorem missingTables_le (m : Mem) (r : Addr) (v : BitVec 64) : missingTables m r v ≤ 3 := by
  have h4 := missing_le m r (pdptPath v)
  have h3 := missing_le m r (pdPath v)
  have h2 := missing_le m r (tablePath v)
  rw [missingTables]
  omega

/-- One level of `get_pte` that may create : it ends at the table of the path, and takes one
frame for it if it was missing, or there is no frame for a missing table. -/
theorem nextTable_grow (h : TableInv s free) {a : List Index} (ha : a = i :: p) (hp : p.length ≤ 2)
    (ht : tableAt s.mem s.pml4t p = some t)
    (hhuge : p.length = 0 ∨ (pathEntry s.mem s.pml4t a &&& ptePresent ≠ 0 →
      pathEntry s.mem s.pml4t a &&& pteHuge = 0)) (msg : String) :
    ∃ s' free' o, s.nextTable (slot t i) true msg = (s', o) ∧ Grows s free s' free' ∧
      (∀ q, q.length ≤ 3 → q ≠ a → tableAt s'.mem s.pml4t q = tableAt s.mem s.pml4t q) ∧
      ((∃ u, o = some u ∧ tableAt s'.mem s.pml4t a = some u ∧
          missing s.mem s.pml4t a + free'.length = free.length) ∨
        o = none ∧ free.length = 0 ∧ missing s.mem s.pml4t a = 1) := by
  subst ha
  by_cases hpres : word s.mem t i &&& ptePresent = 0
  · have hnone : tableAt s.mem s.pml4t (i :: p) = none :=
      (tableAt_cons ht i).trans (tableLink_eq_none hpres)
    cases free with
    | nil =>
      refine ⟨_, [], _, nextTable_nil h.listed h.list hpres msg,
        ((Grows.refl h).printk _ _).printk _ _, fun q _ _ => rfl, Or.inr ⟨rfl, rfl, ?_⟩⟩
      exact missing_of_none hnone
    | cons f l =>
      refine ⟨_, l, _, nextTable_cons h.listed h.list (h.aligned f (by simp))
        (aligned_tableAt (aligned_pml4t s) ht) hpres msg, grows_linkFrame h hp ht hpres,
        fun q hq hne => ?_, Or.inl ⟨f, rfl, ?_, ?_⟩⟩
      · rw [tableAt_linkFrame h hp ht hpres hq, if_neg hne]
      · rw [tableAt_linkFrame (q := i :: p) h hp ht hpres (Nat.succ_le_succ hp), if_pos rfl]
      · rw [missing_of_none hnone, List.length_cons]
        omega
  · rw [pathEntry_cons ht] at hhuge
    have hlink : tableAt s.mem s.pml4t (i :: p) = some (word s.mem t i &&& pageMask) := by
      rw [tableAt_cons ht, tableLink, if_pos ⟨hpres, hhuge.imp_right fun hnot => hnot hpres⟩]
    refine ⟨s, free, _, nextTable_present hpres true msg, Grows.refl h, fun q _ _ => rfl,
      Or.inl ⟨_, rfl, hlink, ?_⟩⟩
    rw [missing_of_some hlink]
    omega

/-- `get_pte` with `create_if_not_exist` : it links the missing tables and returns the entry of
the page, or there are fewer free frames than missing tables. -/
theorem getPte_grow (h : TableInv s free) {v : BitVec 64} (hv : NoHuge s.mem s.pml4t v) :
    ∃ free', Grows s free (s.getPte s.pml4t v true).1 free' ∧
      ((∃ pt, tableAt (s.getPte s.pml4t v true).1.mem s.pml4t (tablePath v) = some pt ∧
          (s.getPte s.pml4t v true).2 = slot pt (ptIndex v) ∧
          missingTables s.mem s.pml4t v + free'.length = free.length) ∨
        (s.getPte s.pml4t v true).2 = 0 ∧ free.length < missingTables s.mem s.pml4t v) := by
  obtain ⟨s₁, free₁, o₁, hs₁, hg₁, hsame₁, hstep₁⟩ :=
    nextTable_grow (a := pdptPath v) h rfl (Nat.zero_le 2) tableAt_nil (Or.inl rfl)
      "Failed to allocate PDPT\n"
  unfold Mmu.getPte getPageIndices missingTables
  simp only [entryAt_eq_slot, hs₁]
  obtain ⟨pdpt, rfl, htab₁, hcount₁⟩ | ⟨rfl, hfree, hmiss⟩ := hstep₁
  swap
  · exact ⟨free₁, hg₁, Or.inr ⟨rfl, by omega⟩⟩
  have hroot₁ := hg₁.pml4t
  have hv₁ := hg₁.noHuge h hv
  rw [← hroot₁] at htab₁ hv₁
  obtain ⟨s₂, free₂, o₂, hs₂, hg₂, hsame₂, hstep₂⟩ :=
    nextTable_grow (a := pdPath v) hg₁.inv rfl (Nat.le_succ 1) htab₁
      (Or.inr (hv₁ (pdPath v) (Or.inl rfl))) "Failed to allocate PD\n"
  have hmiss₂ : missing s₁.mem s₁.pml4t (pdPath v) = missing s.mem s.pml4t (pdPath v) := by
    rw [missing, missing, hroot₁, hsame₁ _ (by simp) (pdptPath_ne_pdPath v v).symm]
  have hg₂' := hg₁.trans hg₂
  simp only [hs₂]
  obtain ⟨pdt, rfl, htab₂, hcount₂⟩ | ⟨rfl, hfree, hmiss⟩ := hstep₂
  swap
  · exact ⟨free₂, hg₂', Or.inr ⟨rfl, by omega⟩⟩
  have hroot₂ := hg₂'.pml4t
  have hv₂ := hg₂'.noHuge h hv
  rw [hroot₁] at htab₂ hsame₂
  rw [← hroot₂] at htab₂ hv₂
  obtain ⟨s₃, free₃, o₃, hs₃, hg₃, hsame₃, hstep₃⟩ :=
    nextTable_grow (a := tablePath v) hg₂.inv rfl (Nat.le_refl 2) htab₂
      (Or.inr (hv₂ (tablePath v) (Or.inr rfl))) "Failed to allocate PT\n"
  have hmiss₃ : missing s₂.mem s₂.pml4t (tablePath v) = missing s.mem s.pml4t (tablePath v) := by
    rw [missing, missing, hroot₂, hsame₂ _ (by simp) (pdPath_ne_tablePath v v).symm,
      hsame₁ _ (by simp) (pdptPath_ne_tablePath v v).symm]
  have hg₃' := hg₂'.trans hg₃
  simp only [hs₃]
  obtain ⟨pt, rfl, htab₃, hcount₃⟩ | ⟨rfl, hfree, hmiss⟩ := hstep₃
  swap
  · exact ⟨free₃, hg₃', Or.inr ⟨rfl, by omega⟩⟩
  rw [hroot₂] at htab₃
  exact ⟨free₃, hg₃', Or.inl ⟨pt, htab₃, rfl, by omega⟩⟩

/-- Where no table is at `0`, `get_pte` succeeds exactly if there are enough free frames for
the missing tables. -/
theorem getPte_ne_zero_iff (h : TableInv s free) {v : BitVec 64} (hv : NoHuge s.mem s.pml4t v)
    (hzero : NotTable s.mem s.pml4t 0) :
    (s.getPte s.pml4t v true).2 ≠ 0 ↔ missingTables s.mem s.pml4t v ≤ free.length := by
  obtain ⟨free', hg, ⟨pt, hpt, hpte, hcount⟩ | ⟨hnull, hlt⟩⟩ := getPte_grow h hv
  · have hnot := hg.notTable h (fun hc => h.list.ne_null 0 hc rfl) hzero
    rw [hg.pml4t] at hnot
    rw [hpte]
    exact iff_of_true (hnot.slot_ne_zero (aligned_pml4t s) hpt _) (by omega)
  · exact iff_of_false (not_not.2 hnull) (by omega)

end

/-! ## The entry of a page -/

/-- The address of the entry of `v`, null where a table is missing. -/
def entrySlot (m : Mem) (r : Addr) (v : BitVec 64) : Addr :=
  match tableAt m r (tablePath v) with
  | some pt => slot pt (ptIndex v)
  | none => 0

section

variable {s : Mmu} {free : List Addr} {pt : Addr} {v e : BitVec 64}

theorem entrySlot_of_some (h : tableAt s.mem s.pml4t (tablePath v) = some pt) :
    entrySlot s.mem s.pml4t v = slot pt (ptIndex v) := by
  rw [entrySlot, h]

theorem entrySlot_of_none (h : tableAt s.mem s.pml4t (tablePath v) = none) :
    entrySlot s.mem s.pml4t v = 0 := by
  rw [entrySlot, h]

/-- A table that is there is found, whether or not it may be created. -/
theorem nextTable_linked {t u : Addr} {i : Index} {p : List Index}
    (ht : tableAt s.mem s.pml4t p = some t) (hu : tableAt s.mem s.pml4t (i :: p) = some u)
    (create : Bool) (msg : String) : s.nextTable (slot t i) create msg = (s, some u) := by
  obtain ⟨hpres, -, rfl⟩ := tableAt_cons_eq_some hu
  rw [pathEntry_cons ht] at hpres ⊢
  exact nextTable_present hpres create msg

/-- Where no table is missing `get_pte` returns the entry of the page. -/
theorem getPte_of_tableAt (hpt : tableAt s.mem s.pml4t (tablePath v) = some pt) (create : Bool) :
    s.getPte s.pml4t v create = (s, slot pt (ptIndex v)) := by
  obtain ⟨pd, hpd⟩ := tableAt_of_cons hpt
  obtain ⟨pdpt, hpdpt⟩ := tableAt_of_cons hpd
  unfold Mmu.getPte getPageIndices
  simp only [entryAt_eq_slot, nextTable_linked tableAt_nil hpdpt, nextTable_linked hpdpt hpd,
    nextTable_linked hpd hpt]
  rfl

/-- `get_pte` without `create_if_not_exist` is the path lookup. -/
theorem getPte_find (hv : NoHuge s.mem s.pml4t v) :
    s.getPte s.pml4t v false = (s, entrySlot s.mem s.pml4t v) := by
  rw [Mmu.getPte_false]
  by_cases h4 : s.pml4Entry v &&& ptePresent = 0
  · have hnone : tableAt s.mem s.pml4t (pdptPath v) = none :=
      tableAt_cons_of_absent (by rwa [← pdptPath, ← Mmu.pml4Entry_eq])
    rw [if_pos h4, entrySlot_of_none (tableAt_cons_of_none (tableAt_cons_of_none hnone _) _)]
  rw [if_neg h4, Mmu.pdptEntry_eq h4]
  by_cases h3 : pathEntry s.mem s.pml4t (pdPath v) &&& ptePresent = 0
  · rw [if_pos h3, entrySlot_of_none (tableAt_cons_of_none (tableAt_cons_of_absent h3) _)]
  have hhuge3 := hv _ (Or.inl rfl) h3
  rw [← Mmu.pdptEntry_eq h4] at h3 hhuge3
  rw [← Mmu.pdptEntry_eq h4, if_neg h3, Mmu.pdEntry_eq h4 h3 hhuge3]
  by_cases h2 : pathEntry s.mem s.pml4t (tablePath v) &&& ptePresent = 0
  · rw [if_pos h2, entrySlot_of_none (tableAt_cons_of_absent h2)]
  have hhuge2 := hv _ (Or.inr rfl) h2
  rw [if_neg h2, entrySlot_of_some (tableAt_tablePath h2 hhuge2)]
  exact congrArg _ (entryAt_eq_slot _ _)

theorem sameWords_store (ht : tableAt s.mem s.pml4t (tablePath v) = some pt) :
    SameWords s.mem (s.store64 (slot pt (ptIndex v)) e).mem s.pml4t pt (ptIndex v) := by
  intro q u j hq hu hne
  have hroot := aligned_pml4t s
  rw [Mmu.store64_mem, word_write64_slot (aligned_tableAt hroot ht) (aligned_tableAt hroot hu),
    if_neg hne]

theorem TableInv.tableAt_store (h : TableInv s free)
    (ht : tableAt s.mem s.pml4t (tablePath v) = some pt) {q : List Index} (hq : q.length ≤ 3) :
    tableAt (s.store64 (slot pt (ptIndex v)) e).mem s.pml4t q = tableAt s.mem s.pml4t q :=
  (sameWords_store ht).tableAt_leaf h.distinct (length_tablePath v) ht hq

theorem TableInv.pathEntry_store (h : TableInv s free)
    (ht : tableAt s.mem s.pml4t (tablePath v) = some pt) {q : List Index} (hq : q.length ≤ 4) :
    pathEntry (s.store64 (slot pt (ptIndex v)) e).mem s.pml4t q =
      if q = pathOf v then e else pathEntry s.mem s.pml4t q := by
  have hal := aligned_tableAt (aligned_pml4t s) ht
  have hnew : word (s.store64 (slot pt (ptIndex v)) e).mem pt (ptIndex v) = e := by
    rw [Mmu.store64_mem, word_write64_slot hal hal, if_pos ⟨rfl, rfl⟩]
  rw [(sameWords_store ht).pathEntry_leaf h.distinct (length_tablePath v) ht hq, hnew, pathOf]

/-- A store to the entry of a page changes no table. -/
theorem TableInv.store (h : TableInv s free)
    (ht : tableAt s.mem s.pml4t (tablePath v) = some pt) :
    TableInv (s.store64 (slot pt (ptIndex v)) e) free := by
  have htab := fun q => h.tableAt_store (e := e) ht (q := q)
  refine ⟨h.listed, ?_, h.nodup, h.aligned, h.distinct.congr htab,
    fun f hf => (h.apart f hf).congr htab⟩
  refine Chain.congr h.list fun g hg => ?_
  have hgt : g ≠ pt := by
    rintro rfl
    exact h.apart g hg (tablePath v) (by simp) ht
  rw [Mmu.store64_mem, read64_eq_word, read64_eq_word,
    word_write64_slot (aligned_tableAt (aligned_pml4t s) ht) (h.aligned g hg),
    if_neg fun hc => hgt hc.1]

end

/-! ## Giving a frame back -/

section

variable {s : Mmu} {free : List Addr} {f : Addr}

/-- `MMU_pf_free` stores into the frame. -/
theorem mmuPfFree_word (s : Mmu) {f u : Addr} (hf : Aligned f) (hu : Aligned u) (hne : u ≠ f)
    (j : Index) : word (s.mmuPfFree f).mem u j = word s.mem u j := by
  unfold Mmu.mmuPfFree
  split_ifs
  · rfl
  · rfl
  · show word (write64 s.mem f s.freePageHead) u j = _
    rw [← slot_zero f, word_write64_slot hf hu, if_neg fun hc => hne hc.1]

theorem mmuPfFree_pml4t (s : Mmu) (f : Addr) : (s.mmuPfFree f).pml4t = s.pml4t := by
  unfold Mmu.mmuPfFree
  split_ifs <;> rfl

theorem keepsEntries_mmuPfFree (hf : Aligned f) (hnot : NotTable s.mem s.pml4t f) :
    KeepsEntries s.mem (s.mmuPfFree f).mem s.pml4t := by
  intro q u j hq hu
  refine mmuPfFree_word s hf (aligned_tableAt (aligned_pml4t s) hu) ?_ j
  rintro rfl
  exact hnot q hq hu

/-- A frame that is no table is free again. -/
theorem TableInv.mmuPfFree (h : TableInv s free) (hf : Aligned f) (hne : f ≠ 0) (hfree : f ∉ free)
    (hnot : NotTable s.mem s.pml4t f) : TableInv (s.mmuPfFree f) (f :: free) := by
  have htab : ∀ q, q.length ≤ 3 →
      tableAt (s.mmuPfFree f).mem (s.mmuPfFree f).pml4t q = tableAt s.mem s.pml4t q := by
    intro q hq
    rw [mmuPfFree_pml4t, (keepsEntries_mmuPfFree hf hnot).tableAt hq]
  refine ⟨?_, ?_, List.nodup_cons.2 ⟨hfree, h.nodup⟩, ?_, h.distinct.congr htab, ?_⟩
  · rw [Mmu.mmuPfFree_frame s hne hf]
    exact h.listed
  · rw [Mmu.mmuPfFree_frame s hne hf]
    exact h.list.giveFrame h.aligned hf hne hfree
  · intro g hg
    rcases List.mem_cons.1 hg with rfl | hg
    · exact hf
    · exact h.aligned g hg
  · intro g hg
    rcases List.mem_cons.1 hg with rfl | hg
    · exact hnot.congr htab
    · exact (h.apart g hg).congr htab

end

end KernelDev
