import KernelDev.HeapBuilt
import KernelDev.TableGrowth

/-!
# Page tables before the first frame

The free list is built by the first call of `MMU_pf_alloc`, so the state of a well-formed tree may
not have it yet. `TableReady` is such a state : it is well formed with the list built, and the list
is built or can be. Building it stores into free frames only, so the tables, the entries and the
huge pages are the same before and after (`tableAt_built`, `pathEntry_built`).

The first table that `get_pte` creates builds the list. Up to there the walk only looks, and it
finds the same in either state; from there on the two walks are the same
(`TableReady.getPte_built`). So what `get_pte` does from a built list holds from any state that is
ready, and whether it fails depends on the frames that will be listed
(`TableReady.getPte_eq_zero_iff`).
-/

namespace KernelDev

open ByteMem

/-- The state is well formed with the free list built, and the list is built or can be. -/
structure TableReady (s : Mmu) (free : List Addr) : Prop where
  inv : TableInv s.built free
  first : s.freeListInitialized = false → Unbuilt s

/-- A state with the list built is ready. -/
theorem TableInv.ready {s : Mmu} {free : List Addr} (h : TableInv s free) : TableReady s free :=
  ⟨(Mmu.built_of_listed h.listed).symm ▸ h, fun hs => absurd hs (by simp [h.listed])⟩

/-- A missing table builds the free list. -/
theorem nextTable_built {s : Mmu} {u : Addr} {i : Index} (hs : s.built.freeListInitialized = true)
    (habsent : word s.mem u i &&& ptePresent = 0)
    (habsent' : word s.built.mem u i &&& ptePresent = 0) (msg : String) :
    s.nextTable (slot u i) true msg = s.built.nextTable (slot u i) true msg := by
  unfold Mmu.nextTable
  rw [read64_slot, read64_slot, if_pos habsent, if_pos habsent', Mmu.mmuPfAlloc_built hs]
  simp only [Bool.not_true, Bool.false_eq_true, if_false]

namespace TableReady

variable {s : Mmu} {free : List Addr} {v : BitVec 64}

theorem built_pml4t (h : TableReady s free) : s.built.pml4t = s.pml4t := by
  rw [Mmu.pml4t, Mmu.pml4t, Mmu.built_cr3 h.first]

/-- Building the list stores into no table. -/
theorem keeps_built (h : TableReady s free) : KeepsEntries s.built.mem s.mem s.pml4t := by
  intro q u j hq hu
  have hal := aligned_tableAt (aligned_pml4t s) hu
  refine word_congr hal (fun x hx => (Mmu.built_mem h.first h.inv.list ?_).symm) j
  rintro ⟨f, hf, hpage⟩
  rw [hx] at hpage
  obtain rfl := (h.inv.aligned f hf).eq_of_pageOf_eq hal hpage
  rw [← h.built_pml4t] at hu
  exact h.inv.apart f hf q hq hu

theorem tableAt_built (h : TableReady s free) {q : List Index} (hq : q.length ≤ 3) :
    tableAt s.built.mem s.pml4t q = tableAt s.mem s.pml4t q :=
  (h.keeps_built.tableAt hq).symm

theorem pathEntry_built (h : TableReady s free) {q : List Index} (hq : q.length ≤ 4) :
    pathEntry s.built.mem s.pml4t q = pathEntry s.mem s.pml4t q :=
  (h.keeps_built.pathEntry hq).symm

theorem noHuge_built (h : TableReady s free) (hv : NoHuge s.mem s.pml4t v) :
    NoHuge s.built.mem s.pml4t v := by
  intro q hq hpres
  have hlen : q.length ≤ 4 := by rcases hq with rfl | rfl <;> simp
  rw [h.pathEntry_built hlen] at hpres ⊢
  exact hv q hq hpres

/-- One level of `get_pte` on the tables of `s` : a missing table is created as if the free list
were built, a table that is there is found in either state. -/
theorem nextTable_cases (h : TableReady s free) {p : List Index} {u : Addr} (i : Index)
    (hp : p.length ≤ 2) (hu : tableAt s.mem s.pml4t p = some u) (msg : String)
    (hhuge : p.length = 0 ∨ (pathEntry s.mem s.pml4t (i :: p) &&& ptePresent ≠ 0 →
      pathEntry s.mem s.pml4t (i :: p) &&& pteHuge = 0)) :
    s.nextTable (slot u i) true msg = s.built.nextTable (slot u i) true msg ∨
      ∃ u', tableAt s.mem s.pml4t (i :: p) = some u' ∧
        s.nextTable (slot u i) true msg = (s, some u') ∧
        s.built.nextTable (slot u i) true msg = (s.built, some u') := by
  have hword := h.keeps_built.symm p u i (Nat.le_succ_of_le hp) hu
  by_cases hpres : word s.mem u i &&& ptePresent = 0
  · exact Or.inl (nextTable_built h.inv.listed hpres (hword.symm ▸ hpres) msg)
  · refine Or.inr ⟨word s.mem u i &&& pageMask, ?_, nextTable_present hpres true msg, ?_⟩
    · rw [pathEntry_cons hu] at hhuge
      rw [tableAt_cons hu, tableLink, if_pos ⟨hpres, hhuge.imp_right fun hnot => hnot hpres⟩]
    · rw [← hword] at hpres ⊢
      exact nextTable_present hpres true msg

/-- `get_pte` that comes to a missing table begins as if the free list were built. -/
theorem getPte_built (h : TableReady s free) (hv : NoHuge s.mem s.pml4t v)
    (hnone : tableAt s.mem s.pml4t (tablePath v) = none) :
    s.getPte s.pml4t v true = s.built.getPte s.built.pml4t v true := by
  rw [h.built_pml4t]
  unfold Mmu.getPte getPageIndices
  simp only [entryAt_eq_slot]
  rcases h.nextTable_cases (p := []) ((v >>> 39).setWidth 9) (by simp) tableAt_nil
    "Failed to allocate PDPT\n" (Or.inl rfl) with heq | ⟨pdpt, hpdpt, heq, heq'⟩
  · rw [heq]
  rw [heq, heq']
  simp only
  rcases h.nextTable_cases (p := pdptPath v) ((v >>> 30).setWidth 9) (by simp) hpdpt
    "Failed to allocate PD\n" (Or.inr (hv _ (Or.inl rfl))) with heq | ⟨pd, hpd, heq, heq'⟩
  · rw [heq]
  rw [heq, heq']
  simp only
  rcases h.nextTable_cases (p := pdPath v) ((v >>> 21).setWidth 9) (by simp) hpd
    "Failed to allocate PT\n" (Or.inr (hv _ (Or.inr rfl))) with heq | ⟨pt, hpt, -, -⟩
  · rw [heq]
  · rw [← tablePath, hnone] at hpt
    cases hpt

/-- Where no table is at `0`, `get_pte` fails exactly if there are fewer free frames than
missing tables. -/
theorem getPte_eq_zero_iff (h : TableReady s free) (hv : NoHuge s.mem s.pml4t v)
    (hzero : NotTable s.mem s.pml4t 0) :
    (s.getPte s.pml4t v true).2 = 0 ↔ free.length < missingTables s.mem s.pml4t v := by
  cases hpt : tableAt s.mem s.pml4t (tablePath v) with
  | some pt =>
    obtain ⟨pd, hpd⟩ := tableAt_of_cons hpt
    obtain ⟨pdpt, hpdpt⟩ := tableAt_of_cons hpd
    rw [getPte_of_tableAt hpt, missingTables, missing_of_some hpt, missing_of_some hpd,
      missing_of_some hpdpt]
    exact iff_of_false (hzero.slot_ne_zero (aligned_pml4t s) hpt _) (Nat.not_lt_zero _)
  | none =>
    have hv' := h.noHuge_built hv
    have hzero' : NotTable s.built.mem s.built.pml4t 0 := by
      intro p hp ht
      rw [h.built_pml4t, h.tableAt_built hp] at ht
      exact hzero p hp ht
    have hmissing : missingTables s.built.mem s.built.pml4t v = missingTables s.mem s.pml4t v := by
      simp only [missingTables, missing, h.built_pml4t]
      rw [h.tableAt_built (by simp), h.tableAt_built (by simp), h.tableAt_built (by simp)]
    rw [← h.built_pml4t] at hv'
    rw [h.getPte_built hv hpt, ← not_iff_not, not_lt, ← hmissing]
    exact getPte_ne_zero_iff h.inv hv' hzero'

end TableReady

end KernelDev
