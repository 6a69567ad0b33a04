import KernelDev.BootTree
import KernelDev.MapPage

/-!
# The access that `map_page` grants

The processor takes a page for user-accessible, or for writable, if the bit is set at every level
of its walk (`SetAtAllLevels`). `map_page` sets the bits that it is asked for in the last entry
only. `get_pte` and `boot.asm` link every table present and writable, and none with `PTE_USER`;
`UpperEntries` says so of a tree and is kept by every call, whatever flags it is for. So the access
to a page is decided by its own entry, except that no page is ever user-accessible.

`KernelTree` is the invariant of a run of `map_page` and `unmap_page` : a well-formed tree with
such entries. New tables are linked by `get_pte` (`UpperEntries.grows`), and the store to the entry
of a page is to none of them (`UpperEntries.store`). The runs begin with the boot tables and with a
free list that is not built; the first `map_page` builds it, and before it nothing happens
(`BootTree.runMapOps`).

`mapPage_grantsAccess_iff` : after such a run and a successful `map_page`, the page has the access
that was asked for exactly if `PTE_USER` was not, with any other flags. `userPage_not_accessible`
is a page of the user area that the user cannot access.
-/

namespace KernelDev

open ByteMem

namespace Mmu

/-- `bit` is set at all four levels of the walk of `vaddr`. -/
def SetAtAllLevels (s : Mmu) (vaddr bit : BitVec 64) : Prop :=
  s.pml4Entry vaddr &&& bit ≠ 0 ∧ s.pdptEntry vaddr &&& bit ≠ 0 ∧ s.pdEntry vaddr &&& bit ≠ 0 ∧
    s.ptEntry vaddr &&& bit ≠ 0

/-- The access to the page of `vaddr` is the one that `flags` asks for. -/
def GrantsAccess (s : Mmu) (vaddr flags : BitVec 64) : Prop :=
  (s.SetAtAllLevels vaddr pteUser ↔ flags &&& pteUser ≠ 0) ∧
    (s.SetAtAllLevels vaddr pteWritable ↔ flags &&& pteWritable ≠ 0)

end Mmu

/-! ## The entries above the last level -/

/-- The present entries above the last level are writable kernel entries, and only the
identity map has huge ones. -/
def UpperEntries (m : Mem) (r : Addr) : Prop :=
  ∀ a, a.length ≤ 3 → pathEntry m r a &&& ptePresent ≠ 0 →
    pathEntry m r a &&& pteWritable ≠ 0 ∧ pathEntry m r a &&& pteUser = 0 ∧
      (a.tail ≠ [0, 0] → pathEntry m r a &&& pteHuge = 0)

/-- The entry that links a table is writable and not for the user. -/
theorem mappedEntry_access {f : Addr} (hf : Aligned f) :
    mappedEntry f &&& pteWritable ≠ 0 ∧ mappedEntry f &&& pteUser = 0 := by
  constructor
  · rw [mappedEntry_and, and_low_of_aligned hf (by decide)]
    decide
  · rw [mappedEntry_and, and_low_of_aligned hf (by decide)]
    decide

/-- So are the entries of the identity map. -/
theorem hugeEntry_access (j : Index) :
    hugeEntry j &&& pteWritable ≠ 0 ∧ hugeEntry j &&& pteUser = 0 := by
  decide +revert

section

variable {s s₁ : Mmu} {free free₁ : List Addr} {pt : Addr} {v e : BitVec 64}

/-- Outside the identity map a walk meets no huge entry. -/
theorem UpperEntries.noHuge (h : UpperEntries s.mem s.pml4t) (hv : OutsideIdentityMap v) :
    NoHuge s.mem s.pml4t v := by
  rintro q (rfl | rfl) hpres
  · exact (h _ (by simp) hpres).2.2 (by simp [pdPath, pdptPath])
  · exact (h _ (by simp) hpres).2.2 hv.pdPath_ne

/-- The new tables are linked by writable kernel entries. -/
theorem UpperEntries.grows (h : UpperEntries s.mem s.pml4t) (hfree : TableInv s free)
    (hg : Grows s free s₁ free₁) : UpperEntries s₁.mem s₁.pml4t := by
  intro a ha hpres
  rw [hg.pml4t] at hpres ⊢
  rcases hg.entries a (Nat.le_succ_of_le ha) with heq | ⟨-, -, f, hf, heq⟩
  · rw [heq] at hpres ⊢
    exact h a ha hpres
  · have hal := hfree.aligned f hf
    rw [heq]
    exact ⟨(mappedEntry_access hal).1, (mappedEntry_access hal).2, fun _ => mappedEntry_huge hal⟩

/-- The entry of a page is none of them. -/
theorem UpperEntries.store (h : UpperEntries s.mem s.pml4t) (hfree : TableInv s free)
    (ht : tableAt s.mem s.pml4t (tablePath v) = some pt) :
    UpperEntries (s.store64 (slot pt (ptIndex v)) e).mem s.pml4t := by
  intro a ha hpres
  have hne : a ≠ pathOf v := by
    rintro rfl
    simp at ha
  rw [hfree.pathEntry_store ht (Nat.le_succ_of_le ha), if_neg hne] at hpres ⊢
  exact h a ha hpres

end

/-- The entries of the boot tables. -/
theorem upperEntries_boot {t : BootTables} {m : Mem} (hw : t.HasWords m t.bootWord) :
    UpperEntries m (linear t.p4Table) := by
  rintro (_ | ⟨i, p⟩) ha hpres
  · exact absurd Mmu.zero_and_present hpres
  cases htab : t.tableOf p with
  | none =>
    have hnone := (BootTables.tableAt_bootWord hw p).trans (congrArg _ htab)
    rw [pathEntry_cons_of_none hnone] at hpres
    exact absurd Mmu.zero_and_present hpres
  | some table =>
    have hsome := (BootTables.tableAt_bootWord hw p).trans (congrArg _ htab)
    rw [pathEntry_cons hsome, hw table (BootTables.tableOf_mem htab)] at hpres ⊢
    rcases BootTables.bootWord_cases i htab with ⟨u, hu, hentry⟩ | ⟨-, hzero | ⟨rfl, hhuge⟩⟩
    · have hal := aligned_linear (t.aligned u (BootTables.tableOf_mem hu))
      rw [hentry, tableEntry_eq]
      exact ⟨(mappedEntry_access hal).1, (mappedEntry_access hal).2, fun _ => mappedEntry_huge hal⟩
    · rw [hzero] at hpres
      exact absurd Mmu.zero_and_present hpres
    · rw [hhuge]
      exact ⟨(hugeEntry_access i).1, (hugeEntry_access i).2, fun hc => absurd rfl hc⟩

/-! ## Runs -/

/-- A call of `map_page` or `unmap_page`. -/
inductive MapOp where
  | map (vaddr paddr flags : BitVec 64)
  | unmap (vaddr : BitVec 64)

/-- The address that a call is about. -/
def MapOp.vaddr : MapOp → BitVec 64
  | map vaddr _ _ => vaddr
  | unmap vaddr => vaddr

namespace Mmu

/-- One call, on the page tables in use. -/
def runMapOp (s : Mmu) : MapOp → Mmu
  | .map vaddr paddr flags => s.mapPage s.pml4t vaddr paddr flags
  | .unmap vaddr => s.unmapPage s.pml4t vaddr

/-- The calls in order. -/
def runMapOps (s : Mmu) (ops : List MapOp) : Mmu :=
  ops.foldl runMapOp s

end Mmu

/-- A well-formed tree of writable kernel tables. -/
structure KernelTree (s : Mmu) (free : List Addr) : Prop where
  tables : TableInv s free
  /-- Only the last entry of a walk differs from page to page. -/
  upper : UpperEntries s.mem s.pml4t

section

variable {s : Mmu} {free : List Addr} {v p flags : BitVec 64} {op : MapOp}

theorem KernelTree.printk (h : KernelTree s free) (fmt : String) (args : List PrintkArg) :
    KernelTree (s.printk fmt args) free :=
  ⟨h.tables.printk fmt args, h.upper⟩

theorem KernelTree.invlpg (h : KernelTree s free) (a : Addr) : KernelTree (s.invlpg a) free :=
  ⟨h.tables.invlpg a, h.upper⟩

theorem KernelTree.store (h : KernelTree s free) {pt : Addr} {e : BitVec 64}
    (ht : tableAt s.mem s.pml4t (tablePath v) = some pt) :
    KernelTree (s.store64 (slot pt (ptIndex v)) e) free :=
  ⟨h.tables.store ht, h.upper.store h.tables ht⟩

theorem KernelTree.grows (h : KernelTree s free) {s₁ : Mmu} {free₁ : List Addr}
    (hg : Grows s free s₁ free₁) : KernelTree s₁ free₁ :=
  ⟨hg.inv, h.upper.grows h.tables hg⟩

/-- `map_page` keeps a kernel tree. -/
theorem KernelTree.mapPage (h : KernelTree s free) (hv : OutsideIdentityMap v)
    (p flags : BitVec 64) : ∃ free', KernelTree (s.mapPage s.pml4t v p flags) free' := by
  obtain ⟨s₁, free', hg, ⟨pt, -, hpt, heq⟩ | ⟨-, heq⟩⟩ :=
    mapPage_spec h.tables (h.upper.noHuge hv) p flags
  · rw [heq]
    exact ⟨free', ((h.grows hg).store hpt).invlpg v⟩
  · rw [heq]
    exact ⟨free', (h.grows hg).printk _ _⟩

/-- `unmap_page` keeps a kernel tree. -/
theorem KernelTree.unmapPage (h : KernelTree s free) (hv : OutsideIdentityMap v) :
    KernelTree (s.unmapPage s.pml4t v) free := by
  rcases unmapPage_spec (h.upper.noHuge hv) with heq | ⟨pt, hpt, heq⟩
  · rw [heq]
    exact h
  · rw [heq]
    exact (h.store hpt).invlpg v

theorem KernelTree.runMapOp (h : KernelTree s free) (hv : OutsideIdentityMap op.vaddr) :
    ∃ free', KernelTree (s.runMapOp op) free' := by
  cases op with
  | map v p flags => exact h.mapPage hv p flags
  | unmap v => exact ⟨free, h.unmapPage hv⟩

/-- Calls in a row keep a kernel tree. -/
theorem KernelTree.runMapOps : ∀ {ops : List MapOp} {s : Mmu} {free : List Addr},
    KernelTree s free → (∀ op ∈ ops, OutsideIdentityMap op.vaddr) →
    ∃ free', KernelTree (s.runMapOps ops) free'
  | [], _, free, h, _ => ⟨free, h⟩
  | op :: ops, _, _, h, hops => by
    obtain ⟨free₁, h₁⟩ := h.runMapOp (hops op (by simp))
    exact h₁.runMapOps fun op' hop' => hops op' (List.mem_cons_of_mem op hop')

/-- The bits of the entry that `map_page` stores, below the address. -/
theorem pageEntry_and {b : BitVec 64} (hlow : pageMask &&& b = 0) (hpres : ptePresent &&& b = 0) :
    pageEntry p flags &&& b = flags &&& b := by
  rw [pageEntry, BitVec.and_or_distrib_right, BitVec.and_or_distrib_right, BitVec.and_assoc, hlow,
    hpres]
  simp

/-- After a successful `map_page` the page has the access that was asked for exactly if
`PTE_USER` was not. -/
theorem KernelTree.grantsAccess_iff (h : KernelTree s free) (hv : OutsideIdentityMap v)
    (hok : s.MapSucceeds v) (p flags : BitVec 64) :
    (s.mapPage s.pml4t v p flags).GrantsAccess v flags ↔ flags &&& pteUser = 0 := by
  obtain ⟨s₁, free', hg, ⟨pt, -, hpt, heq⟩ | ⟨hfail, -⟩⟩ :=
    mapPage_spec h.tables (h.upper.noHuge hv) p flags
  swap
  · exact absurd hok hfail
  generalize hs' : s₁.store64 (slot pt (ptIndex v)) (pageEntry p flags) = s' at heq
  have hupper : UpperEntries s'.mem s'.pml4t := by
    rw [← hs']
    exact (h.upper.grows h.tables hg).store hg.inv hpt
  have htab : tableAt s'.mem s'.pml4t (tablePath v) = some pt := by
    rw [← hs', ← hpt]
    exact hg.inv.tableAt_store hpt (by simp)
  have hleaf : pathEntry s'.mem s'.pml4t (pathOf v) = pageEntry p flags := by
    rw [← hs']
    exact (hg.inv.pathEntry_store hpt (by simp)).trans (if_pos rfl)
  obtain ⟨e4, e3, e2, e1⟩ := Mmu.entries_of_tableAt htab
  obtain ⟨h4, ⟨h3, -⟩, h2, -⟩ := walk_of_tableAt htab
  have hlevels : ∀ b, (s'.invlpg v).SetAtAllLevels v b ↔
      pathEntry s'.mem s'.pml4t (pdptPath v) &&& b ≠ 0 ∧
        pathEntry s'.mem s'.pml4t (pdPath v) &&& b ≠ 0 ∧
        pathEntry s'.mem s'.pml4t (tablePath v) &&& b ≠ 0 ∧ pageEntry p flags &&& b ≠ 0 := by
    intro b
    rw [← e4, ← e3, ← e2, ← hleaf, ← e1]
    rfl
  rw [heq, Mmu.GrantsAccess, hlevels, hlevels, pageEntry_and (by decide) (by decide),
    pageEntry_and (by decide) (by decide)]
  -- every level above the page is writable, none is user-accessible
  have hw4 := (hupper _ (by simp) h4).1
  have hw3 := (hupper _ (by simp) h3).1
  have hw2 := (hupper _ (by simp) h2).1
  have hu4 := (hupper _ (by simp) h4).2.1
  constructor
  · rintro ⟨huser, -⟩
    by_contra hc
    exact (huser.2 hc).1 hu4
  · intro hc
    exact ⟨⟨fun hset => absurd hu4 hset.1, fun hset => absurd hc hset⟩,
      ⟨fun hset => hset.2.2.2, fun hset => ⟨hw4, hw3, hw2, hset⟩⟩⟩

end

/-! ## Runs from the boot tables -/

section

variable {t : BootTables} {s : Mmu} {free : List Addr} {v p flags : BitVec 64} {ops : List MapOp}

/-- The boot tables are a kernel tree, with the list built. -/
theorem BootTree.kernelTree (h : BootTree t s free) : KernelTree s.built free := by
  refine ⟨h.tableInv, ?_⟩
  rw [h.built_pml4t]
  exact upperEntries_boot h.built_words

theorem BootTree.upper (h : BootTree t s free) : UpperEntries s.mem s.pml4t := by
  rw [h.root]
  exact upperEntries_boot h.words

theorem Mmu.runMapOps_map (s : Mmu) (v p flags : BitVec 64) :
    s.runMapOps [.map v p flags] = s.mapPage s.pml4t v p flags :=
  rfl

theorem BootTree.getPte_built (h : BootTree t s free) (hv : OutsideIdentityMap v) :
    s.getPte s.pml4t v true = s.built.getPte s.built.pml4t v true :=
  h.ready.getPte_built (h.upper.noHuge hv) (h.tableAt_tablePath hv)

/-- `unmap_page` finds no page. -/
theorem BootTree.unmapPage (h : BootTree t s free) (hv : OutsideIdentityMap v) :
    s.unmapPage s.pml4t v = s := by
  rcases unmapPage_spec (h.upper.noHuge hv) with heq | ⟨pt, hpt, -⟩
  · exact heq
  · rw [h.tableAt_tablePath hv] at hpt
    cases hpt

/-- `map_page` begins as if the free list were built. -/
theorem BootTree.mapPage (h : BootTree t s free) (hv : OutsideIdentityMap v) (p flags : BitVec 64) :
    s.mapPage s.pml4t v p flags = s.built.mapPage s.built.pml4t v p flags := by
  rw [Mmu.mapPage, Mmu.mapPage, h.getPte_built hv]

/-- A run leaves the boot state alone, or ends as it does with the free list built first. -/
theorem BootTree.runMapOps (h : BootTree t s free) : ∀ {ops : List MapOp},
    (∀ op ∈ ops, OutsideIdentityMap op.vaddr) →
    s.runMapOps ops = s ∨ ∃ ops', (∀ op ∈ ops', OutsideIdentityMap op.vaddr) ∧
      s.runMapOps ops = s.built.runMapOps ops'
  | [], _ => Or.inl rfl
  | .map v p flags :: ops, hops => by
    refine Or.inr ⟨.map v p flags :: ops, hops, ?_⟩
    have hstep : s.runMapOp (.map v p flags) = s.built.runMapOp (.map v p flags) :=
      h.mapPage (hops (.map v p flags) (by simp)) p flags
    rw [Mmu.runMapOps, Mmu.runMapOps, List.foldl_cons, List.foldl_cons, hstep]
  | .unmap v :: ops, hops => by
    have hstep : s.runMapOp (.unmap v) = s := h.unmapPage (hops (.unmap v) (by simp))
    rw [Mmu.runMapOps, List.foldl_cons, hstep]
    exact h.runMapOps fun op hop => hops op (List.mem_cons_of_mem _ hop)

/-- After a successful `map_page` in a tree that calls have made of the boot tables, the page
has the access that was asked for exactly if `PTE_USER` was not. -/
theorem mapPage_grantsAccess_iff (h : BootTree t s free)
    (hops : ∀ op ∈ ops, OutsideIdentityMap op.vaddr) (hv : OutsideIdentityMap v)
    (p flags : BitVec 64) (hok : (s.runMapOps ops).MapSucceeds v) :
    ((s.runMapOps ops).mapPage (s.runMapOps ops).pml4t v p flags).GrantsAccess v flags ↔
      flags &&& pteUser = 0 := by
  rcases h.runMapOps hops with heq | ⟨ops', hops', heq⟩
  · rw [heq] at hok ⊢
    rw [Mmu.MapSucceeds, h.getPte_built hv] at hok
    rw [h.mapPage hv]
    exact h.kernelTree.grantsAccess_iff hv hok p flags
  · obtain ⟨free', htree⟩ := h.kernelTree.runMapOps hops'
    rw [← heq] at htree
    exact htree.grantsAccess_iff hv hok p flags

end

/-! ## A page for the user -/

/-- The boot state with three frames that are still to be listed. -/
def bootedInRow : Mmu :=
  { BootTables.inRow.enablePaging (Mmu.atBoot fun _ => 0) with
    memoryRegions := [⟨0x200000, 0x203000, multibootMemoryAvailable⟩] }

theorem unbuilt_bootedInRow : Unbuilt bootedInRow := by
  refine ⟨⟨fun r hr => ?_, List.pairwise_singleton _ _⟩, rfl, rfl⟩
  obtain rfl := List.mem_singleton.1 hr
  exact ⟨by decide, by decide⟩

theorem bootTree_bootedInRow :
    BootTree BootTables.inRow bootedInRow [0x202000, 0x201000, 0x200000] := by
  have hframes : (listedFrames bootedInRow.memoryRegions).reverse =
      [0x202000, 0x201000, 0x200000] := by decide
  refine ⟨BootTables.hasWords_setUpPageTables BootTables.zeroed_inRow,
    BootTables.pml4t_enablePaging (s := Mmu.atBoot fun _ => 0), fun _ => unbuilt_bootedInRow,
    ?_, by simp, by simp [Aligned], by simp [BootTables.tables, BootTables.inRow, linear]⟩
  obtain ⟨m, head, heq, hchain⟩ := unbuilt_bootedInRow.built_eq
  rw [hframes] at hchain
  rw [heq]
  exact hchain

theorem notTable_zero_bootedInRow : NotTable bootedInRow.built.mem bootedInRow.built.pml4t 0 :=
  bootTree_bootedInRow.notTable (by simp [BootTables.tables, BootTables.inRow, linear])

theorem mapSucceeds_bootedInRow {v : BitVec 64} (hv : OutsideIdentityMap v) :
    bootedInRow.MapSucceeds v := by
  have h := bootTree_bootedInRow
  rw [Mmu.MapSucceeds, h.getPte_built hv,
    getPte_ne_zero_iff h.tableInv (h.kernelTree.upper.noHuge hv)
      notTable_zero_bootedInRow]
  exact missingTables_le _ _ v

theorem runMapOps_bootedInRow (p flags : BitVec 64) :
    (bootedInRow.runMapOps [.map kernelHeapAdr p flags]).MapSucceeds (kernelHeapAdr + 0x1000) := by
  have hout : OutsideIdentityMap kernelHeapAdr := by decide
  have h := bootTree_bootedInRow
  have hfirst := mapSucceeds_bootedInRow hout
  rw [Mmu.MapSucceeds, h.getPte_built hout] at hfirst
  rw [Mmu.runMapOps_map, h.mapPage hout]
  exact mapSucceeds_mapPage h.tableInv (h.kernelTree.upper.noHuge hout) hfirst (by decide)
    (by decide) p flags

/-- A page is mapped beside one that was mapped for the user. -/
theorem mapPage_grantsAccess_bootedInRow : ∃ s,
    s = bootedInRow.runMapOps [.map kernelHeapAdr 0x300000 (pteUser ||| pteWritable)] ∧
      (s.mapPage s.pml4t (kernelHeapAdr + 0x1000) 0x400000 pteWritable).GrantsAccess
        (kernelHeapAdr + 0x1000) pteWritable := by
  have hops : ∀ op ∈ [MapOp.map kernelHeapAdr 0x300000 (pteUser ||| pteWritable)],
      OutsideIdentityMap op.vaddr := by
    rw [List.forall_mem_singleton]
    decide
  have hok := runMapOps_bootedInRow 0x300000 (pteUser ||| pteWritable)
  refine ⟨_, rfl, ?_⟩
  exact (mapPage_grantsAccess_iff bootTree_bootedInRow hops (by decide) 0x400000 pteWritable
    hok).2 (by decide)

/-- A page mapped for the user at `USER_SPACE_ADR` cannot be accessed by the user. -/
theorem userPage_not_accessible :
    bootedInRow.MapSucceeds userSpaceAdr ∧
      ¬(bootedInRow.mapPage bootedInRow.pml4t userSpaceAdr 0x300000
        (pteUser ||| pteWritable)).GrantsAccess userSpaceAdr (pteUser ||| pteWritable) := by
  have hout : OutsideIdentityMap userSpaceAdr := by decide
  refine ⟨mapSucceeds_bootedInRow hout, ?_⟩
  have h := bootTree_bootedInRow
  have hok := mapSucceeds_bootedInRow hout
  rw [Mmu.MapSucceeds, h.getPte_built hout] at hok
  rw [h.mapPage hout, h.kernelTree.grantsAccess_iff hout hok]
  decide

end KernelDev
