import KernelDev.TreePaths

/-!
# The heap invariant

`HeapInv s free` relates the state of `mmu.c` to the list `free` of free frames. The free list is
the chain of `free` from `free_page_head`. The page tables and the frames mapped in the heap are a
tree (`UniquePaths`) : no page is reached in two ways. No free frame is in it. The tables of the
heap have no huge entries, a heap entry is unmapped, marked for demand paging, or maps a frame
(`HeapLeaf`), and nothing at or above `kernel_brk` is in use.

The tables outside of the heap are part of the tree, as the top-level table is shared, but nothing
is asked of their last level : `treePaths` are the paths to tables, and to the frames of heap
pages.

Every change of a page-table entry is an instance of `node_set` : a fresh cleared frame is linked
as a table, or the last-level entry of one heap page changes. What the paths of the tree read is
the same but for that one entry (`SameTables`), and so the nodes, the entries of the heap and the
uniqueness of paths after it can be computed (`leafEntry_link`, `leafEntry_store`). A change of
bytes that no path reads, such as data of a page or the links of free frames, keeps all of it
(`KeepsTables`).

`heapByte` is what a heap address holds, which is the byte of the frame that its page has. A page
that waits for its frame holds zero, since the frame that it will get is cleared.
-/

namespace KernelDev

open ByteMem PathTree

/-! ## Entries -/

/-- A page of physical memory, which has 52 address bits, other than the null page. -/
structure IsFrame (f : Addr) : Prop where
  aligned : Aligned f
  ne_zero : f ≠ 0
  /-- Physical addresses have 52 bits. -/
  below : f.toNat < 2 ^ 52

/-- The entry of a heap page that has no frame yet. -/
def demandEntry : BitVec 64 :=
  pteDemandPaging ||| pteWritable

/-- The entry that links the table or frame `f`. -/
def mappedEntry (f : Addr) : BitVec 64 :=
  f ||| pteWritable ||| ptePresent

/-- An entry of a page that is not in use. -/
def Unmapped (e : BitVec 64) : Prop :=
  e &&& ptePresent = 0 ∧ e &&& pteDemandPaging = 0

instance (e : BitVec 64) : Decidable (Unmapped e) :=
  inferInstanceAs (Decidable (_ ∧ _))

/-- The forms a last-level entry of the heap takes. -/
def HeapLeaf (e : BitVec 64) : Prop :=
  Unmapped e ∨ e = demandEntry ∨ ∃ f, IsFrame f ∧ e = mappedEntry f

/-- A zero entry is unmapped. -/
theorem unmapped_zero : Unmapped 0 := by decide

/-- A page that waits for its frame is not present. -/
theorem demandEntry_absent : demandEntry &&& ptePresent = 0 := by decide

theorem demandEntry_demand : demandEntry &&& pteDemandPaging ≠ 0 := by decide

theorem and_pageMask_of_aligned {f : Addr} (hf : Aligned f) : f &&& pageMask = f := by
  apply BitVec.eq_of_toNat_eq
  unfold Aligned at hf
  rw [and_pageMask_toNat]
  omega

/-- An aligned address has no bit below the page offset. -/
theorem and_low_of_aligned {f : Addr} (hf : Aligned f) {b : BitVec 64} (hb : pageMask &&& b = 0) :
    f &&& b = 0 := by
  rw [← and_pageMask_of_aligned hf, BitVec.and_assoc, hb]
  simp

theorem mappedEntry_and {f b : BitVec 64} :
    mappedEntry f &&& b = f &&& b ||| pteWritable &&& b ||| ptePresent &&& b := by
  ext i hi
  simp only [mappedEntry, BitVec.getElem_and, BitVec.getElem_or, Bool.and_or_distrib_right]

/-- A mapped page is present. -/
theorem mappedEntry_present (f : Addr) : mappedEntry f &&& ptePresent ≠ 0 := by
  intro h
  have h0 := congrArg (fun v : BitVec 64 => v.getLsbD 0) h
  simp [mappedEntry, ptePresent, pteWritable] at h0

theorem mappedEntry_huge {f : Addr} (hf : Aligned f) : mappedEntry f &&& pteHuge = 0 := by
  rw [mappedEntry_and, and_low_of_aligned hf (by decide)]
  decide

theorem mappedEntry_demand {f : Addr} (hf : Aligned f) : mappedEntry f &&& pteDemandPaging = 0 := by
  rw [mappedEntry_and, and_low_of_aligned hf (by decide)]
  decide

/-- A mapped entry has the address of its frame. -/
theorem mappedEntry_pageMask {f : Addr} (hf : Aligned f) : mappedEntry f &&& pageMask = f := by
  rw [mappedEntry_and, and_pageMask_of_aligned hf]
  simp [pteWritable, ptePresent, pageMask, pageSize]

/-- A mapped entry leads to its frame. -/
theorem childOf_mapped {m : Mem} {t f : Addr} {i : Index} (hf : Aligned f)
    (h : word m t i = mappedEntry f) : childOf m t i = some f := by
  rw [childOf, h, if_pos ⟨mappedEntry_present f, mappedEntry_huge hf⟩, mappedEntry_pageMask hf]

/-- An entry that is not present leads nowhere. -/
theorem childOf_eq_none {m : Mem} {t : Addr} {i : Index} (h : word m t i &&& ptePresent = 0) :
    childOf m t i = none := by
  rw [childOf, if_neg fun hc => hc.1 h]

/-! ## The invariant -/

/-- Paths to the tables that heap addresses go through. -/
def HeapTablePath (p : List Index) : Prop :=
  ∃ v, InHeap v ∧ p <:+ tablePath v

/-- The present entries above the last level of the heap are not huge and name a physical
address. -/
def HeapLinks (m : Mem) (r : Addr) : Prop :=
  ∀ i p t, HeapTablePath (i :: p) → node m r p = some t → word m t i &&& ptePresent ≠ 0 →
    word m t i &&& pteHuge = 0 ∧ (word m t i &&& pageMask).toNat < 2 ^ 52

/-- The address of the last-level entry of `v`, null where a table is missing. -/
def leafSlot (m : Mem) (r : Addr) (v : BitVec 64) : Addr :=
  match node m r (tablePath v) with
  | some pt => slot pt (ptIndex v)
  | none => 0

/-- The last-level entry of `v` is in the table that its path reaches. -/
theorem leafSlot_of_node {m : Mem} {r pt : Addr} {v : BitVec 64}
    (h : node m r (tablePath v) = some pt) : leafSlot m r v = slot pt (ptIndex v) := by
  rw [leafSlot, h]

theorem leafSlot_of_none {m : Mem} {r : Addr} {v : BitVec 64}
    (h : node m r (tablePath v) = none) : leafSlot m r v = 0 := by
  rw [leafSlot, h]

/-- `s` and the free frames `free` are in order. An entry at the null address is not in use,
since `get_pte` cannot return it. -/
structure HeapInv (s : Mmu) (free : List Addr) : Prop where
  listed : s.freeListInitialized = true
  /-- `free` is the free list. -/
  list : s.FreeList free
  nodup : free.Nodup
  frames : ∀ f ∈ free, IsFrame f
  /-- No page is reached by two paths. -/
  unique : UniquePaths (childOf s.mem) s.pml4t treePaths
  /-- No free frame is a table or mapped. -/
  fresh : ∀ f ∈ free, ¬Reached (childOf s.mem) s.pml4t treePaths f
  links : HeapLinks s.mem s.pml4t
  leaf : ∀ v, InHeap v → HeapLeaf (leafEntry s.mem s.pml4t v)
  brkAligned : Aligned s.kernelBrk
  /-- Nothing at or above `kernel_brk` is in use. -/
  unused : ∀ v, InHeap v → s.kernelBrk.toNat ≤ v.toNat → Unmapped (leafEntry s.mem s.pml4t v)
  null : ∀ v, InHeap v → leafSlot s.mem s.pml4t v = 0 → Unmapped (leafEntry s.mem s.pml4t v)

/-- The byte at a heap address : the byte of the frame its page has, or zero for a page that
waits for one. -/
def heapByte (m : Mem) (r : Addr) (v : BitVec 64) : Option (BitVec 8) :=
  let e := leafEntry m r v
  if e &&& ptePresent ≠ 0 then some (m ((e &&& pageMask) + pageOffset v))
  else if e &&& pteDemandPaging ≠ 0 then some 0
  else none

theorem aligned_pml4t (s : Mmu) : Aligned s.pml4t :=
  aligned_and_pageMask _

theorem HeapTablePath.length_le {p : List Index} (h : HeapTablePath p) : p.length ≤ 3 := by
  obtain ⟨v, -, h⟩ := h
  exact h.length_le

theorem HeapTablePath.mem {p : List Index} (h : HeapTablePath p) : p ∈ treePaths :=
  Or.inl h.length_le

/-! ## Keeping the tables -/

/-- The words that the paths of the tree read are the same in `m'`. -/
def KeepsTables (m m' : Mem) (r : Addr) : Prop :=
  ∀ q t j, j :: q ∈ treePaths → node m r q = some t → word m' t j = word m t j

namespace KeepsTables

variable {m m' : Mem} {r : Addr}

theorem nodes (h : KeepsTables m m' r) : ∀ q ∈ treePaths, node m' r q = node m r q :=
  walk_congr parentClosed_treePaths fun q t j hq ht => by
    rw [childOf, childOf, h q t j hq ht]

theorem symm (h : KeepsTables m m' r) : KeepsTables m' m r := fun q t j hq ht =>
  (h q t j hq ((h.nodes q (parentClosed_treePaths _ _ hq)).symm.trans ht)).symm

theorem reached_iff (h : KeepsTables m m' r) (f : Addr) :
    Reached (childOf m') r treePaths f ↔ Reached (childOf m) r treePaths f :=
  exists_congr fun q => and_congr_right fun hq => by rw [← node, h.nodes q hq]

theorem leafEntry (h : KeepsTables m m' r) {u : BitVec 64} (hu : InHeap u) :
    leafEntry m' r u = leafEntry m r u := by
  have hu' := h.nodes _ (tablePath_mem u)
  cases hpt : node m r (tablePath u) with
  | none => rw [leafEntry_of_none hpt, leafEntry_of_none (hu'.trans hpt)]
  | some pt =>
    rw [leafEntry_of_node hpt, leafEntry_of_node (hu'.trans hpt)]
    exact h _ _ _ (pathOf_mem hu) hpt

theorem leafSlot (h : KeepsTables m m' r) (u : BitVec 64) : leafSlot m' r u = leafSlot m r u := by
  rw [KernelDev.leafSlot, KernelDev.leafSlot, h.nodes _ (tablePath_mem u)]

theorem links (h : KeepsTables m m' r) (hl : HeapLinks m r) : HeapLinks m' r := by
  intro j q t hq ht hpres
  have ht' := (h.nodes q (parentClosed_treePaths _ _ hq.mem)).symm.trans ht
  rw [h q t j hq.mem ht'] at hpres ⊢
  exact hl j q t hq ht' hpres

/-- Bytes of pages that are not tables may change. -/
theorem of_pages {P : Set ℕ} (hr : Aligned r) (hm : ∀ x, pageOf x ∉ P → m' x = m x)
    (hP : ∀ p t, p.length ≤ 3 → node m r p = some t → pageOf t ∉ P) : KeepsTables m m' r := by
  intro q t j hq ht
  refine word_congr (aligned_of_node hr ht) (fun x hx => hm x ?_) j
  rw [hx]
  exact hP q t (length_le_of_cons_mem hq) ht

end KeepsTables

/-! ## Changing one entry -/

section

variable {m m' : Mem} {r t : Addr} {i : Index} {p : List Index} {x : Option Addr}

/-- The words that the paths of the tree read, but for one entry, are the same in `m'`. -/
def SameTables (m m' : Mem) (r t : Addr) (i : Index) : Prop :=
  ∀ q u j, j :: q ∈ treePaths → node m r q = some u → ¬(u = t ∧ j = i) → word m' u j = word m u j

theorem node_set (hu : UniquePaths (childOf m) r treePaths) (hp : i :: p ∈ treePaths)
    (ht : node m r p = some t) (hw : SameTables m m' r t i) (hx : childOf m' t i = x)
    (hold : p.length < 3 → childOf m t i = none)
    (hnew : p.length < 3 → ∀ f, x = some f → ∀ j, word m' f j = 0) :
    ∀ q ∈ treePaths, node m' r q = if q = i :: p then x else node m r q := by
  refine walk_set parentClosed_treePaths hu hp ht ?_ hx ?_ ?_
  · intro q u j hq hnode hne
    rw [childOf, childOf, hw q u j hq hnode hne]
  · intro j hj
    have hlen : p.length < 3 := length_le_of_cons_mem hj
    rw [walk_cons, walk_cons_of_some ht, hold hlen]
    rfl
  · intro j f hj hf
    have hlen : p.length < 3 := length_le_of_cons_mem hj
    exact childOf_eq_none (by rw [hnew hlen f hf j]; rfl)

/-- The heap's last-level entries when a cleared table is linked. -/
theorem leafEntry_link (hu : UniquePaths (childOf m) r treePaths) (hlen : p.length < 3)
    (ht : node m r p = some t) (hw : SameTables m m' r t i) (hold : childOf m t i = none) {f : Addr}
    (hnode : ∀ q ∈ treePaths, node m' r q = if q = i :: p then some f else node m r q)
    (hf : ∀ j, word m' f j = 0) {v : BitVec 64} (hv : InHeap v) :
    leafEntry m' r v = leafEntry m r v := by
  have hv' := hnode _ (tablePath_mem v)
  split_ifs at hv' with hpath
  · have hnone : node m r (tablePath v) = none := by
      rw [hpath]
      exact (walk_cons_of_some ht i).trans hold
    rw [leafEntry_of_none hnone, leafEntry_of_node hv', hf]
  · cases hpt : node m r (tablePath v) with
    | none => rw [leafEntry_of_none hpt, leafEntry_of_none (hv'.trans hpt)]
    | some pt =>
      rw [leafEntry_of_node hpt, leafEntry_of_node (hv'.trans hpt)]
      refine hw (tablePath v) pt _ (pathOf_mem hv) hpt ?_
      rintro ⟨rfl, -⟩
      have hsame := hu _ (tablePath_mem v) _ (Or.inl (by omega)) _ hpt ht
      rw [← hsame] at hlen
      exact absurd hlen (by simp)

/-- The heap's last-level entries when the entry of `v` changes. -/
theorem leafEntry_store {v : BitVec 64} (hu : UniquePaths (childOf m) r treePaths)
    (ht : node m r (tablePath v) = some t) (hw : SameTables m m' r t (ptIndex v))
    (hnode : ∀ q ∈ treePaths, node m' r q = if q = pathOf v then x else node m r q)
    {u : BitVec 64} (huv : InHeap u) :
    leafEntry m' r u = if pathOf u = pathOf v then word m' t (ptIndex v) else leafEntry m r u := by
  have hu' := hnode _ (tablePath_mem u)
  rw [if_neg (tablePath_ne_pathOf u v)] at hu'
  cases hpt : node m r (tablePath u) with
  | none =>
    have hne : pathOf u ≠ pathOf v := by
      intro h
      obtain ⟨-, h⟩ := List.cons.inj h
      rw [h, ht] at hpt
      cases hpt
    rw [if_neg hne, leafEntry_of_none hpt, leafEntry_of_none (hu'.trans hpt)]
  | some pt =>
    rw [leafEntry_of_node hpt, leafEntry_of_node (hu'.trans hpt)]
    split_ifs with hpath
    · obtain ⟨hidx, htab⟩ := List.cons.inj hpath
      rw [htab, ht, Option.some.injEq] at hpt
      rw [← hpt, ← hidx]
    · refine hw (tablePath u) pt _ (pathOf_mem huv) hpt ?_
      rintro ⟨rfl, hidx⟩
      have hsame := hu _ (tablePath_mem u) _ (tablePath_mem v) _ hpt ht
      exact hpath (by rw [pathOf, pathOf, hsame, hidx])

end

end KernelDev
