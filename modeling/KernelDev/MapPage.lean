import KernelDev.HeapRuns
import KernelDev.TableGrowth

/-!
# `map_page` and `unmap_page`

`map_page` makes the tables of a page with `get_pte` and stores its entry. It may take up to three
frames before it fails for want of one; the tables it made then stay, empty. `unmap_page` clears a
present entry and does nothing else. Both flush the page when they have stored.

What `map_page` does is said in two steps (`mapPage_spec`) : the tables grow, and the entry of the
page is stored if it was found. The first keeps every translation, since a new table is empty, and
the second changes that of one page. The translation of the page is read off the entry that was
stored (`pageEntry`), whose flags may be any but those that change the address.

`Mmu.mapPage_changes_one_page` is about every tree in order, with success or failure at any level :
the page is mapped to where it should be, the translation of no other page changes, and the tree is
well formed and apart from the free list again.
-/

namespace KernelDev

open ByteMem

/-- `PTE_USER` -/
def pteUser : BitVec 64 := 1 <<< 2

/-- The entry that `map_page` stores. -/
def pageEntry (paddr flags : BitVec 64) : BitVec 64 :=
  (paddr &&& pageMask) ||| flags ||| ptePresent

namespace Mmu

/-- `map_page` -/
def mapPage (s : Mmu) (pml4t : Addr) (vaddr paddr flags : BitVec 64) : Mmu :=
  let (s, pte) := s.getPte pml4t vaddr true
  if pte = 0 then s.printk "Failed to get PTE for address %lx\n" [.word vaddr]
  else (s.store64 pte (pageEntry paddr flags)).invlpg vaddr

/-- `unmap_page` -/
def unmapPage (s : Mmu) (pml4t : Addr) (vaddr : BitVec 64) : Mmu :=
  let (s, pte) := s.getPte pml4t vaddr false
  if pte ≠ 0 ∧ read64 s.mem pte &&& ptePresent ≠ 0 then (s.store64 pte 0).invlpg vaddr else s

/-- `map_page` finds or makes the entry of `vaddr`. -/
def MapSucceeds (s : Mmu) (vaddr : BitVec 64) : Prop :=
  (s.getPte s.pml4t vaddr true).2 ≠ 0

end Mmu

/-! ## The entry of a page -/

section

variable {v p flags : BitVec 64}

theorem or_ptePresent (e : BitVec 64) : (e ||| ptePresent) &&& ptePresent ≠ 0 := by
  intro h
  have h0 := congrArg (fun e : BitVec 64 => e.getLsbD 0) h
  simp [ptePresent] at h0

/-- The entry is present. -/
theorem pageEntry_present : pageEntry p flags &&& ptePresent ≠ 0 :=
  or_ptePresent _

/-- The entry has the address of the page. -/
theorem pageEntry_pageMask (hp : Aligned p) (hflags : flags.toNat < 4096) :
    pageEntry p flags &&& pageMask = p := by
  have hlow : flags &&& pageMask = 0 := by
    rw [← BitVec.toNat_inj, and_pageMask_toNat, Nat.div_eq_of_lt hflags]
    rfl
  have hpres : ptePresent &&& pageMask = 0 := by decide
  rw [pageEntry, and_pageMask_of_aligned hp, BitVec.and_or_distrib_right,
    BitVec.and_or_distrib_right, and_pageMask_of_aligned hp, hlow, hpres]
  simp

theorem toNat_add_offset {o : BitVec 64} (ho : o.toNat < 4096) :
    ((v &&& pageMask) + o).toNat = v.toNat / 4096 * 4096 + o.toNat := by
  have := v.isLt
  rw [BitVec.toNat_add, and_pageMask_toNat, Nat.mod_eq_of_lt (by omega)]

/-- The addresses of one page have one path. -/
theorem pathOf_add_offset {o : BitVec 64} (ho : o.toNat < 4096) :
    pathOf ((v &&& pageMask) + o) = pathOf v := by
  rw [pathOf_eq_iff_virtPage, virtPage, virtPage, toNat_add_offset ho]
  omega

theorem pageOffset_add_offset {o : BitVec 64} (ho : o.toNat < 4096) :
    pageOffset ((v &&& pageMask) + o) = o := by
  rw [← BitVec.toNat_inj, pageOffset_toNat, toNat_add_offset ho]
  omega

end

/-! ## One call -/

section

variable {s : Mmu} {free : List Addr} {v p flags : BitVec 64}

/-- What `map_page` does : the tables grow, and the entry of the page is stored if it was found. -/
theorem mapPage_spec (h : TableInv s free) (hv : NoHuge s.mem s.pml4t v) (p flags : BitVec 64) :
    ∃ s₁ free', Grows s free s₁ free' ∧
      ((∃ pt, s.MapSucceeds v ∧ tableAt s₁.mem s₁.pml4t (tablePath v) = some pt ∧
          s.mapPage s.pml4t v p flags =
            (s₁.store64 (slot pt (ptIndex v)) (pageEntry p flags)).invlpg v) ∨
        ¬s.MapSucceeds v ∧ s.mapPage s.pml4t v p flags =
          s₁.printk "Failed to get PTE for address %lx\n" [.word v]) := by
  obtain ⟨free', hg, hpte⟩ := getPte_grow h hv
  unfold Mmu.MapSucceeds Mmu.mapPage
  generalize s.getPte s.pml4t v true = step at hg hpte
  obtain ⟨s₁, pte⟩ := step
  refine ⟨s₁, free', hg, ?_⟩
  by_cases hnull : pte = 0
  · exact Or.inr ⟨not_not.2 hnull, if_pos hnull⟩
  · obtain ⟨pt, hpt, rfl, -⟩ := hpte.resolve_right fun hc => hnull hc.1
    rw [hg.pml4t]
    exact Or.inl ⟨pt, hnull, hpt, if_neg hnull⟩

/-- What `unmap_page` does : it clears the entry of the page, or nothing. -/
theorem unmapPage_spec (hv : NoHuge s.mem s.pml4t v) :
    s.unmapPage s.pml4t v = s ∨ ∃ pt, tableAt s.mem s.pml4t (tablePath v) = some pt ∧
      s.unmapPage s.pml4t v = (s.store64 (slot pt (ptIndex v)) 0).invlpg v := by
  rw [Mmu.unmapPage, getPte_find hv]
  simp only
  split_ifs with hpres
  swap
  · exact Or.inl rfl
  refine Or.inr ?_
  cases hpt : tableAt s.mem s.pml4t (tablePath v) with
  | none => exact absurd (entrySlot_of_none hpt) hpres.1
  | some pt => exact ⟨pt, rfl, by rw [entrySlot_of_some hpt]⟩

/-- The tree is well formed again. -/
theorem TableInv.mapPage (h : TableInv s free) (hv : NoHuge s.mem s.pml4t v) (p flags : BitVec 64) :
    ∃ free', TableInv (s.mapPage s.pml4t v p flags) free' ∧ free' <:+ free := by
  obtain ⟨s₁, free', hg, ⟨pt, -, hpt, heq⟩ | ⟨-, heq⟩⟩ := mapPage_spec h hv p flags
  · rw [heq]
    exact ⟨free', (hg.inv.store hpt).invlpg v, hg.suffix⟩
  · rw [heq]
    exact ⟨free', hg.inv.printk _ _, hg.suffix⟩

theorem mapPage_pml4t (h : TableInv s free) (hv : NoHuge s.mem s.pml4t v) (p flags : BitVec 64) :
    (s.mapPage s.pml4t v p flags).pml4t = s.pml4t := by
  obtain ⟨s₁, free', hg, ⟨pt, -, -, heq⟩ | ⟨-, heq⟩⟩ := mapPage_spec h hv p flags
  · rw [heq]
    exact hg.pml4t
  · rw [heq]
    exact hg.pml4t

/-- A page beside one that was mapped has its table, so that it can be mapped too. -/
theorem mapSucceeds_mapPage (h : TableInv s free) (hv : NoHuge s.mem s.pml4t v)
    (hok : s.MapSucceeds v) {u : BitVec 64} (htable : tablePath u = tablePath v)
    (hindex : ptIndex u ≠ 0) (p flags : BitVec 64) :
    (s.mapPage s.pml4t v p flags).MapSucceeds u := by
  obtain ⟨s₁, free', hg, ⟨pt, -, hpt, heq⟩ | ⟨hfail, -⟩⟩ := mapPage_spec h hv p flags
  swap
  · exact absurd hok hfail
  have htab := (hg.inv.tableAt_store (e := pageEntry p flags) hpt (length_tablePath u).le).trans
    (htable ▸ hpt)
  have hpte : (s.mapPage s.pml4t v p flags).getPte (s.mapPage s.pml4t v p flags).pml4t u true =
      (s.mapPage s.pml4t v p flags, slot pt (ptIndex u)) := by
    rw [heq]
    exact getPte_of_tableAt
      (s := (s₁.store64 (slot pt (ptIndex v)) (pageEntry p flags)).invlpg v) htab true
  rw [Mmu.MapSucceeds, hpte]
  exact slot_ne_zero_of_index (aligned_tableAt (aligned_pml4t s₁) hpt) hindex

/-- The entry of a page that was mapped. -/
theorem pathEntry_mapPage (h : TableInv s free) (hv : NoHuge s.mem s.pml4t v)
    (hok : s.MapSucceeds v) (p flags : BitVec 64) :
    pathEntry (s.mapPage s.pml4t v p flags).mem s.pml4t (pathOf v) = pageEntry p flags := by
  obtain ⟨s₁, free', hg, ⟨pt, -, hpt, heq⟩ | ⟨hfail, -⟩⟩ := mapPage_spec h hv p flags
  · rw [heq, Mmu.invlpg_mem, ← hg.pml4t, hg.inv.pathEntry_store hpt (by simp), if_pos rfl]
  · exact absurd hok hfail

/-- The translations after `map_page` succeeded. -/
theorem translation_mapPage (h : TableInv s free) (hv : NoHuge s.mem s.pml4t v)
    (hok : s.MapSucceeds v) (p flags u : BitVec 64) :
    (s.mapPage s.pml4t v p flags).translation u =
      if pathOf u = pathOf v then some ((pageEntry p flags &&& pageMask) + pageOffset u)
      else s.translation u := by
  obtain ⟨s₁, free', hg, ⟨pt, -, hpt, heq⟩ | ⟨hfail, -⟩⟩ := mapPage_spec h hv p flags
  swap
  · exact absurd hok hfail
  have hentry := fun q => hg.inv.pathEntry_store (e := pageEntry p flags) hpt (q := q)
  rw [heq]
  show translate
    (pathEntry (s₁.store64 (slot pt (ptIndex v)) (pageEntry p flags)).mem s₁.pml4t) u = _
  split_ifs with hpath
  · have htab : tableAt (s₁.store64 (slot pt (ptIndex v)) (pageEntry p flags)).mem s₁.pml4t
        (tablePath u) = some pt := by
      rw [(List.cons.inj hpath).2, hg.inv.tableAt_store hpt (by simp), hpt]
    rw [translate_of_tableAt htab, hentry _ (by simp), if_pos hpath, if_neg pageEntry_present]
  · -- the entries on the walk of another page are those of the grown tree
    have hshort : ∀ q, q.length ≤ 3 → q ≠ pathOf v := by
      rintro q hq rfl
      simp at hq
    have hkept : ∀ q, q.length ≤ 4 → q ≠ pathOf v →
        pathEntry (s₁.store64 (slot pt (ptIndex v)) (pageEntry p flags)).mem s₁.pml4t q =
          pathEntry s₁.mem s₁.pml4t q := fun q hq hne => by
      rw [hentry q hq, if_neg hne]
    rw [translate_congr (hkept _ (by simp) (hshort _ (by simp)))
      (hkept _ (by simp) (hshort _ (by simp))) (hkept _ (by simp) (hshort _ (by simp)))
      (hkept _ (by simp) hpath), hg.pml4t, hg.translations, Mmu.translation]

/-- A failed `map_page` changes no translation. -/
theorem translation_mapPage_of_fails (h : TableInv s free) (hv : NoHuge s.mem s.pml4t v)
    (hfail : ¬s.MapSucceeds v) (p flags u : BitVec 64) :
    (s.mapPage s.pml4t v p flags).translation u = s.translation u := by
  obtain ⟨s₁, free', hg, ⟨pt, hok, -⟩ | ⟨-, heq⟩⟩ := mapPage_spec h hv p flags
  · exact absurd hok hfail
  · rw [heq]
    show translate (pathEntry s₁.mem s₁.pml4t) u = _
    rw [hg.pml4t, hg.translations, Mmu.translation]

/-- `map_page` maps the page of `v` to the page at `p` and changes the translation of no other
page; if it fails, of none. The page tables are well formed and apart from the free list again. -/
theorem Mmu.mapPage_changes_one_page (h : TableInv s free) (hv : NoHuge s.mem s.pml4t v)
    (hp : Aligned p) (hflags : flags.toNat < 4096) :
    let s' := s.mapPage s.pml4t v p flags
    (s.MapSucceeds v → ∀ o : BitVec 64, o.toNat < 4096 →
      s'.virtToPhys ((v &&& pageMask) + o) = (s', p + o)) ∧
    (∀ u, virtPage u ≠ virtPage v ∨ ¬s.MapSucceeds v → s.SameTranslation s' u) ∧
    s'.pml4t = s.pml4t ∧ ∃ free', TableInv s' free' ∧ free' <:+ free := by
  refine ⟨fun hok o ho => ?_, fun u hu => ?_, mapPage_pml4t h hv p flags, h.mapPage hv p flags⟩
  · refine Mmu.virtToPhys_of_translation ?_
    rw [translation_mapPage h hv hok, if_pos (pathOf_add_offset ho), pageEntry_pageMask hp hflags,
      pageOffset_add_offset ho]
  · refine Mmu.sameTranslation_of_eq ?_
    by_cases hok : s.MapSucceeds v
    · have hpath : pathOf u ≠ pathOf v := fun hc =>
        (hu.resolve_right (not_not.2 hok)) (pathOf_eq_iff_virtPage.1 hc)
      rw [translation_mapPage h hv hok, if_neg hpath]
    · exact translation_mapPage_of_fails h hv hok p flags u

end

/-! ## A mapping in an empty tree -/

theorem tableAt_bareHeap {p : List Index} (hp : p ≠ []) :
    tableAt bareHeap.mem bareHeap.pml4t p = none :=
  tableAt_of_empty (fun i => by rw [word_bareHeap_root]; rfl) hp

theorem eq_nil_of_tableAt_bareHeap {p : List Index} {t : Addr}
    (h : tableAt bareHeap.mem bareHeap.pml4t p = some t) : p = [] ∧ t = 0x1000 := by
  by_cases hp : p = []
  · subst hp
    exact ⟨rfl, (Option.some.inj h).symm.trans (by decide)⟩
  · rw [tableAt_bareHeap hp] at h
    cases h

theorem tableInv_bareHeap : TableInv bareHeap [0x2000, 0x3000, 0x4000, 0x5000] where
  listed := rfl
  list := heapStart_bareHeap.list
  nodup := heapStart_bareHeap.nodup
  aligned := fun f hf => (heapStart_bareHeap.frames f hf).aligned
  distinct := fun p q t _ _ hp hq => by
    rw [(eq_nil_of_tableAt_bareHeap hp).1, (eq_nil_of_tableAt_bareHeap hq).1]
  apart := fun f hf p _ hp => by
    rw [(eq_nil_of_tableAt_bareHeap hp).2] at hf
    exact absurd hf (by decide)

theorem noHuge_bareHeap (v : BitVec 64) : NoHuge bareHeap.mem bareHeap.pml4t v := by
  rintro q (rfl | rfl) hpres
  · rw [pdPath, pathEntry_cons_of_none (tableAt_bareHeap (by simp [pdptPath]))]
    rfl
  · rw [tablePath, pathEntry_cons_of_none (tableAt_bareHeap (by simp [pdPath]))]
    rfl

theorem notTable_zero_bareHeap : NotTable bareHeap.mem bareHeap.pml4t 0 := fun _ _ hp =>
  absurd (eq_nil_of_tableAt_bareHeap hp).2 (by decide)

theorem missingTables_bareHeap (v : BitVec 64) :
    missingTables bareHeap.mem bareHeap.pml4t v = 3 := by
  rw [missingTables, missing_of_none (tableAt_bareHeap (by simp [pdptPath])),
    missing_of_none (tableAt_bareHeap (by simp [pdPath])),
    missing_of_none (tableAt_bareHeap (by simp [tablePath]))]

/-- There are frames for the tables of one page. -/
theorem mapSucceeds_bareHeap (v : BitVec 64) : bareHeap.MapSucceeds v := by
  rw [Mmu.MapSucceeds, getPte_ne_zero_iff tableInv_bareHeap (noHuge_bareHeap _)
    notTable_zero_bareHeap, missingTables_bareHeap]
  decide

theorem mapPage_changes_one_page_bareHeap :
    let s' := bareHeap.mapPage bareHeap.pml4t kernelHeapAdr 0x200000 pteWritable
    s'.virtToPhys (kernelHeapAdr + 0x123) = (s', 0x200123) :=
  (Mmu.mapPage_changes_one_page tableInv_bareHeap (noHuge_bareHeap kernelHeapAdr)
    (by decide) (by decide)).1 (mapSucceeds_bareHeap _) 0x123 (by decide)

end KernelDev
