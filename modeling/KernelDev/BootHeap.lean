import KernelDev.BootTree
import KernelDev.FreshHeap
import KernelDev.HeapConfined
import KernelDev.LinkedFrames

/-!
# The heap of a booted kernel

What `boot.asm` and `MMU_init` leave is a state in which the runs of the heap can start
(`CleanBoot.freshHeap`), if the boot loader offers each page once, none beyond the identity map,
and none of the page tables. That is `CleanBoot`, a condition on the information block and on where
the linker puts the tables; nothing in the code sees to it. Every further hypothesis of the heap is
then met : the tables are those of `boot.asm`, the free list will be built from the regions, and
its frames are apart from the tables and from each other.

From there on every run of the heap is one of `HeapRuns` (`booted_heap`). The bytes that heap
addresses are mapped to are those of the trace. No byte changes that was not offered to the
allocator but those of two entries of the top-level table, which are all entries that heap
addresses go through (`heapPath_singleton`). And the identity map stays, as its tables are not
written (`BootTree.run_virtToPhys`).

The last part is a boot with eight free pages and the tables behind them, which meets the
condition.
-/

namespace KernelDev

open ByteMem PathTree

/-! ## What `MMU_init` leaves alone -/

/-- `CR3` and `kernel_brk` are the same. -/
def SamePaging (s t : Mmu) : Prop :=
  t.cr3 = s.cr3 ∧ t.kernelBrk = s.kernelBrk

namespace SamePaging

variable {s t u : Mmu}

theorem refl (s : Mmu) : SamePaging s s :=
  ⟨rfl, rfl⟩

theorem trans (h : SamePaging s t) (h' : SamePaging t u) : SamePaging s u :=
  ⟨h'.1.trans h.1, h'.2.trans h.2⟩

theorem foldl {α : Type*} {f : Mmu → α → Mmu} (h : ∀ s a, SamePaging s (f s a)) (l : List α)
    (s : Mmu) : SamePaging s (l.foldl f s) := by
  induction l generalizing s with
  | nil => exact refl s
  | cons a l ih => exact (h s a).trans (ih _)

end SamePaging

theorem addEntry_samePaging (s : Mmu) (a : Addr) : SamePaging s (s.addEntry a) := by
  unfold Mmu.addEntry
  dsimp only
  split_ifs <;> exact ⟨rfl, rfl⟩

theorem reserveRegion_samePaging (ps pe : Addr) (s : Mmu) (j : ℕ) :
    SamePaging s (Mmu.reserveRegion ps pe s j) := by
  unfold Mmu.reserveRegion
  cases s.memoryRegions[j]? with
  | none => exact .refl s
  | some r =>
    dsimp only
    split_ifs <;> exact ⟨rfl, rfl⟩

theorem processSection_samePaging (s : Mmu) (shdr : Addr) :
    SamePaging s (s.processSection shdr) := by
  unfold Mmu.processSection
  dsimp only
  split_ifs
  · exact .refl s
  · exact .refl s
  · exact SamePaging.foldl (reserveRegion_samePaging _ _) _ (s.printk _ _)

theorem run_samePaging (s : Mmu) (i : BootItem) : SamePaging s (i.run s) := by
  cases i with
  | entry a => exact addEntry_samePaging s a
  | header shdr => exact processSection_samePaging s shdr
  | message call => exact ⟨rfl, rfl⟩

/-- `MMU_init` moves neither `CR3` nor `kernel_brk`. -/
theorem mmuInit_samePaging {s t : Mmu} {multibootInfo : Addr}
    (h : s.mmuInit multibootInfo = some t) : SamePaging s t := by
  have hitems := SamePaging.foldl run_samePaging (bootItems s.mem multibootInfo) s
  obtain ⟨c, rfl⟩ := Mmu.mmuInit_items h
  exact ⟨hitems.1, hitems.2⟩

/-- `MMU_init` writes no memory. -/
theorem mmuInit_mem {s t : Mmu} {multibootInfo : Addr} (h : s.mmuInit multibootInfo = some t) :
    t.mem = s.mem := by
  have hkeeps := Mmu.foldl_run_keeps (bootItems s.mem multibootInfo) s
  obtain ⟨c, rfl⟩ := Mmu.mmuInit_items h
  exact hkeeps.mem

/-! ## The heap in the boot tables -/

section

variable {t : BootTables} {m : Mem} {r u : Addr} {i : Index} {p : List Index}

/-- The entries of the top-level table that heap addresses go through. -/
theorem heapPath_singleton (h : HeapPath [i]) : i.toNat = 2 ∨ i.toNat = 3 := by
  obtain ⟨v, hv, l, hl⟩ := h
  have hlast := congrArg List.getLast? hl
  simp only [List.getLast?_append, List.getLast?_singleton, Option.some_or, pathOf, tablePath,
    pdPath, pdptPath, List.getLast?_cons_cons, Option.some.injEq] at hlast
  rw [inHeap_iff] at hv
  rw [hlast, BitVec.toNat_setWidth, BitVec.toNat_ushiftRight, Nat.shiftRight_eq_div_pow]
  omega

/-- The entries of the heap are empty. -/
theorem bootWord_heap (h : HeapPath [i]) : t.bootWord t.p4Table i = 0 := by
  have hi := heapPath_singleton h
  have hne : ∀ j : Index, j.toNat ≠ 2 → j.toNat ≠ 3 → i ≠ j := by
    rintro j h2 h3 rfl
    exact hi.elim h2 h3
  rw [BootTables.bootWord_p4Table, if_neg (hne 16 (by decide) (by decide)),
    if_neg (hne 15 (by decide) (by decide)), if_neg (hne 1 (by decide) (by decide)),
    if_neg (hne 0 (by decide) (by decide))]

/-- The heap has no tables of its own yet. -/
theorem node_heap_eq_none (hw : t.HasWords m t.bootWord) : ∀ {p : List Index}, HeapPath p → p ≠ [] →
    node m (linear t.p4Table) p = none
  | [], _, hne => absurd rfl hne
  | [i], hp, _ => by
    refine (walk_cons_of_some walk_nil i).trans (childOf_eq_none ?_)
    rw [hw _ (by simp [BootTables.tables]), bootWord_heap hp]
    rfl
  | i :: j :: p, hp, _ => walk_cons_of_none (node_heap_eq_none hw hp.tail (List.cons_ne_nil j p)) i

/-- The tables that the kernel's paths reach are tables. -/
theorem tableAt_of_node : ∀ {p : List Index} {u : Addr}, node m r p = some u →
    tableAt m r p = some u
  | [], _, h => h
  | i :: p, u, h => by
    obtain ⟨t, ht, hu⟩ := walk_cons_eq_some.1 h
    rw [tableAt_cons (tableAt_of_node ht), ← hu, tableLink, childOf]
    by_cases hlink : word m t i &&& ptePresent ≠ 0 ∧ word m t i &&& pteHuge = 0
    · rw [if_pos hlink, if_pos ⟨hlink.1, .inr hlink.2⟩]
    · rw [childOf, if_neg hlink] at hu
      cases hu

end

namespace BootTree

variable {t : BootTables} {s : Mmu} {free : List Addr}

theorem node_tables (h : BootTree t s free) {p : List Index} {u : Addr}
    (hp : node s.built.mem s.built.pml4t p = some u) :
    ∃ table, t.tableOf p = some table ∧ u = linear table := by
  have htab := tableAt_of_node hp
  rw [h.built_pml4t, BootTables.tableAt_bootWord h.built_words] at htab
  obtain ⟨table, htable, rfl⟩ := Option.map_eq_some_iff.1 htab
  exact ⟨table, htable, rfl⟩

/-- The heap has no table. -/
theorem node_eq_none (h : BootTree t s free) {p : List Index} (hp : HeapPath p) (hne : p ≠ []) :
    node s.built.mem s.built.pml4t p = none := by
  rw [h.built_pml4t]
  exact node_heap_eq_none h.built_words hp hne

/-- What the heap has is the free frames. -/
theorem mem_of_owned (h : BootTree t s free) {f : Addr} (hf : Owned s.built f) : f ∈ free := by
  obtain ⟨free', hlist, hf⟩ | ⟨p, hne, hp, hnode⟩ := hf
  · obtain rfl := hlist.unique h.list
    exact hf
  · rw [h.node_eq_none hp hne] at hnode
    cases hnode

/-- The runs of the heap can start. -/
theorem heapFirst (h : BootTree t s free) (hframes : ∀ f ∈ free, IsFrame f)
    (hbrk : s.kernelBrk = kernelHeapAdr) : HeapFirst s free := by
  obtain ⟨m, head, hbuilt⟩ := Mmu.exists_built_eq h.first
  have hbrk' : s.built.kernelBrk = kernelHeapAdr := by
    rw [hbuilt]
    exact hbrk
  refine ⟨⟨h.listed, h.list, h.nodup, hframes, ?_, ?_, ?_, ?_, ?_, ?_, ?_⟩, h.first⟩
  · rw [h.built_pml4t, linear_toNat]
    have hlt := t.p4Table.isLt
    omega
  · intro p _ q _ u hp hq
    obtain ⟨table, htp, rfl⟩ := h.node_tables hp
    obtain ⟨table', htq, heq⟩ := h.node_tables hq
    obtain rfl := linear_injective heq
    exact BootTables.tableOf_injective htp htq
  · rintro f hf ⟨p, -, hp⟩
    obtain ⟨table, htp, rfl⟩ := h.node_tables hp
    exact h.apart _ hf table (BootTables.tableOf_mem htp) rfl
  · intro i p u hp hu hpres
    cases p with
    | nil =>
      obtain rfl := Option.some.inj hu
      rw [h.built_pml4t, h.built_words _ (by simp [BootTables.tables]),
        bootWord_heap hp.heapPath] at hpres
      exact absurd Mmu.zero_and_present hpres
    | cons j q =>
      rw [h.node_eq_none hp.heapPath.tail (List.cons_ne_nil j q)] at hu
      cases hu
  · intro v hv
    rw [leafEntry_of_none (h.node_eq_none (heapTablePath_table hv).heapPath (List.cons_ne_nil _ _))]
    exact ⟨rfl, rfl⟩
  · rw [hbrk']
    decide
  · rw [hbrk']
    decide

end BootTree

/-! ## After `MMU_init` -/

/-- How often the information block offers `x`, as `MMU_init` finds it. -/
def offered (t : BootTables) (s : Mmu) (multibootInfo x : Addr) : ℕ :=
  coverage (t.enablePaging s) (bootItems (t.enablePaging s).mem multibootInfo) x

/-- Before `boot.asm` runs. No page is offered twice, none that is not in the identity map, and
none that has one of the tables. -/
structure CleanBoot (t : BootTables) (s : Mmu) (multibootInfo : Addr) : Prop where
  start : s.BootStart
  brk : s.kernelBrk = kernelHeapAdr
  zeroed : t.Zeroed s.mem
  once : ∀ x, offered t s multibootInfo x ≤ 1
  /-- No page is beyond the identity map. -/
  low : ∀ x, 2 ^ 30 ≤ x.toNat → offered t s multibootInfo x = 0
  /-- No page has one of the tables. -/
  apart : ∀ table ∈ t.tables, offered t s multibootInfo (linear table) = 0

/-- The bytes of an available frame are on offer, and lie above 1 MiB. -/
theorem IsAvailable.offerCount_pos {regions : List MemRegion} {f x : Addr}
    (h : IsAvailable regions f) (hwhole : ∀ r ∈ regions, r.Whole) (hx : pageOf x = pageOf f) :
    0 < offerCount regions x ∧ 0x100000 ≤ x.toNat := by
  obtain ⟨r, hr, htype, hcov⟩ := h.region
  have hstart := (hwhole r hr).start
  have hend := (hwhole r hr).end_
  have hal := h.aligned
  have hfloor := h.floor
  unfold MemRegion.Covers at hcov
  unfold Aligned pageOf at *
  exact ⟨KernelDev.offerCount_pos.2 ⟨r, hr, htype, by unfold MemRegion.Covers; omega⟩, by omega⟩

theorem Mmu.BootStart.enablePaging {s : Mmu} (h : s.BootStart) (t : BootTables) :
    (t.enablePaging s).BootStart :=
  ⟨h.regions, h.total, h.free, h.reserved, h.built, h.head⟩

namespace CleanBoot

variable {t : BootTables} {s u : Mmu} {multibootInfo f x : Addr}

/-- The state after `MMU_init`. -/
theorem booted (h : CleanBoot t s multibootInfo)
    (hinit : (t.enablePaging s).mmuInit multibootInfo = some u) :
    ∃ lost, Mmu.Booted (t.enablePaging s) (bootItems (t.enablePaging s).mem multibootInfo) u
      lost :=
  (h.start.enablePaging t).mmuInit hinit

/-- What is listed was offered. -/
theorem offered_pos (h : CleanBoot t s multibootInfo)
    (hinit : (t.enablePaging s).mmuInit multibootInfo = some u)
    (hf : f ∈ listedFrames u.memoryRegions) (hx : pageOf x = pageOf f) :
    0 < offered t s multibootInfo x ∧ 0x100000 ≤ x.toNat := by
  obtain ⟨lost, hboot⟩ := h.booted hinit
  have havail := (mem_listedFrames hboot.unlisted.aligned).1 hf
  obtain ⟨hpos, hfloor⟩ := havail.offerCount_pos hboot.accounts.whole hx
  exact ⟨hpos.trans_le (hboot.covers x), hfloor⟩

theorem bootTree (h : CleanBoot t s multibootInfo)
    (hinit : (t.enablePaging s).mmuInit multibootInfo = some u) :
    BootTree t u (listedFrames u.memoryRegions).reverse := by
  obtain ⟨lost, hboot⟩ := h.booted hinit
  have hun := hboot.unbuilt fun x => (hboot.covers x).trans (h.once x)
  refine ⟨?_, ?_, fun _ => hun, ?_, List.nodup_reverse.2 (nodup_listedFrames hun.table), ?_, ?_⟩
  · rw [mmuInit_mem hinit]
    exact BootTables.hasWords_setUpPageTables h.zeroed
  · rw [Mmu.pml4t, (mmuInit_samePaging hinit).1]
    exact BootTables.pml4t_enablePaging
  · obtain ⟨m, head, heq, hchain⟩ := hun.built_eq
    rw [heq]
    exact hchain
  · intro f hf
    exact ((mem_listedFrames hun.table.aligned).1 (List.mem_reverse.1 hf)).aligned
  · rintro f hf table htable rfl
    have hpos := (h.offered_pos hinit (List.mem_reverse.1 hf) rfl).1
    rw [h.apart table htable] at hpos
    exact absurd hpos (Nat.lt_irrefl 0)

/-- The runs of a fresh heap can start. -/
theorem freshHeap (h : CleanBoot t s multibootInfo)
    (hinit : (t.enablePaging s).mmuInit multibootInfo = some u) :
    FreshHeap u (listedFrames u.memoryRegions).reverse := by
  have htree := h.bootTree hinit
  have hbrk : u.kernelBrk = kernelHeapAdr := (mmuInit_samePaging hinit).2.trans h.brk
  refine ⟨htree.heapFirst (fun f hf => ⟨htree.aligned f hf, ?_, ?_⟩) hbrk, hbrk, fun v hv => ?_⟩
  · rintro rfl
    have hfloor := (h.offered_pos hinit (List.mem_reverse.1 hf) rfl).2
    exact absurd hfloor (by decide)
  · by_contra hge
    have hpos := (h.offered_pos hinit (List.mem_reverse.1 hf) rfl).1
    rw [h.low f (by omega)] at hpos
    exact absurd hpos (Nat.lt_irrefl 0)
  · rw [htree.root, htree.words _ (by simp [BootTables.tables]),
      bootWord_heap (heapTablePath_pdpt hv).heapPath]
    exact BitVec.zero_and

end CleanBoot

/-! ## Runs -/

section

variable {t : BootTables} {u v : Mmu} {free : List Addr} {tr : List HeapEvent} {x : Addr}

/-- Along a run only the free frames and the heap's entries in the top-level table are written. -/
theorem BootTree.run_mem (htree : BootTree t u free) (h : FreshHeap u free)
    (hrun : Run HeapStepIn u tr v) (hfree : pageOf x ∉ framePages free)
    (hslot : ∀ i : Index, i.toNat = 2 ∨ i.toNat = 3 → ¬Within (slot (linear t.p4Table) i) 8 x) :
    v.mem x = u.mem x := by
  rcases h.run_built hrun with ⟨rfl, -⟩ | hrun'
  · rfl
  rw [← Mmu.built_mem htree.first htree.list hfree]
  refine (confines_heapRelation.run h.first.start hrun').kept x ?_
  rintro (⟨f, hf, hx⟩ | ⟨i, hi, hx⟩)
  · exact hfree ⟨f, htree.mem_of_owned hf, hx.symm⟩
  · rw [htree.built_pml4t] at hx
    exact hslot i (heapPath_singleton hi) hx

/-- The walk of an address below 1 GiB reads words that `boot.asm` wrote. -/
theorem BootTables.virtToPhys_words {a : Addr} (ha : a.toNat < 2 ^ 30)
    (hroot : v.pml4t = linear t.p4Table)
    (h4 : word v.mem (linear t.p4Table) 0 = t.bootWord t.p4Table 0)
    (h3 : word v.mem (linear t.pdptLow) 0 = t.bootWord t.pdptLow 0)
    (h2 : ∀ j, word v.mem (linear t.pdTable) j = t.bootWord t.pdTable j) :
    v.virtToPhys a = (v, a) := by
  have hlow : t.pdptLow ∈ t.tables := by simp [tables]
  have hpd : t.pdTable ∈ t.tables := by simp [tables]
  have hix4 : (a >>> 39).setWidth 9 = 0 := by bv_omega
  have hix3 : (a >>> 30).setWidth 9 = 0 := by bv_omega
  have hp4 : t.bootWord t.p4Table 0 = tableEntry t.pdptLow := bootWord_p4Table 0
  rw [hp4] at h4
  rw [bootWord_pdptLow, if_pos rfl] at h3
  simp only [bootWord_pdTable] at h2
  have hcr3 : v.cr3 &&& pageMask = linear t.p4Table := hroot
  simp only [Mmu.virtToPhys, physToVirt, getPageIndices, hcr3, entryAt_eq_slot, read64_slot, hix4,
    h4, tableEntry_present, tableEntry_pageMask hlow, hix3, h3, tableEntry_pageMask hpd,
    tableEntry_huge hpd, h2, hugeEntry_present, if_false, if_true, ne_eq, not_true_eq_false,
    not_false_eq_true, hugeEntry_base ha]

/-- The identity map stays. -/
theorem BootTree.run_virtToPhys (htree : BootTree t u free) (h : FreshHeap u free)
    (hrun : Run HeapStepIn u tr v) {a : Addr} (ha : a.toNat < 2 ^ 30) :
    v.virtToPhys a = (v, a) := by
  have hfree : ∀ table ∈ t.tables, ∀ x, pageOf x = pageOf (linear table) →
      pageOf x ∉ framePages free := by
    rintro table htable x hx ⟨f, hf, hpage⟩
    have hal := aligned_linear (t.aligned table htable)
    exact htree.apart f hf table htable
      ((htree.aligned f hf).eq_of_pageOf_eq hal (hpage.trans hx))
  have hword : ∀ table ∈ t.tables, ∀ j, (table = t.p4Table → j = 0) →
      word v.mem (linear table) j = t.bootWord table j := by
    intro table htable j hj
    have hal := aligned_linear (t.aligned table htable)
    rw [← htree.words table htable j]
    refine read64_congr fun x hx => htree.run_mem h hrun
      (hfree table htable x (hal.pageOf_of_within_slot hx)) fun i hi => ?_
    refine not_within_slot (aligned_linear (t.aligned _ (by simp))) hal ?_ hx
    rintro ⟨heq, rfl⟩
    rw [hj (linear_injective heq)] at hi
    exact absurd hi (by decide)
  have hcr3 : v.pml4t = u.pml4t := by
    rcases h.run_built hrun with ⟨rfl, -⟩ | hrun'
    · rfl
    · rw [(confines_heapRelation.run h.first.start hrun').pml4t, htree.built_pml4t, htree.root]
  obtain ⟨-, hp4pd, -⟩ := t.tables_ne
  exact BootTables.virtToPhys_words ha (hcr3.trans htree.root)
    (hword _ (by simp [BootTables.tables]) 0 fun _ => rfl)
    (hword _ (by simp [BootTables.tables]) 0 fun _ => rfl)
    fun j => hword _ (by simp [BootTables.tables]) j fun hc => absurd hc.symm hp4pd

end

/-- From boot on, along every run of the heap : the bytes that heap addresses are mapped to are
those of the trace, no byte changes that was not offered to the allocator, but those of two
entries of the top-level table, and every address of the first GiB is mapped to itself. -/
theorem booted_heap {t : BootTables} {s u v : Mmu} {multibootInfo : Addr} {tr : List HeapEvent}
    (h : CleanBoot t s multibootInfo)
    (hinit : (t.enablePaging s).mmuInit multibootInfo = some u) (hrun : Run HeapStepIn u tr v) :
    (∀ a, InHeap a → heapByte v.mem v.pml4t a = HeapEvent.contents tr a) ∧
    (∀ x, x.toNat < 0x100000 ∨ offered t s multibootInfo x = 0 →
      (∀ i : Index, i.toNat = 2 ∨ i.toNat = 3 → ¬Within (slot (linear t.p4Table) i) 8 x) →
      v.mem x = (t.enablePaging s).mem x) ∧
    ∀ a : Addr, a.toNat < 2 ^ 30 → v.virtToPhys a = (v, a) := by
  have htree := h.bootTree hinit
  have hfresh := h.freshHeap hinit
  refine ⟨fun a => hfresh.run_contents hrun, fun x hx hslot => ?_,
    fun a => htree.run_virtToPhys hfresh hrun⟩
  rw [← mmuInit_mem hinit]
  refine htree.run_mem hfresh hrun ?_ hslot
  rintro ⟨f, hf, hpage⟩
  obtain ⟨hpos, hfloor⟩ := h.offered_pos hinit (List.mem_reverse.1 hf) hpage.symm
  omega

/-! ## A boot with eight free pages -/

section

variable {x : Addr}

theorem repStosb_of_outside (al : BitVec 8) : ∀ (n : ℕ) {edi : BitVec 32} {m : Mem},
    edi.toNat + n < 2 ^ 32 → x.toNat < edi.toNat ∨ edi.toNat + n ≤ x.toNat →
    repStosb al n edi m x = m x
  | 0, _, _, _, _ => by rw [repStosb]
  | n + 1, edi, m, hlt, hx => by
    have hnext : (edi + 1).toNat = edi.toNat + 1 := by bv_omega
    have hne : x ≠ linear edi := by
      rintro rfl
      rw [linear_toNat] at hx
      omega
    rw [repStosb, repStosb_of_outside al n (by omega) (by omega), Function.update_of_ne hne]

theorem write32_slot_of_outside {f : Addr} (hf : Aligned f) (hx : pageOf x ≠ pageOf f) (m : Mem)
    (i : Index) (v : BitVec 32) : write32 m (slot f i) v x = m x :=
  write32_of_not_within fun hw =>
    hx (hf.pageOf_of_within_slot (i := i) (Nat.lt_trans hw (by decide)))

theorem mapP2Table_of_outside {pdTable : BitVec 32} (hpd : pdTable.toNat % 4096 = 0)
    (hx : pageOf x ≠ pageOf (linear pdTable)) : ∀ (n : ℕ) {ecx : BitVec 32} {m : Mem},
    ecx.toNat + n = 511 → mapP2Table pdTable ecx m x = m x
  | 0, ecx, m, hn => by
    have hlast : ecx + 1 = 512 := by bv_omega
    rw [mapP2Table, dif_pos hlast, linear_add hpd (by omega)]
    exact write32_slot_of_outside (aligned_linear hpd) hx m _ _
  | n + 1, ecx, m, hn => by
    have hnext : ecx + 1 ≠ 512 := by bv_omega
    have hecx : (ecx + 1).toNat = ecx.toNat + 1 := by bv_omega
    rw [mapP2Table, dif_neg hnext, mapP2Table_of_outside hpd hx n (by omega),
      linear_add hpd (by omega)]
    exact write32_slot_of_outside (aligned_linear hpd) hx m _ _

/-- `set_up_page_tables` writes to the tables, and clears five pages from `p4_table` on. -/
theorem BootTables.setUpPageTables_of_outside {t : BootTables} (m : Mem)
    (hx : ∀ table ∈ t.tables, pageOf x ≠ pageOf (linear table))
    (hlt : t.p4Table.toNat + 4096 * 5 < 2 ^ 32)
    (hclear : x.toNat < t.p4Table.toNat ∨ t.p4Table.toNat + 4096 * 5 ≤ x.toNat) :
    t.setUpPageTables m x = m x := by
  have hp4 := t.aligned t.p4Table (by simp)
  have hlow := t.aligned t.pdptLow (by simp)
  have hpd := t.aligned t.pdTable (by simp)
  have hxp4 := hx t.p4Table (by simp [tables])
  have hxlow := hx t.pdptLow (by simp [tables])
  have h0 (a : BitVec 32) : linear a = slot (linear a) 0 := (slot_zero _).symm
  unfold setUpPageTables
  rw [mapP2Table_of_outside hpd (hx _ (by simp [tables])) 511 rfl, h0 t.pdptLow,
    write32_slot_of_outside (aligned_linear hlow) hxlow,
    linear_add (k := 16) hp4 (by decide), write32_slot_of_outside (aligned_linear hp4) hxp4,
    linear_add (k := 15) hp4 (by decide), write32_slot_of_outside (aligned_linear hp4) hxp4,
    show t.p4Table + 8 = t.p4Table + 1 * 8 from rfl,
    linear_add (k := 1) hp4 (by decide), write32_slot_of_outside (aligned_linear hp4) hxp4,
    h0 t.p4Table, write32_slot_of_outside (aligned_linear hp4) hxp4,
    repStosb_of_outside 0 _ hlt hclear]

end

/-- Behind the tags there is nothing. -/
theorem tagBlock_eq_zero {tags : List (BitVec 32)} {x : Addr}
    (hx : 0x9008 + 4 * tags.length ≤ x.toNat) : tagBlock tags x = 0 := by
  have hnone : (BitVec.ofNat 32 (8 + 4 * tags.length) :: 0 :: tags)[x.toNat / 4 - 0x2400]? =
      none := by
    refine List.getElem?_eq_none ?_
    simp only [List.length_cons]
    omega
  rw [tagBlock, wordMem, List.getD_eq_getElem?_getD, hnone, Option.getD_none]
  simp

/-- A memory map with one entry of eight pages from `0x100000` on. -/
def eightPagesTag : List (BitVec 32) :=
  [6, 40, 24, 0, 0x100000, 0, 0x8000, 0, 1, 0]

/-- Before `boot.asm`, with the tables behind the eight pages. -/
def eightPages : Mmu :=
  Mmu.atBoot (tagBlock (eightPagesTag ++ endTag))

theorem bootStart_eightPages : eightPages.BootStart :=
  Mmu.bootStart_atBoot _

theorem BootTables.le_of_mem_inRow : ∀ {table : BitVec 32}, table ∈ inRow.tables →
    0x108000 ≤ table.toNat := by
  simp [tables, inRow]

/-- Below the tables memory is as before. -/
theorem enablePaging_eightPages : BootTables.inRow.enablePaging eightPages =
    { eightPages with
      cr3 := 0x108000
      mem := fun x => if x.toNat < 0x108000 then eightPages.mem x
        else BootTables.inRow.setUpPageTables eightPages.mem x } := by
  have hmem : BootTables.inRow.setUpPageTables eightPages.mem = fun x =>
      if x.toNat < 0x108000 then eightPages.mem x
      else BootTables.inRow.setUpPageTables eightPages.mem x := by
    funext x
    split_ifs with hx
    · refine BootTables.setUpPageTables_of_outside _ (fun table htable => ?_) (by decide) (.inl hx)
      have hal := BootTables.inRow.aligned table htable
      have hle := BootTables.le_of_mem_inRow htable
      unfold pageOf
      rw [linear_toNat]
      omega
    · rfl
  exact congrArg (fun m => { eightPages with cr3 := 0x108000, mem := m }) hmem

theorem mmuInit_eightPages : ∃ u,
    (BootTables.inRow.enablePaging eightPages).mmuInit 0x9000 = some u ∧
    u.memoryRegions = [⟨0x100000, 0x108000, multibootMemoryAvailable⟩] ∧ u.freePages = 8 := by
  have hinit : ((BootTables.inRow.enablePaging eightPages).mmuInit 0x9000).map
      (fun u => (u.memoryRegions, u.freePages)) =
      some ([⟨0x100000, 0x108000, multibootMemoryAvailable⟩], 8) := by
    rw [enablePaging_eightPages]
    decide +kernel
  obtain ⟨u, hu, heq⟩ := Option.map_eq_some_iff.1 hinit
  exact ⟨u, hu, congrArg Prod.fst heq, congrArg Prod.snd heq⟩

theorem offered_eightPages (x : Addr) : offered BootTables.inRow eightPages 0x9000 x =
    if 0x100000 ≤ x.toNat ∧ x.toNat < 0x108000 then 1 else 0 := by
  obtain ⟨u, hinit, hregions, hfree⟩ := mmuInit_eightPages
  obtain ⟨lost, hboot⟩ :=
    (bootStart_eightPages.enablePaging BootTables.inRow).mmuInit hinit
  have hlost := hboot.accounts.free
  rw [hregions, hfree] at hlost
  have hzero : lost = 0 := by
    have hpages : availablePages [⟨0x100000, 0x108000, multibootMemoryAvailable⟩] = 8 := by decide
    rw [hpages] at hlost
    exact Nat.add_left_cancel hlost.symm
  rw [offered, ← hboot.exact hzero x, hregions, offerCount_cons, offerCount_nil, Nat.zero_add]
  exact if_congr ⟨fun h => h.2, fun h => ⟨rfl, h⟩⟩ rfl rfl

theorem cleanBoot_eightPages : CleanBoot BootTables.inRow eightPages 0x9000 := by
  refine ⟨bootStart_eightPages, rfl, fun table htable x hx => ?_, fun x => ?_, fun x hx => ?_,
    fun table htable => ?_⟩
  · have hal := BootTables.inRow.aligned table htable
    have hle := BootTables.le_of_mem_inRow htable
    unfold pageOf at hx
    rw [linear_toNat] at hx
    refine tagBlock_eq_zero ?_
    simp only [eightPagesTag, endTag, List.length_append, List.length_cons, List.length_nil]
    omega
  · rw [offered_eightPages]
    split_ifs <;> omega
  · rw [offered_eightPages, if_neg (by omega)]
  · have hle := BootTables.le_of_mem_inRow htable
    rw [offered_eightPages, linear_toNat, if_neg (by omega)]

theorem booted_heap_eightPages :
    ∃ u, (BootTables.inRow.enablePaging eightPages).mmuInit 0x9000 = some u ∧
      u.mmuAllocPage.1.virtToPhys 0x12345678 = (u.mmuAllocPage.1, 0x12345678) := by
  obtain ⟨u, hinit, -⟩ := mmuInit_eightPages
  have hbrk : InHeap u.mmuAllocPage.1.kernelBrk := by
    rw [Mmu.mmuAllocPage_kernelBrk, (cleanBoot_eightPages.freshHeap hinit).brk]
    decide
  have halloc : HeapStepIn u (.allocPage u.mmuAllocPage.2) u.mmuAllocPage.1 := ⟨.allocPage, hbrk⟩
  exact ⟨u, hinit, (booted_heap cleanBoot_eightPages hinit (Run.nil.snoc halloc)).2.2 _ (by decide)⟩

end KernelDev
