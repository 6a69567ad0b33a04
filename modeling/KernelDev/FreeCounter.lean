import KernelDev.BootRuns
import Mathlib.Data.List.Dedup
import Mathlib.Data.List.Perm.Subperm

/-!
# The counter of free pages

`free_pages` is fed by `MMU_init`, and the free list is built from the region table, without the
pages below 1 MiB. The two agree in every run just when nothing was given up, no page is offered
twice, and none below 1 MiB is offered at all (`free_pages_counts_iff`). A usual memory map offers
the first 640 KiB, so that `free_pages` is ahead of the list by those.

`CountsFree` is about all runs of the allocator : `free_pages` is the length of the list after
every call, and an allocation fails just when it is zero. One direction is an induction on the run,
as every call counts the page that it moves (`counts_step`), from a counter that is right at the
start.

The other direction looks for a run that shows the counter to be wrong. With a right counter the
allocations drain the list and count down to zero (`exists_run_drain`), so the list had as many
frames as were counted, and none twice : a page that is on the list twice could be handed out,
freed twice, and would then link to itself (`not_freeList_giveFrame_twice`). So the regions do not
meet and lie above 1 MiB (`CountsFree.nodup_listed`, `length_listedFrames_eq_iff`).
-/

namespace KernelDev

open ByteMem

/-! ## Listed and counted pages -/

/-- A region lists at most its pages. -/
theorem MemRegion.length_frames_le (r : MemRegion) : r.frames.length ≤ r.pages := by
  have hfloor := r.floor_toNat
  unfold MemRegion.frames MemRegion.pages
  split_ifs
  · rw [length_framesFrom]
    omega
  · exact Nat.le_refl _

/-- It lists all of them when they are at or above 1 MiB. -/
theorem MemRegion.length_frames_eq_iff {r : MemRegion} (hr : r.Whole) :
    r.frames.length = r.pages ↔ ∀ x, r.Offers x → 0x100000 ≤ x.toNat := by
  have hfloor := r.floor_toNat
  obtain ⟨hs, he, hlt⟩ := hr
  unfold Aligned at hs he
  unfold MemRegion.frames MemRegion.pages
  split_ifs with htype
  · rw [length_framesFrom]
    refine ⟨fun heq x hx => ?_, fun h => ?_⟩
    · have hge := hx.2.1
      omega
    · have hstart := h r.start ⟨htype, Nat.le_refl _, hlt⟩
      omega
  · exact iff_of_true rfl fun x hx => absurd hx.1 htype

/-- No more frames are listed than there are pages on offer. -/
theorem length_listedFrames_le (regions : List MemRegion) :
    (listedFrames regions).length ≤ availablePages regions := by
  induction regions with
  | nil => exact Nat.le_refl _
  | cons r regions ih =>
    have hr := r.length_frames_le
    rw [listedFrames, List.flatMap_cons, List.length_append, availablePages_cons]
    exact Nat.add_le_add hr ih

/-- All pages on offer are listed if none is below 1 MiB. -/
theorem length_listedFrames_eq_iff {regions : List MemRegion} (hw : ∀ r ∈ regions, r.Whole) :
    (listedFrames regions).length = availablePages regions ↔
      ∀ x, 0 < offerCount regions x → 0x100000 ≤ x.toNat := by
  induction regions with
  | nil => simp [listedFrames]
  | cons r regions ih =>
    have ih := ih fun q hq => hw q (by simp [hq])
    have hr := MemRegion.length_frames_eq_iff (hw r (by simp))
    have hle := r.length_frames_le
    have hle' := length_listedFrames_le regions
    have hsplit : (listedFrames (r :: regions)).length = availablePages (r :: regions) ↔
        r.frames.length = r.pages ∧ (listedFrames regions).length = availablePages regions := by
      rw [listedFrames, List.flatMap_cons, List.length_append, availablePages_cons,
        ← listedFrames]
      omega
    rw [hsplit, hr, ih]
    simp only [offerCount_pos, List.mem_cons, exists_eq_or_imp, or_imp, forall_and]

/-- Listed frames that are all different come from regions that do not meet. -/
theorem offerCount_le_one_of_nodup {regions : List MemRegion} (hw : ∀ r ∈ regions, r.Whole)
    (hfloor : ∀ x, 0 < offerCount regions x → 0x100000 ≤ x.toNat)
    (hnd : (listedFrames regions).Nodup) : ∀ x, offerCount regions x ≤ 1 := by
  refine offerCount_le_one_iff.2 ?_
  refine (List.nodup_flatMap.1 hnd).2.imp_of_mem fun {r r'} hr hr' hdisj x hx hx' => ?_
  -- the page of `x` is listed for both regions
  have hpos := hfloor x (offerCount_pos.2 ⟨r, hr, hx⟩)
  have hpage : (BitVec.ofNat 64 (x.toNat / 4096 * 4096)).toNat = x.toNat / 4096 * 4096 := by
    rw [BitVec.toNat_ofNat]
    omega
  have hlisted : ∀ q ∈ regions, q.Offers x →
      BitVec.ofNat 64 (x.toNat / 4096 * 4096) ∈ q.frames := by
    intro q hq hqx
    obtain ⟨hs, he, -⟩ := hw q hq
    obtain ⟨htype, hge, hlt⟩ := hqx
    refine (MemRegion.mem_frames hs he).2 ⟨htype, ?_, ?_, ?_, ?_⟩
    · unfold Aligned
      omega
    · omega
    · unfold Aligned at hs
      omega
    · omega
  exact hdisj (hlisted r hr hx) (hlisted r' hr' hx')

/-! ## The counter in runs -/

/-- `free_pages` is the length of the free list after every call, and an allocation fails just
when it is zero. -/
def CountsFree (s : Mmu) : Prop :=
  ∀ tr t, Run FrameStep ⟨s, []⟩ tr t →
    (tr ≠ [] → ∃ listed, t.mmu.FreeList listed ∧ t.mmu.freePages.toNat = listed.length) ∧
    (t.mmu.mmuPfAlloc.2 = 0 ↔ t.mmu.freePages = 0)

section

variable {s : Mmu} {t u : Holding} {tr : List FrameEvent}

/-- An allocation counts the page it returns. -/
theorem alloc_freePages (h : Unlisted s) (ht : t = ⟨s, []⟩ ∨ t.mmu.freeListInitialized = true) :
    t.mmu.mmuPfAlloc.1.freePages =
      if t.mmu.mmuPfAlloc.2 = 0 then t.mmu.freePages else t.mmu.freePages - 1 := by
  have hbuilt : ∀ {m : Mmu}, m.freeListInitialized = true →
      m.mmuPfAlloc.1.freePages = if m.mmuPfAlloc.2 = 0 then m.freePages else m.freePages - 1 := by
    intro m hm
    by_cases hhead : m.freePageHead = 0
    · rw [Mmu.mmuPfAlloc_null hm hhead, if_pos rfl]
      rfl
    · rw [Mmu.mmuPfAlloc_head hm hhead, if_neg hhead]
      rfl
  rcases ht with rfl | ht
  · obtain ⟨hreaches, hpages⟩ := h.reaches
    rw [Mmu.mmuPfAlloc_first h.built hreaches.built, hbuilt hreaches.built, hpages]
  · exact hbuilt ht

/-- Held and listed frames are the listed frames of the table. -/
theorem Owns.length_add {regions : List MemRegion} {listed : List Addr}
    (hown : Owns regions t listed)
    (h : RegionTable regions) :
    t.held.length + listed.length = (listedFrames regions).length := by
  have hperm : (t.held ++ listed).Perm (listedFrames regions) :=
    (List.perm_ext_iff_of_nodup hown.nodup (nodup_listedFrames h)).2 fun f =>
      (hown.all f).trans (mem_listedFrames h.aligned).symm
  rw [← List.length_append, hperm.length_eq]

/-- Every event keeps the frames counted : those that are held and those that are free. -/
theorem counts_step (h : Unbuilt s) (ht : t = ⟨s, []⟩ ∨ ∃ listed, Owns s.memoryRegions t listed)
    (hcount : t.mmu.freePages.toNat + t.held.length = (listedFrames s.memoryRegions).length)
    (hlt : (listedFrames s.memoryRegions).length < 2 ^ 64) {e : FrameEvent}
    (hstep : FrameStep t e u) :
    u.mmu.freePages.toNat + u.held.length = (listedFrames s.memoryRegions).length := by
  have hbuilt : t = ⟨s, []⟩ ∨ t.mmu.freeListInitialized = true :=
    ht.imp_right fun ⟨_, hown⟩ => hown.built
  cases hstep with
  | alloc =>
    obtain ⟨t', listed, hown, hheld, halloc, -⟩ := exists_owns h ht
    have hlength := hown.length_add h.table
    have hpages := alloc_freePages ⟨h.table.aligned, h.built, h.head⟩ hbuilt
    rw [hheld] at hlength
    dsimp only
    rw [hpages]
    split_ifs with hz
    · exact hcount
    · have hone : (1 : BitVec 64).toNat = 1 := rfl
      rcases hown.mmuPfAlloc with ⟨rfl, hres⟩ | ⟨f, l, rfl, -, -⟩
      · exact absurd (by rw [← halloc, hres]) hz
      · rw [List.length_cons] at hlength ⊢
        rw [BitVec.toNat_sub_of_le (by rw [BitVec.le_def, hone]; omega), hone]
        omega
  | @free f hf =>
    rcases ht with rfl | ⟨listed, hown⟩
    · cases hf
    have havail := (hown.all f).1 (List.mem_append_left _ hf)
    have hpos := List.length_pos_of_mem hf
    rw [Mmu.mmuPfFree_frame _ havail.ne_zero havail.aligned]
    show (t.mmu.freePages + 1).toNat + (t.held.erase f).length = _
    rw [List.length_erase_of_mem hf, BitVec.toNat_add, show (1 : BitVec 64).toNat = 1 from rfl]
    omega
  | write => exact hcount

/-- A counter that is right stays right. -/
theorem counts_run (h : Unbuilt s)
    (hcount : s.freePages.toNat = (listedFrames s.memoryRegions).length)
    (hrun : Run FrameStep ⟨s, []⟩ tr t) :
    t.mmu.freePages.toNat + t.held.length = (listedFrames s.memoryRegions).length := by
  have hlt : (listedFrames s.memoryRegions).length < 2 ^ 64 := hcount ▸ s.freePages.isLt
  refine Run.invariant (fun _ t => t.mmu.freePages.toNat + t.held.length =
    (listedFrames s.memoryRegions).length) ?_ ?_ hrun
  · rw [List.length_nil, Nat.add_zero, hcount]
  intro tr t e u hrun ih hstep
  exact counts_step h ((owns_run h hrun).imp And.right And.right) ih hlt hstep

/-- A counter that starts as the number of listed frames stays right. -/
theorem countsFree_of_unbuilt (h : Unbuilt s)
    (hcount : s.freePages.toNat = (listedFrames s.memoryRegions).length) : CountsFree s := by
  intro tr t hrun
  have hpages := counts_run h hcount hrun
  have howns := owns_run h hrun
  refine ⟨fun hne => ?_, ?_⟩
  · rcases howns with ⟨hnil, -⟩ | ⟨-, listed, hown⟩
    · exact absurd hnil hne
    · have hlength := hown.length_add h.table
      exact ⟨listed, hown.list, by omega⟩
  · obtain ⟨t', listed, hown, hheld, halloc, -⟩ := exists_owns h (howns.imp And.right And.right)
    have hlength := hown.length_add h.table
    have hzero : t.mmu.freePages = 0 ↔ t.mmu.freePages.toNat = 0 :=
      BitVec.toNat_inj.symm
    rw [hheld] at hlength
    rw [hzero, ← halloc]
    rcases hown.mmuPfAlloc with ⟨rfl, hres⟩ | ⟨f, l, rfl, hne, hres⟩
    · rw [hres, List.length_nil] at *
      exact iff_of_true rfl (by omega)
    · rw [hres]
      rw [List.length_cons] at hlength
      exact iff_of_false hne (by omega)

/-! ## Runs that drain the allocator -/

/-- Allocations drain a right counter, one page after the other. -/
theorem exists_run_drain (h : Unlisted s) (hcount : CountsFree s) : ∀ k ≤ s.freePages.toNat,
    ∃ tr t, Run FrameStep ⟨s, []⟩ tr t ∧ (∀ e ∈ tr, ∀ x b, e ≠ .write x b) ∧
      t.held.length = k ∧ t.mmu.freePages.toNat = s.freePages.toNat - k
  | 0, _ => ⟨[], ⟨s, []⟩, .nil, by simp, rfl, rfl⟩
  | k + 1, hk => by
    obtain ⟨tr, t, hrun, hcalls, hheld, hpages⟩ := exists_run_drain h hcount k (by omega)
    have hbuilt := ((reaches_run h hrun hcalls).1).imp_right Reaches.built
    have hfree : t.mmu.freePages ≠ 0 := by
      intro hz
      rw [hz, show (0 : BitVec 64).toNat = 0 from rfl] at hpages
      omega
    have hne : t.mmu.mmuPfAlloc.2 ≠ 0 := fun hz => hfree ((hcount tr t hrun).2.1 hz)
    have hnext := alloc_freePages h hbuilt
    have hone : (1 : BitVec 64).toNat = 1 := rfl
    rw [if_neg hne] at hnext
    refine ⟨_, _, hrun.snoc .alloc, ?_, ?_, ?_⟩
    · simpa [or_imp, forall_and] using hcalls
    · rw [if_neg hne, List.length_cons, hheld]
    · dsimp only
      rw [hnext, BitVec.toNat_sub_of_le (by rw [BitVec.le_def, hone]; omega), hone]
      omega

/-- A page that is freed twice links to itself. -/
theorem not_freeList_giveFrame_twice (m : Mmu) {f : Addr} (hf : Aligned f) (hne : f ≠ 0)
    (listed : List Addr) : ¬((m.giveFrame f).giveFrame f).FreeList listed := by
  intro hlist
  have hself : read64 ((m.giveFrame f).giveFrame f).mem f = f := by
    rw [Mmu.giveFrame_mem, read64_write64_page hf hf, if_pos rfl, Mmu.giveFrame_freePageHead]
  rw [Mmu.FreeList, Mmu.giveFrame_freePageHead] at hlist
  exact hlist.next_ne hne hself

/-- With a right counter no page is held twice. -/
theorem nodup_held (h : Unlisted s) (hcount : CountsFree s) (hrun : Run FrameStep ⟨s, []⟩ tr t)
    (hcalls : ∀ e ∈ tr, ∀ x b, e ≠ .write x b) : t.held.Nodup := by
  refine List.nodup_iff_count_le_one.2 fun f => Nat.le_of_not_lt fun htwice => ?_
  have hf : f ∈ t.held := List.count_pos_iff.1 (by omega)
  have hf' : f ∈ t.held.erase f := by
    refine List.count_pos_iff.1 ?_
    rw [List.count_erase_self]
    omega
  have havail : IsAvailable s.memoryRegions f := by
    rcases (reaches_run h hrun hcalls).1 with rfl | hreaches
    · cases hf
    · exact hreaches.held f hf
  have hfree := (hrun.snoc (.free hf)).snoc (.free hf')
  obtain ⟨listed, hlist, -⟩ := (hcount _ _ hfree).1 (by simp)
  rw [Mmu.mmuPfFree_frame _ havail.ne_zero havail.aligned] at hlist
  rw [Mmu.mmuPfFree_frame _ havail.ne_zero havail.aligned] at hlist
  exact not_freeList_giveFrame_twice t.mmu havail.aligned havail.ne_zero listed hlist

/-- A counter that is right in all runs starts as the number of listed frames, and these are
all different. -/
theorem CountsFree.nodup_listed (h : Unlisted s) (hcount : CountsFree s)
    (hle : (listedFrames s.memoryRegions).length ≤ s.freePages.toNat) :
    s.freePages.toNat = (listedFrames s.memoryRegions).length ∧
      (listedFrames s.memoryRegions).Nodup := by
  obtain ⟨tr, t, hrun, hcalls, hheld, -⟩ :=
    exists_run_drain h hcount s.freePages.toNat (Nat.le_refl _)
  have hsub : t.held ⊆ (listedFrames s.memoryRegions).dedup := by
    intro f hf
    rw [List.mem_dedup, mem_listedFrames h.aligned]
    rcases (reaches_run h hrun hcalls).1 with rfl | hreaches
    · cases hf
    · exact hreaches.held f hf
  have hlen := (List.subperm_of_subset (nodup_held h hcount hrun hcalls) hsub).length_le
  have hdedup := List.dedup_sublist (listedFrames s.memoryRegions)
  have hlen' := hdedup.length_le
  refine ⟨by omega, ?_⟩
  rw [← hdedup.eq_of_length (by omega)]
  exact List.nodup_dedup _

end

/-- The counter of free pages. It is the length of the free list in every run, and zero just
when no page can be allocated, if and only if the items give up no page, offer none twice and
none below 1 MiB. -/
theorem free_pages_counts_iff {s₀ s : Mmu} (h : s₀.BootStart) {multibootInfo : Addr}
    (hinit : s₀.mmuInit multibootInfo = some s) :
    CountsFree s ↔ AllFit s₀ (bootItems s₀.mem multibootInfo) ∧
      ∀ x, coverage s₀ (bootItems s₀.mem multibootInfo) x ≤
        if x.toNat < 0x100000 then 0 else 1 := by
  obtain ⟨lost, hboot⟩ := h.mmuInit hinit
  have hfree := hboot.accounts.free
  have hw := hboot.accounts.whole
  have hle := length_listedFrames_le s.memoryRegions
  refine ⟨fun hcount => ?_, fun ⟨hfit, hcover⟩ => ?_⟩
  · obtain ⟨hlen, hnd⟩ := hcount.nodup_listed hboot.unlisted (by omega)
    have hlost : lost = 0 := by omega
    have hfloor := (length_listedFrames_eq_iff hw).1 (by omega)
    have honce := offerCount_le_one_of_nodup hw hfloor hnd
    refine ⟨hboot.fits_iff.1 hlost, fun x => ?_⟩
    rw [← hboot.exact hlost x]
    split_ifs with hx
    · refine Nat.le_zero.2 (Nat.eq_zero_of_not_pos fun hpos => ?_)
      have hge := hfloor x hpos
      omega
    · exact honce x
  · have hlost := hboot.fits_iff.2 hfit
    have hcount : ∀ x, offerCount s.memoryRegions x ≤ if x.toNat < 0x100000 then 0 else 1 := by
      intro x
      rw [hboot.exact hlost x]
      exact hcover x
    have honce : ∀ x, offerCount s.memoryRegions x ≤ 1 := by
      intro x
      refine Nat.le_trans (hcount x) ?_
      split_ifs <;> omega
    have hfloor : ∀ x, 0 < offerCount s.memoryRegions x → 0x100000 ≤ x.toNat := by
      intro x hpos
      have hx := hcount x
      split_ifs at hx <;> omega
    have hlen := (length_listedFrames_eq_iff hw).2 hfloor
    exact countsFree_of_unbuilt (hboot.unbuilt honce) (by omega)

/-- With one page at 1 MiB the counter is right. -/
theorem free_pages_counts_iff_pageMap :
    ∃ s, (Mmu.atBoot (tagBlock (pageMapTag ++ endTag))).mmuInit 0x9000 = some s ∧ CountsFree s := by
  have hsome : ((Mmu.atBoot (tagBlock (pageMapTag ++ endTag))).mmuInit 0x9000).isSome := by
    decide +kernel
  have hregion : entryRegion (tagBlock (pageMapTag ++ endTag)) 0x9018 =
      some ⟨0x100000, 0x101000, multibootMemoryAvailable⟩ := by
    decide +kernel
  obtain ⟨s, hs⟩ := Option.isSome_iff_exists.1 hsome
  refine ⟨s, hs, (free_pages_counts_iff (Mmu.bootStart_atBoot _) hs).2 ?_⟩
  refine ⟨allFit_pageMap, fun x => ?_⟩
  show coverage _ (bootItems (tagBlock (pageMapTag ++ endTag)) 0x9000) x ≤ _
  rw [bootItems_pageMap]
  show BootItem.cover (.atBoot (tagBlock (pageMapTag ++ endTag))) x 0 (.entry 0x9018) ≤ _
  rw [BootItem.cover, show (Mmu.atBoot (tagBlock (pageMapTag ++ endTag))).mem =
    tagBlock (pageMapTag ++ endTag) from rfl, hregion]
  dsimp only
  split_ifs with hcover hx
  · have hge : 0x100000 ≤ x.toNat := hcover.2.2.1
    omega
  all_goals omega

/-- A memory map with one entry of the memory below `0x9f000`. -/
def lowMapTag : List (BitVec 32) :=
  [6, 40, 24, 0, 0, 0, 0x9f000, 0, 1, 0]

/-- Memory below 1 MiB is counted, but there is no page to allocate. -/
theorem free_pages_counts_lowMap :
    ∃ s, (Mmu.atBoot (tagBlock (lowMapTag ++ endTag))).mmuInit 0x9000 = some s ∧
      ¬CountsFree s := by
  have h : ((Mmu.atBoot (tagBlock (lowMapTag ++ endTag))).mmuInit 0x9000).map
      (fun s => (s.mmuPfAlloc.2, s.freePages)) = some (0, 0x9f) := by
    decide +kernel
  obtain ⟨s, hs, heq⟩ := Option.map_eq_some_iff.1 h
  obtain ⟨halloc, hpages⟩ := Prod.mk.inj heq
  refine ⟨s, hs, fun hcount => ?_⟩
  have hzero : s.freePages = 0 := (hcount [] ⟨s, []⟩ .nil).2.1 halloc
  rw [hpages] at hzero
  exact absurd hzero (by decide)

end KernelDev
