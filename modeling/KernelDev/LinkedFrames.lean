import KernelDev.BootRuns
import KernelDev.Tlb

/-!
# Where the free list lies

`init_free_page_list` links a frame by a store through its physical address. The boot tables map
the first GiB only, and nothing compares a region with its end : the stores stay in the GiB exactly
if no AVAILABLE region that `MMU_init` leaves goes beyond it. A store behind it finds nothing
mapped there.

The stores are taken from the events of `init_free_page_list`, as it makes them, and are shown to
go to the available frames (`linkedFrames_eq`), one for each. A region that goes beyond the GiB has
its last page there (`isAvailable_last`), whatever the others are.

`linkedFrames_low_iff` has the condition in two forms : for the regions that `MMU_init` leaves,
and, if every section finds room, for the items of the block, where each page beyond the GiB that
an entry offers has to be taken by a section after it. `linkedFrames_highMap` is a memory map with
a page behind the GiB, which is linked.
-/

namespace KernelDev

open ByteMem

/-- The address of a word store. -/
def MemEvent.stored : MemEvent → Option Addr
  | word a _ => some a
  | _ => none

namespace Mmu

/-- The frames `init_free_page_list` writes to. -/
def linkedFrames (s : Mmu) : List Addr :=
  s.initFreePageListEvents.filterMap MemEvent.stored

/-! ## The stores go to the listed frames -/

/-- The stores of the inner loop. -/
theorem stored_addPagesFromEvents {end_ : Addr} (hend : Aligned end_) : ∀ {n k : ℕ} {s : Mmu}
    {addr : Addr}, Aligned addr → end_.toNat - addr.toNat = 4096 * k → k < n →
    (s.addPagesFromEvents addr end_ n).filterMap MemEvent.stored = framesFrom addr k
  | 0, _, _, _, _, _, hk => absurd hk (Nat.not_lt_zero _)
  | n + 1, 0, s, addr, _, hdiff, _ => by
    rw [addPagesFromEvents, if_neg (not_lt_of_sub_eq hdiff)]
    rfl
  | n + 1, k + 1, s, addr, hal, hdiff, hk => by
    have hlt : addr.toNat < end_.toNat := by omega
    obtain ⟨hnext, hal'⟩ := next_page hend hal hlt
    rw [addPagesFromEvents, if_pos (show addr < end_ from hlt), framesFrom, List.filterMap_append,
      stored_addPagesFromEvents (k := k) hend hal' (by omega) (by omega)]
    rfl

theorem stored_addRegionEvents (s : Mmu) {r : MemRegion} (hs : Aligned r.start)
    (he : Aligned r.end_) : (s.addRegionEvents r).filterMap MemEvent.stored = r.frames := by
  by_cases htype : r.type = multibootMemoryAvailable
  · rw [addRegionEvents, if_pos htype]
    show (if r.floor ≥ r.end_ then [] else s.addPagesFromEvents r.floor r.end_
      ((r.end_ - r.floor).toNat / 4096 + 1)).filterMap MemEvent.stored = _
    rcases MemRegion.frames_cases hs he htype with ⟨hge, hnone⟩ | ⟨hlt, k, hframes, hdiff, hk⟩
    · rw [if_pos hge, hnone]
      rfl
    · rw [if_neg hlt, hframes]
      exact stored_addPagesFromEvents he (MemRegion.aligned_floor hs) hdiff hk
  · rw [MemRegion.frames, if_neg htype, addRegionEvents, if_neg htype]
    rfl

/-- The stores of the outer loop. -/
theorem stored_addRegionsEvents : ∀ {regions : List MemRegion} (s : Mmu),
    (∀ r ∈ regions, Aligned r.start ∧ Aligned r.end_) →
    (s.addRegionsEvents regions).filterMap MemEvent.stored = listedFrames regions
  | [], _, _ => rfl
  | r :: regions, s, hal => by
    have hr := hal r (by simp)
    rw [addRegionsEvents, List.filterMap_append, s.stored_addRegionEvents hr.1 hr.2,
      stored_addRegionsEvents _ fun q hq => hal q (by simp [hq])]
    rfl

/-- `init_free_page_list` writes to the available frames. -/
theorem linkedFrames_eq {s : Mmu} (hal : ∀ r ∈ s.memoryRegions, Aligned r.start ∧ Aligned r.end_)
    (hs : s.freeListInitialized = false) : s.linkedFrames = listedFrames s.memoryRegions := by
  rw [linkedFrames, initFreePageListEvents, hs]
  exact stored_addRegionsEvents _ hal

end Mmu

/-! ## The identity map -/

/-- The last page of an AVAILABLE region is available, from 1 MiB on. -/
theorem isAvailable_last {regions : List MemRegion} {r : MemRegion} (hr : r ∈ regions)
    (hwhole : r.Whole) (htype : r.type = multibootMemoryAvailable) (hend : 2 ^ 30 < r.end_.toNat) :
    IsAvailable regions (r.end_ - pageSize) ∧ (r.end_ - pageSize).toNat = r.end_.toNat - 4096 := by
  obtain ⟨hs, he, hlt⟩ := hwhole
  have hlast : (r.end_ - pageSize).toNat = r.end_.toNat - 4096 := by
    rw [BitVec.toNat_sub_of_le (show 4096 ≤ r.end_.toNat by omega)]
    rfl
  have hal : Aligned (r.end_ - pageSize) := by
    unfold Aligned at *
    omega
  refine ⟨⟨hal, by omega, r, hr, htype, ?_⟩, hlast⟩
  unfold Aligned MemRegion.Covers at *
  omega

/-- The available frames are in the first GiB exactly if the AVAILABLE regions are. -/
theorem isAvailable_low_iff {regions : List MemRegion} (hwhole : ∀ r ∈ regions, r.Whole) :
    (∀ f, IsAvailable regions f → f.toNat + 4096 ≤ 2 ^ 30) ↔
      ∀ r ∈ regions, r.type = multibootMemoryAvailable → r.end_.toNat ≤ 2 ^ 30 := by
  refine ⟨fun h r hr htype => ?_, fun h f hf => ?_⟩
  · by_contra hend
    obtain ⟨hlast, heq⟩ := isAvailable_last hr (hwhole r hr) htype (by omega)
    have hlow := h _ hlast
    omega
  · obtain ⟨r, hr, htype, hcov⟩ := hf.region
    have hend := h r hr htype
    have hal := hf.aligned
    have hcov := hcov.2
    unfold Aligned at hal
    omega

/-- No page beyond the first GiB is on offer exactly if no AVAILABLE region goes beyond it. -/
theorem offerCount_high_iff {regions : List MemRegion} (hwhole : ∀ r ∈ regions, r.Whole) :
    (∀ x : Addr, 2 ^ 30 ≤ x.toNat → offerCount regions x = 0) ↔
      ∀ r ∈ regions, r.type = multibootMemoryAvailable → r.end_.toNat ≤ 2 ^ 30 := by
  refine ⟨fun h r hr htype => ?_, fun h x hx => ?_⟩
  · by_contra hend
    obtain ⟨hlast, heq⟩ := isAvailable_last hr (hwhole r hr) htype (by omega)
    have hend' := (hwhole r hr).end_
    have hpos := offerCount_pos.2 hlast.region
    unfold Aligned at hend'
    have hzero := h _ (show 2 ^ 30 ≤ (r.end_ - pageSize).toNat by omega)
    omega
  · refine Nat.eq_zero_of_not_pos fun hpos => ?_
    obtain ⟨r, hr, htype, hcov⟩ := offerCount_pos.1 hpos
    have hend := h r hr htype
    have hcov := hcov.2
    omega

/-- The frames that `init_free_page_list` writes to are in the identity map exactly if every
AVAILABLE region that `MMU_init` leaves ends in it : if every section finds room, exactly if
each page beyond the first GiB that an entry offers is taken by a section after it. -/
theorem linkedFrames_low_iff {s t : Mmu} (h : s.BootStart) {multibootInfo : Addr}
    (hinit : s.mmuInit multibootInfo = some t) :
    ((∀ f ∈ t.linkedFrames, f.toNat + 4096 ≤ 2 ^ 30) ↔
      ∀ r ∈ t.memoryRegions, r.type = multibootMemoryAvailable → r.end_.toNat ≤ 2 ^ 30) ∧
    (AllFit s (bootItems s.mem multibootInfo) →
      ((∀ f ∈ t.linkedFrames, f.toNat + 4096 ≤ 2 ^ 30) ↔
        ∀ x : Addr, 2 ^ 30 ≤ x.toNat → coverage s (bootItems s.mem multibootInfo) x = 0)) := by
  obtain ⟨lost, hboot⟩ := h.mmuInit hinit
  have hal := hboot.unlisted.aligned
  have hlinked : (∀ f ∈ t.linkedFrames, f.toNat + 4096 ≤ 2 ^ 30) ↔
      ∀ f, IsAvailable t.memoryRegions f → f.toNat + 4096 ≤ 2 ^ 30 := by
    rw [Mmu.linkedFrames_eq hal hboot.built]
    exact forall_congr' fun f => by rw [mem_listedFrames hal]
  rw [hlinked, isAvailable_low_iff hboot.accounts.whole]
  refine ⟨Iff.rfl, fun hfit => ?_⟩
  have hexact := hboot.exact (hboot.fits_iff.2 hfit)
  rw [← offerCount_high_iff hboot.accounts.whole]
  exact forall_congr' fun x => by rw [hexact x]

/-- The one page at 1 MiB is in the identity map, so all stores are, and nothing behind it is on
offer. -/
theorem linkedFrames_low_pageMap :
    ∃ t, (Mmu.atBoot (tagBlock (pageMapTag ++ endTag))).mmuInit 0x9000 = some t ∧
      (∀ f ∈ t.linkedFrames, f.toNat + 4096 ≤ 2 ^ 30) ∧
      ∀ x : Addr, 2 ^ 30 ≤ x.toNat → coverage (.atBoot (tagBlock (pageMapTag ++ endTag)))
        (bootItems (tagBlock (pageMapTag ++ endTag)) 0x9000) x = 0 := by
  have hregions : ((Mmu.atBoot (tagBlock (pageMapTag ++ endTag))).mmuInit 0x9000).map
      Mmu.memoryRegions = some [⟨0x100000, 0x101000, multibootMemoryAvailable⟩] := by
    decide +kernel
  obtain ⟨t, ht, heq⟩ := Option.map_eq_some_iff.1 hregions
  obtain ⟨hregion, hcoverage⟩ := linkedFrames_low_iff (Mmu.bootStart_atBoot _) ht
  have hlow : ∀ f ∈ t.linkedFrames, f.toNat + 4096 ≤ 2 ^ 30 := by
    refine hregion.2 fun r hr _ => ?_
    rw [heq] at hr
    rw [List.mem_singleton.1 hr]
    decide
  exact ⟨t, ht, hlow, (hcoverage allFit_pageMap).1 hlow⟩

/-- A memory map with one entry of the page behind the first GiB. -/
def highMapTag : List (BitVec 32) :=
  [6, 40, 24, 0, 0x40000000, 0, 0x1000, 0, 1, 0]

/-- The page behind the identity map is linked. -/
theorem linkedFrames_highMap : ¬∀ (s t : Mmu) (multibootInfo : Addr), s.BootStart →
    s.mmuInit multibootInfo = some t → ∀ f ∈ t.linkedFrames, f.toNat + 4096 ≤ 2 ^ 30 := by
  intro h
  have hlinked : ((Mmu.atBoot (tagBlock (highMapTag ++ endTag))).mmuInit 0x9000).map
      Mmu.linkedFrames = some [0x40000000] := by
    decide +kernel
  obtain ⟨t, ht, heq⟩ := Option.map_eq_some_iff.1 hlinked
  have hlow := h _ t 0x9000 (Mmu.bootStart_atBoot _) ht 0x40000000 (by simp [heq])
  exact absurd hlow (by decide)

end KernelDev
