import KernelDev.BootAccounts
import KernelDev.FrameReach

/-!
# Runs of items

What `MMU_init` leaves behind, said from the items of the block. An entry offers the pages of its
region and a section takes its pages back, in the order in which the tags are handled; so an entry
that comes after a section offers its pages again. `coverage` counts how often a page is on offer
in the end.

This is what happens as long as every section finds room for the regions it splits, which `AllFit`
says with the states that the items are run in. If one does not, pages are given up that stay
counted, and a page may be on offer less often than `coverage` says, never more often. `Booted` is
the state after `MMU_init` in both cases, with the number of pages given up, which is zero just if
all fit.

One item is looked at first (`Handled`, `Accounts.run`), then any list of them
(`Accounts.foldl_run`). `Mmu.BootStart.mmuInit` starts with an empty table, as the static variables
are before the first call; of the block and of memory nothing is assumed but that `MMU_init`
returns.

The blocks that the examples use are made here as well, from the words of their tags.
-/

namespace KernelDev

open ByteMem

namespace BootItem

/-- The table has room for the regions that the item splits. -/
def Fits (s : Mmu) : BootItem → Prop
  | header shdr => ∀ ps pe, sectionPages s.mem shdr = some (ps, pe) →
      s.memoryRegions.length + Mmu.splitCount ps pe s.memoryRegions ≤ maxMemoryRegions
  | _ => True

/-- How often `x` is on offer after the item, if it was `n` times before : once more if a
region with it is recorded, and not at all if a section takes it. -/
def cover (s : Mmu) (x : Addr) (n : ℕ) : BootItem → ℕ
  | entry a =>
    match entryRegion s.mem a with
    | some r => if s.memoryRegions.length < maxMemoryRegions ∧ r.Offers x then n + 1 else n
    | none => n
  | header shdr =>
    match sectionPages s.mem shdr with
    | some (ps, pe) => if InRange ps pe x then 0 else n
    | none => n
  | message _ => n

end BootItem

/-- Every item, when its turn comes, finds room for the regions it splits. -/
def AllFit : Mmu → List BootItem → Prop
  | _, [] => True
  | s, i :: is => i.Fits s ∧ AllFit (i.run s) is

/-- How often `x` is on offer after the items, if it was `n` times before. -/
def coverFrom (x : Addr) : Mmu → ℕ → List BootItem → ℕ
  | _, n, [] => n
  | s, n, i :: is => coverFrom x (i.run s) (i.cover s x n) is

/-- How often the items offer `x`. -/
def coverage (s : Mmu) (items : List BootItem) (x : Addr) : ℕ :=
  coverFrom x s 0 items

/-- More offers before an item are no fewer after it. -/
theorem BootItem.cover_mono {s : Mmu} {x : Addr} {n n' : ℕ} (h : n ≤ n') (i : BootItem) :
    i.cover s x n ≤ i.cover s x n' := by
  cases i with
  | entry a =>
    rw [cover, cover]
    cases entryRegion s.mem a with
    | none => exact h
    | some r =>
      dsimp only
      split_ifs <;> omega
  | header shdr =>
    rw [cover, cover]
    rcases sectionPages s.mem shdr with _ | ⟨ps, pe⟩
    · exact h
    · dsimp only
      split_ifs <;> omega
  | message call => exact h

theorem coverFrom_mono {x : Addr} (items : List BootItem) : ∀ {s : Mmu} {n n' : ℕ}, n ≤ n' →
    coverFrom x s n items ≤ coverFrom x s n' items := by
  induction items with
  | nil => exact fun h => h
  | cons i items ih => exact fun h => ih (i.cover_mono h)

namespace Mmu

variable {s t : Mmu} {lost : ℕ}

/-- From `s` to `t` the pages that are on offer changed as `cover` says, or there are fewer
because `l` pages were given up. -/
structure Handled (fits : Prop) (cover : Addr → ℕ → ℕ) (s t : Mmu) (lost l : ℕ) : Prop where
  accounts : t.Accounts (lost + l)
  fits_iff : l = 0 ↔ fits
  /-- No page is on offer more often than it should be. -/
  covers : ∀ x, offerCount t.memoryRegions x ≤ cover x (offerCount s.memoryRegions x)
  exact : l = 0 → ∀ x, offerCount t.memoryRegions x = cover x (offerCount s.memoryRegions x)

/-- An item that changes no region. -/
theorem Handled.of_eq {fits : Prop} {cover : Addr → ℕ → ℕ} (ht : t.Accounts lost) (hfits : fits)
    (hcover : ∀ x, offerCount t.memoryRegions x = cover x (offerCount s.memoryRegions x)) :
    Handled fits cover s t lost 0 :=
  ⟨ht, iff_of_true rfl hfits, fun x => Nat.le_of_eq (hcover x), fun _ => hcover⟩

theorem Accounts.addEntry (h : s.Accounts lost) (a : Addr) :
    Handled True (fun x n => (BootItem.entry a).cover s x n) s (s.addEntry a) lost 0 := by
  rcases s.addEntry_cases a with ⟨r, hr, hroom, heq⟩ | ⟨hskip, hprints⟩
  · obtain ⟨hwhole, htype⟩ := whole_entryRegion hr
    rw [heq]
    refine .of_eq (h.record hroom hwhole htype) trivial fun x => ?_
    show offerCount (s.memoryRegions ++ [r]) x = _
    rw [offerCount_append, offerCount_cons, offerCount_nil, BootItem.cover, hr]
    simp only [hroom, true_and]
    split_ifs <;> rfl
  · refine .of_eq (h.onlyPrints hprints) trivial fun x => ?_
    obtain ⟨console, hprints⟩ := hprints
    rw [hprints, BootItem.cover]
    rcases hskip with hnone | hfull
    · rw [hnone]
    · cases entryRegion s.mem a with
      | none => rfl
      | some r => exact (if_neg fun hr => absurd hr.1 (Nat.not_lt.2 hfull)).symm

theorem Accounts.processSection (h : s.Accounts lost) (shdr : Addr) :
    ∃ l, Handled ((BootItem.header shdr).Fits s) (fun x n => (BootItem.header shdr).cover s x n)
      s (s.processSection shdr) lost l := by
  rcases s.processSection_cases shdr with ⟨hnone, heq⟩ | ⟨ps, pe, u, hsome, hprints, heq⟩
  · rw [heq]
    refine ⟨0, .of_eq h (by simp [BootItem.Fits, hnone]) fun x => ?_⟩
    rw [BootItem.cover, hnone]
  · have hu := h.onlyPrints hprints
    obtain ⟨hps, hpe⟩ := aligned_sectionPages hsome
    obtain ⟨overlap, l, hres, -⟩ := reservePages_spec hps hpe hu.whole hu.size
    have hregions : u.memoryRegions = s.memoryRegions := by
      obtain ⟨console, rfl⟩ := hprints
      rfl
    have hoffers := hres.offers
    have hkeeps := hres.keeps
    have hroom := hres.room
    rw [hregions] at hoffers hkeeps hroom
    rw [heq]
    refine ⟨l, hu.reserves hres, ?_, fun x => ?_, fun hl x => ?_⟩
    · rw [hroom]
      simp [BootItem.Fits, hsome]
    · rw [BootItem.cover, hsome]
      exact hoffers x
    · rw [BootItem.cover, hsome]
      exact hkeeps hl x

/-- What one item does to the counters and to the pages on offer. -/
theorem Accounts.run (h : s.Accounts lost) (i : BootItem) :
    ∃ l, Handled (i.Fits s) (fun x n => i.cover s x n) s (i.run s) lost l := by
  cases i with
  | entry a => exact ⟨0, h.addEntry a⟩
  | header shdr => exact h.processSection shdr
  | message call =>
    exact ⟨0, .of_eq (h.onlyPrints (onlyPrints_printk s _ _)) trivial fun _ => rfl⟩

/-- What the items do, one after the other. -/
theorem Accounts.foldl_run (items : List BootItem) : ∀ {s : Mmu} {lost : ℕ}, s.Accounts lost →
    ∃ l, Handled (AllFit s items) (fun x n => coverFrom x s n items) s (items.foldl BootItem.run s)
      lost l := by
  induction items with
  | nil => exact fun h => ⟨0, .of_eq h trivial fun _ => rfl⟩
  | cons i items ih =>
    intro s lost h
    obtain ⟨l, hl⟩ := h.run i
    obtain ⟨l', hl'⟩ := ih hl.accounts
    have hfits := hl.fits_iff
    have hfits' := hl'.fits_iff
    refine ⟨l + l', ?_, ?_, fun x => ?_, fun hlost x => ?_⟩
    · rw [← Nat.add_assoc]
      exact hl'.accounts
    · rw [AllFit, ← hfits, ← hfits']
      omega
    · exact Nat.le_trans (hl'.covers x) (coverFrom_mono items (hl.covers x))
    · have hx := hl'.exact (by omega) x
      rw [hl.exact (by omega) x] at hx
      exact hx

/-- Before `MMU_init` : an empty region table, zero counters and no free list. -/
structure BootStart (s : Mmu) : Prop where
  regions : s.memoryRegions = []
  total : s.totalPages = 0
  free : s.freePages = 0
  reserved : s.reservedPages = 0
  built : s.freeListInitialized = false
  head : s.freePageHead = 0

theorem BootStart.accounts {s : Mmu} (h : s.BootStart) : s.Accounts 0 := by
  refine ⟨by simp [h.regions], by simp [h.regions], ?_, ?_, ?_⟩
  · simp [h.regions, h.free]
  · simp [h.total, h.free, h.reserved]
  · simp [h.total]

/-- After `MMU_init`, with `lost` pages given up : the counters, how often a page is on offer,
and the free list that is yet to be built. -/
structure Booted (s : Mmu) (items : List BootItem) (t : Mmu) (lost : ℕ) : Prop where
  accounts : t.Accounts lost
  fits_iff : lost = 0 ↔ AllFit s items
  covers : ∀ x, offerCount t.memoryRegions x ≤ coverage s items x
  /-- If nothing is given up, `coverage` is exact. -/
  exact : lost = 0 → ∀ x, offerCount t.memoryRegions x = coverage s items x
  built : t.freeListInitialized = false
  head : t.freePageHead = 0

/-- `MMU_init` from an empty table. -/
theorem BootStart.mmuInit (h : s.BootStart) {multibootInfo : Addr}
    (hinit : s.mmuInit multibootInfo = some t) :
    ∃ lost, Booted s (bootItems s.mem multibootInfo) t lost := by
  obtain ⟨l, hl⟩ := h.accounts.foldl_run (bootItems s.mem multibootInfo)
  have hprints := mmuInit_items hinit
  have hkeeps := foldl_run_keeps (bootItems s.mem multibootInfo) s
  generalize (bootItems s.mem multibootInfo).foldl BootItem.run s = u at hl hprints hkeeps
  have haccounts := hl.accounts.onlyPrints hprints
  have hcovers := hl.covers
  have hexact := hl.exact
  rw [Nat.zero_add] at haccounts
  rw [h.regions] at hcovers hexact
  obtain ⟨console, rfl⟩ := hprints
  exact ⟨l, haccounts, hl.fits_iff, hcovers, hexact, hkeeps.built.trans h.built,
    hkeeps.head.trans h.head⟩

/-- The free list is still to be built, from page-aligned regions. -/
theorem Booted.unlisted {items : List BootItem} (h : Booted s items t lost) : Unlisted t :=
  ⟨fun r hr => ⟨(h.accounts.whole r hr).start, (h.accounts.whole r hr).end_⟩, h.built, h.head⟩

/-- If no page is on offer twice, the regions do not meet. -/
theorem Booted.unbuilt {items : List BootItem} (h : Booted s items t lost)
    (honce : ∀ x, offerCount t.memoryRegions x ≤ 1) : Unbuilt t :=
  ⟨⟨h.unlisted.aligned, offerCount_le_one_iff.1 honce⟩, h.built, h.head⟩

/-- The static variables of `mmu.c` before the first call. -/
def atBoot (mem : Mem) : Mmu where
  mem := mem
  overflowPage := fun _ _ => 0
  cr3 := 0
  memoryRegions := []
  freePageHead := 0
  totalMemory := 0
  totalPages := 0
  freePages := 0
  reservedPages := 0
  freeListInitialized := false
  kernelBrk := kernelHeapAdr
  invlpgs := []
  console := []

theorem bootStart_atBoot (mem : Mem) : (atBoot mem).BootStart :=
  ⟨rfl, rfl, rfl, rfl, rfl, rfl⟩

end Mmu

/-- Memory by its 32-bit words. -/
def wordMem (words : ℕ → BitVec 32) : Mem := fun a =>
  (words (a.toNat / 4) >>> (8 * (a.toNat % 4))).setWidth 8

/-- An information block at `0x9000` with the given tags. -/
def tagBlock (tags : List (BitVec 32)) : Mem :=
  wordMem fun i => (BitVec.ofNat 32 (8 + 4 * tags.length) :: 0 :: tags).getD (i - 0x2400) 0

/-- A memory map with one entry of the page at `0x100000`. -/
def pageMapTag : List (BitVec 32) :=
  [6, 40, 24, 0, 0x100000, 0, 0x1000, 0, 1, 0]

def endTag : List (BitVec 32) :=
  [0, 8]

theorem bootItems_pageMap :
    bootItems (tagBlock (pageMapTag ++ endTag)) 0x9000 = [.entry 0x9018] := by
  decide +kernel

theorem allFit_pageMap : AllFit (.atBoot (tagBlock (pageMapTag ++ endTag)))
    (bootItems (tagBlock (pageMapTag ++ endTag)) 0x9000) := by
  rw [bootItems_pageMap]
  exact ⟨trivial, trivial⟩

end KernelDev
