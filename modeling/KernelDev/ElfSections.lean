import KernelDev.KernelImage
import KernelDev.TreePaths

/-!
# Reserving the kernel sections

After `process_elf_sections_tag` the AVAILABLE frames are those from before that no section
touches, as long as the region table has room for the splits, and fewer if it has not. A section
touches the frames that have a byte of it (`ElfSection.Touches`), if it occupies memory and is not
empty; which sections there are depends on the headers only, and not on the table.

The result is a set, so the order of the headers is no matter to it, and neither is how the regions
are cut. `Takes` says it from one state to another, and composes over the sections of a tag
(`takes_foldl`). Room is asked of each section when its turn comes (`NeverFull`).

In any case regions that do not meet are kept apart, of whatever type they are : every step of the
loops replaces one region by parts of it, so no page is in more regions than before
(`coverCount_reserveRegion`). `elfSections_reserved` has all of this, for every table of whole
regions and every list of headers.
-/

namespace KernelDev

open ByteMem

/-! ## Sections -/

/-- The fields of a section header that decide which frames it touches. -/
structure ElfSection where
  flags : BitVec 64
  addr : BitVec 64
  size : BitVec 64

/-- The section touches the frame of `x` : it occupies memory there. -/
def ElfSection.Touches (sec : ElfSection) (x : Addr) : Prop :=
  sec.flags &&& shfAlloc ≠ 0 ∧ ∃ y : Addr, pageOf y = pageOf x ∧ sec.addr.toNat ≤ y.toNat ∧
    y.toNat < sec.addr.toNat + sec.size.toNat

/-- The rounded end of the section does not wrap around. -/
def ElfSection.Bounded (sec : ElfSection) : Prop :=
  sec.addr.toNat + sec.size.toNat + 4095 < 2 ^ 64

/-- The section of the header at `shdr`. -/
def sectionAt (m : Mem) (shdr : Addr) : ElfSection :=
  ⟨read64 m (shdr + 8), read64 m (shdr + 16), read64 m (shdr + 32)⟩

/-- The headers of a sections tag. -/
def elfHeaders (m : Mem) (elfTag : Addr) : List Addr :=
  (List.range (read32 m (elfTag + 8)).toNat).map (Mmu.sectionHeader m elfTag)

/-- The sections of a tag. -/
def elfSections (m : Mem) (elfTag : Addr) : List ElfSection :=
  (elfHeaders m elfTag).map (sectionAt m)

/-- A section of the list touches the frame of `x`. -/
def Touched (sections : List ElfSection) (x : Addr) : Prop :=
  ∃ sec ∈ sections, sec.Touches x

/-- A section is empty if its bounds are equal. -/
theorem eq_add_iff {a n : BitVec 64} : a = a + n ↔ n.toNat = 0 := by
  bv_omega

/-- The pages that are reserved for a section are the frames it touches. -/
theorem inRange_iff_touches {m : Mem} {shdr ps pe : Addr} (hb : (sectionAt m shdr).Bounded)
    (h : sectionPages m shdr = some (ps, pe)) (x : Addr) :
    InRange ps pe x ↔ (sectionAt m shdr).Touches x := by
  unfold ElfSection.Bounded at hb
  unfold ElfSection.Touches
  unfold sectionPages at h
  simp only [sectionAt] at h hb ⊢
  generalize read64 m (shdr + 8) = flags at h ⊢
  generalize read64 m (shdr + 16) = a at h hb ⊢
  generalize read64 m (shdr + 32) = n at h hb ⊢
  split_ifs at h with halloc
  obtain ⟨rfl, rfl⟩ := Prod.mk.inj (Option.some.inj h)
  obtain ⟨halloc, hne⟩ := halloc
  rw [ne_eq, eq_add_iff] at hne
  have hend : (a + n + pageSize - 1).toNat = a.toNat + n.toNat + 4095 := by
    unfold pageSize
    bv_omega
  rw [InRange, and_pageMask_toNat, and_pageMask_toNat, hend]
  have hx := x.isLt
  constructor
  · rintro ⟨hle, hlt⟩
    refine ⟨halloc, BitVec.ofNat 64 (max a.toNat (x.toNat / 4096 * 4096)), ?_⟩
    have hy : (BitVec.ofNat 64 (max a.toNat (x.toNat / 4096 * 4096))).toNat =
        max a.toNat (x.toNat / 4096 * 4096) := by
      rw [BitVec.toNat_ofNat, Nat.mod_eq_of_lt (by omega)]
    unfold pageOf
    rw [hy]
    omega
  · rintro ⟨-, y, hpage, hle, hlt⟩
    unfold pageOf at hpage
    omega

/-- A section without pages to reserve touches no frame. -/
theorem not_touches_of_none {m : Mem} {shdr : Addr} (h : sectionPages m shdr = none) (x : Addr) :
    ¬(sectionAt m shdr).Touches x := by
  rintro ⟨halloc, y, -, hle, hlt⟩
  unfold sectionPages at h
  simp only [sectionAt] at h halloc hle hlt
  split_ifs at h with hpages
  refine hpages ⟨halloc, fun hempty => ?_⟩
  rw [eq_add_iff] at hempty
  omega

/-! ## Regions that do not meet -/

instance (r : MemRegion) (x : Addr) : Decidable (r.Covers x) :=
  inferInstanceAs (Decidable (_ ∧ _))

/-- How many regions of any type contain `x`. -/
def coverCount (regions : List MemRegion) (x : Addr) : ℕ :=
  regions.countP fun r => decide (r.Covers x)

/-- No two regions of the table meet. -/
def Apart (regions : List MemRegion) : Prop :=
  regions.Pairwise fun r r' => ∀ x, r.Covers x → ¬r'.Covers x

theorem apart_iff {regions : List MemRegion} : Apart regions ↔ ∀ x, coverCount regions x ≤ 1 :=
  countP_le_one_iff.symm

/-- A region is replaced by another one. -/
theorem coverCount_set {regions : List MemRegion} {j : ℕ} {r : MemRegion}
    (hj : regions[j]? = some r) (q : MemRegion) (x : Addr) :
    coverCount (regions.set j q) x + (if r.Covers x then 1 else 0) =
      coverCount regions x + if q.Covers x then 1 else 0 := by
  obtain ⟨front, back, rfl, rfl⟩ := Mmu.exists_split_at hj
  rw [List.set_append_right _ _ (Nat.le_refl _), Nat.sub_self, List.set_cons_zero]
  simp only [coverCount, List.countP_append, List.countP_cons, decide_eq_true_eq]
  omega

/-- A region is replaced by a part of it. -/
theorem coverCount_shrink {regions : List MemRegion} {j : ℕ} {r q : MemRegion} {x : Addr}
    (hj : regions[j]? = some r) (hq : q.Covers x → r.Covers x) :
    coverCount (regions.set j q) x ≤ coverCount regions x := by
  have hset := coverCount_set hj q x
  by_cases hx : q.Covers x
  · rw [if_pos hx, if_pos (hq hx)] at hset
    omega
  · rw [if_neg hx] at hset
    omega

/-- A region is replaced by two parts of it. -/
theorem coverCount_split {regions : List MemRegion} {j : ℕ} {r q e : MemRegion} {x : Addr}
    (hj : regions[j]? = some r) (hq : q.Covers x → r.Covers x)
    (he : e.Covers x → r.Covers x ∧ ¬q.Covers x) :
    coverCount ((regions ++ [e]).set j q) x ≤ coverCount regions x := by
  have hlt := (List.getElem?_eq_some_iff.1 hj).1
  have happ : (regions ++ [e])[j]? = some r := by
    rw [List.getElem?_append_left hlt, hj]
  have hset := coverCount_set happ q x
  have hcount : coverCount (regions ++ [e]) x =
      coverCount regions x + if e.Covers x then 1 else 0 := by
    simp [coverCount, List.countP_append, List.countP_cons]
  rw [hcount] at hset
  by_cases hx : e.Covers x
  · rw [if_pos (he hx).1, if_neg (he hx).2, if_pos hx] at hset
    omega
  · rw [if_neg hx] at hset
    by_cases hx' : q.Covers x
    · rw [if_pos hx', if_pos (hq hx')] at hset
      omega
    · rw [if_neg hx'] at hset
      omega

namespace Mmu

variable {ps pe : Addr} {s t : Mmu}

/-- A step covers no page more often : its pieces lie in the region that it cuts. -/
theorem coverCount_reserveRegion (ps pe : Addr) (s : Mmu) (j : ℕ) (x : Addr) :
    coverCount (reserveRegion ps pe s j).memoryRegions x ≤ coverCount s.memoryRegions x := by
  cases hj : s.memoryRegions[j]? with
  | none =>
    rw [reserveRegion, hj]
  | some r =>
    by_cases hover : r.type = multibootMemoryAvailable ∧
        (overlapStart ps r).toNat < (overlapEnd pe r).toNat
    · have h1 := overlapStart_toNat ps r
      have h2 := overlapEnd_toNat pe r
      rw [reserveRegion_meets hj hover.1 hover.2]
      unfold cut
      split_ifs with hall hs he hroom
      · exact coverCount_shrink hj id
      · exact coverCount_shrink hj fun hx => by
          unfold MemRegion.Covers at *
          dsimp only at hx
          omega
      · exact coverCount_shrink hj fun hx => by
          unfold MemRegion.Covers at *
          dsimp only at hx
          omega
      · refine coverCount_split hj (fun hx => ?_) fun hx => ?_
        · unfold MemRegion.Covers at *
          dsimp only at hx
          omega
        · unfold MemRegion.Covers at *
          dsimp only at hx ⊢
          omega
      · exact coverCount_shrink hj id
    · rw [reserveRegion_misses hj hover]

/-- Regions that do not meet are kept apart. -/
theorem apart_reservePages (h : Apart s.memoryRegions) (ps pe : Addr) :
    Apart (s.reservePages ps pe).memoryRegions := by
  have hrange : ∀ n x, coverCount ((List.range n).foldl (reserveRegion ps pe) s).memoryRegions x ≤
      coverCount s.memoryRegions x := by
    intro n x
    induction n with
    | zero => exact Nat.le_refl _
    | succ n ih =>
      rw [List.range_succ, List.foldl_append]
      exact (coverCount_reserveRegion ps pe _ n x).trans ih
  rw [apart_iff] at h ⊢
  exact fun x => (hrange maxMemoryRegions x).trans (h x)

/-! ## Whole tags -/

/-- The frame of `x` is in an AVAILABLE region. -/
def Offered (s : Mmu) (x : Addr) : Prop :=
  ∃ r ∈ s.memoryRegions, r.Offers x

/-- The table is never full when a section of the list needs a split. -/
def NeverFull : Mmu → List Addr → Prop
  | _, [] => True
  | s, shdr :: shdrs =>
    (∀ ps pe, sectionPages s.mem shdr = some (ps, pe) → ∀ j, SplitFits ps pe s j) ∧
      NeverFull (s.processSection shdr) shdrs

/-- From `s` to `t` the touched frames were taken out of the region table : the other frames
stay on offer if `fits`, and no frame comes to it. -/
structure Takes (touched : Addr → Prop) (fits : Prop) (s t : Mmu) : Prop where
  whole : ∀ r ∈ t.memoryRegions, r.Whole
  size : t.memoryRegions.length ≤ maxMemoryRegions
  offered : ∀ x, t.Offered x → s.Offered x ∧ ¬touched x
  /-- With room for the splits, no other frame is lost. -/
  exact : fits → ∀ x, s.Offered x → ¬touched x → t.Offered x
  /-- Regions that do not meet are kept apart. -/
  apart : Apart s.memoryRegions → Apart t.memoryRegions

theorem OnlyPrints.ite {s' t' : Mmu} {p : Prop} [Decidable p] (hs : OnlyPrints s s')
    (ht : OnlyPrints t t') : OnlyPrints (if p then s else t) (if p then s' else t') := by
  by_cases hp : p
  · rwa [if_pos hp, if_pos hp]
  · rwa [if_neg hp, if_neg hp]

/-- The steps of the loop do not read what was printed. -/
theorem onlyPrints_reserveRegion {u : Mmu} (h : OnlyPrints s u) (ps pe : Addr) (j : ℕ) :
    OnlyPrints (reserveRegion ps pe s j) (reserveRegion ps pe u j) := by
  obtain ⟨console, rfl⟩ := h
  unfold reserveRegion
  cases s.memoryRegions[j]? with
  | none => exact ⟨console, rfl⟩
  | some r =>
    dsimp only
    refine .ite ?_ (.ite ?_ (.ite ?_ (.ite ?_ (.ite ?_ (.ite ?_ (.ite ?_ ?_))))))
    all_goals exact ⟨_, rfl⟩

theorem onlyPrints_range {u : Mmu} (h : OnlyPrints s u) (ps pe : Addr) (n : ℕ) :
    OnlyPrints ((List.range n).foldl (reserveRegion ps pe) s)
      ((List.range n).foldl (reserveRegion ps pe) u) := by
  induction n with
  | zero => exact h
  | succ n ih =>
    rw [List.range_succ, List.foldl_append, List.foldl_append]
    exact onlyPrints_reserveRegion ih ps pe n

theorem splitFits_of_onlyPrints {u : Mmu} (h : OnlyPrints s u) {j : ℕ} (hs : SplitFits ps pe s j) :
    SplitFits ps pe u j := by
  obtain ⟨console, heq⟩ := onlyPrints_range h ps pe j
  unfold SplitFits
  rw [heq]
  exact hs

/-- One section. -/
theorem takes_processSection (hw : ∀ r ∈ s.memoryRegions, r.Whole)
    (hsize : s.memoryRegions.length ≤ maxMemoryRegions) {shdr : Addr}
    (hb : (sectionAt s.mem shdr).Bounded) :
    Takes (sectionAt s.mem shdr).Touches
      (∀ ps pe, sectionPages s.mem shdr = some (ps, pe) → ∀ j, SplitFits ps pe s j) s
      (s.processSection shdr) := by
  rcases s.processSection_cases shdr with ⟨hnone, heq⟩ | ⟨ps, pe, u, hsome, hprints, heq⟩
  · rw [heq]
    exact ⟨hw, hsize, fun x hx => ⟨hx, not_touches_of_none hnone x⟩, fun _ x hx _ => hx, id⟩
  · obtain ⟨hps, hpe⟩ := aligned_sectionPages hsome
    have hin := inRange_iff_touches hb hsome
    have hregions : u.memoryRegions = s.memoryRegions := by
      obtain ⟨console, rfl⟩ := hprints
      rfl
    rw [← hregions] at hw hsize
    obtain ⟨overlap, lost, hres, hfits⟩ := reservePages_spec hps hpe hw hsize
    rw [heq]
    refine ⟨hres.whole, hres.size, fun x hx => ?_, fun hall x hx hout => ?_, fun hapart => ?_⟩
    · have hle := hres.offers x
      have hpos := offerCount_pos.2 hx
      rw [hregions] at hle
      split_ifs at hle with hrange
      · omega
      · exact ⟨offerCount_pos.1 (by omega), fun htouch => hrange ((hin x).2 htouch)⟩
    · have hlost := hfits fun j => splitFits_of_onlyPrints hprints (hall ps pe hsome j)
      have hkeeps := hres.keeps hlost x
      rw [if_neg fun hrange => hout ((hin x).1 hrange), hregions] at hkeeps
      refine offerCount_pos.1 ?_
      rw [hkeeps]
      exact offerCount_pos.2 hx
    · rw [← hregions] at hapart
      exact apart_reservePages hapart ps pe

/-- The sections of a list, one after the other. -/
theorem takes_foldl : ∀ (shdrs : List Addr) {s : Mmu}, (∀ r ∈ s.memoryRegions, r.Whole) →
    s.memoryRegions.length ≤ maxMemoryRegions →
    (∀ shdr ∈ shdrs, (sectionAt s.mem shdr).Bounded) →
    Takes (Touched (shdrs.map (sectionAt s.mem))) (NeverFull s shdrs) s
      (shdrs.foldl processSection s)
  | [], s, hw, hsize, _ =>
    ⟨hw, hsize, fun x hx => ⟨hx, fun ⟨sec, hsec, _⟩ => by cases hsec⟩, fun _ x hx _ => hx, id⟩
  | shdr :: shdrs, s, hw, hsize, hb => by
    have hmem := (s.processSection_keeps shdr).mem
    have hone := takes_processSection hw hsize (hb shdr (by simp))
    have hrest := takes_foldl shdrs hone.whole hone.size fun q hq => by
      rw [hmem]
      exact hb q (by simp [hq])
    rw [hmem] at hrest
    rw [List.foldl_cons, List.map_cons]
    refine ⟨hrest.whole, hrest.size, fun x hx => ?_, fun hfits x hx hout => ?_,
      fun hapart => hrest.apart (hone.apart hapart)⟩
    · obtain ⟨hx₁, hout₁⟩ := hrest.offered x hx
      obtain ⟨hx₀, hout₀⟩ := hone.offered x hx₁
      refine ⟨hx₀, fun ⟨sec, hsec, htouch⟩ => ?_⟩
      rcases List.mem_cons.1 hsec with rfl | hsec
      · exact hout₀ htouch
      · exact hout₁ ⟨sec, hsec, htouch⟩
    · refine hrest.exact hfits.2 x (hone.exact hfits.1 x hx fun htouch => ?_) fun htouch => ?_
      · exact hout ⟨_, List.mem_cons_self, htouch⟩
      · obtain ⟨sec, hsec, htouch⟩ := htouch
        exact hout ⟨sec, List.mem_cons_of_mem _ hsec, htouch⟩

/-- The tag is handled section by section. -/
theorem processElfSectionsTag_eq (s : Mmu) (elfTag : Addr) :
    s.processElfSectionsTag elfTag = (elfHeaders s.mem elfTag).foldl processSection s := by
  rw [processElfSectionsTag_items, elfItems, elfHeaders, List.foldl_map, List.foldl_map]
  rfl

/-- All sections of a tag. -/
theorem takes_processElfSectionsTag (hw : ∀ r ∈ s.memoryRegions, r.Whole)
    (hsize : s.memoryRegions.length ≤ maxMemoryRegions) {elfTag : Addr}
    (hb : ∀ sec ∈ elfSections s.mem elfTag, sec.Bounded) :
    Takes (Touched (elfSections s.mem elfTag)) (NeverFull s (elfHeaders s.mem elfTag)) s
      (s.processElfSectionsTag elfTag) := by
  rw [processElfSectionsTag_eq]
  exact takes_foldl (elfHeaders s.mem elfTag) hw hsize fun shdr hshdr =>
    hb _ (List.mem_map.2 ⟨shdr, hshdr, rfl⟩)

/-- With room for the splits, exactly the touched frames are taken. -/
theorem Takes.offered_iff {touched : Addr → Prop} {fits : Prop} (h : Takes touched fits s t)
    (hfits : fits) (x : Addr) : t.Offered x ↔ s.Offered x ∧ ¬touched x :=
  ⟨h.offered x, fun hx => h.exact hfits x hx.1 hx.2⟩

/-- The order of the sections is no matter. -/
theorem touched_perm {sections sections' : List ElfSection} (h : sections.Perm sections')
    (x : Addr) : Touched sections x ↔ Touched sections' x :=
  exists_congr fun _ => and_congr_left' h.mem_iff

/-- After `process_elf_sections_tag` an AVAILABLE frame was one before, and no section touches
it. The table has its size, and regions that do not meet are kept apart. If the table was
never full when a split was needed, no other frame is lost, in whatever order the sections
come. -/
theorem elfSections_reserved (s : Mmu) (hw : ∀ r ∈ s.memoryRegions, r.Whole)
    (hsize : s.memoryRegions.length ≤ maxMemoryRegions) (elfTag : Addr)
    (hb : ∀ sec ∈ elfSections s.mem elfTag, sec.Bounded) :
    (∀ x, (s.processElfSectionsTag elfTag).Offered x →
      s.Offered x ∧ ¬Touched (elfSections s.mem elfTag) x) ∧
    (s.processElfSectionsTag elfTag).memoryRegions.length ≤ maxMemoryRegions ∧
    (NeverFull s (elfHeaders s.mem elfTag) →
      (∀ x, (s.processElfSectionsTag elfTag).Offered x ↔
        s.Offered x ∧ ¬Touched (elfSections s.mem elfTag) x) ∧
      ∀ elfTag', (elfSections s.mem elfTag').Perm (elfSections s.mem elfTag) →
        NeverFull s (elfHeaders s.mem elfTag') → ∀ x,
          (s.processElfSectionsTag elfTag').Offered x ↔
            (s.processElfSectionsTag elfTag).Offered x) ∧
    (Apart s.memoryRegions → Apart (s.processElfSectionsTag elfTag).memoryRegions) := by
  have htakes := takes_processElfSectionsTag hw hsize hb
  refine ⟨htakes.offered, htakes.size, fun hfits => ⟨htakes.offered_iff hfits,
    fun elfTag' hperm hfits' x => ?_⟩, htakes.apart⟩
  have htakes' := takes_processElfSectionsTag hw hsize fun sec hsec => hb sec (hperm.mem_iff.1 hsec)
  rw [htakes.offered_iff hfits, htakes'.offered_iff hfits', touched_perm hperm]

/-- A region of 64 pages at `0x100000`, of which the kernel section takes the first. -/
def oneRegion : Mmu :=
  { atBoot (tagBlock (pageSectionsTag ++ endTag)) with
    memoryRegions := [⟨0x100000, 0x140000, multibootMemoryAvailable⟩] }

/-- The page of the section is no longer AVAILABLE. -/
theorem elfSections_reserved_oneRegion :
    ¬(oneRegion.processElfSectionsTag 0x9008).Offered 0x100000 := by
  have hwhole : ∀ r ∈ oneRegion.memoryRegions, r.Whole := by
    intro r hr
    obtain rfl := List.mem_singleton.1 hr
    exact ⟨by decide, by decide, by decide⟩
  have hbounded : ∀ sec ∈ elfSections oneRegion.mem 0x9008,
      sec.addr.toNat + sec.size.toNat + 4095 < 2 ^ 64 := by
    decide +kernel
  obtain ⟨sec, hsec, halloc, hlo, hhi⟩ : ∃ sec ∈ elfSections oneRegion.mem 0x9008,
      sec.flags &&& shfAlloc ≠ 0 ∧ sec.addr.toNat ≤ (0x100000 : Addr).toNat ∧
        (0x100000 : Addr).toNat < sec.addr.toNat + sec.size.toNat := by
    decide +kernel
  intro hoffered
  exact ((elfSections_reserved oneRegion hwhole (by decide) 0x9008 hbounded).1 _ hoffered).2
    ⟨sec, hsec, halloc, 0x100000, rfl, hlo, hhi⟩

end Mmu

end KernelDev
