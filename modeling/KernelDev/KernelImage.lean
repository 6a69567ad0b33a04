import KernelDev.BootRuns

/-!
# The kernel image

`process_elf_sections_tag` takes the sections of the kernel out of the region table, so that no
frame of them is handed out. It takes them only out of what was recorded before : a map entry that
is handled after the sections offers their pages again, and nothing takes them a second time. Boot
loaders choose the order of the tags.

`kernel_image_kept` says when the frames are kept, for any block and for every run of the frame
allocator after it : if every entry that offers one is followed by a section that takes it
(`ImageTaken`). For the converse the two ways in which a frame may be missing by accident are left
out. If a page is given up for want of room, it is not handed out although it should be, and if one
is offered twice, the free list may not reach what it should.

The two examples are one block in two orders : with the map first the page is never handed out, and
with the sections first it is.
-/

namespace KernelDev

open ByteMem

/-- `x` is in a section of the tag that occupies memory. -/
def InImage (m : Mem) (elfTag x : Addr) : Prop :=
  ∃ i < (read32 m (elfTag + 8)).toNat,
    let shdr := Mmu.sectionHeader m elfTag i
    read64 m (shdr + 8) &&& shfAlloc ≠ 0 ∧ (read64 m (shdr + 16)).toNat ≤ x.toNat ∧
      x.toNat < (read64 m (shdr + 16)).toNat + (read64 m (shdr + 32)).toNat

/-- The frame has an address of a section of the tag. -/
def Overlaps (m : Mem) (elfTag f : Addr) : Prop :=
  ∃ x, pageOf x = pageOf f ∧ InImage m elfTag x

/-- No call of the frame allocator returns a frame of the sections. -/
def KeepsImage (m : Mem) (elfTag : Addr) (s : Mmu) : Prop :=
  ∀ tr t, Run FrameStep ⟨s, []⟩ tr t → (∀ e ∈ tr, ∀ x b, e ≠ .write x b) →
    ∀ f, .alloc f ∈ tr → f ≠ 0 → ¬Overlaps m elfTag f

/-- The entries and sections leave no frame of the sections on offer. -/
def ImageTaken (s : Mmu) (items : List BootItem) (elfTag : Addr) : Prop :=
  ∀ f, Aligned f → 0x100000 ≤ f.toNat → Overlaps s.mem elfTag f → coverage s items f = 0

/-- The frames of the kernel are never handed out if every entry that offers one is followed
by a section that takes it. When no page is given up or offered twice, only then. -/
theorem kernel_image_kept {s₀ s : Mmu} (h : s₀.BootStart) {multibootInfo : Addr}
    (hinit : s₀.mmuInit multibootInfo = some s) (elfTag : Addr) :
    (ImageTaken s₀ (bootItems s₀.mem multibootInfo) elfTag → KeepsImage s₀.mem elfTag s) ∧
    (AllFit s₀ (bootItems s₀.mem multibootInfo) →
      (∀ x, coverage s₀ (bootItems s₀.mem multibootInfo) x ≤ 1) →
      KeepsImage s₀.mem elfTag s → ImageTaken s₀ (bootItems s₀.mem multibootInfo) elfTag) := by
  obtain ⟨lost, hboot⟩ := h.mmuInit hinit
  refine ⟨fun htaken tr t hrun hcalls f hf hne hover => ?_,
    fun hfit honce hkeeps f hal hfloor hover => ?_⟩
  · have havail := ((reaches_run hboot.unlisted hrun hcalls).2 f hf).resolve_left hne
    have hzero := htaken f havail.aligned havail.floor hover
    have hle := hboot.covers f
    have hpos := offerCount_pos.2 havail.region
    omega
  · have hexact := hboot.exact (hboot.fits_iff.2 hfit)
    have honce' : ∀ x, offerCount s.memoryRegions x ≤ 1 := fun x => by
      rw [hexact]
      exact honce x
    refine Nat.eq_zero_of_not_pos fun hpos => ?_
    rw [← hexact f] at hpos
    have havail : IsAvailable s.memoryRegions f := ⟨hal, hfloor, offerCount_pos.1 hpos⟩
    obtain ⟨tr, t, hrun, hcalls, hf⟩ := exists_run_alloc (hboot.unbuilt honce') havail
    exact hkeeps tr t hrun hcalls f hf havail.ne_zero hover

/-- A sections tag with one section on the page at `0x100000`, padded to 8 bytes. -/
def pageSectionsTag : List (BitVec 32) :=
  [9, 84, 1, 64, 0, 0, 1, 2, 0, 0x100000, 0, 0, 0, 0x1000, 0, 0, 0, 0, 0, 0, 0, 0]

/-- The sections tag at `elfTag` has the one section of `pageSectionsTag`. -/
def HasPageSection (m : Mem) (elfTag : Addr) : Prop :=
  let shdr := Mmu.sectionHeader m elfTag 0
  (read32 m (elfTag + 8)).toNat = 1 ∧ read64 m (shdr + 8) &&& shfAlloc ≠ 0 ∧
    (read64 m (shdr + 16)).toNat = 0x100000 ∧ (read64 m (shdr + 32)).toNat = 0x1000

instance (m : Mem) (elfTag : Addr) : Decidable (HasPageSection m elfTag) :=
  inferInstanceAs (Decidable (_ ∧ _))

/-- The section is one page. -/
theorem HasPageSection.inImage_iff {m : Mem} {elfTag : Addr} (h : HasPageSection m elfTag)
    (x : Addr) : InImage m elfTag x ↔ 0x100000 ≤ x.toNat ∧ x.toNat < 0x101000 := by
  obtain ⟨hnum, halloc, haddr, hsize⟩ := h
  unfold InImage
  dsimp only
  rw [hnum]
  refine ⟨fun ⟨i, hi, _, hge, hlt⟩ => ?_, fun ⟨hge, hlt⟩ => ⟨0, Nat.one_pos, halloc, ?_, ?_⟩⟩
  · obtain rfl := Nat.lt_one_iff.1 hi
    omega
  · omega
  · omega

/-- The frame with the section is that page. -/
theorem HasPageSection.overlaps_iff {m : Mem} {elfTag f : Addr} (h : HasPageSection m elfTag)
    (hf : Aligned f) : Overlaps m elfTag f ↔ f = 0x100000 := by
  unfold Overlaps
  simp only [h.inImage_iff, pageOf]
  refine ⟨?_, ?_⟩
  · rintro ⟨x, hx, hge, hlt⟩
    unfold Aligned at hf
    have hpage : f.toNat = 0x100000 := by omega
    exact BitVec.eq_of_toNat_eq hpage
  · rintro rfl
    exact ⟨0x100000, rfl, by decide, by decide⟩

/-- With the map before the sections, the page is never handed out. -/
theorem kernel_image_kept_mapFirst :
    ∃ s, (Mmu.atBoot (tagBlock (pageMapTag ++ pageSectionsTag ++ endTag))).mmuInit 0x9000 = some s ∧
      KeepsImage (tagBlock (pageMapTag ++ pageSectionsTag ++ endTag)) 0x9030 s := by
  have hsome : ((Mmu.atBoot (tagBlock (pageMapTag ++ pageSectionsTag ++ endTag))).mmuInit
      0x9000).isSome := by
    decide +kernel
  have hsection : HasPageSection (tagBlock (pageMapTag ++ pageSectionsTag ++ endTag)) 0x9030 := by
    decide +kernel
  obtain ⟨s, hs⟩ := Option.isSome_iff_exists.1 hsome
  refine ⟨s, hs, (kernel_image_kept (Mmu.bootStart_atBoot _) hs 0x9030).1 ?_⟩
  intro f hal hfloor hover
  obtain rfl := (hsection.overlaps_iff hal).1 hover
  decide +kernel

/-- With the sections before the map, the page is handed out. -/
theorem kernel_image_sectionsFirst :
    ∃ s, (Mmu.atBoot (tagBlock (pageSectionsTag ++ pageMapTag ++ endTag))).mmuInit 0x9000 = some s ∧
      ¬KeepsImage (tagBlock (pageSectionsTag ++ pageMapTag ++ endTag)) 0x9008 s := by
  have hpage : ((Mmu.atBoot (tagBlock (pageSectionsTag ++ pageMapTag ++ endTag))).mmuInit
      0x9000).map (fun s => s.mmuPfAlloc.2) = some 0x100000 := by
    decide +kernel
  have hsection : HasPageSection (tagBlock (pageSectionsTag ++ pageMapTag ++ endTag)) 0x9008 := by
    decide +kernel
  obtain ⟨s, hs, hpage⟩ := Option.map_eq_some_iff.1 hpage
  refine ⟨s, hs, fun hkeeps => ?_⟩
  have hrun := Run.nil.snoc (@FrameStep.alloc ⟨s, []⟩)
  rw [hpage] at hrun
  exact hkeeps _ _ hrun (by simp) 0x100000 (by simp) (by decide)
    ((hsection.overlaps_iff (by decide)).2 rfl)

end KernelDev
