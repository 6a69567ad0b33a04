import KernelDev.BootRuns

/-!
# What the multiboot parsers read

`MMU_init` checks that a tag of a known size lies inside the information block. Its handlers trust
the fields in the tag : `process_mmap_tag` interprets every entry that starts inside the tag,
`process_elf_sections_tag` as many headers as `num` says. The walk itself reads the type and the
size of a tag before it knows that these are in the block.

`InitReads` are all the reads of a run of `MMU_init`, and `InitItem` the entries and headers that
it interprets, each with its tag; both follow the run, so that a handler that hangs has read its
entries and no later tag is read. `ReadsInside` asks that they lie in the block, and in their tag.

`BlockFits` is the same in terms of the fields of the tags : every entry that starts inside its tag
ends inside it, the headers that are promised fit, with their stride, and the header of the block
is there. The tags are those that the walk comes to (`TagOf`, `visitsTag_iff`). The two directions
go through the reads of one tag (`readsInside_of_fits`, `fits_of_readsInside`).

`mmuInit_reads_inside_iff` is for any block that does not reach the end of memory. `header_outside`
is a tag that promises a header which it has no room for.
-/

namespace KernelDev

open ByteMem

namespace Mmu

/-! ## The loops -/

/-- `end` in `MMU_init` -/
def blockEnd (m : Mem) (multibootInfo : Addr) : Addr :=
  multibootInfo + (read32 m multibootInfo).setWidth 64

/-- `end_ptr` in `process_mmap_tag` -/
def mmapEnd (m : Mem) (mmapTag : Addr) : Addr :=
  mmapTag + (read32 m (mmapTag + 4)).setWidth 64

/-- `process_mmap_tag`, called in the state `s`, runs its loop body for an entry, in the state
before it. -/
inductive VisitsEntry (s : Mmu) (mmapTag : Addr) : Mmu → Addr → Prop
  | first : mmapTag + 16 < mmapEnd s.mem mmapTag → VisitsEntry s mmapTag s (mmapTag + 16)
  | next {t : Mmu} {entryPtr : Addr} : VisitsEntry s mmapTag t entryPtr →
    entryPtr + (read32 s.mem (mmapTag + 8)).setWidth 64 < mmapEnd s.mem mmapTag →
    VisitsEntry s mmapTag (t.addEntry entryPtr)
      (entryPtr + (read32 s.mem (mmapTag + 8)).setWidth 64)

/-- `MMU_init` hands the tag to its handler. -/
structure Handles (m : Mem) (multibootInfo tag : Addr) : Prop where
  type : read32 m tag ≠ multibootTagTypeEnd
  size : ¬(read32 m (tag + 4) < 8 ∨
    tag + (read32 m (tag + 4)).setWidth 64 > blockEnd m multibootInfo)

/-- `MMU_init`, called in the state `s`, runs its loop body for a tag, in the state before it. -/
inductive VisitsTag (s : Mmu) (multibootInfo : Addr) : Mmu → Addr → Prop
  | first : multibootInfo + 8 < blockEnd s.mem multibootInfo →
    VisitsTag s multibootInfo s (multibootInfo + 8)
  | next {t u : Mmu} {tag : Addr} : VisitsTag s multibootInfo t tag →
    Handles t.mem multibootInfo tag → t.processTag tag = some u →
    nextTag u.mem tag < blockEnd s.mem multibootInfo →
    VisitsTag s multibootInfo u (nextTag u.mem tag)

/-! ## Reads -/

/-- A read : its address and the number of bytes. -/
abbrev Read := Addr × ℕ

/-- The reads of `process_mmap_tag` in the entry at `entry`. -/
def entryReads (s : Mmu) (entry : Addr) : List Read :=
  (entry + 16, 4) ::
    if read32 s.mem (entry + 16) = multibootMemoryAvailable ∧
      s.memoryRegions.length < maxMemoryRegions then [(entry, 8), (entry + 8, 8)]
    else []

/-- The reads of `process_elf_sections_tag` in the header at `shdr`. -/
def headerReads (m : Mem) (shdr : Addr) : List Read :=
  (shdr + 8, 8) ::
    if read64 m (shdr + 8) &&& shfAlloc = 0 then []
    else [(shdr + 4, 4), (shdr + 16, 8), (shdr + 32, 8)]

/-- The reads of the `switch` of `MMU_init` for a tag, and of the handlers it calls. The strings
of a tag are read by `printk`. -/
inductive HandlerReads (s : Mmu) (tag : Addr) : Read → Prop
  | mmapSize : read32 s.mem tag = multibootTagTypeMmap → HandlerReads s tag (tag + 4, 4)
  | entry {t : Mmu} {entryPtr : Addr} {r : Read} : read32 s.mem tag = multibootTagTypeMmap →
    VisitsEntry s tag t entryPtr → r ∈ entryReads t entryPtr → HandlerReads s tag r
  | entrySize {t : Mmu} {entryPtr : Addr} : read32 s.mem tag = multibootTagTypeMmap →
    VisitsEntry s tag t entryPtr → HandlerReads s tag (tag + 8, 4)
  | num : read32 s.mem tag = multibootTagTypeElfSections → HandlerReads s tag (tag + 8, 4)
  | entsize {i : ℕ} : read32 s.mem tag = multibootTagTypeElfSections →
    i < (read32 s.mem (tag + 8)).toNat → HandlerReads s tag (tag + 12, 4)
  | header {i : ℕ} {r : Read} : read32 s.mem tag = multibootTagTypeElfSections →
    i < (read32 s.mem (tag + 8)).toNat → r ∈ headerReads s.mem (sectionHeader s.mem tag i) →
    HandlerReads s tag r
  | memLower : read32 s.mem tag = multibootTagTypeBasicMeminfo → HandlerReads s tag (tag + 8, 4)
  | memUpper : read32 s.mem tag = multibootTagTypeBasicMeminfo → HandlerReads s tag (tag + 12, 4)

/-- The reads of `MMU_init`, called in the state `s`. -/
inductive InitReads (s : Mmu) (multibootInfo : Addr) : Read → Prop
  | totalSize : InitReads s multibootInfo (multibootInfo, 4)
  | type {t : Mmu} {tag : Addr} : VisitsTag s multibootInfo t tag →
    InitReads s multibootInfo (tag, 4)
  | size {t : Mmu} {tag : Addr} : VisitsTag s multibootInfo t tag →
    read32 t.mem tag ≠ multibootTagTypeEnd → InitReads s multibootInfo (tag + 4, 4)
  | handler {t : Mmu} {tag : Addr} {r : Read} : VisitsTag s multibootInfo t tag →
    Handles t.mem multibootInfo tag → HandlerReads t tag r → InitReads s multibootInfo r

/-- The map entries and section headers that the handlers interpret, each with its tag. -/
inductive InitItem (s : Mmu) (multibootInfo : Addr) : Addr → Read → Prop
  | entry {t u : Mmu} {tag entryPtr : Addr} : VisitsTag s multibootInfo t tag →
    Handles t.mem multibootInfo tag → read32 t.mem tag = multibootTagTypeMmap →
    VisitsEntry t tag u entryPtr → InitItem s multibootInfo tag (entryPtr, 24)
  | header {t : Mmu} {tag : Addr} {i : ℕ} : VisitsTag s multibootInfo t tag →
    Handles t.mem multibootInfo tag → read32 t.mem tag = multibootTagTypeElfSections →
    i < (read32 t.mem (tag + 8)).toNat →
    InitItem s multibootInfo tag (sectionHeader t.mem tag i, 64)

/-- The read lies in the `size` bytes from `base` on. -/
def Inside (base : Addr) (size : ℕ) (r : Read) : Prop :=
  base.toNat ≤ r.1.toNat ∧ r.1.toNat + r.2 ≤ base.toNat + size

/-- Every read lies inside the block, and every entry and header inside its tag. -/
structure ReadsInside (s : Mmu) (multibootInfo : Addr) : Prop where
  block : ∀ r, InitReads s multibootInfo r →
    Inside multibootInfo (read32 s.mem multibootInfo).toNat r
  /-- Every entry and header lies inside its tag. -/
  items : ∀ tag r, InitItem s multibootInfo tag r →
    Inside tag (read32 s.mem (tag + 4)).toNat r

/-! ## Well-formed blocks -/

/-- With entries of no bytes, the loop of `process_mmap_tag` does not end. -/
def Hangs (m : Mem) (tag : Addr) : Prop :=
  read32 m tag = multibootTagTypeMmap ∧ read32 m (tag + 8) = 0 ∧ 16 < (read32 m (tag + 4)).toNat

/-- The tags of the block, up to an end tag, a tag of an invalid size or one that hangs. -/
inductive TagOf (m : Mem) (multibootInfo : Addr) : Addr → Prop
  | first : multibootInfo + 8 < blockEnd m multibootInfo → TagOf m multibootInfo (multibootInfo + 8)
  | next {tag : Addr} : TagOf m multibootInfo tag → Handles m multibootInfo tag →
    ¬Hangs m tag → nextTag m tag < blockEnd m multibootInfo →
    TagOf m multibootInfo (nextTag m tag)

/-- The fields of the tag keep to their tag, and the fixed parts of the tag to the block. -/
structure TagFits (m : Mem) (multibootInfo tag : Addr) : Prop where
  type : tag.toNat + 4 ≤ multibootInfo.toNat + (read32 m multibootInfo).toNat
  size : read32 m tag ≠ multibootTagTypeEnd →
    tag.toNat + 8 ≤ multibootInfo.toNat + (read32 m multibootInfo).toNat
  mmap : Handles m multibootInfo tag → read32 m tag = multibootTagTypeMmap →
    ∀ k, 16 + k * (read32 m (tag + 8)).toNat < (read32 m (tag + 4)).toNat →
      16 + k * (read32 m (tag + 8)).toNat + 24 ≤ (read32 m (tag + 4)).toNat
  elf : Handles m multibootInfo tag → read32 m tag = multibootTagTypeElfSections →
    tag.toNat + 12 ≤ multibootInfo.toNat + (read32 m multibootInfo).toNat ∧
    ∀ i < (read32 m (tag + 8)).toNat,
      20 + i * (read32 m (tag + 12)).toNat % 2 ^ 32 + 64 ≤ (read32 m (tag + 4)).toNat
  meminfo : Handles m multibootInfo tag → read32 m tag = multibootTagTypeBasicMeminfo →
    tag.toNat + 16 ≤ multibootInfo.toNat + (read32 m multibootInfo).toNat

/-- The block has its header, and its tags fit. -/
structure BlockFits (m : Mem) (multibootInfo : Addr) : Prop where
  /-- `total_size` is in the block. -/
  header : 4 ≤ (read32 m multibootInfo).toNat
  tags : ∀ tag, TagOf m multibootInfo tag → TagFits m multibootInfo tag

/-! ## The walk over the tags -/

/-- A handler writes no memory. -/
theorem processTag_mem {s t : Mmu} {tag : Addr} (h : s.processTag tag = some t) :
    t.mem = s.mem := by
  rw [processTag_items h]
  exact (foldl_run_keeps _ s).mem

/-- Memory is the same at every tag. -/
theorem VisitsTag.mem {s t : Mmu} {multibootInfo tag : Addr}
    (h : VisitsTag s multibootInfo t tag) : t.mem = s.mem := by
  induction h with
  | first => rfl
  | next _ _ hrun _ ih => exact (processTag_mem hrun).trans ih

theorem toNat_mmapEnd {m : Mem} {mmapTag : Addr} (h : mmapTag.toNat < 2 ^ 63 + 2 ^ 33) :
    (mmapEnd m mmapTag).toNat = mmapTag.toNat + (read32 m (mmapTag + 4)).toNat :=
  toNat_add_setWidth (by omega) _

/-- The loop of `process_mmap_tag`, for at most `fuel` tests. -/
def mmapLoop (s : Mmu) (mmapTag : Addr) (fuel : ℕ) : Option (Mmu × Addr) :=
  Loop.run (fun (_, entryPtr) => decide (entryPtr < mmapEnd s.mem mmapTag))
    (fun (t, entryPtr) =>
      (addEntry t entryPtr, entryPtr + (read32 s.mem (mmapTag + 8)).setWidth 64))
    fuel (s, mmapTag + 16)

/-- The loop of `process_mmap_tag`, apart from its state. -/
theorem processMmapTag_eq (s : Mmu) (mmapTag : Addr) : s.processMmapTag mmapTag =
    (s.mmapLoop mmapTag ((read32 s.mem (mmapTag + 4)).toNat + 1)).map Prod.fst := by
  rw [Option.map_eq_bind]
  rfl

/-- With entries of no bytes, the entry pointer stays at the first entry. -/
theorem mmapLoop_hangs {s : Mmu} {mmapTag : Addr} (h : mmapTag.toNat < 2 ^ 63 + 2 ^ 33)
    (hzero : read32 s.mem (mmapTag + 8) = 0) (hsize : 16 < (read32 s.mem (mmapTag + 4)).toNat)
    (fuel : ℕ) : s.mmapLoop mmapTag fuel = none := by
  have hend := toNat_mmapEnd (m := s.mem) h
  have hstart : (mmapTag + 16).toNat = mmapTag.toNat + 16 := by bv_omega
  unfold mmapLoop
  rw [hzero]
  refine Loop.run_eq_none (fun r => r.2 = mmapTag + 16) ?_ rfl
  rintro ⟨t, p⟩ hp
  obtain rfl : p = mmapTag + 16 := hp
  refine ⟨decide_eq_true ?_, BitVec.add_zero _⟩
  rw [BitVec.lt_def, hstart, hend]
  omega

/-- `process_mmap_tag` returns unless it hangs. -/
theorem processMmapTag_returns (s : Mmu) {mmapTag : Addr} (h : mmapTag.toNat < 2 ^ 63 + 2 ^ 33) :
    (∃ t, s.processMmapTag mmapTag = some t) ↔
      ¬(read32 s.mem (mmapTag + 8) = 0 ∧ 16 < (read32 s.mem (mmapTag + 4)).toNat) := by
  by_cases hzero : read32 s.mem (mmapTag + 8) = 0
  swap
  · exact iff_of_true (s.processMmapTag_ends h hzero) fun hno => hzero hno.1
  rw [processMmapTag_eq]
  constructor
  · rintro ⟨t, ht⟩ ⟨-, hlt⟩
    rw [mmapLoop_hangs h hzero hlt] at ht
    cases ht
  · intro hno
    rw [mmapLoop, Loop.run_stop]
    · exact ⟨s, rfl⟩
    · rw [decide_eq_false_iff_not, BitVec.lt_def, toNat_mmapEnd h, show (mmapTag + 16).toNat =
        mmapTag.toNat + 16 by bv_omega]
      have := not_and.1 hno hzero
      omega

/-- `MMU_init` gets past the tag unless the tag hangs. -/
theorem processTag_returns (s : Mmu) {tag : Addr} (h : tag.toNat < 2 ^ 63 + 2 ^ 33) :
    (∃ t, s.processTag tag = some t) ↔ ¬Hangs s.mem tag := by
  unfold processTag Hangs
  dsimp only
  by_cases hmmap : read32 s.mem tag = multibootTagTypeMmap
  · rw [if_pos hmmap, processMmapTag_returns s h]
    simp [hmmap]
  · rw [if_neg hmmap]
    refine iff_of_true ?_ fun hno => hmmap hno.1
    split_ifs <;> exact ⟨_, rfl⟩

section Block

variable {m : Mem} {s t : Mmu} {multibootInfo tag : Addr}

theorem toNat_blockEnd (h : multibootInfo.toNat < 2 ^ 63) :
    (blockEnd m multibootInfo).toNat =
      multibootInfo.toNat + (read32 m multibootInfo).toNat :=
  toNat_add_setWidth (by omega) _

/-- A tag lies behind the header of the block and starts inside the block. -/
theorem TagOf.bounds (h : multibootInfo.toNat < 2 ^ 63) (ht : TagOf m multibootInfo tag) :
    multibootInfo.toNat + 8 ≤ tag.toNat ∧
      tag.toNat < multibootInfo.toNat + (read32 m multibootInfo).toNat := by
  have hend := toNat_blockEnd (m := m) h
  have hsize := (read32 m multibootInfo).isLt
  induction ht with
  | first hlt =>
    rw [BitVec.lt_def, hend] at hlt
    exact ⟨by bv_omega, hlt⟩
  | @next tag _ _ _ hlt ih =>
    rw [BitVec.lt_def, hend] at hlt
    refine ⟨?_, hlt⟩
    have hstride := ((read32 m (tag + 4) + 7) &&& ~~~7).isLt
    have hnext : (nextTag m tag).toNat =
        tag.toNat + ((read32 m (tag + 4) + 7) &&& ~~~7).toNat :=
      toNat_add_setWidth (by omega) _
    omega

/-- No tag is near the end of memory. -/
theorem TagOf.lt (h : multibootInfo.toNat < 2 ^ 63) (ht : TagOf m multibootInfo tag) :
    tag.toNat < 2 ^ 63 + 2 ^ 32 := by
  have := (ht.bounds h).2
  have := (read32 m multibootInfo).isLt
  omega

/-- The tags that `MMU_init` visits are those of the block. -/
theorem visitsTag_iff (h : multibootInfo.toNat < 2 ^ 63) :
    (∃ t, VisitsTag s multibootInfo t tag) ↔ TagOf s.mem multibootInfo tag := by
  constructor
  · rintro ⟨t, ht⟩
    induction ht with
    | first hlt => exact .first hlt
    | next hvisits hhandles hrun hlt ih =>
      rw [processTag_mem hrun, hvisits.mem] at hlt ⊢
      have hlow := ih.lt h
      have hreturns := (processTag_returns _ (by omega)).1 ⟨_, hrun⟩
      rw [hvisits.mem] at hreturns hhandles
      exact .next ih hhandles hreturns hlt
  · intro htag
    induction htag with
    | first hlt => exact ⟨s, .first hlt⟩
    | next htag hhandles hhangs hlt ih =>
      obtain ⟨t, ht⟩ := ih
      have hlow := htag.lt h
      rw [← ht.mem] at hhangs hhandles
      obtain ⟨u, hu⟩ := (processTag_returns t (by omega)).2 hhangs
      have hmem : u.mem = s.mem := (processTag_mem hu).trans ht.mem
      refine ⟨u, ?_⟩
      rw [← hmem] at hlt ⊢
      exact .next ht hhandles hu (by rwa [← hmem])

end Block

/-! ## The reads of a tag -/

section Tag

variable {s t : Mmu} {tag entryPtr : Addr}

/-- The entries visited are those that start inside the tag. -/
theorem VisitsEntry.toNat (h : tag.toNat < 2 ^ 63 + 2 ^ 32)
    (hvisits : VisitsEntry s tag t entryPtr) :
    ∃ k, entryPtr.toNat = tag.toNat + (16 + k * (read32 s.mem (tag + 8)).toNat) ∧
      16 + k * (read32 s.mem (tag + 8)).toNat < (read32 s.mem (tag + 4)).toNat := by
  have hend := toNat_mmapEnd (m := s.mem)
    (show tag.toNat < 2 ^ 63 + 2 ^ 33 by omega)
  have hsize := (read32 s.mem (tag + 4)).isLt
  have hstride := (read32 s.mem (tag + 8)).isLt
  induction hvisits with
  | first hlt =>
    rw [BitVec.lt_def, hend] at hlt
    have hstart : (tag + 16).toNat = tag.toNat + 16 := by bv_omega
    exact ⟨0, by omega, by omega⟩
  | @next t p hvisits hlt ih =>
    obtain ⟨k, hp, hk⟩ := ih
    have hnext : (p + (read32 s.mem (tag + 8)).setWidth 64).toNat =
        p.toNat + (read32 s.mem (tag + 8)).toNat :=
      toNat_add_setWidth (by omega) _
    rw [BitVec.lt_def, hend, hnext, hp] at hlt
    refine ⟨k + 1, ?_, ?_⟩
    · rw [hnext, hp, Nat.add_one_mul]
      omega
    · rw [Nat.add_one_mul]
      omega

/-- Every entry that starts inside the tag is visited. -/
theorem visitsEntry_of_lt (s : Mmu) (h : tag.toNat < 2 ^ 63 + 2 ^ 32) : ∀ k,
    16 + k * (read32 s.mem (tag + 8)).toNat < (read32 s.mem (tag + 4)).toNat →
    ∃ t p, VisitsEntry s tag t p ∧
      p.toNat = tag.toNat + (16 + k * (read32 s.mem (tag + 8)).toNat) := by
  have hend := toNat_mmapEnd (m := s.mem)
    (show tag.toNat < 2 ^ 63 + 2 ^ 33 by omega)
  have hsize := (read32 s.mem (tag + 4)).isLt
  have hstride := (read32 s.mem (tag + 8)).isLt
  intro k
  induction k with
  | zero =>
    intro hk
    have hstart : (tag + 16).toNat = tag.toNat + 16 := by bv_omega
    refine ⟨s, tag + 16, .first ?_, by omega⟩
    rw [BitVec.lt_def, hend]
    omega
  | succ k ih =>
    intro hk
    rw [Nat.add_one_mul] at hk ⊢
    obtain ⟨t, p, hvisits, hp⟩ := ih (by omega)
    have hnext : (p + (read32 s.mem (tag + 8)).setWidth 64).toNat =
        p.toNat + (read32 s.mem (tag + 8)).toNat :=
      toNat_add_setWidth (by omega) _
    refine ⟨_, _, .next hvisits ?_, by omega⟩
    rw [BitVec.lt_def, hend, hnext]
    omega

theorem toNat_sectionHeader (m : Mem) (h : tag.toNat < 2 ^ 63 + 2 ^ 32) {i : ℕ}
    (hi : i < (read32 m (tag + 8)).toNat) :
    (sectionHeader m tag i).toNat =
      tag.toNat + (20 + i * (read32 m (tag + 12)).toNat % 2 ^ 32) := by
  have hnum := (read32 m (tag + 8)).isLt
  have hmod := Nat.mod_lt (i * (read32 m (tag + 12)).toNat) (Nat.two_pow_pos 32)
  have hbase : (tag + 20).toNat = tag.toNat + 20 := by bv_omega
  rw [sectionHeader, BitVec.toNat_add, BitVec.toNat_setWidth, BitVec.toNat_mul,
    BitVec.toNat_ofNat, Nat.mod_eq_of_lt (show i < 2 ^ 32 by omega), hbase]
  omega

/-- A read in the entry at `entry` is one of the 24 bytes. -/
theorem entryReads_bounds {s : Mmu} {entry : Addr} (h : entry.toNat < 2 ^ 63 + 2 ^ 34) {r : Read}
    (hr : r ∈ entryReads s entry) : Inside entry 24 r := by
  have h8 : (entry + 8).toNat = entry.toNat + 8 := by bv_omega
  have h16 : (entry + 16).toNat = entry.toNat + 16 := by bv_omega
  unfold entryReads at hr
  unfold Inside
  split_ifs at hr <;> simp only [List.mem_cons, List.not_mem_nil, or_false] at hr
  · rcases hr with rfl | rfl | rfl <;> dsimp only <;> omega
  · obtain rfl := hr
    dsimp only
    omega

/-- A read in the header at `shdr` is one of the 64 bytes. -/
theorem headerReads_bounds {m : Mem} {shdr : Addr} (h : shdr.toNat < 2 ^ 63 + 2 ^ 34) {r : Read}
    (hr : r ∈ headerReads m shdr) : Inside shdr 64 r := by
  have h4 : (shdr + 4).toNat = shdr.toNat + 4 := by bv_omega
  have h8 : (shdr + 8).toNat = shdr.toNat + 8 := by bv_omega
  have h16 : (shdr + 16).toNat = shdr.toNat + 16 := by bv_omega
  have h32 : (shdr + 32).toNat = shdr.toNat + 32 := by bv_omega
  unfold headerReads at hr
  unfold Inside
  split_ifs at hr <;> simp only [List.mem_cons, List.not_mem_nil, or_false] at hr
  · obtain rfl := hr
    dsimp only
    omega
  · rcases hr with rfl | rfl | rfl | rfl <;> dsimp only <;> omega

end Tag

/-! ## The block -/

section Fits

variable {s t : Mmu} {multibootInfo tag : Addr}

/-- What lies in a part lies in the whole. -/
theorem Inside.trans {a b : Addr} {n k : ℕ} {r : Read} (h : Inside a n (b, k))
    (hr : Inside b k r) : Inside a n r :=
  ⟨h.1.trans hr.1, hr.2.trans h.2⟩

/-- A tag that is handled lies inside the block. -/
theorem Handles.inside {m : Mem} (h : multibootInfo.toNat < 2 ^ 63)
    (hlow : tag.toNat < 2 ^ 63 + 2 ^ 32)
    (hhandles : Handles m multibootInfo tag) : tag.toNat + (read32 m (tag + 4)).toNat ≤
      multibootInfo.toNat + (read32 m multibootInfo).toNat := by
  have hsize := (read32 m (tag + 4)).isLt
  have hle := (not_or.1 hhandles.size).2
  rw [gt_iff_lt, BitVec.lt_def, toNat_blockEnd h, toNat_add_setWidth (by omega)] at hle
  omega

/-- The entries of a tag that fits are inside it. -/
theorem TagFits.entry {m : Mem} (h : multibootInfo.toNat < 2 ^ 63)
    (htag : TagOf m multibootInfo tag) (hfits : TagFits m multibootInfo tag)
    (hhandles : Handles m multibootInfo tag) (hmmap : read32 m tag = multibootTagTypeMmap)
    {t u : Mmu} {entryPtr : Addr} (hmem : t.mem = m) (hvisits : VisitsEntry t tag u entryPtr) :
    Inside tag (read32 m (tag + 4)).toNat (entryPtr, 24) := by
  subst hmem
  obtain ⟨k, hp, hk⟩ := hvisits.toNat (htag.lt h)
  have hfit := hfits.mmap hhandles hmmap k hk
  unfold Inside
  dsimp only
  omega

/-- The headers of a tag that fits are inside it. -/
theorem TagFits.header {m : Mem} (h : multibootInfo.toNat < 2 ^ 63)
    (htag : TagOf m multibootInfo tag) (hfits : TagFits m multibootInfo tag)
    (hhandles : Handles m multibootInfo tag)
    (helf : read32 m tag = multibootTagTypeElfSections) {i : ℕ}
    (hi : i < (read32 m (tag + 8)).toNat) :
    Inside tag (read32 m (tag + 4)).toNat (sectionHeader m tag i, 64) := by
  have hfit := (hfits.elf hhandles helf).2 i hi
  have hheader := toNat_sectionHeader m (htag.lt h) hi
  unfold Inside
  dsimp only
  omega

/-- What the handler of a tag that fits reads lies inside the block. -/
theorem TagFits.handlerReads (h : multibootInfo.toNat < 2 ^ 63)
    (htag : TagOf t.mem multibootInfo tag) (hfits : TagFits t.mem multibootInfo tag)
    (hhandles : Handles t.mem multibootInfo tag) {r : Read} (hr : HandlerReads t tag r) :
    Inside multibootInfo (read32 t.mem multibootInfo).toNat r := by
  have hbounds := htag.bounds h
  have hinside := hhandles.inside h (htag.lt h)
  have hlow := htag.lt h
  have hwhole : Inside multibootInfo (read32 t.mem multibootInfo).toNat
      (tag, (read32 t.mem (tag + 4)).toNat) := ⟨by dsimp only; omega, hinside⟩
  have hfield (k n : ℕ) (hk : k < 2 ^ 32)
      (hle : tag.toNat + (k + n) ≤ multibootInfo.toNat + (read32 t.mem multibootInfo).toNat) :
      Inside multibootInfo (read32 t.mem multibootInfo).toNat (tag + BitVec.ofNat 64 k, n) := by
    have hoff : (tag + BitVec.ofNat 64 k).toNat = tag.toNat + k := by
      rw [BitVec.toNat_add, BitVec.toNat_ofNat]
      omega
    unfold Inside
    dsimp only
    omega
  have hsize := read32 t.mem (tag + 4) |>.isLt
  cases hr with
  | mmapSize hmmap => exact hfield 4 4 (by decide) (by have := hfits.size hhandles.type; omega)
  | entry hmmap hvisits hr =>
    have hentry := hfits.entry h htag hhandles hmmap rfl hvisits
    refine hwhole.trans (hentry.trans (entryReads_bounds ?_ hr))
    have := hentry.2
    dsimp only at this
    omega
  | entrySize hmmap hvisits =>
    have hentry := hfits.entry h htag hhandles hmmap rfl hvisits
    obtain ⟨k, hp, hk⟩ := hvisits.toNat hlow
    have := hentry.2
    dsimp only at this
    exact hfield 8 4 (by decide) (by omega)
  | num helf => exact hfield 8 4 (by decide) (hfits.elf hhandles helf).1
  | entsize helf hi =>
    have := (hfits.elf hhandles helf).2 _ hi
    exact hfield 12 4 (by decide) (by omega)
  | header helf hi hr =>
    have hheader := hfits.header h htag hhandles helf hi
    refine hwhole.trans (hheader.trans (headerReads_bounds ?_ hr))
    have := hheader.2
    dsimp only at this
    omega
  | memLower hmem =>
    have := hfits.meminfo hhandles hmem
    exact hfield 8 4 (by decide) (by omega)
  | memUpper hmem => exact hfield 12 4 (by decide) (hfits.meminfo hhandles hmem)

/-- If the block fits, the reads are inside it. -/
theorem readsInside_of_fits (h : multibootInfo.toNat < 2 ^ 63)
    (hfits : BlockFits s.mem multibootInfo) : ReadsInside s multibootInfo := by
  have htag {t : Mmu} {tag : Addr} (ht : VisitsTag s multibootInfo t tag) :
      TagOf s.mem multibootInfo tag := (visitsTag_iff h).1 ⟨t, ht⟩
  constructor
  · intro r hr
    cases hr with
    | totalSize => exact ⟨le_refl _, Nat.add_le_add_left hfits.header _⟩
    | type ht =>
      have hbounds := (htag ht).bounds h
      have := (hfits.tags _ (htag ht)).type
      exact ⟨by dsimp only; omega, this⟩
    | @size t tag ht hne =>
      have hbounds := (htag ht).bounds h
      have hlow := (htag ht).lt h
      rw [ht.mem] at hne
      have := (hfits.tags _ (htag ht)).size hne
      have hoff : (tag + 4).toNat = tag.toNat + 4 := by bv_omega
      exact ⟨by dsimp only; omega, by dsimp only; omega⟩
    | handler ht hhandles hr =>
      have hfits := hfits.tags _ (htag ht)
      have htag := htag ht
      rw [← ht.mem] at hfits htag ⊢
      exact hfits.handlerReads h htag hhandles hr
  · intro tag r hr
    cases hr with
    | entry ht hhandles hmmap hvisits =>
      rw [ht.mem] at hhandles hmmap
      exact (hfits.tags _ (htag ht)).entry h (htag ht) hhandles hmmap ht.mem hvisits
    | header ht hhandles helf hi =>
      rw [ht.mem] at hhandles helf hi ⊢
      exact (hfits.tags _ (htag ht)).header h (htag ht) hhandles helf hi

/-- If the reads are inside the block, it fits. -/
theorem fits_of_readsInside (h : multibootInfo.toNat < 2 ^ 63)
    (hreads : ReadsInside s multibootInfo) : BlockFits s.mem multibootInfo := by
  refine ⟨Nat.add_le_add_iff_left.1 (hreads.block _ .totalSize).2, fun tag htag => ?_⟩
  obtain ⟨t, ht⟩ := (visitsTag_iff h).2 htag
  have hlow := htag.lt h
  have h4 : (tag + 4).toNat = tag.toNat + 4 := by bv_omega
  have h8 : (tag + 8).toNat = tag.toNat + 8 := by bv_omega
  have h12 : (tag + 12).toNat = tag.toNat + 12 := by bv_omega
  refine ⟨(hreads.block _ (.type ht)).2, fun hne => ?_, fun hhandles hmmap k hk => ?_,
    fun hhandles helf => ⟨?_, fun i hi => ?_⟩, fun hhandles hmem => ?_⟩
  · rw [← ht.mem] at hne
    have := (hreads.block _ (.size ht hne)).2
    dsimp only at this
    omega
  · have hitem := hreads.items tag
    rw [← ht.mem] at hk hhandles hmmap hitem ⊢
    obtain ⟨u, p, hvisits, hp⟩ := visitsEntry_of_lt t hlow k hk
    have := (hitem _ (.entry ht hhandles hmmap hvisits)).2
    dsimp only at this
    omega
  · rw [← ht.mem] at hhandles helf
    have := (hreads.block _ (.handler ht hhandles (.num helf))).2
    dsimp only at this
    omega
  · have hitem := hreads.items tag
    rw [← ht.mem] at hi hhandles helf hitem ⊢
    have hheader := toNat_sectionHeader t.mem hlow hi
    have := (hitem _ (.header ht hhandles helf hi)).2
    dsimp only at this
    omega
  · rw [← ht.mem] at hhandles hmem
    have := (hreads.block _ (.handler ht hhandles (.memUpper hmem))).2
    dsimp only at this
    omega

/-- The multiboot parsers read inside the block, and interpret entries and headers inside their
tags, exactly if the block fits. -/
theorem mmuInit_reads_inside_iff (h : multibootInfo.toNat < 2 ^ 63) :
    ReadsInside s multibootInfo ↔ BlockFits s.mem multibootInfo :=
  ⟨fits_of_readsInside h, readsInside_of_fits h⟩

/-- The tags of a block with one memory map. -/
theorem tagOf_pageMap {tag : Addr} (htag : TagOf (tagBlock (pageMapTag ++ endTag)) 0x9000 tag) :
    tag = 0x9008 ∨ tag = 0x9030 := by
  induction htag with
  | first _ => exact Or.inl (by decide)
  | next _ hhandles _ _ ih =>
    rcases ih with rfl | rfl
    · exact Or.inr (by decide)
    · exact absurd (by decide) hhandles.type

theorem mmuInit_reads_inside_tagBlock :
    ReadsInside (atBoot (tagBlock (pageMapTag ++ endTag))) 0x9000 := by
  refine (mmuInit_reads_inside_iff (by decide)).2 ⟨by decide, fun tag htag => ?_⟩
  rcases tagOf_pageMap htag with rfl | rfl
  · have hsize : read32 (atBoot (tagBlock (pageMapTag ++ endTag))).mem (0x9008 + 4) = 40 := by
      decide
    have hentry : read32 (atBoot (tagBlock (pageMapTag ++ endTag))).mem (0x9008 + 8) = 24 := by
      decide
    refine ⟨by decide, fun _ => by decide, fun _ _ k => ?_, fun _ helf => absurd helf (by decide),
      fun _ hmem => absurd hmem (by decide)⟩
    rw [hsize, hentry]
    show 16 + k * 24 < 40 → 16 + k * 24 + 24 ≤ 40
    omega
  · have hend : read32 (atBoot (tagBlock (pageMapTag ++ endTag))).mem 0x9030 =
        multibootTagTypeEnd := by
      decide
    exact ⟨by decide, fun hne => absurd hend hne, fun h => absurd hend h.type,
      fun h => absurd hend h.type, fun h => absurd hend h.type⟩

end Fits

/-- A tag of 20 bytes that promises a section header. -/
def shortElfTag : List (BitVec 32) :=
  [9, 20, 1, 64, 0, 0]

theorem header_outside : ¬∀ (s : Mmu) (multibootInfo : Addr), multibootInfo.toNat < 2 ^ 63 →
    ReadsInside s multibootInfo := by
  intro h
  have hreads := h (atBoot (tagBlock (shortElfTag ++ endTag))) 0x9000 (by decide)
  have hvisits : VisitsTag (atBoot (tagBlock (shortElfTag ++ endTag))) 0x9000
      (atBoot (tagBlock (shortElfTag ++ endTag))) 0x9008 := .first (by decide)
  have hitem := hreads.items 0x9008 (0x901c, 64)
    (.header (i := 0) hvisits ⟨by decide, by decide⟩ (by decide) (by decide))
  exact absurd hitem.2 (by decide)

end Mmu

end KernelDev
