import KernelDev.ElfSections
import KernelDev.BootLoops

/-!
# The entries of a memory map

`process_mmap_tag` records the whole frames of an available entry, and no more than 64 regions. The
start of an entry is rounded up to a page and its end down, so an entry with less than a page has
no region. `Records` says what becomes of a list of entries : the regions that are new have whole
pages, a frame is in one of them just if it is in an available entry for which there was room, they
come in the order of the entries, each inside its own, and regions of entries that do not meet do
not meet; the counters have gone up by their pages. The entries may be unaligned, overlap, or come
in any order.

`processMmapTag_records` says so for a whole tag. The tag has to be well formed (`MapTag`) : it has
room for whole entries, which are in the 52 bits of physical memory, so that no sum wraps around.

The last page of the address space is where sums do. A start in it is rounded up to `0`, and the
region would be everything up to the end of the entry; for a section the end is rounded up to `0`,
and the reservation is empty. `pageRounding_iff` says that this is the only place where rounding
goes wrong, for entries and sections whose own end does not wrap.
-/

namespace KernelDev

open ByteMem

/-! ## Entries -/

/-- The fields of a memory map entry. -/
structure MapEntry where
  addr : BitVec 64
  len : BitVec 64
  type : BitVec 32

/-- The entry at `a`. -/
def mapEntryAt (m : Mem) (a : Addr) : MapEntry :=
  ⟨read64 m a, read64 m (a + 8), read32 m (a + 16)⟩

namespace MapEntry

/-- Neither the rounded start of the entry nor its end wraps around. -/
structure Bounded (e : MapEntry) : Prop where
  start : e.addr.toNat + 4095 < 2 ^ 64
  end_ : e.addr.toNat + e.len.toNat < 2 ^ 64

/-- The whole frame of `f` is in the entry, and the entry is available. -/
def HasFrame (e : MapEntry) (f : Addr) : Prop :=
  e.type = multibootMemoryAvailable ∧ e.addr.toNat ≤ f.toNat ∧
    f.toNat + 4096 ≤ e.addr.toNat + e.len.toNat

/-- The region is in the range of the entry. -/
def Contains (e : MapEntry) (r : MemRegion) : Prop :=
  e.addr.toNat ≤ r.start.toNat ∧ r.end_.toNat ≤ e.addr.toNat + e.len.toNat

/-- No byte is in both entries. -/
def Apart (e e' : MapEntry) : Prop :=
  ∀ x, e.addr.toNat ≤ x ∧ x < e.addr.toNat + e.len.toNat →
    ¬(e'.addr.toNat ≤ x ∧ x < e'.addr.toNat + e'.len.toNat)

end MapEntry

section

variable {m : Mem} {a : Addr} {r : MemRegion}

theorem roundUp_page (x : BitVec 64) : (x + pageSize - 1) &&& pageMask = Rounding.up 12 x := by
  have hsum : x + pageSize - 1 = x + BitVec.ofNat 64 4095 := by
    rw [pageSize]
    bv_omega
  rw [hsum, pageMask_eq]
  rfl

/-- The bounds of the region of an entry. -/
theorem entryRegion_bounds (h : entryRegion m a = some r) :
    (mapEntryAt m a).type = multibootMemoryAvailable ∧
    r.start = Rounding.up 12 (mapEntryAt m a).addr ∧
      r.end_.toNat = ((mapEntryAt m a).addr + (mapEntryAt m a).len).toNat / 4096 * 4096 := by
  unfold entryRegion at h
  dsimp only at h
  split_ifs at h with hr
  obtain rfl := Option.some.inj h
  exact ⟨hr.1, roundUp_page _, and_pageMask_toNat _⟩

/-- An available entry without a region. -/
theorem entryRegion_none (h : entryRegion m a = none)
    (htype : (mapEntryAt m a).type = multibootMemoryAvailable) :
    ((mapEntryAt m a).addr + (mapEntryAt m a).len).toNat / 4096 * 4096 ≤
      (Rounding.up 12 (mapEntryAt m a).addr).toNat := by
  unfold entryRegion at h
  dsimp only at h
  split_ifs at h with hr
  have hle := Nat.not_lt.1 fun hlt => hr ⟨htype, hlt⟩
  rwa [roundUp_page, and_pageMask_toNat] at hle

theorem MapEntry.Bounded.toNat {e : MapEntry} (hb : e.Bounded) :
    (Rounding.up 12 e.addr).toNat = (e.addr.toNat + 4095) / 4096 * 4096 ∧
      (e.addr + e.len).toNat = e.addr.toNat + e.len.toNat :=
  ⟨Rounding.toNat_up (by decide) hb.start, BitVec.toNat_add_of_lt hb.end_⟩

/-- The region of an entry lies in it. -/
theorem contains_entryRegion (hb : (mapEntryAt m a).Bounded) (h : entryRegion m a = some r) :
    (mapEntryAt m a).Contains r := by
  obtain ⟨-, hstart, hend⟩ := entryRegion_bounds h
  obtain ⟨hup, hsum⟩ := hb.toNat
  rw [MapEntry.Contains, hstart, hend, hup, hsum]
  omega

/-- It has the whole frames of the entry. -/
theorem covers_entryRegion (hb : (mapEntryAt m a).Bounded) (h : entryRegion m a = some r) {f : Addr}
    (hf : Aligned f) : r.Covers f ↔ (mapEntryAt m a).HasFrame f := by
  obtain ⟨htype, hstart, hend⟩ := entryRegion_bounds h
  obtain ⟨hup, hsum⟩ := hb.toNat
  rw [MemRegion.Covers, MapEntry.HasFrame, and_iff_right htype, hstart, hend, hup, hsum]
  unfold Aligned at hf
  omega

/-- An entry without a region has no whole frame. -/
theorem not_hasFrame (hb : (mapEntryAt m a).Bounded) (h : entryRegion m a = none) {f : Addr}
    (hf : Aligned f) : ¬(mapEntryAt m a).HasFrame f := by
  rintro ⟨htype, hle, hlt⟩
  have hnone := entryRegion_none h htype
  obtain ⟨hup, hsum⟩ := hb.toNat
  rw [hup, hsum] at hnone
  unfold Aligned at hf
  omega

end

/-! ## Recording -/

/-- The entries that `process_mmap_tag`, called in the state `s`, comes to while the table has
fewer than 64 regions. -/
def roomEntries : Mmu → List Addr → List Addr
  | _, [] => []
  | s, a :: entries =>
    if s.memoryRegions.length < maxMemoryRegions then a :: roomEntries (s.addEntry a) entries
    else roomEntries (s.addEntry a) entries

/-- From `s` to `t` the entries have been processed, and the regions `new` recorded. -/
structure Records (s t : Mmu) (entries : List Addr) (new : List MemRegion) : Prop where
  regions : t.memoryRegions = s.memoryRegions ++ new
  whole : ∀ r ∈ new, r.Whole ∧ r.type = multibootMemoryAvailable
  /-- The frames recorded are those of the entries for which there was room. -/
  frames : ∀ f, Aligned f → ((∃ r ∈ new, r.Covers f) ↔
    ∃ a ∈ roomEntries s entries, (mapEntryAt s.mem a).HasFrame f)
  order : ∃ recorded, recorded.Sublist (roomEntries s entries) ∧
    List.Forall₂ (fun a r => (mapEntryAt s.mem a).Contains r) recorded new ∧
    ((recorded.map (mapEntryAt s.mem)).Pairwise MapEntry.Apart → Apart new)
  totalPages : t.totalPages = s.totalPages + BitVec.ofNat 64 (availablePages new)
  freePages : t.freePages = s.freePages + BitVec.ofNat 64 (availablePages new)

section

variable {s t u : Mmu} {entries : List Addr} {new : List MemRegion} {a : Addr} {r : MemRegion}

theorem Records.nil (s : Mmu) : Records s s [] [] := by
  refine ⟨by simp, by simp, by simp [roomEntries], ⟨[], .slnil, .nil, fun _ => .nil⟩, ?_, ?_⟩
  · exact (BitVec.add_zero _).symm
  · exact (BitVec.add_zero _).symm

/-- Regions in disjoint entries are apart. -/
theorem apart_cons {m : Mem} {recorded : List Addr}
    (hr : (mapEntryAt m a).Contains r)
    (hnew : List.Forall₂ (fun a r => (mapEntryAt m a).Contains r) recorded new)
    (hapart : ∀ b ∈ recorded, (mapEntryAt m a).Apart (mapEntryAt m b)) :
    ∀ q ∈ new, ∀ x, r.Covers x → ¬q.Covers x := by
  induction hnew with
  | nil => exact fun q hq => absurd hq (by simp)
  | @cons b q recorded new hq _ ih =>
    rw [List.forall_mem_cons] at hapart ⊢
    refine ⟨fun x hx hx' => hapart.1 x.toNat ?_ ?_, ih hapart.2⟩
    · unfold MemRegion.Covers at hx
      unfold MapEntry.Contains at hr
      omega
    · unfold MemRegion.Covers at hx'
      unfold MapEntry.Contains at hq
      omega

/-- An entry whose region is recorded. -/
theorem Records.cons_record (hb : (mapEntryAt s.mem a).Bounded) (hr : entryRegion s.mem a = some r)
    (hroom : s.memoryRegions.length < maxMemoryRegions) (heq : s.addEntry a = s.record r)
    (h : Records (s.record r) t entries new) : Records s t (a :: entries) (r :: new) := by
  have hrooms : roomEntries s (a :: entries) = a :: roomEntries (s.record r) entries := by
    rw [roomEntries, if_pos hroom, heq]
  have hwhole := whole_entryRegion hr
  have hpages : (r.end_ - r.start) / pageSize = BitVec.ofNat 64 r.pages := by
    rw [← Mmu.toNat_regionPages hwhole.1 hwhole.2, BitVec.ofNat_toNat, BitVec.setWidth_eq]
  obtain ⟨recorded, hsub, hforall, hapart⟩ := h.order
  refine ⟨?_, ?_, fun f hf => ?_,
    ⟨a :: recorded, ?_, .cons (contains_entryRegion hb hr) hforall, ?_⟩, ?_, ?_⟩
  · rw [h.regions]
    simp [Mmu.record, Mmu.appendRegion]
  · rw [List.forall_mem_cons]
    exact ⟨hwhole, h.whole⟩
  · rw [hrooms]
    simp only [List.mem_cons, exists_eq_or_imp]
    rw [covers_entryRegion hb hr hf, h.frames f hf]
    rfl
  · rw [hrooms]
    exact hsub.cons_cons a
  · rw [List.map_cons, List.pairwise_cons]
    rintro ⟨hfirst, hrest⟩
    refine .cons (apart_cons (contains_entryRegion hb hr) hforall fun b hb => ?_) (hapart hrest)
    exact hfirst _ (List.mem_map_of_mem hb)
  · rw [h.totalPages, availablePages_cons, BitVec.ofNat_add, ← hpages, ← BitVec.add_assoc]
    rfl
  · rw [h.freePages, availablePages_cons, BitVec.ofNat_add, ← hpages, ← BitVec.add_assoc]
    rfl

/-- An entry without a region, or one for which there is no room. -/
theorem Records.cons_skip (hb : (mapEntryAt s.mem a).Bounded)
    (hskip : entryRegion s.mem a = none ∨ maxMemoryRegions ≤ s.memoryRegions.length)
    (hu : Mmu.OnlyPrints s (s.addEntry a)) (h : Records (s.addEntry a) t entries new) :
    Records s t (a :: entries) new := by
  have hrooms : roomEntries s (a :: entries) = roomEntries (s.addEntry a) entries ∨
      entryRegion s.mem a = none ∧
        roomEntries s (a :: entries) = a :: roomEntries (s.addEntry a) entries := by
    rw [roomEntries]
    split_ifs with hroom
    · exact Or.inr ⟨hskip.resolve_right (Nat.not_le.2 hroom), rfl⟩
    · exact Or.inl rfl
  generalize s.addEntry a = u at hu h hrooms
  obtain ⟨console, rfl⟩ := hu
  obtain ⟨recorded, hsub, hforall, hapart⟩ := h.order
  refine ⟨h.regions, h.whole, fun f hf => ?_,
    ⟨recorded, ?_, hforall, hapart⟩, h.totalPages, h.freePages⟩
  · rw [h.frames f hf]
    rcases hrooms with heq | ⟨hnone, heq⟩
    · rw [heq]
    · rw [heq]
      simp only [List.mem_cons, exists_eq_or_imp, not_hasFrame hb hnone hf, false_or]
  · rcases hrooms with heq | ⟨-, heq⟩
    · rwa [heq]
    · rw [heq]
      exact hsub.cons a

/-- Processing entries one after the other. -/
theorem records_foldl : ∀ (entries : List Addr) {s : Mmu},
    (∀ a ∈ entries, (mapEntryAt s.mem a).Bounded) →
    ∃ new, Records s (entries.foldl Mmu.addEntry s) entries new
  | [], s, _ => ⟨[], .nil s⟩
  | a :: entries, s, hb => by
    rw [List.forall_mem_cons] at hb
    have hmem : (s.addEntry a).mem = s.mem := (s.addEntry_keeps a).mem
    obtain ⟨new, hnew⟩ := records_foldl entries (s := s.addEntry a) (hmem.symm ▸ hb.2)
    rw [List.foldl_cons]
    rcases s.addEntry_cases a with ⟨r, hr, hroom, heq⟩ | ⟨hskip, hu⟩
    · rw [heq] at hnew ⊢
      exact ⟨r :: new, .cons_record hb.1 hr hroom heq hnew⟩
    · exact ⟨new, .cons_skip hb.1 hskip hu hnew⟩

end

/-! ## The tag -/

/-- The entries of a memory map tag. -/
def mapEntries (m : Mem) (tag : Addr) : List Addr :=
  (List.range (((read32 m (tag + 4)).toNat - 16) / (read32 m (tag + 8)).toNat)).map fun k =>
    tag + BitVec.ofNat 64 (16 + k * (read32 m (tag + 8)).toNat)

/-- A well-formed memory map tag : it has room for whole entries, and they are in the 52 bits of
physical memory. -/
structure MapTag (m : Mem) (tag : Addr) : Prop where
  header : 16 ≤ (read32 m (tag + 4)).toNat
  inMemory : tag.toNat + (read32 m (tag + 4)).toNat < 2 ^ 64
  entrySize : 24 ≤ (read32 m (tag + 8)).toNat
  /-- There is no part of an entry at the end. -/
  whole : (read32 m (tag + 8)).toNat ∣ (read32 m (tag + 4)).toNat - 16
  physical : ∀ a ∈ mapEntries m tag,
    (mapEntryAt m a).addr.toNat + (mapEntryAt m a).len.toNat ≤ 2 ^ 52

/-- `process_mmap_tag` processes the entries of the tag in order. -/
theorem MapTag.processMmapTag {s : Mmu} {tag : Addr} (h : MapTag s.mem tag) :
    s.processMmapTag tag = some ((mapEntries s.mem tag).foldl Mmu.addEntry s) := by
  obtain ⟨hheader, hmem, hsize, ⟨count, hcount⟩, -⟩ := h
  rw [Mmu.processMmapTag_eq, Mmu.mmapLoop, mapEntries, hcount, Nat.mul_div_cancel_left _ (by omega),
    List.range_eq_range']
  have hend : (Mmu.mmapEnd s.mem tag).toNat = tag.toNat + (read32 s.mem (tag + 4)).toNat := by
    rw [Mmu.mmapEnd, BitVec.toNat_add, BitVec.toNat_setWidth]
    have := (read32 s.mem (tag + 4)).isLt
    omega
  generalize Mmu.mmapEnd s.mem tag = endPtr at hend ⊢
  generalize hE : read32 s.mem (tag + 8) = entrySize at hsize hcount ⊢
  rw [Nat.mul_comm] at hcount
  have hptr : ∀ k ≤ count, (tag + BitVec.ofNat 64 (16 + k * entrySize.toNat)).toNat =
      tag.toNat + (16 + k * entrySize.toNat) := fun k hk => by
    have := Nat.mul_le_mul_right entrySize.toNat hk
    rw [BitVec.toNat_add, BitVec.toNat_ofNat]
    omega
  have hloop : ∀ (n k fuel : ℕ) (t : Mmu), n < fuel → k + n = count →
      Loop.run (fun r : Mmu × Addr => decide (r.2 < endPtr))
        (fun r => (r.1.addEntry r.2, r.2 + entrySize.setWidth 64)) fuel
        (t, tag + BitVec.ofNat 64 (16 + k * entrySize.toNat)) =
      some (((List.range' k n).map fun k =>
        tag + BitVec.ofNat 64 (16 + k * entrySize.toNat)).foldl Mmu.addEntry t, endPtr) := by
    intro n
    induction n with
    | zero =>
      intro k fuel t hfuel hk
      obtain ⟨fuel, rfl⟩ := Nat.exists_eq_succ_of_ne_zero (Nat.ne_of_gt hfuel)
      obtain rfl : k = count := hk
      have hlast : tag + BitVec.ofNat 64 (16 + k * entrySize.toNat) = endPtr := by
        rw [← BitVec.toNat_inj, hptr k le_rfl, hend]
        omega
      rw [hlast, Loop.run_stop (by simp)]
      rfl
    | succ n ih =>
      intro k fuel t hfuel hk
      obtain ⟨fuel, rfl⟩ := Nat.exists_eq_succ_of_ne_zero (show fuel ≠ 0 by omega)
      have hlt : tag + BitVec.ofNat 64 (16 + k * entrySize.toNat) < endPtr := by
        have := Nat.mul_le_mul_right entrySize.toNat (show k + 1 ≤ count by omega)
        rw [Nat.add_one_mul] at this
        rw [BitVec.lt_def, hptr k (by omega), hend]
        omega
      have hnext : tag + BitVec.ofNat 64 (16 + k * entrySize.toNat) + entrySize.setWidth 64 =
          tag + BitVec.ofNat 64 (16 + (k + 1) * entrySize.toNat) := by
        rw [BitVec.add_assoc, Nat.add_one_mul, ← Nat.add_assoc, BitVec.ofNat_add _ entrySize.toNat,
          BitVec.ofNat_toNat]
      rw [Loop.run_step (by simpa using hlt), hnext, ih (k + 1) fuel _ (by omega) (by omega),
        List.range'_succ, List.map_cons, List.foldl_cons]
  have hfirst := hloop count 0 ((read32 s.mem (tag + 4)).toNat + 1) s ?_ (Nat.zero_add _)
  · rw [Nat.zero_mul, Nat.add_zero] at hfirst
    rw [show tag + 16 = tag + BitVec.ofNat 64 16 from rfl, hfirst]
    rfl
  · have := Nat.le_mul_of_pos_right count (show 0 < entrySize.toNat by omega)
    omega

/-- The memory map is recorded exactly. -/
theorem processMmapTag_records {s : Mmu} {tag : Addr} (h : MapTag s.mem tag) :
    ∃ t new, s.processMmapTag tag = some t ∧ Records s t (mapEntries s.mem tag) new := by
  obtain ⟨new, hnew⟩ := records_foldl (mapEntries s.mem tag) (s := s) fun a ha => by
    have := h.physical a ha
    exact ⟨by omega, by omega⟩
  exact ⟨_, new, h.processMmapTag, hnew⟩

/-- Memory up to a reserved part below 1 MiB, two pages with parts of pages around them, and less
than a page. -/
def partPagesTag : List (BitVec 32) :=
  [6, 112, 24, 0,
    0, 0, 0x9fc00, 0, 1, 0,
    0x9fc00, 0, 0x400, 0, 2, 0,
    0x100800, 0, 0x3000, 0, 1, 0,
    0x200400, 0, 0x800, 0, 1, 0]

theorem processMmapTag_records_partPages : ∃ t,
    (Mmu.atBoot (tagBlock (partPagesTag ++ endTag))).processMmapTag 0x9008 = some t ∧
      Records (Mmu.atBoot (tagBlock (partPagesTag ++ endTag))) t [0x9018, 0x9030, 0x9048, 0x9060]
        [⟨0, 0x9f000, multibootMemoryAvailable⟩,
          ⟨0x101000, 0x103000, multibootMemoryAvailable⟩] := by
  have hentries : mapEntries (tagBlock (partPagesTag ++ endTag)) 0x9008 =
      [0x9018, 0x9030, 0x9048, 0x9060] := by decide
  have htag : MapTag (tagBlock (partPagesTag ++ endTag)) 0x9008 := by
    refine ⟨by decide, by decide, by decide, by decide, ?_⟩
    rw [hentries, List.forall_mem_cons, List.forall_mem_cons, List.forall_mem_cons,
      List.forall_mem_singleton]
    exact ⟨by decide, by decide, by decide, by decide⟩
  have hregions : ((Mmu.atBoot (tagBlock (partPagesTag ++ endTag))).processMmapTag 0x9008).map
      Mmu.memoryRegions = some [⟨0, 0x9f000, multibootMemoryAvailable⟩,
        ⟨0x101000, 0x103000, multibootMemoryAvailable⟩] := by decide
  obtain ⟨t, new, ht, hrecords⟩ :=
    processMmapTag_records (s := Mmu.atBoot (tagBlock (partPagesTag ++ endTag))) htag
  rw [show (Mmu.atBoot (tagBlock (partPagesTag ++ endTag))).mem =
    tagBlock (partPagesTag ++ endTag) from rfl, hentries] at hrecords
  rw [ht, Option.map_some, hrecords.regions] at hregions
  obtain rfl : new = _ := Option.some.inj hregions
  exact ⟨t, ht, hrecords⟩

/-! ## The last page of the address space -/

namespace Mmu

/-- A region that `process_mmap_tag` records for the entry at `a` lies in the entry. -/
def RecordsInside (s : Mmu) (a : Addr) : Prop :=
  ∀ r, (s.addEntry a).memoryRegions = s.memoryRegions ++ [r] → (mapEntryAt s.mem a).Contains r

/-- The pages that `process_elf_sections_tag` reserves for the header at `shdr` contain the
section. -/
def ReservesSection (m : Mem) (shdr : Addr) : Prop :=
  ∀ ps pe, sectionPages m shdr = some (ps, pe) → ps.toNat ≤ (sectionAt m shdr).addr.toNat ∧
    (sectionAt m shdr).addr.toNat + (sectionAt m shdr).size.toNat ≤ pe.toNat

/-- An entry is recorded inside itself unless its start wraps. -/
theorem recordsInside_iff (s : Mmu) (a : Addr)
    (h : (mapEntryAt s.mem a).addr.toNat + (mapEntryAt s.mem a).len.toNat < 2 ^ 64) :
    s.RecordsInside a ↔ (mapEntryAt s.mem a).type ≠ multibootMemoryAvailable ∨
      maxMemoryRegions ≤ s.memoryRegions.length ∨
        (mapEntryAt s.mem a).addr.toNat ≤ 2 ^ 64 - 4096 := by
  have hsum := BitVec.toNat_add_of_lt h
  rcases s.addEntry_cases a with ⟨r, hr, hroom, heq⟩ | ⟨hskip, ⟨console, heq⟩⟩
  · obtain ⟨htype, hstart, -⟩ := entryRegion_bounds hr
    constructor
    · intro hinside
      refine Or.inr (Or.inr (Nat.not_lt.1 fun hhigh => ?_))
      have hcontains := (hinside r (by rw [heq, record, appendRegion])).1
      rw [hstart, Rounding.toNat_up_of_wraps (by decide) (by omega)] at hcontains
      omega
    · intro hcond q hq
      rw [heq, record, appendRegion, List.append_cancel_left_eq, List.cons.injEq] at hq
      obtain ⟨rfl, -⟩ := hq
      have hlow := (hcond.resolve_left (not_not.2 htype)).resolve_left (Nat.not_le.2 hroom)
      exact contains_entryRegion ⟨by omega, h⟩ hr
  · refine iff_of_true (fun r hr => ?_) ?_
    · rw [heq] at hr
      exact absurd (congrArg List.length hr) (by simp)
    · by_cases htype : (mapEntryAt s.mem a).type = multibootMemoryAvailable
      swap
      · exact Or.inl htype
      refine Or.inr (hskip.symm.imp_right fun hnone => Nat.not_lt.1 fun hhigh => ?_)
      have hle := entryRegion_none hnone htype
      rw [Rounding.toNat_up_of_wraps (by decide) (by omega), hsum] at hle
      omega

theorem sectionPages_eq {m : Mem} {shdr : Addr}
    (halloc : (sectionAt m shdr).flags &&& shfAlloc ≠ 0) (hsize : (sectionAt m shdr).size ≠ 0) :
    sectionPages m shdr = some ((sectionAt m shdr).addr &&& pageMask,
      Rounding.up 12 ((sectionAt m shdr).addr + (sectionAt m shdr).size)) := by
  have hne : (sectionAt m shdr).addr ≠ (sectionAt m shdr).addr + (sectionAt m shdr).size :=
    fun hc =>
    hsize (BitVec.eq_of_toNat_eq (eq_add_iff.1 hc))
  rw [← roundUp_page]
  exact if_pos ⟨halloc, hne⟩

/-- A section is inside its pages unless its end wraps. -/
theorem reservesSection_iff (m : Mem) (shdr : Addr)
    (h : (sectionAt m shdr).addr.toNat + (sectionAt m shdr).size.toNat < 2 ^ 64) :
    ReservesSection m shdr ↔ (sectionAt m shdr).flags &&& shfAlloc = 0 ∨
      (sectionAt m shdr).size = 0 ∨
      (sectionAt m shdr).addr.toNat + (sectionAt m shdr).size.toNat ≤ 2 ^ 64 - 4096 := by
  have hsum := BitVec.toNat_add_of_lt h
  by_cases halloc : (sectionAt m shdr).flags &&& shfAlloc = 0
  · refine iff_of_true (fun ps pe hpages => ?_) (Or.inl halloc)
    rw [sectionPages, if_neg fun hc => hc.1 halloc] at hpages
    cases hpages
  by_cases hsize : (sectionAt m shdr).size = 0
  · refine iff_of_true (fun ps pe hpages => ?_) (Or.inr (Or.inl hsize))
    rw [sectionPages, if_neg fun hc => hc.2 (eq_add_iff.2 (congrArg BitVec.toNat hsize))] at hpages
    cases hpages
  have hpos : (sectionAt m shdr).size.toNat ≠ 0 := fun hc => hsize (BitVec.eq_of_toNat_eq hc)
  have hpages := sectionPages_eq halloc hsize
  constructor
  · intro hcovers
    refine Or.inr (Or.inr (Nat.not_lt.1 fun hhigh => ?_))
    have hend := (hcovers _ _ hpages).2
    rw [Rounding.toNat_up_of_wraps (by decide) (by omega)] at hend
    omega
  · intro hcond ps pe hps
    have hlow := (hcond.resolve_left halloc).resolve_left hsize
    rw [hpages, Option.some.injEq, Prod.mk.injEq] at hps
    obtain ⟨rfl, rfl⟩ := hps
    rw [and_pageMask_toNat, Rounding.toNat_up (by decide) (by omega), hsum]
    omega

/-- Rounding to pages never goes wrong except in the last page of the address space : there an
available entry is recorded from `0` on, and for a section nothing is reserved. -/
theorem pageRounding_iff (s : Mmu) (a shdr : Addr)
    (he : (mapEntryAt s.mem a).addr.toNat + (mapEntryAt s.mem a).len.toNat < 2 ^ 64)
    (hs : (sectionAt s.mem shdr).addr.toNat + (sectionAt s.mem shdr).size.toNat < 2 ^ 64) :
    (s.RecordsInside a ↔ (mapEntryAt s.mem a).type ≠ multibootMemoryAvailable ∨
      maxMemoryRegions ≤ s.memoryRegions.length ∨
      (mapEntryAt s.mem a).addr.toNat ≤ 2 ^ 64 - 4096) ∧
    (ReservesSection s.mem shdr ↔ (sectionAt s.mem shdr).flags &&& shfAlloc = 0 ∨
      (sectionAt s.mem shdr).size = 0 ∨
      (sectionAt s.mem shdr).addr.toNat + (sectionAt s.mem shdr).size.toNat ≤ 2 ^ 64 - 4096) ∧
    ((sectionPages s.mem shdr = none ∧ s.processSection shdr = s) ∨
      ∃ ps pe u, sectionPages s.mem shdr = some (ps, pe) ∧ OnlyPrints s u ∧
        s.processSection shdr = u.reservePages ps pe) :=
  ⟨s.recordsInside_iff a he, reservesSection_iff s.mem shdr hs, s.processSection_cases shdr⟩

theorem pageRounding_tagBlock :
    (atBoot (tagBlock (pageMapTag ++ endTag))).RecordsInside 0x9018 :=
  (pageRounding_iff (atBoot (tagBlock (pageMapTag ++ endTag))) 0x9018 0x9018 (by decide)
    (by decide)).1.2 (Or.inr (Or.inr (by decide)))

/-- An available entry of 1 KiB in the last page. -/
def lastPageEntry : List (BitVec 32) :=
  [0xfffff800, 0xffffffff, 0x400, 0, 1, 0]

/-- The header of a section of 1 KiB in the last page. -/
def lastPageHeader : List (BitVec 32) :=
  [0, 1, 2, 0, 0xfffff800, 0xffffffff, 0, 0, 0x400, 0]

/-- The entry is recorded as all of memory but its page, and for the section the empty range is
reserved. -/
theorem lastPage_wraps :
    (¬∀ (s : Mmu) (a : Addr),
      (mapEntryAt s.mem a).addr.toNat + (mapEntryAt s.mem a).len.toNat < 2 ^ 64 →
        s.RecordsInside a) ∧
    ¬∀ (m : Mem) (shdr : Addr),
      (sectionAt m shdr).addr.toNat + (sectionAt m shdr).size.toNat < 2 ^ 64 →
        ReservesSection m shdr := by
  constructor
  · intro h
    have hinside := h (atBoot (tagBlock lastPageEntry)) 0x9008 (by decide)
      ⟨0, 0xfffffffffffff000, multibootMemoryAvailable⟩ (by decide)
    exact absurd hinside.1 (by decide)
  · intro h
    have hcovers := h (tagBlock lastPageHeader) 0x9008 (by decide) 0xfffffffffffff000 0 (by decide)
    exact absurd hcovers.2 (by decide)

end Mmu

end KernelDev
