import KernelDev.BootRegions

/-!
# What `MMU_init` does, item by item

To the region table a run of the handlers of `MMU_init` is a sequence of map entries, section
headers and messages (`BootItem`). Which they are depends on memory only : the handlers write none,
and nothing that they have put into the table or the counters decides what comes next. So the items
of a block can be listed first (`bootItems`), and run afterwards.

`Mmu.mmuInit_items` says that `MMU_init` does just that and then prints its summary, whatever the
block holds, if it returns. The proof takes the parts of `MMU_init` from the inside out : the loop
of each handler is the fold of its items (`processMmapTag_items`, `processElfSectionsTag_items`),
and the walk over the tags is the fold of theirs (`walkTags_items`). The entry pointer of a memory
map goes up and does not get past the end of memory, unless the tag is there
(`processMmapTag_ends`).

What holds after boot can then be shown by induction on a list of items, without the block.
-/

namespace KernelDev

open ByteMem

/-! ## Items -/

/-- One thing that `MMU_init` handles : a map entry, a section header or a message. -/
inductive BootItem where
  | entry (a : Addr)
  | header (shdr : Addr)
  | message (call : PrintkCall)
  deriving DecidableEq

namespace BootItem

/-- The effect of an item. -/
def run (s : Mmu) : BootItem → Mmu
  | entry a => s.addEntry a
  | header shdr => s.processSection shdr
  | message call => s.printk call.fmt call.args

end BootItem

/-- The entries that `process_mmap_tag` visits. -/
def entryPtrs (endPtr entrySize : Addr) : ℕ → Addr → List Addr
  | 0, _ => []
  | fuel + 1, entryPtr =>
    if entryPtr < endPtr then entryPtr :: entryPtrs endPtr entrySize fuel (entryPtr + entrySize)
    else []

/-- The items of a memory map tag. -/
def mmapItems (m : Mem) (mmapTag : Addr) : List BootItem :=
  (entryPtrs (mmapTag + (read32 m (mmapTag + 4)).setWidth 64)
    ((read32 m (mmapTag + 8)).setWidth 64) ((read32 m (mmapTag + 4)).toNat + 1)
    (mmapTag + 16)).map .entry

/-- The items of an ELF sections tag. -/
def elfItems (m : Mem) (elfTag : Addr) : List BootItem :=
  (List.range (read32 m (elfTag + 8)).toNat).map fun i => .header (Mmu.sectionHeader m elfTag i)

/-- The items of a tag. -/
def tagItems (m : Mem) (tag : Addr) : List BootItem :=
  let type := read32 m tag
  if type = multibootTagTypeMmap then mmapItems m tag
  else if type = multibootTagTypeElfSections then elfItems m tag
  else if type = multibootTagTypeCmdline then
    [.message ⟨"Command line: %s\n", [.word (tag + 8)]⟩]
  else if type = multibootTagTypeBootLoaderName then
    [.message ⟨"Boot loader: %s\n", [.word (tag + 8)]⟩]
  else if type = multibootTagTypeBasicMeminfo then
    [.message ⟨"Basic memory info: lower=%uKB, upper=%uKB\n",
      [.word ((read32 m (tag + 8)).setWidth 64), .word ((read32 m (tag + 12)).setWidth 64)]⟩]
  else
    [.message ⟨"Skipping tag type %u of size %u\n",
      [.word (type.setWidth 64), .word ((read32 m (tag + 4)).setWidth 64)]⟩]

/-- The items that the walk over the tags meets. -/
def walkItems (m : Mem) (end_ : Addr) : ℕ → Addr → List BootItem
  | 0, _ => []
  | fuel + 1, current =>
    if current < end_ then
      if read32 m current = multibootTagTypeEnd then []
      else if read32 m (current + 4) < 8 ∨
          current + (read32 m (current + 4)).setWidth 64 > end_ then
        [.message ⟨"ERROR: Invalid tag size at 0x%lx\n", [.word current]⟩]
      else tagItems m current ++ walkItems m end_ fuel (Mmu.nextTag m current)
    else []

/-- The items of an information block. -/
def bootItems (m : Mem) (multibootInfo : Addr) : List BootItem :=
  walkItems m (multibootInfo + (read32 m multibootInfo).setWidth 64)
    ((read32 m multibootInfo).toNat + 1) (multibootInfo + 8)

namespace Mmu

/-! ## What the handlers leave alone -/

/-- Memory and the free list are the same in `t` as in `s`. -/
structure Keeps (s t : Mmu) : Prop where
  mem : t.mem = s.mem
  head : t.freePageHead = s.freePageHead
  /-- The list is not built if it was not. -/
  built : t.freeListInitialized = s.freeListInitialized

theorem Keeps.refl (s : Mmu) : Keeps s s := ⟨rfl, rfl, rfl⟩

theorem Keeps.trans {s t u : Mmu} (h : Keeps s t) (h' : Keeps t u) : Keeps s u :=
  ⟨h'.mem.trans h.mem, h'.head.trans h.head, h'.built.trans h.built⟩

theorem Keeps.ite {s t u : Mmu} {p : Prop} [Decidable p] (ht : Keeps s t) (hu : Keeps s u) :
    Keeps s (if p then t else u) := by
  by_cases hp : p
  · rwa [if_pos hp]
  · rwa [if_neg hp]

theorem Keeps.foldl {α : Type*} {f : Mmu → α → Mmu} (h : ∀ s a, Keeps s (f s a)) (l : List α)
    (s : Mmu) : Keeps s (l.foldl f s) := by
  induction l generalizing s with
  | nil => exact .refl s
  | cons a l ih => exact (h s a).trans (ih _)

theorem addEntry_keeps (s : Mmu) (a : Addr) : Keeps s (s.addEntry a) := by
  unfold addEntry
  dsimp only
  refine .ite (.ite (.ite ⟨rfl, rfl, rfl⟩ ?_) ?_) ?_ <;> exact ⟨rfl, rfl, rfl⟩

theorem reserveRegion_keeps (ps pe : Addr) (s : Mmu) (j : ℕ) :
    Keeps s (reserveRegion ps pe s j) := by
  unfold reserveRegion
  cases s.memoryRegions[j]? with
  | none => exact .refl s
  | some r =>
    dsimp only
    refine .ite (.refl s) (.ite (.refl s) (.ite (.refl s)
      (.ite ?_ (.ite ?_ (.ite ?_ (.ite ?_ ?_))))))
    all_goals exact ⟨rfl, rfl, rfl⟩

theorem reservePages_keeps (s : Mmu) (ps pe : Addr) : Keeps s (s.reservePages ps pe) :=
  .foldl (reserveRegion_keeps ps pe) _ s

theorem printk_keeps (s : Mmu) (fmt : String) (args : List PrintkArg) :
    Keeps s (s.printk fmt args) := ⟨rfl, rfl, rfl⟩

theorem processSection_keeps (s : Mmu) (shdr : Addr) : Keeps s (s.processSection shdr) := by
  unfold processSection
  dsimp only
  refine .ite (.refl s) (.ite (.refl s) ?_)
  exact (printk_keeps s _ _).trans (reservePages_keeps _ _ _)

/-- An item keeps memory and the free list. -/
theorem run_keeps (s : Mmu) (i : BootItem) : Keeps s (i.run s) := by
  cases i with
  | entry a => exact s.addEntry_keeps a
  | header shdr => exact s.processSection_keeps shdr
  | message call => exact s.printk_keeps _ _

theorem foldl_run_keeps (items : List BootItem) (s : Mmu) :
    Keeps s (items.foldl BootItem.run s) :=
  .foldl run_keeps items s

/-! ## Handlers -/

/-- Below the last 4 GiB a 32-bit size does not carry past the end of memory. -/
theorem toNat_add_setWidth {a : Addr} (h : a.toNat < 2 ^ 64 - 2 ^ 32) (w : BitVec 32) :
    (a + w.setWidth 64).toNat = a.toNat + w.toNat := by
  have := w.isLt
  rw [BitVec.toNat_add, BitVec.toNat_setWidth]
  omega

/-- The loop of `process_mmap_tag` ends, since the entry pointer goes up. -/
theorem processMmapTag_ends (s : Mmu) {mmapTag : Addr} (htag : mmapTag.toNat < 2 ^ 63 + 2 ^ 33)
    (hsize : read32 s.mem (mmapTag + 8) ≠ 0) : ∃ t, s.processMmapTag mmapTag = some t := by
  unfold processMmapTag
  dsimp only
  generalize read32 s.mem (mmapTag + 8) = entrySize at hsize ⊢
  generalize read32 s.mem (mmapTag + 4) = size
  have hend : (mmapTag + size.setWidth 64).toNat = mmapTag.toNat + size.toNat :=
    toNat_add_setWidth (by omega) size
  have hstart : (mmapTag + 16).toNat = mmapTag.toNat + 16 := by bv_omega
  have hpos : 0 < entrySize.toNat :=
    Nat.pos_of_ne_zero fun h => hsize (BitVec.eq_of_toNat_eq h)
  generalize mmapTag + size.setWidth 64 = endPtr at hend ⊢
  have hrun : ∃ r, Loop.run (fun r : Mmu × Addr => decide (r.2 < endPtr))
      (fun r => (addEntry r.1 r.2, r.2 + entrySize.setWidth 64)) (size.toNat + 1)
      (s, mmapTag + 16) = some r ∧ True ∧ decide (r.2 < endPtr) = false := by
    refine Loop.run_spec (fun _ => True) (fun r => endPtr.toNat - r.2.toNat) ?_ trivial
      (by dsimp only; omega)
    intro r _ hr
    have hlt : r.2.toNat < endPtr.toNat := of_decide_eq_true hr
    have hnext := toNat_add_setWidth (a := r.2) (by omega) entrySize
    refine ⟨trivial, ?_⟩
    dsimp only
    omega
  obtain ⟨r, hr, -⟩ := hrun
  exact ⟨r.1, Option.bind_eq_some_iff.2 ⟨r, hr, rfl⟩⟩

/-- A sections tag runs its items. -/
theorem processElfSectionsTag_items (s : Mmu) (elfTag : Addr) :
    s.processElfSectionsTag elfTag = (elfItems s.mem elfTag).foldl BootItem.run s := by
  have hfold : ∀ (is : List ℕ) (t : Mmu), t.mem = s.mem →
      is.foldl (fun t i => t.processSection (sectionHeader t.mem elfTag i)) t =
        (is.map fun i => BootItem.header (sectionHeader s.mem elfTag i)).foldl BootItem.run t := by
    intro is
    induction is with
    | nil => exact fun _ _ => rfl
    | cons i is ih =>
      intro t ht
      rw [List.foldl_cons, List.map_cons, List.foldl_cons, ht]
      exact ih _ ((run_keeps t (.header _)).mem.trans ht)
  exact hfold _ s rfl

/-- A memory map tag runs its items. -/
theorem processMmapTag_items {s t : Mmu} {mmapTag : Addr} (h : s.processMmapTag mmapTag = some t) :
    t = (mmapItems s.mem mmapTag).foldl BootItem.run s := by
  have hloop : ∀ (endPtr entrySize : Addr) (fuel : ℕ) (u : Mmu) (p : Addr) (r : Mmu × Addr),
      Loop.run (fun r : Mmu × Addr => decide (r.2 < endPtr))
        (fun r => (addEntry r.1 r.2, r.2 + entrySize)) fuel (u, p) = some r →
      r.1 = ((entryPtrs endPtr entrySize fuel p).map BootItem.entry).foldl BootItem.run u := by
    intro endPtr entrySize fuel
    induction fuel with
    | zero => intro u p r hr; cases hr
    | succ fuel ih =>
      intro u p r hr
      rw [entryPtrs]
      by_cases hp : p < endPtr
      · rw [Loop.run_step (by simpa using hp)] at hr
        rw [if_pos hp, List.map_cons, List.foldl_cons]
        exact ih _ _ r hr
      · rw [Loop.run_stop (by simpa using hp)] at hr
        obtain rfl := Option.some.inj hr
        rw [if_neg hp]
        rfl
  rw [processMmapTag] at h
  dsimp only at h
  obtain ⟨r, hr, ht⟩ := Option.bind_eq_some_iff.1 h
  obtain rfl := Option.some.inj ht
  exact hloop _ _ _ _ _ r hr

/-- A tag runs its items. -/
theorem processTag_items {s t : Mmu} {tag : Addr} (h : s.processTag tag = some t) :
    t = (tagItems s.mem tag).foldl BootItem.run s := by
  unfold processTag at h
  unfold tagItems
  dsimp only at h ⊢
  by_cases hmmap : read32 s.mem tag = multibootTagTypeMmap
  · rw [if_pos hmmap] at h ⊢
    exact processMmapTag_items h
  rw [if_neg hmmap] at h ⊢
  by_cases helf : read32 s.mem tag = multibootTagTypeElfSections
  · rw [if_pos helf] at h ⊢
    rw [← processElfSectionsTag_items]
    exact (Option.some.inj h).symm
  rw [if_neg helf] at h ⊢
  -- the other tags only print
  by_cases hcmdline : read32 s.mem tag = multibootTagTypeCmdline
  · rw [if_pos hcmdline] at h ⊢
    exact (Option.some.inj h).symm
  rw [if_neg hcmdline] at h ⊢
  by_cases hloader : read32 s.mem tag = multibootTagTypeBootLoaderName
  · rw [if_pos hloader] at h ⊢
    exact (Option.some.inj h).symm
  rw [if_neg hloader] at h ⊢
  by_cases hmeminfo : read32 s.mem tag = multibootTagTypeBasicMeminfo
  · rw [if_pos hmeminfo] at h ⊢
    exact (Option.some.inj h).symm
  · rw [if_neg hmeminfo] at h ⊢
    exact (Option.some.inj h).symm

/-- The walk over the tags runs their items. -/
theorem walkTags_items (end_ : Addr) (fuel : ℕ) : ∀ {s t : Mmu} {current : Addr} {ok : Bool},
    walkTags end_ fuel s current = some (t, ok) →
    t = (walkItems s.mem end_ fuel current).foldl BootItem.run s := by
  induction fuel with
  | zero => intro s t current ok h; cases h
  | succ fuel ih =>
    intro s t current ok h
    rw [walkTags] at h
    rw [walkItems]
    dsimp only at h
    split_ifs at h ⊢
    · cases h
      rfl
    · cases h
      rfl
    · obtain ⟨u, hu, ht⟩ := Option.bind_eq_some_iff.1 h
      have hitems := processTag_items hu
      have hmem : u.mem = s.mem := by rw [hitems, (foldl_run_keeps _ s).mem]
      rw [hmem] at ht
      have hrest := ih ht
      rw [hmem, hitems] at hrest
      rw [List.foldl_append]
      exact hrest
    · cases h
      rfl

/-- From `s` to `t` something may have been printed, and nothing else. -/
def OnlyPrints (s t : Mmu) : Prop :=
  ∃ console, t = { s with console := console }

theorem onlyPrints_printk (s : Mmu) (fmt : String) (args : List PrintkArg) :
    OnlyPrints s (s.printk fmt args) :=
  ⟨_, rfl⟩

theorem OnlyPrints.trans {s t u : Mmu} (h : OnlyPrints s t) (h' : OnlyPrints t u) :
    OnlyPrints s u := by
  obtain ⟨c, rfl⟩ := h
  obtain ⟨c', rfl⟩ := h'
  exact ⟨c', rfl⟩

theorem onlyPrints_printSummary (s : Mmu) : OnlyPrints s s.printSummary := by
  unfold printSummary
  extract_lets s₁ s₂ s₃ s₄ s₅
  exact (((((onlyPrints_printk s _ _).trans (onlyPrints_printk s₁ _ _)).trans
    (onlyPrints_printk s₂ _ _)).trans (onlyPrints_printk s₃ _ _)).trans
    (onlyPrints_printk s₄ _ _)).trans (onlyPrints_printk s₅ _ _)

/-- `MMU_init` runs the items of the block, and then only prints. -/
theorem mmuInit_items {s t : Mmu} {multibootInfo : Addr} (h : s.mmuInit multibootInfo = some t) :
    OnlyPrints ((bootItems s.mem multibootInfo).foldl BootItem.run s) t := by
  rw [mmuInit] at h
  dsimp only at h
  obtain ⟨⟨u, ok⟩, hu, ht⟩ := Option.bind_eq_some_iff.1 h
  have hitems := walkTags_items _ _ hu
  rw [← bootItems] at hitems
  rw [← hitems]
  obtain rfl := Option.some.inj ht
  cases ok with
  | false => exact ⟨u.console, rfl⟩
  | true => exact onlyPrints_printSummary u

end Mmu

end KernelDev
