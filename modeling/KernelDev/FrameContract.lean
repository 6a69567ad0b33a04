import KernelDev.FrameAllocator
import KernelDev.Lib.Run
import Mathlib.Data.List.Nodup

/-!
# The contract of the frame allocator

A caller owns the frames that `MMU_pf_alloc` gave it until it frees them. `Holding` is the state
with the frames that are held, and a run is any sequence of allocations, frees of held frames, and
writes of the holders to their frames (`FrameStep`). The list is built by the first call, from the
region table; from then on held and listed frames together are the available ones, each once
(`Owns`).

The first part is about building the list. The regions are page-aligned and the AVAILABLE ones do
not meet (`RegionTable`); the loops then push the pages of each region at or above 1 MiB, in order
(`initFreePageList_eq`), which are the available frames (`mem_listedFrames`), none of them twice
(`nodup_listedFrames`). An address in the last page of a region does not wrap (`next_page`).

The second part is about one event. A frame moves from the list to the holder or back (`Owns.take`,
`Owns.give`), and a write of a holder to its frame leaves the list alone (`Owns.write`), since the
links are in the frames that nobody holds. Before the first call there is no list; a state of such
a run allocates as one with a built list does (`exists_owns`), so the cases need not be told apart.

`frame_allocator_contract` is the result for every state of a run : held and listed frames, what a
frame holds when it is handed out, when nothing is handed out, and that no call changes a frame
which stays held.
-/

namespace KernelDev

open ByteMem

/-! ## The frames of a region table -/

/-- `x` is in the region. -/
def MemRegion.Covers (r : MemRegion) (x : Addr) : Prop :=
  r.start.toNat ≤ x.toNat ∧ x.toNat < r.end_.toNat

/-- `x` is in the region, and the region is AVAILABLE. -/
def MemRegion.Offers (r : MemRegion) (x : Addr) : Prop :=
  r.type = multibootMemoryAvailable ∧ r.Covers x

/-- A page of an AVAILABLE region at or above 1 MiB. -/
structure IsAvailable (regions : List MemRegion) (f : Addr) : Prop where
  aligned : Aligned f
  /-- The page is not below 1 MiB. -/
  floor : 0x100000 ≤ f.toNat
  region : ∃ r ∈ regions, r.Offers f

/-- A table of page-aligned regions, of which the AVAILABLE ones do not meet. -/
structure RegionTable (regions : List MemRegion) : Prop where
  aligned : ∀ r ∈ regions, Aligned r.start ∧ Aligned r.end_
  /-- No address is in two AVAILABLE regions. -/
  disjoint : regions.Pairwise fun r r' => ∀ x, r.Offers x → ¬r'.Offers x

/-- The null page is not available. -/
theorem IsAvailable.ne_zero {regions : List MemRegion} {f : Addr} (h : IsAvailable regions f) :
    f ≠ 0 := by
  rintro rfl
  exact absurd h.floor (by decide)

/-- `n` consecutive pages from `addr`. -/
def framesFrom (addr : Addr) : ℕ → List Addr
  | 0 => []
  | n + 1 => addr :: framesFrom (addr + pageSize) n

/-- The first page of a region that `init_free_page_list` lists. -/
def MemRegion.floor (r : MemRegion) : Addr :=
  if r.start < 0x100000 then 0x100000 else r.start

/-- The pages `init_free_page_list` lists for a region, in its order. -/
def MemRegion.frames (r : MemRegion) : List Addr :=
  if r.type = multibootMemoryAvailable then
    framesFrom r.floor ((r.end_.toNat - r.floor.toNat) / 4096)
  else []

/-- The pages `init_free_page_list` lists, in its order. -/
def listedFrames (regions : List MemRegion) : List Addr :=
  regions.flatMap MemRegion.frames

/-- The pages from an address. -/
theorem mem_framesFrom {f : Addr} : ∀ {n : ℕ} {addr : Addr}, Aligned addr →
    addr.toNat + 4096 * n < 2 ^ 64 →
    (f ∈ framesFrom addr n ↔ Aligned f ∧ addr.toNat ≤ f.toNat ∧ f.toNat < addr.toNat + 4096 * n)
  | 0, addr, _, _ => by
    simp only [framesFrom, List.not_mem_nil, false_iff]
    omega
  | n + 1, addr, hal, hlt => by
    have hroom : addr.toNat + 4096 < 2 ^ 64 := Nat.lt_of_le_of_lt (by omega) hlt
    obtain ⟨hnext, hal'⟩ := aligned_next hal hroom
    rw [framesFrom, List.mem_cons, mem_framesFrom hal' (by omega), hnext]
    unfold Aligned at *
    refine ⟨?_, fun ⟨hf, hle, hlt⟩ => ?_⟩
    · rintro (rfl | ⟨hf, hle, hlt⟩)
      · exact ⟨hal, Nat.le_refl _, by omega⟩
      · exact ⟨hf, by omega, by omega⟩
    · by_cases heq : f = addr
      · exact Or.inl heq
      · have hne : f.toNat ≠ addr.toNat := fun h => heq (BitVec.eq_of_toNat_eq h)
        exact Or.inr ⟨hf, by omega, by omega⟩

/-- Pages of a range are different. -/
theorem nodup_framesFrom : ∀ {n : ℕ} {addr : Addr}, Aligned addr →
    addr.toNat + 4096 * n < 2 ^ 64 → (framesFrom addr n).Nodup
  | 0, _, _, _ => List.nodup_nil
  | n + 1, addr, hal, hlt => by
    have hroom : addr.toNat + 4096 < 2 ^ 64 := Nat.lt_of_le_of_lt (by omega) hlt
    obtain ⟨hnext, hal'⟩ := aligned_next hal hroom
    refine List.nodup_cons.2 ⟨fun hmem => ?_, nodup_framesFrom hal' (by omega)⟩
    have := (mem_framesFrom hal' (by omega)).1 hmem
    omega

@[simp] theorem length_framesFrom : ∀ (n : ℕ) (addr : Addr), (framesFrom addr n).length = n
  | 0, _ => rfl
  | n + 1, addr => by rw [framesFrom, List.length_cons, length_framesFrom n]

theorem MemRegion.aligned_floor {r : MemRegion} (h : Aligned r.start) : Aligned r.floor := by
  unfold MemRegion.floor
  split_ifs
  · decide
  · exact h

/-- The floor is the start of the region or 1 MiB. -/
theorem MemRegion.floor_toNat (r : MemRegion) : r.floor.toNat = max 0x100000 r.start.toNat := by
  unfold MemRegion.floor
  split_ifs with h
  · have : r.start.toNat < 0x100000 := h
    rw [Nat.max_eq_left (by omega)]
    rfl
  · have : ¬r.start.toNat < 0x100000 := h
    rw [Nat.max_eq_right (by omega)]

/-- A region lists its pages at or above 1 MiB. -/
theorem MemRegion.mem_frames {r : MemRegion} (hs : Aligned r.start) (he : Aligned r.end_)
    {f : Addr} : f ∈ r.frames ↔
      r.type = multibootMemoryAvailable ∧ Aligned f ∧ 0x100000 ≤ f.toNat ∧ r.Covers f := by
  have hfloor := MemRegion.aligned_floor hs
  have hmax := r.floor_toNat
  have hend := r.end_.isLt
  unfold MemRegion.frames
  split_ifs with htype
  · rw [mem_framesFrom hfloor (by unfold Aligned at *; omega)]
    unfold MemRegion.Covers Aligned at *
    simp only [htype, true_and]
    omega
  · simp [htype]

/-- A region lists no page twice. -/
theorem MemRegion.nodup_frames {r : MemRegion} (hs : Aligned r.start) : r.frames.Nodup := by
  have hend := r.end_.isLt
  have hfloor := r.floor.isLt
  unfold MemRegion.frames
  split_ifs
  · by_cases hlt : r.floor.toNat ≤ r.end_.toNat
    · exact nodup_framesFrom (MemRegion.aligned_floor hs) (by omega)
    · rw [Nat.sub_eq_zero_of_le (by omega)]
      exact List.nodup_nil
  · exact List.nodup_nil

/-- An AVAILABLE region lists no frames, or all of them from its floor to its end. -/
theorem MemRegion.frames_cases {r : MemRegion} (hs : Aligned r.start) (he : Aligned r.end_)
    (htype : r.type = multibootMemoryAvailable) :
    (r.floor ≥ r.end_ ∧ r.frames = []) ∨
      ¬r.floor ≥ r.end_ ∧ ∃ k, r.frames = framesFrom r.floor k ∧
        r.end_.toNat - r.floor.toNat = 4096 * k ∧ k < (r.end_ - r.floor).toNat / 4096 + 1 := by
  have hfloor := MemRegion.aligned_floor hs
  rw [MemRegion.frames, if_pos htype]
  by_cases hge : r.floor ≥ r.end_
  · have hle : r.end_.toNat ≤ r.floor.toNat := hge
    rw [Nat.sub_eq_zero_of_le hle]
    exact Or.inl ⟨hge, rfl⟩
  · have hlt : r.floor.toNat < r.end_.toNat := Nat.not_le.1 hge
    rw [BitVec.toNat_sub_of_le (Nat.le_of_lt hlt)]
    refine Or.inr ⟨hge, _, rfl, ?_, Nat.lt_succ_self _⟩
    unfold Aligned at he hfloor
    omega

/-- The listed frames are the available ones. -/
theorem mem_listedFrames {regions : List MemRegion}
    (hal : ∀ r ∈ regions, Aligned r.start ∧ Aligned r.end_) {f : Addr} :
    f ∈ listedFrames regions ↔ IsAvailable regions f := by
  rw [listedFrames, List.mem_flatMap]
  refine ⟨fun ⟨r, hr, hf⟩ => ?_, fun ⟨hf, hfloor, r, hr, htype, hcov⟩ => ⟨r, hr, ?_⟩⟩
  · obtain ⟨htype, hf, hfloor, hcov⟩ := (MemRegion.mem_frames (hal r hr).1 (hal r hr).2).1 hf
    exact ⟨hf, hfloor, r, hr, htype, hcov⟩
  · exact (MemRegion.mem_frames (hal r hr).1 (hal r hr).2).2 ⟨htype, hf, hfloor, hcov⟩

/-- Each of them is listed once. -/
theorem nodup_listedFrames {regions : List MemRegion} (h : RegionTable regions) :
    (listedFrames regions).Nodup := by
  refine List.nodup_flatMap.2 ⟨fun r hr => MemRegion.nodup_frames (h.aligned r hr).1, ?_⟩
  refine h.disjoint.imp_of_mem fun {r r'} hr hr' hdisj f hf hf' => ?_
  have hf := (MemRegion.mem_frames (h.aligned r hr).1 (h.aligned r hr).2).1 hf
  have hf' := (MemRegion.mem_frames (h.aligned r' hr').1 (h.aligned r' hr').2).1 hf'
  exact hdisj f ⟨hf.1, hf.2.2.2⟩ ⟨hf'.1, hf'.2.2.2⟩

/-! ## Building the list -/

namespace Mmu

/-- The page after one below `end_` does not wrap. -/
theorem next_page {addr end_ : Addr} (hend : Aligned end_) (hal : Aligned addr)
    (hlt : addr.toNat < end_.toNat) :
    (addr + pageSize).toNat = addr.toNat + 4096 ∧ Aligned (addr + pageSize) := by
  have hmax := end_.isLt
  refine aligned_next hal ?_
  unfold Aligned at hend hal
  omega

theorem not_lt_of_sub_eq {addr end_ : Addr} (h : end_.toNat - addr.toNat = 0) : ¬addr < end_ :=
  fun hlt => Nat.sub_ne_zero_of_lt hlt h

/-- The inner loop of `init_free_page_list` pushes the pages of the range. -/
theorem addPagesFrom_eq {end_ : Addr} (hend : Aligned end_) : ∀ {n k : ℕ} {s : Mmu} {addr : Addr},
    Aligned addr → end_.toNat - addr.toNat = 4096 * k → k < n →
    s.addPagesFrom addr end_ n = (framesFrom addr k).foldl addPageToFreeList s
  | 0, _, _, _, _, _, hk => absurd hk (Nat.not_lt_zero _)
  | n + 1, 0, s, addr, _, hdiff, _ => by
    rw [addPagesFrom, if_neg (not_lt_of_sub_eq hdiff)]
    rfl
  | n + 1, k + 1, s, addr, hal, hdiff, hk => by
    have hlt : addr.toNat < end_.toNat := by omega
    obtain ⟨hnext, hal'⟩ := next_page hend hal hlt
    rw [addPagesFrom, if_pos (show addr < end_ from hlt), framesFrom, List.foldl_cons]
    exact addPagesFrom_eq hend hal' (by omega) (by omega)

/-- The loop body pushes the frames of the region. -/
theorem addRegion_eq (s : Mmu) {r : MemRegion} (hs : Aligned r.start) (he : Aligned r.end_) :
    s.addRegion r = r.frames.foldl addPageToFreeList s := by
  by_cases htype : r.type = multibootMemoryAvailable
  · rw [addRegion, if_pos htype]
    show (if r.floor ≥ r.end_ then s else
      s.addPagesFrom r.floor r.end_ ((r.end_ - r.floor).toNat / 4096 + 1)) = _
    rcases MemRegion.frames_cases hs he htype with ⟨hge, hnone⟩ | ⟨hlt, k, hframes, hdiff, hk⟩
    · rw [if_pos hge, hnone]
      rfl
    · rw [if_neg hlt, hframes]
      exact addPagesFrom_eq he (MemRegion.aligned_floor hs) hdiff hk
  · rw [MemRegion.frames, if_neg htype, addRegion, if_neg htype]
    rfl

/-- `init_free_page_list` pushes the listed frames, one after the other. -/
theorem initFreePageList_eq {s : Mmu}
    (hal : ∀ r ∈ s.memoryRegions, Aligned r.start ∧ Aligned r.end_)
    (hs : s.freeListInitialized = false) :
    s.initFreePageList = (listedFrames s.memoryRegions).foldl addPageToFreeList
      { s with freeListInitialized := true } := by
  have hinit : s.initFreePageList =
      s.memoryRegions.foldl addRegion { s with freeListInitialized := true } := by
    rw [initFreePageList, hs]
    rfl
  rw [hinit, listedFrames, List.foldl_flatMap]
  refine List.foldl_ext _ _ _ fun t r hr => ?_
  exact t.addRegion_eq (hal r hr).1 (hal r hr).2

/-- `s'` is `s` but for memory and the head of the free list, which is the chain of `free`. -/
def ListsTo (s s' : Mmu) (free : List Addr) : Prop :=
  ∃ m head, s' = { s with mem := m, freePageHead := head } ∧ Chain (read64 m) 0 head free

/-- A page that is pushed is listed. -/
theorem addPageToFreeList_listsTo {s s' : Mmu} {free : List Addr} {f : Addr}
    (h : ListsTo s s' free) (hal : ∀ g ∈ f :: free, Aligned g) (hne : f ≠ 0)
    (hnd : (f :: free).Nodup) : ListsTo s (s'.addPageToFreeList f) (f :: free) := by
  obtain ⟨m, head, rfl, hlist⟩ := h
  exact ⟨write64 m f head, f, by rw [addPageToFreeList, store64],
    chain_push hlist (fun g hg => hal g (by simp [hg])) (hal f (by simp)) hne
      (List.nodup_cons.1 hnd).1⟩

theorem foldl_addPageToFreeList_listsTo {s : Mmu} : ∀ (frames : List Addr) {s' : Mmu}
    {free : List Addr}, ListsTo s s' free → (∀ g ∈ frames ++ free, Aligned g) →
    (∀ g ∈ frames, g ≠ 0) → (frames ++ free).Nodup →
    ListsTo s (frames.foldl addPageToFreeList s') (frames.reverse ++ free)
  | [], _, _, h, _, _, _ => h
  | f :: frames, s', free, h, hal, hne, hnd => by
    have hperm : (frames ++ f :: free).Perm (f :: frames ++ free) := List.perm_middle
    rw [List.foldl_cons, List.reverse_cons, List.append_assoc, List.singleton_append]
    refine foldl_addPageToFreeList_listsTo frames
      (addPageToFreeList_listsTo h (fun g hg => hal g ?_) (hne f (by simp)) ?_)
      (fun g hg => hal g (hperm.mem_iff.1 hg)) (fun g hg => hne g (by simp [hg]))
      (hperm.nodup_iff.2 hnd)
    · rcases List.mem_cons.1 hg with rfl | hg
      · simp
      · simp [hg]
    · exact (List.nodup_append'.1 (hperm.nodup_iff.2 hnd)).2.1

/-- `init_free_page_list` lists the available frames, the last one first. -/
theorem initFreePageList_listsTo {s : Mmu} (ht : RegionTable s.memoryRegions)
    (hs : s.freeListInitialized = false) (hhead : s.freePageHead = 0) :
    ListsTo { s with freeListInitialized := true } s.initFreePageList
      (listedFrames s.memoryRegions).reverse := by
  have hstart : ListsTo { s with freeListInitialized := true }
    { s with freeListInitialized := true }
      [] := ⟨s.mem, 0, by rw [← hhead], .nil⟩
  have havail : ∀ f ∈ listedFrames s.memoryRegions, IsAvailable s.memoryRegions f := fun f hf =>
    (mem_listedFrames ht.aligned).1 hf
  have hlists := foldl_addPageToFreeList_listsTo (listedFrames s.memoryRegions) hstart
    (fun f hf => (havail f (by simpa using hf)).aligned) (fun f hf => (havail f hf).ne_zero)
    (by simpa using nodup_listedFrames ht)
  rw [List.append_nil, ← initFreePageList_eq ht.aligned hs] at hlists
  exact hlists

/-- The first call of `MMU_pf_alloc` builds the list and then takes a frame from it. -/
theorem mmuPfAlloc_first {s : Mmu} (hs : s.freeListInitialized = false)
    (hinit : s.initFreePageList.freeListInitialized = true) :
    s.mmuPfAlloc = s.initFreePageList.mmuPfAlloc := by
  have h1 : (if !s.freeListInitialized then s.initFreePageList else s) = s.initFreePageList := by
    simp [hs]
  have h2 : (if !s.initFreePageList.freeListInitialized then s.initFreePageList.initFreePageList
      else s.initFreePageList) = s.initFreePageList := by
    simp [hinit]
  rw [mmuPfAlloc, mmuPfAlloc, h1, h2]

end Mmu

/-! ## Holding frames -/

/-- The state and the frames the callers hold. -/
structure Holding where
  mmu : Mmu
  held : List Addr

/-- A call of the frame allocator, or a write of a holder to its frame. -/
inductive FrameEvent where
  | alloc (page : Addr)
  | free (pf : Addr)
  | write (x : Addr) (b : BitVec 8)

/-- One event : only held frames are freed and written. -/
inductive FrameStep : Holding → FrameEvent → Holding → Prop
  | alloc {t : Holding} : FrameStep t (.alloc t.mmu.mmuPfAlloc.2)
      ⟨t.mmu.mmuPfAlloc.1,
        if t.mmu.mmuPfAlloc.2 = 0 then t.held else t.mmu.mmuPfAlloc.2 :: t.held⟩
  | free {t : Holding} {pf : Addr} : pf ∈ t.held →
      FrameStep t (.free pf) ⟨t.mmu.mmuPfFree pf, t.held.erase pf⟩
  | write {t : Holding} {x : Addr} {b : BitVec 8} : (∃ f ∈ t.held, pageOf x = pageOf f) →
      FrameStep t (.write x b) ⟨t.mmu.storeByte x b, t.held⟩

/-- The list is built, and held and listed frames together are the available ones. -/
structure Owns (regions : List MemRegion) (t : Holding) (listed : List Addr) : Prop where
  built : t.mmu.freeListInitialized = true
  list : t.mmu.FreeList listed
  /-- No frame is held or listed twice. -/
  nodup : (t.held ++ listed).Nodup
  /-- Held and listed frames are the available ones. -/
  all : ∀ f, f ∈ t.held ++ listed ↔ IsAvailable regions f

namespace Owns

variable {regions : List MemRegion} {t : Holding} {listed : List Addr}

theorem aligned (h : Owns regions t listed) : ∀ f ∈ t.held ++ listed, Aligned f := fun f hf =>
  ((h.all f).1 hf).aligned

/-- Before the first call the list that it will build holds all available frames. -/
theorem init {s : Mmu} (ht : RegionTable s.memoryRegions) (hs : s.freeListInitialized = false)
    (hhead : s.freePageHead = 0) :
    Owns s.memoryRegions ⟨s.initFreePageList, []⟩ (listedFrames s.memoryRegions).reverse := by
  obtain ⟨m, head, heq, hlist⟩ := Mmu.initFreePageList_listsTo ht hs hhead
  refine ⟨by rw [heq], ?_, ?_, fun f => ?_⟩
  · rw [Mmu.FreeList, heq]
    exact hlist
  · rw [List.nil_append, List.nodup_reverse]
    exact nodup_listedFrames ht
  · rw [List.nil_append, List.mem_reverse]
    exact mem_listedFrames ht.aligned

/-- A frame taken from the list is held. -/
theorem take {f : Addr} {l : List Addr} (h : Owns regions t (f :: l)) :
    Owns regions ⟨t.mmu.takeFrame f, f :: t.held⟩ l := by
  have hperm : (t.held ++ f :: l).Perm (f :: t.held ++ l) := List.perm_middle
  refine ⟨h.built, ?_, hperm.nodup_iff.1 h.nodup, fun g => ?_⟩
  · exact h.list.takeFrame (fun g hg => h.aligned g (List.mem_append_right _ hg))
      (List.nodup_append'.1 h.nodup).2.1
  · rw [← hperm.mem_iff]
    exact h.all g

/-- A held frame that is freed is listed. -/
theorem give {f : Addr} (h : Owns regions t listed) (hf : f ∈ t.held) :
    Owns regions ⟨t.mmu.giveFrame f, t.held.erase f⟩ (f :: listed) := by
  have hperm : (t.held.erase f ++ f :: listed).Perm (t.held ++ listed) := by
    refine List.perm_middle.trans ?_
    rw [← List.cons_append]
    exact (List.perm_cons_erase hf).symm.append_right _
  refine ⟨h.built, ?_, hperm.nodup_iff.2 h.nodup, fun g => ?_⟩
  · have havail := (h.all f).1 (List.mem_append_left _ hf)
    exact h.list.giveFrame (fun g hg => h.aligned g (List.mem_append_right _ hg)) havail.aligned
      havail.ne_zero fun hfl => (List.nodup_append'.1 h.nodup).2.2 hf hfl
  · rw [hperm.mem_iff]
    exact h.all g

/-- A holder's write leaves the list alone. -/
theorem write {f x : Addr} (h : Owns regions t listed) (hf : f ∈ t.held)
    (hx : pageOf x = pageOf f) (b : BitVec 8) :
    Owns regions ⟨t.mmu.storeByte x b, t.held⟩ listed := by
  refine ⟨h.built, Chain.congr h.list fun g hg => ?_, h.nodup, h.all⟩
  have hal := h.aligned g (List.mem_append_right _ hg)
  have hgf : f ≠ g := fun hgf => (List.nodup_append'.1 h.nodup).2.2 hf (hgf ▸ hg)
  rw [read64_eq_word, read64_eq_word]
  refine word_update hal ?_ b 0
  rw [hx]
  exact (h.aligned f (List.mem_append_left _ hf)).pageOf_ne hal hgf

end Owns

/-! ## Runs -/

/-- `s₀` is a state before the first call. -/
structure Unbuilt (s₀ : Mmu) : Prop where
  table : RegionTable s₀.memoryRegions
  built : s₀.freeListInitialized = false
  head : s₀.freePageHead = 0

section

variable {s₀ : Mmu} {t u : Holding} {tr : List FrameEvent}

/-- A state of a run allocates as one with a built list does : itself, or the state that the
first call begins with. -/
theorem exists_owns (h : Unbuilt s₀)
    (ht : t = ⟨s₀, []⟩ ∨ ∃ listed, Owns s₀.memoryRegions t listed) :
    ∃ t' listed, Owns s₀.memoryRegions t' listed ∧ t'.held = t.held ∧
      t'.mmu.mmuPfAlloc = t.mmu.mmuPfAlloc ∧ (t.held ≠ [] → t' = t) := by
  rcases ht with rfl | ⟨listed, ht⟩
  · have hinit := Owns.init h.table h.built h.head
    exact ⟨⟨s₀.initFreePageList, []⟩, _, hinit, rfl,
      (Mmu.mmuPfAlloc_first h.built hinit.built).symm, fun hne => absurd rfl hne⟩
  · exact ⟨t, listed, ht, rfl, rfl, fun _ => rfl⟩

/-- The two ways an allocation ends. -/
theorem Owns.mmuPfAlloc {regions : List MemRegion} {listed : List Addr}
    (h : Owns regions t listed) :
    listed = [] ∧ t.mmu.mmuPfAlloc =
        (t.mmu.printk "ERROR: Out of memory, no free pages available\n" [], 0) ∨
      ∃ f l, listed = f :: l ∧ f ≠ 0 ∧ t.mmu.mmuPfAlloc = (t.mmu.takeFrame f, f) := by
  cases listed with
  | nil => exact Or.inl ⟨rfl, Mmu.mmuPfAlloc_nil h.built h.list⟩
  | cons f l =>
    exact Or.inr ⟨f, l, rfl, ((h.all f).1 (by simp)).ne_zero, Mmu.mmuPfAlloc_cons h.built h.list⟩

/-- Every event keeps held and listed frames accounted for. -/
theorem owns_step (h : Unbuilt s₀) (ht : t = ⟨s₀, []⟩ ∨ ∃ listed, Owns s₀.memoryRegions t listed)
    {e : FrameEvent} (hstep : FrameStep t e u) : ∃ listed, Owns s₀.memoryRegions u listed := by
  cases hstep with
  | alloc =>
    obtain ⟨t', listed, hown, hheld, halloc, -⟩ := exists_owns h ht
    rw [← halloc, ← hheld]
    rcases hown.mmuPfAlloc with ⟨rfl, hres⟩ | ⟨f, l, rfl, hne, hres⟩
    · rw [hres, if_pos rfl]
      exact ⟨[], { hown with }⟩
    · rw [hres, if_neg hne]
      exact ⟨l, hown.take⟩
  | free hf =>
    rcases ht with rfl | ⟨listed, hown⟩
    · cases hf
    · have havail := (hown.all _).1 (List.mem_append_left _ hf)
      rw [Mmu.mmuPfFree_frame _ havail.ne_zero havail.aligned]
      exact ⟨_, hown.give hf⟩
  | write hx =>
    obtain ⟨f, hf, hx⟩ := hx
    rcases ht with rfl | ⟨listed, hown⟩
    · cases hf
    · exact ⟨listed, hown.write hf hx _⟩

/-- Every run keeps held and listed frames accounted for. -/
theorem owns_run (h : Unbuilt s₀) (hrun : Run FrameStep ⟨s₀, []⟩ tr t) :
    tr = [] ∧ t = ⟨s₀, []⟩ ∨ tr ≠ [] ∧ ∃ listed, Owns s₀.memoryRegions t listed := by
  refine Run.invariant (fun tr t => tr = [] ∧ t = ⟨s₀, []⟩ ∨
    tr ≠ [] ∧ ∃ listed, Owns s₀.memoryRegions t listed) (Or.inl ⟨rfl, rfl⟩) ?_ hrun
  intro tr t e u _ ht hstep
  exact Or.inr ⟨by simp, owns_step h (ht.imp And.right And.right) hstep⟩

/-- A frame that is handed out is cleared. -/
theorem alloc_zeroed (h : Unbuilt s₀) (hrun : Run FrameStep ⟨s₀, []⟩ tr t) {page : Addr}
    (hstep : FrameStep t (.alloc page) u) (hne : page ≠ 0) :
    ∀ x, pageOf x = pageOf page → u.mmu.mem x = 0 := by
  obtain ⟨t', listed, hown, -, halloc, -⟩ :=
    exists_owns h ((owns_run h hrun).imp And.right And.right)
  cases hstep
  rw [← halloc] at hne ⊢
  rcases hown.mmuPfAlloc with ⟨rfl, hres⟩ | ⟨f, l, rfl, -, hres⟩
  · exact absurd (by rw [hres]) hne
  · intro x hx
    rw [hres] at hx ⊢
    exact (fill_page _ (hown.aligned f (by simp)) 0 x).trans (if_pos hx)

/-- Nothing is handed out only when every available frame is held. -/
theorem alloc_null_iff (h : Unbuilt s₀) (hrun : Run FrameStep ⟨s₀, []⟩ tr t) {page : Addr}
    (hstep : FrameStep t (.alloc page) u) :
    page = 0 ↔ ∀ f, IsAvailable s₀.memoryRegions f → f ∈ t.held := by
  obtain ⟨t', listed, hown, hheld, halloc, -⟩ :=
    exists_owns h ((owns_run h hrun).imp And.right And.right)
  cases hstep
  rw [← halloc, ← hheld]
  rcases hown.mmuPfAlloc with ⟨rfl, hres⟩ | ⟨f, l, rfl, hne, hres⟩
  · refine ⟨fun _ g hg => ?_, fun _ => by rw [hres]⟩
    simpa using (hown.all g).2 hg
  · refine ⟨fun hz => absurd (by rw [← hz, hres]) hne, fun hall => ?_⟩
    have hf := hall f ((hown.all f).1 (by simp))
    exact absurd (by simp) ((List.nodup_append'.1 hown.nodup).2.2 hf)

/-- No call of the allocator changes a frame that is held before and after it. -/
theorem call_keeps_held (h : Unbuilt s₀) (hrun : Run FrameStep ⟨s₀, []⟩ tr t) {e : FrameEvent}
    (hstep : FrameStep t e u) (hcall : ∀ x b, e ≠ .write x b) {f : Addr} (hf : f ∈ t.held)
    (hf' : f ∈ u.held) : ∀ x, pageOf x = pageOf f → u.mmu.mem x = t.mmu.mem x := by
  intro x hx
  rcases owns_run h hrun with ⟨-, rfl⟩ | ⟨-, listed, hown⟩
  · cases hf
  have hal := hown.aligned f (List.mem_append_left _ hf)
  cases hstep with
  | alloc =>
    rcases hown.mmuPfAlloc with ⟨rfl, hres⟩ | ⟨g, l, rfl, hne, hres⟩
    · rw [hres]
      rfl
    · have hg := hown.aligned g (by simp)
      have hfg : f ≠ g := by
        rintro rfl
        exact (List.nodup_append'.1 hown.nodup).2.2 hf (by simp)
      rw [hres]
      refine (fill_page _ hg 0 x).trans (if_neg ?_)
      rw [hx]
      exact hal.pageOf_ne hg hfg
  | @free g hg =>
    have havail := (hown.all g).1 (List.mem_append_left _ hg)
    have hfg : f ≠ g := ((List.nodup_append'.1 hown.nodup).1.mem_erase_iff.1 hf').1
    rw [Mmu.mmuPfFree_frame _ havail.ne_zero havail.aligned]
    simp only [Mmu.giveFrame]
    rw [← slot_zero g]
    refine write64_slot_of_pageOf_ne havail.aligned ?_
    rw [hx]
    exact hal.pageOf_ne havail.aligned hfg
  | write => exact absurd rfl (hcall _ _)

/-- The contract of the frame allocator. After the first call held and listed frames are the
available ones, each once. A frame that is handed out is cleared, none is handed out exactly
when all are held, and no call changes a frame that stays held. -/
theorem frame_allocator_contract (h : Unbuilt s₀) (hrun : Run FrameStep ⟨s₀, []⟩ tr t) :
    (tr ≠ [] → ∃ listed, t.mmu.FreeList listed ∧ (t.held ++ listed).Nodup ∧
      ∀ f, f ∈ t.held ++ listed ↔ IsAvailable s₀.memoryRegions f) ∧
    ∀ e u, FrameStep t e u →
      (∀ page, e = .alloc page →
        (page ≠ 0 → ∀ x, pageOf x = pageOf page → u.mmu.mem x = 0) ∧
        (page = 0 ↔ ∀ f, IsAvailable s₀.memoryRegions f → f ∈ t.held)) ∧
      ((∀ x b, e ≠ .write x b) → ∀ f ∈ t.held, f ∈ u.held →
        ∀ x, pageOf x = pageOf f → u.mmu.mem x = t.mmu.mem x) := by
  refine ⟨fun hne => ?_, fun e u hstep => ⟨?_, fun hcall f hf hf' =>
    call_keeps_held h hrun hstep hcall hf hf'⟩⟩
  · rcases owns_run h hrun with ⟨hnil, -⟩ | ⟨-, listed, hown⟩
    · exact absurd hnil hne
    · exact ⟨listed, hown.list, hown.nodup, hown.all⟩
  · rintro page rfl
    exact ⟨alloc_zeroed h hrun hstep, alloc_null_iff h hrun hstep⟩

end

/-- Two pages of memory above 1 MiB, before the first call. -/
def twoPages : Mmu where
  mem := fun _ => 0xff
  overflowPage := fun _ _ => 0
  cr3 := 0x1000
  memoryRegions := [⟨0, 0x9f000, multibootMemoryAvailable⟩,
    ⟨0x9f000, 0x100000, multibootMemoryReserved⟩,
    ⟨0x100000, 0x102000, multibootMemoryAvailable⟩]
  freePageHead := 0
  totalMemory := 0x102000
  totalPages := 0x102
  freePages := 0xa1
  reservedPages := 0x61
  freeListInitialized := false
  kernelBrk := kernelHeapAdr
  invlpgs := []
  console := []

theorem unbuilt_twoPages : Unbuilt twoPages := by
  refine ⟨⟨?_, ?_⟩, rfl, rfl⟩
  · intro r hr
    simp only [twoPages, List.mem_cons, List.not_mem_nil, or_false] at hr
    rcases hr with rfl | rfl | rfl <;> decide
  · simp only [twoPages, List.pairwise_cons, List.mem_cons, List.not_mem_nil, or_false,
      forall_eq_or_imp, forall_eq, MemRegion.Offers, MemRegion.Covers, BitVec.reduceToNat]
    refine ⟨⟨fun x h h' => ?_, fun x h h' => ?_⟩, fun x h h' => ?_, by simp, .nil⟩ <;> omega

theorem frame_allocator_contract_twoPages :
    ∃ listed, twoPages.mmuPfAlloc.1.FreeList listed ∧
      ((if twoPages.mmuPfAlloc.2 = 0 then [] else [twoPages.mmuPfAlloc.2]) ++ listed).Nodup ∧
      ∀ f, f ∈ (if twoPages.mmuPfAlloc.2 = 0 then [] else [twoPages.mmuPfAlloc.2]) ++ listed ↔
        IsAvailable twoPages.memoryRegions f :=
  (frame_allocator_contract unbuilt_twoPages (Run.nil.snoc .alloc)).1 (by simp)

end KernelDev
