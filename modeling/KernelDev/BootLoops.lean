import Mathlib.Data.List.Chain
import KernelDev.BootReads
import KernelDev.Lib.Rounding

/-!
# The loops of the boot parser

The walk of `MMU_init` over the tags goes up by at least 8 bytes and ends, whatever the tags are,
if their handlers return (`mmuInit_walk_progress`) : the size of a tag is at least 8 and is rounded
up, and it does not wrap in 32 bits, as the tag is inside the block. `walkWith` is the walk with
any handlers that return, so that its progress does not depend on what they do, and `TagWalk`
records where it was and why it stopped.

The loops of `process_elf_sections_tag` end as well. That over the headers counts up to `num`. That
over the regions goes on to the regions that it appends, of which there are never more than 64
(`regionsLoop_eq`). They are written as loops here, and are then the folds of `BootMap`.

The loop of `process_mmap_tag` does not end if the tag says that its entries have no bytes and
there is room for one, as the entry pointer stays where it is (`LoopsEnd.not_hangs`). So `MMU_init`
returns exactly if no such tag is handled (`mmuInit_returns_iff`), and then every loop of every
handler has ended. `mmuInit_hangs` is a block with such a tag.
-/

namespace KernelDev

open ByteMem

/-! ## The walk over the tags -/

/-- A handler of tags that returns. It does not write to memory. -/
structure TagHandler where
  run : Mmu → Addr → Mmu
  mem : ∀ s tag, (run s tag).mem = s.mem

/-- What ends the walk over the tags. -/
inductive WalkEnd where
  | endTag
  | invalidTag
  | blockEnd
  deriving DecidableEq

/-- A walk over the tags that ended : the state, the tags that were handled in order, and where
and why it stopped. -/
structure TagWalk where
  state : Mmu
  /-- The tags that were handed to the handler, in order. -/
  handled : List Addr
  current : Addr
  stop : WalkEnd

namespace TagWalk

/-- The addresses that `current` had. -/
def visited (w : TagWalk) : List Addr :=
  w.handled ++ [w.current]

/-- The number of times that the loop body was entered. -/
def iterations (w : TagWalk) : ℕ :=
  match w.stop with
  | .blockEnd => w.handled.length
  | _ => w.handled.length + 1

/-- The end of `MMU_init`, after the walk. -/
def finish (w : TagWalk) : Mmu :=
  match w.stop with
  | .invalidTag => w.state
  | _ => w.state.printSummary

end TagWalk

namespace Mmu

/-- The loop of `MMU_init` over the tags, with the `switch` given by `handler`, for at most the
given number of tests. -/
def walkWith (handler : TagHandler) (end_ : Addr) : ℕ → Mmu → Addr → Option TagWalk
  | 0, _, _ => none
  | fuel + 1, s, current =>
    if current < end_ then
      if read32 s.mem current = multibootTagTypeEnd then some ⟨s, [], current, .endTag⟩
      else
        let size := read32 s.mem (current + 4)
        if size < 8 ∨ current + size.setWidth 64 > end_ then
          some ⟨s.printk "ERROR: Invalid tag size at 0x%lx\n" [.word current], [], current,
            .invalidTag⟩
        else do
          let s := handler.run s current
          let walk ← walkWith handler end_ fuel s (nextTag s.mem current)
          return { walk with handled := current :: walk.handled }
    else some ⟨s, [], current, .blockEnd⟩

/-- The `switch` of `MMU_init`, where a handler that does not return is passed over. -/
def tagHandler : TagHandler where
  run s tag := (s.processTag tag).getD s
  mem s tag := by
    cases h : s.processTag tag with
    | none => rfl
    | some t => exact processTag_mem h

end Mmu

/-- The reason to stop at `current`. -/
def WalkEnd.At (m : Mem) (multibootInfo current : Addr) : WalkEnd → Prop
  | endTag => current < Mmu.blockEnd m multibootInfo ∧ read32 m current = multibootTagTypeEnd
  | invalidTag => current < Mmu.blockEnd m multibootInfo ∧
      read32 m current ≠ multibootTagTypeEnd ∧ ((read32 m (current + 4)).toNat < 8 ∨
        multibootInfo.toNat + (read32 m multibootInfo).toNat <
          current.toNat + (read32 m (current + 4)).toNat)
  | blockEnd => Mmu.blockEnd m multibootInfo ≤ current

/-- The walk from `start` goes up through the block at `multibootInfo`, and stops where it
should. -/
structure WalksFrom (m : Mem) (multibootInfo start : Addr) (w : TagWalk) : Prop where
  head : w.visited.head? = some start
  /-- Each tag is at least 8 bytes behind the one before. -/
  advances : w.visited.IsChain fun a b => a.toNat + 8 ≤ b.toNat
  offsets : ∀ tag ∈ w.visited, ∃ k, tag.toNat = multibootInfo.toNat + 8 * (k + 1)
  rounding : ∀ tag ∈ w.handled, (read32 m (tag + 4)).toNat + 7 < 2 ^ 32
  pointer : ∀ tag ∈ w.visited, tag < Mmu.blockEnd m multibootInfo →
    tag.toNat + (read32 m (tag + 4)).toNat < 2 ^ 64
  inside : ∀ tag ∈ w.handled, read32 m tag ≠ multibootTagTypeEnd ∧
    8 ≤ (read32 m (tag + 4)).toNat ∧ tag.toNat + (read32 m (tag + 4)).toNat ≤
      multibootInfo.toNat + (read32 m multibootInfo).toNat
  length : start.toNat + 8 * w.handled.length ≤ w.current.toNat
  bound : w.current.toNat ≤ multibootInfo.toNat + (read32 m multibootInfo).toNat + 8
  /-- The walk stops for the reason that it gives. -/
  stops : w.stop.At m multibootInfo w.current

/-- The walk of `MMU_init` makes progress, and takes no more iterations than the block has
places for tags. -/
structure WalksBlock (m : Mem) (multibootInfo : Addr) (w : TagWalk) : Prop extends
    WalksFrom m multibootInfo (multibootInfo + 8) w where
  iterations : w.iterations ≤ (read32 m multibootInfo).toNat / 8 + 1

section

open Mmu

variable {m : Mem} {s : Mmu} {multibootInfo tag : Addr} {handler : TagHandler}

/-- The next tag is behind the rounded size of this one. -/
theorem Mmu.nextTag_eq (m : Mem) (tag : Addr) :
    nextTag m tag = tag + (Rounding.up 3 (read32 m (tag + 4))).setWidth 64 := by
  have hmask : ~~~7 = Rounding.mask 32 3 := by decide
  rw [nextTag, hmask]
  rfl

/-- The size of a tag that is handled does not wrap around when it is rounded up. -/
theorem Mmu.Handles.next (h : multibootInfo.toNat < 2 ^ 63)
    (hbounds : multibootInfo.toNat + 8 ≤ tag.toNat ∧
      tag.toNat < multibootInfo.toNat + (read32 m multibootInfo).toNat)
    (hhandles : Handles m multibootInfo tag) :
    8 ≤ (read32 m (tag + 4)).toNat ∧ (read32 m (tag + 4)).toNat + 7 < 2 ^ 32 ∧
      (nextTag m tag).toNat = tag.toNat + ((read32 m (tag + 4)).toNat + 7) / 8 * 8 := by
  have htotal := (read32 m multibootInfo).isLt
  have hinside := hhandles.inside h (by omega)
  have hmin : 8 ≤ (read32 m (tag + 4)).toNat :=
    Nat.not_lt.1 fun hlt => (not_or.1 hhandles.size).1 hlt
  have hround : (read32 m (tag + 4)).toNat + (2 ^ 3 - 1) < 2 ^ 32 := by omega
  refine ⟨hmin, hround, ?_⟩
  rw [nextTag_eq, toNat_add_setWidth (by omega), Rounding.toNat_up (by decide) hround]
  rfl

/-- A walk that stops at once. -/
theorem walksFrom_nil {current : Addr} {stop : WalkEnd} {t : Mmu} (h : multibootInfo.toNat < 2 ^ 63)
    (hoffset : ∃ k, current.toNat = multibootInfo.toNat + 8 * (k + 1))
    (hbound : current.toNat ≤ multibootInfo.toNat + (read32 m multibootInfo).toNat + 8)
    (hstops : stop.At m multibootInfo current) :
    WalksFrom m multibootInfo current ⟨t, [], current, stop⟩ := by
  have hvisited : (⟨t, [], current, stop⟩ : TagWalk).visited = [current] := rfl
  refine ⟨rfl, ?_, ?_, fun tag htag => absurd htag (by simp), ?_,
    fun tag htag => absurd htag (by simp), le_refl _, hbound, hstops⟩
  · rw [hvisited]
    exact .singleton _
  · rw [hvisited]
    simpa using hoffset
  · rw [hvisited]
    intro tag htag hlt
    rw [List.mem_singleton.1 htag] at hlt ⊢
    rw [BitVec.lt_def, toNat_blockEnd h] at hlt
    have htotal := (read32 m multibootInfo).isLt
    have hsize := (read32 m (current + 4)).isLt
    omega

/-- One more tag before a walk. -/
theorem WalksFrom.cons {w : TagWalk} (h : multibootInfo.toNat < 2 ^ 63)
    (hlt : tag < blockEnd m multibootInfo)
    (hoffset : ∃ k, tag.toNat = multibootInfo.toNat + 8 * (k + 1))
    (hhandles : Handles m multibootInfo tag) (hw : WalksFrom m multibootInfo (nextTag m tag) w) :
    WalksFrom m multibootInfo tag { w with handled := tag :: w.handled } := by
  rw [BitVec.lt_def, toNat_blockEnd h] at hlt
  have htotal := (read32 m multibootInfo).isLt
  have hlow : multibootInfo.toNat + 8 ≤ tag.toNat := by omega
  obtain ⟨hmin, hround, hnext⟩ := hhandles.next h ⟨hlow, hlt⟩
  have hinside := hhandles.inside h (by omega)
  have hvisited : ({ w with handled := tag :: w.handled } : TagWalk).visited = tag :: w.visited :=
    rfl
  refine ⟨rfl, ?_, ?_, ?_, ?_, ?_, ?_, hw.bound, hw.stops⟩
  · rw [hvisited, List.isChain_cons, hw.head]
    refine ⟨fun b hb => ?_, hw.advances⟩
    obtain rfl := Option.some.inj hb
    omega
  · rw [hvisited, List.forall_mem_cons]
    exact ⟨hoffset, hw.offsets⟩
  · rw [List.forall_mem_cons]
    exact ⟨hround, hw.rounding⟩
  · rw [hvisited, List.forall_mem_cons]
    exact ⟨fun _ => by omega, hw.pointer⟩
  · rw [List.forall_mem_cons]
    exact ⟨⟨hhandles.type, hmin, hinside⟩, hw.inside⟩
  · have := hw.length
    rw [List.length_cons]
    dsimp only
    omega

/-- A walk from the first tag on has no more iterations than the block has places for tags. -/
theorem WalksFrom.iterations {w : TagWalk} (h : multibootInfo.toNat < 2 ^ 63)
    (hw : WalksFrom m multibootInfo (multibootInfo + 8) w) :
    w.iterations ≤ (read32 m multibootInfo).toNat / 8 + 1 := by
  have hstart : (multibootInfo + 8).toNat = multibootInfo.toNat + 8 := by bv_omega
  have hlength := hw.length
  have hbound := hw.bound
  have hle : w.iterations ≤ w.handled.length + 1 := by
    unfold TagWalk.iterations
    split <;> omega
  omega

/-- The walk ends : each tag that is handled takes up at least 8 of the bytes that are left. -/
theorem Mmu.walkWith_walks (h : multibootInfo.toNat < 2 ^ 63) (handler : TagHandler) :
    ∀ (fuel : ℕ) (s : Mmu) (current : Addr), s.mem = m →
    (∃ k, current.toNat = multibootInfo.toNat + 8 * (k + 1)) →
    current.toNat ≤ multibootInfo.toNat + (read32 m multibootInfo).toNat + 8 →
    multibootInfo.toNat + (read32 m multibootInfo).toNat + 8 < current.toNat + 8 * fuel →
    ∃ w, walkWith handler (blockEnd m multibootInfo) fuel s current = some w ∧
      WalksFrom m multibootInfo current w
  | 0, _, _, _, _, hhigh, hfuel => by omega
  | fuel + 1, s, current, hm, hoffset, hhigh, hfuel => by
    have htotal := (read32 m multibootInfo).isLt
    have hend := toNat_blockEnd (m := m) h
    rw [walkWith, hm]
    by_cases hlt : current < blockEnd m multibootInfo
    swap
    · rw [if_neg hlt]
      exact ⟨_, rfl, walksFrom_nil h hoffset hhigh (BitVec.not_lt.1 hlt)⟩
    rw [if_pos hlt]
    by_cases htype : read32 m current = multibootTagTypeEnd
    · rw [if_pos htype]
      exact ⟨_, rfl, walksFrom_nil h hoffset hhigh ⟨hlt, htype⟩⟩
    rw [if_neg htype]
    dsimp only
    rw [BitVec.lt_def, hend] at hlt
    by_cases hsize : read32 m (current + 4) < 8 ∨
        current + (read32 m (current + 4)).setWidth 64 > blockEnd m multibootInfo
    · rw [if_pos hsize]
      rw [gt_iff_lt, BitVec.lt_def, BitVec.lt_def, hend, toNat_add_setWidth (by omega)] at hsize
      exact ⟨_, rfl, walksFrom_nil h hoffset hhigh ⟨by rwa [BitVec.lt_def, hend], htype, hsize⟩⟩
    rw [if_neg hsize]
    have hhandles : Handles m multibootInfo current := ⟨htype, hsize⟩
    obtain ⟨k, hk⟩ := hoffset
    obtain ⟨hmin, hround, hnext⟩ := hhandles.next h ⟨by omega, hlt⟩
    have hinside := hhandles.inside h (by omega)
    have hmem : (handler.run s current).mem = m := (handler.mem s current).trans hm
    obtain ⟨w, hw, hwalks⟩ := walkWith_walks h handler fuel _ (nextTag m current) hmem
      ⟨k + ((read32 m (current + 4)).toNat + 7) / 8, by omega⟩ (by omega) (by omega)
    refine ⟨_, ?_, hwalks.cons h (by rwa [BitVec.lt_def, hend]) ⟨k, hk⟩ hhandles⟩
    rw [hmem, hw]
    rfl

/-- `MMU_init` walks as with the handlers that it calls, if these return. -/
theorem Mmu.walkTags_eq_walkWith {end_ : Addr} :
    ∀ {fuel : ℕ} {s t : Mmu} {current : Addr} {ok : Bool},
    walkTags end_ fuel s current = some (t, ok) →
    ∃ w, walkWith tagHandler end_ fuel s current = some w ∧ w.state = t ∧
      (w.stop = .invalidTag ↔ ok = false)
  | fuel + 1, s, t, current, ok, ht => by
    rw [walkTags] at ht
    rw [walkWith]
    dsimp only at ht ⊢
    split_ifs at ht ⊢
    · cases ht
      exact ⟨_, rfl, rfl, by simp⟩
    · cases ht
      exact ⟨_, rfl, rfl, by simp⟩
    · obtain ⟨u, hu, ht⟩ := Option.bind_eq_some_iff.1 ht
      obtain ⟨w, hw, hstate, hstop⟩ := walkTags_eq_walkWith ht
      have hrun : tagHandler.run s current = u := by
        show (s.processTag current).getD s = u
        rw [hu, Option.getD_some]
      rw [hrun, hw]
      exact ⟨_, rfl, hstate, hstop⟩
    · cases ht
      exact ⟨_, rfl, rfl, by simp⟩

/-- The walk from the first tag on ends, with any handlers that return. -/
theorem Mmu.exists_walk (s : Mmu) (h : multibootInfo.toNat < 2 ^ 63)
    (handler : TagHandler) {fuel : ℕ}
    (hfuel : (read32 s.mem multibootInfo).toNat / 8 < fuel) :
    ∃ w, walkWith handler (blockEnd s.mem multibootInfo) fuel s (multibootInfo + 8) = some w ∧
      WalksBlock s.mem multibootInfo w := by
  have hstart : (multibootInfo + 8).toNat = multibootInfo.toNat + 8 := by bv_omega
  obtain ⟨w, hw, hwalks⟩ := walkWith_walks (m := s.mem) h handler fuel s _ rfl ⟨0, hstart⟩
    (by omega) (by omega)
  exact ⟨w, hw, hwalks, hwalks.iterations h⟩

/-- Whatever the block holds, the walk over its tags makes progress and ends, with any handlers
that return. `MMU_init` is this walk, with the handlers it calls. -/
theorem mmuInit_walk_progress (s : Mmu) (h : multibootInfo.toNat < 2 ^ 63) :
    (∀ (handler : TagHandler) (fuel : ℕ), (read32 s.mem multibootInfo).toNat / 8 < fuel →
      ∃ w, walkWith handler (blockEnd s.mem multibootInfo) fuel s (multibootInfo + 8) = some w ∧
        WalksBlock s.mem multibootInfo w) ∧
    ∀ t, s.mmuInit multibootInfo = some t → ∃ w, WalksBlock s.mem multibootInfo w ∧
      walkWith tagHandler (blockEnd s.mem multibootInfo) ((read32 s.mem multibootInfo).toNat + 1) s
        (multibootInfo + 8) = some w ∧ w.finish = t := by
  refine ⟨fun handler fuel hfuel => exists_walk s h handler hfuel, fun t ht => ?_⟩
  obtain ⟨⟨u, ok⟩, hu, ht⟩ := Option.bind_eq_some_iff.1 ht
  obtain rfl := Option.some.inj ht
  obtain ⟨w, hw, rfl, hstop⟩ := walkTags_eq_walkWith hu
  obtain ⟨w', hw', hwalks⟩ := exists_walk s h tagHandler (Nat.lt_succ_of_le (Nat.div_le_self _ 8))
  obtain rfl := Option.some.inj (hw.symm.trans hw')
  refine ⟨w, hwalks, hw, ?_⟩
  unfold TagWalk.finish
  cases hend : w.stop with
  | invalidTag =>
    rw [if_neg (by simp [hstop.1 hend])]
  | endTag =>
    rw [if_pos (by simpa using mt hstop.2 (by simp [hend]))]
  | blockEnd =>
    rw [if_pos (by simpa using mt hstop.2 (by simp [hend]))]

theorem mmuInit_walk_progress_tagBlock : ∃ w,
    walkWith tagHandler (blockEnd (tagBlock (pageMapTag ++ endTag)) 0x9000) 57
      (atBoot (tagBlock (pageMapTag ++ endTag))) 0x9008 = some w ∧
    WalksBlock (tagBlock (pageMapTag ++ endTag)) 0x9000 w :=
  (mmuInit_walk_progress (atBoot (tagBlock (pageMapTag ++ endTag))) (by decide)).1 tagHandler 57
    (by decide)

end

/-! ## The loops of the handlers -/

namespace Mmu

/-- The loop of `process_elf_sections_tag` over the regions, for at most `fuel` tests. It goes
on to the regions that it appends. -/
def regionsLoop (s : Mmu) (pageStart pageEnd : BitVec 64) (fuel : ℕ) : Option (Mmu × ℕ) :=
  Loop.run (fun (s, j) => decide (j < s.memoryRegions.length))
    (fun (s, j) => (reserveRegion pageStart pageEnd s j, j + 1)) fuel (s, 0)

/-- The loop of `process_elf_sections_tag` over the section headers, for at most `fuel` tests. -/
def sectionsLoop (s : Mmu) (elfTag : Addr) (fuel : ℕ) : Option (Mmu × BitVec 32) :=
  Loop.run (fun (s, i) => decide (i < read32 s.mem (elfTag + 8)))
    (fun (s, i) =>
      (s.processSection (elfTag + 20 + (i * read32 s.mem (elfTag + 12)).setWidth 64), i + 1))
    fuel (s, 0)

/-- The table only grows, and not past its end. -/
theorem length_reserveRegion (ps pe : BitVec 64) {s : Mmu} (j : ℕ)
    (h : s.memoryRegions.length ≤ maxMemoryRegions) :
    (reserveRegion ps pe s j).memoryRegions.length ≤ maxMemoryRegions := by
  have hset : ∀ r, (s.memoryRegions.set j r).length ≤ maxMemoryRegions := fun r => by
    rwa [List.length_set]
  cases hj : s.memoryRegions[j]? with
  | none => rwa [reserveRegion, hj]
  | some r =>
    by_cases hover : r.type = multibootMemoryAvailable ∧
        (overlapStart ps r).toNat < (overlapEnd pe r).toNat
    · rw [reserveRegion_meets hj hover.1 hover.2]
      unfold cut
      split_ifs with hall hs he hroom
      · exact hset _
      · exact hset _
      · exact hset _
      · show (List.set _ j _).length ≤ maxMemoryRegions
        rw [List.length_set, List.length_append]
        exact hroom
      · exact hset _
    · rwa [reserveRegion_misses hj hover]

/-- Behind the last region there is nothing to reserve. -/
theorem foldl_reserveRegion_past (ps pe : BitVec 64) (s : Mmu) : ∀ (n : ℕ) {j : ℕ},
    s.memoryRegions.length ≤ j → (List.range' j n).foldl (reserveRegion ps pe) s = s
  | 0, _, _ => rfl
  | n + 1, j, h => by
    have hnone : s.memoryRegions[j]? = none := List.getElem?_eq_none h
    rw [List.range'_succ, List.foldl_cons,
      show reserveRegion ps pe s j = s by rw [reserveRegion, hnone]]
    exact foldl_reserveRegion_past ps pe s n (Nat.le_succ_of_le h)

/-- The loop from the region `j` on. -/
theorem regionsLoop_from (ps pe : BitVec 64) : ∀ (n : ℕ) {j : ℕ} {s : Mmu},
    j + n = maxMemoryRegions → s.memoryRegions.length ≤ maxMemoryRegions →
    ∃ k, Loop.run (fun r : Mmu × ℕ => decide (r.2 < r.1.memoryRegions.length))
      (fun r => (reserveRegion ps pe r.1 r.2, r.2 + 1)) (n + 1) (s, j) =
        some ((List.range' j n).foldl (reserveRegion ps pe) s, k)
  | n, j, s, hj, hs => by
    by_cases hlt : j < s.memoryRegions.length
    · obtain ⟨n, rfl⟩ := Nat.exists_eq_succ_of_ne_zero (show n ≠ 0 by omega)
      rw [Loop.run_step (by simpa using hlt), List.range'_succ, List.foldl_cons]
      exact regionsLoop_from ps pe n (by omega) (length_reserveRegion ps pe j hs)
    · rw [Loop.run_stop (by simpa using hlt), foldl_reserveRegion_past ps pe s n (Nat.not_lt.1 hlt)]
      exact ⟨j, rfl⟩

/-- With no more than 64 regions in the table, the loop over them ends. -/
theorem regionsLoop_eq {s : Mmu} (ps pe : BitVec 64)
    (h : s.memoryRegions.length ≤ maxMemoryRegions) :
    ∃ j, s.regionsLoop ps pe (maxMemoryRegions + 1) = some (s.reservePages ps pe, j) := by
  rw [reservePages, List.range_eq_range']
  exact regionsLoop_from ps pe maxMemoryRegions (Nat.zero_add _) h

/-- The loop over the headers ends. -/
theorem sectionsLoop_eq (s : Mmu) (elfTag : Addr) :
    s.sectionsLoop elfTag ((read32 s.mem (elfTag + 8)).toNat + 1) =
      some (s.processElfSectionsTag elfTag, read32 s.mem (elfTag + 8)) := by
  have hloop : ∀ (n i : ℕ) (t : Mmu), t.mem = s.mem → i + n = (read32 s.mem (elfTag + 8)).toNat →
      Loop.run (fun r : Mmu × BitVec 32 => decide (r.2 < read32 r.1.mem (elfTag + 8)))
        (fun r => (r.1.processSection
          (elfTag + 20 + (r.2 * read32 r.1.mem (elfTag + 12)).setWidth 64), r.2 + 1))
        (n + 1) (t, BitVec.ofNat 32 i) = some ((List.range' i n).foldl
          (fun t i => t.processSection (sectionHeader t.mem elfTag i)) t,
          read32 s.mem (elfTag + 8)) := by
    have hnum := (read32 s.mem (elfTag + 8)).isLt
    intro n
    induction n with
    | zero =>
      intro i t ht hi
      have hi' : BitVec.ofNat 32 i = read32 s.mem (elfTag + 8) := by
        rw [show i = (read32 s.mem (elfTag + 8)).toNat by omega, BitVec.ofNat_toNat,
          BitVec.setWidth_eq]
      rw [Loop.run_stop, hi']
      · rfl
      · rw [decide_eq_false_iff_not, hi', ht]
        exact BitVec.lt_irrefl _
    | succ n ih =>
      intro i t ht hi
      rw [Loop.run_step, List.range'_succ, List.foldl_cons]
      · rw [show BitVec.ofNat 32 i + 1 = BitVec.ofNat 32 (i + 1) from (BitVec.ofNat_add i 1).symm]
        exact ih (i + 1) _ ((processSection_keeps t _).mem.trans ht) (by omega)
      · rw [decide_eq_true_iff, BitVec.lt_def, ht, BitVec.toNat_ofNat, Nat.mod_eq_of_lt] <;> omega
  rw [processElfSectionsTag, List.range_eq_range']
  exact hloop _ 0 s rfl (Nat.zero_add _)

/-! ## When `MMU_init` returns -/

/-- The state in which `process_elf_sections_tag` comes to the header `i`. -/
def beforeHeader (s : Mmu) (elfTag : Addr) (i : ℕ) : Mmu :=
  (List.range i).foldl (fun s i => s.processSection (sectionHeader s.mem elfTag i)) s

/-- The loops of the handlers end for every tag that `MMU_init` handles. -/
structure LoopsEnd (s : Mmu) (multibootInfo : Addr) : Prop where
  mmap : ∀ t tag, VisitsTag s multibootInfo t tag → Handles t.mem multibootInfo tag →
    read32 t.mem tag = multibootTagTypeMmap → ∃ fuel r, t.mmapLoop tag fuel = some r
  sections : ∀ t tag, VisitsTag s multibootInfo t tag → Handles t.mem multibootInfo tag →
    read32 t.mem tag = multibootTagTypeElfSections → ∃ fuel r, t.sectionsLoop tag fuel = some r
  regions : ∀ t tag, VisitsTag s multibootInfo t tag → Handles t.mem multibootInfo tag →
    read32 t.mem tag = multibootTagTypeElfSections →
    ∀ i ps pe, ∃ fuel r, (t.beforeHeader tag i).regionsLoop ps pe fuel = some r

section

variable {s t : Mmu} {multibootInfo tag : Addr}

theorem length_foldl {α : Type*} {f : Mmu → α → Mmu} (hf : ∀ s a,
    s.memoryRegions.length ≤ maxMemoryRegions → (f s a).memoryRegions.length ≤ maxMemoryRegions)
    (l : List α) : ∀ {s : Mmu}, s.memoryRegions.length ≤ maxMemoryRegions →
    (l.foldl f s).memoryRegions.length ≤ maxMemoryRegions := by
  induction l with
  | nil => exact fun hs => hs
  | cons a l ih => exact fun hs => ih (hf _ a hs)

theorem length_processSection (s : Mmu) (shdr : Addr)
    (h : s.memoryRegions.length ≤ maxMemoryRegions) :
    (s.processSection shdr).memoryRegions.length ≤ maxMemoryRegions := by
  rcases s.processSection_cases shdr with ⟨-, heq⟩ | ⟨ps, pe, u, -, ⟨console, rfl⟩, heq⟩
  · rwa [heq]
  · rw [heq]
    exact length_foldl (fun s j => length_reserveRegion ps pe (s := s) j) _ h

/-- An item leaves at most 64 regions. -/
theorem length_run (s : Mmu) (i : BootItem) (h : s.memoryRegions.length ≤ maxMemoryRegions) :
    (i.run s).memoryRegions.length ≤ maxMemoryRegions := by
  cases i with
  | entry a =>
    show (s.addEntry a).memoryRegions.length ≤ maxMemoryRegions
    rcases s.addEntry_cases a with ⟨r, -, hroom, heq⟩ | ⟨-, console, heq⟩
    · rw [heq, record, appendRegion, List.length_append]
      exact hroom
    · rwa [heq]
  | header shdr => exact s.length_processSection shdr h
  | message call => exact h

/-- The table has no more than 64 regions at every tag. -/
theorem VisitsTag.length (h : VisitsTag s multibootInfo t tag)
    (hs : s.memoryRegions.length ≤ maxMemoryRegions) :
    t.memoryRegions.length ≤ maxMemoryRegions := by
  induction h with
  | first => exact hs
  | next _ _ hrun _ ih =>
    rw [processTag_items hrun]
    exact length_foldl length_run _ ih

/-- If `MMU_init` returns, so does the walk from each tag that it visits. -/
theorem VisitsTag.walkTags (h : VisitsTag s multibootInfo t tag)
    (hret : ∃ u, s.mmuInit multibootInfo = some u) :
    ∃ fuel r, walkTags (blockEnd s.mem multibootInfo) fuel t tag = some r := by
  induction h with
  | first =>
    obtain ⟨u, hu⟩ := hret
    obtain ⟨r, hr, -⟩ := Option.bind_eq_some_iff.1 hu
    exact ⟨_, r, hr⟩
  | @next t u tag hvisits hhandles hrun hlt ih =>
    obtain ⟨fuel, r, hr⟩ := ih
    have hlow : tag < blockEnd s.mem multibootInfo := by
      cases hvisits with
      | first hlow => exact hlow
      | next _ _ _ hlow => exact hlow
    have hsize := hhandles.size
    rw [show blockEnd t.mem multibootInfo = blockEnd s.mem multibootInfo by
      rw [hvisits.mem]] at hsize
    cases fuel with
    | zero => cases hr
    | succ fuel =>
      rw [Mmu.walkTags, if_pos hlow, if_neg hhandles.type] at hr
      dsimp only at hr
      rw [if_neg hsize, hrun] at hr
      exact ⟨fuel, r, hr⟩

/-- The walk of `MMU_init` returns if none of the tags of the block hangs. -/
theorem walkTags_of_walkWith {m : Mem} (h : multibootInfo.toNat < 2 ^ 63)
    (hno : ∀ tag, TagOf m multibootInfo tag → Handles m multibootInfo tag → ¬Hangs m tag) :
    ∀ {fuel : ℕ} {s : Mmu} {current : Addr} {w : TagWalk}, s.mem = m →
    (current < blockEnd m multibootInfo → TagOf m multibootInfo current) →
    walkWith tagHandler (blockEnd m multibootInfo) fuel s current = some w →
    ∃ r, Mmu.walkTags (blockEnd m multibootInfo) fuel s current = some r
  | fuel + 1, s, current, w, hm, htag, hw => by
    rw [walkWith] at hw
    rw [Mmu.walkTags]
    dsimp only at hw ⊢
    split_ifs at hw ⊢ with hlt htype hsize
    · exact ⟨_, rfl⟩
    · exact ⟨_, rfl⟩
    · rw [hm] at htype hsize
      have hhandles : Handles m multibootInfo current := ⟨htype, hsize⟩
      have hlow := (htag hlt).lt h
      have hhangs := hno current (htag hlt) hhandles
      obtain ⟨u, hu⟩ := (s.processTag_returns (by omega)).2 (hm.symm ▸ hhangs)
      have hrun : tagHandler.run s current = u := by
        show (s.processTag current).getD s = u
        rw [hu, Option.getD_some]
      have hmem : u.mem = m := (processTag_mem hu).trans hm
      rw [hrun] at hw
      obtain ⟨w', hw', -⟩ := Option.bind_eq_some_iff.1 hw
      rw [hu]
      refine walkTags_of_walkWith h hno hmem (fun hnext => ?_) hw'
      rw [hmem] at hnext ⊢
      exact .next (htag hlt) hhandles hhangs hnext
    · exact ⟨_, rfl⟩

/-- `MMU_init` does not return from a block with a tag that hangs. -/
theorem not_hangs_of_returns (h : multibootInfo.toNat < 2 ^ 63)
    (hret : ∃ u, s.mmuInit multibootInfo = some u) (htag : TagOf s.mem multibootInfo tag)
    (hhandles : Handles s.mem multibootInfo tag) : ¬Hangs s.mem tag := by
  obtain ⟨t, ht⟩ := (visitsTag_iff h).2 htag
  have hlow := htag.lt h
  have hlt : tag < blockEnd s.mem multibootInfo := by
    rw [BitVec.lt_def, toNat_blockEnd h]
    exact (htag.bounds h).2
  obtain ⟨fuel, r, hr⟩ := ht.walkTags hret
  rw [← ht.mem] at hhandles hlt hr ⊢
  obtain ⟨fuel, rfl⟩ : ∃ n, fuel = n + 1 := by
    cases fuel with
    | zero => cases hr
    | succ n => exact ⟨n, rfl⟩
  rw [Mmu.walkTags, if_pos hlt, if_neg hhandles.type] at hr
  dsimp only at hr
  rw [if_neg hhandles.size] at hr
  obtain ⟨u, hu, -⟩ := Option.bind_eq_some_iff.1 hr
  exact (t.processTag_returns (by omega)).1 ⟨u, hu⟩

/-- If `MMU_init` returns, every loop of its handlers has ended. -/
theorem loopsEnd_of_returns (h : multibootInfo.toNat < 2 ^ 63)
    (hs : s.memoryRegions.length ≤ maxMemoryRegions)
    (hret : ∃ t, s.mmuInit multibootInfo = some t) : LoopsEnd s multibootInfo := by
  refine ⟨fun t tag ht hhandles hmmap => ?_, fun t tag _ _ _ => ⟨_, _, sectionsLoop_eq t tag⟩,
    fun t tag ht _ _ i ps pe => ?_⟩
  · have htag := (visitsTag_iff h).1 ⟨t, ht⟩
    have hlow := htag.lt h
    rw [ht.mem] at hhandles
    have hhangs := not_hangs_of_returns h hret htag hhandles
    rw [← ht.mem] at hhangs
    obtain ⟨u, hu⟩ := (t.processMmapTag_returns (by omega)).2 fun hc => hhangs ⟨hmmap, hc⟩
    rw [processMmapTag_eq] at hu
    obtain ⟨r, hr, -⟩ := Option.map_eq_some_iff.1 hu
    exact ⟨_, r, hr⟩
  · have hlength := length_foldl (fun s i => s.length_processSection (sectionHeader s.mem tag i))
      (List.range i) (ht.length hs)
    obtain ⟨j, hj⟩ := regionsLoop_eq ps pe hlength
    exact ⟨_, _, hj⟩

/-- The loop over the entries of a tag that hangs does not end. -/
theorem LoopsEnd.not_hangs (h : multibootInfo.toNat < 2 ^ 63) (hloops : LoopsEnd s multibootInfo)
    (htag : TagOf s.mem multibootInfo tag) (hhandles : Handles s.mem multibootInfo tag) :
    ¬Hangs s.mem tag := by
  intro hhangs
  obtain ⟨t, ht⟩ := (visitsTag_iff h).2 htag
  have hlow := htag.lt h
  rw [← ht.mem] at hhandles hhangs
  obtain ⟨fuel, r, hr⟩ := hloops.mmap t tag ht hhandles hhangs.1
  rw [mmapLoop_hangs (by omega) hhangs.2.1 hhangs.2.2] at hr
  cases hr

/-- Boot parsing ends exactly if no memory map tag that is handled has an entry size of 0 and
room for an entry. -/
theorem mmuInit_returns_iff (h : multibootInfo.toNat < 2 ^ 63)
    (hs : s.memoryRegions.length ≤ maxMemoryRegions) :
    (LoopsEnd s multibootInfo ∧ (∃ t, s.mmuInit multibootInfo = some t) ↔
      ∀ tag, TagOf s.mem multibootInfo tag → Handles s.mem multibootInfo tag → ¬Hangs s.mem tag) ∧
    (LoopsEnd s multibootInfo → ∃ t, s.mmuInit multibootInfo = some t) := by
  have hreturns : (∀ tag, TagOf s.mem multibootInfo tag → Handles s.mem multibootInfo tag →
      ¬Hangs s.mem tag) → ∃ t, s.mmuInit multibootInfo = some t := fun hno => by
    obtain ⟨w, hw, -⟩ := exists_walk s h tagHandler (Nat.lt_succ_of_le (Nat.div_le_self _ 8))
    obtain ⟨⟨u, ok⟩, hu⟩ := walkTags_of_walkWith h hno rfl .first hw
    exact ⟨_, Option.bind_eq_some_iff.2 ⟨(u, ok), hu, rfl⟩⟩
  refine ⟨⟨fun hret tag htag hhandles => not_hangs_of_returns h hret.2 htag hhandles,
    fun hno => ?_⟩, fun hloops => hreturns fun tag => hloops.not_hangs h⟩
  exact ⟨loopsEnd_of_returns h hs (hreturns hno), hreturns hno⟩

end

theorem mmuInit_returns_tagBlock : ∃ t,
    (atBoot (tagBlock (pageMapTag ++ endTag))).mmuInit 0x9000 = some t := by
  refine ((mmuInit_returns_iff (by decide) (by decide)).1.2 fun tag htag hhandles hhangs => ?_).2
  rcases tagOf_pageMap htag with rfl | rfl
  · exact absurd hhangs.2.1 (by decide)
  · exact absurd (by decide) hhandles.type

/-- A memory map tag whose entries have no bytes. -/
def emptyEntryTag : List (BitVec 32) :=
  [6, 24, 0, 0, 0, 0]

/-- The walk passes such a tag on to its handler, which does not return. -/
theorem mmuInit_hangs :
    Handles (tagBlock (emptyEntryTag ++ endTag)) 0x9000 0x9008 ∧
      (atBoot (tagBlock (emptyEntryTag ++ endTag))).mmuInit 0x9000 = none ∧
      ∀ fuel, (atBoot (tagBlock (emptyEntryTag ++ endTag))).mmapLoop 0x9008 fuel = none := by
  have hhandles : Handles (tagBlock (emptyEntryTag ++ endTag)) 0x9000 0x9008 :=
    ⟨by decide, by decide⟩
  refine ⟨hhandles, Option.eq_none_iff_forall_not_mem.2 fun u hu => ?_,
    mmapLoop_hangs (by decide) (by decide) (by decide)⟩
  exact not_hangs_of_returns (s := atBoot (tagBlock (emptyEntryTag ++ endTag))) (by decide) ⟨u, hu⟩
    (.first (by decide)) hhandles ⟨by decide, by decide, by decide⟩

end Mmu

end KernelDev
