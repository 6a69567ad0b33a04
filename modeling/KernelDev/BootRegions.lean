import KernelDev.BootMap
import KernelDev.FrameContract
import Mathlib.Algebra.Order.Ring.Nat

/-!
# Taking pages out of the region table

One step of the region loop of `process_elf_sections_tag` cuts the pages of a section out of one
AVAILABLE region (`Cuts`) : the region shrinks at its start or its end, is split in two, or is
given up as a whole, which is what should happen if all of it is taken, and what happens as well if
it would have to be split and the table is full. There is a lemma for each of the five cases.

The loop visits every region, among them the ones that it appends, so that no AVAILABLE region has
a page of the section afterwards. `Reserving` is its invariant at the region `j` : the regions
before it have none of the pages left. The other pages are offered as often as before unless
something is given up; `lost` counts what was, and while it is zero, the table grows by the regions
that were split, so that there will be room just if there is room for all of them at the start
(`splitCount`).

`offerCount` says how many regions have a page. That is a number and not a truth value, since the
entries of a memory map may overlap, and nothing makes the regions disjoint.

`reservePages_spec` is the result for the loop, on any table of whole regions.
-/

set_option linter.unusedSectionVars false

namespace KernelDev

open ByteMem

/-! ## Regions -/

/-- The pages of an AVAILABLE region. -/
def MemRegion.pages (r : MemRegion) : ℕ :=
  if r.type = multibootMemoryAvailable then (r.end_.toNat - r.start.toNat) / 4096 else 0

/-- The pages of the AVAILABLE regions. -/
def availablePages (regions : List MemRegion) : ℕ :=
  (regions.map MemRegion.pages).sum

/-- A region of at least one whole page. -/
structure MemRegion.Whole (r : MemRegion) : Prop where
  start : Aligned r.start
  end_ : Aligned r.end_
  lt : r.start.toNat < r.end_.toNat

instance (r : MemRegion) (x : Addr) : Decidable (r.Offers x) :=
  inferInstanceAs (Decidable (_ ∧ _ ∧ _))

/-- How many AVAILABLE regions contain `x`. -/
def offerCount (regions : List MemRegion) (x : Addr) : ℕ :=
  regions.countP fun r => decide (r.Offers x)

/-- `x` is in the pages from `ps` to `pe`. -/
def InRange (ps pe x : Addr) : Prop :=
  ps.toNat ≤ x.toNat ∧ x.toNat < pe.toNat

instance (ps pe x : Addr) : Decidable (InRange ps pe x) :=
  inferInstanceAs (Decidable (_ ∧ _))

/-- Taking the pages out of the region leaves a part on either side. -/
def Splits (ps pe : Addr) (r : MemRegion) : Prop :=
  r.type = multibootMemoryAvailable ∧ r.start.toNat < ps.toNat ∧ ps.toNat < pe.toNat ∧
    pe.toNat < r.end_.toNat

instance (ps pe : Addr) (r : MemRegion) : Decidable (Splits ps pe r) :=
  inferInstanceAs (Decidable (_ ∧ _))

@[simp] theorem availablePages_nil : availablePages [] = 0 := rfl

@[simp] theorem availablePages_cons (r : MemRegion) (regions : List MemRegion) :
    availablePages (r :: regions) = r.pages + availablePages regions := rfl

@[simp] theorem availablePages_append (regions regions' : List MemRegion) :
    availablePages (regions ++ regions') = availablePages regions + availablePages regions' := by
  rw [availablePages, List.map_append, List.sum_append]
  rfl

@[simp] theorem offerCount_nil (x : Addr) : offerCount [] x = 0 := rfl

@[simp] theorem offerCount_cons (r : MemRegion) (regions : List MemRegion) (x : Addr) :
    offerCount (r :: regions) x = offerCount regions x + if r.Offers x then 1 else 0 := by
  simp [offerCount, List.countP_cons]

@[simp] theorem offerCount_append (regions regions' : List MemRegion) (x : Addr) :
    offerCount (regions ++ regions') x = offerCount regions x + offerCount regions' x :=
  List.countP_append

/-- A page is on offer if some region has it. -/
theorem offerCount_pos {regions : List MemRegion} {x : Addr} :
    0 < offerCount regions x ↔ ∃ r ∈ regions, r.Offers x := by
  simp [offerCount, List.countP_pos_iff]

/-- No point is in two members of a list just when they do not meet pairwise. -/
theorem countP_le_one_iff {α β : Type*} {P : α → β → Prop} [∀ a x, Decidable (P a x)]
    {l : List α} : (∀ x, l.countP (fun a => decide (P a x)) ≤ 1) ↔
      l.Pairwise fun a b => ∀ x, P a x → ¬P b x := by
  induction l with
  | nil => simp
  | cons a l ih =>
    rw [List.pairwise_cons, ← ih]
    simp only [List.countP_cons, decide_eq_true_eq]
    refine ⟨fun h => ⟨fun b hb x hx hx' => ?_, fun x => ?_⟩, fun ⟨ha, hrest⟩ x => ?_⟩
    · have hle := h x
      have hpos : 0 < l.countP fun b => decide (P b x) :=
        List.countP_pos_iff.2 ⟨b, hb, decide_eq_true hx'⟩
      rw [if_pos hx] at hle
      omega
    · have hle := h x
      omega
    · split_ifs with hx
      · have hzero : ¬0 < l.countP fun b => decide (P b x) := fun hpos =>
          let ⟨b, hb, hx'⟩ := List.countP_pos_iff.1 hpos
          ha b hb x hx (of_decide_eq_true hx')
        omega
      · exact hrest x

/-- No page is offered twice just when the AVAILABLE regions do not meet. -/
theorem offerCount_le_one_iff {regions : List MemRegion} : (∀ x, offerCount regions x ≤ 1) ↔
    regions.Pairwise fun r r' => ∀ x, r.Offers x → ¬r'.Offers x :=
  countP_le_one_iff

/-! ## One region -/

/-- The pages from `ps` to `pe` are cut out of `r`, which leaves `r'` and the new regions
`extra`. There were `overlap` pages to take, and `lost` more are given up. -/
structure Cuts (ps pe : Addr) (room : Prop) (r r' : MemRegion) (extra : List MemRegion)
    (overlap lost : ℕ) : Prop where
  offers : ∀ x, offerCount (r' :: extra) x ≤ if InRange ps pe x then 0 else offerCount [r] x
  keeps : lost = 0 →
    ∀ x, offerCount (r' :: extra) x = if InRange ps pe x then 0 else offerCount [r] x
  pages : r.pages = r'.pages + availablePages extra + overlap + lost
  whole : ∀ q ∈ r' :: extra, q.Whole
  grows : extra.length = 0 ∧ ¬(Splits ps pe r ∧ room) ∨
    extra.length = 1 ∧ Splits ps pe r ∧ room
  /-- Pages are given up if the region is split and there is no room. -/
  loses : lost ≠ 0 ↔ Splits ps pe r ∧ ¬room

section

variable {ps pe : Addr} {r : MemRegion} {room : Prop}

/-- The first page that the region and the pages share. -/
def overlapStart (ps : Addr) (r : MemRegion) : Addr :=
  if ps > r.start then ps else r.start

/-- The end of the pages that they share. -/
def overlapEnd (pe : Addr) (r : MemRegion) : Addr :=
  if pe < r.end_ then pe else r.end_

/-- The larger one of the starts. -/
theorem overlapStart_toNat (ps : Addr) (r : MemRegion) :
    (overlapStart ps r).toNat = max ps.toNat r.start.toNat := by
  unfold overlapStart
  split_ifs with h
  · have : r.start.toNat < ps.toNat := h
    omega
  · have : ¬r.start.toNat < ps.toNat := h
    omega

/-- The smaller one of the ends. -/
theorem overlapEnd_toNat (pe : Addr) (r : MemRegion) :
    (overlapEnd pe r).toNat = min pe.toNat r.end_.toNat := by
  unfold overlapEnd
  split_ifs with h
  · have : pe.toNat < r.end_.toNat := h
    omega
  · have : ¬pe.toNat < r.end_.toNat := h
    omega

/-- The number of pages that they share. -/
def overlapPages (ps pe : Addr) (r : MemRegion) : ℕ :=
  ((overlapEnd pe r).toNat - (overlapStart ps r).toNat) / 4096

theorem aligned_overlapStart (hps : Aligned ps) (hr : r.Whole) : Aligned (overlapStart ps r) := by
  unfold overlapStart
  split_ifs
  · exact hps
  · exact hr.start

theorem aligned_overlapEnd (hpe : Aligned pe) (hr : r.Whole) : Aligned (overlapEnd pe r) := by
  unfold overlapEnd
  split_ifs
  · exact hpe
  · exact hr.end_

/-- A region that has none of the pages to offer. -/
theorem misses_of_not_overlap (h : ¬(r.type = multibootMemoryAvailable ∧
    (overlapStart ps r).toNat < (overlapEnd pe r).toNat)) :
    ¬Splits ps pe r ∧ ∀ x, r.Offers x → ¬InRange ps pe x := by
  rw [overlapStart_toNat, overlapEnd_toNat] at h
  refine ⟨fun ⟨htype, hsplit⟩ => h ⟨htype, by omega⟩, fun x ⟨htype, hcovers⟩ hin => h ⟨htype, ?_⟩⟩
  unfold MemRegion.Covers at hcovers
  unfold InRange at hin
  omega

/-- A cut that appends no region and gives nothing up. -/
theorem Cuts.of_shrinks {r' : MemRegion} {overlap : ℕ}
    (hoffers : ∀ x, offerCount [r'] x = if InRange ps pe x then 0 else offerCount [r] x)
    (hpages : r.pages = r'.pages + overlap) (hwhole : r'.Whole) (hsplit : ¬Splits ps pe r) :
    Cuts ps pe room r r' [] overlap 0 where
  offers x := Nat.le_of_eq (hoffers x)
  keeps _ := hoffers
  pages := hpages
  whole := by
    rintro _ hq
    rw [List.mem_singleton.1 hq]
    exact hwhole
  grows := Or.inl ⟨rfl, fun h => hsplit h.1⟩
  loses := iff_of_false (fun h => h rfl) fun h => hsplit h.1

variable (hps : Aligned ps) (hpe : Aligned pe) (hr : r.Whole)
  (htype : r.type = multibootMemoryAvailable)
  (hlt : (overlapStart ps r).toNat < (overlapEnd pe r).toNat)

include htype hlt in
/-- The pages split a region when they begin after its start and stop before its end. -/
theorem splits_iff :
    Splits ps pe r ↔ overlapStart ps r ≠ r.start ∧ overlapEnd pe r ≠ r.end_ := by
  have h1 := overlapStart_toNat ps r
  have h2 := overlapEnd_toNat pe r
  rw [ne_eq, ne_eq, ← BitVec.toNat_inj, ← BitVec.toNat_inj]
  constructor
  · rintro ⟨-, hsplit⟩
    omega
  · rintro ⟨hs, he⟩
    exact ⟨htype, by omega, by omega, by omega⟩

include hps hpe hr htype hlt

/-- The whole region is taken. -/
theorem cuts_all (hs : overlapStart ps r = r.start) (he : overlapEnd pe r = r.end_) :
    Cuts ps pe room r { r with type := multibootMemoryReserved } [] (overlapPages ps pe r) 0 := by
  have h1 := overlapStart_toNat ps r
  have h2 := overlapEnd_toNat pe r
  have hne : ¬multibootMemoryReserved = multibootMemoryAvailable := by decide
  rw [hs] at h1
  rw [he] at h2
  refine .of_shrinks (fun x => ?_) ?_ ⟨hr.start, hr.end_, hr.lt⟩
    fun h => ((splits_iff htype hlt).1 h).1 hs
  · simp only [offerCount_cons, offerCount_nil, MemRegion.Offers, MemRegion.Covers, InRange, htype,
      hne, false_and, true_and, if_false]
    split_ifs <;> omega
  · simp only [MemRegion.pages, htype, if_true, if_neg hne, overlapPages, hs, he]
    omega

/-- The start of the region is taken. -/
theorem cuts_head (hs : overlapStart ps r = r.start) (he : overlapEnd pe r ≠ r.end_) :
    Cuts ps pe room r { r with start := overlapEnd pe r } [] (overlapPages ps pe r) 0 := by
  have h1 := overlapStart_toNat ps r
  have h2 := overlapEnd_toNat pe r
  have h3 := BitVec.toNat_ne_iff_ne.2 he
  have hoe := aligned_overlapEnd hpe hr
  have hnot : ¬Splits ps pe r := fun h => ((splits_iff htype hlt).1 h).1 hs
  obtain ⟨hs1, he1, hlt1⟩ := hr
  rw [hs] at h1 hlt
  refine .of_shrinks (fun x => ?_) ?_ ⟨hoe, he1, ?_⟩ hnot
  · simp only [offerCount_cons, offerCount_nil, MemRegion.Offers, MemRegion.Covers, InRange, htype,
      true_and]
    split_ifs <;> omega
  · simp only [MemRegion.pages, htype, if_true, overlapPages, hs]
    unfold Aligned at *
    omega
  · dsimp only
    omega

/-- The end of the region is taken. -/
theorem cuts_tail (hs : overlapStart ps r ≠ r.start) (he : overlapEnd pe r = r.end_) :
    Cuts ps pe room r { r with end_ := overlapStart ps r } [] (overlapPages ps pe r) 0 := by
  have h1 := overlapStart_toNat ps r
  have h2 := overlapEnd_toNat pe r
  have h3 := BitVec.toNat_ne_iff_ne.2 hs
  have hos := aligned_overlapStart hps hr
  have hnot : ¬Splits ps pe r := fun h => ((splits_iff htype hlt).1 h).2 he
  obtain ⟨hs1, he1, hlt1⟩ := hr
  rw [he] at h2 hlt
  refine .of_shrinks (fun x => ?_) ?_ ⟨hs1, hos, ?_⟩ hnot
  · simp only [offerCount_cons, offerCount_nil, MemRegion.Offers, MemRegion.Covers, InRange, htype,
      true_and]
    split_ifs <;> omega
  · simp only [MemRegion.pages, htype, if_true, overlapPages, he]
    unfold Aligned at *
    omega
  · dsimp only
    omega

/-- The region is split in two. -/
theorem cuts_split (hs : overlapStart ps r ≠ r.start) (he : overlapEnd pe r ≠ r.end_)
    (hroom : room) :
    Cuts ps pe room r { r with end_ := overlapStart ps r }
      [⟨overlapEnd pe r, r.end_, multibootMemoryAvailable⟩] (overlapPages ps pe r) 0 := by
  have h1 := overlapStart_toNat ps r
  have h2 := overlapEnd_toNat pe r
  have h3 := BitVec.toNat_ne_iff_ne.2 hs
  have h4 := BitVec.toNat_ne_iff_ne.2 he
  have hos := aligned_overlapStart hps hr
  have hoe := aligned_overlapEnd hpe hr
  have hsplit : Splits ps pe r := (splits_iff htype hlt).2 ⟨hs, he⟩
  obtain ⟨hs1, he1, hlt1⟩ := hr
  have hcount : ∀ x, offerCount [{ r with end_ := overlapStart ps r },
      ⟨overlapEnd pe r, r.end_, multibootMemoryAvailable⟩] x =
      if InRange ps pe x then 0 else offerCount [r] x := by
    intro x
    simp only [offerCount_cons, offerCount_nil, MemRegion.Offers, MemRegion.Covers, InRange, htype,
      true_and]
    split_ifs <;> omega
  refine ⟨fun x => Nat.le_of_eq (hcount x), fun _ => hcount, ?_, ?_,
    Or.inr ⟨rfl, hsplit, hroom⟩, iff_of_false (fun h => h rfl) fun h => h.2 hroom⟩
  · simp only [MemRegion.pages, htype, if_true, availablePages_nil, availablePages_cons,
      overlapPages]
    unfold Aligned at *
    omega
  · rintro q hq
    rcases List.mem_cons.1 hq with rfl | hq
    · refine ⟨hs1, hos, ?_⟩
      dsimp only
      omega
    · obtain rfl := List.mem_singleton.1 hq
      refine ⟨hoe, he1, ?_⟩
      dsimp only
      omega

/-- The table is full : the region is given up, with the pages on either side. -/
theorem cuts_full (hs : overlapStart ps r ≠ r.start) (he : overlapEnd pe r ≠ r.end_)
    (hroom : ¬room) :
    Cuts ps pe room r { r with type := multibootMemoryReserved } [] (overlapPages ps pe r)
      (r.pages - overlapPages ps pe r) := by
  have h1 := overlapStart_toNat ps r
  have h2 := overlapEnd_toNat pe r
  have h3 := BitVec.toNat_ne_iff_ne.2 hs
  have hne : ¬multibootMemoryReserved = multibootMemoryAvailable := by decide
  have hsplit : Splits ps pe r := (splits_iff htype hlt).2 ⟨hs, he⟩
  have hpages : overlapPages ps pe r < r.pages := by
    obtain ⟨hs1, he1, hlt1⟩ := hr
    simp only [MemRegion.pages, htype, if_true, overlapPages]
    unfold Aligned at *
    omega
  refine ⟨fun x => ?_, fun hlost => ?_, ?_, ?_, Or.inl ⟨rfl, fun h => hroom h.2⟩,
    iff_of_true (by omega) ⟨hsplit, hroom⟩⟩
  · simp [MemRegion.Offers, hne]
  · omega
  · rw [show ({ r with type := multibootMemoryReserved } : MemRegion).pages = 0 from if_neg hne,
      availablePages_nil]
    omega
  · rintro q hq
    obtain rfl := List.mem_singleton.1 hq
    exact ⟨hr.start, hr.end_, hr.lt⟩

end

/-! ## One step of the loop -/

namespace Mmu

variable {ps pe : Addr}

/-- The state after a cut : the regions, and the pages that changed sides. -/
def cut (s : Mmu) (regions : List MemRegion) (overlap : ℕ) (console : List PrintkCall) : Mmu :=
  { s with
    memoryRegions := regions
    freePages := s.freePages - BitVec.ofNat 64 overlap
    reservedPages := s.reservedPages + BitVec.ofNat 64 overlap
    console := console }

theorem exists_split_at {α : Type*} {l : List α} {j : ℕ} {a : α} (h : l[j]? = some a) :
    ∃ front back, l = front ++ a :: back ∧ front.length = j := by
  obtain ⟨hj, rfl⟩ := List.getElem?_eq_some_iff.1 h
  refine ⟨l.take j, l.drop (j + 1), ?_, List.length_take_of_le (Nat.le_of_lt hj)⟩
  rw [← List.drop_eq_getElem_cons hj, List.take_append_drop]

/-- A region that has none of the pages to offer stays as it is. -/
theorem reserveRegion_misses {s : Mmu} {j : ℕ} {r : MemRegion} (hj : s.memoryRegions[j]? = some r)
    (h : ¬(r.type = multibootMemoryAvailable ∧
      (overlapStart ps r).toNat < (overlapEnd pe r).toNat)) :
    reserveRegion ps pe s j = s := by
  rw [reserveRegion, hj]
  dsimp only
  by_cases htype : r.type = multibootMemoryAvailable
  · by_cases hmiss : ps ≥ r.end_ ∨ pe ≤ r.start
    · rw [if_neg (not_not.2 htype), if_pos hmiss]
    · rw [if_neg (not_not.2 htype), if_neg hmiss]
      exact if_pos (Nat.not_lt.1 fun hlt => h ⟨htype, hlt⟩)
  · exact if_pos htype

/-- The cut of a region that has some of the pages. -/
theorem reserveRegion_meets {s : Mmu} {j : ℕ} {r : MemRegion} (hj : s.memoryRegions[j]? = some r)
    (htype : r.type = multibootMemoryAvailable)
    (hlt : (overlapStart ps r).toNat < (overlapEnd pe r).toNat) :
    reserveRegion ps pe s j =
      if overlapStart ps r = r.start ∧ overlapEnd pe r = r.end_ then
        s.cut (s.memoryRegions.set j { r with type := multibootMemoryReserved })
          (overlapPages ps pe r) s.console
      else if overlapStart ps r = r.start then
        s.cut (s.memoryRegions.set j { r with start := overlapEnd pe r })
          (overlapPages ps pe r) s.console
      else if overlapEnd pe r = r.end_ then
        s.cut (s.memoryRegions.set j { r with end_ := overlapStart ps r })
          (overlapPages ps pe r) s.console
      else if s.memoryRegions.length < maxMemoryRegions then
        s.cut ((s.memoryRegions ++
            [(⟨overlapEnd pe r, r.end_, multibootMemoryAvailable⟩ : MemRegion)]).set j
          { r with end_ := overlapStart ps r }) (overlapPages ps pe r) s.console
      else
        s.cut (s.memoryRegions.set j { r with type := multibootMemoryReserved })
          (overlapPages ps pe r) (s.printk
            "WARNING: No space for split region, marking entire region as reserved\n"
            []).console := by
  have h1 := overlapStart_toNat ps r
  have h2 := overlapEnd_toNat pe r
  have hmeet : ¬(ps ≥ r.end_ ∨ pe ≤ r.start) := by
    change ¬(r.end_.toNat ≤ ps.toNat ∨ pe.toNat ≤ r.start.toNat)
    omega
  have hpages : (overlapEnd pe r - overlapStart ps r) / pageSize =
      BitVec.ofNat 64 (overlapPages ps pe r) := by
    refine BitVec.eq_of_toNat_eq ?_
    rw [BitVec.toNat_udiv, BitVec.toNat_sub_of_le (Nat.le_of_lt hlt), BitVec.toNat_ofNat,
      overlapPages, show pageSize.toNat = 4096 from rfl]
    omega
  rw [reserveRegion, hj]
  dsimp only
  rw [if_neg (not_not.2 htype), if_neg hmeet]
  simp only [cut, ← hpages]
  exact if_neg (Nat.not_le.2 hlt)

/-- A step leaves the table alone, when the region has none of the pages to offer, or cuts
them out of the region. -/
theorem reserveRegion_cases (hps : Aligned ps) (hpe : Aligned pe) {s : Mmu}
    (hw : ∀ r ∈ s.memoryRegions, r.Whole) (j : ℕ) :
    (reserveRegion ps pe s j = s ∧ ∀ r, s.memoryRegions[j]? = some r →
      ¬Splits ps pe r ∧ ∀ x, r.Offers x → ¬InRange ps pe x) ∨
    ∃ front r back r' extra overlap lost console,
      s.memoryRegions = front ++ r :: back ∧ front.length = j ∧
      Cuts ps pe (s.memoryRegions.length < maxMemoryRegions) r r' extra overlap lost ∧
      reserveRegion ps pe s j = s.cut (front ++ r' :: (back ++ extra)) overlap console := by
  cases hj : s.memoryRegions[j]? with
  | none =>
    left
    exact ⟨by rw [reserveRegion, hj], fun r hr => by cases hr⟩
  | some r =>
    have hr := hw r (List.mem_of_getElem? hj)
    by_cases hover : r.type = multibootMemoryAvailable ∧
        (overlapStart ps r).toNat < (overlapEnd pe r).toNat
    · obtain ⟨htype, hlt⟩ := hover
      obtain ⟨front, back, hsplit, hlen⟩ := exists_split_at hj
      have hset : ∀ q extra, (s.memoryRegions ++ extra).set j q =
          front ++ q :: (back ++ extra) := by
        intro q extra
        rw [hsplit, List.append_assoc, List.set_append_right _ _ (Nat.le_of_eq hlen), hlen,
          Nat.sub_self]
        rfl
      have hset₀ : ∀ q, s.memoryRegions.set j q = front ++ q :: (back ++ []) := fun q => by
        rw [← hset, List.append_nil]
      have heq := reserveRegion_meets hj htype hlt
      rw [hset] at heq
      simp only [hset₀] at heq
      right
      split_ifs at heq with hall hs he hroom
      · exact ⟨front, r, back, _, _, _, _, _, hsplit, hlen,
          cuts_all hps hpe hr htype hlt hall.1 hall.2, heq⟩
      · exact ⟨front, r, back, _, _, _, _, _, hsplit, hlen,
          cuts_head hps hpe hr htype hlt hs fun he => hall ⟨hs, he⟩, heq⟩
      · exact ⟨front, r, back, _, _, _, _, _, hsplit, hlen,
          cuts_tail hps hpe hr htype hlt hs he, heq⟩
      · exact ⟨front, r, back, _, _, _, _, _, hsplit, hlen,
          cuts_split hps hpe hr htype hlt hs he hroom, heq⟩
      · exact ⟨front, r, back, _, _, _, _, _, hsplit, hlen,
          cuts_full hps hpe hr htype hlt hs he hroom, heq⟩
    · left
      refine ⟨reserveRegion_misses hj hover, fun r' hr' => ?_⟩
      obtain rfl := Option.some_inj.1 hr'
      exact misses_of_not_overlap hover

/-! ## The loop -/

/-- The regions that a section splits. -/
def splitCount (ps pe : Addr) (regions : List MemRegion) : ℕ :=
  regions.countP fun r => decide (Splits ps pe r)

/-- The loop over the regions before `j`, from `s` to `t` : they have no page of the section
left to offer. While nothing is lost, the table grows by the regions that were split. -/
structure Reserving (ps pe : Addr) (s t : Mmu) (j overlap lost : ℕ) : Prop where
  whole : ∀ r ∈ t.memoryRegions, r.Whole
  size : t.memoryRegions.length ≤ maxMemoryRegions
  grown : s.memoryRegions.length ≤ t.memoryRegions.length
  /-- The regions before `j` have none of the pages left. -/
  done : ∀ r ∈ t.memoryRegions.take j, ∀ x, r.Offers x → ¬InRange ps pe x
  offers : ∀ x, offerCount t.memoryRegions x ≤ offerCount s.memoryRegions x
  keeps : lost = 0 → ∀ x, ¬InRange ps pe x →
    offerCount t.memoryRegions x = offerCount s.memoryRegions x
  pages : availablePages s.memoryRegions = availablePages t.memoryRegions + overlap + lost
  state : t = s.cut t.memoryRegions overlap t.console
  room : lost = 0 ∧ t.memoryRegions.length + splitCount ps pe (t.memoryRegions.drop j) =
      s.memoryRegions.length + splitCount ps pe s.memoryRegions ∨
    lost ≠ 0 ∧ maxMemoryRegions < s.memoryRegions.length + splitCount ps pe s.memoryRegions

theorem Reserving.start {s : Mmu} (hw : ∀ r ∈ s.memoryRegions, r.Whole)
    (hsize : s.memoryRegions.length ≤ maxMemoryRegions) : Reserving ps pe s s 0 0 0 := by
  refine ⟨hw, hsize, Nat.le_refl _, by simp, fun _ => Nat.le_refl _, fun _ _ _ => rfl, by simp, ?_,
    Or.inl ⟨rfl, rfl⟩⟩
  rw [cut, show BitVec.ofNat 64 0 = 0#64 from rfl, BitVec.sub_zero, BitVec.add_zero]

/-- A region with none of the pages to offer is passed over. -/
theorem Reserving.skip {s t : Mmu} {j overlap lost : ℕ} (h : Reserving ps pe s t j overlap lost)
    (hskip : ∀ r, t.memoryRegions[j]? = some r →
      ¬Splits ps pe r ∧ ∀ x, r.Offers x → ¬InRange ps pe x) :
    Reserving ps pe s t (j + 1) overlap lost := by
  refine { h with done := fun r hr => ?_, room := ?_ }
  · rw [List.take_add_one, List.mem_append] at hr
    rcases hr with hr | hr
    · exact h.done r hr
    · exact (hskip r (by simpa using hr)).2
  · refine h.room.imp_left fun ⟨hlost, hcount⟩ => ⟨hlost, ?_⟩
    rw [← hcount]
    cases hj : t.memoryRegions[j]? with
    | none =>
      rw [List.getElem?_eq_none_iff] at hj
      rw [List.drop_of_length_le hj, List.drop_of_length_le (by omega)]
    | some r =>
      obtain ⟨hlt, rfl⟩ := List.getElem?_eq_some_iff.1 hj
      rw [List.drop_eq_getElem_cons hlt, splitCount, splitCount, List.countP_cons_of_neg]
      simpa using (hskip _ hj).1

theorem cut_cut (s : Mmu) (regions regions' : List MemRegion) (o o' : ℕ)
    (console console' : List PrintkCall) :
    (s.cut regions o console).cut regions' o' console' = s.cut regions' (o + o') console' := by
  have hsub : s.freePages - BitVec.ofNat 64 o - BitVec.ofNat 64 o' =
      s.freePages - (BitVec.ofNat 64 o + BitVec.ofNat 64 o') := by
    bv_omega
  simp only [cut, BitVec.ofNat_add, BitVec.add_assoc, hsub]

theorem Splits.offers {r : MemRegion} (h : Splits ps pe r) : r.Offers ps ∧ InRange ps pe ps :=
  ⟨⟨h.1, Nat.le_of_lt h.2.1, Nat.lt_trans h.2.2.1 h.2.2.2⟩, Nat.le_refl _, h.2.2.1⟩

/-- What is left of a region has no page of the section to offer. -/
theorem not_offers_of_cuts {room : Prop} {r r' : MemRegion} {extra : List MemRegion} {o l : ℕ}
    (h : Cuts ps pe room r r' extra o l) {q : MemRegion} (hq : q ∈ r' :: extra) {x : Addr}
    (hx : q.Offers x) : ¬InRange ps pe x := by
  intro hin
  have hle := h.offers x
  rw [if_pos hin] at hle
  have hpos := offerCount_pos.2 ⟨q, hq, hx⟩
  omega

/-- The length of the table before and after a cut. -/
theorem length_cut {regions front back : List MemRegion} (extra : List MemRegion) {r : MemRegion}
    (hsplit : regions = front ++ r :: back) (r' : MemRegion) :
    regions.length = front.length + back.length + 1 ∧
      (front ++ r' :: (back ++ extra)).length = regions.length + extra.length := by
  have hcount : regions.length = front.length + back.length + 1 := by
    rw [hsplit, List.length_append, List.length_cons]
    omega
  refine ⟨hcount, ?_⟩
  rw [List.length_append, List.length_cons, List.length_append, hcount]
  omega

/-- The section splits none of the new regions. -/
theorem splitCount_extra {room : Prop} {r r' : MemRegion} {extra : List MemRegion} {o l : ℕ}
    (h : Cuts ps pe room r r' extra o l) : splitCount ps pe extra = 0 := by
  refine List.countP_eq_zero.2 fun q hq hs => ?_
  obtain ⟨hoff, hin⟩ := Splits.offers (of_decide_eq_true hs)
  exact not_offers_of_cuts h (List.mem_cons_of_mem _ hq) hoff hin

/-- While nothing is lost, a region that is split makes room for itself among those that are yet
to be split. -/
theorem Reserving.room_step {s t : Mmu} {j overlap lost : ℕ}
    (h : Reserving ps pe s t j overlap lost) {front back extra : List MemRegion}
    {r r' : MemRegion} {o l : ℕ} (hsplit : t.memoryRegions = front ++ r :: back)
    (hlen : front.length = j)
    (hcut : Cuts ps pe (t.memoryRegions.length < maxMemoryRegions) r r' extra o l) :
    lost + l = 0 ∧ (front ++ r' :: (back ++ extra)).length +
        splitCount ps pe ((front ++ r' :: (back ++ extra)).drop (j + 1)) =
        s.memoryRegions.length + splitCount ps pe s.memoryRegions ∨
      lost + l ≠ 0 ∧
        maxMemoryRegions < s.memoryRegions.length + splitCount ps pe s.memoryRegions := by
  obtain ⟨hcount, hnew⟩ := length_cut extra hsplit r'
  have hbefore : splitCount ps pe (t.memoryRegions.drop j) =
      splitCount ps pe back + if Splits ps pe r then 1 else 0 := by
    rw [hsplit, List.drop_left' hlen, splitCount, List.countP_cons]
    simp [splitCount]
  have hafter : splitCount ps pe ((front ++ r' :: (back ++ extra)).drop (j + 1)) =
      splitCount ps pe back := by
    have hdrop : (front ++ r' :: (back ++ extra)).drop (j + 1) = back ++ extra := by
      rw [List.drop_append, hlen, List.drop_of_length_le (by omega)]
      simp
    rw [hdrop, splitCount, List.countP_append]
    exact (congrArg _ (splitCount_extra hcut)).trans (Nat.add_zero _)
  have hsize := h.size
  have hgrows := hcut.grows
  have hloses := hcut.loses
  rcases h.room with ⟨hlost, hroom⟩ | ⟨hlost, hroom⟩
  · by_cases hs : Splits ps pe r
    · rw [if_pos hs] at hbefore
      by_cases hfree : t.memoryRegions.length < maxMemoryRegions
      · left
        have hl : ¬l ≠ 0 := fun hl => (hloses.1 hl).2 hfree
        have hgrown : extra.length = 1 := by
          rcases hgrows with ⟨-, hno⟩ | ⟨hone, -⟩
          · exact absurd ⟨hs, hfree⟩ hno
          · exact hone
        omega
      · right
        have hl : l ≠ 0 := hloses.2 ⟨hs, hfree⟩
        omega
    · left
      rw [if_neg hs] at hbefore
      have hl : ¬l ≠ 0 := fun hl => hs (hloses.1 hl).1
      have hgrown : extra.length = 0 := by
        rcases hgrows with ⟨hzero, -⟩ | ⟨-, hs', -⟩
        · exact hzero
        · exact absurd hs' hs
      omega
  · right
    omega

/-- A region that was cut has none of the pages left, and neither have the new ones. -/
theorem Reserving.step {s t : Mmu} {j overlap lost : ℕ} (h : Reserving ps pe s t j overlap lost)
    {front back extra : List MemRegion} {r r' : MemRegion} {o l : ℕ} {console : List PrintkCall}
    (hsplit : t.memoryRegions = front ++ r :: back) (hlen : front.length = j)
    (hcut : Cuts ps pe (t.memoryRegions.length < maxMemoryRegions) r r' extra o l) :
    Reserving ps pe s (t.cut (front ++ r' :: (back ++ extra)) o console) (j + 1) (overlap + o)
      (lost + l) := by
  obtain ⟨hcount, hnew⟩ := length_cut extra hsplit r'
  have hold : ∀ x, offerCount t.memoryRegions x =
      offerCount front x + offerCount [r] x + offerCount back x := by
    intro x
    rw [hsplit, ← List.singleton_append, offerCount_append, offerCount_append, Nat.add_assoc]
  have hoffers : ∀ x, offerCount (front ++ r' :: (back ++ extra)) x =
      offerCount front x + offerCount (r' :: extra) x + offerCount back x := by
    intro x
    simp only [offerCount_append, offerCount_cons]
    omega
  have hsize := h.size
  refine ⟨?_, ?_, ?_, ?_, ?_, ?_, ?_, ?_, ?_⟩
  · intro q hq
    rcases List.mem_append.1 hq with hq | hq
    · exact h.whole q (hsplit ▸ List.mem_append_left _ hq)
    · rcases List.mem_cons.1 hq with rfl | hq
      · exact hcut.whole _ List.mem_cons_self
      · rcases List.mem_append.1 hq with hq | hq
        · exact h.whole q (hsplit ▸ List.mem_append_right _ (List.mem_cons_of_mem _ hq))
        · exact hcut.whole q (List.mem_cons_of_mem _ hq)
  · have := hcut.grows
    show (front ++ r' :: (back ++ extra)).length ≤ _
    omega
  · have := h.grown
    show _ ≤ (front ++ r' :: (back ++ extra)).length
    omega
  · intro q hq
    have htake : (front ++ r' :: (back ++ extra)).take (j + 1) = front ++ [r'] := by
      rw [List.take_append, hlen, List.take_of_length_le (by omega)]
      simp
    rw [show (t.cut (front ++ r' :: (back ++ extra)) o console).memoryRegions =
      front ++ r' :: (back ++ extra) from rfl, htake] at hq
    rcases List.mem_append.1 hq with hq | hq
    · refine h.done q ?_
      rw [hsplit, List.take_left' hlen]
      exact hq
    · obtain rfl := List.mem_singleton.1 hq
      exact fun x hx => not_offers_of_cuts hcut List.mem_cons_self hx
  · intro x
    have hle := h.offers x
    have hcutle := hcut.offers x
    rw [hold] at hle
    refine Nat.le_trans (Nat.le_of_eq (hoffers x)) (Nat.le_trans ?_ hle)
    split_ifs at hcutle <;> omega
  · intro hlost x hout
    have heq := h.keeps (by omega) x hout
    have hcuteq := hcut.keeps (by omega) x
    rw [hold] at heq
    rw [if_neg hout] at hcuteq
    refine (hoffers x).trans (Eq.trans ?_ heq)
    omega
  · have hpages := h.pages
    have hcutpages := hcut.pages
    rw [hsplit, availablePages_append, availablePages_cons] at hpages
    rw [show (t.cut (front ++ r' :: (back ++ extra)) o console).memoryRegions =
      front ++ r' :: (back ++ extra) from rfl, availablePages_append, availablePages_cons,
      availablePages_append]
    omega
  · conv_lhs => rw [h.state]
    rw [cut_cut]
    rfl
  · exact h.room_step hsplit hlen hcut

/-- At step `j` of the loop from `s` there is room for a split, if one is needed. -/
def SplitFits (ps pe : Addr) (s : Mmu) (j : ℕ) : Prop :=
  ∀ r, ((List.range j).foldl (reserveRegion ps pe) s).memoryRegions[j]? = some r →
    Splits ps pe r →
      ((List.range j).foldl (reserveRegion ps pe) s).memoryRegions.length < maxMemoryRegions

/-- The loop up to the region `j`. -/
theorem reserving_range (hps : Aligned ps) (hpe : Aligned pe) {s : Mmu}
    (hw : ∀ r ∈ s.memoryRegions, r.Whole) (hsize : s.memoryRegions.length ≤ maxMemoryRegions)
    (n : ℕ) : ∃ overlap lost,
      Reserving ps pe s ((List.range n).foldl (reserveRegion ps pe) s) n overlap lost ∧
        ((∀ j < n, SplitFits ps pe s j) → lost = 0) := by
  induction n with
  | zero => exact ⟨0, 0, .start hw hsize, fun _ => rfl⟩
  | succ n ih =>
    obtain ⟨overlap, lost, h, hfits⟩ := ih
    rw [List.range_succ, List.foldl_append, List.foldl_cons, List.foldl_nil]
    rcases reserveRegion_cases hps hpe h.whole n with ⟨heq, hskip⟩ |
      ⟨front, r, back, r', extra, o, l, console, hsplit, hlen, hcut, heq⟩
    · rw [heq]
      exact ⟨overlap, lost, h.skip hskip, fun hall => hfits fun j hj => hall j (by omega)⟩
    · rw [heq]
      refine ⟨overlap + o, lost + l, h.step hsplit hlen hcut, fun hall => ?_⟩
      have hlost := hfits fun j hj => hall j (by omega)
      have hl : ¬l ≠ 0 := fun hl => by
        obtain ⟨hs, hfull⟩ := hcut.loses.1 hl
        refine hfull (hall n (Nat.lt_succ_self n) r ?_ hs)
        rw [hsplit, List.getElem?_append_right (Nat.le_of_eq hlen), hlen, Nat.sub_self]
        rfl
      omega

/-- From `s` to `t` the pages from `ps` to `pe` were taken out of the region table. There were
`overlap` of them on offer; `lost` more pages were given up, and none if the table has room
for the regions that are split. -/
structure Reserves (ps pe : Addr) (s t : Mmu) (overlap lost : ℕ) : Prop where
  whole : ∀ r ∈ t.memoryRegions, r.Whole
  size : t.memoryRegions.length ≤ maxMemoryRegions
  grown : s.memoryRegions.length ≤ t.memoryRegions.length
  offers : ∀ x, offerCount t.memoryRegions x ≤
    if InRange ps pe x then 0 else offerCount s.memoryRegions x
  keeps : lost = 0 → ∀ x, offerCount t.memoryRegions x =
    if InRange ps pe x then 0 else offerCount s.memoryRegions x
  /-- What is no longer on offer was taken or given up. -/
  pages : availablePages s.memoryRegions = availablePages t.memoryRegions + overlap + lost
  state : t = s.cut t.memoryRegions overlap t.console
  room : lost = 0 ↔
    s.memoryRegions.length + splitCount ps pe s.memoryRegions ≤ maxMemoryRegions

/-- The loop over the regions, for the pages of a section. -/
theorem reservePages_spec (hps : Aligned ps) (hpe : Aligned pe) {s : Mmu}
    (hw : ∀ r ∈ s.memoryRegions, r.Whole) (hsize : s.memoryRegions.length ≤ maxMemoryRegions) :
    ∃ overlap lost, Reserves ps pe s (s.reservePages ps pe) overlap lost ∧
      ((∀ j, SplitFits ps pe s j) → lost = 0) := by
  obtain ⟨overlap, lost, h, hfits⟩ := reserving_range hps hpe hw hsize maxMemoryRegions
  have hdone := h.done
  have hroom := h.room
  rw [List.take_of_length_le h.size] at hdone
  rw [List.drop_of_length_le h.size] at hroom
  have hgone : ∀ x, InRange ps pe x → offerCount (s.reservePages ps pe).memoryRegions x = 0 := by
    intro x hin
    refine Nat.eq_zero_of_not_pos fun hpos => ?_
    obtain ⟨r, hr, hoff⟩ := offerCount_pos.1 hpos
    exact hdone r hr x hoff hin
  refine ⟨overlap, lost, ⟨h.whole, h.size, h.grown, fun x => ?_, fun hlost x => ?_, h.pages,
    h.state, ?_⟩, fun hall => hfits fun j _ => hall j⟩
  · split_ifs with hin
    · exact Nat.le_of_eq (hgone x hin)
    · exact h.offers x
  · split_ifs with hin
    · exact hgone x hin
    · exact h.keeps hlost x hin
  · have hend := h.size
    have hnil : splitCount ps pe [] = 0 := rfl
    omega

end Mmu

end KernelDev
