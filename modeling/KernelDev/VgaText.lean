import KernelDev.CString
import KernelDev.Vga
import Mathlib.Data.List.Induction

/-!
# The display as a page of text

What the display is for : it shows the last 25 rows of an unbounded page of text. `Page` is that
page, and `Page.put` puts a character on it : a newline goes to the next row, a carriage return to
its beginning, a tab to the next multiple of eight, and any other character is written at the
cursor, which then moves on. Column 80 is column 0 of the next row. Rows are never lost, as a page
has no end.

`Shows` relates the display to the page : the window starts 24 rows above the cursor, or at the
top, and the rows below the cursor are still blank. `Shows.display` is the step : one character on
the display is one character on the page, where the cases are those of the `switch`
(`ShowsFrom.place`), the line wrap (`ShowsFrom.wrap`) and the scrolling (`ShowsFrom.scroll`), which
moves the window down by one row, and whose new last row is blank on the page.

The loops of the display are read first. Copying a row to the one above it reads cells that the
loop has not written yet (`copyRow_spec`, `copyRows_spec`), and clearing sets every cell of the row
(`clearRow_spec`). Each of them also says where it writes (`WritesInside`) : nowhere outside of the
2000 cells.

`vga_shows_page` is the result : after `VGA_clear` and any list of calls, and after each character
of them, the display shows its window of the page, the cursor is on the screen, and nothing outside
of the display was written.
-/

namespace KernelDev

/-! ## The page -/

/-- An unbounded page of rows of 80 characters, with a cursor. -/
structure Page where
  cells : ℕ → ℕ → BitVec 8
  row : ℕ
  col : ℕ

namespace Page

/-- The empty page. -/
def blank : Page where
  cells := fun _ _ => 0x20
  row := 0
  col := 0

/-- The effect of a character before the end of the row is looked at. -/
def place (p : Page) (c : BitVec 8) : Page :=
  if c = 0x0a then { p with row := p.row + 1, col := 0 }
  else if c = 0x0d then { p with col := 0 }
  else if c = 0x09 then { p with col := (p.col / 8 + 1) * 8 }
  else
    { p with
      cells := fun r x => if r = p.row ∧ x = p.col then c else p.cells r x
      col := p.col + 1 }

/-- Column 80 is column 0 of the next row. -/
def wrap (p : Page) : Page :=
  if 80 ≤ p.col then { p with row := p.row + 1, col := 0 } else p

/-- Put a character on the page : newline, carriage return and tab move, others overwrite. -/
def put (p : Page) (c : BitVec 8) : Page :=
  (p.place c).wrap

/-- The first row of the window. -/
def top (p : Page) : ℕ :=
  p.row - 24

end Page

/-! ## Cells of the display -/

theorem vgaIndex_ofNat (x y : ℕ) :
    vgaIndex (BitVec.ofNat 32 x) (BitVec.ofNat 32 y) = BitVec.ofNat 32 (80 * y + x) := by
  rw [vgaIndex, BitVec.ofNat_add, Nat.mul_comm, BitVec.ofNat_mul]
  rfl

theorem ofNat32_inj {i j : ℕ} (hi : i < 2000) (hj : j < 2000) :
    BitVec.ofNat 32 i = BitVec.ofNat 32 j ↔ i = j := by
  rw [← BitVec.toNat_inj, BitVec.toNat_ofNat, BitVec.toNat_ofNat]
  omega

namespace Vga

variable {v v' v'' : Vga}

/-- Every write from `v` to `v'` is inside the display. -/
def WritesInside (v v' : Vga) : Prop :=
  ∃ ws, v'.writes = v.writes ++ ws ∧ ∀ i ∈ ws, i.toNat < 2000

theorem WritesInside.refl (v : Vga) : WritesInside v v :=
  ⟨[], by simp, by simp⟩

theorem WritesInside.trans (h : WritesInside v v') (h' : WritesInside v' v'') :
    WritesInside v v'' := by
  obtain ⟨ws, hw, hin⟩ := h
  obtain ⟨ws', hw', hin'⟩ := h'
  refine ⟨ws ++ ws', by rw [hw', hw, List.append_assoc], fun i hi => ?_⟩
  rcases List.mem_append.1 hi with hi | hi
  · exact hin i hi
  · exact hin' i hi

/-- Moving the cursor writes nothing. -/
theorem WritesInside.cursorY (h : WritesInside v v') (y : BitVec 32) :
    WritesInside v { v' with cursorY := y } :=
  h

theorem writesInside_poke {i : BitVec 32} (hi : i.toNat < 2000) (cell : BitVec 16) :
    WritesInside v (v.poke i cell) :=
  ⟨[i], rfl, by simpa using hi⟩

/-- `v'` differs from `v` in display memory and the record of writes only. -/
structure Redraws (v v' : Vga) : Prop where
  writes : WritesInside v v'
  cursorX : v'.cursorX = v.cursorX
  cursorY : v'.cursorY = v.cursorY
  shown : v'.shown = v.shown

theorem Redraws.refl (v : Vga) : Redraws v v :=
  ⟨.refl v, rfl, rfl, rfl⟩

theorem Redraws.trans (h : Redraws v v') (h' : Redraws v' v'') : Redraws v v'' :=
  ⟨h.writes.trans h'.writes, h'.cursorX.trans h.cursorX, h'.cursorY.trans h.cursorY,
    h'.shown.trans h.shown⟩

/-- The cell at a linear index. -/
def cellAt (v : Vga) (k : ℕ) : BitVec 16 :=
  v.memory (BitVec.ofNat 32 k)

/-- A cell after a write. -/
theorem cellAt_poke {k i : ℕ} (hk : k < 2000) (hi : i < 2000) (cell : BitVec 16) :
    (v.poke (BitVec.ofNat 32 i) cell).cellAt k = if k = i then cell else v.cellAt k := by
  show Function.update v.memory (BitVec.ofNat 32 i) cell (BitVec.ofNat 32 k) = _
  rw [Function.update_apply]
  simp only [ofNat32_inj hk hi]
  rfl

theorem cellAt_cursorY (v : Vga) (y : BitVec 32) (k : ℕ) :
    ({ v with cursorY := y } : Vga).cellAt k = v.cellAt k :=
  rfl

/-- One row loop : the cells of the row take the values read for them. -/
theorem setCells_spec {y : ℕ} (hy : y < 25) (cell : Vga → ℕ → BitVec 16) (value : ℕ → BitVec 16) :
    ∀ {n : ℕ}, n ≤ 80 → (∀ m < n, cell (v.setCells y cell m) m = value m) →
    Redraws v (v.setCells y cell n) ∧ ∀ k < 2000, (v.setCells y cell n).cellAt k =
      if 80 * y ≤ k ∧ k < 80 * y + n then value (k - 80 * y) else v.cellAt k
  | 0, _, _ => by
    refine ⟨.refl v, fun k _ => ?_⟩
    rw [if_neg (by omega)]
    rfl
  | n + 1, hn, hvalue => by
    obtain ⟨hdraw, hcells⟩ := setCells_spec hy cell value (n := n) (by omega) fun m hm =>
      hvalue m (by omega)
    have hstep : v.setCells y cell (n + 1) =
        (v.setCells y cell n).poke (BitVec.ofNat 32 (80 * y + n)) (value n) := by
      rw [← hvalue n (by omega), ← vgaIndex_ofNat, setCells, List.range_succ, List.foldl_append]
      rfl
    rw [hstep]
    refine ⟨hdraw.trans ⟨writesInside_poke ?_ _, rfl, rfl, rfl⟩, fun k hk => ?_⟩
    · rw [BitVec.toNat_ofNat, Nat.mod_eq_of_lt (by omega)]
      omega
    · rw [cellAt_poke hk (by omega), hcells k hk]
      by_cases hkn : k = 80 * y + n
      · rw [if_pos hkn, if_pos (by omega), show k - 80 * y = n by omega]
      · rw [if_neg hkn]
        split_ifs <;> first | rfl | omega

/-- `copyRow` reads the row below, which it does not write. -/
theorem copyRow_spec {y : ℕ} (hy : y < 24) :
    Redraws v (v.copyRow y) ∧ ∀ k < 2000, (v.copyRow y).cellAt k =
      if 80 * y ≤ k ∧ k < 80 * y + 80 then v.cellAt (k + 80) else v.cellAt k := by
  have hvalue : ∀ m < 80, (v.setCells y (fun v x =>
      v.memory (vgaIndex (BitVec.ofNat 32 x) (BitVec.ofNat 32 (y + 1)))) m).memory
        (vgaIndex (BitVec.ofNat 32 m) (BitVec.ofNat 32 (y + 1))) = v.cellAt (80 * (y + 1) + m) := by
    intro m
    induction m using Nat.strong_induction_on with
    | _ m ih =>
      intro hm
      have hrow := (setCells_spec (v := v) (by omega : y < 25) (fun v x =>
        v.memory (vgaIndex (BitVec.ofNat 32 x) (BitVec.ofNat 32 (y + 1))))
        (fun x => v.cellAt (80 * (y + 1) + x)) (n := m) (by omega)
        fun j hj => ih j hj (by omega)).2 (80 * (y + 1) + m) (by omega)
      rw [if_neg (by omega)] at hrow
      rw [vgaIndex_ofNat]
      exact hrow
  obtain ⟨hdraw, hcells⟩ := setCells_spec (v := v) (by omega : y < 25)
    (fun v x => v.memory (vgaIndex (BitVec.ofNat 32 x) (BitVec.ofNat 32 (y + 1))))
    (fun x => v.cellAt (80 * (y + 1) + x)) (n := 80) (by omega) hvalue
  refine ⟨hdraw, fun k hk => (hcells k hk).trans ?_⟩
  split_ifs with hin
  · rw [show 80 * (y + 1) + (k - 80 * y) = k + 80 by omega]
  · rfl

/-- Clearing a row. -/
theorem clearRow_spec {y : ℕ} (hy : y < 25) :
    Redraws v (v.clearRow y) ∧ ∀ k < 2000, (v.clearRow y).cellAt k =
      if 80 * y ≤ k ∧ k < 80 * y + 80 then vgaCell 0x20 else v.cellAt k :=
  setCells_spec hy _ (fun _ => vgaCell 0x20) (n := 80) (by omega) fun _ _ => rfl

/-- Copying the first `n` rows moves them up by one. -/
theorem copyRows_spec : ∀ {n : ℕ}, n ≤ 24 →
    Redraws v ((List.range n).foldl copyRow v) ∧
      ∀ k < 2000, ((List.range n).foldl copyRow v).cellAt k =
        if k < 80 * n then v.cellAt (k + 80) else v.cellAt k
  | 0, _ => ⟨.refl v, fun k _ => rfl⟩
  | n + 1, hn => by
    obtain ⟨hdraw, hcells⟩ := copyRows_spec (n := n) (by omega)
    rw [List.range_succ, List.foldl_append, List.foldl_cons, List.foldl_nil]
    obtain ⟨hdraw', hcells'⟩ := copyRow_spec (v := (List.range n).foldl copyRow v) (y := n)
      (by omega)
    refine ⟨hdraw.trans hdraw', fun k hk => ?_⟩
    rw [hcells' k hk]
    split_ifs with hin hlt hlt
    · rw [hcells (k + 80) (by omega), if_neg (by omega)]
    · omega
    · rw [hcells k hk, if_pos (by omega)]
    · rw [hcells k hk, if_neg (by omega)]

/-- Scrolling moves every row up by one and clears the last. -/
theorem scrollRows_spec :
    Redraws v v.scrollRows ∧ ∀ k < 2000, v.scrollRows.cellAt k =
      if k < 1920 then v.cellAt (k + 80) else vgaCell 0x20 := by
  obtain ⟨hdraw, hcells⟩ := copyRows_spec (v := v) (n := 24) (by omega)
  obtain ⟨hdraw', hcells'⟩ :=
    clearRow_spec (v := (List.range 24).foldl copyRow v) (y := 24) (by omega)
  refine ⟨hdraw.trans hdraw', fun k hk => (hcells' k hk).trans ?_⟩
  split_ifs with hlast hlt hlt
  · omega
  · rfl
  · rw [hcells k hk, if_pos (by omega)]
  · omega

/-- Clearing the first `n` rows. -/
theorem clearRows_spec : ∀ {n : ℕ}, n ≤ 25 →
    Redraws v ((List.range n).foldl clearRow v) ∧
      ∀ k < 80 * n, ((List.range n).foldl clearRow v).cellAt k = vgaCell 0x20
  | 0, _ => ⟨.refl v, fun k hk => by omega⟩
  | n + 1, hn => by
    obtain ⟨hdraw, hcells⟩ := clearRows_spec (n := n) (by omega)
    rw [List.range_succ, List.foldl_append, List.foldl_cons, List.foldl_nil]
    obtain ⟨hdraw', hcells'⟩ :=
      clearRow_spec (v := (List.range n).foldl clearRow v) (y := n) (by omega)
    refine ⟨hdraw.trans hdraw', fun k hk => (hcells' k (by omega)).trans ?_⟩
    split_ifs with hin
    · rfl
    · exact hcells k (by omega)

/-! ## One character -/

/-- `VGA_display_char` on the display alone. -/
def display (v : Vga) (c : BitVec 8) : Vga :=
  let v := { (v.place c).wrap with shown := v.shown ++ [c] }
  if vgaHeight.sle v.cursorY then { v.scrollRows with cursorY := vgaHeight - 1 } else v

/-- Every character counts as displayed, whatever it does to the cursor. -/
theorem shown_display (v : Vga) (c : BitVec 8) : (v.display c).shown = v.shown ++ [c] := by
  unfold display
  generalize hw : ({ (v.place c).wrap with shown := v.shown ++ [c] } : Vga) = w
  have hshown : w.shown = v.shown ++ [c] := by rw [← hw]
  dsimp only
  split_ifs
  · rw [← hshown, ← (scrollRows_spec (v := w)).1.shown]
  · exact hshown

/-- The characters displayed are those of the calls. -/
theorem shown_foldl (bs : List (BitVec 8)) : ∀ v : Vga,
    (bs.foldl display v).shown = v.shown ++ bs := by
  induction bs with
  | nil => simp
  | cons c bs ih =>
    intro v
    rw [List.foldl_cons, ih, shown_display, List.append_assoc, List.singleton_append]

/-- The display shows rows `w` to `w + 24` of the page, which is blank below row `m`. -/
structure ShowsFrom (v : Vga) (p : Page) (w m : ℕ) : Prop where
  cursorX : v.cursorX.toNat = p.col
  cursorY : v.cursorY.toNat + w = p.row
  cells : ∀ y < 25, ∀ x < 80, (v.cellAt (80 * y + x)).setWidth 8 = p.cells (w + y) x
  /-- The rows below the last one used are blank. -/
  below : ∀ r, m < r → ∀ x, p.cells r x = 0x20

/-- The display shows the window of the page, with the cursor in it. -/
structure Shows (v : Vga) (p : Page) : Prop where
  window : v.ShowsFrom p p.top p.row
  col : p.col < 80

/-- The low byte of a cell is its character. -/
theorem vgaCell_low : ∀ c : BitVec 8, (vgaCell c).setWidth 8 = c := by
  decide

theorem tab_toNat : ∀ n < 80, ((BitVec.ofNat 32 n + 8) &&& ~~~7).toNat = (n / 8 + 1) * 8 := by
  decide

theorem sle_iff {a b : BitVec 32} (ha : a.toNat < 2 ^ 31) (hb : b.toNat < 2 ^ 31) :
    a.sle b = true ↔ a.toNat ≤ b.toNat := by
  rw [BitVec.sle_eq_decide, decide_eq_true_iff, BitVec.toInt_eq_toNat_of_lt (by omega),
    BitVec.toInt_eq_toNat_of_lt (by omega)]
  omega

theorem add_one_toNat {a : BitVec 32} {n : ℕ} (ha : a.toNat = n) (hn : n < 1000) :
    (a + 1).toNat = n + 1 := by
  have hone : (1 : BitVec 32).toNat = 1 := rfl
  rw [BitVec.toNat_add, ha, hone]
  exact Nat.mod_eq_of_lt (by omega)

/-- The `switch` acts on display and page alike. -/
theorem ShowsFrom.place {p : Page} {w : ℕ} (h : v.ShowsFrom p w p.row) (hx : p.col < 80)
    (hy : p.row < w + 25) (c : BitVec 8) :
    (v.place c).ShowsFrom (p.place c) w p.row ∧ WritesInside v (v.place c) ∧
      (p.place c).col ≤ 80 ∧ (p.place c).row ≤ p.row + 1 ∧
      ((p.place c).row = p.row ∨ (p.place c).col = 0) := by
  have hcx := h.cursorX
  have hcy := h.cursorY
  unfold Vga.place Page.place
  split_ifs
  · refine ⟨⟨rfl, ?_, h.cells, h.below⟩, .refl v, Nat.zero_le _, Nat.le_refl _, Or.inr rfl⟩
    dsimp only
    rw [add_one_toNat rfl (by omega)]
    omega
  · exact ⟨⟨rfl, hcy, h.cells, h.below⟩, .refl v, Nat.zero_le _, Nat.le_succ _, Or.inl rfl⟩
  · refine ⟨⟨?_, hcy, h.cells, h.below⟩, .refl v, ?_, Nat.le_succ _, Or.inl rfl⟩
    · rw [← tab_toNat p.col hx, ← hcx, BitVec.ofNat_toNat, BitVec.setWidth_eq]
    · dsimp only
      omega
  · have hidx : vgaIndex v.cursorX v.cursorY = BitVec.ofNat 32 (80 * (p.row - w) + p.col) := by
      rw [← vgaIndex_ofNat, ← hcx, show p.row - w = v.cursorY.toNat by omega,
        BitVec.ofNat_toNat, BitVec.ofNat_toNat, BitVec.setWidth_eq, BitVec.setWidth_eq]
    rw [hidx]
    refine ⟨⟨add_one_toNat hcx (by omega), hcy, fun y hy' x hx' => ?_, fun r hr x => ?_⟩,
      writesInside_poke ?_ (vgaCell c), Nat.succ_le_of_lt hx, Nat.le_succ _, Or.inl rfl⟩
    · refine (congrArg _ (cellAt_poke (by omega) (by omega) _)).trans ?_
      dsimp only
      by_cases hin : y = p.row - w ∧ x = p.col
      · rw [if_pos (by omega), if_pos (by omega), vgaCell_low]
      · rw [if_neg (by omega), if_neg (by omega), h.cells y hy' x hx']
    · exact (if_neg (by omega)).trans (h.below r hr x)
    · rw [BitVec.toNat_ofNat, Nat.mod_eq_of_lt (by omega)]
      omega

/-- The line wrap acts on display and page alike. -/
theorem ShowsFrom.wrap {p : Page} {w m : ℕ} (h : v.ShowsFrom p w m) (hx : p.col ≤ 80)
    (hy : p.row ≤ w + 25) :
    v.wrap.ShowsFrom p.wrap w m ∧ v.wrap.writes = v.writes ∧ p.wrap.col < 80 := by
  have hcx := h.cursorX
  have hcy := h.cursorY
  have hsle : vgaWidth.sle v.cursorX = true ↔ 80 ≤ p.col := by
    rw [sle_iff (by decide) (by omega), hcx]
    rfl
  unfold Vga.wrap Page.wrap
  by_cases hcol : 80 ≤ p.col
  · rw [if_pos (hsle.2 hcol), if_pos hcol]
    refine ⟨⟨rfl, ?_, h.cells, h.below⟩, rfl, by simp⟩
    dsimp only
    rw [add_one_toNat rfl (by omega)]
    omega
  · rw [if_neg fun hc => hcol (hsle.1 hc), if_neg hcol]
    exact ⟨h, rfl, by omega⟩

/-- Scrolling moves the window down by one row, which was blank. -/
theorem ShowsFrom.scroll {p : Page} {w m : ℕ} (h : v.ShowsFrom p w m) (hrow : p.row = w + 25)
    (hm : m < p.row) (hx : v'.cursorX = v.cursorX)
    (hcells : ∀ k < 2000, v'.cellAt k = if k < 1920 then v.cellAt (k + 80) else vgaCell 0x20) :
    ({ v' with cursorY := vgaHeight - 1 } : Vga).ShowsFrom p (w + 1) m := by
  refine ⟨(congrArg BitVec.toNat hx).trans h.cursorX, ?_, fun y hy x hx => ?_, h.below⟩
  · dsimp only
    rw [show (vgaHeight - 1).toNat = 24 by decide, hrow]
    omega
  · rw [cellAt_cursorY, hcells (80 * y + x) (by omega)]
    split_ifs with hlast
    · rw [show 80 * y + x + 80 = 80 * (y + 1) + x by omega, h.cells (y + 1) (by omega) x hx,
        show w + (y + 1) = w + 1 + y by omega]
    · rw [vgaCell_low, h.below (w + 1 + y) (by omega)]

/-- One character on the display is one character on the page. -/
theorem Shows.display {p : Page} (h : v.Shows p) (c : BitVec 8) :
    (v.display c).Shows (p.put c) ∧ WritesInside v (v.display c) := by
  have hw : p.top = p.row - 24 := rfl
  obtain ⟨hplace, hwrites, hcol, hrow, hor⟩ := h.window.place h.col (by omega) c
  obtain ⟨hwrap, hsame, hcol'⟩ := hplace.wrap hcol (by omega)
  have hput : (p.put c).row ≤ p.row + 1 := by
    unfold Page.put Page.wrap
    split_ifs with hge
    · rcases hor with hor | hor
      · exact Nat.succ_le_succ (Nat.le_of_eq hor)
      · omega
    · exact hrow
  have hle : p.row ≤ (p.put c).row := by
    unfold Page.put Page.wrap Page.place
    split_ifs <;> dsimp only <;> omega
  change (v.place c).wrap.ShowsFrom (p.put c) p.top p.row at hwrap
  have hinside : WritesInside v (v.place c).wrap := by
    obtain ⟨ws, hws, hin⟩ := hwrites
    exact ⟨ws, hsame.trans hws, hin⟩
  have hcy := hwrap.cursorY
  have hsle : vgaHeight.sle (v.place c).wrap.cursorY = true ↔
      25 ≤ (v.place c).wrap.cursorY.toNat := sle_iff (by decide) (by omega)
  have htop : (p.put c).top = (p.put c).row - 24 := rfl
  have hlogged : ({ (v.place c).wrap with shown := v.shown ++ [c] } : Vga).ShowsFrom (p.put c)
      p.top p.row := ⟨hwrap.cursorX, hwrap.cursorY, hwrap.cells, hwrap.below⟩
  unfold Vga.display
  dsimp only
  by_cases hscroll : 25 ≤ (v.place c).wrap.cursorY.toNat
  · rw [if_pos (hsle.2 hscroll)]
    have hrow25 : (p.put c).row = p.top + 25 := by omega
    obtain ⟨hdraw, hcopied⟩ := scrollRows_spec
      (v := { (v.place c).wrap with shown := v.shown ++ [c] })
    generalize scrollRows { (v.place c).wrap with shown := v.shown ++ [c] } = t at hdraw hcopied ⊢
    refine ⟨⟨?_, hcol'⟩, (hinside.trans hdraw.writes).cursorY _⟩
    obtain ⟨hx, hy, hcells, hbelow⟩ := hlogged.scroll hrow25 (by omega) hdraw.cursorX hcopied
    rw [show p.top + 1 = (p.put c).top by omega] at hy hcells
    exact ⟨hx, hy, hcells, fun r hr x => hbelow r (by omega) x⟩
  · rw [if_neg fun hc => hscroll (hsle.1 hc)]
    refine ⟨⟨?_, hcol'⟩, hinside⟩
    obtain ⟨hx, hy, hcells, hbelow⟩ := hlogged
    rw [show p.top = (p.put c).top by omega] at hy hcells
    exact ⟨hx, hy, hcells, fun r hr x => hbelow r (by omega) x⟩

end Vga

/-! ## Calls -/

namespace Console

theorem vgaScroll_eq (s : Console) : s.vgaScroll = { s with vga := s.vga.scrollRows } :=
  critical_eq fun _ => rfl

/-- `VGA_display_char` does not depend on the interrupt flag. -/
theorem vgaDisplayChar_eq (s : Console) (c : BitVec 8) :
    s.vgaDisplayChar c = { s with vga := s.vga.display c } := by
  have hbody : ∀ s : Console, (let s := { s with
        vga := { (s.vga.place c).wrap with shown := s.vga.shown ++ [c] } }
      if vgaHeight.sle s.vga.cursorY then
        let s := s.vgaScroll
        { s with vga := { s.vga with cursorY := vgaHeight - 1 } }
      else s) = { s with vga := s.vga.display c } := fun s => by
    unfold Vga.display
    simp only [vgaScroll_eq]
    split_ifs <;> rfl
  refine (critical_eq fun b => ?_).trans (hbody s)
  rw [hbody, hbody]

theorem vgaDisplayStr_eq : ∀ (s : Console) (str : List (BitVec 8)),
    s.vgaDisplayStr str = (strChars str).foldl vgaDisplayChar s
  | s, [] => rfl
  | s, c :: str => by
    rw [vgaDisplayStr]
    split_ifs with hc
    · rw [hc]
      rfl
    · rw [vgaDisplayStr_eq, strChars_cons hc, List.foldl_cons]

/-- A call that displays. -/
inductive VgaCall where
  | char (c : BitVec 8)
  | str (s : List (BitVec 8))

/-- The bytes a call displays. -/
def VgaCall.bytes : VgaCall → List (BitVec 8)
  | char c => [c]
  | str s => strChars s

/-- The effect of a call. -/
def VgaCall.run (s : Console) : VgaCall → Console
  | char c => s.vgaDisplayChar c
  | str text => s.vgaDisplayStr text

/-- Calls display their bytes, one after the other. -/
theorem foldl_run (calls : List VgaCall) (s : Console) :
    calls.foldl VgaCall.run s = (calls.flatMap VgaCall.bytes).foldl vgaDisplayChar s := by
  induction calls generalizing s with
  | nil => rfl
  | cons call calls ih =>
    rw [List.foldl_cons, ih, List.flatMap_cons, List.foldl_append]
    cases call with
    | char c => rfl
    | str text => rw [VgaCall.run, vgaDisplayStr_eq, VgaCall.bytes]

/-- After `VGA_clear` the display shows the blank page. -/
theorem shows_vgaClear (s : Console) :
    s.vgaClear.vga.Shows .blank ∧ Vga.WritesInside s.vga s.vgaClear.vga := by
  obtain ⟨hdraw, hcells⟩ := Vga.clearRows_spec (v := s.vga) (n := 25) (by omega)
  unfold vgaClear
  rw [show vgaHeight.toNat = 25 from rfl]
  generalize (List.range 25).foldl Vga.clearRow s.vga = t at hdraw hcells ⊢
  refine ⟨⟨⟨rfl, rfl, fun y hy x hx => ?_, fun _ _ _ => rfl⟩, Nat.zero_lt_succ _⟩, hdraw.writes⟩
  refine (congrArg _ (hcells (80 * y + x) (by omega))).trans ?_
  rw [Vga.vgaCell_low]
  rfl

/-- A display that shows a page still shows it after more characters. -/
theorem shows_foldl {s : Console} {p : Page} (h : s.vga.Shows p) : ∀ bs : List (BitVec 8),
    (bs.foldl vgaDisplayChar s).vga.Shows (bs.foldl Page.put p) ∧
      Vga.WritesInside s.vga (bs.foldl vgaDisplayChar s).vga := by
  intro bs
  induction bs using List.reverseRecOn with
  | nil => exact ⟨h, .refl _⟩
  | append_singleton bs c ih =>
    obtain ⟨hshows, hwrites⟩ := ih
    rw [List.foldl_append, List.foldl_append, List.foldl_cons, List.foldl_nil, List.foldl_cons,
      List.foldl_nil, vgaDisplayChar_eq]
    obtain ⟨hshows', hwrites'⟩ := hshows.display c
    exact ⟨hshows', hwrites.trans hwrites'⟩

/-- The console is a window on an unbounded page. After `VGA_clear` and any calls, and after
each character of them : the display was written inside its 2000 cells only, the cursor is on
it, and its characters are the 25 rows of the page that end at the cursor's row, or the first
25. -/
theorem vga_shows_page (s : Console) (calls : List VgaCall) :
    calls.foldl VgaCall.run s.vgaClear =
      (calls.flatMap VgaCall.bytes).foldl vgaDisplayChar s.vgaClear ∧
    ∀ bs, bs <+: calls.flatMap VgaCall.bytes →
      Vga.WritesInside s.vga (bs.foldl vgaDisplayChar s.vgaClear).vga ∧
      (bs.foldl vgaDisplayChar s.vgaClear).vga.cursorX.toNat < 80 ∧
      (bs.foldl vgaDisplayChar s.vgaClear).vga.cursorY.toNat < 25 ∧
      ∀ y < 25, ∀ x < 80,
        ((bs.foldl vgaDisplayChar s.vgaClear).vga.memory
          (vgaIndex (BitVec.ofNat 32 x) (BitVec.ofNat 32 y))).setWidth 8 =
        (bs.foldl Page.put .blank).cells ((bs.foldl Page.put .blank).row - 24 + y) x := by
  refine ⟨foldl_run calls _, fun bs _ => ?_⟩
  obtain ⟨hclear, hwrites⟩ := shows_vgaClear s
  obtain ⟨hshows, hwrites'⟩ := shows_foldl hclear bs
  refine ⟨hwrites.trans hwrites', ?_, ?_, fun y hy x hx => ?_⟩
  · rw [hshows.window.cursorX]
    exact hshows.col
  · have hcy := hshows.window.cursorY
    have htop : (bs.foldl Page.put .blank).top = (bs.foldl Page.put .blank).row - 24 := rfl
    omega
  · rw [vgaIndex_ofNat]
    exact hshows.window.cells y hy x hx

end Console

end KernelDev
