import KernelDev.VgaText

/-!
# The colours on the display

Every cell that the driver writes is `VGA_DEFAULT_COLOR << 8 | c`, and scrolling copies such cells.
A `char` is extended with its sign before the `or`, so a byte from `0x80` up sets all bits of the
attribute above it : its cell has the background of its text. The attribute of a cell is then a
function of its character (`Drawn`), and the characters are those of the page that the display
shows.

Two questions are answered by `vga_keeps_colour`, for every list of calls after `VGA_clear`. A
character on the display is always a space or one that was displayed. All cells have the default
colour after each character of the calls just if no byte from `0x80` up is displayed; and at the
end of the calls just if none is on the part of the page that is in view. For the first of these a
byte is followed to its cell : it is on the page right behind its own call (`put_cells`), in one of
the last two rows, so its cell is on the display then (`not_coloured`). Later it may scroll out of
view, which is why the second condition is another one.

A newline or a tab does not draw its own character, and bytes below `0x80` draw with the default
colour (`vgaAttribute_eq_default`).
-/

namespace KernelDev

/-- The attribute byte of a cell, which is above its character. -/
def vgaAttribute (cell : BitVec 16) : BitVec 8 :=
  (cell >>> 8).setWidth 8

theorem vgaAttribute_vgaCell : ∀ c : BitVec 8,
    vgaAttribute (vgaCell c) = if c < 0x80 then 0x0F else 0xFF := by
  decide

/-- A cell has the default colour exactly if its byte is below `0x80`. -/
theorem vgaAttribute_eq_default {c : BitVec 8} : vgaAttribute (vgaCell c) = 0x0F ↔ c < 0x80 := by
  rw [vgaAttribute_vgaCell]
  split_ifs with h
  · exact iff_of_true rfl h
  · exact iff_of_false (by decide) h

namespace Page

/-- A character on the page is a space or was put there. -/
theorem cells_place (p : Page) (c : BitVec 8) (r x : ℕ) :
    (p.place c).cells r x = c ∨ (p.place c).cells r x = p.cells r x := by
  unfold place
  split_ifs
  · exact Or.inr rfl
  · exact Or.inr rfl
  · exact Or.inr rfl
  · exact ite_eq_or_eq _ _ _

theorem cells_wrap (p : Page) : p.wrap.cells = p.cells := by
  unfold wrap
  split_ifs <;> rfl

/-- A character on the page is a space or was put there. -/
theorem cells_foldl (bs : List (BitVec 8)) (r x : ℕ) :
    (bs.foldl put blank).cells r x = 0x20 ∨ (bs.foldl put blank).cells r x ∈ bs := by
  induction bs using List.reverseRecOn with
  | nil => exact Or.inl rfl
  | append_singleton bs c ih =>
    rw [List.foldl_append, List.foldl_cons, List.foldl_nil, put, cells_wrap]
    rcases cells_place (bs.foldl put blank) c r x with h | h
    · rw [h]
      exact Or.inr (List.mem_append_right bs (List.mem_singleton_self c))
    · rw [h]
      exact ih.imp_right (List.mem_append_left [c])

/-- A character that does not move the cursor by itself is on the page behind it, in one of the
last two rows. -/
theorem put_cells {p : Page} {c : BitVec 8} (hc : 0x80 ≤ c) :
    (p.put c).cells p.row p.col = c ∧
      p.row ≤ (p.put c).row ∧ (p.put c).row ≤ p.row + 1 := by
  have hplace : p.place c = { p with
      cells := fun r x => if r = p.row ∧ x = p.col then c else p.cells r x
      col := p.col + 1 } := by
    unfold place
    rw [if_neg, if_neg, if_neg]
    all_goals
      rintro rfl
      exact absurd hc (by decide)
  refine ⟨?_, ?_⟩
  · rw [put, cells_wrap, hplace]
    exact if_pos ⟨rfl, rfl⟩
  · rw [put, hplace, wrap]
    split_ifs
    · exact ⟨Nat.le_succ _, Nat.le_refl _⟩
    · exact ⟨Nat.le_refl _, Nat.le_succ _⟩

end Page

namespace Vga

variable {v : Vga}

/-- The cell of column `x` and row `y`. -/
def cell (v : Vga) (x y : ℕ) : BitVec 16 :=
  v.memory (vgaIndex (BitVec.ofNat 32 x) (BitVec.ofNat 32 y))

/-- Every cell has the default colour, and a character that is a space or one of `bs`. -/
def Coloured (v : Vga) (bs : List (BitVec 8)) : Prop :=
  ∀ y < 25, ∀ x < 80, vgaAttribute (v.cell x y) = 0x0F ∧
    ((v.cell x y).setWidth 8 = 0x20 ∨ (v.cell x y).setWidth 8 ∈ bs)

/-- Every cell holds what the driver writes for some character. -/
def Drawn (v : Vga) : Prop :=
  ∀ k < 2000, ∃ c, v.cellAt k = vgaCell c

theorem Drawn.poke (h : v.Drawn) (i : BitVec 32) (c : BitVec 8) : (v.poke i (vgaCell c)).Drawn := by
  intro k hk
  by_cases hi : BitVec.ofNat 32 k = i
  · exact ⟨c, (congrArg _ hi).trans (Function.update_self i _ _)⟩
  · obtain ⟨c', hc'⟩ := h k hk
    exact ⟨c', (Function.update_of_ne hi _ _).trans hc'⟩

/-- The `switch` draws at most one cell. -/
theorem Drawn.place (h : v.Drawn) (c : BitVec 8) : (v.place c).Drawn := by
  unfold Vga.place
  split_ifs
  · exact h
  · exact h
  · exact h
  · exact h.poke _ c

theorem Drawn.wrap (h : v.Drawn) : v.wrap.Drawn := by
  unfold Vga.wrap
  split_ifs <;> exact h

/-- Scrolling copies cells and draws spaces. -/
theorem Drawn.scrollRows (h : v.Drawn) : v.scrollRows.Drawn := by
  intro k hk
  rw [scrollRows_spec.2 k hk]
  split_ifs with hlast
  · exact h (k + 80) (by omega)
  · exact ⟨0x20, rfl⟩

theorem Drawn.cursor (h : v.Drawn) (x y : BitVec 32) :
    ({ v with cursorX := x, cursorY := y } : Vga).Drawn :=
  h

/-- A character draws a cell, and may scroll. -/
theorem Drawn.display (h : v.Drawn) (c : BitVec 8) : (v.display c).Drawn := by
  have hlogged : ({ (v.place c).wrap with shown := v.shown ++ [c] } : Vga).Drawn :=
    (h.place c).wrap
  unfold Vga.display
  dsimp only
  split_ifs
  · exact hlogged.scrollRows.cursor _ _
  · exact hlogged

/-- A drawn cell is the cell of its character on the page. -/
theorem Shows.cell_eq {p : Page} (hshows : v.Shows p) (h : v.Drawn) {x y : ℕ} (hx : x < 80)
    (hy : y < 25) : v.cell x y = vgaCell (p.cells (p.top + y) x) := by
  obtain ⟨c, hc⟩ := h (80 * y + x) (by omega)
  have hchar := hshows.window.cells y hy x hx
  rw [hc, vgaCell_low] at hchar
  rw [cell, vgaIndex_ofNat, ← hchar]
  exact hc

end Vga

namespace Console

theorem drawn_vgaClear (s : Console) : s.vgaClear.vga.Drawn := by
  have hcells := (Vga.clearRows_spec (v := s.vga) (n := 25) (Nat.le_refl _)).2
  unfold vgaClear
  rw [show vgaHeight.toNat = 25 from rfl]
  generalize (List.range 25).foldl Vga.clearRow s.vga = t at hcells ⊢
  exact fun k hk => ⟨0x20, hcells k hk⟩

theorem drawn_foldl {s : Console} (h : s.vga.Drawn) (bs : List (BitVec 8)) :
    (bs.foldl vgaDisplayChar s).vga.Drawn := by
  induction bs generalizing s with
  | nil => exact h
  | cons c bs ih =>
    refine ih ?_
    rw [vgaDisplayChar_eq]
    exact h.display c

/-- After `VGA_clear` and some characters, the display is the window of the page cell by cell. -/
theorem cell_eq (s : Console) (bs : List (BitVec 8)) {x y : ℕ} (hx : x < 80) (hy : y < 25) :
    (bs.foldl vgaDisplayChar s.vgaClear).vga.cell x y =
      vgaCell ((bs.foldl Page.put .blank).cells ((bs.foldl Page.put .blank).top + y) x) :=
  (shows_foldl (shows_vgaClear s).1 bs).1.cell_eq (drawn_foldl (drawn_vgaClear s) bs) hx hy

theorem cell_char (s : Console) (bs : List (BitVec 8)) {x y : ℕ} (hx : x < 80) (hy : y < 25) :
    ((bs.foldl vgaDisplayChar s.vgaClear).vga.cell x y).setWidth 8 = 0x20 ∨
      ((bs.foldl vgaDisplayChar s.vgaClear).vga.cell x y).setWidth 8 ∈ bs := by
  rw [cell_eq s bs hx hy, Vga.vgaCell_low]
  exact Page.cells_foldl bs _ x

/-- The cells have the default colour exactly if no byte from `0x80` up is in view. -/
theorem coloured_iff (s : Console) (bs : List (BitVec 8)) :
    (bs.foldl vgaDisplayChar s.vgaClear).vga.Coloured bs ↔ ∀ y < 25, ∀ x < 80,
      (bs.foldl Page.put .blank).cells ((bs.foldl Page.put .blank).row - 24 + y) x < 0x80 := by
  refine forall₂_congr fun y hy => forall₂_congr fun x hx => ?_
  rw [and_iff_left (cell_char s bs hx hy), cell_eq s bs hx hy]
  exact vgaAttribute_eq_default

/-- When a byte from `0x80` up is displayed, its cell loses the default colour. -/
theorem not_coloured (s : Console) (bs : List (BitVec 8)) {c : BitVec 8} (hc : 0x80 ≤ c) :
    ¬ ((bs ++ [c]).foldl vgaDisplayChar s.vgaClear).vga.Coloured (bs ++ [c]) := by
  intro h
  have hcells := (coloured_iff s (bs ++ [c])).1 h
  have hcol := (shows_foldl (shows_vgaClear s).1 bs).1.col
  rw [List.foldl_append, List.foldl_cons, List.foldl_nil] at hcells
  generalize bs.foldl Page.put .blank = p at hcells hcol
  obtain ⟨hput, hle, hrow⟩ := Page.put_cells (p := p) hc
  have hlow := hcells (p.row - ((p.put c).row - 24)) (by omega) p.col hcol
  rw [show (p.put c).row - 24 + (p.row - ((p.put c).row - 24)) = p.row by omega, hput] at hlow
  exact (BitVec.not_lt.2 hc) hlow

/-- The colours of the display after `VGA_clear` and any calls. A character is always a space or
one that was displayed. All cells have the default colour after each character of the calls just
if no byte from `0x80` up is displayed, and at the end of the calls just if none is on the part
of the page that is in view. -/
theorem vga_keeps_colour (s : Console) (calls : List VgaCall) :
    calls.foldl VgaCall.run s.vgaClear =
      (calls.flatMap VgaCall.bytes).foldl vgaDisplayChar s.vgaClear ∧
    (∀ bs, bs <+: calls.flatMap VgaCall.bytes → ∀ y < 25, ∀ x < 80,
      ((bs.foldl vgaDisplayChar s.vgaClear).vga.cell x y).setWidth 8 = 0x20 ∨
        ((bs.foldl vgaDisplayChar s.vgaClear).vga.cell x y).setWidth 8 ∈ bs) ∧
    ((∀ bs, bs <+: calls.flatMap VgaCall.bytes →
        (bs.foldl vgaDisplayChar s.vgaClear).vga.Coloured bs) ↔
      ∀ c ∈ calls.flatMap VgaCall.bytes, c < 0x80) ∧
    ((calls.foldl VgaCall.run s.vgaClear).vga.Coloured (calls.flatMap VgaCall.bytes) ↔
      ∀ y < 25, ∀ x < 80,
        ((calls.flatMap VgaCall.bytes).foldl Page.put .blank).cells
          (((calls.flatMap VgaCall.bytes).foldl Page.put .blank).row - 24 + y) x < 0x80) := by
  refine ⟨foldl_run calls _, fun bs _ y hy x hx => cell_char s bs hx hy, ⟨fun h c hc => ?_,
    fun h bs hbs => ?_⟩, ?_⟩
  · obtain ⟨pre, post, hsplit⟩ := List.append_of_mem hc
    refine BitVec.not_le.1 fun hhigh => not_coloured s pre hhigh (h (pre ++ [c]) ⟨post, ?_⟩)
    rw [hsplit, List.append_assoc, List.singleton_append]
  · refine (coloured_iff s bs).2 fun y _ x _ => ?_
    rcases Page.cells_foldl bs ((bs.foldl Page.put .blank).row - 24 + y) x with hsp | hmem
    · rw [hsp]
      decide
    · exact h _ (hbs.subset hmem)
  · rw [foldl_run]
    exact coloured_iff s _

/-- `0x80` is drawn on a background of its own colour. -/
theorem vga_loses_colour :
    ¬ ∀ (s : Console) (calls : List VgaCall),
      (calls.foldl VgaCall.run s.vgaClear).vga.Coloured (calls.flatMap VgaCall.bytes) := by
  intro h
  have hcalls := h (.atStart (fun _ => 0) 0x1000 (by decide)) [.char 0x80]
  exact not_coloured _ [] (by decide : (0x80 : BitVec 8) ≤ 0x80) hcalls

end Console

end KernelDev
