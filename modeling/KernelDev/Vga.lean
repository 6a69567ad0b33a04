import KernelDev.Console
import Mathlib.Data.List.Basic

/-!
# `vga.c`

The text display : 25 rows of 80 cells, each a character byte below an attribute byte. All
coordinates are C `int`s, and so is the index of a cell, which `vga_index` computes from a row and
a column.

`VGA_display_char` goes through its `switch` first (`place`) : a newline, a carriage return and a
tab move the cursor, and any other character is written at the cursor, which then moves on. Next it
looks whether the cursor has left its row (`wrap`), and at last scrolls if it has left the screen :
`vga_scroll` copies the rows up in place, from the first one on, and clears the last one. The loops
over rows and cells are folds over their counters, in the order of the source.

A `char` is signed : the cell of a character above `0x7f` is the `or` of the colour and of a word
whose high bits are all set (`vgaCell`), so the attribute of such a cell is lost, while its low
byte is the character. `VGA_clear` fills the display with spaces and puts the cursor into the
corner, and `VGA_display_str` displays the characters before the first NUL. `VGA_display_char` and
`vga_scroll` turn interrupts off, which is for one character at a time.
-/

namespace KernelDev

/-- `VGA_WIDTH` -/
def vgaWidth : BitVec 32 := 80

/-- `VGA_HEIGHT` -/
def vgaHeight : BitVec 32 := 25

/-- `VGA_DEFAULT_COLOR`, bright white on black. -/
def vgaDefaultColor : BitVec 32 := (0 <<< 4) ||| 15

/-- The cell `VGA_DEFAULT_COLOR << 8 | c`. `char` is signed, so `c` is extended with its sign. -/
def vgaCell (c : BitVec 8) : BitVec 16 :=
  ((vgaDefaultColor <<< 8) ||| c.signExtend 32).setWidth 16

/-- `vga_index` -/
def vgaIndex (x y : BitVec 32) : BitVec 32 :=
  y * vgaWidth + x

namespace Vga

/-- Write a cell of display memory. -/
def poke (v : Vga) (i : BitVec 32) (cell : BitVec 16) : Vga :=
  { v with memory := Function.update v.memory i cell, writes := v.writes ++ [i] }

/-- The loop `for (x = 0; x < VGA_WIDTH; x++)` over the cells of row `y`, up to `n`. -/
def setCells (v : Vga) (y : ℕ) (cell : Vga → ℕ → BitVec 16) (n : ℕ) : Vga :=
  (List.range n).foldl
    (fun v x => v.poke (vgaIndex (BitVec.ofNat 32 x) (BitVec.ofNat 32 y)) (cell v x)) v

/-- Copy row `y + 1` to row `y`. -/
def copyRow (v : Vga) (y : ℕ) : Vga :=
  v.setCells y
    (fun v x => v.memory (vgaIndex (BitVec.ofNat 32 x) (BitVec.ofNat 32 (y + 1)))) vgaWidth.toNat

/-- Fill row `y` with spaces. -/
def clearRow (v : Vga) (y : ℕ) : Vga :=
  v.setCells y (fun _ _ => vgaCell 0x20) vgaWidth.toNat

/-- The body of `vga_scroll`: every row moves up, and the last one is cleared. -/
def scrollRows (v : Vga) : Vga :=
  ((List.range (vgaHeight.toNat - 1)).foldl copyRow v).clearRow (vgaHeight.toNat - 1)

/-- The `switch` of `VGA_display_char`. -/
def place (v : Vga) (c : BitVec 8) : Vga :=
  if c = 0x0a then { v with cursorX := 0, cursorY := v.cursorY + 1 }
  else if c = 0x0d then { v with cursorX := 0 }
  else if c = 0x09 then { v with cursorX := (v.cursorX + 8) &&& ~~~7 }
  else
    let v := v.poke (vgaIndex v.cursorX v.cursorY) (vgaCell c)
    { v with cursorX := v.cursorX + 1 }

/-- The line wrap of `VGA_display_char`. -/
def wrap (v : Vga) : Vga :=
  if vgaWidth.sle v.cursorX then { v with cursorX := 0, cursorY := v.cursorY + 1 } else v

end Vga

namespace Console

/-- `vga_scroll` -/
def vgaScroll (s : Console) : Console :=
  s.critical fun s => { s with vga := s.vga.scrollRows }

/-- `VGA_clear` -/
def vgaClear (s : Console) : Console :=
  let v := (List.range vgaHeight.toNat).foldl Vga.clearRow s.vga
  { s with vga := { v with cursorX := 0, cursorY := 0 } }

/-- `VGA_display_char` -/
def vgaDisplayChar (s : Console) (c : BitVec 8) : Console :=
  s.critical fun s =>
    let s := { s with vga := { (s.vga.place c).wrap with shown := s.vga.shown ++ [c] } }
    if vgaHeight.sle s.vga.cursorY then
      let s := s.vgaScroll
      { s with vga := { s.vga with cursorY := vgaHeight - 1 } }
    else s

/-- `VGA_display_str`, on the bytes from `str` to the terminating NUL. -/
def vgaDisplayStr (s : Console) : List (BitVec 8) → Console
  | [] => s
  | c :: str => if c = 0 then s else (s.vgaDisplayChar c).vgaDisplayStr str

end Console

end KernelDev
