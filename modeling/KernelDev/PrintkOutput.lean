import KernelDev.PrintkDigits
import KernelDev.VgaText

/-!
# What printing does

Everything `printk.c` prints goes out in chunks, each shown character by character on the display
and offered whole to the serial port (`Console.Prints`). `print_char` is a chunk of one character
(`printChar_prints`), `print_str` one of the characters before the NUL (`printChars_prints`), and a
number goes out as one chunk, its text.

The serial port gets a pointer and a length, of which the length has become an `int`; `writeChunk`
is that call, and `write_congr` says that it looks at no more than the bytes of the chunk. So a
chunk is a list of bytes, whether it came from a string of the caller, from a literal or from the
buffer for digits.

`Prints` says nothing about the buffer for digits and `int_len`, which are the business of the
counts; what it says of the display, of the port and of the interrupt flag is all that later proofs
need of a call that prints, and it composes (`Prints.trans`).
-/

namespace KernelDev

namespace Uart

theorem enqueueFrom_congr (u : Uart) {buff buff' : ℕ → BitVec 8} {n : ℕ}
    (h : ∀ i < n, buff i = buff' i) : u.enqueueFrom buff n = u.enqueueFrom buff' n := by
  unfold enqueueFrom
  refine List.foldl_ext _ _ _ fun u i hi => ?_
  rw [h i (List.mem_range.1 hi)]

/-- Only the first `len` bytes of the buffer matter. -/
theorem write_congr (u : Uart) {buff buff' : ℕ → BitVec 8} {len : ℤ}
    (h : ∀ i < len.toNat, buff i = buff' i) : u.write buff len = u.write buff' len := by
  have hle : u.bytesToCopy len ≤ len := by
    unfold bytesToCopy
    dsimp only
    split_ifs <;> omega
  rw [write, write, u.enqueueFrom_congr fun i hi => h i (by omega)]

/-- `SER_write` on a chunk, with its length as an `int`. -/
def writeChunk (u : Uart) (bs : List (BitVec 8)) : Uart :=
  u.write (fun i => bs.getD i 0) (BitVec.ofNat 32 bs.length).toInt

end Uart

namespace Console

variable {s s' s'' : Console} {chunks chunks' : List (List (BitVec 8))}

/-- From `s` to `s'` the chunks were printed, and the digit buffer was used. -/
structure Prints (s s' : Console) (chunks : List (List (BitVec 8))) : Prop where
  vga : s'.vga = chunks.flatten.foldl Vga.display s.vga
  uart : s'.uart = chunks.foldl Uart.writeChunk s.uart
  intFlag : s'.intFlag = s.intFlag

theorem Prints.refl (s : Console) : Prints s s [] :=
  ⟨rfl, rfl, rfl⟩

theorem Prints.trans (h : Prints s s' chunks) (h' : Prints s' s'' chunks') :
    Prints s s'' (chunks ++ chunks') := by
  refine ⟨?_, ?_, h'.intFlag.trans h.intFlag⟩
  · rw [h'.vga, h.vga, List.flatten_append, List.foldl_append]
  · rw [h'.uart, h.uart, List.foldl_append]

/-- All chunks are shown, one after the other. -/
theorem Prints.shown (h : Prints s s' chunks) : s'.vga.shown = s.vga.shown ++ chunks.flatten := by
  rw [h.vga, Vga.shown_foldl]

theorem foldl_vgaDisplayChar (s : Console) (bs : List (BitVec 8)) :
    bs.foldl vgaDisplayChar s = { s with vga := bs.foldl Vga.display s.vga } := by
  induction bs generalizing s with
  | nil => rfl
  | cons c bs ih => rw [List.foldl_cons, vgaDisplayChar_eq, ih, List.foldl_cons]

/-- `print_char` prints a chunk of one character. -/
theorem printChar_prints (s : Console) (c : BitVec 8) :
    Prints s (s.printChar c) [[c]] ∧ (s.printChar c).digits = s.digits := by
  have hwrite : ∀ u : Uart, u.write (fun _ => c) 1 = u.writeChunk [c] := fun u =>
    u.write_congr fun i hi => by
      obtain rfl : i = 0 := by omega
      rfl
  rw [printChar, serPrintChar, serWrite_eq, vgaDisplayChar_eq]
  exact ⟨⟨rfl, hwrite _, rfl⟩, rfl⟩

/-- `print_str` prints a chunk of the characters before the NUL. -/
theorem printChars_prints (s : Console) (str : List (BitVec 8)) :
    Prints s (s.printChars str) [strChars str] ∧ (s.printChars str).digits = s.digits := by
  have hsame : ∀ i < (strChars str).length, str.getD i 0 = (strChars str).getD i 0 := by
    intro i hi
    obtain ⟨t, ht⟩ : strChars str <+: str := List.takeWhile_prefix _
    rw [List.getD_eq_getElem?_getD, List.getD_eq_getElem?_getD]
    conv_lhs => rw [← ht, List.getElem?_append_left hi]
  have hwrite : ∀ u : Uart, u.write (fun i => str.getD i 0) (BitVec.ofNat 32 (strlen str)).toInt =
      u.writeChunk (strChars str) := fun u => by
    rw [strlen_eq]
    refine u.write_congr fun i hi => hsame i ?_
    rw [BitVec.toInt_eq_toNat_cond, BitVec.toNat_ofNat] at hi
    split_ifs at hi <;> omega
  rw [printChars, serPrintStr, serWrite_eq, vgaDisplayStr_eq, foldl_vgaDisplayChar]
  exact ⟨⟨by simp, hwrite _, rfl⟩, rfl⟩

theorem printStr_some (s : Console) (str : List (BitVec 8)) :
    s.printStr (some str) = s.printChars str :=
  rfl

/-- A conversion prints the text of its number. -/
theorem printIntToString_prints (s : Console) (value : BitVec 64) (base : BitVec 32)
    (hb : 2 ≤ base.toNat) (hb' : base.toNat ≤ 36) :
    ∃ s', s.printIntToString value base = some s' ∧
      Prints s s' [DigitBuf.intText value base] ∧
      s'.digits.intLen = if value = 0 then s.digits.intLen else
        BitVec.ofNat 32 (DigitBuf.intText value base).length := by
  obtain ⟨d, hd, hreads, hlen, -⟩ := s.digits.intToString_spec value hb hb'
  obtain ⟨hprints, hdigits⟩ := printChars_prints { s with digits := d } d.str
  rw [← printStr_some] at hprints hdigits
  rw [hreads.str (DigitBuf.zero_notMem_intText value hb hb')] at hprints
  refine ⟨_, by rw [printIntToString, hd]; rfl, ⟨hprints.vga, hprints.uart, hprints.intFlag⟩,
    ?_⟩
  rw [hdigits, hlen]

/-- So does the unsigned conversion, which always sets `int_len`. -/
theorem printUintToString_prints (s : Console) (value : BitVec 64) (base : BitVec 32)
    (hb : 2 ≤ base.toNat) (hb' : base.toNat ≤ 36) :
    ∃ s', s.printUintToString value base = some s' ∧
      Prints s s' [numeralText base.toNat value.toNat] ∧
      s'.digits.intLen = BitVec.ofNat 32 (numeralText base.toNat value.toNat).length := by
  obtain ⟨d, hd, hreads, hlen, -⟩ := s.digits.uintToString_spec value hb hb'
  obtain ⟨hprints, hdigits⟩ := printChars_prints { s with digits := d } d.str
  rw [← printStr_some] at hprints hdigits
  rw [hreads.str (zero_notMem_numeralText hb hb')] at hprints
  refine ⟨_, by rw [printUintToString, hd]; rfl, ⟨hprints.vga, hprints.uart, hprints.intFlag⟩,
    ?_⟩
  rw [hdigits, hlen]

end Console

end KernelDev
