import KernelDev.CString
import KernelDev.Lib.Loop
import KernelDev.Serial
import KernelDev.Vga

/-!
# `printk.c`

Numbers are written into the static buffer `print_buf` and printed from there; their length goes to
`printk` through the static `int_len`. `int_to_string` finds the number of digits and the largest
power of the base first, and then writes the digits from the first one on; for zero it returns at
once, without setting `int_len`. `uint_to_string` writes them from the last one on, and sets
`int_len` for zero too. Their loops are `Loop.run` with a number of tests that is always enough, so
that a conversion gives nothing if a loop did not end, which the proofs exclude.

A `long long` is a `BitVec 64`, converted from its argument type as C does : `print_int` extends
the sign, and `print_uint`, which passes an `unsigned` on as a `long long`, extends with zeros. The
arguments of `printk` are words of 8 bytes, or strings (`VaArg`). `print_char` and `print_str`
write to the display first and then to the serial port, whose result they do not look at; the
length of a string becomes an `int` on the way (`serPrintStr`).

`printkLoop` goes over the format character by character. A `%` and a length modifier lead to the
`switch` (`directive`), in which a character that is no conversion prints nothing and takes no
argument. The result counts what was printed, for a number by means of `int_len`, and for a string
by `strlen` of its pointer, which for `NULL` is the `strlen` of address zero. A format that ends
without a NUL, or an argument that is not there, gives nothing.
-/

namespace KernelDev

/-- `PRINT_BUF_LEN` -/
def printBufLen : ℕ := 65

/-- A character constant. -/
def ch (c : Char) : BitVec 8 :=
  BitVec.ofNat 8 c.toNat

/-- A string literal, without its NUL. -/
def chars (s : String) : List (BitVec 8) :=
  s.toList.map ch

/-- The test count that ends every loop over the digits of a 64-bit number. -/
def digitTests : ℕ := 65

/-- `count_digits` -/
def countDigits (value : BitVec 64) (base : BitVec 32) : Option ℕ := do
  if value = 0 then return 1
  let (count, _) ← Loop.run (fun (_, value) => decide (value > 0))
    (fun (count, value) => (count + 1, value / base.signExtend 64)) digitTests ((0 : ℕ), value)
  return count

/-- The loop of `int_to_string` that finds the largest power of the base in the number. -/
def findPlaceValue (unsignedValue : BitVec 64) (base : BitVec 32) : Option (BitVec 64) :=
  Loop.run (fun placeValue => decide (placeValue ≤ unsignedValue / base.signExtend 64))
    (fun placeValue => placeValue * base.signExtend 64) digitTests 1

namespace DigitBuf

/-- `print_buf[i] = c` -/
def store (d : DigitBuf) (i : ℕ) (c : BitVec 8) : DigitBuf :=
  { d with printBuf := Function.update d.printBuf i c, stores := d.stores ++ [i] }

/-- The string in `print_buf`. -/
def str (d : DigitBuf) : List (BitVec 8) :=
  (List.range printBufLen).map d.printBuf

/-- The character of a digit in `int_to_string`, where it is an `int`. -/
def intDigit (digit : BitVec 32) : BitVec 8 :=
  if digit.slt 10 then ch '0' + digit.setWidth 8 else ch 'a' + digit.setWidth 8 - 10

/-- The character of a digit in `uint_to_string`, where it is `unsigned`. -/
def uintDigit (digit : BitVec 32) : BitVec 8 :=
  if digit < 10 then ch '0' + digit.setWidth 8 else ch 'a' + digit.setWidth 8 - 10

/-- The loop of `int_to_string` over the digits, from the most to the least significant. -/
def emitDigits (d : DigitBuf) (pos : ℕ) (unsignedValue placeValue : BitVec 64)
    (base : BitVec 32) : Option DigitBuf := do
  let (d, _) ← Loop.run (fun (_, _, _, placeValue) => decide (placeValue > 0))
    (fun (d, pos, unsignedValue, placeValue) =>
      let digit := (unsignedValue / placeValue).setWidth 32
      (store d pos (intDigit digit), pos + 1, unsignedValue % placeValue,
        placeValue / base.signExtend 64))
    digitTests (d, pos, unsignedValue, placeValue)
  return d

/-- `int_to_string`, which leaves the string in `print_buf`. -/
def intToString (d : DigitBuf) (value : BitVec 64) (base : BitVec 32) : Option DigitBuf := do
  let negative := value.slt 0 ∧ base = 10
  let unsignedValue := if negative then -value else value
  if unsignedValue = 0 then return (d.store 0 (ch '0')).store 1 0
  let numDigits ← countDigits unsignedValue base
  let totalLength := numDigits + if negative then 1 else 0
  let totalLength := if totalLength ≥ printBufLen then printBufLen - 1 else totalLength
  let d := d.store totalLength 0
  let d := if negative then d.store 0 (ch '-') else d
  let placeValue ← findPlaceValue unsignedValue base
  let d ← d.emitDigits (if negative then 1 else 0) unsignedValue placeValue base
  return { d with intLen := BitVec.ofNat 32 totalLength }

/-- The loop of `uint_to_string` over the digits, from the least to the most significant. -/
def fillDigits (d : DigitBuf) (pos : ℤ) (value : BitVec 64) (base : BitVec 32) :
    Option DigitBuf := do
  let (d, _) ← Loop.run (fun (_, pos, value) => decide (value > 0) && decide (pos ≥ 0))
    (fun (d, pos, value) =>
      let digit := (value % base.signExtend 64).setWidth 32
      (store d pos.toNat (uintDigit digit), pos - 1, value / base.signExtend 64))
    digitTests (d, pos, value)
  return d

/-- `uint_to_string`, which leaves the string in `print_buf`. -/
def uintToString (d : DigitBuf) (value : BitVec 64) (base : BitVec 32) : Option DigitBuf := do
  if value = 0 then return { (d.store 0 (ch '0')).store 1 0 with intLen := 1 }
  let (numDigits, _) ← Loop.run (fun (_, temp) => decide (temp > 0))
    (fun (numDigits, temp) => (numDigits + 1, temp / base.signExtend 64))
    digitTests ((0 : ℕ), value)
  let numDigits := if numDigits ≥ printBufLen then printBufLen - 1 else numDigits
  let d := { d with intLen := BitVec.ofNat 32 numDigits }.store numDigits 0
  d.fillDigits (numDigits - 1) value base

end DigitBuf

/-- An argument of `printk` : an integer or pointer in its 8 bytes, or the string that a
`char *` points to, unless it is `NULL`. -/
inductive VaArg where
  | word (w : BitVec 64)
  | str (s : Option (List (BitVec 8)))

namespace Console

/-- `ser_print_char` -/
def serPrintChar (s : Console) (c : BitVec 8) : Console :=
  (s.serWrite (fun _ => c) 1).1

/-- `ser_print_str` on a string that is not `NULL`. The length becomes an `int`. -/
def serPrintStr (s : Console) (str : List (BitVec 8)) : Console :=
  (s.serWrite (fun i => str.getD i 0) (BitVec.ofNat 32 (strlen str)).toInt).1

/-- `print_char` -/
def printChar (s : Console) (c : BitVec 8) : Console :=
  (s.vgaDisplayChar c).serPrintChar c

/-- `print_str` on a string that is not `NULL`. -/
def printChars (s : Console) (str : List (BitVec 8)) : Console :=
  (s.vgaDisplayStr str).serPrintStr str

/-- `print_str` -/
def printStr (s : Console) (str : Option (List (BitVec 8))) : Console :=
  s.printChars (str.getD (chars "(null)"))

/-- `print_str(int_to_string(value, base))` -/
def printIntToString (s : Console) (value : BitVec 64) (base : BitVec 32) : Option Console := do
  let d ← s.digits.intToString value base
  return { s with digits := d }.printStr (some d.str)

/-- `print_str(uint_to_string(value, base))` -/
def printUintToString (s : Console) (value : BitVec 64) (base : BitVec 32) : Option Console := do
  let d ← s.digits.uintToString value base
  return { s with digits := d }.printStr (some d.str)

/-- `print_int` -/
def printInt (s : Console) (n : BitVec 32) : Option Console :=
  s.printIntToString (n.signExtend 64) 10

/-- `print_uint` -/
def printUint (s : Console) (n : BitVec 32) : Option Console :=
  s.printIntToString (n.setWidth 64) 10

/-- `print_hex` -/
def printHex (s : Console) (n : BitVec 32) : Option Console :=
  s.printIntToString (n.setWidth 64) 16

/-- `print_short` -/
def printShort (s : Console) (n : BitVec 16) : Option Console :=
  s.printIntToString (n.signExtend 64) 10

/-- `print_ushort` -/
def printUshort (s : Console) (n : BitVec 16) : Option Console :=
  s.printIntToString (n.setWidth 64) 10

/-- `print_short_hex` -/
def printShortHex (s : Console) (n : BitVec 16) : Option Console :=
  s.printIntToString (n.setWidth 64) 16

/-- `print_long` -/
def printLong (s : Console) (n : BitVec 64) : Option Console :=
  s.printIntToString n 10

/-- `print_ulong` -/
def printUlong (s : Console) (n : BitVec 64) : Option Console :=
  s.printUintToString n 10

/-- `print_ulonglong` -/
def printUlonglong (s : Console) (n : BitVec 64) : Option Console :=
  s.printUintToString n 10

/-- `print_long_hex` -/
def printLongHex (s : Console) (n : BitVec 64) : Option Console :=
  s.printIntToString n 16

/-- `print_pointer` -/
def printPointer (s : Console) (p : BitVec 64) : Option Console :=
  (s.printStr (some (chars "0x"))).printIntToString p 16

/-! ## The format -/

/-- The `case 'd'` of `printk`. -/
def caseD (s : Console) (lenMod : ℕ) (arg : BitVec 64) : Option Console :=
  if lenMod = 1 then s.printShort ((arg.setWidth 32).setWidth 16)
  else if lenMod = 2 then s.printLong arg
  else if lenMod = 3 then s.printLong arg
  else s.printInt (arg.setWidth 32)

/-- The `case 'u'` of `printk`. -/
def caseU (s : Console) (lenMod : ℕ) (arg : BitVec 64) : Option Console :=
  if lenMod = 1 then s.printUshort ((arg.setWidth 32).setWidth 16)
  else if lenMod = 2 then s.printUlong arg
  else if lenMod = 3 then s.printUlonglong arg
  else s.printUint (arg.setWidth 32)

/-- The `case 'x'` of `printk`. -/
def caseX (s : Console) (lenMod : ℕ) (arg : BitVec 64) : Option Console :=
  if lenMod = 1 then s.printShortHex ((arg.setWidth 32).setWidth 16)
  else if lenMod = 2 then s.printLongHex arg
  else if lenMod = 3 then s.printLongHex arg
  else s.printHex (arg.setWidth 32)

/-- The length modifier that a character stands for, `0` for none. -/
def lenModOf (c : BitVec 8) : ℕ :=
  if c = ch 'h' then 1 else if c = ch 'l' then 2 else if c = ch 'q' then 3 else 0

/-- The `switch` of `printk` : the state, `num_printed` and the arguments left after the
conversion `c`. A character that is no conversion prints nothing. -/
def directive (s : Console) (numPrinted : BitVec 32) (lenMod : ℕ) (c : BitVec 8)
    (args : List VaArg) : Option (Console × BitVec 32 × List VaArg) :=
  if c = ch '%' then some (s.printChar (ch '%'), numPrinted + 1, args)
  else if c = ch 'd' then do
    let .word arg :: args := args | none
    let s ← s.caseD lenMod arg
    return (s, numPrinted + s.digits.intLen, args)
  else if c = ch 'u' then do
    let .word arg :: args := args | none
    let s ← s.caseU lenMod arg
    return (s, numPrinted + s.digits.intLen, args)
  else if c = ch 'x' then do
    let .word arg :: args := args | none
    let s ← s.caseX lenMod arg
    return (s, numPrinted + s.digits.intLen, args)
  else if c = ch 'c' then do
    let .word arg :: args := args | none
    return (s.printChar (arg.setWidth 8), numPrinted + 1, args)
  else if c = ch 'p' then do
    let .word arg :: args := args | none
    let s ← s.printPointer arg
    return (s, numPrinted + 2 + s.digits.intLen, args)
  else if c = ch 's' then do
    let .str str :: args := args | none
    let s := s.printStr str
    let len := match str with
      | some str => strlen str
      | none => strlenAt s.uart.mem 0 (2 ^ 64)
    return (s, numPrinted + BitVec.ofNat 32 len, args)
  else some (s, numPrinted, args)

/-- The loop of `printk`. The format is the memory from `fmt` on, and a read beyond it, or an
argument that is not there, gives nothing. -/
def printkLoop (s : Console) (numPrinted : BitVec 32) :
    List (BitVec 8) → List VaArg → Option (Console × BitVec 32)
  | [], _ => none
  | c :: fmt, args =>
    if c = 0 then some (s, numPrinted)
    else if c ≠ ch '%' then (s.printChar c).printkLoop (numPrinted + 1) fmt args
    else
      match fmt with
      | [] => none
      | c :: fmt =>
        if lenModOf c = 0 then do
          let (s, numPrinted, args) ← s.directive numPrinted 0 c args
          s.printkLoop numPrinted fmt args
        else
          match fmt with
          | [] => none
          | c' :: fmt => do
            let (s, numPrinted, args) ← s.directive numPrinted (lenModOf c) c' args
            s.printkLoop numPrinted fmt args

/-- The NUL ends the format. -/
theorem printkLoop_zero (s : Console) (n : BitVec 32) (fmt : List (BitVec 8))
    (args : List VaArg) : s.printkLoop n (0 :: fmt) args = some (s, n) := by
  rw [printkLoop.eq_def]
  exact if_pos rfl

/-- A character that is not `%`. -/
theorem printkLoop_lit {c : BitVec 8} (hend : c ≠ 0) (hlit : c ≠ ch '%') (s : Console)
    (n : BitVec 32) (fmt : List (BitVec 8)) (args : List VaArg) :
    s.printkLoop n (c :: fmt) args = (s.printChar c).printkLoop (n + 1) fmt args := by
  rw [printkLoop.eq_def]
  dsimp only
  rw [if_neg hend, if_pos hlit]

/-- A conversion without a modifier. -/
theorem printkLoop_conv {c : BitVec 8} (hmod : lenModOf c = 0) (s : Console) (n : BitVec 32)
    (fmt : List (BitVec 8)) (args : List VaArg) :
    s.printkLoop n (ch '%' :: c :: fmt) args =
      (s.directive n 0 c args).bind fun (s, n, args) => s.printkLoop n fmt args := by
  rw [printkLoop.eq_def]
  exact if_pos hmod

/-- A conversion with a modifier. -/
theorem printkLoop_convMod {m : BitVec 8} (hmod : lenModOf m ≠ 0) (s : Console) (n : BitVec 32)
    (c : BitVec 8) (fmt : List (BitVec 8)) (args : List VaArg) :
    s.printkLoop n (ch '%' :: m :: c :: fmt) args =
      (s.directive n (lenModOf m) c args).bind fun (s, n, args) => s.printkLoop n fmt args := by
  rw [printkLoop.eq_def]
  exact if_neg hmod

/-- The format ends behind a modifier. -/
theorem printkLoop_end {m : BitVec 8} (hmod : lenModOf m ≠ 0) (s : Console) (n : BitVec 32)
    (args : List VaArg) : s.printkLoop n [ch '%', m] args = none := by
  rw [printkLoop.eq_def]
  exact if_neg hmod

/-- `printk`, with its result. -/
def printk (s : Console) (fmt : List (BitVec 8)) (args : List VaArg) :
    Option (Console × BitVec 32) :=
  s.printkLoop 0 fmt args

end Console

end KernelDev
