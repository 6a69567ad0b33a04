import KernelDev.PrintkOutput

/-!
# Formats

A format of complete directives is a list of pieces : literal characters, `%%`, characters,
strings, pointers and integers with a length modifier. Each piece has its text in the format
(`Piece.fmt`), its arguments (`Piece.args`), and what it should print (`Piece.render`). For an
integer that is its value at the width of its directive, signed for `%d` and unsigned for `%u` and
`%x`, in decimal or hexadecimal, without leading zeros; a `NULL` string is `(null)`, and a pointer
is its hexadecimal numeral behind `0x`.

`printk_renders` says that `printk` prints just that, on the display and to the serial port, for
every list of pieces, whatever is behind the NUL of the format and behind the arguments. Its step
is `printkLoop_piece`, with a case for each kind of piece; the integers all go through
`caseInt_converts`, which goes over modifiers and conversions and in each case finds the C
conversion that leads from the argument to the `long long` that is printed. Widths below 64 are
extended with their sign (`converts_signed`) or with zeros (`converts_unsigned`, `converts_hex`).

`Piece.chunks` are the pieces of text that `print_char` and `print_str` get, of which a pointer has
two. `Piece.counted` is what a piece adds to the result of `printk`, which is not always the length
of what it prints, and depends on `int_len` before it.
-/

namespace KernelDev

/-- A length modifier. -/
inductive LenMod where
  | none | h | l | q

/-- An integer conversion. -/
inductive IntConv where
  | d | u | x

namespace LenMod

/-- The modifier in the format. -/
def fmt : LenMod → List (BitVec 8)
  | none => []
  | h => [ch 'h']
  | l => [ch 'l']
  | q => [ch 'q']

/-- The modifier as `printk` keeps it. -/
def num : LenMod → ℕ
  | none => 0
  | h => 1
  | l => 2
  | q => 3

/-- The width of the integer that the modifier stands for. -/
def width : LenMod → ℕ
  | none => 32
  | h => 16
  | l => 64
  | q => 64

end LenMod

/-- The conversion character. -/
def IntConv.ch : IntConv → BitVec 8
  | d => KernelDev.ch 'd'
  | u => KernelDev.ch 'u'
  | x => KernelDev.ch 'x'

/-- The decimal text of an integer. -/
def signedText (v : ℤ) : List (BitVec 8) :=
  if v < 0 then ch '-' :: numeralText 10 v.natAbs else numeralText 10 v.natAbs

/-- The text of an argument at the width of its directive. -/
def IntConv.render {w : ℕ} (v : BitVec w) : IntConv → List (BitVec 8)
  | d => signedText v.toInt
  | u => numeralText 10 v.toNat
  | x => numeralText 16 v.toNat

/-- A piece of a format, with its argument. -/
inductive Piece where
  | lit (c : BitVec 8) (h : c ≠ 0 ∧ c ≠ ch '%')
  | percent
  | char (arg : BitVec 64)
  | str (s : Option (List (BitVec 8)))
  | ptr (p : BitVec 64)
  | int (len : LenMod) (conv : IntConv) (arg : BitVec 64)

namespace Piece

/-- The piece in the format. -/
def fmt : Piece → List (BitVec 8)
  | lit c _ => [c]
  | percent => [ch '%', ch '%']
  | char _ => [ch '%', ch 'c']
  | str _ => [ch '%', ch 's']
  | ptr _ => [ch '%', ch 'p']
  | int len conv _ => ch '%' :: (len.fmt ++ [conv.ch])

/-- The arguments of the piece. -/
def args : Piece → List VaArg
  | lit _ _ => []
  | percent => []
  | char arg => [.word arg]
  | str s => [.str s]
  | ptr p => [.word p]
  | int _ _ arg => [.word arg]

/-- What the piece should print. -/
def render : Piece → List (BitVec 8)
  | lit c _ => [c]
  | percent => [ch '%']
  | char arg => [arg.setWidth 8]
  | str none => chars "(null)"
  | str (some s) => strChars s
  | ptr p => chars "0x" ++ numeralText 16 p.toNat
  | int len conv arg => conv.render (arg.setWidth len.width)

/-- The pieces that `print_char` and `print_str` get. -/
def chunks : Piece → List (List (BitVec 8))
  | ptr p => [chars "0x", numeralText 16 p.toNat]
  | p => [p.render]

/-- The text of the number in the piece. -/
def number : Piece → Option (List (BitVec 8))
  | ptr p => numeralText 16 p.toNat
  | int len conv arg => conv.render (arg.setWidth len.width)
  | _ => none

/-- The conversion is left to `uint_to_string`. -/
def usesUint : LenMod → IntConv → Bool
  | .l, .u => true
  | .q, .u => true
  | _, _ => false

/-- The piece is a zero that `int_to_string` converts, without setting `int_len`. -/
def forgets : Piece → Bool
  | ptr p => decide (p = 0)
  | int len conv arg => !usesUint len conv && decide (arg.setWidth len.width = 0)
  | _ => false

/-- `int_len` after the piece. -/
def lenAfter (intLen : BitVec 32) (p : Piece) : BitVec 32 :=
  match p.number with
  | some text => if p.forgets then intLen else BitVec.ofNat 32 text.length
  | none => intLen

/-- The serial port after the piece. -/
def uartAfter (u : Uart) (p : Piece) : Uart :=
  p.chunks.foldl Uart.writeChunk u

/-- What `printk` adds to `num_printed` for the piece. -/
def counted (intLen : BitVec 32) (u : Uart) (p : Piece) : BitVec 32 :=
  match p with
  | str (some s) => BitVec.ofNat 32 (strlen s)
  | str none => BitVec.ofNat 32 (strlenAt (p.uartAfter u).mem 0 (2 ^ 64))
  | ptr _ => 2 + p.lenAfter intLen
  | int _ _ _ => p.lenAfter intLen
  | _ => 1

end Piece

/-! ## Numbers -/

namespace DigitBuf

/-- A signed number in base 10. -/
theorem intText_signExtend {w : ℕ} (hw : w ≤ 64) (v : BitVec w) :
    intText (v.signExtend 64) 10 = signedText v.toInt := by
  rw [signedText, ← BitVec.toInt_signExtend_of_le hw]
  generalize v.signExtend 64 = u
  have hslt : u.slt 0 = true ↔ u.toInt < 0 := BitVec.slt_iff_toInt_lt
  have hcond := BitVec.toInt_eq_toNat_cond u
  have hlt := u.isLt
  by_cases hneg : u.toInt < 0
  · rw [intText, if_pos ⟨hslt.2 hneg, rfl⟩, if_pos hneg, BitVec.toNat_neg]
    split_ifs at hcond with hsmall
    · omega
    · rw [show (2 ^ 64 - u.toNat) % 2 ^ 64 = u.toInt.natAbs by omega]
  · rw [intText, if_neg fun h => hneg (hslt.1 h.1), if_neg hneg]
    split_ifs at hcond with hsmall
    · rw [show u.toNat = u.toInt.natAbs by omega]
      rfl
    · omega

/-- An unsigned number below `2 ^ 63` in base 10. -/
theorem intText_setWidth {w : ℕ} (hw : w < 64) (v : BitVec w) :
    intText (v.setWidth 64) 10 = numeralText 10 v.toNat := by
  have hlt : v.toNat < 2 ^ 63 := v.isLt.trans_le (Nat.pow_le_pow_right (by decide) (by omega))
  have hnat : (v.setWidth 64).toNat = v.toNat := by
    rw [BitVec.toNat_setWidth]
    omega
  have hpos : ¬ (v.setWidth 64).slt 0 = true := by
    rw [BitVec.slt_iff_toInt_lt, BitVec.toInt_eq_toNat_of_lt (by omega)]
    exact not_lt.2 (Int.natCast_nonneg _)
  rw [intText, if_neg fun h => hpos h.1, hnat]
  rfl

/-- A number in base 16, which is not signed. -/
theorem intText_hex {w : ℕ} (hw : w ≤ 64) (v : BitVec w) :
    intText (v.setWidth 64) 16 = numeralText 16 v.toNat := by
  have hlt : v.toNat < 2 ^ 64 := v.isLt.trans_le (Nat.pow_le_pow_right (by decide) hw)
  rw [intText, if_neg fun h => absurd h.2 (by decide), BitVec.toNat_setWidth,
    Nat.mod_eq_of_lt hlt]
  rfl

end DigitBuf

namespace Console

/-- From `s` to `s'` the text of a number was printed; `int_len` was not set if `zero`. -/
structure Converts (s s' : Console) (text : List (BitVec 8)) (zero : Bool) : Prop where
  /-- The text goes out as one chunk. -/
  prints : Prints s s' [text]
  intLen : s'.digits.intLen = if zero then s.digits.intLen else BitVec.ofNat 32 text.length

/-- `print_int`, `print_short` and `print_long`. -/
theorem converts_signed {w : ℕ} (hw : w ≤ 64) (s : Console) (v : BitVec w) :
    ∃ s', s.printIntToString (v.signExtend 64) 10 = some s' ∧
      Converts s s' (signedText v.toInt) (decide (v = 0)) := by
  obtain ⟨s', hs', hprints, hlen⟩ :=
    s.printIntToString_prints (v.signExtend 64) 10 (by decide) (by decide)
  rw [DigitBuf.intText_signExtend hw] at hprints hlen
  have hzero : v.signExtend 64 = 0 ↔ v = 0 := by
    rw [← BitVec.toInt_inj, BitVec.toInt_signExtend_of_le hw, ← BitVec.toInt_inj]
    simp
  refine ⟨s', hs', hprints, ?_⟩
  simp only [hlen, hzero, decide_eq_true_eq]

theorem setWidth_eq_zero {w : ℕ} (hw : w ≤ 64) (v : BitVec w) : v.setWidth 64 = 0 ↔ v = 0 := by
  have hlt : v.toNat < 2 ^ 64 := v.isLt.trans_le (Nat.pow_le_pow_right (by decide) hw)
  rw [← BitVec.toNat_inj, BitVec.toNat_setWidth, Nat.mod_eq_of_lt hlt, ← BitVec.toNat_inj]
  simp

theorem converts_unsigned {w : ℕ} (hw : w < 64) (s : Console) (v : BitVec w) :
    ∃ s', s.printIntToString (v.setWidth 64) 10 = some s' ∧
      Converts s s' (numeralText 10 v.toNat) (decide (v = 0)) := by
  obtain ⟨s', hs', hprints, hlen⟩ :=
    s.printIntToString_prints (v.setWidth 64) 10 (by decide) (by decide)
  rw [DigitBuf.intText_setWidth hw] at hprints hlen
  refine ⟨s', hs', hprints, ?_⟩
  simp only [hlen, setWidth_eq_zero hw.le, decide_eq_true_eq]

/-- The hexadecimal conversions. -/
theorem converts_hex {w : ℕ} (hw : w ≤ 64) (s : Console) (v : BitVec w) :
    ∃ s', s.printIntToString (v.setWidth 64) 16 = some s' ∧
      Converts s s' (numeralText 16 v.toNat) (decide (v = 0)) := by
  obtain ⟨s', hs', hprints, hlen⟩ :=
    s.printIntToString_prints (v.setWidth 64) 16 (by decide) (by decide)
  rw [DigitBuf.intText_hex hw] at hprints hlen
  refine ⟨s', hs', hprints, ?_⟩
  simp only [hlen, setWidth_eq_zero hw, decide_eq_true_eq]

/-- `print_ulong`. -/
theorem converts_uint (s : Console) (v : BitVec 64) :
    ∃ s', s.printUintToString v 10 = some s' ∧ Converts s s' (numeralText 10 v.toNat) false := by
  obtain ⟨s', hs', hprints, hlen⟩ :=
    s.printUintToString_prints v 10 (by decide) (by decide)
  exact ⟨s', hs', hprints, hlen⟩

/-! ## Directives -/

/-- The case of a conversion. -/
def caseInt (s : Console) (lenMod : ℕ) (arg : BitVec 64) : IntConv → Option Console
  | .d => s.caseD lenMod arg
  | .u => s.caseU lenMod arg
  | .x => s.caseX lenMod arg

/-- Every integer conversion, under every length modifier, prints the number of its piece. -/
theorem caseInt_converts (s : Console) (len : LenMod) (conv : IntConv) (arg : BitVec 64) :
    ∃ s', s.caseInt len.num arg conv = some s' ∧
      Converts s s' (conv.render (arg.setWidth len.width)) (Piece.int len conv arg).forgets := by
  have hshort : (arg.setWidth 32).setWidth 16 = arg.setWidth 16 :=
    BitVec.setWidth_setWidth_of_le arg (by decide)
  have hlong : arg.setWidth 64 = arg := BitVec.setWidth_eq arg
  have hsign : (arg.setWidth 64).signExtend 64 = arg := by
    rw [hlong, BitVec.signExtend_eq]
  have hzero : (arg.setWidth 64).setWidth 64 = arg := by
    rw [hlong, hlong]
  cases conv with
  | d =>
    cases len with
    | none => exact converts_signed (by decide) s (arg.setWidth 32)
    | h =>
      show ∃ s', s.printShort ((arg.setWidth 32).setWidth 16) = some s' ∧ _
      rw [hshort]
      exact converts_signed (by decide) s (arg.setWidth 16)
    | l =>
      have h := converts_signed (by decide) s (arg.setWidth 64)
      rw [hsign] at h
      exact h
    | q =>
      have h := converts_signed (by decide) s (arg.setWidth 64)
      rw [hsign] at h
      exact h
  | u =>
    cases len with
    | none => exact converts_unsigned (by decide) s (arg.setWidth 32)
    | h =>
      show ∃ s', s.printUshort ((arg.setWidth 32).setWidth 16) = some s' ∧ _
      rw [hshort]
      exact converts_unsigned (by decide) s (arg.setWidth 16)
    | l =>
      have h := converts_uint s arg
      rw [← hlong] at h
      exact h
    | q =>
      have h := converts_uint s arg
      rw [← hlong] at h
      exact h
  | x =>
    cases len with
    | none => exact converts_hex (by decide) s (arg.setWidth 32)
    | h =>
      show ∃ s', s.printShortHex ((arg.setWidth 32).setWidth 16) = some s' ∧ _
      rw [hshort]
      exact converts_hex (by decide) s (arg.setWidth 16)
    | l =>
      have h := converts_hex (by decide) s (arg.setWidth 64)
      rw [hzero] at h
      exact h
    | q =>
      have h := converts_hex (by decide) s (arg.setWidth 64)
      rw [hzero] at h
      exact h

/-- A directive in front of the rest of the format. -/
theorem printkLoop_directive (s : Console) (n : BitVec 32) (len : LenMod) {conv : BitVec 8}
    (hconv : lenModOf conv = 0) (fmt : List (BitVec 8)) (args : List VaArg) :
    s.printkLoop n (ch '%' :: (len.fmt ++ conv :: fmt)) args =
      (s.directive n len.num conv args).bind fun (s, n, args) => s.printkLoop n fmt args := by
  cases len with
  | none => exact printkLoop_conv hconv s n fmt args
  | h => exact printkLoop_convMod (m := ch 'h') (by decide) s n conv fmt args
  | l => exact printkLoop_convMod (m := ch 'l') (by decide) s n conv fmt args
  | q => exact printkLoop_convMod (m := ch 'q') (by decide) s n conv fmt args

/-- From `s` to `s'` the piece was printed. -/
structure PrintsPiece (s s' : Console) (p : Piece) : Prop where
  prints : Prints s s' p.chunks
  intLen : s'.digits.intLen = p.lenAfter s.digits.intLen

/-- The loop of `printk` prints a piece and counts it. -/
theorem printkLoop_piece (s : Console) (n : BitVec 32) (p : Piece) :
    ∃ s', PrintsPiece s s' p ∧ ∀ fmt args, s.printkLoop n (p.fmt ++ fmt) (p.args ++ args) =
      s'.printkLoop (n + p.counted s.digits.intLen s.uart) fmt args := by
  cases p with
  | lit c h =>
    obtain ⟨hprints, hdigits⟩ := s.printChar_prints c
    refine ⟨s.printChar c, ⟨hprints, congrArg _ hdigits⟩, fun fmt args => ?_⟩
    exact printkLoop_lit h.1 h.2 s n fmt args
  | percent =>
    obtain ⟨hprints, hdigits⟩ := s.printChar_prints (ch '%')
    exact ⟨s.printChar (ch '%'), ⟨hprints, congrArg _ hdigits⟩, fun fmt args =>
      s.printkLoop_directive n .none (by decide) fmt args⟩
  | char arg =>
    obtain ⟨hprints, hdigits⟩ := s.printChar_prints (arg.setWidth 8)
    exact ⟨s.printChar (arg.setWidth 8), ⟨hprints, congrArg _ hdigits⟩, fun fmt args =>
      s.printkLoop_directive n .none (by decide) fmt (.word arg :: args)⟩
  | str str =>
    obtain ⟨hprints, hdigits⟩ := s.printChars_prints (str.getD (chars "(null)"))
    cases str with
    | none =>
      have huart : (s.printStr none).uart = (Piece.str none).uartAfter s.uart := hprints.uart
      refine ⟨s.printStr none, ⟨hprints, congrArg _ hdigits⟩, fun fmt args =>
        (s.printkLoop_directive n .none (by decide) fmt (.str none :: args)).trans ?_⟩
      rw [Piece.counted, ← huart]
      rfl
    | some str =>
      exact ⟨s.printStr (some str), ⟨hprints, congrArg _ hdigits⟩, fun fmt args =>
        s.printkLoop_directive n .none (by decide) fmt (.str (some str) :: args)⟩
  | ptr p =>
    obtain ⟨hmarks, hdigits⟩ := s.printChars_prints (chars "0x")
    obtain ⟨s', hs', hconv⟩ :=
      converts_hex (by decide) (s.printChars (chars "0x")) p
    rw [BitVec.setWidth_eq] at hs'
    have hlen : s'.digits.intLen = (Piece.ptr p).lenAfter s.digits.intLen := by
      rw [hconv.intLen, hdigits]
      rfl
    refine ⟨s', ⟨hmarks.trans hconv.prints, hlen⟩, fun fmt args => ?_⟩
    have hdir : s.directive n 0 (ch 'p') (.word p :: args) =
        (s.printPointer p).bind fun s => some (s, n + 2 + s.digits.intLen, args) := rfl
    refine (s.printkLoop_directive n .none (by decide) fmt (.word p :: args)).trans ?_
    rw [LenMod.num, hdir, show s.printPointer p = some s' from hs', Piece.counted, ← hlen,
      ← BitVec.add_assoc]
    rfl
  | int len conv arg =>
    obtain ⟨s', hs', hconv⟩ := s.caseInt_converts len conv arg
    have hlen : s'.digits.intLen = (Piece.int len conv arg).lenAfter s.digits.intLen :=
      hconv.intLen
    refine ⟨s', ⟨hconv.prints, hlen⟩, fun fmt args => ?_⟩
    have hfmt : (Piece.int len conv arg).fmt ++ fmt =
        ch '%' :: (len.fmt ++ conv.ch :: fmt) := by
      simp [Piece.fmt]
    have hdir : s.directive n len.num conv.ch (.word arg :: args) =
        (s.caseInt len.num arg conv).bind fun s => some (s, n + s.digits.intLen, args) := by
      cases conv <;> rfl
    have hconvch : lenModOf conv.ch = 0 := by
      cases conv <;> rfl
    rw [hfmt, printkLoop_directive _ _ _ hconvch, Piece.args, List.singleton_append, hdir, hs',
      Piece.counted, ← hlen]
    rfl

/-- `int_len` after the pieces. -/
def lenAfterAll (intLen : BitVec 32) (ps : List Piece) : BitVec 32 :=
  ps.foldl Piece.lenAfter intLen

/-- The serial port after the pieces. -/
def uartAfterAll (u : Uart) (ps : List Piece) : Uart :=
  ps.foldl Piece.uartAfter u

/-- What `printk` counts for the pieces. -/
def countedAll : BitVec 32 → Uart → List Piece → BitVec 32
  | _, _, [] => 0
  | intLen, u, p :: ps => p.counted intLen u + countedAll (p.lenAfter intLen) (p.uartAfter u) ps

/-- From `s` to `s'` the pieces were printed. -/
structure PrintsPieces (s s' : Console) (ps : List Piece) : Prop where
  prints : Prints s s' (ps.flatMap Piece.chunks)
  intLen : s'.digits.intLen = lenAfterAll s.digits.intLen ps
  uart : s'.uart = uartAfterAll s.uart ps

/-- Pieces, and then more of them. -/
theorem PrintsPieces.append {s s' s'' : Console} {ps qs : List Piece} (h : PrintsPieces s s' ps)
    (h' : PrintsPieces s' s'' qs) : PrintsPieces s s'' (ps ++ qs) := by
  refine ⟨?_, ?_, ?_⟩
  · rw [List.flatMap_append]
    exact h.prints.trans h'.prints
  · rw [h'.intLen, h.intLen, lenAfterAll, lenAfterAll, lenAfterAll, List.foldl_append]
  · rw [h'.uart, h.uart, uartAfterAll, uartAfterAll, uartAfterAll, List.foldl_append]

/-- `printk` on a format of complete directives prints them in order. -/
theorem printkLoop_pieces (rest : List (BitVec 8)) (more : List VaArg) (ps : List Piece) :
    ∀ (s : Console) (n : BitVec 32), ∃ s', s.printkLoop n (ps.flatMap Piece.fmt ++ 0 :: rest)
        (ps.flatMap Piece.args ++ more) = some (s', n + countedAll s.digits.intLen s.uart ps) ∧
      PrintsPieces s s' ps := by
  induction ps with
  | nil =>
    intro s n
    refine ⟨s, (s.printkLoop_zero n rest more).trans ?_, .refl s, rfl, rfl⟩
    exact congrArg (fun k => some (s, k)) (BitVec.add_zero n).symm
  | cons p ps ih =>
    intro s n
    obtain ⟨t, ⟨hprints, hlen⟩, hloop⟩ := s.printkLoop_piece n p
    obtain ⟨s', hs', hprints', hlen', huart'⟩ := ih t (n + p.counted s.digits.intLen s.uart)
    have huart : t.uart = p.uartAfter s.uart := hprints.uart
    refine ⟨s', ?_, hprints.trans hprints', ?_, ?_⟩
    · rw [List.flatMap_cons, List.flatMap_cons, List.append_assoc, List.append_assoc, hloop, hs',
        countedAll, huart, hlen, BitVec.add_assoc]
    · rw [hlen', hlen]
      rfl
    · rw [huart', huart]
      rfl

/-- The chunks of the pieces are what they print. -/
theorem flatten_chunks (ps : List Piece) :
    (ps.flatMap Piece.chunks).flatten = ps.flatMap Piece.render := by
  induction ps with
  | nil => rfl
  | cons p ps ih =>
    have hp : p.chunks.flatten = p.render := by
      cases p with
      | ptr p => simp [Piece.chunks, Piece.render]
      | _ => exact List.append_nil _
    rw [List.flatMap_cons, List.flatten_append, ih, hp, List.flatMap_cons]

theorem PrintsPieces.shown {s s' : Console} {ps : List Piece} (h : PrintsPieces s s' ps) :
    s'.vga.shown = s.vga.shown ++ ps.flatMap Piece.render := by
  rw [h.prints.shown, flatten_chunks]

/-- `printk` renders its format. The format may be followed by anything behind its NUL, and
the arguments by more arguments. -/
theorem printk_renders (s : Console) (ps : List Piece) (rest : List (BitVec 8))
    (more : List VaArg) :
    ∃ s' r, s.printk (ps.flatMap Piece.fmt ++ 0 :: rest) (ps.flatMap Piece.args ++ more) =
        some (s', r) ∧
      s'.vga.shown = s.vga.shown ++ ps.flatMap Piece.render ∧
      ∃ chunks : List (List (BitVec 8)), s'.uart = chunks.foldl Uart.writeChunk s.uart ∧
        chunks.flatten = ps.flatMap Piece.render := by
  obtain ⟨s', hs', hprints⟩ := printkLoop_pieces rest more ps s 0
  exact ⟨s', _, hs', hprints.shown, _, hprints.prints.uart, flatten_chunks ps⟩

end Console

end KernelDev
