import KernelDev.SerialRuns

/-!
# The screen and the serial port

Everything printed goes to two sinks, chunk by chunk. The display shows all of a chunk; the serial
port takes its first bytes, as many as the ring has room for, and `printk` does not look at the
result of `SER_write`. What is accepted is therefore in the order of what is shown
(`accepted_sublist`), and is all of it exactly if every chunk fits (`accepted_eq_iff`).

Which chunks these are is a function of the call. `formatPieces` reads any format, with conversions
that `printk` does not know and modifiers on any conversion, into the pieces it is made of, each
with its argument, and `printkChunks` are what `print_char` and `print_str` get for them, one chunk
for each call of the two. `printkLoop_prints` says that `printk` prints just these chunks, whatever
the format and the arguments are, as long as the call is defined at all. An interrupt prints the
chunks of the line error message or frees the transmitter twice (`interruptEvents`).

Some chunks offer no byte to the port : a string whose length is not positive as an `int`
(`Silent`), such as an empty one. `silentCall` decides from the format whether all chunks of a call
are such; it is proved along with the chunks, as both follow the same cases.

`serial_log_of_screen` is the result for whole runs of calls of `printk` and interrupts : the
screen shows all chunks, the port accepts what fits of each at its moment, and drops nothing
exactly if all fit. Without interrupts a message of more than 17 characters does not
(`serial_log_drops`).
-/

namespace KernelDev

/-! ## The pieces of any format -/

/-- The modifier that a character stands for. -/
def LenMod.ofChar (c : BitVec 8) : LenMod :=
  if c = ch 'h' then .h else if c = ch 'l' then .l else if c = ch 'q' then .q else .none

/-- It is the modifier that `printk` keeps. -/
theorem LenMod.num_ofChar (c : BitVec 8) : (LenMod.ofChar c).num = Console.lenModOf c := by
  unfold LenMod.ofChar Console.lenModOf
  split_ifs <;> rfl

/-- The piece that a conversion is, with its argument. One that `printk` does not know is none. -/
def pieceOf (len : LenMod) (c : BitVec 8) (args : List VaArg) : Option Piece :=
  if c = ch '%' then some .percent
  else
    match args with
    | .word arg :: _ =>
      if c = ch 'd' then some (.int len .d arg)
      else if c = ch 'u' then some (.int len .u arg)
      else if c = ch 'x' then some (.int len .x arg)
      else if c = ch 'c' then some (.char arg)
      else if c = ch 'p' then some (.ptr arg)
      else none
    | .str str :: _ => if c = ch 's' then some (.str str) else none
    | [] => none

/-- The arguments behind those of a piece. -/
def argsAfter (p : Option Piece) (args : List VaArg) : List VaArg :=
  args.drop (p.toList.flatMap Piece.args).length

/-- The pieces of a format up to its NUL, with their arguments. -/
def formatPieces : List (BitVec 8) → List VaArg → List Piece
  | [], _ => []
  | c :: fmt, args =>
    if hend : c = 0 then []
    else if hlit : c ≠ ch '%' then .lit c ⟨hend, hlit⟩ :: formatPieces fmt args
    else
      match fmt with
      | [] => []
      | c :: fmt =>
        if Console.lenModOf c = 0 then
          (pieceOf .none c args).toList ++ formatPieces fmt (argsAfter (pieceOf .none c args) args)
        else
          match fmt with
          | [] => []
          | c' :: fmt =>
            (pieceOf (.ofChar c) c' args).toList ++
              formatPieces fmt (argsAfter (pieceOf (.ofChar c) c' args) args)

/-- What `print_char` and `print_str` get in a call of `printk`, one chunk for each call of them. -/
def printkChunks (fmt : List (BitVec 8)) (args : List VaArg) : List (List (BitVec 8)) :=
  (formatPieces fmt args).flatMap Piece.chunks

/-! ## The two sinks -/

/-- What reaches the serial port : a printed chunk, or an interrupt that frees the transmitter. -/
inductive SinkEvent where
  | chunk (bs : List (BitVec 8))
  | free
  deriving DecidableEq

namespace SinkEvent

/-- The characters of an event on the display. -/
def shown : SinkEvent → List (BitVec 8)
  | chunk bs => bs
  | free => []

/-- The effect of an event on the port. -/
def run (u : Uart) : SinkEvent → Uart
  | chunk bs => u.writeChunk bs
  | free => u.transmitterEmpty

/-- The number of bytes of a chunk that fit, its length being passed as an `int`. -/
def room (u : Uart) (bs : List (BitVec 8)) : ℕ :=
  (min (BitVec.ofNat 32 bs.length).toInt (buffSize - u.count)).toNat

/-- The characters accepted along a run: of each chunk the part that fits. -/
def accepted (u : Uart) : List SinkEvent → List (BitVec 8)
  | [] => []
  | chunk bs :: es => bs.take (room u bs) ++ accepted (u.writeChunk bs) es
  | free :: es => accepted u.transmitterEmpty es

/-- Every chunk fits when it is printed. -/
def AllFit (u : Uart) : List SinkEvent → Prop
  | [] => True
  | chunk bs :: es => bs.length ≤ buffSize - u.count ∧ AllFit (u.writeChunk bs) es
  | free :: es => AllFit u.transmitterEmpty es

/-- The port accepts part of what is shown, in order. -/
theorem accepted_sublist : ∀ (es : List SinkEvent) (u : Uart),
    (accepted u es).Sublist (es.flatMap shown)
  | [], _ => .slnil
  | chunk bs :: es, _ => (List.take_sublist _ bs).append (accepted_sublist es _)
  | free :: es, _ => accepted_sublist es _

/-- No more of a chunk fits than there is of it. -/
theorem room_le_length (u : Uart) (bs : List (BitVec 8)) : room u bs ≤ bs.length := by
  have hint : (BitVec.ofNat 32 bs.length).toInt ≤ bs.length := by
    rw [BitVec.toInt_eq_toNat_cond, BitVec.toNat_ofNat]
    split_ifs <;> omega
  unfold room
  omega

/-- The ring takes of a chunk what fits. -/
theorem flows_writeChunk {u : Uart} (h : u.Clean) (bs : List (BitVec 8)) :
    Uart.Flows u (u.writeChunk bs) (bs.take (room u bs)) := by
  have hflow := Uart.flows_write h (fun i => bs.getD i 0) (BitVec.ofNat 32 bs.length).toInt
  have hroom := room_le_length u bs
  rw [Uart.bytesToCopy_eq] at hflow
  have htake : (List.range (room u bs)).map (fun i => bs.getD i 0) = bs.take (room u bs) := by
    refine List.ext_getElem (by simp [hroom]) fun i hi hi' => ?_
    rw [List.length_map, List.length_range] at hi
    rw [List.getElem_map, List.getElem_range, List.getElem_take, List.getD_eq_getElem?_getD,
      List.getElem?_eq_getElem (by omega)]
    rfl
  rw [← htake]
  exact hflow

/-- A chunk that fits has a length that is an `int`. -/
theorem length_le_room_iff {u : Uart} (h : u.Clean) (bs : List (BitVec 8)) :
    bs.length ≤ room u bs ↔ bs.length ≤ buffSize - u.count := by
  have hcount := h.count
  have hint : (bs.length : ℤ) ≤ 16 → (BitVec.ofNat 32 bs.length).toInt = bs.length := by
    intro hle
    rw [BitVec.toInt_eq_toNat_cond, BitVec.toNat_ofNat]
    split_ifs <;> omega
  unfold room buffSize at *
  omega

/-- Nothing is dropped exactly if every chunk fits. -/
theorem accepted_eq_iff : ∀ (es : List SinkEvent) (u : Uart), u.Clean →
    (accepted u es = es.flatMap shown ↔ AllFit u es)
  | [], _, _ => by simp [accepted, AllFit]
  | free :: es, u, h => accepted_eq_iff es _ (Uart.flows_transmitterEmpty h).clean
  | chunk bs :: es, u, h => by
    have hrest := accepted_eq_iff es _ (flows_writeChunk h bs).clean
    have hsub := accepted_sublist es (u.writeChunk bs)
    rw [AllFit, ← length_le_room_iff h, accepted, List.flatMap_cons, shown]
    constructor
    · intro heq
      have hlen := congrArg List.length heq
      rw [List.length_append, List.length_append, List.length_take] at hlen
      have hle := hsub.length_le
      have hfit : bs.length ≤ room u bs := by omega
      rw [List.take_of_length_le hfit] at heq
      exact ⟨hfit, hrest.1 (List.append_cancel_left heq)⟩
    · rintro ⟨hfit, hall⟩
      rw [List.take_of_length_le hfit, hrest.2 hall]

/-- The bytes that go into the ring are the accepted ones. -/
theorem stored_foldl : ∀ (es : List SinkEvent) {u : Uart}, u.Clean →
    (es.foldl run u).stored = u.stored ++ accepted u es ∧ (es.foldl run u).Clean
  | [], u, h => ⟨by simp [accepted], h⟩
  | free :: es, u, h => by
    have hflow := Uart.flows_transmitterEmpty h
    obtain ⟨hstored, hclean⟩ := stored_foldl es hflow.clean
    refine ⟨?_, hclean⟩
    rw [List.foldl_cons, run, hstored, hflow.transfers.stored, List.append_nil]
    rfl
  | chunk bs :: es, u, h => by
    have hflow := flows_writeChunk h bs
    obtain ⟨hstored, hclean⟩ := stored_foldl es hflow.clean
    refine ⟨?_, hclean⟩
    rw [List.foldl_cons, run, hstored, hflow.transfers.stored, List.append_assoc]
    rfl

end SinkEvent

namespace Console

/-- From `s` to `s'` the sinks saw the events. -/
structure Logs (s s' : Console) (es : List SinkEvent) : Prop where
  /-- The display shows all chunks. -/
  shown : s'.vga.shown = s.vga.shown ++ es.flatMap SinkEvent.shown
  /-- The port sees the events in order. -/
  uart : s'.uart = es.foldl SinkEvent.run s.uart

variable {s s' s'' : Console} {es es' : List SinkEvent}

theorem Logs.refl (s : Console) : Logs s s [] :=
  ⟨by simp, rfl⟩

/-- What the sinks see, and then more of it. -/
theorem Logs.trans (h : Logs s s' es) (h' : Logs s' s'' es') : Logs s s'' (es ++ es') := by
  refine ⟨?_, ?_⟩
  · rw [h'.shown, h.shown, List.flatMap_append, List.append_assoc]
  · rw [h'.uart, h.uart, List.foldl_append]

/-- Chunks are seen as they are printed. -/
theorem Prints.logs {chunks : List (List (BitVec 8))} (h : Prints s s' chunks) :
    Logs s s' (chunks.map SinkEvent.chunk) := by
  refine ⟨?_, ?_⟩
  · rw [h.shown, List.flatMap_map, List.flatten_eq_flatMap]
    rfl
  · rw [h.uart, List.foldl_map]
    rfl

/-! ## Every call of `printk` goes out in chunks -/

/-- A chunk that `SER_write` takes nothing of : its length is not positive as an `int`. -/
def Silent (bs : List (BitVec 8)) : Prop :=
  (BitVec.ofNat 32 bs.length).toInt ≤ 0

/-- The arguments left after a conversion for which no byte is offered to the serial port. It is
unknown, or a string that is silent. -/
def silentArgs (c : BitVec 8) (args : List VaArg) : Option (List VaArg) :=
  if c ∈ [ch '%', ch 'd', ch 'u', ch 'x', ch 'c', ch 'p'] then none
  else if c = ch 's' then
    match args with
    | .str (some str) :: args =>
      if (BitVec.ofNat 32 (strlen str)).toInt ≤ 0 then some args else none
    | _ => none
  else some args

/-- A format and arguments for which no byte is offered to the serial port. -/
def silentCall : List (BitVec 8) → List VaArg → Bool
  | [], _ => true
  | c :: fmt, args =>
    if c = 0 then true
    else if c ≠ ch '%' then false
    else
      match fmt with
      | [] => true
      | c :: fmt =>
        if lenModOf c = 0 then (silentArgs c args).any fun args => silentCall fmt args
        else
          match fmt with
          | [] => true
          | c' :: fmt => (silentArgs c' args).any fun args => silentCall fmt args

theorem not_silent {bs : List (BitVec 8)} (hpos : 0 < bs.length) (hlt : bs.length < 2 ^ 31) :
    ¬Silent bs := by
  rw [Silent, BitVec.toInt_eq_toNat_cond, BitVec.toNat_ofNat]
  split_ifs <;> omega

/-- A single character is not silent. -/
theorem loud_char (c : BitVec 8) : ∃ bs ∈ [[c]], ¬Silent bs :=
  ⟨[c], List.mem_singleton_self _, not_silent Nat.one_pos (Nat.one_lt_two_pow (by decide))⟩

theorem not_silent_numeralText {b n : ℕ} (hb : 1 < b) (hn : n < 2 ^ 64) :
    ¬Silent (numeralText b n) := by
  have hlen := length_numeralText b n
  have hle := Digits.length_digits_le hb hn
  exact not_silent (by omega) (by omega)

/-- A number is not silent, whatever its width. -/
theorem not_silent_render {w : ℕ} (hw : w ≤ 64) (conv : IntConv) (v : BitVec w) :
    ¬Silent (conv.render v) := by
  have hpow : 2 ^ w ≤ 2 ^ 64 := Nat.pow_le_pow_right (by decide) hw
  have hlt := v.isLt
  cases conv with
  | d =>
    have habs : v.toInt.natAbs < 2 ^ 64 := by
      rw [BitVec.toInt_eq_toNat_cond]
      split_ifs <;> omega
    show ¬Silent (signedText v.toInt)
    unfold signedText
    split_ifs
    · have hlen := length_numeralText 10 v.toInt.natAbs
      have hle := Digits.length_digits_le (b := 10) (by decide) habs
      exact not_silent (Nat.succ_pos _) (by rw [List.length_cons]; omega)
    · exact not_silent_numeralText (by decide) habs
  | u => exact not_silent_numeralText (by decide) (by omega)
  | x => exact not_silent_numeralText (by decide) (by omega)

/-- An integer conversion prints its piece. -/
theorem caseInt_prints {len : LenMod} {conv : IntConv} (arg : BitVec 64)
    (h : s.caseInt len.num arg conv = some s') : Prints s s' (Piece.int len conv arg).chunks := by
  obtain ⟨t, ht, hconv⟩ := s.caseInt_converts len conv arg
  obtain rfl : t = s' := Option.some.inj (ht.symm.trans h)
  exact hconv.prints

/-- A pointer is two chunks. -/
theorem printPointer_prints (p : BitVec 64) (h : s.printPointer p = some s') :
    Prints s s' (Piece.ptr p).chunks := by
  obtain ⟨hmarks, -⟩ := s.printChars_prints (chars "0x")
  obtain ⟨t, ht, hconv⟩ := converts_hex (by decide) (s.printChars (chars "0x")) p
  rw [BitVec.setWidth_eq] at ht
  obtain rfl : t = s' := Option.some.inj (ht.symm.trans h)
  exact hmarks.trans hconv.prints

/-- What is printed by a conversion : its piece, of which a chunk is not silent unless no byte is
offered. -/
structure Converted (s s' : Console) (len : LenMod) (c : BitVec 8) (args args' : List VaArg) :
    Prop where
  /-- The conversion takes the arguments of its piece. -/
  rest : args' = argsAfter (pieceOf len c args) args
  prints : Prints s s' ((pieceOf len c args).toList.flatMap Piece.chunks)
  silent : silentArgs c args = some args' ∧
      (∀ bs ∈ (pieceOf len c args).toList.flatMap Piece.chunks, Silent bs) ∨
    silentArgs c args = none ∧
      ∃ bs ∈ (pieceOf len c args).toList.flatMap Piece.chunks, ¬Silent bs

/-- A piece that is not silent. -/
theorem converted_loud {len : LenMod} {c : BitVec 8} {args args' : List VaArg} {p : Piece}
    (hargs : args = p.args ++ args') (hpiece : pieceOf len c args = some p)
    (hprints : Prints s s' p.chunks) (hnone : silentArgs c args = none)
    (hloud : ∃ bs ∈ p.chunks, ¬Silent bs) : Converted s s' len c args args' := by
  have hchunks : (pieceOf len c args).toList.flatMap Piece.chunks = p.chunks := by
    rw [hpiece]
    exact List.append_nil _
  refine ⟨?_, hchunks ▸ hprints, .inr ⟨hnone, hchunks ▸ hloud⟩⟩
  rw [hpiece, argsAfter, hargs]
  simp

/-- A conversion of the next argument, which is a word. -/
theorem converted_word {len : LenMod} {c : BitVec 8} {f : BitVec 64 → Option Console}
    (p : BitVec 64 → Piece) (hargs : ∀ arg, (p arg).args = [.word arg])
    (hf : ∀ arg, f arg = some s' → Prints s s' (p arg).chunks)
    (hloud : ∀ arg, ∃ bs ∈ (p arg).chunks, ¬Silent bs)
    (hpiece : ∀ arg rest, pieceOf len c (.word arg :: rest) = some (p arg))
    {args args' : List VaArg} (hnone : silentArgs c args = none) (counted : Console → BitVec 32)
    {n : BitVec 32} (h : (do
      let .word arg :: args := args | none
      let s ← f arg
      return (s, counted s, args)) = some (s', n, args')) : Converted s s' len c args args' := by
  rcases args with - | ⟨arg | str, args⟩
  · cases h
  · obtain ⟨t, ht, hret⟩ := Option.bind_eq_some_iff.1 h
    cases hret
    exact converted_loud (by rw [hargs]; rfl) (hpiece arg _) (hf arg ht) hnone (hloud arg)
  · cases h

/-- The three integer conversions, under every length modifier. -/
theorem converted_int {len : LenMod} {c : BitVec 8} (conv : IntConv)
    (hpiece : ∀ arg rest, pieceOf len c (.word arg :: rest) = some (.int len conv arg))
    {args args' : List VaArg} (hnone : silentArgs c args = none) (counted : Console → BitVec 32)
    {n : BitVec 32} (h : (do
      let .word arg :: args := args | none
      let s ← s.caseInt len.num arg conv
      return (s, counted s, args)) = some (s', n, args')) : Converted s s' len c args args' := by
  have hwidth : len.width ≤ 64 := by cases len <;> decide
  have hloud : ∀ arg, ∃ bs ∈ (Piece.int len conv arg).chunks, ¬Silent bs := fun arg =>
    ⟨_, List.mem_singleton_self _, not_silent_render hwidth conv (arg.setWidth len.width)⟩
  exact converted_word (.int len conv) (fun _ => rfl) (fun arg => caseInt_prints arg) hloud hpiece
    hnone counted h

/-- A string is silent or not. -/
theorem converted_str {len : LenMod} {c : BitVec 8} (h1 : c ≠ ch '%') (h7 : c = ch 's')
    (hc : c ∉ [ch '%', ch 'd', ch 'u', ch 'x', ch 'c', ch 'p']) {args args' : List VaArg}
    {counted : Option (List (BitVec 8)) → BitVec 32} {n : BitVec 32} (h : (do
      let .str str :: args := args | none
      return (s.printStr str, counted str, args)) = some (s', n, args')) :
    Converted s s' len c args args' := by
  have hpiece : ∀ str rest, pieceOf len c (.str str :: rest) = some (.str str) := fun _ _ =>
    (if_neg h1).trans (if_pos h7)
  have hsilent : ∀ args, silentArgs c args =
      match args with
      | .str (some str) :: args =>
        if (BitVec.ofNat 32 (strlen str)).toInt ≤ 0 then some args else none
      | _ => none := fun args => (if_neg hc).trans (if_pos h7)
  rcases args with - | ⟨w | (- | str), args⟩
  · cases h
  · cases h
  · cases h
    exact converted_loud (p := .str none) rfl (hpiece none _) (s.printChars_prints _).1
      (hsilent _) ⟨chars "(null)", List.mem_singleton_self _, not_silent (by decide) (by decide)⟩
  · cases h
    have hprints : Prints s (s.printStr (some str)) (Piece.str (some str)).chunks :=
      (s.printChars_prints str).1
    have hrest := hsilent (.str (some str) :: args')
    dsimp only at hrest
    rw [strlen_eq] at hrest
    split_ifs at hrest with hlen
    · refine ⟨?_, ?_, .inl ⟨hrest, ?_⟩⟩
      all_goals rw [hpiece]
      · rfl
      · exact hprints
      · exact List.forall_mem_singleton.2 hlen
    · exact converted_loud (p := .str (some str)) rfl (hpiece (some str) _) hprints hrest
        ⟨_, List.mem_singleton_self _, hlen⟩

/-- What a conversion prints is its piece. -/
theorem directive_prints {n n' : BitVec 32} {len : LenMod} {c : BitVec 8} {args args' : List VaArg}
    (h : s.directive n len.num c args = some (s', n', args')) :
    Converted s s' len c args args' := by
  have hnone : c ∈ [ch '%', ch 'd', ch 'u', ch 'x', ch 'c', ch 'p'] → silentArgs c args = none :=
    fun hc => if_pos hc
  unfold directive at h
  split_ifs at h with h1 h2 h3 h4 h5 h6 h7
  · cases h
    exact converted_loud (p := .percent) rfl (if_pos h1) (s.printChar_prints _).1
      (hnone (by simp [h1])) (loud_char _)
  · exact converted_int .d (fun _ _ => (if_neg h1).trans (if_pos h2)) (hnone (by simp [h2])) _ h
  · exact converted_int .u (fun _ _ => (if_neg h1).trans ((if_neg h2).trans (if_pos h3)))
      (hnone (by simp [h3])) _ h
  · exact converted_int .x
      (fun _ _ => (if_neg h1).trans ((if_neg h2).trans ((if_neg h3).trans (if_pos h4))))
      (hnone (by simp [h4])) _ h
  · rcases args with - | ⟨arg | str, args⟩
    · cases h
    · cases h
      have hpiece : pieceOf len c (.word arg :: args') = some (.char arg) :=
        (if_neg h1).trans ((if_neg h2).trans ((if_neg h3).trans ((if_neg h4).trans (if_pos h5))))
      exact converted_loud (p := .char arg) rfl hpiece (s.printChar_prints _).1
        (hnone (by simp [h5])) (loud_char _)
    · cases h
  · have hpiece : ∀ arg rest, pieceOf len c (.word arg :: rest) = some (.ptr arg) := fun _ _ =>
      (if_neg h1).trans ((if_neg h2).trans ((if_neg h3).trans ((if_neg h4).trans
        ((if_neg h5).trans (if_pos h6)))))
    exact converted_word .ptr (fun _ => rfl) (fun arg => printPointer_prints arg)
      (fun _ => ⟨chars "0x", List.mem_cons_self .., not_silent (by decide) (by decide)⟩) hpiece
      (hnone (by simp [h6])) _ h
  · have hc : c ∉ [ch '%', ch 'd', ch 'u', ch 'x', ch 'c', ch 'p'] := by
      simp [h1, h2, h3, h4, h5, h6]
    exact converted_str h1 h7 hc h
  · have hc : c ∉ [ch '%', ch 'd', ch 'u', ch 'x', ch 'c', ch 'p'] := by
      simp [h1, h2, h3, h4, h5, h6]
    cases h
    have hpiece : pieceOf len c args = none := by
      rcases args with - | ⟨w | str, args⟩
      · simp [pieceOf, h1]
      · simp [pieceOf, h1, h2, h3, h4, h5, h6]
      · simp [pieceOf, h1, h7]
    refine ⟨?_, ?_, .inl ⟨(if_neg hc).trans (if_neg h7), ?_⟩⟩
    all_goals rw [hpiece]
    · rfl
    · exact .refl s
    · exact List.forall_mem_nil _

/-- A conversion and the rest of the format. -/
theorem directive_silent {c : BitVec 8} {args args' : List VaArg}
    {chunks chunks' : List (List (BitVec 8))} {rest : List VaArg → Bool}
    (hdir : silentArgs c args = some args' ∧ (∀ bs ∈ chunks, Silent bs) ∨
      silentArgs c args = none ∧ ∃ bs ∈ chunks, ¬Silent bs)
    (hrest : rest args' = true ↔ ∀ bs ∈ chunks', Silent bs) :
    (silentArgs c args).any rest = true ↔ ∀ bs ∈ chunks ++ chunks', Silent bs := by
  rw [List.forall_mem_append]
  rcases hdir with ⟨hargs, hsilent⟩ | ⟨hargs, bs, hbs, hloud⟩
  · rw [hargs, Option.any_some, hrest, and_iff_right hsilent]
  · rw [hargs, Option.any_none]
    exact iff_of_false Bool.false_ne_true fun h => hloud (h.1 bs hbs)

/-- `printk` prints the chunks of its format, whatever its format and arguments are, and only
silent ones if no byte is offered. -/
theorem printkLoop_prints : ∀ {s s' : Console} {n r : BitVec 32} (fmt : List (BitVec 8))
    {args : List VaArg}, s.printkLoop n fmt args = some (s', r) →
    Prints s s' (printkChunks fmt args) ∧
      (silentCall fmt args = true ↔ ∀ bs ∈ printkChunks fmt args, Silent bs)
  | _, _, _, _, [], _, h => by cases h
  | s, s', n, r, c :: fmt, args, h => by
    unfold printkLoop at h
    unfold printkChunks formatPieces silentCall
    split_ifs at h ⊢ with hend hlit
    · cases h
      exact ⟨.refl s, iff_of_true rfl (List.forall_mem_nil _)⟩
    · obtain ⟨hrest, -⟩ := printkLoop_prints fmt h
      obtain ⟨bs, hbs, hloud⟩ := loud_char c
      exact ⟨(s.printChar_prints c).1.trans hrest, iff_of_false not_false fun hall =>
        hloud (hall bs (List.mem_append_left _ hbs))⟩
    · rcases fmt with - | ⟨c', fmt⟩
      · cases h
      dsimp only at h ⊢
      split_ifs at h ⊢ with hmod
      · obtain ⟨⟨t, n', args'⟩, ht, hloop⟩ := Option.bind_eq_some_iff.1 h
        obtain ⟨rfl, hdir, hargs⟩ : Converted s t .none c' args args' := directive_prints ht
        obtain ⟨hrest, hsilent⟩ := printkLoop_prints fmt hloop
        rw [List.flatMap_append]
        exact ⟨hdir.trans hrest, directive_silent hargs hsilent⟩
      · rcases fmt with - | ⟨c'', fmt⟩
        · cases h
        obtain ⟨⟨t, n', args'⟩, ht, hloop⟩ := Option.bind_eq_some_iff.1 h
        rw [← LenMod.num_ofChar] at ht
        obtain ⟨rfl, hdir, hargs⟩ := directive_prints ht
        obtain ⟨hrest, hsilent⟩ := printkLoop_prints fmt hloop
        rw [List.flatMap_append]
        exact ⟨hdir.trans hrest, directive_silent hargs hsilent⟩

/-! ## Runs -/

/-- What the sinks see of a call of `printk`. -/
theorem printk_logs {fmt : List (BitVec 8)} {args : List VaArg} {r : BitVec 32}
    (h : s.printk fmt args = some (s', r)) :
    Logs s s' ((printkChunks fmt args).map SinkEvent.chunk) :=
  (printkLoop_prints fmt h).1.logs

/-- Freeing the transmitter shows nothing. -/
theorem transmitterEmpty_logs (s : Console) :
    Logs s { s with uart := s.uart.transmitterEmpty } [.free] :=
  ⟨by simp [SinkEvent.shown], rfl⟩

/-- What the sinks see of the service of an interrupt : the message of a line error, or the
transmitter freed. -/
def serviceEvents (interruptSource lsr : BitVec 8) : List SinkEvent :=
  if interruptSource = comIntIdentLineStatus then
    if lsr &&& comLineStatusErrors ≠ 0 then
      (printkChunks (chars "Serial line error: 0x%x\n" ++ [0]) [.word (lsr.setWidth 64)]).map .chunk
    else []
  else if interruptSource = comIntIdentTransmitterEmpty then [.free]
  else []

/-- What the sinks see of an interrupt, which frees the transmitter twice. -/
def interruptEvents (iir lsr : BitVec 8) : List SinkEvent :=
  if iir &&& comIntIdentPending ≠ 0 then []
  else
    serviceEvents (iir &&& comIntIdentMask) lsr ++
      if iir &&& comIntIdentMask = comIntIdentTransmitterEmpty then [.free] else []

/-- What the sinks see of the `switch` of the handler. -/
theorem serviceInterrupt_logs {interruptSource lsr : BitVec 8}
    (h : s.serviceInterrupt interruptSource lsr = some s') :
    Logs s s' (serviceEvents interruptSource lsr) := by
  unfold serviceInterrupt at h
  unfold serviceEvents
  split_ifs at h ⊢
  · obtain ⟨⟨t, r⟩, ht, hret⟩ := Option.bind_eq_some_iff.1 h
    cases hret
    exact printk_logs ht
  · cases h
    exact .refl s
  · cases h
    exact transmitterEmpty_logs s
  · cases h
    exact .refl s

/-- An interrupt prints, frees the transmitter, or does nothing. -/
theorem serialInterruptHandler_logs {iir lsr : BitVec 8}
    (h : s.serialInterruptHandler iir lsr = some s') : Logs s s' (interruptEvents iir lsr) := by
  unfold serialInterruptHandler at h
  unfold interruptEvents
  split_ifs at h ⊢ with hpending hempty
  · cases h
    exact .refl s
  · obtain ⟨t, ht, hret⟩ := Option.bind_eq_some_iff.1 h
    have hlogs := serviceInterrupt_logs ht
    rw [if_pos hempty] at hret
    cases hret
    exact hlogs.trans (transmitterEmpty_logs t)
  · obtain ⟨t, ht, hret⟩ := Option.bind_eq_some_iff.1 h
    have hlogs := serviceInterrupt_logs ht
    rw [if_neg hempty] at hret
    cases hret
    exact hlogs.trans (.refl _)

/-- What happens after `SER_init`: calls of `printk` and interrupts of the serial port. -/
inductive LogEvent where
  | printk (fmt : List (BitVec 8)) (args : List VaArg)
  | interrupt (iir lsr : BitVec 8)

namespace LogEvent

/-- The effect of an event. -/
def run (s : Console) : LogEvent → Option Console
  | printk fmt args => (s.printk fmt args).map Prod.fst
  | interrupt iir lsr => s.serialInterruptHandler iir lsr

/-- What the sinks see of an event. -/
def sinkEvents : LogEvent → List SinkEvent
  | printk fmt args => (printkChunks fmt args).map .chunk
  | interrupt iir lsr => interruptEvents iir lsr

theorem logs {e : LogEvent} (h : e.run s = some s') : Logs s s' e.sinkEvents := by
  cases e with
  | printk fmt args =>
    obtain ⟨⟨t, r⟩, ht, rfl⟩ := Option.map_eq_some_iff.1 h
    exact printk_logs ht
  | interrupt iir lsr => exact serialInterruptHandler_logs h

end LogEvent

/-- What the sinks see of a run is what they see of its events. -/
theorem logs_foldlM : ∀ (calls : List LogEvent) {s s' : Console},
    calls.foldlM LogEvent.run s = some s' → Logs s s' (calls.flatMap LogEvent.sinkEvents)
  | [], s, s', h => by
    cases h
    exact .refl s
  | e :: calls, s, s', h => by
    rw [List.foldlM_cons] at h
    obtain ⟨t, ht, hrest⟩ := Option.bind_eq_some_iff.1 h
    rw [List.flatMap_cons]
    exact (LogEvent.logs ht).trans (logs_foldlM calls hrest)

/-- The serial log follows the screen. What a run shows goes to both sinks in the same chunks,
which are those of the calls of `print_char` and `print_str` it makes; the serial port accepts of
each chunk what fits, in order, and drops nothing exactly if every chunk fits. -/
theorem serial_log_of_screen {s t : Console} (h : s.uart.Clean) (calls : List LogEvent)
    (ht : calls.foldlM LogEvent.run s = some t) :
    let es := calls.flatMap LogEvent.sinkEvents
    t.uart = es.foldl SinkEvent.run s.uart ∧
      t.vga.shown = s.vga.shown ++ es.flatMap SinkEvent.shown ∧
      t.uart.stored = s.uart.stored ++ SinkEvent.accepted s.uart es ∧
      (SinkEvent.accepted s.uart es).Sublist (es.flatMap SinkEvent.shown) ∧
      (SinkEvent.accepted s.uart es = es.flatMap SinkEvent.shown ↔
        SinkEvent.AllFit s.uart es) := by
  have hlogs := logs_foldlM calls ht
  have hstored := (SinkEvent.stored_foldl (calls.flatMap LogEvent.sinkEvents) h).1
  rw [← hlogs.uart] at hstored
  exact ⟨hlogs.uart, hlogs.shown, hstored, SinkEvent.accepted_sublist _ _,
    SinkEvent.accepted_eq_iff _ _ h⟩

/-- A number, its line end and an interrupt. -/
def shortRun : List LogEvent :=
  [.printk (chars "%d\n" ++ [0]) [.word 42], .interrupt 0x02 0]

/-- The text of the number is one chunk and its line end another, and both fit. -/
theorem serial_log_of_screen_shortRun :
    ∃ t, shortRun.foldlM LogEvent.run idleConsole = some t ∧
      t.vga.shown = idleConsole.vga.shown ++ chars "42\n" ∧
      t.uart.stored = idleConsole.uart.stored ++ chars "42\n" ∧
      SinkEvent.AllFit idleConsole.uart
        [.chunk (chars "42"), .chunk (chars "\n"), .free, .free] := by
  have hsome : (shortRun.foldlM LogEvent.run idleConsole).isSome := by decide +kernel
  have hevents : shortRun.flatMap LogEvent.sinkEvents =
      [.chunk (chars "42"), .chunk (chars "\n"), .free, .free] := by
    decide +kernel
  have haccepted : SinkEvent.accepted idleConsole.uart
      [.chunk (chars "42"), .chunk (chars "\n"), .free, .free] = chars "42\n" := by
    decide +kernel
  obtain ⟨t, ht⟩ := Option.isSome_iff_exists.1 hsome
  obtain ⟨-, hshown, hstored, -, hfit⟩ := serial_log_of_screen clean_idleConsole shortRun ht
  rw [hevents] at hshown hstored hfit
  rw [haccepted] at hstored
  exact ⟨t, ht, hshown, hstored, hfit.1 haccepted⟩

/-- Printed without an interrupt, the last characters of a long message are dropped. -/
theorem serial_log_drops : ¬∀ (s t : Console) (calls : List LogEvent), s.uart.Clean →
    s.uart.queued = [] → calls.foldlM LogEvent.run s = some t →
    ∀ accepted shown, t.uart.stored = s.uart.stored ++ accepted →
      t.vga.shown = s.vga.shown ++ shown → accepted = shown := by
  intro h
  have hlen : ([LogEvent.printk (chars "Serial port initialized\n" ++ [0]) []].foldlM LogEvent.run
      idleConsole).map (fun t => (t.uart.stored.length, t.vga.shown.length)) = some (17, 24) := by
    decide +kernel
  obtain ⟨t, ht, hlen⟩ := Option.map_eq_some_iff.1 hlen
  have heq := h idleConsole t _ clean_idleConsole rfl ht t.uart.stored t.vga.shown rfl rfl
  rw [heq, Prod.mk.injEq] at hlen
  omega

end Console

end KernelDev
