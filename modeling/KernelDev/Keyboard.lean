import KernelDev.PrintkFormat

/-!
# `drivers.c`, the keyboard

The keyboard sends scan codes of set 2 : the make code of a key that is pressed, and `0xF0` and the
same code when it is released; keys that were added later have `0xE0` in front of that. Two drivers
decode these bytes. `kb_polling` reads whole sequences from the controller, and never comes back;
`kb_interrupt_handler` is called for each byte, and keeps what it has seen so far in static
variables, among them the two prefixes (`KbStatics`).

Both print through `printk`, and print nothing else. A driver is therefore a function from its
flags and the bytes to its flags and the calls it makes (`KbPrint`), and `Console.printAll` makes
the calls one after the other. `kbPolling` is given the bytes that will come, and is the calls it
makes before it waits for more.

`scancode_to_ascii` is kept as tables, one for each `switch` of the source. A code without an entry
gives `0`, and so do most extended codes.

Both drivers see the same events if the bytes come in complete sequences (`ScanSequence`). What a
sequence does to the modifier flags is the same for both (`KbFlags.after`); between sequences the
interrupt handler has no prefix left (`KbStatics.Between`), and `kbInterrupts_bytes` is what it
does from there with all bytes of a sequence.
-/

namespace KernelDev

/-- A call of `printk` that a driver makes. -/
structure KbPrint where
  fmt : List (BitVec 8)
  args : List VaArg

/-! ## `keyboard_scancodes.h` -/

/-- `KB_SC_CAPSLOCK` -/
def kbScCapslock : BitVec 8 := 0x58

/-- `KB_SC_LSHIFT` -/
def kbScLshift : BitVec 8 := 0x12

/-- `KB_SC_RSHIFT` -/
def kbScRshift : BitVec 8 := 0x59

/-- `KB_SC_LCTRL`, which is `KB_SC_RCTRL` too. -/
def kbScLctrl : BitVec 8 := 0x14

/-- `KB_SC_LALT`, which is `KB_SC_RALT` too. -/
def kbScLalt : BitVec 8 := 0x11

/-- `KB_KEY_RELEASE` -/
def kbKeyRelease : BitVec 8 := 0xf0

/-- `KB_EXTENDED` -/
def kbExtended : BitVec 8 := 0xe0

/-- `PS2_STATUS_OUTPUT` -/
def ps2StatusOutput : BitVec 8 := 1

/-! ## `scancode_to_ascii` -/

/-- The keys behind `KB_EXTENDED` : arrows, the keypad with its numbers off, and the keypad's
slash and enter. -/
def extendedKeys : List (BitVec 8 × BitVec 8) :=
  [(0x75, ch '^'), (0x72, ch 'v'), (0x6b, ch '<'), (0x74, ch '>'), (0x70, ch '0'),
    (0x71, ch '.'), (0x6c, ch '7'), (0x69, ch '1'), (0x7d, ch '9'), (0x7a, ch '3'),
    (0x4a, ch '/'), (0x5a, ch '\n')]

/-- The letters, lower and upper case. -/
def letterKeys : List (BitVec 8 × BitVec 8 × BitVec 8) :=
  [(0x1c, ch 'a', ch 'A'), (0x32, ch 'b', ch 'B'), (0x21, ch 'c', ch 'C'),
    (0x23, ch 'd', ch 'D'), (0x24, ch 'e', ch 'E'), (0x2b, ch 'f', ch 'F'),
    (0x34, ch 'g', ch 'G'), (0x33, ch 'h', ch 'H'), (0x43, ch 'i', ch 'I'),
    (0x3b, ch 'j', ch 'J'), (0x42, ch 'k', ch 'K'), (0x4b, ch 'l', ch 'L'),
    (0x3a, ch 'm', ch 'M'), (0x31, ch 'n', ch 'N'), (0x44, ch 'o', ch 'O'),
    (0x4d, ch 'p', ch 'P'), (0x15, ch 'q', ch 'Q'), (0x2d, ch 'r', ch 'R'),
    (0x1b, ch 's', ch 'S'), (0x2c, ch 't', ch 'T'), (0x3c, ch 'u', ch 'U'),
    (0x2a, ch 'v', ch 'V'), (0x1d, ch 'w', ch 'W'), (0x22, ch 'x', ch 'X'),
    (0x35, ch 'y', ch 'Y'), (0x1a, ch 'z', ch 'Z')]

/-- The other keys with Shift. -/
def shiftKeys : List (BitVec 8 × BitVec 8) :=
  [(0x16, ch '!'), (0x1e, ch '@'), (0x26, ch '#'), (0x25, ch '$'), (0x2e, ch '%'),
    (0x36, ch '^'), (0x3d, ch '&'), (0x3e, ch '*'), (0x46, ch '('), (0x45, ch ')'),
    (0x0e, ch '~'), (0x4e, ch '_'), (0x55, ch '+'), (0x54, 0x7b), (0x5b, 0x7d),
    (0x5d, ch '|'), (0x4c, ch ':'), (0x52, ch '"'), (0x41, ch '<'), (0x49, ch '>'),
    (0x4a, ch '?')]

/-- The other keys without Shift, and the keypad. -/
def noShiftKeys : List (BitVec 8 × BitVec 8) :=
  [(0x16, ch '1'), (0x1e, ch '2'), (0x26, ch '3'), (0x25, ch '4'), (0x2e, ch '5'),
    (0x36, ch '6'), (0x3d, ch '7'), (0x3e, ch '8'), (0x46, ch '9'), (0x45, ch '0'),
    (0x0e, 0x60), (0x4e, ch '-'), (0x55, ch '='), (0x54, ch '['), (0x5b, ch ']'),
    (0x5d, 0x5c), (0x4c, ch ';'), (0x52, 0x27), (0x41, ch ','), (0x49, ch '.'),
    (0x4a, ch '/'),
    -- space, enter, backspace, tab, escape
    (0x29, ch ' '), (0x5a, ch '\n'), (0x66, 8), (0x0d, ch '\t'), (0x76, 27),
    -- the keypad
    (0x70, ch '0'), (0x69, ch '1'), (0x72, ch '2'), (0x7a, ch '3'), (0x6b, ch '4'),
    (0x73, ch '5'), (0x74, ch '6'), (0x6c, ch '7'), (0x75, ch '8'), (0x7d, ch '9'),
    (0x7c, ch '*'), (0x7b, ch '-'), (0x79, ch '+'), (0x71, ch '.')]

/-- `scancode_to_ascii` -/
def scancodeToAscii (scancode : BitVec 8) (extended capslock shift : Bool) : BitVec 8 :=
  if extended then (extendedKeys.lookup scancode).getD 0
  else
    let cases := (letterKeys.lookup scancode).getD (0, 0)
    if cases.1 ≠ 0 then
      if (shift && !capslock) || (!shift && capslock) then cases.2 else cases.1
    else if shift then (shiftKeys.lookup scancode).getD 0
    else (noShiftKeys.lookup scancode).getD 0

/-- `is_modifier` -/
def isModifier (scancode : BitVec 8) : Bool :=
  scancode == kbScLshift || scancode == kbScRshift || scancode == kbScLctrl ||
    scancode == kbScCapslock || scancode == kbScLalt

/-! ## The drivers -/

/-- The flags that both drivers keep. -/
structure KbFlags where
  extended : Bool
  capslock : Bool
  shift : Bool
  ctrl : Bool
  alt : Bool
  deriving DecidableEq

/-- The static variables of `kb_interrupt_handler`. -/
structure KbStatics extends KbFlags where
  awaitingBreakCode : Bool
  deriving DecidableEq

/-- All flags clear. -/
def KbFlags.clear : KbFlags :=
  ⟨false, false, false, false, false⟩

/-- The static variables before the first interrupt. -/
def KbStatics.clear : KbStatics :=
  ⟨KbFlags.clear, false⟩

/-- What a released key does to the flags. -/
def KbFlags.release (f : KbFlags) (scancode : BitVec 8) : KbFlags :=
  if scancode = kbScLshift ∨ scancode = kbScRshift then { f with shift := false }
  else if scancode = kbScLctrl then { f with ctrl := false }
  else if scancode = kbScLalt then { f with alt := false }
  else f

/-- The letter of a control character : `char` is signed. -/
def ctrlChar (c : BitVec 8) : BitVec 8 :=
  if (ch 'a').sle c ∧ c.sle (ch 'z') then c - ch 'a' + 1
  else if (ch 'A').sle c ∧ c.sle (ch 'Z') then c - ch 'A' + 1
  else c

/-- `printk("Ctrl+%c", c + 'a' - 1)` -/
def KbPrint.ctrl (c : BitVec 8) : KbPrint :=
  ⟨chars "Ctrl+%c" ++ [0], [.word ((c.signExtend 32 + (ch 'a').signExtend 32 - 1).setWidth 64)]⟩

/-- `printk("Alt+%c", c)` -/
def KbPrint.alt (c : BitVec 8) : KbPrint :=
  ⟨chars "Alt+%c" ++ [0], [.word ((c.signExtend 32).setWidth 64)]⟩

/-- `printk("%c", c)` -/
def KbPrint.char (c : BitVec 8) : KbPrint :=
  ⟨chars "%c" ++ [0], [.word ((c.signExtend 32).setWidth 64)]⟩

/-- The keys that `kb_interrupt_handler` prints. -/
def KbStatics.print (k : KbStatics) (scancode : BitVec 8) : List KbPrint :=
  let c := scancodeToAscii scancode k.extended k.capslock k.shift
  if k.ctrl ∧ ¬k.extended then
    let c := ctrlChar c
    if c ≠ 0 then [.ctrl c] else []
  else if k.alt ∧ ¬k.extended then
    if c ≠ 0 then [.alt c] else []
  else if c ≠ 0 then [.char c] else []

/-- `kb_interrupt_handler`. The bytes that `inb` gives for the two ports are arguments. -/
def kbInterruptHandler (k : KbStatics) (status scancode : BitVec 8) :
    KbStatics × List KbPrint :=
  if status &&& ps2StatusOutput = 0 then (k, [])
  else if scancode = kbExtended then ({ k with extended := true }, [])
  else if scancode = kbKeyRelease then ({ k with awaitingBreakCode := true }, [])
  else if k.awaitingBreakCode then
    let k := { k with awaitingBreakCode := false }
    let k := { k with toKbFlags := k.toKbFlags.release scancode }
    ({ k with extended := false }, [])
  else if scancode = kbScCapslock then
    ({ k with capslock := !k.capslock, extended := false }, [])
  else if scancode = kbScLshift ∨ scancode = kbScRshift then
    ({ k with shift := true, extended := false }, [])
  else if scancode = kbScLctrl then ({ k with ctrl := true, extended := false }, [])
  else if scancode = kbScLalt then ({ k with alt := true, extended := false }, [])
  else if isModifier scancode = false then ({ k with extended := false }, k.print scancode)
  else ({ k with extended := false }, [])

/-- `kb_interrupt_handler` called for each byte, with the byte announced in the status. -/
def kbInterrupts : KbStatics → List (BitVec 8) → KbStatics × List KbPrint
  | k, [] => (k, [])
  | k, b :: bytes =>
    let first := kbInterruptHandler k ps2StatusOutput b
    let rest := kbInterrupts first.1 bytes
    (rest.1, first.2 ++ rest.2)

/-- `ps2_read_data`, which waits for ever once there are no more bytes. -/
def ps2ReadData : List (BitVec 8) → Option (BitVec 8 × List (BitVec 8))
  | [] => none
  | b :: bytes => some (b, bytes)

/-- The end of a round of `kb_polling` : what the key prints. -/
def KbFlags.key (f : KbFlags) (scancode : BitVec 8) : KbFlags × List KbPrint :=
  let c := scancodeToAscii scancode f.extended f.capslock f.shift
  if f.ctrl ∧ ¬f.extended then
    let c := ctrlChar c
    (f, if c ≠ 0 then [.ctrl c] else [])
  else if f.alt ∧ ¬f.extended then (f, if c ≠ 0 then [.alt c] else [])
  else ({ f with extended := false }, if isModifier scancode = false then [.char c] else [])

/-- A round of `kb_polling` after the prefixes. -/
def KbFlags.make (f : KbFlags) (scancode : BitVec 8) : KbFlags × List KbPrint :=
  if scancode = kbScCapslock then { f with capslock := !f.capslock }.key scancode
  else if scancode = kbScLshift ∨ scancode = kbScRshift then ({ f with shift := true }, [])
  else if scancode = kbScLctrl then ({ f with ctrl := true }, [])
  else if scancode = kbScLalt then ({ f with alt := true }, [])
  else f.key scancode

/-- One round of the loop of `kb_polling`, unless it waits for ever. -/
def kbPollingRound (f : KbFlags) (bytes : List (BitVec 8)) :
    Option (KbFlags × List KbPrint × List (BitVec 8)) := do
  let (scancode, bytes) ← ps2ReadData bytes
  let (f, scancode, bytes) ←
    if scancode = kbExtended then do
      let (scancode, bytes) ← ps2ReadData bytes
      some ({ f with extended := true }, scancode, bytes)
    else some (f, scancode, bytes)
  if scancode = kbKeyRelease then
    let (scancode, bytes) ← ps2ReadData bytes
    return (f.release scancode, [], bytes)
  let (f, calls) := f.make scancode
  return (f, calls, bytes)

/-- `kb_polling` until it waits for ever. Each round reads a byte, so there are no more rounds
than bytes. -/
def kbPollingRounds : ℕ → KbFlags → List (BitVec 8) → List KbPrint
  | 0, _, _ => []
  | n + 1, f, bytes =>
    match kbPollingRound f bytes with
    | none => []
    | some (f, calls, bytes) => calls ++ kbPollingRounds n f bytes

/-- `kb_polling` on a stream of bytes. -/
def kbPolling (bytes : List (BitVec 8)) : List KbPrint :=
  kbPollingRounds bytes.length KbFlags.clear bytes

/-! ## Printing -/

/-- The calls, one after the other. -/
def Console.printAll (s : Console) (calls : List KbPrint) : Option Console :=
  calls.foldlM (fun s call => (s.printk call.fmt call.args).map Prod.fst) s

/-- The handler for some bytes, and from there for the others. -/
theorem kbInterrupts_append (bytes' : List (BitVec 8)) : ∀ (bytes : List (BitVec 8)) k,
    kbInterrupts k (bytes ++ bytes') =
      ((kbInterrupts (kbInterrupts k bytes).1 bytes').1,
        (kbInterrupts k bytes).2 ++ (kbInterrupts (kbInterrupts k bytes).1 bytes').2)
  | [], _ => rfl
  | b :: bytes, k => by
    rw [List.cons_append, kbInterrupts, kbInterrupts_append bytes' bytes, kbInterrupts,
      List.append_assoc]

/-! ## Complete sequences -/

/-- A make or break sequence of one code. -/
structure ScanSequence where
  extended : Bool
  broken : Bool
  code : BitVec 8
  /-- The code is none of the two prefixes. -/
  code_ne : code ≠ kbExtended ∧ code ≠ kbKeyRelease
  deriving DecidableEq

/-- The bytes of the sequence. -/
def ScanSequence.bytes (q : ScanSequence) : List (BitVec 8) :=
  (if q.extended then [kbExtended] else []) ++ (if q.broken then [kbKeyRelease] else []) ++
    [q.code]

/-- No sequence is under way. -/
structure KbStatics.Between (k : KbStatics) : Prop where
  extended : k.extended = false
  awaitingBreakCode : k.awaitingBreakCode = false

/-- Before the first interrupt no sequence is under way. -/
theorem KbStatics.between_clear : KbStatics.clear.Between :=
  ⟨rfl, rfl⟩

/-- What a key pressed does to the flags. -/
def KbFlags.press (f : KbFlags) (scancode : BitVec 8) : KbFlags :=
  if scancode = kbScCapslock then { f with capslock := !f.capslock }
  else if scancode = kbScLshift ∨ scancode = kbScRshift then { f with shift := true }
  else if scancode = kbScLctrl then { f with ctrl := true }
  else if scancode = kbScLalt then { f with alt := true }
  else f

/-- What the sequence does to the flags of the modifiers. -/
def KbFlags.after (f : KbFlags) (q : ScanSequence) : KbFlags :=
  if q.broken then f.release q.code else f.press q.code

section Handler

variable {k : KbStatics} {scancode : BitVec 8}

/-- `0xE0` sets the extended flag. -/
theorem kbInterruptHandler_extended :
    kbInterruptHandler k ps2StatusOutput kbExtended = ({ k with extended := true }, []) := by
  simp [kbInterruptHandler, ps2StatusOutput]

/-- `0xF0` has the next byte taken for a break code. -/
theorem kbInterruptHandler_release :
    kbInterruptHandler k ps2StatusOutput kbKeyRelease =
      ({ k with awaitingBreakCode := true }, []) := by
  simp [kbInterruptHandler, ps2StatusOutput, kbExtended, kbKeyRelease]

/-- A break code ends its sequence. -/
theorem kbInterruptHandler_broken (h : scancode ≠ kbExtended ∧ scancode ≠ kbKeyRelease)
    (hk : k.awaitingBreakCode = true) :
    kbInterruptHandler k ps2StatusOutput scancode =
      (⟨{ k.toKbFlags.release scancode with extended := false }, false⟩, []) := by
  have hstatus : ¬ps2StatusOutput &&& ps2StatusOutput = 0 := by decide
  rw [kbInterruptHandler, if_neg hstatus, if_neg h.1, if_neg h.2, if_pos hk]

/-- A make code ends its sequence. -/
theorem kbInterruptHandler_made (h : scancode ≠ kbExtended ∧ scancode ≠ kbKeyRelease)
    (hk : k.awaitingBreakCode = false) :
    kbInterruptHandler k ps2StatusOutput scancode =
      (⟨{ k.toKbFlags.press scancode with extended := false }, false⟩,
        if isModifier scancode = false then k.print scancode else []) := by
  have hstatus : ¬ps2StatusOutput &&& ps2StatusOutput = 0 := by decide
  rw [kbInterruptHandler, if_neg hstatus, if_neg h.1, if_neg h.2, if_neg (by simp [hk])]
  unfold KbFlags.press isModifier
  split_ifs <;> simp_all

theorem KbFlags.extended_press (f : KbFlags) (scancode : BitVec 8) :
    (f.press scancode).extended = f.extended := by
  unfold press
  split_ifs <;> rfl

theorem KbFlags.extended_release (f : KbFlags) (scancode : BitVec 8) :
    (f.release scancode).extended = f.extended := by
  unfold release
  split_ifs <;> rfl

theorem KbFlags.extended_after (f : KbFlags) (q : ScanSequence) :
    (f.after q).extended = f.extended := by
  unfold after
  split_ifs
  · exact f.extended_release _
  · exact f.extended_press _

/-- The modifiers are not read together with the extended flag. -/
theorem KbFlags.press_extended (f : KbFlags) (e : Bool) :
    ({ f with extended := e } : KbFlags).press scancode =
      { f.press scancode with extended := e } := by
  unfold press
  split_ifs <;> rfl

theorem KbFlags.release_extended (f : KbFlags) (e : Bool) :
    ({ f with extended := e } : KbFlags).release scancode =
      { f.release scancode with extended := e } := by
  unfold release
  split_ifs <;> rfl

/-- The interrupt handler on a complete sequence. -/
theorem kbInterrupts_bytes (h : k.Between) (q : ScanSequence) :
    kbInterrupts k q.bytes =
      (⟨k.toKbFlags.after q, false⟩,
        if q.broken = true ∨ isModifier q.code = true then []
        else { k with extended := q.extended }.print q.code) := by
  obtain ⟨f, awaiting⟩ := k
  obtain rfl : awaiting = false := h.awaitingBreakCode
  have hf : { f with extended := false } = f := by
    rw [← show f.extended = false from h.extended]
  have hafter : { f.after q with extended := false } = f.after q := by
    rw [← show (f.after q).extended = false from (f.extended_after q).trans h.extended]
  obtain ⟨e, b, c, hc⟩ := q
  rw [← hafter]
  have hprint (k : KbStatics) : (if isModifier c = false then k.print c else []) =
      if isModifier c = true then [] else k.print c := by
    cases isModifier c <;> rfl
  -- the prefixes, then the code
  cases e <;> cases b <;>
    simp [ScanSequence.bytes, kbInterrupts, kbInterruptHandler_extended,
      kbInterruptHandler_release, kbInterruptHandler_made hc, kbInterruptHandler_broken hc,
      KbFlags.after, KbFlags.press_extended, KbFlags.release_extended, hprint, hf]

end Handler

end KernelDev
