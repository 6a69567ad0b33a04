import KernelDev.Lib.Critical
import KernelDev.PrintkOutput

/-!
# The accesses of the drivers

`VGA_display_char` and `SER_write` once more, read by read and write by write, with the places that
each of these touches : the cursor, the cells of display memory, the fields of `state`, the byte
behind a ring pointer, and the ports. Each field has its read and its write, and the functions are
made of them in the order of the source, with the tests on what was read.

They do what `Console.vgaDisplayChar` and `Console.serWrite` do (`next_vgaDisplayChar`,
`next_serWrite`), so nothing is left out, and touch nothing but inside of their critical sections
(`masked_vgaDisplayChar`, `masked_serWrite`). The bodies of the sections are `Quiet`, one lemma for
each function that they call : with interrupts off they leave them off. `vga_scroll` has a section
of its own, and is called inside of that of `VGA_display_char`; there it finds interrupts off and
does not turn them on (`quiet_scroll`).

The address of `state.buff` is a constant and no access (`ringStart`). `showChar` is the record of
what is displayed, which the source does not have.
-/

namespace KernelDev

open ByteMem Critical Critical.Action

instance : Interruptible Console where
  intFlag := Console.intFlag
  setIntFlag b s := { s with intFlag := b }
  intFlag_set _ _ := rfl

/-- What the drivers touch : the cursor, a cell of display memory, the fields of `state`, a byte
behind a ring pointer, and an I/O port. -/
inductive DriverPlace where
  | cursorX
  | cursorY
  | cell (i : BitVec 32)
  | consumer
  | producer
  | txBusy
  | count
  | portBase
  | ring (a : Addr)
  | port (p : BitVec 16)

/-- What a program of type `Q` touches : places of the drivers, or its own. -/
inductive Place (Q : Type) where
  | driver (p : DriverPlace)
  | own (q : Q)

namespace Access

variable {Q : Type}

/-- A computation on the console. -/
abbrev Act (Q α : Type) := Action Console (Place Q) α

/-! ## The display -/

def cursorX : Act Q (BitVec 32) :=
  load (.driver .cursorX) fun s => s.vga.cursorX

def setCursorX (x : BitVec 32) : Act Q Unit :=
  store (.driver .cursorX) fun s => { s with vga := { s.vga with cursorX := x } }

def cursorY : Act Q (BitVec 32) :=
  load (.driver .cursorY) fun s => s.vga.cursorY

def setCursorY (y : BitVec 32) : Act Q Unit :=
  store (.driver .cursorY) fun s => { s with vga := { s.vga with cursorY := y } }

def cell (i : BitVec 32) : Act Q (BitVec 16) :=
  load (.driver (.cell i)) fun s => s.vga.memory i

def setCell (i : BitVec 32) (v : BitVec 16) : Act Q Unit :=
  store (.driver (.cell i)) fun s => { s with vga := s.vga.poke i v }

/-- Copy a cell of row `y + 1` to row `y`. -/
def copyCell (y x : ℕ) : Act Q Unit := do
  let v ← cell (vgaIndex (BitVec.ofNat 32 x) (BitVec.ofNat 32 (y + 1)))
  setCell (vgaIndex (BitVec.ofNat 32 x) (BitVec.ofNat 32 y)) v

/-- Clear a cell of row `y`. -/
def clearCell (y x : ℕ) : Act Q Unit :=
  setCell (vgaIndex (BitVec.ofNat 32 x) (BitVec.ofNat 32 y)) (vgaCell 0x20)

/-- The body of `vga_scroll`. -/
def scrollRows : Act Q Unit := do
  times (fun y => times (copyCell y) vgaWidth.toNat) (vgaHeight.toNat - 1)
  times (clearCell (vgaHeight.toNat - 1)) vgaWidth.toNat

/-- `vga_scroll` -/
def vgaScroll : Act Q Unit :=
  critical scrollRows

/-- The `switch` of `VGA_display_char`. -/
def place (c : BitVec 8) : Act Q Unit :=
  if c = 0x0a then do
    setCursorX 0
    let y ← cursorY
    setCursorY (y + 1)
  else if c = 0x0d then setCursorX 0
  else if c = 0x09 then do
    let x ← cursorX
    setCursorX ((x + 8) &&& ~~~7)
  else do
    let x ← cursorX
    let y ← cursorY
    setCell (vgaIndex x y) (vgaCell c)
    let x ← cursorX
    setCursorX (x + 1)

/-- The line wrap of `VGA_display_char`. -/
def wrap : Act Q Unit := do
  let x ← cursorX
  when (vgaWidth.sle x) do
    setCursorX 0
    let y ← cursorY
    setCursorY (y + 1)

/-- The scrolling of `VGA_display_char`, in a critical section of its own. -/
def scroll : Act Q Unit := do
  let y ← cursorY
  when (vgaHeight.sle y) do
    vgaScroll
    setCursorY (vgaHeight - 1)

/-- The record of what is displayed. -/
def showChar (c : BitVec 8) : Act Q Unit :=
  note fun s => { s with vga := { s.vga with shown := s.vga.shown ++ [c] } }

/-- `VGA_display_char` -/
def vgaDisplayChar (c : BitVec 8) : Act Q Unit :=
  critical do
    place c
    wrap
    showChar c
    scroll

/-! ## The serial port -/

def consumer : Act Q Addr :=
  load (.driver .consumer) fun s => s.uart.consumer

def setConsumer (p : Addr) : Act Q Unit :=
  store (.driver .consumer) fun s => { s with uart := { s.uart with consumer := p } }

def producer : Act Q Addr :=
  load (.driver .producer) fun s => s.uart.producer

def setProducer (p : Addr) : Act Q Unit :=
  store (.driver .producer) fun s => { s with uart := { s.uart with producer := p } }

def txBusy : Act Q Bool :=
  load (.driver .txBusy) fun s => s.uart.txBusy

def setTxBusy (b : Bool) : Act Q Unit :=
  store (.driver .txBusy) fun s => { s with uart := { s.uart with txBusy := b } }

def count : Act Q ℤ :=
  load (.driver .count) fun s => s.uart.count

def setCount (n : ℤ) : Act Q Unit :=
  store (.driver .count) fun s => { s with uart := { s.uart with count := n } }

def portBase : Act Q (BitVec 16) :=
  load (.driver .portBase) fun s => s.uart.portBase

/-- `outb` -/
def outb (port : BitVec 16) (val : BitVec 8) : Act Q Unit :=
  store (.driver (.port port)) fun s => { s with uart := s.uart.outb port val }

def ringByte (p : Addr) : Act Q (BitVec 8) :=
  load (.driver (.ring p)) fun s => s.uart.mem p

def setRingByte (p : Addr) (b : BitVec 8) : Act Q Unit :=
  store (.driver (.ring p)) fun s => { s with
    uart := { s.uart with mem := Function.update s.uart.mem p b, stored := s.uart.stored ++ [b] } }

/-- The address of `state.buff`, which is no variable. -/
def ringStart : Act Q Addr :=
  fun s => ([], s.uart.buff, s)

/-- `state.producer++`, and back to the start of the ring behind its end. -/
def advanceProducer : Act Q Unit := do
  let p ← producer
  setProducer (p + 1)
  let p ← producer
  let buff ← ringStart
  when (p ≥ buff + BitVec.ofNat 64 buffSize) (setProducer buff)

/-- `state.consumer++`, and back to the start of the ring behind its end. -/
def advanceConsumer : Act Q Unit := do
  let p ← consumer
  setConsumer (p + 1)
  let p ← consumer
  let buff ← ringStart
  when (p ≥ buff + BitVec.ofNat 64 buffSize) (setConsumer buff)

/-- The loop body of `SER_write`. -/
def enqueue (b : BitVec 8) : Act Q Unit := do
  let p ← producer
  setRingByte p b
  advanceProducer
  let n ← count
  setCount (n + 1)

/-- `hardware_write`, with the transmitter free and bytes in the ring. -/
def sendNext : Act Q Unit := do
  setTxBusy true
  let p ← consumer
  let nextByte ← ringByte p
  advanceConsumer
  let n ← count
  setCount (n - 1)
  let base ← portBase
  outb (base + comTransmitOffset) nextByte

/-- `hardware_write` -/
def hardwareWrite : Act Q Unit := do
  let busy ← txBusy
  when (!busy) do
    let n ← count
    when (n > 0) sendNext

/-- `SER_write`, with its result. -/
def serWrite (buff : ℕ → BitVec 8) (len : ℤ) : Act Q ℤ :=
  critical do
    let n ← count
    let bytesFree := buffSize - n
    let bytesToCopy := if bytesFree ≥ len then len else bytesFree
    times (fun i => enqueue (buff i)) bytesToCopy.toNat
    hardwareWrite
    return bytesToCopy

/-! ## Sections -/

section

variable (x y : BitVec 32) (i : BitVec 32) (v : BitVec 16) (p : Addr) (b : Bool) (n : ℤ)

theorem quiet_setCursorX : Quiet (setCursorX x : Act Q Unit) := .store _ fun _ => rfl

theorem quiet_setCursorY : Quiet (setCursorY y : Act Q Unit) := .store _ fun _ => rfl

theorem quiet_setCell : Quiet (setCell i v : Act Q Unit) := .store _ fun _ => rfl

theorem quiet_setConsumer : Quiet (setConsumer p : Act Q Unit) := .store _ fun _ => rfl

theorem quiet_setProducer : Quiet (setProducer p : Act Q Unit) := .store _ fun _ => rfl

theorem quiet_setTxBusy : Quiet (setTxBusy b : Act Q Unit) := .store _ fun _ => rfl

theorem quiet_setCount : Quiet (setCount n : Act Q Unit) := .store _ fun _ => rfl

theorem quiet_setRingByte (b : BitVec 8) : Quiet (setRingByte p b : Act Q Unit) :=
  .store _ fun _ => rfl

theorem quiet_outb (port : BitVec 16) (val : BitVec 8) : Quiet (outb port val : Act Q Unit) :=
  .store _ fun _ => rfl

theorem quiet_ringStart : Quiet (ringStart : Act Q Addr) :=
  ⟨fun _ h => h, fun _ _ _ he => (List.not_mem_nil he).elim⟩

end

theorem quiet_scrollRows : Quiet (scrollRows : Act Q Unit) := by
  have hcopy : ∀ y x, Quiet (copyCell y x : Act Q Unit) := fun y x =>
    (Quiet.load _ _).bind fun _ => quiet_setCell _ _
  exact (Quiet.times (fun y => Quiet.times (hcopy y) _) _).bind fun _ =>
    Quiet.times (fun x => quiet_setCell _ _) _

/-- `vga_scroll` keeps its section. -/
theorem masked_vgaScroll (shared : Place Q → Prop) : Masked shared (vgaScroll : Act Q Unit) :=
  .critical quiet_scrollRows

/-- The `switch` stays inside of the section. -/
theorem quiet_place (c : BitVec 8) : Quiet (place c : Act Q Unit) := by
  unfold place
  split_ifs
  · exact (quiet_setCursorX 0).bind fun _ => (Quiet.load _ _).bind fun y => quiet_setCursorY _
  · exact quiet_setCursorX 0
  · exact (Quiet.load _ _).bind fun x => quiet_setCursorX _
  · exact (Quiet.load _ _).bind fun x => (Quiet.load _ _).bind fun y =>
      (quiet_setCell _ _).bind fun _ => (Quiet.load _ _).bind fun x => quiet_setCursorX _

theorem quiet_wrap : Quiet (wrap : Act Q Unit) := by
  refine (Quiet.load _ _).bind fun _ => Quiet.when ?_ _
  exact (quiet_setCursorX 0).bind fun _ => (Quiet.load _ _).bind fun _ => quiet_setCursorY _

/-- Scrolling turns interrupts on again only if it found them on, which it does not in the section
around it. -/
theorem quiet_scroll : Quiet (scroll : Act Q Unit) := by
  refine (Quiet.load _ _).bind fun _ => Quiet.when ?_ _
  exact (masked_vgaScroll fun _ => True).isQuiet.bind fun _ => quiet_setCursorY _

/-- `VGA_display_char` keeps its section. -/
theorem masked_vgaDisplayChar (shared : Place Q → Prop) (c : BitVec 8) :
    Masked shared (vgaDisplayChar c : Act Q Unit) := by
  have hshow : Quiet (showChar c : Act Q Unit) := .note fun _ => rfl
  exact .critical ((quiet_place c).bind fun _ => quiet_wrap.bind fun _ =>
    hshow.bind fun _ => quiet_scroll)

theorem quiet_advanceProducer : Quiet (advanceProducer : Act Q Unit) := by
  refine (Quiet.load _ _).bind fun p => (quiet_setProducer (p + 1)).bind fun _ => ?_
  exact (Quiet.load _ _).bind fun q => quiet_ringStart.bind fun buff =>
    (quiet_setProducer buff).when _

theorem quiet_advanceConsumer : Quiet (advanceConsumer : Act Q Unit) := by
  refine (Quiet.load _ _).bind fun p => (quiet_setConsumer (p + 1)).bind fun _ => ?_
  exact (Quiet.load _ _).bind fun q => quiet_ringStart.bind fun buff =>
    (quiet_setConsumer buff).when _

theorem quiet_enqueue (b : BitVec 8) : Quiet (enqueue b : Act Q Unit) := by
  refine (Quiet.load _ _).bind fun p => (quiet_setRingByte p b).bind fun _ => ?_
  exact quiet_advanceProducer.bind fun _ => (Quiet.load _ _).bind fun n => quiet_setCount (n + 1)

theorem quiet_sendNext : Quiet (sendNext : Act Q Unit) := by
  refine (quiet_setTxBusy true).bind fun _ => (Quiet.load _ _).bind fun p => ?_
  refine (Quiet.load _ _).bind fun nextByte => quiet_advanceConsumer.bind fun _ => ?_
  refine (Quiet.load _ _).bind fun n => (quiet_setCount (n - 1)).bind fun _ => ?_
  exact (Quiet.load _ _).bind fun base => quiet_outb _ nextByte

theorem quiet_hardwareWrite : Quiet (hardwareWrite : Act Q Unit) := by
  refine (Quiet.load _ _).bind fun busy => Quiet.when ?_ _
  exact (Quiet.load _ _).bind fun n => quiet_sendNext.when _

/-- `SER_write` keeps its section. -/
theorem masked_serWrite (shared : Place Q → Prop) (buff : ℕ → BitVec 8) (len : ℤ) :
    Masked shared (serWrite buff len : Act Q ℤ) := by
  refine .critical ((Quiet.load _ _).bind fun n => ?_)
  exact (Quiet.times (fun i => quiet_enqueue (buff i)) _).bind fun _ =>
    quiet_hardwareWrite.bind fun _ => .pure _

/-! ## What the accesses do -/

/-- A section has the effect of its body. -/
theorem next_critical {α : Type} (m : Act Q α) (s : Console) :
    (critical m).next s = s.critical m.next := by
  unfold Console.critical
  split_ifs with hint
  · rw [next, critical_on hint]
    rfl
  · rw [next, critical_off (Bool.eq_false_iff.2 hint)]
    rfl

/-- A loop that does `g` to the display. -/
theorem next_times_vga (g : Vga → ℕ → Vga) {f : ℕ → Act Q Unit}
    (hf : ∀ i s, (f i).next s = { s with vga := g s.vga i }) (n : ℕ) (s : Console) :
    (times f n).next s = { s with vga := (List.range n).foldl g s.vga } :=
  next_times (fun s => s.vga) (fun s v => { s with vga := v }) g (fun _ => rfl) (fun _ _ => rfl)
    (fun _ _ _ => rfl) hf n s

theorem next_copyRow (y : ℕ) (s : Console) :
    (times (copyCell y : ℕ → Act Q Unit) vgaWidth.toNat).next s =
      { s with vga := s.vga.copyRow y } := by
  rw [Vga.copyRow, Vga.setCells]
  exact next_times_vga _ (fun _ _ => rfl) vgaWidth.toNat s

theorem next_clearRow (y : ℕ) (s : Console) :
    (times (clearCell y : ℕ → Act Q Unit) vgaWidth.toNat).next s =
      { s with vga := s.vga.clearRow y } := by
  rw [Vga.clearRow, Vga.setCells]
  exact next_times_vga _ (fun _ _ => rfl) vgaWidth.toNat s

theorem next_scrollRows (s : Console) :
    (scrollRows : Act Q Unit).next s = { s with vga := s.vga.scrollRows } := by
  rw [scrollRows, next_bind, next_clearRow, next_times_vga Vga.copyRow fun y s => next_copyRow y s,
    Vga.scrollRows]

theorem next_vgaScroll (s : Console) : (vgaScroll : Act Q Unit).next s = s.vgaScroll := by
  rw [vgaScroll, next_critical, funext next_scrollRows]
  rfl

theorem next_place (c : BitVec 8) (s : Console) :
    (place c : Act Q Unit).next s = { s with vga := s.vga.place c } := by
  unfold place Vga.place
  split_ifs <;> rfl

theorem next_wrap (s : Console) : (wrap : Act Q Unit).next s = { s with vga := s.vga.wrap } := by
  rw [wrap, next_bind, next_when, Vga.wrap]
  show (if vgaWidth.sle s.vga.cursorX then _ else _) = _
  split_ifs <;> rfl

theorem next_showChar (c : BitVec 8) (s : Console) : (showChar c : Act Q Unit).next s =
    { s with vga := { s.vga with shown := s.vga.shown ++ [c] } } :=
  rfl

theorem next_scroll (s : Console) : (scroll : Act Q Unit).next s =
    if vgaHeight.sle s.vga.cursorY then
      { s.vgaScroll with vga := { s.vgaScroll.vga with cursorY := vgaHeight - 1 } }
    else s := by
  rw [scroll, next_bind, next_when, next_bind, ← next_vgaScroll (Q := Q)]
  rfl

/-- `VGA_display_char` does what it does in `Console`. -/
theorem next_vgaDisplayChar (c : BitVec 8) (s : Console) :
    (vgaDisplayChar c : Act Q Unit).next s = s.vgaDisplayChar c := by
  rw [vgaDisplayChar, next_critical]
  refine congrArg s.critical (funext fun t => ?_)
  have hshown : ((t.vga.place c).wrap).shown = t.vga.shown := by
    unfold Vga.wrap Vga.place
    split_ifs <;> rfl
  rw [next_bind, next_bind, next_bind, next_place, next_wrap, next_showChar]
  dsimp only
  rw [hshown, next_scroll]

theorem next_advanceProducer (s : Console) : (advanceProducer : Act Q Unit).next s =
    { s with uart := { s.uart with producer := s.uart.advance s.uart.producer } } := by
  unfold advanceProducer Uart.advance
  rw [next_bind, next_bind, next_bind, next_bind, next_when]
  show (if decide (s.uart.producer + 1 ≥ s.uart.buff + BitVec.ofNat 64 buffSize) then _ else _) = _
  by_cases hend : s.uart.producer + 1 ≥ s.uart.buff + BitVec.ofNat 64 buffSize
  · rw [decide_eq_true hend, if_pos rfl, if_pos hend]
    rfl
  · rw [decide_eq_false hend, if_neg Bool.false_ne_true, if_neg hend]
    rfl

theorem next_advanceConsumer (s : Console) : (advanceConsumer : Act Q Unit).next s =
    { s with uart := { s.uart with consumer := s.uart.advance s.uart.consumer } } := by
  unfold advanceConsumer Uart.advance
  rw [next_bind, next_bind, next_bind, next_bind, next_when]
  show (if decide (s.uart.consumer + 1 ≥ s.uart.buff + BitVec.ofNat 64 buffSize) then _ else _) = _
  by_cases hend : s.uart.consumer + 1 ≥ s.uart.buff + BitVec.ofNat 64 buffSize
  · rw [decide_eq_true hend, if_pos rfl, if_pos hend]
    rfl
  · rw [decide_eq_false hend, if_neg Bool.false_ne_true, if_neg hend]
    rfl

theorem next_enqueue (b : BitVec 8) (s : Console) :
    (enqueue b : Act Q Unit).next s = { s with uart := s.uart.enqueue b } := by
  rw [enqueue, next_bind, next_bind, next_bind, next_advanceProducer]
  rfl

theorem next_sendNext (s : Console) (hbusy : s.uart.txBusy = false) (hcount : s.uart.count > 0) :
    (sendNext : Act Q Unit).next s = { s with uart := s.uart.hardwareWrite } := by
  rw [sendNext, next_bind, next_bind, next_bind, next_bind, next_advanceConsumer,
    Uart.hardwareWrite, if_pos ⟨hbusy, hcount⟩]
  rfl

/-- `hardware_write` does what it does in `Console`. -/
theorem next_hardwareWrite (s : Console) :
    (hardwareWrite : Act Q Unit).next s = { s with uart := s.uart.hardwareWrite } := by
  rw [hardwareWrite, next_bind, next_when, next_bind, next_when]
  show (if !s.uart.txBusy then if decide (s.uart.count > 0) then sendNext.next s else s else s) = _
  by_cases hidle : s.uart.txBusy = false ∧ s.uart.count > 0
  · rw [hidle.1, decide_eq_true hidle.2]
    exact next_sendNext s hidle.1 hidle.2
  · rw [Uart.hardwareWrite, if_neg hidle]
    split_ifs with hbusy hcount
    · exact absurd ⟨by simpa using hbusy, of_decide_eq_true hcount⟩ hidle
    · rfl
    · rfl

/-- `SER_write` does what it does in `Console`. -/
theorem next_serWrite (buff : ℕ → BitVec 8) (len : ℤ) (s : Console) :
    (serWrite buff len : Act Q ℤ).next s = (s.serWrite buff len).1 := by
  have htimes : ∀ (n : ℕ) (t : Console), (times (fun i => enqueue (buff i)) n : Act Q Unit).next t =
      { t with uart := t.uart.enqueueFrom buff n } := fun n t =>
    next_times (fun s => s.uart) (fun s u => { s with uart := u }) (fun u i => u.enqueue (buff i))
      (fun _ => rfl) (fun _ _ => rfl) (fun _ _ _ => rfl) (fun _ _ => next_enqueue _ _) n t
  have hsame : (s.serWrite buff len).1 =
      s.critical fun s => { s with uart := s.uart.write buff len } := rfl
  rw [serWrite, next_critical, hsame]
  refine congrArg s.critical (funext fun t => ?_)
  rw [next_bind, next_bind, next_bind, htimes, next_hardwareWrite]
  rfl

end Access

end KernelDev
