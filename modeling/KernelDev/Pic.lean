import KernelDev.InterruptTables
import KernelDev.Lib.Pic8259
import KernelDev.Ps2

/-!
# `interrupts.c`, the interrupt controllers

The functions that program the two 8259A chips, as programs on ports. `IRQ_init` calls them with
`printk` in between and fills the tables of the processor, so its state is those tables,
`irq_table` and the calls of `printk` (`IrqState`). A line number that is shifted beyond the byte
of a mask has no defined outcome, so `IRQ_set_mask` and `IRQ_clear_mask` are on lines for which it
is defined.

The chips themselves are those of the library, one below the other, and a `Board` puts devices next
to them. Of the devices only the ports and the request lines are known (`Peripherals`). They go to
another state whenever they like, and after that and after each of their ports was read or written
the chips see what has become of the lines (`follow`). A line that rises has its request latched,
whatever made it rise. A request whose line has fallen again may be dropped, at any time : a chip
looks at the line when the request is acknowledged, and if that has become low it gives the vector
of its last line instead, and puts nothing in service. Such interrupts are the spurious ones, and
they are part of `Inta`, the acknowledge cycle of the processor.

In a cascade the master asks the slave for the vector of its line 2, and the slave gives it in its
own time, so its request may be gone by then.
-/

namespace KernelDev

open ByteMem

/-! ## `drivers.h` -/

/-- `PIC1_COMMAND` -/
def pic1Command : BitVec 16 := 0x20

/-- `PIC1_DATA` -/
def pic1Data : BitVec 16 := 0x21

/-- `PIC2_COMMAND` -/
def pic2Command : BitVec 16 := 0xa0

/-- `PIC2_DATA` -/
def pic2Data : BitVec 16 := 0xa1

/-- `PIC_EOI` -/
def picEoi : BitVec 8 := 0x20

/-- `ICW1_INIT | ICW1_ICW4` -/
def icw1 : BitVec 8 := 0x10 ||| 0x01

/-- `ICW4_8086` -/
def icw4 : BitVec 8 := 0x01

/-! ## The functions -/

/-- `io_wait` -/
def ioWait : Port Unit :=
  outb 0x80 0

/-- `PIC_sendEOI` -/
def picSendEOI (irq : BitVec 8) : Port Unit := do
  if 8 ≤ irq.toNat then
    outb pic2Command picEoi
  outb pic1Command picEoi

/-- `PIC_remap` -/
def picRemap (offset1 offset2 : BitVec 8) : Port Unit := do
  let mask1 ← inb pic1Data
  let mask2 ← inb pic2Data
  outb pic1Command icw1
  ioWait
  outb pic2Command icw1
  ioWait
  outb pic1Data offset1
  ioWait
  outb pic2Data offset2
  ioWait
  outb pic1Data 4
  ioWait
  outb pic2Data 2
  ioWait
  outb pic1Data icw4
  ioWait
  outb pic2Data icw4
  ioWait
  outb pic1Data mask1
  outb pic2Data mask2

/-- The port that `IRQ_set_mask` and `IRQ_clear_mask` take for a line, and the line there. -/
def irqPort (irq : BitVec 8) : BitVec 16 × BitVec 8 :=
  if irq.toNat < 8 then (pic1Data, irq) else (pic2Data, irq - 8)

/-- `IRQ_set_mask`, for lines whose shift is defined. -/
def irqSetMask (irq : BitVec 8) : Port Unit := do
  let value ← inb (irqPort irq).1
  outb (irqPort irq).1 ((value.setWidth 32 ||| 1#32 <<< (irqPort irq).2.toNat).setWidth 8)

/-- `IRQ_clear_mask`, for lines whose shift is defined. -/
def irqClearMask (irq : BitVec 8) : Port Unit := do
  let value ← inb (irqPort irq).1
  outb (irqPort irq).1 ((value.setWidth 32 &&& ~~~(1#32 <<< (irqPort irq).2.toNat)).setWidth 8)

/-- `irq_table` has entries. -/
instance irqLines : NeZero 16 := ⟨Nat.succ_ne_zero 15⟩

/-- An entry of `irq_table`, with the handlers in `H`. -/
structure IrqEntry (H : Type) where
  /-- The handler, or `NULL`. -/
  handler : Option H
  arg : Addr

/-- `irq_table` -/
abbrev IrqTable (H : Type) := Fin 16 → IrqEntry H

/-- `IRQ_set_handler`, with the call it makes of `printk`. -/
def irqSetHandler {H : Type} (table : IrqTable H) (irq : BitVec 32) (handler : Option H)
    (arg : Addr) : IrqTable H × KbPrint :=
  if h : 0 ≤ irq.toInt ∧ irq.toInt < 16 then
    (Function.update table ⟨irq.toInt.toNat, (Int.toNat_lt h.1).2 h.2⟩ ⟨handler, arg⟩,
      ⟨chars "Handler set for IRQ %d\n" ++ [0], [.word (irq.setWidth 64)]⟩)
  else (table, ⟨chars "Error: Invalid IRQ number %d\n" ++ [0], [.word (irq.setWidth 64)]⟩)

/-- The handlers of the kernel : `kb_interrupt_handler` and `serial_interrupt_handler`. -/
inductive IrqHandler where
  | kb | serial
  deriving DecidableEq

/-- What `IRQ_init` works on, with the calls of `printk` so far. -/
structure IrqState where
  table : IrqTable IrqHandler
  tables : Tables
  prints : List KbPrint

namespace IrqState

/-- The first loop of `IRQ_init`. -/
def clearTable (s : IrqState) : IrqState :=
  { s with table := (List.finRange 16).foldl (fun t i => Function.update t i ⟨none, 0⟩) s.table }

/-- A call of `IRQ_set_handler`. -/
def setHandler (s : IrqState) (irq : BitVec 32) (handler : IrqHandler) : IrqState :=
  let r := irqSetHandler s.table irq (some handler) 0
  { s with table := r.1, prints := s.prints ++ [r.2] }

end IrqState

/-- `IRQ_init`, up to the `sti` at its end. -/
def irqInit (s : IrqState) (sym : Symbols) : Port IrqState := do
  let s := s.clearTable
  let s := { s with tables := s.tables.idtInit sym }
  picRemap 0x20 0x28
  let s := s.setHandler 1 .kb
  irqClearMask 1
  let s := s.setHandler 4 .serial
  irqClearMask 4
  return s

/-! ## The board -/

/-- The devices on the other ports, and the request lines they drive. -/
structure Peripherals (S : Type) where
  device : Device (BitVec 16) (BitVec 8) S
  /-- The request lines that are high. -/
  lines : S → PicLine → Bool

/-- The two chips, and the state of the devices. -/
structure Board (S : Type) where
  pics : Cascade
  rest : S

namespace Board

variable {S : Type} (P : Peripherals S)

/-- The devices go to another state, and the chips see the lines change. -/
def follow (b : Board S) (rest : S) : Board S :=
  ⟨b.pics.latch (P.lines b.rest) (P.lines rest), rest⟩

/-- What the devices do by themselves, and a request dropped as its line is low. -/
inductive Own : Board S → Board S → Prop
  | device {b : Board S} {rest : S} : P.device.own b.rest rest → Own b (b.follow P rest)
  | drop {b : Board S} {l : PicLine} : P.lines b.rest l = false →
    Own b { b with pics := b.pics.request false l }

/-- Read a port of the board. -/
def readPort (port : BitVec 16) (b : Board S) : BitVec 8 × Board S :=
  if port = pic1Command then (b.pics.master.readCommand, b)
  else if port = pic1Data then (b.pics.master.imr, b)
  else if port = pic2Command then (b.pics.slave.readCommand, b)
  else if port = pic2Data then (b.pics.slave.imr, b)
  else ((P.device.read port b.rest).1, b.follow P (P.device.read port b.rest).2)

/-- Write a port of the board. -/
def writePort (port : BitVec 16) (val : BitVec 8) (b : Board S) : Board S :=
  if port = pic1Command then { b with pics.master := b.pics.master.writeCommand val }
  else if port = pic1Data then { b with pics.master := b.pics.master.writeData val }
  else if port = pic2Command then { b with pics.slave := b.pics.slave.writeCommand val }
  else if port = pic2Data then { b with pics.slave := b.pics.slave.writeData val }
  else b.follow P (P.device.write port val b.rest)

/-- The board as a device. -/
def device : Device (BitVec 16) (BitVec 8) (Board S) where
  read := readPort P
  write := writePort P
  own := Own P

/-- The processor acknowledges an interrupt and is given a vector. The slave gives it in its own
time. A chip that has no request any more gives the vector of its last line, and puts nothing in
service. -/
inductive Inta : BitVec 8 → Board S → Board S → Prop
  | master {b : Board S} {i : Fin 8} : b.pics.next = some (.master i) →
    Inta (b.pics.vector (.master i)) b { b with pics.master := b.pics.master.ack i }
  | slave {b b' : Board S} {j : Fin 8} : b.pics.seen.next = some 2 →
    (device P).Moves { b with pics.master := b.pics.master.ack 2 } b' →
    b'.pics.slave.next = some j →
    Inta (b'.pics.vector (.slave j)) b { b' with pics.slave := b'.pics.slave.ack j }
  | spuriousMaster {b : Board S} : b.pics.seen.next = none →
    Inta (b.pics.vector (.master 7)) b b
  | spuriousSlave {b b' : Board S} : b.pics.seen.next = some 2 →
    (device P).Moves { b with pics.master := b.pics.master.ack 2 } b' →
    b'.pics.slave.next = none → Inta (b'.pics.vector (.slave 7)) b b'

end Board

end KernelDev
