import KernelDev.Console

/-!
# `serial.c`

The transmit side of the serial port. `SER_write` copies bytes into the ring `state.buff`, as many
as there is room for, and returns their number; then `hardware_write` sends one when the
transmitter is free. The rest goes out one by one when the interrupt handler finds the transmitter
empty (`transmitterEmpty`). The flag `tx_busy` is set when a byte is sent and cleared by the
handler.

The ring is reached through the pointers, wherever they point, and both go back to its start when
they come past its last byte (`advance`). Nothing but `count` tells a full ring from an empty one.
`SER_write` computes the room as `BUFF_SIZE - count` and takes the smaller of that and of the
length (`bytesToCopy`), which is an `int` and may be negative.

Everything from the first comparison on runs with interrupts off, as the handler works on the same
variables. `serWrite_eq` says that the section has no effect beyond its body.
-/

namespace KernelDev

open ByteMem

/-- `COM_TRANSMIT_OFFSET` -/
def comTransmitOffset : BitVec 16 := 0

namespace Uart

/-- `outb` to a port of this UART. -/
def outb (u : Uart) (port : BitVec 16) (val : BitVec 8) : Uart :=
  { u with out := u.out ++ [(port, val)] }

/-- Move a ring pointer on : past the last byte it is the first one again. -/
def advance (u : Uart) (p : Addr) : Addr :=
  if p + 1 ≥ u.buff + BitVec.ofNat 64 buffSize then u.buff else p + 1

/-- `hardware_write` -/
def hardwareWrite (u : Uart) : Uart :=
  if u.txBusy = false ∧ u.count > 0 then
    let nextByte := u.mem u.consumer
    let u := { u with txBusy := true, consumer := u.advance u.consumer, count := u.count - 1 }
    u.outb (u.portBase + comTransmitOffset) nextByte
  else u

/-- The two statements for a transmitter-empty interrupt : the transmitter is free, and sends
the next byte. -/
def transmitterEmpty (u : Uart) : Uart :=
  { u with txBusy := false }.hardwareWrite

/-- The loop body of `SER_write`: one byte goes into the ring. -/
def enqueue (u : Uart) (b : BitVec 8) : Uart :=
  { u with
    mem := Function.update u.mem u.producer b
    stored := u.stored ++ [b]
    producer := u.advance u.producer
    count := u.count + 1 }

/-- The loop of `SER_write` over the first `n` bytes. -/
def enqueueFrom (u : Uart) (buff : ℕ → BitVec 8) (n : ℕ) : Uart :=
  (List.range n).foldl (fun u i => u.enqueue (buff i)) u

/-- The bytes `SER_write` takes. -/
def bytesToCopy (u : Uart) (len : ℤ) : ℤ :=
  let bytesFree := buffSize - u.count
  if bytesFree ≥ len then len else bytesFree

/-- The part of `SER_write` that runs with interrupts off. -/
def write (u : Uart) (buff : ℕ → BitVec 8) (len : ℤ) : Uart :=
  (u.enqueueFrom buff (u.bytesToCopy len).toNat).hardwareWrite

end Uart

namespace Console

/-- `SER_write`, with its result. -/
def serWrite (s : Console) (buff : ℕ → BitVec 8) (len : ℤ) : Console × ℤ :=
  (s.critical fun s => { s with uart := s.uart.write buff len }, s.uart.bytesToCopy len)

/-- `SER_write` does not depend on the interrupt flag. -/
theorem serWrite_eq (s : Console) (buff : ℕ → BitVec 8) (len : ℤ) :
    s.serWrite buff len = ({ s with uart := s.uart.write buff len }, s.uart.bytesToCopy len) := by
  rw [serWrite, critical_eq fun _ => rfl]

end Console

end KernelDev
