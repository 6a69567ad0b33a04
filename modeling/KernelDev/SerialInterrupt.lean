import KernelDev.Printk

/-!
# The interrupt handler of the serial port

`serial_interrupt_handler`. It reads the interrupt identification register, and the line status
register when that says so; the values that `inb` gives are arguments. With no interrupt pending it
does nothing.

For a line error it prints a message with the status, which is a call of `printk` that may go to
the serial port itself, so a handler may write into the ring that it is about to serve. For an
empty transmitter it clears `tx_busy` and sends the next byte : once in its `switch` and once more
behind it, where the same test is repeated. Other interrupts need nothing but the read of the
register.
-/

namespace KernelDev

/-- `COM_INT_IDENT_PENDING` : zero when an interrupt is pending. -/
def comIntIdentPending : BitVec 8 := 0x01

/-- `COM_INT_IDENT_MASK` -/
def comIntIdentMask : BitVec 8 := 0x0e

/-- `COM_INT_IDENT_TRANSMITTER_EMPTY` -/
def comIntIdentTransmitterEmpty : BitVec 8 := 0x02

/-- `COM_INT_IDENT_LINE_STATUS` -/
def comIntIdentLineStatus : BitVec 8 := 0x06

/-- The overrun, parity, framing and break bits of the line status register. -/
def comLineStatusErrors : BitVec 8 := 0x02 ||| 0x04 ||| 0x08 ||| 0x10

namespace Console

/-- The `switch` of `serial_interrupt_handler`. -/
def serviceInterrupt (s : Console) (interruptSource lsr : BitVec 8) : Option Console := do
  if interruptSource = comIntIdentLineStatus then
    if lsr &&& comLineStatusErrors ≠ 0 then
      let (s, _) ← s.printk (chars "Serial line error: 0x%x\n" ++ [0]) [.word (lsr.setWidth 64)]
      return s
    else return s
  else if interruptSource = comIntIdentTransmitterEmpty then
    return { s with uart := s.uart.transmitterEmpty }
  else return s

/-- `serial_interrupt_handler` -/
def serialInterruptHandler (s : Console) (iir lsr : BitVec 8) : Option Console := do
  if iir &&& comIntIdentPending ≠ 0 then return s
  let interruptSource := iir &&& comIntIdentMask
  let s ← s.serviceInterrupt interruptSource lsr
  if interruptSource = comIntIdentTransmitterEmpty then
    return { s with uart := s.uart.transmitterEmpty }
  else return s

end Console

end KernelDev
