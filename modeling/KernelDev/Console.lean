import KernelDev.Lib.Memory

/-!
# The state of the console

`Console` holds the static variables of `vga.c`, `serial.c` and `printk.c`, the memory of the
display and of the transmit ring, and the interrupt flag of the processor. It is the state of
everything that prints, and the functions of the three files are functions on it.

The display memory is indexed by the C `int` of `vga_index`, so a write outside of the screen is
seen as such and not cut off. The ring of the serial port is an array in memory that is reached
through two pointers, `consumer` and `producer`, which are addresses and may point anywhere until
`SER_init` sets them; a static pointer is `NULL` before that. `count` is an `int` of which the code
takes care not to let it overflow. The buffer for digits is indexed by naturals, as its indices are
computed from lengths.

Some records grow and are never read by the functions, each in order : the indices written to
display memory (`writes`) and the characters displayed (`shown`), the bytes stored in the ring
(`stored`) and written to I/O ports (`out`), and the indices written to `print_buf` (`stores`).
They are there for what is said about whole runs.

`critical` is the pattern around everything that touches the ring or the display : interrupts are
turned off if they were on, and on again afterwards.
-/

namespace KernelDev

open ByteMem

/-- The static variables of `vga.c` and the display. -/
structure Vga where
  memory : BitVec 32 → BitVec 16
  cursorX : BitVec 32
  cursorY : BitVec 32
  /-- The cells written so far, by their index. -/
  writes : List (BitVec 32)
  /-- The characters displayed so far. -/
  shown : List (BitVec 8)

/-- `BUFF_SIZE` -/
def buffSize : ℕ := 16

/-- `struct UART_State`, with `buff` the address of its ring, which as a C object ends below the
end of memory. Only `0` and `1` are ever stored in the flags, which are `Bool`. -/
structure Uart where
  mem : Mem
  buff : Addr
  placed : buff.toNat + buffSize < 2 ^ 64
  consumer : Addr
  producer : Addr
  txBusy : Bool
  count : ℤ
  initialized : Bool
  portBase : BitVec 16
  /-- The bytes that went into the ring so far. -/
  stored : List (BitVec 8)
  /-- The ports written so far, with the values. -/
  out : List (BitVec 16 × BitVec 8)

/-- The static variables of `printk.c`. -/
structure DigitBuf where
  printBuf : ℕ → BitVec 8
  intLen : BitVec 32
  /-- The places of the buffer written so far. -/
  stores : List ℕ

/-- The state that printing works on. -/
structure Console where
  intFlag : Bool
  vga : Vga
  uart : Uart
  digits : DigitBuf

namespace Console

/-- The console before any call : static variables are zero, in memory `mem` with the ring at
`buff`. -/
def atStart (mem : Mem) (buff : Addr) (h : buff.toNat + buffSize < 2 ^ 64) : Console where
  intFlag := false
  vga := { memory := fun _ => 0, cursorX := 0, cursorY := 0, writes := [], shown := [] }
  uart :=
    { mem := mem, buff := buff, placed := h, consumer := 0, producer := 0, txBusy := false
      count := 0, initialized := false, portBase := 0, stored := [], out := [] }
  digits := { printBuf := fun _ => 0, intLen := 0, stores := [] }

/-- Run `body` with interrupts off : `cli` before it and `sti` after it if they were on. -/
def critical (s : Console) (body : Console → Console) : Console :=
  if s.intFlag then { body { s with intFlag := false } with intFlag := true } else body s

/-- A body that does not depend on the interrupt flag is run as it is. -/
theorem critical_eq {s : Console} {body : Console → Console}
    (h : ∀ b, body { s with intFlag := b } = { body s with intFlag := b }) :
    s.critical body = body s := by
  unfold critical
  split_ifs with hint
  · have hs : { s with intFlag := true } = s := by rw [← hint]
    have htrue := h true
    rw [hs] at htrue
    rw [h false]
    exact htrue.symm
  · rfl

end Console

end KernelDev
