import KernelDev.Keyboard
import KernelDev.Lib.Device

/-!
# `drivers.c`, the PS/2 controller and the start of the keyboard

`ps2_init`, `kb_init` and what they are made of, as programs on the ports of a PS/2 controller,
with loops where the source waits. `printk` is a call that `kb_init` makes and is part of its
result.

The other side is the controller. It has an input buffer, which takes a byte from the processor,
and an output buffer, which holds one for it, and its status register says of both whether they are
full. It acts on the byte in the input buffer in its own time : a command may ask for a
configuration or change whether the clocks of the two ports run, and data is a configuration if a
command awaits one, or else goes to the keyboard. A reply waits for the output buffer to be empty.
So do the bytes of the devices, which come only while the clock of their port runs. If the
processor takes the interrupts of the first port, its handler may read a byte at any time (`Own`).

The keyboard answers what it is sent as `drivers.h` says : a byte is acknowledged, and a reset is
followed by the code of the self test (`receive`). Two commands have a value that comes next. Keys
may be pressed at any time, so the bytes it has to send are replies and scan codes in the order in
which they arose, and no key sends what a self test gives (`NoTestCode`).

A byte written while the input buffer is full would be lost. The controller remembers that in
`overrun`, so that it can be said to never happen.
-/

namespace KernelDev

/-- Programs on I/O ports. -/
abbrev Port := PortProgram (BitVec 16) (BitVec 8)

/-- `inb` -/
def inb (port : BitVec 16) : Port (BitVec 8) :=
  .read port

/-- `outb` -/
def outb (port : BitVec 16) (val : BitVec 8) : Port Unit :=
  .write port val

/-- Writes to ports, one after the other. -/
def outbs : List (BitVec 16 × BitVec 8) → Port Unit
  | [] => .ret ()
  | w :: ws => (outb w.1 w.2).bind fun _ => outbs ws

/-! ## `drivers.h` -/

/-- `PS2_DATA` -/
def ps2Data : BitVec 16 := 0x60

/-- `PS2_CMD`, which is `PS2_STATUS` too. -/
def ps2Cmd : BitVec 16 := 0x64

/-- `PS2_STATUS_INPUT` -/
def ps2StatusInput : BitVec 8 := 1 <<< 1

/-- `PS2_READ_CONFIG` -/
def ps2ReadConfig : BitVec 8 := 0x20

/-- `PS2_WRITE_CONFIG` -/
def ps2WriteConfig : BitVec 8 := 0x60

/-- `PS2_DISABLE_PORT1` -/
def ps2DisablePort1 : BitVec 8 := 0xad

/-- `PS2_DISABLE_PORT2` -/
def ps2DisablePort2 : BitVec 8 := 0xa7

/-- `PS2_ENABLE_PORT1` -/
def ps2EnablePort1 : BitVec 8 := 0xae

/-- `KB_SCAN` -/
def kbScan : BitVec 8 := 0xf0

/-- `KB_REPEAT_RATE` -/
def kbRepeatRate : BitVec 8 := 0xf3

/-- `KB_ENABLE` -/
def kbEnable : BitVec 8 := 0xf4

/-- `KB_RESET` -/
def kbReset : BitVec 8 := 0xff

/-- `KB_TEST_PASS` -/
def kbTestPass : BitVec 8 := 0xaa

/-- `KB_ACK` -/
def kbAck : BitVec 8 := 0xfa

/-- `KB_TEST_FAIL1` -/
def kbTestFail1 : BitVec 8 := 0xfc

/-- `KB_TEST_FAIL2` -/
def kbTestFail2 : BitVec 8 := 0xfd

/-! ## The drivers -/

namespace Ps2

/-- `ps2_wait_write` -/
def waitWrite : Port Unit :=
  .untilTrue do
    let status ← inb ps2Cmd
    return status &&& ps2StatusInput = 0

/-- `ps2_wait_read` -/
def waitRead : Port Unit :=
  .untilTrue do
    let status ← inb ps2Cmd
    return status &&& ps2StatusOutput ≠ 0

/-- `ps2_read_data` -/
def readData : Port (BitVec 8) := do
  waitRead
  inb ps2Data

/-- `ps2_write_data` -/
def writeData (cmd : BitVec 8) : Port Unit := do
  waitWrite
  outb ps2Data cmd

/-- `ps2_write_command` -/
def writeCommand (cmd : BitVec 8) : Port Unit := do
  waitWrite
  outb ps2Cmd cmd

/-- The loop of `ps2_init` that empties the output buffer. -/
def flush : Port Unit :=
  .untilTrue do
    let status ← inb ps2Cmd
    if status &&& ps2StatusOutput = 0 then return true
    else
      let _ ← inb ps2Data
      return false

/-- The configuration that `ps2_init` makes of the one it has read. -/
def configure (config : BitVec 8) : BitVec 8 :=
  let config := config &&& ~~~0x10
  let config := config ||| 0x01
  let config := config ||| 0x20
  let config := config &&& ~~~0x02
  config &&& ~~~0x40

end Ps2

open Ps2

/-- `ps2_init` -/
def ps2Init : Port Unit := do
  writeCommand ps2DisablePort1
  writeCommand ps2DisablePort2
  flush
  writeCommand ps2ReadConfig
  let config ← readData
  writeCommand ps2WriteConfig
  writeData (configure config)
  writeCommand ps2EnablePort1

/-- The loop of `kb_init` : the response that ends it. -/
def kbSelfTest : Port (BitVec 8) :=
  .loop (do
    let response ← readData
    if response = kbTestPass ∨ response = kbTestFail1 ∨ response = kbTestFail2 then
      return some response
    else return none) .ret

/-- `kb_init`, with its result and the call it makes of `printk`. -/
def kbInit : Port (ℤ × List KbPrint) := do
  writeData kbReset
  let _ ← readData
  let response ← kbSelfTest
  if response ≠ kbTestPass then
    return (-1, [⟨chars "Keyboard self test failed with code 0x%x\n" ++ [0],
      [.word (response.setWidth 64)]⟩])
  else
    writeData kbScan
    let _ ← readData
    writeData 2
    let _ ← readData
    writeData kbEnable
    let _ ← readData
    writeData kbRepeatRate
    let _ ← readData
    writeData 0x4a
    let _ ← readData
    return (0, [])

/-! ## The controller and the keyboard -/

/-- A keyboard : the bytes it has to send, the command it awaits a value for, and its
settings. `selfTest` is what its self test gives. `typed` counts the bytes of the keys pressed
since the last reset, and `received` records the bytes it was sent. -/
structure Ps2Keyboard where
  /-- Replies and scan codes, in the order in which they arose. -/
  queue : List (BitVec 8)
  /-- The command whose value comes next. -/
  awaiting : Option (BitVec 8)
  scanSet : BitVec 8
  repeatRate : BitVec 8
  scanning : Bool
  selfTest : BitVec 8
  typed : ℕ
  received : List (BitVec 8)

namespace Ps2Keyboard

/-- Reset : the settings are those of the keyboard, and what it had to send is forgotten. -/
def reset (k : Ps2Keyboard) : Ps2Keyboard :=
  { k with
    queue := [kbAck, k.selfTest], awaiting := none, scanSet := 2, repeatRate := 0x2b
    scanning := true, typed := 0 }

/-- A byte other than the reset is acknowledged. It is a value that was awaited, or a command. -/
def accept (k : Ps2Keyboard) (b : BitVec 8) : Ps2Keyboard :=
  let acked := { k with queue := k.queue ++ [kbAck], awaiting := none }
  if k.awaiting = some kbScan then { acked with scanSet := b }
  else if k.awaiting = some kbRepeatRate then { acked with repeatRate := b }
  else if b = kbScan ∨ b = kbRepeatRate then { acked with awaiting := some b }
  else if b = kbEnable then { acked with scanning := true }
  else acked

/-- The keyboard is sent a byte. -/
def receive (k : Ps2Keyboard) (b : BitVec 8) : Ps2Keyboard :=
  let k := { k with received := k.received ++ [b] }
  if b = kbReset then k.reset else k.accept b

/-- A byte that no self test gives, as no key sends one. -/
def NoTestCode (b : BitVec 8) : Prop :=
  b ≠ kbTestPass ∧ b ≠ kbTestFail1 ∧ b ≠ kbTestFail2

instance (b : BitVec 8) : Decidable (NoTestCode b) :=
  inferInstanceAs (Decidable (_ ∧ _ ∧ _))

/-- Keys are pressed. -/
def press (k : Ps2Keyboard) (bs : List (BitVec 8)) : Ps2Keyboard :=
  { k with queue := k.queue ++ bs, typed := k.typed + bs.length }

end Ps2Keyboard

/-- A PS/2 controller with a keyboard on its first port. A byte in the input buffer is a
command or data. `second` says whether there is a device on the second port, and `irq` whether
the processor takes the interrupts. `overrun` is set when a byte is written over one that the
controller has not taken. -/
structure Ps2Controller where
  config : BitVec 8
  /-- The byte that the controller has not taken yet, and whether it is a command. -/
  input : Option (Bool × BitVec 8)
  /-- The byte that the processor has not read yet. -/
  output : Option (BitVec 8)
  /-- The next data is a configuration. -/
  awaitsConfig : Bool
  keyboard : Ps2Keyboard
  second : Bool
  irq : Bool
  overrun : Bool

namespace Ps2Controller

/-- The clock of the first port runs. -/
def Port1 (s : Ps2Controller) : Prop :=
  s.config.getLsbD 4 = false

/-- The clock of the second port runs. -/
def Port2 (s : Ps2Controller) : Prop :=
  s.config.getLsbD 5 = false

/-- The status register. -/
def status (s : Ps2Controller) : BitVec 8 :=
  (if s.output.isSome then ps2StatusOutput else 0) |||
    (if s.input.isSome then ps2StatusInput else 0)

/-- The controller takes a command. -/
def command (s : Ps2Controller) (c : BitVec 8) : Ps2Controller :=
  let s := { s with input := none, awaitsConfig := decide (c = ps2WriteConfig) }
  if c = ps2ReadConfig then { s with output := some s.config }
  else if c = ps2DisablePort1 then { s with config := s.config ||| 0x10 }
  else if c = ps2EnablePort1 then { s with config := s.config &&& ~~~0x10 }
  else if c = ps2DisablePort2 then { s with config := s.config ||| 0x20 }
  else s

/-- The controller takes data : a configuration, or a byte for the keyboard. -/
def data (s : Ps2Controller) (b : BitVec 8) : Ps2Controller :=
  if s.awaitsConfig then { s with input := none, awaitsConfig := false, config := b }
  else { s with input := none, keyboard := s.keyboard.receive b }

/-- What the controller and the devices do by themselves. A reply waits for the output buffer
to be empty, and so do the bytes of the devices. The interrupt handler takes a byte of the
keyboard. -/
inductive Own : Ps2Controller → Ps2Controller → Prop
  | command {s : Ps2Controller} {c : BitVec 8} : s.input = some (true, c) →
    (c = ps2ReadConfig → s.output = none) → Own s (s.command c)
  | data {s : Ps2Controller} {b : BitVec 8} : s.input = some (false, b) → Own s (s.data b)
  | send {s : Ps2Controller} {b : BitVec 8} {bs : List (BitVec 8)} : s.output = none → s.Port1 →
    s.keyboard.queue = b :: bs →
    Own s { s with output := some b, keyboard := { s.keyboard with queue := bs } }
  | press {s : Ps2Controller} {bs : List (BitVec 8)} : s.keyboard.scanning = true →
    (∀ b ∈ bs, Ps2Keyboard.NoTestCode b) → Own s { s with keyboard := s.keyboard.press bs }
  | second {s : Ps2Controller} {b : BitVec 8} : s.second = true → s.output = none → s.Port2 →
    Own s { s with output := some b }
  | interrupt {s : Ps2Controller} : s.irq = true → s.config.getLsbD 0 = true → s.Port1 →
    Own s { s with output := none }

/-- Read a port of the controller. -/
def readPort (port : BitVec 16) (s : Ps2Controller) : BitVec 8 × Ps2Controller :=
  if port = ps2Cmd then (s.status, s)
  else if port = ps2Data then (s.output.getD 0, { s with output := none })
  else (0, s)

/-- Write a port of the controller. -/
def writePort (port : BitVec 16) (val : BitVec 8) (s : Ps2Controller) : Ps2Controller :=
  if port = ps2Cmd then
    { s with input := some (true, val), overrun := s.overrun || s.input.isSome }
  else if port = ps2Data then
    { s with input := some (false, val), overrun := s.overrun || s.input.isSome }
  else s

/-- The controller as a device. -/
def device : Device (BitVec 16) (BitVec 8) Ps2Controller where
  read := readPort
  write := writePort
  own := Own

/-- What the status port gives. -/
@[simp] theorem read_status (s : Ps2Controller) : device.read ps2Cmd s = (s.status, s) :=
  rfl

/-- Reading the data port empties the output buffer. -/
@[simp] theorem read_data (s : Ps2Controller) :
    device.read ps2Data s = (s.output.getD 0, { s with output := none }) :=
  rfl

/-- A command goes to the input buffer. -/
@[simp] theorem write_command (s : Ps2Controller) (val : BitVec 8) :
    device.write ps2Cmd val s =
      { s with input := some (true, val), overrun := s.overrun || s.input.isSome } :=
  rfl

/-- Data goes to the input buffer. -/
@[simp] theorem write_data (s : Ps2Controller) (val : BitVec 8) :
    device.write ps2Data val s =
      { s with input := some (false, val), overrun := s.overrun || s.input.isSome } :=
  rfl

/-- The status says whether the input buffer is full. -/
theorem status_input (s : Ps2Controller) : s.status &&& ps2StatusInput = 0 ↔ s.input = none := by
  obtain ⟨c, i, o, _⟩ := s
  cases i <;> cases o <;> simp [status, ps2StatusInput, ps2StatusOutput]

/-- The status says whether the output buffer is full. -/
theorem status_output (s : Ps2Controller) :
    s.status &&& ps2StatusOutput = 0 ↔ s.output = none := by
  obtain ⟨c, i, o, _⟩ := s
  cases i <;> cases o <;> simp [status, ps2StatusInput, ps2StatusOutput]

end Ps2Controller

end KernelDev
