import KernelDev.Heap
import KernelDev.Pic
import KernelDev.SerialInit
import KernelDev.SerialInterrupt

/-!
# `interrupt_handler`

What a stub calls with the frame it has built. `interrupt_handler` looks at the number in the frame
and has a branch for each exception, one for the keyboard, one for the serial port and one for the
other lines of the interrupt controllers; any other number is printed. A line ends with its end of
interrupt (`serveIrq`), whether there is a handler for it or not.

`interruptHandler` is a program on the ports. What it calls in turn is a parameter (`KernelCalls`)
: `printk`, the handler of page faults, and the handlers that `irq_table` points to. `Kernel.calls`
is what the kernel has there, each of them a function of the modules below turned into a program :
the handlers read their ports themselves, and what they print is sent to the ports of the serial
line.

Interrupts are off while it runs, so that nothing but the devices moves meanwhile. A double fault
halts for ever. So does a call of `printk` that has no defined outcome, after which nothing is
known any more.
-/

namespace KernelDev

open ByteMem

/-- `COM_RECIEVE_OFFSET` -/
def comRecieveOffset : BitVec 16 := 0

/-- `COM_INT_IDENT_REG_OFFSET` -/
def comIntIdentRegOffset : BitVec 16 := 2

/-- `COM_LINE_STATUS_OFFSET` -/
def comLineStatusOffset : BitVec 16 := 5

/-- What `interrupt_handler` calls, on states in `K` : `printk`, `page_fault_handler`, and the
handlers of `irq_table`, which take the number of the line, the error code and their argument. -/
structure KernelCalls (K H : Type) where
  printk : KbPrint → K → Port K
  pageFaultHandler : InterruptFrame → K → Port K
  handler : H → BitVec 32 → BitVec 32 → Addr → K → Port K

/-- `while (1) { cli; hlt; }` -/
def haltForever {K : Type} : Port K :=
  .loop (.ret (none : Option K)) .ret

/-- The texts for the processor exceptions that are only printed. -/
def exceptionText : ℕ → Option String
  | 0 => some "Division by Zero Exception\n"
  | 1 => some "Debug Exception\n"
  | 2 => some "Non-maskable Interrupt\n"
  | 3 => some "Breakpoint Exception\n"
  | 4 => some "Overflow Exception\n"
  | 5 => some "Bound Range Exceeded Exception\n"
  | 6 => some "Invalid Opcode Exception\n"
  | 7 => some "Device Not Available Exception\n"
  | 10 => some "Invalid TSS Exception\n"
  | 11 => some "Segment Not Present Exception\n"
  | 12 => some "Stack-Segment Fault Exception\n"
  | _ => none

section Handler

variable {K H : Type} (calls : KernelCalls K H) (table : IrqTable H)

/-- `printk` of a text with one argument at most. -/
def say (text : String) (args : List VaArg) (s : K) : Port K :=
  calls.printk ⟨chars text ++ [0], args⟩ s

/-- The handler that `irq_table` has for a line, or else `missing`. -/
def callIrq (irq : Fin 16) (errCode : BitVec 64) (missing : K → Port K) (s : K) : Port K :=
  match (table irq).handler with
  | some h => calls.handler h (BitVec.ofNat 32 irq) (errCode.setWidth 32) (table irq).arg s
  | none => missing s

/-- A port is read and its value dropped. -/
def discard (port : BitVec 16) (s : K) : Port K := do
  let _ ← inb port
  return s

/-- A line is served : its handler, and the end of interrupt. -/
def serveIrq (irq : Fin 16) (errCode : BitVec 64) (missing : K → Port K) (s : K) : Port K := do
  let s ← callIrq calls table irq errCode missing s
  picSendEOI (BitVec.ofNat 8 irq)
  return s

/-- `interrupt_handler`. The branch for a line is `case 33`, `case 36` or the default one. -/
def interruptHandler (frame : InterruptFrame) (s : K) : Port K :=
  match exceptionText frame.intNo.toNat with
  | some text => say calls text [] s
  | none =>
    if frame.intNo = 8 then do
      let _ ← say calls "Double Fault Exception\n" [] s
      haltForever
    else if frame.intNo = 13 then do
      let s ← say calls "General Protection Fault\n" [] s
      say calls "Error code: %lx\n" [.word frame.errCode] s
    else if frame.intNo = 14 then calls.pageFaultHandler frame s
    else if frame.intNo = 33 then serveIrq calls table 1 frame.errCode (discard ps2Data) s
    else if frame.intNo = 36 then
      serveIrq calls table 4 frame.errCode (discard (com1 + comIntIdentRegOffset)) s
    else if h : 32 ≤ frame.intNo.toNat ∧ frame.intNo.toNat < 48 then
      serveIrq calls table ⟨frame.intNo.toNat - 32, by omega⟩ frame.errCode .ret s
    else say calls "Unhandled Interrupt: %ld\n" [.word frame.intNo] s

end Handler

/-! ## The kernel -/

/-- The state that the handlers of the kernel work on, with the fault address `CR2`. -/
structure Kernel where
  console : Console
  /-- The static variables of `kb_interrupt_handler`. -/
  kb : KbStatics
  mmu : Mmu
  /-- The fault address that the processor gives. -/
  cr2 : Addr

namespace Kernel

/-- What is printed goes to the ports of the serial line. A call of `printk` with arguments that do
not match its format has no defined outcome, and nothing comes after it. -/
def print (s : Kernel) : Option Console → Port Kernel
  | some console =>
    (outbs (console.uart.out.drop s.console.uart.out.length)).bind fun _ =>
      .ret { s with console := console }
  | none => haltForever

/-- `printk` -/
def printk (call : KbPrint) (s : Kernel) : Port Kernel :=
  s.print (s.console.printAll [call])

/-- A call of `printk` from `mmu.c`. -/
def mmuPrint (call : PrintkCall) : KbPrint :=
  ⟨chars call.fmt ++ [0], call.args.map fun
    | .word w => .word w
    | .str s => .str (some (chars s))⟩

/-- `page_fault_handler` -/
def pageFaultHandler (frame : InterruptFrame) (s : Kernel) : Port Kernel :=
  match s.mmu.pageFaultHandler ⟨frame.errCode, frame.rip⟩ s.cr2 with
  | .returned mmu => .ret { s with mmu := mmu }
  | .halted mmu =>
    (s.print (s.console.printAll ((mmu.console.drop s.mmu.console.length).map mmuPrint))).bind
      fun _ => haltForever

/-- `kb_interrupt_handler` -/
def kbHandler (s : Kernel) : Port Kernel := do
  let status ← inb ps2Cmd
  if status &&& ps2StatusOutput = 0 then return s
  else
    let scancode ← inb ps2Data
    let r := kbInterruptHandler s.kb status scancode
    { s with kb := r.1 }.print (s.console.printAll r.2)

/-- `serial_interrupt_handler` -/
def serialHandler (s : Kernel) : Port Kernel := do
  let portBase := s.console.uart.portBase
  let iir ← inb (portBase + comIntIdentRegOffset)
  if iir &&& comIntIdentPending ≠ 0 then return s
  else if iir &&& comIntIdentMask = comIntIdentLineStatus then
    let lsr ← inb (portBase + comLineStatusOffset)
    s.print (s.console.serialInterruptHandler iir lsr)
  else if iir &&& comIntIdentMask = comIntIdentTransmitterEmpty then
    s.print (s.console.serialInterruptHandler iir 0)
  else
    let _ ← inb (portBase + comRecieveOffset)
    s.print (s.console.serialInterruptHandler iir 0)

/-- What `interrupt_handler` calls in the kernel. -/
def calls : KernelCalls Kernel IrqHandler where
  printk := printk
  pageFaultHandler := pageFaultHandler
  handler
    | .kb, _, _, _, s => s.kbHandler
    | .serial, _, _, _, s => s.serialHandler

end Kernel

end KernelDev
