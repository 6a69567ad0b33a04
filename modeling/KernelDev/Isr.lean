import KernelDev.Lib.Stack

/-!
# `isr.asm`

The instructions of the interrupt stubs and of `isr_common`, on a state of registers and memory. A
stub pushes its number, behind a dummy if its exception has no error code, and jumps to
`isr_common`; that pushes the general registers and the data segment, loads the kernel's segments,
and calls `interrupt_handler` with a pointer to all of it, which is laid out like `struct
interrupt_frame`. On the way back the same is popped, and `iretq` is the end.

`call interrupt_handler` and the return from it are one step, whose effect is a parameter : any
function on the state. What is asked of it is in the theorems. The addresses of the instructions
are left out, as nothing on the path reads `rip`, and so are the arithmetic flags, which nothing
reads before `iretq` replaces them.

`deliver` is the part of the processor. Through an interrupt gate, from ring 0, it aligns the
stack, or takes one from the interrupt stack table; it pushes the interrupted context, and an error
code for some exceptions; and it clears four flags. `Stub.cpuErrCode` says for which stubs there is
an error code, in agreement with the macro that made them.
-/

namespace KernelDev

open ByteMem

/-- The general registers. -/
inductive Reg where
  | rax | rbx | rcx | rdx | rsi | rdi | rbp | rsp
  | r8 | r9 | r10 | r11 | r12 | r13 | r14 | r15
  deriving DecidableEq

/-- The segment registers. -/
inductive Seg where
  | ds | es | fs | gs | cs | ss
  deriving DecidableEq

/-- The state of the processor. -/
structure Cpu where
  regs : Reg → BitVec 64
  /-- The selectors in the segment registers. -/
  segs : Seg → BitVec 16
  rip : BitVec 64
  rflags : BitVec 64
  mem : Mem

namespace Cpu

/-- Set a register. -/
def setReg (c : Cpu) (r : Reg) (v : BitVec 64) : Cpu :=
  { c with regs := Function.update c.regs r v }

/-- Set a segment register. -/
def setSeg (c : Cpu) (s : Seg) (v : BitVec 16) : Cpu :=
  { c with segs := Function.update c.segs s v }

/-- Push a word. -/
def pushWord (c : Cpu) (w : BitVec 64) : Cpu :=
  { c.setReg .rsp (c.regs .rsp - 8) with mem := write64 c.mem (c.regs .rsp - 8) w }

/-- The word on top of the stack. -/
def top (c : Cpu) : BitVec 64 :=
  read64 c.mem (c.regs .rsp)

/-- Drop `n` bytes of the stack. -/
def drop (c : Cpu) (n : BitVec 64) : Cpu :=
  c.setReg .rsp (c.regs .rsp + n)

@[simp] theorem setReg_self (c : Cpu) (r : Reg) (v : BitVec 64) : (c.setReg r v).regs r = v := by
  simp [setReg]

theorem setReg_of_ne {r r' : Reg} (h : r' ≠ r) (c : Cpu) (v : BitVec 64) :
    (c.setReg r v).regs r' = c.regs r' := by
  simp [setReg, h]

@[simp] theorem setReg_mem (c : Cpu) (r : Reg) (v : BitVec 64) : (c.setReg r v).mem = c.mem := rfl
@[simp] theorem setReg_segs (c : Cpu) (r : Reg) (v : BitVec 64) :
    (c.setReg r v).segs = c.segs := rfl
@[simp] theorem setSeg_mem (c : Cpu) (g : Seg) (v : BitVec 16) : (c.setSeg g v).mem = c.mem := rfl
@[simp] theorem setSeg_regs (c : Cpu) (g : Seg) (v : BitVec 16) :
    (c.setSeg g v).regs = c.regs := rfl

/-- A push moves the stack pointer down by a word. -/
theorem pushWord_rsp (c : Cpu) (w : BitVec 64) :
    (c.pushWord w).regs .rsp = c.regs .rsp - 8 := by
  simp [pushWord]

theorem pushWord_of_ne {r : Reg} (h : r ≠ .rsp) (c : Cpu) (w : BitVec 64) :
    (c.pushWord w).regs r = c.regs r := by
  simp [pushWord, setReg_of_ne h]

theorem pushWord_mem (c : Cpu) (w : BitVec 64) :
    (c.pushWord w).mem = write64 c.mem (c.regs .rsp - 8) w := rfl

/-- Dropping bytes moves it up. -/
theorem drop_rsp (c : Cpu) (n : BitVec 64) : (c.drop n).regs .rsp = c.regs .rsp + n := by
  simp [drop]

theorem drop_of_ne {r : Reg} (h : r ≠ .rsp) (c : Cpu) (n : BitVec 64) :
    (c.drop n).regs r = c.regs r := by
  simp [drop, setReg_of_ne h]

theorem drop_mem (c : Cpu) (n : BitVec 64) : (c.drop n).mem = c.mem := rfl

@[simp] theorem setSeg_self (c : Cpu) (s : Seg) (v : BitVec 16) : (c.setSeg s v).segs s = v := by
  simp [setSeg]

theorem setSeg_of_ne {s s' : Seg} (h : s' ≠ s) (c : Cpu) (v : BitVec 16) :
    (c.setSeg s v).segs s' = c.segs s' := by
  simp [setSeg, h]

end Cpu

/-- The instructions of `isr.asm`. -/
inductive Instr where
  | push (r : Reg)
  | pushQword (v : BitVec 64)
  | pop (r : Reg)
  | movAxSeg (s : Seg)
  | movAx (v : BitVec 16)
  | movSegAx (s : Seg)
  | movRdiRsp
  | callInterruptHandler
  | addRsp (n : BitVec 64)
  | iretq

/-- The effect of an instruction. A move to `ax` keeps the upper bits of `rax`. -/
def Instr.exec (handler : Cpu → Cpu) (c : Cpu) : Instr → Cpu
  | push r => c.pushWord (c.regs r)
  | pushQword v => c.pushWord v
  | pop r => (c.drop 8).setReg r c.top
  | movAxSeg s => c.setReg .rax ((c.regs .rax &&& ~~~0xffff) ||| (c.segs s).setWidth 64)
  | movAx v => c.setReg .rax ((c.regs .rax &&& ~~~0xffff) ||| v.setWidth 64)
  | movSegAx s => c.setSeg s ((c.regs .rax).setWidth 16)
  | movRdiRsp => c.setReg .rdi (c.regs .rsp)
  | callInterruptHandler => handler c
  | addRsp n => c.drop n
  | iretq =>
    let sp := c.regs .rsp
    let rip := read64 c.mem sp
    let cs := (read64 c.mem (sp + 8)).setWidth 16
    let rflags := read64 c.mem (sp + 16)
    let rsp := read64 c.mem (sp + 24)
    let ss := (read64 c.mem (sp + 32)).setWidth 16
    { ((c.setReg .rsp rsp).setSeg .cs cs).setSeg .ss ss with rip := rip, rflags := rflags }

/-- Instructions in a row. -/
def runInstrs (handler : Cpu → Cpu) (code : List Instr) (c : Cpu) : Cpu :=
  code.foldl (Instr.exec handler) c

/-- `isr_common` up to the call. -/
def isrSave : List Instr :=
  [.push .rax, .push .rbx, .push .rcx, .push .rdx, .push .rsi, .push .rdi, .push .rbp,
    .push .r8, .push .r9, .push .r10, .push .r11, .push .r12, .push .r13, .push .r14, .push .r15,
    -- save original data segment
    .movAxSeg .ds, .push .rax,
    -- load kernel data segment
    .movAx 0x10, .movSegAx .ds, .movSegAx .es, .movSegAx .fs, .movSegAx .gs,
    .movRdiRsp]

/-- `isr_common` after the call. -/
def isrRestore : List Instr :=
  [.pop .rax, .movSegAx .ds, .movSegAx .es, .movSegAx .fs, .movSegAx .gs,
    .pop .r15, .pop .r14, .pop .r13, .pop .r12, .pop .r11, .pop .r10, .pop .r9, .pop .r8,
    .pop .rbp, .pop .rdi, .pop .rsi, .pop .rdx, .pop .rcx, .pop .rbx, .pop .rax,
    -- clean up error code and interrupt number
    .addRsp 16, .iretq]

/-- `isr_common` -/
def isrCommon : List Instr :=
  isrSave ++ .callInterruptHandler :: isrRestore

/-- The stubs: `default_interrupt`, and what the macros `ISR_NO_ERR` and `ISR_ERR` make. -/
inductive Stub where
  | defaultInterrupt
  | isrNoErr (n : BitVec 64)
  | isrErr (n : BitVec 64)

namespace Stub

/-- The code of a stub before its jump to `isr_common`. -/
def code : Stub → List Instr
  | defaultInterrupt => [.pushQword 0, .pushQword 0xff]
  | isrNoErr n => [.pushQword 0, .pushQword n]
  | isrErr n => [.pushQword n]

/-- The stub of a vector. -/
def ofVector (n : ℕ) : Stub :=
  if n ∈ [8, 10, 11, 12, 13, 14, 17, 21, 30] then isrErr (BitVec.ofNat 64 n)
  else if n < 48 then isrNoErr (BitVec.ofNat 64 n)
  else defaultInterrupt

/-- The error code that the processor pushes itself, for a stub that relies on it. -/
def cpuErrCode (errCode : BitVec 64) : Stub → Option (BitVec 64)
  | isrErr _ => some errCode
  | _ => none

end Stub

/-- What the processor reads to deliver an interrupt: the selector and offset of the gate, and
the stack of its interrupt-stack-table entry if it has one. -/
structure Gate where
  selector : BitVec 16
  offset : BitVec 64
  /-- The stack of its entry in the interrupt stack table, if it has one. -/
  ist : Option Addr

namespace Cpu

/-- The processor delivers an interrupt through an interrupt gate, from ring 0: it aligns the
stack, pushes the interrupted context, and an error code if the vector has one. -/
def deliver (c : Cpu) (gate : Gate) (errCode : Option (BitVec 64)) : Cpu :=
  let sp := gate.ist.getD (c.regs .rsp) &&& ~~~15
  let c' := c.setReg .rsp sp
  let c' := c'.pushWord ((c.segs .ss).setWidth 64)
  let c' := c'.pushWord (c.regs .rsp)
  let c' := c'.pushWord c.rflags
  let c' := c'.pushWord ((c.segs .cs).setWidth 64)
  let c' := c'.pushWord c.rip
  let c' := errCode.elim c' c'.pushWord
  -- TF, IF, NT and RF are cleared
  { c'.setSeg .cs gate.selector with
    rip := gate.offset
    rflags := c.rflags &&& ~~~0x14300 }

variable (handler : Cpu → Cpu) (c : Cpu) (gate : Gate) (stub : Stub) (errCode : BitVec 64)

/-- The state in which `interrupt_handler` is called. -/
def atHandler : Cpu :=
  runInstrs handler (stub.code ++ isrSave) (c.deliver gate (stub.cpuErrCode errCode))

/-- The state after the interrupt. -/
def interrupt : Cpu :=
  runInstrs handler (stub.code ++ isrCommon) (c.deliver gate (stub.cpuErrCode errCode))

end Cpu

/-- `struct interrupt_frame` -/
structure InterruptFrame where
  ds : BitVec 64
  r15 : BitVec 64
  r14 : BitVec 64
  r13 : BitVec 64
  r12 : BitVec 64
  r11 : BitVec 64
  r10 : BitVec 64
  r9 : BitVec 64
  r8 : BitVec 64
  rbp : BitVec 64
  rdi : BitVec 64
  rsi : BitVec 64
  rdx : BitVec 64
  rcx : BitVec 64
  rbx : BitVec 64
  rax : BitVec 64
  intNo : BitVec 64
  errCode : BitVec 64
  rip : BitVec 64
  cs : BitVec 64
  rflags : BitVec 64
  rsp : BitVec 64
  ss : BitVec 64

/-- The frame at an address: its fields lie in the order of the declaration. -/
def InterruptFrame.load (m : Mem) (frame : Addr) : InterruptFrame where
  ds := read64 m frame
  r15 := read64 m (frame + 8)
  r14 := read64 m (frame + 16)
  r13 := read64 m (frame + 24)
  r12 := read64 m (frame + 32)
  r11 := read64 m (frame + 40)
  r10 := read64 m (frame + 48)
  r9 := read64 m (frame + 56)
  r8 := read64 m (frame + 64)
  rbp := read64 m (frame + 72)
  rdi := read64 m (frame + 80)
  rsi := read64 m (frame + 88)
  rdx := read64 m (frame + 96)
  rcx := read64 m (frame + 104)
  rbx := read64 m (frame + 112)
  rax := read64 m (frame + 120)
  intNo := read64 m (frame + 128)
  errCode := read64 m (frame + 136)
  rip := read64 m (frame + 144)
  cs := read64 m (frame + 152)
  rflags := read64 m (frame + 160)
  rsp := read64 m (frame + 168)
  ss := read64 m (frame + 176)

end KernelDev
