import KernelDev.Isr

/-!
# Interrupts are transparent

An interrupted program does not notice. `interrupt_transparent` says it for every kind of stub,
every gate, with or without a stack of its own, and every handler that returns : the general
registers, the data segments, `cs`, `ss`, `rip` and the flags are what they were. A handler may do
to them what it likes, and to memory, as long as it brings the stack pointer back and leaves the
frame as it is (`Returns`).

What lies on the stack is followed as a list of words (`Cpu.OnStack`), so that no address has to be
compared with another : a push adds a word in front (`OnStack.pushWord`), a pop takes it away
(`OnStack.pop`), and a row of pops sets registers to the words in the list (`OnStack.run_pops`).
The stack may wrap around at the end of the address space.

The processor and the stub push the interrupted context, a number and an error code; `isr_common`
pushes the registers on top of it. The list of these words at the call is `frameWords`
(`onStack_atHandler`), and read in the order of `struct interrupt_frame` it is the frame, with the
interrupted context in its fields (`load_frame`). After the call the same words are popped.

One word is only half of it : `ds` is moved to `ax` before it is pushed, so its word has the rest
of `rax` above the selector, and only the selector is ever used (`dsWord_low`).
-/

namespace KernelDev

open ByteMem

namespace Cpu

/-- The words on the stack, from the top. -/
def OnStack (c : Cpu) (ws : List (BitVec 64)) : Prop :=
  Stack c.mem (c.regs .rsp) ws

/-- `s` is `c` with the words `ws` pushed. -/
structure Pushed (c s : Cpu) (ws : List (BitVec 64)) : Prop where
  onStack : s.OnStack ws
  /-- But for the stack pointer, the registers are those of `c`. -/
  regs : ∀ r, r ≠ .rsp → s.regs r = c.regs r
  segs : ∀ g, g ≠ .cs → s.segs g = c.segs g

/-- The registers that `isr_common` saves. -/
def saved : List Reg :=
  [.rax, .rbx, .rcx, .rdx, .rsi, .rdi, .rbp, .r8, .r9, .r10, .r11, .r12, .r13, .r14, .r15]

variable (handler : Cpu → Cpu) {c s : Cpu} {ws rest : List (BitVec 64)}

/-! ## Pushes and pops -/

/-- A push adds a word to the list. -/
theorem OnStack.pushWord (h : s.OnStack ws) (hlen : ws.length < 32) (w : BitVec 64) :
    (s.pushWord w).OnStack (w :: ws) := by
  rw [OnStack, pushWord_rsp, pushWord_mem]
  exact Stack.push h (by omega) w

theorem Pushed.pushWord (h : Pushed c s ws) (hlen : ws.length < 32) (w : BitVec 64) :
    Pushed c (s.pushWord w) (w :: ws) :=
  ⟨h.onStack.pushWord hlen w,
    fun r hr => (pushWord_of_ne hr s w).trans (h.regs r hr), h.segs⟩

/-- Pushing registers in a row. -/
theorem Pushed.run_pushes : ∀ (rs : List Reg) {s : Cpu} {ws : List (BitVec 64)}, Pushed c s ws →
    .rsp ∉ rs → ws.length + rs.length < 32 →
    Pushed c (runInstrs handler (rs.map .push) s) ((rs.map c.regs).reverse ++ ws)
  | [], s, ws, h, _, _ => h
  | r :: rs, s, ws, h, hrs, hlen => by
    rw [List.mem_cons, not_or] at hrs
    rw [List.length_cons] at hlen
    have hpush := h.pushWord (by omega) (c.regs r)
    have hrest := run_pushes rs hpush hrs.2 (by simpa using by omega)
    have hstep : runInstrs handler ((r :: rs).map .push) s =
        runInstrs handler (rs.map .push) (s.pushWord (c.regs r)) := by
      rw [← h.regs r (Ne.symm hrs.1)]
      rfl
    rw [hstep]
    simpa using hrest

/-- A pop takes the first word from the list. -/
theorem OnStack.pop {w : BitVec 64} (h : s.OnStack (w :: ws)) :
    s.top = w ∧ (s.drop 8).OnStack ws := by
  refine ⟨h.1, ?_⟩
  rw [OnStack, drop_rsp, drop_mem]
  exact h.2

/-- Pops in a row set the registers to the words on the stack. -/
theorem OnStack.run_pops (vals : Reg → BitVec 64) : ∀ (rs : List Reg) {s : Cpu},
    s.OnStack (rs.map vals ++ rest) → .rsp ∉ rs →
    (runInstrs handler (rs.map .pop) s).OnStack rest ∧
      (∀ r, r ≠ .rsp → (runInstrs handler (rs.map .pop) s).regs r =
        if r ∈ rs then vals r else s.regs r) ∧
      (runInstrs handler (rs.map .pop) s).segs = s.segs
  | [], s, h, _ => ⟨h, fun _ _ => rfl, rfl⟩
  | r :: rs, s, h, hrs => by
    rw [List.mem_cons, not_or] at hrs
    obtain ⟨htop, hdrop⟩ := OnStack.pop h
    have hpop : ((s.drop 8).setReg r (vals r)).OnStack (rs.map vals ++ rest) := by
      rw [OnStack, setReg_of_ne hrs.1, setReg_mem]
      exact hdrop
    obtain ⟨hstack, hregs, hsegs⟩ := run_pops vals rs hpop hrs.2
    have hstep : runInstrs handler ((r :: rs).map .pop) s =
        runInstrs handler (rs.map .pop) ((s.drop 8).setReg r (vals r)) := by
      rw [← htop]
      rfl
    rw [hstep]
    refine ⟨hstack, fun r' hr' => ?_, hsegs⟩
    rw [hregs r' hr']
    by_cases hmem : r' ∈ rs
    · rw [if_pos hmem, if_pos (List.mem_cons_of_mem _ hmem)]
    · by_cases heq : r' = r
      · subst heq
        rw [if_neg hmem, if_pos List.mem_cons_self, setReg_self]
      · rw [if_neg hmem, if_neg (by simp [heq, hmem]), setReg_of_ne heq]
        exact drop_of_ne hr' s 8

/-! ## The frame -/

end Cpu

/-- The interrupt number of a stub. -/
def Stub.intNo : Stub → BitVec 64
  | defaultInterrupt => 0xff
  | isrNoErr n => n
  | isrErr n => n

/-- The error code in the frame: the processor's, or a dummy. -/
def Stub.frameErrCode (errCode : BitVec 64) : Stub → BitVec 64
  | isrErr _ => errCode
  | _ => 0

namespace Cpu

variable (handler : Cpu → Cpu) {c s : Cpu} {ws : List (BitVec 64)}

/-- The words the processor pushes for the interrupted context, from the top. -/
def context (c : Cpu) : List (BitVec 64) :=
  [c.rip, (c.segs .cs).setWidth 64, c.rflags, c.regs .rsp, (c.segs .ss).setWidth 64]

/-- The word that holds the data segment: the rest of `rax` is above it. -/
def dsWord (c : Cpu) : BitVec 64 :=
  (c.regs .rax &&& ~~~0xffff) ||| (c.segs .ds).setWidth 64

/-- The words of the frame. -/
def frameWords (c : Cpu) (stub : Stub) (errCode : BitVec 64) : List (BitVec 64) :=
  c.dsWord :: ((saved.map c.regs).reverse ++
    stub.intNo :: stub.frameErrCode errCode :: c.context)

/-- The low part of the word is the selector. -/
theorem dsWord_low (c : Cpu) : c.dsWord.setWidth 16 = c.segs .ds := by
  rw [dsWord, BitVec.setWidth_or, BitVec.setWidth_and]
  simp

/-- What the processor pushes. -/
theorem pushed_deliver (c : Cpu) (gate : Gate) (errCode : Option (BitVec 64)) :
    Pushed c (c.deliver gate errCode) (errCode.toList ++ c.context) := by
  have hstart : Pushed c (c.setReg .rsp (gate.ist.getD (c.regs .rsp) &&& ~~~15)) [] :=
    ⟨trivial, fun r hr => setReg_of_ne hr c _, fun _ _ => rfl⟩
  have hss := hstart.pushWord (by simp) ((c.segs .ss).setWidth 64)
  have hrsp := hss.pushWord (by simp) (c.regs .rsp)
  have hrflags := hrsp.pushWord (by simp) c.rflags
  have hcs := hrflags.pushWord (by simp) ((c.segs .cs).setWidth 64)
  have hrip := hcs.pushWord (by simp) c.rip
  have hall : ∀ s ws, Pushed c s ws → Pushed c { s.setSeg .cs gate.selector with
      rip := gate.offset, rflags := c.rflags &&& ~~~0x14300 } ws := fun s ws h =>
    ⟨h.onStack, h.regs, fun g hg => (setSeg_of_ne hg s _).trans (h.segs g hg)⟩
  cases errCode with
  | none => exact hall _ _ hrip
  | some e => exact hall _ _ (hrip.pushWord (by simp) e)

/-- What a stub pushes. -/
theorem pushed_stub (c : Cpu) (gate : Gate) (stub : Stub) (errCode : BitVec 64) :
    Pushed c (runInstrs handler stub.code (c.deliver gate (stub.cpuErrCode errCode)))
      (stub.intNo :: stub.frameErrCode errCode :: c.context) := by
  have hdeliver := pushed_deliver c gate (stub.cpuErrCode errCode)
  cases stub with
  | defaultInterrupt =>
    have hdummy := hdeliver.pushWord (by simp [Stub.cpuErrCode, context]) 0
    exact hdummy.pushWord (by simp [Stub.cpuErrCode, context]) 0xff
  | isrNoErr n =>
    have hdummy := hdeliver.pushWord (by simp [Stub.cpuErrCode, context]) 0
    exact hdummy.pushWord (by simp [Stub.cpuErrCode, context]) n
  | isrErr n => exact hdeliver.pushWord (by simp [Stub.cpuErrCode, context]) n

theorem runInstrs_append (code code' : List Instr) (c : Cpu) :
    runInstrs handler (code ++ code') c = runInstrs handler code' (runInstrs handler code c) :=
  List.foldl_append

/-- The last part of `isr_common` before the call, after the registers are saved. -/
def loadKernelData : List Instr :=
  [.movAxSeg .ds, .push .rax, .movAx 0x10, .movSegAx .ds, .movSegAx .es, .movSegAx .fs,
    .movSegAx .gs, .movRdiRsp]

/-- `isr_common` before the call, in two parts. -/
theorem isrSave_eq : isrSave = saved.map .push ++ loadKernelData := rfl

theorem OnStack.run_loadKernelData (h : s.OnStack ws) (hlen : ws.length < 32) :
    (runInstrs handler loadKernelData s).OnStack (s.dsWord :: ws) ∧
      (runInstrs handler loadKernelData s).regs .rdi =
        (runInstrs handler loadKernelData s).regs .rsp := by
  have hdi : Reg.rsp ≠ .rdi := by decide
  have hax : Reg.rsp ≠ .rax := by decide
  have hds : (s.setReg .rax s.dsWord).OnStack ws := by
    rw [OnStack, setReg_of_ne hax, setReg_mem]
    exact h
  have hpush := hds.pushWord hlen s.dsWord
  simp only [loadKernelData, runInstrs, List.foldl_cons, List.foldl_nil, Instr.exec, OnStack,
    setReg_mem, setSeg_mem, setReg_of_ne hdi, setReg_of_ne hax, setSeg_regs, setReg_self, and_true]
  exact hpush

/-- At the call the words of the frame are on the stack, and `rdi` points to them. -/
theorem onStack_atHandler (c : Cpu) (gate : Gate) (stub : Stub) (errCode : BitVec 64) :
    (c.atHandler handler gate stub errCode).OnStack (c.frameWords stub errCode) ∧
      (c.atHandler handler gate stub errCode).regs .rdi =
        (c.atHandler handler gate stub errCode).regs .rsp := by
  have hstub := pushed_stub handler c gate stub errCode
  have hsaved := hstub.run_pushes handler saved (by decide) (by simp [context, saved])
  have hds : (runInstrs handler (saved.map .push)
      (runInstrs handler stub.code (c.deliver gate (stub.cpuErrCode errCode)))).dsWord =
        c.dsWord := by
    rw [dsWord, dsWord, hsaved.regs .rax (by decide), hsaved.segs .ds (by decide)]
  have hload := hsaved.onStack.run_loadKernelData handler (by simp [context, saved])
  rw [hds] at hload
  rw [atHandler, runInstrs_append, isrSave_eq, runInstrs_append]
  exact hload

/-- The frame for an interrupted context, whatever is above the data segment in its word. -/
def frame (c : Cpu) (ds intNo errCode : BitVec 64) : InterruptFrame where
  ds := ds
  r15 := c.regs .r15
  r14 := c.regs .r14
  r13 := c.regs .r13
  r12 := c.regs .r12
  r11 := c.regs .r11
  r10 := c.regs .r10
  r9 := c.regs .r9
  r8 := c.regs .r8
  rbp := c.regs .rbp
  rdi := c.regs .rdi
  rsi := c.regs .rsi
  rdx := c.regs .rdx
  rcx := c.regs .rcx
  rbx := c.regs .rbx
  rax := c.regs .rax
  intNo := intNo
  errCode := errCode
  rip := c.rip
  cs := (c.segs .cs).setWidth 64
  rflags := c.rflags
  rsp := c.regs .rsp
  ss := (c.segs .ss).setWidth 64

/-- The words of the frame in the order of `struct interrupt_frame`. -/
theorem load_frame {m : Mem} {a : Addr} {stub : Stub} {errCode : BitVec 64}
    (h : Stack m a (c.frameWords stub errCode)) :
    InterruptFrame.load m a = c.frame c.dsWord stub.intNo (stub.frameErrCode errCode) := by
  simp only [frameWords, saved, context, List.map_cons, List.map_nil, List.reverse_cons,
    List.reverse_nil, List.nil_append, List.cons_append, Stack, BitVec.add_assoc,
    BitVec.reduceAdd, BitVec.ofNat_eq_ofNat, and_true] at h
  simp only [InterruptFrame.load, frame, BitVec.ofNat_eq_ofNat, h]

/-! ## The way back -/

/-- `isr_common` after the call gives the interrupted context back. -/
structure Restored (c t : Cpu) : Prop where
  regs : ∀ r, t.regs r = c.regs r
  data : ∀ g, g = .ds ∨ g = .es ∨ g = .fs ∨ g = .gs → t.segs g = c.segs .ds
  cs : t.segs .cs = c.segs .cs
  ss : t.segs .ss = c.segs .ss
  rip : t.rip = c.rip
  rflags : t.rflags = c.rflags

/-- The segment registers are loaded before anything else. -/
def loadSavedData : List Instr :=
  [.pop .rax, .movSegAx .ds, .movSegAx .es, .movSegAx .fs, .movSegAx .gs]

/-- `isr_common` after the call, in three parts. -/
theorem isrRestore_eq :
    isrRestore = loadSavedData ++ (saved.reverse.map .pop ++ [.addRsp 16, .iretq]) := rfl

theorem OnStack.run_loadSavedData {w : BitVec 64} (h : s.OnStack (w :: ws)) :
    (runInstrs handler loadSavedData s).OnStack ws ∧
      ∀ g, g = .ds ∨ g = .es ∨ g = .fs ∨ g = .gs →
        (runInstrs handler loadSavedData s).segs g = w.setWidth 16 := by
  have hax : Reg.rsp ≠ .rax := by decide
  obtain ⟨htop, hdrop⟩ := h.pop
  simp only [loadSavedData, runInstrs, List.foldl_cons, List.foldl_nil, Instr.exec, OnStack,
    setReg_mem, setSeg_mem, setReg_of_ne hax, setSeg_regs, setReg_self, htop]
  refine ⟨hdrop, ?_⟩
  rintro g (rfl | rfl | rfl | rfl) <;> simp [setSeg]

/-- `iretq` takes the context from the stack. -/
theorem OnStack.run_iretq {a b : BitVec 64} (h : s.OnStack (a :: b :: c.context))
    (hregs : ∀ r, r ≠ .rsp → s.regs r = c.regs r)
    (hdata : ∀ g, g = .ds ∨ g = .es ∨ g = .fs ∨ g = .gs → s.segs g = c.segs .ds) :
    Restored c (runInstrs handler [.addRsp 16, .iretq] s) := by
  have hcontext : (s.drop 16).OnStack c.context := by
    rw [OnStack, drop_rsp, drop_mem]
    have htail := h.2.2
    rw [BitVec.add_assoc] at htail
    exact htail
  obtain ⟨hrip, hcs, hrflags, hrsp, hss, -⟩ := hcontext
  simp only [BitVec.add_assoc, BitVec.reduceAdd, BitVec.ofNat_eq_ofNat] at hrip hcs hrflags hrsp hss
  simp only [runInstrs, List.foldl_cons, List.foldl_nil, Instr.exec, BitVec.ofNat_eq_ofNat, hrip,
    hcs, hrflags, hrsp, hss]
  refine ⟨fun r => ?_, fun g hg => ?_, ?_, ?_, rfl, rfl⟩
  · by_cases hr : r = .rsp
    · subst hr
      simp only [setSeg_regs, setReg_self]
    · simp only [setSeg_regs, setReg_of_ne hr, drop_of_ne hr, hregs r hr]
  · have hne : g ≠ .ss ∧ g ≠ .cs := by
      rcases hg with rfl | rfl | rfl | rfl <;> decide
    simp only [setSeg_of_ne hne.1, setSeg_of_ne hne.2]
    exact hdata g hg
  · have hne : Seg.cs ≠ .ss := by decide
    simp only [setSeg_of_ne hne, setSeg_self]
    simp
  · simp

/-- `isr_common` after the call, on the words of the frame. -/
theorem OnStack.run_isrRestore {stub : Stub} {errCode : BitVec 64}
    (h : s.OnStack (c.frameWords stub errCode)) : Restored c (runInstrs handler isrRestore s) := by
  obtain ⟨hstack, hdata⟩ := h.run_loadSavedData handler
  rw [← List.map_reverse] at hstack
  obtain ⟨hpops, hregs, hsegs⟩ := hstack.run_pops handler c.regs saved.reverse (by decide)
  rw [isrRestore_eq, runInstrs_append, runInstrs_append]
  refine hpops.run_iretq handler (fun r hr => ?_) fun g hg => ?_
  · rw [hregs r hr, if_pos]
    cases r <;> first | decide | exact absurd rfl hr
  · rw [hsegs, hdata g hg, dsWord_low]

theorem runInstrs_call (code : List Instr) (s : Cpu) :
    runInstrs handler (.callInterruptHandler :: code) s = runInstrs handler code (handler s) := rfl

/-- `interrupt_handler` returns : `rsp` is what it was, and so is the frame. -/
def Returns (s s' : Cpu) : Prop :=
  s'.regs .rsp = s.regs .rsp ∧ ∀ x, Within (s.regs .rdi) 184 x → s'.mem x = s.mem x

theorem length_frameWords (c : Cpu) (stub : Stub) (errCode : BitVec 64) :
    (c.frameWords stub errCode).length = 23 := rfl

/-- Interrupts are transparent to the interrupted code. The handler is given the interrupted
context in its frame; whatever it does to the other registers, the flags and the rest of
memory, the context is back after the interrupt. -/
theorem interrupt_transparent (hreturns : ∀ s, Returns s (handler s)) (c : Cpu)
    (hseg : c.segs .ds = c.segs .es ∧ c.segs .ds = c.segs .fs ∧ c.segs .ds = c.segs .gs)
    (gate : Gate) (stub : Stub) (errCode : BitVec 64) :
    (∃ ds, ds.setWidth 16 = c.segs .ds ∧
      InterruptFrame.load (c.atHandler handler gate stub errCode).mem
          ((c.atHandler handler gate stub errCode).regs .rdi) =
        c.frame ds stub.intNo (stub.frameErrCode errCode)) ∧
      (∀ r, (c.interrupt handler gate stub errCode).regs r = c.regs r) ∧
      (∀ g, (c.interrupt handler gate stub errCode).segs g = c.segs g) ∧
      (c.interrupt handler gate stub errCode).rip = c.rip ∧
      (c.interrupt handler gate stub errCode).rflags = c.rflags := by
  obtain ⟨hstack, hrdi⟩ := onStack_atHandler handler c gate stub errCode
  obtain ⟨hrsp, hmem⟩ := hreturns (c.atHandler handler gate stub errCode)
  have hback : (handler (c.atHandler handler gate stub errCode)).OnStack
      (c.frameWords stub errCode) := by
    rw [OnStack, hrsp]
    refine Stack.congr (by rw [length_frameWords]; decide) (fun x hx => (hmem x ?_).symm) hstack
    rw [length_frameWords] at hx
    rw [hrdi]
    exact hx
  have hinterrupt : c.interrupt handler gate stub errCode =
      runInstrs handler isrRestore (handler (c.atHandler handler gate stub errCode)) := by
    rw [interrupt, isrCommon, ← List.append_assoc, runInstrs_append, runInstrs_call, ← atHandler]
  have hrestored := hback.run_isrRestore handler
  rw [← hinterrupt] at hrestored
  refine ⟨⟨c.dsWord, c.dsWord_low, ?_⟩, hrestored.regs, fun g => ?_, hrestored.rip,
    hrestored.rflags⟩
  · rw [hrdi]
    exact load_frame hstack
  · cases g with
    | ds => exact hrestored.data _ (Or.inl rfl)
    | es => exact (hrestored.data _ (Or.inr (Or.inl rfl))).trans hseg.1
    | fs => exact (hrestored.data _ (Or.inr (Or.inr (Or.inl rfl)))).trans hseg.2.1
    | gs => exact (hrestored.data _ (Or.inr (Or.inr (Or.inr rfl)))).trans hseg.2.2
    | cs => exact hrestored.cs
    | ss => exact hrestored.ss

/-- A handler that leaves nothing but its stack alone. -/
def clobber (s : Cpu) : Cpu :=
  { s with regs := fun r => if r = .rsp then s.regs .rsp else 0xdead, rflags := 0 }

theorem returns_clobber (s : Cpu) : Returns s (clobber s) :=
  ⟨rfl, fun _ _ => rfl⟩

/-- Kernel code, with the segments that `long_mode_start` loads. -/
def kernelCpu : Cpu where
  regs := fun _ => 0x9ff8
  segs := fun g => if g = .cs then 8 else 0
  rip := 0x100000
  rflags := 0x202
  mem := fun _ => 0

theorem interrupt_transparent_kernelCpu :
    (∃ ds, ds.setWidth 16 = kernelCpu.segs .ds ∧
      InterruptFrame.load (kernelCpu.atHandler clobber ⟨8, 0x101000, some 0x8000⟩
          (.ofVector 14) 2).mem
          ((kernelCpu.atHandler clobber ⟨8, 0x101000, some 0x8000⟩ (.ofVector 14) 2).regs .rdi) =
        kernelCpu.frame ds 14 2) ∧
      (∀ r, (kernelCpu.interrupt clobber ⟨8, 0x101000, some 0x8000⟩ (.ofVector 14) 2).regs r =
        kernelCpu.regs r) ∧
      (∀ g, (kernelCpu.interrupt clobber ⟨8, 0x101000, some 0x8000⟩ (.ofVector 14) 2).segs g =
        kernelCpu.segs g) ∧
      (kernelCpu.interrupt clobber ⟨8, 0x101000, some 0x8000⟩ (.ofVector 14) 2).rip =
        kernelCpu.rip ∧
      (kernelCpu.interrupt clobber ⟨8, 0x101000, some 0x8000⟩ (.ofVector 14) 2).rflags =
        kernelCpu.rflags :=
  interrupt_transparent clobber returns_clobber kernelCpu ⟨rfl, rfl, rfl⟩ _ (.ofVector 14) 2

end Cpu

end KernelDev
