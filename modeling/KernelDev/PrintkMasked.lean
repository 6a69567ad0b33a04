import KernelDev.Accesses
import KernelDev.PrintkCall

/-!
# Calls of `printk` and the interrupt flag

A call of `printk`, with every access of its own and of the drivers below it. The steps of the call
are those of `printkSteps`; a task that displays or sends is carried out read by read and write by
write, as in `Accesses`. Access by access the call does what `Console.printk` does
(`printk_perform`).

`printk_masked` says what this is for. The drivers touch their places in critical sections, of
which that of `vga_scroll` is part of another one; so the flag comes back as it was, whatever the
format and the arguments are; every place that interrupt handlers touch as well is touched with
interrupts off; and a call with interrupts off, such as one of a handler, never turns them on, so a
handler that prints is not interrupted. The variables of `printk.c` itself are no such places :
`print_buf` and `int_len` are stored and read with interrupts on (`PrintkInterrupted` says what
comes of that). Memory that an argument points to is no place of the drivers either.
-/

namespace KernelDev

open Critical Critical.Action Interrupts

namespace Access

/-- What a call of `printk` touches : places of the drivers, and cells of its own. -/
abbrev PrintAct (α : Type) := Act PrintCell α

/-- The places that interrupt handlers touch as well : those of the drivers, also if the state of
the serial port is read as a whole. -/
def Shared : Place PrintCell → Prop
  | .driver _ => True
  | .own c => c = .uart

/-- Read a cell. The count of `strlen` is on the stack of the call. -/
def look (count : ℕ) : (c : PrintCell) → PrintAct c.Val
  | .buf i => load (.own (.buf i)) fun s => s.digits.printBuf i
  | .len => load (.own .len) fun s => s.digits.intLen
  | .count => pure count
  | .uart => load (.own .uart) fun s => s.uart
  | .byte a => load (.own (.byte a)) fun s => s.uart.mem a

/-- A store to `print_buf` or `int_len`. -/
def putDigit (st : DigitStore) : PrintAct Unit :=
  store (.own (match st with | .char i _ => .buf i | .len _ => .len))
    fun s => { s with digits := st.run s.digits }

/-- Do a task, with the count of `strlen` behind it. -/
def doTask (count : ℕ) : PrintTask → PrintAct ℕ
  | .store st => do
    putDigit st
    return count
  | .display c => do
    vgaDisplayChar c
    return count
  | .send buff len => do
    let _ ← serWrite buff len
    return count
  | .startCount => return 0
  | .scan i => do
    let c ← load (.own (.buf i)) fun s => s.digits.printBuf i
    return if count = i ∧ c ≠ 0 then i + 1 else count
  | .sendBuf => do
    -- `print_buf`, from its start on
    let str ← load (.own (.buf 0)) fun s => s.digits.str
    let _ ← serWrite (fun i => str.getD i 0) (BitVec.ofNat 32 count).toInt
    return count

/-- Do the steps of a call. -/
def perform : PrintSteps → ℕ → PrintAct (Option (BitVec 32))
  | .ret r, _ => return r
  | .read c k, count => do
    let v ← look count c
    perform (k v) count
  | .task t k, count => do
    let count ← doTask count t
    perform k count

/-- `printk`, access by access. -/
def printk (fmt : List (BitVec 8)) (args : List VaArg) : PrintAct (Option (BitVec 32)) :=
  perform (printkSteps fmt args) 0

/-! ## Sections -/

theorem masked_look (count : ℕ) {c : PrintCell} (hc : c ≠ .uart) :
    Masked Shared (look count c) := by
  have hown : ¬Shared (.own c) := hc
  cases c with
  | buf i => exact Masked.load hown _
  | len => exact Masked.load hown _
  | count => exact Masked.pure count
  | uart => exact absurd rfl hc
  | byte a => exact Masked.load hown _

/-- A task keeps its sections. -/
theorem masked_doTask (count : ℕ) (t : PrintTask) : Masked Shared (doTask count t) := by
  cases t with
  | store st =>
    refine Masked.bind (.store (fun h => ?_) fun _ => rfl) fun _ => .pure _
    cases st <;> cases h
  | display c => exact (masked_vgaDisplayChar Shared c).bind fun _ => .pure _
  | send buff len => exact (masked_serWrite Shared buff len).bind fun _ => .pure _
  | startCount => exact .pure 0
  | scan i =>
    refine Masked.bind (.load (fun h => ?_) _) fun _ => .pure _
    cases h
  | sendBuf =>
    refine Masked.bind (.load (fun h => ?_) _) fun str => ?_
    · cases h
    · exact (masked_serWrite Shared _ _).bind fun _ => .pure _

/-- Steps that do not read the state of the serial port as a whole keep their sections. -/
theorem masked_perform (p : PrintSteps) (h : p.Reads {c | c ≠ .uart}) (count : ℕ) :
    Masked Shared (perform p count) := by
  induction p generalizing count with
  | ret r => exact .pure r
  | read c k ih => exact (masked_look count h.1).bind fun v => ih v (h.2 v) count
  | task t k ih => exact (masked_doTask count t).bind fun count' => ih h count'

/-! ## What the accesses do -/

variable {K : Set ByteMem.Addr}

theorem look_eq (s : PrintCall K) (c : PrintCell) :
    (look s.count c).val s.console = s.get c ∧ (look s.count c).next s.console = s.console := by
  cases c <;> exact ⟨rfl, rfl⟩

/-- A task does what it does in a call in progress. -/
theorem doTask_eq (s : PrintCall K) (t : PrintTask) :
    (doTask s.count t).val s.console = (PrintCall.exec t s).count ∧
      (doTask s.count t).next s.console = (PrintCall.exec t s).console := by
  cases t with
  | display c =>
    rw [doTask, val_bind, next_bind, next_vgaDisplayChar]
    exact ⟨rfl, rfl⟩
  | send buff len =>
    rw [doTask, val_bind, next_bind, next_serWrite]
    exact ⟨rfl, rfl⟩
  | sendBuf =>
    rw [doTask, val_bind, next_bind, val_bind, next_bind, next_serWrite]
    exact ⟨rfl, rfl⟩
  | _ => exact ⟨rfl, rfl⟩

/-- The steps of a call do what they do in a call in progress. -/
theorem perform_eq (p : PrintSteps) (s : PrintCall K) :
    (perform p s.count).val s.console = ((PrintCall.machine K).runAlone p s).2.1 ∧
      (perform p s.count).next s.console = ((PrintCall.machine K).runAlone p s).2.2.console := by
  induction p generalizing s with
  | ret r => exact ⟨rfl, rfl⟩
  | read c k ih =>
    obtain ⟨hval, hnext⟩ := look_eq s c
    rw [perform, val_bind, next_bind, hval, hnext]
    exact ih _ s
  | task t k ih =>
    obtain ⟨hval, hnext⟩ := doTask_eq s t
    rw [perform, val_bind, next_bind, hval, hnext]
    exact ih (PrintCall.exec t s)

/-- Access by access, `printk` does what it does in `Console`. -/
theorem printk_perform (s : Console) (fmt : List (BitVec 8)) (args : List VaArg) :
    ((printk fmt args).val s).map (fun r => ((printk fmt args).next s, r)) = s.printk fmt args := by
  let start : PrintCall s.uart.apart := ⟨s, 0, Set.Subset.rfl⟩
  obtain ⟨hval, hnext⟩ := perform_eq (printkSteps fmt args) start
  have hends : PrintCall.ends (printkSteps fmt args) start = s.printk fmt args :=
    PrintCall.ends_printkLoop fmt 0 args start
  rw [← hends, PrintCall.ends, ← hval, ← hnext]
  rfl

/-- Printing keeps the interrupt flag and its critical sections. -/
theorem printk_masked (fmt : List (BitVec 8)) (args : List VaArg) :
    Masked Shared (printk fmt args) ∧ ∀ s : Console,
      ((printk fmt args).val s).map (fun r => ((printk fmt args).next s, r)) =
        s.printk fmt args := by
  refine ⟨masked_perform _ (PrintSteps.reads_printkLoop ?_ fmt 0 fun _ a h => ?_) 0,
    fun s => printk_perform s fmt args⟩
  · rintro c (rfl | ⟨i, rfl⟩) h <;> cases h
  · cases h

end Access

end KernelDev
