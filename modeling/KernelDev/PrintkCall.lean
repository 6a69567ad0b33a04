import KernelDev.PrintkSteps
import KernelDev.SerialLog

/-!
# Calls of `printk`

The machine that the steps of `printk` run on. Its state is a call in progress (`PrintCall`) : the
console, the count of the `strlen` that the call is in, and a part of memory that the serial port
leaves alone. Its interrupts are those of the serial port, each handled to its end
(`Console.interrupt`), with the handler of the source, which may print a line error and so use
`print_buf` itself.

To be a machine, each task must set every cell from the cells it is said to depend on
(`PrintTask.deps`, `get_exec`). A task that sends changes the state of the serial port as a whole,
and memory through the ring pointers; a byte of memory that is stored to is part of the port from
then on (`mem_write_congr`). What is left, memory outside of the ring, stays as it is
(`KeepsApart`) : every function of the port stores through `producer`, which stays in the ring or
runs on from where it was.

A call that is not interrupted ends as `Console.printk` does (`ends_printkLoop`), where `ends` is
the console and the result of the program. This is what ties the program to the source : it goes
through the functions of `printk.c` from the inside out, with one lemma for each. The stores of a
conversion are those that it does (`intToString_eq`, `uintToString_eq`), and the reads of
`print_buf` find what was stored (`ends_displayBuf`, `foldl_scan`).
-/

namespace KernelDev

open ByteMem Interrupts

/-! ## Memory that the serial port leaves alone -/

namespace Uart

variable {u u' u'' : Uart}

/-- Memory outside of the ring, as long as bytes are stored into the ring. -/
def apart (u : Uart) : Set Addr :=
  {a | (∃ p < buffSize, u.producer = u.buff + BitVec.ofNat 64 p) ∧
    ∀ p < buffSize, a ≠ u.buff + BitVec.ofNat 64 p}

/-- From `u` to `u'` that memory was left alone. -/
def KeepsApart (u u' : Uart) : Prop :=
  ∀ a ∈ u.apart, a ∈ u'.apart ∧ u'.mem a = u.mem a

theorem KeepsApart.refl (u : Uart) : KeepsApart u u :=
  fun _ ha => ⟨ha, rfl⟩

theorem KeepsApart.trans (h : KeepsApart u u') (h' : KeepsApart u' u'') : KeepsApart u u'' := by
  intro a ha
  obtain ⟨ha', hmem⟩ := h a ha
  obtain ⟨ha'', hmem'⟩ := h' a ha'
  exact ⟨ha'', hmem'.trans hmem⟩

theorem keepsApart_enqueue (u : Uart) (b : BitVec 8) : KeepsApart u (u.enqueue b) := by
  rintro a ⟨⟨p, hp, hprod⟩, hout⟩
  refine ⟨⟨⟨(p + 1) % buffSize, Nat.mod_lt _ (by decide), ?_⟩, hout⟩, ?_⟩
  · show u.advance u.producer = _
    rw [hprod, advance_eq u hp]
    rfl
  · refine Function.update_of_ne ?_ _ _
    rw [hprod]
    exact hout p hp

theorem keepsApart_enqueueFrom (u : Uart) (buff : ℕ → BitVec 8) :
    ∀ n, KeepsApart u (u.enqueueFrom buff n)
  | 0 => .refl u
  | n + 1 => by
    rw [enqueueFrom, List.range_succ, List.foldl_append]
    exact (keepsApart_enqueueFrom u buff n).trans (keepsApart_enqueue _ _)

theorem keepsApart_hardwareWrite (u : Uart) : KeepsApart u u.hardwareWrite := by
  unfold hardwareWrite
  split_ifs
  · exact .refl u
  · exact .refl u

/-- `SER_write` stores into the ring only. -/
theorem keepsApart_write (u : Uart) (buff : ℕ → BitVec 8) (len : ℤ) :
    KeepsApart u (u.write buff len) :=
  (keepsApart_enqueueFrom u buff _).trans (keepsApart_hardwareWrite _)

theorem keepsApart_run (u : Uart) : ∀ e : SinkEvent, KeepsApart u (e.run u)
  | .chunk _ => keepsApart_write u _ _
  | .free => keepsApart_hardwareWrite { u with txBusy := false }

/-- So do all events of the sinks. -/
theorem keepsApart_foldl : ∀ (es : List SinkEvent) (u : Uart),
    KeepsApart u (es.foldl SinkEvent.run u)
  | [], u => .refl u
  | e :: es, u => (keepsApart_run u e).trans (keepsApart_foldl es _)

end Uart

/-! ## Calls -/

/-- A call in progress : the console, the count of its `strlen`, and memory `K` that the serial
port leaves alone. -/
structure PrintCall (K : Set Addr) where
  console : Console
  /-- What `strlen` has counted so far. -/
  count : ℕ
  apart : K ⊆ console.uart.apart

namespace Console

/-- An interrupt of the serial port, if interrupts are on : its handler runs with interrupts
off, to its end. -/
def interrupt (s : Console) (iir lsr : BitVec 8) : Console :=
  if s.intFlag then
    match { s with intFlag := false }.serialInterruptHandler iir lsr with
    | some t => { t with intFlag := true }
    | none => s
  else s

theorem keepsApart_interrupt (s : Console) (iir lsr : BitVec 8) :
    Uart.KeepsApart s.uart (s.interrupt iir lsr).uart := by
  unfold interrupt
  split
  · split
    · next t ht =>
      show Uart.KeepsApart s.uart t.uart
      rw [(serialInterruptHandler_logs ht).uart]
      exact Uart.keepsApart_foldl _ s.uart
    · exact .refl _
  · exact .refl _

theorem keepsApart_vgaDisplayChar (s : Console) (c : BitVec 8) :
    Uart.KeepsApart s.uart (s.vgaDisplayChar c).uart := by
  rw [vgaDisplayChar_eq]
  exact .refl _

theorem keepsApart_serWrite (s : Console) (buff : ℕ → BitVec 8) (len : ℤ) :
    Uart.KeepsApart s.uart (s.serWrite buff len).1.uart := by
  rw [serWrite_eq]
  exact Uart.keepsApart_write _ _ _

end Console

namespace PrintCall

variable {K : Set Addr}

/-- The call goes on from a console that left the memory alone. -/
def onto (s : PrintCall K) (t : Console) (h : Uart.KeepsApart s.console.uart t.uart) :
    PrintCall K :=
  { s with console := t, apart := fun a ha => (h a (s.apart ha)).1 }

/-- The value of a cell. -/
def get (s : PrintCall K) : (c : PrintCell) → c.Val
  | .buf i => s.console.digits.printBuf i
  | .len => s.console.digits.intLen
  | .count => s.count
  | .uart => s.console.uart
  | .byte a => s.console.uart.mem a

/-- The effect of a task. A `scan` of `strlen` that has come to index `i` goes on behind it
unless it finds the NUL. -/
def exec : PrintTask → PrintCall K → PrintCall K
  | .store st, s => s.onto { s.console with digits := st.run s.console.digits } (.refl _)
  | .display c, s => s.onto (s.console.vgaDisplayChar c) (s.console.keepsApart_vgaDisplayChar c)
  | .send buff len, s => s.onto (s.console.serWrite buff len).1 (s.console.keepsApart_serWrite _ _)
  | .startCount, s => { s with count := 0 }
  | .scan i, s =>
    { s with count := if s.count = i ∧ s.console.digits.printBuf i ≠ 0 then i + 1 else s.count }
  | .sendBuf, s =>
    s.onto (s.console.serWrite (fun i => s.console.digits.str.getD i 0)
      (BitVec.ofNat 32 s.count).toInt).1 (s.console.keepsApart_serWrite _ _)

end PrintCall

/-- The characters that a task displays. -/
def PrintTask.shows : PrintTask → List (BitVec 8)
  | display c => [c]
  | _ => []

/-- The cells that `SER_write(print_buf, count)` reads. -/
def PrintCell.sent : Set PrintCell :=
  insert .uart (insert .count (Set.range .buf))

/-- The cells that a task sets a cell from. -/
def PrintTask.deps (K : Set Addr) : PrintTask → PrintCell → Set PrintCell
  | store (.char i _), .buf j => {d | i ≠ j ∧ d = .buf j}
  | store (.len _), .len => ∅
  | send _ _, .byte a => {d | (a ∈ K → d = .byte a) ∧ (a ∉ K → d = .uart)}
  | startCount, .count => ∅
  | scan i, .count => {.count, .buf i}
  | sendBuf, .uart => PrintCell.sent
  | sendBuf, .byte a => {d | (a ∈ K → d = .byte a) ∧ (a ∉ K → d ∈ PrintCell.sent)}
  | _, c => {c}

namespace PrintCall

variable {K : Set Addr}

theorem onto_congr {s : PrintCall K} {t t' : Console} (ht : t = t')
    (h : Uart.KeepsApart s.console.uart t.uart) : s.onto t h = s.onto t' (ht ▸ h) := by
  subst ht
  rfl

theorem exec_display (c : BitVec 8) (s : PrintCall K) : exec (.display c) s =
    s.onto { s.console with vga := s.console.vga.display c } (.refl _) :=
  onto_congr (s.console.vgaDisplayChar_eq c) (s.console.keepsApart_vgaDisplayChar c)

theorem exec_send (buff : ℕ → BitVec 8) (len : ℤ) (s : PrintCall K) : exec (.send buff len) s =
    s.onto { s.console with uart := s.console.uart.write buff len }
      (Uart.keepsApart_write _ _ _) :=
  onto_congr (congrArg Prod.fst (s.console.serWrite_eq buff len))
    (s.console.keepsApart_serWrite buff len)

theorem exec_sendBuf (s : PrintCall K) : exec .sendBuf s =
    exec (.send (fun i => s.console.digits.str.getD i 0) (BitVec.ofNat 32 s.count).toInt) s :=
  rfl

/-- A byte apart from the ring is not sent to, and any other is part of the serial port. -/
theorem mem_write_congr {s s' : PrintCall K} {buff buff' : ℕ → BitVec 8} {len len' : ℤ} {a : Addr}
    (hapart : a ∈ K → s.console.uart.mem a = s'.console.uart.mem a)
    (hring : a ∉ K → s.console.uart.write buff len = s'.console.uart.write buff' len') :
    (s.console.uart.write buff len).mem a = (s'.console.uart.write buff' len').mem a := by
  by_cases ha : a ∈ K
  · rw [(Uart.keepsApart_write _ buff len a (s.apart ha)).2,
      (Uart.keepsApart_write _ buff' len' a (s'.apart ha)).2, hapart ha]
  · rw [hring ha]

theorem write_sent_congr {s s' : PrintCall K} (h : ∀ d ∈ PrintCell.sent, s.get d = s'.get d) :
    s.console.uart.write (fun i => s.console.digits.str.getD i 0) (BitVec.ofNat 32 s.count).toInt =
      s'.console.uart.write (fun i => s'.console.digits.str.getD i 0)
        (BitVec.ofNat 32 s'.count).toInt := by
  have huart : s.console.uart = s'.console.uart := h .uart (by simp [PrintCell.sent])
  have hcount : s.count = s'.count := h .count (by simp [PrintCell.sent])
  have hbuf : s.console.digits.printBuf = s'.console.digits.printBuf :=
    funext fun i => h (.buf i) (by simp [PrintCell.sent])
  rw [huart, hcount, DigitBuf.str, DigitBuf.str, hbuf]

/-- A task sets a cell from the cells it depends on. -/
theorem get_exec {t : PrintTask} {c : PrintCell} {s s' : PrintCall K}
    (h : ∀ d ∈ t.deps K c, s.get d = s'.get d) : (exec t s).get c = (exec t s').get c := by
  cases t with
  | store st =>
    cases st with
    | char i b =>
      cases c with
      | buf j =>
        show Function.update s.console.digits.printBuf i b j =
          Function.update s'.console.digits.printBuf i b j
        rw [Function.update_apply, Function.update_apply]
        split_ifs with hj
        · rfl
        · exact h (.buf j) ⟨Ne.symm hj, rfl⟩
      | _ => exact h _ rfl
    | len n =>
      cases c with
      | len => rfl
      | _ => exact h _ rfl
  | display ch =>
    rw [exec_display, exec_display]
    cases c <;> exact h _ rfl
  | send buff len =>
    rw [exec_send, exec_send]
    cases c with
    | byte a =>
      refine mem_write_congr (fun ha => h (.byte a) ⟨fun _ => rfl, fun hn => absurd ha hn⟩)
        fun ha => ?_
      have huart : s.console.uart = s'.console.uart :=
        h .uart ⟨fun hin => absurd hin ha, fun _ => rfl⟩
      rw [huart]
    | uart =>
      have huart : s.console.uart = s'.console.uart := h .uart rfl
      show s.console.uart.write buff len = s'.console.uart.write buff len
      rw [huart]
    | _ => exact h _ rfl
  | startCount =>
    cases c with
    | count => rfl
    | _ => exact h _ rfl
  | scan i =>
    cases c with
    | count =>
      have hcount : s.count = s'.count := h .count (by simp [PrintTask.deps])
      have hbuf : s.console.digits.printBuf i = s'.console.digits.printBuf i :=
        h (.buf i) (by simp [PrintTask.deps])
      show (if s.count = i ∧ s.console.digits.printBuf i ≠ 0 then i + 1 else s.count) =
        if s'.count = i ∧ s'.console.digits.printBuf i ≠ 0 then i + 1 else s'.count
      rw [hcount, hbuf]
    | _ => exact h _ rfl
  | sendBuf =>
    rw [exec_sendBuf, exec_sendBuf, exec_send, exec_send]
    cases c with
    | byte a =>
      refine mem_write_congr (fun ha => h (.byte a) ⟨fun _ => rfl, fun hn => absurd ha hn⟩)
        fun ha => write_sent_congr fun d hd => ?_
      exact h d ⟨fun hin => absurd hin ha, fun _ => hd⟩
    | uart => exact write_sent_congr h
    | _ => exact h _ rfl

/-- The machine that calls of `printk` run on, with interrupts of the serial port. -/
def machine (K : Set Addr) :
    Machine (PrintCall K) PrintCell PrintCell.Val PrintTask (BitVec 8) (BitVec 8 × BitVec 8) where
  get := get
  exec := exec
  shows := PrintTask.shows
  handle := fun (iir, lsr) s =>
    s.onto (s.console.interrupt iir lsr) (s.console.keepsApart_interrupt _ _)
  deps := PrintTask.deps K
  get_exec := get_exec

end PrintCall

/-! ## Stores -/

namespace PrintSteps

/-- `digitStores` are the stores of the loop. -/
theorem emitDigits_eq (d : DigitBuf) (pos : ℕ) (unsignedValue placeValue : BitVec 64)
    (base : BitVec 32) : d.emitDigits pos unsignedValue placeValue base =
      (digitStores pos unsignedValue placeValue base).map fun ts => ts.foldl DigitStore.run d := by
  unfold DigitBuf.emitDigits digitStores
  refine Loop.run_bind_map (fun t => (t.1.foldl DigitStore.run d, t.2)) _ (fun _ => ?_)
    (fun t => ?_) (fun _ => ?_) digitTests ([], pos, unsignedValue, placeValue)
  · rfl
  · simp [DigitStore.run]
  · rfl

/-- `intStores` are the stores of `int_to_string`. -/
theorem intToString_eq (d : DigitBuf) (value : BitVec 64) (base : BitVec 32) :
    d.intToString value base = (intStores value base).map fun ts => ts.foldl DigitStore.run d := by
  have hsign : ∀ (c : Prop) [Decidable c] (d : DigitBuf),
      (if c then d.store 0 (ch '-') else d) =
        (if c then [DigitStore.char 0 (ch '-')] else []).foldl DigitStore.run d := by
    intro c _ d
    split_ifs <;> rfl
  unfold DigitBuf.intToString intStores
  dsimp only
  generalize (if value.slt 0 ∧ base = 10 then -value else value) = v
  by_cases hv : v = 0
  · rw [if_pos hv, if_pos hv]
    rfl
  · rw [if_neg hv, if_neg hv]
    cases countDigits v base with
    | none => rfl
    | some numDigits =>
      cases findPlaceValue v base with
      | none => rfl
      | some placeValue =>
        dsimp only [Option.bind_eq_bind, Option.bind_some]
        rw [hsign, emitDigits_eq]
        generalize digitStores _ v placeValue base = o
        cases o with
        | none => rfl
        | some digits => simp [DigitStore.run, List.foldl_append]

theorem fillDigits_eq (d : DigitBuf) (pos : ℤ) (value : BitVec 64) (base : BitVec 32) :
    d.fillDigits pos value base =
      (lastDigitStores pos value base).map fun ts => ts.foldl DigitStore.run d := by
  unfold DigitBuf.fillDigits lastDigitStores
  refine Loop.run_bind_map (fun t => (t.1.foldl DigitStore.run d, t.2)) _ (fun _ => ?_)
    (fun t => ?_) (fun _ => ?_) digitTests ([], pos, value)
  · rfl
  · simp [DigitStore.run]
  · rfl

/-- `uintStores` are the stores of `uint_to_string`. -/
theorem uintToString_eq (d : DigitBuf) (value : BitVec 64) (base : BitVec 32) :
    d.uintToString value base =
      (uintStores value base).map fun ts => ts.foldl DigitStore.run d := by
  unfold DigitBuf.uintToString uintStores
  split_ifs
  · rfl
  · generalize Loop.run _ _ _ _ = o
    cases o with
    | none => rfl
    | some x =>
      dsimp only [Option.bind_eq_bind, Option.bind_some]
      rw [fillDigits_eq]
      generalize lastDigitStores _ _ _ = o
      cases o <;> rfl

end PrintSteps

/-! ## Calls that are not interrupted -/

namespace PrintCall

open PrintSteps

variable {K : Set Addr}

/-- The end of a call that is not interrupted : the console, and what the call returns. -/
def ends (p : PrintSteps) (s : PrintCall K) : Option (Console × BitVec 32) :=
  ((machine K).runAlone p s).2.1.map fun r => (((machine K).runAlone p s).2.2.console, r)

@[simp] theorem ends_ret (r : Option (BitVec 32)) (s : PrintCall K) :
    ends (.ret r) s = r.map fun r => (s.console, r) :=
  rfl

@[simp] theorem ends_read (c : PrintCell) (k : c.Val → PrintSteps) (s : PrintCall K) :
    ends (.read c k) s = ends (k (s.get c)) s :=
  rfl

@[simp] theorem ends_task (t : PrintTask) (k : PrintSteps) (s : PrintCall K) :
    ends (.task t k) s = ends k (exec t s) :=
  rfl

theorem runAlone_tasks (ts : List PrintTask) (k : PrintSteps) (s : PrintCall K) :
    (machine K).runAlone (tasks ts k) s =
      (ts.flatMap PrintTask.shows ++ ((machine K).runAlone k (ts.foldl (fun s t => exec t s) s)).1,
        ((machine K).runAlone k (ts.foldl (fun s t => exec t s) s)).2) := by
  induction ts generalizing s with
  | nil => rfl
  | cons t ts ih =>
    show (machine K).runAlone (.task t (tasks ts k)) s = _
    rw [Machine.runAlone_task, ih, List.flatMap_cons, List.append_assoc]
    rfl

/-- The scans of `strlen` from index `i` on count up to the NUL, if they have come to `i`. -/
theorem foldl_scan (n i : ℕ) (s : PrintCall K) (hi : s.count ≤ i) :
    ((List.range' i n).map PrintTask.scan).foldl (fun s t => exec t s) s =
      { s with count := if s.count = i then
          i + strlen ((List.range' i n).map s.console.digits.printBuf) else s.count } := by
  induction n generalizing i s with
  | zero =>
    rw [List.range'_zero, List.map_nil, List.map_nil, List.foldl_nil, strlen]
    split_ifs with hcount
    · rw [Nat.add_zero, ← hcount]
    · rfl
  | succ n ih =>
    rw [List.range'_succ, List.map_cons, List.foldl_cons, List.map_cons, strlen]
    rcases Nat.lt_or_eq_of_le hi with hlt | rfl
    · have hsame : exec (.scan i) s = s := by
        rw [exec, if_neg fun h => hlt.ne h.1]
      rw [if_neg hlt.ne, hsame, ih (i + 1) s (by omega), if_neg (by omega)]
    · rw [if_pos rfl]
      by_cases hnul : s.console.digits.printBuf s.count = 0
      · have hsame : exec (.scan s.count) s = s := by
          rw [exec, if_neg fun h => h.2 hnul]
        rw [hsame, ih (s.count + 1) s (by omega), if_neg (by omega), if_pos hnul]
        rfl
      · rw [exec, if_pos ⟨rfl, hnul⟩, ih (s.count + 1) _ (le_refl _), if_pos rfl, if_neg hnul,
          Nat.add_assoc, Nat.add_comm 1]

/-- `ser_print_str` displays nothing. -/
theorem runAlone_serPrintBuf (k : PrintSteps) (s : PrintCall K) :
    ∃ s' : PrintCall K, s'.console = s.console.serPrintStr s.console.digits.str ∧
      (machine K).runAlone (serPrintBuf k) s = (machine K).runAlone k s' := by
  have hscan : ((List.range printBufLen).map PrintTask.scan).foldl (fun s t => exec t s)
      (exec .startCount s) = { s with count := strlen s.console.digits.str } := by
    rw [List.range_eq_range', foldl_scan _ _ _ (Nat.le_refl 0),
      if_pos (show (exec .startCount s).count = 0 from rfl), Nat.zero_add, DigitBuf.str,
      List.range_eq_range']
    rfl
  have hshows : ((List.range printBufLen).map PrintTask.scan).flatMap PrintTask.shows = [] := by
    simp [List.flatMap_map, PrintTask.shows]
  have htasks := runAlone_tasks ((List.range printBufLen).map .scan) (.task .sendBuf k)
    (exec .startCount s)
  rw [hscan, hshows, List.nil_append, Machine.runAlone_silent _ _ rfl] at htasks
  refine ⟨exec .sendBuf { s with count := strlen s.console.digits.str }, rfl, ?_⟩
  rw [serPrintBuf, Machine.runAlone_silent _ _ rfl]
  exact htasks

section Rest

variable {k : PrintSteps} {E : Console → Option (Console × BitVec 32)}
  (hk : ∀ s : PrintCall K, ends k s = E s.console)
include hk

theorem ends_displayStr (str : List (BitVec 8)) (s : PrintCall K) :
    ends (displayStr k str) s = E (s.console.vgaDisplayStr str) := by
  induction str generalizing s with
  | nil => exact hk s
  | cons c str ih =>
    rw [displayStr, Console.vgaDisplayStr]
    split_ifs
    · exact hk s
    · exact ih (exec (.display c) s)

theorem ends_send (buff : ℕ → BitVec 8) (len : ℤ) (s : PrintCall K) :
    ends (.task (.send buff len) k) s = E (s.console.serWrite buff len).1 :=
  hk (exec (.send buff len) s)

theorem ends_printChar (c : BitVec 8) (s : PrintCall K) :
    ends (printChar c k) s = E (s.console.printChar c) :=
  ends_send hk _ _ (exec (.display c) s)

theorem ends_printChars (str : List (BitVec 8)) (s : PrintCall K) :
    ends (printChars str k) s = E (s.console.printChars str) :=
  ends_displayStr (E := fun t => E (t.serPrintStr str)) (ends_send hk _ _) str s

/-- The string in `print_buf` is displayed as it is read. -/
theorem ends_displayBuf (n i : ℕ) (s : PrintCall K) : ends (displayBuf k n i) s =
    E (s.console.vgaDisplayStr ((List.range' i n).map s.console.digits.printBuf)) := by
  induction n generalizing i s with
  | zero => exact hk s
  | succ n ih =>
    rw [displayBuf, List.range'_succ, List.map_cons, Console.vgaDisplayStr, ends_read]
    show ends (if s.console.digits.printBuf i = 0 then k else _) s = _
    split_ifs
    · exact hk s
    · have hdigits : ∀ c, (exec (.display c) s).console.digits = s.console.digits := fun c => by
        rw [exec_display]
        rfl
      rw [ends_read, ends_task, ih, hdigits]
      rfl

theorem ends_serPrintBuf (s : PrintCall K) :
    ends (serPrintBuf k) s = E (s.console.serPrintStr s.console.digits.str) := by
  obtain ⟨s', hconsole, hrun⟩ := runAlone_serPrintBuf k s
  rw [← hconsole, ← hk, ends, ends, hrun]

/-- `print_str` on `print_buf` prints what is in it. -/
theorem ends_printBuf (s : PrintCall K) :
    ends (printBuf k) s = E (s.console.printStr (some s.console.digits.str)) := by
  have hdigits : ∀ str, (s.console.vgaDisplayStr str).digits = s.console.digits := fun str => by
    rw [Console.vgaDisplayStr_eq, Console.foldl_vgaDisplayChar]
  rw [printBuf, ends_displayBuf (E := fun t => E (t.serPrintStr t.digits.str))
    (ends_serPrintBuf hk), hdigits, ← List.range_eq_range']
  rfl

theorem ends_stores (ts : List DigitStore) (s : PrintCall K) :
    ends (tasks (ts.map .store) k) s =
      E { s.console with digits := ts.foldl DigitStore.run s.console.digits } := by
  induction ts generalizing s with
  | nil => exact hk s
  | cons st ts ih => exact ih (exec (.store st) s)

end Rest

section Rest

variable {k : PrintSteps} {E : Console → Option (Console × BitVec 32)}
  (hk : ∀ s : PrintCall K, ends k s = E s.console)
include hk

/-- A signed conversion prints its number. -/
theorem ends_printIntToString (value : BitVec 64) (base : BitVec 32) (s : PrintCall K) :
    ends (printIntToString value base k) s = (s.console.printIntToString value base).bind E := by
  rw [printIntToString, Console.printIntToString, intToString_eq]
  cases intStores value base with
  | none => rfl
  | some ts =>
    exact ends_stores (E := fun t => E (t.printStr (some t.digits.str))) (ends_printBuf hk) ts s

theorem ends_printUintToString (value : BitVec 64) (base : BitVec 32) (s : PrintCall K) :
    ends (printUintToString value base k) s = (s.console.printUintToString value base).bind E := by
  rw [printUintToString, Console.printUintToString, uintToString_eq]
  cases uintStores value base with
  | none => rfl
  | some ts =>
    exact ends_stores (E := fun t => E (t.printStr (some t.digits.str))) (ends_printBuf hk) ts s

theorem ends_caseD (lenMod : ℕ) (arg : BitVec 64) (s : PrintCall K) :
    ends (caseD lenMod arg k) s = (s.console.caseD lenMod arg).bind E := by
  unfold caseD Console.caseD
  split_ifs <;> exact ends_printIntToString hk _ _ s

theorem ends_caseU (lenMod : ℕ) (arg : BitVec 64) (s : PrintCall K) :
    ends (caseU lenMod arg k) s = (s.console.caseU lenMod arg).bind E := by
  unfold caseU Console.caseU
  split_ifs
  · exact ends_printIntToString hk _ _ s
  · exact ends_printUintToString hk _ _ s
  · exact ends_printUintToString hk _ _ s
  · exact ends_printIntToString hk _ _ s

theorem ends_caseX (lenMod : ℕ) (arg : BitVec 64) (s : PrintCall K) :
    ends (caseX lenMod arg k) s = (s.console.caseX lenMod arg).bind E := by
  unfold caseX Console.caseX
  split_ifs <;> exact ends_printIntToString hk _ _ s

end Rest

/-- `strlen(NULL)` counts as `strlenAt` does. -/
theorem ends_strlenNull {k : ℕ → PrintSteps} {E : ℕ → Console → Option (Console × BitVec 32)}
    (hk : ∀ (n : ℕ) (s : PrintCall K), ends (k n) s = E n s.console) (fuel : ℕ) (a : Addr) (n : ℕ)
    (s : PrintCall K) : ends (strlenNull k fuel a n) s =
      E (n + strlenAt s.console.uart.mem a fuel) s.console := by
  induction fuel generalizing a n with
  | zero => exact hk n s
  | succ fuel ih =>
    rw [strlenNull, strlenAt, ends_read]
    show ends (if s.console.uart.mem a = 0 then k n else _) s = _
    split_ifs
    · exact hk n s
    · rw [ih, Nat.add_assoc, Nat.add_comm 1]

section Directive

variable {k : BitVec 32 → List VaArg → PrintSteps}
  {E : Console → BitVec 32 → List VaArg → Option (Console × BitVec 32)}
  (hk : ∀ (n : BitVec 32) (args : List VaArg) (s : PrintCall K),
    ends (k n args) s = E s.console n args)
include hk

/-- The `switch` of `printk`. -/
theorem ends_directive (n : BitVec 32) (lenMod : ℕ) (c : BitVec 8) (args : List VaArg)
    (s : PrintCall K) : ends (directive n lenMod c args k) s =
      (s.console.directive n lenMod c args).bind fun (t, n, args) => E t n args := by
  have hlen : ∀ (m : BitVec 32) (args : List VaArg) (s : PrintCall K),
      ends (.read .len fun intLen => k (m + intLen) args) s =
        E s.console (m + s.console.digits.intLen) args := fun m args s => hk _ _ s
  have hbind : ∀ (o : Option Console) (m : BitVec 32) (args : List VaArg),
      (o.bind fun t => E t (m + t.digits.intLen) args) =
        (o.bind fun t => some (t, m + t.digits.intLen, args)).bind fun (t, n, args) => E t n args :=
    fun o _ _ => by cases o <;> rfl
  unfold directive Console.directive
  split_ifs
  · exact ends_printChar (E := fun t => E t (n + 1) args) (hk _ _) _ s
  · rcases args with - | ⟨w | str, args⟩
    · rfl
    · exact (ends_caseD (E := fun t => E t (n + t.digits.intLen) args) (hlen n args) lenMod w
        s).trans (hbind _ n args)
    · rfl
  · rcases args with - | ⟨w | str, args⟩
    · rfl
    · exact (ends_caseU (E := fun t => E t (n + t.digits.intLen) args) (hlen n args) lenMod w
        s).trans (hbind _ n args)
    · rfl
  · rcases args with - | ⟨w | str, args⟩
    · rfl
    · exact (ends_caseX (E := fun t => E t (n + t.digits.intLen) args) (hlen n args) lenMod w
        s).trans (hbind _ n args)
    · rfl
  · rcases args with - | ⟨w | str, args⟩
    · rfl
    · exact ends_printChar (E := fun t => E t (n + 1) args) (hk _ _) _ s
    · rfl
  · rcases args with - | ⟨w | str, args⟩
    · rfl
    · exact (ends_printChars (E := fun t => (t.printIntToString w 16).bind fun t =>
          E t (n + 2 + t.digits.intLen) args)
        (ends_printIntToString (E := fun t => E t (n + 2 + t.digits.intLen) args)
          (hlen (n + 2) args) w 16) (chars "0x") s).trans (hbind (s.console.printPointer w) _ args)
    · rfl
  · rcases args with - | ⟨w | (- | str), args⟩
    · rfl
    · rfl
    · refine ends_printChars
        (E := fun t => E t (n + BitVec.ofNat 32 (strlenAt t.uart.mem 0 (2 ^ 64))) args)
        (fun s => ?_) (chars "(null)") s
      rw [ends_strlenNull (E := fun len t => E t (n + BitVec.ofNat 32 len) args)
        (fun len s => hk _ _ s), Nat.zero_add]
    · exact ends_printChars (E := fun t => E t (n + BitVec.ofNat 32 (strlen str)) args) (hk _ _) _ s
  · exact hk _ _ s

end Directive

/-- Without interrupts the steps of `printk` are `printk`. -/
theorem ends_printkLoop : ∀ (fmt : List (BitVec 8)) (n : BitVec 32) (args : List VaArg)
    (s : PrintCall K), ends (printkLoop n fmt args) s = s.console.printkLoop n fmt args
  | [], _, _, _ => rfl
  | c :: fmt, n, args, s => by
    unfold printkLoop Console.printkLoop
    split_ifs with hend hlit
    · rfl
    · exact ends_printChar (E := fun t => t.printkLoop (n + 1) fmt args)
        (ends_printkLoop fmt (n + 1) args) c s
    · rcases fmt with - | ⟨c', fmt⟩
      · rfl
      dsimp only
      split_ifs with hmod
      · exact ends_directive (E := fun t n args => t.printkLoop n fmt args)
          (ends_printkLoop fmt) n 0 c' args s
      · rcases fmt with - | ⟨c'', fmt⟩
        · rfl
        exact ends_directive (E := fun t n args => t.printkLoop n fmt args)
          (ends_printkLoop fmt) n (Console.lenModOf c') c'' args s

end PrintCall

end KernelDev
