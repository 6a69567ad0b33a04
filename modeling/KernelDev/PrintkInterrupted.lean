import KernelDev.PrintkCall

/-!
# `printk` and the interrupts of the serial port

`print_buf` and `int_len` are shared by all calls of `printk`. An interrupt that reports a line
error stores the text of the line status in them, and may come while another call still reads what
it stored there; then that call goes on with the digits of the handler. Other interrupts do not
touch the digits at all (`interrupt_digits`), and the cursor and the ring are in order between any
two steps, as they are touched with interrupts off.

`printk_undisturbed` says when an interrupt goes unnoticed : when each interrupt leaves the cells
as they are that the rest of the call depends on. These are the cells that the call still reads
before it stores to them; a handler may leave in `print_buf` what it likes as long as the call is
not about to read it. What is compared is what the call displays and what it returns, with any list
of interrupts before each of its steps. A call that prints no `NULL` string depends on the digits
only, so without line errors it is never disturbed (`undisturbed_of_no_lineError`).

The runs at the end are one line error while `12` is displayed, behind its first character. With a
status of the same text nothing is to be seen of it (`printk_undisturbed_twelve`); with a status of
one digit its NUL ends the number early, and its length is counted in place of that of `12`
(`printk_disturbed`).
-/

namespace KernelDev

open ByteMem Interrupts

namespace Console

/-! ## What an interrupt does to the digits -/

/-- The handler reports a line error. -/
def LineError (iir lsr : BitVec 8) : Prop :=
  iir &&& comIntIdentPending = 0 ∧ iir &&& comIntIdentMask = comIntIdentLineStatus ∧
    lsr &&& comLineStatusErrors ≠ 0

/-- The stores of the line error message : the hexadecimal text of the line status. -/
def lineErrorStores (lsr : BitVec 8) : List DigitStore :=
  (PrintSteps.intStores (((lsr.setWidth 64).setWidth 32).setWidth 64) 16).getD []

/-- Printing characters keeps the digits. -/
theorem printkLoop_lits (bs : List (BitVec 8)) (h : ∀ c ∈ bs, c ≠ 0 ∧ c ≠ ch '%') (s : Console)
    (n : BitVec 32) : ∃ (s' : Console) (m : BitVec 32), s'.digits = s.digits ∧
      ∀ fmt args, s.printkLoop n (bs ++ fmt) args = s'.printkLoop m fmt args := by
  induction bs generalizing s n with
  | nil => exact ⟨s, n, rfl, fun _ _ => rfl⟩
  | cons c bs ih =>
    obtain ⟨hc, hbs⟩ := List.forall_mem_cons.1 h
    obtain ⟨s', m, hdigits, hloop⟩ := ih hbs (s.printChar c) (n + 1)
    refine ⟨s', m, hdigits.trans (s.printChar_prints c).2, fun fmt args => ?_⟩
    rw [← hloop, List.cons_append, printkLoop_lit hc.1 hc.2]

/-- A conversion leaves its stores in the digits. -/
theorem printIntToString_digits {s s' : Console} {value : BitVec 64} {base : BitVec 32}
    (h : s.printIntToString value base = some s') : s'.digits =
      ((PrintSteps.intStores value base).getD []).foldl DigitStore.run s.digits := by
  rw [printIntToString, PrintSteps.intToString_eq] at h
  cases hts : PrintSteps.intStores value base with
  | none =>
    rw [hts] at h
    cases h
  | some ts =>
    rw [hts] at h
    cases h
    exact (printChars_prints _ _).2

/-- The line error message leaves its stores in the digits. -/
theorem lineError_digits (s : Console) (lsr : BitVec 8) :
    ∃ s' r, s.printk (chars "Serial line error: 0x%x\n" ++ [0]) [.word (lsr.setWidth 64)] =
      some (s', r) ∧ s'.digits = (lineErrorStores lsr).foldl DigitStore.run s.digits := by
  obtain ⟨s', r, hs', -⟩ := s.lineError_prints lsr
  refine ⟨s', r, hs', ?_⟩
  obtain ⟨t, m, hdigits, hloop⟩ :=
    s.printkLoop_lits (chars "Serial line error: 0x") (by decide) 0
  obtain ⟨u, hu⟩ : ∃ u, t.printHex ((lsr.setWidth 64).setWidth 32) = some u := by
    obtain ⟨u, hu, -⟩ := converts_hex (by decide) t ((lsr.setWidth 64).setWidth 32)
    exact ⟨u, hu⟩
  obtain ⟨v, k, hrest, hend⟩ :=
    u.printkLoop_lits [ch '\n'] (by decide) (m + u.digits.intLen)
  have hfmt : chars "Serial line error: 0x%x\n" ++ [0] =
      chars "Serial line error: 0x" ++ (ch '%' :: (LenMod.none.fmt ++ ch 'x' :: [ch '\n', 0])) := by
    decide
  have hall : s.printk (chars "Serial line error: 0x%x\n" ++ [0]) [.word (lsr.setWidth 64)] =
      some (v, k) := by
    rw [hfmt, printk, hloop, printkLoop_directive t m .none (by decide)]
    show ((t.printHex _).bind fun s => some (s, m + s.digits.intLen, [])).bind _ = _
    rw [hu]
    exact (hend [0] []).trans (v.printkLoop_zero k [] [])
  rw [hall] at hs'
  cases hs'
  rw [hrest, printIntToString_digits hu, hdigits]
  rfl

/-- The handler runs to its end, and touches the digits only if it reports a line error. -/
theorem serialInterruptHandler_digits (s : Console) (iir lsr : BitVec 8) :
    ∃ t, s.serialInterruptHandler iir lsr = some t ∧
      (LineError iir lsr → t.digits = (lineErrorStores lsr).foldl DigitStore.run s.digits) ∧
      (¬LineError iir lsr → t.digits = s.digits) := by
  unfold serialInterruptHandler
  split_ifs with hpend
  · exact ⟨s, rfl, fun h => absurd h.1 hpend, fun _ => rfl⟩
  · rw [not_not] at hpend
    dsimp only
    unfold serviceInterrupt
    split_ifs with hline herr hempty
    · exact absurd (hline.symm.trans ‹_›) (by decide)
    · obtain ⟨t, r, ht, hdigits⟩ := s.lineError_digits lsr
      exact ⟨t, by rw [ht]; rfl, fun _ => hdigits, fun h => absurd ⟨hpend, hline, herr⟩ h⟩
    · exact absurd (hline.symm.trans ‹_›) (by decide)
    · exact ⟨s, rfl, fun h => absurd h.2.2 herr, fun _ => rfl⟩
    · exact ⟨_, rfl, fun h => absurd h.2.1 hline, fun _ => rfl⟩
    · exact ⟨_, rfl, fun h => absurd h.2.1 hline, fun _ => rfl⟩

variable {s : Console} {iir lsr : BitVec 8}

/-- An interrupt that is taken is handled to its end. -/
theorem interrupt_eq (hint : s.intFlag = true) (iir lsr : BitVec 8) :
    ∃ t, { s with intFlag := false }.serialInterruptHandler iir lsr = some t ∧
      s.interrupt iir lsr = { t with intFlag := true } ∧
      (LineError iir lsr → t.digits = (lineErrorStores lsr).foldl DigitStore.run s.digits) ∧
      (¬LineError iir lsr → t.digits = s.digits) := by
  obtain ⟨t, ht, hdigits⟩ := { s with intFlag := false }.serialInterruptHandler_digits iir lsr
  refine ⟨t, ht, ?_, hdigits⟩
  rw [interrupt, if_pos hint, ht]

/-- A line error that is reported leaves its text in the digits. -/
theorem interrupt_lineError (hint : s.intFlag = true) (h : LineError iir lsr) :
    (s.interrupt iir lsr).digits = (lineErrorStores lsr).foldl DigitStore.run s.digits := by
  obtain ⟨t, -, heq, hdigits, -⟩ := interrupt_eq hint iir lsr
  rw [heq]
  exact hdigits h

/-- Only an interrupt that is taken and reports a line error touches the digits. -/
theorem interrupt_digits (h : ¬(s.intFlag = true ∧ LineError iir lsr)) :
    (s.interrupt iir lsr).digits = s.digits := by
  by_cases hint : s.intFlag = true
  · obtain ⟨t, -, heq, -, hdigits⟩ := interrupt_eq hint iir lsr
    rw [heq]
    exact hdigits fun herr => h ⟨hint, herr⟩
  · rw [interrupt, if_neg hint]

end Console

namespace PrintCall

/-- A call that begins. Memory outside of the ring is apart if the ring is in use. -/
def start (s : Console) : PrintCall s.uart.apart where
  console := s
  count := 0
  apart := Set.Subset.rfl

/-- What tasks display is what the display shows. -/
theorem shown_exec {K : Set Addr} (t : PrintTask) (s : PrintCall K) :
    (exec t s).console.vga.shown = s.console.vga.shown ++ t.shows := by
  cases t with
  | display c =>
    rw [exec_display]
    exact Vga.shown_display _ c
  | send buff len =>
    rw [exec_send]
    exact (List.append_nil _).symm
  | sendBuf =>
    rw [exec_sendBuf, exec_send]
    exact (List.append_nil _).symm
  | _ => exact (List.append_nil _).symm

end PrintCall

/-! ## Calls that read the digits only -/

namespace PrintSteps

variable {K : Set Addr}

/-- The call reads `print_buf` and `int_len` only. -/
def ReadsDigits (K : Set Addr) (p : PrintSteps) : Prop :=
  Machine.ReadsOnly (PrintCall.machine K) PrintCell.digits p

/-- A task sets these cells from themselves, or from nothing. -/
theorem deps_digits {t : PrintTask} {c : PrintCell} (hc : c ∈ PrintCell.digits) :
    t.deps K c ⊆ {c} := by
  rcases hc with rfl | ⟨i, rfl⟩
  · cases t with
    | store st =>
      cases st with
      | char j b => exact Set.Subset.rfl
      | len n => exact Set.empty_subset _
    | _ => exact Set.Subset.rfl
  · cases t with
    | store st =>
      cases st with
      | char j b => exact fun d hd => hd.2
      | len n => exact Set.Subset.rfl
    | _ => exact Set.Subset.rfl

/-- A call without a `NULL` string reads the digits only. -/
theorem readsDigits_of_reads {p : PrintSteps} (h : p.Reads PrintCell.digits) : ReadsDigits K p := by
  refine Machine.readsOnly_of_reads (fun t c hc d hd => ?_) h
  obtain rfl : d = c := deps_digits hc hd
  exact hc

end PrintSteps

namespace PrintCall

variable {K : Set Addr}

theorem handle_console (s : PrintCall K) (iir lsr : BitVec 8) :
    ((machine K).handle (iir, lsr) s).console = s.console.interrupt iir lsr :=
  rfl

/-- An interrupt that keeps the digits keeps the cells that hold them. -/
theorem get_handle {s : PrintCall K} {iir lsr : BitVec 8}
    (hbuf : (s.console.interrupt iir lsr).digits.printBuf = s.console.digits.printBuf)
    (hlen : (s.console.interrupt iir lsr).digits.intLen = s.console.digits.intLen)
    {c : PrintCell} (hc : c ∈ PrintCell.digits) :
    (machine K).get ((machine K).handle (iir, lsr) s) c = (machine K).get s c := by
  rcases hc with rfl | ⟨i, rfl⟩
  · exact hlen
  · exact congrFun hbuf i

end PrintCall

/-! ## Undisturbed calls -/

namespace Console

open PrintCall PrintSteps

/-- What a call of `printk` displays and returns, with the interrupts `is n` before its step
`n`. -/
def printkWith (s : Console) (fmt : List (BitVec 8)) (args : List VaArg)
    (is : ℕ → List (BitVec 8 × BitVec 8)) : List (BitVec 8) × Option (BitVec 32) :=
  Machine.seen ((machine s.uart.apart).run (printkSteps fmt args) is (.start s))

/-- With the interrupts the call displays and returns what `printk` does without them. -/
def PrintsAlike (s : Console) (fmt : List (BitVec 8)) (args : List VaArg)
    (is : ℕ → List (BitVec 8 × BitVec 8)) : Prop :=
  (s.printkWith fmt args is).2 = (s.printk fmt args).map Prod.snd ∧
    ∀ t r, s.printk fmt args = some (t, r) →
      t.vga.shown = s.vga.shown ++ (s.printkWith fmt args is).1

/-- A call that prints no `NULL` string is disturbed by line errors only. -/
theorem undisturbed_of_no_lineError (s : Console) (fmt : List (BitVec 8)) {args : List VaArg}
    {is : ℕ → List (BitVec 8 × BitVec 8)} (hargs : VaArg.str none ∉ args)
    (his : ∀ n, ∀ i ∈ is n, ¬LineError i.1 i.2) :
    (machine s.uart.apart).Undisturbed (printkSteps fmt args) is (.start s) := by
  have hreads : ReadsDigits s.uart.apart (printkSteps fmt args) :=
    readsDigits_of_reads (reads_printkLoop Set.Subset.rfl fmt 0 fun h => absurd h hargs)
  refine hreads.undisturbed fun n i hi t c hc => ?_
  have hdigits : (t.console.interrupt i.1 i.2).digits = t.console.digits :=
    interrupt_digits fun h => his n i hi h.2
  exact get_handle (by rw [hdigits]) (by rw [hdigits]) hc

/-- A call of `printk` whose interrupts leave the cells as they are that the rest of it depends
on displays and returns what it does without them. -/
theorem printk_undisturbed (s : Console) (fmt : List (BitVec 8)) (args : List VaArg)
    (is : ℕ → List (BitVec 8 × BitVec 8))
    (h : (machine s.uart.apart).Undisturbed (printkSteps fmt args) is (.start s)) :
    s.PrintsAlike fmt args is := by
  have hseen := Machine.run_undisturbed _ h
  have hends : ends (printkSteps fmt args) (.start s) = s.printk fmt args :=
    ends_printkLoop fmt 0 args (.start s)
  have hlog := Machine.log_runAlone (M := machine s.uart.apart) (fun s => s.console.vga.shown)
    shown_exec (printkSteps fmt args) (.start s)
  unfold PrintsAlike printkWith
  rw [hseen]
  refine ⟨?_, fun t r ht => ?_⟩
  · rw [← hends, ends, Option.map_map]
    exact Option.map_id'.symm
  · rw [← hends, ends] at ht
    obtain ⟨_, -, heq⟩ := Option.map_eq_some_iff.1 ht
    obtain ⟨rfl, -⟩ := Prod.mk.inj heq
    exact hlog

/-! ## A line error while `12` is displayed -/

/-- An idle console with interrupts on. -/
def onConsole : Console :=
  { idleConsole with intFlag := true }

/-- The stores of `int_to_string(12, 10)`. -/
def twelve : List DigitStore :=
  [.char 2 0, .char 0 (ch '1'), .char 1 (ch '2'), .len 2]

/-- What `printk("%d", n)` does once `print_buf` has been printed. -/
def addLen : PrintSteps :=
  .read .len fun n => .ret (some (0 + n))

/-- What `printk("%d", 12)` does after its first character. -/
def restOfTwelve : PrintSteps :=
  displayBuf (serPrintBuf addLen) 64 1

/-- The call `printk("%d", 12)` after its first character. -/
def afterOne : PrintCall onConsole.uart.apart :=
  exec (.display (ch '1'))
    ((PrintCall.start onConsole).onto
      { onConsole with digits := twelve.foldl DigitStore.run onConsole.digits } (.refl _))

theorem afterOne_console : afterOne.console = { onConsole with
    vga := onConsole.vga.display (ch '1')
    digits := twelve.foldl DigitStore.run onConsole.digits } := by
  rw [afterOne, exec_display]
  rfl

theorem printkSteps_twelve : printkSteps (chars "%d" ++ [0]) [.word 12] =
    tasks (twelve.map .store) (printBuf addLen) :=
  rfl

/-- Before step 7 the call has displayed its first character. -/
theorem once_seven (i : BitVec 8 × BitVec 8) :
    (fun n => Machine.once 7 i (n + 7)) = Machine.once 0 i := by
  funext n
  simp [Machine.once]

theorem lineError_afterOne (lsr : BitVec 8) (h : lsr &&& comLineStatusErrors ≠ 0) :
    (afterOne.console.interrupt 0x06 lsr).digits =
      (lineErrorStores lsr).foldl DigitStore.run
        (twelve.foldl DigitStore.run onConsole.digits) := by
  have hint : afterOne.console.intFlag = true := by
    rw [afterOne_console]
    rfl
  rw [interrupt_lineError hint ⟨by decide, by decide, h⟩, afterOne_console]

/-- A line error with the text `12` leaves the digits of `12` as they are. -/
theorem printk_undisturbed_twelve :
    onConsole.PrintsAlike (chars "%d" ++ [0]) [.word 12] (Machine.once 7 (0x06, 0x12)) := by
  have hlen : addLen.Reads PrintCell.digits := ⟨Set.mem_insert _ _, fun _ => trivial⟩
  have hreads : ReadsDigits onConsole.uart.apart restOfTwelve :=
    readsDigits_of_reads (reads_displayBuf Set.Subset.rfl (reads_serPrintBuf hlen) 64 1)
  have hdigits := lineError_afterOne 0x12 (by decide)
  have htext : lineErrorStores 0x12 = twelve := rfl
  rw [htext] at hdigits
  have hrest : (machine onConsole.uart.apart).Undisturbed restOfTwelve
      (Machine.once 0 (0x06, 0x12)) afterOne := by
    refine Machine.undisturbed_once fun c hc => get_handle ?_ ?_ (hreads.live_subset hc)
    · rw [hdigits, afterOne_console]
      funext i
      simp only [twelve, List.foldl_cons, List.foldl_nil, DigitStore.run, DigitBuf.store,
        Function.update_apply]
      split_ifs <;> rfl
    · rw [hdigits, afterOne_console]
      rfl
  rw [← once_seven] at hrest
  exact printk_undisturbed _ _ _ _
    ⟨trivial, trivial, trivial, trivial, trivial, trivial, trivial, hrest⟩

/-- What is left of the call after the interrupt. -/
theorem printkWith_twelve (i : BitVec 8 × BitVec 8) :
    onConsole.printkWith (chars "%d" ++ [0]) [.word 12] (Machine.once 7 i) =
      (ch '1' :: (Machine.seen ((machine onConsole.uart.apart).runAlone restOfTwelve
        ((machine onConsole.uart.apart).handle i afterOne))).1,
      (Machine.seen ((machine onConsole.uart.apart).runAlone restOfTwelve
        ((machine onConsole.uart.apart).handle i afterOne))).2) := by
  have hrest : (machine onConsole.uart.apart).run restOfTwelve (Machine.once 0 i) afterOne =
      (machine onConsole.uart.apart).runAlone restOfTwelve
        ((machine onConsole.uart.apart).handle i afterOne) :=
    Machine.run_once_read _ _ _ _
  rw [printkWith, printkSteps_twelve, ← hrest, ← once_seven]
  rfl

/-- The rest of the call ends at once if it finds a NUL. -/
theorem seen_restOfTwelve {K : Set Addr} {s : PrintCall K}
    (hnul : s.console.digits.printBuf 1 = 0) (hlen : s.console.digits.intLen = 1) :
    Machine.seen ((machine K).runAlone restOfTwelve s) = ([], some 1) := by
  obtain ⟨s', hs', hrun⟩ := runAlone_serPrintBuf addLen s
  have hlen' : s'.console.digits.intLen = 1 := by
    rw [hs', serPrintStr, serWrite_eq]
    exact hlen
  rw [restOfTwelve, displayBuf, Machine.runAlone_read]
  show Machine.seen ((machine K).runAlone
    (if s.console.digits.printBuf 1 = 0 then serPrintBuf addLen else _) s) = _
  rw [if_pos hnul, hrun]
  show ([], some (0 + s'.console.digits.intLen)) = _
  rw [hlen']
  rfl

/-- A line error with the text `2` ends the string after its first character, and its length is
counted in place of that of `12`. -/
theorem printk_disturbed :
    onConsole.printkWith (chars "%d" ++ [0]) [.word 12] (Machine.once 7 (0x06, 0x02)) =
      ([ch '1'], some 1) ∧ ¬∀ s fmt args is, PrintsAlike s fmt args is := by
  have hdigits := lineError_afterOne 0x02 (by decide)
  have htext : lineErrorStores 0x02 = [.char 1 0, .char 0 (ch '2'), .len 1] := rfl
  rw [htext, ← handle_console] at hdigits
  have hrun := printkWith_twelve (0x06, 0x02)
  rw [seen_restOfTwelve (by rw [hdigits]; rfl) (by rw [hdigits]; rfl)] at hrun
  refine ⟨hrun, fun h => ?_⟩
  obtain ⟨hret, -⟩ := h onConsole (chars "%d" ++ [0]) [.word 12] (Machine.once 7 (0x06, 0x02))
  have halone : (onConsole.printk (chars "%d" ++ [0]) [.word 12]).map Prod.snd = some 2 := by
    decide
  rw [hrun, halone] at hret
  exact absurd hret (by decide)

end Console

end KernelDev
