import KernelDev.Lib.Interrupts
import KernelDev.Printk

/-!
# `printk`, step by step

`printkSteps` is `printk` as a program that may be interrupted between its steps, which are the
accesses to what it shares with interrupt handlers : the stores to `print_buf` and `int_len`, every
read of them, `VGA_display_char` and `SER_write`, which run with interrupts off. What a call
computes on its own stack is no step; so the two loops over the digits are the lists of their
stores (`intStores`, `uintStores`).

A string of the caller is displayed character by character, and one in `print_buf` is read as it is
displayed, twice for each character : for the test of the loop and for the call (`displayBuf`).
Then `strlen` reads it once more, and the serial port is offered as many bytes as that counted,
which it reads in its own step (`serPrintBuf`). An interrupt that changes `print_buf` may therefore
show up at any of these places.

`reads_printkLoop` says what a call reads : `print_buf` and `int_len`, and memory if it prints a
`NULL` string, whose length it counts from address `0` on. `PrintkCall` gives the cells and tasks
their meaning.
-/

namespace KernelDev

open ByteMem Interrupts

/-! ## Cells and tasks -/

/-- What a call reads : the characters of `print_buf`, `int_len`, the count of the `strlen`
that it runs on `print_buf`, the state of the serial port, and a byte of memory. -/
inductive PrintCell where
  | buf (i : ℕ)
  | len
  | count
  | uart
  | byte (a : Addr)

/-- The values of a cell. -/
@[reducible] def PrintCell.Val : PrintCell → Type
  | buf _ => BitVec 8
  | len => BitVec 32
  | count => ℕ
  | uart => Uart
  | byte _ => BitVec 8

/-- The characters of `print_buf` and `int_len`. -/
def PrintCell.digits : Set PrintCell :=
  insert .len (Set.range .buf)

/-- A store to `print_buf` or to `int_len`. -/
inductive DigitStore where
  | char (i : ℕ) (c : BitVec 8)
  | len (n : BitVec 32)

/-- The effect of a store. -/
def DigitStore.run (d : DigitBuf) : DigitStore → DigitBuf
  | char i c => d.store i c
  | len n => { d with intLen := n }

/-- What a call does in one step. -/
inductive PrintTask where
  | store (st : DigitStore)
  | display (c : BitVec 8)
  | send (buff : ℕ → BitVec 8) (len : ℤ)
  | startCount
  | scan (i : ℕ)
  | sendBuf

/-- A program of a call. It gives nothing where `Console.printk` gives nothing. -/
abbrev PrintSteps :=
  Program PrintCell PrintCell.Val PrintTask (Option (BitVec 32))

namespace PrintSteps

/-- Tasks one after the other. -/
def tasks (ts : List PrintTask) (k : PrintSteps) : PrintSteps :=
  ts.foldr .task k

/-! ## Conversions -/

/-- The stores of the loop of `int_to_string` over the digits. -/
def digitStores (pos : ℕ) (unsignedValue placeValue : BitVec 64) (base : BitVec 32) :
    Option (List DigitStore) := do
  let (stores, _) ← Loop.run (fun (_, _, _, placeValue) => decide (placeValue > 0))
    (fun (stores, pos, unsignedValue, placeValue) =>
      let digit := (unsignedValue / placeValue).setWidth 32
      (stores ++ [DigitStore.char pos (DigitBuf.intDigit digit)], pos + 1,
        unsignedValue % placeValue,
        placeValue / base.signExtend 64))
    digitTests ([], pos, unsignedValue, placeValue)
  return stores

/-- The stores of `int_to_string`. -/
def intStores (value : BitVec 64) (base : BitVec 32) : Option (List DigitStore) := do
  let negative := value.slt 0 ∧ base = 10
  let unsignedValue := if negative then -value else value
  if unsignedValue = 0 then return [.char 0 (ch '0'), .char 1 0]
  let numDigits ← countDigits unsignedValue base
  let totalLength := numDigits + if negative then 1 else 0
  let totalLength := if totalLength ≥ printBufLen then printBufLen - 1 else totalLength
  let sign := if negative then [DigitStore.char 0 (ch '-')] else []
  let placeValue ← findPlaceValue unsignedValue base
  let digits ← digitStores (if negative then 1 else 0) unsignedValue placeValue base
  return .char totalLength 0 :: sign ++ digits ++ [.len (BitVec.ofNat 32 totalLength)]

/-- The stores of the loop of `uint_to_string` over the digits. -/
def lastDigitStores (pos : ℤ) (value : BitVec 64) (base : BitVec 32) :
    Option (List DigitStore) := do
  let (stores, _) ← Loop.run (fun (_, pos, value) => decide (value > 0) && decide (pos ≥ 0))
    (fun (stores, pos, value) =>
      let digit := (value % base.signExtend 64).setWidth 32
      (stores ++ [DigitStore.char pos.toNat (DigitBuf.uintDigit digit)], pos - 1,
        value / base.signExtend 64))
    digitTests ([], pos, value)
  return stores

/-- The stores of `uint_to_string`. -/
def uintStores (value : BitVec 64) (base : BitVec 32) : Option (List DigitStore) := do
  if value = 0 then return [.char 0 (ch '0'), .char 1 0, .len 1]
  let (numDigits, _) ← Loop.run (fun (_, temp) => decide (temp > 0))
    (fun (numDigits, temp) => (numDigits + 1, temp / base.signExtend 64))
    digitTests ((0 : ℕ), value)
  let numDigits := if numDigits ≥ printBufLen then printBufLen - 1 else numDigits
  let digits ← lastDigitStores (numDigits - 1) value base
  return .len (BitVec.ofNat 32 numDigits) :: .char numDigits 0 :: digits

/-! ## Printing -/

/-- `VGA_display_str` on a string of the caller. -/
def displayStr (k : PrintSteps) : List (BitVec 8) → PrintSteps
  | [] => k
  | c :: str => if c = 0 then k else .task (.display c) (displayStr k str)

/-- `VGA_display_str` on `print_buf` from index `i` on. Each character is read for the test of
the loop, and again for `VGA_display_char`. -/
def displayBuf (k : PrintSteps) : ℕ → ℕ → PrintSteps
  | 0, _ => k
  | n + 1, i => .read (.buf i) fun c =>
    if c = 0 then k
    else .read (.buf i) fun c => .task (.display c) (displayBuf k n (i + 1))

/-- `ser_print_str` on `print_buf` : `strlen` tests one character after the other, and what it
counts is sent. A test behind the end of the string does nothing. -/
def serPrintBuf (k : PrintSteps) : PrintSteps :=
  .task .startCount (tasks ((List.range printBufLen).map .scan) (.task .sendBuf k))

/-- `print_char` -/
def printChar (c : BitVec 8) (k : PrintSteps) : PrintSteps :=
  .task (.display c) (.task (.send (fun _ => c) 1) k)

/-- `print_str` on a string of the caller. -/
def printChars (str : List (BitVec 8)) (k : PrintSteps) : PrintSteps :=
  displayStr (.task (.send (fun i => str.getD i 0) (BitVec.ofNat 32 (strlen str)).toInt) k) str

/-- `print_str` on `print_buf`. -/
def printBuf (k : PrintSteps) : PrintSteps :=
  displayBuf (serPrintBuf k) printBufLen 0

/-- `print_str(int_to_string(value, base))` -/
def printIntToString (value : BitVec 64) (base : BitVec 32) (k : PrintSteps) : PrintSteps :=
  match intStores value base with
  | none => .ret none
  | some ts => tasks (ts.map .store) (printBuf k)

/-- `print_str(uint_to_string(value, base))` -/
def printUintToString (value : BitVec 64) (base : BitVec 32) (k : PrintSteps) : PrintSteps :=
  match uintStores value base with
  | none => .ret none
  | some ts => tasks (ts.map .store) (printBuf k)

/-- `strlen(NULL)`, which reads memory from address `0` on. -/
def strlenNull (k : ℕ → PrintSteps) : ℕ → Addr → ℕ → PrintSteps
  | 0, _, n => k n
  | fuel + 1, a, n => .read (.byte a) fun c =>
    if c = 0 then k n else strlenNull k fuel (a + 1) (n + 1)

/-! ## The format -/

/-- The `case 'd'` of `printk`, where `print_short`, `print_long` and `print_int` differ in the
conversion of their argument. -/
def caseD (lenMod : ℕ) (arg : BitVec 64) (k : PrintSteps) : PrintSteps :=
  if lenMod = 1 then printIntToString (((arg.setWidth 32).setWidth 16).signExtend 64) 10 k
  else if lenMod = 2 then printIntToString arg 10 k
  else if lenMod = 3 then printIntToString arg 10 k
  else printIntToString ((arg.setWidth 32).signExtend 64) 10 k

/-- The `case 'u'` of `printk`. -/
def caseU (lenMod : ℕ) (arg : BitVec 64) (k : PrintSteps) : PrintSteps :=
  if lenMod = 1 then printIntToString (((arg.setWidth 32).setWidth 16).setWidth 64) 10 k
  else if lenMod = 2 then printUintToString arg 10 k
  else if lenMod = 3 then printUintToString arg 10 k
  else printIntToString ((arg.setWidth 32).setWidth 64) 10 k

/-- The `case 'x'` of `printk`. -/
def caseX (lenMod : ℕ) (arg : BitVec 64) (k : PrintSteps) : PrintSteps :=
  if lenMod = 1 then printIntToString (((arg.setWidth 32).setWidth 16).setWidth 64) 16 k
  else if lenMod = 2 then printIntToString arg 16 k
  else if lenMod = 3 then printIntToString arg 16 k
  else printIntToString ((arg.setWidth 32).setWidth 64) 16 k

/-- The `switch` of `printk`, before the rest `k` of the call, which takes `num_printed` and the
arguments left. -/
def directive (numPrinted : BitVec 32) (lenMod : ℕ) (c : BitVec 8) (args : List VaArg)
    (k : BitVec 32 → List VaArg → PrintSteps) : PrintSteps :=
  if c = ch '%' then printChar (ch '%') (k (numPrinted + 1) args)
  else if c = ch 'd' then
    match args with
    | .word arg :: args => caseD lenMod arg (.read .len fun intLen => k (numPrinted + intLen) args)
    | _ => .ret none
  else if c = ch 'u' then
    match args with
    | .word arg :: args => caseU lenMod arg (.read .len fun intLen => k (numPrinted + intLen) args)
    | _ => .ret none
  else if c = ch 'x' then
    match args with
    | .word arg :: args => caseX lenMod arg (.read .len fun intLen => k (numPrinted + intLen) args)
    | _ => .ret none
  else if c = ch 'c' then
    match args with
    | .word arg :: args => printChar (arg.setWidth 8) (k (numPrinted + 1) args)
    | _ => .ret none
  else if c = ch 'p' then
    match args with
    | .word arg :: args =>
      printChars (chars "0x") (printIntToString arg 16
        (.read .len fun intLen => k (numPrinted + 2 + intLen) args))
    | _ => .ret none
  else if c = ch 's' then
    match args with
    | .str (some str) :: args =>
      printChars str (k (numPrinted + BitVec.ofNat 32 (strlen str)) args)
    | .str none :: args =>
      printChars (chars "(null)")
        (strlenNull (fun len => k (numPrinted + BitVec.ofNat 32 len) args) (2 ^ 64) 0 0)
    | _ => .ret none
  else k numPrinted args

/-- The loop of `printk`. -/
def printkLoop (numPrinted : BitVec 32) : List (BitVec 8) → List VaArg → PrintSteps
  | [], _ => .ret none
  | c :: fmt, args =>
    if c = 0 then .ret (some numPrinted)
    else if c ≠ ch '%' then printChar c (printkLoop (numPrinted + 1) fmt args)
    else
      match fmt with
      | [] => .ret none
      | c :: fmt =>
        if Console.lenModOf c = 0 then
          directive numPrinted 0 c args fun numPrinted args => printkLoop numPrinted fmt args
        else
          match fmt with
          | [] => .ret none
          | c' :: fmt =>
            directive numPrinted (Console.lenModOf c) c' args fun numPrinted args =>
              printkLoop numPrinted fmt args

/-! ## What a call reads -/

section

variable {P : Set PrintCell} (hP : PrintCell.digits ⊆ P) {k : PrintSteps}

theorem reads_tasks (hk : k.Reads P) (ts : List PrintTask) : (tasks ts k).Reads P := by
  induction ts with
  | nil => exact hk
  | cons t ts ih => exact ih

theorem reads_displayStr (hk : k.Reads P) (str : List (BitVec 8)) :
    (displayStr k str).Reads P := by
  induction str with
  | nil => exact hk
  | cons c str ih =>
    unfold displayStr
    split_ifs
    · exact hk
    · exact ih

theorem reads_serPrintBuf (hk : k.Reads P) : (serPrintBuf k).Reads P :=
  reads_tasks (k := .task .sendBuf k) hk _

theorem reads_printChars (hk : k.Reads P) (str : List (BitVec 8)) : (printChars str k).Reads P :=
  reads_displayStr (k := .task _ k) hk str

/-- `strlen(NULL)` reads memory. -/
theorem reads_strlenNull {k : ℕ → PrintSteps} (hk : ∀ n, (k n).Reads P)
    (hP : ∀ a, .byte a ∈ P) (fuel : ℕ) (a : Addr) (n : ℕ) : (strlenNull k fuel a n).Reads P := by
  induction fuel generalizing a n with
  | zero => exact hk n
  | succ fuel ih =>
    refine ⟨hP a, fun c => ?_⟩
    dsimp only
    split_ifs
    · exact hk n
    · exact ih _ _

include hP

theorem reads_displayBuf (hk : k.Reads P) (n i : ℕ) : (displayBuf k n i).Reads P := by
  have hbuf : ∀ i, PrintCell.buf i ∈ P := fun i =>
    hP (Set.mem_insert_of_mem _ (Set.mem_range_self i))
  induction n generalizing i with
  | zero => exact hk
  | succ n ih =>
    refine ⟨hbuf i, fun c => ?_⟩
    dsimp only
    split_ifs
    · exact hk
    · exact ⟨hbuf i, fun c => ih (i + 1)⟩

/-- Printing `print_buf` reads it. -/
theorem reads_printBuf (hk : k.Reads P) : (printBuf k).Reads P :=
  reads_displayBuf hP (reads_serPrintBuf hk) _ _

/-- A conversion stores digits, and then prints them. -/
theorem reads_printIntToString (hk : k.Reads P) (value : BitVec 64) (base : BitVec 32) :
    (printIntToString value base k).Reads P := by
  unfold printIntToString
  cases intStores value base with
  | none => exact trivial
  | some ts => exact reads_tasks (reads_printBuf hP hk) _

theorem reads_printUintToString (hk : k.Reads P) (value : BitVec 64) (base : BitVec 32) :
    (printUintToString value base k).Reads P := by
  unfold printUintToString
  cases uintStores value base with
  | none => exact trivial
  | some ts => exact reads_tasks (reads_printBuf hP hk) _

/-- A conversion of a `NULL` string reads memory. -/
theorem reads_directive {k : BitVec 32 → List VaArg → PrintSteps} (n : BitVec 32) (lenMod : ℕ)
    (c : BitVec 8) (args : List VaArg) (hargs : VaArg.str none ∈ args → ∀ a, .byte a ∈ P)
    (hk : ∀ n args', args' ⊆ args → (k n args').Reads P) :
    (directive n lenMod c args k).Reads P := by
  have hlen : ∀ m args', args' ⊆ args →
      (Program.read .len fun intLen => k (m + intLen) args' : PrintSteps).Reads P :=
    fun m args' h => ⟨hP (Set.mem_insert _ _), fun v => hk (m + v) args' h⟩
  unfold directive
  split_ifs
  · exact hk _ _ (List.Subset.refl _)
  · rcases args with - | ⟨w | str, args⟩
    · exact trivial
    · unfold caseD
      split_ifs <;> exact reads_printIntToString hP (hlen _ _ (List.subset_cons_self _ _)) _ _
    · exact trivial
  · rcases args with - | ⟨w | str, args⟩
    · exact trivial
    · unfold caseU
      split_ifs
      · exact reads_printIntToString hP (hlen _ _ (List.subset_cons_self _ _)) _ _
      · exact reads_printUintToString hP (hlen _ _ (List.subset_cons_self _ _)) _ _
      · exact reads_printUintToString hP (hlen _ _ (List.subset_cons_self _ _)) _ _
      · exact reads_printIntToString hP (hlen _ _ (List.subset_cons_self _ _)) _ _
    · exact trivial
  · rcases args with - | ⟨w | str, args⟩
    · exact trivial
    · unfold caseX
      split_ifs <;> exact reads_printIntToString hP (hlen _ _ (List.subset_cons_self _ _)) _ _
    · exact trivial
  · rcases args with - | ⟨w | str, args⟩
    · exact trivial
    · exact hk _ _ (List.subset_cons_self _ _)
    · exact trivial
  · rcases args with - | ⟨w | str, args⟩
    · exact trivial
    · exact reads_printChars
        (reads_printIntToString hP (hlen _ _ (List.subset_cons_self _ _)) _ _) _
    · exact trivial
  · rcases args with - | ⟨w | (- | str), args⟩
    · exact trivial
    · exact trivial
    · have hbyte := hargs (List.mem_cons_self ..)
      exact reads_printChars (reads_strlenNull (fun len => hk _ _ (List.subset_cons_self _ _))
        hbyte _ _ _) _
    · exact reads_printChars (hk _ _ (List.subset_cons_self _ _)) _
  · exact hk _ _ (List.Subset.refl _)

/-- A call reads `print_buf` and `int_len`, and memory if it prints a `NULL` string. -/
theorem reads_printkLoop : ∀ (fmt : List (BitVec 8)) (n : BitVec 32) {args : List VaArg},
    (VaArg.str none ∈ args → ∀ a, .byte a ∈ P) → (printkLoop n fmt args).Reads P
  | [], _, _, _ => trivial
  | c :: fmt, n, args, hargs => by
    unfold printkLoop
    split_ifs
    · exact trivial
    · exact reads_printkLoop fmt (n + 1) hargs
    · rcases fmt with - | ⟨c', fmt⟩
      · exact trivial
      dsimp only
      split_ifs
      · exact reads_directive hP _ _ _ _ hargs fun n args' h =>
          reads_printkLoop fmt n fun hin => hargs (h hin)
      · rcases fmt with - | ⟨c'', fmt⟩
        · exact trivial
        exact reads_directive hP _ _ _ _ hargs fun n args' h =>
          reads_printkLoop fmt n fun hin => hargs (h hin)

end

end PrintSteps

/-- `printk`, as far as it is not interrupted. -/
def printkSteps (fmt : List (BitVec 8)) (args : List VaArg) : PrintSteps :=
  PrintSteps.printkLoop 0 fmt args

end KernelDev
