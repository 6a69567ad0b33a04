import KernelDev.SerialHandshake
import KernelDev.SerialLog

/-!
# The port before `SER_init`

`SER_write` and `hardware_write` do not look at `state.initialized`. Before `SER_init` the pointers
of the ring are `NULL` and the base of the ports is `0`, and that is where a byte goes that is
printed then : the first one is stored at address `0` and written to port `0`, and the next ones
are stored behind it, as the pointers only go back to the ring when they have come to its end. A
faulty chip is reported through the port itself, by a message that `SER_init` prints after it has
set up the ports but before the pointers are.

`LeavesAlone` is what one expects of a port that is not initialised : nothing is stored through a
ring pointer, nothing is written to a port, and no byte is accepted. `Spares` is a condition on the
call alone : a call of `printk` offers no byte (`silentCall`), one of `SER_write` has a length that
is not positive, and `SER_init` finds a chip that works. `leavesAlone_iff` says that a run from the
start of the kernel leaves the port alone exactly as long as all its calls spare it.

For one call that is `leavesAlone_iff_spares`, in states in which nothing is counted : with
something counted a call for no byte would send a byte that was put there earlier. Such states are
kept by calls that spare the port (`unused_step`). `traffic` counts what is stored and written, and
never goes down, which is how a call of several chunks is seen to do something if one of them does.
-/

namespace KernelDev

/-- From `u` to `u'` nothing was stored through a pointer of the ring, and nothing was written to
an I/O port. A byte of the ring is read only to be written to a port. -/
structure Uart.LeftAlone (u u' : Uart) : Prop where
  mem : u'.mem = u.mem
  stored : u'.stored = u.stored
  out : u'.out = u.out

namespace Console

/-- What can happen to the port while the kernel starts. -/
inductive BootCall where
  | printk (fmt : List (BitVec 8)) (args : List VaArg)
  | serWrite (buff : ℕ → BitVec 8) (len : ℤ)
  | serInit (received : BitVec 8)

namespace BootCall

/-- The effect of a call. -/
def run (s : Console) : BootCall → Option Console
  | printk fmt args => (s.printk fmt args).map Prod.fst
  | serWrite buff len => some (s.serWrite buff len).1
  | serInit received => s.serInit received

/-- Without `state.initialized` the call leaves the port alone, and accepts no byte. What
`SER_init` itself does is set the port up; then it may report a faulty chip. -/
def LeavesAlone (s : Console) (call : BootCall) (t : Console) : Prop :=
  match call with
  | printk _ _ => s.uart.initialized = false → s.uart.LeftAlone t.uart
  | serWrite buff len => s.uart.initialized = false →
      (s.serWrite buff len).2 ≤ 0 ∧ s.uart.LeftAlone t.uart
  | serInit received => received ≠ 0xae → s.uart.setUp.LeftAlone t.uart

/-- Without `state.initialized` the call offers no byte to the port, and `SER_init` finds a chip
that works. -/
def Spares (s : Console) : BootCall → Prop
  | printk fmt args => s.uart.initialized = false → silentCall fmt args = true
  | serWrite _ len => s.uart.initialized = false → len ≤ 0
  | serInit received => received = 0xae

/-- A step of a run, with what is asked of the call. -/
def Step (ok : Console → BootCall → Console → Prop) (s : Console) (call : BootCall)
    (t : Console) : Prop :=
  call.run s = some t ∧ ok s call t

end BootCall

end Console

namespace Uart

variable {u : Uart}

/-! ## What `SER_write` does to the port -/

/-- The number of bytes stored through the ring pointers and written to ports. -/
def traffic (u : Uart) : ℕ :=
  u.stored.length + u.out.length

/-- A port that is left alone has no traffic. -/
theorem LeftAlone.traffic_eq {u' : Uart} (h : u.LeftAlone u') : u'.traffic = u.traffic := by
  rw [traffic, h.stored, h.out]
  rfl

theorem hardwareWrite_kept (u : Uart) : u.hardwareWrite.initialized = u.initialized ∧
    u.traffic ≤ u.hardwareWrite.traffic := by
  unfold hardwareWrite
  split_ifs
  · refine ⟨rfl, ?_⟩
    simp only [traffic, outb, List.length_append]
    omega
  · exact ⟨rfl, le_refl _⟩

/-- `SER_write` does not take anything back. -/
theorem traffic_write_le (u : Uart) (buff : ℕ → BitVec 8) (len : ℤ) :
    (u.write buff len).initialized = u.initialized ∧
      u.traffic + (u.bytesToCopy len).toNat ≤ (u.write buff len).traffic := by
  obtain ⟨hout, hinit, hstored⟩ := enqueueFrom_kept buff u (u.bytesToCopy len).toNat
  rw [write]
  generalize u.enqueueFrom buff (u.bytesToCopy len).toNat = v at hout hinit hstored ⊢
  obtain ⟨hkept, hle⟩ := v.hardwareWrite_kept
  refine ⟨hkept.trans hinit, ?_⟩
  unfold traffic at hle ⊢
  rw [hout] at hle
  omega

/-- With nothing counted `SER_write` does nothing for no byte. -/
theorem write_silent (h : u.count ≤ 0) (buff : ℕ → BitVec 8) {len : ℤ} (hlen : len ≤ 0) :
    u.write buff len = u := by
  have hcopy := bytesToCopy_eq u len
  have hnone : (u.bytesToCopy len).toNat = 0 := by omega
  rw [write, hnone]
  exact hardwareWrite_idle (Or.inr h)

/-- A byte is stored, or one is sent because the ring is full. -/
theorem traffic_lt_write (h : u.txBusy = false ∨ u.count < buffSize) (buff : ℕ → BitVec 8)
    {len : ℤ} (hlen : 0 < len) : u.traffic < (u.write buff len).traffic := by
  have hcopy := bytesToCopy_eq u len
  obtain ⟨-, hle⟩ := u.traffic_write_le buff len
  by_cases hroom : u.count < buffSize
  · omega
  · have hnone : (u.bytesToCopy len).toNat = 0 := by omega
    have hfree : u.txBusy = false := h.resolve_right hroom
    have hfull : 0 < u.count := by
      unfold buffSize at hroom
      omega
    obtain ⟨-, -, hout⟩ := hardwareWrite_sends hfree hfull
    have hkept : u.hardwareWrite.stored = u.stored := by
      unfold hardwareWrite
      split_ifs <;> rfl
    rw [write, hnone]
    show u.traffic < u.hardwareWrite.traffic
    rw [traffic, traffic, hout, hkept]
    omega

/-! ## Chunks -/

/-- Chunks do not take anything back. -/
theorem traffic_le_chunks (chunks : List (List (BitVec 8))) (u : Uart) :
    (chunks.foldl writeChunk u).initialized = u.initialized ∧
      u.traffic ≤ (chunks.foldl writeChunk u).traffic := by
  induction chunks generalizing u with
  | nil => exact ⟨rfl, le_refl _⟩
  | cons bs chunks ih =>
    obtain ⟨hinit, hle⟩ := u.traffic_write_le (fun i => bs.getD i 0)
      (BitVec.ofNat 32 bs.length).toInt
    obtain ⟨hinit', hle'⟩ := ih (u.writeChunk bs)
    exact ⟨hinit'.trans hinit, (Nat.le_of_add_right_le hle).trans hle'⟩

/-- With nothing counted silent chunks leave the port as it is, and others do not. -/
theorem leftAlone_chunks_iff (h : u.count ≤ 0) (chunks : List (List (BitVec 8))) :
    u.LeftAlone (chunks.foldl writeChunk u) ↔ ∀ bs ∈ chunks, Console.Silent bs := by
  induction chunks with
  | nil => exact iff_of_true ⟨rfl, rfl, rfl⟩ (List.forall_mem_nil _)
  | cons bs chunks ih =>
    rw [List.foldl_cons, List.forall_mem_cons]
    by_cases hsilent : Console.Silent bs
    · have hsame : u.writeChunk bs = u := write_silent h _ hsilent
      rw [hsame, ih, and_iff_right hsilent]
    · refine iff_of_false (fun halone => ?_) fun hall => hsilent hall.1
      have hroom : u.txBusy = false ∨ u.count < buffSize := Or.inr (by unfold buffSize; omega)
      have hlt : u.traffic < (u.writeChunk bs).traffic :=
        traffic_lt_write hroom _ (not_le.1 hsilent)
      have hle := (traffic_le_chunks chunks (u.writeChunk bs)).2
      rw [halone.traffic_eq] at hle
      omega

/-- Silent chunks count nothing. -/
theorem chunks_silent (h : u.count ≤ 0) (chunks : List (List (BitVec 8)))
    (hsilent : ∀ bs ∈ chunks, Console.Silent bs) : chunks.foldl writeChunk u = u := by
  induction chunks with
  | nil => rfl
  | cons bs chunks ih =>
    obtain ⟨hbs, hchunks⟩ := List.forall_mem_cons.1 hsilent
    have hsame : u.writeChunk bs = u := write_silent h _ hbs
    rw [List.foldl_cons, hsame]
    exact ih hchunks

end Uart

namespace Console

variable {s t : Console}

/-! ## Calls -/

/-- Nothing is counted as long as the port is not initialised. -/
def Unused (s : Console) : Prop :=
  s.uart.initialized = false → s.uart.count ≤ 0

/-- A faulty chip is reported through the port. -/
theorem faulty_not_leftAlone {received : BitVec 8} (hbad : received ≠ 0xae)
    (ht : s.serInit received = some t) : ¬s.uart.setUp.LeftAlone t.uart := by
  intro halone
  unfold serInit at ht
  rw [if_pos hbad] at ht
  obtain ⟨⟨v, r⟩, hv, hret⟩ := Option.bind_eq_some_iff.1 ht
  cases hret
  -- the first character already goes out
  have hfmt : chars "Serial port at 0x%x is faulty\n" ++ [0] =
      ch 'S' :: (chars "erial port at 0x%x is faulty\n" ++ [0]) := by decide
  rw [hfmt, printk, printkLoop_lit (by decide) (by decide)] at hv
  obtain ⟨hprints, -⟩ := printkLoop_prints _ hv
  generalize printkChunks _ _ = chunks at hprints
  have hchar := (printChar_prints { s with uart := s.uart.setUp } (ch 'S')).1
  have hle := (Uart.traffic_le_chunks chunks (s.uart.setUp.writeChunk [ch 'S'])).2
  have hfree : s.uart.setUp.txBusy = false := rfl
  have hlt : s.uart.setUp.traffic < (s.uart.setUp.writeChunk [ch 'S']).traffic :=
    Uart.traffic_lt_write (Or.inl hfree) _ (by decide)
  have heq : (chunks.foldl Uart.writeChunk (s.uart.setUp.writeChunk [ch 'S'])).traffic =
      s.uart.setUp.traffic := by
    rw [← halone.traffic_eq, (hchar.trans hprints).uart]
    rfl
  omega

/-- A call of `printk` prints the chunks of its format. -/
theorem run_printk_prints {fmt : List (BitVec 8)} {args : List VaArg}
    (h : (BootCall.printk fmt args).run s = some t) :
    Prints s t (printkChunks fmt args) ∧
      (silentCall fmt args = true ↔ ∀ bs ∈ printkChunks fmt args, Silent bs) := by
  obtain ⟨⟨v, r⟩, hv, hret⟩ := Option.map_eq_some_iff.1 h
  obtain rfl : v = t := hret
  exact printkLoop_prints fmt hv

/-- With nothing counted, a call leaves the port alone exactly if it spares it. -/
theorem leavesAlone_iff_spares (h : s.Unused) {call : BootCall} (ht : call.run s = some t) :
    call.LeavesAlone s t ↔ call.Spares s := by
  cases call with
  | printk fmt args =>
    obtain ⟨hprints, hsilent⟩ := run_printk_prints ht
    refine forall_congr' fun hunset => ?_
    rw [hsilent, hprints.uart]
    exact Uart.leftAlone_chunks_iff (h hunset) _
  | serWrite buff len =>
    obtain rfl := Option.some.inj ht
    refine forall_congr' fun hunset => ?_
    have hcount := h hunset
    have hcopy := Uart.bytesToCopy_eq s.uart len
    rw [serWrite_eq]
    by_cases hlen : len ≤ 0
    · refine iff_of_true ⟨by dsimp only; omega, ?_⟩ hlen
      dsimp only
      rw [Uart.write_silent hcount buff hlen]
      exact ⟨rfl, rfl, rfl⟩
    · refine iff_of_false (fun hnone => ?_) hlen
      have hpos := hnone.1
      unfold buffSize at hcopy
      dsimp only at hpos
      omega
  | serInit received =>
    by_cases hgood : received = 0xae
    · exact iff_of_true (fun hbad => absurd hgood hbad) hgood
    · exact iff_of_false (fun halone => faulty_not_leftAlone hgood ht (halone hgood)) hgood

/-- A call that spares the port counts nothing before it is initialised. -/
theorem unused_step (h : s.Unused) {call : BootCall} (ht : call.run s = some t)
    (hspares : call.Spares s) : t.Unused := by
  intro hunset
  cases call with
  | printk fmt args =>
    obtain ⟨hprints, hsilent⟩ := run_printk_prints ht
    rw [hprints.uart, (Uart.traffic_le_chunks _ s.uart).1] at hunset
    have hall := hsilent.1 (hspares hunset)
    rw [hprints.uart, Uart.chunks_silent (h hunset) _ hall]
    exact h hunset
  | serWrite buff len =>
    obtain rfl := Option.some.inj ht
    rw [serWrite_eq] at hunset ⊢
    dsimp only at hunset ⊢
    rw [(s.uart.traffic_write_le buff len).1] at hunset
    rw [Uart.write_silent (h hunset) buff (hspares hunset)]
    exact h hunset
  | serInit received =>
    obtain rfl : received = 0xae := hspares
    obtain rfl := Option.some.inj ((serInit_eq s).symm.trans ht)
    exact absurd (Uart.start_initialized _) (by rw [hunset]; exact Bool.false_ne_true)

/-- An uninitialised port is left alone. From the start of the kernel on, calls of `printk` and
`SER_write` leave it alone while `state.initialized` is not set exactly as long as they are for no
byte, and `SER_init` finds a chip that works. -/
theorem leavesAlone_iff (s t : Console) (h : s.uart.Zero) (calls : List BootCall) :
    Run (BootCall.Step fun s call t => call.LeavesAlone s t) s calls t ↔
      Run (BootCall.Step fun s call _ => call.Spares s) s calls t := by
  refine Run.iff_of_invariant Unused (fun _ => h.count.le) (fun u call v hu => ?_)
    fun u call v hu hstep => unused_step hu hstep.1 hstep.2
  exact and_congr_right fun hv => leavesAlone_iff_spares hu hv

/-- `printk` and `SER_write` for no byte, `SER_init`, and then a text. -/
theorem leavesAlone_quietConsole : ∃ t, Run (BootCall.Step fun s call t => call.LeavesAlone s t)
    quietConsole [.printk [0] [], .serWrite (fun _ => 0x41) 0, .serInit 0xae,
      .printk (chars "up" ++ [0]) []] t ∧
        t.uart.out.getLast? = some (com1, ch 'u') ∧ t.uart.count = 1 := by
  have hprintk : Run (BootCall.Step fun s call _ => call.Spares s) quietConsole
      ([] ++ [.printk [0] []]) quietConsole := .snoc .nil ⟨rfl, fun _ => rfl⟩
  have hwrite : BootCall.Step (fun s call _ => call.Spares s) quietConsole
      (.serWrite (fun _ => 0x41) 0) _ := ⟨rfl, fun _ => le_rfl⟩
  have hinit : BootCall.Step (fun s call _ => call.Spares s)
      (quietConsole.serWrite (fun _ => 0x41) 0).1 (.serInit 0xae) _ := ⟨serInit_eq _, rfl⟩
  have hsent : (BootCall.run { (quietConsole.serWrite (fun _ => 0x41) 0).1 with
      uart := (quietConsole.serWrite (fun _ => 0x41) 0).1.uart.setUp.start }
      (.printk (chars "up" ++ [0]) [])).map (fun t => (t.uart.out.getLast?, t.uart.count)) =
      some (some (com1, ch 'u'), 1) := by decide +kernel
  obtain ⟨t, ht, hout⟩ := Option.map_eq_some_iff.1 hsent
  obtain ⟨hout, hcount⟩ := Prod.mk.inj hout
  have htext : BootCall.Step (fun s call _ => call.Spares s) _ (.printk (chars "up" ++ [0]) []) t :=
    ⟨ht, fun hunset => absurd (Uart.start_initialized _) (by rw [hunset]; exact Bool.false_ne_true)⟩
  exact ⟨t, (leavesAlone_iff quietConsole t (zero_atStart _ _ _) _).2
    (((hprintk.snoc hwrite).snoc hinit).snoc htext), hout, hcount⟩

/-- The first message of the kernel is printed before `SER_init`. -/
theorem starting_not_leftAlone : ¬∀ (s t : Console) (calls : List BootCall), s.uart.Zero →
    Run (BootCall.Step fun _ _ _ => True) s calls t →
      Run (BootCall.Step fun s call t => call.LeavesAlone s t) s calls t := by
  intro h
  have hlen : ((BootCall.printk (chars "Starting kernel\n" ++ [0]) []).run quietConsole).map
      (fun t => t.uart.out.length) = some 1 := by
    decide +kernel
  obtain ⟨t, ht, hout⟩ := Option.map_eq_some_iff.1 hlen
  have hrun := h quietConsole t [_] (zero_atStart _ _ _) (.snoc .nil ⟨ht, trivial⟩)
  rw [← List.nil_append [_]] at hrun
  obtain ⟨u, hu, -, halone⟩ := Run.snoc_iff.1 hrun
  obtain rfl := Run.nil_iff.1 hu
  rw [(halone rfl).out] at hout
  exact absurd hout Nat.zero_ne_one

end Console

end KernelDev
