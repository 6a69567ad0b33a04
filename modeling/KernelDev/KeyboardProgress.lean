import KernelDev.KeyboardScreen

/-!
# No byte of the keyboard is left behind

Nothing typed is lost, and nothing typed waits for ever. What is typed while a handler runs or
while interrupts wait may pile up in the keyboard; the statement is that from each moment of a run
all that was typed so far can still be handled, whatever has happened before.

One byte takes a few steps. The byte at the front of the stream gets to the output buffer
(`AtRest.fills`), which raises line 1. The processor is interrupted for the first line that
requests and is not masked, which is line 1 or line 0, the only one before it (`AtRest.next`).
There is no handler for line 0, so its interrupt comes and goes (`AtRest.skip`), and its request
can be taken away with it. Then line 1 is served : its handler takes the byte that waits
(`AtRest.take`), so one more byte is handled (`AtRest.advance`), and by induction all that are on
their way (`AtRest.catchUp`). While one is handled, more may be typed, and then they are handled
too.

`keys_reach_the_screen` puts this together with what holds in every run. The start is a state as
`IRQ_init`, `ps2_init` and `kb_init` leave one, with line 1 unmasked and a request latched for a
byte that waits already. Whenever no handler runs, the bytes of the keys are those handled and then
those on their way, and the screen shows what the handler prints for the former.
-/

namespace KernelDev

open PicLine Relation

namespace Board

variable {R A : Type} {Q : Peripherals R} {b b' : Board (KeyedPs2 × R)} {k₀ k : Kernel}
  {bytes : List (BitVec 8)} (main : Port A)

/-! ## What was typed -/

theorem keyed_own (h : Own (withKeyboard Q) b b') : b.rest.1.keyed <+: b'.rest.1.keyed := by
  cases h with
  | @device rest hrest =>
    obtain ⟨kb, r⟩ := rest
    rcases hrest with ⟨hkb, -⟩ | ⟨hkb, -⟩
    · cases hkb with
      | own _ _ => exact List.prefix_refl _
      | press _ _ => exact List.prefix_append _ _
    · obtain rfl : kb = b.rest.1 := hkb
      exact List.prefix_refl _
  | drop _ => exact List.prefix_refl _

theorem keyed_moves (h : (device (withKeyboard Q)).Moves b b') :
    b.rest.1.keyed <+: b'.rest.1.keyed := by
  induction h with
  | refl => exact List.prefix_refl _
  | tail _ hown ih => exact ih.trans (keyed_own hown)

theorem keyed_read (port : BitVec 16) (b : Board (KeyedPs2 × R)) :
    (readPort (withKeyboard Q) port b).2.rest.1.keyed = b.rest.1.keyed := by
  unfold readPort
  split_ifs
  · rfl
  · rfl
  · rfl
  · rfl
  · show (ite _ _ _ : BitVec 8 × KeyedPs2 × R).2.1.keyed = _
    split_ifs <;> rfl

theorem keyed_write (port : BitVec 16) (val : BitVec 8) (b : Board (KeyedPs2 × R)) :
    (writePort (withKeyboard Q) port val b).rest.1.keyed = b.rest.1.keyed := by
  unfold writePort
  split_ifs
  · rfl
  · rfl
  · rfl
  · rfl
  · show (ite _ _ _ : KeyedPs2 × R).1.keyed = _
    split_ifs <;> rfl

theorem keyed_step {B : Type} {c c' : Port B × Board (KeyedPs2 × R)}
    (h : (device (withKeyboard Q)).Step c c') : c.2.rest.1.keyed <+: c'.2.rest.1.keyed := by
  cases h with
  | own hown => exact keyed_own hown
  | @input p k s => exact (keyed_read (Q := Q) p s) ▸ List.prefix_refl _
  | @output p v k s => exact (keyed_write (Q := Q) p v s) ▸ List.prefix_refl _
  | loop => exact List.prefix_refl _

theorem keyed_inta {v : BitVec 8} (h : Inta (withKeyboard Q) v b b') :
    b.rest.1.keyed <+: b'.rest.1.keyed := by
  cases h with
  | master _ => exact List.prefix_refl _
  | slave _ hmoves _ =>
    have hkeyed := keyed_moves hmoves
    exact hkeyed
  | spuriousMaster _ => exact List.prefix_refl _
  | spuriousSlave _ hmoves _ =>
    have hkeyed := keyed_moves hmoves
    exact hkeyed

/-- What was typed stays typed. -/
theorem keyed_reaches {table : IrqTable IrqHandler} {changes : Kernel → Kernel → Prop}
    {x y : Processor (BitVec 16) (BitVec 8) (Board (KeyedPs2 × R)) Kernel A}
    (h : (platform (withKeyboard Q) table changes).Reaches x y) :
    x.dev.rest.1.keyed <+: y.dev.rest.1.keyed := by
  induction h with
  | refl => exact List.prefix_refl _
  | tail _ hstep ih =>
    refine ih.trans ?_
    cases hstep with
    | main hstep => exact keyed_step hstep
    | changes _ => exact List.prefix_refl _
    | accept hinta _ => exact keyed_inta hinta
    | handler hstep => exact keyed_step hstep
    | back => exact List.prefix_refl _

/-! ## One byte -/

/-- The kernel at rest, with the bytes handled. -/
structure AtRest (k₀ : Kernel) (bytes : List (BitVec 8)) (k : Kernel)
    (b : Board (KeyedPs2 × R)) : Prop where
  placed : k.Placed
  settled : b.pics.fixed = settled
  /-- The variables say that the bytes were handled. -/
  told : Told k₀ bytes k
  /-- A byte that waits has a request. -/
  heard : b.kbLine.Heard bytes

/-- A frame with the number of a vector. -/
def frameOf (v : BitVec 8) : InterruptFrame where
  ds := 0x10
  r15 := 0
  r14 := 0
  r13 := 0
  r12 := 0
  r11 := 0
  r10 := 0
  r9 := 0
  r8 := 0
  rbp := 0
  rdi := 0
  rsi := 0
  rdx := 0
  rcx := 0
  rbx := 0
  rax := 0
  intNo := v.setWidth 64
  errCode := 0
  rip := 0
  cs := 8
  rflags := 0x202
  rsp := 0
  ss := 0x10

/-- The devices keep the kernel at rest. -/
theorem AtRest.moves (h : AtRest k₀ bytes k b) (hmoves : (device (withKeyboard Q)).Moves b b') :
    AtRest k₀ bytes k b' where
  placed := h.placed
  settled := (moves_fixed hmoves).trans h.settled
  told := h.told
  heard := (keeps_line (Q := Q) fun _ _ (hx : KbLine.Heard bytes _) => hx.own).moves h.heard hmoves

/-- The byte at the front of the stream gets to the output buffer. -/
theorem AtRest.fills (h : AtRest k₀ bytes k b) (hlt : bytes.length < b.rest.1.keyed.length) :
    ∃ b' c, (device (withKeyboard Q)).Moves b b' ∧ b'.kbLine.kb.ctl.output = some c := by
  obtain ⟨⟨⟨hup, hbytes⟩, -⟩, -⟩ := h.heard
  cases hout : b.rest.1.ctl.output with
  | some c => exact ⟨b, c, .refl b, hout⟩
  | none =>
    have hqueue : b.rest.1.ctl.keyboard.queue ≠ [] := by
      intro hnil
      have hlen := congrArg List.length hbytes
      rw [show b.kbLine.kb.ctl.stream = b.rest.1.ctl.stream from rfl, Ps2Controller.stream, hout,
        hnil] at hlen
      simp [kbLine] at hlen
      omega
    obtain ⟨c, cs, hqueue⟩ := List.exists_cons_of_ne_nil hqueue
    have hkb := KeyedPs2.Own.own (Ps2Controller.Own.send hout hup.port1 hqueue) rfl
    have hown : Own (withKeyboard Q) b (b.follow _ (_, b.rest.2)) := .device (.inl ⟨hkb, rfl⟩)
    exact ⟨_, c, .own hown, rfl⟩

/-- What the processor is interrupted for while a byte waits. -/
theorem AtRest.next (h : AtRest k₀ bytes k b) (hout : b.kbLine.kb.ctl.output ≠ none) :
    b.pics.wanted (.master 0) = true ∧ b.pics.next = some (.master 0) ∨
      b.pics.next = some (.master 1) := by
  have hidle : b.pics.Idle := by
    have hfixed : b.pics.fixed.Idle := h.settled ▸ idle_settled
    exact ⟨hfixed.master, hfixed.slave⟩
  have hlatched : b.pics.master.irr 1 = true := h.heard.2 hout
  have hmask : b.pics.master.imr.getLsbD 1 = false := h.heard.1.2
  have hwanted : b.pics.wanted (.master 1) = true := by
    show (true && (b.pics.master.irr 1 && !b.pics.master.imr.getLsbD 1)) = true
    rw [hlatched, hmask]
    rfl
  have horder : order = .master 0 :: .master 1 :: order.drop 2 := rfl
  rw [hidle.next_eq, horder]
  cases hzero : b.pics.wanted (.master 0) with
  | true => exact .inl ⟨rfl, List.find?_cons_of_pos hzero⟩
  | false =>
    refine .inr ?_
    rw [List.find?_cons_of_neg (by simp [hzero]), List.find?_cons_of_pos hwanted]

/-- Line 0 after its interrupt. -/
theorem AtRest.withdraw (h : AtRest k₀ bytes k b) :
    AtRest k₀ bytes k { b with pics.master := b.pics.master.request 0 false } ∧
      ({ b with pics.master := b.pics.master.request 0 false } : Board _).pics.wanted (.master 0) =
        false := by
  have hline : ({ b with pics.master := b.pics.master.request 0 false } : Board _).kbLine =
      b.kbLine := by
    show KbLine.mk (Function.update b.pics.master.irr 0 false 1) _ _ = _
    rw [Function.update_of_ne (by decide)]
    rfl
  refine ⟨⟨h.placed, h.settled, h.told, hline ▸ h.heard⟩, ?_⟩
  show (true && (b.pics.master.request 0 false).pending 0) = false
  rw [Pic.pending_request_self, Bool.false_and, Bool.and_false]

/-- The interrupt of line 0, which has no handler, comes and goes. -/
theorem AtRest.skip (h : AtRest k₀ bytes k b) (hnext : b.pics.next = some (.master 0)) :
    (platform (withKeyboard Q) irqTable Leaves).Reaches ⟨main, none, k, b⟩
      ⟨main, none, k, { b with pics.master := b.pics.master.request 0 false }⟩ := by
  have hidle : b.pics.master.Idle := by
    have hfixed : b.pics.fixed.Idle := h.settled ▸ idle_settled
    exact hfixed.master
  have hv := vector_eq (base_of_fixed h.settled) (.master 0)
  have hp : (platform (withKeyboard Q) irqTable Leaves).handler (b.pics.vector (.master 0)) k
      (interruptHandler Kernel.calls irqTable (frameOf (b.pics.vector (.master 0))) k) :=
    ⟨_, rfl, rfl⟩
  obtain ⟨errCode, heq⟩ := handler_eq hv hp
  rw [heq] at hp
  have heoi : (b.pics.master.ack 0).writeCommand picEoi = b.pics.master.request 0 false :=
    hidle.eoi_ack 0
  have hrun : (device (withKeyboard Q)).Reaches
      (serveIrq Kernel.calls irqTable 0 errCode (missingIrq 0) k,
        { b with pics.master := b.pics.master.ack 0 })
      (.ret k, { b with pics.master := b.pics.master.request 0 false }) := by
    rw [← heoi]
    exact ReflTransGen.single .output
  exact ReflTransGen.head (.accept (.master hnext) hp) (Platform.reaches_back hrun)

/-- The interrupt of line 1 takes the byte that waits. -/
theorem AtRest.take (h : AtRest k₀ bytes k b) {c : BitVec 8}
    (hout : b.kbLine.kb.ctl.output = some c) (hnext : b.pics.next = some (.master 1)) :
    ∃ k' b', (platform (withKeyboard Q) irqTable Leaves).Reaches ⟨main, none, k, b⟩
      ⟨main, none, k', b'⟩ ∧ AtRest k₀ (bytes ++ [c]) k' b' := by
  have hv := vector_eq (base_of_fixed h.settled) (.master 1)
  have hp : (platform (withKeyboard Q) irqTable Leaves).handler (b.pics.vector (.master 1)) k
      (interruptHandler Kernel.calls irqTable (frameOf (b.pics.vector (.master 1))) k) :=
    ⟨_, rfl, rfl⟩
  obtain ⟨errCode, heq⟩ := handler_eq hv hp
  rw [heq] at hp
  have hserves := kernel_serves (withKeyboard Q) irqTable
    fun k k' (h : Leaves k k') => .inr h.1
  have hkernel := hserves.accept _ _ _ _ _ (.master hnext) hp ⟨h.placed, h.settled⟩
  have hwaits : ({ b with pics.master := b.pics.master.ack 1 } : Board _).kbLine.Waits bytes c :=
    ⟨h.heard.1, hout⟩
  have hboth := hkernel.and <| serveIrq_line (Q := Q) (i := 1)
    (T := fun k bytes' => bytes' = bytes ++ [c] ∧ Told k₀ bytes' k)
    ((kbHandler_waits h.told hwaits).mono fun k b hkb => ⟨_, ⟨rfl, hkb.1⟩, hkb.2⟩)
  obtain ⟨k', b', hr⟩ := hboth.finish
  obtain ⟨⟨hplaced, hsettled⟩, bytes', ⟨rfl, htold⟩, hheard⟩ := (hboth.sound hr).2.1 k' rfl
  exact ⟨k', b', ReflTransGen.head (.accept (.master hnext) hp) (Platform.reaches_back hr),
    hplaced, hsettled, htold, hheard⟩

/-- One more byte is handled. -/
theorem AtRest.advance (h : AtRest k₀ bytes k b) (hlt : bytes.length < b.rest.1.keyed.length) :
    ∃ c k' b', (platform (withKeyboard Q) irqTable Leaves).Reaches ⟨main, none, k, b⟩
      ⟨main, none, k', b'⟩ ∧ AtRest k₀ (bytes ++ [c]) k' b' := by
  obtain ⟨b₁, c, hmoves, hout⟩ := h.fills (Q := Q) hlt
  have h₁ := h.moves hmoves
  have hreach : ∀ b₁, (device (withKeyboard Q)).Moves b b₁ →
      (platform (withKeyboard Q) irqTable Leaves).Reaches ⟨main, none, k, b⟩
        ⟨main, none, k, b₁⟩ :=
    fun _ hmoves => Platform.reaches_main (hmoves.reaches main)
  have hne : b₁.kbLine.kb.ctl.output ≠ none := by
    rw [hout]
    exact Option.some_ne_none c
  rcases h₁.next hne with ⟨-, hnext⟩ | hnext
  · have hskip := h₁.skip (Q := Q) main hnext
    obtain ⟨h₂, hzero⟩ := h₁.withdraw
    rcases h₂.next hne with ⟨hwanted, -⟩ | hnext'
    · exact absurd (hzero.symm.trans hwanted) Bool.false_ne_true
    · obtain ⟨k', b', hr, hrest⟩ := h₂.take (Q := Q) main hout hnext'
      exact ⟨c, k', b', ((hreach b₁ hmoves).trans hskip).trans hr, hrest⟩
  · obtain ⟨k', b', hr, hrest⟩ := h₁.take (Q := Q) main hout hnext
    exact ⟨c, k', b', (hreach b₁ hmoves).trans hr, hrest⟩

/-- Everything that was typed is handled. -/
theorem AtRest.catchUp {n : ℕ} (h : AtRest k₀ bytes k b) (hn : n ≤ b.rest.1.keyed.length) :
    ∃ bytes' k' b', (platform (withKeyboard Q) irqTable Leaves).Reaches ⟨main, none, k, b⟩
      ⟨main, none, k', b'⟩ ∧ AtRest k₀ bytes' k' b' ∧ n ≤ bytes'.length := by
  obtain ⟨m, hm⟩ : ∃ m, n ≤ bytes.length + m := ⟨n, by omega⟩
  induction m generalizing bytes k b with
  | zero => exact ⟨bytes, k, b, ReflTransGen.refl, h, hm⟩
  | succ m ih =>
    by_cases hle : n ≤ bytes.length
    · exact ⟨bytes, k, b, ReflTransGen.refl, h, hle⟩
    · obtain ⟨c, k₁, b₁, hr, h₁⟩ := h.advance (Q := Q) main (by omega)
      have hkeyed := (keyed_reaches hr).length_le
      obtain ⟨bytes', k', b', hr', hrest⟩ := ih h₁ (hn.trans hkeyed) (by
        rw [List.length_append, List.length_singleton]
        omega)
      exact ⟨bytes', k', b', hr.trans hr', hrest⟩

end Board

open Board

/-- Every key reaches the screen, once and in order. The chips are as `IRQ_init` leaves them, with
line 1 unmasked, and the controller as `ps2_init` and `kb_init` do. The main program leaves the
ports of both and the variables of the keyboard alone and does not print; other devices may do
anything, but the serial line has no errors. Then whenever no handler runs, the bytes of the keys
are those that `kb_interrupt_handler` was called for followed by those on their way, and the screen
shows what these calls print; and from each moment on all that was typed so far can be shown. -/
theorem keys_reach_the_screen {R A : Type} {Q : Peripherals R} (hQ : Clean Q) {main : Port A}
    (hmain : main.Uses OffLine) {k : Kernel} (hport : k.console.uart.portBase = com1)
    {b : Board (KeyedPs2 × R)} (hchips : b.pics.fixed = settled)
    (hmask : b.pics.masked (.master 1) = false) (hctl : b.rest.1.ctl.SetUp)
    (hkeyed : b.rest.1.keyed = b.rest.1.ctl.stream)
    (hline : b.rest.1.line = true → b.pics.latched (.master 1) = true)
    {x : Processor (BitVec 16) (BitVec 8) (Board (KeyedPs2 × R)) Kernel A}
    (hx : (platform (withKeyboard Q) irqTable Leaves).Reaches ⟨main, none, k, b⟩ x) :
    (x.handler = none → ∃ bytes, Told k bytes x.vars ∧
      bytes ++ x.dev.rest.1.ctl.stream = x.dev.rest.1.keyed) ∧
    ∃ bytes y, (platform (withKeyboard Q) irqTable Leaves).Reaches x y ∧ y.handler = none ∧
      x.dev.rest.1.keyed <+: bytes ∧ Told k bytes y.vars := by
  have howes : b.rest.1.Owes [] := ⟨hctl, hkeyed.symm⟩
  have hheard : b.kbLine.Heard [] := by
    refine ⟨⟨howes, hmask⟩, fun hout => hline ?_⟩
    rw [howes.line]
    exact Option.isSome_iff_ne_none.2 hout
  have hsound : ∀ {y : Processor (BitVec 16) (BitVec 8) (Board (KeyedPs2 × R)) Kernel A},
      (platform (withKeyboard Q) irqTable Leaves).Reaches ⟨main, none, k, b⟩ y → _ :=
    (keyboard_serves hQ k).sound hmain ⟨⟨.inr hport, hchips⟩, [], .nil hport, hheard⟩
  obtain ⟨-, hrest, k₁, b₁, hr₁⟩ := hsound hx
  obtain ⟨-, hrest₁, -⟩ := hsound (hx.trans hr₁)
  obtain ⟨⟨hplaced, hsettled⟩, bytes₁, htold, hheard₁⟩ := hrest₁ rfl
  refine ⟨fun hnone => ?_, ?_⟩
  · obtain ⟨-, bytes, htold, hheard⟩ := hrest hnone
    exact ⟨bytes, htold, hheard.1.1.2⟩
  · have hlen := (keyed_reaches hr₁).length_le
    obtain ⟨bytes, k', b', hr, hrest', hle⟩ :=
      AtRest.catchUp (Q := Q) x.main ⟨hplaced, hsettled, htold, hheard₁⟩ hlen
    have hprefix := (keyed_reaches hr₁).trans (keyed_reaches hr)
    have hbytes : bytes <+: b'.rest.1.keyed := ⟨_, hrest'.heard.1.1.2⟩
    exact ⟨bytes, _, hr₁.trans hr, rfl, List.prefix_of_prefix_length_le hprefix hbytes hle,
      hrest'.told⟩

/-- The controller with the key `a`, pressed and released, that nobody has read. -/
def keyedController : Ps2Controller :=
  { Ps2Controller.bootController with
    config := 0x25
    irq := false
    output := some 0x1c
    keyboard := { Ps2Controller.bootController.keyboard with queue := [kbKeyRelease, 0x1c] } }

/-- A board with that key, and with a serial port. -/
def keyedBoard : Board (KeyedPs2 × Bool) where
  pics := ⟨{ settledChip 0x20 4 with irr := fun i => i == 1 }, settledChip 0x28 2⟩
  rest := (⟨keyedController, [0x1c, kbKeyRelease, 0x1c]⟩, false)

/-- The controller of the board is set up. -/
theorem setUp_keyedBoard : keyedBoard.rest.1.ctl.SetUp where
  safe := rfl
  irq := rfl
  port1 := rfl
  port2 := (by decide : ¬(0x25 : BitVec 8).getLsbD 5 = false)
  idle := rfl
  input := rfl
  interrupts := rfl

/-- A program that halts uses no ports. -/
theorem uses_haltForever : (haltForever : Port Unit).Uses OffLine :=
  ⟨trivial, fun _ => trivial⟩

/-- The serial port of the board shows no errors. -/
theorem clean_serialPort : Clean serialPort := by
  rintro (- | -)
  · rfl
  · rfl

theorem keys_reach_the_screen_keyedBoard :
    ∃ bytes y, (platform (withKeyboard serialPort) irqTable Leaves).Reaches
      ⟨(haltForever : Port Unit), none, keyedKernel, keyedBoard⟩ y ∧ y.handler = none ∧
        [0x1c, kbKeyRelease, 0x1c] <+: bytes ∧ Told keyedKernel bytes y.vars :=
  (keys_reach_the_screen clean_serialPort uses_haltForever rfl rfl rfl setUp_keyedBoard rfl
    (fun _ => rfl) ReflTransGen.refl).2

end KernelDev
