import KernelDev.Ps2

/-!
# `ps2_init` against the controller

`ps2_init` writes a command only when the controller has taken the one before. What it does not
wait for is the effect : when it goes on, the last byte may still be in the input buffer, and the
controller takes it at some later time. The course of the function is therefore followed in
assertions of two kinds, which the controller's own steps keep : `Pending B x A` says that `x` was
written, that `B` holds as long as it has not been taken and that `A` does from then on; and `At`
and its extensions say what is known between two bytes.

`ps2Init_triple` is the result of that. The configuration that is written at the end is made of the
byte read from the output buffer, and this is the one of the controller, unless a byte of a device
comes first. No byte of the keyboard does : its clock has stopped by the time the output buffer is
emptied, since the second command can be written only after the first was taken. A byte of a device
on the second port can. The command that stops its clock may still be in the input buffer when the
loop finds the output buffer empty, and the device may send just then. `ps2Init_reaches_second` is
that run.

`ps2Init_configures_iff` has both, and that `ps2_init` can always come to its end and overruns
nothing : the right configuration is certain just if no device on the second port can send when
`ps2_init` begins. `Silent` is the condition, on the configuration and on what is connected.
-/

namespace KernelDev

open Ps2 Relation

namespace Ps2Controller

variable {s t : Ps2Controller} {R : Ps2Controller → Prop}

/-- No byte was written over another. -/
def Safe (s : Ps2Controller) : Prop :=
  s.overrun = false

/-- A step that takes nothing from the input buffer. A byte comes only from a port whose clock
runs, and goes only to the interrupt handler. -/
structure Quiet (s t : Ps2Controller) : Prop where
  config : t.config = s.config
  input : t.input = s.input
  awaitsConfig : t.awaitsConfig = s.awaitsConfig
  second : t.second = s.second
  overrun : t.overrun = s.overrun
  /-- A byte comes from a port whose clock runs. -/
  fills : s.output = none → t.output ≠ none → s.Port1 ∨ s.second = true ∧ s.Port2
  /-- A byte goes only to the interrupt handler. -/
  keeps : s.output ≠ none → t.output ≠ s.output → s.Port1

/-- The steps of the controller. -/
theorem own_cases (h : Own s t) :
    (∃ c, s.input = some (true, c) ∧ (c = ps2ReadConfig → s.output = none) ∧ t = s.command c) ∨
      (∃ b, s.input = some (false, b) ∧ t = s.data b) ∨ Quiet s t := by
  cases h with
  | command hin hout => exact .inl ⟨_, hin, hout, rfl⟩
  | data hin => exact .inr (.inl ⟨_, hin, rfl⟩)
  | send hout hport _ =>
    exact .inr (.inr ⟨rfl, rfl, rfl, rfl, rfl, fun _ _ => .inl hport, fun h _ => absurd hout h⟩)
  | press _ _ =>
    exact .inr (.inr ⟨rfl, rfl, rfl, rfl, rfl, fun h h' => absurd h h', fun _ h => absurd rfl h⟩)
  | second hsecond hout hport =>
    exact .inr (.inr ⟨rfl, rfl, rfl, rfl, rfl, fun _ _ => .inr ⟨hsecond, hport⟩,
      fun h _ => absurd hout h⟩)
  | interrupt _ _ hport =>
    exact .inr (.inr ⟨rfl, rfl, rfl, rfl, rfl, fun _ h => absurd rfl h, fun _ _ => hport⟩)

/-- With the input buffer empty the controller takes nothing. -/
theorem own_quiet (h : Own s t) (hin : s.input = none) : Quiet s t := by
  rcases own_cases h with ⟨c, hc, -⟩ | ⟨b, hb, -⟩ | hquiet
  · simp [hin] at hc
  · simp [hin] at hb
  · exact hquiet

/-! ## Waiting -/

/-- `ps2_wait_write` ends with the input buffer empty. -/
theorem waitWrite_triple (hR : device.Stays Safe R)
    (hfree : ∀ s, R s → ∃ t, device.Moves s t ∧ t.input = none) :
    device.Triple Safe R waitWrite fun _ s => R s ∧ s.input = none := by
  have hQ : device.Stays Safe fun s => R s ∧ s.input = none :=
    ⟨fun s t hs hown => ⟨hR.own s t hs.1 hown, (own_quiet hown hs.2).input.trans hs.2⟩,
      fun s hs => hR.safe s hs.1⟩
  refine Device.Triple.poll (fun v => decide (v &&& ps2StatusInput = 0)) hR hQ
    (fun s hs h => ⟨hs, (status_input s).1 (of_decide_eq_true h)⟩) (fun s hs _ => hs)
    fun s hs => ?_
  obtain ⟨t, hmoves, ht⟩ := hfree s hs
  exact ⟨t, hmoves, decide_eq_true ((status_input t).2 ht)⟩

/-- `ps2_wait_read` ends with the output buffer full. -/
theorem waitRead_triple (hR : device.Stays Safe R)
    (hfull : device.Stays Safe fun s => R s ∧ s.output ≠ none)
    (hfill : ∀ s, R s → ∃ t, device.Moves s t ∧ t.output ≠ none) :
    device.Triple Safe R waitRead fun _ s => R s ∧ s.output ≠ none := by
  refine Device.Triple.poll (fun v => decide (v &&& ps2StatusOutput ≠ 0)) hR hfull
    (fun s hs h => ⟨hs, fun h' => of_decide_eq_true h ((status_output s).2 h')⟩)
    (fun s hs _ => hs) fun s hs => ?_
  obtain ⟨t, hmoves, ht⟩ := hfill s hs
  exact ⟨t, hmoves, decide_eq_true fun h => ht ((status_output t).1 h)⟩

/-- A byte is written when the controller has taken the one before. -/
theorem writeCommand_triple {Q : Ps2Controller → Prop} (c : BitVec 8) (hR : device.Stays Safe R)
    (hfree : ∀ s, R s → ∃ t, device.Moves s t ∧ t.input = none) (hQ : device.Stays Safe Q)
    (h : ∀ s, R s → s.input = none → Q { s with input := some (true, c) }) :
    device.Triple Safe R (writeCommand c) fun _ => Q := by
  refine Device.Triple.bind (waitWrite_triple hR hfree) fun _ => Device.Triple.write
    ⟨fun s t hs hown => ⟨hR.own s t hs.1 hown, (own_quiet hown hs.2).input.trans hs.2⟩,
      fun s hs => hR.safe s hs.1⟩ hQ fun s hs => ?_
  have hs' := h s hs.1 hs.2
  rwa [write_command, hs.2, Option.isSome_none, Bool.or_false]

theorem writeData_triple {Q : Ps2Controller → Prop} (b : BitVec 8) (hR : device.Stays Safe R)
    (hfree : ∀ s, R s → ∃ t, device.Moves s t ∧ t.input = none) (hQ : device.Stays Safe Q)
    (h : ∀ s, R s → s.input = none → Q { s with input := some (false, b) }) :
    device.Triple Safe R (writeData b) fun _ => Q := by
  refine Device.Triple.bind (waitWrite_triple hR hfree) fun _ => Device.Triple.write
    ⟨fun s t hs hown => ⟨hR.own s t hs.1 hown, (own_quiet hown hs.2).input.trans hs.2⟩,
      fun s hs => hR.safe s hs.1⟩ hQ fun s hs => ?_
  have hs' := h s hs.1 hs.2
  rwa [write_data, hs.2, Option.isSome_none, Bool.or_false]

/-- The byte that is read was in the output buffer. -/
theorem readData_triple {Q : BitVec 8 → Ps2Controller → Prop} (hR : device.Stays Safe R)
    (hfull : device.Stays Safe fun s => R s ∧ s.output ≠ none)
    (hfill : ∀ s, R s → ∃ t, device.Moves s t ∧ t.output ≠ none)
    (hQ : ∀ b, device.Stays Safe (Q b))
    (h : ∀ s b, R s → s.output = some b → Q b { s with output := none }) :
    device.Triple Safe R readData Q := by
  refine Device.Triple.bind (waitRead_triple hR hfull hfill) fun _ =>
    Device.Triple.read hfull hQ fun s hs => ?_
  obtain ⟨b, hb⟩ := Option.ne_none_iff_exists'.1 hs.2
  have hread := h s b hs.1 hb
  rwa [read_data, hb, Option.getD_some]

/-- What a round of `flush` does after it has read the status. -/
theorem flush_eq : flush = .untilTrue ((PortProgram.read ps2Cmd).bind fun status =>
    if status &&& ps2StatusOutput = 0 then .ret true
    else (PortProgram.read ps2Data).bind fun _ => .ret false) :=
  rfl

theorem flush_reaches_empty (h : s.output = none) : device.Reaches (flush, s) (.ret (), s) := by
  refine Device.Reaches.untilTrue (ReflTransGen.head .input ?_)
  dsimp only [PortProgram.bind_eq, PortProgram.bind, PortProgram.pure_eq, read_status]
  rw [if_pos ((status_output s).2 h)]

/-- `flush` can be left at any time : the second time the buffer is seen empty. -/
theorem flush_reaches (s : Ps2Controller) :
    device.Reaches (flush, s) (.ret (), { s with output := none }) := by
  by_cases h : s.output = none
  · rw [show { s with output := none } = s by rw [← h]]
    exact flush_reaches_empty h
  · refine ReflTransGen.trans (Device.Reaches.untilAgain (ReflTransGen.head .input ?_))
      (flush_reaches_empty (s := { s with output := none }) rfl)
    dsimp only [PortProgram.bind_eq, PortProgram.bind, PortProgram.pure_eq, read_status]
    rw [if_neg fun h' => h ((status_output s).1 h')]
    exact .single .input

/-- `flush` ends with the output buffer seen empty. -/
theorem flush_triple {Q : Ps2Controller → Prop} (hR : device.Stays Safe R)
    (hQ : device.Stays Safe Q) (hempty : ∀ s, R s → R { s with output := none })
    (h : ∀ s, R s → s.output = none → Q s) : device.Triple Safe R flush fun _ => Q := by
  have hstays : ∀ b : Bool, device.Stays Safe fun s => if b then Q s else R s := by
    rintro (- | -)
    · exact hR
    · exact hQ
  have hread : ∀ v, device.Stays Safe fun s => if v &&& ps2StatusOutput = 0 then Q s else R s := by
    intro v
    split_ifs
    · exact hQ
    · exact hR
  rw [flush_eq]
  refine Device.Triple.untilTrue hR hQ (Device.Triple.bind
    (Device.Triple.read hR hread fun s hs => ?_) fun v => ?_) fun s _ => ⟨_, flush_reaches s⟩
  · rw [read_status]
    split_ifs with hv
    · exact h s hs ((status_output s).1 hv)
    · exact hs
  · split_ifs with hv
    · exact Device.Triple.ret (Q := fun (b : Bool) s => if b then Q s else R s) (hstays true)
    · exact Device.Triple.bind (Device.Triple.read hR (fun _ => hR) fun s hs => hempty s hs)
        fun _ => Device.Triple.ret (Q := fun (b : Bool) s => if b then Q s else R s) (hstays false)

/-! ## A byte in the input buffer -/

/-- The controller takes a byte. -/
def take (s : Ps2Controller) (x : Bool × BitVec 8) : Ps2Controller :=
  if x.1 then s.command x.2 else s.data x.2

theorem take_input (s : Ps2Controller) (x : Bool × BitVec 8) : (s.take x).input = none := by
  unfold take command data
  split_ifs <;> rfl

/-- The byte `x` was written : `B` holds as long as it is not taken, and then `A`. -/
def Pending (x : Bool × BitVec 8) (B A : Ps2Controller → Prop) (s : Ps2Controller) : Prop :=
  B s ∧ s.input = some x ∨ A s ∧ s.input = none

variable {x : Bool × BitVec 8} {B A B' A' : Ps2Controller → Prop}

theorem stays_pending (hB : ∀ s t, B s → Quiet s t → B t) (hA : ∀ s t, A s → Quiet s t → A t)
    (htake : ∀ s, B s → (x = (true, ps2ReadConfig) → s.output = none) → A (s.take x))
    (hsafe : ∀ s, B s → s.Safe) (hsafe' : ∀ s, A s → s.Safe) :
    device.Stays Safe (Pending x B A) where
  own s t := by
    rintro (⟨hs, hin⟩ | ⟨hs, hin⟩) hown
    · rcases own_cases hown with ⟨c, hc, hout, rfl⟩ | ⟨b, hb, rfl⟩ | hquiet
      · obtain rfl : x = (true, c) := Option.some_inj.1 (hin.symm.trans hc)
        exact .inr ⟨htake s hs fun h => hout (Prod.mk.inj h).2, take_input s (true, c)⟩
      · obtain rfl : x = (false, b) := Option.some_inj.1 (hin.symm.trans hb)
        exact .inr ⟨htake s hs fun h => absurd (Prod.mk.inj h).1 Bool.false_ne_true,
          take_input s (false, b)⟩
      · exact .inl ⟨hB s t hs hquiet, hquiet.input.trans hin⟩
    · have hquiet := own_quiet hown hin
      exact .inr ⟨hA s t hs hquiet, hquiet.input.trans hin⟩
  safe s h := h.elim (fun h => hsafe s h.1) fun h => hsafe' s h.1

/-- The controller can take the byte. -/
theorem Pending.free (h : Pending x B A s)
    (hout : x = (true, ps2ReadConfig) → B s → s.output = none) :
    ∃ t, device.Moves s t ∧ t.input = none := by
  rcases h with ⟨hs, hin⟩ | ⟨hs, hin⟩
  · refine ⟨s.take x, .own ?_, take_input s x⟩
    obtain ⟨- | -, b⟩ := x
    · exact .data hin
    · exact .command hin fun h => hout (congrArg (Prod.mk true) h) hs
  · exact ⟨s, .refl s, hin⟩

/-- What holds once the byte is taken. -/
theorem Pending.taken (h : Pending x B A s) (hin : s.input = none) : A s := by
  rcases h with ⟨-, hx⟩ | ⟨hs, -⟩
  · simp [hin] at hx
  · exact hs

theorem take_output (s : Ps2Controller) (x : Bool × BitVec 8) :
    (s.take x).output = if x = (true, ps2ReadConfig) then some s.config else s.output := by
  obtain ⟨- | -, b⟩ := x
  · show (s.data b).output = _
    rw [if_neg fun h => Bool.false_ne_true (Prod.mk.inj h).1]
    unfold data
    split_ifs <;> rfl
  · show (s.command b).output = _
    by_cases hb : b = ps2ReadConfig
    · rw [hb]
      rfl
    · rw [if_neg fun h => hb (Prod.mk.inj h).2, command, if_neg hb]
      split_ifs <;> rfl

/-- While the clock of the first port has stopped, the output buffer stays full. -/
theorem own_full (h : Own s t) (h1 : s.config.getLsbD 4 = true) (hout : s.output ≠ none) :
    t.output ≠ none := by
  have htake : ∀ x, (s.take x).output ≠ none := by
    intro x
    rw [take_output]
    split_ifs
    · exact Option.some_ne_none _
    · exact hout
  rcases own_cases h with ⟨c, -, -, rfl⟩ | ⟨b, -, rfl⟩ | hquiet
  · exact htake (true, c)
  · exact htake (false, b)
  · by_contra hne
    have hport : s.Port1 := hquiet.keeps hout fun heq => hout (heq.symm.trans hne)
    rw [Port1, h1] at hport
    exact absurd hport (by decide)

/-- A command after a byte that the controller can take. -/
theorem pending_writeCommand {c : BitVec 8} (hR : device.Stays Safe (Pending x B A))
    (hout : ∀ s, x = (true, ps2ReadConfig) → B s → s.output = none)
    (hQ : device.Stays Safe (Pending (true, c) B' A'))
    (h : ∀ s, A s → B' { s with input := some (true, c) }) :
    device.Triple Safe (Pending x B A) (writeCommand c) fun _ => Pending (true, c) B' A' :=
  writeCommand_triple c hR (fun s hs => hs.free (hout s)) hQ
    fun s hs hin => .inl ⟨h s (hs.taken hin), rfl⟩

/-! ## The course of `ps2_init` -/

/-- The configuration with the clocks of both ports stopped. -/
def stopped (c : BitVec 8) : BitVec 8 :=
  c ||| 0x10 ||| 0x20

/-- The controller has the configuration `c`. -/
structure At (sec : Bool) (c : BitVec 8) (s : Ps2Controller) : Prop where
  config : s.config = c
  second : s.second = sec
  safe : s.Safe

/-- From the configuration `c` no device sends on the second port. -/
def Silent (sec : Bool) (c : BitVec 8) : Prop :=
  sec = true → c.getLsbD 5 = true

/-- No command awaits a configuration. -/
structure Idle (sec : Bool) (c : BitVec 8) (s : Ps2Controller) : Prop extends At sec c s where
  idle : s.awaitsConfig = false

/-- No command awaits a configuration, and the output buffer is empty if `p`. -/
structure Emptied (sec : Bool) (c : BitVec 8) (p : Prop) (s : Ps2Controller) : Prop
    extends Idle sec c s where
  empty : p → s.output = none

/-- A command awaits a configuration. -/
structure Awaits (sec : Bool) (c : BitVec 8) (s : Ps2Controller) : Prop extends At sec c s where
  awaits : s.awaitsConfig = true

/-- The configuration is in the output buffer. -/
structure Replied (sec : Bool) (c : BitVec 8) (s : Ps2Controller) : Prop
    extends Idle sec c s where
  reply : s.output = some c

variable {sec : Bool} {c b : BitVec 8} {p : Prop} {i : Option (Bool × BitVec 8)}

theorem At.input (h : At sec c s) : At sec c { s with input := i } :=
  ⟨h.config, h.second, h.safe⟩

theorem Idle.input (h : Idle sec c s) : Idle sec c { s with input := i } :=
  ⟨h.toAt.input, h.idle⟩

theorem Emptied.input (h : Emptied sec c p s) : Emptied sec c p { s with input := i } :=
  ⟨h.toIdle.input, h.empty⟩

theorem Awaits.input (h : Awaits sec c s) : Awaits sec c { s with input := i } :=
  ⟨h.toAt.input, h.awaits⟩

theorem At.quiet (h : At sec c s) (hquiet : Quiet s t) : At sec c t :=
  ⟨hquiet.config.trans h.config, hquiet.second.trans h.second, hquiet.overrun.trans h.safe⟩

theorem Idle.quiet (h : Idle sec c s) (hquiet : Quiet s t) : Idle sec c t :=
  ⟨h.toAt.quiet hquiet, hquiet.awaitsConfig.trans h.idle⟩

theorem Awaits.quiet (h : Awaits sec c s) (hquiet : Quiet s t) : Awaits sec c t :=
  ⟨h.toAt.quiet hquiet, hquiet.awaitsConfig.trans h.awaits⟩

/-- No byte comes while the clock of the first port has stopped and the second port is silent. -/
theorem Emptied.quiet (h : Emptied sec c p s) (h1 : c.getLsbD 4 = true) (h2 : p → Silent sec c)
    (hquiet : Quiet s t) : Emptied sec c p t := by
  refine ⟨h.toIdle.quiet hquiet, fun hp => ?_⟩
  by_contra hne
  rcases hquiet.fills (h.empty hp) hne with hport | ⟨hsecond, hport⟩
  · rw [Port1, h.config, h1] at hport
    exact absurd hport (by decide)
  · rw [Port2, h.config, h2 hp (h.second.symm.trans hsecond)] at hport
    exact absurd hport (by decide)

theorem Replied.quiet (h : Replied sec c s) (h1 : c.getLsbD 4 = true) (hquiet : Quiet s t) :
    Replied sec c t := by
  refine ⟨h.toIdle.quiet hquiet, ?_⟩
  by_contra hne
  have hport : s.Port1 := hquiet.keeps (by simp [h.reply]) fun heq => hne (heq.trans h.reply)
  rw [Port1, h.config, h1] at hport
  exact absurd hport (by decide)

/-- The configuration that is written has the clock of the first port running. -/
theorem configure_enabled : ∀ b : BitVec 8, configure b &&& ~~~0x10 = configure b := by
  decide

theorem silent_stop1 (h : Silent sec c) : Silent sec (c ||| 0x10) := by
  intro hsec
  simp [h hsec]

/-- With its clock stopped the second port is silent. -/
theorem silent_stopped (c : BitVec 8) : Silent sec (stopped c) := by
  intro _
  simp [stopped]

theorem stopped_port1 (c : BitVec 8) : (stopped c).getLsbD 4 = true := by
  simp [stopped]

theorem stop1_port1 (c : BitVec 8) : (c ||| 0x10).getLsbD 4 = true := by
  simp

/-- The first command, taken or not. -/
theorem stays_disable1 : device.Stays Safe
    (Pending (true, ps2DisablePort1) (At sec c) (Idle sec (c ||| 0x10))) :=
  stays_pending (fun _ _ h => h.quiet) (fun _ _ h => h.quiet)
    (fun _ h _ => ⟨⟨congrArg (· ||| 0x10) h.config, h.second, h.safe⟩, rfl⟩) (fun _ h => h.safe)
    fun _ h => h.safe

/-- The second command, taken or not. -/
theorem stays_disable2 : device.Stays Safe
    (Pending (true, ps2DisablePort2) (Idle sec (c ||| 0x10)) (Idle sec (stopped c))) :=
  stays_pending (fun _ _ h => h.quiet) (fun _ _ h => h.quiet)
    (fun _ h _ => ⟨⟨congrArg (· ||| 0x20) h.config, h.second, h.safe⟩, rfl⟩) (fun _ h => h.safe)
    fun _ h => h.safe

theorem stays_flushed : device.Stays Safe (Pending (true, ps2DisablePort2)
    (Emptied sec (c ||| 0x10) (Silent sec c)) (Emptied sec (stopped c) (Silent sec c))) :=
  stays_pending (fun _ _ h => h.quiet (stop1_port1 c) silent_stop1)
    (fun _ _ h => h.quiet (stopped_port1 c) fun _ => silent_stopped c)
    (fun _ h _ => ⟨⟨⟨congrArg (· ||| 0x20) h.config, h.second, h.safe⟩, rfl⟩, h.empty⟩)
    (fun _ h => h.safe) fun _ h => h.safe

/-- The configuration is asked for. -/
theorem stays_readConfig : device.Stays Safe (Pending (true, ps2ReadConfig)
    (Emptied sec (stopped c) (Silent sec c)) (Replied sec (stopped c))) :=
  stays_pending (fun _ _ h => h.quiet (stopped_port1 c) fun _ => silent_stopped c)
    (fun _ _ h => h.quiet (stopped_port1 c))
    (fun _ h _ => ⟨⟨⟨h.config, h.second, h.safe⟩, rfl⟩, congrArg some h.config⟩)
    (fun _ h => h.safe) fun _ h => h.safe

theorem stays_read : device.Stays Safe (Pending (true, ps2ReadConfig)
    (Emptied sec (stopped c) True) (Idle sec (stopped c))) :=
  stays_pending (fun _ _ h => h.quiet (stopped_port1 c) fun _ => silent_stopped c)
    (fun _ _ h => h.quiet) (fun _ h _ => ⟨⟨h.config, h.second, h.safe⟩, rfl⟩)
    (fun _ h => h.safe) fun _ h => h.safe

/-- The controller is told that a configuration comes. -/
theorem stays_writeConfig : device.Stays Safe
    (Pending (true, ps2WriteConfig) (At sec (stopped c)) (Awaits sec (stopped c))) :=
  stays_pending (fun _ _ h => h.quiet) (fun _ _ h => h.quiet)
    (fun _ h _ => ⟨⟨h.config, h.second, h.safe⟩, rfl⟩) (fun _ h => h.safe) fun _ h => h.safe

/-- The configuration is written. -/
theorem stays_config : device.Stays Safe
    (Pending (false, configure b) (Awaits sec (stopped c)) (Idle sec (configure b))) := by
  refine stays_pending (fun _ _ h => h.quiet) (fun _ _ h => h.quiet) (fun s h _ => ?_)
    (fun _ h => h.safe) fun _ h => h.safe
  have htake : s.take (false, configure b) =
      { s with input := none, awaitsConfig := false, config := configure b } := if_pos h.awaits
  rw [htake]
  exact ⟨⟨rfl, h.second, h.safe⟩, rfl⟩

/-- The last command, taken or not. -/
theorem stays_enable1 : device.Stays Safe
    (Pending (true, ps2EnablePort1) (Idle sec (configure b)) (Idle sec (configure b))) :=
  stays_pending (fun _ _ h => h.quiet) (fun _ _ h => h.quiet)
    (fun _ h _ => ⟨⟨(congrArg (· &&& ~~~0x10) h.config).trans (configure_enabled b), h.second,
      h.safe⟩, rfl⟩) (fun _ h => h.safe) fun _ h => h.safe

theorem stays_start : device.Stays Safe fun s => At sec c s ∧ s.input = none where
  own _ _ h hown :=
    have hquiet := own_quiet hown h.2
    ⟨h.1.quiet hquiet, hquiet.input.trans h.2⟩
  safe _ h := h.1.safe

theorem not_readConfig {y : BitVec 8} {P : Prop} (hy : y ≠ ps2ReadConfig) (z : Bool)
    (h : (z, y) = (true, ps2ReadConfig)) : P :=
  absurd (Prod.mk.inj h).2 hy

/-- `flush` leaves the output buffer empty, if the second port is silent. -/
theorem flush_stopped : device.Triple Safe
    (Pending (true, ps2DisablePort2) (Idle sec (c ||| 0x10)) (Idle sec (stopped c))) flush
    fun _ => Pending (true, ps2DisablePort2) (Emptied sec (c ||| 0x10) (Silent sec c))
      (Emptied sec (stopped c) (Silent sec c)) := by
  refine flush_triple stays_disable2 stays_flushed ?_ ?_
  · rintro s (⟨h, hin⟩ | ⟨h, hin⟩)
    · exact .inl ⟨⟨⟨h.config, h.second, h.safe⟩, h.idle⟩, hin⟩
    · exact .inr ⟨⟨⟨h.config, h.second, h.safe⟩, h.idle⟩, hin⟩
  · rintro s (⟨h, hin⟩ | ⟨h, hin⟩) hout
    · exact .inl ⟨⟨h, fun _ => hout⟩, hin⟩
    · exact .inr ⟨⟨h, fun _ => hout⟩, hin⟩

/-- The byte read for the configuration. -/
theorem readData_config : device.Triple Safe (Pending (true, ps2ReadConfig)
      (Emptied sec (stopped c) (Silent sec c)) (Replied sec (stopped c))) readData
    fun b s => (Silent sec c → b = stopped c) ∧ Pending (true, ps2ReadConfig)
      (Emptied sec (stopped c) True) (Idle sec (stopped c)) s := by
  have hat : ∀ s, Pending (true, ps2ReadConfig) (Emptied sec (stopped c) (Silent sec c))
      (Replied sec (stopped c)) s → At sec (stopped c) s := by
    rintro s (⟨h, -⟩ | ⟨h, -⟩)
    · exact h.toAt
    · exact h.toAt
  refine readData_triple stays_readConfig
    ⟨fun s t h hown => ?_, fun s h => stays_readConfig.safe s h.1⟩
    (fun s h => ?_) (fun b => ⟨fun s t h hown => ⟨h.1, stays_read.own s t h.2 hown⟩,
      fun s h => stays_read.safe s h.2⟩) ?_
  · refine ⟨stays_readConfig.own s t h.1 hown, own_full hown ?_ h.2⟩
    rw [(hat s h.1).config]
    exact stopped_port1 c
  · by_cases hout : s.output = none
    · rcases h with ⟨h, hin⟩ | ⟨h, -⟩
      · refine ⟨s.take (true, ps2ReadConfig), .own (.command hin fun _ => hout), ?_⟩
        rw [take_output, if_pos rfl]
        exact Option.some_ne_none _
      · exact absurd (h.reply.symm.trans hout) (Option.some_ne_none _)
    · exact ⟨s, .refl s, hout⟩
  · rintro s b (⟨h, hin⟩ | ⟨h, hin⟩) hb
    · refine ⟨fun hsilent => ?_, .inl ⟨⟨⟨⟨h.config, h.second, h.safe⟩, h.idle⟩, fun _ => rfl⟩, hin⟩⟩
      exact absurd (hb.symm.trans (h.empty hsilent)) (Option.some_ne_none _)
    · exact ⟨fun _ => Option.some_inj.1 (hb.symm.trans h.reply),
        .inr ⟨⟨⟨h.config, h.second, h.safe⟩, h.idle⟩, hin⟩⟩

/-- The configuration is written that the byte read stands for. It is the one the controller
has, unless a device sends on the second port. -/
theorem ps2Init_triple : device.Triple Safe (fun s => At sec c s ∧ s.input = none) ps2Init
    fun _ s => ∃ b, (Silent sec c → b = stopped c) ∧
      Pending (true, ps2EnablePort1) (Idle sec (configure b)) (Idle sec (configure b)) s := by
  refine Device.Triple.bind (writeCommand_triple ps2DisablePort1 stays_start
    (fun s h => ⟨s, .refl s, h.2⟩) stays_disable1 fun s h _ => .inl ⟨h.1.input, rfl⟩) fun _ => ?_
  refine Device.Triple.bind (pending_writeCommand stays_disable1
    (fun _ => not_readConfig (by decide) true) stays_disable2 fun s h => h.input) fun _ => ?_
  refine Device.Triple.bind flush_stopped fun _ => ?_
  refine Device.Triple.bind (pending_writeCommand stays_flushed
    (fun _ => not_readConfig (by decide) true) stays_readConfig fun s h => h.input) fun _ => ?_
  refine Device.Triple.bind readData_config fun b s h => ?_
  have hrest : device.Triple Safe (Pending (true, ps2ReadConfig) (Emptied sec (stopped c) True)
      (Idle sec (stopped c))) (((writeCommand ps2WriteConfig).bind fun _ =>
        (writeData (configure b)).bind fun _ => writeCommand ps2EnablePort1)) fun _ =>
      Pending (true, ps2EnablePort1) (Idle sec (configure b)) (Idle sec (configure b)) := by
    refine Device.Triple.bind (pending_writeCommand stays_read
      (fun s _ h => h.empty trivial) stays_writeConfig fun s h => h.toAt.input) fun _ => ?_
    refine Device.Triple.bind (writeData_triple (configure b) stays_writeConfig
      (fun s h => h.free fun hx => not_readConfig (by decide) true hx) stays_config
      fun s h hin => .inl ⟨(h.taken hin).input, rfl⟩) fun _ => ?_
    exact pending_writeCommand stays_config (fun _ => nofun) stays_enable1 fun s h => h.input
  exact (hrest s h.2).mono fun _ t ht => ⟨b, h.1, ht⟩

/-! ## A byte in between -/

/-- `ps2_wait_write` can end at once. -/
theorem waitWrite_reaches (h : s.input = none) : device.Reaches (waitWrite, s) (.ret (), s) :=
  Device.poll_reaches (fun v => decide (v &&& ps2StatusInput = 0))
    (decide_eq_true ((status_input s).2 h))

/-- A command can be written at once. -/
theorem writeCommand_reaches (x : BitVec 8) (h : s.input = none) :
    device.Reaches (writeCommand x, s) (.ret (), { s with input := some (true, x) }) := by
  refine (waitWrite_reaches h).seq (ReflTransGen.single ?_)
  have hwrite : device.write ps2Cmd x s = { s with input := some (true, x) } := by
    rw [write_command, h, Option.isSome_none, Bool.or_false]
  rw [← hwrite]
  exact .output

theorem writeData_reaches (x : BitVec 8) (h : s.input = none) :
    device.Reaches (writeData x, s) (.ret (), { s with input := some (false, x) }) := by
  refine (waitWrite_reaches h).seq (ReflTransGen.single ?_)
  have hwrite : device.write ps2Data x s = { s with input := some (false, x) } := by
    rw [write_data, h, Option.isSome_none, Bool.or_false]
  rw [← hwrite]
  exact .output

/-- A byte can be read at once. -/
theorem readData_reaches (h : s.output = some b) :
    device.Reaches (readData, s) (.ret b, { s with output := none }) := by
  have hwait : device.Reaches (waitRead, s) (.ret (), s) :=
    Device.poll_reaches (fun v => decide (v &&& ps2StatusOutput ≠ 0))
      (decide_eq_true fun h' => by simp [(status_output s).1 h'] at h)
  have hread : device.read ps2Data s = (b, { s with output := none }) := by
    rw [read_data, h, Option.getD_some]
  refine hwait.seq (ReflTransGen.single ?_)
  have hstep := Device.Step.input (D := device) (p := ps2Data) (k := PortProgram.ret) (s := s)
  rwa [hread] at hstep

/-- A command that is taken at once. -/
theorem command_reaches {x : BitVec 8} (hx : x ≠ ps2ReadConfig) (h : s.input = none) :
    device.Reaches (writeCommand x, s) (.ret (), s.command x) :=
  (writeCommand_reaches x h).trans (Device.Reaches.own (.command rfl fun h => absurd h hx) .refl)

/-- A device on the second port sends a byte after `flush`, and that is read for the
configuration. -/
theorem ps2Init_reaches_second (hin : s.input = none) (hsecond : s.second = true)
    (hport : s.Port2) (b : BitVec 8) :
    ∃ t, device.Reaches (ps2Init, s) (.ret (), t) ∧ t.config = configure b := by
  have hport' : (s.command ps2DisablePort1).Port2 := by
    simpa [Port2, command, ps2DisablePort1, ps2ReadConfig] using hport
  -- the second command is taken only after the byte has come
  refine ⟨_, (command_reaches (by decide) hin).seq
    ((writeCommand_reaches ps2DisablePort2 rfl).seq ((flush_reaches _).seq
      (.own (.second (b := b) hsecond rfl hport') (.own (.command rfl nofun)
        ((writeCommand_reaches ps2ReadConfig rfl).seq ((readData_reaches rfl).seq
          (.own (.command rfl fun _ => rfl) ((command_reaches (by decide) rfl).seq
            ((writeData_reaches (configure b) rfl).seq (.own (.data rfl)
              (writeCommand_reaches ps2EnablePort1 rfl))))))))))), rfl⟩

theorem configure_stopped : ∀ c : BitVec 8, configure (stopped c) = c &&& 0x8c ||| 0x21 := by
  decide

theorem configure_complement : ∀ c : BitVec 8, configure (~~~c) ≠ c &&& 0x8c ||| 0x21 := by
  decide

/-- `ps2_init` writes no byte over another and can always come to its end. Whatever the
controller, the keyboard and the interrupt handler do meanwhile, it ends with the interrupt and
the clock of the first port on, those of the second off, translation off and the other bits as
they were, if and only if no device on the second port can send when it begins. -/
theorem ps2Init_configures_iff (s : Ps2Controller) (hin : s.input = none) (hsafe : s.Safe) :
    (∀ p t, device.Reaches (ps2Init, s) (p, t) →
      t.Safe ∧ ∃ u, device.Reaches (p, t) (.ret (), u)) ∧
    ((∀ t, device.Reaches (ps2Init, s) (.ret (), t) → t.config = s.config &&& 0x8c ||| 0x21) ↔
      (s.second = true → ¬s.Port2)) := by
  have hholds := ps2Init_triple s ⟨⟨rfl, rfl, hsafe⟩, hin⟩
  refine ⟨fun p t hr => ?_, fun h hsecond hport => ?_, fun h t hr => ?_⟩
  · obtain ⟨hsafe', -, a, u, hu⟩ := hholds.sound hr
    exact ⟨hsafe', u, hu⟩
  · obtain ⟨t, hr, ht⟩ := ps2Init_reaches_second hin hsecond hport (~~~s.config)
    exact configure_complement s.config (ht.symm.trans (h t hr))
  · obtain ⟨b, hb, hend⟩ := (hholds.sound hr).2.1 () rfl
    have hsilent : Silent s.second s.config := fun hsecond => by
      simpa [Port2] using h hsecond
    rw [← configure_stopped, ← hb hsilent]
    rcases hend with ⟨hend, -⟩ | ⟨hend, -⟩
    · exact hend.config
    · exact hend.config

/-- A controller as the firmware leaves it, with a key released that nobody has read. -/
def bootController : Ps2Controller where
  config := 0x45
  input := none
  output := some kbKeyRelease
  awaitsConfig := false
  keyboard :=
    { queue := [0x5a], awaiting := none, scanSet := 2, repeatRate := 0x2b, scanning := true
      selfTest := kbTestPass, typed := 0, received := [] }
  second := false
  irq := true
  overrun := false

theorem ps2Init_configures_bootController :
    ∃ t, device.Reaches (ps2Init, bootController) (.ret (), t) ∧ t.config = 0x25 := by
  obtain ⟨hruns, hconfig⟩ := ps2Init_configures_iff bootController rfl rfl
  obtain ⟨-, t, ht⟩ := hruns _ _ ReflTransGen.refl
  exact ⟨t, ht, hconfig.2 nofun t ht⟩

end Ps2Controller

end KernelDev
