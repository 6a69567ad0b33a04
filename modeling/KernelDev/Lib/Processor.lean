import KernelDev.Lib.Device

/-!
# A program that handlers interrupt

A main program runs on a device that may interrupt it before each of its steps. The handler of the
interrupt runs to its end, and only then does the main program go on : handlers are not
interrupted. They work on variables of their own, which the main program may change in the ways
that `changes` allows, between its steps. A `Platform` has the device, the interrupts it may raise
(`accept`, which also says what accepting one does to the device) and the handlers of each, of
which there may be more than one, as what a handler does may depend on what the processor was
doing. A `Processor` is a moment of a run.

`Platform.Serves` is the rule for such systems. One assertion holds at every moment, and another
one outside handlers : the main program keeps it, and each handler gives it back from the moment at
which its interrupt is accepted. `Serves.sound` says what that means for a run : both hold where
they should, and from every moment the main program can be reached again, so no handler hangs.
`Serves.and` adds assertions to those of a platform that is already known to serve its interrupts.

`reaches_main` and `reaches_back` make runs of the platform of runs of the main program and of a
handler.
-/

/-- A device with interrupts numbered by `N`, and their handlers, which are programs that start
from the variables and end with new ones. `changes` is what the main program may do to the
variables. -/
structure Platform (P V S K N : Type) where
  device : Device P V S
  /-- An interrupt is accepted, which changes the device. -/
  accept : N → S → S → Prop
  /-- The handler of an interrupt, from the variables on. -/
  handler : N → K → PortProgram P V K → Prop
  changes : K → K → Prop

/-- A moment of a run : the main program, the handler that interrupts it if any, the variables
and the device. -/
structure Processor (P V S K A : Type) where
  main : PortProgram P V A
  /-- The handler that runs, unless the main program does. -/
  handler : Option (PortProgram P V K)
  vars : K
  dev : S

namespace Platform

open Relation

variable {P V S K N A : Type} (M : Platform P V S K N)

/-- A step of the main program, of the handler or of the device, or an interrupt. -/
inductive Step : Processor P V S K A → Processor P V S K A → Prop
  | main {p p' : PortProgram P V A} {k : K} {s s' : S} : M.device.Step (p, s) (p', s') →
    Step ⟨p, none, k, s⟩ ⟨p', none, k, s'⟩
  | changes {p : PortProgram P V A} {k k' : K} {s : S} : M.changes k k' →
    Step ⟨p, none, k, s⟩ ⟨p, none, k', s⟩
  | accept {p : PortProgram P V A} {n : N} {h : PortProgram P V K} {k : K} {s s' : S} :
    M.accept n s s' → M.handler n k h → Step ⟨p, none, k, s⟩ ⟨p, some h, k, s'⟩
  | handler {p : PortProgram P V A} {h h' : PortProgram P V K} {k : K} {s s' : S} :
    M.device.Step (h, s) (h', s') → Step ⟨p, some h, k, s⟩ ⟨p, some h', k, s'⟩
  | back {p : PortProgram P V A} {k k' : K} {s : S} :
    Step ⟨p, some (.ret k'), k, s⟩ ⟨p, none, k', s⟩

/-- Some number of steps. -/
def Reaches : Processor P V S K A → Processor P V S K A → Prop :=
  ReflTransGen M.Step

/-- The rule. `Rest` holds outside handlers and `I` at every moment. -/
structure Serves (ports : P → Prop) (I : S → Prop) (Rest : K → S → Prop) : Prop where
  /-- The main program and the device keep `Rest`. -/
  rest : ∀ k, M.device.Keeps I ports (Rest k)
  changes : ∀ k k' s, M.changes k k' → Rest k s → Rest k' s
  /-- From its interrupt on, the handler gives `Rest` back. -/
  accept : ∀ n k h s s', M.accept n s s' → M.handler n k h → Rest k s →
    M.device.Holds I h Rest s'

variable {M} {ports : P → Prop} {I : S → Prop} {Rest : K → S → Prop}

/-- A second assertion, for which the handlers may rely on the first one. -/
theorem Serves.and {ports' : P → Prop} {J : S → Prop} {Rest' : K → S → Prop}
    (hM : M.Serves ports I Rest) (hports : ∀ p, ports' p → ports p)
    (hrest : ∀ k, M.device.Keeps J ports' (Rest' k))
    (hchanges : ∀ k k' s, M.changes k k' → Rest' k s → Rest' k' s)
    (haccept : ∀ n k h s s', M.accept n s s' → M.handler n k h → Rest k s → Rest' k s →
      M.device.Holds J h Rest' s') :
    M.Serves ports' (fun s => I s ∧ J s) fun k s => Rest k s ∧ Rest' k s where
  rest k := ((hM.rest k).mono hports).and (hrest k)
  changes k k' s h hs := ⟨hM.changes k k' s h hs.1, hchanges k k' s h hs.2⟩
  accept n k h s s' ha hh hs :=
    (hM.accept n k h s s' ha hh hs.1).and (haccept n k h s s' ha hh hs.1 hs.2)

/-- What is known at a moment of a run. -/
def Served (M : Platform P V S K N) (ports : P → Prop) (I : S → Prop) (Rest : K → S → Prop)
    (x : Processor P V S K A) : Prop :=
  x.main.Uses ports ∧ match x.handler with
    | none => Rest x.vars x.dev
    | some h => M.device.Holds I h Rest x.dev

/-- One step keeps what is known. -/
theorem Serves.step (hM : M.Serves ports I Rest) {x y : Processor P V S K A}
    (hx : Served M ports I Rest x) (hstep : M.Step x y) : Served M ports I Rest y := by
  cases hstep with
  | main hstep => exact (hM.rest _).step hx.1 hx.2 hstep
  | changes hchanges => exact ⟨hx.1, hM.changes _ _ _ hchanges hx.2⟩
  | accept haccept hh => exact ⟨hx.1, hM.accept _ _ _ _ _ haccept hh hx.2⟩
  | handler hstep => exact ⟨hx.1, hx.2.step hstep⟩
  | back => exact ⟨hx.1, (hx.2 _ (.refl _)).2⟩

/-- A run keeps what is known. -/
theorem Serves.reaches (hM : M.Serves ports I Rest) {x y : Processor P V S K A}
    (hx : Served M ports I Rest x) (hr : M.Reaches x y) : Served M ports I Rest y := by
  induction hr with
  | refl => exact hx
  | tail _ hstep ih => exact hM.step ih hstep

/-- The main program goes on while nothing interrupts it. -/
theorem reaches_main {p p' : PortProgram P V A} {k : K} {s s' : S}
    (hr : M.device.Reaches (p, s) (p', s')) : M.Reaches ⟨p, none, k, s⟩ ⟨p', none, k, s'⟩ := by
  have hrun : ∀ c : PortProgram P V A × S, M.device.Reaches (p, s) c →
      M.Reaches ⟨p, none, k, s⟩ ⟨c.1, none, k, c.2⟩ := by
    intro c hc
    induction hc with
    | refl => exact ReflTransGen.refl
    | tail _ hstep ih => exact ih.tail (.main hstep)
  exact hrun _ hr

/-- A handler that can come to its end gives the processor back. -/
theorem reaches_back {p : PortProgram P V A} {h : PortProgram P V K} {k k' : K} {s s' : S}
    (hr : M.device.Reaches (h, s) (.ret k', s')) :
    M.Reaches ⟨p, some h, k, s⟩ ⟨p, none, k', s'⟩ := by
  have hrun : ∀ c : PortProgram P V K × S, M.device.Reaches (h, s) c →
      M.Reaches ⟨p, some h, k, s⟩ ⟨p, some c.1, k, c.2⟩ := by
    intro c hc
    induction hc with
    | refl => exact ReflTransGen.refl
    | tail _ hstep ih => exact ih.tail (.handler hstep)
  exact (hrun _ hr).tail .back

/-- What the rule says of every run that begins outside handlers. -/
theorem Serves.sound (hM : M.Serves ports I Rest) {p : PortProgram P V A} {k : K} {s : S}
    (hp : p.Uses ports) (hs : Rest k s) {x : Processor P V S K A}
    (hr : M.Reaches ⟨p, none, k, s⟩ x) :
    I x.dev ∧ (x.handler = none → Rest x.vars x.dev) ∧
      ∃ k' s', M.Reaches x ⟨x.main, none, k', s'⟩ := by
  obtain ⟨p', _ | h, k', s'⟩ := x
  · obtain ⟨-, hrest⟩ := hM.reaches (x := ⟨p, none, k, s⟩) ⟨hp, hs⟩ hr
    exact ⟨(hM.rest k').safe s' hrest, fun _ => hrest, k', s', ReflTransGen.refl⟩
  · obtain ⟨-, hholds⟩ := hM.reaches (x := ⟨p, none, k, s⟩) ⟨hp, hs⟩ hr
    obtain ⟨k'', t, hend⟩ := hholds.finish
    exact ⟨hholds.now, nofun, k'', t, reaches_back hend⟩

end Platform
