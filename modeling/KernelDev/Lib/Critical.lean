import Mathlib.Data.List.Basic

/-!
# Critical sections

Computations on a state with an interrupt flag (`Interruptible`). An `Action` logs the places that
it touches, each with whether interrupts were on then, and what it does to the flag; beside the log
it has a result and the next state. The log is about the accesses of a program and not only about
its effect, so two actions with the same effect may keep their sections or not.

A critical section clears the flag for its body, and sets it again if it was set before
(`Action.critical`) : what is behind `if (were_on) cli()` and `if (were_on) sti()`. Sections may be
nested : what happens in the body of one is `Quiet`, that is it leaves interrupts off all along,
and a section in such a body is quiet too (`Masked.isQuiet`), as it finds the flag cleared and does
nothing to it.

`Masked` is what sections are for : the flag comes back as it was, places that are shared with a
handler are touched with interrupts off only, and interrupts that are off stay off. It is kept by
sequences (`Masked.bind`) and holds of a section with a quiet body (`Masked.critical`), of a read
of a place that is not shared (`Masked.load`), and of a write to one (`Masked.store`). So a program
is `Masked` if its accesses to shared places are all inside of sections, which is checked by going
over the program once.
-/

/-- States with an interrupt flag. -/
class Interruptible (S : Type) where
  intFlag : S → Bool
  setIntFlag : Bool → S → S
  intFlag_set : ∀ b s, intFlag (setIntFlag b s) = b

open Interruptible

namespace Critical

variable {S P α β : Type}

/-- A place is touched, with interrupts on or off, or the flag is cleared or set. -/
inductive Entry (P : Type) where
  | touch (p : P) (on : Bool)
  | cli
  | sti

/-- Interrupts are on behind the entry. -/
def Entry.on : Entry P → Bool
  | touch _ on => on
  | cli => false
  | sti => true

/-- A computation, with its log, its result and the next state. -/
def Action (S P α : Type) :=
  S → List (Entry P) × α × S

namespace Action

def log (m : Action S P α) (s : S) : List (Entry P) :=
  (m s).1

def val (m : Action S P α) (s : S) : α :=
  (m s).2.1

def next (m : Action S P α) (s : S) : S :=
  (m s).2.2

instance : Monad (Action S P) where
  pure a s := ([], a, s)
  bind m f s :=
    (m.log s ++ (f (m.val s)).log (m.next s), (f (m.val s)).val (m.next s),
      (f (m.val s)).next (m.next s))

/-- Change what is no place, such as a record of what happened. -/
def note (f : S → S) : Action S P Unit :=
  fun s => ([], (), f s)

/-- An action if a condition holds. -/
def when (c : Bool) (m : Action S P Unit) : Action S P Unit :=
  if c then m else pure ()

/-- The loop over the indices below `n`. -/
def times (f : ℕ → Action S P Unit) : ℕ → Action S P Unit
  | 0 => pure ()
  | n + 1 => do
    times f n
    f n

variable [Interruptible S]

/-- Read a place. -/
def load (p : P) (f : S → α) : Action S P α :=
  fun s => ([.touch p (intFlag s)], f s, s)

/-- Write a place. -/
def store (p : P) (f : S → S) : Action S P Unit :=
  fun s => ([.touch p (intFlag s)], (), f s)

/-- Are interrupts on? -/
def interruptsOn : Action S P Bool :=
  fun s => ([], intFlag s, s)

def cli : Action S P Unit :=
  fun s => ([.cli], (), setIntFlag false s)

def sti : Action S P Unit :=
  fun s => ([.sti], (), setIntFlag true s)

/-- Run a body with interrupts off, and turn them on again if they were on. -/
def critical (m : Action S P α) : Action S P α := do
  let enableInts ← interruptsOn
  when enableInts cli
  let a ← m
  when enableInts sti
  return a

/-! ## Logs, results and states -/

section

omit [Interruptible S]

variable (m : Action S P α) (f : α → Action S P β) (s : S)

@[simp] theorem log_pure (a : α) : (pure a : Action S P α).log s = [] := rfl

@[simp] theorem val_pure (a : α) : (pure a : Action S P α).val s = a := rfl

@[simp] theorem next_pure (a : α) : (pure a : Action S P α).next s = s := rfl

@[simp] theorem log_bind : (m >>= f).log s = m.log s ++ (f (m.val s)).log (m.next s) := rfl

@[simp] theorem val_bind : (m >>= f).val s = (f (m.val s)).val (m.next s) := rfl

@[simp] theorem next_bind : (m >>= f).next s = (f (m.val s)).next (m.next s) := rfl

theorem next_when (c : Bool) (m : Action S P Unit) (s : S) :
    (when c m).next s = if c then m.next s else s := by
  cases c <;> rfl

/-- A loop over actions that each change one part of the state. -/
theorem next_times {T : Type} (get : S → T) (put : S → T → S) (g : T → ℕ → T)
    {f : ℕ → Action S P Unit} (hput : ∀ s, put s (get s) = s)
    (hget : ∀ s x, get (put s x) = x) (htwice : ∀ s x y, put (put s x) y = put s y)
    (hf : ∀ i s, (f i).next s = put s (g (get s) i)) (n : ℕ) (s : S) :
    (times f n).next s = put s ((List.range n).foldl g (get s)) := by
  induction n with
  | zero => exact (hput s).symm
  | succ n ih =>
    rw [times, next_bind, ih, hf, hget, htwice, List.range_succ, List.foldl_append]
    rfl

end

/-- A section with interrupts on clears the flag and sets it again. -/
theorem critical_on {m : Action S P α} {s : S} (h : intFlag s = true) :
    critical m s = (.cli :: m.log (setIntFlag false s) ++ [.sti], m.val (setIntFlag false s),
      setIntFlag true (m.next (setIntFlag false s))) := by
  have hon : (interruptsOn : Action S P Bool) s = ([], true, s) := by rw [interruptsOn, h]
  show ((interruptsOn >>= _ : Action S P α) s) = _
  simp only [bind, log, val, next, hon, when, if_true]
  simp [cli, sti, pure]

/-- A section with interrupts off is its body. -/
theorem critical_off {m : Action S P α} {s : S} (h : intFlag s = false) : critical m s = m s := by
  have hoff : (interruptsOn : Action S P Bool) s = ([], false, s) := by rw [interruptsOn, h]
  show ((interruptsOn >>= _ : Action S P α) s) = _
  simp only [bind, log, val, next, hoff, when]
  simp [pure]

/-! ## Inside of a section -/

/-- With interrupts off, they stay off all along. -/
structure Quiet (m : Action S P α) : Prop where
  flag : ∀ s, intFlag s = false → intFlag (m.next s) = false
  log : ∀ s, intFlag s = false → ∀ e ∈ m.log s, e.on = false

theorem Quiet.pure (a : α) : Quiet (pure a : Action S P α) :=
  ⟨fun _ h => h, fun _ _ _ he => (List.not_mem_nil he).elim⟩

/-- A quiet action and then another one. -/
theorem Quiet.bind {m : Action S P α} {f : α → Action S P β} (h : Quiet m)
    (hf : ∀ a, Quiet (f a)) : Quiet (m >>= f) := by
  refine ⟨fun s hs => (hf _).flag _ (h.flag s hs), fun s hs e he => ?_⟩
  rw [log_bind] at he
  rcases List.mem_append.1 he with he | he
  · exact h.log s hs e he
  · exact (hf _).log _ (h.flag s hs) e he

theorem Quiet.load (p : P) (f : S → α) : Quiet (load p f) := by
  refine ⟨fun _ h => h, fun s hs e he => ?_⟩
  obtain rfl := List.mem_singleton.1 he
  exact hs

theorem Quiet.store (p : P) {f : S → S} (hf : ∀ s, intFlag (f s) = intFlag s) :
    Quiet (store p f) := by
  refine ⟨fun s hs => (hf s).trans hs, fun s hs e he => ?_⟩
  obtain rfl := List.mem_singleton.1 he
  exact hs

theorem Quiet.note {f : S → S} (hf : ∀ s, intFlag (f s) = intFlag s) :
    Quiet (note f : Action S P Unit) :=
  ⟨fun s hs => (hf s).trans hs, fun _ _ _ he => (List.not_mem_nil he).elim⟩

theorem Quiet.when {m : Action S P Unit} (h : Quiet m) (c : Bool) : Quiet (when c m) := by
  unfold Action.when
  split_ifs
  · exact h
  · exact .pure ()

/-- A quiet loop. -/
theorem Quiet.times {f : ℕ → Action S P Unit} (h : ∀ i, Quiet (f i)) (n : ℕ) :
    Quiet (times f n) := by
  induction n with
  | zero => exact .pure ()
  | succ n ih => exact ih.bind fun _ => h n

/-! ## Computations that keep their sections -/

/-- The flag comes back as it was, shared places are touched with interrupts off only, and
interrupts that are off stay off. -/
structure Masked (shared : P → Prop) (m : Action S P α) : Prop where
  flag : ∀ s, intFlag (m.next s) = intFlag s
  /-- A shared place is touched with interrupts off. -/
  shared : ∀ s p on, .touch p on ∈ m.log s → shared p → on = false
  quiet : ∀ s, intFlag s = false → ∀ e ∈ m.log s, e.on = false

variable {shared : P → Prop}

/-- A section may be part of another one. -/
theorem Masked.isQuiet {m : Action S P α} (h : Masked shared m) : Quiet m :=
  ⟨fun s hs => (h.flag s).trans hs, h.quiet⟩

theorem Masked.pure (a : α) : Masked shared (pure a : Action S P α) :=
  ⟨fun _ => rfl, fun _ _ _ he => (List.not_mem_nil he).elim, (Quiet.pure a).log⟩

/-- The rule of sequences. -/
theorem Masked.bind {m : Action S P α} {f : α → Action S P β} (h : Masked shared m)
    (hf : ∀ a, Masked shared (f a)) : Masked shared (m >>= f) := by
  refine ⟨fun s => ((hf _).flag _).trans (h.flag s), fun s p on he => ?_,
    (h.isQuiet.bind fun a => (hf a).isQuiet).log⟩
  rw [log_bind] at he
  rcases List.mem_append.1 he with he | he
  · exact h.shared s p on he
  · exact (hf _).shared _ p on he

/-- A place that is not shared may be read at any time. -/
theorem Masked.load {p : P} (hp : ¬shared p) (f : S → α) : Masked shared (load p f) := by
  refine ⟨fun _ => rfl, fun s q on he hq => ?_, (Quiet.load p f).log⟩
  obtain ⟨rfl, -⟩ := Entry.touch.inj (List.mem_singleton.1 he)
  exact absurd hq hp

/-- A place that is not shared may be written at any time. -/
theorem Masked.store {p : P} (hp : ¬shared p) {f : S → S} (hf : ∀ s, intFlag (f s) = intFlag s) :
    Masked shared (store p f) := by
  refine ⟨hf, fun s q on he hq => ?_, (Quiet.store p hf).log⟩
  obtain ⟨rfl, -⟩ := Entry.touch.inj (List.mem_singleton.1 he)
  exact absurd hq hp

/-- A section keeps everything that its body touches. -/
theorem Masked.critical {m : Action S P α} (h : Quiet m) : Masked shared (critical m) := by
  refine ⟨fun s => ?_, fun s p on he _ => ?_, fun s hs => ?_⟩
  · cases hs : intFlag s with
    | false =>
      rw [next, critical_off hs]
      exact h.flag s hs
    | true =>
      rw [next, critical_on hs]
      exact intFlag_set _ _
  · cases hs : intFlag s with
    | false =>
      rw [Action.log, critical_off hs] at he
      exact h.log s hs _ he
    | true =>
      rw [Action.log, critical_on hs] at he
      simp only [List.cons_append, List.mem_cons, List.mem_append, reduceCtorEq, false_or,
        List.not_mem_nil, or_false] at he
      exact h.log _ (intFlag_set _ _) _ he
  · rw [Action.log, critical_off hs]
    exact h.log s hs

end Action

end Critical
