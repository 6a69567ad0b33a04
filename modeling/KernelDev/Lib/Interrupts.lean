import Mathlib.Data.Set.Insert

/-!
# Programs interrupted between their steps

A `Program` reads cells of a shared state and runs tasks on it, and in the end returns a result.
The `Machine` it runs on has the cells, the tasks with what they show, and the interrupts, which
change the state. `Machine.run` runs a program with any list of interrupts before each of its
steps, and `Machine.runAlone` without any.

When does a program not notice its interrupts? Its live cells are those that the rest of it depends
on (`live`) : the cells it reads before a task sets them, and the cells those are set from. They
change from step to step and depend on the state, as what a program reads may depend on what it has
read. An interrupt that leaves the live cells as they are goes unnoticed, whatever it does to the
others. `Undisturbed` asks that of every interrupt of a run, at the moment at which it is taken,
and `run_undisturbed` is the theorem : what is to be seen of the run, its output without that of
the interrupts and its result, is what the program alone shows and returns.

A cell that is saved and restored by a handler is left as it is, and so is one that a later task
sets before it is read again; so the condition is weaker than that the cells of the program and of
the handlers be apart. Where they are apart, it holds (`ReadsOnly.undisturbed`).
-/

namespace Interrupts

/-- A program over cells `C` with values `V`, with tasks `T` and a result in `R`. -/
inductive Program (C : Type*) (V : C → Type*) (T R : Type*) where
  | ret (r : R)
  | read (c : C) (k : V c → Program C V T R)
  | task (t : T) (k : Program C V T R)

/-- The program reads cells in `P` only. -/
def Program.Reads {C T R : Type*} {V : C → Type*} (P : Set C) : Program C V T R → Prop
  | .ret _ => True
  | .read c k => c ∈ P ∧ ∀ v, (k v).Reads P
  | .task _ k => k.Reads P

/-- What programs run on : states `S`, the tasks, each with the output it shows, and the
interrupts `I`. After the task `t` the value of `c` depends on the cells `deps t c` only. -/
structure Machine (S C : Type*) (V : C → Type*) (T O I : Type*) where
  get : S → (c : C) → V c
  exec : T → S → S
  /-- The output of a task. -/
  shows : T → List O
  handle : I → S → S
  /-- The cells that a cell is set from. -/
  deps : T → C → Set C
  get_exec : ∀ {t c s s'}, (∀ d ∈ deps t c, get s d = get s' d) →
    get (exec t s) c = get (exec t s') c

namespace Machine

variable {S C T O I R : Type*} {V : C → Type*} (M : Machine S C V T O I)

/-- The interrupts `is`, one after the other. -/
def takes (is : List I) (s : S) : S :=
  is.foldl (fun s i => M.handle i s) s

/-- Run a program, with the interrupts `is n` before its step `n`. The output is what the
program shows, without what the interrupts show. -/
def run : Program C V T R → (ℕ → List I) → S → List O × R × S
  | .ret r, _, s => ([], r, s)
  | .read c k, is, s =>
    run (k (M.get (M.takes (is 0) s) c)) (fun n => is (n + 1)) (M.takes (is 0) s)
  | .task t k, is, s =>
    let rest := run k (fun n => is (n + 1)) (M.exec t (M.takes (is 0) s))
    (M.shows t ++ rest.1, rest.2)

/-- Run a program that nothing interrupts. -/
def runAlone (p : Program C V T R) (s : S) : List O × R × S :=
  M.run p (fun _ => []) s

/-- The cells that the program depends on from the state `s` on. -/
def live : Program C V T R → S → Set C
  | .ret _, _ => ∅
  | .read c k, s => insert c (live (k (M.get s c)) s)
  | .task t k, s => {d | ∃ c ∈ live k (M.exec t s), d ∈ M.deps t c}

/-- Each of the interrupts leaves the live cells as they are. -/
def Calm (p : Program C V T R) : List I → S → Prop
  | [], _ => True
  | i :: is, s => (∀ c ∈ M.live p s, M.get (M.handle i s) c = M.get s c) ∧ Calm p is (M.handle i s)

/-- Every interrupt of the run leaves the cells as they are that are live when it is taken. -/
def Undisturbed : Program C V T R → (ℕ → List I) → S → Prop
  | .ret _, _, _ => True
  | .read c k, is, s => M.Calm (.read c k) (is 0) s ∧
    Undisturbed (k (M.get (M.takes (is 0) s) c)) (fun n => is (n + 1)) (M.takes (is 0) s)
  | .task t k, is, s => M.Calm (.task t k) (is 0) s ∧
    Undisturbed k (fun n => is (n + 1)) (M.exec t (M.takes (is 0) s))

variable {M} {p : Program C V T R} {s s' : S} {is : ℕ → List I}

@[simp] theorem runAlone_ret (r : R) (s : S) : M.runAlone (.ret r) s = ([], r, s) :=
  rfl

/-- The program reads a cell. -/
@[simp] theorem runAlone_read (c : C) (k : V c → Program C V T R) (s : S) :
    M.runAlone (.read c k) s = M.runAlone (k (M.get s c)) s :=
  rfl

/-- The program runs a task. -/
@[simp] theorem runAlone_task (t : T) (k : Program C V T R) (s : S) :
    M.runAlone (.task t k) s =
      (M.shows t ++ (M.runAlone k (M.exec t s)).1, (M.runAlone k (M.exec t s)).2) :=
  rfl

theorem runAlone_silent {t : T} (k : Program C V T R) (s : S) (h : M.shows t = []) :
    M.runAlone (.task t k) s = M.runAlone k (M.exec t s) := by
  rw [runAlone_task, h, List.nil_append]

/-- One interrupt, before step `m`. -/
def once (m : ℕ) (i : I) : ℕ → List I :=
  fun n => if n = m then [i] else []

theorem once_zero_succ (i : I) : (fun n => once 0 i (n + 1)) = fun _ => [] :=
  funext fun _ => rfl

theorem run_once_read (c : C) (k : V c → Program C V T R) (s : S) (i : I) :
    M.run (.read c k) (once 0 i) s = M.runAlone (.read c k) (M.handle i s) := by
  rw [run, once_zero_succ]
  rfl

/-- What a run leaves to be seen : its output and its result. -/
def seen (x : List O × R × S) : List O × R :=
  (x.1, x.2.1)

/-! ## Live cells -/

/-- A program cannot tell two states apart that agree on its live cells. -/
theorem seen_runAlone_congr (p : Program C V T R) :
    ∀ {s s' : S}, (∀ c ∈ M.live p s, M.get s' c = M.get s c) →
      seen (M.runAlone p s') = seen (M.runAlone p s) := by
  induction p with
  | ret r => exact fun _ => rfl
  | read c k ih =>
    intro s s' h
    rw [runAlone_read, runAlone_read, h c (Set.mem_insert _ _)]
    exact ih _ fun d hd => h d (Set.mem_insert_of_mem _ hd)
  | task t k ih =>
    intro s s' h
    have hk : seen (M.runAlone k (M.exec t s')) = seen (M.runAlone k (M.exec t s)) :=
      ih fun c hc => M.get_exec fun d hd => h d ⟨c, hc, hd⟩
    obtain ⟨hshown, hret⟩ := Prod.mk.inj hk
    rw [runAlone_task, runAlone_task, seen, seen, hshown, hret]

/-- Interrupts that leave the live cells as they are. -/
theorem seen_runAlone_takes (p : Program C V T R) : ∀ (is : List I) {s : S}, M.Calm p is s →
    seen (M.runAlone p (M.takes is s)) = seen (M.runAlone p s)
  | [], _, _ => rfl
  | _ :: is, _, h => (seen_runAlone_takes p is h.2).trans (seen_runAlone_congr p h.1)

/-- An undisturbed run is to be seen as the run of the program alone. -/
theorem run_undisturbed (p : Program C V T R) : ∀ {is : ℕ → List I} {s : S},
    M.Undisturbed p is s → seen (M.run p is s) = seen (M.runAlone p s) := by
  induction p with
  | ret r => exact fun _ => rfl
  | read c k ih =>
    intro is s h
    exact (ih _ h.2).trans (seen_runAlone_takes (.read c k) (is 0) h.1)
  | task t k ih =>
    intro is s h
    obtain ⟨hshown, hret⟩ := Prod.mk.inj (ih h.2)
    rw [← seen_runAlone_takes (.task t k) (is 0) h.1, runAlone_task, run, seen, seen, hshown,
      hret]

/-- A run without interrupts is undisturbed. -/
theorem undisturbed_alone (p : Program C V T R) : ∀ s : S, M.Undisturbed p (fun _ => []) s := by
  induction p with
  | ret r => exact fun _ => trivial
  | read c k ih => exact fun s => ⟨trivial, ih _ s⟩
  | task t k ih => exact fun s => ⟨trivial, ih _⟩

/-- A run with one interrupt. -/
theorem undisturbed_once {p : Program C V T R} {s : S} {i : I}
    (h : ∀ c ∈ M.live p s, M.get (M.handle i s) c = M.get s c) : M.Undisturbed p (once 0 i) s := by
  cases p with
  | ret r => trivial
  | read c k =>
    refine ⟨⟨h, trivial⟩, ?_⟩
    rw [once_zero_succ]
    exact undisturbed_alone _ _
  | task t k =>
    refine ⟨⟨h, trivial⟩, ?_⟩
    rw [once_zero_succ]
    exact undisturbed_alone _ _

/-! ## Programs that read few cells -/

/-- The program reads cells in `P` only, and its tasks set these from each other. -/
def ReadsOnly (M : Machine S C V T O I) (P : Set C) : Program C V T R → Prop
  | .ret _ => True
  | .read c k => c ∈ P ∧ ∀ v, ReadsOnly M P (k v)
  | .task t k => (∀ c ∈ P, M.deps t c ⊆ P) ∧ ReadsOnly M P k

theorem readsOnly_of_reads {P : Set C} (hdeps : ∀ t, ∀ c ∈ P, M.deps t c ⊆ P) :
    ∀ {p : Program C V T R}, p.Reads P → ReadsOnly M P p
  | .ret _, _ => trivial
  | .read _ _, h => ⟨h.1, fun v => readsOnly_of_reads hdeps (h.2 v)⟩
  | .task t _, h => ⟨hdeps t, readsOnly_of_reads hdeps h⟩

/-- Only cells that the program may read are live. -/
theorem ReadsOnly.live_subset {P : Set C} : ∀ {p : Program C V T R} {s : S}, ReadsOnly M P p →
    M.live p s ⊆ P
  | .ret _, _, _ => Set.empty_subset _
  | .read _ _, _, h => Set.insert_subset h.1 (h.2 _).live_subset
  | .task _ _, _, h => fun _ ⟨c, hc, hd⟩ => h.1 c (h.2.live_subset hc) hd

/-- Interrupts that never touch the cells a program reads do not disturb it. -/
theorem ReadsOnly.undisturbed {P : Set C} {p : Program C V T R} (h : ReadsOnly M P p) :
    ∀ {is : ℕ → List I} {s : S},
      (∀ n, ∀ i ∈ is n, ∀ s, ∀ c ∈ P, M.get (M.handle i s) c = M.get s c) →
      M.Undisturbed p is s := by
  have hcalm : ∀ {q : Program C V T R}, ReadsOnly M P q → ∀ (is : List I) {s : S},
      (∀ i ∈ is, ∀ s, ∀ c ∈ P, M.get (M.handle i s) c = M.get s c) → M.Calm q is s := by
    intro q hq is
    induction is with
    | nil => exact fun _ => trivial
    | cons i is ih =>
      exact fun hkeep => ⟨fun c hc => hkeep i (List.mem_cons_self ..) _ c (hq.live_subset hc),
        ih fun j hj => hkeep j (List.mem_cons_of_mem _ hj)⟩
  induction p with
  | ret r =>
    intro is s hkeep
    trivial
  | read c k ih =>
    intro is s hkeep
    exact ⟨hcalm h _ (hkeep 0), ih _ (h.2 _) fun n => hkeep (n + 1)⟩
  | task t k ih =>
    intro is s hkeep
    exact ⟨hcalm h _ (hkeep 0), ih h.2 fun n => hkeep (n + 1)⟩

/-- What tasks add to a log, a program alone adds in order. -/
theorem log_runAlone (log : S → List O) (hlog : ∀ t s, log (M.exec t s) = log s ++ M.shows t)
    (p : Program C V T R) : ∀ s : S,
      log (M.runAlone p s).2.2 = log s ++ (M.runAlone p s).1 := by
  induction p with
  | ret r => exact fun s => (List.append_nil _).symm
  | read c k ih => exact fun s => ih _ s
  | task t k ih =>
    intro s
    rw [runAlone_task, ih, hlog, List.append_assoc]

end Machine

end Interrupts
