import Mathlib.Data.List.Induction

/-!
# Runs of a labelled transition system

A labelled transition system is a relation between a state, a label and the next state. A run is a
sequence of its steps, and its trace lists the labels, first step first (`Run`). Steps are added at
the end, so that an induction over a run goes from a run to the one with one more step, as the
induction over reachable states does.

`Run.invariant` is the induction every safety result uses : a relation between the trace so far and
the state that holds at the start and is kept by each step holds at the end of every run. As the
relation sees the trace, it can say that a state is what the trace makes of the start, and not only
that it is well formed. `Run.iff_of_invariant` compares two systems whose steps agree as long as an
invariant holds : they have the same runs, so what is proved about one is known of the other.

A trace can be taken apart at any place. A run along a concatenation passes through a state between
the two parts (`Run.split`), and the label in the middle of a trace has its own step with a run
before and a run after it (`Run.at_label`). `Run.append` and `Run.cons` put runs together again,
and `Run.snoc_iff` and `Run.nil_iff` are the inversions for a run that is given by its trace.
-/

/-- `step` leads from `s` to the last argument along the trace. -/
inductive Run {S E : Type*} (step : S → E → S → Prop) (s : S) : List E → S → Prop
  | nil : Run step s [] s
  | snoc {tr : List E} {t u : S} {e : E} : Run step s tr t → step t e u → Run step s (tr ++ [e]) u

namespace Run

variable {S E : Type*} {step : S → E → S → Prop} {s t u : S} {tr tr' : List E}

/-- What holds at the start and is kept by each step holds along every run. -/
theorem invariant (Inv : List E → S → Prop) (h0 : Inv [] s)
    (hstep : ∀ tr t e u, Run step s tr t → Inv tr t → step t e u → Inv (tr ++ [e]) u)
    (h : Run step s tr t) : Inv tr t := by
  induction h with
  | nil => exact h0
  | snoc hr he ih => exact hstep _ _ _ _ hr ih he

/-- Two systems whose steps are the same as long as an invariant holds have the same runs. -/
theorem iff_of_invariant {step' : S → E → S → Prop} (Inv : S → Prop) (h0 : Inv s)
    (hiff : ∀ t e u, Inv t → (step t e u ↔ step' t e u))
    (hkeep : ∀ t e u, Inv t → step' t e u → Inv u) : Run step s tr t ↔ Run step' s tr t := by
  constructor
  · intro h
    have hrun : Run step' s tr t ∧ Inv t := by
      refine h.invariant (fun tr t => Run step' s tr t ∧ Inv t) ⟨.nil, h0⟩ ?_
      rintro tr t e u - ⟨hr, ht⟩ he
      have he' := (hiff t e u ht).1 he
      exact ⟨hr.snoc he', hkeep t e u ht he'⟩
    exact hrun.1
  · intro h
    have hrun : Run step s tr t ∧ Inv t := by
      refine h.invariant (fun tr t => Run step s tr t ∧ Inv t) ⟨.nil, h0⟩ ?_
      rintro tr t e u - ⟨hr, ht⟩ he
      exact ⟨hr.snoc ((hiff t e u ht).2 he), hkeep t e u ht he⟩
    exact hrun.1

/-- A run and one that goes on from its end. -/
theorem append (h : Run step s tr t) (h' : Run step t tr' u) : Run step s (tr ++ tr') u := by
  induction h' with
  | nil => simpa using h
  | snoc _ he ih => simpa using Run.snoc ih he

/-- A step before a run. -/
theorem cons {e : E} (he : step s e t) (h : Run step t tr u) : Run step s (e :: tr) u :=
  (nil.snoc he).append h

/-- Without a label nothing happens. -/
theorem nil_iff : Run step s [] t ↔ t = s := by
  constructor
  · generalize hl : ([] : List E) = l
    intro h
    cases h with
    | nil => rfl
    | snoc => simp at hl
  · rintro rfl
    exact .nil

/-- The last step of a run, and the run before it. -/
theorem snoc_iff {e : E} : Run step s (tr ++ [e]) u ↔ ∃ t, Run step s tr t ∧ step t e u := by
  constructor
  · generalize hl : tr ++ [e] = l
    intro h
    cases h with
    | nil => simp at hl
    | snoc hr he =>
      obtain ⟨rfl, h2⟩ := List.append_inj' hl rfl
      obtain rfl := List.singleton_inj.1 h2
      exact ⟨_, hr, he⟩
  · rintro ⟨t, hr, he⟩
    exact hr.snoc he

/-- A run along a concatenation passes through a state between the two parts. -/
theorem split : ∀ {u : S}, Run step s (tr ++ tr') u →
    ∃ t, Run step s tr t ∧ Run step t tr' u := by
  induction tr' using List.reverseRecOn with
  | nil =>
    intro u h
    exact ⟨u, by simpa using h, .nil⟩
  | append_singleton tr' e ih =>
    intro u h
    rw [← List.append_assoc, snoc_iff] at h
    obtain ⟨v, hr, he⟩ := h
    obtain ⟨t, h1, h2⟩ := ih hr
    exact ⟨t, h1, h2.snoc he⟩

/-- The step a trace takes at a label, with the runs before and after it. -/
theorem at_label {e : E} (h : Run step s (tr ++ e :: tr') u) :
    ∃ t t', Run step s tr t ∧ step t e t' ∧ Run step t' tr' u := by
  rw [← List.singleton_append, ← List.append_assoc] at h
  obtain ⟨t', h1, h2⟩ := split h
  obtain ⟨t, h3, h4⟩ := snoc_iff.1 h1
  exact ⟨t, t', h3, h4, h2⟩

end Run
