import Mathlib.Logic.Function.Iterate
import Mathlib.Order.Basic

/-!
# `while` loops

`Loop.run` is a `while` loop with a condition and a body on one state, which may take a bounded
number of tests and gives nothing when they do not suffice. A loop of the source is modelled as
such a run, with all the variables it changes in the state, and with a number of tests that a
theorem about the loop then shows to be enough.

`Loop.run_spec` is the rule for that : with an invariant that holds at the start and is kept by the
body, and a measure below the number of tests that the body makes smaller, the loop ends, in a
state of the invariant in which the condition fails. `Loop.run_first` is the special case in which
the number of rounds is known : the loop ends at the first iterate for which the condition fails.
More tests than needed do not change the result (`Loop.run_mono`), so two bounds for one loop need
not be compared.

`Loop.run_bind_map` relates the loops of two programs that do the same on different states, such as
one that carries along a record of what it has done. `Loop.run_eq_none` is the other outcome : with
an invariant under which the condition never fails, the loop does not end, whatever the number of
tests.
-/

namespace Loop

variable {S : Type*} {cond : S → Bool} {body : S → S} {fuel : ℕ} {s : S}

/-- Repeat `body` while `cond` holds, with at most `fuel` tests of `cond`. -/
def run (cond : S → Bool) (body : S → S) : ℕ → S → Option S
  | 0, _ => none
  | fuel + 1, s => if cond s then run cond body fuel (body s) else some s

/-- The test that fails ends the loop. -/
theorem run_stop (h : cond s = false) : run cond body (fuel + 1) s = some s := by
  rw [run, h]
  rfl

/-- A round of the loop uses up one test. -/
theorem run_step (h : cond s = true) :
    run cond body (fuel + 1) s = run cond body fuel (body s) := by
  rw [run, if_pos h]

/-- The rule of the loop : an invariant, and a measure below the number of tests. -/
theorem run_spec (Inv : S → Prop) (m : S → ℕ)
    (hstep : ∀ t, Inv t → cond t = true → Inv (body t) ∧ m (body t) < m t) (h0 : Inv s)
    (hfuel : m s < fuel) : ∃ t, run cond body fuel s = some t ∧ Inv t ∧ cond t = false := by
  induction fuel generalizing s with
  | zero => omega
  | succ fuel ih =>
    by_cases hc : cond s = true
    · obtain ⟨hinv, hlt⟩ := hstep s h0 hc
      rw [run_step hc]
      exact ih hinv (by omega)
    · exact ⟨s, run_stop (by simpa using hc), h0, by simpa using hc⟩

/-- A loop on states that are the images of the states of another loop, with what is made of
their ends. -/
theorem run_bind_map {S' A B : Type*} {cond' : S' → Bool} {body' : S' → S'} {g : S → Option A}
    {g' : S' → Option B} (f : S → S') (h : A → B) (hcond : ∀ t, cond' (f t) = cond t)
    (hbody : ∀ t, body' (f t) = f (body t)) (hg : ∀ t, g' (f t) = (g t).map h) :
    ∀ (fuel : ℕ) (s : S),
      (run cond' body' fuel (f s)).bind g' = ((run cond body fuel s).bind g).map h
  | 0, _ => rfl
  | fuel + 1, s => by
    rw [run, run, hcond]
    split_ifs
    · rw [hbody, run_bind_map f h hcond hbody hg fuel]
    · exact hg s

/-- More tests do not change the result. -/
theorem run_mono {t : S} {fuel' : ℕ} (h : run cond body fuel s = some t) (hle : fuel ≤ fuel') :
    run cond body fuel' s = some t := by
  induction fuel generalizing s fuel' with
  | zero => exact absurd h nofun
  | succ fuel ih =>
    obtain ⟨fuel', rfl⟩ := Nat.exists_eq_add_of_le' (Nat.le_trans (Nat.le_add_left 1 fuel) hle)
    rw [run] at h ⊢
    split_ifs at h ⊢
    · exact ih h (Nat.le_of_succ_le_succ hle)
    · exact h

/-- The loop ends where its condition fails for the first time. -/
theorem run_first {k : ℕ} (hbefore : ∀ j < k, cond (body^[j] s) = true)
    (hend : cond (body^[k] s) = false) (hfuel : k < fuel) :
    run cond body fuel s = some (body^[k] s) := by
  induction fuel generalizing k s with
  | zero => exact absurd hfuel (Nat.not_lt_zero k)
  | succ fuel ih =>
    cases k with
    | zero => exact run_stop hend
    | succ k =>
      rw [run_step (show cond s = true from hbefore 0 k.succ_pos)]
      exact ih (fun j hj => hbefore (j + 1) (Nat.succ_lt_succ hj)) hend
        (Nat.lt_of_succ_lt_succ hfuel)

/-- A loop whose condition is never false does not end. -/
theorem run_eq_none (Inv : S → Prop) (hstep : ∀ t, Inv t → cond t = true ∧ Inv (body t))
    (h0 : Inv s) : run cond body fuel s = none := by
  induction fuel generalizing s with
  | zero => rfl
  | succ fuel ih =>
    obtain ⟨hc, hinv⟩ := hstep s h0
    rw [run_step hc]
    exact ih hinv

end Loop
