import Mathlib.Data.Set.Insert
import Mathlib.Data.List.Infix

/-!
# Caches that fill on their own

A cache holds pairs of a key and an entry, such as the page of an address and where it is mapped.
It is a set of such pairs and not a function, so that nothing keeps it from having two entries for
one key. At any time it may take up the entry that `walk` finds in memory for a key, or lose
entries. An event changes memory and drops the pairs of the keys it flushes. `Runs` are the ways
from one memory and cache to others : a list of events, with any number of fills and evictions
before, between and behind them.

The cache is coherent on a set of keys if its entries there are those that `walk` finds
(`CoherentOn`). A write to memory makes it incoherent on the keys whose walk changes, if they had
an entry, and a flush makes it coherent on the keys it drops. Fills and evictions keep it coherent
(`CoherentOn.insert`, `CoherentOn.subset`).

`Keeps` is a Hoare triple for lists of events : from a cache coherent on the first set they lead to
one coherent on the second, whatever the cache does between them. Lists are put together with
`Keeps.append`, and one event is judged by `keeps_event`. For events that never change what the
walk finds there is nothing to check (`keeps_of_walk_eq`). `runs_fill` is for the other direction :
any cache may end up with exactly the one pair that shows an incoherence.
-/

namespace Cache

variable {M K E Ev : Type*}

/-- Memory after the events. -/
def replay (run : Ev → M → M) (m : M) (es : List Ev) : M :=
  es.foldl (fun m e => run e m) m

/-- The events lead from the first memory and cache to the second. -/
inductive Runs (run : Ev → M → M) (flush : Ev → Set K) (walk : M → K → Option E) :
    M → Set (K × E) → List Ev → M → Set (K × E) → Prop
  | done (m : M) (c : Set (K × E)) : Runs run flush walk m c [] m c
  | fill {m m' : M} {c c' : Set (K × E)} {es : List Ev} {k : K} {x : E} : walk m k = some x →
    Runs run flush walk m (insert (k, x) c) es m' c' → Runs run flush walk m c es m' c'
  | evict {m m' : M} {c c₁ c' : Set (K × E)} {es : List Ev} : c₁ ⊆ c →
    Runs run flush walk m c₁ es m' c' → Runs run flush walk m c es m' c'
  | event {m m' : M} {c c' : Set (K × E)} {e : Ev} {es : List Ev} :
    Runs run flush walk (run e m) {y ∈ c | y.1 ∉ flush e} es m' c' →
    Runs run flush walk m c (e :: es) m' c'

/-- The entries of the keys of `D` are those in memory. -/
def CoherentOn (walk : M → K → Option E) (D : Set K) (m : M) (c : Set (K × E)) : Prop :=
  ∀ k ∈ D, ∀ x, (k, x) ∈ c → walk m k = some x

/-- From `m` the events lead from a cache coherent on `D` to one coherent on `D'`. -/
def Keeps (run : Ev → M → M) (flush : Ev → Set K) (walk : M → K → Option E) (D D' : Set K) (m : M)
    (es : List Ev) : Prop :=
  ∀ c m' c', Runs run flush walk m c es m' c' → CoherentOn walk D m c →
    m' = replay run m es ∧ CoherentOn walk D' m' c'

variable {run : Ev → M → M} {flush : Ev → Set K} {walk : M → K → Option E} {D D₁ D' : Set K}
  {m m' : M} {c c' : Set (K × E)} {e : Ev} {es es' : List Ev}

/-- Memory after two lists of events. -/
theorem replay_append (m : M) (es es' : List Ev) :
    replay run m (es ++ es') = replay run (replay run m es) es' :=
  List.foldl_append

/-- A cache that takes up an entry stays coherent. -/
theorem CoherentOn.insert (h : CoherentOn walk D m c) {k : K} {x : E} (hx : walk m k = some x) :
    CoherentOn walk D m (insert (k, x) c) := by
  rintro k' hk' y (heq | hy)
  · obtain ⟨rfl, rfl⟩ := Prod.mk.inj heq
    exact hx
  · exact h k' hk' y hy

/-- A cache that loses entries stays coherent. -/
theorem CoherentOn.subset {c₁ : Set (K × E)} (h : CoherentOn walk D m c) (hc : c₁ ⊆ c) :
    CoherentOn walk D m c₁ :=
  fun k hk x hx => h k hk x (hc hx)

/-- A run of two lists of events passes through a state between them. -/
theorem Runs.split (h : Runs run flush walk m c (es ++ es') m' c') :
    ∃ m₁ c₁, Runs run flush walk m c es m₁ c₁ ∧ Runs run flush walk m₁ c₁ es' m' c' := by
  generalize hl : es ++ es' = l at h
  induction h generalizing es with
  | done m c =>
    obtain ⟨rfl, rfl⟩ := List.append_eq_nil_iff.1 hl
    exact ⟨m, c, .done m c, .done m c⟩
  | fill hx _ ih =>
    obtain ⟨m₁, c₁, h₁, h₂⟩ := ih hl
    exact ⟨m₁, c₁, .fill hx h₁, h₂⟩
  | evict hc _ ih =>
    obtain ⟨m₁, c₁, h₁, h₂⟩ := ih hl
    exact ⟨m₁, c₁, .evict hc h₁, h₂⟩
  | @event m m' c c' e l hrun ih =>
    cases es with
    | nil =>
      obtain rfl : es' = e :: l := hl
      exact ⟨m, c, .done m c, .event hrun⟩
    | cons a es =>
      obtain ⟨rfl, htail⟩ := List.cons.inj hl
      obtain ⟨m₁, c₁, h₁, h₂⟩ := ih htail
      exact ⟨m₁, c₁, .event h₁, h₂⟩

/-- Without events a coherent cache stays coherent. -/
theorem keeps_nil : Keeps run flush walk D D m [] := by
  intro c m' c' h hc
  generalize hl : ([] : List Ev) = l at h
  induction h with
  | done => exact ⟨rfl, hc⟩
  | fill hx _ ih => exact ih (hc.insert hx) hl
  | evict hsub _ ih => exact ih (hc.subset hsub) hl
  | event => cases hl

/-- One event : a key is flushed, or it was coherent and had no entry or keeps its entry. -/
theorem keeps_event (h : ∀ k ∈ D', k ∈ flush e ∨ k ∈ D ∧
    (walk m k = none ∨ walk (run e m) k = walk m k)) : Keeps run flush walk D D' m [e] := by
  intro c m' c' hrun hc
  generalize hl : [e] = l at hrun
  induction hrun with
  | done => cases hl
  | fill hx _ ih => exact ih h (hc.insert hx) hl
  | evict hsub _ ih => exact ih h (hc.subset hsub) hl
  | @event m m' c c' e' l hrun =>
    obtain ⟨rfl, rfl⟩ := List.cons.inj hl
    have hflushed : CoherentOn walk D' (run e m) {y ∈ c | y.1 ∉ flush e} := by
      rintro k hk x ⟨hx, hnot⟩
      obtain ⟨hD, hnone | hsame⟩ := (h k hk).resolve_left hnot
      · rw [hc k hD x hx] at hnone
        cases hnone
      · rw [hsame]
        exact hc k hD x hx
    exact keeps_nil _ _ _ hrun hflushed

/-- The rule of sequences. -/
theorem Keeps.append (h : Keeps run flush walk D D₁ m es)
    (h' : Keeps run flush walk D₁ D' (replay run m es) es') :
    Keeps run flush walk D D' m (es ++ es') := by
  intro c m' c' hrun hc
  obtain ⟨m₁, c₁, h₁, h₂⟩ := hrun.split
  obtain ⟨rfl, hc₁⟩ := h c m₁ c₁ h₁ hc
  rw [replay_append]
  exact h' c₁ m' c' h₂ hc₁

/-- Events that never change what the walk finds. -/
theorem keeps_of_walk_eq : ∀ {es : List Ev} {m : M},
    (∀ pre, pre <+: es → ∀ k ∈ D, walk (replay run m pre) k = walk m k) →
    Keeps run flush walk D D m es
  | [], _, _ => keeps_nil
  | e :: es, m, h => by
    have hfirst (k : K) (hk : k ∈ D) : walk (run e m) k = walk m k :=
      h [e] (List.prefix_append [e] es) k hk
    have hhead : Keeps run flush walk D D m [e] :=
      keeps_event fun k hk => .inr ⟨hk, .inr (hfirst k hk)⟩
    refine hhead.append (keeps_of_walk_eq fun pre hpre k hk => ?_)
    exact (h (e :: pre) (List.cons_prefix_cons.2 ⟨rfl, hpre⟩) k hk).trans (hfirst k hk).symm

/-- An empty cache that takes up nothing goes through any events. -/
theorem runs_empty : ∀ (es : List Ev) (m : M), Runs run flush walk m ∅ es (replay run m es) ∅
  | [], m => .done m ∅
  | e :: es, m => .event (by rw [Set.sep_empty]; exact runs_empty es (run e m))

theorem Runs.append {m₁ : M} {c₁ : Set (K × E)} (h : Runs run flush walk m c es m₁ c₁)
    (h' : Runs run flush walk m₁ c₁ es' m' c') : Runs run flush walk m c (es ++ es') m' c' := by
  induction h with
  | done => exact h'
  | fill hx _ ih => exact .fill hx (ih h')
  | evict hsub _ ih => exact .evict hsub (ih h')
  | event _ ih => exact .event (ih h')

/-- Any cache may hold after any events what the walk then finds for one key, and no more. -/
theorem runs_fill (k : K) (es : List Ev) (m : M) (c : Set (K × E)) :
    Runs run flush walk m c es (replay run m es)
      {y | y.1 = k ∧ walk (replay run m es) k = some y.2} := by
  have hempty : Runs run flush walk m c es (replay run m es) ∅ :=
    .evict (Set.empty_subset c) (runs_empty es m)
  rw [← List.append_nil es]
  refine hempty.append ?_
  rw [List.append_nil]
  cases hx : walk (replay run m es) k with
  | none =>
    have hnone : {y : K × E | y.1 = k ∧ (none : Option E) = some y.2} = ∅ := by
      ext y
      simp
    rw [hnone]
    exact .done _ _
  | some x =>
    have hsome : {y : K × E | y.1 = k ∧ some x = some y.2} = insert (k, x) ∅ := by
      ext ⟨k', x'⟩
      simp [eq_comm]
    rw [hsome]
    exact .fill hx (.done _ _)

end Cache
