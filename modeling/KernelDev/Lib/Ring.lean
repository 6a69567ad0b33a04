import Mathlib.Data.List.Basic
import Mathlib.Data.Nat.ModEq
import Mathlib.Logic.Function.Basic

/-!
# Ring buffers

A ring buffer keeps a queue in `cap` cells. The queue starts at one cell and goes on from cell to
cell around the end, so that the place of an element is its distance from the start modulo `cap`.
`Holds read cap start xs` says that the cells, read by index, hold the queue `xs` from the cell
`start` on. Cells outside the queue may hold anything, so a ring whose start is moved past its head
needs no cell to be cleared.

The three operations are then facts about `Holds`. An element is pushed by writing the first cell
behind the queue (`Holds.push`), which is no cell of the queue as long as there is room for one
more (`cell_ne`). The head is in the cell `start` (`Holds.head`), and is popped by moving the start
(`Holds.pop`). A ring and a length determine the queue (`Holds.unique`), so two descriptions of one
ring agree.
-/

namespace Ring

/-- The ring holds the queue `xs` from the cell `start` on. -/
structure Holds {α : Type*} (read : ℕ → α) (cap start : ℕ) (xs : List α) : Prop where
  start_lt : start < cap
  /-- No cell holds two elements. -/
  length_le : xs.length ≤ cap
  /-- An element lies at its distance from the start, around the end. -/
  cells : ∀ i x, xs[i]? = some x → read ((start + i) % cap) = x

variable {α : Type*} {read read' : ℕ → α} {cap start : ℕ} {xs ys : List α} {x : α}

/-- Different places of the ring are different cells. -/
theorem cell_ne {i j : ℕ} (hi : i < cap) (hj : j < cap) (h : i ≠ j) :
    (start + i) % cap ≠ (start + j) % cap := fun heq => by
  have hmod : i ≡ j [MOD cap] := Nat.ModEq.add_left_cancel' start heq
  exact h (Nat.ModEq.eq_of_lt_of_lt hmod hi hj)

namespace Holds

/-- The empty queue is held anywhere. -/
theorem nil (h : start < cap) : Holds read cap start [] :=
  ⟨h, Nat.zero_le _, by simp⟩

/-- A ring holds one queue of a length from a cell. -/
theorem unique (h : Holds read cap start xs) (h' : Holds read cap start ys)
    (hlen : xs.length = ys.length) : xs = ys := by
  refine List.ext_getElem hlen fun i hi hi' => ?_
  rw [← h.cells i xs[i] (List.getElem?_eq_getElem hi),
    ← h'.cells i ys[i] (List.getElem?_eq_getElem hi')]

/-- Writing the cell after the queue pushes an element. -/
theorem push (h : Holds read cap start xs) (hlt : xs.length < cap)
    (hx : read' ((start + xs.length) % cap) = x)
    (hr : ∀ i < cap, i ≠ (start + xs.length) % cap → read' i = read i) :
    Holds read' cap start (xs ++ [x]) := by
  refine ⟨h.start_lt, by rwa [List.length_append, List.length_singleton], fun i y hy => ?_⟩
  rcases Nat.lt_trichotomy i xs.length with hi | rfl | hi
  · rw [List.getElem?_append_left hi] at hy
    rw [hr _ (Nat.mod_lt _ (by omega)) (cell_ne (by omega) hlt (by omega))]
    exact h.cells i y hy
  · rw [List.getElem?_append_right (Nat.le_refl _)] at hy
    simpa using hx.trans (by simpa using hy)
  · rw [List.getElem?_eq_none (by rwa [List.length_append, List.length_singleton])] at hy
    cases hy

/-- The queue's head is in its first cell. -/
theorem head (h : Holds read cap start (x :: xs)) : read start = x := by
  have hcell := h.cells 0 x rfl
  rwa [Nat.add_zero, Nat.mod_eq_of_lt h.start_lt] at hcell

/-- Moving the start past the head pops it. -/
theorem pop (h : Holds read cap start (x :: xs)) : Holds read cap ((start + 1) % cap) xs := by
  have hlen := h.length_le
  have hpos := h.start_lt
  rw [List.length_cons] at hlen
  refine ⟨Nat.mod_lt _ (by omega), by omega, fun i y hy => ?_⟩
  have hcell := h.cells (i + 1) y hy
  rwa [Nat.mod_add_mod, Nat.add_assoc, Nat.add_comm 1 i]

end Holds

end Ring
