import Mathlib.Data.List.Basic

/-!
# Linked lists

A linked list as the memory holds it : each node has a link to the next one, and the last node
links to `null`. `Chain next null a l` says that following `next` from `a` visits the nodes `l` and
ends at `null`. Nodes are of any type, and `next` is a function, such as the read of the first word
of a node.

The list is threaded through the nodes themselves, so a node that is overwritten while it is on the
list breaks the chain. `Chain.congr` says that nothing else does : a chain reads only the links of
its own nodes, and stays when the links of all other nodes change. A node that links to the old
head is pushed (`Chain.push`), and `Chain.cons_iff` takes the head off.

A head starts at most one chain (`Chain.unique`), so the list is determined by the memory and its
head. No node is `null` (`Chain.ne_null`) and none links to itself (`Chain.next_ne`); the list is
empty exactly if its head is `null` (`Chain.eq_nil_iff`).
-/

/-- Following `next` from the first argument visits the list and ends at `null`. -/
inductive Chain {α : Type*} (next : α → α) (null : α) : α → List α → Prop
  | nil : Chain next null null []
  | cons {a : α} {l : List α} : a ≠ null → Chain next null (next a) l → Chain next null a (a :: l)

namespace Chain

variable {α : Type*} {next next' : α → α} {null a b : α} {l l' : List α}

/-- A chain reads only the links of its own nodes. -/
theorem congr (h : Chain next null a l) (hn : ∀ x ∈ l, next' x = next x) :
    Chain next' null a l := by
  induction h with
  | nil => exact .nil
  | cons ha _ ih =>
    refine .cons ha ?_
    rw [hn _ (by simp)]
    exact ih fun x hx => hn x (by simp [hx])

/-- A head starts at most one chain. -/
theorem unique (h : Chain next null a l) (h' : Chain next null a l') : l = l' := by
  induction h generalizing l' with
  | nil =>
    cases h' with
    | nil => rfl
    | cons hne _ => exact absurd rfl hne
  | cons ha _ ih =>
    cases h' with
    | nil => exact absurd rfl ha
    | cons _ ht => rw [ih ht]

/-- The list is empty exactly if its head is `null`. -/
theorem eq_nil_iff (h : Chain next null a l) : l = [] ↔ a = null := by
  cases h with
  | nil => simp
  | cons ha _ => simp [ha]

/-- No node is `null`. -/
theorem ne_null (h : Chain next null a l) : ∀ x ∈ l, x ≠ null := by
  induction h with
  | nil => simp
  | cons ha _ ih => simpa using ⟨ha, ih⟩

/-- A non-empty chain starts at its head, and the rest follows from the head's link. -/
theorem cons_iff : Chain next null a (b :: l) ↔ a = b ∧ b ≠ null ∧ Chain next null (next b) l := by
  constructor
  · intro h
    cases h with
    | cons ha ht => exact ⟨rfl, ha, ht⟩
  · rintro ⟨rfl, hb, ht⟩
    exact .cons hb ht

/-- No node links to itself. -/
theorem next_ne (h : Chain next null a l) (ha : a ≠ null) : next a ≠ a := by
  intro hself
  cases h with
  | nil => exact ha rfl
  | @cons _ l _ ht =>
    have hlen := congrArg List.length ((Chain.cons ha ht).unique (hself ▸ ht))
    rw [List.length_cons] at hlen
    omega

/-- Pushing a node that links to the old head. -/
theorem push (h : Chain next null a l) (hb : b ≠ null) (hlink : next' b = a)
    (hn : ∀ x ∈ l, next' x = next x) : Chain next' null b (b :: l) :=
  .cons hb (hlink ▸ h.congr hn)

end Chain
