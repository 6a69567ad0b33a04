import Mathlib.Data.Set.Basic
import Mathlib.Tactic.SplitIfs
import Mathlib.Tactic.Cases

/-!
# Nodes reached by paths

A store of nodes links a node to at most one other under each index (`next`), such as page tables
whose entries link them, or a trie. `walk` follows a path from a root; a path lists its indices
from the last to the first, so its tail is its parent path, and an induction over paths goes from a
node to its children.

A set `D` of paths closed under parents is looked at (`ParentClosed`), as a store may be a tree
only in part. The store is a tree on `D` if no two paths of `D` reach one node (`UniquePaths`), and
`Reached` are the nodes of the tree.

Changing one link of a node that one path reaches changes what that path's child reaches, and
nothing else (`walk_set`), as long as nothing hung below that link before and nothing hangs below
it after. Linking a fresh node and unlinking a leaf are both of this form, and keep the paths
unique (`UniquePaths.set`) : a fresh node is one that no path reached. Two stores that agree on the
links of the nodes that paths of `D` reach have the same tree (`walk_congr`), so a write outside
the tree changes nothing.
-/

namespace PathTree

variable {N I : Type*}

/-- The node a path reaches from `r`, last index first. -/
def walk (next : N → I → Option N) (r : N) : List I → Option N
  | [] => some r
  | i :: p => (walk next r p).bind (next · i)

variable {next next' : N → I → Option N} {r : N} {D : Set (List I)}

@[simp] theorem walk_nil : walk next r [] = some r :=
  rfl

/-- The last step of a path. -/
theorem walk_cons (i : I) (p : List I) :
    walk next r (i :: p) = (walk next r p).bind (next · i) :=
  rfl

/-- A path beyond a node that its parent reaches. -/
theorem walk_cons_of_some {p : List I} {t : N} (h : walk next r p = some t) (i : I) :
    walk next r (i :: p) = next t i := by
  rw [walk_cons, h, Option.bind_some]

/-- A path beyond one that reaches nothing. -/
theorem walk_cons_of_none {p : List I} (h : walk next r p = none) (i : I) :
    walk next r (i :: p) = none := by
  rw [walk_cons, h, Option.bind_none]

/-- A path reaches a node only through a node its parent reaches. -/
theorem walk_cons_eq_some {p : List I} {i : I} {u : N} :
    walk next r (i :: p) = some u ↔ ∃ t, walk next r p = some t ∧ next t i = some u := by
  rw [walk_cons, Option.bind_eq_some_iff]

/-- `D` holds the parent of each of its paths. -/
def ParentClosed (D : Set (List I)) : Prop :=
  ∀ i p, i :: p ∈ D → p ∈ D

/-- No two paths of `D` reach one node. -/
def UniquePaths (next : N → I → Option N) (r : N) (D : Set (List I)) : Prop :=
  ∀ p ∈ D, ∀ q ∈ D, ∀ t, walk next r p = some t → walk next r q = some t → p = q

/-- Some path of `D` reaches `t`. -/
def Reached (next : N → I → Option N) (r : N) (D : Set (List I)) (t : N) : Prop :=
  ∃ p ∈ D, walk next r p = some t

/-- Stores that agree on the links the paths of `D` follow reach the same nodes. -/
theorem walk_congr (hD : ParentClosed D)
    (h : ∀ p t i, i :: p ∈ D → walk next r p = some t → next' t i = next t i) :
    ∀ p ∈ D, walk next' r p = walk next r p := by
  intro p
  induction p with
  | nil => intro _; rfl
  | cons i p ih =>
    intro hp
    rw [walk_cons, walk_cons, ih (hD i p hp)]
    cases hw : walk next r p with
    | none => rfl
    | some t => exact h p t i hp hw

variable [DecidableEq I]

/-- Changing the link `i₀` of the node `t₀` that only `p₀` reaches to `x` changes what
`i₀ :: p₀` reaches to `x`, and nothing else, if no path below it reached anything before
or reaches anything after. -/
theorem walk_set (hD : ParentClosed D) (hu : UniquePaths next r D) {p₀ : List I} {i₀ : I} {t₀ : N}
    {x : Option N} (hp₀ : i₀ :: p₀ ∈ D) (ht₀ : walk next r p₀ = some t₀)
    (hag : ∀ p t i, i :: p ∈ D → walk next r p = some t → ¬(t = t₀ ∧ i = i₀) →
      next' t i = next t i)
    (hx : next' t₀ i₀ = x)
    (hold : ∀ j, j :: i₀ :: p₀ ∈ D → walk next r (j :: i₀ :: p₀) = none)
    (hnew : ∀ j f, j :: i₀ :: p₀ ∈ D → x = some f → next' f j = none) :
    ∀ q ∈ D, walk next' r q = if q = i₀ :: p₀ then x else walk next r q := by
  intro q
  induction q with
  | nil => intro _; simp
  | cons i q ih =>
    intro hq
    have hqD := hD i q hq
    rw [walk_cons, ih hqD]
    by_cases hbelow : q = i₀ :: p₀
    · subst hbelow
      rw [if_pos rfl, if_neg (by simp), hold i hq]
      cases x with
      | none => rfl
      | some f => exact hnew i f hq rfl
    · rw [if_neg hbelow]
      cases hw : walk next r q with
      | none =>
        have hne : i :: q ≠ i₀ :: p₀ := by
          intro h
          obtain ⟨-, rfl⟩ := List.cons.inj h
          rw [ht₀] at hw
          cases hw
        rw [if_neg hne, walk_cons, hw]
        rfl
      | some t =>
        rw [Option.bind_some]
        by_cases hlink : t = t₀ ∧ i = i₀
        · obtain ⟨rfl, rfl⟩ := hlink
          obtain rfl := hu q hqD p₀ (hD _ _ hp₀) t hw ht₀
          rw [if_pos rfl, hx]
        · have hne : i :: q ≠ i₀ :: p₀ := by
            intro h
            obtain ⟨rfl, rfl⟩ := List.cons.inj h
            rw [ht₀, Option.some.injEq] at hw
            exact hlink ⟨hw.symm, rfl⟩
          rw [if_neg hne, walk_cons_of_some hw, hag q t i hq hw hlink]

/-- One path changed to reach a node no other path reaches, or none, leaves the paths unique. -/
theorem UniquePaths.set (hu : UniquePaths next r D) {p₀ : List I} {x : Option N}
    (hw : ∀ q ∈ D, walk next' r q = if q = p₀ then x else walk next r q)
    (hfresh : ∀ f, x = some f → ∀ q ∈ D, walk next r q ≠ some f) : UniquePaths next' r D := by
  intro p hp q hq t htp htq
  rw [hw p hp] at htp
  rw [hw q hq] at htq
  split_ifs at htp htq with h1 h2 h2
  · rw [h1, h2]
  · exact absurd htq (hfresh t htp q hq)
  · exact absurd htp (hfresh t htq p hp)
  · exact hu p hp q hq t htp htq

end PathTree
