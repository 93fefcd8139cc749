/-
# Reachability in a directed graph

A graph is given by the targets of each node. Two nodes are connected when each
reaches the other; the classes of that are the strongly connected components.
-/

import Mathlib.Data.Nat.Notation
import Mathlib.Logic.Relation

namespace DataViz

namespace Digraph

variable {α : Type*} (targets : α → List α)

/-- There is a path, of any length, from one node to the other. -/
def Reach : α → α → Prop :=
  Relation.ReflTransGen fun a b => b ∈ targets a

def Connected (a b : α) : Prop :=
  Reach targets a b ∧ Reach targets b a

/-- There is a path of at most that many edges from the first node to the second. -/
def Within : ℕ → α → α → Prop
  | 0, a, b => b = a
  | edges + 1, a, b => Within edges a b ∨ ∃ c, Within edges a c ∧ b ∈ targets c

variable {targets} {a b c : α}

theorem Reach.refl (a : α) : Reach targets a a :=
  Relation.ReflTransGen.refl

theorem Reach.trans (first : Reach targets a b) (second : Reach targets b c) : Reach targets a c :=
  Relation.ReflTransGen.trans first second

theorem Reach.of_mem (edge : b ∈ targets a) : Reach targets a b :=
  Relation.ReflTransGen.single edge

/-- A set of nodes with no edge out of it keeps what it reaches. -/
theorem Reach.stays {inside : α → Prop} (closed : ∀ a, inside a → ∀ b ∈ targets a, inside b)
    (path : Reach targets a b) (start : inside a) : inside b := by
  induction path with
  | refl => exact start
  | tail _ edge ih => exact closed _ ih _ edge

theorem Reach.mono {targets' : α → List α} (subset : ∀ a, targets a ⊆ targets' a)
    (path : Reach targets a b) : Reach targets' a b := by
  induction path with
  | refl => exact .refl a
  | tail _ edge ih => exact ih.trans (.of_mem (subset _ edge))

theorem Within.refl (edges : ℕ) (a : α) : Within targets edges a a := by
  induction edges with
  | zero => exact rfl
  | succ edges ih => exact .inl ih

theorem Within.mono {edges more : ℕ} (near : Within targets edges a b) (fewer : edges ≤ more) :
    Within targets more a b := by
  induction fewer with
  | refl => exact near
  | step _ ih => exact .inl ih

/-- Where every edge of the nodes within some distance stays within it, longer paths find
nothing more. -/
theorem Within.of_closed {edges more : ℕ}
    (closed : ∀ c, Within targets edges a c → ∀ d ∈ targets c, Within targets edges a d)
    (far : Within targets more a b) : Within targets edges a b := by
  induction more generalizing b with
  | zero =>
    cases show b = a from far
    exact .refl edges a
  | succ more ih =>
    cases far with
    | inl near => exact ih near
    | inr last =>
      obtain ⟨c, near, edge⟩ := last
      exact closed c (ih near) b edge

theorem Connected.refl (a : α) : Connected targets a a :=
  ⟨.refl a, .refl a⟩

theorem Connected.symm (pair : Connected targets a b) : Connected targets b a :=
  ⟨pair.2, pair.1⟩

theorem Connected.trans (first : Connected targets a b) (second : Connected targets b c) :
    Connected targets a c :=
  ⟨first.1.trans second.1, second.2.trans first.2⟩

end Digraph

end DataViz
