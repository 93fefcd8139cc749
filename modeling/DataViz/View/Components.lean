/-
# Strongly connected components, iteratively

`_components` is Tarjan's algorithm with its own stack of work: each entry is a node
and the edges of it not looked at yet. `index` numbers the nodes as they are found,
`low` is the smallest number known to be reached from a node, and the nodes whose
component is not closed wait on `stack`. A lookup that fails is `none`.
-/

import Mathlib.Algebra.Ring.Nat
import DataViz.Data.Dict

namespace DataViz.View

open List

variable {α : Type} [DecidableEq α]

/-- The state of `_components`. The top of `stack` and of `work` come first, and
`on_stack` is the set of what is on `stack`. -/
structure Tarjan (α : Type) where
  index : Dict α ℕ
  low : Dict α ℕ
  stack : List α
  component : Dict α α
  work : List (α × List α)

namespace Tarjan

/-- A node is numbered and put on the stack, and its edges are to be looked at. -/
def visit (s : Tarjan α) (v : α) (edges : List α) : Tarjan α :=
  { s with
    index := s.index.set v s.index.length
    low := s.low.set v s.index.length
    stack := v :: s.stack
    work := (v, edges) :: s.work }

/-- The nodes down to `v` are taken off the stack, into the component of `v`. -/
def popUntil (v : α) : List α → Dict α α → Option (List α × Dict α α)
  | [], _ => none
  | w :: stack, component =>
    if w = v then some (stack, component.set w v) else popUntil v stack (component.set w v)

def lower (low : Dict α ℕ) (v : α) (n : ℕ) : Option (Dict α ℕ) :=
  (low.get? v).map fun l => low.set v (min l n)

/-- The parent of a finished node learns of what it reaches. -/
def tellParent (low : Dict α ℕ) (v : α) : List (α × List α) → Option (Dict α ℕ)
  | [] => some low
  | (parent, _) :: _ => (low.get? v).bind (lower low parent)

/-- The edges of `v` are all looked at. When it reaches nothing found before it, its
component is closed. -/
def finish (s : Tarjan α) (v : α) (work : List (α × List α)) : Option (Tarjan α) := do
  let low ← tellParent s.low v work
  let least ← low.get? v
  let number ← s.index.get? v
  if least = number then
    let (stack, component) ← popUntil v s.stack s.component
    some { s with low, stack, component, work }
  else some { s with low, work }

/-- One edge, or the end of a node's edges. -/
def step (graph : Dict α (List α)) (s : Tarjan α) : Option (Tarjan α) :=
  match s.work with
  | [] => some s
  | (v, []) :: work => s.finish v work
  | (v, w :: edges) :: work =>
    let s := { s with work := (v, edges) :: work }
    match s.index.get? w with
    | none => (graph.get? w).map (s.visit w)
    | some n =>
      if w ∈ s.stack then (lower s.low v n).map fun low => { s with low } else some s

def unfound (found : List α) (graph : Dict α (List α)) : ℕ :=
  ((graph.filter fun entry => entry.1 ∉ found).map fun entry => entry.2.length + 2).sum

/-- What is left to do: the nodes not found yet, and the work. -/
def remaining (graph : Dict α (List α)) (s : Tarjan α) : ℕ :=
  unfound s.index.keys graph + (s.work.map fun entry => entry.2.length + 1).sum

theorem unfound_cons (found : List α) (entry : α × List α) (graph : Dict α (List α)) :
    unfound found (entry :: graph) =
      (if entry.1 ∈ found then 0 else entry.2.length + 2) + unfound found graph := by
  by_cases member : entry.1 ∈ found <;> simp [unfound, member]

theorem unfound_mono {found more : List α} (subset : found ⊆ more) (graph : Dict α (List α)) :
    unfound more graph ≤ unfound found graph := by
  induction graph with
  | nil => exact Nat.le_refl _
  | cons entry graph ih =>
    rw [unfound_cons, unfound_cons]
    by_cases member : entry.1 ∈ found
    · simp [member, subset member, ih]
    · split <;> omega

/-- Finding a node takes it and its edges off what is left. -/
theorem unfound_visit {found : List α} {w : α} {edges : List α} (fresh : w ∉ found)
    {graph : Dict α (List α)} (listed : graph.get? w = some edges) {more : List α}
    (visited : ∀ x, x ∈ more ↔ x ∈ found ∨ x = w) :
    unfound more graph + (edges.length + 2) ≤ unfound found graph := by
  have subset : found ⊆ more := fun x member => (visited x).mpr (.inl member)
  induction graph with
  | nil => cases listed
  | cons entry graph ih =>
    obtain ⟨k, targets⟩ := entry
    rw [unfound_cons, unfound_cons]
    by_cases same : k = w
    · subst same
      rw [Dict.get?_cons_self] at listed
      cases listed
      have rest := unfound_mono subset graph
      simp only [(visited k).mpr (.inr rfl), fresh, if_true, if_false]
      omega
    · rw [Dict.get?_cons_ne same] at listed
      have rest := ih listed
      have kept : k ∈ more ↔ k ∈ found := by simp [visited, same]
      simp only [kept]
      omega

theorem work_finish {s s' : Tarjan α} {v : α} {work : List (α × List α)}
    (finished : s.finish v work = some s') : s'.work = work ∧ s'.index = s.index := by
  simp only [finish, Option.bind_eq_bind, Option.bind_eq_some_iff] at finished
  obtain ⟨low, _, least, _, number, _, chosen⟩ := finished
  split at chosen
  · obtain ⟨popped, _, closed⟩ := Option.bind_eq_some_iff.mp chosen
    cases closed
    exact ⟨rfl, rfl⟩
  · cases chosen
    exact ⟨rfl, rfl⟩

/-- Every turn of the loop leaves less to do. -/
theorem remaining_step {graph : Dict α (List α)} {s s' : Tarjan α} (busy : s.work ≠ [])
    (stepped : s.step graph = some s') : s'.remaining graph < s.remaining graph := by
  match working : s.work with
  | [] => exact absurd working busy
  | (v, []) :: work =>
    simp only [step, working] at stepped
    obtain ⟨left, index⟩ := work_finish stepped
    simp only [remaining, working, left, index, map_cons, sum_cons]
    omega
  | (v, w :: edges) :: work =>
    simp only [step, working] at stepped
    cases known : s.index.get? w with
    | none =>
      simp only [known] at stepped
      obtain ⟨targets, listed, rfl⟩ := Option.map_eq_some_iff.mp stepped
      have keys (x : α) : x ∈ (s.index.set w s.index.length).keys ↔ x ∈ s.index.keys ∨ x = w :=
        Dict.mem_keys_set.trans or_comm
      have less := unfound_visit (Dict.get?_eq_none_iff.mp known) listed keys
      simp only [remaining, visit, working, map_cons, sum_cons, length_cons]
      omega
    | some n =>
      simp only [known] at stepped
      split at stepped
      · obtain ⟨low, _, rfl⟩ := Option.map_eq_some_iff.mp stepped
        simp only [remaining, working, map_cons, sum_cons, length_cons]
        omega
      · cases stepped
        simp only [remaining, working, map_cons, sum_cons, length_cons]
        omega

def run (graph : Dict α (List α)) (s : Tarjan α) : Option (Tarjan α) :=
  if _ : s.work ≠ [] then
    match _ : s.step graph with
    | none => none
    | some s' => run graph s'
  else some s
termination_by s.remaining graph
decreasing_by exact remaining_step ‹_› ‹_›

def fromRoots (graph : Dict α (List α)) : List α → Tarjan α → Option (Tarjan α)
  | [], s => some s
  | root :: roots, s =>
    if (s.index.get? root).isSome then fromRoots graph roots s
    else
      (graph.get? root).bind fun edges =>
        (run graph (s.visit root edges)).bind (fromRoots graph roots)

end Tarjan

def components (graph : Dict α (List α)) : Option (Dict α α) :=
  (Tarjan.fromRoots graph graph.keys ⟨[], [], [], [], []⟩).map Tarjan.component

end DataViz.View
