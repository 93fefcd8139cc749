/-
# Searching a graph for a node

A search keeps the nodes it has seen and those of them it has yet to look at, and stops where it
meets the node it looks for. Each node is taken once, so as many turns as there are nodes are
enough, and then it finds what there is a path to.
-/

import Mathlib.Data.List.Nodup
import Mathlib.Data.List.Perm.Subperm
import DataViz.Data.Digraph

namespace DataViz.Digraph

open List

variable {α : Type*} [DecidableEq α]

/-- The ends of a node's edges: those not seen before are, and wait; `none` where one is the node
that is looked for. -/
def look (goal : α) : List α → List α × List α → Option (List α × List α)
  | [], found => some found
  | m :: rest, (seen, stack) =>
    if m ∈ seen then look goal rest (seen, stack)
    else if m = goal then none
    else look goal rest (m :: seen, m :: stack)

/-- Whether a search finds a node, in so many turns. -/
def search (next : α → List α) (goal : α) : ℕ → List α × List α → Bool
  | 0, _ => false
  | _ + 1, (_, []) => false
  | turns + 1, (seen, v :: stack) =>
    match look goal (next v) (seen, stack) with
    | none => true
    | some found => search next goal turns found

variable {goal : α} {seen stack ends : List α}

theorem look_of_mem (mem : goal ∈ ends) (off : goal ∉ seen) :
    look goal ends (seen, stack) = none := by
  induction ends generalizing seen stack with
  | nil => cases mem
  | cons m rest ih =>
    rw [look]
    split
    next old =>
      cases mem with
      | head => exact absurd old off
      | tail _ later => exact ih later off
    next fresh =>
      split
      next => rfl
      next ne =>
        have later : goal ∈ rest := (mem_cons.mp mem).resolve_left (Ne.symm ne)
        exact ih later (not_mem_cons_of_ne_of_not_mem (Ne.symm ne) off)

/-- Where the node is not among the ends, the new ones are seen and wait. -/
theorem look_of_notMem (seen stack : List α) (off : goal ∉ ends) :
    ∃ fresh, look goal ends (seen, stack) = some (fresh ++ seen, fresh ++ stack) ∧
      fresh.Nodup ∧ ∀ x, x ∈ fresh ↔ x ∈ ends ∧ x ∉ seen := by
  induction ends generalizing seen stack with
  | nil => exact ⟨[], rfl, nodup_nil, fun x => by simp⟩
  | cons m rest ih =>
    obtain ⟨ne, off⟩ := not_or.mp (mt mem_cons.mpr off)
    rw [look]
    by_cases old : m ∈ seen
    · obtain ⟨fresh, looked, nodup, new⟩ := ih seen stack off
      refine ⟨fresh, by rw [if_pos old, looked], nodup, fun x => ?_⟩
      rw [new, mem_cons]
      exact ⟨fun ⟨here, out⟩ => ⟨.inr here, out⟩,
        fun ⟨here, out⟩ => ⟨here.resolve_left fun same => out (same ▸ old), out⟩⟩
    · obtain ⟨fresh, looked, nodup, new⟩ := ih (m :: seen) (m :: stack) off
      refine ⟨fresh ++ [m], ?_, ?_, fun x => ?_⟩
      · rw [if_neg old, if_neg (Ne.symm ne), looked]
        simp
      · have out : m ∉ fresh := fun mem => ((new m).mp mem).2 mem_cons_self
        exact nodup.append (nodup_singleton m) (disjoint_singleton.mpr out)
      · rw [mem_append, new]
        by_cases same : x = m
        · simp [same, old]
        · simp [same]

variable (next : α → List α) (start : α) (nodes : List α)

/-- What a search has seen is reached, and what it has looked at leads to what it has seen. -/
structure Searched (goal : α) (seen stack : List α) : Prop where
  nodup : seen.Nodup
  inside : seen ⊆ start :: nodes
  reached : ∀ x ∈ seen, Reach next start x
  begun : start ∈ seen
  off : goal ∉ seen
  waiting : stack ⊆ seen
  spread : ∀ x ∈ seen, x ∉ stack → next x ⊆ seen

variable {next start nodes} {v : α}

/-- A node whose ends are looked at. -/
theorem Searched.turn (searched : Searched next start nodes goal seen (v :: stack))
    (closed : ∀ v, next v ⊆ nodes) {fresh : List α} (nodup : fresh.Nodup)
    (new : ∀ x, x ∈ fresh ↔ x ∈ next v ∧ x ∉ seen) (off : goal ∉ next v) :
    Searched next start nodes goal (fresh ++ seen) (fresh ++ stack) where
  nodup := nodup.append searched.nodup fun x mem old => ((new x).mp mem).2 old
  inside := by
    intro x mem
    cases mem_append.mp mem with
    | inl mem => exact mem_cons_of_mem _ (closed v ((new x).mp mem).1)
    | inr old => exact searched.inside old
  reached := by
    intro x mem
    cases mem_append.mp mem with
    | inl mem =>
      have there := searched.reached v (searched.waiting mem_cons_self)
      exact there.trans (.of_mem ((new x).mp mem).1)
    | inr old => exact searched.reached x old
  begun := mem_append_right _ searched.begun
  off := by
    rw [mem_append, not_or]
    exact ⟨fun mem => off ((new goal).mp mem).1, searched.off⟩
  waiting := by
    intro x mem
    cases mem_append.mp mem with
    | inl mem => exact mem_append_left _ mem
    | inr old => exact mem_append_right _ (searched.waiting (mem_cons_of_mem _ old))
  spread := by
    intro x mem out w edge
    rw [mem_append, not_or] at out
    have old : x ∈ seen := (mem_append.mp mem).resolve_left out.1
    by_cases same : x = v
    · subst same
      by_cases known : w ∈ seen
      · exact mem_append_right _ known
      · exact mem_append_left _ ((new w).mpr ⟨edge, known⟩)
    · have done := searched.spread x old (not_mem_cons_of_ne_of_not_mem same out.2)
      exact mem_append_right _ (done edge)

/-- A search from a state it can be in finds the node exactly when there is a path to it. -/
theorem Searched.search_iff (closed : ∀ v, next v ⊆ nodes) {turns : ℕ}
    (searched : Searched next start nodes goal seen stack)
    (enough : nodes.length + 1 + stack.length < seen.length + turns) :
    search next goal turns (seen, stack) = true ↔ Reach next start goal := by
  have few : seen.length ≤ nodes.length + 1 :=
    (searched.nodup.subperm searched.inside).length_le
  induction turns generalizing seen stack with
  | zero => omega
  | succ turns ih =>
    cases stack with
    | nil =>
      refine iff_of_false Bool.false_ne_true fun path => searched.off ?_
      exact path.stays (fun x old => searched.spread x old not_mem_nil) searched.begun
    | cons v stack =>
      rw [search]
      by_cases mem : goal ∈ next v
      · rw [look_of_mem mem searched.off]
        have there := searched.reached v (searched.waiting mem_cons_self)
        exact iff_of_true rfl (there.trans (.of_mem mem))
      · obtain ⟨fresh, looked, nodup, new⟩ := look_of_notMem seen stack mem
        rw [looked]
        have after := searched.turn closed nodup new mem
        rw [length_cons] at enough
        refine ih after ?_ (after.nodup.subperm after.inside).length_le
        rw [length_append, length_append]
        omega

/-- A search finds a node exactly when there is a path to it. -/
theorem search_iff (closed : ∀ v, next v ⊆ nodes) (ne : goal ≠ start) {turns : ℕ}
    (enough : nodes.length + 1 < turns) :
    search next goal turns ([start], [start]) = true ↔ Reach next start goal := by
  have searched : Searched next start nodes goal [start] [start] := {
    nodup := nodup_singleton start
    inside := by simp
    reached := by
      intro x mem
      obtain rfl := mem_singleton.mp mem
      exact .refl x
    begun := mem_singleton_self start
    off := fun mem => ne (mem_singleton.mp mem)
    waiting := fun x mem => mem
    spread := fun x mem out => absurd mem out }
  exact searched.search_iff closed (by simp; omega)

end DataViz.Digraph
