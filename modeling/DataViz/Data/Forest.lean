/-
# Forests as the chains above their elements

A forest tells of each element what it is under, the nearest first; what is above the
first of these is the rest. Of two elements above a third, one is above the other. The
marked elements above an element form a chain of their own, in which each but the first
is the nearest above the one before it.
-/

import Mathlib.Algebra.BigOperators.Group.Finset.Piecewise
import Mathlib.Algebra.Ring.Int.Defs

namespace DataViz

open List

universe u

/-- What is above each element, the nearest first. -/
structure Forest (α : Type u) where
  up : α → List α
  up_tail : ∀ {u p rest}, up u = p :: rest → up p = rest

namespace Forest

variable {α : Type u} (F : Forest α) {u a b : α}

def path (u : α) : List α :=
  u :: F.up u

theorem mem_path_self : u ∈ F.path u :=
  mem_cons_self

/-- An element has nothing above it, or the path of its parent. -/
theorem up_cases (u : α) : F.up u = [] ∨ ∃ p, F.up u = F.path p := by
  cases above : F.up u with
  | nil => exact .inl rfl
  | cons p rest => exact .inr ⟨p, by rw [path, F.up_tail above]⟩

theorem induct {holds : α → Prop} (root : ∀ u, F.up u = [] → holds u)
    (child : ∀ u p, F.up u = F.path p → holds p → holds u) (u : α) : holds u := by
  generalize size : (F.up u).length = n
  induction n generalizing u with
  | zero => exact root u (eq_nil_of_length_eq_zero size)
  | succ n ih =>
    obtain none | ⟨p, above⟩ := F.up_cases u
    · rw [none] at size
      cases size
    · refine child u p above (ih p ?_)
      rw [above, path, length_cons] at size
      omega

theorem path_suffix (above : a ∈ F.path u) : F.path a <:+ F.path u := by
  induction u using F.induct with
  | root u none =>
    rw [path, none, mem_singleton] at above
    rw [above]
  | child u p parent ih =>
    rw [path, parent, mem_cons] at above
    obtain rfl | above := above
    · exact suffix_rfl
    · rw [path.eq_1 F u, parent]
      exact (ih above).trans (suffix_cons _ _)

theorem mem_path_trans (first : a ∈ F.path u) (second : b ∈ F.path a) : b ∈ F.path u :=
  (F.path_suffix first).subset second

/-- An element is not above itself. -/
theorem notMem_up : u ∉ F.up u := by
  intro above
  obtain none | ⟨p, parent⟩ := F.up_cases u
  · rw [none] at above
    cases above
  · rw [parent] at above
    have longer := (F.path_suffix above).length_le
    rw [path, length_cons, parent] at longer
    omega

theorem nodup_path : (F.path u).Nodup := by
  induction u using F.induct with
  | root u none => simp [path, none]
  | child u p parent ih =>
    rw [path, parent]
    exact nodup_cons.mpr ⟨parent ▸ F.notMem_up, ih⟩

/-- Of two elements above a third, one is above the other. -/
theorem comparable (first : a ∈ F.path u) (second : b ∈ F.path u) :
    b ∈ F.path a ∨ a ∈ F.path b := by
  obtain within | within := suffix_or_suffix_of_suffix (F.path_suffix first) (F.path_suffix second)
  · exact .inr (within.subset F.mem_path_self)
  · exact .inl (within.subset F.mem_path_self)

section

variable [DecidableEq α] (marks : Finset α)

def nearest (u : α) : Option α :=
  (F.path u).find? (· ∈ marks)

def nearestAbove (u : α) : Option α :=
  (F.up u).find? (· ∈ marks)

variable {marks}

theorem nearest_of_mem (mem : u ∈ marks) : F.nearest marks u = some u := by
  rw [nearest, path, find?_cons_of_pos (by simpa using mem)]

theorem nearest_of_notMem (absent : u ∉ marks) : F.nearest marks u = F.nearestAbove marks u := by
  rw [nearest, path, find?_cons_of_neg (by simpa using absent), nearestAbove]

theorem mem_path_nearest (mem : a ∈ marks) (above : a ∈ F.path u) :
    ∃ n, F.nearest marks u = some n ∧ a ∈ F.path n := by
  induction u using F.induct with
  | root u none =>
    have same : a = u := by simpa [path, none] using above
    exact ⟨u, F.nearest_of_mem (same ▸ mem), above⟩
  | child u p parent ih =>
    by_cases marked : u ∈ marks
    · exact ⟨u, F.nearest_of_mem marked, above⟩
    · rw [path, parent] at above
      have higher := (mem_cons.mp above).resolve_left fun same => marked (same ▸ mem)
      rw [F.nearest_of_notMem marked, nearestAbove, parent]
      exact ih higher

/-- One for each element below another, and zero for the others. -/
def below (a u : α) : ℤ :=
  if a ∈ F.path u then 1 else 0

theorem below_root (none : F.up u = []) : F.below a u = if a = u then 1 else 0 := by
  simp [below, path, none]

theorem below_child {p : α} (parent : F.up u = F.path p) :
    F.below a u = (if a = u then 1 else 0) + F.below a p := by
  have apart : u ∉ F.path p := parent ▸ F.notMem_up
  simp only [below, path.eq_1 F u, parent, mem_cons]
  by_cases same : a = u
  · subst same
    simp [apart]
  · simp [same]

theorem below_eq (mem : a ∈ marks) (u : α) :
    F.below a u = (if F.nearest marks u = some a then 1 else 0) +
      ∑ b ∈ marks, if F.nearestAbove marks b = some a then F.below b u else 0 := by
  induction u using F.induct with
  | root u none =>
    have ends : F.nearestAbove marks u = .none := by rw [nearestAbove, none]; rfl
    have sum : ∑ b ∈ marks, (if F.nearestAbove marks b = some a then F.below b u else 0) = 0 := by
      refine Finset.sum_eq_zero fun b _ => ?_
      rw [F.below_root none]
      by_cases same : b = u
      · rw [same, ends, if_neg nofun]
      · rw [if_neg same, ite_self]
    rw [F.below_root none, sum]
    by_cases marked : u ∈ marks
    · simp [F.nearest_of_mem marked, eq_comm]
    · have apart : a ≠ u := fun same => marked (same ▸ mem)
      simp [F.nearest_of_notMem marked, ends, apart]
  | child u p parent ih =>
    have next : F.nearestAbove marks u = F.nearest marks p := by
      rw [nearestAbove, parent, nearest]
    have both (b : α) : (if F.nearestAbove marks b = some a then F.below b u else 0) =
        (if b = u then (if F.nearest marks p = some a then 1 else 0) else 0) +
          if F.nearestAbove marks b = some a then F.below b p else 0 := by
      rw [F.below_child parent]
      by_cases same : b = u
      · subst same
        rw [next]
        split <;> simp
      · simp [same]
    simp only [both]
    rw [Finset.sum_add_distrib, F.below_child parent, ih]
    by_cases marked : u ∈ marks
    · simp [F.nearest_of_mem marked, marked, eq_comm]
    · have apart : a ≠ u := fun same => marked (same ▸ mem)
      simp [F.nearest_of_notMem marked, next, apart, marked]

end
end Forest
end DataViz
