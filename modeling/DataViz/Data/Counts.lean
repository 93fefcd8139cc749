/-
# Counts under keys

A dictionary of counts. What is added under a key adds up, whatever is added in between.
-/

import Mathlib.Algebra.Ring.Nat
import DataViz.Data.Dict
import Mathlib.Algebra.BigOperators.Group.List.Basic

namespace DataViz.Dict

open List

universe u

variable {κ : Type u} [DecidableEq κ]

def amount (counts : Dict κ ℕ) (key : κ) : ℕ :=
  (counts.get? key).getD 0

def addAt (counts : Dict κ ℕ) (key : κ) (n : ℕ) : Dict κ ℕ :=
  counts.set key (counts.amount key + n)

def addAll (counts : Dict κ ℕ) (more : List (κ × ℕ)) : Dict κ ℕ :=
  more.foldl (fun counts entry => counts.addAt entry.1 entry.2) counts

def sumAt (more : List (κ × ℕ)) (key : κ) : ℕ :=
  (more.map fun entry => if entry.1 = key then entry.2 else 0).sum

variable {counts : Dict κ ℕ} {more : List (κ × ℕ)}

theorem amount_addAt (counts : Dict κ ℕ) (key other : κ) (n : ℕ) :
    (counts.addAt key n).amount other = counts.amount other + if key = other then n else 0 := by
  rw [addAt, amount, get?_set]
  split
  · next same => rw [same, Option.getD_some]
  · rfl

theorem amount_addAll (counts : Dict κ ℕ) (more : List (κ × ℕ)) (key : κ) :
    (counts.addAll more).amount key = counts.amount key + sumAt more key := by
  induction more generalizing counts with
  | nil => rfl
  | cons entry more ih =>
    rw [addAll, foldl_cons, ← addAll, ih, amount_addAt, sumAt, sumAt, map_cons,
      sum_cons, Nat.add_assoc]

theorem nodup_addAll (once : counts.keys.Nodup) : (counts.addAll more).keys.Nodup := by
  induction more generalizing counts with
  | nil => exact once
  | cons entry more ih => exact ih (nodup_keys_set once _ _)

theorem sumAt_of_notMem {key : κ} (absent : key ∉ more.map Prod.fst) : sumAt more key = 0 := by
  refine sum_eq_zero ?_
  intro n mem
  obtain ⟨entry, memEntry, rfl⟩ := mem_map.mp mem
  exact if_neg fun same => absent (mem_map.mpr ⟨entry, memEntry, same⟩)

theorem sumAt_append (first second : List (κ × ℕ)) (key : κ) :
    sumAt (first ++ second) key = sumAt first key + sumAt second key := by
  rw [sumAt, map_append, sum_append, ← sumAt, ← sumAt]

/-- The same count for each element: that of the one with the key is added. -/
theorem sumAt_map_of_nodup {α : Type u} [DecidableEq α] {list : List α} (once : list.Nodup)
    (key : α → κ) {a : α} (apart : ∀ b ∈ list, key b = key a → b = a) (n : ℕ) :
    sumAt (list.map fun b => (key b, n)) (key a) = if a ∈ list then n else 0 := by
  induction list with
  | nil => rfl
  | cons b list ih =>
    obtain ⟨fresh, once⟩ := nodup_cons.mp once
    rw [map_cons, sumAt, map_cons, sum_cons, ← sumAt,
      ih once fun other mem => apart other (mem_cons_of_mem _ mem)]
    by_cases same : key b = key a
    · obtain rfl := apart b mem_cons_self same
      rw [if_pos rfl, if_neg fresh, if_pos mem_cons_self, Nat.add_zero]
    · have other : a ≠ b := fun eq => same (eq ▸ rfl)
      simp [same, other]

/-- A dictionary adds what it counts. -/
theorem sumAt_eq_amount (once : counts.keys.Nodup) (key : κ) :
    sumAt counts key = counts.amount key := by
  induction counts with
  | nil => rfl
  | cons entry counts ih =>
    obtain ⟨other, n⟩ := entry
    obtain ⟨fresh, rest⟩ := nodup_cons.mp once
    rw [sumAt, map_cons, sum_cons, ← sumAt, amount, get?_cons]
    by_cases same : other = key
    · subst same
      rw [if_pos rfl, if_pos rfl, sumAt_of_notMem fresh, Option.getD_some, Nat.add_zero]
    · rw [if_neg same, if_neg same, Nat.zero_add, ih rest, amount]

end DataViz.Dict
