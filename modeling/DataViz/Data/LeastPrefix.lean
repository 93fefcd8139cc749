/-
# The least prefix that is enough

Work that takes items from the front until their weights reach a target takes the least prefix that
does: it reaches the target or is everything there is, and before each of its items it fell short.
-/

import Mathlib.Algebra.BigOperators.Group.List.Basic
import Mathlib.Algebra.Order.Group.Defs

namespace DataViz

variable {α M : Type*} [AddCommGroup M] [LinearOrder M] {weight : α → M}

/-- `taken` is what taking from the front of `items` until `target` is reached takes. -/
structure LeastPrefix (weight : α → M) (items : List α) (target : M) (taken : List α) : Prop where
  isPrefix : taken <+: items
  enough : target ≤ (taken.map weight).sum ∨ taken = items
  needed : ∀ front item rest, taken = front ++ item :: rest → (front.map weight).sum < target

namespace LeastPrefix

theorem of_reached (items : List α) {target : M} (reached : target ≤ 0) :
    LeastPrefix weight items target [] where
  isPrefix := List.nil_prefix
  enough := .inl (by simpa using reached)
  needed front item rest taken := absurd taken.symm (by simp)

theorem of_empty (target : M) : LeastPrefix weight [] target [] where
  isPrefix := List.nil_prefix
  enough := .inr rfl
  needed front item rest taken := absurd taken.symm (by simp)

theorem cons [IsOrderedAddMonoid M] {item : α} {items taken : List α} {target : M}
    (missing : 0 < target)
    (rest : LeastPrefix weight items (target - weight item) taken) :
    LeastPrefix weight (item :: items) target (item :: taken) where
  isPrefix := List.cons_prefix_cons.2 ⟨rfl, rest.isPrefix⟩
  enough := by
    rcases rest.enough with reached | everything
    · left
      exact sub_le_iff_le_add'.1 reached
    · exact .inr (by rw [everything])
  needed front other after same := by
    cases front with
    | nil => simpa using missing
    | cons first front =>
      rw [List.cons_append, List.cons.injEq] at same
      obtain ⟨rfl, same⟩ := same
      exact lt_sub_iff_add_lt'.1 (rest.needed front other after same)

theorem eq_nil_of_reached {items taken : List α} {target : M}
    (least : LeastPrefix weight items target taken) (reached : target ≤ 0) : taken = [] := by
  cases taken with
  | nil => rfl
  | cons item rest =>
    have short := least.needed [] item rest rfl
    exact absurd reached (not_le.2 short)

end LeastPrefix

end DataViz
