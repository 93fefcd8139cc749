/-
# Caches bounded by what they hold

A cache keeps its entries from the longest unused to the last used, and a running total of their
sizes. Putting one in drops the first ones while the total is past the limit, the newest apart. The
total is kept by adding and taking away, so that it is the sum is an invariant. The limit is read
each time one is put in.
-/

import Mathlib.Algebra.BigOperators.Group.List.Basic
import Mathlib.Algebra.Order.Ring.Int
import DataViz.Data.Dict

namespace DataViz

open List

universe u v

variable {κ : Type u} {ι : Type v}

structure SizedCache (κ : Type u) (ι : Type v) where
  items : Dict κ ι := []
  held : ℤ := 0

namespace SizedCache

section

variable (size : ι → ℕ)

def total (items : Dict κ ι) : ℤ :=
  (items.map fun entry => (size entry.2 : ℤ)).sum

/-- Entries dropped from the front while the total is past the limit, the last apart. -/
def evict (limit : ℤ) : Dict κ ι → ℤ → SizedCache κ ι
  | first :: second :: rest, held =>
    if limit < held then evict limit (second :: rest) (held - size first.2)
    else { items := first :: second :: rest, held }
  | items, held => { items, held }

variable [DecidableEq κ]

/-- An entry is used: it is the last now. -/
def use (cache : SizedCache κ ι) (key : κ) : SizedCache κ ι :=
  match cache.items.get? key with
  | none => cache
  | some index => { cache with items := cache.items.pop key ++ [(key, index)] }

def put (cache : SizedCache κ ι) (limit : ℤ) (key : κ) (index : ι) : SizedCache κ ι :=
  let freed : ℤ := match cache.items.get? key with
    | none => 0
    | some old => size old
  evict size limit (cache.items.pop key ++ [(key, index)]) (cache.held - freed + size index)

/-- The caches that uses, puts and clearing reach, with the limit that was read last. -/
inductive Reach : SizedCache κ ι → ℤ → Prop
  | empty (limit : ℤ) : Reach {} limit
  | use {cache : SizedCache κ ι} {limit : ℤ} (key : κ) : Reach cache limit →
      Reach (cache.use key) limit
  | put {cache : SizedCache κ ι} {limit : ℤ} (next : ℤ) (key : κ) (index : ι) :
      Reach cache limit → Reach (cache.put size next key index) next
  | clear {cache : SizedCache κ ι} {limit : ℤ} : Reach cache limit → Reach {} limit

/-- The total is what is held, which is within the limit or one entry. -/
structure Kept (cache : SizedCache κ ι) (limit : ℤ) : Prop where
  distinct : cache.items.keys.Nodup
  held_eq : cache.held = total size cache.items
  bounded : cache.held ≤ limit ∨ cache.items.length ≤ 1

end

variable {size : ι → ℕ} {items : Dict κ ι}

theorem total_append (front back : Dict κ ι) :
    total size (front ++ back) = total size front + total size back := by
  rw [total, map_append, sum_append]
  rfl

theorem total_cons (entry : κ × ι) (rest : Dict κ ι) :
    total size (entry :: rest) = size entry.2 + total size rest := by
  rfl

theorem evict_spec (limit : ℤ) (items : Dict κ ι) (held : ℤ) (sum : held = total size items) :
    (evict size limit items held).items <:+ items ∧
      (evict size limit items held).held = total size (evict size limit items held).items ∧
      ((evict size limit items held).held ≤ limit ∨
        (evict size limit items held).items.length ≤ 1) := by
  induction items generalizing held with
  | nil => exact ⟨suffix_refl _, sum, .inr (Nat.zero_le _)⟩
  | cons first rest ih =>
    cases rest with
    | nil => exact ⟨suffix_refl _, sum, .inr (Nat.le_refl _)⟩
    | cons second rest =>
      rw [evict]
      split
      · have less : held - size first.2 = total size (second :: rest) := by
          rw [sum, total_cons]
          omega
        obtain ⟨part, same, bounded⟩ := ih (held - size first.2) less
        exact ⟨part.trans (suffix_cons _ _), same, bounded⟩
      · next within => exact ⟨suffix_refl _, sum, .inl (Int.not_lt.mp within)⟩

variable [DecidableEq κ]

/-- What is taken out is taken off the total. -/
theorem total_pop (distinct : items.keys.Nodup) {key : κ} {index : ι}
    (here : items.get? key = some index) :
    total size (items.pop key) = total size items - size index := by
  induction items with
  | nil => cases here
  | cons entry rest ih =>
    obtain ⟨fresh, others⟩ := nodup_cons.mp distinct
    rw [Dict.get?_cons] at here
    rw [total_cons, Dict.pop, filter_cons]
    by_cases same : entry.1 = key
    · rw [if_pos same] at here
      subst same
      obtain rfl := Option.some.inj here
      have stay : rest.filter (fun other => other.1 ≠ entry.1) = rest := by
        rw [filter_eq_self]
        intro other mem
        exact decide_eq_true fun same => fresh (same ▸ mem_map_of_mem mem)
      rw [if_neg (by simp), stay]
      omega
    · rw [if_neg same] at here
      rw [if_pos (decide_eq_true same), total_cons]
      have less := ih others here
      rw [Dict.pop] at less
      omega

theorem nodup_keys_pop_append (distinct : items.keys.Nodup) (key : κ) (index : ι) :
    Dict.keys (items.pop key ++ [(key, index)]) |>.Nodup := by
  rw [Dict.keys, map_append]
  refine Nodup.append ?_ (nodup_singleton _) ?_
  · exact ((filter_sublist).map Prod.fst).nodup distinct
  · intro other mem last
    rw [map_singleton, mem_singleton] at last
    obtain ⟨entry, listed, same⟩ := mem_map.mp mem
    exact of_decide_eq_true (mem_filter.mp listed).2 (same.trans last)

theorem length_pop_lt {key : κ} {index : ι} (here : items.get? key = some index) :
    (items.pop key).length < items.length := by
  rw [Dict.pop, length_filter_lt_length_iff_exists]
  exact ⟨(key, index), Dict.mem_of_get? here, by simp⟩

/-- An entry at the end, in place of the one there was under its key. -/
theorem total_pop_append (size : ι → ℕ) (distinct : items.keys.Nodup) (key : κ) (index : ι) :
    total size (items.pop key ++ [(key, index)]) = total size items - (match items.get? key with
        | none => 0
        | some old => (size old : ℤ)) + size index := by
  have last : total size [(key, index)] = size index := by
    exact Int.add_zero _
  rw [total_append, last]
  cases here : items.get? key with
  | none => rw [Dict.pop_of_get?_eq_none here, Int.sub_zero]
  | some old => rw [total_pop distinct here]

variable {cache : SizedCache κ ι} {limit : ℤ}

theorem Kept.use (kept : Kept size cache limit) (key : κ) : Kept size (cache.use key) limit := by
  rw [SizedCache.use]
  cases here : cache.items.get? key with
  | none => exact kept
  | some index =>
    have sum := total_pop_append size kept.distinct key index
    rw [here, Int.sub_add_cancel] at sum
    refine ⟨nodup_keys_pop_append kept.distinct key index, kept.held_eq.trans sum.symm, ?_⟩
    refine kept.bounded.imp_right fun few => ?_
    have fewer := length_pop_lt here
    rw [length_append, length_singleton]
    omega

theorem Kept.put (kept : Kept size cache limit) (next : ℤ) (key : κ) (index : ι) :
    Kept size (cache.put size next key index) next := by
  have sum := total_pop_append size kept.distinct key index
  rw [← kept.held_eq] at sum
  obtain ⟨part, same, bounded⟩ := evict_spec next _ _ sum.symm
  exact ⟨(part.sublist.map Prod.fst).nodup (nodup_keys_pop_append kept.distinct key index),
    same, bounded⟩

theorem Reach.kept (reach : Reach size cache limit) : Kept size cache limit := by
  induction reach with
  | empty limit => exact ⟨nodup_nil, rfl, .inr (Nat.zero_le _)⟩
  | use key _ ih => exact ih.use key
  | put next key index _ ih => exact ih.put next key index
  | clear _ _ => exact ⟨nodup_nil, rfl, .inr (Nat.zero_le _)⟩

end SizedCache

end DataViz
