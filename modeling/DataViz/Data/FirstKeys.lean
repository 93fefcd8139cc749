/-
# Dictionaries of first values

`setdefault` keeps the first value of a key. A dictionary filled with it has the keys in the order
in which they first come, each with the value it first comes with.
-/

import DataViz.Data.Dict

namespace DataViz.Dict

open List Option

universe u v

section

variable {κ : Type u} {ν : Type v} [DecidableEq κ]

def setdefault (d : Dict κ ν) (key : κ) (value : ν) : Dict κ ν :=
  if key ∈ d.keys then d else d.set key value

def firsts (pairs : List (κ × ν)) : Dict κ ν :=
  pairs.foldl (fun d pair => d.setdefault pair.1 pair.2) []

variable {d : Dict κ ν} {key : κ} {value : ν} {pairs more : List (κ × ν)}

theorem keys_setdefault :
    (d.setdefault key value).keys = if key ∈ d.keys then d.keys else d.keys ++ [key] := by
  rw [setdefault]
  split
  · rfl
  · next fresh =>
      rw [set_of_notMem fresh, keys, map_append]
      rfl

theorem get?_setdefault (other : κ) : (d.setdefault key value).get? other =
    (d.get? other).or (if key = other then some value else none) := by
  rw [setdefault]
  split
  · next bound =>
      by_cases same : key = other
      · subst same
        obtain ⟨held, found⟩ := isSome_iff_exists.mp (mem_keys_iff.mp bound)
        rw [found, some_or]
      · rw [if_neg same, or_none]
  · next fresh =>
      rw [get?_set]
      by_cases same : key = other
      · subst same
        rw [if_pos rfl, if_pos rfl, get?_eq_none_iff.mpr fresh, none_or]
      · rw [if_neg same, if_neg same, or_none]

/-- What was bound before stays, and of what comes the first value. -/
theorem get?_foldl_setdefault (pairs : List (κ × ν)) (d : Dict κ ν) :
    get? (pairs.foldl (fun d pair => d.setdefault pair.1 pair.2) d) key =
      (d.get? key).or (get? pairs key) := by
  induction pairs generalizing d with
  | nil => rw [foldl_nil, get?_nil, or_none]
  | cons pair rest ih =>
    rw [foldl_cons, ih, get?_setdefault, Option.or_assoc, get?_cons]
    split <;> rfl

theorem get?_firsts : (firsts pairs).get? key = get? pairs key :=
  (get?_foldl_setdefault pairs []).trans (none_or)

theorem firsts_concat (front : List (κ × ν)) (pair : κ × ν) :
    firsts (front ++ [pair]) = (firsts front).setdefault pair.1 pair.2 :=
  foldl_append

theorem keys_foldl_setdefault (pairs : List (κ × ν)) (d : Dict κ ν) :
    keys (pairs.foldl (fun d pair => d.setdefault pair.1 pair.2) d) =
      d.keys ++ (firsts pairs).keys.filter (· ∉ d.keys) := by
  induction pairs using reverseRecOn with
  | nil => exact (append_nil _).symm
  | append_singleton front pair ih =>
    rw [foldl_append, foldl_cons, foldl_nil, keys_setdefault, ih, firsts_concat, keys_setdefault]
    by_cases old : pair.1 ∈ d.keys
    · rw [if_pos (mem_append_left _ old)]
      split
      · rfl
      · rw [filter_append, filter_singleton, decide_eq_false (not_not_intro old)]
        exact congrArg _ (append_nil _).symm
    · by_cases seen : pair.1 ∈ (firsts front).keys
      · rw [if_pos seen, if_pos]
        exact mem_append_right _ (mem_filter.mpr ⟨seen, decide_eq_true old⟩)
      · rw [if_neg seen, if_neg, filter_append, filter_singleton, decide_eq_true old, append_assoc]
        · rfl
        · rw [mem_append, mem_filter]
          exact not_or_intro old fun here => seen here.1

theorem keys_firsts_append : (firsts (pairs ++ more)).keys =
    (firsts pairs).keys ++ (firsts more).keys.filter (· ∉ (firsts pairs).keys) := by
  rw [firsts, foldl_append]
  exact keys_foldl_setdefault more _

theorem mem_keys_firsts : key ∈ (firsts pairs).keys ↔ key ∈ keys pairs := by
  rw [mem_keys_iff, get?_firsts, ← mem_keys_iff]

theorem nodup_keys_firsts : (firsts pairs).keys.Nodup := by
  induction pairs using reverseRecOn with
  | nil => exact nodup_nil
  | append_singleton front pair ih =>
    rw [keys_firsts_append]
    refine ih.append ?_ fun key first later => ?_
    · have one : (firsts [pair]).keys = [pair.1] := rfl
      rw [one]
      exact (nodup_singleton _).filter _
    · exact of_decide_eq_true (mem_filter.mp later).2 first

theorem firsts_of_nodup (distinct : (keys pairs).Nodup) : firsts pairs = pairs := by
  induction pairs using reverseRecOn with
  | nil => rfl
  | append_singleton front pair ih =>
    rw [keys, map_append] at distinct
    have fresh : pair.1 ∉ (keys front) := fun here =>
      disjoint_of_nodup_append distinct here (mem_singleton_self _)
    have same := ih (Nodup.of_append_left distinct)
    rw [firsts_concat, same, setdefault, if_neg fresh, set_of_notMem fresh]

/-- Values that a function of the key gives. -/
theorem keys_firsts_filterMap {ν' : Type v} (value : κ → Option ν') (items : List (κ × ν)) :
    (firsts (items.filterMap fun item => (value item.1).map (item.1, ·))).keys =
      (firsts items).keys.filter fun key => (value key).isSome := by
  induction items using reverseRecOn with
  | nil => rfl
  | append_singleton front item ih =>
    rw [filterMap_append, keys_firsts_append, keys_firsts_append, filter_append, ih]
    congr 1
    have one : (firsts [item]).keys = [item.1] := rfl
    rw [one, filterMap_cons]
    cases found : value item.1 with
    | none =>
      refine Eq.symm (filter_eq_nil_iff.mpr fun key mem => ?_)
      obtain rfl := mem_singleton.mp (mem_of_mem_filter mem)
      rw [found]
      exact Bool.false_ne_true
    | some new =>
      have one' : (firsts [(item.1, new)]).keys = [item.1] := rfl
      by_cases seen : item.1 ∈ (firsts front).keys
      · simp [seen, found, one']
      · simp [seen, found, one']

theorem firsts_map {ν' : Type v} (value : ν → ν') (pairs : List (κ × ν)) :
    firsts (pairs.map fun pair => (pair.1, value pair.2)) =
      (firsts pairs).map fun pair => (pair.1, value pair.2) := by
  induction pairs using reverseRecOn with
  | nil => rfl
  | append_singleton front pair ih =>
    have keys_ : keys ((firsts front).map fun pair => (pair.1, value pair.2)) =
        (firsts front).keys := map_map
    rw [map_append, map_singleton, firsts_concat, ih, firsts_concat, setdefault, setdefault, keys_]
    by_cases seen : pair.1 ∈ (firsts front).keys
    · rw [if_pos seen, if_pos seen]
    · rw [if_neg seen, if_neg seen, set_of_notMem seen, set_of_notMem (keys_ ▸ seen),
        map_append, map_singleton]

theorem map_snd_eq (distinct : d.keys.Nodup) (other : ν) :
    d.map Prod.snd = d.keys.map fun key => (d.get? key).getD other := by
  rw [keys, List.map_map]
  refine map_congr_left fun entry mem => ?_
  show entry.2 = (d.get? entry.1).getD other
  rw [get?_of_mem distinct mem, getD_some]

end

end DataViz.Dict
