/-
# Insertion-ordered dictionaries

A dictionary is an association list read by its first match. Setting a key replaces its entry in
place or appends a new one: the list order is the order an iteration sees. Two dictionaries that
answer every lookup alike are the same mapping.
-/

import Mathlib.Data.List.Dedup
import Mathlib.Data.List.Induction
import Mathlib.Data.List.Sort

namespace DataViz

open List Option

universe u v w

/-- A mapping given by its entries, in insertion order. -/
abbrev Dict (κ : Type u) (ν : Type v) := List (κ × ν)

namespace Dict

variable {κ : Type u} {ν : Type v}

section

variable [DecidableEq κ]

def get? : Dict κ ν → κ → Option ν
  | [], _ => none
  | (k, v) :: rest, key => if k = key then some v else get? rest key

/-- Bind a key: its entry is replaced where it stands, or appended. -/
def set : Dict κ ν → κ → ν → Dict κ ν
  | [], key, value => [(key, value)]
  | (k, v) :: rest, key, value =>
    if k = key then (key, value) :: rest else (k, v) :: set rest key value

def pop (d : Dict κ ν) (key : κ) : Dict κ ν :=
  d.filter fun entry => entry.1 ≠ key

def keys (d : Dict κ ν) : List κ :=
  d.map Prod.fst

/-- The entries of `other` laid over `d`: a key `d` has keeps its place, a new
one follows in `other`'s order. -/
def update (d other : Dict κ ν) : Dict κ ν :=
  (d.map fun entry => (entry.1, (get? other entry.1).getD entry.2)) ++
    other.filter fun entry => entry.1 ∉ d.keys

@[simp]
theorem get?_nil (key : κ) : get? ([] : Dict κ ν) key = none := rfl

theorem get?_cons (k : κ) (v : ν) (rest : Dict κ ν) (key : κ) :
    get? ((k, v) :: rest) key = if k = key then some v else get? rest key := rfl

@[simp]
theorem get?_cons_self (key : κ) (value : ν) (rest : Dict κ ν) :
    get? ((key, value) :: rest) key = some value := by
  simp [get?_cons]

theorem get?_cons_ne {k key : κ} (hne : k ≠ key) (v : ν) (rest : Dict κ ν) :
    get? ((k, v) :: rest) key = get? rest key := by
  simp [get?_cons, hne]

theorem get?_set (d : Dict κ ν) (key other : κ) (value : ν) :
    (d.set key value).get? other = if key = other then some value else d.get? other := by
  induction d with
  | nil => rfl
  | cons entry rest ih =>
    obtain ⟨k, v⟩ := entry
    by_cases hk : k = key
    · subst hk
      by_cases ho : k = other <;> simp [set, get?_cons, ho]
    · by_cases ho : k = other
      · subst ho
        simp [set, hk, Ne.symm hk]
      · simp [set, hk, get?_cons, ho, ih]

variable {d : Dict κ ν} {key : κ} {value : ν}

theorem eq_or_mem_of_mem_set {entry : κ × ν} (member : entry ∈ d.set key value) :
    entry = (key, value) ∨ entry ∈ d := by
  induction d with
  | nil => exact .inl (mem_singleton.mp member)
  | cons head rest ih =>
    simp only [set] at member
    split at member
    · exact (mem_cons.mp member).imp_right (mem_cons_of_mem _)
    · cases mem_cons.mp member with
      | inl same => exact .inr (same ▸ mem_cons_self)
      | inr later => exact (ih later).imp_right (mem_cons_of_mem _)

@[simp]
theorem get?_set_self (d : Dict κ ν) (key : κ) (value : ν) :
    (d.set key value).get? key = some value := by
  simp [get?_set]

theorem get?_set_ne {key other : κ} (hne : key ≠ other) (d : Dict κ ν) (value : ν) :
    (d.set key value).get? other = d.get? other := by
  simp [get?_set, hne]

theorem get?_filter_key (d : Dict κ ν) (keep : κ → Bool) (other : κ) :
    get? (d.filter fun entry => keep entry.1) other =
      if keep other then d.get? other else none := by
  induction d with
  | nil => simp
  | cons entry rest ih =>
    obtain ⟨k, v⟩ := entry
    by_cases hkeep : keep k
    · rw [filter_cons_of_pos (by simpa using hkeep), get?_cons, get?_cons, ih]
      by_cases ho : k = other
      · subst ho
        simp [hkeep]
      · simp [ho]
    · rw [filter_cons_of_neg (by simpa using hkeep), ih]
      by_cases ho : k = other
      · subst ho
        simp [hkeep]
      · simp [get?_cons, ho]

theorem get?_pop (d : Dict κ ν) (key other : κ) :
    (d.pop key).get? other = if key = other then none else d.get? other := by
  have hfilter := get?_filter_key d (fun k => decide (k ≠ key)) other
  by_cases ho : key = other
  · subst ho
    simpa [pop] using hfilter
  · simpa [pop, ho, Ne.symm ho] using hfilter

theorem mem_keys_iff : key ∈ d.keys ↔ (d.get? key).isSome := by
  induction d with
  | nil => simp [keys]
  | cons entry rest ih =>
    obtain ⟨k, v⟩ := entry
    by_cases hk : k = key
    · simp [keys, hk]
    · have hk' : ¬ key = k := fun h => hk h.symm
      simpa [keys, get?_cons, hk, hk'] using ih

theorem get?_eq_none_iff : d.get? key = none ↔ key ∉ d.keys := by
  rw [mem_keys_iff]
  cases d.get? key <;> simp

theorem mem_of_get? (h : d.get? key = some value) : (key, value) ∈ d := by
  induction d with
  | nil => simp at h
  | cons entry rest ih =>
    obtain ⟨k, v⟩ := entry
    by_cases hk : k = key
    · subst hk
      simp at h
      simp [h]
    · rw [get?_cons_ne hk] at h
      exact mem_cons_of_mem _ (ih h)

/-- A dictionary is empty exactly when no key is bound. -/
theorem eq_nil_iff : d = [] ↔ ∀ key, d.get? key = none := by
  constructor
  · rintro rfl key
    rfl
  · intro h
    cases d with
    | nil => rfl
    | cons entry rest =>
      obtain ⟨k, v⟩ := entry
      have hk := h k
      simp at hk

theorem get?_of_mem (hnodup : d.keys.Nodup) (h : (key, value) ∈ d) : d.get? key = some value := by
  induction d with
  | nil => cases h
  | cons entry rest ih =>
    obtain ⟨k, v⟩ := entry
    obtain ⟨hk, hrest⟩ := nodup_cons.mp hnodup
    rcases mem_cons.mp h with heq | h
    · obtain ⟨rfl, rfl⟩ := Prod.mk.inj heq
      simp
    · have hne : k ≠ key := by
        rintro rfl
        exact hk (mem_map.mpr ⟨(k, value), h, rfl⟩)
      rw [get?_cons_ne hne, ih hrest h]

theorem get?_append (front back : Dict κ ν) (key : κ) :
    get? (front ++ back) key = (get? front key).or (get? back key) := by
  induction front with
  | nil => simp
  | cons entry rest ih =>
    obtain ⟨k, v⟩ := entry
    by_cases hk : k = key <;> simp [get?_cons, hk, ih]

variable {ν' : Type v}

theorem get?_map_value (d : Dict κ ν) (f : κ → ν → ν') (key : κ) :
    get? (d.map fun entry => (entry.1, f entry.1 entry.2)) key = (d.get? key).map (f key) := by
  induction d with
  | nil => rfl
  | cons entry rest ih =>
    obtain ⟨k, v⟩ := entry
    by_cases hk : k = key
    · subst hk
      simp
    · simp [get?_cons, hk, ih]

/-- Laying `other` over `d` answers from `other` first. -/
theorem get?_update (d other : Dict κ ν) (key : κ) :
    (d.update other).get? key = (get? other key).or (d.get? key) := by
  have hnew := get?_filter_key other (fun k => decide (k ∉ d.keys)) key
  rw [update, get?_append, hnew, get?_map_value d (fun k v => (get? other k).getD v)]
  by_cases hk : key ∈ d.keys
  · obtain ⟨value, hvalue⟩ := isSome_iff_exists.mp (mem_keys_iff.mp hk)
    cases get? other key <;> simp [hvalue, hk]
  · simp [get?_eq_none_iff.mpr hk, hk]

theorem update_nil_right (d : Dict κ ν) : d.update [] = d := by
  rw [update, filter_nil, append_nil]
  exact map_id d

/-- Transformed values laid over transformed values. -/
theorem map_update (d other : Dict κ ν) (f : ν → ν') :
    (d.update other).map (fun entry => (entry.1, f entry.2)) =
      update (d.map fun entry => (entry.1, f entry.2))
        (other.map fun entry => (entry.1, f entry.2)) := by
  have keys : Dict.keys (d.map fun entry => (entry.1, f entry.2)) = d.keys := map_map
  rw [update, update, keys, map_append, List.map_map, List.map_map, List.filter_map]
  congr 1
  refine map_congr_left fun entry _ => ?_
  show (entry.1, f ((get? other entry.1).getD entry.2)) = (entry.1, _)
  rw [get?_map_value other fun _ => f]
  cases get? other entry.1 <;> rfl

/-- `d.setdefault(key, []).append(value)` for each pair. -/
def group (pairs : List (κ × ν)) : Dict κ (List ν) :=
  pairs.foldl (fun d pair => d.set pair.1 ((d.get? pair.1).getD [] ++ [pair.2])) []

variable {ι : Type w}

theorem find?_key_eq_some {key : ι → κ} {items : List ι} (hnodup : (items.map key).Nodup) {k : κ}
    {item : ι} : items.find? (fun i => key i = k) = some item ↔ item ∈ items ∧ key item = k := by
  constructor
  · intro hfind
    exact ⟨mem_of_find?_eq_some hfind, by simpa using find?_some hfind⟩
  · rintro ⟨hmem, rfl⟩
    obtain ⟨other, hother⟩ := isSome_iff_exists.mp
      (find?_isSome.mpr ⟨item, hmem, decide_eq_true rfl⟩ :
        (items.find? fun i => key i = key item).isSome)
    have hkey : key other = key item := by simpa using find?_some hother
    rw [hother, inj_on_of_nodup_map hnodup (mem_of_find?_eq_some hother) hmem hkey]

theorem get?_foldl_set (key : ι → κ) (value : ι → ν) (items : List ι)
    (hnodup : (items.map key).Nodup) (d : Dict κ ν) (other : κ) :
    get? (items.foldl (fun d i => d.set (key i) (value i)) d) other =
      ((items.find? fun i => key i = other).map value).or (d.get? other) := by
  induction items generalizing d with
  | nil => rfl
  | cons i rest ih =>
    obtain ⟨hfresh, hrest⟩ := nodup_cons.mp hnodup
    rw [foldl_cons, ih hrest, get?_set]
    by_cases hkey : key i = other
    · have hnone : rest.find? (fun j => key j = other) = none := by
        rw [find?_eq_none]
        intro j hj hother
        exact hfresh (mem_map.mpr ⟨j, hj, (of_decide_eq_true hother).trans hkey.symm⟩)
      simp [hkey, hnone]
    · simp [hkey]

theorem set_of_notMem (fresh : key ∉ d.keys) (value : ν) :
    d.set key value = d ++ [(key, value)] := by
  induction d with
  | nil => rfl
  | cons entry rest ih =>
    obtain ⟨k, v⟩ := entry
    rw [keys, map_cons, mem_cons, not_or] at fresh
    rw [set, if_neg (Ne.symm fresh.1), ih fresh.2, cons_append]

theorem set_of_get? (here : d.get? key = some value) : d.set key value = d := by
  induction d with
  | nil => cases here
  | cons entry rest ih =>
    obtain ⟨k, v⟩ := entry
    by_cases same : k = key
    · subst same
      rw [get?_cons_self] at here
      cases here
      exact if_pos rfl
    · rw [get?_cons_ne same] at here
      rw [set, if_neg same, ih here]

/-- Setting distinct new keys one by one appends them. -/
theorem foldl_set_of_nodup (key : ι → κ) (value : ι → ν) (items : List ι)
    (hnodup : (items.map key).Nodup) (d : Dict κ ν)
    (fresh : ∀ item ∈ items, key item ∉ d.keys) :
    items.foldl (fun d i => d.set (key i) (value i)) d =
      d ++ items.map fun i => (key i, value i) := by
  induction items generalizing d with
  | nil => simp
  | cons i rest ih =>
    obtain ⟨hfirst, hrest⟩ := nodup_cons.mp hnodup
    rw [foldl_cons, set_of_notMem (fresh i mem_cons_self), ih hrest]
    · simp
    · intro item hmem hkey
      rw [keys, map_append, mem_append] at hkey
      cases hkey with
      | inl old => exact fresh item (mem_cons_of_mem i hmem) old
      | inr same =>
        rw [map_singleton, mem_singleton] at same
        exact hfirst (mem_map.mpr ⟨item, hmem, same⟩)

theorem get?_foldl_set_last (key : ι → κ) (value : ι → ν) (items : List ι) (d : Dict κ ν)
    (other : κ) : get? (items.foldl (fun d i => d.set (key i) (value i)) d) other =
      ((items.reverse.find? fun i => key i = other).map value).or (d.get? other) := by
  induction items using reverseRecOn with
  | nil => rfl
  | append_singleton front i ih =>
    rw [foldl_append, foldl_cons, foldl_nil, get?_set, reverse_append,
      reverse_singleton, singleton_append, find?_cons]
    by_cases hkey : key i = other <;> simp [hkey, ih]

variable {pairs : List (κ × ν)}

theorem mem_of_get?_foldl_pairs
    (h : get? (pairs.foldl (fun d pair => d.set pair.1 pair.2) []) key = some value) :
    (key, value) ∈ pairs := by
  rw [get?_foldl_set_last Prod.fst Prod.snd pairs [] key, get?_nil, or_none] at h
  obtain ⟨pair, hfind, rfl⟩ := map_eq_some_iff.mp h
  obtain rfl : pair.1 = key := by simpa using find?_some hfind
  exact mem_reverse.mp (mem_of_find?_eq_some hfind)

theorem get?_foldl_pairs
    (hone : ∀ value value', (key, value) ∈ pairs → (key, value') ∈ pairs → value = value') :
    get? (pairs.foldl (fun d pair => d.set pair.1 pair.2) []) key = some value ↔
      (key, value) ∈ pairs := by
  refine ⟨mem_of_get?_foldl_pairs, fun hmem => ?_⟩
  cases hget : get? (pairs.foldl (fun (d : Dict κ ν) pair => d.set pair.1 pair.2) []) key with
  | some value' => rw [hone value' value (mem_of_get?_foldl_pairs hget) hmem]
  | none =>
    rw [get?_foldl_set_last Prod.fst Prod.snd pairs [] key, get?_nil, or_none,
      map_eq_none_iff, find?_eq_none] at hget
    exact absurd (decide_eq_true rfl) (hget _ (mem_reverse.mpr hmem))

theorem mem_keys_set {key other : κ} :
    other ∈ (d.set key value).keys ↔ other = key ∨ other ∈ d.keys := by
  rw [mem_keys_iff, mem_keys_iff, get?_set]
  split
  case isTrue same => simp [same]
  case isFalse apart => simp [Ne.symm apart]

theorem nodup_keys_set (h : d.keys.Nodup) (key : κ) (value : ν) : (d.set key value).keys.Nodup := by
  induction d with
  | nil => simp [set, keys]
  | cons entry rest ih =>
    obtain ⟨k, v⟩ := entry
    obtain ⟨hk, hrest⟩ := nodup_cons.mp h
    by_cases hkey : k = key
    · subst hkey
      simpa [set, keys] using h
    · rw [set, if_neg hkey]
      refine nodup_cons.mpr ⟨fun hmem => hk ?_, ih hrest⟩
      change k ∈ keys (set rest key value) at hmem
      rw [mem_keys_iff, get?_set_ne (Ne.symm hkey), ← mem_keys_iff] at hmem
      exact hmem

theorem get?_group (pairs : List (κ × ν)) (key : κ) :
    ((group pairs).get? key).getD [] = (pairs.filter fun pair => pair.1 = key).map Prod.snd := by
  induction pairs using reverseRecOn with
  | nil => rfl
  | append_singleton front pair ih =>
    rw [group] at ih
    rw [group, foldl_append, foldl_cons, foldl_nil, get?_set, filter_append, map_append, ← ih]
    by_cases hkey : pair.1 = key
    · subst hkey
      simp
    · simp [hkey]

theorem mem_keys_group : key ∈ (group pairs).keys ↔ key ∈ pairs.map Prod.fst := by
  induction pairs using reverseRecOn with
  | nil => simp [group, keys]
  | append_singleton front pair ih =>
    rw [mem_keys_iff, group] at ih
    rw [mem_keys_iff, group, foldl_append, foldl_cons, foldl_nil, get?_set]
    by_cases hkey : pair.1 = key
    · simp [hkey]
    · rw [if_neg hkey]
      simpa [Ne.symm hkey] using ih

theorem nodup_keys_group (pairs : List (κ × ν)) : (group pairs).keys.Nodup := by
  induction pairs using reverseRecOn with
  | nil => exact nodup_nil
  | append_singleton front pair ih =>
    rw [group, foldl_append]
    exact nodup_keys_set ih _ _

/-- Adding a value to its group adds it to the values. -/
theorem perm_flatMap_set (d : Dict κ (List ν)) (key : κ) (value : ν) :
    ((d.set key ((d.get? key).getD [] ++ [value])).flatMap Prod.snd).Perm
      (d.flatMap Prod.snd ++ [value]) := by
  induction d with
  | nil => exact Perm.refl _
  | cons entry rest ih =>
    obtain ⟨k, vs⟩ := entry
    by_cases hk : k = key
    · subst hk
      simpa [set, append_assoc] using
        (@perm_append_comm _ [value] (rest.flatMap Prod.snd)).append_left vs
    · simpa [set, hk, get?_cons, append_assoc] using ih.append_left vs

/-- The groups hold every value once. -/
theorem perm_flatMap_group (pairs : List (κ × ν)) :
    ((group pairs).flatMap Prod.snd).Perm (pairs.map Prod.snd) := by
  induction pairs using reverseRecOn with
  | nil => exact Perm.refl _
  | append_singleton front pair ih =>
    rw [group, foldl_append, map_append]
    exact (perm_flatMap_set _ _ _).trans (ih.append_right _)

/-- The dictionary with exactly the given keys that `value` has an answer for. -/
def ofKeys (keys : List κ) (value : κ → Option ν) : Dict κ ν :=
  keys.filterMap fun key => (value key).map (Prod.mk key)

theorem get?_ofKeys (keys : List κ) (value : κ → Option ν) (key : κ) :
    (ofKeys keys value).get? key = if key ∈ keys then value key else none := by
  induction keys with
  | nil => simp [ofKeys]
  | cons k rest ih =>
    by_cases hk : k = key
    · subst hk
      cases hv : value k with
      | none =>
        have hnone : get? (ofKeys rest value) k = none := by
          rw [ih, hv, ite_self]
        simpa [ofKeys, hv] using hnone
      | some v => simp [ofKeys, hv]
    · have hk' : ¬ key = k := fun h => hk h.symm
      cases hv : value k with
      | none => simpa [ofKeys, hv, hk'] using ih
      | some v => simpa [ofKeys, hv, hk', get?_cons, hk] using ih

/-- The bindings an iteration visits, each key once. -/
def items (d : Dict κ ν) : List (κ × ν) :=
  ofKeys d.keys.dedup d.get?

@[simp]
theorem get?_items (d : Dict κ ν) (key : κ) : get? d.items key = d.get? key := by
  rw [items, get?_ofKeys]
  by_cases h : key ∈ d.keys
  · simp [h]
  · simp [h, get?_eq_none_iff.mpr h]

omit [DecidableEq κ] in
theorem keys_ofKeys_sublist (keys : List κ) (value : κ → Option ν) :
    (ofKeys keys value).keys.Sublist keys := by
  induction keys with
  | nil => exact Sublist.slnil
  | cons k rest ih =>
    cases hv : value k with
    | none => simpa [ofKeys, Dict.keys, hv] using ih.cons k
    | some v => simpa [ofKeys, Dict.keys, hv] using ih.cons_cons k

theorem nodup_keys_items (d : Dict κ ν) : (keys d.items).Nodup :=
  (keys_ofKeys_sublist _ _).nodup (nodup_dedup _)

theorem mem_keys_filter_items (d : Dict κ ν) (keep : ν → Bool) (key : κ) :
    key ∈ (d.items.filter fun entry => keep entry.2).map Prod.fst ↔
      ∃ value, d.get? key = some value ∧ keep value = true := by
  rw [List.mem_map]
  constructor
  · rintro ⟨entry, hentry, rfl⟩
    obtain ⟨hmem, hkeep⟩ := mem_filter.mp hentry
    refine ⟨entry.2, ?_, hkeep⟩
    have hget := get?_of_mem (nodup_keys_items d) hmem
    rwa [get?_items] at hget
  · rintro ⟨value, hget, hkeep⟩
    rw [← get?_items] at hget
    exact ⟨(key, value), mem_filter.mpr ⟨mem_of_get? hget, hkeep⟩, rfl⟩

theorem mem_items_iff : (key, value) ∈ d.items ↔ d.get? key = some value := by
  rw [← get?_items]
  exact ⟨get?_of_mem (nodup_keys_items d), mem_of_get?⟩

theorem get?_filter_entries (d : Dict κ ν) (keep : κ → ν → Bool) (key : κ) :
    get? (d.items.filter fun entry => keep entry.1 entry.2) key =
      (d.get? key).filter (keep key) := by
  have hnodup : (keys (d.items.filter fun entry => keep entry.1 entry.2)).Nodup :=
    ((filter_sublist).map Prod.fst).nodup (nodup_keys_items d)
  ext value
  rw [filter_eq_some_iff, ← mem_items_iff (d := d)]
  constructor
  · intro found
    exact mem_filter.mp (mem_of_get? found)
  · intro kept
    exact get?_of_mem hnodup (mem_filter.mpr kept)

/-- Keeping the entries whose value passes a test. -/
theorem get?_filter_items (d : Dict κ ν) (keep : ν → Bool) (key : κ) :
    get? (d.items.filter fun entry => keep entry.2) key = (d.get? key).filter keep :=
  get?_filter_entries d (fun _ => keep) key

theorem get?_foldl_items (other : Dict κ ν') (value : ν' → ν) (d : Dict κ ν) (key : κ) :
    get? (other.items.foldl (fun d entry => d.set entry.1 (value entry.2)) d) key =
      ((other.get? key).map value).or (d.get? key) := by
  have hfind : ∀ entries : List (κ × ν'),
      (entries.find? fun entry => entry.1 = key).map (fun entry => value entry.2) =
        (get? entries key).map value := by
    intro entries
    induction entries with
    | nil => rfl
    | cons entry rest ih =>
      rw [get?_cons]
      by_cases hkey : entry.1 = key
      · simp [hkey]
      · simpa [hkey] using ih
  rw [get?_foldl_set Prod.fst (fun entry => value entry.2) _ (nodup_keys_items other), hfind,
    get?_items]

theorem get?_under {α : Type w} [DecidableEq α] (d : Dict (α × κ) ν) (first : α) (key : κ) :
    get? ((d.filter fun entry => entry.1.1 = first).map fun entry => (entry.1.2, entry.2)) key =
      d.get? (first, key) := by
  induction d with
  | nil => rfl
  | cons entry rest ih =>
    obtain ⟨⟨a, k⟩, v⟩ := entry
    by_cases ha : a = first
    · simp [ha, get?_cons, ih]
    · simp [ha, get?_cons, ih]

theorem pop_of_get?_eq_none (gone : d.get? key = none) : d.pop key = d := by
  rw [pop, filter_eq_self]
  intro entry mem
  exact decide_eq_true fun same =>
    get?_eq_none_iff.mp gone (same ▸ mem_map_of_mem mem)

theorem set_ne_nil (d : Dict κ ν) (key : κ) (value : ν) : d.set key value ≠ [] := by
  intro h
  have hget := get?_set_self d key value
  rw [h] at hget
  simp at hget

end

section

variable [LinearOrder κ]

def sortedKeys (keys : List κ) : List κ :=
  keys.dedup.insertionSort (· ≤ ·)

@[simp]
theorem mem_sortedKeys {keys : List κ} {key : κ} : key ∈ sortedKeys keys ↔ key ∈ keys := by
  rw [sortedKeys, (perm_insertionSort _ _).mem_iff, mem_dedup]

theorem nodup_sortedKeys (keys : List κ) : (sortedKeys keys).Nodup :=
  (perm_insertionSort _ _).nodup_iff.mpr (nodup_dedup keys)

theorem sortedKeys_congr {first second : List κ} (h : ∀ key, key ∈ first ↔ key ∈ second) :
    sortedKeys first = sortedKeys second := by
  have hperm : (sortedKeys first).Perm (sortedKeys second) := by
    rw [perm_ext_iff_of_nodup (nodup_sortedKeys _) (nodup_sortedKeys _)]
    intro key
    simp [h key]
  exact hperm.eq_of_pairwise (fun a b _ _ hab hba => le_antisymm hab hba)
    (pairwise_insertionSort _ _) (pairwise_insertionSort _ _)

/-- A dictionary rewritten with its keys in increasing order, each once. -/
def sorted {ν : Type v} (d : Dict κ ν) : Dict κ ν :=
  ofKeys (sortedKeys d.keys) d.get?

@[simp]
theorem get?_sorted {ν : Type v} (d : Dict κ ν) (key : κ) : d.sorted.get? key = d.get? key := by
  rw [sorted, get?_ofKeys]
  by_cases h : key ∈ d.keys
  · simp [h]
  · simp [h, get?_eq_none_iff.mpr h]

/-- Two dictionaries answer every lookup alike exactly when they have the same
sorted form. -/
theorem sorted_eq_iff {ν : Type v} {first second : Dict κ ν} :
    first.sorted = second.sorted ↔ ∀ key, first.get? key = second.get? key := by
  constructor
  · intro h key
    rw [← get?_sorted first, h, get?_sorted]
  · intro h
    have hkeys : sortedKeys first.keys = sortedKeys second.keys :=
      sortedKeys_congr fun key => by rw [mem_keys_iff, mem_keys_iff, h key]
    have hget : first.get? = second.get? := funext h
    rw [sorted, sorted, hkeys, hget]

end

end Dict

end DataViz
