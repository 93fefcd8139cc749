/-
# Computations that may raise

A computation returns a value or raises. Computations in sequence return where each of
them does, and so does a dictionary whose values are computed one by one. What a
computation does is told by when it returns, and by what.
-/

import DataViz.Data.Dict

namespace DataViz

open List Option

universe u

section

variable {ε α β : Type u}

theorem bind_eq_ok {m : Except ε α} {f : α → Except ε β} {b : β} :
    m >>= f = .ok b ↔ ∃ a, m = .ok a ∧ f a = .ok b := by
  cases m with
  | error e => simp [bind, Except.bind]
  | ok a => simp [bind, Except.bind]

theorem map_eq_ok {m : Except ε α} {f : α → β} {b : β} :
    m.map f = .ok b ↔ ∃ a, m = .ok a ∧ f a = b := by
  cases m with
  | error e => simp [Except.map]
  | ok a => simp [Except.map]

theorem mapError_eq_ok {ε' : Type u} {m : Except ε α} {f : ε → ε'} {a : α} :
    m.mapError f = .ok a ↔ m = .ok a := by
  cases m with
  | error e => simp [Except.mapError]
  | ok a => simp [Except.mapError]

variable {f : α → Except ε β} {items : List α} {results : List β}

theorem mapM_eq_ok : items.mapM f = .ok results ↔
      List.Forall₂ (fun item result => f item = .ok result) items results := by
  induction items generalizing results with
  | nil => simp [pure, Except.pure, eq_comm]
  | cons item rest ih =>
    rw [mapM_cons, bind_eq_ok, forall₂_cons_left_iff]
    constructor
    · rintro ⟨first, here, later⟩
      obtain ⟨others, there, same⟩ := bind_eq_ok.mp later
      exact ⟨first, others, here, ih.mp there, (Except.ok.inj same).symm⟩
    · rintro ⟨first, others, here, there, rfl⟩
      exact ⟨first, here, bind_eq_ok.mpr ⟨others, ih.mpr there, rfl⟩⟩

theorem mapM_returns_iff :
    (∃ results, items.mapM f = .ok results) ↔ ∀ item ∈ items, ∃ result, f item = .ok result := by
  induction items with
  | nil => exact iff_of_true ⟨[], rfl⟩ fun _ absurd => nomatch absurd
  | cons item rest ih =>
    rw [forall_mem_cons, ← ih]
    simp only [mapM_eq_ok, forall₂_cons_left_iff]
    constructor
    · rintro ⟨-, first, others, here, there, rfl⟩
      exact ⟨⟨first, here⟩, others, there⟩
    · rintro ⟨⟨first, here⟩, others, there⟩
      exact ⟨first :: others, first, others, here, there, rfl⟩

/-- A function that returns under a condition, and then a value, computes a list so. -/
theorem mapM_eq_ok_of {returns : α → Prop} {value : α → β}
    (spec : ∀ a b, f a = .ok b ↔ returns a ∧ b = value a) :
    items.mapM f = .ok results ↔ (∀ a ∈ items, returns a) ∧ results = items.map value := by
  simp only [mapM_eq_ok, spec]
  induction items generalizing results with
  | nil => simp
  | cons item rest ih =>
    simp only [forall₂_cons_left_iff, ih, forall_mem_cons, map_cons]
    constructor
    · rintro ⟨_, _, ⟨here, rfl⟩, ⟨there, rfl⟩, rfl⟩
      exact ⟨⟨here, there⟩, rfl⟩
    · rintro ⟨⟨here, there⟩, rfl⟩
      exact ⟨_, _, ⟨here, rfl⟩, ⟨there, rfl⟩, rfl⟩

end

namespace Dict

variable {ε κ ν ν' : Type u} [DecidableEq κ]

/-- The values of a dictionary computed from its own, each with its key. -/
def mapValuesM (d : Dict κ ν) (f : κ → ν → Except ε ν') : Except ε (Dict κ ν') :=
  d.items.mapM fun entry => (f entry.1 entry.2).map (Prod.mk entry.1)

variable {d : Dict κ ν} {f : κ → ν → Except ε ν'} {out : Dict κ ν'}

theorem mapValuesM_eq_ok {returns : κ → ν → Prop} {value : κ → ν → ν'}
    (spec : ∀ key old new, f key old = .ok new ↔ returns key old ∧ new = value key old) :
    d.mapValuesM f = .ok out ↔ (∀ key old, d.get? key = some old → returns key old) ∧
        out = d.items.map fun entry => (entry.1, value entry.1 entry.2) := by
  have entries : ∀ (entry : κ × ν) (entry' : κ × ν'),
      (f entry.1 entry.2).map (Prod.mk entry.1) = .ok entry' ↔
        returns entry.1 entry.2 ∧ entry' = (entry.1, value entry.1 entry.2) := by
    intro entry entry'
    simp only [map_eq_ok, spec]
    exact ⟨fun ⟨_, ⟨returned, same⟩, pair⟩ => ⟨returned, same ▸ pair.symm⟩,
      fun ⟨returned, pair⟩ => ⟨_, ⟨returned, rfl⟩, pair.symm⟩⟩
  simp only [mapValuesM, mapM_eq_ok_of entries, Prod.forall, mem_items_iff]

theorem mapValuesM_returns_iff : (∃ out, d.mapValuesM f = .ok out) ↔
      ∀ key value, d.get? key = some value → ∃ result, f key value = .ok result := by
  simp only [mapValuesM, mapM_returns_iff, Prod.forall, mem_items_iff, map_eq_ok]
  refine forall_congr' fun key => forall_congr' fun value => forall_congr' fun _ => ?_
  constructor
  · rintro ⟨_, result, returned, _⟩
    exact ⟨result, returned⟩
  · rintro ⟨result, returned⟩
    exact ⟨_, result, returned, rfl⟩

/-- What is computed for a key, from its value alone. -/
theorem get?_mapValuesM (returned : d.mapValuesM f = .ok out) (key : κ) :
    out.get? key = (d.get? key).bind fun value => (f key value).toOption := by
  rw [mapValuesM, mapM_eq_ok] at returned
  rw [← get?_items d]
  generalize d.items = entries at returned ⊢
  induction returned with
  | nil => rfl
  | @cons entry result entries results here _ ih =>
    obtain ⟨name, value⟩ := entry
    obtain ⟨answer, same, rfl⟩ := map_eq_ok.mp here
    by_cases hit : name = key
    · subst hit
      rw [get?_cons_self, get?_cons_self, bind_some, same]
      rfl
    · rw [get?_cons_ne hit, ih, get?_cons_ne hit]

theorem mem_of_mapValuesM (returned : d.mapValuesM f = .ok out) {key : κ} {result : ν'} :
    (key, result) ∈ out ↔ ∃ value, d.get? key = some value ∧ f key value = .ok result := by
  rw [mapValuesM, mapM_eq_ok] at returned
  simp only [← mem_items_iff]
  generalize d.items = entries at returned ⊢
  induction returned with
  | nil => simp
  | @cons entry entry' entries results here _ ih =>
    obtain ⟨name, value⟩ := entry
    obtain ⟨answer, same, rfl⟩ := map_eq_ok.mp here
    rw [mem_cons, ih]
    constructor
    · rintro (pair | ⟨value', mem, there⟩)
      · cases pair
        exact ⟨value, mem_cons_self, same⟩
      · exact ⟨value', mem_cons_of_mem _ mem, there⟩
    · rintro ⟨value', mem, there⟩
      rcases mem_cons.mp mem with pair | mem
      · cases pair
        exact .inl (by rw [Except.ok.inj (same.symm.trans there)])
      · exact .inr ⟨value', mem, there⟩

theorem get?_map_items (d : Dict κ ν) (value : κ → ν → ν') (key : κ) :
    get? (d.items.map fun entry => (entry.1, value entry.1 entry.2)) key =
      (d.get? key).map (value key) := by
  rw [get?_map_value, get?_items]

end Dict

end DataViz
