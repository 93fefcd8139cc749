/-
# Three-valued truth

What a condition of a query says of a row: that it holds, that it does not, or neither, where a
value is missing. Conjunction and disjunction are decided by one side where that side is enough.
-/

import Mathlib.Data.Fintype.Option

namespace DataViz

abbrev Truth := Option Bool

namespace Truth

/-- The other way round; null stays null. -/
def not (value : Truth) : Truth :=
  value.map Bool.not

/-- Both: false where one is, else null where one is. -/
def and : Truth → Truth → Truth
  | some false, _ => some false
  | _, some false => some false
  | some true, some true => some true
  | _, _ => none

/-- Either: true where one is, else null where one is. -/
def or : Truth → Truth → Truth
  | some true, _ => some true
  | _, some true => some true
  | some false, some false => some false
  | _, _ => none

def all (values : List Truth) : Truth :=
  values.foldr and (some true)

def any (values : List Truth) : Truth :=
  values.foldr or (some false)

variable {first second : Truth}

theorem and_eq_true : and first second = some true ↔ first = some true ∧ second = some true := by
  revert first second
  decide

theorem and_eq_false :
    and first second = some false ↔ first = some false ∨ second = some false := by
  revert first second
  decide

theorem or_eq_true : or first second = some true ↔ first = some true ∨ second = some true := by
  revert first second
  decide

theorem or_eq_false : or first second = some false ↔ first = some false ∧ second = some false := by
  revert first second
  decide

@[simp]
theorem all_nil : all [] = some true :=
  rfl

@[simp]
theorem all_cons (value : Truth) (values : List Truth) :
    all (value :: values) = and value (all values) :=
  rfl

@[simp]
theorem any_nil : any [] = some false :=
  rfl

@[simp]
theorem any_cons (value : Truth) (values : List Truth) :
    any (value :: values) = or value (any values) :=
  rfl

variable {values : List Truth}

theorem all_eq_true : all values = some true ↔ ∀ value ∈ values, value = some true := by
  induction values with
  | nil => simp
  | cons value values ih => rw [all_cons, and_eq_true, ih, List.forall_mem_cons]

theorem all_eq_false : all values = some false ↔ ∃ value ∈ values, value = some false := by
  induction values with
  | nil => simp
  | cons value values ih =>
    rw [all_cons, and_eq_false, ih]
    simp [eq_comm]

theorem any_eq_true : any values = some true ↔ ∃ value ∈ values, value = some true := by
  induction values with
  | nil => simp
  | cons value values ih =>
    rw [any_cons, or_eq_true, ih]
    simp [eq_comm]

theorem any_eq_false : any values = some false ↔ ∀ value ∈ values, value = some false := by
  induction values with
  | nil => simp
  | cons value values ih => rw [any_cons, or_eq_false, ih, List.forall_mem_cons]

/-- A reading keeps what a value says: it differs only where the value is null. -/
def Keeps (value reading : Truth) : Prop :=
  ∀ said, value = some said → reading = some said

theorem Keeps.refl (value : Truth) : Keeps value value :=
  fun _ known => known

theorem Keeps.eq {value reading : Truth} (keeps : Keeps value reading) (known : value ≠ none) :
    reading = value := by
  obtain ⟨said, known⟩ := Option.ne_none_iff_exists'.mp known
  rw [keeps said known, known]

section

variable {α : Type*} {items : List α} {value reading : α → Truth}

theorem Keeps.all (keeps : ∀ item ∈ items, Keeps (value item) (reading item)) :
    Keeps (all (items.map value)) (all (items.map reading)) := by
  intro said known
  cases said with
  | false =>
    obtain ⟨_, mem, isFalse⟩ := all_eq_false.mp known
    obtain ⟨item, here, rfl⟩ := List.mem_map.mp mem
    exact all_eq_false.mpr ⟨_, List.mem_map_of_mem here, keeps item here false isFalse⟩
  | true =>
    refine all_eq_true.mpr fun _ mem => ?_
    obtain ⟨item, here, rfl⟩ := List.mem_map.mp mem
    exact keeps item here true (all_eq_true.mp known _ (List.mem_map_of_mem here))

theorem Keeps.any (keeps : ∀ item ∈ items, Keeps (value item) (reading item)) :
    Keeps (any (items.map value)) (any (items.map reading)) := by
  intro said known
  cases said with
  | false =>
    refine any_eq_false.mpr fun _ mem => ?_
    obtain ⟨item, here, rfl⟩ := List.mem_map.mp mem
    exact keeps item here false (any_eq_false.mp known _ (List.mem_map_of_mem here))
  | true =>
    obtain ⟨_, mem, isTrue⟩ := any_eq_true.mp known
    obtain ⟨item, here, rfl⟩ := List.mem_map.mp mem
    exact any_eq_true.mpr ⟨_, List.mem_map_of_mem here, keeps item here true isTrue⟩

end

end Truth

end DataViz
