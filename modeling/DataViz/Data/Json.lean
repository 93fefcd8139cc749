/-
# JSON values and Python equality

Payloads are JSON values as the service holds them after parsing: integers and
floats are different Python objects, an object is an insertion-ordered
dictionary, and an absent key is `none`. Two readings of equality matter. The
stored value of an entity is its JSON text with sorted keys, so key order is
the only thing it forgets (`Same`). The merge compares with Python's `==`,
which moreover compares numbers by value and treats `True` and `False` as `1`
and `0` (`PyEq`).
-/

import Mathlib.Data.Rat.Defs
import Mathlib.Data.String.Basic
import DataViz.Data.Dict

namespace DataViz

/-- A JSON scalar as Python parses it. A float is a finite double, held as the
text Python prints for it and the rational it denotes; `-0.0` and `0.0` differ
in the text alone. -/
inductive Scalar
  | null
  | bool (b : Bool)
  | int (n : ℤ)
  | float (text : String) (value : ℚ)
  | str (s : String)
  deriving DecidableEq

namespace Scalar

/-- The value `==` compares: booleans are the integers `0` and `1`, and an
integer equals the float of the same value, however that one is printed. -/
def numeric : Scalar → Scalar
  | .null => .null
  | .bool b => .float "" (if b then 1 else 0)
  | .int n => .float "" n
  | .float _ value => .float "" value
  | .str s => .str s

end Scalar

inductive Json
  | scalar (s : Scalar)
  | arr (items : List Json)
  | obj (fields : List (String × Json))

namespace Json

@[match_pattern]
abbrev null : Json := .scalar .null

@[match_pattern]
abbrev bool (b : Bool) : Json := .scalar (.bool b)

/-- A JSON number written without a fraction or exponent. -/
@[match_pattern]
abbrev int (n : ℤ) : Json := .scalar (.int n)

@[match_pattern]
abbrev str (s : String) : Json := .scalar (.str s)

mutual

/-- Structural comparison, entry order included. -/
def beq : Json → Json → Bool
  | .scalar a, .scalar b => decide (a = b)
  | .arr xs, .arr ys => beqList xs ys
  | .obj xs, .obj ys => beqFields xs ys
  | _, _ => false

def beqList : List Json → List Json → Bool
  | [], [] => true
  | x :: xs, y :: ys => beq x y && beqList xs ys
  | _, _ => false

def beqFields : List (String × Json) → List (String × Json) → Bool
  | [], [] => true
  | (k, x) :: xs, (l, y) :: ys => decide (k = l) && beq x y && beqFields xs ys
  | _, _ => false

end

mutual

theorem beq_iff : ∀ a b : Json, beq a b = true ↔ a = b
  | .scalar a, b => by cases b <;> simp [beq]
  | .arr xs, b => by
    cases b with
    | arr ys => simpa [beq] using beqList_iff xs ys
    | _ => simp [beq]
  | .obj xs, b => by
    cases b with
    | obj ys => simpa [beq] using beqFields_iff xs ys
    | _ => simp [beq]

theorem beqList_iff : ∀ xs ys : List Json, beqList xs ys = true ↔ xs = ys
  | [], ys => by cases ys <;> simp [beqList]
  | x :: xs, ys => by
    cases ys with
    | nil => simp [beqList]
    | cons y ys => simp [beqList, beq_iff x y, beqList_iff xs ys]

theorem beqFields_iff : ∀ xs ys : List (String × Json), beqFields xs ys = true ↔ xs = ys
  | [], ys => by cases ys <;> simp [beqFields]
  | (k, x) :: xs, ys => by
    cases ys with
    | nil => simp [beqFields]
    | cons y ys =>
      obtain ⟨l, y⟩ := y
      simp [beqFields, beq_iff x y, beqFields_iff xs ys]

end

instance : DecidableEq Json := fun a b => decidable_of_iff _ (beq_iff a b)

mutual

/-- Rewrite every scalar and sort every object by key. -/
def canonBy (leaf : Scalar → Scalar) : Json → Json
  | .scalar s => .scalar (leaf s)
  | .arr xs => .arr (canonByList leaf xs)
  | .obj fields => .obj (Dict.sorted (canonByFields leaf fields))

def canonByList (leaf : Scalar → Scalar) : List Json → List Json
  | [] => []
  | x :: xs => canonBy leaf x :: canonByList leaf xs

def canonByFields (leaf : Scalar → Scalar) : List (String × Json) → List (String × Json)
  | [] => []
  | (k, x) :: xs => (k, canonBy leaf x) :: canonByFields leaf xs

end

/-- Two values with the same canonical form. -/
def EqBy (leaf : Scalar → Scalar) (a b : Json) : Prop :=
  a.canonBy leaf = b.canonBy leaf

instance (leaf : Scalar → Scalar) (a b : Json) : Decidable (EqBy leaf a b) :=
  inferInstanceAs (Decidable (_ = _))

/-- `EqBy` between values that may be absent: absent equals only absent. -/
def EqBy? (leaf : Scalar → Scalar) (a b : Option Json) : Prop :=
  a.map (canonBy leaf) = b.map (canonBy leaf)

instance (leaf : Scalar → Scalar) (a b : Option Json) : Decidable (EqBy? leaf a b) :=
  inferInstanceAs (Decidable (_ = _))

/-- The same JSON value, whatever the order of an object's keys. -/
abbrev Same : Json → Json → Prop := EqBy id

/-- `Same` between values that may be absent. -/
abbrev Same? : Option Json → Option Json → Prop := EqBy? id

abbrev PyEq : Json → Json → Prop := EqBy Scalar.numeric

/-- Python's `==` where a side may be the missing-key sentinel. -/
abbrev PyEq? : Option Json → Option Json → Prop := EqBy? Scalar.numeric

theorem canonByList_eq_map (leaf : Scalar → Scalar) (items : List Json) :
    canonByList leaf items = items.map (canonBy leaf) := by
  induction items with
  | nil => rfl
  | cons item rest ih => rw [canonByList, ih, List.map_cons]

theorem pyEq_arr_iff {items items' : List Json} : PyEq (.arr items) (.arr items') ↔
    items.map (canonBy Scalar.numeric) = items'.map (canonBy Scalar.numeric) := by
  rw [← canonByList_eq_map, ← canonByList_eq_map]
  exact ⟨Json.arr.inj, congrArg Json.arr⟩

variable {leaf : Scalar → Scalar}

@[refl]
theorem EqBy?.refl (a : Option Json) : EqBy? leaf a a := rfl

theorem EqBy?.symm {a b : Option Json} (h : EqBy? leaf a b) : EqBy? leaf b a := Eq.symm h

theorem EqBy?.trans {a b c : Option Json} (hab : EqBy? leaf a b) (hbc : EqBy? leaf b c) :
    EqBy? leaf a c :=
  Eq.trans hab hbc

@[simp]
theorem eqBy?_none_left {a : Option Json} : EqBy? leaf none a ↔ a = none := by
  cases a <;> simp [EqBy?]

@[simp]
theorem eqBy?_none_right {a : Option Json} : EqBy? leaf a none ↔ a = none := by
  cases a <;> simp [EqBy?]

@[simp]
theorem eqBy?_some {a b : Json} : EqBy? leaf (some a) (some b) ↔ EqBy leaf a b := by
  simp [EqBy?, EqBy]

theorem get?_canonByFields (fields : Dict String Json) (key : String) :
    Dict.get? (canonByFields leaf fields) key = (fields.get? key).map (canonBy leaf) := by
  induction fields with
  | nil => rfl
  | cons entry rest ih =>
    obtain ⟨k, x⟩ := entry
    by_cases hk : k = key
    · simp [canonByFields, hk]
    · rw [canonByFields, Dict.get?_cons_ne hk, Dict.get?_cons_ne hk, ih]

/-- Objects are equal exactly when they agree at every key. -/
theorem eqBy_obj_iff {first second : Dict String Json} : EqBy leaf (.obj first) (.obj second) ↔
      ∀ key, EqBy? leaf (first.get? key) (second.get? key) := by
  simp only [EqBy, canonBy, Json.obj.injEq, Dict.sorted_eq_iff, get?_canonByFields, EqBy?]

/-- Only an object equals an object. -/
theorem EqBy.exists_obj {first : Dict String Json} {value : Json}
    (h : EqBy leaf (.obj first) value) : ∃ second : Dict String Json, value = .obj second := by
  cases value with
  | obj second => exact ⟨second, rfl⟩
  | _ => simp [EqBy, canonBy] at h

mutual

/-- Canonical forms may be taken with the scalars as they are first. -/
theorem canonBy_canonBy_id : ∀ a : Json, canonBy leaf (canonBy id a) = canonBy leaf a
  | .scalar s => rfl
  | .arr xs => by rw [canonBy, canonBy, canonBy, canonByList_canonByList_id xs]
  | .obj fields => by
    rw [canonBy, canonBy, canonBy, Json.obj.injEq, Dict.sorted_eq_iff]
    intro key
    rw [get?_canonByFields, Dict.get?_sorted, ← get?_canonByFields,
      canonByFields_canonByFields_id fields]

theorem canonByList_canonByList_id :
    ∀ xs : List Json, canonByList leaf (canonByList id xs) = canonByList leaf xs
  | [] => rfl
  | x :: xs => by
    rw [canonByList, canonByList, canonByList, canonBy_canonBy_id x, canonByList_canonByList_id xs]

theorem canonByFields_canonByFields_id : ∀ fields : List (String × Json),
      canonByFields leaf (canonByFields id fields) = canonByFields leaf fields
  | [] => rfl
  | (k, x) :: fields => by
    rw [canonByFields, canonByFields, canonByFields, canonBy_canonBy_id x,
      canonByFields_canonByFields_id fields]

end

/-- The same value is equal under every reading of its scalars. -/
theorem EqBy?.of_same {a b : Option Json} (h : Same? a b) : EqBy? leaf a b := by
  have hcanon : ∀ value : Option Json,
      (value.map (canonBy id)).map (canonBy leaf) = value.map (canonBy leaf) := by
    intro value
    rw [Option.map_map]
    exact congrArg (fun f => value.map f) (funext canonBy_canonBy_id)
  rw [EqBy?, ← hcanon a, ← hcanon b, h]

/-- The value at a path of object keys, `none` where a step is missing or leads
through something that is not an object. -/
def valueAt : Option Json → List String → Option Json
  | value, [] => value
  | some (.obj fields), key :: path => valueAt (Dict.get? fields key) path
  | _, _ :: _ => none

@[simp]
theorem valueAt_nil (value : Option Json) : valueAt value [] = value := by
  cases value <;> rfl

@[simp]
theorem valueAt_none (path : List String) : valueAt none path = none := by
  cases path <;> rfl

@[simp]
theorem valueAt_obj_cons (fields : Dict String Json) (key : String) (path : List String) :
    valueAt (some (.obj fields)) (key :: path) = valueAt (fields.get? key) path := rfl

@[simp]
theorem valueAt_scalar_cons (s : Scalar) (key : String) (path : List String) :
    valueAt (some (.scalar s)) (key :: path) = none := rfl

@[simp]
theorem valueAt_arr_cons (items : List Json) (key : String) (path : List String) :
    valueAt (some (.arr items)) (key :: path) = none := rfl

/-- Equal values agree along every path. -/
theorem EqBy?.valueAt {a b : Option Json} (h : EqBy? leaf a b) (path : List String) :
    EqBy? leaf (valueAt a path) (valueAt b path) := by
  induction path generalizing a b with
  | nil => simpa using h
  | cons key path ih =>
    cases a with
    | none => simp [eqBy?_none_left.mp h]
    | some a =>
      cases b with
      | none => simp [EqBy?] at h
      | some b =>
        rw [eqBy?_some] at h
        cases a with
        | scalar s => cases b <;> simp_all [EqBy, canonBy]
        | arr items => cases b <;> simp_all [EqBy, canonBy]
        | obj fields =>
          obtain ⟨other, rfl⟩ := h.exists_obj
          exact ih (eqBy_obj_iff.mp h key)

/-- A field is smaller than the object it sits in. -/
theorem sizeOf_get?_lt (fields : Dict String Json) (key : String) :
    sizeOf (fields.get? key) < sizeOf (some (Json.obj fields)) := by
  induction fields with
  | nil => simp [Dict.get?]
  | cons entry rest ih =>
    obtain ⟨k, x⟩ := entry
    by_cases hk : k = key
    · simp [hk]
      omega
    · rw [Dict.get?_cons_ne hk]
      simp at ih ⊢
      omega

end Json

end DataViz
