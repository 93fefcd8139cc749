/-
# Changing a value at a key path

What stands at one path of a JSON value is replaced or removed, the dictionaries on the way there
made where they are missing. A change leaves every path alone that it does not meet, and two changes
at paths that do not meet can be made in either order.
-/

import DataViz.Data.Json

namespace DataViz.Json

open List

def Apart (p q : List String) : Prop :=
  ¬ p <+: q ∧ ¬ q <+: p

instance (p q : List String) : Decidable (Apart p q) :=
  inferInstanceAs (Decidable (_ ∧ _))

/-- The fields of a value that may be absent: what is no dictionary has none. -/
def fieldsOf : Option Json → Dict String Json
  | some (.obj fields) => fields
  | _ => []

def change (fields : Dict String Json) (key : String) : Option Json → Dict String Json
  | none => fields.pop key
  | some value => fields.set key value

/-- What becomes of a value when `new` is put at a path of it. -/
def putAt (new : Option Json) : Option Json → List String → Option Json
  | _, [] => new
  | old, key :: path =>
    let fields := fieldsOf old
    some (.obj (change fields key (putAt new (fields.get? key) path)))

variable {leaf : Scalar → Scalar} {new new' old old' : Option Json} {p q : List String}

theorem Apart.symm (apart : Apart p q) : Apart q p :=
  ⟨apart.2, apart.1⟩

theorem Apart.tail {key : String} (apart : Apart (key :: p) (key :: q)) : Apart p q :=
  ⟨fun before => apart.1 (cons_prefix_cons.mpr ⟨rfl, before⟩),
    fun before => apart.2 (cons_prefix_cons.mpr ⟨rfl, before⟩)⟩

theorem get?_change (fields : Dict String Json) (key other : String) (value : Option Json) :
    (change fields key value).get? other = if key = other then value else fields.get? other := by
  cases value with
  | none => exact Dict.get?_pop fields key other
  | some value => exact Dict.get?_set fields key other value

theorem valueAt_fieldsOf (value : Option Json) (key : String) (path : List String) :
    valueAt ((fieldsOf value).get? key) path = valueAt value (key :: path) := by
  rcases value with - | (s | items | fields)
  · exact valueAt_none path
  · exact valueAt_none path
  · exact valueAt_none path
  · rfl

/-- What a change puts at its path stands there. -/
theorem valueAt_putAt_self (new old : Option Json) (p : List String) :
    valueAt (putAt new old p) p = new := by
  induction p generalizing old with
  | nil => exact valueAt_nil new
  | cons key p ih =>
    rw [putAt, valueAt_obj_cons, get?_change, if_pos rfl]
    exact ih _

/-- A change leaves a path alone that it does not meet. -/
theorem valueAt_putAt_apart (apart : Apart p q) : valueAt (putAt new old p) q = valueAt old q := by
  induction p generalizing old q with
  | nil => exact absurd nil_prefix apart.1
  | cons key p ih =>
    cases q with
    | nil => exact absurd nil_prefix apart.2
    | cons other q =>
      rw [putAt, valueAt_obj_cons, get?_change, ← valueAt_fieldsOf]
      split
      next same =>
        subst same
        exact ih apart.tail
      next => rfl

theorem fieldsOf_congr (same : EqBy? leaf old old') (key : String) :
    EqBy? leaf ((fieldsOf old).get? key) ((fieldsOf old').get? key) := by
  have at_ := same.valueAt [key]
  rwa [← valueAt_fieldsOf, ← valueAt_fieldsOf] at at_

theorem change_congr {fields fields' : Dict String Json} {key : String}
    (same : ∀ other, EqBy? leaf (fields.get? other) (fields'.get? other))
    (value : EqBy? leaf new new') :
    EqBy leaf (.obj (change fields key new)) (.obj (change fields' key new')) := by
  refine eqBy_obj_iff.mpr fun other => ?_
  rw [get?_change, get?_change]
  split
  next => exact value
  next => exact same other

/-- Equal values stay equal under a change. -/
theorem putAt_congr (same : EqBy? leaf old old') :
    EqBy? leaf (putAt new old p) (putAt new old' p) := by
  induction p generalizing old old' with
  | nil => rfl
  | cons key p ih =>
    rw [putAt, putAt, eqBy?_some]
    have fields := fieldsOf_congr same
    exact change_congr fields (ih (fields key))

/-- Changes at paths that do not meet can be made in either order. -/
theorem putAt_comm (apart : Apart p q) :
    EqBy? leaf (putAt new' (putAt new old p) q) (putAt new (putAt new' old q) p) := by
  induction p generalizing old q with
  | nil => exact absurd nil_prefix apart.1
  | cons key p ih =>
    cases q with
    | nil => exact absurd nil_prefix apart.2
    | cons other q =>
      rw [putAt, putAt, putAt, putAt, eqBy?_some, eqBy_obj_iff]
      intro x
      rw [get?_change, get?_change, fieldsOf, fieldsOf, get?_change, get?_change, get?_change,
        get?_change]
      by_cases same : key = other
      · subst same
        by_cases here : key = x
        · rw [if_pos here, if_pos here, if_pos rfl, if_pos rfl]
          exact ih apart.tail
        · rw [if_neg here, if_neg here, if_neg here, if_neg here]
      · rw [if_neg same, if_neg (Ne.symm same)]
        by_cases here : key = x
        · subst here
          rw [if_pos rfl, if_pos rfl, if_neg (Ne.symm same)]
        · rw [if_neg here, if_neg here]

/-- Changes made one after the other, at each path what `new` has there. -/
def putAll (new : List String → Option Json) (old : Option Json) (paths : List (List String)) :
    Option Json :=
  paths.foldl (fun value p => putAt (new p) value p) old

variable {puts : List String → Option Json} {paths paths' : List (List String)}

/-- What stands at a path already stays there. -/
theorem valueAt_putAll_of_eq (meet : ∀ q ∈ paths, q = p ∨ Apart q p)
    (here : valueAt old p = puts p) : valueAt (putAll puts old paths) p = puts p := by
  induction paths generalizing old with
  | nil => exact here
  | cons q paths ih =>
    refine ih (fun other mem => meet other (mem_cons_of_mem q mem)) ?_
    cases meet q mem_cons_self with
    | inl same =>
      subst same
      exact valueAt_putAt_self (puts q) old q
    | inr apart => exact (valueAt_putAt_apart apart).trans here

theorem valueAt_putAll (meet : ∀ p ∈ paths, ∀ q ∈ paths, p = q ∨ Apart p q) (mem : p ∈ paths) :
    valueAt (putAll puts old paths) p = puts p := by
  induction paths generalizing old with
  | nil => cases mem
  | cons q paths ih =>
    have later := fun x (hx : x ∈ paths) y (hy : y ∈ paths) =>
      meet x (mem_cons_of_mem q hx) y (mem_cons_of_mem q hy)
    cases mem with
    | head =>
      have here := valueAt_putAt_self (puts p) old p
      rw [putAll, foldl_cons]
      exact valueAt_putAll_of_eq (fun x hx => meet x (mem_cons_of_mem p hx) p mem_cons_self) here
    | tail _ mem => exact ih later mem

/-- Changes leave a path alone that none of them meets. -/
theorem valueAt_putAll_apart (apart : ∀ p ∈ paths, Apart p q) :
    valueAt (putAll puts old paths) q = valueAt old q := by
  induction paths generalizing old with
  | nil => rfl
  | cons p paths ih =>
    exact (ih fun x mem => apart x (mem_cons_of_mem p mem)).trans
      (valueAt_putAt_apart (apart p mem_cons_self))

theorem putAll_congr (same : EqBy? leaf old old') :
    EqBy? leaf (putAll puts old paths) (putAll puts old' paths) := by
  induction paths generalizing old old' with
  | nil => exact same
  | cons p paths ih => exact ih (putAt_congr same)

/-- The order of changes that do not meet does not matter. -/
theorem putAll_perm (perm : paths.Perm paths')
    (meet : ∀ p ∈ paths, ∀ q ∈ paths, p = q ∨ Apart p q) :
    EqBy? leaf (putAll puts old paths) (putAll puts old paths') := by
  induction perm generalizing old with
  | nil => rfl
  | cons p _ ih =>
    exact ih fun x hx y hy =>
      meet x (mem_cons_of_mem p hx) y (mem_cons_of_mem p hy)
  | swap p q paths =>
    have either := meet p (mem_cons_of_mem q mem_cons_self) q mem_cons_self
    cases either with
    | inl same => rw [same]
    | inr apart => exact putAll_congr (putAt_comm apart.symm)
  | trans first _ ih ih' =>
    refine (ih meet).trans (ih' fun x hx y hy => ?_)
    exact meet x (first.mem_iff.mpr hx) y (first.mem_iff.mpr hy)

end DataViz.Json
