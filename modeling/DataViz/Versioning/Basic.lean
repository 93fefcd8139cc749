/-
# Entities

The vocabulary the versioning modules share: entities are known by a text id and
carry a JSON object as payload.
-/

import DataViz.Data.Json

namespace DataViz.Versioning

abbrev EntityId := String

abbrev Payload := Dict String Json

/-- A composed state: `none` is a tombstone, a missing key never existed. -/
abbrev State := Dict EntityId (Option Payload)

-- Named, so that instance search does not unfold the nesting each time.
instance : DecidableEq Payload := inferInstance

instance : DecidableEq State := inferInstance

inductive Kind
  | node
  | edge
  deriving DecidableEq

/-- An exception of the Python runtime the code does not catch. -/
inductive PyError
  | typeError (message : String)
  deriving DecidableEq

/-- The same payload as JSON, whatever the order of its keys. -/
def SamePayload (p q : Option Payload) : Prop :=
  Json.Same? (p.map .obj) (q.map .obj)

instance (p q : Option Payload) : Decidable (SamePayload p q) :=
  inferInstanceAs (Decidable (Json.EqBy? _ _ _))

@[refl]
theorem SamePayload.refl (p : Option Payload) : SamePayload p p := Json.EqBy?.refl _

theorem SamePayload.symm {p q : Option Payload} (h : SamePayload p q) : SamePayload q p :=
  Json.EqBy?.symm h

theorem SamePayload.trans {p q r : Option Payload} (hpq : SamePayload p q)
    (hqr : SamePayload q r) : SamePayload p r :=
  Json.EqBy?.trans hpq hqr

theorem SamePayload.eq_empty {p : Option Payload} (h : SamePayload p (some [])) : p = some [] := by
  cases p with
  | none => simp [SamePayload] at h
  | some q =>
    have hkeys : ∀ key, Json.Same? (Dict.get? q key) none := by
      simpa [SamePayload, Json.eqBy_obj_iff] using h
    rw [Dict.eq_nil_iff.mpr fun key => Json.eqBy?_none_right.mp (hkeys key)]

end DataViz.Versioning
