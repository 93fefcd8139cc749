/-
# Net changes between two states

`changeset.py` squashes two materialised states to one change per entity. The
content hash is a parameter; an empty payload counts as no entity.
-/

import DataViz.Versioning.Basic

namespace DataViz.Versioning

open List Option

inductive Op
  | create
  | update
  | delete
  deriving DecidableEq

structure Delta (η : Type) where
  entityId : EntityId
  op : Op
  payload : Option Payload
  prevContentHash : Option η
  contentHash : η
  deriving DecidableEq

section

variable {η : Type} [DecidableEq η] (contentHash : Option Payload → η)

/-- `bool(b)`: an empty payload is not a live entity. -/
def livePayload (p : Option Payload) : Option Payload :=
  p.filter (· ≠ [])

/-- One round of `net_delta`. -/
def deltaOf (eid : EntityId) (b h : Option Payload) : Option (Delta η) :=
  match livePayload b, livePayload h with
  | none, none => none
  | none, some h => some ⟨eid, .create, some h, none, contentHash (some h)⟩
  | some b, none => some ⟨eid, .delete, none, some (contentHash (some b)), contentHash none⟩
  | some b, some h =>
    let bh := contentHash (some b)
    let hh := contentHash (some h)
    if bh ≠ hh then some ⟨eid, .update, some h, some bh, hh⟩ else none

def netDelta (baseState headState : State) : List (Delta η) :=
  (Dict.sortedKeys (baseState.keys ++ headState.keys)).filterMap fun eid =>
    deltaOf contentHash eid (baseState.get? eid).join (headState.get? eid).join

variable {contentHash} {b h : Option Payload} {d : Delta η} {eid : EntityId}

theorem entityId_deltaOf (hd : deltaOf contentHash eid b h = some d) : d.entityId = eid := by
  rw [deltaOf] at hd
  split at hd
  · cases hd
  · obtain rfl := some.inj hd
    rfl
  · obtain rfl := some.inj hd
    rfl
  · obtain rfl := some.inj (ite_none_right_eq_some.mp hd).2
    rfl

/-- A change carries a payload unless it is a deletion. -/
theorem payload_deltaOf (hd : deltaOf contentHash eid b h = some d) :
    d.op = .delete ↔ d.payload = none := by
  rw [deltaOf] at hd
  split at hd
  · cases hd
  · obtain rfl := some.inj hd
    simp
  · obtain rfl := some.inj hd
    simp
  · obtain rfl := some.inj (ite_none_right_eq_some.mp hd).2
    simp

/-- What a change records: its new value, and the hashes of the new and of the old
one. -/
theorem deltaOf_eq_some (hd : deltaOf contentHash eid b h = some d) :
    d.payload = livePayload h ∧ d.contentHash = contentHash (livePayload h) ∧
      d.prevContentHash.getD (contentHash none) = contentHash (livePayload b) := by
  rw [deltaOf] at hd
  split at hd
  · cases hd
  · rename_i hb hh
    obtain rfl := some.inj hd
    rw [hb, hh]
    exact ⟨rfl, rfl, rfl⟩
  · rename_i hb hh
    obtain rfl := some.inj hd
    rw [hb, hh]
    exact ⟨rfl, rfl, rfl⟩
  · rename_i hb hh
    obtain rfl := some.inj (ite_none_right_eq_some.mp hd).2
    rw [hb, hh]
    exact ⟨rfl, rfl, rfl⟩

/-- No change is recorded when the hashes agree. -/
theorem deltaOf_eq_none (hd : deltaOf contentHash eid b h = none) :
    contentHash (livePayload b) = contentHash (livePayload h) := by
  rw [deltaOf] at hd
  split at hd
  · rename_i hb hh
    rw [hb, hh]
  · cases hd
  · cases hd
  · rename_i hb hh
    rw [hb, hh]
    by_contra hne
    exact absurd hd (by simp [hne])

@[simp]
theorem livePayload_ne_empty (p : Option Payload) : livePayload p ≠ some [] := by
  intro h
  have hlive := (filter_eq_some_iff.mp h).2
  simp at hlive

theorem livePayload_of_ne {p : Option Payload} (h : p ≠ some []) : livePayload p = p := by
  cases p with
  | none => rfl
  | some q => exact filter_eq_some_iff.mpr ⟨rfl, by simpa using h⟩

theorem mem_netDelta {baseState headState : State} : d ∈ netDelta contentHash baseState headState ↔
      deltaOf contentHash d.entityId (baseState.get? d.entityId).join
        (headState.get? d.entityId).join = some d := by
  rw [netDelta, mem_filterMap]
  constructor
  · rintro ⟨eid, -, hd⟩
    rw [entityId_deltaOf hd]
    exact hd
  · intro hd
    refine ⟨d.entityId, ?_, hd⟩
    rw [Dict.mem_sortedKeys, mem_append]
    by_contra hmem
    rw [not_or] at hmem
    rw [Dict.get?_eq_none_iff.mpr hmem.1, Dict.get?_eq_none_iff.mpr hmem.2] at hd
    cases hd

/-- A squash holds one change per entity. -/
theorem nodup_netDelta (baseState headState : State) :
    ((netDelta contentHash baseState headState).map Delta.entityId).Nodup := by
  have hkeys := Dict.nodup_sortedKeys (baseState.keys ++ headState.keys)
  have hsublist : ((netDelta contentHash baseState headState).map Delta.entityId).Sublist
      (Dict.sortedKeys (baseState.keys ++ headState.keys)) := by
    rw [netDelta]
    generalize Dict.sortedKeys (baseState.keys ++ headState.keys) = keys
    induction keys with
    | nil => exact List.Sublist.refl _
    | cons eid rest ih =>
      rw [filterMap_cons]
      split
      · exact ih.cons eid
      · rename_i d hd
        rw [map_cons, entityId_deltaOf hd]
        exact ih.cons_cons eid
  exact hkeys.sublist hsublist

end

end DataViz.Versioning
