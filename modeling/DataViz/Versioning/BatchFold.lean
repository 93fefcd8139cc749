/-
# A batch of operations, one by one and folded

`changeset.py`: `materialize` applies a list of operations to a state in order, and
`fold_batch_ops` first composes the operations on each entity to one pending value,
a patch when they are updates. `_apply_ops_once` then lays the pending values over
the current state. An operation names `create`, `update` or `delete`; staging
refuses any other.
-/

import DataViz.Versioning.Changeset
import DataViz.Versioning.PropertyPatch

namespace DataViz.Versioning

structure ChangeOp where
  entityId : EntityId
  op : Op
  payload : Option Payload
  entityKind : Option Kind
  baseVersion : Option String
  deriving DecidableEq

def ChangeOp.applyTo (op : ChangeOp) (value : Option Payload) :
    Except CompareError (Option Payload) :=
  match op.op, op.payload, value with
  | .delete, _, _ => .ok none
  | _, none, _ => .ok none
  | .update, some payload, some current => (applyPatch (some current) payload).map some
  | _, some payload, _ => .ok (some (stripDeletes payload))

def materializeOp (state : State) (op : ChangeOp) : Except CompareError State := do
  let value ← op.applyTo (state.get? op.entityId).join
  return state.set op.entityId value

def materialize (baseState : State) (ops : List ChangeOp) : Except CompareError State :=
  ops.foldlM materializeOp baseState

/-- `BatchFold`: one batch of operations folded to at most one pending value for each
entity. -/
structure BatchFold where
  newVals : State
  kindByEntity : Dict EntityId Kind
  updateIds : List EntityId
  baseVersions : Dict EntityId String

namespace BatchFold

def empty : BatchFold := ⟨[], [], [], []⟩

end BatchFold

section

variable (isEdgePayload : Payload → Bool) (sanitizeNode : Payload → Payload)

def ChangeOp.kind (op : ChangeOp) : Kind :=
  op.entityKind.getD (if isEdgePayload (op.payload.getD []) then .edge else .node)

/-- One round of `fold_batch_ops`. -/
def foldOp (out : BatchFold) (op : ChangeOp) : Except CompareError BatchFold :=
  let eid := op.entityId
  let payload := op.payload.getD []
  let kind := op.kind isEdgePayload
  let sanitized := fun value : Payload =>
    some (if kind = .node then sanitizeNode value else value)
  let kindByEntity := out.kindByEntity.set eid kind
  match op.op, (out.newVals.get? eid).join with
  | .update, some earlier => do
    let value ← if eid ∈ out.updateIds then composePatches earlier payload
      else applyPatch (some earlier) payload
    return { out with
      newVals := out.newVals.set eid (sanitized value)
      kindByEntity := kindByEntity }
  | .update, none =>
    .ok
      { newVals := out.newVals.set eid (sanitized payload)
        kindByEntity := kindByEntity
        updateIds := out.updateIds.insert eid
        baseVersions :=
          match op.baseVersion with
          | some version => out.baseVersions.set eid version
          | none => out.baseVersions }
  | .create, _ =>
    .ok { out with
        newVals := out.newVals.set eid (sanitized (stripDeletes payload))
        kindByEntity := kindByEntity
        updateIds := out.updateIds.filter (· ≠ eid) }
  | .delete, _ =>
    .ok { out with
        newVals := out.newVals.set eid none
        kindByEntity := kindByEntity
        updateIds := out.updateIds.filter (· ≠ eid) }

def foldBatchOps (ops : List ChangeOp) : Except CompareError BatchFold :=
  ops.foldlM (foldOp isEdgePayload sanitizeNode) BatchFold.empty

end

/-- What a pending value leaves of an entity: a patch is applied onto its current value,
anything else replaces it. -/
def layEntry (curVals : State) (fold : BatchFold) (eid : EntityId) :
    Option Payload → Except CompareError (Option Payload)
  | some value =>
    if eid ∈ fold.updateIds then (applyPatch (curVals.get? eid).join value).map some
    else .ok (some value)
  | none => .ok none

def layFold (curVals : State) (fold : BatchFold) : Except CompareError State := do
  let laid ← fold.newVals.mapValuesM (layEntry curVals fold)
  return curVals.update laid

end DataViz.Versioning
