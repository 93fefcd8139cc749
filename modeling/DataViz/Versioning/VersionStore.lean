/-
# Version rows and head pointers

A commit appends one version row for each changed entity, to the table of the
kind the change is recorded under, and points the entity's head at it. Reads as
of a sequence number pick the newest row of each table at or below it, the node
table first and the edge table over it.

One store holds the rows of every branch of every graph. `prefixed_id` never
repeats: the ids count up. Batches of a statement are written at once.
-/

import DataViz.Versioning.Changeset
import Mathlib.Data.List.MinMax
import Mathlib.Data.Prod.Lex

namespace DataViz.Versioning

abbrev BranchKey := String × String

/-- A row of `node_versions` or `edge_versions`. -/
structure VersionRow where
  id : ℕ
  branch : BranchKey
  entityId : EntityId
  commitSeq : ℕ
  op : Op
  payload : Option Payload
  createdAt : ℕ
  deriving DecidableEq

structure Head (η : Type) where
  entityKind : Kind
  headVersionId : ℕ
  contentHash : η
  isTombstone : Bool
  deriving DecidableEq

structure VersionStore (η : Type) where
  nodeVersions : List VersionRow
  edgeVersions : List VersionRow
  entityHeads : Dict (BranchKey × EntityId) (Head η)
  nextId : ℕ

/-- A commit with the changes it writes, at most one for each entity and with a
payload unless it deletes, and the kinds they are recorded under. -/
structure Commit (η : Type) where
  branch : BranchKey
  seq : ℕ
  deltas : List (Delta η)
  kindByEntity : Dict EntityId Kind
  now : ℕ
  nodup : (deltas.map Delta.entityId).Nodup
  payload_iff : ∀ d ∈ deltas, d.op = .delete ↔ d.payload = none

/-- What `_upsert_heads` is given for an entity. -/
structure HeadChange (η : Type) where
  entityId : EntityId
  head : Head η
  preImage : η

structure StaleHead where
  entityId : EntityId
  deriving DecidableEq

variable {η : Type}

namespace VersionStore

def empty : VersionStore η := ⟨[], [], [], 0⟩

def versions (store : VersionStore η) : Kind → List VersionRow
  | .node => store.nodeVersions
  | .edge => store.edgeVersions

end VersionStore

def Commit.kindOf (commit : Commit η) (eid : EntityId) : Kind :=
  (commit.kindByEntity.get? eid).getD .node

def versionRow (commit : Commit η) (vid : ℕ) (d : Delta η) : VersionRow where
  id := vid
  branch := commit.branch
  entityId := d.entityId
  commitSeq := commit.seq
  op := d.op
  payload := d.payload
  createdAt := commit.now

/-- The rows a commit adds to the table of a kind, with their ids counted from a
first one. -/
def versionRows (commit : Commit η) (kind : Kind) : ℕ → List (Delta η) → List VersionRow
  | _, [] => []
  | vid, d :: rest =>
    if commit.kindOf d.entityId = kind then
      versionRow commit vid d :: versionRows commit kind (vid + 1) rest
    else versionRows commit kind (vid + 1) rest

section

variable (contentHash : Option Payload → η)

def headChanges (commit : Commit η) : ℕ → List (Delta η) → List (HeadChange η)
  | _, [] => []
  | vid, d :: rest =>
    { entityId := d.entityId
      head :=
        { entityKind := commit.kindOf d.entityId
          headVersionId := vid
          contentHash := d.contentHash
          isTombstone := d.op = .delete }
      preImage := d.prevContentHash.getD (contentHash none) } ::
      headChanges commit (vid + 1) rest

/-- Point the heads of some entities at their new versions. -/
def pointHeads (branch : BranchKey) (heads : Dict (BranchKey × EntityId) (Head η))
    (changes : List (HeadChange η)) : Dict (BranchKey × EntityId) (Head η) :=
  changes.foldl (fun heads change => heads.set (branch, change.entityId) change.head) heads

variable [DecidableEq η]

/-- The `WHERE` of `_ADVANCE_HEADS`: the head is still at the pre-image. -/
def atPreImage (branch : BranchKey) (heads : Dict (BranchKey × EntityId) (Head η))
    (change : HeadChange η) : Bool :=
  (heads.get? (branch, change.entityId)).any fun current =>
    current.contentHash = change.preImage ||
      (change.preImage = contentHash none && current.contentHash = contentHash (some []))

/-- `_ADVANCE_HEADS`: the heads still at their pre-image move; the entities moved. -/
def advanceHeads (branch : BranchKey) (heads : Dict (BranchKey × EntityId) (Head η))
    (changes : List (HeadChange η)) :
    Dict (BranchKey × EntityId) (Head η) × List EntityId :=
  let moved := changes.filter (atPreImage contentHash branch heads)
  (pointHeads branch heads moved, moved.map HeadChange.entityId)

def addHeads (branch : BranchKey) (heads : Dict (BranchKey × EntityId) (Head η))
    (changes : List (HeadChange η)) :
    Dict (BranchKey × EntityId) (Head η) × List EntityId :=
  let added := changes.filter fun change => (heads.get? (branch, change.entityId)).isNone
  (pointHeads branch heads added, added.map HeadChange.entityId)

/-- `_upsert_heads`. Under the guard an entity neither moved nor added lost the
race. -/
def upsertHeads (branch : BranchKey) (heads : Dict (BranchKey × EntityId) (Head η))
    (changes : List (HeadChange η)) (occGuard : Bool) :
    Except StaleHead (Dict (BranchKey × EntityId) (Head η)) :=
  if ¬ occGuard then .ok (pointHeads branch heads changes)
  else
    let (heads, advanced) := advanceHeads contentHash branch heads changes
    let fresh := changes.filter fun change => change.entityId ∉ advanced
    let (heads, added) := addHeads branch heads fresh
    match changes.find? fun change => change.entityId ∉ advanced ++ added with
    | some change => .error ⟨change.entityId⟩
    | none => .ok heads

def writeDeltas (store : VersionStore η) (commit : Commit η) (occGuard : Bool) :
    Except StaleHead (VersionStore η) :=
  match upsertHeads contentHash commit.branch store.entityHeads
      (headChanges contentHash commit store.nextId commit.deltas) occGuard with
  | .error stale => .error stale
  | .ok heads => .ok
      { nodeVersions := store.nodeVersions ++
          versionRows commit .node store.nextId commit.deltas
        edgeVersions := store.edgeVersions ++ versionRows commit .edge store.nextId commit.deltas
        entityHeads := heads
        nextId := store.nextId + commit.deltas.length }

end

/-- The rows a read of a branch at a sequence number considers. -/
def rowsAt (rows : List VersionRow) (branch : BranchKey) (seq : ℕ) : List VersionRow :=
  rows.filter fun row => row.branch = branch ∧ row.commitSeq ≤ seq

/-- `DISTINCT ON (entity_id)` in the order `commit_seq DESC, created_at DESC`. -/
def winner (rows : List VersionRow) (eid : EntityId) : Option VersionRow :=
  (rows.filter fun row => row.entityId = eid).argmax fun row =>
    toLex (row.commitSeq, row.createdAt)

def VersionRow.value (row : VersionRow) : Option Payload :=
  if row.op = .delete then none else row.payload

/-- The values one layer of `_values_at` reads for the ids still open. -/
def layerValues (store : VersionStore η) (branch : BranchKey) (seq : ℕ) (ids : List EntityId) :
    State :=
  let read := fun kind : Kind => Dict.ofKeys ids.dedup fun eid =>
    (winner (rowsAt (store.versions kind) branch seq) eid).map VersionRow.value
  (read .node).update (read .edge)

/-- `_values_at`, over the layers a read composes (`_layers`), nearest first. -/
def valuesAt (store : VersionStore η) : List (BranchKey × ℕ) → List EntityId → State
  | [], _ => []
  | (branch, seq) :: layers, ids =>
    let out := layerValues store branch seq ids
    out.update (valuesAt store layers (ids.filter fun eid => eid ∉ out.keys))

def payloadsByVersion (rows : List VersionRow) (vids : List ℕ) : Dict ℕ (Option Payload) :=
  (rows.filter fun row => row.id ∈ vids).map fun row => (row.id, row.payload)

/-- The pass of `_state_as_of` over one table: the winners, then the payloads of
the live ones. -/
def tableState (rows : List VersionRow) (branch : BranchKey) (seq : ℕ) : State :=
  let candidates := rowsAt rows branch seq
  let winners := (candidates.map VersionRow.entityId).dedup.filterMap (winner candidates)
  let payloadByVid := payloadsByVersion rows
    ((winners.filter fun row => row.op ≠ .delete).map VersionRow.id)
  winners.map fun row =>
    (row.entityId, if row.op = .delete then none else (payloadByVid.get? row.id).join)

/-- `_state_as_of`, over the same layers: a fork's own state lies over its
parent's. -/
def stateAsOf (store : VersionStore η) : List (BranchKey × ℕ) → State
  | [] => []
  | (branch, seq) :: layers =>
    ((stateAsOf store layers).update (tableState store.nodeVersions branch seq)).update
      (tableState store.edgeVersions branch seq)

def branchOwnPayloads (store : VersionStore η) (branch : BranchKey) : State :=
  let heads := store.entityHeads.items.filter fun entry => entry.1.1 = branch
  let vids := fun kind : Kind => (heads.filter fun entry =>
    !entry.2.isTombstone && decide (entry.2.entityKind = kind)).map fun entry =>
      entry.2.headVersionId
  let payloadByVid := fun kind : Kind => payloadsByVersion (store.versions kind) (vids kind)
  heads.map fun entry => (entry.1.2, if entry.2.isTombstone then none
    else ((payloadByVid .node).update (payloadByVid .edge)).get? entry.2.headVersionId |>.join)

end DataViz.Versioning
