/-
# A fork as a patch over its root

A reader serves a fork's main from its root's store and a patch set: what the fork
created, changed and removed, each named by its entity id, with the urns a reader
knows nodes and edge ends by. The patch set is told from content hashes and
version-row columns. When only the root moved, the one at hand is extended by the
entities the root changed, classified again.

A row's columns and content hash are those of its payload. A head's columns come
from the row of its version id, its content hash from the head. Pages, chunks and
interned strings are not modelled, nor is the `since` note an extension is
admitted by.
-/

import DataViz.Versioning.Restore

namespace DataViz.Versioning

structure Stored (η : Type) where
  kind : Kind
  contentHash : η
  urn : Option String
  type : Option String
  src : Option EntityId
  tgt : Option EntityId
  name : Option String
  qname : Option String
  deriving DecidableEq

/-- A fork's main: its head, the forks between it and its root with the bases they
are read at, and its root's main with the base it is read at. -/
structure Fork where
  key : BranchKey
  head : ℕ
  between : List (BranchKey × ℕ)
  root : BranchKey
  base : ℕ

def Fork.layers (fork : Fork) : List (BranchKey × ℕ) :=
  (fork.key, fork.head) :: (fork.between ++ [(fork.root, fork.base)])

structure EdgePlace where
  sourceUrn : String
  targetUrn : String
  edgeType : String
  deriving DecidableEq

/-- An entry of `nodesUpsert`. -/
structure NodeSkeleton where
  urn : String
  entityId : EntityId
  entityType : String
  displayName : String
  qualifiedName : Option String
  deriving DecidableEq

/-- An entry of `nodesModified` or of `nodesRemove`. -/
structure NodeName where
  entityId : EntityId
  urn : String
  deriving DecidableEq

/-- An entry of `edgesUpsert`, with where the base has the edge. -/
structure EdgeSkeleton where
  id : EntityId
  place : EdgePlace
  was : Option EdgePlace
  deriving DecidableEq

/-- An entry of `edgesRemove`. -/
structure RemovedEdge where
  id : EntityId
  place : EdgePlace
  deriving DecidableEq

structure PatchSet where
  nodesUpsert : List NodeSkeleton
  nodesModified : List NodeName
  nodesRemove : List NodeName
  edgesUpsert : List EdgeSkeleton
  edgesRemove : List RemovedEdge
  nodesNew : List String
  deriving DecidableEq

inductive PatchEntry
  | nodesUpsert (entry : NodeSkeleton)
  | nodesModified (entry : NodeName)
  | nodesRemove (entry : NodeName)
  | edgesUpsert (entry : EdgeSkeleton)
  | edgesRemove (entry : RemovedEdge)
  deriving DecidableEq

def PatchEntry.key : PatchEntry → EntityId
  | nodesUpsert entry => entry.entityId
  | nodesModified entry => entry.entityId
  | nodesRemove entry => entry.entityId
  | edgesUpsert entry => entry.id
  | edgesRemove entry => entry.id

namespace PatchSet

def empty : PatchSet := ⟨[], [], [], [], [], []⟩

/-- Append an entry to its list; a created node's urn is new. -/
def add (out : PatchSet) : PatchEntry → PatchSet
  | .nodesUpsert entry =>
    { out with
      nodesUpsert := out.nodesUpsert ++ [entry], nodesNew := out.nodesNew ++ [entry.urn] }
  | .nodesModified entry => { out with nodesModified := out.nodesModified ++ [entry] }
  | .nodesRemove entry => { out with nodesRemove := out.nodesRemove ++ [entry] }
  | .edgesUpsert entry => { out with edgesUpsert := out.edgesUpsert ++ [entry] }
  | .edgesRemove entry => { out with edgesRemove := out.edgesRemove ++ [entry] }

def entries (patch : PatchSet) : List PatchEntry :=
  patch.nodesUpsert.map .nodesUpsert ++ patch.nodesModified.map .nodesModified ++
    patch.nodesRemove.map .nodesRemove ++ patch.edgesUpsert.map .edgesUpsert ++
    patch.edgesRemove.map .edgesRemove

end PatchSet

def endName (urns : Dict EntityId String) : Option EntityId → String
  | none => ""
  | some eid => if eid = "" then "" else (urns.get? eid).getD eid

def urnOr (urn : Option String) (eid : EntityId) : String :=
  (pyOr urn none).getD ("gv:" ++ eid)

section

variable {η : Type}

def placeOf (urns : Dict EntityId String) (v : Stored η) : EdgePlace where
  sourceUrn := endName urns v.src
  targetUrn := endName urns v.tgt
  edgeType := (pyOr v.type none).getD "unknown"

def was (held : Option (Stored η)) (urns : Dict EntityId String) : Option EdgePlace :=
  held.map (placeOf urns)

variable [DecidableEq η] (ourUrns theirUrns : Dict EntityId String)

/-- The round of `_fork_patch` for an entity: the fork's value of it against the
root's. -/
def classified (eid : EntityId) : Option (Stored η) → Option (Stored η) → Option PatchEntry
  | none, none => none
  | some f, none =>
    some (if f.kind = .node then
      .nodesUpsert
        { urn := urnOr f.urn eid
          entityId := eid
          entityType := (pyOr f.type none).getD "unknown"
          displayName := f.name.getD ""
          qualifiedName := f.qname }
    else .edgesUpsert ⟨eid, placeOf ourUrns f, none⟩)
  | none, some r =>
    some (if r.kind = .node then .nodesRemove ⟨eid, urnOr r.urn eid⟩
    else .edgesRemove ⟨eid, placeOf theirUrns r⟩)
  | some f, some r =>
    if f.contentHash = r.contentHash then none
    else some (if f.kind = .node then .nodesModified ⟨eid, urnOr (pyOr f.urn r.urn) eid⟩
      else .edgesUpsert ⟨eid, placeOf ourUrns f, was (some r) theirUrns⟩)

def forkPatch (ids : List EntityId) (ours theirs : Dict EntityId (Stored η)) : PatchSet :=
  ids.foldl (fun out eid =>
    match classified ourUrns theirUrns eid (ours.get? eid) (theirs.get? eid) with
    | none => out
    | some entry => out.add entry) .empty

end

def extendedPatch (prev window : PatchSet) (ids : List EntityId) : PatchSet :=
  let gone := (prev.nodesUpsert.filter fun n => n.entityId ∈ ids).map NodeSkeleton.urn
  { nodesUpsert := prev.nodesUpsert.filter (fun n => n.entityId ∉ ids) ++ window.nodesUpsert
    nodesModified := prev.nodesModified.filter (fun n => n.entityId ∉ ids) ++ window.nodesModified
    nodesRemove := prev.nodesRemove.filter (fun n => n.entityId ∉ ids) ++ window.nodesRemove
    edgesUpsert := prev.edgesUpsert.filter (fun e => e.id ∉ ids) ++ window.edgesUpsert
    edgesRemove := prev.edgesRemove.filter (fun e => e.id ∉ ids) ++ window.edgesRemove
    nodesNew := prev.nodesNew.filter (fun u => u ∉ gone) ++ window.nodesNew }

section

variable {η : Type} [DecidableEq η] (contentHash : Option Payload → η)

/-- A value as its version row's columns say it. -/
def storedOf (kind : Kind) (chash : η) (p : Payload) : Stored η :=
  match kind with
  | .node => ⟨.node, chash, textAt p "urn", textAt p "entityType", none, none,
      textAt p "displayName", textAt p "qualifiedName"⟩
  | .edge => ⟨.edge, chash, none, textAt p "edgeType", some (edgeSrcTgt p).1,
      some (edgeSrcTgt p).2, none, none⟩

def liveHash (chash : η) : Bool :=
  chash ≠ contentHash (some []) ∧ chash ≠ contentHash none

def storedValue (kind : Kind) (value : Option Payload) : Option (Stored η) :=
  value.bind fun p =>
    if liveHash contentHash (contentHash (some p)) then
      some (storedOf kind (contentHash (some p)) p)
    else none

variable (store : VersionStore η)

/-- The live values one layer of `_hashes_at` reads: the edge table's over the node
table's. -/
def layerHashes (branch : BranchKey) (seq : ℕ) (ids : List EntityId) : Dict EntityId (Stored η) :=
  let read := fun kind : Kind => Dict.ofKeys ids.dedup fun eid =>
    (winner (rowsAt (store.versions kind) branch seq) eid).bind fun row =>
      storedValue contentHash kind row.value
  (read .node).update (read .edge)

/-- `_hashes_at`, over the layers a read composes. A layer answers for the ids it has
a row of, live or not. -/
def hashesAt : List (BranchKey × ℕ) → List EntityId → Dict EntityId (Stored η)
  | [], _ => []
  | (branch, seq) :: layers, ids =>
    let seen := (layerValues store branch seq ids).keys
    (layerHashes contentHash store branch seq ids).update
      (hashesAt layers (ids.filter fun eid => eid ∉ seen))

def headIndex (branch : BranchKey) : Dict EntityId (Head η) :=
  (store.entityHeads.items.filter fun entry => entry.1.1 = branch).map fun entry =>
    (entry.1.2, entry.2)

/-- The version row of a head, with its table: its kind's is asked first, then the
other. -/
def headRow (head : Head η) : Option (Kind × VersionRow) :=
  let inTable := fun table : Kind =>
    ((store.versions table).find? fun row => row.id = head.headVersionId).map (Prod.mk table)
  let other := match head.entityKind with
    | .node => .edge
    | .edge => .node
  (inTable head.entityKind).or (inTable other)

/-- A live head's value, with the columns of its version row. -/
def storedHead (head : Head η) : Option (Stored η) :=
  if head.isTombstone || !liveHash contentHash head.contentHash then none
  else some <| match headRow store head with
    | none => ⟨head.entityKind, head.contentHash, none, none, none, none, none, none⟩
    | some (table, row) =>
      { storedOf table head.contentHash (row.payload.getD []) with kind := head.entityKind }

def ends (values : Dict EntityId (Stored η)) : List EntityId :=
  (values.items.flatMap fun entry =>
    if entry.2.kind ≠ .node then [entry.2.src, entry.2.tgt].filterMap id else []).filter (· ≠ "")

/-- `_last_urns` of a node id: the last urn a row of it carried, in the first graph
of the layers that has one. -/
def lastUrn (layers : List (BranchKey × ℕ)) (eid : EntityId) : Option String :=
  layers.findSome? fun layer =>
    ((store.nodeVersions.filter fun row => row.branch.1 = layer.1.1 ∧ row.entityId = eid ∧
      (textAt (row.payload.getD []) "urn").isSome).argmax VersionRow.createdAt).bind
        fun row => textAt (row.payload.getD []) "urn"

/-- The urn `_current_urns` names a node id by: that of a value in hand, else of the
value the layers hold, else the last one it carried, else the id. -/
def currentUrn (layers : List (BranchKey × ℕ)) (known read : Dict EntityId (Stored η))
    (eid : EntityId) : String :=
  let inHand := (known.get? eid).bind fun v => if v.kind = .node then pyOr v.urn none else none
  let held := (read.get? eid).bind fun v =>
    if v.kind = .node then some (urnOr v.urn eid) else none
  (inHand.or (held.or (lastUrn store layers eid))).getD eid

def currentUrns (layers : List (BranchKey × ℕ)) (known : Dict EntityId (Stored η))
    (ids : List EntityId) : Dict EntityId String :=
  let read := hashesAt contentHash store layers ids
  Dict.ofKeys (ids.filter (· ≠ "")).dedup fun eid =>
    some (currentUrn store layers known read eid)

/-- `_changed_in_window` of a root: it reads no parent's rows. -/
def rootChanges (root : BranchKey) (lo hi : ℕ) : List EntityId :=
  (writtenIn store.nodeVersions (root, lo, hi) ++ writtenIn store.edgeVersions (root, lo, hi)).dedup

def ownChanges (layer : BranchKey × ℕ) : List EntityId :=
  ((rowsAt store.nodeVersions layer.1 layer.2 ++
    rowsAt store.edgeVersions layer.1 layer.2).map VersionRow.entityId).dedup

variable (order : SetOrder) (fork : Fork)

/-- The fork's live values of some ids, from its heads where it has one. -/
def oursOf (heads : Option (Dict EntityId (Head η))) (ids : List EntityId) :
    Dict EntityId (Stored η) :=
  match heads with
  | none => hashesAt contentHash store fork.layers ids
  | some heads =>
    let own := Dict.ofKeys (heads.keys.filter (· ∈ ids)) fun eid =>
      (heads.get? eid).bind (storedHead contentHash store)
    own.update (hashesAt contentHash store fork.layers.tail
      (ids.filter fun eid => eid ∉ heads.keys))

def forkClassified (heads : Option (Dict EntityId (Head η))) (ids : List EntityId)
    (rootHead : ℕ) : PatchSet :=
  let ours := oursOf contentHash store fork heads ids
  let theirs := hashesAt contentHash store [(fork.root, rootHead)] ids
  forkPatch (currentUrns contentHash store fork.layers ours (ends ours))
    (currentUrns contentHash store [(fork.root, rootHead)] theirs (ends theirs))
    (order.iter 0 ids) ours theirs

/-- The ids a fork and its root may differ on: the fork's own, those of each fork
between up to its base, and the root's since the outermost base. -/
def forkIds (rootHead : ℕ) : List EntityId :=
  ((headIndex store fork.key).keys ++ fork.between.flatMap (ownChanges store) ++
    if rootHead > fork.base then rootChanges store fork.root fork.base rootHead else []).dedup

def forkOverlayDelta (rootHead : ℕ) : PatchSet :=
  forkClassified contentHash store order fork (some (headIndex store fork.key))
    (forkIds store fork rootHead) rootHead

/-- `_fork_overlay_delta` by extension of a patch set built when the root was at an
older head. -/
def extendOverlayDelta (extend : PatchSet) (since rootHead : ℕ) : PatchSet :=
  let ids := rootChanges store fork.root since rootHead
  extendedPatch extend (forkClassified contentHash store order fork none ids rootHead) ids

end

namespace PatchSet

/-- The ids whose values the patch set serves, loaded from the fork. -/
def served (patch : PatchSet) : List EntityId :=
  patch.nodesUpsert.map NodeSkeleton.entityId ++ patch.nodesModified.map NodeName.entityId ++
    patch.edgesUpsert.map EdgeSkeleton.id

def removed (patch : PatchSet) : List EntityId :=
  patch.nodesRemove.map NodeName.entityId ++ patch.edgesRemove.map RemovedEdge.id

def lay (patch : PatchSet) (base values : State) : State :=
  Dict.update (base.filter fun entry => entry.1 ∉ patch.removed)
    (values.filter fun entry => entry.1 ∈ patch.served)

end PatchSet

/-- The patch set laid over the root's state at a head, with the values a reader
loads through the fork's layers. -/
def laidOver {η : Type} (store : VersionStore η) (fork : Fork) (patch : PatchSet)
    (rootHead : ℕ) : State :=
  patch.lay (stateAsOf store [(fork.root, rootHead)]) (valuesAt store fork.layers patch.served)

end DataViz.Versioning
