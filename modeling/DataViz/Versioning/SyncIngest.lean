/-
# Source syncs

`sync_ingest` merges a source snapshot into a graph's main as one commit. The base
is main at its newest import or sync, ours is main at its head, theirs is what the
rows say. Only entities whose rows differ from main, that the snapshot drops or that
come with a resolution are merged, field by field; what the guards reason about is
drawn in around them.

A retried key's replay, the report's texts, the merkle root, the stats, the projection
target and the locks are not modelled, and neither is the refusal of a graph that is
too large or not live.
-/

import DataViz.Versioning.Merge
import DataViz.Versioning.SourceRows

namespace DataViz.Versioning

/-- `CommitORM.kind`, as far as a sync tells kinds apart: what a machine wrote, and
a person's work. -/
inductive SyncCommitKind
  | genesis
  | imported
  | sync
  | person
  deriving DecidableEq

/-- The deployment's settings a sync reads, and `str.upper`. -/
structure SyncConfig where
  setFields : List String
  deleteMaxAbs : ℕ
  /-- `int(SYNC_DELETE_MAX_FRACTION * live)`. -/
  deleteMaxFraction : ℕ → ℕ
  upper : String → String

structure SyncOptions where
  externalWins : Bool
  resolutions : Dict EntityId (Option Payload)
  containmentEdgeTypes : List String
  allowCurationRisk : Bool
  allowMassDelete : Bool
  holdsMain : Bool
  deletes : Bool

structure SyncConflict where
  entityId : EntityId
  conflict : Conflict
  deriving DecidableEq

inductive RefusedSync
  | curationAtRisk (seq : ℕ)
  | mergeConflict (conflicts : List SyncConflict)
  | dangling (message : String)
  | massDelete (deletes limit live : ℕ)
  | raised (error : PyError)
  deriving DecidableEq

inductive SyncOverride
  | curationAtRisk
  | massDelete
  deriving DecidableEq

/-- What a sync did: its commit, unless there was nothing to change, and what it
reports. -/
structure SyncReport (η : Type) where
  commit : Option (Commit η)
  rejected : List Rejected
  overridden : List SyncConflict
  overrides : List SyncOverride

def lastSyncSeq (commits : List (ℕ × SyncCommitKind)) : ℕ :=
  (((commits.filter fun commit => commit.2 = .imported ∨ commit.2 = .sync).map
    Prod.fst).max?).getD 0

def humanCommitInSyncBase (commits : List (ℕ × SyncCommitKind)) : Option ℕ :=
  ((commits.filter fun commit => commit.2 = .person ∧ commit.1 < lastSyncSeq commits).map
    Prod.fst).max?

/-- A round of the merge loop: the resolution of an entity, or its three-way merge. -/
def syncRound (setFields : List String) (policy : OnConflict)
    (resolutions : Dict EntityId (Option Payload)) (base ours : State)
    (theirs : Dict EntityId Payload) (eid : EntityId) :
    Except PyError (Option Payload × List Conflict) :=
  match resolutions.get? eid with
  | some resolution => .ok (livePayload resolution, [])
  | none =>
    (threeWayMerge (base.get? eid).join (ours.get? eid).join (theirs.get? eid) setFields
      policy).map fun out => (out.merged, out.conflicts)

def syncRounds (round : EntityId → Except PyError (Option Payload × List Conflict)) :
    List EntityId → Except PyError (State × List SyncConflict)
  | [] => .ok ([], [])
  | eid :: rest => do
    let (payload, confs) ← round eid
    let (merged, conflicts) ← syncRounds round rest
    return ((eid, payload) :: merged, confs.map (SyncConflict.mk eid) ++ conflicts)

def collapseEmptyPayloads (state : State) : State :=
  state.map fun entry => (entry.1, livePayload entry.2)

namespace SyncOptions

def policy (options : SyncOptions) : OnConflict :=
  if options.externalWins then .theirs else .ours

end SyncOptions

section

variable {η : Type} [DecidableEq η] (contentHash : Option Payload → η)
variable (config : SyncConfig) (order : SetOrder) (store : VersionStore η) (g : MainGraph)
variable (commits : List (ℕ × SyncCommitKind)) (options : SyncOptions)

/-- The live entities a snapshot drops, where its absences count. -/
def syncDeletions (read : Bounded) : List EntityId :=
  if options.deletes then liveIdsAbsentFrom store g.key read.seen else []

def syncChanged (read : Bounded) : List EntityId :=
  Dict.sortedKeys
    (read.theirs.keys ++ syncDeletions store g options read ++ options.resolutions.keys)

def syncOurs (read : Bounded) : State :=
  valuesAt store (g.layers g.head) (syncChanged store g options read)

/-- The merged values of the changed entities, and the conflicts: refused where nobody
wins them. -/
def syncMerged (read : Bounded) : Except RefusedSync (State × List SyncConflict) :=
  let changed := syncChanged store g options read
  let base := valuesAt store (g.layers (lastSyncSeq commits)) changed
  match syncRounds (syncRound config.setFields options.policy options.resolutions base
    (syncOurs store g options read) read.theirs) changed with
  | .error error => .error (.raised error)
  | .ok (merged, conflicts) =>
    if options.policy = .ours ∧ conflicts ≠ [] then .error (.mergeConflict conflicts)
    else .ok (collapseEmptyPayloads merged, conflicts)

/-- Both cascades of a sync. The first ends: `cascadeContainment_eq`. -/
def syncCascaded (merged : State) : State :=
  (cascadeIncidentEdges (((cascadeContainment config.upper order merged
    options.containmentEdgeTypes).map Prod.fst).getD merged)).1

/-- The two states a sync squashes, and the conflicts the source won. -/
def syncStates (read : Bounded) : Except RefusedSync ((State × State) × List SyncConflict) := do
  let (merged, overridden) ← syncMerged config store g commits options read
  let hydrated := hydration order store g merged
  let cascaded := syncCascaded config order options (merged ++ hydrated)
  match assertReferentialIntegrity cascaded with
  | .error message => .error (.dangling message)
  | .ok () => .ok ((syncOurs store g options read ++ hydrated, cascaded), overridden)

def payloadKinds (state : State) : Dict EntityId Kind :=
  state.items.filterMap fun entry =>
    entry.2.map fun p => (entry.1, if isEdgePayload p then .edge else .node)

/-- The commit that squashes two states onto main. -/
def syncCommit (now : ℕ) (states : State × State) : Commit η where
  branch := g.key
  seq := g.head + 1
  deltas := netDelta contentHash states.1 states.2
  kindByEntity := (payloadKinds states.1).update (payloadKinds states.2)
  now := now
  nodup := nodup_squash contentHash states
  payload_iff := payload_squash contentHash states

def mainLiveCount : ℕ :=
  ((headIndex store g.key).items.filter fun entry => !entry.2.isTombstone).length

/-- The guard of mass deletion: the overrides it proceeds under. -/
def massDeleteGuard (deltas : List (Delta η)) : Except RefusedSync (List SyncOverride) :=
  let deletes := (deltas.filter fun d => d.op = .delete).length
  let live := mainLiveCount store g
  let limit := max config.deleteMaxAbs (config.deleteMaxFraction live)
  if deletes ≤ config.deleteMaxAbs ∨ deletes ≤ limit then .ok []
  else if options.allowMassDelete then .ok [.massDelete]
  else .error (.massDelete deletes limit live)

def curationGuard : Except RefusedSync (List SyncOverride) :=
  match if options.holdsMain then none else humanCommitInSyncBase commits with
  | none => .ok []
  | some seq => if options.allowCurationRisk then .ok [.curationAtRisk]
      else .error (.curationAtRisk seq)

def syncIngest (newId : ℕ → EntityId) (rows : List Payload) (now : ℕ) :
    Except RefusedSync (SyncReport η) := do
  let curation ← curationGuard commits options
  let read := externalStateBounded contentHash store order g.key newId rows
  let (states, overridden) ← syncStates config order store g commits options read
  let commit := syncCommit contentHash g now states
  if commit.deltas = [] then
    return ⟨none, read.rejected, overridden.take 200, curation⟩
  else
    let mass ← massDeleteGuard config store g options commit.deltas
    return ⟨some commit, read.rejected, overridden.take 200, curation ++ mass⟩

end

end DataViz.Versioning
