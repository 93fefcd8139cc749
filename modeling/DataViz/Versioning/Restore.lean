/-
# Revert and restore

Both write one new commit on a graph's main. `revert_commit` takes back one
commit, unless an entity it touched has another value by now; `restore_to_commit`
takes back everything after one. They compose two as-of reads over the touched
entities, complete them with the neighbourhood the guards need, and squash the
difference.

A fork's main reads its parent's beneath its own rows, at the base it took with
its latest Update. The merkle root, the stats, the projection target and the
locks are not modelled, and neither is the refusal to write a trashed graph.
-/

import DataViz.Versioning.Cascade
import DataViz.Versioning.VersionStore

namespace DataViz.Versioning

/-- `CommitORM.kind`, as far as revert and restore tell kinds apart. -/
inductive CommitKind
  | genesis
  | syncParent
  | other
  deriving DecidableEq

structure CommitRow where
  branch : BranchKey
  seq : ℕ
  kind : CommitKind
  deriving DecidableEq

/-- A graph's main: its head, its commits, the sequence numbers at which it took a
base of its parent (`fork_bases`), and the parents it reads beneath its own rows.
Only the genesis commit and an Update from parent take a base. -/
structure MainGraph where
  key : BranchKey
  head : ℕ
  commits : Dict String CommitRow
  genesisSeq : ℕ
  forkSeqs : List ℕ
  parents : ℕ → List (BranchKey × ℕ)
  seq_mem : ∀ id row, commits.get? id = some row → row.branch = key →
    genesisSeq ≤ row.seq ∧ row.seq ≤ head
  takes_base : ∀ id row, commits.get? id = some row → row.branch = key →
    row.kind ≠ .genesis → row.kind ≠ .syncParent → genesisSeq < row.seq ∧ row.seq ∉ forkSeqs
  forkSeqs_le : ∀ seq ∈ forkSeqs, seq ≤ head
  parents_succ : ∀ seq, genesisSeq ≤ seq → seq + 1 ∉ forkSeqs → parents (seq + 1) = parents seq
  parents_ne : ∀ seq, ∀ layer ∈ parents seq, layer.1 ≠ key

inductive RefusedRevert
  | notOnMain
  | genesis
  | crossesUpdate
  | mergeConflict (entityIds : List EntityId)
  | dangling (message : String)
  deriving DecidableEq

namespace MainGraph

def layers (g : MainGraph) (seq : ℕ) : List (BranchKey × ℕ) :=
  (g.key, seq) :: g.parents seq

/-- The windows of `_changed_in_window`: main's own, then those of the parents it
reads at different sequence numbers at either end. -/
def windows (g : MainGraph) (lo hi : ℕ) : List (BranchKey × ℕ × ℕ) :=
  (g.key, lo, hi) :: List.zipWith (fun a b => (a.1, min a.2 b.2, max a.2 b.2))
    (g.parents lo) (g.parents hi)

end MainGraph

def writtenIn (rows : List VersionRow) (window : BranchKey × ℕ × ℕ) : List EntityId :=
  (rows.filter fun row => row.branch = window.1 ∧ window.2.1 < row.commitSeq ∧
    row.commitSeq ≤ window.2.2).map VersionRow.entityId

section

local instance lawfulKey : LawfulBEq BranchKey := inferInstance

variable {η : Type}

def changedInWindow (store : VersionStore η) (g : MainGraph) (lo hi : ℕ) : List EntityId :=
  ((g.windows lo hi).flatMap fun window =>
    writtenIn store.nodeVersions window ++ writtenIn store.edgeVersions window).dedup

/-- `_incident_edge_ids`: the edges with a row, of whatever age, that ends at one of
the ids. A row's end columns are the ends of its payload. -/
def incidentEdgeIds (store : VersionStore η) (g : MainGraph) (ids : List EntityId) :
    List EntityId :=
  let branches := (g.layers 0).map Prod.fst
  ((store.edgeVersions.filter fun row => row.branch ∈ branches ∧
    ((edgeSrcTgt (row.payload.getD [])).1 ∈ ids ∨
      (edgeSrcTgt (row.payload.getD [])).2 ∈ ids)).map VersionRow.entityId).dedup

def MainGraph.incidentLiveEdges (g : MainGraph) (store : VersionStore η) (ids : List EntityId) :
    Dict EntityId Payload :=
  let values := valuesAt store (g.layers g.head) (incidentEdgeIds store g ids)
  values.items.filterMap fun entry => entry.2.map (Prod.mk entry.1)

def namedEnds (p : Payload) : List EntityId :=
  [(edgeSrcTgt p).1, (edgeSrcTgt p).2].filter (· ≠ "")

variable (order : SetOrder)

/-- The ids `_hydrate_merge_neighborhood` reads: live edges at what a sparse state
deletes, and the ends of the edges it would keep. -/
def neighborhood (store : VersionStore η) (g : MainGraph) (merged : State) : List EntityId :=
  let tomb := tombstones merged
  let incident := if tomb = [] then [] else g.incidentLiveEdges store tomb
  let endpoints := (merged.items.filterMap Prod.snd ++ incident.map Prod.snd).flatMap namedEnds
  (order.iter 0 (Dict.keys incident ++ endpoints).dedup).filter fun eid => eid ∉ merged.keys

/-- What `_hydrate_merge_neighborhood` adds to both states: the values main holds. -/
def hydration (store : VersionStore η) (g : MainGraph) (merged : State) : State :=
  let need := neighborhood order store g merged
  let mainVals := valuesAt store (g.layers g.head) need
  Dict.ofKeys need fun eid => (mainVals.get? eid).join.map some

def restricted (values : State) (touched : List EntityId) : State :=
  touched.map fun eid => (eid, (values.get? eid).join)

/-- The tail revert and restore share, up to the squash: hydrate both sides,
cascade and guard the merged one. -/
def guarded (store : VersionStore η) (g : MainGraph) (merged theirs : State) :
    Except RefusedRevert (State × State) :=
  let hydrated := hydration order store g merged
  let cascaded := (cascadeIncidentEdges (merged ++ hydrated)).1
  match assertReferentialIntegrity cascaded with
  | .error message => .error (.dangling message)
  | .ok () => .ok (theirs ++ hydrated, cascaded)

/-- `_assert_within_base`: no Update from parent since the target. -/
def withinBase (g : MainGraph) (seq : ℕ) : Bool :=
  (g.forkSeqs.filter (· ≤ g.head)).all (· ≤ seq)

/-- The two states `_restore_delta` squashes, with the check of its caller that the
target is main's. -/
def restoreStates (store : VersionStore η) (g : MainGraph) (commitId : String) :
    Except RefusedRevert (State × State) :=
  match g.commits.get? commitId with
  | none => .error .notOnMain
  | some target =>
    if target.branch ≠ g.key then .error .notOnMain
    else if withinBase g target.seq = false then .error .crossesUpdate
    else
      let k := target.seq
      let touched := order.iter 0 (changedInWindow store g k g.head)
      let before := valuesAt store (g.layers k) touched
      let cur := valuesAt store (g.layers g.head) touched
      guarded order store g (restricted before touched) (restricted cur touched)

variable [DecidableEq η] (contentHash : Option Payload → η)

/-- The entities a revert finds changed since. -/
def revertConflicts (after cur : State) (touched : List EntityId) : List EntityId :=
  (Dict.sortedKeys touched).filter fun eid =>
    contentHash (cur.get? eid).join ≠ contentHash (after.get? eid).join

/-- The two states `_revert_commit_once` squashes. -/
def revertStates (store : VersionStore η) (g : MainGraph) (commitId : String) :
    Except RefusedRevert (State × State) :=
  match g.commits.get? commitId with
  | none => .error .notOnMain
  | some target =>
    if target.branch ≠ g.key then .error .notOnMain
    else if target.kind = .genesis then .error .genesis
    else if target.kind = .syncParent then .error .crossesUpdate
    else
      let k := target.seq
      let touched := order.iter 0 (changedInWindow store g (k - 1) k)
      let before := valuesAt store (g.layers (k - 1)) touched
      let after := valuesAt store (g.layers k) touched
      let cur := valuesAt store (g.layers g.head) touched
      match revertConflicts contentHash after cur touched with
      | [] => guarded order store g (restricted before touched) (restricted cur touched)
      | conflicts => .error (.mergeConflict conflicts)

/-- `_kind_map_multi`: an entity's kind in the nearest head set that has it. -/
def kindMapMulti (store : VersionStore η) (branches : List BranchKey) (ids : List EntityId) :
    Dict EntityId Kind :=
  Dict.ofKeys ids.dedup fun eid => branches.findSome? fun branch =>
    (store.entityHeads.get? (branch, eid)).map Head.entityKind

/-- `_resolve_delta_kinds`: the payload's shape, or for a delete the head's kind. -/
def resolveDeltaKinds (deltas : List (Delta η)) (fallback : Dict EntityId Kind) :
    Dict EntityId Kind :=
  deltas.foldl (fun out d => out.set d.entityId (match d.payload with
    | some p => if isEdgePayload p then .edge else .node
    | none => (out.get? d.entityId).getD ((fallback.get? d.entityId).getD .node))) fallback

theorem nodup_squash (states : State × State) :
    ((netDelta contentHash states.1 states.2).map Delta.entityId).Nodup :=
  nodup_netDelta _ _

theorem payload_squash (states : State × State) :
    ∀ d ∈ netDelta contentHash states.1 states.2, d.op = .delete ↔ d.payload = none :=
  fun _ hd => payload_deltaOf (mem_netDelta.mp hd)

def squashCommit (store : VersionStore η) (g : MainGraph) (now : ℕ) (states : State × State) :
    Commit η where
  branch := g.key
  seq := g.head + 1
  deltas := netDelta contentHash states.1 states.2
  kindByEntity := resolveDeltaKinds (netDelta contentHash states.1 states.2)
    (kindMapMulti store ((g.layers g.head).map Prod.fst)
      ((netDelta contentHash states.1 states.2).map Delta.entityId))
  now := now
  nodup := nodup_squash contentHash states
  payload_iff := payload_squash contentHash states

/-- The commit is written unless there is nothing to change. -/
def nonemptyCommit (commit : Commit η) : Option (Commit η) :=
  if commit.deltas = [] then none else some commit

def revertCommit (store : VersionStore η) (g : MainGraph) (commitId : String) (now : ℕ) :
    Except RefusedRevert (Option (Commit η)) :=
  (revertStates order contentHash store g commitId).map fun states =>
    nonemptyCommit (squashCommit contentHash store g now states)

def restoreToCommit (store : VersionStore η) (g : MainGraph) (commitId : String) (now : ℕ) :
    Except RefusedRevert (Option (Commit η)) :=
  (restoreStates order store g commitId).map fun states =>
    nonemptyCommit (squashCommit contentHash store g now states)

end

end DataViz.Versioning
