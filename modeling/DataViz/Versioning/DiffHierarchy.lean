/-
# The review tree

`_build_diff_hierarchy` reshapes the squash of two states into a containment
tree for the review screens: changed nodes nest under their containers, a change
without a container is bucketed by type, and each row carries the number of
changes below it. The parent map is read off both states, the target first, so
that a moved child is shown where it went and a deleted one where it was.

`upper` and `lower` are Python's `str.upper` and `str.lower`. A rollup that
recurses without end is `none`; Python's own limit on the depth of a recursion is
not modelled, and neither is the table that saves `rollup` a second visit. Types,
labels and endpoints are texts, or missing.
-/

import Mathlib.Data.Prod.Lex
import DataViz.Data.ParentTree
import DataViz.Versioning.Cascade
import DataViz.Versioning.Changeset

namespace DataViz.Versioning

/-- How a row shows what happened to its entity. -/
inductive Status
  | added
  | modified
  | removed
  | unchanged
  deriving DecidableEq

def Op.status : Op → Status
  | .create => .added
  | .update => .modified
  | .delete => .removed

@[ext]
structure Counts where
  added : ℕ
  modified : ℕ
  removed : ℕ
  deriving DecidableEq

namespace Counts

instance : Zero Counts := ⟨⟨0, 0, 0⟩⟩

instance : Add Counts :=
  ⟨fun a b => ⟨a.added + b.added, a.modified + b.modified, a.removed + b.removed⟩⟩

theorem add_def (a b : Counts) :
    a + b = ⟨a.added + b.added, a.modified + b.modified, a.removed + b.removed⟩ := rfl

theorem zero_def : (0 : Counts) = ⟨0, 0, 0⟩ := rfl

instance : AddCommMonoid Counts where
  add_assoc a b c := by simp [add_def, Nat.add_assoc]
  zero_add a := by simp [add_def, zero_def]
  add_zero a := by simp [add_def, zero_def]
  add_comm a b := by simp [add_def, Nat.add_comm]
  nsmul := nsmulRec

/-- `c[_OP_STATUS[d.op]] += 1` on an empty tally. -/
def ofOp : Op → Counts
  | .create => ⟨1, 0, 0⟩
  | .update => ⟨0, 1, 0⟩
  | .delete => ⟨0, 0, 1⟩

/-- `sum(counts.values())`. -/
def total (c : Counts) : ℕ :=
  c.added + c.modified + c.removed

end Counts

/-- A row's kind: a container can be opened, a bucket groups changes of a type. -/
inductive RowKind
  | container
  | leaf
  | bucket
  deriving DecidableEq

structure Row where
  key : String
  kind : RowKind
  entityKind : Kind
  label : String
  entityType : Option String
  status : Option Status
  counts : Counts
  childTotal : ℕ
  deleted : Bool
  before : Option Payload
  after : Option Payload
  deriving DecidableEq

/-- Python's `a or b` where `b` is a text. -/
def orText (a : Option String) (b : String) : String :=
  match a with
  | some s => if s = "" then b else s
  | none => b

/-- `key.partition(":")` without its separator. -/
def partitionColon (key : String) : String × String :=
  (String.ofList (key.toList.takeWhile (· ≠ ':')),
    String.ofList ((key.toList.dropWhile (· ≠ ':')).drop 1))

/-- The locals of `_build_diff_hierarchy` its inner functions read. -/
structure DiffTree (η : Type) where
  merged : State
  theirs : State
  cset : List String
  deltas : List (Delta η)
  parentOf : Dict EntityId EntityId
  relevant : List EntityId

def payloadOf (merged theirs : State) (eid : EntityId) : Payload :=
  ((merged.get? eid).join.or (theirs.get? eid).join).getD []

/-- The loop of `ancestors`: up to `fuel` further parents, and no parent twice. -/
def ancestorLoop (parentOf : Dict EntityId EntityId) :
    ℕ → Option EntityId → List EntityId → List EntityId
  | 0, _, chain => chain
  | _, none, chain => chain
  | fuel + 1, some cur, chain =>
    if cur ∈ chain then chain
    else ancestorLoop parentOf fuel (parentOf.get? cur) (chain ++ [cur])

def ancestors (parentOf : Dict EntityId EntityId) (eid : EntityId) : List EntityId :=
  ancestorLoop parentOf 64 (parentOf.get? eid) []

section

variable {η : Type} [DecidableEq η]
variable (upper lower : String → String) (contentHash : Option Payload → η) (order : SetOrder)

/-- `parent_of`: child to parent, a later edge over an earlier one. -/
def parentMap (cset : List String) (merged theirs : State) : Dict EntityId EntityId :=
  (containmentLinks upper cset theirs ++ containmentLinks upper cset merged).foldl
    (fun parentOf link => parentOf.set link.2 link.1) []

/-- The locals, up to the relevant nodes: the changed nodes and their containers. -/
def diffTree (merged theirs : State) (containmentEdgeTypes : List String) : DiffTree η :=
  let cset := containmentEdgeTypes.map upper
  let deltas := netDelta contentHash theirs merged
  let parentOf := parentMap upper cset merged theirs
  let changedNodes := (deltas.map Delta.entityId).filter fun eid =>
    !isEdgePayload (payloadOf merged theirs eid)
  { merged, theirs, cset, deltas, parentOf
    relevant := order.iter 0 (changedNodes ++ changedNodes.flatMap (ancestors parentOf)).dedup }

namespace DiffTree

variable (t : DiffTree η)

def payload (eid : EntityId) : Payload :=
  payloadOf t.merged t.theirs eid

def isEdge (eid : EntityId) : Bool :=
  isEdgePayload (t.payload eid)

def isContainmentEdge (eid : EntityId) : Bool :=
  upper (edgeType (t.payload eid)) ∈ t.cset

def delta (eid : EntityId) : Option (Delta η) :=
  t.deltas.find? fun d => d.entityId = eid

def changedNodes : List EntityId :=
  (t.deltas.map Delta.entityId).filter fun eid => !t.isEdge eid

def changedRelationships : List EntityId :=
  (t.deltas.map Delta.entityId).filter fun eid => t.isEdge eid && !t.isContainmentEdge upper eid

def container (eid : EntityId) : Option EntityId :=
  (t.parentOf.get? eid).filter (· ∈ t.relevant)

def childrenOf : Dict EntityId (List EntityId) :=
  Dict.group (t.relevant.filterMap fun eid => (t.container eid).map fun par => (par, eid))

def children (eid : EntityId) : List EntityId :=
  (t.childrenOf.get? eid).getD []

def topContainers : List EntityId :=
  t.relevant.filter fun eid => t.container eid = none ∧ t.children eid ≠ []

def topLeaves : List EntityId :=
  t.relevant.filter fun eid => t.container eid = none ∧ t.children eid = []

def typeKey (eid : EntityId) : String :=
  "type:" ++ orText (textAt (t.payload eid) "entityType") "Other"

def edgeKey (eid : EntityId) : String :=
  "edge:" ++ orText (textAt (t.payload eid) "edgeType") "Relationship"

/-- `buckets`, before its single members are taken out. -/
def allBuckets : Dict String (List EntityId) :=
  Dict.group (t.topLeaves.map (fun eid => (t.typeKey eid, eid)) ++
    (t.changedRelationships upper).map fun eid => (t.edgeKey eid, eid))

def onlyMember : List EntityId → Option EntityId
  | [eid] => some eid
  | _ => none

def roots : List EntityId :=
  t.topContainers ++ (t.allBuckets upper).filterMap fun bucket => onlyMember bucket.2

def buckets : Dict String (List EntityId) :=
  (t.allBuckets upper).filter fun bucket => (onlyMember bucket.2).isNone

/-- What `rollup` counts for the entity itself: an edge counts nothing. -/
def own (eid : EntityId) : Counts :=
  match t.delta eid with
  | some d => if t.isEdge eid then 0 else Counts.ofOp d.op
  | none => 0

def rollup (eid : EntityId) : Option Counts :=
  ParentTree.rollup t.children t.own (t.relevant.length + 1) eid

def single (eid : EntityId) : Counts :=
  match t.delta eid with
  | some d => Counts.ofOp d.op
  | none => 0

def endLabel (endpoint : EntityId) : String :=
  orText (textAt (t.payload endpoint) "displayName") endpoint

/-- A row's label: a relationship is named by its ends. -/
def label (eid : EntityId) : String :=
  let p := t.payload eid
  if t.isEdge eid then
    t.endLabel (orText (source p) "?") ++ " → " ++ t.endLabel (orText (target p) "?")
  else orText (textAt p "displayName") (orText (textAt p "urn") eid)

def nodeView (eid : EntityId) : Option Row :=
  let child := t.children eid
  (if child = [] then some (t.single eid) else t.rollup eid).map fun counts =>
    { key := eid
      kind := if child = [] then .leaf else .container
      entityKind := if t.isEdge eid then .edge else .node
      label := t.label eid
      entityType := textAt (t.payload eid) (if t.isEdge eid then "edgeType" else "entityType")
      status := some ((t.delta eid).elim .unchanged fun d => d.op.status)
      counts
      childTotal := child.length
      deleted := (t.delta eid).any fun d => d.op = .delete
      before := (t.theirs.get? eid).join
      after := (t.merged.get? eid).join }

def bucketView (bucket : String × List EntityId) : Row :=
  let kind := (partitionColon bucket.1).1
  let name := (partitionColon bucket.1).2
  { key := bucket.1
    kind := .bucket
    entityKind := if kind = "edge" then .edge else .node
    label := name
    entityType := if kind = "type" then some name else none
    status := none
    counts := (bucket.2.map t.single).sum
    childTotal := bucket.2.length
    deleted := false
    before := none
    after := none }

/-- The order of the roots: most changes first, then by label. -/
def rootKey (g : Row) : ℤ ×ₗ String :=
  toLex (-(g.counts.total : ℤ), lower g.label)

def top : Option (List Row) :=
  ((t.roots upper).mapM t.nodeView).map fun rootViews =>
    rootViews.insertionSort (fun a b => rootKey lower a ≤ rootKey lower b) ++
      ((t.buckets upper).map t.bucketView).insertionSort fun a b => lower a.label ≤ lower b.label

end DiffTree

/-- The index `_build_diff_hierarchy` returns. -/
structure DiffIndex where
  top : List Row
  counts : Counts
  entityCounts : Counts
  edgeCounts : Counts
  impact : Dict String ℕ
  childrenOf : Dict EntityId (List EntityId)
  buckets : Dict String (List EntityId)
  nodeView : EntityId → Option Row

def tally (deltas : List (Delta η)) (keep : EntityId → Bool) : Counts :=
  ((deltas.filter fun d => keep d.entityId).map fun d => Counts.ofOp d.op).sum

/-- The index of a tree, unless a rollup never returns. -/
def DiffTree.index (t : DiffTree η) : Option DiffIndex :=
  (t.top upper lower).map fun top =>
    { top
      counts := tally t.deltas fun _ => true
      entityCounts := tally t.deltas fun eid => !t.isEdge eid
      edgeCounts := tally t.deltas fun eid => t.isEdge eid && !t.isContainmentEdge upper eid
      impact := t.relevant.foldl (fun impact eid =>
        let et := orText (textAt (t.payload eid) "entityType") "Other"
        impact.set et ((impact.get? et).getD 0 + 1)) []
      childrenOf := t.childrenOf
      buckets := t.buckets upper
      nodeView := t.nodeView }

def buildDiffHierarchy (merged theirs : State) (containmentEdgeTypes : List String) :
    Option DiffIndex :=
  (diffTree upper contentHash order merged theirs containmentEdgeTypes).index upper lower

end

end DataViz.Versioning
