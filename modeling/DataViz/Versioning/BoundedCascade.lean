/-
# The delete cascade of a write

`_cascade_deletes` works on the store, not on a composed state: it walks the containment links out
of the deleted nodes frontier by frontier (`_cascade_subtree`), reading only the edges at the
frontier and at its candidates, and then collects every edge at a deleted node. The write in
progress is laid over the stored edges as `overlay`. The walk stops after sixty-four rounds or at a
million nodes.

The store gives the branch's state and the ends any edge row ever had.
-/

import DataViz.Versioning.Cascade

namespace DataViz.Versioning

open Cascade

def cascadeMaxNodes : ℕ := 1000000

/-- The default `max_depth` of `_cascade_subtree`. -/
def cascadeMaxDepth : ℕ := 64

/-- `set(_edge_src_tgt(v)) & ids`. -/
def endsMeet (ids : List EntityId) (p : Payload) : Bool :=
  (edgeSrcTgt p).1 ∈ ids || (edgeSrcTgt p).2 ∈ ids

/-- A write in progress over the stored state of a branch. `touched` gives the
ends that the edge rows of an entity ever had, `overlay` the new values, `none`
for deleted. An edge row records the ends of its payload, and what has edge rows
stays an edge. -/
structure WriteInProgress where
  stored : State
  touched : EntityId → List EntityId
  overlay : State
  touched_ends : ∀ eid p, stored.get? eid = some (some p) → isEdgePayload p = true →
    ∀ y, source p = some y ∨ target p = some y → y ∈ touched eid
  touched_isEdge : ∀ eid, touched eid ≠ [] → ∀ p, (stored.update overlay).get? eid = some (some p) →
    isEdgePayload p = true

def WriteInProgress.composed (w : WriteInProgress) : State :=
  w.stored.update w.overlay

/-- `_incident_live_edges`: live edges that ever touched one of the nodes. -/
def incidentLiveEdges (w : WriteInProgress) (ids : List EntityId) : Dict EntityId Payload :=
  w.stored.items.filterMap fun entry =>
    if (w.touched entry.1).any (· ∈ ids) then entry.2.map (Prod.mk entry.1) else none

/-- `_effective_incident_edges`: the stored edges with the overlay laid over
them, then the overlay's own edges. -/
def effectiveIncidentEdges (w : WriteInProgress) (ids : List EntityId) : Dict EntityId Payload :=
  let inc := incidentLiveEdges w ids
  if w.overlay = [] then inc
  else
    let stored : Dict EntityId Payload := inc.filterMap fun entry =>
      (((w.overlay.get? entry.1).getD (some entry.2)).filter (endsMeet ids)).map (Prod.mk entry.1)
    let drawn : Dict EntityId Payload := w.overlay.items.filterMap fun entry =>
      if entry.1 ∈ stored.keys then none
      else (entry.2.filter fun v => isEdgePayload v && endsMeet ids v).map (Prod.mk entry.1)
    stored ++ drawn

section

variable (upper : String → String) (order : SetOrder) (cset : List String) (w : WriteInProgress)

/-- `(p.get("edgeType") or "").upper() in cset`. -/
def isContainment (p : Payload) : Bool :=
  upper (edgeType p) ∈ cset

def candidatesOf (frontier deleted : List EntityId) : List EntityId :=
  ((effectiveIncidentEdges w frontier).filterMap fun entry =>
    let (a, b) := edgeSrcTgt entry.2
    if isContainment upper cset entry.2 ∧ a ∈ frontier ∧ b ≠ "" ∧ b ∉ deleted then some b
    else none).dedup

def candidateParents (candidates : List EntityId) (child : EntityId) : List EntityId :=
  ((effectiveIncidentEdges w candidates).filterMap fun entry =>
    let (a, b) := edgeSrcTgt entry.2
    if isContainment upper cset entry.2 ∧ b ∈ candidates ∧ a ≠ "" ∧ b = child then some a
    else none).dedup

/-- The loop of `_cascade_subtree`, for the given number of rounds. -/
def subtreeRounds (cap : ℕ) : ℕ → ℕ → List EntityId → List EntityId → List EntityId
  | 0, _, deleted, _ => deleted
  | rounds + 1, round, deleted, frontier =>
    if frontier = [] ∨ cap ≤ deleted.length then deleted
    else
      let candidates := candidatesOf upper cset w frontier deleted
      if candidates = [] then deleted
      else
        let nxt := sweep (candidateParents upper cset w candidates) (fun n => decide (n < cap))
          (order.iter round candidates) deleted
        subtreeRounds cap rounds (round + 1) (deleted ++ nxt) nxt

def cascadeSubtree (rootIds : List EntityId) (cap maxDepth : ℕ) : List EntityId :=
  subtreeRounds upper order cset w cap maxDepth 0 rootIds rootIds

end

def namedRoots (rootNodeIds : List EntityId) : List EntityId :=
  (rootNodeIds.filter (· ≠ "")).dedup

/-- `_cascade_deletes`: the nodes to delete and the edges at them. -/
def cascadeDeletes (upper : String → String) (order : SetOrder) (w : WriteInProgress)
    (rootNodeIds : List EntityId) (containmentEdgeTypes : List String) :
    List EntityId × Dict EntityId Payload :=
  let roots := namedRoots rootNodeIds
  if roots = [] then ([], [])
  else
    let cset := containmentEdgeTypes.map upper
    let subtree := if cset = [] then roots
      else cascadeSubtree upper order cset w roots cascadeMaxNodes cascadeMaxDepth
    (subtree, effectiveIncidentEdges w subtree)

end DataViz.Versioning
