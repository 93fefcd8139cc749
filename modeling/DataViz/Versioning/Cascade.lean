/-
# The full-state delete cascade

`service.py` keeps a composed state as a dictionary from entity to payload, with `None` for a
tombstone. Deleting a node takes its containment descendants with it (`_cascade_containment`, unless
a parent survives) and then every edge at a deleted node (`_cascade_incident_edges`);
`_assert_referential_integrity` refuses what would still dangle.

An endpoint or a type is a text, or missing. The containment types come from the ontology at run
time and are compared in upper case; `upper` is Python's `str.upper`. A Python set is iterated in an
order the code does not fix: `SetOrder`.
-/

import DataViz.Data.Cascade
import DataViz.Versioning.Basic

namespace DataViz.Versioning

open Cascade

structure SetOrder where
  iter : ℕ → List EntityId → List EntityId
  perm : ∀ round ids, (iter round ids).Perm ids

def insertionOrder : SetOrder where
  iter _ ids := ids
  perm _ _ := List.Perm.refl _

def textAt (p : Payload) (key : String) : Option String :=
  match p.get? key with
  | some (.str s) => some s
  | _ => none

/-- Python's `a or b`: the empty text is falsy. -/
def pyOr (a b : Option String) : Option String :=
  match a with
  | some s => if s = "" then b else some s
  | none => b

def source (p : Payload) : Option EntityId :=
  pyOr (textAt p "sourceEntityId") (textAt p "source_entity_id")

def target (p : Payload) : Option EntityId :=
  pyOr (textAt p "targetEntityId") (textAt p "target_entity_id")

def edgeSrcTgt (p : Payload) : EntityId × EntityId :=
  ((source p).getD "", (target p).getD "")

/-- `_is_edge_payload`: both endpoint keys are present. -/
def isEdgePayload (p : Payload) : Bool :=
  ((p.get? "sourceEntityId").isSome || (p.get? "source_entity_id").isSome) &&
    ((p.get? "targetEntityId").isSome || (p.get? "target_entity_id").isSome)

def edgeType (p : Payload) : String :=
  (textAt p "edgeType").getD ""

def tombstones (state : State) : List EntityId :=
  (state.items.filter fun entry => entry.2 = none).map Prod.fst

def liveIds (state : State) : List EntityId :=
  (state.items.filter fun entry => entry.2 ≠ none).map Prod.fst

def tombstone (state : State) (ids : List EntityId) : State :=
  ids.foldl (fun state eid => state.set eid none) state

section

variable (upper : String → String)

/-- The parent and child of a containment edge with both ends named. -/
def containmentLink (cset : List String) (p : Payload) : Option (EntityId × EntityId) :=
  if isEdgePayload p ∧ upper (edgeType p) ∈ cset then
    match source p, target p with
    | some src, some tgt => if src ≠ "" ∧ tgt ≠ "" then some (src, tgt) else none
    | _, _ => none
  else none

/-- The containment links between parent and child among the live edges. -/
def containmentLinks (cset : List String) (state : State) : List (EntityId × EntityId) :=
  state.items.filterMap fun entry => entry.2.bind (containmentLink upper cset)

def children (links : List (EntityId × EntityId)) (parent : EntityId) : List EntityId :=
  ((links.filter fun link => link.1 = parent).map Prod.snd).dedup

def parentsOf (links : List (EntityId × EntityId)) (child : EntityId) : List EntityId :=
  ((links.filter fun link => link.2 = child).map Prod.fst).dedup

/-- The loop of `_cascade_containment`, with a bound on the number of rounds:
`none` when it is used up. A round visits the children of the frontier; a child
falls when no parent of it survives. -/
def containmentRounds (order : SetOrder) (links : List (EntityId × EntityId)) :
    ℕ → ℕ → State → List EntityId → List EntityId → List EntityId → Option (State × List EntityId)
  | _, _, state, _, [], cascaded => some (state, cascaded)
  | 0, _, _, _, _ :: _, _ => none
  | fuel + 1, round, state, deleted, parent :: rest, cascaded =>
    let visits := (order.iter round (parent :: rest)).flatMap fun p =>
      order.iter round (children links p)
    let nxt := sweep (parentsOf links) (fun _ => true) visits deleted
    containmentRounds order links fuel (round + 1) (tombstone state nxt) (deleted ++ nxt) nxt
      (cascaded ++ nxt)

/-- `_cascade_containment`: the state with the descendants of its tombstones
tombstoned, and their ids. -/
def cascadeContainment (order : SetOrder) (state : State) (containmentEdgeTypes : List String) :
    Option (State × List EntityId) :=
  let cset := containmentEdgeTypes.map upper
  if cset = [] then some (state, [])
  else
    let links := containmentLinks upper cset state
    let deleted := tombstones state
    containmentRounds order links (links.length + 1) 0 state deleted deleted []

end

/-- A payload with a source one of whose ends is tombstoned. -/
def touches (tomb : List EntityId) (p : Payload) : Bool :=
  match source p with
  | none => false
  | some src => src ∈ tomb || (match target p with
    | none => false
    | some tgt => tgt ∈ tomb)

def cascadeIncidentEdges (state : State) : State × List EntityId :=
  let tomb := tombstones state
  if tomb = [] then (state, [])
  else
    let cascaded := (state.items.filter fun entry => entry.2.any (touches tomb)).map Prod.fst
    (tombstone state cascaded, cascaded)

def isLive (live : List EntityId) (endpoint : Option EntityId) : Bool :=
  match endpoint with
  | none => false
  | some id => id ∈ live

def dangles (live : List EntityId) (p : Payload) : Bool :=
  (source p ≠ none || target p ≠ none) && !(isLive live (source p) && isLive live (target p))

def showEndpoint (endpoint : Option EntityId) : String :=
  endpoint.getD "None"

def danglingError (eid : EntityId) (p : Payload) : String :=
  "edge " ++ eid ++ " would dangle (endpoint tombstoned): " ++ showEndpoint (source p) ++ "->" ++
    showEndpoint (target p)

/-- `_assert_referential_integrity`: the first dangling edge is refused. -/
def assertReferentialIntegrity (state : State) : Except String Unit :=
  match state.items.find? fun entry => entry.2.any (dangles (liveIds state)) with
  | some (eid, some p) => .error (danglingError eid p)
  | _ => .ok ()

end DataViz.Versioning
