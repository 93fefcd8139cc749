/-
# Source rows as a desired state

A sync reads the rows of a source snapshot as the state they ask for, matching a row to the entity
main holds: a node by its urn, an edge by its ends and type. One reader indexes all of main; the
other looks up what the rows name, and drops a row that hashes to what the head holds.

A row is the dictionary of its JSON object, a missing one the empty dictionary. The fields a row is
named by hold texts. `new_entity_id` gives the row at each position an id of its own. The rows of a
query come in an order the database does not fix.
-/

import DataViz.Versioning.ForkPatch
import DataViz.Versioning.PropertyPatch

namespace DataViz.Versioning

structure Rejected where
  row : ℕ
  reason : String
  deriving DecidableEq

/-- `row.get(key)` of a text field, unless it is empty. -/
def given (row : Payload) (key : String) : Option String :=
  pyOr (textAt row key) none

/-- How a node main does not hold is named: by its urn, and whether a node with
neither urn nor id takes its new id for a urn. -/
structure Naming where
  ofUrn : String → EntityId
  stamps : Bool

/-- The naming of `_external_state_bounded`: as the bootstrap names every node. -/
def bootstrapNaming : Naming := ⟨id, true⟩

/-- The naming of `_external_state`. -/
def syncNaming : Naming := ⟨fun urn => "sync:" ++ urn, false⟩

def nodeEntry (naming : Naming) (newId : ℕ → EntityId) (held : Option EntityId) (i : ℕ)
    (row : Payload) : EntityId × Payload :=
  let payload := sanitizeNodeProperties
    (row.items.filter fun entry => entry.1 ∉ ["kind", "id", "entity_id"])
  match pyOr held (pyOr (given row "entity_id")
      (pyOr (given row "id") ((given row "urn").map naming.ofUrn))) with
  | some eid => (eid, payload)
  | none => (newId i, if naming.stamps then payload.set "urn" (.str (newId i)) else payload)

/-- A round of the node loop: the row's entry, or why it is rejected; nothing for a
row of another kind. -/
def readNode (naming : Naming) (newId : ℕ → EntityId) (held : String → Option EntityId)
    (row : Payload) (i : ℕ) : Option (Except String (EntityId × Payload)) :=
  if textAt row "kind" ≠ some "node" then none
  else if given row "entityType" = none then some (.error "node missing entityType")
  else some (.ok (nodeEntry naming newId ((given row "urn").bind held) i row))

def nameNode (urnToEid : Dict String EntityId) (row : Payload) (eid : EntityId) :
    Dict String EntityId :=
  let named := fun (names : Dict String EntityId) (name : Option String) =>
    match name with
    | some name => names.set name eid
    | none => names
  (named (named urnToEid (given row "urn")) (given row "id")).set eid eid

def edgeReserved : List String :=
  ["kind", "id", "entity_id", "version", "source", "target", "sourceEntityId",
    "source_entity_id", "targetEntityId", "target_entity_id", "edgeType", "edge_type",
    "confidence", "properties", "discriminator"]

/-- The properties of `_split_endpoints_props`: the nested ones, and any other field
of the row. -/
def splitProps (row : Payload) : Dict String Json :=
  let nested := match row.get? "properties" with
    | some (.obj properties) => properties
    | _ => []
  row.items.foldl (fun props entry =>
    if entry.1 ∉ edgeReserved ∧ entry.1 ∉ props.keys then props.set entry.1 entry.2
    else props) nested

def notNone : Option Json → Option Json
  | some .null => none
  | value => value

def edgePayloadFromParts (edgeType : String) (sourceEntityId targetEntityId : EntityId)
    (row : Payload) : Payload :=
  let payload : Payload := [("edgeType", .str edgeType), ("sourceEntityId", .str sourceEntityId),
    ("targetEntityId", .str targetEntityId)]
  let props := splitProps row
  let payload := match notNone (row.get? "confidence") with
    | some confidence => payload.set "confidence" confidence
    | none => payload
  let payload := if props = [] then payload else payload.set "properties" (.obj props)
  match notNone (row.get? "discriminator") with
  | some discriminator => payload.set "discriminator" discriminator
  | none => payload

/-- A source, a target and an edge type. -/
abbrev Triple := EntityId × EntityId × String

/-- The triple of an edge row, where it names one between known ends. -/
def rowTriple (endOf : String → Option EntityId) (row : Payload) : Option Triple := do
  let edgeType ← given row "edgeType"
  let seid ← pyOr ((given row "source").bind endOf) none
  let teid ← pyOr ((given row "target").bind endOf) none
  return (seid, teid, edgeType)

def edgeId (held : Option EntityId) (triple : Triple) (row : Payload) : EntityId :=
  (pyOr held (pyOr (given row "entity_id") (given row "id"))).getD
    ("sync:e:" ++ triple.1 ++ "->" ++ triple.2.1 ++ ":" ++ triple.2.2)

def readEdge (endOf : String → Option EntityId) (held : Triple → Option EntityId)
    (row : Payload) : Option (Except String (EntityId × Payload)) :=
  if textAt row "kind" ≠ some "edge" then none
  else if given row "edgeType" = none ∨ given row "source" = none ∨ given row "target" = none then
    some (.error "edge missing edgeType/source/target")
  else
    match rowTriple endOf row with
    | none => some (.error "edge endpoint not found")
    | some triple => some (.ok (edgeId (held triple) triple row,
        edgePayloadFromParts triple.2.2 triple.1 triple.2.1 row))

structure External where
  theirs : Dict EntityId Payload
  rejected : List Rejected
  urnToEid : Dict String EntityId
  deriving DecidableEq

def urnIndex (ours : State) : Dict String EntityId :=
  ours.items.foldl (fun index entry =>
    match entry.2 with
    | none => index
    | some p =>
      if isEdgePayload p then index
      else match given p "urn" with
        | some urn => index.set urn entry.1
        | none => index) []

/-- `edge_index`, by the camel-case fields alone. -/
def edgeIndex (ours : State) : Dict (Option String × Option String × Option String) EntityId :=
  ours.items.foldl (fun index entry =>
    match entry.2 with
    | none => index
    | some p =>
      if isEdgePayload p then
        index.set (textAt p "sourceEntityId", textAt p "targetEntityId", textAt p "edgeType")
          entry.1
      else index) []

namespace External

def start : External := ⟨[], [], []⟩

def node (naming : Naming) (newId : ℕ → EntityId) (held : String → Option EntityId)
    (out : External) (entry : Payload × ℕ) : External :=
  match readNode naming newId held entry.1 entry.2 with
  | none => out
  | some (.error reason) => { out with rejected := out.rejected ++ [⟨entry.2, reason⟩] }
  | some (.ok (eid, payload)) =>
    { out with
      theirs := out.theirs.set eid payload, urnToEid := nameNode out.urnToEid entry.1 eid }

def edge (endOf : String → Option EntityId) (held : Triple → Option EntityId) (out : External)
    (entry : Payload × ℕ) : External :=
  match readEdge endOf held entry.1 with
  | none => out
  | some (.error reason) => { out with rejected := out.rejected ++ [⟨entry.2, reason⟩] }
  | some (.ok (eid, payload)) => { out with theirs := out.theirs.set eid payload }

end External

def externalStateNamed (naming : Naming) (newId : ℕ → EntityId) (rows : List Payload)
    (ours : State) : External :=
  let urns := urnIndex ours
  let edges := edgeIndex ours
  let nodes := rows.zipIdx.foldl (External.node naming newId urns.get?) .start
  rows.zipIdx.foldl (External.edge (fun name => pyOr (nodes.urnToEid.get? name) (urns.get? name))
    (fun triple => edges.get? (some triple.1, some triple.2.1, some triple.2.2))) nodes

def externalState (newId : ℕ → EntityId) (rows : List Payload) (ours : State) : External :=
  externalStateNamed syncNaming newId rows ours

section

variable {η : Type} [DecidableEq η] (contentHash : Option Payload → η)

structure HeadHit (η : Type) where
  entityId : EntityId
  contentHash : η
  isTombstone : Bool
  deriving DecidableEq

variable (store : VersionStore η) (order : SetOrder) (main : BranchKey)

/-- The heads of a branch joined with their version rows in a table, keyed by what a
row's columns say. -/
def headsBy {κ : Type} (table : Kind) (key : Payload → Option κ) : List (κ × HeadHit η) :=
  let heads := headIndex store main
  (order.iter 0 heads.keys.dedup).flatMap fun eid =>
    (heads.get? eid).toList.flatMap fun head =>
      ((store.versions table).filter fun row => row.id = head.headVersionId).filterMap fun row =>
        (key (row.payload.getD [])).map fun column =>
          (column, ⟨eid, head.contentHash, head.isTombstone⟩)

def headsByUrn (urns : List String) : Dict String (HeadHit η) :=
  ((headsBy store order main .node fun p => textAt p "urn").filter fun hit =>
    hit.1 ∈ urns.filter (· ≠ "")).foldl (fun out hit => out.set hit.1 hit.2) []

def headsByEdgeTriple (triples : List Triple) : Dict Triple (HeadHit η) :=
  ((headsBy store order main .edge fun p =>
    (textAt p "edgeType").map fun edgeType => ((edgeSrcTgt p).1, (edgeSrcTgt p).2, edgeType)).filter
      fun hit => hit.1 ∈ triples).foldl (fun out hit => out.set hit.1 hit.2) []

/-- What `_external_state_bounded` has read so far. -/
structure Bounded where
  theirs : Dict EntityId Payload
  seen : List EntityId
  rejected : List Rejected
  urnToEid : Dict String EntityId
  deriving DecidableEq

def identical (hit : Option (HeadHit η)) (payload : Payload) : Bool :=
  hit.any fun hit => !hit.isTombstone && decide (hit.contentHash = contentHash (some payload))

namespace Bounded

def start : Bounded := ⟨[], [], [], []⟩

def node (newId : ℕ → EntityId) (known : Dict String (HeadHit η)) (out : Bounded)
    (entry : Payload × ℕ) : Bounded :=
  match readNode bootstrapNaming newId (fun urn => (known.get? urn).map HeadHit.entityId) entry.1
      entry.2 with
  | none => out
  | some (.error reason) => { out with rejected := out.rejected ++ [⟨entry.2, reason⟩] }
  | some (.ok (eid, payload)) =>
    { out with
      theirs :=
        if identical contentHash ((given entry.1 "urn").bind known.get?) payload then out.theirs
        else out.theirs.set eid payload
      seen := out.seen ++ [eid]
      urnToEid := nameNode out.urnToEid entry.1 eid }

def edge (endOf : String → Option EntityId) (byTriple : Dict Triple (HeadHit η)) (out : Bounded)
    (entry : Payload × ℕ) : Bounded :=
  match readEdge endOf (fun triple => (byTriple.get? triple).map HeadHit.entityId) entry.1 with
  | none => out
  | some (.error reason) => { out with rejected := out.rejected ++ [⟨entry.2, reason⟩] }
  | some (.ok (eid, payload)) =>
    { out with
      theirs :=
        if identical contentHash ((rowTriple endOf entry.1).bind byTriple.get?) payload then
          out.theirs
        else out.theirs.set eid payload
      seen := out.seen ++ [eid] }

end Bounded

def externalStateBounded (newId : ℕ → EntityId) (rows : List Payload) : Bounded :=
  let nodeRows := rows.filter fun row => textAt row "kind" = some "node"
  let edgeRows := rows.filter fun row => textAt row "kind" = some "edge"
  let known := headsByUrn store order main (nodeRows.filterMap (given · "urn"))
  let nodes := rows.zipIdx.foldl (Bounded.node contentHash newId known) .start
  let need := (edgeRows.flatMap fun row =>
    [given row "source", given row "target"].filterMap id).filter (· ∉ nodes.urnToEid.keys)
  let ends := headsByUrn store order main need
  let urnToEid := ends.items.foldl (fun names entry => names.set entry.1 entry.2.entityId)
    nodes.urnToEid
  let byTriple := headsByEdgeTriple store order main (edgeRows.filterMap (rowTriple urnToEid.get?))
  rows.zipIdx.foldl (Bounded.edge contentHash urnToEid.get? byTriple) nodes

def liveIdsAbsentFrom (seen : List EntityId) : List EntityId :=
  ((headIndex store main).items.filter fun entry =>
    !entry.2.isTombstone && decide (entry.1 ∉ seen)).map Prod.fst

end

end DataViz.Versioning
