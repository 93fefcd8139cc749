/-
# A view's stored layout, up-converted

A stored `referenceLayout` holds layers and hand placements; older ones hold placements with
each layer, and rules that name one entity count as placements too. Up-converting collects
them into one dictionary by urn, where the first to name an entity has it: the stored
placements, then layer by layer its entity placements, its rules and those of its logical
nodes, a node's before its children's.

Reading raises where a list to go through is a number or `true`. A layout with an entity
placement keyed by a number or `true` is left out: it is not `readable` here, though `_normalize`
takes it.
-/

import DataViz.Data.Json

namespace DataViz.View

def fieldsOf : Json → Option (Dict String Json)
  | .obj fields => some fields
  | _ => none

def isTrue : Json → Bool
  | .scalar .null => false
  | .scalar (.bool b) => b
  | .scalar (.int n) => n ≠ 0
  | .scalar (.float _ value) => value ≠ 0
  | .scalar (.str text) => text ≠ ""
  | .arr items => !items.isEmpty
  | .obj fields => !fields.isEmpty

/-- `for x in value or []` does not raise. -/
def iterable : Option Json → Bool
  | none | some (.arr _) | some (.obj _) | some (.scalar (.str _)) => true
  | some value => !isTrue value

/-- The objects that loop meets; what else it meets it passes over. -/
def objectsIn : Option Json → List (Dict String Json)
  | some (.arr items) => items.filterMap fieldsOf
  | _ => []

/-- The value under a key, `None` without one. -/
def getOrNull (fields : Dict String Json) (key : String) : Json :=
  (fields.get? key).getD .null

/-- A placement of an entity: `layerId`, `inheritsChildren`, `assignedBy` and so on. -/
abbrev Entry := Dict String Json

abbrev Claims := List (String × Entry)

def isExactUrnPattern (pattern : String) : Bool :=
  pattern ≠ "" && '*' ∉ pattern.toList && '?' ∉ pattern.toList

def exactUrns (rules : Option Json) : List String :=
  (objectsIn rules).filterMap fun rule =>
    match rule.get? "urnPattern" with
    | some (.scalar (.str pattern)) => if isExactUrnPattern pattern then some pattern else none
    | _ => none

mutual

/-- `_collect_logical_node_rule_assignments`: what the rules of a node and of those below it
name, with the node's id. -/
def nodeUrns : Json → List (String × Json)
  | .obj fields =>
    ((exactUrns (Dict.get? fields "rules")).map fun urn => (urn, getOrNull fields "id")) ++
      childUrns fields
  | _ => []

def nodesUrns : List Json → List (String × Json)
  | [] => []
  | node :: rest => nodeUrns node ++ nodesUrns rest

/-- `nodeUrns` of the `children` among some fields. -/
def childUrns : List (String × Json) → List (String × Json)
  | [] => []
  | (key, .arr items) :: rest => if key = "children" then nodesUrns items else childUrns rest
  | (key, _) :: rest => if key = "children" then [] else childUrns rest

end

mutual

/-- Going through the rules of a node and of those below it does not raise. -/
def nodeReadable : Json → Bool
  | .obj fields => iterable (Dict.get? fields "rules") && childReadable fields
  | _ => true

def nodesReadable : List Json → Bool
  | [] => true
  | node :: rest => nodeReadable node && nodesReadable rest

/-- `nodeReadable` of the `children` among some fields. -/
def childReadable : List (String × Json) → Bool
  | [] => true
  | (key, .arr items) :: rest =>
    if key = "children" then nodesReadable items else childReadable rest
  | (key, _) :: rest => if key = "children" then true else childReadable rest

end

/-- The nodes of `logicalNodes`, if it is a list. -/
def listOf : Option Json → List Json
  | some (.arr items) => items
  | _ => []

def ruleEntry (layerId : Json) (logicalNode : Option Json) : Entry :=
  [("layerId", layerId)] ++ (logicalNode.map fun id => ("logicalNodeId", id)).toList ++
    [("inheritsChildren", .bool true), ("assignedBy", .str "rule")]

/-- The placements of a layer's rules and of its logical nodes'. -/
def ruleClaims (layer : Dict String Json) : Claims :=
  let layerId := getOrNull layer "id"
  ((exactUrns (layer.get? "rules")).map fun urn => (urn, ruleEntry layerId none)) ++
    (nodesUrns (listOf (layer.get? "logicalNodes"))).map fun node =>
      (node.1, ruleEntry layerId (some node.2))

def entryKey (entry : Dict String Json) : Option Json :=
  ((entry.get? "urn").filter isTrue).or ((entry.get? "entityId").filter isTrue)

def entityEntry (layerId : Json) (entry : Dict String Json) : Entry :=
  let inherits := getOrNull entry "inheritsChildren"
  [("layerId", layerId), ("logicalNodeId", getOrNull entry "logicalNodeId"),
    ("inheritsChildren", if inherits = .null then .bool true else inherits),
    ("assignedBy", getOrNull entry "assignedBy"), ("assignedAt", getOrNull entry "assignedAt")]

def entityClaims (layer : Dict String Json) : Claims :=
  (objectsIn (layer.get? "entityAssignments")).filterMap fun entry =>
    match entryKey entry with
    | some (.scalar (.str urn)) => some (urn, entityEntry (getOrNull layer "id") entry)
    | _ => none

def layerClaims : Json → Claims
  | .obj layer => entityClaims layer ++ ruleClaims layer
  | _ => []

def layerReadable (layer : Json) : Bool :=
  match fieldsOf layer with
  | some layer =>
    iterable (layer.get? "entityAssignments") &&
      ((objectsIn (layer.get? "entityAssignments")).all fun entry =>
        match entryKey entry with
        | none | some (.scalar (.str _)) => true
        | some _ => false) &&
      iterable (layer.get? "rules") && nodesReadable (listOf (layer.get? "logicalNodes"))
  | none => true

structure ReferenceLayout where
  layers : List Json
  assignments : Dict String Entry

/-- Take a placement, unless its entity has one. -/
def claim (assignments : Dict String Entry) (entry : String × Entry) : Dict String Entry :=
  if entry.1 ∈ assignments.keys then assignments else assignments.set entry.1 entry.2

def storedAssignments (raw : Dict String Json) : Dict String Entry :=
  match raw.get? "assignments" with
  | some (.obj fields) =>
    Dict.ofKeys (Dict.keys fields).dedup fun urn => (Dict.get? fields urn).bind fieldsOf
  | _ => []

def stripLayer : Json → Json
  | .obj layer => .obj (layer.filter fun field => field.1 ≠ "entityAssignments")
  | layer => layer

def normalize (raw : Dict String Json) : ReferenceLayout where
  layers := (listOf (raw.get? "layers")).map stripLayer
  assignments := ((listOf (raw.get? "layers")).flatMap layerClaims).foldl claim
    (storedAssignments raw)

/-- `_normalize` does not raise, and every key it takes is text. -/
def readable (raw : Dict String Json) : Bool :=
  (listOf (raw.get? "layers")).all layerReadable

/-- `_raw_reference_layout`: the stored layout, at either place. -/
def rawReferenceLayout (config : Dict String Json) : Option (Dict String Json) :=
  ((((config.get? "layout").bind fieldsOf).bind fun layout =>
    layout.get? "referenceLayout").bind fieldsOf).or ((config.get? "referenceLayout").bind fieldsOf)

def isScope (value : Option Json) : Bool :=
  value = some (.str "all") || value = some (.str "curated")

def deriveEntityScope (config : Dict String Json) : Json :=
  let explicit := ((config.get? "content").bind fieldsOf).bind fun content =>
    content.get? "entityScope"
  if isScope explicit then explicit.getD .null
  else if (normalize ((rawReferenceLayout config).getD [])).assignments = [] then .str "all"
  else .str "curated"

end DataViz.View
