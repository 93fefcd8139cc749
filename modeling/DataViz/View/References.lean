/-
# Where a definition points at the graph

A view's definition names entities by urn, entity types and relationship types, at some thirty
places. Collecting lists them; rewriting renames and drops them, place by place. Most places let go
of a dropped name; conditions and the seeds of a membership source do not.

Rewriting raises where a reference in a condition holds a list or an object for its urn or its
entity type. An object's fields have distinct keys, and no two places share a value, so the order in
which places are rewritten does not matter.
-/

import DataViz.View.Portable

namespace DataViz.View

/-- What is named: an urn by where it stands, a glob pattern, or a type. -/
inductive RefKind where
  | assignment | anchor | rule | root | predicate | membership
  | pattern | entityType | relationshipType
  deriving DecidableEq

/-- Something that a definition names. It is kept where a dropped name stays. -/
structure Reference where
  kind : RefKind
  kept : Bool := false
  name : String
  deriving DecidableEq

def namesOf (kind : RefKind) (kept : Bool) (names : List String) : List Reference :=
  names.map fun name => { kind, kept, name }

def predicateUrnKeys : List String :=
  ["urns", "sourceUrns", "source_urns", "targetUrns", "target_urns"]

def predicateRefKeys : List String :=
  ["refs", "sourceRefs", "source_refs", "targetRefs", "target_refs"]

def predicateNestedKeys : List String :=
  ["where", "targetWhere", "target_where", "sourceWhere", "source_where"]

def predicateEdgeTypeKeys : List String :=
  ["edgeTypes", "edge_types"]

def ruleCriteria : List String :=
  ["entityTypes", "tags", "propertyMatch", "conditions"]

def textOf : Json → Option String
  | .scalar (.str text) => some text
  | _ => none

def textsIn (value : Option Json) : List String :=
  (listOf value).filterMap textOf

def textAt (value : Option Json) : List String :=
  (value.bind textOf).toList

def referenceLayout (definition : Dict String Json) : Dict String Json :=
  dictOf ((dictOf (definition.get? "layout")).get? "referenceLayout")

def layersOf (definition : Dict String Json) : List (Dict String Json) :=
  objectsIn ((referenceLayout definition).get? "layers")

mutual

def nodeRules : Json → List (Dict String Json)
  | .obj fields => fieldRules fields
  | _ => []

def nodesRules : List Json → List (Dict String Json)
  | [] => []
  | node :: rest => nodeRules node ++ nodesRules rest

def fieldRules : List (String × Json) → List (Dict String Json)
  | [] => []
  | (key, .arr items) :: rest =>
    (if key = "rules" then objectsIn (some (.arr items))
      else if key = "children" then nodesRules items else []) ++ fieldRules rest
  | (_, _) :: rest => fieldRules rest

end

def layerRules (layer : Dict String Json) : List (Dict String Json) :=
  objectsIn (layer.get? "rules") ++ nodesRules (listOf (layer.get? "logicalNodes"))

def eachRule (definition : Dict String Json) : List (Dict String Json) :=
  (layersOf definition).flatMap layerRules

def seedsOf (source : Dict String Json) : Dict String Json :=
  dictOf ((dictOf (source.get? "spec")).get? "seeds")

def isNested (key : String) : Json → Bool
  | .arr _ => key = "children"
  | .obj _ => key ∈ predicateNestedKeys
  | .scalar _ => false

mutual

def predicateNodes : Json → List (Dict String Json)
  | .obj fields => fields :: nestedNodes fields
  | .arr items => itemNodes items
  | .scalar _ => []

def itemNodes : List Json → List (Dict String Json)
  | [] => []
  | item :: rest => predicateNodes item ++ itemNodes rest

def nestedNodes : List (String × Json) → List (Dict String Json)
  | [] => []
  | (key, value) :: rest =>
    (if isNested key value then predicateNodes value else []) ++ nestedNodes rest

end

def displayPredicates (layout : Dict String Json) : List Json :=
  (objectsIn (layout.get? "displayRules")).filterMap (·.get? "predicate")

def eachPredicateNode (definition : Dict String Json) : List (Dict String Json) :=
  (displayPredicates (referenceLayout definition)).flatMap predicateNodes ++
    (objectsIn ((dictOf (definition.get? "membership")).get? "sources")).flatMap (fun source =>
      ((seedsOf source).get? "query").toList.flatMap predicateNodes) ++
    ((dictOf (definition.get? "search")).get? "predicate").toList.flatMap predicateNodes

def predicateRefs (node : Dict String Json) : List (Dict String Json) :=
  predicateRefKeys.flatMap fun key => objectsIn (node.get? key)

def isTypeTest (node : Dict String Json) : Bool :=
  node.get? "kind" = some (.str "entityType")

def refNames (ref : Dict String Json) : List Reference :=
  namesOf .predicate true (textAt (ref.get? "urn")) ++
    namesOf .entityType true (textAt (ref.get? "entityType"))

def predicateNodeNames (node : Dict String Json) : List Reference :=
  predicateUrnKeys.flatMap (fun key => namesOf .predicate true (textsIn (node.get? key))) ++
    (predicateRefs node).flatMap refNames ++
    (if isTypeTest node then namesOf .entityType true (textsIn (node.get? "values")) else []) ++
    predicateEdgeTypeKeys.flatMap fun key =>
      namesOf .relationshipType true (textsIn (node.get? key))

def predicateNames (predicate : Json) : List Reference :=
  (predicateNodes predicate).flatMap predicateNodeNames

def patternNames (rule : Dict String Json) : List Reference :=
  match rule.get? "urnPattern" with
  | some (.scalar (.str pattern)) =>
    if isExactUrnPattern pattern then namesOf .rule false [pattern]
    else if pattern ≠ "" then namesOf .pattern false [pattern] else []
  | _ => []

def ruleNames (rule : Dict String Json) : List Reference :=
  patternNames rule ++ namesOf .entityType false (textsIn (rule.get? "entityTypes"))

/-- The references of the edges a layer is scoped by. -/
def scopeNames (scope : Dict String Json) : List Reference :=
  namesOf .relationshipType false (textsIn (scope.get? "edgeTypes")) ++
    namesOf .relationshipType false (textsIn (scope.get? "excludeEdgeTypes"))

def layerNames (layer : Dict String Json) : List Reference :=
  namesOf .anchor false ((textAt (layer.get? "anchorUrn")).filter (· ≠ "")) ++
    namesOf .entityType false (textsIn (layer.get? "entityTypes")) ++
    scopeNames (dictOf (layer.get? "scopeEdges")) ++ (layerRules layer).flatMap ruleNames

def referenceLayoutNames (layout : Dict String Json) : List Reference :=
  namesOf .assignment false (dictOf (layout.get? "assignments")).keys ++
    (objectsIn (layout.get? "layers")).flatMap layerNames ++
    (displayPredicates layout).flatMap predicateNames

def levelNames (level : Dict String Json) : List Reference :=
  namesOf .entityType false (textsIn (level.get? "visibleEntityTypes"))

def projectionNames (projection : Dict String Json) : List Reference :=
  namesOf .entityType false ((textAt (projection.get? "targetGranularityType")).filter (· ≠ "")) ++
    namesOf .entityType false (textsIn (projection.get? "containerTypes")) ++
    namesOf .relationshipType false (textsIn (projection.get? "containmentEdgeTypes"))

def layoutNames (layout : Dict String Json) : List Reference :=
  referenceLayoutNames (dictOf (layout.get? "referenceLayout")) ++
    (objectsIn ((dictOf (layout.get? "lod")).get? "levels")).flatMap levelNames ++
    projectionNames (dictOf (layout.get? "projection"))

def contentNames (content : Dict String Json) : List Reference :=
  namesOf .root false (textsIn (content.get? "rootUrns")) ++
    namesOf .entityType false (textsIn (content.get? "visibleEntityTypes")) ++
    namesOf .entityType false (textsIn (content.get? "rootEntityTypes")) ++
    namesOf .relationshipType false (textsIn (content.get? "visibleRelationshipTypes"))

def sourceNames (source : Dict String Json) : List Reference :=
  namesOf .membership true (textsIn ((seedsOf source).get? "urns")) ++
    ((seedsOf source).get? "query").toList.flatMap predicateNames

def membershipNames (membership : Dict String Json) : List Reference :=
  (objectsIn (membership.get? "sources")).flatMap sourceNames ++
    namesOf .membership false (textsIn (membership.get? "exclude")) ++
    namesOf .membership false (dictOf (membership.get? "overrides")).keys

def searchNames (search : Dict String Json) : List Reference :=
  (search.get? "predicate").toList.flatMap predicateNames

/-- The texts at the places where a definition names something, blank ones among them. -/
def placedNames (definition : Dict String Json) : List Reference :=
  layoutNames (dictOf (definition.get? "layout")) ++
    contentNames (dictOf (definition.get? "content")) ++
    namesOf .entityType false
      (textsIn ((dictOf (definition.get? "filters")).get? "entityTypeFilters")) ++
    namesOf .entityType false (dictOf (definition.get? "entityOverrides")).keys ++
    membershipNames (dictOf (definition.get? "membership")) ++
    searchNames (dictOf (definition.get? "search"))

/-- `collect`. A blank text names nothing. -/
def collect (definition : Dict String Json) : List Reference :=
  (placedNames definition).filter (·.name ≠ "")

structure Renaming where
  map : Dict String String := []
  drop : List String := []

def Renaming.rename (names : Renaming) (name : String) : String :=
  (names.map.get? name).getD name

/-- `Rewrite`. An urn's new name is one entity's, a type's is not blank. -/
structure Rewrite where
  urns : Renaming := {}
  types : Renaming := {}
  relTypes : Renaming := {}
  urns_exact : ∀ entry ∈ urns.map, isExactUrnPattern entry.2 = true
  types_named : ∀ entry ∈ types.map, entry.2 ≠ ""
  relTypes_named : ∀ entry ∈ relTypes.map, entry.2 ≠ ""

def Rewrite.isEmpty (rw : Rewrite) : Bool :=
  rw.urns.map.isEmpty && rw.urns.drop.isEmpty && rw.types.map.isEmpty && rw.types.drop.isEmpty &&
    rw.relTypes.map.isEmpty && rw.relTypes.drop.isEmpty

def onObject (change : Dict String Json → Dict String Json) : Json → Json
  | .obj fields => .obj (change fields)
  | value => value

def onItems (change : List Json → List Json) : Json → Json
  | .arr items => .arr (change items)
  | value => value

def adjust (key : String) (change : Json → Json) (fields : Dict String Json) : Dict String Json :=
  match fields.get? key with
  | some value => fields.set key (change value)
  | none => fields

def mapList (names : Renaming) (seen : List String) : List Json → List Json
  | [] => []
  | .scalar (.str name) :: rest =>
    if name ∈ names.drop then mapList names seen rest
    else if names.rename name ∈ seen then mapList names seen rest
    else .str (names.rename name) :: mapList names (names.rename name :: seen) rest
  | value :: rest => value :: mapList names seen rest

def mapInPlace (key : String) (names : Renaming) (fields : Dict String Json) : Dict String Json :=
  adjust key (onItems (mapList names [])) fields

def mapPredicateList (names : Renaming) : Json → Json :=
  if names.map.isEmpty then id else onItems (mapList { map := names.map } [])

/-- Move a value to its key's new name, unless that is taken or the key is dropped. -/
def moveKey (names : Renaming) (kept : Dict String Json) (entry : String × Json) :
    Dict String Json :=
  match names.map.get? entry.1 with
  | some key =>
    if entry.1 ∈ names.drop ∨ key ∈ kept.keys then kept else kept.set key entry.2
  | none => kept

/-- `_rewrite_assignments`, and how `entityOverrides` are rewritten: a name that stays keeps its
value. -/
def renameKeys (names : Renaming) (table : Dict String Json) : Dict String Json :=
  table.foldl (moveKey names)
    (table.filter fun entry => entry.1 ∉ names.drop ∧ entry.1 ∉ names.map.keys)

/-- How a membership's `overrides` are rewritten: of two values for a name, the last stays. -/
def renameOverrides (names : Renaming) (table : Dict String Json) : Dict String Json :=
  (table.filter fun entry => entry.1 ∉ names.drop).foldl
    (fun renamed entry => renamed.set (names.rename entry.1) entry.2) []

section

variable (rw : Rewrite)

/-- A rule without its pattern, which names a dropped entity: nothing if it has no other
criterion. -/
def dropPattern (rule : Dict String Json) : Option (Dict String Json) :=
  if ruleCriteria.any fun key => (rule.get? key).any isTrue then some (rule.pop "urnPattern")
  else none

def rewritePattern (rule : Dict String Json) : Option (Dict String Json) :=
  match rule.get? "urnPattern" with
  | some (.scalar (.str pattern)) =>
    if isExactUrnPattern pattern then
      if pattern ∈ rw.urns.drop then dropPattern rule
      else some (rule.set "urnPattern" (.str (rw.urns.rename pattern)))
    else some rule
  | _ => some rule

def rewriteRule (rule : Dict String Json) : Option (Dict String Json) :=
  (rewritePattern rw rule).map (mapInPlace "entityTypes" rw.types)

def rewriteRuleItem : Json → Option Json
  | .obj rule => (rewriteRule rw rule).map .obj
  | item => some item

def rewriteRules (rules : Json) : Json :=
  .arr ((listOf (some rules)).filterMap (rewriteRuleItem rw))

mutual

def rewriteLogicalNode : Json → Json
  | .obj fields => .obj (rewriteNodeFields fields)
  | node => node

def rewriteLogicalNodes : List Json → List Json
  | [] => []
  | node :: rest => rewriteLogicalNode node :: rewriteLogicalNodes rest

def rewriteNodeFields : List (String × Json) → List (String × Json)
  | [] => []
  | (key, .arr items) :: rest =>
    (key, if key = "rules" then rewriteRules rw (.arr items)
      else if key = "children" then .arr (rewriteLogicalNodes items)
      else .arr items) :: rewriteNodeFields rest
  | (key, value) :: rest =>
    (key, if key = "rules" then rewriteRules rw value else value) :: rewriteNodeFields rest

end

def rewriteAnchor (layer : Dict String Json) : Dict String Json :=
  match layer.get? "anchorUrn" with
  | some (.scalar (.str anchor)) =>
    if anchor = "" then layer
    else if anchor ∈ rw.urns.drop then layer.pop "anchorUrn"
    else layer.set "anchorUrn" (.str (rw.urns.rename anchor))
  | _ => layer

def rewriteScope (scope : Dict String Json) : Dict String Json :=
  mapInPlace "excludeEdgeTypes" rw.relTypes (mapInPlace "edgeTypes" rw.relTypes scope)

def rewriteLayer (layer : Dict String Json) : Dict String Json :=
  let layer := mapInPlace "entityTypes" rw.types (rewriteAnchor rw layer)
  let layer := adjust "scopeEdges" (onObject (rewriteScope rw)) layer
  let layer := adjust "rules" (rewriteRules rw) layer
  adjust "logicalNodes" (onItems (rewriteLogicalNodes rw)) layer

def renameText (key : String) (names : Renaming) (fields : Dict String Json) : Dict String Json :=
  match fields.get? key with
  | some (.scalar (.str name)) => fields.set key (.str (names.rename name))
  | _ => fields

def rewriteRef (ref : Dict String Json) : Dict String Json :=
  renameText "entityType" rw.types (renameText "urn" rw.urns ref)

def rewriteField (typeTest : Bool) (key : String) (value : Json) : Json :=
  if key ∈ predicateUrnKeys then mapPredicateList rw.urns value
  else if key ∈ predicateRefKeys then onItems (·.map (onObject (rewriteRef rw))) value
  else if key = "values" then if typeTest then mapPredicateList rw.types value else value
  else if key ∈ predicateEdgeTypeKeys then mapPredicateList rw.relTypes value
  else value

mutual

def rewritePredicate : Json → Json
  | .obj fields => .obj (rewritePredicateFields (isTypeTest fields) fields)
  | .arr items => .arr (rewritePredicates items)
  | .scalar s => .scalar s

def rewritePredicates : List Json → List Json
  | [] => []
  | item :: rest => rewritePredicate item :: rewritePredicates rest

def rewritePredicateFields (typeTest : Bool) : List (String × Json) → List (String × Json)
  | [] => []
  | (key, value) :: rest =>
    (key, if isNested key value then rewritePredicate value
      else rewriteField rw typeTest key value) :: rewritePredicateFields typeTest rest

end

def rewriteReferenceLayout (layout : Dict String Json) : Dict String Json :=
  let layout := adjust "assignments" (onObject (renameKeys rw.urns)) layout
  let layout := adjust "layers" (onItems (·.map (onObject (rewriteLayer rw)))) layout
  adjust "displayRules"
    (onItems (·.map (onObject (adjust "predicate" (rewritePredicate rw))))) layout

/-- What a projection is made for: a dropped type becomes `None`. -/
def rewriteGranularity (projection : Dict String Json) : Dict String Json :=
  match projection.get? "targetGranularityType" with
  | some (.scalar (.str type)) =>
    if type = "" then projection
    else projection.set "targetGranularityType"
      (if type ∈ rw.types.drop then .null else .str (rw.types.rename type))
  | _ => projection

def rewriteProjection (projection : Dict String Json) : Dict String Json :=
  mapInPlace "containmentEdgeTypes" rw.relTypes
    (mapInPlace "containerTypes" rw.types (rewriteGranularity rw projection))

def rewriteLod (lod : Dict String Json) : Dict String Json :=
  adjust "levels" (onItems (·.map (onObject (mapInPlace "visibleEntityTypes" rw.types)))) lod

def rewriteLayout (layout : Dict String Json) : Dict String Json :=
  let layout := adjust "referenceLayout" (onObject (rewriteReferenceLayout rw)) layout
  let layout := adjust "lod" (onObject (rewriteLod rw)) layout
  adjust "projection" (onObject (rewriteProjection rw)) layout

def rewriteContent (content : Dict String Json) : Dict String Json :=
  let content := mapInPlace "rootUrns" rw.urns content
  let content := mapInPlace "visibleEntityTypes" rw.types content
  let content := mapInPlace "rootEntityTypes" rw.types content
  mapInPlace "visibleRelationshipTypes" rw.relTypes content

def rewriteSeeds (seeds : Dict String Json) : Dict String Json :=
  adjust "query" (rewritePredicate rw) (adjust "urns" (mapPredicateList rw.urns) seeds)

def rewriteSource (source : Dict String Json) : Dict String Json :=
  adjust "spec" (onObject (adjust "seeds" (onObject (rewriteSeeds rw)))) source

def rewriteMembership (membership : Dict String Json) : Dict String Json :=
  let membership := adjust "sources" (onItems (·.map (onObject (rewriteSource rw)))) membership
  let membership := mapInPlace "exclude" rw.urns membership
  adjust "overrides" (onObject (renameOverrides rw.urns)) membership

def rewritePlaces (definition : Dict String Json) : Dict String Json :=
  let definition := adjust "layout" (onObject (rewriteLayout rw)) definition
  let definition := adjust "content" (onObject (rewriteContent rw)) definition
  let definition :=
    adjust "filters" (onObject (mapInPlace "entityTypeFilters" rw.types)) definition
  let definition := adjust "entityOverrides" (onObject (renameKeys rw.types)) definition
  let definition := adjust "membership" (onObject (rewriteMembership rw)) definition
  adjust "search" (onObject (adjust "predicate" (rewritePredicate rw))) definition

/-- Whether a value can be looked up among the names. -/
def isHashable : Option Json → Bool
  | some (.arr _) | some (.obj _) => false
  | _ => true

/-- Whether the names of every reference in a condition can be looked up. -/
def hashableRefs (definition : Dict String Json) : Bool :=
  (eachPredicateNode definition).all fun node => (predicateRefs node).all fun ref =>
    isHashable (ref.get? "urn") && isHashable (ref.get? "entityType")

/-- `rewrite`; `none` when it raises. -/
def rewrite (definition : Dict String Json) : Option (Dict String Json) :=
  if rw.isEmpty then some definition
  else if hashableRefs definition then some (rewritePlaces rw definition) else none

end

end DataViz.View
