/-
# The portable form of a view

A view's definition is its stored config without the keys that say where it lives and those
that label it, its layout up-converted, and its scope stamped. Entities that were never saved
do not travel, and of a view kept up to date neither do the entities its query placed.

A definition is split for a draft into its layout, its scope and the rest, and joined again.
-/

import DataViz.Versioning.Basic
import DataViz.View.Layout

namespace DataViz.View

def environmentKeys : List String :=
  ["id", "workspaceId", "dataSourceId", "scopeKey", "workspaceName", "isFavourited",
    "isDefault", "visibility", "isPublic", "createdBy", "createdAt", "updatedAt",
    "contextModelId"]

def metadataKeys : List String :=
  ["name", "description", "icon", "tags"]

/-- An entity that was never saved: its urn starts with `STAGED_URN_PREFIX`. -/
def isStaged (urn : String) : Prop :=
  "urn:staged:".toList <+: urn.toList

instance (urn : String) : Decidable (isStaged urn) :=
  inferInstanceAs (Decidable (_ <+: _))

/-- `urn and not urn.startswith(STAGED_URN_PREFIX)`. -/
def Travels (urn : String) : Prop :=
  urn ≠ "" ∧ ¬ isStaged urn

instance (urn : String) : Decidable (Travels urn) :=
  inferInstanceAs (Decidable (_ ∧ _))

/-- An entry without the fields that are `None`. -/
def dropNulls (entry : Entry) : Entry :=
  entry.items.filter fun field => field.2 ≠ .null

def canonicalAssignments (raw : Dict String Json) : Dict String Entry :=
  ((normalize raw).assignments.filter fun entry => Travels entry.1).map
    fun entry => (entry.1, dropNulls entry.2)

/-- A layout with its side fields, up-converted layers and some placements. -/
def layoutWith (raw : Dict String Json) (assignments : Dict String Entry) : Dict String Json :=
  let side : Dict String Json := raw.filter fun field => field.1 ∉ ["layers", "assignments"]
  (side.set "layers" (.arr (normalize raw).layers)).set "assignments"
    (.obj (assignments.map fun entry => (entry.1, .obj entry.2)))

def canonicalReferenceLayout (raw : Dict String Json) : Dict String Json :=
  layoutWith raw (canonicalAssignments raw)

/-- An entity that the view's query placed: `MACHINE`. -/
def isMachine (entry : Entry) : Bool :=
  entry.get? "assignedBy" = some (.str "query")

def keptUpToDate (config : Dict String Json) : Bool :=
  match (config.get? "membership").bind fieldsOf with
  | some membership => (membership.get? "mode").getD (.str "live") = .str "live"
  | none => false

/-- The placements of a definition: of a view kept up to date without the query's. -/
def portableAssignments (kept : Bool) (raw : Dict String Json) : Dict String Entry :=
  if kept then (canonicalAssignments raw).items.filter fun entry => !isMachine entry.2
  else canonicalAssignments raw

def portableLayout (kept : Bool) (raw : Dict String Json) : Dict String Json :=
  if kept then layoutWith raw (portableAssignments kept raw) else canonicalReferenceLayout raw

/-- An object's fields, of anything else none. -/
def dictOf (value : Option Json) : Dict String Json :=
  (value.bind fieldsOf).getD []

def isDropped (key : String) : Bool :=
  key ∈ environmentKeys || key ∈ metadataKeys || key = "referenceLayout"

def typeOf (layout : Dict String Json) : Option String :=
  match layout.get? "type" with
  | some (.scalar (.str type)) => if type = "" then none else some type
  | _ => none

def defaultType (viewType : Option String) : String :=
  (viewType.filter (· ≠ "")).getD "graph"

/-- The config's `layout` with the portable layout in it, if it has one. -/
def laidOut (source : Dict String Json) : Dict String Json :=
  match rawReferenceLayout source with
  | some raw => (dictOf (source.get? "layout")).set "referenceLayout"
      (.obj (portableLayout (keptUpToDate source) raw))
  | none => dictOf (source.get? "layout")

def layoutField (source : Dict String Json) (viewType : Option String) : Dict String Json :=
  if (typeOf (laidOut source)).isSome then laidOut source
  else (laidOut source).set "type" (.str (defaultType viewType))

/-- A definition's `content`, its scope stamped. -/
def contentField (source : Dict String Json) : Dict String Json :=
  let content := dictOf (source.get? "content")
  if isScope (content.get? "entityScope") then content
  else content.set "entityScope" (deriveEntityScope source)

/-- The definition of a config whose layout can be read. -/
def definitionOf (source : Dict String Json) (viewType : Option String) : Dict String Json :=
  let definition : Dict String Json := source.filter fun field => !isDropped field.1
  (definition.set "layout" (.obj (layoutField source viewType))).set "content"
    (.obj (contentField source))

/-- `portable_definition`; `none` when it raises. -/
def portableDefinition (config : Json) (viewType : Option String) : Option (Dict String Json) :=
  let source := dictOf (some config)
  if readable ((rawReferenceLayout source).getD []) then some (definitionOf source viewType)
  else none

def configFromDefinition (definition : Dict String Json) (icon : Option String) :
    Dict String Json :=
  match icon with
  | some icon => if icon ≠ "" then definition.set "icon" (.str icon) else definition
  | none => definition

structure SplitDefinition where
  rest : Dict String Json
  referenceLayout : Dict String Json
  entityScope : Option Json

/-- Take a key out of the object under another. -/
def popUnder (definition : Dict String Json) (outer inner : String) : Dict String Json :=
  match (definition.get? outer).bind fieldsOf with
  | some fields => definition.set outer (.obj (fields.pop inner))
  | none => definition

/-- Put a value into the object under a key; anything else there makes way for one. -/
def setUnder (definition : Dict String Json) (outer inner : String) (value : Json) :
    Dict String Json :=
  definition.set outer (.obj ((dictOf (definition.get? outer)).set inner value))

def splitDefinition (definition : Dict String Json) : SplitDefinition where
  rest := popUnder (popUnder definition "layout" "referenceLayout") "content" "entityScope"
  referenceLayout := dictOf ((dictOf (definition.get? "layout")).get? "referenceLayout")
  entityScope := ((dictOf (definition.get? "content")).get? "entityScope").filter (· ≠ .null)

def joinDefinition (split : SplitDefinition) : Dict String Json :=
  let laid :=
    if split.referenceLayout = [] then split.rest
    else setUnder split.rest "layout" "referenceLayout" (.obj split.referenceLayout)
  match split.entityScope with
  | some scope => setUnder laid "content" "entityScope" scope
  | none => laid

end DataViz.View
