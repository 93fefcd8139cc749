/-
# Comparing definitions

`diff.py` of `view_transfer`: what changed between two definitions of a view. Layers are matched by
id and placements by urn; of everything else the paths that changed are listed. Values are compared
by Python's `==`.

A definition is an object. Going through its layers raises where they are a number or `true`, which
no portable definition's are.
-/

import DataViz.Data.FirstKeys
import DataViz.View.References

namespace DataViz.View.Compare

open Json

def identified (layer : Dict String Json) : Option (String × Dict String Json) :=
  ((layer.get? "id").bind textOf).map (·, layer)

def layersById (definition : Dict String Json) : Dict String (Dict String Json) :=
  Dict.firsts ((layersOf definition).filterMap identified)

def assignments (definition : Dict String Json) : Dict String Entry :=
  storedAssignments (referenceLayout definition)

def changeObject (change : Dict String Json → Dict String Json) (key : String)
    (fields : Dict String Json) : Dict String Json :=
  match (fields.get? key).bind fieldsOf with
  | some inner => fields.set key (.obj (change inner))
  | none => fields

def withoutLayersAndAssignments (definition : Dict String Json) : Dict String Json :=
  changeObject (changeObject
    (fun layout => layout.filter fun field => field.1 ∉ ["layers", "assignments"])
    "referenceLayout") "layout" definition

def maxSettingPaths : ℕ := 100

/-- `f"{prefix}.{key}" if prefix else key`. -/
def join (path key : String) : String :=
  if path = "" then key else path ++ "." ++ key

/-- `_changed_paths` of what `get` gives, where `None` and no value are one. -/
def changedPaths (a b : Option Json) (path : String) (out : List String) : List String :=
  if maxSettingPaths ≤ out.length ∨ PyEq (a.getD .null) (b.getD .null) then out
  else
    match a, b with
    | some (.obj before), some (.obj after) =>
      (Dict.sortedKeys (Dict.keys before ++ Dict.keys after)).foldl (fun out key =>
        changedPaths (Dict.get? before key) (Dict.get? after key) (join path key) out) out
    | _, _ => out ++ [if path = "" then "(root)" else path]
termination_by sizeOf a
decreasing_by exact sizeOf_get?_lt before key

/-- Keys under which two dictionaries differ, in order. -/
def changedFields (before after : Dict String Json) : List String :=
  (Dict.sortedKeys (before.keys ++ after.keys)).filter fun key =>
    key ≠ "order" ∧ ¬PyEq (getOrNull before key) (getOrNull after key)

structure LayerLabel where
  id : Json
  name : Json

def layerLabel (layer : Dict String Json) : LayerLabel where
  id := getOrNull layer "id"
  name := getOrNull layer "name"

structure Change where
  key : String
  before : Json
  after : Json

/-- What changed between two definitions, before samples are cut. -/
structure Diff where
  metadata : List Change
  addedLayers : List LayerLabel
  removedLayers : List LayerLabel
  changedLayers : List (LayerLabel × List String)
  reordered : Bool
  names : Dict String Json
  added : List String
  removed : List String
  moved : List Change
  modified : List String
  settings : List String

def labelFields : List String := ["name", "description", "icon", "tags", "viewType"]

/-- The fields of the labels that differ, if both are given. -/
def labelChanges : Option (Dict String Json) → Option (Dict String Json) → List Change
  | some before, some after =>
    (labelFields.filter fun key => ¬PyEq (getOrNull before key) (getOrNull after key)).map
      fun key => ⟨key, getOrNull before key, getOrNull after key⟩
  | _, _ => []

def urnsWhere (d : Dict String Entry) (holds : String → Entry → Bool) : List String :=
  Dict.sortedKeys ((d.filter fun entry => holds entry.1 entry.2).map Prod.fst)

/-- What `diff_definitions` finds. -/
def changes (a b : Dict String Json) (labelA labelB : Option (Dict String Json)) : Diff :=
  let layersA := layersById a
  let layersB := layersById b
  let assignA := assignments a
  let assignB := assignments b
  let kept := urnsWhere assignA fun urn _ => (assignB.get? urn).isSome
  let entry (d : Dict String Entry) (urn : String) : Entry := (d.get? urn).getD []
  let placedIn (d : Dict String Entry) (urn : String) : Json := getOrNull (entry d urn) "layerId"
  let different := kept.filter fun urn =>
    ¬PyEq (.obj (entry assignA urn)) (.obj (entry assignB urn))
  let stays (urn : String) : Bool := PyEq (placedIn assignA urn) (placedIn assignB urn)
  { metadata := labelChanges labelA labelB
    addedLayers := (layersB.filter fun layer => layer.1 ∉ layersA.keys).map (layerLabel ·.2)
    removedLayers := (layersA.filter fun layer => layer.1 ∉ layersB.keys).map (layerLabel ·.2)
    changedLayers := layersA.filterMap fun layer => (layersB.get? layer.1).bind fun after =>
      let fields := changedFields layer.2 after
      if fields = [] then none else some (layerLabel after, fields)
    reordered := layersA.keys.filter (· ∈ layersB.keys) ≠ layersB.keys.filter (· ∈ layersA.keys)
    names := (layersA.update layersB).map fun layer =>
      let name := getOrNull layer.2 "name"
      (layer.1, if isTrue name then name else .str layer.1)
    added := urnsWhere assignB fun urn _ => (assignA.get? urn).isNone
    removed := urnsWhere assignA fun urn _ => (assignB.get? urn).isNone
    moved := (different.filter fun urn => !stays urn).map fun urn =>
      ⟨urn, placedIn assignA urn, placedIn assignB urn⟩
    modified := different.filter stays
    settings := changedPaths (some (.obj (withoutLayersAndAssignments a)))
      (some (.obj (withoutLayersAndAssignments b))) "" [] }

def Diff.identical (diff : Diff) : Bool :=
  diff.metadata.isEmpty && diff.addedLayers.isEmpty && diff.removedLayers.isEmpty &&
    diff.changedLayers.isEmpty && !diff.reordered && diff.added.isEmpty && diff.removed.isEmpty &&
    diff.moved.isEmpty && diff.modified.isEmpty && diff.settings.isEmpty

def slice {α : Type} (items : List α) (limit : ℤ) : List α :=
  if 0 ≤ limit then items.take limit.toNat else items.take (items.length - (-limit).toNat)

structure AssignmentReport where
  added : ℕ
  removed : ℕ
  moved : ℕ
  modified : ℕ
  addedSample : List String
  removedSample : List String
  movedSample : List Change
  modifiedSample : List String
  truncated : Bool

def Diff.assignmentReport (diff : Diff) (sampleLimit : ℤ) : AssignmentReport where
  added := diff.added.length
  removed := diff.removed.length
  moved := diff.moved.length
  modified := diff.modified.length
  addedSample := slice diff.added sampleLimit
  removedSample := slice diff.removed sampleLimit
  movedSample := slice diff.moved sampleLimit
  modifiedSample := slice diff.modified sampleLimit
  truncated := sampleLimit < diff.added.length || sampleLimit < diff.removed.length ||
    sampleLimit < diff.moved.length || sampleLimit < diff.modified.length

def comparable (definition : Dict String Json) : Bool :=
  iterable ((referenceLayout definition).get? "layers")

def diffDefinitions (a b : Dict String Json) (labelA labelB : Option (Dict String Json))
    (sampleLimit : ℤ) : Option (Diff × AssignmentReport) :=
  if comparable a ∧ comparable b then
    let diff := changes a b labelA labelB
    some (diff, diff.assignmentReport sampleLimit)
  else none

end DataViz.View.Compare
