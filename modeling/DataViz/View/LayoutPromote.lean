/-
# Promoting a draft's layout

`layout_promote.py`: the layout of a draft is merged into the published one, both forked from one
base. Layers are keyed by their id and placements by urn; under each key what the draft changed
wins, and what it left takes what is published.

Values are compared by Python's `==`, and so are the ids of layers, which have to be scalars.
Dictionaries are compared by what they hold, not by order.
-/

import DataViz.Data.FirstKeys
import DataViz.View.Layout

namespace DataViz.View.Promote

open Json

/-- `_guard_bare_layout`; `none` is its `ValueError`. -/
def guardBareLayout (layout : Dict String Json) : Option (Dict String Json) :=
  let looksLikeFullConfig := "layout" ∈ layout.keys ∨ "content" ∈ layout.keys
  let isBareLayout := "layers" ∈ layout.keys ∨ "assignments" ∈ layout.keys
  if looksLikeFullConfig ∧ ¬isBareLayout then
    ((layout.get? "layout").bind fieldsOf).bind fun nested =>
      (nested.get? "referenceLayout").bind fieldsOf
  else some layout

/-- `_normalize`, if it does not raise. -/
def readLayout (layout : Json) : Option ReferenceLayout :=
  (guardBareLayout ((fieldsOf layout).getD [])).bind fun raw =>
    if readable raw then some (normalize raw) else none

/-- What a dictionary holds a value under, if it can be hashed. -/
def hashed : Json → Option Scalar
  | .scalar s => some s.numeric
  | _ => none

def layerId (layer : Json) : Option Json :=
  ((fieldsOf layer).bind fun fields => fields.get? "id").filter (· ≠ .null)

def keyOf (layer : Json) : Option Scalar :=
  (layerId layer).bind hashed

def hashable (layers : List Json) : Bool :=
  layers.all fun layer => (layerId layer).all fun id => (hashed id).isSome

def keyed (layers : List Json) : Dict Scalar Json :=
  layers.filterMap fun layer => (keyOf layer).map (·, layer)

def layersById (layers : List Json) : Dict Scalar Json :=
  Dict.firsts (keyed layers)

/-- `_pick`, with `none` for `_ABSENT`. -/
def pick (f p d : Option Json) : Option Json :=
  if PyEq? d f then p else d

/-- The layer under an id, `merged` of `_merge_keyed`. -/
def mergedLayer (f p d : List Json) (id : Scalar) : Option Json :=
  pick ((layersById f).get? id) ((layersById p).get? id) ((layersById d).get? id)

/-- What `_emit_in_order` emits of some layers, before it has emitted any. -/
def emitted (merged : Scalar → Option Json) (layers : List Json) : Dict Scalar Json :=
  (keyed layers).filterMap fun entry => (merged entry.1).map (entry.1, ·)

/-- `_merge_keyed`; the fork's layers are last, for those that neither side lists. -/
def mergeKeyed (f p d : List Json) : List Json :=
  let merged := mergedLayer f p d
  (Dict.firsts (emitted merged d ++ emitted merged p ++ emitted merged f)).map Prod.snd

def setOrder (index : ℕ) : Json → Json
  | .obj fields => .obj (Dict.set fields "order" (.int index))
  | layer => layer

def mergeLayers (f p d : List Json) : List Json :=
  (mergeKeyed f p d).mapIdx setOrder

/-- The placement of an entity, `chosen` of `_merge_assignments`. -/
def mergedAssignment (f p d : Dict String Entry) (urn : String) : Option Json :=
  pick ((f.get? urn).map .obj) ((p.get? urn).map .obj) ((d.get? urn).map .obj)

def mergeAssignments (f p d : Dict String Entry) : Dict String Json :=
  Dict.ofKeys (f.keys ++ p.keys ++ d.keys).dedup (mergedAssignment f p d)

def entryLayer (entry : Json) : Option Scalar :=
  (fieldsOf entry).bind fun fields => hashed (getOrNull fields "layerId")

def placed (layers : List Json) (entry : Json) : Bool :=
  (entryLayer entry).any fun id => some id ∈ layers.map keyOf

def pruneOrphanAssignments (assignments : Dict String Json) (layers : List Json) :
    Dict String Json :=
  assignments.items.filter fun entry => placed layers entry.2

structure Layout where
  layers : List Json
  assignments : Dict String Json

def Layout.toJson (layout : Layout) : Json :=
  .obj [("layers", .arr layout.layers), ("assignments", .obj layout.assignments)]

def promote (f p d : ReferenceLayout) : Layout :=
  let layers := mergeLayers f.layers p.layers d.layers
  { layers
    assignments := pruneOrphanAssignments
      (mergeAssignments f.assignments p.assignments d.assignments) layers }

/-- Merging does not raise: what is looked up can be hashed. -/
def mergeable (f p d : ReferenceLayout) : Bool :=
  hashable f.layers && hashable p.layers && hashable d.layers &&
    (mergeAssignments f.assignments p.assignments d.assignments).all fun entry =>
      (entryLayer entry.2).isSome

/-- `merge_layout_3way`; `none` where it raises. -/
def mergeLayout3way (forkBase published draft : Json) : Option Layout :=
  (readLayout forkBase).bind fun f =>
    (readLayout published).bind fun p =>
      (readLayout draft).bind fun d =>
        if mergeable f p d then some (promote f p d) else none

end DataViz.View.Promote
