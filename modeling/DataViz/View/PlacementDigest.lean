/-
# The digest of a view's placement

`placement_digest` of `view_placement.py`: a short id for what decides where a view places entities.
It is a hash of a JSON text, in which each comparison of a rule stands as its `repr`. Rule ids and
hand placements in layers the view no longer has are left out of it.
-/

import DataViz.Data.PyText
import DataViz.View.Place

namespace DataViz.View

open PyText Writing

/-- A condition resolved to one type and exact comparable values. -/
@[ext]
structure Comparison where
  op : String
  type : Option String
  values : List Atom
  grain : Option String
  caseSensitive : Bool
  includeMissing : Bool
  deriving DecidableEq

structure KeyedRule extends CompiledRule Comparison where
  negPriority : Number
  order : Number
  position : ℕ
  index : ℕ

/-- A compiled view: what `place` reads of it, the keys its rules were sorted by, and its first
layer. -/
structure CompiledView where
  scope : Scope
  layerIds : List String
  rules : List KeyedRule
  explicit : Dict String ExplicitEntry
  firstLayerId : Option String
  fallbackLayerId : Option String

/-- What `place` reads. -/
def CompiledView.spec (view : CompiledView) : PlacementSpec Comparison where
  scope := view.scope
  layerIds := view.layerIds
  rules := view.rules.map KeyedRule.toCompiledRule
  explicit := view.explicit
  fallbackLayerId := view.fallbackLayerId

section

variable (printable : Char → Bool)

def Comparison.repr (cmp : Comparison) : List Char :=
  "Comparison(op=".toList ++ (reprStr printable cmp.op ++ (", type=".toList ++
    (reprOption printable cmp.type ++ (", values=".toList ++ (reprTuple printable cmp.values ++
      (", grain=".toList ++ (reprOption printable cmp.grain ++ (", case_sensitive=".toList ++
        (reprBool cmp.caseSensitive ++ (", include_missing=".toList ++
          (reprBool cmp.includeMissing ++ [')'])))))))))))

def optional : Option String → Canon
  | none => .null
  | some text => .str text

def sortedTexts : Option (List String) → Canon
  | none => .null
  | some texts => .list ((Dict.sortedKeys texts).map .str)

def comparisonEntry (entry : String × Comparison) : Canon :=
  .list [.str entry.1, .str (String.ofList (entry.2.repr printable))]

def digestEntry (r : KeyedRule) : Canon :=
  .list [.str r.layerId, .list [.number r.negPriority, .number r.order, .number (.int r.position),
      .number (.int r.index)],
    sortedTexts r.types, sortedTexts r.tags, optional r.glob,
    .list (r.comparisons.map (comparisonEntry printable)), .bool r.cascadesSoft]

def explicitEntryOf (entry : String × ExplicitEntry) : Canon :=
  .list [.str entry.1, .str entry.2.layerId, .bool entry.2.inheritsChildren]

/-- The hand placements in layers of the view, in the order of their URNs. -/
def liveExplicit (view : CompiledView) : Dict String ExplicitEntry :=
  Dict.sorted (view.explicit.items.filter fun entry => entry.2.layerId ∈ view.layerIds)

def canonical (view : CompiledView) : Dict String Canon :=
  [("scope", .str (if view.scope = .all then "all" else "curated")),
    ("layers", .list ((Dict.sortedKeys view.layerIds).map .str)),
    ("first", optional view.firstLayerId),
    ("fallback", optional view.fallbackLayerId),
    ("rules", .list (view.rules.map (digestEntry printable))),
    ("explicit", .list ((liveExplicit view).map explicitEntryOf))]

def placementDigest (hash : List Char → String) (view : CompiledView) : String :=
  hash (dumpsObject (canonical printable view))

end

/-- Where an entity is: its layer, whether it is a member of it, and what it passes on. -/
structure Spot where
  layerId : Option String
  member : Bool
  cascade : Option Cascade
  deriving DecidableEq

def Placement.spot (placement : Placement) : Spot :=
  ⟨placement.layerId, placement.member, placement.cascade⟩

end DataViz.View
