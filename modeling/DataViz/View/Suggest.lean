/-
# Suggesting a layer for a new entity

`suggest_placement` of `view_placement.py`: the layer a write path puts a root entity in, and
whether it has to pin it there with a hand placement.
-/

import DataViz.View.Place

namespace DataViz.View

/-- A compiled view's specification. `from_config` takes the layers of the rules and the first layer
from the layers it compiles, all of them named. -/
structure LayeredSpec (Comparison : Type) extends PlacementSpec Comparison where
  firstLayerId : Option String
  named : "" ∉ layerIds
  ruleLayers : ∀ rule ∈ rules, rule.layerId ∈ layerIds
  firstLayer : ∀ id ∈ firstLayerId, id ∈ layerIds

section

variable (letters : Letters) {Comparison : Type} (evaluate : Option Json → Comparison → Bool)
  (spec : LayeredSpec Comparison)

def PlacementSpec.withScope {Comparison : Type} (spec : PlacementSpec Comparison) (scope : Scope) :
    PlacementSpec Comparison :=
  { spec with scope }

def validLayer (layerId : Option String) : Option String :=
  layerId.filter (· ∈ spec.layerIds)

def memberLayer (placed : Placement) : Option String :=
  if placed.member then placed.layerId else none

def orText (first second : Option String) : Option String :=
  if truthy first then first else second

/-- `suggest_placement` before it looks at the default: the chosen layer, else the one the view has
the entity in, else, in a curated view, the one an open view would. -/
def suggestComputed (facts : NodeFacts) (chosenLayerId : Option String) : Option String :=
  let placed := place letters evaluate spec.toPlacementSpec facts [] false
  let layerId := orText (validLayer spec chosenLayerId) (memberLayer placed)
  if layerId = none ∧ spec.scope = .curated then
    memberLayer (place letters evaluate (spec.toPlacementSpec.withScope .all) facts [] false)
  else layerId

def suggestPlacement (facts : NodeFacts) (chosenLayerId defaultLayerId : Option String) :
    Option String × Bool :=
  let curated := spec.scope = .curated
  let current := memberLayer (place letters evaluate spec.toPlacementSpec facts [] false)
  let computed := suggestComputed letters evaluate spec facts chosenLayerId
  let layerId :=
    if computed = none then
      orText (validLayer spec defaultLayerId) (if curated then spec.firstLayerId else none)
    else computed
  (layerId, layerId.isSome && (curated || layerId ≠ current))

/-- A hand placement written into a view, its scope as it is. -/
def PlacementSpec.pinned {Comparison : Type} (spec : PlacementSpec Comparison) (urn layer : String)
    (inheritsChildren : Bool) : PlacementSpec Comparison :=
  { spec with explicit := spec.explicit.set urn ⟨layer, inheritsChildren⟩ }

/-- The view once a suggestion is written: pinned only where the suggestion says so. -/
def PlacementSpec.following {Comparison : Type} (spec : PlacementSpec Comparison) (urn : String)
    (suggestion : Option String × Bool) (inheritsChildren : Bool) : PlacementSpec Comparison :=
  match suggestion with
  | (some layer, true) => spec.pinned urn layer inheritsChildren
  | _ => spec

end

def Placement.unmarked (placement : Placement) : Placement :=
  { placement with ambiguousParent := false }

/-- One entity's placement is taken from another's. -/
def InheritsFrom (out : Dict String Placement) (e p : String) : Prop :=
  ∃ placement, out.get? e = some placement ∧ placement.inheritedFrom = some p

/-- An entity of the pinned URN, or one that inherits from it, through others or not, before the pin
or after. -/
inductive Touched (entities : Entities) (out out' : Dict String Placement) (urn : String) :
    String → Prop
  | pinned {e : String} {facts : NodeFacts} (known : entities.facts.get? e = some facts)
      (named : facts.urn = urn) : Touched entities out out' urn e
  | inherits {e p : String} (from_ : InheritsFrom out e p ∨ InheritsFrom out' e p)
      (parent : Touched entities out out' urn p) : Touched entities out out' urn e

end DataViz.View
