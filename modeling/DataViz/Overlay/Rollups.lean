/-
# Rollups of a draft

Main's rollups are moved by the draft's own flows: one it added goes on under its ends'
containers on the draft's state, one it removed or moved away comes off under main's. Ends
are placed by one chain of containers, found climbing from parent to parent; where a node
has several, the chain follows the first. A read that overlays a past revision says that it
is stale when containers moved.
-/

import Mathlib.Algebra.Ring.Nat
import DataViz.Overlay.Delta
import DataViz.Data.Digraph

namespace DataViz.Overlay

open Versioning

def containersOf (types : EdgeTypes) (edges : List GraphEdge) (urn : String) : List String :=
  (edges.filter fun edge => types.contains edge.place ∧ edge.place.targetUrn = urn).map
    fun edge => edge.place.sourceUrn

/-- Climb from a parent, until there is none or the chain has it already. -/
def climb (parent : String → Option String) : ℕ → List String → Option String → List String
  | 0, chain, _ => chain
  | _ + 1, chain, none => chain
  | fuel + 1, chain, some container =>
    if container ∈ chain then chain
    else climb parent fuel (chain ++ [container]) (parent container)

/-- The chain of a node in a state, parent first. -/
def chainOf (types : EdgeTypes) (edges : List GraphEdge) (urn : String) : List String :=
  let parent := fun urn => (containersOf types edges urn).head?
  climb parent (edges.length + 1) [] (parent urn)

/-- `get_ancestor_chains`: the chain of each live node asked for. -/
def ancestorChains (types : EdgeTypes) (nodes : List String) (edges : List GraphEdge)
    (urns : List String) : Dict String (List String) :=
  if types.containment = [] then []
  else Dict.ofKeys (urns.filter fun urn => urn ∈ nodes) fun urn => some (chainOf types edges urn)

structure AggregatedEdge where
  id : String
  sourceUrn : String
  targetUrn : String
  edgeCount : ℕ
  edgeTypes : List String
  deriving DecidableEq

def AggregatedEdge.pair (edge : AggregatedEdge) : String × String :=
  (edge.sourceUrn, edge.targetUrn)

structure AggregatedResult where
  aggregatedEdges : List AggregatedEdge
  totalSourceEdges : ℕ
  stale : Bool
  staleReason : Option String
  deriving DecidableEq

/-- How far the draft's flows move a pair. -/
structure Slot where
  weight : ℤ
  types : List String
  deriving DecidableEq

structure Request where
  sources : List String
  targets : List String
  deriving DecidableEq

namespace Request

/-- A pair is asked for: none named on one side means every one, none on either nothing. -/
def Asks (request : Request) (pair : String × String) : Prop :=
  (request.sources ≠ [] ∨ request.targets ≠ []) ∧
    (request.sources ≠ [] → pair.1 ∈ request.sources) ∧
    (request.targets ≠ [] → pair.2 ∈ request.targets) ∧ pair.1 ≠ pair.2

instance (request : Request) (pair : String × String) : Decidable (request.Asks pair) :=
  inferInstanceAs (Decidable (_ ∧ (_ → _) ∧ (_ → _) ∧ _))

end Request

def placed (chains : Dict String (List String)) (named : List String) (urn : String) :
    List String :=
  (urn :: (chains.get? urn).getD []).dedup.filter fun place => named ≠ [] → place ∈ named

def cells (chains : Dict String (List String)) (request : Request) (flow : GraphEdge) :
    List (String × String) :=
  ((placed chains request.sources flow.place.sourceUrn).flatMap fun source =>
    (placed chains request.targets flow.place.targetUrn).map fun target => (source, target)).filter
      fun pair => pair.1 ≠ pair.2

def moveCell (sign : ℤ) (edgeType : String) (out : Dict (String × String) Slot)
    (pair : String × String) : Dict (String × String) Slot :=
  let slot := (out.get? pair).getD ⟨0, []⟩
  out.set pair ⟨slot.weight + sign,
    if edgeType ≠ "" ∧ edgeType ∉ slot.types then slot.types ++ [edgeType] else slot.types⟩

def rollupCells (flows : List GraphEdge) (sign : ℤ) (chains : Dict String (List String))
    (request : Request) (out : Dict (String × String) Slot) : Dict (String × String) Slot :=
  flows.foldl (fun out flow =>
    (cells chains request flow).foldl (moveCell sign flow.place.edgeType) out) out

def ends (flows : List GraphEdge) : List String :=
  Dict.sortedKeys (flows.flatMap fun flow => [flow.place.sourceUrn, flow.place.targetUrn])

/-- What the draft's flows move, pair by pair. -/
def adjustments (types : EdgeTypes) {main : Main} (draft : Draft main) (request : Request) :
    Dict (String × String) Slot :=
  let delta := OverlayDelta.ofPatch types draft.patch
  if request.sources = [] ∧ request.targets = [] then []
  else
    let added := rollupCells delta.lineageAdded 1
      (ancestorChains types (composedNodes main draft.patch)
        (composedEdges main draft.patch draft.values) (ends delta.lineageAdded)) request []
    rollupCells delta.lineageRemoved (-1)
      (ancestorChains types main.nodes main.edges (ends delta.lineageRemoved)) request added

def movePair (byPair : Dict (String × String) AggregatedEdge)
    (move : (String × String) × Slot) : Dict (String × String) AggregatedEdge :=
  match byPair.get? move.1 with
  | none =>
    if 0 < move.2.weight then
      byPair.set move.1
        { id := "agg-" ++ move.1.1 ++ "-" ++ move.1.2, sourceUrn := move.1.1,
          targetUrn := move.1.2, edgeCount := move.2.weight.toNat,
          edgeTypes := Dict.sortedKeys move.2.types }
    else byPair
  | some current =>
    if (current.edgeCount : ℤ) + move.2.weight ≤ 0 then byPair.pop move.1
    else byPair.set move.1 { current with
      edgeCount := ((current.edgeCount : ℤ) + move.2.weight).toNat
      edgeTypes := Dict.sortedKeys (current.edgeTypes ++ move.2.types) }

def rolledUp (types : EdgeTypes) {main : Main} (draft : Draft main) (base : AggregatedResult)
    (request : Request) : AggregatedResult :=
  let delta := OverlayDelta.ofPatch types draft.patch
  if delta.lineageAdded = [] ∧ delta.lineageRemoved = [] then base
  else
    let byPair := (adjustments types draft request).foldl movePair
      (base.aggregatedEdges.foldl (fun byPair edge => byPair.set edge.pair edge) [])
    let edges := (byPair.map Prod.snd).insertionSort fun first second =>
      second.edgeCount ≤ first.edgeCount
    { base with
      aggregatedEdges := edges, totalSourceEdges := (edges.map AggregatedEdge.edgeCount).sum }

/-- `get_aggregated_edges_between`, given the store's answer; `asOf` at a past revision. -/
def getAggregatedEdges (types : EdgeTypes) {main : Main} (draft : Draft main) (asOf : Bool)
    (base : AggregatedResult) (request : Request) : AggregatedResult :=
  let result := rolledUp types draft base request
  if asOf && (OverlayDelta.ofPatch types draft.patch).structureMoved then
    { result with stale := true, staleReason := some "revision_structure_moved" }
  else result

end DataViz.Overlay
