/-
# Aggregated edges, one leaf edge at a time

`AggregatedEdgeMaterializer` keeps, for every pair of an ancestor of a source and an
ancestor of a target, the ids of the leaf edges between them and an edge that tells
their number. The ids are one backend's and the edges another's, so a write or a
removal changes the two in turn.

The backends are their contracts. Clearing them and counting every edge are not
modelled.
-/

import Mathlib.Data.Finset.Card
import DataViz.Data.Attempt

namespace DataViz.Rollup

abbrev PairKey := String × String

structure Aggregate where
  weight : ℕ
  sourceEdgeTypes : Finset String
  deriving DecidableEq

/-- The bookkeeping of `IdempotencyBackend`, with the type each contributing leaf edge
was booked under, and the edges of `MaterializationBackend`. -/
structure Backends where
  contributors : PairKey → Finset String
  typeOf : PairKey → String → String
  edges : PairKey → Option Aggregate

def Backends.empty : Backends where
  contributors _ := ∅
  typeOf _ _ := ""
  edges _ := none

inductive Change
  | added (pair : PairKey) (edgeId edgeType : String)
  | removed (pair : PairKey) (edgeId : String)
  | written (pair : PairKey) (aggregate : Aggregate)
  | deleted (pair : PairKey)

def Backends.apply (s : Backends) : Change → Backends
  | .added pair edgeId edgeType =>
    { s with
      contributors :=
        Function.update s.contributors pair (insert edgeId (s.contributors pair))
      typeOf :=
        Function.update s.typeOf pair (Function.update (s.typeOf pair) edgeId edgeType) }
  | .removed pair edgeId =>
    { s with
      contributors :=
        Function.update s.contributors pair ((s.contributors pair).erase edgeId) }
  | .written pair aggregate => { s with edges := Function.update s.edges pair aggregate }
  | .deleted pair => { s with edges := Function.update s.edges pair none }

abbrev Effect := Attempt Backends Change

structure MaterializerConfig where
  batchSize : ℕ
  positive : 0 < batchSize

/-- `AggregatedEdgeMaterializer`: its settings and the ancestor chains it is given. -/
structure Materializer where
  config : MaterializerConfig
  chains : String → List String

def chain (m : Materializer) (urn : String) : Effect (List String) :=
  .call Backends.apply (fun _ => []) fun _ => m.chains urn

/-- `IdempotencyBackend.add`: whether the id is new to the pair. -/
def add (pair : PairKey) (edgeId edgeType : String) : Effect Bool :=
  .call Backends.apply
    (fun s => if edgeId ∈ s.contributors pair then [] else [.added pair edgeId edgeType])
    fun s => edgeId ∉ s.contributors pair

/-- `IdempotencyBackend.remove`: whether the pair had the id. -/
def remove (pair : PairKey) (edgeId : String) : Effect Bool :=
  .call Backends.apply
    (fun s => if edgeId ∈ s.contributors pair then [.removed pair edgeId] else [])
    fun s => edgeId ∈ s.contributors pair

def count (pair : PairKey) : Effect ℕ :=
  .call Backends.apply (fun _ => []) fun s => (s.contributors pair).card

def edgeTypes (pair : PairKey) : Effect (Finset String) :=
  .call Backends.apply (fun _ => []) fun s => (s.contributors pair).image (s.typeOf pair)

def upsertAggregatedEdges (pairs : List (PairKey × Aggregate)) : Effect Unit :=
  .call Backends.apply (fun _ => pairs.map fun entry => .written entry.1 entry.2) fun _ => ()

def deleteAggregatedEdge (pair : PairKey) : Effect Unit :=
  .call Backends.apply (fun _ => [.deleted pair]) fun _ => ()

def updateAggregatedEdge (pair : PairKey) (aggregate : Aggregate) : Effect Unit :=
  .call Backends.apply
    (fun s => if (s.edges pair).isSome then [.written pair aggregate] else []) fun _ => ()

/-- `_cross_pairs`: every pair but those of an ancestor with itself, each once. -/
def crossPairs (sChain tChain : List String) : List PairKey :=
  ((sChain.flatMap fun s => tChain.map fun t => (s, t)).filter
    fun pair => pair.1 ≠ pair.2).eraseDups

def orSelf (chain : List String) (urn : String) : List String :=
  if chain = [] then [urn] else chain

def chunks {α : Type} (items : List α) (size : ℕ) : List (List α) :=
  (List.range ((items.length + size - 1) / size)).map fun i =>
    (items.drop (i * size)).take size

/-- The loop of `materialize_lineage_edge` that books an id and collects the pairs it
is new to. -/
def bookPairs (edgeId edgeType : String) :
    List PairKey → List (PairKey × Aggregate) → Effect (List (PairKey × Aggregate))
  | [], newPairs => pure newPairs
  | pair :: pairs, newPairs => do
    let wasNew ← add pair edgeId edgeType
    if wasNew then
      let weight ← count pair
      let types ← edgeTypes pair
      bookPairs edgeId edgeType pairs (newPairs ++ [(pair, ⟨weight, types⟩)])
    else
      bookPairs edgeId edgeType pairs newPairs

/-- The loop of `materialize_lineage_edge` that writes the collected pairs' edges. -/
def upsertChunks : List (List (PairKey × Aggregate)) → Effect Unit
  | [] => pure ()
  | chunk :: rest => do
    upsertAggregatedEdges chunk
    upsertChunks rest

def materializeLineageEdge (m : Materializer) (sourceUrn targetUrn edgeId edgeType : String) :
    Effect Unit := do
  let sChain ← chain m sourceUrn
  let tChain ← chain m targetUrn
  let pairs := crossPairs (orSelf sChain sourceUrn) (orSelf tChain targetUrn)
  if pairs = [] then
    return
  let newPairs ← bookPairs edgeId edgeType pairs []
  if newPairs = [] then
    return
  upsertChunks (chunks newPairs m.config.batchSize)

/-- One turn of the loop of `remove_lineage_edge`. -/
def unbookPair (edgeId : String) (pair : PairKey) : Effect Unit := do
  let removed ← remove pair edgeId
  if removed then
    let remaining ← count pair
    if remaining ≤ 0 then
      deleteAggregatedEdge pair
    else
      let types ← edgeTypes pair
      updateAggregatedEdge pair ⟨remaining, types⟩

/-- The loop of `remove_lineage_edge`. -/
def unbookPairs (edgeId : String) : List PairKey → Effect Unit
  | [] => pure ()
  | pair :: pairs => do
    unbookPair edgeId pair
    unbookPairs edgeId pairs

def removeLineageEdge (m : Materializer) (sourceUrn targetUrn edgeId : String) : Effect Unit := do
  let sChain ← chain m sourceUrn
  let tChain ← chain m targetUrn
  unbookPairs edgeId (crossPairs (orSelf sChain sourceUrn) (orSelf tChain targetUrn))

structure LeafEdge where
  id : String
  sourceUrn : String
  targetUrn : String
  deriving DecidableEq

inductive LeafOp
  | write (edge : LeafEdge) (edgeType : String)
  | remove (edge : LeafEdge)

namespace LeafOp

def edge : LeafOp → LeafEdge
  | write edge _ => edge
  | remove edge => edge

/-- The leaf edges that are live once the operation is done. -/
def live (before : Finset LeafEdge) : LeafOp → Finset LeafEdge
  | write edge _ => insert edge before
  | remove edge => before.erase edge

def attempt (m : Materializer) : LeafOp → Effect Unit
  | write edge edgeType =>
    materializeLineageEdge m edge.sourceUrn edge.targetUrn edge.id edgeType
  | remove edge => removeLineageEdge m edge.sourceUrn edge.targetUrn edge.id

end LeafOp

/-- The live leaf edges and the backends after operations that are each repeated until
they succeed. An id names one live leaf edge. -/
inductive Run (m : Materializer) (spared : Backends → List Change → Prop) :
    Finset LeafEdge → Backends → Prop
  | start : Run m spared ∅ .empty
  | op {live : Finset LeafEdge} {s t : Backends} (op : LeafOp) (before : Run m spared live s)
      (names : ∀ edge ∈ live, edge.id = op.edge.id → edge = op.edge)
      (done : (op.attempt m).Repeated spared s t) : Run m spared (op.live live) t

/-- The pairs whose bookkeeping changed and whose edge was not written since, of the
changes an attempt landed, newest first. -/
def pending : List Change → List PairKey
  | [] => []
  | .added pair _ _ :: earlier => pair :: pending earlier
  | .removed pair _ :: earlier => pair :: pending earlier
  | .written pair _ :: earlier => (pending earlier).filter (· ≠ pair)
  | .deleted pair :: earlier => (pending earlier).filter (· ≠ pair)

def Materializer.pairs (m : Materializer) (edge : LeafEdge) : List PairKey :=
  crossPairs (orSelf (m.chains edge.sourceUrn) edge.sourceUrn)
    (orSelf (m.chains edge.targetUrn) edge.targetUrn)

/-- The ids of the live leaf edges that contribute to a pair. -/
def contributing (m : Materializer) (live : Finset LeafEdge) (pair : PairKey) : Finset String :=
  (live.filter fun edge => pair ∈ m.pairs edge).image LeafEdge.id

/-- Every pair some live leaf edge contributes to has an edge that tells the number of
their ids, and no other pair has an edge. -/
structure Summarises (m : Materializer) (live : Finset LeafEdge) (s : Backends) : Prop where
  exists_iff : ∀ pair, (s.edges pair).isSome ↔ (contributing m live pair).Nonempty
  weight_eq : ∀ pair aggregate, s.edges pair = some aggregate →
    aggregate.weight = (contributing m live pair).card

end DataViz.Rollup
