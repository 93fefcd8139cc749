/-
# The trace at a level

A trace starts at the anchor of the focus and expands, hop by hop, the nodes found
last in each of the two directions. What a provider answers is a parameter: its
callbacks give nodes, levels and ancestors, and the expansion of a frontier, which
can fail. Both directions share the set of nodes visited. Sets are lists without
repetition; the order in which a frontier is handed over does not matter below.
-/

import DataViz.Data.Dict
import DataViz.Data.Digraph

namespace DataViz.Trace

structure GraphNode where
  urn : String
  entityType : String
  deriving DecidableEq, Repr

/-- An edge of the result; the properties are the weight and the source edge types. -/
structure GraphEdge where
  id : String
  sourceUrn : String
  targetUrn : String
  edgeType : String
  weight : ℕ
  sourceEdgeTypes : List String
  deriving DecidableEq, Repr

structure FrontierRecord where
  edgeId : String
  sourceUrn : String
  targetUrn : String
  newUrn : String
  edgeType : String
  weight : ℕ
  sourceEdgeTypes : List String
  newNode : Option GraphNode
  deriving DecidableEq, Repr

/-- The two directions of a trace: against the edges and along them. -/
inductive Direction
  | up
  | down
  deriving DecidableEq, Repr

/-- What the provider answers; a call that raises answers nothing. -/
structure TraceCallbacks where
  getNode : String → Option GraphNode
  getNodesBatch : List String → Option (List GraphNode)
  getNodeLevel : String → Option ℤ
  resolveAnchorAtLevel : String → ℤ → List String → String
  hasAggregatedAtLevel : String → ℤ → Bool
  findAncestorWithLineage : String → ℤ → List String → Option String
  /-- The expansion of a frontier at a hop, with the level, the lineage types and the
  budget. -/
  expandFrontier : ℕ → Direction → List String → ℤ → Option (List String) → ℕ →
    Option (List FrontierRecord)
  collectAncestorUrns : List String → List String → Option (List String)
  fetchContainmentEdges : List String → List String → Option (List GraphEdge)
  /-- Whether the deadline is past when a hop begins. -/
  late : ℕ → Bool

/-- The arguments of `trace_at_level`. -/
structure TraceRequest where
  urn : String
  level : ℤ
  upstreamDepth : ℕ
  downstreamDepth : ℕ
  lineageEdgeTypes : List String
  containmentEdgeTypes : List String
  maxNodes : ℕ
  includeInheritedLineage : Bool

/-- The state of the search. `warnings` are the expansions logged as failed. -/
structure TraceState where
  nodes : Dict String GraphNode
  edges : Dict String GraphEdge
  upstream : List String
  downstream : List String
  visited : List String
  upFrontier : List String
  downFrontier : List String
  truncationReason : Option String
  warnings : List (ℕ × Direction)

structure TraceResult where
  nodes : List GraphNode
  edges : List GraphEdge
  containmentEdges : List GraphEdge
  upstreamUrns : List String
  downstreamUrns : List String
  focusLevel : ℤ
  focusEntityType : String
  isInherited : Bool
  inheritedFromUrn : Option String
  truncationReason : Option String
  /-- The expansions logged as failed; the log is not part of the response. -/
  warnings : List (ℕ × Direction)

def TraceResult.truncated (result : TraceResult) : Bool :=
  result.truncationReason.isSome

section

variable (callbacks : TraceCallbacks) (request : TraceRequest)

/-- Steps 1 and 2: the anchor at the level, and the node it inherits lineage for. -/
def anchorOf : String × Option String :=
  let anchor := callbacks.resolveAnchorAtLevel request.urn request.level
    request.containmentEdgeTypes
  if request.includeInheritedLineage ∧
      callbacks.hasAggregatedAtLevel anchor request.level = false then
    match callbacks.findAncestorWithLineage anchor request.level request.containmentEdgeTypes with
    | some parent =>
      if parent ≠ "" ∧ parent ≠ anchor then (parent, some anchor) else (anchor, none)
    | none => (anchor, none)
  else (anchor, none)

def startState (anchor : String) : TraceState where
  nodes := match callbacks.getNode anchor with
    | some node => [(anchor, node)]
    | none => []
  edges := []
  upstream := []
  downstream := []
  visited := [anchor]
  upFrontier := if 0 < request.upstreamDepth then [anchor] else []
  downFrontier := if 0 < request.downstreamDepth then [anchor] else []
  truncationReason := none
  warnings := []

def FrontierRecord.edge (rec : FrontierRecord) : GraphEdge :=
  ⟨rec.edgeId, rec.sourceUrn, rec.targetUrn, rec.edgeType, rec.weight, rec.sourceEdgeTypes⟩

/-- One record: its edge and node unless known, and its new end unless visited. The
frontiers are the new ones. -/
def takeRecord (direction : Direction) (s : TraceState) (rec : FrontierRecord) : TraceState :=
  let s := { s with
    edges := if rec.edgeId ∈ s.edges.keys then s.edges else s.edges.set rec.edgeId rec.edge
    nodes := match rec.newNode with
      | some node => if rec.newUrn ∈ s.nodes.keys then s.nodes else s.nodes.set rec.newUrn node
      | none => s.nodes }
  if rec.newUrn ∈ s.visited then s
  else
    match direction with
    | .up =>
      { s with
        visited := s.visited ++ [rec.newUrn]
        upFrontier := s.upFrontier ++ [rec.newUrn]
        upstream := s.upstream ++ [rec.newUrn] }
    | .down =>
      { s with
        visited := s.visited ++ [rec.newUrn]
        downFrontier := s.downFrontier ++ [rec.newUrn]
        downstream := s.downstream ++ [rec.newUrn] }

def takeAnswer (hop : ℕ) (direction : Direction) (s : TraceState) :
    Option (List FrontierRecord) → TraceState
  | none => { s with warnings := s.warnings ++ [(hop, direction)] }
  | some recs => recs.foldl (takeRecord direction) s

def hopTasks (hop : ℕ) (s : TraceState) : List (Direction × Option (List FrontierRecord)) :=
  let ltypes := if request.lineageEdgeTypes = [] then none else some request.lineageEdgeTypes
  let budget := request.maxNodes - s.nodes.length
  (if hop < request.upstreamDepth ∧ s.upFrontier ≠ [] then
    [(.up, callbacks.expandFrontier hop .up s.upFrontier request.level ltypes budget)] else []) ++
  (if hop < request.downstreamDepth ∧ s.downFrontier ≠ [] then
    [(.down, callbacks.expandFrontier hop .down s.downFrontier request.level ltypes budget)]
    else [])

/-- Step 4, from a hop on, with that many hops to go. -/
def expandHops : ℕ → ℕ → TraceState → TraceState
  | 0, _, s => s
  | hops + 1, hop, s =>
    if callbacks.late hop then { s with truncationReason := some "timeout" }
    else if request.maxNodes ≤ s.nodes.length then
      { s with truncationReason := some "max_nodes" }
    else
      let tasks := hopTasks callbacks request hop s
      if tasks = [] then s
      else
        let s := tasks.foldl (fun s task => takeAnswer hop task.1 s task.2)
          { s with upFrontier := [], downFrontier := [] }
        if s.upFrontier = [] ∧ s.downFrontier = [] then s
        else expandHops hops (hop + 1) s

def addNodes (nodes : Dict String GraphNode) (fetched : List GraphNode) : Dict String GraphNode :=
  fetched.foldl (fun nodes node => nodes.set node.urn node) nodes

/-- Step 5: the nodes visited but not yet known. -/
def hydrateVisited (s : TraceState) : Dict String GraphNode :=
  match s.visited.filter fun urn => urn ∉ s.nodes.keys with
  | [] => s.nodes
  | missing =>
    match callbacks.getNodesBatch missing with
    | some fetched => addNodes s.nodes fetched
    | none => s.nodes

/-- Step 6: the containment ancestors and the containment edges. A call that raises
leaves what there is. -/
def hydrateAncestors (nodes : Dict String GraphNode) : Dict String GraphNode × List GraphEdge :=
  let ctypes := request.containmentEdgeTypes
  if ctypes = [] ∨ nodes = [] then (nodes, [])
  else
    match callbacks.collectAncestorUrns nodes.keys ctypes with
    | none => (nodes, [])
    | some ancestors =>
      match ancestors.filter fun urn => urn ∉ nodes.keys with
      | [] => (nodes, (callbacks.fetchContainmentEdges nodes.keys ctypes).getD [])
      | missing =>
        match callbacks.getNodesBatch missing with
        | none => (nodes, [])
        | some fetched =>
          let nodes := addNodes nodes fetched
          (nodes, (callbacks.fetchContainmentEdges nodes.keys ctypes).getD [])

def traceAtLevel : TraceResult :=
  let focusType := match callbacks.getNode request.urn with
    | some node => node.entityType
    | none => "unknown"
  let (anchor, inheritedFrom) := anchorOf callbacks request
  let s := expandHops callbacks request (max request.upstreamDepth request.downstreamDepth) 0
    (startState callbacks request anchor)
  let (nodes, containmentEdges) := hydrateAncestors callbacks request (hydrateVisited callbacks s)
  { nodes := nodes.map Prod.snd
    edges := s.edges.map Prod.snd
    containmentEdges
    upstreamUrns := s.upstream
    downstreamUrns := s.downstream
    focusLevel := match callbacks.getNodeLevel focusType with
      | some level => if level = 0 then request.level else level
      | none => request.level
    focusEntityType := focusType
    isInherited := inheritedFrom.isSome
    inheritedFromUrn := inheritedFrom
    truncationReason := s.truncationReason
    warnings := s.warnings }

end

end DataViz.Trace
