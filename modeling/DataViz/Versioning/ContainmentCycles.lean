/-
# Edges that close a containment loop

`_containment_cycle_edges` of `service.py`: the strongly connected components of the containment
edges, and of the edges to check those whose ends share one. An edge with another version among the
edges needs a search that sets every version of it aside. An edge with no name at an end is no edge.
`_strongly_connected` numbers components; it is Tarjan's algorithm with its own stack of work.
-/

import Mathlib.Algebra.Ring.Nat
import DataViz.Data.GraphSearch
import DataViz.Versioning.Basic

namespace DataViz.Versioning

/-- `(edge_id, parent, child)`. -/
structure ContainmentEdge where
  id : EntityId
  parent : EntityId
  child : EntityId
  deriving DecidableEq

def ContainmentEdge.linked (e : ContainmentEdge) : Bool :=
  e.parent ≠ "" && e.child ≠ ""

abbrev Adjacency := Dict EntityId (List (EntityId × EntityId))

namespace Adjacency

def add (adj : Adjacency) (e : ContainmentEdge) : Adjacency :=
  let adj := adj.set e.parent ((adj.get? e.parent).getD [] ++ [(e.id, e.child)])
  if (adj.get? e.child).isSome then adj else adj.set e.child []

def of (edges : List ContainmentEdge) : Adjacency :=
  (edges.filter (·.linked)).foldl add []

def out (adj : Adjacency) (v : EntityId) : List (EntityId × EntityId) :=
  (adj.get? v).getD []

end Adjacency

def versions (edges : List ContainmentEdge) (eid : EntityId) : ℕ :=
  (edges.filter fun e => e.linked ∧ e.id = eid).length

/-- The state of `_strongly_connected`. The top of `stack` and of `work` come first, and `on_stack`
is the set of what is on `stack`. -/
structure Strong where
  index : Dict EntityId ℕ := []
  low : Dict EntityId ℕ := []
  stack : List EntityId := []
  comp : Dict EntityId ℕ := []
  counter : ℕ := 0
  ncomp : ℕ := 0
  work : List (EntityId × ℕ) := []

namespace Strong

/-- A node is numbered and put on the stack, and its edges are to be looked at. -/
def visit (s : Strong) (v : EntityId) : Strong :=
  { s with
    index := s.index.set v s.counter
    low := s.low.set v s.counter
    counter := s.counter + 1
    stack := v :: s.stack
    work := (v, 0) :: s.work }

/-- `while True: w = stack.pop()`. -/
def popInto (ncomp : ℕ) (v : EntityId) :
    List EntityId → Dict EntityId ℕ → Option (List EntityId × Dict EntityId ℕ)
  | [], _ => none
  | w :: stack, comp =>
    if w = v then some (stack, comp.set w ncomp) else popInto ncomp v stack (comp.set w ncomp)

def lower (low : Dict EntityId ℕ) (v : EntityId) (n : ℕ) : Option (Dict EntityId ℕ) :=
  (low.get? v).map fun l => low.set v (min l n)

/-- `if work: low[u] = min(low[u], low[v])`. -/
def tellParent (low : Dict EntityId ℕ) (v : EntityId) :
    List (EntityId × ℕ) → Option (Dict EntityId ℕ)
  | [] => some low
  | (u, _) :: _ => (low.get? v).bind (lower low u)

/-- A node whose edges are all looked at. -/
def finish (s : Strong) (v : EntityId) (work : List (EntityId × ℕ)) : Option Strong := do
  let low ← tellParent s.low v work
  let least ← low.get? v
  let number ← s.index.get? v
  if least = number then
    let (stack, comp) ← popInto s.ncomp v s.stack s.comp
    some { s with low, stack, comp, work, ncomp := s.ncomp + 1 }
  else some { s with low, work }

/-- One turn of `while work`. -/
def step (adj : Adjacency) (s : Strong) : Option Strong :=
  match s.work with
  | [] => some s
  | (v, i) :: work => do
    let nbrs ← adj.get? v
    match nbrs[i]? with
    | none => s.finish v work
    | some (_, w) =>
      let s := { s with work := (v, i + 1) :: work }
      match s.index.get? w with
      | none => some (s.visit w)
      | some n =>
        if w ∈ s.stack then (lower s.low v n).map fun low => { s with low } else some s

/-- `while work`, of so many turns. -/
def run (adj : Adjacency) : ℕ → Strong → Option Strong
  | 0, _ => none
  | turns + 1, s => if s.work = [] then some s else (s.step adj).bind (run adj turns)

def fromRoots (adj : Adjacency) (turns : ℕ) : List EntityId → Strong → Option Strong
  | [], s => some s
  | root :: roots, s =>
    if (s.index.get? root).isSome then fromRoots adj turns roots s
    else (run adj turns (s.visit root)).bind (fromRoots adj turns roots)

end Strong

/-- Turns enough for a graph: each node is found and finished, and each edge looked at, once. -/
def Adjacency.turns (adj : Adjacency) : ℕ :=
  (adj.map fun entry => entry.2.length + 2).sum + 1

def stronglyConnected (adj : Adjacency) : Option (Dict EntityId ℕ) :=
  (Strong.fromRoots adj adj.turns adj.keys {}).map Strong.comp

/-- The way back from an edge's child: along other edges, inside the component. -/
def inComponent (adj : Adjacency) (comp : Dict EntityId ℕ) (eid : EntityId) (ca : ℕ)
    (v : EntityId) : List EntityId :=
  ((adj.out v).filter fun edge => edge.1 ≠ eid ∧ comp.get? edge.2 = some ca).map Prod.snd

def closesLoop (edges : List ContainmentEdge) (adj : Adjacency) (comp : Dict EntityId ℕ)
    (check : ContainmentEdge) : Bool :=
  match comp.get? check.parent with
  | none => false
  | some ca =>
    if check.parent = check.child ∨ comp.get? check.child ≠ some ca then false
    else if versions edges check.id ≤ 1 then true
    else Digraph.search (inComponent adj comp check.id ca) check.parent
      (adj.keys.length + 2) ([check.child], [check.child])

def containmentCycleEdges (edges checks : List ContainmentEdge) : Option (List EntityId) :=
  (stronglyConnected (.of edges)).map fun comp =>
    (checks.filter (closesLoop edges (.of edges) comp)).map (·.id)

end DataViz.Versioning
