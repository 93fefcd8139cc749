/-
# Breaking containment cycles

`_break_cycles` of `falkordb_materialize.py`: a depth-first walk up the parent map that edits the
map it walks over. Each node on the way keeps the parents it was found with; a parent that is on the
way already closes a cycle, and that one link is cut.
-/

import DataViz.Rollup.ClosureWalk

namespace DataViz.Rollup

variable {α : Type*} [DecidableEq α]

/-- `state`: 0 is on the current path, 1 is done. -/
inductive Visit
  | onPath
  | done
  deriving DecidableEq, Repr

/-- The state of the walk; the top of the stack comes first. -/
structure CycleBreak (α : Type*) where
  stack : List (α × List α) := []
  state : Dict α Visit := []
  parents : Dict α (List α)

/-- The parent map without one link; a node left with no parents goes. `none` is the `KeyError` of
`parents[cur]`. -/
def cutLink (parents : Dict α (List α)) (cur p : α) : Option (Dict α (List α)) :=
  (parents.get? cur).map fun listed =>
    let remaining := listed.filter (· ≠ p)
    if remaining.isEmpty then parents.pop cur else parents.set cur remaining

namespace CycleBreak

variable (walk : CycleBreak α)

/-- The node on top looks at its next parent. -/
def look (cur p : α) (rest : List α) (below : List (α × List α)) : Option (CycleBreak α) :=
  if walk.state.get? p = some .onPath ∨ p = cur then
    (cutLink walk.parents cur p).map fun parents =>
      { walk with stack := (cur, rest) :: below, parents }
  else if walk.state.get? p = some .done then
    some { walk with stack := (cur, rest) :: below }
  else if p ∉ walk.parents.keys then
    some { walk with stack := (cur, rest) :: below, state := walk.state.set p .done }
  else
    some { walk with
      stack := (p, parentsOf walk.parents p) :: (cur, rest) :: below
      state := walk.state.set p .onPath }

def step : Option (CycleBreak α) :=
  match walk.stack with
  | [] => some walk
  | (cur, []) :: below => some { walk with stack := below, state := walk.state.set cur .done }
  | (cur, p :: rest) :: below => walk.look cur p rest below

/-- `while stack`, of so many turns. -/
def run : ℕ → CycleBreak α → Option (CycleBreak α)
  | 0, _ => none
  | turns + 1, walk => if walk.stack = [] then some walk else walk.step.bind (run turns)

/-- Whether a walk has found a node, now or from an earlier start. -/
def seen (node : α) : Bool :=
  (walk.state.get? node).isSome

def turns (original : Dict α (List α)) : ℕ :=
  Digraph.remaining (parentsOf original) (nodesOf original) walk.seen walk.stack + 1

def from_ (original : Dict α (List α)) (start : α) : Option (CycleBreak α) :=
  if walk.state.get? start = some .done then some walk
  else
    let walk : CycleBreak α := { walk with
      stack := [(start, parentsOf walk.parents start)]
      state := walk.state.set start .onPath }
    walk.run (walk.turns original)

end CycleBreak

def breakCycles (parents : Dict α (List α)) : Option (Dict α (List α)) := do
  let last ← parents.keys.foldlM (fun walk start => CycleBreak.from_ walk parents start) { parents }
  some last.parents

example : breakCycles [(1, [2]), (2, [1, 3])] = some [(1, [2]), (2, [3])] := by decide

end DataViz.Rollup
