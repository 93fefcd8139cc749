/-
# Closures on any parent relation

`ancestor_closure` of `pair_rules.py` as the loop it is: a walk up that keeps the nodes on its way,
each with the parents it has yet to look at. A parent that is on the way already closes a cycle, and
its link is cut; the node below and all whose closures use one computed under a cut are tainted.
What is not tainted is kept in the memo that the calls share.

`on_stack` is the set of the nodes of `stack`.
-/

import DataViz.Data.DepthFirst
import DataViz.Rollup.PairRules

namespace DataViz.Rollup

variable {α : Type*} [DecidableEq α]

def parentsOf (parents : Dict α (List α)) (node : α) : List α :=
  (parents.get? node).getD []

def nodesOf (parents : Dict α (List α)) : List α :=
  parents.keys ++ parents.flatMap (·.2)

/-- The state of one call of `ancestor_closure`; the top of the stack comes first. -/
structure ClosureWalk (α : Type*) where
  stack : List (α × List α)
  tainted : List α := []
  local_ : Dict α (Dict α ℕ) := []
  memo : Dict α (Dict α ℕ)

namespace ClosureWalk

variable (parents : Dict α (List α)) (walk : ClosureWalk α)

def onStack : List α :=
  walk.stack.map Prod.fst

/-- The closure of a node that is computed already, in this call or an earlier one. -/
def closureOf (node : α) : Option (Dict α ℕ) :=
  (walk.local_.get? node).or (walk.memo.get? node)

/-- The parents of a node whose closures are known; a link to itself is ignored, and one to a node
on the way is cut. -/
def known (cur : α) : List (α × Dict α ℕ) :=
  (parentsOf parents cur).filterMap fun p =>
    if p = cur then none else (walk.closureOf p).map fun closure => (p, closure)

def close (cur : α) (below : List (α × List α)) : ClosureWalk α :=
  let closure := joinClosures cur (walk.known parents cur)
  let tainted :=
    if ∃ p ∈ walk.known parents cur, p.1 ∈ walk.tainted then cur :: walk.tainted else walk.tainted
  { stack := below
    tainted
    local_ := walk.local_.set cur closure
    memo := if cur ∈ tainted then walk.memo else walk.memo.set cur closure }

/-- The node on top looks at its next parent. -/
def look (cur p : α) (rest : List α) (below : List (α × List α)) : ClosureWalk α :=
  if p = cur then { walk with stack := (cur, rest) :: below }
  else if p ∈ walk.onStack then
    { walk with stack := (cur, rest) :: below, tainted := cur :: walk.tainted }
  else if (walk.closureOf p).isSome then { walk with stack := (cur, rest) :: below }
  else { walk with stack := (p, parentsOf parents p) :: (cur, rest) :: below }

def step : ClosureWalk α :=
  match walk.stack with
  | [] => walk
  | (cur, []) :: below => walk.close parents cur below
  | (cur, p :: rest) :: below => walk.look parents cur p rest below

/-- `while stack`, of so many turns. -/
def run : ℕ → ClosureWalk α → Option (ClosureWalk α)
  | 0, _ => none
  | turns + 1, walk => if walk.stack = [] then some walk else run turns (walk.step parents)

def start (node : α) (memo : Dict α (Dict α ℕ)) : ClosureWalk α :=
  { stack := [(node, parentsOf parents node)], memo }

def found (node : α) : Bool :=
  node ∈ walk.onStack || node ∈ walk.local_.keys

def turns : ℕ :=
  Digraph.remaining (parentsOf parents) (nodesOf parents) walk.found walk.stack + 1

end ClosureWalk

def ancestorClosureOf (parents : Dict α (List α)) (node : α) (memo : Dict α (Dict α ℕ)) :
    Option (Dict α ℕ × Dict α (Dict α ℕ)) :=
  match memo.get? node with
  | some hit => some (hit, memo)
  | none => do
    let start := ClosureWalk.start parents node memo
    let walk ← ClosureWalk.run parents (start.turns parents) start
    let closure ← walk.local_.get? node
    some (closure, walk.memo)

/-- Calls one after another that share a memo. -/
def ancestorClosures (parents : Dict α (List α)) :
    List α → Dict α (Dict α ℕ) → Option (List (Dict α ℕ) × Dict α (Dict α ℕ))
  | [], memo => some ([], memo)
  | node :: nodes, memo => do
    let (closure, memo) ← ancestorClosureOf parents node memo
    let (closures, memo) ← ancestorClosures parents nodes memo
    some (closure :: closures, memo)

end DataViz.Rollup
