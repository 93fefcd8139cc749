/-
# What a run looks up of its containment

`_closure`, `_anc_count` and `_depth_of` of `falkordb_materialize.py`: the closure of a node, an
upper bound on its size, and its depth. Each has a memo of its own that a run fills in whatever
order it asks; the cube estimate multiplies the counts of each edge's endpoints.
-/

import DataViz.Rollup.ClosureWalk

namespace DataViz.Rollup

variable {α : Type*} [DecidableEq α]

/-- The loop of `_anc_count` and `_depth_of`: a node whose parents are all in the memo gets its
value from theirs. The top of the stack comes first; `none` is `memo[p]` of a node that is not
there, or too few turns. -/
def memoWalk (value : List ℕ → ℕ) (parents : Dict α (List α)) :
    ℕ → List α → Dict α ℕ → Option (Dict α ℕ)
  | 0, _, _ => none
  | _ + 1, [], memo => some memo
  | turns + 1, cur :: below, memo =>
    if (memo.get? cur).isSome then memoWalk value parents turns below memo
    else
      let ps := (parentsOf parents cur).filter (· ≠ cur)
      let pending := ps.filter fun p => (memo.get? p).isNone
      if pending.isEmpty then
        (ps.mapM memo.get?).bind fun values =>
          memoWalk value parents turns below (memo.set cur (value values))
      else memoWalk value parents turns (pending.reverse ++ cur :: below) memo

def memoized (value : List ℕ → ℕ) (parents : Dict α (List α)) (turns : ℕ) (node : α)
    (memo : Dict α ℕ) : Option (ℕ × Dict α ℕ) :=
  match memo.get? node with
  | some hit => some (hit, memo)
  | none =>
    (memoWalk value parents turns [node] memo).bind fun memo =>
      (memo.get? node).map fun value => (value, memo)

/-- The value `_anc_count` gives a node: one more than its parents' together. -/
def countAbove (counts : List ℕ) : ℕ :=
  1 + counts.sum

/-- The value `_depth_of` gives a node: one more than its deepest parent's. -/
def depthAbove : List ℕ → ℕ
  | [] => 0
  | d :: ds => 1 + ds.foldl max d

def closureMemoMax : ℕ := 400000

structure Lookups (α : Type*) where
  parents : Dict α (List α)
  structParents : List α
  closureMemo : Dict α (Dict α ℕ) := []
  ancMemo : Dict α ℕ := []
  depthMemo : Dict α ℕ := []

namespace Lookups

variable (turns : ℕ) (run : Lookups α)

/-- `_closure`: past the bound a leaf's entry goes again. -/
def closure (node : α) : Option (Dict α ℕ × Lookups α) := do
  let (closure, memo) ← ancestorClosureOf run.parents node run.closureMemo
  let evicted := closureMemoMax < memo.length ∧ node ∉ run.structParents
  some (closure, { run with closureMemo := if evicted then memo.pop node else memo })

def ancCount (node : α) : Option (ℕ × Lookups α) := do
  let (count, memo) ← memoized countAbove run.parents turns node run.ancMemo
  some (count, { run with ancMemo := memo })

def depthOf (node : α) : Option (ℕ × Lookups α) := do
  let (depth, memo) ← memoized depthAbove run.parents turns node run.depthMemo
  some (depth, { run with depthMemo := memo })

inductive Call (α : Type*)
  | closure (node : α)
  | ancCount (node : α)
  | depthOf (node : α)

inductive Answer (α : Type*)
  | closure (closure : Dict α ℕ)
  | number (number : ℕ)

def answer : Call α → Option (Answer α × Lookups α)
  | .closure node => (run.closure node).map (Prod.map .closure id)
  | .ancCount node => (run.ancCount turns node).map (Prod.map .number id)
  | .depthOf node => (run.depthOf turns node).map (Prod.map .number id)

def answers : List (Call α) → Lookups α → Option (List (Answer α) × Lookups α)
  | [], run => some ([], run)
  | call :: calls, run => do
    let (answer, run) ← run.answer turns call
    let (answers, run) ← answers calls run
    some (answer :: answers, run)

/-- An edge adds the product of its endpoints' counts to the estimate. -/
def countEdge (counted : ℕ × Lookups α) (edge : α × α) : Option (ℕ × Lookups α) := do
  let (s, run) ← counted.2.ancCount turns edge.1
  let (t, run) ← run.ancCount turns edge.2
  some (counted.1 + s * t, run)

def cubeEstimate (edges : List (α × α)) : Option (ℕ × Lookups α) :=
  edges.foldlM (countEdge turns) (0, run)

def cellsOfEdge (includeLeafMirror : Bool) (filled : List (α × α) × Lookups α) (edge : α × α) :
    Option (List (α × α) × Lookups α) := do
  let (s, run) ← filled.2.closure edge.1
  let (t, run) ← run.closure edge.2
  some (filled.1 ++ cubePairs s t includeLeafMirror edge.1 edge.2, run)

def cubeCells (includeLeafMirror : Bool) (edges : List (α × α)) :
    Option (List (α × α) × Lookups α) :=
  edges.foldlM (cellsOfEdge includeLeafMirror) ([], run)

end Lookups

end DataViz.Rollup
