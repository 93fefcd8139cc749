/-
# Which pairs a lineage edge contributes to

A node's closure holds its ancestors and itself with their containment depths. In
cube mode a lineage edge contributes to every pair of its two closures, and a pair
is selected once however many containment paths lead to it.
-/

import DataViz.Data.Dict

namespace DataViz.Rollup

variable {α : Type*} [DecidableEq α]

/-- An entry of a parent's closure: the larger depth stays. -/
def mergeEntry (closure : Dict α ℕ) (entry : α × ℕ) : Dict α ℕ :=
  match closure.get? entry.1 with
  | some depth => if depth < entry.2 then closure.set entry.1 entry.2 else closure
  | none => closure.set entry.1 entry.2

def depthBelow (depth : ℕ) (parent : α × Dict α ℕ) : ℕ :=
  match parent.2.get? parent.1 with
  | some above => if depth ≤ above then above + 1 else depth
  | none => depth

def joinClosures (node : α) (parents : List (α × Dict α ℕ)) : Dict α ℕ :=
  Dict.set (parents.foldl (fun closure parent => parent.2.foldl mergeEntry closure) []) node
    (parents.foldl depthBelow 0)

def cubePairs (sClosure tClosure : Dict α ℕ) (includeLeafMirror : Bool) (s t : α) : List (α × α) :=
  sClosure.keys.flatMap fun sp =>
    (tClosure.keys.filter fun tp =>
      ¬sp = tp ∧ (includeLeafMirror = true ∨ ¬(sp = s ∧ tp = t))).map fun tp => (sp, tp)

end DataViz.Rollup
