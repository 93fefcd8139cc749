/-
# Settling a merge's conflicts

`_settle_conflicts` and `_overlay_at_path` of `service.py`: what a person chose is laid over the
automatic merge, one conflicting path after another. The payloads are dictionaries in memory; the
overlay copies each dictionary on its way before it changes it.
-/

import DataViz.Data.Objects
import DataViz.Versioning.Merge

namespace DataViz.Versioning

open Memory (Value)

/-- The first loop of `_overlay_at_path`: the source's value at a path, or `_RES_MISSING`. -/
def sourceAt (mem : Memory Value) : Value → Path → Option Value
  | sv, [] => some sv
  | .ref source, k :: path => ((mem.object source).get? k).bind fun sv => sourceAt mem sv path
  | .leaf _, _ :: _ => none

/-- `dict(child) if isinstance(child, dict) else {}`. -/
def copyOf (mem : Memory Value) : Option Value → Dict String Value
  | some (.ref child) => mem.object child
  | _ => []

/-- The second loop of `_overlay_at_path`: the copies made on the way, and the last of them. -/
def descend : Path → ℕ → Memory Value → ℕ × Memory Value
  | [], node, mem => (node, mem)
  | k :: path, node, mem =>
    let child := mem.length
    let mem := mem.alloc (copyOf mem ((mem.object node).get? k))
    descend path child (mem.write node ((mem.object node).set k (.ref child)))

/-- The rest of `_overlay_at_path`, once `sv` is known. An empty path raises `IndexError`. -/
def overlayValue (target : ℕ) (sv : Option Value) (path : Path) (mem : Memory Value) :
    Option (Memory Value) :=
  let (node, mem) := descend path.dropLast target mem
  match path.getLast?, sv with
  | none, _ => none
  | some leaf, none => some (mem.write node ((mem.object node).pop leaf))
  | some leaf, some sv => some (mem.write node ((mem.object node).set leaf sv))

def overlayAtPath (target : ℕ) (source : Value) (path : Path) (mem : Memory Value) :
    Option (Memory Value) :=
  overlayValue target (sourceAt mem source path) path mem

/-- `_settle_conflicts`: the settled payload's address and the memory it leaves. -/
def settleConflicts (autoMerged resolution : Option ℕ) (conflicts : List Conflict)
    (mem : Memory Value) : Option (Option ℕ × Memory Value) :=
  match resolution, autoMerged with
  | none, _ => some (none, mem)
  | some resolution, none => some (some resolution, mem)
  | some resolution, some autoMerged =>
    if conflicts.any fun c => c.path = [] then some (some resolution, mem)
    else
      let result := mem.length
      (conflicts.foldlM (fun mem c => overlayAtPath result (.ref resolution) c.path mem)
        (mem.alloc (mem.object autoMerged))).map fun mem => (some result, mem)

def HoldsPayload (mem : Memory Value) (addr : Option ℕ) (payload : Option Payload) : Prop :=
  Memory.Holds? mem (fun _ => True) (addr.map .ref) (payload.map .obj)

/-- What a resolution makes of a merge: each conflict's path is as the resolution has it, and what
no conflict meets is as the merge left it. The whole entity is settled where the resolution is its
deletion, and where there was nothing to settle and nothing left of it. -/
structure Settled (outcome : MergeOutcome) (resolution settled : Option Payload) : Prop where
  deleted : resolution = none → settled = none
  present : resolution ≠ none → settled ≠ none
  chosen : resolution ≠ none → ∀ c ∈ outcome.conflicts,
    Json.valueAt (settled.map .obj) c.path = Json.valueAt (resolution.map .obj) c.path
  kept : resolution ≠ none → ∀ p, (∀ c ∈ outcome.conflicts, Json.Apart c.path p) →
    (outcome.merged ≠ none ∨ outcome.conflicts ≠ []) →
      Json.valueAt (settled.map .obj) p = Json.valueAt (outcome.merged.map .obj) p
  restored : outcome.merged = none → settled = resolution

end DataViz.Versioning
