/-
# Who owns the entries of a live view

The server owns which of its entries there are and whether they cascade; people own where an
entry sits, and the entries they placed themselves. A layout is written as the client last saw
it, so each write is put right: the server's entries stay, only where they sit is taken from
what was sent, and a move is recorded for the next plan.

A write raises where an entry of the server's would be in a layer whose id is no key, and then
nothing is stored. The stamps of records are texts.
-/

import DataViz.Versioning.Basic
import DataViz.LiveView.Plan

namespace DataViz.LiveView

open View (Entry fieldsOf isTrue)

def isMachineEntry (entry : Json) : Bool :=
  (fieldsOf entry).any isMachine

def machineEntry (assignments : Dict String Json) (urn : String) : Option Entry :=
  ((assignments.get? urn).bind fieldsOf).filter isMachine

def machineEntries (assignments : Dict String Json) : Dict String Entry :=
  Dict.ofKeys assignments.keys.dedup (machineEntry assignments)

/-- A layout write: what the client sent, and the layers it sent with it. -/
structure Write where
  incoming : Dict String Json
  layerIds : List String
  fallbackLayerId : Option String := none
  recordOverrides : Bool := true
  now : String := ""

structure Reconciled where
  assignments : Dict String Json
  overrides : Dict String Entry := []
  replaceNeeded : Bool := false

namespace Ownership

def placementKeys : List String :=
  ["layerId", "orderKey", "logicalNodeId"]

/-- Looking a value up in a set does not raise. -/
def hashable : Option Json → Bool
  | none | some (.scalar _) => true
  | _ => false

def placed (layerIds : List String) (fallback : Option String) (entry : Entry) :
    Option (Entry × Bool) :=
  if hashable (entry.get? "layerId") then
    match valid layerIds (entry.get? "layerId"), fallback with
    | none, some layer =>
      some (((entry.pop "orderKey").pop "logicalNodeId").set "layerId" (.str layer), true)
    | _, _ => some (entry, false)
  else none

def moved (kept sent : Entry) : Dict String Json :=
  placementKeys.filterMap fun key => (sent.get? key).bind fun value =>
    if Json.PyEq value ((kept.get? key).getD .null) then none else some (key, value)

def take (entry : Entry) (move : String × Json) : Entry :=
  if move.2 = .null then entry.pop move.1 else entry.set move.1 move.2

def record (now : String) (entry : Entry) : Entry :=
  (placementKeys.filterMap fun key => ((entry.get? key).filter isTrue).map (Prod.mk key)) ++
    [("at", .str now)]

/-- The marker and the cascade flag of an entry are the server's. -/
def owned (kept entry : Entry) : Entry :=
  (entry.set "assignedBy" machineMark).set "inheritsChildren"
    (.bool (kept.get? "inheritsChildren" = some (.bool true)))

end Ownership

open Ownership

namespace Write

variable (write : Write)

/-- The layer of entries whose own is gone. -/
def fallback : Option String :=
  (valid write.layerIds (textOf write.fallbackLayerId)).or write.layerIds.head?

def moves (urn : String) (kept : Entry) : Dict String Json :=
  match (write.incoming.get? urn).bind fieldsOf with
  | some sent => moved kept sent
  | none => []

def sits (urn : String) (kept : Entry) : Entry :=
  (write.moves urn kept).foldl take kept

def keep (done : Reconciled) (entry : String × Entry) : Option Reconciled :=
  let sits := write.sits entry.1 entry.2
  (placed write.layerIds write.fallback (owned entry.2 sits)).map fun (kept, lost) =>
    { assignments := done.assignments.set entry.1 (.obj kept)
      overrides :=
        if write.moves entry.1 entry.2 ≠ [] ∧ write.recordOverrides then
          done.overrides.set entry.1 (record write.now sits)
        else done.overrides
      replaceNeeded := done.replaceNeeded || lost }

/-- What the client sent that the server does not own. -/
def others (stored : Dict String Json) : Dict String Json :=
  write.incoming.items.filter fun entry =>
    decide (entry.1 ∉ (machineEntries stored).keys) && !isMachineEntry entry.2

def reconcileLayoutWrite (stored : Dict String Json) : Option Reconciled :=
  (machineEntries stored).foldlM write.keep { assignments := write.others stored }

end Write

def overridesMax : ℕ :=
  2000

def stamp (record : Entry) : String :=
  match record.get? "at" with
  | some (.scalar (.str at_)) => at_
  | _ => ""

/-- `remember`: the new records over the old, the oldest forgotten past the limit. -/
def remember (overrides new : Dict String Entry) : Dict String Entry :=
  let merged := (overrides.update new).items
  if merged.length ≤ overridesMax then merged
  else
    (merged.insertionSort fun first second => stamp first.2 ≤ stamp second.2).drop
      (merged.length - overridesMax)

/-- What a view has stored: its assignments, and where people put the server's entries. -/
structure Stored where
  assignments : Dict String Json
  overrides : Dict String Entry := []

/-- A layout write on a view. One that raises stores nothing. -/
def Stored.write (stored : Stored) (write : Write) : Stored :=
  match write.reconcileLayoutWrite stored.assignments with
  | none => stored
  | some done =>
    { assignments := done.assignments
      overrides := if done.overrides = [] then stored.overrides
        else remember stored.overrides done.overrides }

end DataViz.LiveView
