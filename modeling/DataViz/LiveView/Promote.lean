/-
# A draft's layout published over a live view

When a draft is published its layout is merged into the published one, and the result put right: the
published view's own entries are the truth, so stale copies of entries it has dropped go, and those
it has stay and cascade as it says.
-/

import DataViz.LiveView.Ownership

namespace DataViz.LiveView

open View (Entry fieldsOf getOrNull)

/-- A draft that is published: its layout merged, and the layouts it was merged from. -/
structure Promotion where
  merged : Dict String Json
  fork : Dict String Json
  published : Dict String Json
  draft : Dict String Json
  layerIds : List String
  fallbackLayerId : Option String := none
  now : String := ""

namespace Promotion

open Ownership

/-- What becomes of an entry of the server's: where a person has it, nothing. -/
structure Outcome where
  after : Option Entry := none
  record : Option Entry := none
  lost : Bool := false

def Outcome.takenOver (done : Reconciled) (urn : String) (outcome : Outcome) : Reconciled where
  assignments :=
    match outcome.after with
    | some after => done.assignments.set urn (.obj after)
    | none => done.assignments
  overrides :=
    match outcome.record with
    | some record => done.overrides.set urn record
    | none => done.overrides
  replaceNeeded := done.replaceNeeded || outcome.lost

variable (p : Promotion)

/-- The layer of entries whose own is gone. -/
def fallback : Option String :=
  (valid p.layerIds (textOf p.fallbackLayerId)).or p.layerIds.head?

/-- Whether the merge left an entity to a person. -/
def byHand (urn : String) : Bool :=
  (p.merged.get? urn).any fun json => !isMachineEntry json

/-- Where the draft put an entry elsewhere than its fork had it, null where nowhere. -/
def moves (urn : String) : Dict String Json :=
  match (p.draft.get? urn).bind fieldsOf, (p.fork.get? urn).bind fieldsOf with
  | some drafted, some forked => Dict.ofKeys placementKeys fun key =>
    if Json.PyEq (getOrNull drafted key) (getOrNull forked key) then none
    else some (getOrNull drafted key)
  | _, _ => []

def start (urn : String) (truth : Entry) : Entry :=
  (machineEntry p.merged urn).getD truth

def sits (urn : String) (truth : Entry) : Entry :=
  (p.moves urn).foldl take (p.start urn truth)

/-- What becomes of one entry of the published view's. -/
def outcome (urn : String) (truth : Entry) : Option Outcome :=
  if p.byHand urn then some {}
  else
    (placed p.layerIds p.fallback (owned truth (p.sits urn truth))).map fun (after, lost) =>
      { after := some after
        record := if p.moves urn = [] then none else some (record p.now (p.sits urn truth))
        lost }

def keep (done : Reconciled) (entry : String × Entry) : Option Reconciled :=
  (p.outcome entry.1 entry.2).map (Outcome.takenOver done entry.1)

/-- What was merged, without copies of entries the published view has dropped. -/
def kept : Dict String Json :=
  p.merged.items.filter fun entry =>
    !isMachineEntry entry.2 || entry.1 ∈ (machineEntries p.published).keys

def reconcilePromote : Option Reconciled :=
  (machineEntries p.published).foldlM p.keep { assignments := p.kept }

end Promotion

end DataViz.LiveView
