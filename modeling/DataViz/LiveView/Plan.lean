/-
# The entries of a view made from a query

A curated view holds an entity through its own entry, or through a parent whose entry
cascades. The plan gives each member an entry, and each container on a member's path that
something places; a member inside a whole member, in its layer, comes with it and is not
listed. Entries people placed are kept as they are; those the server owns are marked.

The placer is a parameter: a function of the candidates. A layer id that is no text is no
layer of the view; that the source raises `TypeError` when it looks for the layer of an entry
drawn around a member, and finds a list or an object there, is not modelled.
-/

import DataViz.View.Layout

namespace DataViz.LiveView

open View (Entry isTrue)

/-- An entity the view should hold: a member, or a container drawn around one. -/
structure Candidate where
  urn : String
  member : Bool
  whole : Bool := false
  sourceLayer : Option String := none
  chain : List String := []

/-- What a source resolved to: its layer, its members, those with everything inside them in
scope, and the containers of each, parent first. -/
structure Resolved where
  layerId : Option String
  members : List String
  wholeSubtree : List String
  chains : Dict String (List String)

/-- A member of a source; one that an earlier source names keeps its reason. -/
def addMember (source : Resolved) (out : Dict String Candidate) (urn : String) :
    Dict String Candidate :=
  match out.get? urn with
  | none => out.set urn
      { urn, member := true, whole := urn ∈ source.wholeSubtree, sourceLayer := source.layerId
        chain := (source.chains.get? urn).getD [] }
  | some prev =>
    if urn ∈ source.wholeSubtree ∧ prev.whole = false then
      out.set urn { prev with whole := true }
    else out

/-- The containers of a path, from the parent up, to the first that is left out. -/
def addContainers (leftOut : List String) : List String → Dict String Candidate →
    Dict String Candidate
  | [], out => out
  | container :: above, out =>
    if container ∈ leftOut then out
    else
      let added := if container ∈ out.keys then out
        else out.set container { urn := container, member := false, chain := above }
      addContainers leftOut above added

def candidates (results : List Resolved) (nest : Bool) (exclude : List String) :
    Dict String Candidate :=
  let members : Dict String Candidate := results.foldl (fun out source =>
    (source.members.filter fun urn => decide (urn ∉ exclude)).foldl (addMember source) out) []
  if nest then
    (members.map Prod.snd).foldl (fun out member => addContainers exclude member.chain out) members
  else members

def machineMark : Json := .str "query"

def isMachine (entry : Entry) : Bool :=
  entry.get? "assignedBy" = some machineMark

/-- What `plan` is called with. -/
structure Inputs where
  cands : Dict String Candidate
  assignments : Dict String Entry
  layerIds : List String
  overrides : Dict String Entry
  placer : Dict String Candidate → Dict String (Option String)
  fallbackLayerId : Option String
  limit : ℤ
  restage : Bool := false
  now : String := ""

def valid (layerIds : List String) : Option Json → Option String
  | some (.scalar (.str id)) => if id ∈ layerIds then some id else none
  | _ => none

/-- What `id or` goes on with: the empty text counts as none. -/
def truthy (id : Option String) : Option String :=
  id.filter (· ≠ "")

def textOf (id : Option String) : Option Json :=
  id.map Json.str

namespace Inputs

variable (inputs : Inputs)

def user : Dict String Entry :=
  inputs.assignments.items.filter fun entry => !isMachine entry.2

def old : Dict String Entry :=
  inputs.assignments.items.filter fun entry => isMachine entry.2

/-- Where the layout's own rule puts a candidate. -/
def placed (urn : String) : Option String :=
  valid inputs.layerIds (textOf (((inputs.placer inputs.cands).get? urn).bind id))

def layerOf (entry : Entry) : Option String :=
  valid inputs.layerIds (entry.get? "layerId")

/-- The waiting room: the layer named for it, else the first. -/
def fallbackLayer : Option String :=
  (truthy (valid inputs.layerIds (textOf inputs.fallbackLayerId))).or inputs.layerIds.head?

def override (urn : String) : Entry :=
  (inputs.overrides.get? urn).getD []

def order : List String :=
  (Dict.sortedKeys inputs.cands.keys).insertionSort fun first second =>
    (((inputs.cands.get? first).map (·.chain.length)).getD 0) ≤
      (((inputs.cands.get? second).map (·.chain.length)).getD 0)

/-- Where a person put it, else the layer its source names. -/
def named (urn : String) (c : Candidate) : Option String :=
  (truthy (inputs.layerOf (inputs.override urn))).or (valid inputs.layerIds (textOf c.sourceLayer))

/-- Where it already is, unless the layout re-stages or it waits in the fallback layer. -/
def standing (prev : Option Entry) : Option String :=
  if inputs.restage then none
  else (prev.bind inputs.layerOf).filter fun layer => some layer ≠ inputs.fallbackLayer

def nearest (machine : Dict String Entry) (c : Candidate) : Option String :=
  c.chain.findSome? fun container =>
    ((machine.get? container).or (inputs.user.get? container)).bind inputs.layerOf

/-- The layer a candidate goes to without its container's and without the fallback. -/
def ownLayer (prev : Option Entry) (urn : String) (c : Candidate) : Option String :=
  ((inputs.named urn c).or (inputs.standing prev)).or (inputs.placed urn)

/-- Where a candidate goes, given its old entry and the entries before it. -/
def home (prev : Option Entry) (machine : Dict String Entry) (urn : String) (c : Candidate) :
    Option String :=
  (inputs.ownLayer prev urn c).or
    (if c.member then (inputs.nearest machine c).or inputs.fallbackLayer else none)

/-- A whole candidate above has an entry in the layer: the member comes with it. -/
def insideWhole (machine : Dict String Entry) (c : Candidate) (layer : String) : Bool :=
  c.chain.any fun container =>
    ((inputs.cands.get? container).any (·.whole)) &&
      ((machine.get? container).bind (·.get? "layerId")) = some (.str layer)

/-- A value of an entry that is not `None`. -/
def kept (entry : Entry) (key : String) : Option Json :=
  (entry.get? key).filter (· ≠ .null)

/-- The keys of an entry that say where in its layer it sits. -/
def placementKeys : List String :=
  ["orderKey", "logicalNodeId"]

def takeKey (value : String → Option Json) (entry : Entry) (key : String) : Entry :=
  match value key with
  | some taken => entry.set key taken
  | none => entry

def takeKeys (value : String → Option Json) (entry : Entry) : Entry :=
  placementKeys.foldl (takeKey value) entry

def assignedAt (prev : Option Entry) : Json :=
  ((prev.bind (·.get? "assignedAt")).filter isTrue).getD (.str inputs.now)

def entryIn (prev : Option Entry) (urn : String) (c : Candidate) (layer : String) : Entry :=
  let entry : Entry := [("layerId", .str layer), ("inheritsChildren", .bool c.whole),
    ("assignedBy", machineMark), ("assignedAt", inputs.assignedAt prev)]
  let stays := prev.filter fun prev => decide (prev.get? "layerId" = some (.str layer))
  takeKeys (fun key => ((inputs.override urn).get? key).filter isTrue)
    (takeKeys (fun key => stays.bind (kept · key)) entry)

/-- The entries planned so far, and how many went to the fallback layer. -/
structure Planned where
  machine : Dict String Entry := []
  fallback : ℕ := 0

def step (done : Planned) (urn : String) : Planned :=
  match inputs.cands.get? urn with
  | none => done
  | some c =>
    if (inputs.user.get? urn).isSome then done
    else
      let prev := inputs.old.get? urn
      match inputs.home prev done.machine urn c with
      | none => done
      | some layer =>
        let fellBack := (inputs.ownLayer prev urn c).isNone &&
          (inputs.nearest done.machine c).isNone
        let done := if fellBack then { done with fallback := done.fallback + 1 } else done
        if c.member && inputs.insideWhole done.machine c layer then done
        else { done with machine := done.machine.set urn (inputs.entryIn prev urn c layer) }

def planned : Planned :=
  inputs.order.foldl inputs.step {}

end Inputs

structure Plan where
  assignments : Dict String Entry
  added : List String
  removed : List String
  moved : List String
  members : ℕ
  containers : ℕ
  included : ℕ
  perLayer : Dict String ℕ
  fallback : ℕ
  limit : ℤ

def countLayer (perLayer : Dict String ℕ) (entry : Entry) : Dict String ℕ :=
  match entry.get? "layerId" with
  | some (.scalar (.str id)) => perLayer.set id ((perLayer.get? id).getD 0 + 1)
  | _ => perLayer

def plan (inputs : Inputs) : Plan :=
  let machine := inputs.planned.machine
  let user := inputs.user
  let old := inputs.old
  let assignments := user.update machine.sorted
  let members := (machine.filter fun entry =>
    (inputs.cands.get? entry.1).any (·.member)).length
  { assignments
    added := Dict.sortedKeys (machine.keys.filter fun urn => (old.get? urn).isNone)
    removed := Dict.sortedKeys (old.keys.filter fun urn =>
      (machine.get? urn).isNone && (user.get? urn).isNone)
    moved := Dict.sortedKeys (machine.keys.filter fun urn =>
      (old.get? urn).any fun entry =>
        (entry.get? "layerId").getD .null ≠ ((machine.get? urn).bind (·.get? "layerId")).getD .null)
    members
    containers := machine.length - members
    included := user.length
    perLayer := (assignments.map Prod.snd).foldl countLayer []
    fallback := inputs.planned.fallback
    limit := inputs.limit }

end DataViz.LiveView
