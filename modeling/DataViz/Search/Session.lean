/-
# A search session

`session.py`, the scan of `engine.py` and `_EdgeWork` of `edges.py`. A session is the pending units
of a plan and what the others told: how many matches, and the first rows. What is counted by
ancestor, or by edge type, is kept beside it under keys of its own. Requests take the session's
lease in turn, carry on from its latest commit, run units and commit.

The requests share nothing but the store, and each call of it is atomic.
-/

import DataViz.Data.Counts
import DataViz.Data.FirstRows
import DataViz.Search.Plan

namespace DataViz.Search

/-- What a unit tells of one ancestor: how many matches of a type it holds. -/
structure TallyRow where
  urn : String
  name : String
  label : String
  entityType : String
  matched : ℕ

/-- What is in a unit: the matches of a search and their ancestors, or the edges of a Connections
search, by type. -/
inductive Told (ρ : Type)
  | found (count : ℕ) (rows : List ρ) (tallied : List TallyRow)
  | linked (typed : List (String × ℕ × List ρ))

/-- Whether a session is of a search or of a Connections search. -/
inductive Work
  | matching
  | connecting
  deriving DecidableEq

/-- What the requests of a session scan: how many rows they keep, and what each unit tells. -/
structure Scan (ρ : Type) where
  work : Work
  k : ℕ
  tell : PlanUnit → Told ρ

/-- How many matches an ancestor holds, and of which types. -/
structure Tally where
  held : ℕ
  name : String
  label : String
  types : Dict String ℕ
  once : types.keys.Nodup
  deriving DecidableEq

def orElse (held entry : String) : String :=
  if held ≠ "" then held else entry

/-- What an ancestor holds by one unit and by another. -/
def Tally.add (held entry : Tally) : Tally where
  held := held.held + entry.held
  name := orElse held.name entry.name
  label := orElse held.label entry.label
  types := held.types.addAll entry.types
  once := Dict.nodup_addAll held.once

def addTally (into : Dict String Tally) (urn : String) (entry : Tally) : Dict String Tally :=
  match into.get? urn with
  | none => into.set urn entry
  | some held => into.set urn (held.add entry)

def TallyRow.tally (row : TallyRow) : Tally where
  held := row.matched
  name := row.name
  label := row.label
  types := [(row.entityType, row.matched)]
  once := List.nodup_singleton _

structure Task where
  unit : PlanUnit
  drops : ℕ := 0
  dropMark : ℕ := 0
  lastTry : Bool := false
  deriving DecidableEq

inductive Status
  | running
  | complete
  | failed
  deriving DecidableEq

/-- `Session`. The units it was planned with are not kept by the code. -/
structure Session (ρ : Type) where
  plan : List PlanUnit
  pending : List Task
  scanned : ℕ
  count : ℕ
  rows : List ρ
  status : Status
  leftOut : ℕ
  deriving DecidableEq

variable {ρ : Type} [LinearOrder ρ]

def Session.start (plan : List PlanUnit) : Session ρ where
  plan
  pending := plan.map fun unit => { unit }
  scanned := 0
  count := 0
  rows := []
  status := if plan = [] then .complete else .running
  leftOut := 0

/-- What a session's keys hold: itself, its ancestors' tallies and their ranks, what else its scan
keeps, and who has its lease. -/
structure Store (ρ : Type) where
  session : Option (Session ρ) := none
  tallies : Dict String Tally := []
  ranks : Dict String ℕ := []
  accumulator : Option (Dict String ℕ) := none
  lease : Option ℕ := none

/-- The tallies that a commit writes: its own, added to those the store has of their ancestors. -/
def mergeTallies (stored own : Dict String Tally) : Dict String Tally :=
  own.foldl (fun merged entry =>
    addTally (match stored.get? entry.1 with
      | some raw => addTally merged entry.1 raw
      | none => merged) entry.1 entry.2) []

/-- `save`. With a token, nothing is written unless the lease still holds it. -/
def Store.save (store : Store ρ) (session : Session ρ) (token : Option ℕ)
    (tallies : Dict String Tally) (accumulator : Option (Dict String ℕ)) : Store ρ :=
  if token.isSome ∧ store.lease ≠ token then store
  else
    let merged := mergeTallies store.tallies tallies
    { store with
      session := some session
      tallies := store.tallies.update merged
      ranks := store.ranks.update (merged.map fun entry => (entry.1, entry.2.held))
      accumulator := accumulator.orElse fun _ => store.accumulator }

inductive Phase
  | arrived
  | leased
  | scanning
  | committing
  | releasing
  | deleting
  | ended
  deriving DecidableEq

/-- A unit that a request has taken back and waits to know more of: the connection was lost, or it
ran out of time. -/
inductive Doubt
  | dropped (task : Task)
  | slow (task : Task)
  deriving DecidableEq

def Doubt.task : Doubt → Task
  | .dropped task | .slow task => task

/-- A request, with what its work keeps: the tallies of its own units, or the counts by type. -/
structure Request (ρ : Type) where
  created : Bool
  session : Session ρ
  tally : Dict String Tally := []
  types : Dict String ℕ := []
  inFlight : List Task := []
  doubt : Option Doubt := none
  phase : Phase := .arrived

namespace Request

variable (scan : Scan ρ) (r : Request ρ)

def fold (told : Told ρ) : Request ρ :=
  match told with
  | .found count rows tallied =>
    let first := firstRows (· ≤ ·) scan.k rows
    { r with
      session := { r.session with
        count := r.session.count + count
        rows := if first = [] then r.session.rows
          else firstRows (· ≤ ·) scan.k (r.session.rows ++ first) }
      tally := tallied.foldl (fun tally row =>
        if row.urn = "" then tally else addTally tally row.urn row.tally) r.tally }
  | .linked typed =>
    let first := typed.flatMap fun entry => firstRows (· ≤ ·) scan.k entry.2.2
    { r with
      session := { r.session with
        count := r.session.count + (typed.map fun entry => entry.2.1).sum
        rows := if first = [] then r.session.rows
          else firstRows (· ≤ ·) scan.k (r.session.rows ++ first) }
      types := r.types.addAll (typed.map fun entry => (entry.1, entry.2.1)) }

def putBack (tasks : List Task) : Request ρ :=
  { r with session := { r.session with pending := tasks ++ r.session.pending } }

def leaveOut (task : Task) : Request ρ :=
  { r with session := { r.session with
      scanned := r.session.scanned + task.unit.size
      leftOut := r.session.leftOut + 1 } }

inductive Outcome
  | told
  | busy
  | dropped
  | slow
  | failed

/-- A unit has landed, by the loop of `_hop`. -/
def land (task : Task) : Outcome → Request ρ
  | .told =>
    ({ r with session := { r.session with
      scanned := r.session.scanned + task.unit.size } }).fold scan (scan.tell task.unit)
  | .busy => r.putBack [task]
  | .dropped => { r with doubt := some (.dropped task) }
  | .slow =>
    match task.unit.split with
    | some parts => r.putBack (parts.map fun unit => { task with unit })
    | none =>
      if task.lastTry then r.leaveOut task
      else { r with doubt := some (.slow task) }
  | .failed => { r with session := { r.session with status := .failed } }

def dropsMax : ℕ :=
  5

/-- The rest of `_hold`, for a dropped unit, once it is known whether the graph answers. -/
def hold (task : Task) (answers : Bool) : Request ρ :=
  let drops := task.drops + if task.dropMark < r.session.scanned ∨ answers then 1 else 0
  if dropsMax ≤ drops then r.leaveOut task
  else
    { r with session := { r.session with
      pending := r.session.pending ++ [{ task with drops, dropMark := r.session.scanned }] } }

/-- The rest of `_recover`, once it is known what the unit is read as one level down. -/
def recover (task : Task) (parts : List PlanUnit) : Request ρ :=
  if parts ≠ [] then r.putBack (parts.map fun unit => { task with unit })
  else r.putBack [{ task with lastTry := true }]

/-- The end of `_hop`: what is in flight is put back. A unit in doubt is not. -/
def stop : Request ρ :=
  { r.putBack r.inFlight.reverse with inFlight := [], doubt := none, phase := .committing }

/-- The last loop of `_hop`, and then its end. -/
def finish : Request ρ :=
  if r.session.status = .running ∧ r.session.pending = [] ∧ r.inFlight = [] then
    ({ r with session := { r.session with status := .complete } }).stop
  else r.stop

end Request

structure SessionSystem (ρ : Type) where
  store : Store ρ := {}
  requests : List (Request ρ) := []

/-- What happens next. A request is named by its number, which stands for its token too, and a unit
in flight by its place. -/
inductive SessionAction
  /-- A request comes and loads the session, or plans it. -/
  | arrive (plan : List PlanUnit)
  /-- There is nothing to run: what was planned is saved all the same. -/
  | answer (i : ℕ)
  | takeLease (i : ℕ)
  /-- No slot is free: what was planned is saved, and the lease given back. -/
  | noSlot (i : ℕ)
  /-- The latest commit is loaded. -/
  | begin (i : ℕ)
  | start (i : ℕ)
  | land (i n : ℕ) (outcome : Request.Outcome)
  | hold (i : ℕ) (answers : Bool)
  | recover (i : ℕ) (parts : List PlanUnit)
  | finish (i : ℕ)
  /-- The request is cancelled while it scans, and still commits. -/
  | cancel (i : ℕ)
  | commit (i : ℕ)
  /-- The cache does not take the commit. -/
  | skipCommit (i : ℕ)
  | checkRelease (i : ℕ)
  | deleteLease (i : ℕ)
  /-- The request is gone. -/
  | crash (i : ℕ)
  | expireLease
  /-- A failed session lapses, and its tallies with it. -/
  | lapse
  /-- What else a session kept lapses, when it has failed or is gone. -/
  | lapseAccumulator

namespace SessionSystem

variable (scan : Scan ρ) (s : SessionSystem ρ)

def put (i : ℕ) (r : Request ρ) : SessionSystem ρ :=
  { s with requests := s.requests.set i r }

/-- A request that comes: it continues what is there, unless that failed. -/
def arriving (plan : List PlanUnit) : Request ρ :=
  match s.store.session.filter (·.status ≠ .failed) with
  | some session =>
    { created := false, session, types := s.store.accumulator.getD [] }
  | none => { created := true, session := .start plan }

/-- What a request that has the lease scans: the latest commit, unless it planned the session and
that failed, and the counts by type that were committed. -/
def beginning (r : Request ρ) : Request ρ :=
  let session := match s.store.session with
    | some latest => if r.created ∧ latest.status = .failed then r.session else latest
    | none => r.session
  let types := match scan.work with
    | .matching => r.types
    | .connecting => s.store.accumulator.getD r.types
  { r with session, types, phase := .scanning }

def committed (i : ℕ) (r : Request ρ) : Store ρ :=
  if r.session.status = .failed then s.store.save r.session (some i) [] none
  else
    match scan.work with
    | .matching => s.store.save r.session (some i) r.tally none
    | .connecting => s.store.save r.session (some i) [] (some r.types)

def inPhase (i : ℕ) (phase : Phase) : Option (Request ρ) :=
  s.requests[i]?.filter (·.phase = phase)

def step : SessionAction → Option (SessionSystem ρ)
  | .arrive plan => some { s with requests := s.requests ++ [s.arriving plan] }
  | .answer i => do
    let r ← s.inPhase i .arrived
    guard (r.session.status ≠ .running)
    let store := if r.created then s.store.save r.session none [] none else s.store
    some ({ s with store }.put i { r with phase := .ended })
  | .takeLease i => do
    let r ← s.inPhase i .arrived
    guard (r.session.status = .running)
    if s.store.lease = none then
      some ({ s with store := { s.store with lease := some i } }.put i { r with phase := .leased })
    else some (s.put i { r with phase := .ended })
  | .noSlot i => do
    let r ← s.inPhase i .leased
    let store := if r.created then s.store.save r.session (some i) [] none else s.store
    some ({ s with store }.put i { r with phase := .releasing })
  | .begin i => do
    let r ← s.inPhase i .leased
    some (s.put i (s.beginning scan r))
  | .start i => do
    let r ← s.inPhase i .scanning
    guard (r.session.status = .running)
    match r.session.pending with
    | task :: rest =>
      some (s.put i { r with
        session := { r.session with pending := rest }, inFlight := r.inFlight ++ [task] })
    | [] => none
  | .land i n outcome => do
    let r ← s.inPhase i .scanning
    guard (r.session.status = .running ∧ r.doubt = none)
    let task ← r.inFlight[n]?
    some (s.put i ({ r with inFlight := r.inFlight.eraseIdx n }.land scan task outcome))
  | .hold i answers => do
    let r ← s.inPhase i .scanning
    match r.doubt with
    | some (.dropped task) => some (s.put i ({ r with doubt := none }.hold task answers))
    | _ => none
  | .recover i parts => do
    let r ← s.inPhase i .scanning
    match r.doubt with
    | some (.slow task) => some (s.put i ({ r with doubt := none }.recover task parts))
    | _ => none
  | .finish i => do
    let r ← s.inPhase i .scanning
    guard (r.doubt = none)
    some (s.put i r.finish)
  | .cancel i => do
    let r ← s.inPhase i .scanning
    some (s.put i r.stop)
  | .commit i => do
    let r ← s.inPhase i .committing
    some ({ s with store := s.committed scan i r }.put i { r with phase := .releasing })
  | .skipCommit i => do
    let r ← s.inPhase i .committing
    some (s.put i { r with phase := .releasing })
  | .checkRelease i => do
    let r ← s.inPhase i .releasing
    some (s.put i { r with phase := if s.store.lease = some i then .deleting else .ended })
  | .deleteLease i => do
    let r ← s.inPhase i .deleting
    some ({ s with store := { s.store with lease := none } }.put i { r with phase := .ended })
  | .crash i => do
    let r ← s.requests[i]?
    some (s.put i { r with phase := .ended })
  | .expireLease => some { s with store := { s.store with lease := none } }
  | .lapse => do
    let session ← s.store.session
    guard (session.status = .failed)
    some { s with store := { s.store with session := none, tallies := [], ranks := [] } }
  | .lapseAccumulator => do
    guard (∀ session ∈ s.store.session, session.status = .failed)
    some { s with store := { s.store with accumulator := none } }

def after (actions : List SessionAction) : Option (SessionSystem ρ) :=
  actions.foldlM (fun s action => s.step scan action) s

end SessionSystem

end DataViz.Search
