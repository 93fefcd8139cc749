/-
# The capacity planner

One pass of the capacity loop reads its masters and its graphs, and decides per master which
graphs are evicted, which load starts there and which loads wait there. Idle graphs go first;
a master at its start mark then evicts the idle-longest until its use is at the stop mark; and
for the first load of a provider that has no room anywhere, room is made where it falls shortest.

Sizes and times are integers, the times in microseconds; a master is known by its endpoint.
-/

import Mathlib.Algebra.Ring.Int.Defs
import Mathlib.Data.Rat.Defs
import Mathlib.Data.Prod.Lex
import DataViz.Data.Dict

namespace DataViz.Residency

structure ResidencyPolicy where
  evictionEnabled : Bool
  standardIdleSecs : ℤ
  coldlineIdleSecs : ℤ
  highWaterPct : ℤ
  lowWaterPct : ℤ
  loadMarginPct : ℤ
  bytesPerEntity : ℤ

/-- One cluster master: `used` is `none` when it could not be read, and with a `maxmemory` of 0
it sets no limit. -/
structure Master where
  endpoint : String
  used : Option ℤ
  maxmemory : ℤ
  hold : Option String := none
  reserved : ℤ := 0
  providers : List String := ["default"]

inductive ResidencyClass
  | always
  | standard
  | coldline
  deriving DecidableEq

inductive Status
  | idle
  | evicted
  | waitingCapacity
  | rehydrating
  | other (name : String)
  deriving DecidableEq

structure Graph where
  graphId : String
  endpoint : String
  residency : ResidencyClass
  status : Status
  owned : Bool := true
  evictable : Bool := true
  leased : Bool := false
  lastRead : Option ℤ := none
  sizeBytes : Option ℤ := none
  entities : Option ℤ := none
  seeding : Bool := false
  requestedAt : Option ℚ := none
  provider : String := "default"
  placed : Bool := true

/-- Its measured size, else its entities times the bytes per entity. -/
def Graph.bytes (graph : Graph) (policy : ResidencyPolicy) : Option ℤ :=
  match graph.sizeBytes with
  | some size => some size
  | none => graph.entities.map (· * policy.bytesPerEntity)

inductive EvictionReason
  | idle (residency : ResidencyClass)
  | pressure
  deriving DecidableEq

structure Eviction where
  graphId : String
  endpoint : String
  bytes : Option ℤ
  reason : EvictionReason

structure Load where
  graphId : String
  endpoint : String
  bytes : ℤ

/-- Why a load waits; a master's hold is a reason in its own words. -/
inductive WaitReason
  | capacity
  | queued
  | unmeasured
  | unsized
  | hold (text : String)
  deriving DecidableEq

structure Wait where
  graphId : String
  endpoint : String
  bytes : Option ℤ
  reason : WaitReason
  shortfall : Option ℤ := none

structure MasterPlan where
  master : Master
  reserved : ℤ
  usedAfter : Option ℤ
  seeding : Bool := false
  toFree : ℤ := 0
  spare : List Eviction := []
  evictions : List Eviction := []
  loads : List Load := []
  waits : List Wait := []
  claimed : Bool := false

structure Plan where
  masters : List MasterPlan

def Plan.evictions (plan : Plan) : List Eviction :=
  plan.masters.flatMap (·.evictions)

def Plan.loads (plan : Plan) : List Load :=
  plan.masters.flatMap (·.loads)

def Plan.waits (plan : Plan) : List Wait :=
  plan.masters.flatMap (·.waits)

/-- The room a load asks for: its size times the headroom, rounded up. -/
def need (graph : Graph) (policy : ResidencyPolicy) : Option ℤ :=
  (graph.bytes policy).map fun size => -(-size * policy.loadMarginPct / 100)

/-- The use a load may bring a master to. -/
def startMark (master : Master) (policy : ResidencyPolicy) : ℤ :=
  master.maxmemory * policy.highWaterPct / 100

/-- Whether some bytes fit on a master after what is reserved there, and how much is missing. -/
def admitLoad (master : Master) (needed : ℤ) (policy : ResidencyPolicy) (reserved : ℤ) :
    Bool × Option ℤ :=
  match master.used with
  | none => (false, none)
  | some used =>
    if master.maxmemory ≤ 0 then (true, some 0)
    else
      let shortfall := used + reserved + needed - startMark master policy
      (decide (shortfall ≤ 0), some (max 0 shortfall))

def room (plan : MasterPlan) (policy : ResidencyPolicy) : Option ℤ :=
  match plan.master.used with
  | none => none
  | some used =>
    if plan.master.maxmemory ≤ 0 then none
    else some (startMark plan.master policy - used - plan.reserved)

/-- How a read master ranks for a load: one whose room is known before one that sets no limit. -/
def rank (policy : ResidencyPolicy) (plan : MasterPlan) : Bool ×ₗ ℤ :=
  match room plan policy with
  | some room => toLex (true, room)
  | none => toLex (false, -plan.master.used.getD 0)

def rankHigher (policy : ResidencyPolicy) : Option MasterPlan → MasterPlan → Option MasterPlan
  | none, plan => some plan
  | some best, plan => if rank policy best < rank policy plan then some plan else some best

/-- The master that ranks highest, the first of equals, of those that could be read. -/
def roomiest (plans : List MasterPlan) (policy : ResidencyPolicy) : Option MasterPlan :=
  (plans.filter (·.master.used.isSome)).foldl (rankHigher policy) none

def seconds (secs : ℤ) : ℤ :=
  secs * 1000000

def isCandidate (graph : Graph) : Bool :=
  graph.status = .idle && graph.owned && graph.evictable && !graph.leased &&
    (graph.residency = .standard || graph.residency = .coldline)

def candidates (graphs : List Graph) : List Graph :=
  graphs.filter isCandidate

def evictsOn (policy : ResidencyPolicy) (master : Master) : Bool :=
  policy.evictionEnabled && master.used.isSome && master.hold != some "loading"

/-- How long a graph of a class may go unread. -/
def idleFor (policy : ResidencyPolicy) (residency : ResidencyClass) : ℤ :=
  seconds (if residency = .standard then policy.standardIdleSecs else policy.coldlineIdleSecs)

/-- A graph unread for longer than its class may go. -/
def isIdle (policy : ResidencyPolicy) (now : ℤ) (graph : Graph) : Bool :=
  match graph.lastRead with
  | some read => idleFor policy graph.residency < now - read
  | none => false

def evict (policy : ResidencyPolicy) (endpoint : String) (reason : EvictionReason)
    (graph : Graph) : Eviction where
  graphId := graph.graphId
  endpoint := endpoint
  bytes := graph.bytes policy
  reason := reason

/-- The order in which pressure takes graphs: Coldline before Standard, by oldest read, where
no read on record counts as read now. -/
def coldness (now : ℤ) (graph : Graph) : Bool ×ₗ ℤ :=
  toLex (graph.residency != .coldline, graph.lastRead.getD now)

def coldestFirst (policy : ResidencyPolicy) (now : ℤ) (graphs : List Graph) : List (Graph × ℤ) :=
  ((graphs.insertionSort fun first second => coldness now first ≤ coldness now second).filterMap
    fun graph => (graph.bytes policy).map fun bytes => (graph, bytes))

/-- How far pressure eviction has come on a master. -/
structure Relief where
  evictions : List Eviction
  spare : List Eviction := []
  freed : ℤ

/-- The loop of pressure eviction: evict until the use is at the stop mark, keep the rest. -/
def relieve (policy : ResidencyPolicy) (endpoint : String) (used stop : ℤ) (relief : Relief)
    (next : Graph × ℤ) : Relief :=
  let eviction := evict policy endpoint .pressure next.1
  if used - relief.freed ≤ stop then { relief with spare := relief.spare ++ [eviction] }
  else { relief with
    evictions := relief.evictions ++ [eviction]
    freed := relief.freed + next.2 }

def idleEvictions (policy : ResidencyPolicy) (endpoint : String) (graphs : List Graph)
    (now : ℤ) : List Eviction :=
  ((candidates graphs).filter (isIdle policy now)).map fun graph =>
    evict policy endpoint (.idle graph.residency) graph

/-- The relief of a master that evicts: its idle graphs, then under pressure the coldest. -/
def relief (policy : ResidencyPolicy) (master : Master) (used : ℤ) (graphs : List Graph)
    (now : ℤ) (sized : Bool) : Relief :=
  let idle := idleEvictions policy master.endpoint graphs now
  let start : Relief := { evictions := idle, freed := (idle.map (·.bytes.getD 0)).sum }
  if sized && 0 < master.maxmemory && master.maxmemory * policy.highWaterPct ≤ used * 100 then
    (coldestFirst policy now ((candidates graphs).filter (!isIdle policy now ·))).foldl
      (relieve policy master.endpoint used (master.maxmemory * policy.lowWaterPct / 100)) start
  else start

def toFree (policy : ResidencyPolicy) (master : Master) (used : ℤ) (sized : Bool) : ℤ :=
  if sized && 0 < master.maxmemory && master.maxmemory * policy.highWaterPct ≤ used * 100 then
    max 0 (used - master.maxmemory * policy.lowWaterPct / 100)
  else 0

/-- What is held on a master: what the governor holds, and the loads in flight. -/
def reservedOn (policy : ResidencyPolicy) (master : Master) (graphs : List Graph) : ℤ :=
  master.reserved + ((graphs.filter (·.seeding)).map fun graph =>
    (need graph policy).getD 0).sum

def planMaster (policy : ResidencyPolicy) (master : Master) (graphs : List Graph) (now : ℤ)
    (sized : Bool) : MasterPlan :=
  let out : MasterPlan :=
    { master
      reserved := reservedOn policy master graphs
      usedAfter := master.used
      seeding := graphs.any (·.seeding) }
  match master.used with
  | some used =>
    if evictsOn policy master then
      let made := relief policy master used graphs now sized
      { out with
        usedAfter := some (used - made.freed)
        toFree := toFree policy master used sized
        spare := made.spare
        evictions := made.evictions }
    else out
  | none => out

def pickColdest : List (Graph × ℤ) → ℤ → List (Graph × ℤ) × ℤ
  | [], lacking => ([], lacking)
  | next :: rest, lacking =>
    if lacking ≤ 0 then ([], lacking)
    else
      let picked := pickColdest rest (lacking - next.2)
      (next :: picked.1, picked.2)

/-- A graph that may make room for a load: not evicted yet, and unread for the Coldline idle
time. -/
def makesRoom (policy : ResidencyPolicy) (at_ : MasterPlan) (now : ℤ) (graph : Graph) : Bool :=
  graph.graphId ∉ at_.evictions.map (·.graphId) && match graph.lastRead with
    | some read => seconds policy.coldlineIdleSecs < now - read
    | none => false

/-- `_make_room`: the plan of the master with room made on it, `none` when it could not be. -/
def makeRoom (policy : ResidencyPolicy) (at_ : MasterPlan) (graphs : List Graph)
    (shortfall now : ℤ) : Option MasterPlan :=
  match at_.master.used with
  | none => none
  | some used =>
    if evictsOn policy at_.master then
      let usedAfter := at_.usedAfter.getD used
      let lacking := shortfall - (used - usedAfter)
      if lacking ≤ 0 then some at_
      else
        let picked := pickColdest (coldestFirst policy now
          ((candidates graphs).filter (makesRoom policy at_ now))) lacking
        if 0 < picked.2 then none
        else
          let picks := picked.1.map fun next =>
            evict policy at_.master.endpoint .pressure next.1
          some { at_ with
            spare := at_.spare.filter fun eviction =>
              eviction.graphId ∉ picks.map (·.graphId)
            evictions := at_.evictions ++ picks
            usedAfter := some (usedAfter - (picked.1.map (·.2)).sum) }
    else none

/-- How far the loads have come: the plans, the masters that take no further load, and the
providers whose first load waits for room. -/
structure Pass where
  plans : List MasterPlan
  busy : List String
  heads : List String := []

def Pass.update (pass : Pass) (endpoint : String) (change : MasterPlan → MasterPlan) : Pass :=
  { pass with plans := pass.plans.map fun plan =>
      if plan.master.endpoint = endpoint then change plan else plan }

/-- No load may start on the master now: `hold` says why. -/
def Master.held (master : Master) : Bool :=
  match master.hold with
  | some text => text ≠ ""
  | none => false

def Master.holdReason (master : Master) : WaitReason :=
  match master.hold with
  | some text => if text = "" then .queued else .hold text
  | none => .queued

/-- The masters a load may go to: a placed graph's provider's, another's own. -/
def Pass.pool (pass : Pass) (graph : Graph) : List MasterPlan :=
  if graph.placed then pass.plans.filter (graph.provider ∈ ·.master.providers)
  else pass.plans.filter (·.master.endpoint = graph.endpoint)

def Pass.readable (pass : Pass) (graph : Graph) : List MasterPlan :=
  (pass.pool graph).filter (·.master.used.isSome)

def Pass.isFree (pass : Pass) (plan : MasterPlan) : Bool :=
  plan.master.endpoint ∉ pass.busy && !plan.master.held

def Pass.target (pass : Pass) (policy : ResidencyPolicy) (graph : Graph) : Option MasterPlan :=
  roomiest ((pass.readable graph).filter pass.isFree) policy

/-- The master a load would have room on, were it free. -/
def Pass.later (pass : Pass) (policy : ResidencyPolicy) (graph : Graph) (needed : ℤ) :
    Option MasterPlan :=
  roomiest ((pass.readable graph).filter fun plan =>
    !pass.isFree plan && (admitLoad plan.master needed policy plan.reserved).1) policy

def Pass.waitsAt (pass : Pass) (policy : ResidencyPolicy) (graph : Graph) : String :=
  match (pass.target policy graph).or (roomiest (pass.readable graph) policy) with
  | some plan => plan.master.endpoint
  | none => graph.endpoint

def Pass.wait (pass : Pass) (policy : ResidencyPolicy) (graph : Graph) (endpoint : String)
    (reason : WaitReason) (shortfall : Option ℤ) : Pass :=
  pass.update endpoint fun plan => { plan with
    waits := plan.waits ++ [⟨graph.graphId, endpoint, graph.bytes policy, reason, shortfall⟩] }

def Pass.load (pass : Pass) (graph : Graph) (endpoint : String) (bytes : ℤ) : Pass :=
  let loaded := pass.update endpoint fun plan => { plan with
    loads := plan.loads ++ [⟨graph.graphId, endpoint, bytes⟩] }
  { loaded with busy := endpoint :: loaded.busy }

/-- Room is made on a master for a load, which then keeps it. -/
def Pass.claim (pass : Pass) (graph : Graph) (made : MasterPlan) : Pass :=
  let claimed := pass.update made.master.endpoint fun _ => { made with claimed := true }
  { claimed with
    busy := made.master.endpoint :: claimed.busy
    heads := graph.provider :: claimed.heads }

def Pass.heldReason (pass : Pass) (graph : Graph) : WaitReason :=
  match (pass.readable graph).filter (·.master.endpoint ∉ pass.busy) with
  | plan :: _ => plan.master.holdReason
  | [] => .queued

/-- A load that does not fit on its target: it waits for a master it would fit on, else room is
made for it if it is the first of its provider's. -/
def Pass.short (pass : Pass) (policy : ResidencyPolicy) (graphs : List Graph) (now : ℤ)
    (sized : Bool) (graph : Graph) (needed : ℤ) (target : MasterPlan) (shortfall : Option ℤ) :
    Pass :=
  match pass.later policy graph needed with
  | some later =>
    pass.wait policy graph later.master.endpoint later.master.holdReason none
  | none =>
    let made :=
      if sized && graph.provider ∉ pass.heads then
        makeRoom policy target (graphs.filter (·.endpoint = target.master.endpoint))
          (shortfall.getD 0) now
      else none
    let after := match made with
      | some made => pass.claim graph made
      | none => pass
    after.wait policy graph target.master.endpoint .capacity shortfall

/-- One load asked for: it starts on the roomiest master free to take it, or it waits. -/
def Pass.next (policy : ResidencyPolicy) (graphs : List Graph) (now : ℤ) (sized : Bool)
    (pass : Pass) (graph : Graph) : Pass :=
  match graph.bytes policy, need graph policy with
  | some bytes, some needed =>
    if pass.readable graph = [] then
      pass.wait policy graph (pass.waitsAt policy graph) .unmeasured none
    else
      match pass.target policy graph with
      | none =>
        pass.wait policy graph (pass.waitsAt policy graph) (pass.heldReason graph) none
      | some target =>
        let admitted := admitLoad target.master needed policy target.reserved
        if admitted.1 then pass.load graph target.master.endpoint bytes
        else pass.short policy graphs now sized graph needed target admitted.2
  | _, _ => pass.wait policy graph (pass.waitsAt policy graph) .unsized none

def isAsked (graph : Graph) : Bool :=
  graph.requestedAt.isSome && (graph.status = .evicted || graph.status = .waitingCapacity)

def asked (graphs : List Graph) : List Graph :=
  (graphs.filter isAsked).insertionSort fun first second =>
    first.requestedAt.getD 0 ≤ second.requestedAt.getD 0

def planLoads (policy : ResidencyPolicy) (plans : List MasterPlan) (graphs : List Graph)
    (now : ℤ) (sized : Bool) : Pass :=
  (asked graphs).foldl (Pass.next policy graphs now sized)
    { plans, busy := (plans.filter (·.seeding)).map (·.master.endpoint) }

/-- The masters that graphs name and that were not read, which count as unreadable. -/
def unread (masters : List Master) (graphs : List Graph) : List Master :=
  ((Dict.group (graphs.map fun graph => (graph.endpoint, graph))).filter fun entry =>
    decide (entry.1 ∉ masters.map (·.endpoint))).map fun entry =>
      { endpoint := entry.1, used := none, maxmemory := 0,
        providers := (entry.2.head?.map (·.provider)).toList }

def plan (policy : ResidencyPolicy) (masters : List Master) (graphs : List Graph) (now : ℤ)
    (sized : Bool := true) : Plan where
  masters := (planLoads policy ((masters ++ unread masters graphs).map fun master =>
      planMaster policy master (graphs.filter (·.endpoint = master.endpoint)) now sized)
    graphs now sized).plans

end DataViz.Residency
