/-
# The write lease of a graph

`admission.py`: one aggregation run writes to a graph at a time. The lease is a key in Redis that
holds its run's token and expires unless it is renewed. A run sets the key if it is free; if its
own job holds it, and the key has not been renewed for two intervals, the run takes the key over;
else it is turned away. The holder renews the key in the background, and a run that cannot reach
Redis for as long as the key lives counts the lease as lost.

A command is on its way until Redis executes it, and so is the answer until the run reads it. A
run whose bus fails goes on without an answer; its command may have been executed, or may still
be, later and more than once. Time is in milliseconds, and all clocks go alike.
-/

import DataViz.Data.ExpiringKeys

namespace DataViz.Service

abbrev LeaseText := List Char

local instance lawfulLeaseText : LawfulBEq LeaseText := inferInstance

/-- What a provider says of its graph: `endpoint_key` and `_graph_name`. -/
structure Provider where
  endpoint : LeaseText
  graph : LeaseText
  deriving DecidableEq

def leaseKey (provider : Provider) : LeaseText :=
  "agg:graphwrite:".toList ++ provider.endpoint ++ ':' :: provider.graph

/-- A token: a text that no other token starts with, the job and the host. -/
def leaseToken (hex owner host : LeaseText) : LeaseText :=
  hex ++ '|' :: (if owner = [] then "unattributed".toList else owner) ++ '|' :: host

def splitBars : LeaseText → List LeaseText
  | [] => [[]]
  | c :: rest =>
    match splitBars rest with
    | [] => [[c]]
    | first :: others => if c = '|' then [] :: first :: others else (c :: first) :: others

def holderJob (token : LeaseText) : LeaseText :=
  match splitBars token with
  | [_, job, _] => job
  | _ => []

/-- What is sent to Redis; a `delete` is of a run that releases its lease, or of none. -/
inductive Command
  | setNx (key value : LeaseText)
  | get (key : LeaseText)
  | pttl (key : LeaseText)
  | takeOver (key expected value : LeaseText)
  | renew (key value : LeaseText)
  | delete (key value : LeaseText) (sender : Option ℕ)
  deriving DecidableEq

inductive Reply
  | set (done : Bool)
  | value (held : Option LeaseText)
  | ttl (ms : ℤ)
  | count (n : ℤ)
  deriving DecidableEq

/-- The keys, and a history that the code does not keep: who was granted which key, the last
first, and which values were taken over or deleted. -/
structure Redis where
  keys : ExpiringKeys LeaseText LeaseText
  grants : List (LeaseText × LeaseText)
  ousted : List LeaseText

/-- One command: `SET NX PX`, `GET`, `PTTL`, `_TAKE_OVER_IF_VALUE_LUA`, `_RENEW_IF_OWNED_LUA` or
`_RELEASE_IF_OWNED_LUA`. -/
def Redis.exec (ttl now : ℕ) (redis : Redis) : Command → Redis × Reply
  | .setNx key value =>
    let set := redis.keys.setNx now key value ttl
    ({ redis with
        keys := set.1
        grants := if set.2 then (key, value) :: redis.grants else redis.grants },
      .set set.2)
  | .get key => (redis, .value (redis.keys.live now key))
  | .pttl key => (redis, .ttl (redis.keys.remaining now key))
  | .takeOver key expected value =>
    let replaced := redis.keys.replaceIf now key expected value ttl
    ({ keys := replaced.1
       grants := if replaced.2 then (key, value) :: redis.grants else redis.grants
       ousted := if replaced.2 then expected :: redis.ousted else redis.ousted },
      .count (if replaced.2 then 1 else 0))
  | .renew key value =>
    let extended := redis.keys.extendIf now key value ttl
    ({ redis with keys := extended.1 }, .count (if extended.2 then 1 else -1))
  | .delete key value _ =>
    let deleted := redis.keys.deleteIf now key value
    ({ redis with
        keys := deleted.1
        ousted := if deleted.2 then value :: redis.ousted else redis.ousted },
      .count (if deleted.2 then 1 else 0))

/-- Why a lease is lost: it could not be renewed for more than the TTL, or the holder changed or
the lease expired. -/
inductive LostReason
  | unreachable
  | notOurs
  deriving DecidableEq

structure GraphLease where
  key : LeaseText
  token : LeaseText
  lost : Option LostReason
  lastOk : Option ℕ
  deriving DecidableEq

def GraphLease.markLost (lease : GraphLease) (reason : LostReason) : GraphLease :=
  { lease with lost := lease.lost.or (some reason) }

/-- `_renew_once` up to its command. -/
def GraphLease.beginRenewal (lease : GraphLease) (clock : ℕ) : GraphLease :=
  { lease with lastOk := some (lease.lastOk.getD clock) }

/-- `_renew_once` after its command; the bus fails if there is no answer. -/
def GraphLease.endRenewal (ttl : ℕ) (lease : GraphLease) (clock : ℕ) : Option ℤ → GraphLease × Bool
  | none =>
    if lease.lastOk.getD clock + ttl ≤ clock then (lease.markLost .unreachable, false)
    else (lease, true)
  | some count =>
    if count = 1 then ({ lease with lastOk := some clock }, true)
    else (lease.markLost .notOurs, false)

inductive Ending
  | failedOpen
  | busy
  | released
  | crashed
  deriving DecidableEq

/-- Where a run is in `acquire_graph_lease`, or with its lease. -/
inductive Phase
  | setting
  | reading
  | timing (holder : Option LeaseText)
  | takingOver (holder : LeaseText)
  | holding (lease : GraphLease)
  | renewing (lease : GraphLease) (clock : ℕ)
  | lost (lease : GraphLease)
  | ended (how : Ending)
  deriving DecidableEq

/-- A run: its answer that is still on its way, and, which the code does not keep, when the last
renewal that was answered began, or else the acquisition. -/
structure LeaseRun where
  key : LeaseText
  owner : LeaseText
  token : LeaseText
  phase : Phase
  reply : Option Reply
  since : ℕ
  deriving DecidableEq

namespace LeaseRun

variable (run : LeaseRun)

def command : Option Command :=
  if run.reply.isSome then none
  else
    match run.phase with
    | .setting => some (.setNx run.key run.token)
    | .reading => some (.get run.key)
    | .timing _ => some (.pttl run.key)
    | .takingOver holder => some (.takeOver run.key holder run.token)
    | .renewing _ _ => some (.renew run.key run.token)
    | _ => none

def decayedMs (ttl : ℕ) : ℤ :=
  ttl - (2 * ttl / 3 : ℕ)

/-- The guard of a self-reacquire: the job's own lease, that was not renewed for two intervals. -/
def ownDecayed (ttl : ℕ) (owner holder : LeaseText) (ms : ℤ) : Bool :=
  owner ≠ [] ∧ holderJob holder = owner ∧ 0 < ms ∧ ms ≤ decayedMs ttl

def lease : GraphLease where
  key := run.key
  token := run.token
  lost := none
  lastOk := none

def next (ttl : ℕ) (reply : Option Reply) : Phase :=
  match run.phase, reply with
  | .setting, some (.set true) => .holding run.lease
  | .setting, some (.set false) => .reading
  | .setting, none => .ended .failedOpen
  | .reading, some (.value held) => .timing held
  | .reading, none => .ended .busy
  | .timing (some holder), some (.ttl ms) =>
    if ownDecayed ttl run.owner holder ms then .takingOver holder else .ended .busy
  | .timing none, some (.ttl _) => .ended .busy
  | .timing _, none => .ended .busy
  | .takingOver _, some (.count n) => if n ≠ 0 then .holding run.lease else .ended .busy
  | .takingOver _, none => .ended .busy
  | .renewing lease clock, some (.count n) =>
    let (lease, still) := lease.endRenewal ttl clock (some n)
    if still then .holding lease else .lost lease
  | .renewing lease clock, none =>
    let (lease, still) := lease.endRenewal ttl clock none
    if still then .holding lease else .lost lease
  | phase, _ => phase

def proceed (ttl : ℕ) (reply : Option Reply) : LeaseRun :=
  { run with
    phase := run.next ttl reply
    reply := none
    since :=
      match run.phase, reply with
      | .renewing _ clock, some (.count 1) => clock
      | _, _ => run.since }

end LeaseRun

/-- The clock, Redis, the runs, the commands whose senders no longer wait, and the tokens so
far. -/
structure LeaseSystem where
  now : ℕ
  redis : Redis
  runs : ℕ → Option LeaseRun
  strays : List Command
  issued : List LeaseText

inductive LeaseAction
  /-- Time passes. -/
  | wait (ms : ℕ)
  /-- `acquire_graph_lease` begins. -/
  | acquire (i : ℕ) (provider : Provider) (owner hex host : LeaseText)
  /-- Redis executes a run's command. -/
  | serve (i : ℕ)
  /-- Redis executes a command whose sender no longer waits. -/
  | serveLate (command : Command)
  /-- A run reads its answer. -/
  | answer (i : ℕ)
  /-- A run's bus fails. -/
  | fail (i : ℕ)
  /-- `_renew_once` begins. -/
  | renew (i : ℕ)
  /-- `release_graph_lease`. -/
  | release (i : ℕ)
  /-- A run dies. -/
  | crash (i : ℕ)
  /-- `break_lease_if_holder`. -/
  | breakLease (provider : Provider) (value : LeaseText)
  deriving DecidableEq

namespace LeaseSystem

variable (ttl : ℕ) (s : LeaseSystem)

def start (now : ℕ) : LeaseSystem where
  now := now
  redis := { keys := fun _ => none, grants := [], ousted := [] }
  runs _ := none
  strays := []
  issued := []

def put (i : ℕ) (run : LeaseRun) : LeaseSystem :=
  { s with runs := Function.update s.runs i (some run) }

def stray (commands : List Command) : LeaseSystem :=
  { s with strays := commands ++ s.strays }

def step : LeaseAction → Option LeaseSystem
  | .wait ms => some { s with now := s.now + ms }
  | .acquire i provider owner hex host =>
    let token := leaseToken hex owner host
    if (s.runs i).isNone ∧ token ∉ s.issued then
      some { s.put i ⟨leaseKey provider, owner, token, .setting, none, s.now⟩ with
        issued := token :: s.issued }
    else none
  | .serve i =>
    match s.runs i with
    | none => none
    | some run =>
      match run.command with
      | none => none
      | some command =>
        let executed := s.redis.exec ttl s.now command
        some { s.put i { run with reply := some executed.2 } with redis := executed.1 }
  | .serveLate command =>
    if command ∈ s.strays then some { s with redis := (s.redis.exec ttl s.now command).1 }
    else none
  | .answer i =>
    match s.runs i with
    | none => none
    | some run =>
      match run.reply with
      | none => none
      | some reply => some (s.put i (run.proceed ttl (some reply)))
  | .fail i =>
    match s.runs i with
    | none => none
    | some run => some ((s.put i (run.proceed ttl none)).stray run.command.toList)
  | .renew i =>
    match s.runs i with
    | none => none
    | some run =>
      match run.phase with
      | .holding lease =>
        some (s.put i { run with
          phase := .renewing (lease.beginRenewal s.now) s.now
          reply := none })
      | _ => none
  | .release i =>
    match s.runs i with
    | none => none
    | some run =>
      match run.phase with
      | .holding lease | .renewing lease _ | .lost lease =>
        some ((s.put i { run with phase := .ended .released, reply := none }).stray
          (.delete lease.key lease.token (some i) :: run.command.toList))
      | _ => none
  | .crash i =>
    match s.runs i with
    | none => none
    | some run =>
      some ((s.put i { run with phase := .ended .crashed, reply := none }).stray run.command.toList)
  | .breakLease provider value =>
    some (s.stray [.delete (leaseKey provider) value none])

inductive Reached (kind : LeaseSystem → LeaseAction → Prop) : LeaseSystem → Prop
  | start (now : ℕ) : Reached kind (start now)
  | step {s s' : LeaseSystem} {action : LeaseAction} (before : Reached kind s)
      (allowed : kind s action) (ok : s.step ttl action = some s') : Reached kind s'

end LeaseSystem

end DataViz.Service
