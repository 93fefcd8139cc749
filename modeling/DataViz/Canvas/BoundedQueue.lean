/-
# A queue of tasks with a limit

Tasks are submitted under keys; so many run at a time, and the others wait in their order. A task
runs without a break up to where it first waits, and may call the queue up to there: the calls that
are under way are a stack. What a task does is not fixed, so each step is one of those there are.

The limit is an integer. A task's listeners for its being cancelled do not call the queue.
-/

import DataViz.Data.Dict

namespace DataViz.Canvas

/-- `QueueEntry`: a submission, told from others by its number. -/
structure QueueEntry where
  id : ℕ
  key : String
deriving DecidableEq

/-- `BoundedQueue`. Promises are those of the submissions with their numbers. The tasks that have
started say which entries are marked so, those that run are written down with them. -/
structure BoundedQueue where
  limit : ℤ
  active : ℤ := 0
  pending : List QueueEntry := []
  entries : Dict String QueueEntry := []
  inflight : Dict String ℕ := []
  submitted : ℕ := 0
  started : List QueueEntry := []
  running : List QueueEntry := []
  aborted : List QueueEntry := []

namespace BoundedQueue

variable (queue : BoundedQueue)

def new (limit : ℤ) : BoundedQueue where
  limit := max 1 limit

def unfinished : List QueueEntry :=
  queue.running ++ queue.pending

def entryOf (key : String) : QueueEntry :=
  ⟨queue.submitted, key⟩

def enqueue (key : String) : BoundedQueue :=
  { queue with
    pending := queue.pending ++ [queue.entryOf key]
    entries := queue.entries.set key (queue.entryOf key)
    submitted := queue.submitted + 1 }

def register (entry : QueueEntry) : BoundedQueue :=
  { queue with inflight := queue.inflight.set entry.key entry.id }

/-- The entry that `drain` starts, and those it leaves. -/
def next? : Option (QueueEntry × List QueueEntry) :=
  match queue.pending with
  | entry :: rest => if queue.active < queue.limit then some (entry, rest) else none
  | [] => none

def start (entry : QueueEntry) (rest : List QueueEntry) : BoundedQueue :=
  { queue with
    pending := rest
    active := queue.active + 1
    started := queue.started ++ [entry]
    running := entry :: queue.running }

/-- What is done when a task has ended or failed, before the queue is drained. -/
def settle (entry : QueueEntry) : BoundedQueue :=
  { queue with
    entries := queue.entries.pop entry.key
    inflight := queue.inflight.pop entry.key
    active := queue.active - 1
    running := queue.running.erase entry }

def abandonPending (entry : QueueEntry) : BoundedQueue :=
  { queue with
    entries := queue.entries.pop entry.key
    inflight := queue.inflight.pop entry.key }

def cancel (key : String) : BoundedQueue :=
  match queue.entries.get? key with
  | none => queue
  | some entry =>
    let aborted := { queue with aborted := entry :: queue.aborted }
    if entry ∈ queue.started then aborted
    else { aborted with pending := queue.pending.erase entry }.abandonPending entry

def cancelAll : BoundedQueue :=
  queue.entries.keys.foldl cancel queue

end BoundedQueue

/-- A call that drains the queue: the task it has started, and the entry whose promise it registers
in the end, if it is a submission. -/
structure Frame where
  task : QueueEntry
  registers : Option QueueEntry

/-- A queue and the calls that are under way, the last one first. -/
structure QueueState where
  queue : BoundedQueue
  stack : List Frame := []

/-- `drain`, and what comes after it: a submission registers its promise and returns to the task
that called it; a task that ended at once returns to the call that started it, which drains on. -/
def drain (queue : BoundedQueue) : Option QueueEntry → List Frame → QueueState
  | registers, stack =>
    match queue.next? with
    | some (task, rest) =>
      { queue := queue.start task rest, stack := { task, registers } :: stack }
    | none =>
      match registers, stack with
      | some entry, stack => { queue := queue.register entry, stack }
      | none, [] => { queue }
      | none, frame :: below => drain queue frame.registers below

/-- What can happen. The last call's task calls the queue, comes to where it waits, or throws
before; with no call under way the queue is called from outside, or a task that was waiting ends or
fails. -/
inductive QueueEvent
  | submit (key : String)
  | cancel (key : String)
  | cancelAll
  | waits
  | throws
  | ends (entry : QueueEntry)

namespace QueueState

variable (state : QueueState)

def submit (key : String) : QueueState :=
  if (state.queue.inflight.get? key).isSome then state
  else drain (state.queue.enqueue key) (some (state.queue.entryOf key)) state.stack

def step : QueueEvent → Option QueueState
  | .submit key => some (state.submit key)
  | .cancel key => some { state with queue := state.queue.cancel key }
  | .cancelAll => some { state with queue := state.queue.cancelAll }
  | .waits =>
    match state.stack with
    | [] => none
    | frame :: below => some (drain state.queue frame.registers below)
  | .throws =>
    match state.stack with
    | [] => none
    | frame :: below => some (drain (state.queue.settle frame.task) none (frame :: below))
  | .ends entry =>
    match state.stack with
    | [] =>
      if entry ∈ state.queue.running then some (drain (state.queue.settle entry) none [])
      else none
    | _ :: _ => none

/-- The states that runs reach whose steps are all allowed. -/
inductive Reach (allowed : QueueState → QueueEvent → Prop) (limit : ℤ) : QueueState → Prop
  | new : Reach allowed limit { queue := BoundedQueue.new limit }
  | step {state next : QueueState} {event : QueueEvent} (reach : Reach allowed limit state)
      (allows : allowed state event) (steps : state.step event = some next) :
      Reach allowed limit next

end QueueState

end DataViz.Canvas
