/-
# Writers on one branch

A save reads the current values of the entities its batch names, computes their
new values, and writes the net changes in one transaction guarded by the head
pointers. A write that finds a head moved raises `_StaleHead`: the transaction
rolls back, and `_retry_seq` runs the save again from its read, a bounded number
of times. Saves also take the branch's lock before they read; `locking` turns it
off, to see what the guard alone keeps.

A schedule names the writer that moves next, so every interleaving of the reads,
computations and writes is one.
-/

import DataViz.Versioning.VersionStoreLaws

namespace DataViz.Versioning

/-- A batch: the entities it names, their new values as a function of the current
ones, and the kinds they are recorded under. -/
structure Batch where
  ids : List EntityId
  compute : (EntityId → Option Payload) → EntityId → Option (Option Payload)
  kindByEntity : Dict EntityId Kind

inductive Phase
  | idle
  | read (curVals : State)
  | computed (curVals newVals : State)
  | committed
  | unchanged
  | exhausted

/-- The shared tables, with the commits that filled them, the branch's head commit
and lock, and the writers' own states. `log` lists who committed, in order, with
the entities each wrote. -/
structure World (η ι : Type) where
  history : List (Commit η)
  store : VersionStore η
  headCommit : Option ℕ
  lock : Option ι
  phase : ι → Phase
  attempts : ι → ℕ
  log : List (ι × List EntityId)

/-- The writers of a branch. Its reads compose the base layers under its own rows. -/
structure Writers (η ι : Type) where
  contentHash : Option Payload → η
  branch : BranchKey
  baseLayers : List (BranchKey × ℕ)
  batch : ι → Batch
  locking : Bool
  maxRetries : ℕ

/-- The last `commit_seq` of a branch, or zero. -/
def newestSeq {η : Type} (history : List (Commit η)) (branch : BranchKey) : ℕ :=
  ((history.filter fun commit => commit.branch = branch).map Commit.seq).foldl max 0

namespace Writers

variable {η ι : Type} [DecidableEq η] (writers : Writers η ι)

/-- `net_delta({k: cur_vals.get(k) for k in new_vals}, new_vals)`. -/
def deltas (curVals newVals : State) : List (Delta η) :=
  netDelta writers.contentHash
    (Dict.ofKeys newVals.keys fun eid => some (curVals.get? eid).join) newVals

def commitOf (world : World η ι) (w : ι) (curVals newVals : State) : Commit η where
  branch := writers.branch
  seq := newestSeq world.history writers.branch + 1
  deltas := writers.deltas curVals newVals
  kindByEntity := (writers.batch w).kindByEntity
  now := 0
  nodup := nodup_netDelta _ _
  payload_iff _ hd := payload_deltaOf (mem_netDelta.mp hd)

def newVals (w : ι) (curVals : State) : State :=
  Dict.ofKeys (writers.batch w).ids.dedup
    ((writers.batch w).compute fun eid => (curVals.get? eid).join)

variable [DecidableEq ι]

def step (world : World η ι) (w : ι) : World η ι :=
  match world.phase w with
  | .idle =>
    if writers.locking ∧ world.lock ≠ none then world
    else
      let layers :=
        (writers.branch, newestSeq world.history writers.branch) :: writers.baseLayers
      let curVals := valuesAt world.store layers (writers.batch w).ids
      { world with
        lock := if writers.locking then some w else none
        phase := Function.update world.phase w (.read curVals) }
  | .read curVals =>
    let newVals := writers.newVals w curVals
    if writers.deltas curVals newVals = [] then
      { world with
        lock := none
        phase := Function.update world.phase w .unchanged }
    else { world with phase := Function.update world.phase w (.computed curVals newVals) }
  | .computed curVals newVals =>
    let commit := writers.commitOf world w curVals newVals
    match writeDeltas writers.contentHash world.store commit true with
    | .ok store =>
      { history := world.history ++ [commit]
        store := store
        headCommit := some commit.seq
        lock := none
        phase := Function.update world.phase w .committed
        attempts := world.attempts
        log := world.log ++ [(w, commit.deltas.map Delta.entityId)] }
    | .error _ =>
      -- The transaction rolls back; `_retry_seq` runs the save again, or gives up.
      let attempts := world.attempts w + 1
      { world with
        lock := none
        phase := Function.update world.phase w
          (if writers.maxRetries ≤ attempts then .exhausted else .idle)
        attempts := Function.update world.attempts w attempts }
  | .committed => world
  | .unchanged => world
  | .exhausted => world

def run (start : World η ι) (schedule : List ι) : World η ι :=
  schedule.foldl writers.step start

end Writers

end DataViz.Versioning
