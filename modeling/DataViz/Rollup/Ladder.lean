/-
# The pressure ladder

`_fetch_range`, `_fetch_batch_with_ladder` and `_write_rows_with_ladder` of
`falkordb_materialize.py`: a query that times out or is refused for memory is asked again for less.
A scan keeps a sticky width that halves when a query fails and doubles again when queries succeed; a
reconcile scan may change its strategy instead of its width.

What becomes of a query is up to a world outside, and so is the cap an operator sets on the running
job; a world may answer by anything that came before. Waits, heartbeats and cancelling are left out.
A log lists what a run did, in order.
-/

import Mathlib.Data.Int.Notation
import Mathlib.Data.Nat.Notation
import Mathlib.Data.Option.Basic

namespace DataViz.Rollup.Ladder

/-- What becomes of a query; `other` is a failure that is no pressure. -/
inductive Outcome
  | ok
  | timeout
  | memory
  | other
  deriving DecidableEq, Repr

/-- What a ladder raises: `MaterializationQueryMemoryExceeded`, `MaterializationScanTimedOut`, or
the failure of a query as it is. -/
inductive Failure
  | queryMemoryExceeded
  | scanTimedOut
  | raised (outcome : Outcome)
  deriving DecidableEq, Repr

/-- `_retry_at_floor`: `value` is what an attempt that succeeds returns. -/
def retryAtFloor {σ α : Type*} (attempt : σ → Outcome × σ) (value : σ → α) :
    ℕ → σ → Except Failure α × σ
  | 0, run => (.error .scanTimedOut, run)
  | retries + 1, run =>
    match attempt run with
    | (.ok, run) => (.ok (value run), run)
    | (.timeout, run) => retryAtFloor attempt value retries run
    | (outcome, run) => (.error (.raised outcome), run)

section

inductive Strategy
  | full
  | keysOnly
  deriving DecidableEq, Repr

/-- The settings of a run, and whether the scan is `reconcile:AGGREGATED`. -/
structure Knobs where
  floor : ℕ
  ceiling : ℕ
  keysOnlyWidth : ℕ
  retries : ℕ
  reconcile : Bool
  floor_pos : 1 ≤ floor

structure World (ω : Type*) where
  query : ω → ℕ → ℕ → Outcome × ω
  live : ω → Option ℤ

inductive Event
  | query (lo hi : ℕ) (outcome : Outcome)
  | narrowed (width : ℕ)
  | switched
  | grew (streak : ℕ)
  deriving DecidableEq, Repr

/-- What a run keeps between the queries of one scan. -/
structure Scan (ω : Type*) where
  world : ω
  /-- `_scan_subwidth` -/
  sticky : Option ℕ
  /-- `_scan_success_streak` -/
  streak : ℕ
  /-- `_scan_fail_width` of the scan's label -/
  failWidth : Option ℕ
  /-- `_reconcile_strategy` -/
  strategy : Strategy
  log : List Event

variable {ω ρ : Type*} (K : Knobs) (W : World ω) (rowsOf : Strategy → ℕ → List ρ) (scan : Scan ω)

def liveScanWidth : Option ℕ :=
  match W.live scan.world with
  | none => none
  | some width => if width = 0 then none else some (max (K.floor : ℤ) (min K.ceiling width)).toNat

def widthInForce : Option ℕ :=
  match liveScanWidth K W scan with
  | none => scan.sticky
  | some cap => some (match scan.sticky with
      | none => cap
      | some sticky => min sticky cap)

def nextScanWidth (sticky : Option ℕ) (ceiling : ℕ) (failWidth : Option ℕ) (streak : ℕ) :
    Option ℕ :=
  sticky.bind fun sticky =>
    if streak < 8 then some sticky
    else
      let doubled := sticky * 2
      if failWidth.any (· ≤ doubled) ∧ streak < 64 then some sticky
      else if ceiling ≤ doubled then none else some doubled

def settle : Scan ω :=
  let streak := scan.streak + 1
  let next := nextScanWidth scan.sticky K.ceiling scan.failWidth streak
  if next = scan.sticky then { scan with streak }
  else { scan with sticky := next, streak := 0, log := scan.log ++ [.grew streak] }

def shrinkScanWidth (width : ℕ) : Scan ω :=
  let half := max K.floor (width / 2)
  { scan with
    sticky := some (match scan.sticky with
      | none => half
      | some sticky => if half < sticky then half else sticky)
    streak := 0
    failWidth := some (min width (scan.failWidth.getD width))
    log := scan.log ++ [.narrowed width] }

def switchStrategy : Scan ω :=
  { scan with strategy := .keysOnly, streak := 0, log := scan.log ++ [.switched] }

def ask (lo hi : ℕ) (scan : Scan ω) : Outcome × Scan ω :=
  let (outcome, world) := W.query scan.world lo hi
  (outcome, { scan with world, log := scan.log ++ [.query lo hi outcome] })

def rowsBetween (strategy : Strategy) (lo hi : ℕ) : List ρ :=
  (List.range' lo (hi - lo)).flatMap (rowsOf strategy)

mutual

/-- `_fetch_range`, of so many calls within each other. -/
def fetchRange : ℕ → ℕ → ℕ → Scan ω → Option (Except Failure (List ρ) × Scan ω)
  | 0, _, _, _ => none
  | depth + 1, lo, hi, scan =>
    let width := hi - lo
    match (widthInForce K W scan).filter (· < width) with
    | some sticky => walkRange depth sticky lo hi scan
    | none =>
      match ask W lo hi scan with
      | (.ok, scan) => some (.ok (rowsBetween rowsOf scan.strategy lo hi), settle K scan)
      | (.other, scan) => some (.error (.raised .other), scan)
      | (kind, scan) => underPressure depth lo hi kind scan
termination_by structural depth => depth

/-- What `_fetch_range` does after a query that timed out or was refused. -/
def underPressure : ℕ → ℕ → ℕ → Outcome → Scan ω → Option (Except Failure (List ρ) × Scan ω)
  | 0, _, _, _, _ => none
  | depth + 1, lo, hi, kind, scan =>
    let width := hi - lo
    if K.reconcile ∧ scan.strategy = .full ∧ max K.floor (width / 2) ≤ K.keysOnlyWidth then
      fetchRange depth lo hi (switchStrategy scan)
    else if K.floor < width then fetchRange depth lo hi (shrinkScanWidth K scan width)
    else if kind = .memory then some (.error .queryMemoryExceeded, scan)
    else
      let rows (scan : Scan ω) := rowsBetween rowsOf scan.strategy lo hi
      match retryAtFloor (ask W lo hi) rows K.retries scan with
      | (.ok rows, scan) => some (.ok rows, settle K scan)
      | failed => some failed
termination_by structural depth => depth

/-- The loop over sub-ranges of the width that was in force. -/
def walkRange : ℕ → ℕ → ℕ → ℕ → Scan ω → Option (Except Failure (List ρ) × Scan ω)
  | 0, _, _, _, _ => none
  | depth + 1, sticky, cur, hi, scan =>
    if cur < hi then
      (fetchRange depth cur (min (cur + sticky) hi) scan).bind fun
        | (.ok rows, scan) =>
          (walkRange depth sticky (min (cur + sticky) hi) hi scan).map fun
            | (.ok more, scan) => (.ok (rows ++ more), scan)
            | failed => failed
        | failed => some failed
    else some (.ok [], scan)
termination_by structural depth => depth

end

end

section

structure StickyCap where
  value : Option ℕ
  floor : ℕ
  streak : ℕ
  shrinks : ℕ
  minimum : Option ℕ
  deriving DecidableEq, Repr

def StickyCap.shrink (cap : StickyCap) (current : ℕ) : StickyCap :=
  let half := max cap.floor (current / 2)
  let least (old : Option ℕ) := match old with
    | none => half
    | some old => if half < old then half else old
  { cap with
    value := some (least cap.value)
    minimum := some (least cap.minimum)
    shrinks := cap.shrinks + 1
    streak := 0 }

def StickyCap.noteSuccess (cap : StickyCap) : StickyCap :=
  match cap.value with
  | none => cap
  | some value =>
    if 8 ≤ cap.streak + 1 then { cap with streak := 0, value := some (value * 2) }
    else { cap with streak := cap.streak + 1 }

/-- What a run keeps between the queries of a list; `done` is what those that succeeded read or
wrote. -/
structure Batches (ω κ : Type*) where
  world : ω
  cap : StickyCap
  done : List κ
  log : List (List κ × Outcome)

variable {ω κ ρ : Type*} (query : ω → List κ → Outcome × ω) (rowsOf : κ → List ρ) (retries : ℕ)

def issue (batch : List κ) (run : Batches ω κ) : Outcome × Batches ω κ :=
  let (outcome, world) := query run.world batch
  (outcome, { run with
    world
    done := if outcome = .ok then run.done ++ batch else run.done
    log := run.log ++ [(batch, outcome)] })

/-- `_fetch_batch_with_ladder`, of so many calls within each other. -/
def fetchBatchWithLadder : ℕ → List κ → Batches ω κ → Option (Except Failure (List ρ) × Batches ω κ)
  | 0, _, _ => none
  | depth + 1, batch, run =>
    match issue query batch run with
    | (.ok, run) => some (.ok (batch.flatMap rowsOf), run)
    | (.other, run) => some (.error (.raised .other), run)
    | (kind, run) =>
      if 1 < batch.length then
        let mid := batch.length / 2
        let run := { run with cap := run.cap.shrink batch.length }
        (fetchBatchWithLadder depth (batch.take mid) run).bind fun
          | (.ok rows, run) =>
            (fetchBatchWithLadder depth (batch.drop mid) run).map fun
              | (.ok more, run) => (.ok (rows ++ more), run)
              | failed => failed
          | failed => some failed
      else if kind = .memory then some (.error .queryMemoryExceeded, run)
      else some (retryAtFloor (issue query batch) (fun _ => batch.flatMap rowsOf) retries run)

/-- `_write_rows_with_ladder`, of so many calls within each other. -/
def writeRowsWithLadder : ℕ → List κ → Batches ω κ → Option (Except Failure Unit × Batches ω κ)
  | 0, _, _ => none
  | depth + 1, rows, run =>
    if rows = [] then some (.ok (), run)
    else
      match issue query rows run with
      | (.ok, run) => some (.ok (), { run with cap := run.cap.noteSuccess })
      | (.other, run) => some (.error (.raised .other), run)
      | (kind, run) =>
        if ¬rows.length ≤ run.cap.floor ∧ 1 < rows.length then
          let cap := run.cap.shrink rows.length
          let mid := max 1 (min (cap.value.getD 0) (rows.length - 1))
          (writeRowsWithLadder depth (rows.take mid) { run with cap }).bind fun
            | (.ok (), run) => writeRowsWithLadder depth (rows.drop mid) run
            | failed => some failed
        else if kind = .memory then some (.error .queryMemoryExceeded, run)
        else
          match retryAtFloor (issue query rows) (fun _ => ()) retries run with
          | (.ok (), run) => some (.ok (), { run with cap := run.cap.noteSuccess })
          | failed => some failed

end

end DataViz.Rollup.Ladder
