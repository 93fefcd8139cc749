/-
# The ladder loses and repeats nothing

Whatever becomes of the queries, a scan ends, and when it returns it has returned what its range
holds, read by the queries that succeeded, end to end. A width that failed and was narrowed bars all
widths from it on until the scan has grown after 64 successes.
-/

import DataViz.Data.Tiling
import DataViz.Rollup.Ladder
import Mathlib.Order.MinMax

namespace DataViz.Rollup.Ladder

open List Option

/-! ## Retrying -/

section

variable {σ α ε : Type*} {attempt : σ → Outcome × σ} (value : σ → α) (log : σ → List ε)
  (event : Outcome → ε) {kept : σ → Prop}

theorem retryAtFloor_spec (logs : ∀ run, log (attempt run).2 = log run ++ [event (attempt run).1])
    (keeps : ∀ run, kept run → (attempt run).1 ≠ .ok → kept (attempt run).2) (retries : ℕ)
    {run : σ} (here : kept run) :
    ∃ result after events, retryAtFloor attempt value retries run = (result, after) ∧
      log after = log run ++ events ∧
      match result with
      | .ok returned => returned = value after ∧
          (∃ before, kept before ∧ attempt before = (.ok, after)) ∧
          ∃ times, events = replicate times (event .timeout) ++ [event .ok]
      | .error .scanTimedOut => kept after ∧ events = replicate retries (event .timeout)
      | .error .queryMemoryExceeded => False
      | .error (.raised outcome) => kept after ∧ (outcome = .other ∨ outcome = .memory) ∧
          ∃ front, events = front ++ [event outcome] := by
  induction retries generalizing run with
  | zero => exact ⟨_, run, [], rfl, (append_nil _).symm, here, rfl⟩
  | succ retries ih =>
    have logged := logs run
    have after := keeps run here
    rw [retryAtFloor]
    cases tried : attempt run with
    | mk outcome next =>
      rw [tried] at logged after
      cases outcome with
      | ok => exact ⟨_, next, _, rfl, logged, rfl, ⟨run, here, tried⟩, 0, rfl⟩
      | timeout =>
        obtain ⟨result, last, events, ran, rest, tells⟩ := ih (after nofun)
        refine ⟨result, last, event .timeout :: events, ran, ?_, ?_⟩
        · rw [rest, logged, append_assoc, singleton_append]
        · cases result with
          | ok returned =>
            obtain ⟨same, ended, times, rfl⟩ := tells
            exact ⟨same, ended, times + 1, rfl⟩
          | error failure =>
            cases failure with
            | scanTimedOut =>
              obtain ⟨kept', rfl⟩ := tells
              exact ⟨kept', rfl⟩
            | queryMemoryExceeded => exact tells
            | raised outcome =>
              obtain ⟨kept', which, front, rfl⟩ := tells
              exact ⟨kept', which, event .timeout :: front, rfl⟩
      | memory => exact ⟨_, next, _, rfl, logged, after nofun, .inr rfl, [], rfl⟩
      | other => exact ⟨_, next, _, rfl, logged, after nofun, .inl rfl, [], rfl⟩

end

/-! ## Widths that are barred -/

section

variable {K : Knobs} {ω : Type*} {scan : Scan ω}

/-- The narrowest width that failed and was narrowed, since the last growth after 64 successes. -/
def barred (log : List Event) : Option ℕ :=
  log.foldl (fun bar event =>
    match event with
    | .narrowed width => some (min width (bar.getD width))
    | .grew streak => if 64 ≤ streak then none else bar
    | _ => bar) none

/-- No query of a log is as wide as a width that was barred. -/
def Obeys (log : List Event) : Prop :=
  ∀ front lo hi outcome back, log = front ++ .query lo hi outcome :: back →
    ∀ width, barred front = some width → hi - lo < width

theorem barred_append (log : List Event) (event : Event) :
    barred (log ++ [event]) = match event with
      | .narrowed width => some (min width ((barred log).getD width))
      | .grew streak => if 64 ≤ streak then none else barred log
      | _ => barred log :=
  foldl_append

theorem Obeys.nil : Obeys [] := by
  intro front lo hi outcome back split
  cases front <;> cases split

theorem Obeys.append {log : List Event} (obeys : Obeys log) {event : Event}
    (fits : ∀ lo hi outcome, event = .query lo hi outcome →
      ∀ width, barred log = some width → hi - lo < width) : Obeys (log ++ [event]) := by
  intro front lo hi outcome back split width bar
  rcases append_eq_append_iff.1 split with ⟨more, rfl, rest⟩ | ⟨more, rfl, rest⟩
  · cases more with
    | nil =>
      obtain ⟨rfl, -⟩ := cons.inj rest
      rw [append_nil] at bar
      exact fits lo hi outcome rfl width bar
    | cons other more => simp at rest
  · cases more with
    | nil =>
      obtain ⟨rfl, -⟩ := cons.inj rest
      exact fits lo hi outcome rfl width (by simpa using bar)
    | cons other more =>
      obtain ⟨rfl, -⟩ := cons.inj rest
      exact obeys front lo hi outcome more rfl width bar

/-- The widest query that the sticky width lets through, of those no wider than the setting. -/
def allowed (K : Knobs) (scan : Scan ω) : ℕ :=
  scan.sticky.getD K.ceiling

/-- What holds of a run: while a width is barred, the sticky width is below it, and so is the growth
that the width which failed lets through. -/
structure Held (K : Knobs) (scan : Scan ω) : Prop where
  obeys : Obeys scan.log
  below : ∀ width, barred scan.log = some width →
    allowed K scan < width ∧ ∃ failed, scan.failWidth = some failed ∧ failed ≤ width

theorem Held.fresh (log : scan.log = []) : Held K scan where
  obeys := log ▸ Obeys.nil
  below width bar := by
    rw [log] at bar
    cases bar

theorem Held.ask (held : Held K scan) (W : World ω) {lo hi : ℕ} (fits : hi - lo ≤ allowed K scan) :
    Held K (ask W lo hi scan).2 where
  obeys := by
    refine held.obeys.append fun lo' hi' outcome same width bar => ?_
    obtain ⟨rfl, rfl, -⟩ := Event.query.inj same
    exact fits.trans_lt (held.below width bar).1
  below width bar := by
    refine held.below width ?_
    rwa [Ladder.ask, barred_append] at bar

theorem Held.switchStrategy (held : Held K scan) : Held K (switchStrategy scan) where
  obeys := held.obeys.append nofun
  below width bar := held.below width (by rwa [Ladder.switchStrategy, barred_append] at bar)

theorem Held.shrinkScanWidth (held : Held K scan) {width : ℕ} (wide : K.floor < width)
    (fits : width ≤ allowed K scan) : Held K (shrinkScanWidth K scan width) where
  obeys := held.obeys.append nofun
  below bar set := by
    rw [Ladder.shrinkScanWidth, barred_append] at set
    obtain rfl := some.inj set
    have half : max K.floor (width / 2) < width := by omega
    have narrower : allowed K (Ladder.shrinkScanWidth K scan width) < width ∧
        allowed K (Ladder.shrinkScanWidth K scan width) ≤ allowed K scan := by
      simp only [allowed, Ladder.shrinkScanWidth, getD_some] at fits ⊢
      cases held : scan.sticky with
      | none =>
        rw [held] at fits
        exact ⟨half, half.le.trans fits⟩
      | some sticky =>
        dsimp only [getD_some] at fits ⊢
        split <;> omega
    cases old : barred scan.log with
    | none =>
      refine ⟨?_, _, rfl, ?_⟩
      · rw [getD_none, Nat.min_self]
        exact narrower.1
      · rw [getD_none, Nat.min_self]
        exact Nat.min_le_left _ _
    | some width' =>
      obtain ⟨below, failed, failedBefore, le⟩ := held.below width' old
      refine ⟨?_, _, rfl, ?_⟩
      · exact lt_min narrower.1 (narrower.2.trans_lt below)
      · rw [failedBefore]
        exact min_le_min (le_refl _) le

theorem Held.settle (held : Held K scan) : Held K (settle K scan) := by
  rw [Ladder.settle]
  split
  case isTrue => exact ⟨held.obeys, held.below⟩
  case isFalse changed =>
    refine ⟨held.obeys.append nofun, fun width bar => ?_⟩
    rw [barred_append] at bar
    dsimp only at bar
    split at bar
    case isTrue => cases bar
    case isFalse short =>
      obtain ⟨below, failed, failedBefore, le⟩ := held.below width bar
      refine ⟨?_, failed, failedBefore, le⟩
      have streak : scan.streak + 1 < 64 := by omega
      cases sticky : scan.sticky with
      | none =>
        rw [sticky] at changed
        exact absurd rfl changed
      | some s =>
        simp only [nextScanWidth, sticky, bind_some, failedBefore, any_some, streak,
          and_true, decide_eq_true_eq] at changed ⊢
        split at changed
        case isTrue => exact absurd rfl changed
        case isFalse long =>
          split at changed
          case isTrue => exact absurd rfl changed
          case isFalse room =>
            simp only [allowed, if_neg long, if_neg room]
            split <;> simp only [getD_none, getD_some] <;> omega

end

/-! ## What a scan reads -/

section

variable {K : Knobs} {W : World ω} {rowsOf : Strategy → ℕ → List ρ} {lo mid hi : ℕ}

def answered (events : List Event) : List (ℕ × ℕ) :=
  events.filterMap fun
    | .query lo hi .ok => some (lo, hi)
    | _ => none

theorem answered_append (events more : List Event) :
    answered (events ++ more) = answered events ++ answered more :=
  filterMap_append

/-- Rows are what the queries that succeeded read, each under some strategy, and these queries tile
the range. -/
def Read (rowsOf : Strategy → ℕ → List ρ) (lo hi : ℕ) (events : List Event) (rows : List ρ) :
    Prop :=
  Tiles lo (answered events) hi ∧ ∃ parts : List (Strategy × ℕ × ℕ),
    parts.map Prod.snd = answered events ∧
      rows = parts.flatMap fun part => rowsBetween rowsOf part.1 part.2.1 part.2.2

theorem Read.append {events more : List Event} {rows rows' : List ρ}
    (first : Read rowsOf lo mid events rows) (second : Read rowsOf mid hi more rows') :
    Read rowsOf lo hi (events ++ more) (rows ++ rows') := by
  obtain ⟨tiles, parts, own, rfl⟩ := first
  obtain ⟨tiles', parts', own', rfl⟩ := second
  refine ⟨answered_append _ _ ▸ tiles.append tiles', parts ++ parts', ?_, ?_⟩
  · rw [map_append, own, own', answered_append]
  · rw [flatMap_append]

theorem Read.single (le : lo ≤ hi) (strategy : Strategy) :
    Read rowsOf lo hi [.query lo hi .ok] (rowsBetween rowsOf strategy lo hi) :=
  ⟨Tiles.single le, [(strategy, lo, hi)], rfl, (append_nil _).symm⟩

theorem answered_timeouts (times : ℕ) :
    answered (List.replicate times (.query lo hi .timeout)) = [] := by
  induction times with
  | zero => rfl
  | succ times ih => exact ih

theorem Read.retried (rowsOf : Strategy → ℕ → List ρ) (le : lo ≤ hi) (strategy : Strategy)
    (times : ℕ) :
    Read rowsOf lo hi (List.replicate times (.query lo hi .timeout) ++ [.query lo hi .ok])
      (rowsBetween rowsOf strategy lo hi) := by
  have nothing : Read rowsOf lo lo (replicate times (.query lo hi .timeout)) [] :=
    ⟨(answered_timeouts times).symm ▸ rfl, [], (answered_timeouts times).symm, rfl⟩
  exact nothing.append (Read.single le strategy)

/-- Why a scan fails: a query at the floor failed for good, or a failure is no pressure. -/
def FailsWith (K : Knobs) : Failure → List Event → Prop
  | .queryMemoryExceeded, events =>
    ∃ front lo hi, events = front ++ [.query lo hi .memory] ∧ hi - lo ≤ K.floor
  | .scanTimedOut, events =>
    ∃ front lo hi, events = front ++ List.replicate (K.retries + 1) (.query lo hi .timeout) ∧
      hi - lo ≤ K.floor
  | .raised outcome, events =>
    ∃ front lo hi, events = front ++ [.query lo hi outcome] ∧
      (outcome = .other ∨ outcome = .memory ∧ hi - lo ≤ K.floor)

theorem FailsWith.prepend {failure : Failure} {events : List Event}
    (fails : FailsWith K failure events) (front : List Event) :
    FailsWith K failure (front ++ events) := by
  cases failure with
  | queryMemoryExceeded =>
    obtain ⟨front', lo, hi, rfl, rest⟩ := fails
    exact ⟨front ++ front', lo, hi, (append_assoc _ _ _).symm, rest⟩
  | scanTimedOut =>
    obtain ⟨front', lo, hi, rfl, rest⟩ := fails
    exact ⟨front ++ front', lo, hi, (append_assoc _ _ _).symm, rest⟩
  | raised outcome =>
    obtain ⟨front', lo, hi, rfl, rest⟩ := fails
    exact ⟨front ++ front', lo, hi, (append_assoc _ _ _).symm, rest⟩

def Tells (K : Knobs) (rowsOf : Strategy → ℕ → List ρ) (lo hi : ℕ) (events : List Event) :
    Except Failure (List ρ) → Prop
  | .ok rows => Read rowsOf lo hi events rows
  | .error failure => FailsWith K failure events

def Positive (scan : Scan ω) : Prop :=
  ∀ sticky, scan.sticky = some sticky → 1 ≤ sticky

structure Fetched (K : Knobs) (rowsOf : Strategy → ℕ → List ρ) (lo hi : ℕ)
    (before after : Scan ω) (result : Except Failure (List ρ)) : Prop where
  positive : Positive after
  held : hi - lo ≤ K.ceiling → Held K before → Held K after
  ran : ∃ events, after.log = before.log ++ events ∧ Tells K rowsOf lo hi events result

theorem Fetched.after {before next after : Scan ω} {result : Except Failure (List ρ)}
    (fetched : Fetched K rowsOf lo hi next after result) (front : List Event)
    (log : next.log = before.log ++ front) (failed : answered front = [])
    (held : hi - lo ≤ K.ceiling → Held K before → Held K next) :
    Fetched K rowsOf lo hi before after result where
  positive := fetched.positive
  held narrow old := fetched.held narrow (held narrow old)
  ran := by
    obtain ⟨events, ran, tells⟩ := fetched.ran
    refine ⟨front ++ events, by rw [ran, log, append_assoc], ?_⟩
    cases result with
    | ok rows =>
      obtain ⟨tiles, parts, own, made⟩ := tells
      have same : answered (front ++ events) = answered events := by
        rw [answered_append, failed, nil_append]
      exact ⟨same ▸ tiles, parts, same ▸ own, made⟩
    | error failure => exact tells.prepend front

theorem Fetched.fail {before after : Scan ω} {failure : Failure}
    (fetched : Fetched K rowsOf lo mid before after (.error failure)) (le : mid ≤ hi) :
    Fetched K rowsOf lo hi before after (.error failure) where
  positive := fetched.positive
  held narrow := fetched.held (by omega)
  ran := fetched.ran

/-- A sub-range and the rest. -/
theorem Fetched.append {before next after : Scan ω} {rows : List ρ}
    {result : Except Failure (List ρ)} (first : Fetched K rowsOf lo mid before next (.ok rows))
    (second : Fetched K rowsOf mid hi next after result) (left : lo ≤ mid) (right : mid ≤ hi) :
    Fetched K rowsOf lo hi before after (result.map (rows ++ ·)) where
  positive := second.positive
  held narrow old := second.held (by omega) (first.held (by omega) old)
  ran := by
    obtain ⟨events, ran, tells⟩ := first.ran
    obtain ⟨more, ran', tells'⟩ := second.ran
    refine ⟨events ++ more, by rw [ran', ran, append_assoc], ?_⟩
    cases result with
    | ok rows' => exact Read.append tells tells'
    | error failure => exact tells'.prepend events

variable {scan : Scan ω}

theorem Positive.settle (positive : Positive scan) : Positive (settle K scan) := by
  intro sticky set
  rw [Ladder.settle] at set
  split at set
  case isTrue => exact positive sticky set
  case isFalse =>
    obtain ⟨old, here, next⟩ := bind_eq_some_iff.1 set
    have bound := positive old here
    dsimp only at next
    split at next
    · exact some.inj next ▸ bound
    · split at next
      · exact some.inj next ▸ bound
      · split at next
        · cases next
        · obtain rfl := some.inj next
          omega

theorem Positive.shrinkScanWidth (positive : Positive scan) (width : ℕ) :
    Positive (shrinkScanWidth K scan width) := by
  intro sticky set
  have half : 1 ≤ max K.floor (width / 2) := K.floor_pos.trans (Nat.le_max_left _ _)
  obtain rfl := some.inj set
  cases here : scan.sticky with
  | none => exact half
  | some old =>
    have bound := positive old here
    dsimp only
    split
    · exact half
    · exact bound

theorem widthInForce_spec (positive : Positive scan) {width : ℕ}
    (inForce : widthInForce K W scan = some width) :
    1 ≤ width ∧ ∀ sticky, scan.sticky = some sticky → width ≤ sticky := by
  have floor := K.floor_pos
  have live : ∀ cap, liveScanWidth K W scan = some cap → 1 ≤ cap := by
    intro cap set
    rw [liveScanWidth] at set
    split at set
    · cases set
    · split at set
      · cases set
      · obtain rfl := some.inj set
        omega
  rw [widthInForce] at inForce
  split at inForce
  case h_1 =>
    refine ⟨positive width inForce, fun sticky here => ?_⟩
    rw [here] at inForce
    exact (some.inj inForce).ge
  case h_2 cap set =>
    have low := live cap set
    obtain rfl := some.inj inForce
    cases here : scan.sticky with
    | none => exact ⟨low, nofun⟩
    | some sticky =>
      have bound := positive sticky here
      refine ⟨le_min bound low, fun other same => ?_⟩
      obtain rfl := some.inj same
      exact min_le_left _ _

/-- A query that is asked as it is fits the sticky width. -/
theorem le_allowed (positive : Positive scan) {width : ℕ}
    (whole : (widthInForce K W scan).filter (· < width) = none) (narrow : width ≤ K.ceiling) :
    width ≤ allowed K scan := by
  rw [allowed]
  cases here : scan.sticky with
  | none => exact narrow
  | some sticky =>
    cases inForce : widthInForce K W scan with
    | none =>
      rw [widthInForce] at inForce
      split at inForce
      · rw [here] at inForce
        cases inForce
      · cases inForce
    | some bound =>
      rw [inForce, filter_eq_none_iff] at whole
      have wide := whole bound rfl
      have under := (widthInForce_spec positive inForce).2 sticky here
      rw [decide_eq_true_eq] at wide
      exact (not_lt.1 wide).trans under

end

/-! ## Scans end -/

section

variable {K : Knobs} {W : World ω} {rowsOf : Strategy → ℕ → List ρ} {lo hi : ℕ}

def Ends (K : Knobs) (W : World ω) (rowsOf : Strategy → ℕ → List ρ) (lo hi : ℕ)
    (scan : Scan ω) : Prop :=
  ∃ enough result after,
    (∀ depth, enough ≤ depth → fetchRange K W rowsOf depth lo hi scan = some (result, after)) ∧
    Fetched K rowsOf lo hi scan after result

theorem walkRange_ends {sticky : ℕ} (wide : 1 ≤ sticky)
    (each : ∀ lo hi (scan : Scan ω), lo ≤ hi → hi - lo ≤ sticky → Positive scan →
      Ends K W rowsOf lo hi scan) (left cur : ℕ) (le : cur ≤ hi) (few : hi - cur ≤ left)
    (scan : Scan ω) (positive : Positive scan) :
    ∃ enough result after, (∀ depth, enough ≤ depth →
        walkRange K W rowsOf depth sticky cur hi scan = some (result, after)) ∧
      Fetched K rowsOf cur hi scan after result := by
  induction left generalizing cur scan with
  | zero =>
    have done : cur = hi := by omega
    subst done
    refine ⟨1, .ok [], scan, fun depth enough => ?_, positive, fun _ => id, [],
      (append_nil _).symm, rfl, [], rfl, rfl⟩
    obtain ⟨more, rfl⟩ := Nat.exists_eq_add_of_le' enough
    rw [walkRange, if_neg (lt_irrefl cur)]
  | succ left ih =>
    by_cases more : cur < hi
    · let mid := min (cur + sticky) hi
      have before : cur ≤ mid := by omega
      have under : mid ≤ hi := Nat.min_le_right _ _
      obtain ⟨enough, result, next, ran, fetched⟩ :=
        each cur mid scan before (by omega) positive
      cases result with
      | error failure =>
        refine ⟨enough + 1, .error failure, next, fun depth large => ?_, fetched.fail under⟩
        obtain ⟨depth, rfl⟩ := Nat.exists_eq_add_of_le' (Nat.one_le_of_lt large)
        rw [walkRange, if_pos more, ran depth (by omega)]
        rfl
      | ok rows =>
        obtain ⟨enough', rest, after, ran', fetched'⟩ :=
          ih mid under (by omega) next fetched.positive
        refine ⟨max enough enough' + 1, rest.map (rows ++ ·), after, fun depth large => ?_,
          fetched.append fetched' before under⟩
        obtain ⟨depth, rfl⟩ := Nat.exists_eq_add_of_le' (Nat.one_le_of_lt large)
        rw [walkRange, if_pos more, ran depth (by omega)]
        show (walkRange K W rowsOf depth sticky mid hi next).map _ = _
        rw [ran' depth (by omega)]
        cases rest <;> rfl
    · have done : cur = hi := by omega
      subst done
      refine ⟨1, .ok [], scan, fun depth enough => ?_, positive, fun _ => id, [],
        (append_nil _).symm, rfl, [], rfl, rfl⟩
      obtain ⟨more, rfl⟩ := Nat.exists_eq_add_of_le' enough
      rw [walkRange, if_neg (lt_irrefl cur)]

variable {scan : Scan ω}

theorem ends_of_narrower {sticky : ℕ}
    (narrower : (widthInForce K W scan).filter (· < hi - lo) = some sticky)
    (each : ∀ lo' hi' (scan : Scan ω), lo' ≤ hi' → hi' - lo' < hi - lo → Positive scan →
      Ends K W rowsOf lo' hi' scan)
    (le : lo ≤ hi) (positive : Positive scan) : Ends K W rowsOf lo hi scan := by
  obtain ⟨inForce, less⟩ := filter_eq_some_iff.1 narrower
  rw [decide_eq_true_eq] at less
  have wide : 1 ≤ sticky := (widthInForce_spec positive inForce).1
  have below : ∀ lo' hi' (scan : Scan ω), lo' ≤ hi' → hi' - lo' ≤ sticky → Positive scan →
      Ends K W rowsOf lo' hi' scan := fun lo' hi' scan le few => each lo' hi' scan le (by omega)
  obtain ⟨enough, result, after, ran, fetched⟩ :=
    walkRange_ends wide below _ lo le (le_refl _) scan positive
  refine ⟨enough + 1, result, after, fun depth large => ?_, fetched⟩
  obtain ⟨depth, rfl⟩ := Nat.exists_eq_add_of_le' (Nat.one_le_of_lt large)
  rw [fetchRange]
  simp only [narrower]
  exact ran depth (by omega)

theorem settle_log (scan : Scan ω) :
    ∃ events, (settle K scan).log = scan.log ++ events ∧ answered events = [] := by
  rw [settle]
  split
  · exact ⟨[], (append_nil _).symm, rfl⟩
  · exact ⟨_, rfl, rfl⟩

/-- A scan whose last query succeeded. -/
theorem Fetched.settle {before after : Scan ω} {rows : List ρ}
    (fetched : Fetched K rowsOf lo hi before after (.ok rows)) :
    Fetched K rowsOf lo hi before (settle K after) (.ok rows) where
  positive := fetched.positive.settle
  held narrow old := (fetched.held narrow old).settle
  ran := by
    obtain ⟨events, ran, tells⟩ := fetched.ran
    obtain ⟨more, log, none⟩ := settle_log (K := K) after
    have nothing : Read rowsOf hi hi more [] := ⟨none ▸ rfl, [], none.symm, rfl⟩
    refine ⟨events ++ more, by rw [log, ran, append_assoc], ?_⟩
    have whole := Read.append tells nothing
    rwa [append_nil] at whole

/-- After a failure that is narrowed, the width in force is less than the width that failed. -/
theorem inForce_shrinkScanWidth (positive : Positive scan) {width : ℕ} (wide : K.floor < width) :
    ∃ sticky, (widthInForce K W (shrinkScanWidth K scan width)).filter (· < width) =
      some sticky := by
  have half : max K.floor (width / 2) < width := by omega
  obtain ⟨sticky, set, narrow⟩ :
      ∃ sticky, (shrinkScanWidth K scan width).sticky = some sticky ∧ sticky < width := by
    refine ⟨_, rfl, ?_⟩
    cases scan.sticky with
    | none => exact half
    | some old =>
      dsimp only
      split <;> omega
  cases inForce : widthInForce K W (shrinkScanWidth K scan width) with
  | none =>
    rw [widthInForce] at inForce
    split at inForce
    · cases inForce
    · cases inForce
  | some bound =>
    have under := (widthInForce_spec (positive.shrinkScanWidth width) inForce).2 sticky set
    exact ⟨bound, filter_eq_some_iff.2 ⟨rfl, decide_eq_true (under.trans_lt narrow)⟩⟩

theorem ask_spec {kind : Outcome} {next : Scan ω} (asked : ask W lo hi scan = (kind, next)) :
    next.log = scan.log ++ [.query lo hi kind] ∧ next.sticky = scan.sticky ∧
      next.strategy = scan.strategy := by
  obtain ⟨rfl, rfl⟩ := Prod.mk.inj asked
  exact ⟨rfl, rfl, rfl⟩

section

variable
  (again : ∀ next : Scan ω, Positive next → next.strategy = scan.strategy →
    next.strategy = .full → Ends K W rowsOf lo hi (switchStrategy next))
  (each : ∀ lo' hi' (scan : Scan ω), lo' ≤ hi' → hi' - lo' < hi - lo → Positive scan →
    Ends K W rowsOf lo' hi' scan)
  (le : lo ≤ hi) (positive : Positive scan)

include again each le positive

theorem underPressure_ends {kind : Outcome} {next : Scan ω}
    (asked : ask W lo hi scan = (kind, next)) (pressure : kind = .timeout ∨ kind = .memory)
    (fits : hi - lo ≤ K.ceiling → hi - lo ≤ allowed K scan) :
    ∃ enough result after, (∀ depth, enough ≤ depth →
        underPressure K W rowsOf depth lo hi kind next = some (result, after)) ∧
      Fetched K rowsOf lo hi scan after result := by
  obtain ⟨log, sticky, strategy⟩ := ask_spec asked
  have same : (ask W lo hi scan).2 = next := congrArg Prod.snd asked
  have held : hi - lo ≤ K.ceiling → Held K scan → Held K next := fun narrow old =>
    same ▸ old.ask W (fits narrow)
  have allowedNext : allowed K next = allowed K scan := by rw [allowed, sticky, allowed]
  have positive' : Positive next := fun width here => positive width (sticky ▸ here)
  by_cases switch : K.reconcile ∧ next.strategy = .full ∧
      max K.floor ((hi - lo) / 2) ≤ K.keysOnlyWidth
  · obtain ⟨enough, result, after, ran, fetched⟩ := again next positive' strategy switch.2.1
    refine ⟨enough + 1, result, after, fun depth large => ?_,
      fetched.after [.query lo hi kind, .switched] ?_ ?_ fun narrow old =>
        (held narrow old).switchStrategy⟩
    · obtain ⟨depth, rfl⟩ := Nat.exists_eq_add_of_le' (Nat.one_le_of_lt large)
      rw [underPressure, if_pos switch]
      exact ran depth (by omega)
    · rw [switchStrategy, log, append_assoc]
      rfl
    · rcases pressure with rfl | rfl <;> rfl
  · by_cases wide : K.floor < hi - lo
    · obtain ⟨narrower, inForce⟩ := inForce_shrinkScanWidth (W := W) positive' wide
      obtain ⟨enough, result, after, ran, fetched⟩ :=
        ends_of_narrower inForce each le (positive'.shrinkScanWidth (hi - lo))
      refine ⟨enough + 1, result, after, fun depth large => ?_,
        fetched.after [.query lo hi kind, .narrowed (hi - lo)] ?_ ?_ fun narrow old =>
          (held narrow old).shrinkScanWidth wide (allowedNext.symm ▸ fits narrow)⟩
      · obtain ⟨depth, rfl⟩ := Nat.exists_eq_add_of_le' (Nat.one_le_of_lt large)
        rw [underPressure, if_neg switch, if_pos wide]
        exact ran depth (by omega)
      · rw [shrinkScanWidth, log, append_assoc]
        rfl
      · rcases pressure with rfl | rfl <;> rfl
    · have small : hi - lo ≤ K.floor := not_lt.1 wide
      rcases pressure with rfl | rfl
      · let kept (run : Scan ω) : Prop := run.sticky = scan.sticky ∧
          (hi - lo ≤ K.ceiling → Held K scan → Held K run)
        have keeps : ∀ run : Scan ω, kept run → kept (ask W lo hi run).2 := by
          rintro run ⟨sticky, held⟩
          refine ⟨sticky, fun narrow old => (held narrow old).ask W ?_⟩
          rw [allowed, sticky]
          exact fits narrow
        obtain ⟨result, after, events, ran, log', tells⟩ :=
          retryAtFloor_spec (fun scan : Scan ω => rowsBetween rowsOf scan.strategy lo hi) Scan.log
            (.query lo hi) (fun _ => rfl) (fun run here _ => keeps run here) K.retries
            ⟨sticky, held⟩
        have kept' : kept after := by
          cases result with
          | ok rows =>
            obtain ⟨-, ⟨before, here, asked⟩, -⟩ := tells
            have same : (ask W lo hi before).2 = after := congrArg Prod.snd asked
            exact same ▸ keeps before here
          | error failure =>
            cases failure with
            | scanTimedOut => exact tells.1
            | queryMemoryExceeded => exact absurd tells id
            | raised outcome => exact tells.1
        obtain ⟨sticky', heldAfter⟩ := kept'
        have positiveAfter : Positive after := fun width here => positive width (sticky' ▸ here)
        have logAfter : after.log = scan.log ++ ([.query lo hi .timeout] ++ events) := by
          rw [log', log, append_assoc]
        cases result with
        | ok rows =>
          obtain ⟨rfl, -, times, rfl⟩ := tells
          have tells := Read.retried rowsOf le after.strategy (times + 1)
          refine ⟨1, _, settle K after, fun depth large => ?_, Fetched.settle
            ⟨positiveAfter, heldAfter, _, logAfter, tells⟩⟩
          obtain ⟨depth, rfl⟩ := Nat.exists_eq_add_of_le' large
          rw [underPressure, if_neg switch, if_neg wide]
          simp only [ran]
          rfl
        | error failure =>
          refine ⟨1, .error failure, after, fun depth large => ?_,
            ⟨positiveAfter, heldAfter, _, logAfter, ?_⟩⟩
          · obtain ⟨depth, rfl⟩ := Nat.exists_eq_add_of_le' large
            rw [underPressure, if_neg switch, if_neg wide]
            simp only [ran]
            rfl
          · cases failure with
            | queryMemoryExceeded => exact absurd tells id
            | scanTimedOut => exact ⟨[], lo, hi, by rw [tells.2]; rfl, small⟩
            | raised outcome =>
              obtain ⟨-, which, front, rfl⟩ := tells
              exact ⟨.query lo hi .timeout :: front, lo, hi, rfl,
                which.imp_right fun same => ⟨same, small⟩⟩
      · refine ⟨1, .error .queryMemoryExceeded, next, fun depth large => ?_,
          ⟨positive', held, _, log, [], lo, hi, rfl, small⟩⟩
        obtain ⟨depth, rfl⟩ := Nat.exists_eq_add_of_le' large
        rw [underPressure, if_neg switch, if_neg wide, if_pos rfl]

theorem ends_of_again : Ends K W rowsOf lo hi scan := by
  cases whole : (widthInForce K W scan).filter (· < hi - lo) with
  | some sticky => exact ends_of_narrower whole each le positive
  | none =>
    have fits := le_allowed positive whole
    cases asked : ask W lo hi scan with
    | mk outcome next =>
      obtain ⟨log, sticky, -⟩ := ask_spec asked
      have same : (ask W lo hi scan).2 = next := congrArg Prod.snd asked
      have held : hi - lo ≤ K.ceiling → Held K scan → Held K next := fun narrow old =>
        same ▸ old.ask W (fits narrow)
      have positive' : Positive next := fun width here => positive width (sticky ▸ here)
      have pressed : ∀ kind, outcome = kind → kind = .timeout ∨ kind = .memory →
          Ends K W rowsOf lo hi scan := by
        rintro kind rfl pressure
        obtain ⟨enough, result, after, ran, fetched⟩ :=
          underPressure_ends again each le positive asked pressure fits
        refine ⟨enough + 1, result, after, fun depth large => ?_, fetched⟩
        obtain ⟨depth, rfl⟩ := Nat.exists_eq_add_of_le' (Nat.one_le_of_lt large)
        rw [fetchRange]
        rcases pressure with rfl | rfl
        · simp only [whole, asked]
          exact ran depth (by omega)
        · simp only [whole, asked]
          exact ran depth (by omega)
      cases outcome with
      | ok =>
        refine ⟨1, _, _, fun depth large => ?_, Fetched.settle
          ⟨positive', held, _, log, Read.single le next.strategy⟩⟩
        obtain ⟨depth, rfl⟩ := Nat.exists_eq_add_of_le' large
        rw [fetchRange]
        simp only [whole, asked]
      | other =>
        refine ⟨1, .error (.raised .other), next, fun depth large => ?_,
          ⟨positive', held, _, log, [], lo, hi, rfl, .inl rfl⟩⟩
        obtain ⟨depth, rfl⟩ := Nat.exists_eq_add_of_le' large
        rw [fetchRange]
        simp only [whole, asked]
      | timeout => exact pressed .timeout rfl (.inl rfl)
      | memory => exact pressed .memory rfl (.inr rfl)

end

/-- Every scan of a range ends: narrower ranges first, and a strategy changes once. -/
theorem ends (le : lo ≤ hi) (positive : Positive scan) : Ends K W rowsOf lo hi scan := by
  induction width : hi - lo using Nat.strong_induction_on generalizing lo hi scan with
  | _ width ih =>
    have each : ∀ lo' hi' (scan : Scan ω), lo' ≤ hi' → hi' - lo' < hi - lo → Positive scan →
        Ends K W rowsOf lo' hi' scan := fun lo' hi' scan le less positive =>
      ih _ (width ▸ less) le positive rfl
    have keysOnly : ∀ scan : Scan ω, Positive scan → scan.strategy = .keysOnly →
        Ends K W rowsOf lo hi scan := by
      intro scan positive strategy
      refine ends_of_again (fun next _ same full => ?_) each le positive
      rw [same, strategy] at full
      cases full
    exact ends_of_again (fun next positive _ _ => keysOnly _ positive rfl) each le positive

end

/-! ## Each row once -/

section

variable {rowsOf : Strategy → ℕ → List ρ} {lo hi : ℕ}

/-- What tiles read is what their range holds, each number once, under the strategy of its tile. -/
theorem Tiles.exists_strategies {parts : List (Strategy × ℕ × ℕ)}
    (tiling : Tiles lo (parts.map Prod.snd) hi) : ∃ strategyOf : ℕ → Strategy,
      parts.flatMap (fun part => rowsBetween rowsOf part.1 part.2.1 part.2.2) =
        (List.range' lo (hi - lo)).flatMap fun id => rowsOf (strategyOf id) id := by
  induction parts generalizing lo with
  | nil =>
    obtain rfl : lo = hi := tiling
    exact ⟨fun _ => .full, by rw [Nat.sub_self]; rfl⟩
  | cons part parts ih =>
    obtain ⟨rfl, wide, rest⟩ := tiling
    obtain ⟨strategyOf, same⟩ := ih rest
    have after := rest.le
    refine ⟨fun id => if id < part.2.2 then part.1 else strategyOf id, ?_⟩
    rw [flatMap_cons, same, show hi - part.2.1 = (part.2.2 - part.2.1) + (hi - part.2.2) by
      omega, ← range'_append_1, show part.2.1 + (part.2.2 - part.2.1) = part.2.2 by omega,
      flatMap_append]
    congr 1
    · refine flatMap_congr fun id inside => ?_
      rw [mem_range'_1] at inside
      have within : id < part.2.2 := by omega
      simp only [within, if_true]
    · refine flatMap_congr fun id inside => ?_
      rw [mem_range'_1] at inside
      have beyond : ¬id < part.2.2 := by omega
      simp only [beyond, if_false]

theorem Read.exists_strategies {events : List Event} {rows : List ρ}
    (read : Read rowsOf lo hi events rows) : ∃ strategyOf : ℕ → Strategy,
      rows = (List.range' lo (hi - lo)).flatMap fun id => rowsOf (strategyOf id) id := by
  obtain ⟨tiles, parts, own, rfl⟩ := read
  exact Tiles.exists_strategies (own ▸ tiles)

end

/-! ## Batches end -/

section

variable {ω κ ρ : Type*} {query : ω → List κ → Outcome × ω} {rowsOf : κ → List ρ} {retries : ℕ}
  {rows : List κ} {run next : Batches ω κ}

/-- What a ladder over a list does: what is done is done once and in order, whole if it returns; it
fails by a failure that is no pressure, or at a list of at most `few`. -/
structure Went (rows : List κ) (few : ℕ) (run after : Batches ω κ) (failure : Option Failure) :
    Prop where
  cap : after.cap.floor = run.cap.floor
  done : ∃ part rest, rows = part ++ rest ∧ after.done = run.done ++ part ∧
    (failure = none → rest = [])
  fails : ∀ f, failure = some f → f = .raised .other ∨
    ∃ part outcome, after.log.getLast? = some (part, outcome) ∧ part.length ≤ few

def failureOf {α : Type*} : Except Failure α → Option Failure
  | .ok _ => none
  | .error failure => some failure

theorem issue_spec {outcome : Outcome} (issued : issue query rows run = (outcome, next)) :
    next.cap = run.cap ∧ next.log = run.log ++ [(rows, outcome)] ∧
      next.done = if outcome = .ok then run.done ++ rows else run.done := by
  obtain ⟨rfl, rfl⟩ := Prod.mk.inj issued
  exact ⟨rfl, rfl, rfl⟩

variable {few : ℕ}

/-- A query of a list that succeeds, or fails otherwise than by pressure. -/
theorem Went.of_issue {outcome : Outcome} (issued : issue query rows run = (outcome, next)) :
    outcome = .ok ∧ Went rows few run next none ∨
      outcome = .other ∧ Went rows few run next (some (.raised .other)) ∨
      (outcome = .timeout ∨ outcome = .memory) ∧ next.done = run.done ∧
        next.cap.floor = run.cap.floor := by
  obtain ⟨cap, log, done⟩ := issue_spec issued
  cases outcome with
  | ok => exact .inl ⟨rfl, cap ▸ rfl, ⟨rows, [], (append_nil _).symm, done, fun _ => rfl⟩, nofun⟩
  | other =>
    refine .inr (.inl ⟨rfl, cap ▸ rfl, ⟨[], rows, rfl, ?_, nofun⟩, fun f same => .inl ?_⟩)
    · rw [done, append_nil]
      rfl
    · exact (some.inj same).symm
  | timeout => exact .inr (.inr ⟨.inl rfl, done, cap ▸ rfl⟩)
  | memory => exact .inr (.inr ⟨.inr rfl, done, cap ▸ rfl⟩)

theorem Went.append {more : List κ} {after : Batches ω κ} {failure : Option Failure}
    (first : Went rows few run next none) (second : Went more few next after failure) :
    Went (rows ++ more) few run after failure where
  cap := second.cap.trans first.cap
  done := by
    obtain ⟨part, rest, rfl, done, whole⟩ := first.done
    obtain rfl := whole rfl
    obtain ⟨part', rest', rfl, done', whole'⟩ := second.done
    refine ⟨part ++ part', rest', ?_, ?_, whole'⟩
    · rw [append_nil, append_assoc]
    · rw [done', done, append_assoc]
  fails := second.fails

theorem Went.fail {failure : Failure} (first : Went rows few run next (some failure))
    (more : List κ) : Went (rows ++ more) few run next (some failure) where
  cap := first.cap
  done := by
    obtain ⟨part, rest, rfl, done, -⟩ := first.done
    exact ⟨part, rest ++ more, append_assoc _ _ _, done, nofun⟩
  fails := first.fails

/-- A ladder that goes on after a query that had no effect. -/
theorem Went.after {after : Batches ω κ} {failure : Option Failure}
    (went : Went rows few next after failure) (done : next.done = run.done)
    (floor : next.cap.floor = run.cap.floor) : Went rows few run after failure where
  cap := went.cap.trans floor
  done := done ▸ went.done
  fails := went.fails

variable (query) in
/-- At the smallest size, a query that timed out is retried. -/
theorem retry_went {α : Type*} (value : Batches ω κ → α) (small : rows.length ≤ few)
    (logged : run.log.getLast? = some (rows, .timeout)) :
    ∃ result after, retryAtFloor (issue query rows) value retries run = (result, after) ∧
      Went rows few run after (failureOf result) ∧
      ∀ returned, result = .ok returned → returned = value after := by
  let kept (other : Batches ω κ) : Prop := other.done = run.done ∧ other.cap = run.cap ∧
    ∃ outcome, other.log.getLast? = some (rows, outcome)
  have keeps : ∀ other : Batches ω κ, kept other → (issue query rows other).1 ≠ .ok →
      kept (issue query rows other).2 := by
    intro other ⟨done, cap, _⟩ failed
    cases issued : issue query rows other with
    | mk outcome next =>
      obtain ⟨cap', log, done'⟩ := issue_spec issued
      rw [issued] at failed
      refine ⟨?_, cap'.trans cap, outcome, by rw [log, getLast?_concat]⟩
      rw [done', if_neg failed, done]
  obtain ⟨result, after, events, ran, -, tells⟩ := retryAtFloor_spec value Batches.log
    (fun outcome => (rows, outcome)) (fun _ => rfl) keeps retries
    (⟨rfl, rfl, .timeout, logged⟩ : kept run)
  cases result with
  | ok returned =>
    obtain ⟨same, ⟨before, ⟨done, cap, -⟩, asked⟩, -⟩ := tells
    obtain ⟨cap', -, done'⟩ := issue_spec asked
    rw [done] at done'
    refine ⟨_, after, ran, ⟨by rw [cap', cap], ?_, nofun⟩, fun _ here => ?_⟩
    · exact ⟨rows, [], (append_nil _).symm, done', fun _ => rfl⟩
    · exact (Except.ok.inj here).symm.trans same
  | error failure =>
    have kept' : kept after := by
      cases failure with
      | queryMemoryExceeded => exact absurd tells id
      | scanTimedOut => exact tells.1
      | raised outcome => exact tells.1
    obtain ⟨done, cap, outcome, last⟩ := kept'
    refine ⟨_, after, ran, ⟨by rw [cap], ?_, fun _ _ => ?_⟩, nofun⟩
    · exact ⟨[], rows, rfl, by rw [done, append_nil], nofun⟩
    · exact .inr ⟨rows, outcome, last, small⟩

theorem fetchBatch_ends (batch : List κ) (run : Batches ω κ) :
    ∃ result after, (∀ depth, batch.length < depth →
        fetchBatchWithLadder query rowsOf retries depth batch run = some (result, after)) ∧
      Went batch 1 run after (failureOf result) ∧
      ∀ rows, result = .ok rows → rows = batch.flatMap rowsOf := by
  induction size : batch.length using Nat.strong_induction_on generalizing batch run with
  | _ _ ih =>
    obtain ⟨outcome, next, issued⟩ : ∃ outcome next, issue query batch run = (outcome, next) :=
      ⟨_, _, rfl⟩
    have step : ∀ depth, batch.length < depth → ∃ less, depth = less + 1 ∧ batch.length ≤ less :=
      fun depth large => ⟨depth - 1, by omega, by omega⟩
    rcases Went.of_issue issued with ⟨rfl, went⟩ | ⟨rfl, went⟩ | ⟨pressure, done, floor⟩
    · refine ⟨.ok _, next, fun depth large => ?_, went, fun _ here => (Except.ok.inj here).symm⟩
      obtain ⟨less, rfl, -⟩ := step depth (size ▸ large)
      rw [fetchBatchWithLadder, issued]
    · refine ⟨.error (.raised .other), next, fun depth large => ?_, went, nofun⟩
      obtain ⟨less, rfl, -⟩ := step depth (size ▸ large)
      rw [fetchBatchWithLadder, issued]
    · by_cases many : 1 < batch.length
      · have whole : batch.take (batch.length / 2) ++ batch.drop (batch.length / 2) = batch :=
          take_append_drop _ _
        let shrunk : Batches ω κ := { next with cap := next.cap.shrink batch.length }
        obtain ⟨result, middle, ran, went, reads⟩ := ih (batch.length / 2) (by omega)
          (batch.take (batch.length / 2)) shrunk
          (length_take_of_le (Nat.div_le_self _ _))
        have first : ∀ less, batch.length ≤ less →
            fetchBatchWithLadder query rowsOf retries less (batch.take (batch.length / 2))
              shrunk = some (result, middle) := fun less large => ran less (by omega)
        cases result with
        | error failure =>
          have went := whole ▸ Went.fail went (batch.drop (batch.length / 2))
          refine ⟨.error failure, middle, fun depth large => ?_, went.after done floor, nofun⟩
          obtain ⟨less, rfl, enough⟩ := step depth (size ▸ large)
          rw [fetchBatchWithLadder, issued]
          rcases pressure with rfl | rfl <;>
            exact (if_pos many).trans (congrArg (bind · _) (first less enough))
        | ok rows =>
          obtain ⟨result, after, ran', went', reads'⟩ := ih
            (batch.length - batch.length / 2) (by omega) (batch.drop (batch.length / 2)) middle
            (length_drop ..)
          have went := whole ▸ went.append went'
          have second : ∀ less, batch.length ≤ less →
              fetchBatchWithLadder query rowsOf retries less (batch.drop (batch.length / 2))
                middle = some (result, after) := fun less large => ran' less (by omega)
          cases result with
          | error failure =>
            refine ⟨.error failure, after, fun depth large => ?_, went.after done floor, nofun⟩
            obtain ⟨less, rfl, enough⟩ := step depth (size ▸ large)
            rw [fetchBatchWithLadder, issued]
            rcases pressure with rfl | rfl <;>
              exact ((if_pos many).trans (congrArg (bind · _)
                (first less enough))).trans (congrArg (Option.map _) (second less enough))
          | ok more =>
            refine ⟨.ok (rows ++ more), after, fun depth large => ?_,
              went.after done floor, fun read here => ?_⟩
            · obtain ⟨less, rfl, enough⟩ := step depth (size ▸ large)
              rw [fetchBatchWithLadder, issued]
              rcases pressure with rfl | rfl <;>
                exact ((if_pos many).trans (congrArg (bind · _)
                  (first less enough))).trans (congrArg (Option.map _) (second less enough))
            · rw [← Except.ok.inj here, reads rows rfl, reads' more rfl, ← flatMap_append, whole]
      · have small : batch.length ≤ 1 := not_lt.1 many
        obtain ⟨cap, log, -⟩ := issue_spec issued
        rcases pressure with rfl | rfl
        · obtain ⟨result, after, ran, went, reads⟩ := retry_went query
            (fun _ => batch.flatMap rowsOf) small (by rw [log, getLast?_concat])
          refine ⟨result, after, fun depth large => ?_, went.after done floor, reads⟩
          obtain ⟨less, rfl, -⟩ := step depth (size ▸ large)
          rw [fetchBatchWithLadder, issued]
          exact (if_neg many).trans (congrArg some ran)
        · refine ⟨.error .queryMemoryExceeded, next, fun depth large => ?_, ⟨floor, ?_, ?_⟩, nofun⟩
          · obtain ⟨less, rfl, -⟩ := step depth (size ▸ large)
            rw [fetchBatchWithLadder, issued]
            exact if_neg many
          · exact ⟨[], batch, rfl, by rw [done, append_nil], nofun⟩
          · exact fun _ _ => .inr ⟨batch, .memory, by rw [log, getLast?_concat], small⟩

theorem Went.noteSuccess (went : Went rows few run next none) :
    Went rows few run { next with cap := next.cap.noteSuccess } none where
  cap := by
    have floor : next.cap.noteSuccess.floor = next.cap.floor := by
      rw [StickyCap.noteSuccess]
      split
      · rfl
      · split <;> rfl
    exact floor.trans went.cap
  done := went.done
  fails := nofun

theorem writeRows_ends (rows : List κ) (run : Batches ω κ) :
    ∃ result after, (∀ depth, rows.length < depth →
        writeRowsWithLadder query retries depth rows run = some (result, after)) ∧
      Went rows (max 1 run.cap.floor) run after (failureOf result) := by
  induction size : rows.length using Nat.strong_induction_on generalizing rows run with
  | _ _ ih =>
    have step : ∀ depth, rows.length < depth → ∃ less, depth = less + 1 ∧ rows.length ≤ less :=
      fun depth large => ⟨depth - 1, by omega, by omega⟩
    by_cases empty : rows = []
    · refine ⟨.ok (), run, fun depth large => ?_, rfl, ⟨[], [], empty, ?_, fun _ => rfl⟩, nofun⟩
      · obtain ⟨less, rfl, -⟩ := step depth (size ▸ large)
        rw [writeRowsWithLadder, if_pos empty]
      · rw [append_nil]
    obtain ⟨outcome, next, issued⟩ : ∃ outcome next, issue query rows run = (outcome, next) :=
      ⟨_, _, rfl⟩
    rcases Went.of_issue issued with ⟨rfl, went⟩ | ⟨rfl, went⟩ | ⟨pressure, done, floor⟩
    · refine ⟨.ok (), _, fun depth large => ?_, went.noteSuccess⟩
      obtain ⟨less, rfl, -⟩ := step depth (size ▸ large)
      rw [writeRowsWithLadder, if_neg empty, issued]
    · refine ⟨.error (.raised .other), next, fun depth large => ?_, went⟩
      obtain ⟨less, rfl, -⟩ := step depth (size ▸ large)
      rw [writeRowsWithLadder, if_neg empty, issued]
    · by_cases many : ¬rows.length ≤ next.cap.floor ∧ 1 < rows.length
      · let cap := next.cap.shrink rows.length
        obtain ⟨mid, split, some_, less_⟩ : ∃ mid,
            mid = max 1 (min (cap.value.getD 0) (rows.length - 1)) ∧ 1 ≤ mid ∧
              mid < rows.length := ⟨_, rfl, by omega, by omega⟩
        have whole : rows.take mid ++ rows.drop mid = rows := take_append_drop _ _
        obtain ⟨result, middle, ran, went⟩ := ih mid (size ▸ less_) (rows.take mid)
          { next with cap } (length_take_of_le less_.le)
        have few : (cap.floor : ℕ) = run.cap.floor := floor
        have first : ∀ less, rows.length ≤ less →
            writeRowsWithLadder query retries less (rows.take mid) { next with cap } =
              some (result, middle) := fun less large => ran less (by omega)
        rw [few] at went
        cases result with
        | error failure =>
          have went := whole ▸ Went.fail went (rows.drop mid)
          refine ⟨.error failure, middle, fun depth large => ?_, went.after done floor⟩
          obtain ⟨less, rfl, enough⟩ := step depth (size ▸ large)
          rw [writeRowsWithLadder, if_neg empty, issued]
          subst split
          rcases pressure with rfl | rfl <;>
            exact (if_pos many).trans (congrArg (bind · _) (first less enough))
        | ok written =>
          obtain ⟨result, after, ran', went'⟩ := ih (rows.length - mid) (by omega)
            (rows.drop mid) middle (length_drop ..)
          rw [went.cap.trans few] at went'
          have went := whole ▸ went.append went'
          refine ⟨result, after, fun depth large => ?_, went.after done floor⟩
          obtain ⟨less, rfl, enough⟩ := step depth (size ▸ large)
          rw [writeRowsWithLadder, if_neg empty, issued, ← ran' less (by omega)]
          subst split
          rcases pressure with rfl | rfl <;>
            exact (if_pos many).trans (congrArg (bind · _) (first less enough))
      · have small : rows.length ≤ max 1 run.cap.floor := by
          omega
        obtain ⟨cap, log, -⟩ := issue_spec issued
        rcases pressure with rfl | rfl
        · obtain ⟨result, after, ran, went, -⟩ := retry_went query
            (fun _ => ()) small (by rw [log, getLast?_concat])
          cases result with
          | ok written =>
            refine ⟨.ok (), _, fun depth large => ?_, (went.after done floor).noteSuccess⟩
            obtain ⟨less, rfl, -⟩ := step depth (size ▸ large)
            rw [writeRowsWithLadder, if_neg empty, issued]
            dsimp only
            rw [if_neg many, if_neg (by decide), ran]
          | error failure =>
            refine ⟨.error failure, after, fun depth large => ?_, went.after done floor⟩
            obtain ⟨less, rfl, -⟩ := step depth (size ▸ large)
            rw [writeRowsWithLadder, if_neg empty, issued]
            dsimp only
            rw [if_neg many, if_neg (by decide), ran]
        · refine ⟨.error .queryMemoryExceeded, next, fun depth large => ?_, floor, ?_, ?_⟩
          · obtain ⟨less, rfl, -⟩ := step depth (size ▸ large)
            rw [writeRowsWithLadder, if_neg empty, issued]
            exact if_neg many
          · exact ⟨[], rows, rfl, by rw [done, append_nil], nofun⟩
          · exact fun _ _ => .inr ⟨rows, .memory, by rw [log, getLast?_concat], small⟩

end

/-! ## The ladder -/

section

variable {ω κ ρ : Type*}

/-- Whatever becomes of the queries, the ladders end. A scan that returns has read its range by
queries that tile it, each number once; it fails by a query at the floor that failed for good, or by
a failure that is no pressure; and no query is as wide as a width whose failure narrowed the scan,
until it has grown after 64 successes. What a ladder over a list read or wrote is the list, each row
once, or where it fails a front part of the list. -/
theorem ladder_exact (K : Knobs) (W : World ω) (rowsOf : Strategy → ℕ → List ρ) {lo hi : ℕ}
    (le : lo ≤ hi) {scan : Scan ω} (positive : Positive scan) :
    (∃ enough result after events,
      (∀ depth, enough ≤ depth → fetchRange K W rowsOf depth lo hi scan = some (result, after)) ∧
      after.log = scan.log ++ events ∧
      (∀ rows, result = .ok rows → Tiles lo (answered events) hi ∧ ∃ strategyOf : ℕ → Strategy,
          rows = (List.range' lo (hi - lo)).flatMap fun id => rowsOf (strategyOf id) id) ∧
      (∀ failure, result = .error failure → FailsWith K failure events) ∧
      (hi - lo ≤ K.ceiling → scan.log = [] → Obeys after.log)) ∧
    (∀ (query : ω → List κ → Outcome × ω) (found : κ → List ρ) retries batch run,
      ∃ result after, (∀ depth, batch.length < depth →
          fetchBatchWithLadder query found retries depth batch run = some (result, after)) ∧
        Went batch 1 run after (failureOf result) ∧
        ∀ rows, result = .ok rows → rows = batch.flatMap found) ∧
    ∀ (query : ω → List κ → Outcome × ω) retries rows run,
      ∃ result after, (∀ depth, rows.length < depth →
          writeRowsWithLadder query retries depth rows run = some (result, after)) ∧
        Went rows (max 1 run.cap.floor) run after (failureOf result) := by
  refine ⟨?_, fun _ _ _ => fetchBatch_ends, fun _ _ => writeRows_ends⟩
  have ended : Ends K W rowsOf lo hi scan := ends le positive
  obtain ⟨enough, result, after, ran, fetched⟩ := ended
  obtain ⟨events, log, tells⟩ := fetched.ran
  refine ⟨enough, result, after, events, ran, log, ?_, ?_, fun narrow fresh => ?_⟩
  · rintro rows rfl
    exact ⟨tells.1, Read.exists_strategies tells⟩
  · rintro failure rfl
    exact tells
  · exact (fetched.held narrow (Held.fresh fresh)).obeys

/-- A scan of widths of five, to which the world gives the outcomes it has. -/
def tenRows : Scan (List Outcome) where
  world := [.timeout, .ok, .ok, .timeout, .ok, .ok, .ok, .ok]
  sticky := some 5
  streak := 0
  failWidth := none
  strategy := .full
  log := []

def outcomes : World (List Outcome) where
  query world _ _ := (world.headD .ok, world.tail)
  live _ := none

def plainKnobs : Knobs where
  floor := 1
  ceiling := 200000
  keysOnlyWidth := 12500
  retries := 3
  reconcile := false
  floor_pos := le_refl 1

theorem ladder_exact_ten : 0 ≤ 10 ∧ Positive tenRows ∧ ∃ enough result after,
    ∀ depth, enough ≤ depth → fetchRange plainKnobs outcomes (fun _ id => [id]) depth 0 10 tenRows =
        some (result, after) := by
  have positive : Positive tenRows := by
    rintro sticky ⟨⟩
    decide
  obtain ⟨enough, result, after, events, ran, -⟩ :=
    (ladder_exact (κ := ℕ) plainKnobs outcomes (fun _ id => [id]) (Nat.zero_le 10) positive).1
  exact ⟨Nat.zero_le 10, positive, enough, result, after, ran⟩

def lastFailed (log : List Event) : Option ℕ :=
  log.foldl (fun last event =>
    match event with
    | .query _ _ .ok => last
    | .query lo hi _ => some (hi - lo)
    | .grew _ => none
    | _ => last) none

/-- No query of a log is wider than the width that failed last. -/
def UnderLast (log : List Event) : Prop :=
  ∀ front lo hi outcome back, log = front ++ .query lo hi outcome :: back →
    ∀ width, lastFailed front = some width → hi - lo ≤ width

/-- After a query of one row has failed, at the floor, and succeeded, the scan goes on by twos. -/
theorem tenRows_not_underLast : ∃ run,
    fetchRange plainKnobs outcomes (fun _ id => [id]) 10 0 10 tenRows = some run ∧
      ¬UnderLast run.2.log := by
  have logged : (fetchRange plainKnobs outcomes (fun _ id => [id]) 10 0 10 tenRows).map
      (fun run => run.2.log) = some ([.query 0 5 .timeout, .narrowed 5, .query 0 2 .ok,
        .query 2 4 .ok, .query 4 5 .timeout, .query 4 5 .ok] ++
          .query 5 7 .ok :: [.query 7 9 .ok, .query 9 10 .ok]) := by decide +kernel
  obtain ⟨run, ran, log⟩ := map_eq_some_iff.1 logged
  exact ⟨run, ran, fun under => absurd (under _ _ _ _ _ log 1 rfl) (by decide)⟩

end

end DataViz.Rollup.Ladder
