/-
# A session counts each unit once

What a session in the store and the tallies beside it have counted, with what its pending units tell
and what was left out, is what the units of its plan tell; and so it is with the session of the
request that has the lease, the tallies in the store and its own, and the units it runs
(`Accounts`). A commit passes the one on to the other. Three things break this (`Sound`).
-/

import DataViz.Search.SessionTallies
import Mathlib.Tactic.Abel

namespace DataViz.Search

open List Option

variable {ρ : Type} [LinearOrder ρ] {scan : Scan ρ}

/-! ## Folding a unit -/

theorem apart (rows : List ρ) : TellsApart (· ≤ ·) rows :=
  fun _ _ _ _ => le_antisymm

theorem counted_foldl_addTally (rows : List TallyRow) (tallies : Dict String Tally) (urn : String)
    (type : Option String) :
    counted (rows.foldl (fun tally row =>
      if row.urn = "" then tally else addTally tally row.urn row.tally) tallies) urn type =
      counted tallies urn type + ((rows.filter fun row => row.urn ≠ "").map fun row =>
        if row.urn = urn then row.tally.counts type else 0).sum := by
  induction rows generalizing tallies with
  | nil => rfl
  | cons row rows ih =>
    rw [foldl_cons, ih]
    by_cases none : row.urn = ""
    · rw [if_pos none, filter_cons_of_neg (by simpa using none)]
    · rw [if_neg none, filter_cons_of_pos (by simpa using none), counted_addTally,
        map_cons, sum_cons, Nat.add_assoc]

theorem nodup_foldl_addTally (rows : List TallyRow) {tallies : Dict String Tally}
    (once : tallies.keys.Nodup) : (rows.foldl (fun tally row =>
      if row.urn = "" then tally else addTally tally row.urn row.tally) tallies).keys.Nodup := by
  induction rows generalizing tallies with
  | nil => exact once
  | cons row rows ih =>
    rw [foldl_cons]
    split
    · exact ih once
    · exact ih (nodup_addTally once _ _)

theorem merged_rows (k : ℕ) (rows first : List ρ) : (if first = [] then firstRows (· ≤ ·) k rows
      else firstRows (· ≤ ·) k (firstRows (· ≤ ·) k rows ++ first)) =
      firstRows (· ≤ ·) k (rows ++ first) := by
  split
  · next none => rw [none, append_nil]
  · exact firstRows_append_firstRows (apart _) le_rfl

theorem firstRows_flatMap (k : ℕ) (parts : List (List ρ)) (rows : List ρ) :
    firstRows (· ≤ ·) k (rows ++ parts.flatMap (firstRows (· ≤ ·) k)) =
      firstRows (· ≤ ·) k (rows ++ parts.flatten) := by
  induction parts generalizing rows with
  | nil => rfl
  | cons part parts ih =>
    have front (more : List ρ) : firstRows (· ≤ ·) k (rows ++ firstRows (· ≤ ·) k part ++ more) =
          firstRows (· ≤ ·) k (rows ++ part ++ more) := by
      have there (middle : List ρ) : (rows ++ middle ++ more).Perm (middle ++ (rows ++ more)) := by
        rw [← append_assoc]
        exact perm_append_comm.append_right more
      rw [firstRows_of_perm (apart _) (there _), firstRows_append_firstRows (apart _) le_rfl,
        firstRows_of_perm (apart _) (there _).symm]
    rw [flatMap_cons, flatten_cons, ← append_assoc, ih, front, append_assoc]

/-! ## Accounts -/

structure Accounting (scan : Scan ρ) (session : Session ρ) (waiting : List Task)
    (tallied : String → Option String → ℕ) (typed : String → ℕ) (done left : Amount ρ) : Prop where
  total : scan.total session.plan =
    done + left + scan.total ((session.pending ++ waiting).map Task.unit)
  left : session.leftOut = 0 → left = 0
  count : session.count = done.1
  rows : ∃ rows : List ρ, done.2.1 = ↑rows ∧ session.rows = firstRows (· ≤ ·) scan.k rows
  tallied : scan.work = .matching → tallied = done.2.2.1
  typed : scan.work = .connecting → typed = done.2.2.2

def Accounts (scan : Scan ρ) (session : Session ρ) (waiting : List Task)
    (tallied : String → Option String → ℕ) (typed : String → ℕ) : Prop :=
  ∃ done left, Accounting scan session waiting tallied typed done left

section

variable {session session' : Session ρ} {waiting waiting' : List Task}
  {tallied tallied' : String → Option String → ℕ} {typed typed' : String → ℕ}

/-- A new session has counted nothing. -/
theorem accounts_start (plan : List PlanUnit) :
    Accounts scan (.start plan) [] (fun _ _ => 0) fun _ => 0 := by
  refine ⟨0, 0, ?_, fun _ => rfl, rfl, ⟨[], rfl, ?_⟩, fun _ => rfl, fun _ => rfl⟩
  · rw [Session.start, append_nil, List.map_map, zero_add, zero_add]
    exact congrArg scan.total (map_id _).symm
  · rw [firstRows, insertionSort_nil, take_nil]
    rfl

theorem Accounts.moved (accounts : Accounts scan session waiting tallied typed)
    (pending : List Task) (same : scan.total ((pending ++ waiting').map Task.unit) =
      scan.total ((session.pending ++ waiting).map Task.unit)) (status : Status) :
    Accounts scan { session with pending, status } waiting' tallied typed := by
  obtain ⟨done, left, accounting⟩ := accounts
  exact ⟨done, left, accounting.total.trans (by rw [same]), accounting.left, accounting.count,
    accounting.rows, accounting.tallied, accounting.typed⟩

/-- Only what the work keeps matters. -/
theorem Accounts.congr (accounts : Accounts scan session waiting tallied typed)
    (tallies : scan.work = .matching → tallied' = tallied)
    (types : scan.work = .connecting → typed' = typed) :
    Accounts scan session waiting tallied' typed' := by
  obtain ⟨done, left, accounting⟩ := accounts
  exact ⟨done, left, accounting.total, accounting.left, accounting.count, accounting.rows,
    fun work => (tallies work).trans (accounting.tallied work),
    fun work => (types work).trans (accounting.typed work)⟩

theorem Accounts.leftOut {task : Task} (scanned : ℕ)
    (accounts : Accounts scan session (task :: waiting) tallied typed) :
    Accounts scan { session with scanned, leftOut := session.leftOut + 1 } waiting tallied
      typed := by
  obtain ⟨done, left, accounting⟩ := accounts
  refine ⟨done, left + (scan.tell task.unit).amount, ?_, nofun, accounting.count, accounting.rows,
    accounting.tallied, accounting.typed⟩
  rw [accounting.total, map_append, map_append, map_cons, scan.total_append,
    scan.total_append, scan.total_cons]
  abel

theorem Accounts.told {task : Task} {told : Told ρ} (tells : scan.tell task.unit = told)
    (accounts : Accounts scan session (task :: waiting) tallied typed) {next : Session ρ}
    (plan : next.plan = session.plan) (pending : next.pending = session.pending)
    (leftOut : next.leftOut = session.leftOut) (count : next.count = session.count + told.count)
    (rows : ∀ rows, session.rows = firstRows (· ≤ ·) scan.k rows →
      next.rows = firstRows (· ≤ ·) scan.k (rows ++ told.rows))
    (tallies : scan.work = .matching → tallied' = tallied + told.tallied)
    (types : scan.work = .connecting → typed' = typed + told.typed) :
    Accounts scan next waiting tallied' typed' := by
  obtain ⟨done, left, accounting⟩ := accounts
  refine ⟨done + told.amount, left, ?_, ?_, ?_, ?_, ?_, ?_⟩
  · rw [plan, pending, accounting.total, map_append, map_append, map_cons,
      scan.total_append, scan.total_append, scan.total_cons, tells]
    abel
  · rw [leftOut]
    exact accounting.left
  · rw [count, accounting.count]
    rfl
  · obtain ⟨listed, all, first⟩ := accounting.rows
    refine ⟨listed ++ told.rows, ?_, rows listed first⟩
    show done.2.1 + _ = _
    rw [all]
    rfl
  · intro work
    rw [tallies work, accounting.tallied work]
    rfl
  · intro work
    rw [types work, accounting.typed work]
    rfl

end

/-! ## A request with the lease -/

namespace Request

def waiting (r : Request ρ) : List Task :=
  r.inFlight ++ r.doubt.toList.map Doubt.task

/-- A request's session, with the tallies in the store and its own, accounts for its plan. -/
def Accounts (scan : Scan ρ) (stored : Dict String Tally) (r : Request ρ) : Prop :=
  Search.Accounts scan r.session r.waiting
    (fun urn type => counted stored urn type + counted r.tally urn type) r.types.amount

variable {stored : Dict String Tally} {r : Request ρ} {task : Task}

/-- A unit lands and tells what is in it. -/
theorem Accounts.fold {session : Session ρ}
    (accounts : Search.Accounts scan r.session (task :: r.waiting)
      (fun urn type => counted stored urn type + counted r.tally urn type) r.types.amount)
    (counts : session = { r.session with scanned := session.scanned }) :
    ({ r with session }.fold scan (scan.tell task.unit)).Accounts scan stored := by
  rw [counts]
  cases tells : scan.tell task.unit with
  | found count rows tallied =>
    refine Accounts.told tells accounts rfl rfl rfl rfl ?_ ?_ ?_
    · intro all first
      show (if _ then r.session.rows else firstRows _ _ (r.session.rows ++ _)) = _
      rw [first, merged_rows]
      have part := firstRows_flatMap scan.k [rows] all
      rw [flatMap_singleton, flatten_singleton] at part
      exact part
    · intro _
      funext urn type
      show counted stored urn type + counted (tallied.foldl _ r.tally) urn type = _
      rw [counted_foldl_addTally, ← Nat.add_assoc]
      rfl
    · intro _
      exact (add_zero _).symm
  | linked typed =>
    refine Accounts.told tells accounts rfl rfl rfl rfl ?_ ?_ ?_
    · intro all first
      show (if _ then r.session.rows else firstRows _ _ (r.session.rows ++ _)) = _
      rw [first, merged_rows]
      have parts := firstRows_flatMap scan.k (typed.map fun entry => entry.2.2) all
      rw [flatMap_map] at parts
      exact parts
    · intro _
      exact (add_zero _).symm
    · intro _
      funext type
      exact Dict.amount_addAll _ _ _

/-- Units first in line, in place of one that waited. -/
theorem Accounts.putBack {parts : List Task}
    (accounts : Search.Accounts scan r.session (task :: r.waiting)
      (fun urn type => counted stored urn type + counted r.tally urn type) r.types.amount)
    (pieces : scan.Pieces task.unit (parts.map Task.unit)) :
    (r.putBack parts).Accounts scan stored := by
  refine accounts.moved _ ?_ r.session.status
  rw [append_assoc, map_append, scan.total_append, pieces, map_append,
    map_append, map_cons, scan.total_append, scan.total_append, scan.total_cons]
  abel

theorem Accounts.doubt {doubt : Doubt}
    (accounts : Search.Accounts scan r.session (doubt.task :: r.inFlight)
      (fun urn type => counted stored urn type + counted r.tally urn type) r.types.amount) :
    ({ r with doubt := some doubt }).Accounts scan stored := by
  refine accounts.moved r.session.pending ?_ r.session.status
  refine scan.total_perm (Perm.map _ (Perm.append_left _ ?_))
  exact perm_append_comm

theorem Accounts.land {outcome : Outcome} (sure : r.doubt = none)
    (accounts : Search.Accounts scan r.session (task :: r.waiting)
      (fun urn type => counted stored urn type + counted r.tally urn type) r.types.amount)
    (pieces : outcome = .slow → ∀ parts, task.unit.split = some parts → scan.Pieces task.unit parts)
    (goes : (r.land scan task outcome).session.status ≠ .failed) :
    (r.land scan task outcome).Accounts scan stored := by
  have waiting : r.waiting = r.inFlight := by rw [Request.waiting, sure]; exact append_nil _
  cases outcome with
  | told => exact Accounts.fold accounts rfl
  | busy => exact Accounts.putBack accounts (scan.pieces_singleton task.unit)
  | dropped =>
    have dropped : ({ r with doubt := some (.dropped task) }).Accounts scan stored :=
      Accounts.doubt (waiting ▸ accounts)
    exact dropped
  | failed => exact absurd rfl goes
  | slow =>
    rw [Request.land]
    cases cut : task.unit.split with
    | some parts =>
      refine Accounts.putBack accounts ?_
      rw [List.map_map]
      exact (map_id parts).symm ▸ pieces rfl parts cut
    | none =>
      dsimp only
      split
      · exact accounts.leftOut _
      · have slow : ({ r with doubt := some (.slow task) }).Accounts scan stored :=
          Accounts.doubt (waiting ▸ accounts)
        exact slow

theorem Accounts.hold (answers : Bool)
    (accounts : Search.Accounts scan r.session (task :: r.waiting)
      (fun urn type => counted stored urn type + counted r.tally urn type) r.types.amount) :
    (r.hold task answers).Accounts scan stored := by
  unfold Request.hold
  generalize (task.drops + if task.dropMark < r.session.scanned ∨ answers then 1 else 0) = drops
  dsimp only
  split
  · exact accounts.leftOut _
  · refine accounts.moved _ (scan.total_perm ?_) r.session.status
    rw [append_assoc, map_append, map_append, map_append]
    exact Perm.refl _

theorem Accounts.recover {parts : List PlanUnit}
    (accounts : Search.Accounts scan r.session (task :: r.waiting)
      (fun urn type => counted stored urn type + counted r.tally urn type) r.types.amount)
    (pieces : parts ≠ [] → scan.Pieces task.unit parts) :
    (r.recover task parts).Accounts scan stored := by
  unfold Request.recover
  split
  · next some =>
      refine Accounts.putBack accounts ?_
      rw [List.map_map]
      exact (map_id parts).symm ▸ pieces some
  · exact Accounts.putBack accounts (scan.pieces_singleton task.unit)

theorem Accounts.stop (accounts : r.Accounts scan stored) (sure : r.doubt = none)
    (status : Status) :
    ({ r with session := { r.session with status } }.stop).Accounts scan stored := by
  refine Search.Accounts.moved accounts _ (scan.total_perm (Perm.map _ ?_)) status
  show ((r.inFlight.reverse ++ r.session.pending) ++ ([] ++ [])).Perm
    (r.session.pending ++ (r.inFlight ++ r.doubt.toList.map Doubt.task))
  rw [sure, append_nil, append_nil]
  show (r.inFlight.reverse ++ r.session.pending).Perm (r.session.pending ++ (r.inFlight ++ []))
  rw [append_nil]
  exact (reverse_perm _).append_right _ |>.trans perm_append_comm

end Request

/-! ## What every step keeps -/

structure Store.Ok (scan : Scan ρ) (store : Store ρ) : Prop where
  ranks : store.ranks = store.tallies.map fun entry => (entry.1, entry.2.held)
  accounts : ∀ session, store.session = some session → session.status ≠ .failed →
    Accounts scan session [] (counted store.tallies) (store.accumulator.getD []).amount
  complete : ∀ session, store.session = some session → session.status = .complete →
    session.pending = []

def Phase.scans : Phase → Bool
  | .scanning | .committing => true
  | _ => false

def Phase.waits : Phase → Bool
  | .arrived | .leased => true
  | _ => false

structure Request.Ok (scan : Scan ρ) (store : Store ρ) (i : ℕ) (r : Request ρ) : Prop where
  once : r.tally.keys.Nodup
  fresh : r.phase.waits = true → r.tally = [] ∧ r.inFlight = [] ∧
    r.doubt = none ∧ (r.created = true → (∃ plan, r.session = .start plan) ∧ r.types = [])
  complete : r.phase.scans = true → store.lease = some i → r.session.status = .complete →
    r.session.pending = [] ∧ r.inFlight = [] ∧ r.doubt = none
  stopped : r.phase = .committing → r.inFlight = [] ∧ r.doubt = none
  accounts : r.phase.scans = true → store.lease = some i → r.session.status ≠ .failed →
    r.Accounts scan store.tallies
  bare : r.phase.scans = true → store.lease = some i → r.session.status ≠ .failed →
    ∀ session, store.session = some session → session.status = .failed → store.tallies = []

structure SessionSystem.Ok (scan : Scan ρ) (s : SessionSystem ρ) : Prop where
  store : s.store.Ok scan
  requests : ∀ (i : ℕ) (r : Request ρ), s.requests[i]? = some r → r.Ok scan s.store i

/-- Nothing is left of an earlier session. -/
def Store.Bare (store : Store ρ) : Prop :=
  store.tallies = [] ∧ store.accumulator = none

/-- What a step must not do: start a session over beside what an earlier one left, cancel a scan
with a unit in doubt, scan on from a session that is gone, or cut a unit into what tells
otherwise. -/
def SessionSystem.Sound (scan : Scan ρ) (s : SessionSystem ρ) : SessionAction → Prop
  | .answer i => ∀ r, s.inPhase i .arrived = some r → r.created = true → s.store.Bare
  | .noSlot i => ∀ r, s.inPhase i .leased = some r → s.store.lease = some i → r.created = true →
      s.store.Bare
  | .begin i => ∀ r, s.inPhase i .leased = some r → s.store.lease = some i →
      (s.store.session = none → r.created = true) ∧
      (r.created = true → (∀ latest, s.store.session = some latest → latest.status = .failed) →
        s.store.Bare) ∧
      (s.store.accumulator = none → r.types = [])
  | .land i n .slow => ∀ r, s.inPhase i .scanning = some r → s.store.lease = some i →
      ∀ task, r.inFlight[n]? = some task → ∀ parts, task.unit.split = some parts →
        scan.Pieces task.unit parts
  | .recover i parts => ∀ r, s.inPhase i .scanning = some r → s.store.lease = some i →
      ∀ task, r.doubt = some (.slow task) → parts ≠ [] → scan.Pieces task.unit parts
  | .cancel i => ∀ r, s.inPhase i .scanning = some r → s.store.lease = some i → r.doubt = none
  | _ => True

section

variable {s : SessionSystem ρ} {i : ℕ} {r r' : Request ρ} {store' : Store ρ} {phase : Phase}

omit [LinearOrder ρ] in
theorem SessionSystem.inPhase_eq_some (found : s.inPhase i phase = some r) :
    s.requests[i]? = some r ∧ r.phase = phase := by
  obtain ⟨listed, at_⟩ := filter_eq_some_iff.mp found
  exact ⟨listed, of_decide_eq_true at_⟩

theorem SessionSystem.Ok.put (ok : s.Ok scan) (store : store'.Ok scan)
    (others : ∀ (j : ℕ) (other : Request ρ), j ≠ i → other.Ok scan s.store j →
      other.Ok scan store' j)
    (here : r'.Ok scan store' i) :
    (({ s with store := store' } : SessionSystem ρ).put i r').Ok scan := by
  refine ⟨store, fun j other found => ?_⟩
  have found' : (s.requests.set i r')[j]? = some other := found
  rw [getElem?_set] at found'
  split at found'
  · next same =>
      split at found'
      · rw [← same, ← some.inj found']
        exact here
      · cases found'
  · next different => exact others j other (Ne.symm different) (ok.requests j other found')

/-- A request moves on by itself. -/
theorem SessionSystem.Ok.putSame (ok : s.Ok scan) (here : r'.Ok scan s.store i) :
    (s.put i r').Ok scan := by
  have store : s.store.Ok scan := ok.store
  exact ok.put store (fun _ _ _ same => same) here

theorem Request.Ok.of_lease (ok : r.Ok scan s.store i) (not : store'.lease ≠ some i) :
    r.Ok scan store' i :=
  ⟨ok.once, ok.fresh, fun _ lease => absurd lease not, ok.stopped,
    fun _ lease => absurd lease not, fun _ lease => absurd lease not⟩

theorem Request.Ok.ended (ok : r.Ok scan s.store i) (scans : phase.scans = false)
    (waits : phase.waits = false) : ({ r with phase } : Request ρ).Ok scan store' i := by
  refine ⟨ok.once, fun not => ?_, fun not => ?_, fun same => ?_, fun not => ?_, fun not => ?_⟩
  · exact Bool.noConfusion (waits.symm.trans not)
  · exact Bool.noConfusion (scans.symm.trans not)
  · have same' : phase = .committing := same
    rw [same'] at scans
    cases scans
  · exact Bool.noConfusion (scans.symm.trans not)
  · exact Bool.noConfusion (scans.symm.trans not)

omit [LinearOrder ρ] in
/-- A session is saved with nothing beside it. -/
theorem Store.save_session (store : Store ρ) (session : Session ρ) {token : Option ℕ}
    (accepted : ¬ (token.isSome ∧ store.lease ≠ token)) :
    store.save session token [] none = { store with session := some session } := by
  have merged : mergeTallies store.tallies [] = [] := rfl
  rw [Store.save, if_neg accepted, merged]
  dsimp only
  rw [map_nil, Dict.update_nil_right, Dict.update_nil_right]
  rfl

omit [LinearOrder ρ] in
theorem Session.pending_start {plan : List PlanUnit}
    (complete : (Session.start plan : Session ρ).status = .complete) :
    (Session.start plan : Session ρ).pending = [] := by
  unfold Session.start at complete ⊢
  split at complete
  · next none => rw [none, map_nil]
  · cases complete

theorem Store.Ok.start (ok : s.store.Ok scan) (bare : s.store.Bare) (plan : List PlanUnit) :
    ({ s.store with session := some (.start plan) } : Store ρ).Ok scan := by
  obtain ⟨tallies, accumulator⟩ := bare
  refine ⟨ok.ranks, ?_, ?_⟩
  · intro session same _
    obtain rfl := some.inj same
    rw [tallies, accumulator]
    exact accounts_start plan
  · intro session same complete
    obtain rfl := some.inj same
    exact Session.pending_start complete

omit [LinearOrder ρ] in
theorem Session.start_ne_failed (plan : List PlanUnit) :
    (Session.start plan : Session ρ).status ≠ .failed := by
  unfold Session.start
  split <;> exact nofun

variable {session : Session ρ}

theorem Request.Ok.saved (ok : r.Ok scan s.store i) (goes : session.status ≠ .failed) :
    r.Ok scan { s.store with session := some session } i := by
  refine ⟨ok.once, ok.fresh, ok.complete, ok.stopped, ok.accounts, ?_⟩
  intro _ _ _ other same failed
  obtain rfl := some.inj same
  exact absurd failed goes

theorem SessionSystem.Ok.arrive (ok : s.Ok scan) (plan : List PlanUnit) :
    ({ s with requests := s.requests ++ [s.arriving plan] } : SessionSystem ρ).Ok scan := by
  refine ⟨ok.store, fun j other found => ?_⟩
  have phase : (s.arriving plan).phase = .arrived := by
    unfold arriving
    split <;> rfl
  obtain old | ⟨_, new⟩ : s.requests[j]? = some other ∨ _ ∧ other = s.arriving plan := by
    have found' : (s.requests ++ [s.arriving plan])[j]? = some other := found
    rw [getElem?_append] at found'
    split at found'
    · exact .inl found'
    · have mem := mem_of_getElem? found'
      exact .inr ⟨trivial, mem_singleton.mp mem⟩
  · exact ok.requests j other old
  · subst new
    have past : (s.arriving plan).phase.scans ≠ true := by
      rw [phase]
      exact nofun
    refine ⟨?_, fun _ => ?_, fun not => absurd not past, fun same => ?_,
      fun not => absurd not past, fun not => absurd not past⟩
    · unfold arriving
      split <;> exact nodup_nil
    · unfold arriving
      split
      · exact ⟨rfl, rfl, rfl, nofun⟩
      · exact ⟨rfl, rfl, rfl, fun _ => ⟨⟨plan, rfl⟩, rfl⟩⟩
    · exact Phase.noConfusion (phase.symm.trans same)

theorem SessionSystem.Ok.answer (ok : s.Ok scan) (found : s.inPhase i .arrived = some r)
    (bare : r.created = true → s.store.Bare) :
    (({ s with store := if r.created then s.store.save r.session none [] none else s.store } :
      SessionSystem ρ).put i { r with phase := .ended }).Ok scan := by
  obtain ⟨listed, phase⟩ := inPhase_eq_some found
  have here := ok.requests i r listed
  by_cases created : r.created = true
  · obtain ⟨-, -, -, fresh⟩ := here.fresh (by rw [phase]; rfl)
    obtain ⟨⟨plan, start⟩, -⟩ := fresh created
    have saved : s.store.save r.session none [] none =
        { s.store with session := some (.start plan) } := by
      rw [start]
      exact Store.save_session _ _ (by simp)
    rw [if_pos created, saved]
    refine ok.put (ok.store.start (bare created) plan) ?_ (here.ended rfl rfl)
    exact fun j other _ was => was.saved (Session.start_ne_failed plan)
  · rw [if_neg created]
    exact ok.putSame (here.ended rfl rfl)

theorem SessionSystem.Ok.takeLease (ok : s.Ok scan) (found : s.inPhase i .arrived = some r) :
    (({ s with store := { s.store with lease := some i } } : SessionSystem ρ).put i
      { r with phase := .leased }).Ok scan := by
  obtain ⟨listed, phase⟩ := inPhase_eq_some found
  have here := ok.requests i r listed
  refine ok.put ⟨ok.store.ranks, ok.store.accounts, ok.store.complete⟩ ?_ ?_
  · intro j other different was
    exact was.of_lease fun same => different (some.inj same).symm
  · exact ⟨here.once, fun _ => here.fresh (by rw [phase]; rfl), nofun, nofun, nofun, nofun⟩

/-- Whatever is saved under a lease, the other requests do not see. -/
theorem Request.Ok.other {tallies : Dict String Tally} {accumulator : Option (Dict String ℕ)}
    {j : ℕ} (ok : r.Ok scan s.store j) (different : j ≠ i) :
    r.Ok scan (s.store.save session (some i) tallies accumulator) j := by
  unfold Store.save
  split
  · exact ok
  · next accepted =>
      have lease : s.store.lease = some i := by
        by_contra other
        exact accepted ⟨rfl, other⟩
      refine ok.of_lease fun same => different ?_
      exact some.inj (same.symm.trans lease)

theorem SessionSystem.Ok.noSlot (ok : s.Ok scan) (found : s.inPhase i .leased = some r)
    (bare : s.store.lease = some i → r.created = true → s.store.Bare) :
    (({ s with store := if r.created then s.store.save r.session (some i) [] none else s.store } :
      SessionSystem ρ).put i { r with phase := .releasing }).Ok scan := by
  obtain ⟨listed, phase⟩ := inPhase_eq_some found
  have here := ok.requests i r listed
  by_cases created : r.created = true
  · obtain ⟨-, -, -, fresh⟩ := here.fresh (by rw [phase]; rfl)
    obtain ⟨⟨plan, start⟩, -⟩ := fresh created
    rw [if_pos created]
    refine ok.put ?_ (fun j other different was => was.other different) (here.ended rfl rfl)
    by_cases lease : s.store.lease = some i
    · rw [start, Store.save_session _ _ (by simp [lease])]
      exact ok.store.start (bare lease created) plan
    · rw [Store.save, if_pos ⟨rfl, lease⟩]
      exact ok.store
  · rw [if_neg created]
    exact ok.putSame (here.ended rfl rfl)

omit [LinearOrder ρ] in
/-- What a request that has the lease begins with. -/
theorem SessionSystem.beginning_session (s : SessionSystem ρ) (scan : Scan ρ) (r : Request ρ)
    (there : s.store.session = none → r.created = true) :
    (∃ latest, s.store.session = some latest ∧ (s.beginning scan r).session = latest) ∨
      r.created = true ∧ (s.beginning scan r).session = r.session ∧
        ∀ latest, s.store.session = some latest → latest.status = .failed := by
  unfold beginning
  cases stored : s.store.session with
  | none => exact .inr ⟨there stored, rfl, nofun⟩
  | some latest =>
    dsimp only
    by_cases replaced : r.created = true ∧ latest.status = .failed
    · rw [if_pos replaced]
      refine .inr ⟨replaced.1, rfl, ?_⟩
      intro other same
      rw [← some.inj same]
      exact replaced.2
    · rw [if_neg replaced]
      exact .inl ⟨latest, rfl, rfl⟩

theorem SessionSystem.Ok.begin (ok : s.Ok scan) (found : s.inPhase i .leased = some r)
    (there : s.store.lease = some i → s.store.session = none → r.created = true)
    (bare : s.store.lease = some i → r.created = true →
      (∀ latest, s.store.session = some latest → latest.status = .failed) → s.store.Bare)
    (read : s.store.lease = some i → s.store.accumulator = none → r.types = []) :
    (s.put i (s.beginning scan r)).Ok scan := by
  obtain ⟨listed, phase⟩ := inPhase_eq_some found
  have here := ok.requests i r listed
  obtain ⟨tally, inFlight, doubt, fresh⟩ := here.fresh (by rw [phase]; rfl)
  have waiting : (s.beginning scan r).waiting = [] := by
    show r.inFlight ++ r.doubt.toList.map Doubt.task = []
    rw [inFlight, doubt]
    rfl
  have types (lease : s.store.lease = some i) (work : scan.work = .connecting) :
      (s.beginning scan r).types = s.store.accumulator.getD [] := by
    unfold beginning
    rw [work]
    cases accumulator : s.store.accumulator with
    | none => exact read lease accumulator
    | some kept => rfl
  refine ok.putSame ⟨here.once, nofun, ?_, nofun, ?_, ?_⟩
  · intro _ lease complete
    refine ⟨?_, inFlight, doubt⟩
    obtain ⟨latest, stored, same⟩ | ⟨created, same, -⟩ := s.beginning_session scan r (there lease)
    · rw [same] at complete ⊢
      exact ok.store.complete latest stored complete
    · obtain ⟨⟨plan, start⟩, -⟩ := fresh created
      rw [same, start] at complete ⊢
      exact Session.pending_start complete
  · intro _ lease goes
    rw [Request.Accounts, waiting]
    have own : (s.beginning scan r).tally = [] := tally
    obtain ⟨latest, stored, same⟩ | ⟨created, same, failed⟩ :=
      s.beginning_session scan r (there lease)
    · rw [same] at goes ⊢
      refine (ok.store.accounts latest stored goes).congr (fun _ => ?_) fun work => ?_
      · rw [own]
        rfl
      · rw [types lease work]
    · obtain ⟨⟨plan, start⟩, -⟩ := fresh created
      obtain ⟨tallies, accumulator⟩ := bare lease created failed
      rw [same, start]
      refine (accounts_start plan).congr (fun _ => ?_) fun work => ?_
      · rw [own, tallies]
        rfl
      · rw [types lease work, accumulator]
        rfl
  · intro _ lease goes session stored failed
    obtain ⟨latest, stored', same⟩ | ⟨created, -, all⟩ := s.beginning_session scan r (there lease)
    · rw [stored] at stored'
      obtain rfl := some.inj stored'
      rw [same] at goes
      exact absurd failed goes
    · exact (bare lease created all).1

theorem SessionSystem.Ok.moves (ok : s.Ok scan) (found : s.inPhase i .scanning = some r)
    (once : r'.tally.keys.Nodup) (waits : r'.phase.waits = false)
    (complete : s.store.lease = some i →
      (r.session.status = .complete → r.session.pending = [] ∧ r.inFlight = [] ∧ r.doubt = none) →
      r'.session.status = .complete → r'.session.pending = [] ∧ r'.inFlight = [] ∧ r'.doubt = none)
    (stopped : r'.phase = .committing → r'.inFlight = [] ∧ r'.doubt = none)
    (failed : r.session.status = .failed → r'.session.status = .failed)
    (accounts : s.store.lease = some i → r.Accounts scan s.store.tallies →
      r'.session.status ≠ .failed → r'.Accounts scan s.store.tallies) : (s.put i r').Ok scan := by
  obtain ⟨listed, phase⟩ := inPhase_eq_some found
  have here := ok.requests i r listed
  have scans : r.phase.scans = true := by rw [phase]; rfl
  refine ok.putSame ⟨once, fun not => Bool.noConfusion (waits.symm.trans not), ?_, stopped, ?_, ?_⟩
  · exact fun _ lease => complete lease (here.complete scans lease)
  · exact fun _ lease goes => accounts lease
      (here.accounts scans lease fun fails => goes (failed fails)) goes
  · exact fun _ lease goes => here.bare scans lease fun fails => goes (failed fails)

variable {task : Task}

theorem SessionSystem.Ok.start (ok : s.Ok scan) (found : s.inPhase i .scanning = some r)
    (running : r.session.status = .running) {rest : List Task}
    (pending : r.session.pending = task :: rest) :
    (s.put i { r with
      session := { r.session with pending := rest }, inFlight := r.inFlight ++ [task] }).Ok
      scan := by
  obtain ⟨listed, phase⟩ := inPhase_eq_some found
  refine ok.moves found (ok.requests i r listed).once ?_ ?_ ?_ id ?_
  · rw [phase]
    rfl
  · exact fun _ _ complete => Status.noConfusion (running.symm.trans complete)
  · exact fun same => Phase.noConfusion (phase.symm.trans same)
  · intro _ accounts _
    refine accounts.moved rest (scan.total_perm (Perm.map _ ?_)) r.session.status
    show (rest ++ (r.inFlight ++ [task] ++ r.doubt.toList.map Doubt.task)).Perm
      (r.session.pending ++ (r.inFlight ++ r.doubt.toList.map Doubt.task))
    rw [pending, append_assoc]
    refine ((perm_middle.append_left rest).trans ?_)
    exact perm_middle

/-- A unit in flight is one that is waited for. -/
theorem Request.Accounts.landing {stored : Dict String Tally} (accounts : r.Accounts scan stored)
    {n : ℕ} (flies : r.inFlight[n]? = some task) :
    Search.Accounts scan r.session (task :: { r with inFlight := r.inFlight.eraseIdx n }.waiting)
      (fun urn type => counted stored urn type + counted r.tally urn type) r.types.amount := by
  refine Search.Accounts.moved accounts r.session.pending ?_ r.session.status
  refine scan.total_perm (Perm.map _ (Perm.append_left _ ?_))
  obtain ⟨inside, rfl⟩ := List.getElem?_eq_some_iff.mp flies
  exact (getElem_cons_eraseIdx_perm inside).append_right _

theorem Request.nodup_land (scan : Scan ρ) (once : r.tally.keys.Nodup) (task : Task)
    (outcome : Outcome) : (r.land scan task outcome).tally.keys.Nodup := by
  cases outcome with
  | told =>
    rw [Request.land]
    cases scan.tell task.unit with
    | found count rows tallied => exact nodup_foldl_addTally tallied once
    | linked typed => exact once
  | busy => exact once
  | dropped => exact once
  | failed => exact once
  | slow =>
    rw [Request.land]
    cases task.unit.split with
    | some parts => exact once
    | none =>
      dsimp only
      split <;> exact once

theorem Request.land_session_phase (scan : Scan ρ) (r : Request ρ) (task : Task)
    (outcome : Outcome) : (r.land scan task outcome).phase = r.phase ∧
      ((r.land scan task outcome).session.status = r.session.status ∨
        (r.land scan task outcome).session.status = .failed) := by
  cases outcome with
  | told =>
    rw [Request.land]
    cases scan.tell task.unit <;> exact ⟨rfl, .inl rfl⟩
  | busy => exact ⟨rfl, .inl rfl⟩
  | dropped => exact ⟨rfl, .inl rfl⟩
  | failed => exact ⟨rfl, .inr rfl⟩
  | slow =>
    rw [Request.land]
    cases task.unit.split with
    | some parts => exact ⟨rfl, .inl rfl⟩
    | none =>
      dsimp only
      split <;> exact ⟨rfl, .inl rfl⟩

theorem SessionSystem.Ok.land (ok : s.Ok scan) (found : s.inPhase i .scanning = some r)
    (running : r.session.status = .running) (sure : r.doubt = none) {n : ℕ}
    (flies : r.inFlight[n]? = some task) {outcome : Request.Outcome}
    (pieces : s.store.lease = some i → outcome = .slow → ∀ parts,
      task.unit.split = some parts → scan.Pieces task.unit parts) :
    (s.put i ({ r with inFlight := r.inFlight.eraseIdx n }.land scan task outcome)).Ok scan := by
  obtain ⟨listed, phase⟩ := inPhase_eq_some found
  have once := (ok.requests i r listed).once
  obtain ⟨samePhase, status⟩ :=
    Request.land_session_phase scan { r with inFlight := r.inFlight.eraseIdx n } task outcome
  refine ok.moves found (Request.nodup_land (r := { r with inFlight := r.inFlight.eraseIdx n })
    scan once task outcome) ?_ ?_ ?_ ?_ ?_
  · rw [samePhase]
    rw [phase]
    rfl
  · intro _ _ complete
    rw [complete] at status
    obtain same | same := status
    · exact Status.noConfusion (running.symm.trans same.symm)
    · cases same
  · exact fun same => Phase.noConfusion ((samePhase.trans phase).symm.trans same)
  · exact fun fails => Status.noConfusion (running.symm.trans fails)
  · intro lease accounts goes
    exact Request.Accounts.land (r := { r with inFlight := r.inFlight.eraseIdx n }) sure
      (accounts.landing flies) (pieces lease) goes

/-- A unit in doubt is one that is waited for. -/
theorem Request.Accounts.doubted {stored : Dict String Tally} (accounts : r.Accounts scan stored)
    {doubt : Doubt} (unsure : r.doubt = some doubt) :
    Search.Accounts scan r.session (doubt.task :: { r with doubt := none }.waiting)
      (fun urn type => counted stored urn type + counted r.tally urn type) r.types.amount := by
  refine Search.Accounts.moved accounts r.session.pending ?_ r.session.status
  refine scan.total_perm (Perm.map _ (Perm.append_left _ ?_))
  rw [Request.waiting, Request.waiting, unsure]
  show (doubt.task :: (r.inFlight ++ [])).Perm (r.inFlight ++ [doubt.task])
  rw [append_nil]
  show ([doubt.task] ++ r.inFlight).Perm (r.inFlight ++ [doubt.task])
  exact perm_append_comm

theorem SessionSystem.Ok.hold (ok : s.Ok scan) (found : s.inPhase i .scanning = some r)
    (unsure : r.doubt = some (.dropped task)) (answers : Bool) :
    (s.put i ({ r with doubt := none }.hold task answers)).Ok scan := by
  obtain ⟨listed, phase⟩ := inPhase_eq_some found
  have same : ({ r with doubt := none }.hold task answers).phase = r.phase ∧
      ({ r with doubt := none }.hold task answers).tally = r.tally ∧
      ({ r with doubt := none }.hold task answers).session.status = r.session.status := by
    unfold Request.hold
    generalize (task.drops + if task.dropMark < r.session.scanned ∨ answers then 1 else 0) = drops
    dsimp only
    split <;> exact ⟨rfl, rfl, rfl⟩
  refine ok.moves found ?_ ?_ ?_ ?_ ?_ ?_
  · rw [same.2.1]
    exact (ok.requests i r listed).once
  · rw [same.1, phase]
    rfl
  · intro _ complete done
    rw [same.2.2] at done
    rw [(complete done).2.2] at unsure
    cases unsure
  · exact fun committing => Phase.noConfusion ((same.1.trans phase).symm.trans committing)
  · rw [same.2.2]
    exact id
  · exact fun _ accounts _ => Request.Accounts.hold answers (accounts.doubted unsure)

theorem SessionSystem.Ok.recover (ok : s.Ok scan) (found : s.inPhase i .scanning = some r)
    (unsure : r.doubt = some (.slow task)) {parts : List PlanUnit}
    (pieces : s.store.lease = some i → parts ≠ [] → scan.Pieces task.unit parts) :
    (s.put i ({ r with doubt := none }.recover task parts)).Ok scan := by
  obtain ⟨listed, phase⟩ := inPhase_eq_some found
  have same : ({ r with doubt := none }.recover task parts).phase = r.phase ∧
      ({ r with doubt := none }.recover task parts).tally = r.tally ∧
      ({ r with doubt := none }.recover task parts).session.status = r.session.status := by
    unfold Request.recover
    split <;> exact ⟨rfl, rfl, rfl⟩
  refine ok.moves found ?_ ?_ ?_ ?_ ?_ ?_
  · rw [same.2.1]
    exact (ok.requests i r listed).once
  · rw [same.1, phase]
    rfl
  · intro _ complete done
    rw [same.2.2] at done
    rw [(complete done).2.2] at unsure
    cases unsure
  · exact fun committing => Phase.noConfusion ((same.1.trans phase).symm.trans committing)
  · rw [same.2.2]
    exact id
  · exact fun lease accounts _ => Request.Accounts.recover (accounts.doubted unsure) (pieces lease)

theorem SessionSystem.Ok.stop (ok : s.Ok scan) (found : s.inPhase i .scanning = some r)
    (sure : s.store.lease = some i → r.doubt = none) : (s.put i r.stop).Ok scan := by
  obtain ⟨listed, phase⟩ := inPhase_eq_some found
  refine ok.moves found (ok.requests i r listed).once rfl ?_ (fun _ => ⟨rfl, rfl⟩) id ?_
  · intro _ complete done
    obtain ⟨pending, inFlight, -⟩ := complete done
    refine ⟨?_, rfl, rfl⟩
    show r.inFlight.reverse ++ r.session.pending = []
    rw [pending, inFlight]
    rfl
  · exact fun lease accounts _ => Request.Accounts.stop accounts (sure lease) r.session.status

theorem SessionSystem.Ok.finish (ok : s.Ok scan) (found : s.inPhase i .scanning = some r)
    (sure : r.doubt = none) : (s.put i r.finish).Ok scan := by
  obtain ⟨listed, phase⟩ := inPhase_eq_some found
  unfold Request.finish
  split
  · next finished =>
      obtain ⟨running, pending, inFlight⟩ := finished
      refine ok.moves found (ok.requests i r listed).once rfl ?_ (fun _ => ⟨rfl, rfl⟩) ?_ ?_
      · intro _ _ _
        refine ⟨?_, rfl, rfl⟩
        show r.inFlight.reverse ++ r.session.pending = []
        rw [pending, inFlight]
        rfl
      · exact fun fails => Status.noConfusion (running.symm.trans fails)
      · exact fun _ accounts _ => Request.Accounts.stop accounts sure .complete
  · exact ok.stop found fun _ => sure

/-- A session that is saved with what its request keeps. -/
theorem Store.Ok.save (ok : s.store.Ok scan) {token : Option ℕ} {own : Dict String Tally}
    {accumulator : Option (Dict String ℕ)} (once : own.keys.Nodup)
    (complete : (token.isSome → s.store.lease = token) → session.status = .complete →
      session.pending = [])
    (accounts : (token.isSome → s.store.lease = token) → session.status ≠ .failed →
      Accounts scan session [] (fun urn type => counted s.store.tallies urn type +
        counted own urn type) ((accumulator.orElse fun _ => s.store.accumulator).getD []).amount) :
    (s.store.save session token own accumulator).Ok scan := by
  unfold Store.save
  split
  · exact ok
  · next accepted =>
      have lease (some : token.isSome = true) : s.store.lease = token := by
        by_contra other
        exact accepted ⟨some, other⟩
      refine ⟨?_, ?_, ?_⟩
      · rw [ok.ranks]
        exact (Dict.map_update _ _ Tally.held).symm
      · intro other same goes
        obtain rfl := some.inj same
        refine (accounts lease goes).congr (fun _ => ?_) fun _ => rfl
        funext urn type
        exact counted_update once urn type
      · intro other same
        obtain rfl := some.inj same
        exact complete lease

theorem SessionSystem.Ok.commit (ok : s.Ok scan) (found : s.inPhase i .committing = some r) :
    (({ s with store := s.committed scan i r } : SessionSystem ρ).put i
      { r with phase := .releasing }).Ok scan := by
  obtain ⟨listed, phase⟩ := inPhase_eq_some found
  have here := ok.requests i r listed
  have scans : r.phase.scans = true := by rw [phase]; rfl
  have complete (lease : (some i).isSome → s.store.lease = some i)
      (done : r.session.status = .complete) : r.session.pending = [] :=
    (here.complete scans (lease rfl) done).1
  have waiting : r.waiting = [] := by
    obtain ⟨inFlight, doubt⟩ := here.stopped phase
    rw [Request.waiting, inFlight, doubt]
    rfl
  have accounts (lease : (some i).isSome → s.store.lease = some i)
      (goes : r.session.status ≠ .failed) := here.accounts scans (lease rfl) goes
  simp only [Request.Accounts, waiting] at accounts
  refine ok.put ?_ ?_ (here.ended rfl rfl)
  · unfold committed
    split
    · next failed =>
        exact ok.store.save nodup_nil complete fun _ goes => absurd failed goes
    · split
      · next work =>
          refine ok.store.save here.once complete fun lease goes => ?_
          refine (accounts lease goes).congr (fun _ => rfl) fun work' => ?_
          exact Work.noConfusion (work.symm.trans work')
      · next work =>
          refine ok.store.save nodup_nil complete fun lease goes => ?_
          refine (accounts lease goes).congr (fun work' => ?_) fun _ => rfl
          exact Work.noConfusion (work.symm.trans work')
  · intro j other different was
    unfold committed
    split
    · exact was.other different
    · split <;> exact was.other different

theorem SessionSystem.Ok.freeLease (ok : s.Ok scan) :
    ({ s with store := { s.store with lease := none } } : SessionSystem ρ).Ok scan :=
  ⟨⟨ok.store.ranks, ok.store.accounts, ok.store.complete⟩,
    fun i r found => (ok.requests i r found).of_lease nofun⟩

theorem SessionSystem.Ok.lapse (ok : s.Ok scan) (stored : s.store.session = some session)
    (failed : session.status = .failed) :
    ({ s with store := { s.store with session := none, tallies := [], ranks := [] } } :
      SessionSystem ρ).Ok scan := by
  refine ⟨⟨rfl, nofun, nofun⟩, fun i r found => ?_⟩
  have here := ok.requests i r found
  refine ⟨here.once, here.fresh, here.complete, here.stopped, ?_, fun _ _ _ _ none => nomatch none⟩
  intro scans lease goes
  have bare := here.bare scans lease goes session stored failed
  have accounts := here.accounts scans lease goes
  rw [bare] at accounts
  exact accounts

theorem SessionSystem.Ok.lapseAccumulator (ok : s.Ok scan)
    (failed : ∀ session ∈ s.store.session, session.status = .failed) :
    ({ s with store := { s.store with accumulator := none } } : SessionSystem ρ).Ok scan := by
  refine ⟨⟨ok.store.ranks, ?_, ok.store.complete⟩, fun i r found => ?_⟩
  · exact fun session stored goes => absurd (failed session stored) goes
  · have here := ok.requests i r found
    exact ⟨here.once, here.fresh, here.complete, here.stopped, here.accounts, here.bare⟩

theorem SessionSystem.Ok.crash (ok : s.Ok scan) (listed : s.requests[i]? = some r)
    (scans : phase.scans = false) (waits : phase.waits = false) :
    (s.put i { r with phase }).Ok scan :=
  ok.putSame ((ok.requests i r listed).ended scans waits)

theorem SessionSystem.Ok.step (ok : s.Ok scan) {action : SessionAction}
    (sound : s.Sound scan action) {s' : SessionSystem ρ} (ran : s.step scan action = some s') :
    s'.Ok scan := by
  cases action with
  | arrive plan =>
    obtain rfl := some.inj ran
    exact ok.arrive plan
  | answer i =>
    obtain ⟨r, found, ran⟩ := bind_eq_some_iff.mp ran
    obtain ⟨_, _, ran⟩ := bind_eq_some_iff.mp ran
    obtain rfl := some.inj ran
    exact ok.answer found (sound r found)
  | takeLease i =>
    obtain ⟨r, found, ran⟩ := bind_eq_some_iff.mp ran
    obtain ⟨_, _, ran⟩ := bind_eq_some_iff.mp ran
    split at ran
    · obtain rfl := some.inj ran
      exact ok.takeLease found
    · obtain rfl := some.inj ran
      exact ok.crash (inPhase_eq_some found).1 rfl rfl
  | noSlot i =>
    obtain ⟨r, found, ran⟩ := bind_eq_some_iff.mp ran
    obtain rfl := some.inj ran
    exact ok.noSlot found (sound r found)
  | begin i =>
    obtain ⟨r, found, ran⟩ := bind_eq_some_iff.mp ran
    obtain rfl := some.inj ran
    exact ok.begin found (fun lease => (sound r found lease).1)
      (fun lease => (sound r found lease).2.1) fun lease => (sound r found lease).2.2
  | start i =>
    obtain ⟨r, found, ran⟩ := bind_eq_some_iff.mp ran
    obtain ⟨_, running, ran⟩ := bind_eq_some_iff.mp ran
    split at ran
    · next task rest pending =>
        obtain rfl := some.inj ran
        exact ok.start found ((guard_eq_some' _).mp running) pending
    · cases ran
  | land i n outcome =>
    obtain ⟨r, found, ran⟩ := bind_eq_some_iff.mp ran
    obtain ⟨_, running, ran⟩ := bind_eq_some_iff.mp ran
    obtain ⟨task, flies, ran⟩ := bind_eq_some_iff.mp ran
    obtain rfl := some.inj ran
    obtain ⟨running, sure⟩ := (guard_eq_some' _).mp running
    refine ok.land found running sure flies ?_
    rintro lease rfl
    exact sound r found lease task flies
  | hold i answers =>
    obtain ⟨r, found, ran⟩ := bind_eq_some_iff.mp ran
    split at ran
    · next task unsure =>
        obtain rfl := some.inj ran
        exact ok.hold found unsure answers
    · cases ran
  | recover i parts =>
    obtain ⟨r, found, ran⟩ := bind_eq_some_iff.mp ran
    split at ran
    · next task unsure =>
        obtain rfl := some.inj ran
        exact ok.recover found unsure fun lease => sound r found lease task unsure
    · cases ran
  | finish i =>
    obtain ⟨r, found, ran⟩ := bind_eq_some_iff.mp ran
    obtain ⟨_, sure, ran⟩ := bind_eq_some_iff.mp ran
    obtain rfl := some.inj ran
    exact ok.finish found ((guard_eq_some' _).mp sure)
  | cancel i =>
    obtain ⟨r, found, ran⟩ := bind_eq_some_iff.mp ran
    obtain rfl := some.inj ran
    exact ok.stop found (sound r found)
  | commit i =>
    obtain ⟨r, found, ran⟩ := bind_eq_some_iff.mp ran
    obtain rfl := some.inj ran
    exact ok.commit found
  | skipCommit i =>
    obtain ⟨r, found, ran⟩ := bind_eq_some_iff.mp ran
    obtain rfl := some.inj ran
    exact ok.crash (inPhase_eq_some found).1 rfl rfl
  | checkRelease i =>
    obtain ⟨r, found, ran⟩ := bind_eq_some_iff.mp ran
    obtain rfl := some.inj ran
    split
    · exact ok.crash (inPhase_eq_some found).1 rfl rfl
    · exact ok.crash (inPhase_eq_some found).1 rfl rfl
  | deleteLease i =>
    obtain ⟨r, found, ran⟩ := bind_eq_some_iff.mp ran
    obtain rfl := some.inj ran
    exact SessionSystem.Ok.crash ok.freeLease (inPhase_eq_some found).1 rfl rfl
  | crash i =>
    obtain ⟨r, listed, ran⟩ := bind_eq_some_iff.mp ran
    obtain rfl := some.inj ran
    exact ok.crash listed rfl rfl
  | expireLease =>
    obtain rfl := some.inj ran
    exact ok.freeLease
  | lapse =>
    obtain ⟨session, stored, ran⟩ := bind_eq_some_iff.mp ran
    obtain ⟨_, failed, ran⟩ := bind_eq_some_iff.mp ran
    obtain rfl := some.inj ran
    exact ok.lapse stored ((guard_eq_some' _).mp failed)
  | lapseAccumulator =>
    obtain ⟨_, failed, ran⟩ := bind_eq_some_iff.mp ran
    obtain rfl := some.inj ran
    exact ok.lapseAccumulator ((guard_eq_some' _).mp failed)

end

/-! ## Runs -/

/-- The session in the store, if it is complete with nothing left out, has counted the units of its
plan, each once, and so have the tallies and the counts by type beside it. -/
def Store.CountsOnce (scan : Scan ρ) (store : Store ρ) : Prop :=
  ∀ session, store.session = some session → session.status = .complete → session.leftOut = 0 →
    session.count = (session.plan.map fun unit => (scan.tell unit).count).sum ∧
    session.rows = firstRows (· ≤ ·) scan.k
      (session.plan.flatMap fun unit => (scan.tell unit).rows) ∧
    (scan.work = .matching → (∀ urn type, counted store.tallies urn type =
      (session.plan.map fun unit => (scan.tell unit).tallied urn type).sum) ∧
      store.ranks = store.tallies.map fun entry => (entry.1, entry.2.held)) ∧
    (scan.work = .connecting → ∀ type, (store.accumulator.getD []).amount type =
      (session.plan.map fun unit => (scan.tell unit).typed type).sum)

theorem Store.Ok.countsOnce {store : Store ρ} (ok : store.Ok scan) : store.CountsOnce scan := by
  intro session stored complete leftOut
  have goes : session.status ≠ .failed := by
    rw [complete]
    exact nofun
  obtain ⟨done, left, accounting⟩ := ok.accounts session stored goes
  have all : scan.total session.plan = done := by
    rw [accounting.total, accounting.left leftOut, ok.complete session stored complete]
    exact (add_zero _).trans (add_zero _)
  rw [scan.total_eq] at all
  have count := congrArg Prod.fst all
  have rest := congrArg Prod.snd all
  have rows := congrArg Prod.fst rest
  have tallied := congrArg (fun amount => amount.2.1) rest
  have typed := congrArg (fun amount => amount.2.2) rest
  refine ⟨accounting.count.trans count.symm, ?_, ?_, ?_⟩
  · obtain ⟨listed, told, first⟩ := accounting.rows
    rw [first]
    exact firstRows_of_perm (apart _) (Multiset.coe_eq_coe.mp (told.symm.trans rows.symm))
  · intro work
    refine ⟨fun urn type => ?_, ok.ranks⟩
    rw [accounting.tallied work, ← tallied]
  · intro work type
    rw [accounting.typed work, ← typed]

def SessionSystem.SoundRun (scan : Scan ρ) (s : SessionSystem ρ) : List SessionAction → Prop
  | [] => True
  | action :: rest =>
    s.Sound scan action ∧ ∀ s', s.step scan action = some s' → s'.SoundRun scan rest

theorem SessionSystem.ok_empty : ({} : SessionSystem ρ).Ok scan :=
  ⟨⟨rfl, nofun, nofun⟩, fun _ _ found => nomatch found⟩

theorem SessionSystem.Ok.after {s s' : SessionSystem ρ} (ok : s.Ok scan)
    {actions : List SessionAction} (sound : s.SoundRun scan actions)
    (ran : s.after scan actions = some s') : s'.Ok scan := by
  induction actions generalizing s with
  | nil =>
    obtain rfl := some.inj ran
    exact ok
  | cons action actions ih =>
    obtain ⟨first, rest⟩ := sound
    obtain ⟨next, moved, ran⟩ := bind_eq_some_iff.mp ran
    exact ih (ok.step first moved) (rest next moved) ran

/-- Whatever order the requests move in, when the lease expires, and which of them end: in a run
whose steps are all sound, a session that is complete with nothing left out has counted each unit
once. -/
theorem countsOnce_of_soundRun (scan : Scan ρ) (actions : List SessionAction)
    (s : SessionSystem ρ) (sound : SessionSystem.SoundRun scan {} actions)
    (ran : SessionSystem.after scan {} actions = some s) : s.store.CountsOnce scan :=
  (SessionSystem.ok_empty.after sound ran).store.countsOnce

def oneEach : Scan ℕ where
  work := .matching
  k := 2
  tell unit := .found 1 unit.roots [⟨"top", "Top", "Top", "Table", 1⟩]

/-- A step is sound by what the store holds: a session begins beside nothing, or goes on. -/
def SessionSystem.plainly (s : SessionSystem ρ) : SessionAction → Bool
  | .begin i => (s.inPhase i .leased).all fun r =>
    r.types.isEmpty && if r.created then s.store.tallies.isEmpty && s.store.accumulator.isNone
      else s.store.session.isSome
  | .answer _ | .noSlot _ | .land _ _ .slow | .recover _ _ | .cancel _ => false
  | _ => true

def SessionSystem.plainRun (scan : Scan ρ) (s : SessionSystem ρ) : List SessionAction → Bool
  | [] => true
  | action :: rest => s.plainly action && (s.step scan action).all fun s' => s'.plainRun scan rest

theorem SessionSystem.soundRun_of_plainRun {s : SessionSystem ρ} {actions : List SessionAction}
    (plain : s.plainRun scan actions = true) : s.SoundRun scan actions := by
  induction actions generalizing s with
  | nil => trivial
  | cons action rest ih =>
    rw [plainRun, Bool.and_eq_true] at plain
    obtain ⟨first, later⟩ := plain
    refine ⟨?_, fun s' moves => ih ?_⟩
    · cases action with
      | «begin» i =>
        intro r found _
        rw [plainly] at first
        by_cases created : r.created = true
        · simp_all [Store.Bare]
        · simp_all [isSome_iff_ne_none]
      | land i n outcome => cases outcome <;> trivial
      | _ => trivial
    · rwa [moves] at later

/-- Two units: the first request loses the lease and its commit, the second one counts a unit and
leaves the other pending, and the third one counts that. -/
def handedOver : List SessionAction :=
  let plan := [{ kind := .ids, roots := [7] }, { kind := .ids, roots := [8] }]
  [.arrive plan, .takeLease 0, .begin 0, .start 0, .start 0, .land 0 0 .told, .expireLease,
    .arrive plan, .takeLease 1, .begin 1, .finish 0, .commit 0, .checkRelease 0,
    .start 1, .land 1 0 .told, .finish 1, .commit 1, .checkRelease 1, .deleteLease 1,
    .arrive plan, .takeLease 2, .begin 2, .start 2, .land 2 0 .told, .finish 2, .commit 2]

theorem countsOnce_handedOver : ∃ s, SessionSystem.after oneEach {} handedOver = some s ∧
    (s.store.session.map (·.status)) = some .complete ∧ s.store.CountsOnce oneEach := by
  obtain ⟨s, ran, complete⟩ := (any_eq_true _ _).mp (by decide +kernel :
    ((SessionSystem.after oneEach {} handedOver).any fun s =>
      s.store.session.map (·.status) = some .complete) = true)
  exact ⟨s, ran, of_decide_eq_true complete, countsOnce_of_soundRun oneEach handedOver s
    (SessionSystem.soundRun_of_plainRun (by decide +kernel)) ran⟩

/-- Two units, of which the second fails once the first has been committed, and then both, planned
afresh. -/
def startedOver : List SessionAction :=
  let plan := [{ kind := .ids, roots := [7] }, { kind := .ids, roots := [8] }]
  [.arrive plan, .takeLease 0, .begin 0, .start 0, .land 0 0 .told, .finish 0, .commit 0,
    .checkRelease 0, .deleteLease 0,
    .arrive plan, .takeLease 1, .begin 1, .start 1, .land 1 0 .failed, .finish 1, .commit 1,
    .checkRelease 1, .deleteLease 1,
    .arrive plan, .takeLease 2, .begin 2, .start 2, .start 2, .land 2 0 .told, .land 2 0 .told,
    .finish 2, .commit 2]

/-- The tallies of the run that failed are still there when the next one commits. -/
theorem not_countsOnce_startedOver :
    ∃ s, SessionSystem.after oneEach {} startedOver = some s ∧ ¬ s.store.CountsOnce oneEach := by
  refine ⟨_, rfl, fun once => ?_⟩
  have tallies := (once _ rfl rfl rfl).2.2.1 rfl
  exact absurd (tallies.1 "top" none) (by decide)

end DataViz.Search
