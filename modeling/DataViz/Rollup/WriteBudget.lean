/-
# The write budget of a node

Rebuild jobs that write to one measured node check a budget before they write: the job reads the
node's used memory, reads what the other jobs hold in the node's ledger, gives its verdict, and only
then enters what it may write. The node has no container limit, every new edge costs the bytes per
edge of its job, and no entry of the ledger expires.

Used memory plus what the passed checks may still write never exceeds the allowance of the node, as
long as no step makes a promise, or forgets one, behind the reading of a check that is still open.
-/

import Mathlib.Algebra.Order.BigOperators.Group.Finset

namespace DataViz.Rollup

inductive BlockedBy where
  | shard
  | ceiling
  deriving DecidableEq

structure Verdict where
  ok : Bool
  blockedBy : Option BlockedBy
  projected : ℕ
  growthEdges : ℕ
  neededBytes : ℕ
  availableBytes : ℕ
  shortfallBytes : Option ℕ
  shortfallEdges : ℕ
  deriving DecidableEq

structure WriteBudget where
  bytesPerEdge : ℕ
  reservePct : ℕ
  reserveBytes : ℕ
  availableBytes : ℕ
  allowedGrowthEdges : ℕ
  explicitCeiling : Option ℕ
  reservedBytes : ℕ
  reservedByJobs : ℕ
  deriving DecidableEq

/-- What is written to without a margin: the room of the shard, below any ceiling set in
the tuning. -/
def WriteBudget.verdict (budget : WriteBudget) (projected growthEdges : ℕ) : Verdict :=
  let needed := growthEdges * budget.bytesPerEdge
  let available := budget.availableBytes
  let byShard : Verdict :=
    if available < needed then
      { ok := false, blockedBy := some .shard, projected, growthEdges, neededBytes := needed,
        availableBytes := available, shortfallBytes := some (needed - available),
        shortfallEdges :=
          (needed - available + budget.bytesPerEdge - 1) / budget.bytesPerEdge }
    else
      { ok := true, blockedBy := none, projected, growthEdges, neededBytes := needed,
        availableBytes := available, shortfallBytes := some 0, shortfallEdges := 0 }
  match budget.explicitCeiling with
  | none => byShard
  | some ceiling =>
    if ceiling < projected then
      { ok := false, blockedBy := some .ceiling, projected, growthEdges,
        neededBytes := needed, availableBytes := available, shortfallBytes := none,
        shortfallEdges := projected - ceiling }
    else byShard

structure Node where
  maxmemory : ℕ
  reservePct : ℕ
  deriving DecidableEq

def Node.reserveBytes (node : Node) : ℕ :=
  node.maxmemory * node.reservePct / 100

/-- What may be used of the node at all: its memory less the reserve. -/
def Node.allowance (node : Node) : ℕ :=
  node.maxmemory - node.reserveBytes

/-- The figures of a job that its checks are made with. -/
structure Tuning where
  bytesPerEdge : ℕ
  explicitCeiling : Option ℕ
  deriving DecidableEq

/-- `compute_write_budget` of a measured node without a container limit. -/
def computeWriteBudget (node : Node) (tuning : Tuning) (used reservedBytes reservedCount : ℕ) :
    WriteBudget :=
  let available := node.maxmemory - node.reserveBytes - used - reservedBytes
  { bytesPerEdge := tuning.bytesPerEdge
    reservePct := node.reservePct
    reserveBytes := node.reserveBytes
    availableBytes := available
    allowedGrowthEdges := available / tuning.bytesPerEdge
    explicitCeiling := tuning.explicitCeiling
    reservedBytes
    reservedByJobs := reservedCount }

/-- Where the check of a job stands: none is open, the used memory is read, the ledger is
read too, or the verdict is passed and the reservation still to be entered. -/
inductive Phase where
  | idle
  | readUsed (projected growthEdges used : ℕ)
  | readLedger (projected growthEdges used reservedBytes reservedCount : ℕ)
  | passed (neededBytes : ℕ)
  deriving DecidableEq

namespace Phase

/-- What a passed verdict is about to enter in the ledger. -/
def promised : Phase → ℕ
  | passed neededBytes => neededBytes
  | _ => 0

def awaitsLedger : Phase → Bool
  | readUsed .. => true
  | _ => false

def awaitsVerdict : Phase → Bool
  | readLedger .. => true
  | _ => false

end Phase

/-- The node with its ledger, where every job stands, and the bytes its last passed check
lets it write that it has not written yet. -/
structure Shared (Job : Type) where
  used : ℕ
  ledger : Job → Option ℕ
  phase : Job → Phase
  allowance : Job → ℕ

/-- One step of one job. A check is `_check_write_budget` cut at its awaits. -/
inductive Action (Job : Type) where
  | readUsed (job : Job) (projected growthEdges : ℕ)
  | readLedger (job : Job)
  | verdict (job : Job)
  | reserve (job : Job)
  | write (job : Job)
  | release (job : Job)

def Action.job {Job : Type} : Action Job → Job
  | .readUsed job _ _ | .readLedger job | .verdict job | .reserve job | .write job |
    .release job => job

variable {Job : Type} [Fintype Job] [DecidableEq Job]

namespace Shared

variable (state : Shared Job)

def heldBytes (job : Job) : ℕ :=
  (state.ledger job).getD 0

/-- `reserved_by_others`: the bytes all other jobs hold, and how many hold any entry. -/
def reservedByOthers (job : Job) : ℕ × ℕ :=
  (∑ other ∈ Finset.univ.erase job, state.heldBytes other,
    ((Finset.univ.erase job).filter fun other => (state.ledger other).isSome).card)

def check (node : Node) (tuning : Job → Tuning) (job : Job) : Option Verdict :=
  match state.phase job with
  | .readLedger projected growthEdges used reservedBytes reservedCount =>
    some ((computeWriteBudget node (tuning job) used reservedBytes reservedCount).verdict
      projected growthEdges)
  | _ => none

/-- Take a step, where the job stands at one. A refused check fails the job. -/
def step (node : Node) (tuning : Job → Tuning) : Action Job → Option (Shared Job)
  | .readUsed job projected growthEdges =>
    match state.phase job with
    | .idle => some { state with
        phase := Function.update state.phase job (.readUsed projected growthEdges state.used) }
    | _ => none
  | .readLedger job =>
    match state.phase job with
    | .readUsed projected growthEdges used => some { state with
        phase := Function.update state.phase job (.readLedger projected growthEdges used
          (state.reservedByOthers job).1 (state.reservedByOthers job).2) }
    | _ => none
  | .verdict job =>
    (state.check node tuning job).map fun verdict =>
      if verdict.ok then { state with
        phase := Function.update state.phase job (.passed verdict.neededBytes)
        allowance := Function.update state.allowance job verdict.neededBytes }
      else { state with
        phase := Function.update state.phase job .idle
        allowance := Function.update state.allowance job 0 }
  | .reserve job =>
    match state.phase job with
    | .passed neededBytes => some { state with
        phase := Function.update state.phase job .idle
        ledger := Function.update state.ledger job (some neededBytes) }
    | _ => none
  | .write job =>
    match state.phase job with
    | .idle =>
      if (tuning job).bytesPerEdge ≤ state.allowance job then some { state with
        used := state.used + (tuning job).bytesPerEdge
        allowance := Function.update state.allowance job
          (state.allowance job - (tuning job).bytesPerEdge) }
      else none
    | _ => none
  | .release job => some { state with
      phase := Function.update state.phase job .idle
      ledger := Function.update state.ledger job none
      allowance := Function.update state.allowance job 0 }

def run (node : Node) (tuning : Job → Tuning) : Shared Job → List (Action Job) → Option (Shared Job)
  | state, [] => some state
  | state, action :: rest => (state.step node tuning action).bind (run node tuning · rest)

/-- The step promises or forgets nothing that a check still open has not read. The ledger
is not read before a passed verdict is entered, unless the entry covers it. A verdict
promises no more than its job could write already while another check waits for its own,
nor forgets what its job has written while one waits for the ledger. No entry shrinks, and
none of a job that has written is released, while a check waits for the ledger. -/
def Guarded (node : Node) (tuning : Job → Tuning) : Action Job → Prop
  | .readLedger job =>
    ∀ other, other ≠ job → (state.phase other).promised ≤ state.heldBytes other
  | .verdict job =>
    ∀ verdict ∈ state.check node tuning job, verdict.ok → ∀ other, other ≠ job →
      ((state.phase other).awaitsVerdict → verdict.neededBytes ≤ state.allowance job) ∧
      ((state.phase other).awaitsLedger → verdict.neededBytes ≤ state.allowance job ∨
        state.heldBytes job ≤ state.allowance job)
  | .reserve job =>
    ∀ other, other ≠ job → (state.phase other).awaitsLedger →
      state.heldBytes job ≤ (state.phase job).promised
  | .release job =>
    ∀ other, other ≠ job → (state.phase other).awaitsLedger →
      state.heldBytes job ≤ state.allowance job
  | .readUsed .. => True
  | .write _ => True

def GuardedRun (node : Node) (tuning : Job → Tuning) : Shared Job → List (Action Job) → Prop
  | _, [] => True
  | state, action :: rest => state.Guarded node tuning action ∧
      ∀ next ∈ state.step node tuning action, GuardedRun node tuning next rest

instance decidableGuarded (node : Node) (tuning : Job → Tuning) :
    ∀ action, Decidable (state.Guarded node tuning action)
  | .readUsed .. | .write _ => .isTrue trivial
  | .readLedger job => inferInstanceAs (Decidable (∀ other, other ≠ job →
      (state.phase other).promised ≤ state.heldBytes other))
  | .verdict job => inferInstanceAs (Decidable
      (∀ verdict ∈ state.check node tuning job, verdict.ok → ∀ other, other ≠ job →
        ((state.phase other).awaitsVerdict → verdict.neededBytes ≤ state.allowance job) ∧
        ((state.phase other).awaitsLedger → verdict.neededBytes ≤ state.allowance job ∨
          state.heldBytes job ≤ state.allowance job)))
  | .reserve job => inferInstanceAs (Decidable (∀ other, other ≠ job →
      (state.phase other).awaitsLedger → state.heldBytes job ≤ (state.phase job).promised))
  | .release job => inferInstanceAs (Decidable (∀ other, other ≠ job →
      (state.phase other).awaitsLedger → state.heldBytes job ≤ state.allowance job))

instance decidableGuardedRun (node : Node) (tuning : Job → Tuning) :
    ∀ (state : Shared Job) (actions : List (Action Job)),
      Decidable (state.GuardedRun node tuning actions)
  | _, [] => .isTrue trivial
  | state, action :: rest =>
    have := fun next => decidableGuardedRun node tuning next rest
    inferInstanceAs (Decidable (state.Guarded node tuning action ∧
      ∀ next ∈ state.step node tuning action, GuardedRun node tuning next rest))

def atRest (used : ℕ) : Shared Job where
  used
  ledger := fun _ => none
  phase := fun _ => .idle
  allowance := fun _ => 0

/-- Nothing is promised or held, and the node is within its allowance. -/
structure Fresh (node : Node) : Prop where
  within : state.used ≤ node.allowance
  phase : ∀ job, state.phase job = .idle
  ledger : ∀ job, state.ledger job = none
  allowance : ∀ job, state.allowance job = 0

end Shared

section

variable {job : Job} {jobs : Finset Job} {before after : Job → ℕ}

omit [Fintype Job] [DecidableEq Job] in
theorem sum_of_agree_off (absent : job ∉ jobs)
    (agree : ∀ other, other ≠ job → after other = before other) :
    ∑ other ∈ jobs, after other = ∑ other ∈ jobs, before other := by
  apply Finset.sum_congr rfl
  intro other mem
  exact agree other fun same => absent (same ▸ mem)

omit [Fintype Job] in
theorem sum_add_of_agree_off (mem : job ∈ jobs)
    (agree : ∀ other, other ≠ job → after other = before other) :
    ∑ other ∈ jobs, after other + before job = ∑ other ∈ jobs, before other + after job := by
  have rest : ∑ other ∈ jobs.erase job, after other = ∑ other ∈ jobs.erase job, before other :=
    sum_of_agree_off (Finset.notMem_erase job jobs) agree
  rw [← Finset.add_sum_erase jobs after mem, ← Finset.add_sum_erase jobs before mem]
  omega

end

namespace Shared

/-- What the ledger holds for a job, or is about to if that is more. -/
def committed (state : Shared Job) (job : Job) : ℕ :=
  max (state.phase job).promised (state.heldBytes job)

/-- What holds between the steps of guarded runs. While a check waits for the ledger, its
reading of the used memory and what the others commit cover all the others may write;
once it has read the ledger, its two readings do. -/
structure Covered (node : Node) (state : Shared Job) : Prop where
  within : state.used + ∑ job, state.allowance job ≤ node.allowance
  passed : ∀ job neededBytes, state.phase job = .passed neededBytes →
    state.allowance job = neededBytes
  covered : ∀ job, state.allowance job ≤ state.committed job
  awaitsLedger : ∀ job projected growthEdges used,
    state.phase job = .readUsed projected growthEdges used →
    state.used + ∑ other ∈ Finset.univ.erase job, state.allowance other ≤
      used + ∑ other ∈ Finset.univ.erase job, state.committed other
  awaitsVerdict : ∀ job projected growthEdges used reservedBytes reservedCount,
    state.phase job = .readLedger projected growthEdges used reservedBytes reservedCount →
    state.used + ∑ other ∈ Finset.univ.erase job, state.allowance other ≤ used + reservedBytes

structure AgreeOff (job : Job) (before after : Shared Job) : Prop where
  phase : ∀ other, other ≠ job → after.phase other = before.phase other
  ledger : ∀ other, other ≠ job → after.ledger other = before.ledger other
  allowance : ∀ other, other ≠ job → after.allowance other = before.allowance other

variable {node : Node} {job : Job} {before after : Shared Job}

omit [Fintype Job] [DecidableEq Job] in
theorem AgreeOff.committed (agree : AgreeOff job before after) (other : Job)
    (distinct : other ≠ job) : after.committed other = before.committed other := by
  rw [Shared.committed, Shared.committed, heldBytes, heldBytes, agree.phase other distinct,
    agree.ledger other distinct]

theorem Covered.of_agreeOff (inv : before.Covered node) (agree : AgreeOff job before after)
    (within : after.used + ∑ other, after.allowance other ≤ node.allowance)
    (passed : ∀ neededBytes, after.phase job = .passed neededBytes →
      after.allowance job = neededBytes)
    (covered : after.allowance job ≤ after.committed job)
    (ownLedger : ∀ projected growthEdges used,
      after.phase job = .readUsed projected growthEdges used →
      after.used + ∑ other ∈ Finset.univ.erase job, after.allowance other ≤
        used + ∑ other ∈ Finset.univ.erase job, after.committed other)
    (ownVerdict : ∀ projected growthEdges used reservedBytes reservedCount,
      after.phase job = .readLedger projected growthEdges used reservedBytes reservedCount →
      after.used + ∑ other ∈ Finset.univ.erase job, after.allowance other ≤ used + reservedBytes)
    (forLedger : ∀ other, other ≠ job → (before.phase other).awaitsLedger →
      after.used + after.allowance job + before.committed job ≤
        before.used + before.allowance job + after.committed job)
    (forVerdict : ∀ other, other ≠ job → (before.phase other).awaitsVerdict →
      after.used + after.allowance job ≤ before.used + before.allowance job) :
    after.Covered node := by
  have mem (other : Job) (distinct : other ≠ job) : job ∈ Finset.univ.erase other :=
    Finset.mem_erase.mpr ⟨distinct.symm, Finset.mem_univ job⟩
  refine { within := within, passed := ?_, covered := ?_, awaitsLedger := ?_, awaitsVerdict := ?_ }
  · intro other neededBytes phase
    by_cases same : other = job
    · subst same
      exact passed neededBytes phase
    · rw [agree.allowance other same]
      exact inv.passed other neededBytes (agree.phase other same ▸ phase)
  · intro other
    by_cases same : other = job
    · subst same
      exact covered
    · rw [agree.allowance other same, agree.committed other same]
      exact inv.covered other
  · intro other projected growthEdges used phase
    by_cases same : other = job
    · subst same
      exact ownLedger projected growthEdges used phase
    · rw [agree.phase other same] at phase
      have old := inv.awaitsLedger other projected growthEdges used phase
      have step := forLedger other same (by rw [phase]; rfl)
      have allowances := sum_add_of_agree_off (mem other same) agree.allowance
      have commitments := sum_add_of_agree_off (mem other same) agree.committed
      omega
  · intro other projected growthEdges used reservedBytes reservedCount phase
    by_cases same : other = job
    · subst same
      exact ownVerdict projected growthEdges used reservedBytes reservedCount phase
    · rw [agree.phase other same] at phase
      have old := inv.awaitsVerdict other projected growthEdges used reservedBytes
        reservedCount phase
      have step := forVerdict other same (by rw [phase]; rfl)
      have allowances := sum_add_of_agree_off (mem other same) agree.allowance
      omega

variable {tuning : Job → Tuning} {state next : Shared Job}

theorem agreeOff_step {action : Action Job} (step : state.step node tuning action = some next) :
    AgreeOff action.job state next := by
  have off {α : Type} (value : Job → α) (here : α) (other : Job) (distinct : other ≠ action.job) :
      Function.update value action.job here other = value other :=
    Function.update_of_ne distinct here value
  have same {α : Type} (value : Job → α) (other : Job) (_ : other ≠ action.job) :
      value other = value other := rfl
  cases action with
  | readUsed job projected growthEdges =>
    simp only [Shared.step] at step
    split at step <;> cases step
    exact ⟨off _ _, same _, same _⟩
  | readLedger job =>
    simp only [Shared.step] at step
    split at step <;> cases step
    exact ⟨off _ _, same _, same _⟩
  | verdict job =>
    obtain ⟨verdict, -, rfl⟩ := Option.map_eq_some_iff.mp step
    split
    · exact ⟨off _ _, same _, off _ _⟩
    · exact ⟨off _ _, same _, off _ _⟩
  | reserve job =>
    simp only [Shared.step] at step
    split at step <;> cases step
    exact ⟨off _ _, off _ _, same _⟩
  | write job =>
    simp only [Shared.step] at step
    split at step
    · split at step <;> cases step
      exact ⟨same _, same _, off _ _⟩
    · cases step
  | release job =>
    cases step
    exact ⟨off _ _, off _ _, off _ _⟩

theorem Covered.readUsed {projected growthEdges : ℕ} (inv : state.Covered node)
    (step : state.step node tuning (.readUsed job projected growthEdges) = some next) :
    next.Covered node := by
  have agree : AgreeOff job state next := agreeOff_step step
  simp only [Shared.step] at step
  split at step
  · next phase =>
      cases step
      have same : committed { state with
          phase := Function.update state.phase job
            (.readUsed projected growthEdges state.used) } job = state.committed job := by
        simp [committed, heldBytes, Phase.promised, phase]
      apply inv.of_agreeOff agree inv.within
      · simp
      · rw [same]
        exact inv.covered job
      · intro projected' growthEdges' used phase'
        simp only [Function.update_self, Phase.readUsed.injEq] at phase'
        rw [← phase'.2.2, sum_of_agree_off (Finset.notMem_erase job _) agree.committed]
        exact Nat.add_le_add_left (Finset.sum_le_sum fun other _ => inv.covered other) _
      · simp
      · intro other _ _
        rw [same]
      · exact fun _ _ _ => Nat.le_refl _
  · cases step

theorem Covered.readLedger (inv : state.Covered node)
    (guarded : state.Guarded node tuning (.readLedger job))
    (step : state.step node tuning (.readLedger job) = some next) : next.Covered node := by
  have agree : AgreeOff job state next := agreeOff_step step
  simp only [Shared.step] at step
  split at step
  · next projected growthEdges used phase =>
      cases step
      have same : committed { state with
          phase := Function.update state.phase job (.readLedger projected growthEdges used
            (state.reservedByOthers job).1 (state.reservedByOthers job).2) } job =
          state.committed job := by
        simp [committed, heldBytes, Phase.promised, phase]
      apply inv.of_agreeOff agree inv.within
      · simp
      · rw [same]
        exact inv.covered job
      · simp
      · intro projected' growthEdges' used' reservedBytes reservedCount phase'
        simp only [Function.update_self, Phase.readLedger.injEq] at phase'
        have old := inv.awaitsLedger job projected growthEdges used phase
        have held : ∑ other ∈ Finset.univ.erase job, state.committed other =
            ∑ other ∈ Finset.univ.erase job, state.heldBytes other := by
          apply Finset.sum_congr rfl
          intro other mem
          exact max_eq_right (guarded other (Finset.ne_of_mem_erase mem))
        rw [held] at old
        rw [← phase'.2.2.1, ← phase'.2.2.2.1]
        exact old
      · intro other _ _
        rw [same]
      · exact fun _ _ _ => Nat.le_refl _
  · cases step

omit [Fintype Job] [DecidableEq Job] in
theorem needed_of_check {verdict : Verdict} {projected growthEdges used reservedBytes
    reservedCount : ℕ} (check : state.check node tuning job = some verdict) (ok : verdict.ok)
    (phase : state.phase job = .readLedger projected growthEdges used reservedBytes reservedCount) :
    verdict.neededBytes = 0 ∨ used + reservedBytes + verdict.neededBytes ≤ node.allowance := by
  have fits : verdict.neededBytes ≤ node.allowance - used - reservedBytes := by
    simp only [Shared.check, phase, Option.some.injEq] at check
    subst check
    revert ok
    simp only [WriteBudget.verdict, computeWriteBudget, Node.allowance]
    grind
  omega

theorem Covered.verdict (inv : state.Covered node)
    (guarded : state.Guarded node tuning (.verdict job))
    (step : state.step node tuning (.verdict job) = some next) : next.Covered node := by
  have agree : AgreeOff job state next := agreeOff_step step
  obtain ⟨verdict, check, result⟩ := Option.map_eq_some_iff.mp step
  obtain ⟨projected, growthEdges, used, reservedBytes, reservedCount, phase⟩ :
      ∃ projected growthEdges used reservedBytes reservedCount, state.phase job =
        .readLedger projected growthEdges used reservedBytes reservedCount := by
    rw [Shared.check] at check
    split at check
    · next phase => exact ⟨_, _, _, _, _, phase⟩
    · cases check
  have read := inv.awaitsVerdict job _ _ _ _ _ phase
  have within := inv.within
  rw [← Finset.add_sum_erase _ _ (Finset.mem_univ job)] at within
  by_cases ok : verdict.ok
  · rw [if_pos ok] at result
    subst result
    have total := sum_of_agree_off (Finset.notMem_erase job Finset.univ)
      (fun other distinct => Function.update_of_ne distinct verdict.neededBytes state.allowance)
    have needed := needed_of_check check ok phase
    apply inv.of_agreeOff agree
    · rw [← Finset.add_sum_erase _ _ (Finset.mem_univ job)]
      simp only [Function.update_self]
      omega
    · intro neededBytes phase'
      simpa using phase'
    · simp [committed, Phase.promised]
    · simp
    · simp
    · intro other distinct awaits
      have cover := (guarded verdict check ok other distinct).2 awaits
      simp only [committed, Function.update_self, Phase.promised, heldBytes, phase] at *
      omega
    · intro other distinct awaits
      have cover := (guarded verdict check ok other distinct).1 awaits
      simp only [Function.update_self]
      omega
  · rw [if_neg ok] at result
    subst result
    have total := sum_of_agree_off (Finset.notMem_erase job Finset.univ)
      (fun other distinct => Function.update_of_ne distinct 0 state.allowance)
    apply inv.of_agreeOff agree
    · rw [← Finset.add_sum_erase _ _ (Finset.mem_univ job)]
      simp only [Function.update_self]
      omega
    · simp
    · simp
    · simp
    · simp
    · intro other _ _
      simp only [committed, Function.update_self, Phase.promised, heldBytes, phase]
      omega
    · intro other _ _
      simp only [Function.update_self]
      omega

theorem Covered.reserve (inv : state.Covered node)
    (guarded : state.Guarded node tuning (.reserve job))
    (step : state.step node tuning (.reserve job) = some next) : next.Covered node := by
  have agree : AgreeOff job state next := agreeOff_step step
  simp only [Shared.step] at step
  split at step
  · next neededBytes phase =>
      cases step
      have promised := inv.passed job neededBytes phase
      apply inv.of_agreeOff agree inv.within
      · simp
      · simp [committed, heldBytes, Phase.promised, promised]
      · simp
      · simp
      · intro other distinct awaits
        have keeps : state.heldBytes job ≤ (state.phase job).promised :=
          guarded other distinct awaits
        simp only [committed, heldBytes, Function.update_self, Phase.promised, phase,
          Option.getD_some] at *
        omega
      · exact fun _ _ _ => Nat.le_refl _
  · cases step

theorem Covered.write (inv : state.Covered node)
    (step : state.step node tuning (.write job) = some next) : next.Covered node := by
  have agree : AgreeOff job state next := agreeOff_step step
  simp only [Shared.step] at step
  split at step
  · next phase =>
      split at step
      · next enough =>
          cases step
          have covered := inv.covered job
          have total := sum_add_of_agree_off (Finset.mem_univ job) agree.allowance
          apply inv.of_agreeOff agree
          · have within := inv.within
            simp only [Function.update_self] at total ⊢
            omega
          · simp [phase]
          · simp only [committed, heldBytes, Function.update_self] at covered ⊢
            omega
          · simp [phase]
          · simp [phase]
          · intro other _ _
            simp only [committed, heldBytes, Function.update_self]
            omega
          · intro other _ _
            simp only [Function.update_self]
            omega
      · cases step
  · cases step

theorem Covered.release (inv : state.Covered node)
    (guarded : state.Guarded node tuning (.release job))
    (step : state.step node tuning (.release job) = some next) : next.Covered node := by
  have agree : AgreeOff job state next := agreeOff_step step
  cases step
  have total := sum_add_of_agree_off (Finset.mem_univ job) agree.allowance
  apply inv.of_agreeOff agree
  · have within := inv.within
    simp only [Function.update_self] at total ⊢
    omega
  · simp
  · simp
  · simp
  · simp
  · intro other distinct awaits
    have kept : state.heldBytes job ≤ state.allowance job := guarded other distinct awaits
    have committed : state.committed job ≤ state.allowance job := by
      apply max_le _ kept
      cases phase : state.phase job with
      | passed neededBytes => exact (inv.passed job neededBytes phase).ge
      | idle | readUsed | readLedger => exact Nat.zero_le _
    simp only [Function.update_self]
    omega
  · intro other _ _
    simp only [Function.update_self]
    omega

theorem Covered.step {action : Action Job} (inv : state.Covered node)
    (guarded : state.Guarded node tuning action)
    (step : state.step node tuning action = some next) : next.Covered node := by
  cases action with
  | readUsed job projected growthEdges => exact inv.readUsed step
  | readLedger job => exact inv.readLedger guarded step
  | verdict job => exact inv.verdict guarded step
  | reserve job => exact inv.reserve guarded step
  | write job => exact inv.write step
  | release job => exact inv.release guarded step

theorem Covered.run {actions : List (Action Job)} (inv : state.Covered node)
    (guarded : state.GuardedRun node tuning actions)
    (reached : state.run node tuning actions = some next) : next.Covered node := by
  induction actions generalizing state with
  | nil =>
    cases reached
    exact inv
  | cons action rest ih =>
    obtain ⟨middle, step, onward⟩ := Option.bind_eq_some_iff.mp reached
    exact ih (inv.step guarded.1 step) (guarded.2 middle step) onward

theorem Fresh.covered (fresh : state.Fresh node) : state.Covered node where
  within := by
    rw [Finset.sum_eq_zero fun job _ => fresh.allowance job]
    exact fresh.within
  passed job neededBytes phase := by
    rw [fresh.phase job] at phase
    cases phase
  covered job := by
    rw [fresh.allowance job]
    exact Nat.zero_le _
  awaitsLedger job _ _ _ phase := by
    rw [fresh.phase job] at phase
    cases phase
  awaitsVerdict job _ _ _ _ _ phase := by
    rw [fresh.phase job] at phase
    cases phase

/-- In every run of guarded steps, used memory and what the passed checks may still write
stay within the node's memory less the reserve. -/
theorem used_add_allowance_le (start last : Shared Job) (actions : List (Action Job))
    (fresh : start.Fresh node) (guarded : start.GuardedRun node tuning actions)
    (reached : start.run node tuning actions = some last) :
    last.used + ∑ job, last.allowance job ≤ node.allowance :=
  (fresh.covered.run guarded reached).within

/-- The first job has entered its thousand edges and written one when the second checks
four hundred of its own. -/
def oneByOne : List (Action Bool) :=
  [.readUsed true 1000 1000, .readLedger true, .verdict true, .reserve true, .write true,
    .readUsed false 400 400, .readLedger false, .verdict false, .reserve false, .write false,
    .release true]

theorem used_add_allowance_le_oneByOne :
    ∃ last, (atRest 0).run ⟨1000000, 20⟩ (fun _ => ⟨512, none⟩) oneByOne = some last ∧
      last.used + ∑ job, last.allowance job ≤ Node.allowance ⟨1000000, 20⟩ :=
  ⟨_, rfl, @used_add_allowance_le Bool _ _ ⟨1000000, 20⟩ (fun _ => ⟨512, none⟩) (atRest 0) _
    oneByOne
    { within := by decide, phase := fun _ => rfl, ledger := fun _ => rfl,
      allowance := fun _ => rfl }
    (by decide) rfl⟩

/-- Two jobs that read the ledger before either enters its thousand edges both pass: twice
512000 bytes are promised of 800000. -/
theorem used_add_allowance_race : ∃ last : Shared Bool,
      (atRest 0).run ⟨1000000, 20⟩ (fun _ => ⟨512, none⟩)
        [.readUsed true 1000 1000, .readLedger true, .readUsed false 1000 1000,
          .readLedger false, .verdict true, .reserve true, .verdict false,
          .reserve false] = some last ∧
      Node.allowance ⟨1000000, 20⟩ < last.used + ∑ job, last.allowance job :=
  ⟨_, rfl, by decide⟩

end Shared

end DataViz.Rollup
