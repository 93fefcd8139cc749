/-
# The fair-share token bucket

A take refills the bucket by what its caller's clock says has passed since the stored timestamp and
charges its cost if there are tokens enough; the script runs atomically. The callers' clocks are
those of several servers, and the key expires by the clock of Redis. Arithmetic is exact.

Tokens admitted and tokens left never outgrow the burst and the refill up to the stored timestamp,
as long as no clock reads earlier than that timestamp and a key expires only when its bucket is full
again.
-/

import Mathlib.Data.Rat.Floor
import Mathlib.Tactic.Positivity

namespace DataViz.Service

/-- `BucketConfig`; `_load_config` keeps the rate and the burst positive. -/
structure BucketConfig where
  ratePerSec : ℚ
  burst : ℕ
  rate_pos : 0 < ratePerSec
  burst_pos : 0 < burst

/-- The stored hash, and when its key expires by the clock of Redis. -/
structure Bucket where
  tokens : ℚ
  ts : ℤ
  expires : ℤ
  deriving DecidableEq

/-- A call: the caller's clock and that of Redis, in milliseconds, and the cost. -/
structure Take where
  nowMs : ℤ
  redisMs : ℤ
  cost : ℕ
  deriving DecidableEq

structure TakeResult where
  allowed : Bool
  retryAfterSeconds : ℤ
  deriving DecidableEq

namespace BucketConfig

variable (config : BucketConfig)

section

/-- What the script finds: a full bucket unless the key is there. -/
def found (stored : Option Bucket) (take : Take) : ℚ × ℤ :=
  match stored with
  | none => (config.burst, take.nowMs)
  | some bucket =>
    if take.redisMs < bucket.expires then (bucket.tokens, bucket.ts)
    else (config.burst, take.nowMs)

def refilled (stored : Option Bucket) (take : Take) : ℚ :=
  let (tokens, ts) := config.found stored take
  let elapsed : ℚ := ((take.nowMs - ts : ℤ) : ℚ) / 1000
  if 0 < elapsed then min config.burst (tokens + elapsed * config.ratePerSec) else tokens

def admits (stored : Option Bucket) (take : Take) : Bool :=
  (take.cost : ℚ) ≤ config.refilled stored take

/-- The life of a key: the time to refill and ten seconds, a minute at least. -/
def ttl : ℤ :=
  max (⌈(config.burst : ℚ) / config.ratePerSec⌉ + 10) 60

def stored (bucket : Option Bucket) (take : Take) : Bucket where
  tokens :=
    if config.admits bucket take then config.refilled bucket take - take.cost
    else config.refilled bucket take
  ts := take.nowMs
  expires := take.redisMs + config.ttl * 1000

def retryAfterMs (bucket : Option Bucket) (take : Take) : ℤ :=
  if config.admits bucket take then 0
  else ⌈((take.cost : ℚ) - config.refilled bucket take) / config.ratePerSec * 1000⌉

def result (bucket : Option Bucket) (take : Take) : TakeResult where
  allowed := config.admits bucket take
  retryAfterSeconds :=
    if config.admits bucket take then 0
    else max 1 ⌈((config.retryAfterMs bucket take : ℤ) : ℚ) / 1000⌉

end

section

def after (bucket : Option Bucket) (takes : List Take) : Option Bucket :=
  takes.foldl (fun bucket take => some (config.stored bucket take)) bucket

/-- The total cost a sequence of takes has admitted. -/
def admitted : Option Bucket → List Take → ℕ
  | _, [] => 0
  | bucket, take :: rest =>
    (if config.admits bucket take then take.cost else 0) +
      admitted (some (config.stored bucket take)) rest

/-- The take finds no timestamp ahead of its clock, and no key that expired before its
bucket was full again by that clock. -/
def Steady (bucket : Option Bucket) (take : Take) : Prop :=
  ∀ old ∈ bucket, old.ts ≤ take.nowMs ∧ (old.expires ≤ take.redisMs →
    (config.burst : ℚ) ≤ old.tokens + ((take.nowMs - old.ts : ℤ) : ℚ) / 1000 * config.ratePerSec)

def SteadyRun : Option Bucket → List Take → Prop
  | _, [] => True
  | bucket, take :: rest =>
    config.Steady bucket take ∧ SteadyRun (some (config.stored bucket take)) rest

instance (bucket : Option Bucket) (take : Take) : Decidable (config.Steady bucket take) :=
  match bucket with
  | none => .isTrue nofun
  | some old => decidable_of_iff (old.ts ≤ take.nowMs ∧ (old.expires ≤ take.redisMs →
      (config.burst : ℚ) ≤ old.tokens + ((take.nowMs - old.ts : ℤ) : ℚ) / 1000 * config.ratePerSec))
      ⟨fun steady _ same => Option.some.inj same ▸ steady, fun steady => steady old rfl⟩

instance decidableSteadyRun :
    ∀ (bucket : Option Bucket) (takes : List Take), Decidable (config.SteadyRun bucket takes)
  | _, [] => .isTrue trivial
  | bucket, take :: rest =>
    have := decidableSteadyRun (some (config.stored bucket take)) rest
    inferInstanceAs (Decidable (_ ∧ _))

end

end BucketConfig

section

variable {config : BucketConfig} {bucket : Option Bucket} {take : Take}

def Bucket.Bounded (config : BucketConfig) (bucket : Bucket) : Prop :=
  0 ≤ bucket.tokens ∧ bucket.tokens ≤ config.burst

theorem bounded_found (bounded : ∀ old ∈ bucket, old.Bounded config) :
    0 ≤ (config.found bucket take).1 ∧ (config.found bucket take).1 ≤ config.burst := by
  have full : (0 : ℚ) ≤ config.burst := Nat.cast_nonneg _
  cases bucket with
  | none => exact ⟨full, le_refl _⟩
  | some old =>
    rw [BucketConfig.found]
    split
    · exact bounded old rfl
    · exact ⟨full, le_refl _⟩

theorem bounded_refilled (bounded : ∀ old ∈ bucket, old.Bounded config) :
    0 ≤ config.refilled bucket take ∧ config.refilled bucket take ≤ config.burst := by
  have start : 0 ≤ (config.found bucket take).1 ∧ (config.found bucket take).1 ≤ config.burst :=
    bounded_found bounded
  simp only [BucketConfig.refilled]
  split
  · next later =>
      have gained := mul_pos later config.rate_pos
      exact ⟨le_min (Nat.cast_nonneg _) (by linarith), min_le_left _ _⟩
  · exact start

theorem bounded_stored (bounded : ∀ old ∈ bucket, old.Bounded config) :
    (config.stored bucket take).Bounded config := by
  have refilled : 0 ≤ config.refilled bucket take ∧ config.refilled bucket take ≤ config.burst :=
    bounded_refilled bounded
  simp only [Bucket.Bounded, BucketConfig.stored]
  split
  · next admits =>
      have enough : (take.cost : ℚ) ≤ config.refilled bucket take := of_decide_eq_true admits
      constructor <;> linarith
  · exact refilled

theorem bounded_after (bounded : ∀ old ∈ bucket, old.Bounded config) (takes : List Take) :
    ∀ old ∈ config.after bucket takes, old.Bounded config := by
  induction takes generalizing bucket with
  | nil => exact bounded
  | cons take rest ih =>
    apply ih
    intro old same
    cases same
    exact bounded_stored bounded

end

section

variable {config : BucketConfig} {bucket : Option Bucket} {old : Bucket} {take : Take}

theorem admitted_add_tokens : ((if config.admits bucket take then take.cost else 0 : ℕ) : ℚ) +
      (config.stored bucket take).tokens = config.refilled bucket take := by
  simp only [BucketConfig.stored]
  split
  · exact add_sub_cancel _ _
  · simp

theorem refilled_le (steady : config.Steady (some old) take) : config.refilled (some old) take ≤
      old.tokens + ((take.nowMs - old.ts : ℤ) : ℚ) / 1000 * config.ratePerSec := by
  obtain ⟨forward, expired⟩ := steady old rfl
  have span : (0 : ℚ) ≤ ((take.nowMs - old.ts : ℤ) : ℚ) / 1000 := by
    apply div_nonneg
    · exact_mod_cast sub_nonneg.mpr forward
    · norm_num
  by_cases live : take.redisMs < old.expires
  · simp only [BucketConfig.refilled, BucketConfig.found, if_pos live]
    split
    · exact min_le_right _ _
    · have gained := mul_nonneg span config.rate_pos.le
      linarith
  · simp only [BucketConfig.refilled, BucketConfig.found, if_neg live, sub_self, Int.cast_zero,
      zero_div, lt_irrefl, if_false]
    exact expired (not_lt.mp live)

theorem admitted_le {takes : List Take} (steady : config.SteadyRun (some old) takes)
    (bounded : old.Bounded config) {lo hi : ℤ} {past : ℚ}
    (paid : past + old.tokens ≤ config.burst + ((old.ts - lo : ℤ) : ℚ) / 1000 * config.ratePerSec)
    (ended : old.ts ≤ hi) (within : ∀ take ∈ takes, take.nowMs ≤ hi) :
    past + config.admitted (some old) takes ≤
      config.burst + ((hi - lo : ℤ) : ℚ) / 1000 * config.ratePerSec := by
  induction takes generalizing old past with
  | nil =>
    have later : ((old.ts - lo : ℤ) : ℚ) / 1000 ≤ ((hi - lo : ℤ) : ℚ) / 1000 := by
      apply div_le_div_of_nonneg_right _ (by norm_num)
      exact_mod_cast sub_le_sub_right ended lo
    have refill := mul_le_mul_of_nonneg_right later config.rate_pos.le
    have tokens := bounded.1
    simp only [BucketConfig.admitted, Nat.cast_zero, add_zero]
    linarith
  | cons take rest ih =>
    have found := refilled_le steady.1
    have charged := @admitted_add_tokens config (some old) take
    have splits : ((take.nowMs - lo : ℤ) : ℚ) =
        ((take.nowMs - old.ts : ℤ) : ℚ) + ((old.ts - lo : ℤ) : ℚ) := by
      push_cast
      ring
    have next : past + ((if config.admits (some old) take then take.cost else 0 : ℕ) : ℚ) +
        (config.stored (some old) take).tokens ≤
          config.burst + ((take.nowMs - lo : ℤ) : ℚ) / 1000 * config.ratePerSec := by
      rw [splits]
      linarith
    have rest := ih steady.2 (bounded_stored fun _ same => Option.some.inj same ▸ bounded) next
      (within take List.mem_cons_self) fun later member =>
        within later (List.mem_cons_of_mem _ member)
    simp only [BucketConfig.admitted, Nat.cast_add]
    linarith

/-- A take refused for want of tokens is admitted once it waits as told. -/
theorem admits_retry (refused : config.admits bucket take = false)
    (within : take.cost ≤ config.burst)
    (redisMs : ℤ) :
    config.admits (some (config.stored bucket take)) { take with
        nowMs := take.nowMs + (config.result bucket take).retryAfterSeconds * 1000
        redisMs } = true := by
  apply decide_eq_true
  have cost : (take.cost : ℚ) ≤ config.burst := Nat.cast_le.mpr within
  have rate := config.rate_pos
  -- The wait covers the deficit: two ceilings and the minimum of a second only add to it.
  have wait : ((take.cost : ℚ) - config.refilled bucket take) / config.ratePerSec ≤
      (config.result bucket take).retryAfterSeconds := by
    have milliseconds := Int.le_ceil
      (((take.cost : ℚ) - config.refilled bucket take) / config.ratePerSec * 1000)
    have seconds := Int.le_ceil (((config.retryAfterMs bucket take : ℤ) : ℚ) / 1000)
    have least : ((⌈((config.retryAfterMs bucket take : ℤ) : ℚ) / 1000⌉ : ℤ) : ℚ) ≤
        (config.result bucket take).retryAfterSeconds := by
      simp only [BucketConfig.result, refused]
      exact_mod_cast le_max_right _ _
    have asked : config.retryAfterMs bucket take =
        ⌈((take.cost : ℚ) - config.refilled bucket take) / config.ratePerSec * 1000⌉ := by
      simp [BucketConfig.retryAfterMs, refused]
    rw [← asked] at milliseconds
    linarith
  have atLeast : (1 : ℚ) ≤ (config.result bucket take).retryAfterSeconds := by
    simp only [BucketConfig.result, refused]
    exact_mod_cast le_max_left _ _
  by_cases live : redisMs < (config.stored bucket take).expires
  · have elapsed : ((take.nowMs + (config.result bucket take).retryAfterSeconds * 1000 -
        take.nowMs : ℤ) : ℚ) / 1000 = (config.result bucket take).retryAfterSeconds := by
      push_cast
      ring
    have kept : (config.stored bucket take).tokens = config.refilled bucket take := by
      simp [BucketConfig.stored, refused]
    have stamped : (config.stored bucket take).ts = take.nowMs := rfl
    simp only [BucketConfig.refilled, BucketConfig.found, if_pos live, stamped, elapsed]
    rw [if_pos (by linarith)]
    apply le_min cost
    have covered := (div_le_iff₀ rate).mp wait
    linarith
  · simp only [BucketConfig.refilled, BucketConfig.found, if_neg live, sub_self, Int.cast_zero,
      zero_div, lt_irrefl, if_false]
    exact cost

/-- Steady takes on a fresh bucket admit no more than the burst and the refill over
their time; in every run the tokens stay in the bucket, and a refused take is admitted
once its caller has waited as told. -/
theorem takes_withinBudget (config : BucketConfig) (takes : List Take)
    (steady : config.SteadyRun none takes) :
    (∀ earliest latest : ℤ, earliest ≤ latest →
      (∀ take ∈ takes, earliest ≤ take.nowMs ∧ take.nowMs ≤ latest) →
        (config.admitted none takes : ℚ) ≤
          config.burst + config.ratePerSec * (((latest - earliest : ℤ) : ℚ) / 1000)) ∧
    (∀ bucket ∈ config.after none takes, 0 ≤ bucket.tokens ∧ bucket.tokens ≤ config.burst) ∧
    (∀ (take : Take) (redisMs : ℤ), take.cost ≤ config.burst →
      (config.result (config.after none takes) take).allowed = false →
        (config.result (some (config.stored (config.after none takes) take)) { take with
            nowMs := take.nowMs +
              (config.result (config.after none takes) take).retryAfterSeconds * 1000
            redisMs }).allowed = true) := by
  have fresh : ∀ old ∈ (none : Option Bucket), old.Bounded config := nofun
  refine ⟨fun earliest latest span within => ?_, bounded_after fresh takes, ?_⟩
  · cases takes with
    | nil =>
      have time : (0 : ℚ) ≤ ((latest - earliest : ℤ) : ℚ) / 1000 := by
        apply div_nonneg
        · exact_mod_cast sub_nonneg.mpr span
        · norm_num
      have refill := mul_nonneg config.rate_pos.le time
      simp only [BucketConfig.admitted, Nat.cast_zero]
      linarith
    | cons take rest =>
      obtain ⟨early, late⟩ := within take List.mem_cons_self
      have charged := @admitted_add_tokens config none take
      have full : config.refilled none take = config.burst := by
        simp [BucketConfig.refilled, BucketConfig.found]
      have time : (0 : ℚ) ≤ ((take.nowMs - earliest : ℤ) : ℚ) / 1000 := by
        apply div_nonneg
        · exact_mod_cast sub_nonneg.mpr early
        · norm_num
      have refill := mul_nonneg time config.rate_pos.le
      have paid : ((if config.admits none take then take.cost else 0 : ℕ) : ℚ) +
          (config.stored none take).tokens ≤
            config.burst + ((take.nowMs - earliest : ℤ) : ℚ) / 1000 * config.ratePerSec := by
        linarith
      have total := admitted_le steady.2 (bounded_stored fresh) paid late
        fun later member => (within later (List.mem_cons_of_mem _ member)).2
      simp only [BucketConfig.admitted, Nat.cast_add]
      rw [mul_comm config.ratePerSec]
      exact total
  · intro take redisMs within refused
    exact admits_retry refused within redisMs

def oneASecond : BucketConfig := ⟨1, 1, by norm_num, by norm_num⟩

/-- Two takes a second apart by every clock, and a third at once: it is refused, and
admitted a second later. -/
theorem takes_withinBudget_oneASecond :
    (oneASecond.admitted none [⟨0, 0, 1⟩, ⟨1000, 1000, 1⟩, ⟨1000, 1001, 1⟩] : ℚ) ≤ 2 := by
  have steady : oneASecond.SteadyRun none [⟨0, 0, 1⟩, ⟨1000, 1000, 1⟩, ⟨1000, 1001, 1⟩] := by
    decide +kernel
  have bound := (takes_withinBudget oneASecond _ steady).1 0 1000 (by decide) (by decide)
  norm_num [oneASecond] at bound ⊢
  exact bound

/-- Two servers whose clocks are a second apart take in turn: the second between the
clocks is credited again each time the one ahead takes after the one behind. -/
theorem takes_creditTwice : ∃ (config : BucketConfig) (takes : List Take) (earliest latest : ℤ),
      earliest ≤ latest ∧ (∀ take ∈ takes, earliest ≤ take.nowMs ∧ take.nowMs ≤ latest) ∧
      ¬ (config.admitted none takes : ℚ) ≤
        config.burst + config.ratePerSec * (((latest - earliest : ℤ) : ℚ) / 1000) := by
  refine ⟨oneASecond, [⟨0, 0, 1⟩, ⟨1000, 1000, 1⟩, ⟨0, 1001, 1⟩, ⟨1000, 1002, 1⟩], 0, 1000,
    by decide, by decide, ?_⟩
  have total : oneASecond.admitted none
      [⟨0, 0, 1⟩, ⟨1000, 1000, 1⟩, ⟨0, 1001, 1⟩, ⟨1000, 1002, 1⟩] = 3 := by
    decide +kernel
  rw [total]
  norm_num [oneASecond]

end

end DataViz.Service
