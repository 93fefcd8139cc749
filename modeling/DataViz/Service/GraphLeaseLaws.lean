/-
# A lease excludes other writers until it is lost

While a lease's key has not expired, no other run is granted the key, unless the lease is taken over
or broken: that is what Redis keeps (`Secured`). A run knows less. It counts a failed bus from the
first renewal it began, so that it may hold on to a lease that has expired; an answer that comes
late does the same, and so does a takeover while the bus failed (`renewed_excludes`).
-/

import DataViz.Service.GraphLease

namespace DataViz.Service

open List Option

variable {redis : Redis} {command : Command} {ttl now : ℕ}

/-! ## What Redis keeps -/

def Command.grantee : Command → Option LeaseText
  | .setNx _ value => some value
  | .takeOver _ _ value => some value
  | _ => none

namespace Redis

variable {key token : LeaseText} {t : ℕ}

def grantsOf (redis : Redis) (key : LeaseText) : List LeaseText :=
  (redis.grants.filter fun grant => grant.1 = key).map Prod.snd

def grantCount (redis : Redis) (token : LeaseText) : ℕ :=
  redis.grants.countP fun grant => grant.2 = token

/-- A token was granted a key, once, and no other was since. -/
def LastGranted (redis : Redis) (key token : LeaseText) : Prop :=
  ∃ older, redis.grantsOf key = token :: older ∧ token ∉ older

def Tidy (redis : Redis) : Prop :=
  ∀ key entry, redis.keys key = some entry → ∃ older, redis.grantsOf key = entry.value :: older

/-- A token that was granted a key, or renewed, at some time holds the key for the time to live,
unless it is ousted. -/
def Secured (ttl now : ℕ) (redis : Redis) (key token : LeaseText) (t : ℕ) : Prop :=
  token ∈ redis.ousted ∨ t + ttl ≤ now ∨
    ∃ expiry, redis.keys key = some ⟨token, expiry⟩ ∧ t + ttl ≤ expiry

theorem Secured.wait (secured : Secured ttl now redis key token t) (ms : ℕ) :
    Secured ttl (now + ms) redis key token t := by
  obtain ousted | late | held := secured
  · exact .inl ousted
  · exact .inr (.inl (Nat.le_trans late (Nat.le_add_right now ms)))
  · exact .inr (.inr held)

theorem Secured.of_held (held : redis.keys key = some ⟨token, now + ttl⟩) (past : t ≤ now) :
    Secured ttl now redis key token t :=
  .inr (.inr ⟨now + ttl, held, Nat.add_le_add_right past ttl⟩)

theorem Secured.exec (secured : Secured ttl now redis key token t) (past : t ≤ now)
    (command : Command) : Secured ttl now (redis.exec ttl now command).1 key token t := by
  have sooner : t + ttl ≤ now + ttl := Nat.add_le_add_right past ttl
  obtain ousted | late | ⟨expiry, held, young⟩ := secured
  · refine .inl ?_
    cases command with
    | takeOver other expected value =>
      show token ∈ if _ then _ else _
      split
      · exact mem_cons_of_mem _ ousted
      · exact ousted
    | delete other value =>
      show token ∈ if _ then _ else _
      split
      · exact mem_cons_of_mem _ ousted
      · exact ousted
    | _ => exact ousted
  · exact .inr (.inl late)
  · cases command with
    | get other => exact .inr (.inr ⟨expiry, held, young⟩)
    | pttl other => exact .inr (.inr ⟨expiry, held, young⟩)
    | setNx other value =>
      by_cases alive : now < expiry
      · exact .inr (.inr ⟨expiry, ExpiringKeys.setNx_keeps held alive, young⟩)
      · exact .inr (.inl (Nat.le_trans young (Nat.le_of_not_lt alive)))
    | renew other value =>
      have kept : (redis.keys.extendIf now other value ttl).1 key = _ ∨ _ :=
        ExpiringKeys.extendIf_keeps held
      obtain same | ⟨-, anew⟩ := kept
      · exact .inr (.inr ⟨expiry, same, young⟩)
      · exact .inr (.inr ⟨now + ttl, anew, sooner⟩)
    | takeOver other expected value =>
      by_cases same : token = expected
      · subst same
        cases done : (redis.keys.replaceIf now other token value ttl).2 with
        | true =>
          refine .inl ?_
          show token ∈ if _ then _ else _
          rw [done]
          exact mem_cons_self
        | false =>
          refine .inr (.inr ⟨expiry, ?_, young⟩)
          show (redis.keys.replaceIf now other token value ttl).1 key = _
          rw [ExpiringKeys.replaceIf_refused done, held]
      · exact .inr (.inr ⟨expiry, ExpiringKeys.replaceIf_keeps held same, young⟩)
    | delete other value =>
      by_cases same : token = value
      · subst same
        cases done : (redis.keys.deleteIf now other token).2 with
        | true =>
          refine .inl ?_
          show token ∈ if _ then _ else _
          rw [done]
          exact mem_cons_self
        | false =>
          refine .inr (.inr ⟨expiry, ?_, young⟩)
          show (redis.keys.deleteIf now other token).1 key = _
          rw [ExpiringKeys.deleteIf_refused done, held]
      · exact .inr (.inr ⟨expiry, ExpiringKeys.deleteIf_keeps held same, young⟩)

theorem Tidy.grant (tidy : redis.Tidy) {value : LeaseText} {life : ℕ}
    {keys : ExpiringKeys LeaseText LeaseText} {ousted : List LeaseText}
    (others : ∀ other, other ≠ key → keys other = redis.keys other)
    (here : keys key = some ⟨value, life⟩) :
    Tidy { keys := keys, grants := (key, value) :: redis.grants, ousted := ousted } := by
  intro other entry (held : keys other = some entry)
  by_cases same : other = key
  · subst same
    rw [here] at held
    cases held
    exact ⟨redis.grantsOf other, by simp [grantsOf]⟩
  · rw [others other same] at held
    obtain ⟨older, eq⟩ := tidy other entry held
    refine ⟨older, ?_⟩
    rw [← eq]
    simp [grantsOf, Ne.symm same]

theorem Tidy.keep (tidy : redis.Tidy) {keys : ExpiringKeys LeaseText LeaseText}
    {ousted : List LeaseText}
    (kept : ∀ key entry, keys key = some entry →
      ∃ old, redis.keys key = some old ∧ old.value = entry.value) :
    Tidy { keys := keys, grants := redis.grants, ousted := ousted } := by
  intro key entry held
  obtain ⟨old, before, same⟩ := kept key entry held
  obtain ⟨older, eq⟩ := tidy key old before
  exact ⟨older, by rw [← same]; exact eq⟩

theorem Tidy.exec (tidy : redis.Tidy) (command : Command) :
    (redis.exec ttl now command).1.Tidy := by
  have same (keys : ExpiringKeys LeaseText LeaseText) (eq : keys = redis.keys)
      (ousted : List LeaseText) :
      Tidy { keys := keys, grants := redis.grants, ousted := ousted } :=
    tidy.keep fun key entry held => ⟨entry, by rw [← held, eq], rfl⟩
  cases command with
  | get key => exact tidy
  | pttl key => exact tidy
  | setNx key value =>
    unfold Redis.exec ExpiringKeys.setNx
    dsimp only
    split
    · exact tidy.grant (fun other ne => Function.update_of_ne ne _ _) (Function.update_self _ _ _)
    · exact same _ rfl _
  | takeOver key expected value =>
    unfold Redis.exec ExpiringKeys.replaceIf
    dsimp only
    split
    · exact tidy.grant (fun other ne => Function.update_of_ne ne _ _) (Function.update_self _ _ _)
    · exact same _ rfl _
  | renew key value =>
    unfold Redis.exec ExpiringKeys.extendIf ExpiringKeys.replaceIf
    dsimp only
    split
    next held =>
      apply tidy.keep
      intro other entry (there : Function.update redis.keys key _ other = some entry)
      by_cases here : other = key
      · subst here
        obtain ⟨old, before, eq, -⟩ := ExpiringKeys.entry_of_live held
        rw [Function.update_self] at there
        cases there
        exact ⟨old, before, eq⟩
      · rw [Function.update_of_ne here] at there
        exact ⟨entry, there, rfl⟩
    next => exact same _ rfl _
  | delete key value =>
    unfold Redis.exec ExpiringKeys.deleteIf
    dsimp only
    split
    · apply tidy.keep
      intro other entry (there : Function.update redis.keys key _ other = some entry)
      by_cases here : other = key
      · subst here
        rw [Function.update_self] at there
        cases there
      · rw [Function.update_of_ne here] at there
        exact ⟨entry, there, rfl⟩
    · exact same _ rfl _

theorem grantCount_exec (other : command.grantee ≠ some token) :
    (redis.exec ttl now command).1.grantCount token = redis.grantCount token := by
  cases command with
  | get key => rfl
  | pttl key => rfl
  | renew key value => rfl
  | delete key value => rfl
  | setNx key value =>
    have ne : value ≠ token := fun same => other (congrArg some same)
    unfold Redis.exec grantCount
    dsimp only
    split
    · rw [countP_cons_of_neg (by simpa using ne)]
    · rfl
  | takeOver key expected value =>
    have ne : value ≠ token := fun same => other (congrArg some same)
    unfold Redis.exec grantCount
    dsimp only
    split
    · rw [countP_cons_of_neg (by simpa using ne)]
    · rfl

theorem grantCount_exec_le : (redis.exec ttl now command).1.grantCount token ≤
    redis.grantCount token + 1 := by
  have cons (grant : LeaseText × LeaseText) :
      (grant :: redis.grants).countP (fun grant => grant.2 = token) ≤
        redis.grantCount token + 1 := by
    rw [countP_cons]
    unfold grantCount
    split <;> omega
  cases command with
  | get key => exact Nat.le_succ _
  | pttl key => exact Nat.le_succ _
  | renew key value => exact Nat.le_succ _
  | delete key value => exact Nat.le_succ _
  | setNx key value =>
    unfold Redis.exec
    dsimp only
    split
    · exact cons (key, value)
    · exact Nat.le_succ _
  | takeOver key expected value =>
    unfold Redis.exec
    dsimp only
    split
    · exact cons (key, value)
    · exact Nat.le_succ _

theorem Tidy.lastGranted (tidy : redis.Tidy) {expiry : ℕ}
    (held : redis.keys key = some ⟨token, expiry⟩) (once : redis.grantCount token ≤ 1) :
    redis.LastGranted key token := by
  obtain ⟨older, eq⟩ := tidy key _ held
  refine ⟨older, eq, fun again => ?_⟩
  have twice : (redis.grantsOf key).count token ≤ redis.grantCount token := by
    unfold grantsOf grantCount List.count
    rw [countP_map]
    refine Nat.le_trans (Sublist.countP_le filter_sublist) ?_
    apply countP_mono_left
    intro grant _ same
    simpa using same
  rw [eq, count_cons_self] at twice
  have pos := count_pos_iff.mpr again
  omega

end Redis

/-! ## What a run relies on -/

namespace LeaseRun

variable {run : LeaseRun}

def granted (run : LeaseRun) : Bool :=
  match run.phase, run.reply with
  | .setting, some (.set done) => done
  | .takingOver _, some (.count n) => n ≠ 0
  | .holding _, _ | .renewing _ _, _ => true
  | _, _ => false

def finished (run : LeaseRun) : Bool :=
  match run.phase with
  | .lost _ | .ended _ => true
  | _ => false

def leased (run : LeaseRun) : Option GraphLease :=
  match run.phase with
  | .holding lease | .renewing lease _ | .lost lease => some lease
  | _ => none

/-- What is known of a run: it was granted its key at most once, and since then, or since the last
renewal that was answered, Redis keeps it. -/
structure Sound (ttl now : ℕ) (redis : Redis) (run : LeaseRun) : Prop where
  past : run.since ≤ now
  once : run.finished = false → redis.grantCount run.token ≤ if run.granted then 1 else 0
  secured : run.granted = true → redis.Secured ttl now run.key run.token run.since
  renewed : ∀ lease clock, run.phase = .renewing lease clock → clock ≤ now ∧
    (run.reply = some (.count 1) → redis.Secured ttl now run.key run.token clock)
  own : ∀ lease, run.leased = some lease → lease.key = run.key ∧ lease.token = run.token

/-- A run that is over relies on nothing. -/
theorem Sound.of_over (past : run.since ≤ now) (finished : run.finished = true)
    (own : ∀ lease, run.leased = some lease → lease.key = run.key ∧ lease.token = run.token) :
    run.Sound ttl now redis := by
  refine ⟨past, fun still => ?_, fun granted => ?_, fun lease clock renewing => ?_, own⟩
  · rw [finished] at still
    cases still
  · unfold LeaseRun.granted at granted
    unfold LeaseRun.finished at finished
    cases phase : run.phase <;> rw [phase] at finished granted <;> simp_all
  · unfold LeaseRun.finished at finished
    rw [renewing] at finished
    cases finished

theorem Sound.wait (sound : run.Sound ttl now redis) (ms : ℕ) : run.Sound ttl (now + ms) redis where
  past := Nat.le_trans sound.past (Nat.le_add_right now ms)
  once := sound.once
  secured granted := (sound.secured granted).wait ms
  renewed lease clock renewing :=
    have ⟨past, secured⟩ := sound.renewed lease clock renewing
    ⟨Nat.le_trans past (Nat.le_add_right now ms), fun answered => (secured answered).wait ms⟩
  own := sound.own

theorem Sound.exec (sound : run.Sound ttl now redis)
    (other : run.finished = false → command.grantee ≠ some run.token) :
    run.Sound ttl now (redis.exec ttl now command).1 where
  past := sound.past
  once still := by
    rw [Redis.grantCount_exec (other still)]
    exact sound.once still
  secured granted := (sound.secured granted).exec sound.past command
  renewed lease clock renewing :=
    have ⟨past, secured⟩ := sound.renewed lease clock renewing
    ⟨past, fun answered => (secured answered).exec past command⟩
  own := sound.own

theorem command_own (sent : run.command = some command) : run.reply = none ∧ run.finished = false ∧
      ∀ token, command.grantee = some token → token = run.token := by
  unfold LeaseRun.command at sent
  cases reply : run.reply with
  | some answer =>
    rw [reply] at sent
    cases sent
  | none =>
    rw [reply] at sent
    refine ⟨rfl, ?_⟩
    cases phase : run.phase <;> rw [phase] at sent <;> cases sent <;>
      refine ⟨by simp [finished, phase], ?_⟩ <;> intro token same <;> cases same <;> rfl

theorem command_ne_delete {key value : LeaseText} {sender : Option ℕ} :
    run.command ≠ some (.delete key value sender) := by
  intro sent
  unfold LeaseRun.command at sent
  split at sent
  · cases sent
  · split at sent <;> cases sent

theorem once_of_exec {token : LeaseText} (done : Bool) (never : redis.grantCount token ≤ 0)
    (refused : done = false → (redis.exec ttl now command).1.grants = redis.grants) :
    (redis.exec ttl now command).1.grantCount token ≤ if done then 1 else 0 := by
  cases done with
  | true => exact Nat.le_trans Redis.grantCount_exec_le (Nat.add_le_add_right never 1)
  | false =>
    unfold Redis.grantCount at never ⊢
    rw [refused rfl]
    exact never

theorem Sound.serve (sound : run.Sound ttl now redis) (sent : run.command = some command) :
    ({ run with reply := some (redis.exec ttl now command).2 } : LeaseRun).Sound ttl now
      (redis.exec ttl now command).1 := by
  obtain ⟨waiting, -, -⟩ := command_own sent
  obtain ⟨key, owner, token, phase, reply, since⟩ := run
  obtain rfl : reply = none := waiting
  have past : since ≤ now := sound.past
  cases phase with
  | setting =>
    cases sent
    let set := redis.keys.setNx now key token ttl
    have refused (no : set.2 = false) :
        (redis.exec ttl now (.setNx key token)).1.grants = redis.grants := by
      show (if set.2 = true then (key, token) :: redis.grants else redis.grants) = _
      rw [no]
      rfl
    exact ⟨past, fun _ => once_of_exec set.2 (sound.once rfl) refused,
      fun granted => .of_held (ExpiringKeys.setNx_set granted).2 past, nofun, nofun⟩
  | reading =>
    cases sent
    exact ⟨past, fun _ => sound.once rfl, nofun, nofun, nofun⟩
  | timing holder =>
    cases sent
    exact ⟨past, fun _ => sound.once rfl, nofun, nofun, nofun⟩
  | takingOver holder =>
    cases sent
    let replaced := redis.keys.replaceIf now key holder token ttl
    have refused (no : replaced.2 = false) :
        (redis.exec ttl now (.takeOver key holder token)).1.grants = redis.grants := by
      show (if replaced.2 = true then (key, token) :: redis.grants else redis.grants) = _
      rw [no]
      rfl
    have counted : decide ((if replaced.2 = true then (1 : ℤ) else 0) ≠ 0) = replaced.2 := by
      cases replaced.2 <;> rfl
    refine ⟨past, fun _ => ?_, fun granted => ?_, nofun, nofun⟩
    · show _ ≤ if decide ((if replaced.2 = true then (1 : ℤ) else 0) ≠ 0) = true then 1 else 0
      rw [counted]
      exact once_of_exec replaced.2 (sound.once rfl) refused
    · exact .of_held (ExpiringKeys.replaceIf_replaced (counted.symm.trans granted)).2 past
  | renewing lease clock =>
    cases sent
    obtain ⟨begun, -⟩ := sound.renewed lease clock rfl
    refine ⟨past, fun _ => sound.once rfl, fun _ => (sound.secured rfl).exec past _, ?_, sound.own⟩
    intro other clock' same
    cases same
    refine ⟨begun, fun answered => ?_⟩
    have extended : (redis.keys.extendIf now key token ttl).2 = true := by
      by_contra refused
      simp [Redis.exec, refused] at answered
    exact .of_held (ExpiringKeys.replaceIf_replaced extended).2 begun
  | holding lease => cases sent
  | lost lease => cases sent
  | ended how => cases sent

theorem Sound.of_lease {lease : GraphLease} (holds : run.leased = some lease)
    (named : lease.key = run.key ∧ lease.token = run.token) (past : run.since ≤ now)
    (once : redis.grantCount run.token ≤ 1)
    (secured : redis.Secured ttl now run.key run.token run.since)
    (idle : ∀ clock, run.phase ≠ .renewing lease clock) : run.Sound ttl now redis where
  past := past
  once still := by
    unfold LeaseRun.leased at holds
    unfold LeaseRun.finished at still
    unfold LeaseRun.granted
    cases phase : run.phase <;> rw [phase] at holds still <;> cases holds <;> cases still <;>
      exact once
  secured _ := secured
  renewed lease' clock renewing := by
    unfold LeaseRun.leased at holds
    rw [renewing] at holds
    cases holds
    exact absurd renewing (idle clock)
  own lease' leased := by
    cases holds.symm.trans leased
    exact named

theorem Sound.renew (sound : run.Sound ttl now redis) {lease : GraphLease}
    (phase : run.phase = .holding lease) :
    ({ run with phase := .renewing (lease.beginRenewal now) now, reply := none } :
      LeaseRun).Sound ttl now redis := by
  obtain ⟨key, owner, token, held, waiting, since⟩ := run
  obtain rfl : held = .holding lease := phase
  refine ⟨sound.past, fun _ => sound.once rfl, fun _ => sound.secured rfl, ?_, ?_⟩
  · intro other clock same
    cases same
    exact ⟨Nat.le_refl _, nofun⟩
  · intro other same
    cases same
    exact sound.own lease rfl

/-- A run whose bus fails gives up what it has not got. -/
theorem Sound.fail (sound : run.Sound ttl now redis) :
    (run.proceed ttl none).Sound ttl now redis := by
  obtain ⟨key, owner, token, phase, waiting, since⟩ := run
  have past : since ≤ now := sound.past
  cases phase with
  | setting => exact .of_over past rfl nofun
  | reading => exact .of_over past rfl nofun
  | timing holder => cases holder <;> exact .of_over past rfl nofun
  | takingOver holder => exact .of_over past rfl nofun
  | renewing lease clock =>
    have named : lease.key = key ∧ lease.token = token := sound.own lease rfl
    unfold LeaseRun.proceed LeaseRun.next GraphLease.endRenewal
    dsimp only
    by_cases long : lease.lastOk.getD clock + ttl ≤ clock
    · rw [if_pos long]
      refine .of_over past rfl fun lost same => ?_
      cases same
      exact named
    · rw [if_neg long]
      exact .of_lease rfl named past (sound.once rfl) (sound.secured rfl) nofun
  | holding lease =>
    exact .of_lease rfl (sound.own lease rfl) past (sound.once rfl) (sound.secured rfl) nofun
  | lost lease => exact .of_over past rfl sound.own
  | ended how => exact .of_over past rfl nofun

theorem Sound.ignore {key owner token : LeaseText} {phase : Phase} {reply : Reply} {since : ℕ}
    (sound : LeaseRun.Sound ttl now redis ⟨key, owner, token, phase, some reply, since⟩)
    (waits : (⟨key, owner, token, phase, none, since⟩ : LeaseRun).granted =
      (⟨key, owner, token, phase, some reply, since⟩ : LeaseRun).granted) :
    LeaseRun.Sound ttl now redis ⟨key, owner, token, phase, none, since⟩ where
  past := sound.past
  once still := by
    rw [waits]
    exact sound.once still
  secured granted := sound.secured (waits.symm.trans granted)
  renewed lease clock renewing := ⟨(sound.renewed lease clock renewing).1, nofun⟩
  own := sound.own

theorem Sound.answer (sound : run.Sound ttl now redis) {reply : Reply}
    (read : run.reply = some reply) : (run.proceed ttl (some reply)).Sound ttl now redis := by
  obtain ⟨key, owner, token, phase, waiting, since⟩ := run
  obtain rfl : waiting = some reply := read
  have past : since ≤ now := sound.past
  cases phase with
  | setting =>
    cases reply with
    | set done =>
      cases done with
      | true => exact .of_lease rfl ⟨rfl, rfl⟩ past (sound.once rfl) (sound.secured rfl) nofun
      | false => exact ⟨past, fun _ => sound.once rfl, nofun, nofun, nofun⟩
    | _ => exact sound.ignore rfl
  | reading =>
    cases reply with
    | value held => exact ⟨past, fun _ => sound.once rfl, nofun, nofun, nofun⟩
    | _ => exact sound.ignore rfl
  | timing holder =>
    cases reply with
    | ttl ms =>
      cases holder with
      | none => exact .of_over past rfl nofun
      | some holder =>
        unfold LeaseRun.proceed LeaseRun.next
        dsimp only
        split
        · exact ⟨past, fun _ => sound.once rfl, nofun, nofun, nofun⟩
        · exact .of_over past rfl nofun
    | _ => cases holder <;> exact sound.ignore rfl
  | takingOver holder =>
    cases reply with
    | count n =>
      have once := sound.once rfl
      unfold LeaseRun.proceed LeaseRun.next
      dsimp only
      split
      next took =>
        have granted : decide (n ≠ 0) = true := decide_eq_true took
        refine .of_lease rfl ⟨rfl, rfl⟩ past ?_ (sound.secured granted) nofun
        exact Nat.le_trans once (by split <;> decide)
      next => exact .of_over past rfl nofun
    | _ => exact sound.ignore rfl
  | renewing lease clock =>
    obtain ⟨begun, renewed⟩ := sound.renewed lease clock rfl
    have named : lease.key = key ∧ lease.token = token := sound.own lease rfl
    cases reply with
    | count n =>
      by_cases one : n = 1
      · subst one
        exact .of_lease rfl named begun (sound.once rfl) (renewed rfl) nofun
      · unfold LeaseRun.proceed LeaseRun.next GraphLease.endRenewal
        dsimp only
        rw [if_neg one]
        refine .of_over ?_ rfl fun lost same => ?_
        · dsimp only
          split
          next same =>
            cases same
            exact absurd rfl one
          next => exact past
        · cases same
          exact named
    | _ => exact sound.ignore rfl
  | holding lease =>
    exact .of_lease rfl (sound.own lease rfl) past (sound.once rfl) (sound.secured rfl) nofun
  | lost lease => exact .of_over past rfl sound.own
  | ended how => exact .of_over past rfl nofun

end LeaseRun

/-! ## Steps -/

namespace LeaseSystem

variable {s s' : LeaseSystem} {i : ℕ} {run run' : LeaseRun} {action : LeaseAction}

/-- A stray command grants a key to no run that may still hold a lease, and deletes for a run only
the run's own lease. -/
structure StrayOk (s : LeaseSystem) (command : Command) : Prop where
  grants : ∀ token, command.grantee = some token → token ∈ s.issued ∧
    ∀ i run, s.runs i = some run → run.token = token → run.finished = true
  deletes : ∀ key value i, command = .delete key value (some i) →
    ∃ run, s.runs i = some run ∧ run.key = key ∧ run.token = value

structure Inv (ttl : ℕ) (s : LeaseSystem) : Prop where
  tidy : s.redis.Tidy
  runs : ∀ i run, s.runs i = some run → run.Sound ttl s.now s.redis
  issued : ∀ i run, s.runs i = some run → run.token ∈ s.issued
  fresh : ∀ token, token ∉ s.issued → s.redis.grantCount token = 0
  distinct : ∀ i j run run', s.runs i = some run → s.runs j = some run' →
    run.token = run'.token → i = j
  strays : ∀ command ∈ s.strays, s.StrayOk command

theorem inv_start (t : ℕ) : (start t).Inv ttl where
  tidy _ _ held := by cases held
  runs _ _ found := by cases found
  issued _ _ found := by cases found
  fresh _ _ := rfl
  distinct _ _ _ _ found := by cases found
  strays _ mem := by cases mem

theorem put_runs {j : ℕ} {other : LeaseRun} (found : (s.put i run').runs j = some other) :
    (j = i ∧ other = run') ∨ (j ≠ i ∧ s.runs j = some other) := by
  unfold put at found
  dsimp only at found
  by_cases same : j = i
  · subst same
    rw [Function.update_self] at found
    exact .inl ⟨rfl, (Option.some.inj found).symm⟩
  · rw [Function.update_of_ne same] at found
    exact .inr ⟨same, found⟩

theorem runs_put_self : (s.put i run').runs i = some run' :=
  Function.update_self _ _ _

/-- A run moves on, keeping its token; a run that is over stays so. -/
structure Moves (run run' : LeaseRun) : Prop where
  key : run'.key = run.key
  token : run'.token = run.token
  finished : run.finished = true → run'.finished = true

theorem StrayOk.put (ok : s.StrayOk command) (found : s.runs i = some run)
    (moves : Moves run run') : (s.put i run').StrayOk command where
  grants token grantee := by
    obtain ⟨issued, finished⟩ := ok.grants token grantee
    refine ⟨issued, fun j other there same => ?_⟩
    obtain ⟨rfl, rfl⟩ | ⟨-, there⟩ := put_runs there
    · exact moves.finished (finished j run found (moves.token.symm.trans same))
    · exact finished j other there same
  deletes key value j same := by
    obtain ⟨other, there, eqKey, eq⟩ := ok.deletes key value j same
    by_cases here : j = i
    · subst here
      cases found.symm.trans there
      exact ⟨run', runs_put_self, moves.key.trans eqKey, moves.token.trans eq⟩
    · exact ⟨other, (Function.update_of_ne here _ _).trans there, eqKey, eq⟩

theorem Inv.put (inv : s.Inv ttl) (found : s.runs i = some run) (moves : Moves run run')
    (sound : run'.Sound ttl s.now s.redis) : (s.put i run').Inv ttl where
  tidy := inv.tidy
  runs j other there := by
    obtain ⟨rfl, rfl⟩ | ⟨-, there⟩ := put_runs there
    · exact sound
    · exact inv.runs j other there
  issued j other there := by
    obtain ⟨rfl, rfl⟩ | ⟨-, there⟩ := put_runs there
    · rw [moves.token]
      exact inv.issued j run found
    · exact inv.issued j other there
  fresh := inv.fresh
  distinct j k first second there also same := by
    obtain ⟨here, rfl⟩ | ⟨-, one⟩ := put_runs there
    · obtain ⟨here', rfl⟩ | ⟨-, two⟩ := put_runs also
      · exact here.trans here'.symm
      · exact here.trans (inv.distinct i k run second found two (moves.token.symm.trans same))
    · obtain ⟨here, rfl⟩ | ⟨-, two⟩ := put_runs also
      · exact (inv.distinct j i first run one found (same.trans moves.token)).trans here.symm
      · exact inv.distinct j k first second one two same
  strays command mem := (inv.strays command mem).put found moves

/-- Commands that do no harm are left behind. -/
theorem Inv.stray (inv : s.Inv ttl) {commands : List Command}
    (harmless : ∀ command ∈ commands, s.StrayOk command) : (s.stray commands).Inv ttl where
  tidy := inv.tidy
  runs := inv.runs
  issued := inv.issued
  fresh := inv.fresh
  distinct := inv.distinct
  strays command mem := by
    have ok : s.StrayOk command := by
      obtain new | old := mem_append.mp mem
      · exact harmless command new
      · exact inv.strays command old
    exact ⟨ok.grants, ok.deletes⟩

/-- Redis executes a command that grants nothing to a run. -/
theorem Inv.serveLate (inv : s.Inv ttl) (mem : command ∈ s.strays) :
    Inv ttl { s with redis := (s.redis.exec ttl s.now command).1 } where
  tidy := inv.tidy.exec command
  runs j other there := by
    apply (inv.runs j other there).exec
    intro still grantee
    rw [((inv.strays command mem).grants _ grantee).2 j other there rfl] at still
    cases still
  issued := inv.issued
  fresh token unknown := by
    have ne : command.grantee ≠ some token :=
      fun grantee => unknown ((inv.strays command mem).grants token grantee).1
    exact (Redis.grantCount_exec ne).trans (inv.fresh token unknown)
  distinct := inv.distinct
  strays other also := ⟨(inv.strays other also).grants, (inv.strays other also).deletes⟩

theorem Inv.serve (inv : s.Inv ttl) (found : s.runs i = some run)
    (sent : run.command = some command) :
    Inv ttl { s.put i { run with reply := some (s.redis.exec ttl s.now command).2 } with
      redis := (s.redis.exec ttl s.now command).1 } := by
  obtain ⟨-, still, own⟩ := LeaseRun.command_own sent
  have moves : Moves run { run with reply := some (s.redis.exec ttl s.now command).2 } :=
    ⟨rfl, rfl, fun finished => finished⟩
  have granted (token : LeaseText) (unknown : token ∉ s.issued) :
      command.grantee ≠ some token := fun grantee =>
    unknown (own token grantee ▸ inv.issued i run found)
  refine ⟨inv.tidy.exec command, fun j other there => ?_, fun j other there => ?_,
    fun token unknown => ?_, fun j k first second there also same => ?_, fun stray mem => ?_⟩
  · obtain ⟨rfl, rfl⟩ | ⟨apart, there⟩ := put_runs there
    · exact (inv.runs j run found).serve sent
    · apply (inv.runs j other there).exec
      intro _ grantee
      exact apart (inv.distinct j i other run there found (own _ grantee))
  · obtain ⟨rfl, rfl⟩ | ⟨-, there⟩ := put_runs there
    · exact inv.issued j run found
    · exact inv.issued j other there
  · exact (Redis.grantCount_exec (granted token unknown)).trans (inv.fresh token unknown)
  · obtain ⟨here, rfl⟩ | ⟨-, one⟩ := put_runs there
    · obtain ⟨here', rfl⟩ | ⟨-, two⟩ := put_runs also
      · exact here.trans here'.symm
      · exact here.trans (inv.distinct i k run second found two same)
    · obtain ⟨here, rfl⟩ | ⟨-, two⟩ := put_runs also
      · exact (inv.distinct j i first run one found same).trans here.symm
      · exact inv.distinct j k first second one two same
  · have ok := (inv.strays stray mem).put found moves
    exact ⟨ok.grants, ok.deletes⟩

theorem Inv.acquire (inv : s.Inv ttl) {key owner token : LeaseText} (free : s.runs i = none)
    (fresh : token ∉ s.issued) :
    Inv ttl { s.put i ⟨key, owner, token, .setting, none, s.now⟩ with
      issued := token :: s.issued } := by
  have others {j : ℕ} {run : LeaseRun} (found : s.runs j = some run) : run.token ≠ token :=
    fun same => fresh (same ▸ inv.issued j run found)
  refine ⟨inv.tidy, fun j other there => ?_, fun j other there => ?_, fun token' unknown => ?_,
    fun j k first second there also same => ?_, fun stray mem => ⟨?_, ?_⟩⟩
  · obtain ⟨rfl, rfl⟩ | ⟨-, there⟩ := put_runs there
    · exact ⟨Nat.le_refl _, fun _ => Nat.le_of_eq (inv.fresh token fresh), nofun, nofun, nofun⟩
    · exact inv.runs j other there
  · obtain ⟨rfl, rfl⟩ | ⟨-, there⟩ := put_runs there
    · exact mem_cons_self
    · exact mem_cons_of_mem _ (inv.issued j other there)
  · exact inv.fresh token' fun known => unknown (mem_cons_of_mem _ known)
  · obtain ⟨here, rfl⟩ | ⟨-, one⟩ := put_runs there
    · obtain ⟨here', rfl⟩ | ⟨-, two⟩ := put_runs also
      · exact here.trans here'.symm
      · exact absurd same.symm (others two)
    · obtain ⟨here, rfl⟩ | ⟨-, two⟩ := put_runs also
      · exact absurd same (others one)
      · exact inv.distinct j k first second one two same
  · intro token' grantee
    obtain ⟨known, finished⟩ := (inv.strays stray mem).grants token' grantee
    refine ⟨mem_cons_of_mem _ known, fun j other there same => ?_⟩
    obtain ⟨-, rfl⟩ | ⟨-, there⟩ := put_runs there
    · have same : token = token' := same
      exact absurd (same ▸ known) fresh
    · exact finished j other there same
  · intro key' value j same
    obtain ⟨other, there, eq⟩ := (inv.strays stray mem).deletes key' value j same
    refine ⟨other, ?_, eq⟩
    have apart : j ≠ i := by
      rintro rfl
      cases free.symm.trans there
    exact (Function.update_of_ne apart _ _).trans there

/-- A run no longer waits for its command, and does without what that might grant. -/
theorem Inv.leave (inv : s.Inv ttl) (found : s.runs i = some run) (moves : Moves run run')
    (sound : run'.Sound ttl s.now s.redis)
    (gone : ∀ command token, run.command = some command → command.grantee = some token →
      run'.finished = true) :
    ((s.put i run').stray run.command.toList).Inv ttl := by
  have moved := inv.put found moves sound
  apply moved.stray
  intro command mem
  have sent : run.command = some command := mem_toList.mp mem
  constructor
  · intro token grantee
    obtain ⟨-, -, own⟩ := LeaseRun.command_own sent
    have mine := own token grantee
    refine ⟨mine ▸ inv.issued i run found, fun j other there same => ?_⟩
    have here : j = i := moved.distinct j i other run' there runs_put_self
      (same.trans (mine.trans moves.token.symm))
    subst here
    cases runs_put_self.symm.trans there
    exact gone command token sent grantee
  · rintro key value j rfl
    exact absurd sent LeaseRun.command_ne_delete

theorem moves_proceed (reply : Option Reply) : Moves run (run.proceed ttl reply) where
  key := rfl
  token := rfl
  finished finished := by
    unfold LeaseRun.finished at finished ⊢
    unfold LeaseRun.proceed LeaseRun.next
    cases phase : run.phase <;> rw [phase] at finished <;> cases finished

theorem over_fail {token : LeaseText} (sent : run.command = some command)
    (grantee : command.grantee = some token) : (run.proceed ttl none).finished = true := by
  obtain ⟨waiting, -, -⟩ := LeaseRun.command_own sent
  unfold LeaseRun.command at sent
  rw [waiting] at sent
  unfold LeaseRun.finished LeaseRun.proceed LeaseRun.next
  cases phase : run.phase with
  | setting => rfl
  | takingOver holder => rfl
  | reading => rfl
  | timing holder => cases holder <;> rfl
  | ended how => rfl
  | lost lease => rfl
  | renewing lease clock =>
    rw [phase] at sent
    cases sent
    cases grantee
  | holding lease =>
    rw [phase] at sent
    cases sent

theorem Inv.release (inv : s.Inv ttl) (found : s.runs i = some run) {lease : GraphLease}
    (leased : run.leased = some lease) :
    ((s.put i { run with phase := .ended .released, reply := none }).stray
      (.delete lease.key lease.token (some i) :: run.command.toList)).Inv ttl := by
  have moves : Moves run { run with phase := .ended .released, reply := none } :=
    ⟨rfl, rfl, fun _ => rfl⟩
  have left := inv.leave found moves (.of_over (inv.runs i run found).past rfl nofun)
    fun _ _ _ _ => rfl
  obtain ⟨sameKey, sameToken⟩ := (inv.runs i run found).own lease leased
  have harmless (command : Command)
      (mem : command ∈ [Command.delete lease.key lease.token (some i)]) :
      StrayOk ((s.put i { run with phase := .ended .released, reply := none }).stray
        run.command.toList) command := by
    obtain rfl := mem_singleton.mp mem
    refine ⟨nofun, fun key value j same => ?_⟩
    cases same
    exact ⟨_, runs_put_self, sameKey.symm, sameToken.symm⟩
  exact left.stray harmless

/-- Every step keeps the invariant. -/
theorem Inv.step (inv : s.Inv ttl) (ok : s.step ttl action = some s') : s'.Inv ttl := by
  cases action with
  | wait ms =>
    cases ok
    exact ⟨inv.tidy, fun i run found => (inv.runs i run found).wait ms, inv.issued, inv.fresh,
      inv.distinct, fun command mem =>
        ⟨(inv.strays command mem).grants, (inv.strays command mem).deletes⟩⟩
  | acquire i provider owner hex host =>
    simp only [LeaseSystem.step] at ok
    split at ok
    next free =>
      cases ok
      exact inv.acquire (isNone_iff_eq_none.mp free.1) free.2
    next => cases ok
  | serve i =>
    simp only [LeaseSystem.step] at ok
    split at ok
    next => cases ok
    next run found =>
      split at ok
      next => cases ok
      next command sent =>
        cases ok
        exact inv.serve found sent
  | serveLate command =>
    simp only [LeaseSystem.step] at ok
    split at ok
    next mem =>
      cases ok
      exact inv.serveLate mem
    next => cases ok
  | answer i =>
    simp only [LeaseSystem.step] at ok
    split at ok
    next => cases ok
    next run found =>
      split at ok
      next => cases ok
      next reply read =>
        cases ok
        exact inv.put found (moves_proceed _) ((inv.runs i run found).answer read)
  | fail i =>
    simp only [LeaseSystem.step] at ok
    split at ok
    next => cases ok
    next run found =>
      cases ok
      exact inv.leave found (moves_proceed _) (inv.runs i run found).fail
        fun command token sent grantee => over_fail sent grantee
  | renew i =>
    simp only [LeaseSystem.step] at ok
    split at ok
    next => cases ok
    next run found =>
      split at ok
      next lease phase =>
        cases ok
        have moves : Moves run
            { run with phase := .renewing (lease.beginRenewal s.now) s.now, reply := none } :=
          ⟨rfl, rfl, fun finished => by simp [LeaseRun.finished, phase] at finished⟩
        exact inv.put found moves ((inv.runs i run found).renew phase)
      next => cases ok
  | release i =>
    simp only [LeaseSystem.step] at ok
    split at ok
    next => cases ok
    next run found =>
      have released (lease : GraphLease) (leased : run.leased = some lease) :=
        inv.release found leased
      split at ok
      next lease phase =>
        cases ok
        exact released lease (by simp [LeaseRun.leased, phase])
      next lease clock phase =>
        cases ok
        exact released lease (by simp [LeaseRun.leased, phase])
      next lease phase =>
        cases ok
        exact released lease (by simp [LeaseRun.leased, phase])
      next => cases ok
  | crash i =>
    simp only [LeaseSystem.step] at ok
    split at ok
    next => cases ok
    next run found =>
      cases ok
      have moves : Moves run { run with phase := .ended .crashed, reply := none } :=
        ⟨rfl, rfl, fun _ => rfl⟩
      exact inv.leave found moves (.of_over (inv.runs i run found).past rfl nofun)
        fun _ _ _ _ => rfl
  | breakLease provider value =>
    cases ok
    apply inv.stray
    intro command mem
    obtain rfl := mem_singleton.mp mem
    exact ⟨nofun, nofun⟩

variable {kind : LeaseSystem → LeaseAction → Prop}

theorem Reached.inv (reached : Reached ttl kind s) : s.Inv ttl := by
  induction reached with
  | start now => exact inv_start now
  | step _ _ ok ih => exact ih.step ok

/-! ## Renewals that return -/

/-- The key is held, and was granted to nobody else since. -/
structure Excludes (s : LeaseSystem) (key token : LeaseText) : Prop where
  held : s.redis.keys.live s.now key = some token
  last : s.redis.LastGranted key token

/-- In a step a renewal of a run returned `True`. -/
structure Renewed (s s' : LeaseSystem) (i : ℕ) (run : LeaseRun) : Prop where
  found : s.runs i = some run
  renewing : ∃ lease clock, run.phase = .renewing lease clock
  still : ∃ run' lease, s'.runs i = some run' ∧ run'.phase = .holding lease

def confirmed (run : LeaseRun) : Option ℕ :=
  match run.phase, run.reply with
  | .renewing _ clock, some (.count 1) => some clock
  | _, _ => none

theorem confirmed_spec {t : ℕ} (answered : confirmed run = some t) :
    ∃ lease, run.phase = .renewing lease t ∧ run.reply = some (.count 1) := by
  unfold confirmed at answered
  split at answered
  next lease clock phase reply =>
    cases answered
    exact ⟨lease, phase, reply⟩
  next => cases answered

/-- When the last renewal that was answered began, or else the acquisition, for a renewal that is
to be presumed good if the bus fails. -/
def presumed (ttl : ℕ) (run : LeaseRun) : Option ℕ :=
  match run.phase with
  | .renewing lease clock =>
    if lease.lastOk.getD clock + ttl ≤ clock then none else some run.since
  | _ => none

/-- A renewal returns within the time to live, counted from when it began, or, if the bus fails,
from when the last renewal that was answered began, or else the acquisition; and it returns before
the lease is taken finished or broken. -/
def Timely (ttl : ℕ) (s : LeaseSystem) : LeaseAction → Prop
  | .answer i => ∀ run ∈ s.runs i, ∀ t ∈ confirmed run, s.now < t + ttl ∧ run.token ∉ s.redis.ousted
  | .fail i => ∀ run ∈ s.runs i, ∀ t ∈ presumed ttl run,
      s.now < t + ttl ∧ run.token ∉ s.redis.ousted
  | _ => True

instance (ttl : ℕ) (s : LeaseSystem) : ∀ action, Decidable (s.Timely ttl action)
  | .answer i => inferInstanceAs (Decidable (∀ run ∈ s.runs i, ∀ t ∈ confirmed run,
      s.now < t + ttl ∧ run.token ∉ s.redis.ousted))
  | .fail i => inferInstanceAs (Decidable (∀ run ∈ s.runs i, ∀ t ∈ presumed ttl run,
      s.now < t + ttl ∧ run.token ∉ s.redis.ousted))
  | .wait _ | .acquire .. | .serve _ | .serveLate _ | .renew _ | .release _ | .crash _
  | .breakLease .. => .isTrue trivial

theorem Inv.excludes (inv : s.Inv ttl) (found : s.runs i = some run) {t : ℕ}
    (secured : s.redis.Secured ttl s.now run.key run.token t) (inTime : s.now < t + ttl)
    (kept : run.token ∉ s.redis.ousted) (granted : run.granted = true)
    (still : run.finished = false) : s.Excludes run.key run.token := by
  obtain ousted | late | ⟨expiry, held, young⟩ := secured
  · exact absurd ousted kept
  · exact absurd late (Nat.not_le_of_lt inTime)
  · have once := (inv.runs i run found).once still
    rw [granted] at once
    exact ⟨ExpiringKeys.live_of_entry held (Nat.lt_of_lt_of_le inTime young),
      inv.tidy.lastGranted held once⟩

theorem granted_of_renewing {lease : GraphLease} {clock : ℕ}
    (renewing : run.phase = .renewing lease clock) : run.granted = true ∧ run.finished = false := by
  unfold LeaseRun.granted LeaseRun.finished
  rw [renewing]
  exact ⟨rfl, rfl⟩

/-- A run that goes on with its lease after a renewal was confirmed, or presumes it. -/
theorem next_holding {lease lease' : GraphLease} {clock : ℕ} {reply : Option Reply}
    (renewing : run.phase = .renewing lease clock)
    (holding : run.next ttl reply = .holding lease') :
    reply = some (.count 1) ∨ (reply = none ∧ ¬ lease.lastOk.getD clock + ttl ≤ clock) := by
  unfold LeaseRun.next at holding
  rw [renewing] at holding
  rcases reply with - | (done | held | ms | n)
  · refine .inr ⟨rfl, fun long => ?_⟩
    simp only [GraphLease.endRenewal, if_pos long] at holding
    cases holding
  · cases holding
  · cases holding
  · cases holding
  · by_cases one : n = 1
    · exact .inl (by rw [one])
    · simp only [GraphLease.endRenewal, if_neg one] at holding
      cases holding

/-- Only a run's own answer, or the failure of its bus, ends its renewal. -/
theorem renewed_cases (ok : s.step ttl action = some s') (renewed : s.Renewed s' i run) :
    s'.now = s.now ∧ s'.redis = s.redis ∧ ((action = .answer i ∧ ∃ t, confirmed run = some t) ∨
        (action = .fail i ∧ presumed ttl run = some run.since)) := by
  obtain ⟨found, ⟨lease, clock, renewing⟩, run', lease', there, holding⟩ := renewed
  have unmoved (same : run'.phase = run.phase) : False := by
    rw [holding, renewing] at same
    cases same
  have stays (same : s.runs i = some run') : False := by
    cases found.symm.trans same
    exact unmoved rfl
  cases action with
  | wait ms =>
    cases ok
    exact (stays there).elim
  | acquire j provider owner hex host =>
    simp only [LeaseSystem.step] at ok
    split at ok
    next free =>
      cases ok
      obtain ⟨rfl, -⟩ | ⟨-, there⟩ := put_runs there
      · rw [found] at free
        cases free.1
      · exact (stays there).elim
    next => cases ok
  | serve j =>
    simp only [LeaseSystem.step] at ok
    split at ok
    next => cases ok
    next other here =>
      split at ok
      next => cases ok
      next command sent =>
        cases ok
        obtain ⟨rfl, rfl⟩ | ⟨-, there⟩ := put_runs there
        · cases found.symm.trans here
          exact (unmoved rfl).elim
        · exact (stays there).elim
  | serveLate command =>
    simp only [LeaseSystem.step] at ok
    split at ok
    next mem =>
      cases ok
      exact (stays there).elim
    next => cases ok
  | answer j =>
    simp only [LeaseSystem.step] at ok
    split at ok
    next => cases ok
    next other here =>
      split at ok
      next => cases ok
      next reply read =>
        cases ok
        obtain ⟨rfl, rfl⟩ | ⟨-, there⟩ := put_runs there
        · cases found.symm.trans here
          obtain answered | ⟨absurd, -⟩ := next_holding renewing holding
          · refine ⟨rfl, rfl, .inl ⟨rfl, clock, ?_⟩⟩
            rw [confirmed, renewing, read, answered]
            rfl
          · cases absurd
        · exact (stays there).elim
  | fail j =>
    simp only [LeaseSystem.step] at ok
    split at ok
    next => cases ok
    next other here =>
      cases ok
      obtain ⟨rfl, rfl⟩ | ⟨-, there⟩ := put_runs there
      · cases found.symm.trans here
        obtain absurd | ⟨-, short⟩ := next_holding renewing holding
        · cases absurd
        · refine ⟨rfl, rfl, .inr ⟨rfl, ?_⟩⟩
          rw [presumed, renewing]
          exact if_neg short
      · exact (stays there).elim
  | renew j =>
    simp only [LeaseSystem.step] at ok
    split at ok
    next => cases ok
    next other here =>
      split at ok
      next =>
        cases ok
        obtain ⟨rfl, rfl⟩ | ⟨-, there⟩ := put_runs there
        · cases holding
        · exact (stays there).elim
      next => cases ok
  | release j =>
    simp only [LeaseSystem.step] at ok
    split at ok
    next => cases ok
    next other here =>
      have gone (left : (s.put j { other with phase := .ended .released, reply := none }).runs i =
          some run') : False := by
        obtain ⟨rfl, rfl⟩ | ⟨-, left⟩ := put_runs left
        · cases holding
        · exact stays left
      split at ok
      next =>
        cases ok
        exact (gone there).elim
      next =>
        cases ok
        exact (gone there).elim
      next =>
        cases ok
        exact (gone there).elim
      next => cases ok
  | crash j =>
    simp only [LeaseSystem.step] at ok
    split at ok
    next => cases ok
    next other here =>
      cases ok
      obtain ⟨rfl, rfl⟩ | ⟨-, there⟩ := put_runs there
      · cases holding
      · exact (stays there).elim
  | breakLease provider value =>
    cases ok
    exact (stays there).elim

/-- A delete takes only a key that holds the token it names, and a release only its own run's. -/
def DeletesOwn (s s' : LeaseSystem) (action : LeaseAction) : Prop :=
  ∀ key value sender, action = .serveLate (.delete key value sender) →
    ∀ i run, s.runs i = some run → s.redis.keys.live s.now run.key = some run.token →
      s'.redis.keys.live s'.now run.key ≠ some run.token →
      run.token = value ∧ ∀ j, sender = some j → j = i

theorem Inv.deletesOwn (inv : s.Inv ttl) (ok : s.step ttl action = some s') :
    s.DeletesOwn s' action := by
  rintro key value sender rfl i run found held lost
  simp only [LeaseSystem.step] at ok
  split at ok
  next mem =>
    cases ok
    have named : run.token = value := by
      by_contra other
      obtain ⟨entry, here, same, young⟩ := ExpiringKeys.entry_of_live held
      have kept : (s.redis.keys.deleteIf s.now key value).1 run.key = some entry :=
        ExpiringKeys.deleteIf_keeps here (same.symm ▸ other)
      apply lost
      rw [← same]
      exact ExpiringKeys.live_of_entry kept young
    refine ⟨named, fun j same => ?_⟩
    subst same
    obtain ⟨owner, there, -, token⟩ := (inv.strays _ mem).deletes key value j rfl
    exact inv.distinct j i owner run there found (token.trans named.symm)
  next => cases ok

/-! ## Runs -/

def after (kind : LeaseSystem → LeaseAction → Prop) [∀ s action, Decidable (kind s action)]
    (ttl : ℕ) : LeaseSystem → List LeaseAction → Option LeaseSystem
  | s, [] => some s
  | s, action :: rest =>
    if kind s action then (s.step ttl action).bind fun s' => after kind ttl s' rest else none

theorem reached_after [∀ s action, Decidable (kind s action)] {actions : List LeaseAction}
    (reached : Reached ttl kind s) (ok : s.after kind ttl actions = some s') :
    Reached ttl kind s' := by
  induction actions generalizing s with
  | nil =>
    cases ok
    exact reached
  | cons action rest ih =>
    unfold after at ok
    split at ok
    next allowed =>
      obtain ⟨middle, first, later⟩ := bind_eq_some_iff.mp ok
      exact ih (.step reached allowed first) later
    next => cases ok

/-- What a list of steps leads to. -/
theorem exists_after [∀ s action, Decidable (kind s action)] {ttl : ℕ} {actions : List LeaseAction}
    {α : Type} {view : LeaseSystem → α} {seen : α}
    (sees : ((start 0).after kind ttl actions).map view = some seen) :
    ∃ s, Reached ttl kind s ∧ view s = seen := by
  obtain ⟨s, ok, eq⟩ := map_eq_some_iff.mp sees
  exact ⟨s, reached_after (.start 0) ok, eq⟩

def acquired : List LeaseAction :=
  [.acquire 0 ⟨['h'], ['g']⟩ ['j'] ['a'] ['x'], .serve 0, .answer 0, .wait 20000, .renew 0]

/-- The bus fails at the first renewal; the lease expires, and another run acquires it. -/
def expired : List LeaseAction :=
  acquired ++ [.fail 0, .wait 45000, .acquire 1 ⟨['h'], ['g']⟩ ['k'] ['b'] ['y'], .serve 1,
    .answer 1, .wait 5000, .renew 0]

def firstLease : GraphLease where
  key := leaseKey ⟨['h'], ['g']⟩
  token := leaseToken ['a'] ['j'] ['x']
  lost := none
  lastOk := some 20000

def firstRun (phase : Phase) (reply : Option Reply) (since : ℕ) : LeaseRun where
  key := firstLease.key
  owner := ['j']
  token := firstLease.token
  phase := phase
  reply := reply
  since := since

/-- Whenever a renewal returns `True`, its run's key has not expired and was granted to nobody else
since, in every run whose renewals return in time and before their lease is taken finished or
broken; and a release or a break never deletes another run's lease. -/
theorem renewed_excludes {ttl : ℕ} {s s' : LeaseSystem} {action : LeaseAction}
    (reached : Reached ttl (Timely ttl) s) (timely : s.Timely ttl action)
    (ok : s.step ttl action = some s') :
    (∀ i run, s.Renewed s' i run → s'.Excludes run.key run.token) ∧ s.DeletesOwn s' action := by
  have inv := reached.inv
  refine ⟨fun i run renewed => ?_, inv.deletesOwn ok⟩
  obtain ⟨lease, clock, renewing⟩ := renewed.renewing
  obtain ⟨granted, still⟩ := granted_of_renewing renewing
  have sound := inv.runs i run renewed.found
  obtain ⟨sameNow, sameRedis, ending⟩ := renewed_cases ok renewed
  have excludes : s.Excludes run.key run.token := by
    obtain ⟨rfl, t, answered⟩ | ⟨rfl, presumes⟩ := ending
    · obtain ⟨inTime, kept⟩ := timely run renewed.found t answered
      obtain ⟨other, began, reply⟩ := confirmed_spec answered
      exact inv.excludes renewed.found ((sound.renewed other t began).2 reply) inTime kept granted
        still
    · obtain ⟨inTime, kept⟩ := timely run renewed.found run.since presumes
      exact inv.excludes renewed.found (sound.secured granted) inTime kept granted still
  exact ⟨by rw [sameNow, sameRedis]; exact excludes.held, by rw [sameRedis]; exact excludes.last⟩

/-- A lease that Redis renews 20 s after it was granted excludes others. -/
theorem renewed_excludes_confirmed : ∃ s s' : LeaseSystem, ∃ run,
    s.step 60000 (.answer 0) = some s' ∧ s.Renewed s' 0 run ∧ s'.Excludes run.key run.token := by
  have sees : ((start 0).after (Timely 60000) 60000 (acquired ++ [.serve 0])).map
      (fun s => (s.runs 0, (s.step 60000 (.answer 0)).map fun s' => s'.runs 0,
        decide (s.Timely 60000 (.answer 0)))) =
      some (some (firstRun (.renewing firstLease 20000) (some (.count 1)) 0),
        some (some (firstRun (.holding firstLease) none 20000)), true) := by decide
  obtain ⟨s, reached, eq⟩ := exists_after sees
  simp only [Prod.mk.injEq] at eq
  obtain ⟨before, step, timely⟩ := eq
  obtain ⟨s', ok, later⟩ := map_eq_some_iff.mp step
  have renewed : s.Renewed s' 0 (firstRun (.renewing firstLease 20000) (some (.count 1)) 0) :=
    ⟨before, ⟨_, _, rfl⟩, ⟨_, _, later, rfl⟩⟩
  exact ⟨s, s', _, ok, renewed,
    (renewed_excludes reached (of_decide_eq_true timely) ok).1 0 _ renewed⟩

/-- A run whose bus fails at its first renewal counts from there, and holds on to a lease that has
expired and is another's. -/
theorem renewed_excludes_expired : ∃ s s' : LeaseSystem, ∃ run,
    Reached 60000 (fun _ _ => True) s ∧ s.step 60000 (.fail 0) = some s' ∧ s.Renewed s' 0 run ∧
      ¬ s'.Excludes run.key run.token := by
  have sees : ((start 0).after (fun _ _ => True) 60000 expired).map
      (fun s => (s.runs 0, (s.step 60000 (.fail 0)).map fun s' =>
        (s'.runs 0, s'.redis.keys.live s'.now firstLease.key))) =
      some (some (firstRun (.renewing firstLease 70000) none 0),
        some (some (firstRun (.holding firstLease) none 0),
          some (leaseToken ['b'] ['k'] ['y']))) := by decide
  obtain ⟨s, reached, eq⟩ := exists_after sees
  simp only [Prod.mk.injEq] at eq
  obtain ⟨before, step⟩ := eq
  obtain ⟨s', ok, later⟩ := map_eq_some_iff.mp step
  simp only [Prod.mk.injEq] at later
  obtain ⟨still, other⟩ := later
  refine ⟨s, s', _, reached, ok, ⟨before, ⟨_, _, rfl⟩, ⟨_, _, still, rfl⟩⟩, fun excludes => ?_⟩
  have held : some (leaseToken ['b'] ['k'] ['y']) = some firstLease.token :=
    other.symm.trans excludes.held
  revert held
  decide

/-! ## One writer a graph -/

/-- A run was granted its key, less than the time to live ago it began its last answered renewal,
or else the acquisition, and nobody took the lease over or deleted it. -/
structure Writes (ttl : ℕ) (s : LeaseSystem) (i : ℕ) (run : LeaseRun) : Prop where
  found : s.runs i = some run
  granted : run.granted = true
  inTime : s.now < run.since + ttl
  kept : run.token ∉ s.redis.ousted

theorem Writes.excludes (writes : s.Writes ttl i run) (inv : s.Inv ttl) :
    s.Excludes run.key run.token := by
  obtain ⟨found, granted, inTime, kept⟩ := writes
  apply inv.excludes found ((inv.runs i run found).secured granted) inTime kept granted
  unfold LeaseRun.granted at granted
  unfold LeaseRun.finished
  split at granted <;> simp_all

/-- However the steps of runs interleave, no two runs write to one graph. -/
theorem one_writer (reached : Reached ttl kind s) (one : s.Writes ttl i run)
    (other : s.Writes ttl j run') (graph : run.key = run'.key) : i = j := by
  have inv := reached.inv
  apply inv.distinct i j run run' one.found other.found
  have held := (one.excludes inv).held
  rw [graph, (other.excludes inv).held] at held
  exact (Option.some.inj held).symm

/-- The run that acquired a lease 20 s ago is its graph's writer. -/
theorem one_writer_acquired : ∃ s : LeaseSystem, s.Writes 60000 0
    (firstRun (.renewing firstLease 20000) none 0) ∧ ∀ j (run : LeaseRun), s.Writes 60000 j run →
      firstLease.key = run.key → 0 = j := by
  have sees : ((start 0).after (fun _ _ => True) 60000 acquired).map
      (fun s => (s.runs 0, s.now, s.redis.ousted)) =
      some (some (firstRun (.renewing firstLease 20000) none 0), 20000, []) := by decide
  obtain ⟨s, reached, eq⟩ := exists_after sees
  simp only [Prod.mk.injEq] at eq
  obtain ⟨found, now, kept⟩ := eq
  have writes : s.Writes 60000 0 (firstRun (.renewing firstLease 20000) none 0) :=
    ⟨found, rfl, by rw [now]; decide, by rw [kept]; exact not_mem_nil⟩
  exact ⟨s, writes, fun j run => one_writer reached writes⟩

end LeaseSystem

end DataViz.Service
