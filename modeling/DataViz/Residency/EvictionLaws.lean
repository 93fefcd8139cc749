/-
# Eviction does enough and no more

On a master under pressure the pressure evictions are the least prefix of its coldest graphs that,
after the idle ones, brings its use to the stop mark. The evictions that make room for a load are
the least prefix of the quiet graphs that lets the load in, and none are made where all of them
would not. Idle graphs go whether or not they are needed.
-/

import DataViz.Data.LeastPrefix
import DataViz.Residency.PlanLaws
import Mathlib.Algebra.Order.Ring.Int

namespace DataViz.Residency

open List

variable {policy : ResidencyPolicy} {graphs : List Graph} {now : ℤ} {sized : Bool}

section

/-- Coldline goes before Standard, and the graph read longest ago first. -/
theorem pairwise_coldestFirst : (coldestFirst policy now graphs).Pairwise fun first second =>
    coldness now first.1 ≤ coldness now second.1 := by
  have sorted := pairwise_insertionSort
    (fun first second : Graph => coldness now first ≤ coldness now second) graphs
  have kept := sorted.sublist (@map_fst_coldestFirst_sublist policy graphs now)
  rwa [pairwise_map] at kept

def total (items : List (Graph × ℤ)) : ℤ :=
  (items.map (·.2)).sum

def pressed (policy : ResidencyPolicy) (endpoint : String) (items : List (Graph × ℤ)) :
    List Eviction :=
  items.map fun next => evict policy endpoint .pressure next.1

theorem pickColdest_least (items : List (Graph × ℤ)) (lacking : ℤ) :
    LeastPrefix (·.2) items lacking (pickColdest items lacking).1 ∧
      (pickColdest items lacking).2 = lacking - total (pickColdest items lacking).1 := by
  induction items generalizing lacking with
  | nil => exact ⟨.of_empty lacking, by simp [pickColdest, total]⟩
  | cons next rest ih =>
    rw [pickColdest]
    split
    case isTrue reached => exact ⟨.of_reached _ reached, by simp [total]⟩
    case isFalse missing =>
      obtain ⟨least, left⟩ := ih (lacking - next.2)
      refine ⟨least.cons (lt_of_not_ge missing), ?_⟩
      rw [left]
      simp only [total, map_cons, sum_cons]
      omega

theorem relieve_least (endpoint : String) (used stop : ℤ) (items : List (Graph × ℤ))
    (relief : Relief) : ∃ taken, LeastPrefix (·.2) items (used - relief.freed - stop) taken ∧
      (items.foldl (relieve policy endpoint used stop) relief).evictions =
        relief.evictions ++ pressed policy endpoint taken ∧
      (items.foldl (relieve policy endpoint used stop) relief).freed =
        relief.freed + total taken := by
  induction items generalizing relief with
  | nil => exact ⟨[], .of_empty _, by simp [pressed], by simp [total]⟩
  | cons next rest ih =>
    obtain ⟨taken, least, evicted, freed⟩ := ih (relieve policy endpoint used stop relief next)
    rw [foldl_cons, evicted, freed]
    by_cases reached : used - relief.freed ≤ stop
    · have target : used - relief.freed - stop ≤ 0 := by omega
      have same : (relieve policy endpoint used stop relief next).freed = relief.freed := by
        rw [relieve, if_pos reached]
      have old : (relieve policy endpoint used stop relief next).evictions = relief.evictions := by
        rw [relieve, if_pos reached]
      rw [same] at least
      obtain rfl := least.eq_nil_of_reached target
      exact ⟨[], .of_reached _ target, by rw [old], by rw [same]⟩
    · have more : (relieve policy endpoint used stop relief next).freed =
          relief.freed + next.2 := by
        rw [relieve, if_neg reached]
      have new : (relieve policy endpoint used stop relief next).evictions =
          relief.evictions ++ [evict policy endpoint .pressure next.1] := by
        rw [relieve, if_neg reached]
      refine ⟨next :: taken, LeastPrefix.cons (by omega) ?_, ?_, ?_⟩
      · have target : used - relief.freed - stop - next.2 =
            used - (relief.freed + next.2) - stop := by omega
        rwa [target, ← more]
      · rw [new, append_assoc]
        rfl
      · simp only [total, map_cons, sum_cons]
        omega

end

section

def stopMark (master : Master) (policy : ResidencyPolicy) : ℤ :=
  master.maxmemory * policy.lowWaterPct / 100

/-- A master at its start mark, in a pass that read the graphs' sizes. -/
def UnderPressure (policy : ResidencyPolicy) (master : Master) (used : ℤ) (sized : Bool) : Prop :=
  sized = true ∧ 0 < master.maxmemory ∧ master.maxmemory * policy.highWaterPct ≤ used * 100

/-- What evictions free, one of unknown size nothing. -/
def freed (evictions : List Eviction) : ℤ :=
  (evictions.map (·.bytes.getD 0)).sum

/-- The graphs that pressure may evict, the coldest first: those that are not idle. -/
def spareable (policy : ResidencyPolicy) (graphs : List Graph) (now : ℤ) : List (Graph × ℤ) :=
  coldestFirst policy now ((candidates graphs).filter (!isIdle policy now ·))

/-- The pressure evictions of a master bring its use to the stop mark or are all there can be, the
coldest go first, and each was needed. -/
structure Relieved (policy : ResidencyPolicy) (graphs : List Graph) (now : ℤ) (master : Master)
    (used : ℤ) (idle : List Eviction) (pressure : List (Graph × ℤ)) : Prop where
  ordered : (spareable policy graphs now).Pairwise fun first second =>
    coldness now first.1 ≤ coldness now second.1
  coldest : pressure <+: spareable policy graphs now
  enough : used - freed idle - total pressure ≤ stopMark master policy ∨
    pressure = spareable policy graphs now
  needed : ∀ front next rest, pressure = front ++ next :: rest →
    stopMark master policy < used - freed idle - total front

theorem relief_spec (master : Master) (used : ℤ) : ∃ pressure : List (Graph × ℤ),
    (relief policy master used graphs now sized).evictions =
      idleEvictions policy master.endpoint graphs now ++ pressed policy master.endpoint pressure ∧
    (relief policy master used graphs now sized).freed =
      freed (idleEvictions policy master.endpoint graphs now) + total pressure ∧
    (UnderPressure policy master used sized → Relieved policy graphs now master used
      (idleEvictions policy master.endpoint graphs now) pressure) ∧
    (¬UnderPressure policy master used sized → pressure = []) := by
  rw [relief]
  by_cases under : UnderPressure policy master used sized
  · obtain ⟨measured, limited, high⟩ := under
    obtain ⟨taken, least, evicted, made⟩ := @relieve_least policy master.endpoint used
      (stopMark master policy) (spareable policy graphs now)
      { evictions := idleEvictions policy master.endpoint graphs now
        freed := freed (idleEvictions policy master.endpoint graphs now) }
    dsimp only at least evicted made
    have branch : (sized && decide (0 < master.maxmemory) &&
        decide (master.maxmemory * policy.highWaterPct ≤ used * 100)) = true := by
      simp [measured, limited, high]
    rw [if_pos branch]
    refine ⟨taken, evicted, made, fun _ => ⟨pairwise_coldestFirst, least.isPrefix, ?_,
      fun front next rest same => ?_⟩,
      fun calm => absurd ⟨measured, limited, high⟩ calm⟩
    · exact least.enough.imp (fun reached => by simp only [total]; omega) id
    · have short := least.needed front next rest same
      simp only [total]
      omega
  · have branch : ¬(sized && decide (0 < master.maxmemory) &&
        decide (master.maxmemory * policy.highWaterPct ≤ used * 100)) = true := by
      simpa [UnderPressure, and_assoc] using under
    rw [if_neg branch]
    exact ⟨[], (append_nil _).symm, (add_zero _).symm, fun high => absurd high under, fun _ => rfl⟩

theorem planMaster_spec {master : Master} {used : ℤ} (read : master.used = some used)
    (enabled : evictsOn policy master = true) : ∃ pressure : List (Graph × ℤ),
    (planMaster policy master graphs now sized).evictions =
      idleEvictions policy master.endpoint graphs now ++ pressed policy master.endpoint pressure ∧
    (planMaster policy master graphs now sized).usedAfter =
      some (used - freed (idleEvictions policy master.endpoint graphs now) - total pressure) ∧
    (UnderPressure policy master used sized → Relieved policy graphs now master used
      (idleEvictions policy master.endpoint graphs now) pressure) ∧
    (¬UnderPressure policy master used sized → pressure = []) := by
  obtain ⟨pressure, evicted, made, under, calm⟩ :=
    @relief_spec policy graphs now sized master used
  refine ⟨pressure, ?_, ?_, under, calm⟩
  · simp only [planMaster, read, if_pos enabled]
    exact evicted
  · simp only [planMaster, read, if_pos enabled, made]
    exact congrArg some (by omega)

/-- The graphs that may make room on a master, the coldest first: not evicted there yet, and quiet
for the Coldline idle time. -/
def quiet (policy : ResidencyPolicy) (graphs : List Graph) (now : ℤ) (at_ : MasterPlan) :
    List (Graph × ℤ) :=
  coldestFirst policy now ((candidates graphs).filter (makesRoom policy at_ now))

theorem quiet_congr {first second : MasterPlan} (same : first.evictions = second.evictions) :
    quiet policy graphs now first = quiet policy graphs now second := by
  have makes : makesRoom policy first now = makesRoom policy second now := by
    funext graph
    rw [makesRoom, makesRoom, same]
  rw [quiet, quiet, makes]

theorem makeRoom_spec {at_ made : MasterPlan} {used after shortfall : ℤ}
    (read : at_.master.used = some used) (left : at_.usedAfter = some after)
    (room : makeRoom policy at_ graphs shortfall now = some made) :
    ∃ picks, made.evictions = at_.evictions ++ pressed policy at_.master.endpoint picks ∧
      made.usedAfter = some (after - total picks) ∧ picks <+: quiet policy graphs now at_ ∧
      shortfall - (used - after) ≤ total picks ∧
      ∀ front next rest, picks = front ++ next :: rest →
        total front < shortfall - (used - after) := by
  rw [makeRoom] at room
  simp only [read, left, Option.getD_some] at room
  split at room
  case isFalse => cases room
  case isTrue =>
    split at room
    case isTrue reached =>
      cases room
      exact ⟨[], (append_nil _).symm, by rw [left]; exact congrArg some (sub_zero _).symm,
        nil_prefix, reached, fun front next rest same => absurd same.symm (by simp)⟩
    case isFalse missing =>
      split at room
      case isTrue => cases room
      case isFalse enough =>
        cases room
        obtain ⟨least, lacks⟩ := pickColdest_least (quiet policy graphs now at_)
          (shortfall - (used - after))
        rw [quiet] at lacks
        exact ⟨_, rfl, rfl, least.isPrefix, by omega, least.needed⟩

theorem shortfall_eq {master : Master} {used needed reserved shortfall : ℤ}
    (read : master.used = some used)
    (refused : admitLoad master needed policy reserved = (false, some shortfall)) :
    shortfall = used + reserved + needed - startMark master policy ∧ 0 < shortfall := by
  rw [admitLoad, read] at refused
  dsimp only at refused
  split at refused
  case isTrue => cases refused
  case isFalse =>
    rw [Prod.mk.injEq, decide_eq_false_iff_not, Option.some_inj] at refused
    omega

end

section

variable {pass : Pass} {graph : Graph}

/-- What a later load leaves of a master's plan: all but what waits and what starts there. -/
structure MasterPlan.Keeps (old plan : MasterPlan) : Prop where
  master : plan.master = old.master
  reserved : plan.reserved = old.reserved
  evictions : plan.evictions = old.evictions
  usedAfter : plan.usedAfter = old.usedAfter
  claimed : plan.claimed = old.claimed
  waits : old.waits ⊆ plan.waits

theorem MasterPlan.Keeps.refl (plan : MasterPlan) : plan.Keeps plan :=
  ⟨rfl, rfl, rfl, rfl, rfl, Subset.refl _⟩

/-- Room is made on a master for a load that is refused there, and the load waits for it. -/
structure MasterPlan.Claims (policy : ResidencyPolicy) (graphs : List Graph) (now : ℤ)
    (graph : Graph) (old plan : MasterPlan) (needed shortfall : ℤ) (made : MasterPlan) : Prop where
  asks : need graph policy = some needed
  refused : admitLoad old.master needed policy old.reserved = (false, some shortfall)
  room : makeRoom policy old (graphsOn graphs old.master) shortfall now = some made
  master : plan.master = old.master
  reserved : plan.reserved = old.reserved
  evictions : plan.evictions = made.evictions
  usedAfter : plan.usedAfter = made.usedAfter
  claimed : plan.claimed = true
  waits : ⟨graph.graphId, old.master.endpoint, graph.bytes policy, .capacity, some shortfall⟩ ∈
    plan.waits

/-- A load refused where the use could be read falls short by a known number of bytes. -/
theorem exists_shortfall {master : Master} {needed reserved : ℤ} (read : master.used.isSome)
    (refused : ¬(admitLoad master needed policy reserved).1 = true) :
    ∃ shortfall, admitLoad master needed policy reserved = (false, some shortfall) := by
  obtain ⟨used, read⟩ := Option.isSome_iff_exists.1 read
  rw [admitLoad, read] at refused ⊢
  dsimp only at refused ⊢
  split at refused
  case isTrue => exact absurd rfl refused
  case isFalse limited =>
    rw [if_neg limited]
    rw [decide_eq_true_eq] at refused
    exact ⟨_, Prod.ext (decide_eq_false refused) rfl⟩

theorem Pass.keeps_wait {endpoint : String} {reason : WaitReason} {shortfall : Option ℤ}
    {plan : MasterPlan} (mem : plan ∈ (pass.wait policy graph endpoint reason shortfall).plans) :
    ∃ old ∈ pass.plans, old.Keeps plan := by
  rcases Pass.mem_update mem with ⟨old, inOld, -, rfl⟩ | ⟨inOld, -⟩
  · exact ⟨old, inOld, rfl, rfl, rfl, rfl, rfl, subset_append_left _ _⟩
  · exact ⟨plan, inOld, .refl plan⟩

theorem Pass.keeps_load {endpoint : String} {bytes : ℤ} {plan : MasterPlan}
    (mem : plan ∈ (pass.load graph endpoint bytes).plans) :
    ∃ old ∈ pass.plans, old.Keeps plan := by
  rcases Pass.mem_update mem with ⟨old, inOld, -, rfl⟩ | ⟨inOld, -⟩
  · exact ⟨old, inOld, rfl, rfl, rfl, rfl, rfl, Subset.refl _⟩
  · exact ⟨plan, inOld, .refl plan⟩

theorem Pass.claims_claim {target made plan : MasterPlan} {needed shortfall : ℤ}
    (asks : need graph policy = some needed)
    (refused : admitLoad target.master needed policy target.reserved = (false, some shortfall))
    (room : makeRoom policy target (graphsOn graphs target.master) shortfall now = some made)
    (mem : plan ∈ ((pass.claim graph made).wait policy graph target.master.endpoint .capacity
      (some shortfall)).plans) :
    (∃ old ∈ pass.plans, old.Keeps plan) ∨
      target.Claims policy graphs now graph plan needed shortfall made := by
  have frame := makeRoom_frame room
  rcases Pass.mem_update mem with ⟨mid, inMid, here, rfl⟩ | ⟨inMid, elsewhere⟩
  · rcases Pass.mem_update inMid with ⟨old, -, -, rfl⟩ | ⟨-, elsewhere⟩
    · right
      exact ⟨asks, refused, room, frame.1, frame.2.1, rfl, rfl, rfl,
        mem_append_right _ (mem_singleton_self _)⟩
    · rw [frame.1] at elsewhere
      exact absurd here elsewhere
  · rcases Pass.mem_update inMid with ⟨old, -, -, rfl⟩ | ⟨inOld, -⟩
    · exact absurd (congrArg Master.endpoint frame.1) elsewhere
    · exact .inl ⟨plan, inOld, .refl plan⟩

theorem Pass.next_plans {plan : MasterPlan}
    (mem : plan ∈ (Pass.next policy graphs now sized pass graph).plans) :
    ∃ old ∈ pass.plans, old.Keeps plan ∨ old.master.endpoint ∉ pass.busy ∧
      ∃ needed shortfall made, old.Claims policy graphs now graph plan needed shortfall made := by
  have kept {after : Pass} (old : ∃ old ∈ after.plans, old.Keeps plan) (same : after = pass) :
      ∃ old ∈ pass.plans, old.Keeps plan ∨ old.master.endpoint ∉ pass.busy ∧
        ∃ needed shortfall made, old.Claims policy graphs now graph plan needed shortfall made := by
    subst same
    exact old.imp fun _ found => ⟨found.1, .inl found.2⟩
  rw [Pass.next] at mem
  split at mem
  case h_2 => exact kept (Pass.keeps_wait mem) rfl
  case h_1 bytes needed known asks =>
    split at mem
    case isTrue => exact kept (Pass.keeps_wait mem) rfl
    case isFalse =>
      split at mem
      case h_1 => exact kept (Pass.keeps_wait mem) rfl
      case h_2 target goes =>
        obtain ⟨inPlans, read, notBusy, -⟩ := Pass.mem_of_target goes
        dsimp only at mem
        split at mem
        case isTrue => exact kept (Pass.keeps_load mem) rfl
        case isFalse refused =>
          rw [Pass.short] at mem
          split at mem
          case h_1 => exact kept (Pass.keeps_wait mem) rfl
          case h_2 =>
            dsimp only at mem
            split at mem
            case h_2 => exact kept (Pass.keeps_wait mem) rfl
            case h_1 made room =>
              split at room
              case isFalse => cases room
              case isTrue =>
                obtain ⟨shortfall, short⟩ := exists_shortfall read refused
                rw [short] at mem room
                rcases Pass.claims_claim asks short room mem with old | claims
                · exact kept old rfl
                · exact ⟨target, inPlans, .inr ⟨notBusy, needed, shortfall, made, claims⟩⟩

end

section

variable {masters : List Master}

/-- Where a master's plan comes from: what the pass decided for the master by itself, and at most
one claim on top of it. -/
inductive MasterPlan.Eased (policy : ResidencyPolicy) (graphs : List Graph) (now : ℤ) (sized : Bool)
    (plan : MasterPlan) : Prop
  | own (own : (planMaster policy plan.master (graphsOn graphs plan.master) now sized).Keeps plan)
  | claimed (graph : Graph) (old made : MasterPlan) (needed shortfall : ℤ)
      (own : (planMaster policy old.master (graphsOn graphs old.master) now sized).Keeps old)
      (asked : graph ∈ asked graphs)
      (claims : old.Claims policy graphs now graph plan needed shortfall made)

theorem MasterPlan.Eased.keeps {old plan : MasterPlan} (eased : old.Eased policy graphs now sized)
    (keeps : old.Keeps plan) : plan.Eased policy graphs now sized := by
  cases eased with
  | own own =>
    rw [← keeps.master] at own
    exact .own ⟨(planMaster_frame plan.master).1.symm, keeps.reserved.trans own.reserved,
      keeps.evictions.trans own.evictions, keeps.usedAfter.trans own.usedAfter,
      keeps.claimed.trans own.claimed, fun wait mem => keeps.waits (own.waits mem)⟩
  | claimed graph first made needed shortfall own asked claims =>
    exact .claimed graph first made needed shortfall own asked ⟨claims.asks, claims.refused,
      claims.room, keeps.master.trans claims.master, keeps.reserved.trans claims.reserved,
      keeps.evictions.trans claims.evictions, keeps.usedAfter.trans claims.usedAfter,
      keeps.claimed.trans claims.claimed, keeps.waits claims.waits⟩

theorem eased_foldl (nodup : (graphs.map (·.graphId)).Nodup)
    (endpoints : (masters.map (·.endpoint)).Nodup) (items : List Graph)
    (known : ∀ graph ∈ items, graph ∈ asked graphs ∧ graph.endpoint ∈ masters.map (·.endpoint))
    {pass : Pass} (sound : pass.Sound policy graphs masters)
    (eased : ∀ plan ∈ pass.plans, plan.Eased policy graphs now sized) :
    ∀ plan ∈ (items.foldl (Pass.next policy graphs now sized) pass).plans,
      plan.Eased policy graphs now sized := by
  induction items generalizing pass with
  | nil => exact eased
  | cons graph rest ih =>
    obtain ⟨isAsked, home⟩ := known graph mem_cons_self
    have ends : pass.plans.map (·.master.endpoint) = masters.map (·.endpoint) := by
      rw [← sound.masters, map_map]
      rfl
    have step : Pass.Next policy graphs now pass graph
        (Pass.next policy graphs now sized pass graph) := Pass.next_spec (ends ▸ home)
    refine ih (fun other mem => known other (mem_cons_of_mem _ mem))
      (sound.next nodup endpoints isAsked step) fun plan mem => ?_
    obtain ⟨old, inPlans, keeps | ⟨free, needed, shortfall, made, claims⟩⟩ :=
      Pass.next_plans mem
    · exact (eased old inPlans).keeps keeps
    · cases eased old inPlans with
      | own own => exact .claimed graph old made needed shortfall own isAsked claims
      | claimed other first made' needed' shortfall' own asked earlier =>
        exact absurd ((sound.plans old inPlans).busy (.inr (.inl earlier.claimed))) free

theorem Snapshot.eased (snapshot : Snapshot) {plan : MasterPlan}
    (mem : plan ∈ (snapshot.plan policy now sized).masters) :
    plan.Eased policy snapshot.graphs now sized := by
  refine eased_foldl snapshot.ids_nodup snapshot.nodup_allMasters (asked snapshot.graphs)
    (fun graph mem => ⟨mem, snapshot.endpoint_mem_allMasters (snapshot.mem_asked.mp mem).1⟩)
    (@sound_startOf policy snapshot.graphs now sized snapshot.allMasters snapshot.ids_nodup)
    (fun plan mem => ?_) plan mem
  obtain ⟨master, -, rfl⟩ := mem_map.1 mem
  refine .own ?_
  rw [(planMaster_frame master).1]
  exact .refl _

end

section

/-- The evictions that make room for a load bring what is `left` in use on its master to where the
load is let in, the coldest go first, and each was needed. -/
structure RoomMade (policy : ResidencyPolicy) (graphs : List Graph) (now : ℤ) (plan : MasterPlan)
    (left needed : ℤ) (earlier : List Eviction) (room : List (Graph × ℤ)) : Prop where
  ordered : (quiet policy graphs now { plan with evictions := earlier }).Pairwise
    fun first second => coldness now first.1 ≤ coldness now second.1
  coldest : room <+: quiet policy graphs now { plan with evictions := earlier }
  fits : left - total room + plan.reserved + needed ≤ startMark plan.master policy
  needed : ∀ front next rest, room = front ++ next :: rest →
    startMark plan.master policy < left - total front + plan.reserved + needed

/-- What a pass evicts on a master that evictions can be carried out on: its idle graphs, the least
that relieves it when it is under pressure, and for a load that waits for it the least that lets
the load in, or nothing. -/
theorem Snapshot.evicts_no_more_than_enough (policy : ResidencyPolicy) (snapshot : Snapshot)
    (now : ℤ) (sized : Bool) {plan : MasterPlan}
    (mem : plan ∈ (snapshot.plan policy now sized).masters) {used : ℤ}
    (read : plan.master.used = some used) (enabled : evictsOn policy plan.master = true) :
    let graphs := graphsOn snapshot.graphs plan.master
    let idle := idleEvictions policy plan.master.endpoint graphs now
    ∃ pressure room : List (Graph × ℤ),
      plan.evictions = idle ++ pressed policy plan.master.endpoint pressure ++
        pressed policy plan.master.endpoint room ∧
      plan.usedAfter = some (used - freed idle - total pressure - total room) ∧
      (UnderPressure policy plan.master used sized →
        Relieved policy graphs now plan.master used idle pressure) ∧
      (¬UnderPressure policy plan.master used sized → pressure = []) ∧
      (plan.claimed = false → room = []) ∧
      (plan.claimed = true → ∃ graph ∈ asked snapshot.graphs, ∃ needed shortfall,
        need graph policy = some needed ∧
        ⟨graph.graphId, plan.master.endpoint, graph.bytes policy, .capacity, some shortfall⟩ ∈
          plan.waits ∧
        RoomMade policy graphs now plan (used - freed idle - total pressure) needed
          (idle ++ pressed policy plan.master.endpoint pressure) room) := by
  intro graphs idle
  cases snapshot.eased mem with
  | own own =>
    obtain ⟨pressure, evicted, after, under, calm⟩ := @planMaster_spec policy graphs now
      sized plan.master used read enabled
    have unclaimed : plan.claimed = false := own.claimed.trans (planMaster_frame _).2.2.2.1
    refine ⟨pressure, [], ?_, ?_, under, calm, fun _ => rfl, fun claimed => ?_⟩
    · rw [own.evictions, evicted]
      exact (append_nil _).symm
    · rw [own.usedAfter, after]
      exact congrArg some (sub_zero _).symm
    · rw [unclaimed] at claimed
      cases claimed
  | claimed graph old made needed shortfall own asker claims =>
    have master := claims.master
    rw [← master] at own
    obtain ⟨pressure, evicted, after, under, calm⟩ := @planMaster_spec policy graphs now
      sized plan.master used read enabled
    have room := claims.room
    rw [← master] at room
    obtain ⟨picks, added, left, coldest, enough, required⟩ := makeRoom_spec
      (master ▸ read) (own.usedAfter.trans after) room
    obtain ⟨short, -⟩ := shortfall_eq (master ▸ read) claims.refused
    have earlier : old.evictions = idle ++ pressed policy plan.master.endpoint pressure :=
      own.evictions.trans evicted
    have same : quiet policy graphs now { plan with evictions := old.evictions } =
        quiet policy graphs now old := quiet_congr rfl
    rw [← master] at short
    have onIdle : freed (idleEvictions policy plan.master.endpoint graphs now) = freed idle := rfl
    refine ⟨pressure, picks, ?_, claims.usedAfter.trans left, under, calm, fun none => ?_,
      fun _ => ⟨graph, asker, needed, shortfall, claims.asks, ?_, ?_⟩⟩
    · rw [claims.evictions, added, earlier, master]
    · rw [claims.claimed] at none
      cases none
    · rw [master]
      exact claims.waits
    · rw [← earlier]
      refine ⟨pairwise_coldestFirst, same ▸ coldest, ?_, fun front next rest split => ?_⟩
      · rw [claims.reserved]
        omega
      · have missing := required front next rest split
        rw [claims.reserved]
        omega

/-- Two graphs idle on a full master, each of a size that relieves it by itself. -/
def crowded : Snapshot where
  masters := [{ endpoint := "a", used := some 85, maxmemory := 100 }]
  graphs := ["x", "y"].map fun graphId =>
    { graphId, endpoint := "a", residency := .standard, status := .idle, lastRead := some 0
      sizeBytes := some 20 }
  endpoints_nodup := by decide
  ids_nodup := by decide

/-- A policy of the shipped defaults, by which a graph is idle after an hour. -/
def hourly : ResidencyPolicy where
  evictionEnabled := true
  standardIdleSecs := 3600
  coldlineIdleSecs := 3600
  highWaterPct := 80
  lowWaterPct := 70
  loadMarginPct := 130
  bytesPerEntity := 550

/-- Idle graphs are evicted though fewer would relieve the master, and where eviction is turned off
none are, though there are graphs to evict. -/
theorem evictions_of_crowded : (∃ plan ∈ (crowded.plan hourly (seconds 7200) true).masters,
      UnderPressure hourly plan.master 85 true ∧ plan.master.used = some 85 ∧
        ∃ front last, plan.evictions = front ++ [last] ∧
          85 - freed front ≤ stopMark plan.master hourly) ∧
    ∃ plan ∈ (crowded.plan { hourly with evictionEnabled := false } (seconds 7200) true).masters,
      UnderPressure hourly plan.master 85 true ∧ plan.master.used = some 85 ∧
        plan.evictions = [] ∧ stopMark plan.master hourly < 85 ∧
        ∃ graph ∈ candidates crowded.graphs, graph.bytes hourly = some 20 := by
  refine ⟨⟨_, mem_cons_self, ⟨rfl, by decide, by decide⟩, rfl, ?_⟩,
    ⟨_, mem_cons_self, ⟨rfl, by decide, by decide⟩, rfl, rfl, by decide, ?_⟩⟩
  · exact ⟨[⟨"x", "a", some 20, .idle .standard⟩], ⟨"y", "a", some 20, .idle .standard⟩, rfl,
      by decide⟩
  · exact ⟨_, mem_cons_self, rfl⟩

/-- A master under pressure with an idle graph and two that have been unread for less long, and a
graph that waits to be loaded there. -/
def loadWaiting : Snapshot where
  masters := [{ endpoint := "a", used := some 85, maxmemory := 100 }]
  graphs :=
    [{ graphId := "old", endpoint := "a", residency := .coldline, status := .idle
       lastRead := some 0, sizeBytes := some 5 },
     { graphId := "older", endpoint := "a", residency := .standard, status := .idle
       lastRead := some (seconds 1), sizeBytes := some 20 },
     { graphId := "oldest", endpoint := "a", residency := .standard, status := .idle
       lastRead := some 0, sizeBytes := some 10 },
     { graphId := "new", endpoint := "a", residency := .standard, status := .waitingCapacity
       sizeBytes := some 20, requestedAt := some 0 }]
  endpoints_nodup := by decide
  ids_nodup := by decide

/-- The idle graph goes, then the coldest that relieves the master, then one that makes room for the
load. -/
theorem evicts_no_more_than_enough_loadWaiting :
    let policy := { hourly with standardIdleSecs := 7200 }
    ∃ plan ∈ (loadWaiting.plan policy (seconds 6000) true).masters,
      plan.evictions.map (·.graphId) = ["old", "oldest", "older"] ∧ plan.claimed = true ∧
        ∃ pressure room : List (Graph × ℤ),
          plan.evictions = idleEvictions policy plan.master.endpoint
              (graphsOn loadWaiting.graphs plan.master) (seconds 6000) ++
            pressed policy plan.master.endpoint pressure ++
              pressed policy plan.master.endpoint room := by
  intro policy
  obtain ⟨plan, mem, read, enabled, ids, claimed⟩ :
      ∃ plan ∈ (loadWaiting.plan policy (seconds 6000) true).masters,
        plan.master.used = some 85 ∧ evictsOn policy plan.master = true ∧
          plan.evictions.map (·.graphId) = ["old", "oldest", "older"] ∧ plan.claimed = true := by
    decide +kernel
  obtain ⟨pressure, room, evicted, -⟩ :=
    loadWaiting.evicts_no_more_than_enough policy (seconds 6000) true mem read enabled
  exact ⟨plan, mem, ids, claimed, pressure, room, evicted⟩

end

end DataViz.Residency
