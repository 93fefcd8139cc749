/-
# What a pass may evict and load

Every graph a pass evicts is idle, owned, evictable, not leased and of a class that may leave
memory; it is evicted once, on a master that can carry it out, and is not loaded in the same pass.
Every load asked for starts or waits, once; a master takes at most one, and only with room for it
after what is held there.

Both rest on what one load may change (`Pass.Next`).
-/

import Mathlib.Data.List.Perm.Basic
import DataViz.Residency.Plan

namespace DataViz.Residency

open List

/-- What a pass read: a master that two providers reach is read once, and a graph has one row. -/
structure Snapshot where
  masters : List Master
  graphs : List Graph
  endpoints_nodup : (masters.map (·.endpoint)).Nodup
  ids_nodup : (graphs.map (·.graphId)).Nodup

def graphsOn (graphs : List Graph) (master : Master) : List Graph :=
  graphs.filter (·.endpoint = master.endpoint)

namespace Snapshot

variable (snapshot : Snapshot)

/-- The masters of a pass: those it read, and those that only graphs name. -/
def allMasters : List Master :=
  snapshot.masters ++ unread snapshot.masters snapshot.graphs

theorem endpoint_mem_unread_iff {masters : List Master} {graphs : List Graph}
    {endpoint : String} : endpoint ∈ (unread masters graphs).map (·.endpoint) ↔
      endpoint ∈ graphs.map (·.endpoint) ∧ endpoint ∉ masters.map (·.endpoint) := by
  have keys : endpoint ∈ (Dict.group (graphs.map fun graph => (graph.endpoint, graph))).keys ↔
      endpoint ∈ graphs.map (·.endpoint) := by
    rw [Dict.mem_keys_group, map_map]
    rfl
  rw [← keys, unread, map_map, Dict.keys, mem_map, mem_map]
  constructor
  · rintro ⟨entry, mem, rfl⟩
    rw [mem_filter, decide_eq_true_eq] at mem
    exact ⟨⟨entry, mem.1, rfl⟩, mem.2⟩
  · rintro ⟨⟨entry, mem, rfl⟩, unknown⟩
    exact ⟨entry, mem_filter.mpr ⟨mem, decide_eq_true unknown⟩, rfl⟩

theorem nodup_unread (masters : List Master) (graphs : List Graph) :
    ((unread masters graphs).map (·.endpoint)).Nodup := by
  rw [unread, map_map]
  have grouped := Dict.nodup_keys_group (graphs.map fun graph => (graph.endpoint, graph))
  exact grouped.sublist (filter_sublist.map _)

theorem nodup_allMasters : (snapshot.allMasters.map (·.endpoint)).Nodup := by
  rw [allMasters, map_append]
  apply snapshot.endpoints_nodup.append (nodup_unread _ _)
  intro endpoint known named
  exact (endpoint_mem_unread_iff.mp named).2 known

theorem endpoint_mem_allMasters {graph : Graph} (mem : graph ∈ snapshot.graphs) :
    graph.endpoint ∈ snapshot.allMasters.map (·.endpoint) := by
  rw [allMasters, map_append, mem_append]
  by_cases known : graph.endpoint ∈ snapshot.masters.map (·.endpoint)
  · exact .inl known
  · exact .inr (endpoint_mem_unread_iff.mpr ⟨mem_map_of_mem mem, known⟩)

theorem eq_of_graphId {first second : Graph} (mem : first ∈ snapshot.graphs)
    (mem' : second ∈ snapshot.graphs) (same : first.graphId = second.graphId) :
    first = second :=
  inj_on_of_nodup_map snapshot.ids_nodup mem mem' same

end Snapshot

section

variable {policy : ResidencyPolicy} {graphs : List Graph} {now : ℤ} {sized : Bool}

/-- The evictions of a master are of candidates on it, each once, and it can carry them out. -/
structure EvictsSafely (policy : ResidencyPolicy) (graphs : List Graph) (plan : MasterPlan) :
    Prop where
  safe : ∀ eviction ∈ plan.evictions, eviction.endpoint = plan.master.endpoint ∧
    evictsOn policy plan.master ∧ ∃ graph ∈ candidates graphs, graph.graphId = eviction.graphId
  once : (plan.evictions.map (·.graphId)).Nodup

/-- The coldest graphs in some order, those of unknown size left out. -/
theorem map_fst_coldestFirst_sublist : ((coldestFirst policy now graphs).map Prod.fst).Sublist
      (graphs.insertionSort fun first second => coldness now first ≤ coldness now second) := by
  rw [coldestFirst, map_filterMap]
  have kept : (fun graph : Graph => ((graph.bytes policy).map fun bytes => (graph, bytes)).map
      Prod.fst) = fun graph => (Option.guard (fun graph : Graph => (graph.bytes policy).isSome)
        graph) := by
    funext graph
    cases known : graph.bytes policy <;> simp [Option.guard, known]
  rw [kept, filterMap_eq_filter]
  exact filter_sublist

theorem nodup_coldestFirst (nodup : (graphs.map (·.graphId)).Nodup) :
    ((coldestFirst policy now graphs).map (·.1.graphId)).Nodup := by
  have sorted := (perm_insertionSort
    (fun first second => coldness now first ≤ coldness now second) graphs).map (·.graphId)
  have sub : (((coldestFirst policy now graphs).map Prod.fst).map (·.graphId)).Sublist _ :=
    map_fst_coldestFirst_sublist.map (·.graphId)
  rw [map_map] at sub
  exact (sorted.nodup_iff.mpr nodup).sublist sub

theorem fst_mem_of_mem_coldestFirst {next : Graph × ℤ}
    (mem : next ∈ coldestFirst policy now graphs) : next.1 ∈ graphs := by
  have sorted := map_fst_coldestFirst_sublist.subset (mem_map_of_mem mem)
  rwa [mem_insertionSort] at sorted

theorem relieve_foldl (endpoint : String) (used stop : ℤ) (items : List (Graph × ℤ))
    (relief : Relief) : ∃ taken : List (Graph × ℤ), taken.Sublist items ∧
      (items.foldl (relieve policy endpoint used stop) relief).evictions =
        relief.evictions ++ taken.map fun next => evict policy endpoint .pressure next.1 := by
  induction items generalizing relief with
  | nil => exact ⟨[], Sublist.refl _, (append_nil _).symm⟩
  | cons next rest ih =>
    obtain ⟨taken, sub, added⟩ := ih (relieve policy endpoint used stop relief next)
    by_cases relieved : used - relief.freed ≤ stop
    · have same : (relieve policy endpoint used stop relief next).evictions = relief.evictions := by
        rw [relieve, if_pos relieved]
      rw [same] at added
      exact ⟨taken, sub.cons next, added⟩
    · have more : (relieve policy endpoint used stop relief next).evictions =
          relief.evictions ++ [evict policy endpoint .pressure next.1] := by
        rw [relieve, if_neg relieved]
      rw [more, append_assoc] at added
      exact ⟨next :: taken, sub.cons_cons next, added⟩

theorem relief_evictions (master : Master) (used : ℤ) : ∃ taken : List (Graph × ℤ),
    taken.Sublist (coldestFirst policy now ((candidates graphs).filter (!isIdle policy now ·))) ∧
      (relief policy master used graphs now sized).evictions =
        idleEvictions policy master.endpoint graphs now ++
          taken.map fun next => evict policy master.endpoint .pressure next.1 := by
  rw [relief]
  split
  · exact relieve_foldl _ _ _ _ _
  · exact ⟨[], nil_sublist _, (append_nil _).symm⟩

/-- The evictions of a master's own relief are safe. -/
theorem evictsSafely_planMaster (master : Master) (nodup : (graphs.map (·.graphId)).Nodup) :
    EvictsSafely policy graphs (planMaster policy master graphs now sized) := by
  have nothing {plan : MasterPlan} (none : plan.evictions = []) :
      EvictsSafely policy graphs plan := by
    constructor <;> simp [none]
  rw [planMaster]
  cases read : master.used with
  | none => exact nothing rfl
  | some used =>
    by_cases enabled : evictsOn policy master
    · obtain ⟨taken, sub, evicted⟩ := @relief_evictions policy graphs now sized master used
      have candidatesNodup : ((candidates graphs).map (·.graphId)).Nodup :=
        nodup.sublist (filter_sublist.map _)
      have takenMem {next : Graph × ℤ} (mem : next ∈ taken) :
          next.1 ∈ candidates graphs ∧ isIdle policy now next.1 = false := by
        have held := fst_mem_of_mem_coldestFirst (sub.subset mem)
        rw [mem_filter, Bool.not_eq_true'] at held
        exact held
      simp only [if_pos enabled]
      constructor
      · intro eviction mem
        simp only [evicted, idleEvictions, mem_append, mem_map, mem_filter] at mem
        rcases mem with ⟨graph, ⟨candidate, -⟩, rfl⟩ | ⟨next, mem, rfl⟩
        · exact ⟨rfl, enabled, graph, candidate, rfl⟩
        · exact ⟨rfl, enabled, next.1, (takenMem mem).1, rfl⟩
      · simp only [evicted, idleEvictions, map_append, map_map]
        apply Nodup.append
        · exact candidatesNodup.sublist (filter_sublist.map _)
        · exact (nodup_coldestFirst
            (candidatesNodup.sublist (filter_sublist.map _))).sublist (sub.map _)
        · intro id idle pressed
          obtain ⟨graph, mem, rfl⟩ := mem_map.mp idle
          obtain ⟨next, taken, same⟩ := mem_map.mp pressed
          rw [mem_filter] at mem
          have eq : next.1 = graph :=
            inj_on_of_nodup_map candidatesNodup (takenMem taken).1 mem.1 same
          have notIdle := (takenMem taken).2
          rw [eq, mem.2] at notIdle
          cases notIdle
    · simp only [if_neg enabled]
      exact nothing rfl

theorem pickColdest_sublist (items : List (Graph × ℤ)) (lacking : ℤ) :
    (pickColdest items lacking).1.Sublist items := by
  induction items generalizing lacking with
  | nil => exact Sublist.refl _
  | cons next rest ih =>
    rw [pickColdest]
    split
    · exact nil_sublist _
    · exact (ih _).cons_cons next

/-- Making room changes a plan's evictions alone, and what it frees. -/
theorem makeRoom_frame {plan made : MasterPlan} {shortfall : ℤ}
    (room : makeRoom policy plan graphs shortfall now = some made) :
    made.master = plan.master ∧ made.reserved = plan.reserved ∧ made.seeding = plan.seeding ∧
      made.loads = plan.loads ∧ made.waits = plan.waits := by
  rw [makeRoom] at room
  split at room
  · cases room
  · split at room
    · dsimp only at room
      split at room
      · cases room
        exact ⟨rfl, rfl, rfl, rfl, rfl⟩
      · split at room
        · cases room
        · cases room
          exact ⟨rfl, rfl, rfl, rfl, rfl⟩
    · cases room

theorem evictsSafely_makeRoom {plan made : MasterPlan} {shortfall : ℤ}
    (nodup : (graphs.map (·.graphId)).Nodup) (safely : EvictsSafely policy graphs plan)
    (room : makeRoom policy plan graphs shortfall now = some made) :
    EvictsSafely policy graphs made := by
  rw [makeRoom] at room
  split at room
  · cases room
  · split at room
    · next enabled =>
        dsimp only at room
        split at room
        · cases room
          exact safely
        · split at room
          · cases room
          · cases room
            let free := (candidates graphs).filter (makesRoom policy plan now)
            have sub := pickColdest_sublist (coldestFirst policy now free)
            have freeNodup : (free.map (·.graphId)).Nodup :=
              nodup.sublist ((filter_sublist.trans filter_sublist).map _)
            constructor
            · intro eviction mem
              rcases mem_append.mp mem with old | new
              · exact safely.safe eviction old
              · rw [mem_map] at new
                obtain ⟨next, picked, rfl⟩ := new
                have held := fst_mem_of_mem_coldestFirst ((sub _).subset picked)
                exact ⟨rfl, enabled, next.1, (mem_filter.mp held).1, rfl⟩
            · rw [map_append, map_map]
              apply safely.once.append ((nodup_coldestFirst freeNodup).sublist ((sub _).map _))
              intro id old new
              obtain ⟨next, picked, rfl⟩ := mem_map.mp new
              have held := fst_mem_of_mem_coldestFirst ((sub _).subset picked)
              have makes := (mem_filter.mp held).2
              rw [makesRoom, Bool.and_eq_true, decide_eq_true_eq] at makes
              exact makes.1 old
    · cases room

end

section

variable {policy : ResidencyPolicy} {graphs : List Graph} {now : ℤ} {sized : Bool}
  {masters : List Master} {pass : Pass} {graph : Graph} {plan : MasterPlan}

theorem roomiest_mem {plans : List MasterPlan} (highest : roomiest plans policy = some plan) :
    plan ∈ plans ∧ plan.master.used.isSome := by
  have best : ∀ plan ∈ roomiest plans policy, plan ∈ plans.filter (·.master.used.isSome) := by
    refine List.foldlRecOn (motive := fun best : Option MasterPlan =>
      ∀ plan ∈ best, plan ∈ plans.filter (·.master.used.isSome)) _ _ ?_ ?_
    · intro plan none
      cases none
    · intro best held next mem plan is
      cases best with
      | none =>
        cases is
        exact mem
      | some best =>
        rw [rankHigher] at is
        split at is
        · cases is
          exact mem
        · exact held plan is
  exact mem_filter.mp (best plan highest)

theorem Pass.mem_of_mem_readable (mem : plan ∈ pass.readable graph) : plan ∈ pass.plans := by
  have pooled := (mem_filter.mp mem).1
  rw [Pass.pool] at pooled
  split at pooled
  · exact (mem_filter.mp pooled).1
  · exact (mem_filter.mp pooled).1

theorem Pass.mem_of_target {target : MasterPlan} (goes : pass.target policy graph = some target) :
    target ∈ pass.plans ∧ target.master.used.isSome ∧ target.master.endpoint ∉ pass.busy ∧
      target.master.held = false := by
  obtain ⟨mem, read⟩ := roomiest_mem goes
  obtain ⟨readable, free⟩ := mem_filter.mp mem
  rw [Pass.isFree, Bool.and_eq_true, decide_eq_true_eq, Bool.not_eq_true'] at free
  exact ⟨Pass.mem_of_mem_readable readable, read, free⟩

theorem Pass.mem_of_later {needed : ℤ} {later : MasterPlan}
    (fits : pass.later policy graph needed = some later) : later ∈ pass.plans :=
  Pass.mem_of_mem_readable (mem_filter.mp (roomiest_mem fits).1).1

theorem Pass.waitsAt_mem (home : graph.endpoint ∈ pass.plans.map (·.master.endpoint)) :
    pass.waitsAt policy graph ∈ pass.plans.map (·.master.endpoint) := by
  rw [Pass.waitsAt]
  cases goes : pass.target policy graph with
  | some target => exact mem_map_of_mem (Pass.mem_of_target goes).1
  | none =>
    cases read : roomiest (pass.readable graph) policy with
    | some plan =>
      exact mem_map_of_mem (Pass.mem_of_mem_readable (roomiest_mem read).1)
    | none => exact home

structure Fits (policy : ResidencyPolicy) (graph : Graph) (target : MasterPlan) : Prop where
  readable : target.master.used.isSome
  free : target.master.held = false
  admitted : ∃ needed, need graph policy = some needed ∧
    (admitLoad target.master needed policy target.reserved).1 = true

inductive Pass.Next (policy : ResidencyPolicy) (graphs : List Graph) (now : ℤ) (pass : Pass)
    (graph : Graph) : Pass → Prop
  | wait (endpoint : String) (reason : WaitReason) (shortfall : Option ℤ)
      (known : endpoint ∈ pass.plans.map (·.master.endpoint)) :
      Next policy graphs now pass graph (pass.wait policy graph endpoint reason shortfall)
  | load (target : MasterPlan) (bytes : ℤ) (mem : target ∈ pass.plans)
      (free : target.master.endpoint ∉ pass.busy) (fits : Fits policy graph target) :
      Next policy graphs now pass graph (pass.load graph target.master.endpoint bytes)
  | claim (target made : MasterPlan) (missing : ℤ) (shortfall : Option ℤ)
      (mem : target ∈ pass.plans) (free : target.master.endpoint ∉ pass.busy)
      (room : makeRoom policy target (graphsOn graphs target.master) missing now = some made) :
      Next policy graphs now pass graph
        ((pass.claim graph made).wait policy graph target.master.endpoint .capacity shortfall)

/-- Every load asked for is one of these. -/
theorem Pass.next_spec (home : graph.endpoint ∈ pass.plans.map (·.master.endpoint)) :
    Pass.Next policy graphs now pass graph (Pass.next policy graphs now sized pass graph) := by
  rw [Pass.next]
  split
  · next bytes needed sized' asks =>
      split
      · exact .wait _ _ _ (Pass.waitsAt_mem home)
      · split
        · exact .wait _ _ _ (Pass.waitsAt_mem home)
        · next target goes =>
            obtain ⟨mem, read, notBusy, free⟩ := Pass.mem_of_target goes
            dsimp only
            split
            · next admitted => exact .load target _ mem notBusy ⟨read, free, needed, asks, admitted⟩
            · rw [Pass.short]
              split
              · next later fits =>
                  exact .wait _ _ _ (mem_map_of_mem (Pass.mem_of_later fits))
              · dsimp only
                split
                · next made room =>
                    split at room
                    · exact .claim target made _ _ mem notBusy room
                    · cases room
                · exact .wait _ _ _ (mem_map_of_mem mem)
  · exact .wait _ _ _ (Pass.waitsAt_mem home)

variable {change : MasterPlan → MasterPlan} {endpoint : String}

theorem Pass.mem_update (mem : plan ∈ (pass.update endpoint change).plans) :
    (∃ old ∈ pass.plans, old.master.endpoint = endpoint ∧ plan = change old) ∨
      (plan ∈ pass.plans ∧ plan.master.endpoint ≠ endpoint) := by
  obtain ⟨old, inOld, rfl⟩ := mem_map.mp mem
  split
  · next same => exact .inl ⟨old, inOld, same, rfl⟩
  · next other => exact .inr ⟨inOld, other⟩

theorem Pass.masters_update (kept : ∀ plan ∈ pass.plans, plan.master.endpoint = endpoint →
      (change plan).master = plan.master) :
    (pass.update endpoint change).plans.map (·.master) = pass.plans.map (·.master) := by
  rw [Pass.update, map_map]
  apply map_congr_left
  intro plan mem
  rw [Function.comp_apply]
  split
  · next same => exact kept plan mem same
  · rfl

/-- What holds of a master's plan while loads are placed. -/
structure MasterPlan.Sound (policy : ResidencyPolicy) (graphs : List Graph)
    (busy : List String) (plan : MasterPlan) : Prop where
  evicts : EvictsSafely policy (graphsOn graphs plan.master) plan
  reserved : plan.reserved = reservedOn policy plan.master (graphsOn graphs plan.master)
  seeding : plan.seeding = (graphsOn graphs plan.master).any (·.seeding)
  busy : plan.seeding ∨ plan.claimed ∨ plan.loads ≠ [] → plan.master.endpoint ∈ busy
  loads : plan.loads = [] ∨ plan.seeding = false ∧ plan.claimed = false ∧
    ∃ load, plan.loads = [load] ∧ ∃ graph ∈ asked graphs, load.graphId = graph.graphId ∧
      Fits policy graph plan

/-- What holds of a pass while loads are placed. -/
structure Pass.Sound (policy : ResidencyPolicy) (graphs : List Graph) (masters : List Master)
    (pass : Pass) : Prop where
  masters : pass.plans.map (·.master) = masters
  plans : ∀ plan ∈ pass.plans, plan.Sound policy graphs pass.busy

theorem MasterPlan.Sound.mono {busy more : List String} (sound : plan.Sound policy graphs busy)
    (sub : busy ⊆ more) : plan.Sound policy graphs more :=
  ⟨sound.evicts, sound.reserved, sound.seeding, fun held => sub (sound.busy held), sound.loads⟩

/-- A wait changes nothing else. -/
theorem Pass.Sound.wait (sound : pass.Sound policy graphs masters) (endpoint : String)
    (reason : WaitReason) (shortfall : Option ℤ) :
    (pass.wait policy graph endpoint reason shortfall).Sound policy graphs masters where
  masters := by
    rw [← sound.masters]
    exact Pass.masters_update fun _ _ _ => rfl
  plans := by
    intro plan mem
    rcases Pass.mem_update mem with ⟨old, inOld, -, rfl⟩ | ⟨inOld, -⟩
    · have holds := sound.plans old inOld
      refine ⟨⟨holds.evicts.safe, holds.evicts.once⟩, holds.reserved, holds.seeding, holds.busy, ?_⟩
      rcases holds.loads with none | ⟨seeding, claimed, load, one, asker, mem, same, fits⟩
      · exact .inl none
      · exact .inr ⟨seeding, claimed, load, one, asker, mem, same,
          ⟨fits.readable, fits.free, fits.admitted⟩⟩
    · exact sound.plans plan inOld

/-- One load keeps what holds. -/
theorem Pass.Sound.next (nodup : (graphs.map (·.graphId)).Nodup)
    (endpoints : (masters.map (·.endpoint)).Nodup) (sound : pass.Sound policy graphs masters)
    (mem : graph ∈ asked graphs) {after : Pass}
    (step : Pass.Next policy graphs now pass graph after) :
    after.Sound policy graphs masters := by
  have unique {first second : MasterPlan} (mem : first ∈ pass.plans) (mem' : second ∈ pass.plans)
      (same : first.master.endpoint = second.master.endpoint) : first = second := by
    rw [← sound.masters, map_map] at endpoints
    exact inj_on_of_nodup_map endpoints mem mem' same
  cases step with
  | wait endpoint reason shortfall => exact sound.wait endpoint reason shortfall
  | load target bytes inPlans free fits =>
    constructor
    · rw [← sound.masters]
      exact Pass.masters_update fun _ _ _ => rfl
    · intro plan changed
      rcases Pass.mem_update changed with ⟨old, inOld, same, rfl⟩ | ⟨inOld, -⟩
      · obtain rfl := unique inOld inPlans same
        have holds := sound.plans old inOld
        have idle : ¬ (old.seeding = true ∨ old.claimed = true ∨ old.loads ≠ []) :=
          fun held => free (holds.busy held)
        simp only [not_or, Bool.not_eq_true, not_not] at idle
        refine ⟨⟨holds.evicts.safe, holds.evicts.once⟩, holds.reserved, holds.seeding,
          fun _ => mem_cons_self, .inr ⟨idle.1, idle.2.1,
            ⟨graph.graphId, old.master.endpoint, bytes⟩, ?_, graph, mem, rfl, ?_⟩⟩
        · rw [idle.2.2, nil_append]
        · exact ⟨fits.readable, fits.free, fits.admitted⟩
      · exact (sound.plans plan inOld).mono (subset_cons_self _ _)
  | claim target made missing shortfall inPlans free room =>
    apply Pass.Sound.wait
    have frame := makeRoom_frame room
    have holds := sound.plans target inPlans
    have idle : ¬ (target.seeding = true ∨ target.claimed = true ∨ target.loads ≠ []) :=
      fun held => free (holds.busy held)
    simp only [not_or, Bool.not_eq_true, not_not] at idle
    constructor
    · rw [← sound.masters]
      apply Pass.masters_update
      intro plan inOld same
      rw [frame.1] at same
      rw [unique inOld inPlans same]
      exact frame.1
    · intro plan changed
      rcases Pass.mem_update changed with ⟨old, -, -, rfl⟩ | ⟨inOld, -⟩
      · have safely := evictsSafely_makeRoom (nodup.sublist (filter_sublist.map _))
          holds.evicts room
        constructor
        · rw [← frame.1] at safely
          exact ⟨safely.safe, safely.once⟩
        · rw [frame.1, frame.2.1]
          exact holds.reserved
        · rw [frame.1, frame.2.2.1]
          exact holds.seeding
        · intro _
          exact mem_cons_self
        · left
          rw [frame.2.2.2.1]
          exact idle.2.2
      · exact (sound.plans plan inOld).mono (subset_cons_self _ _)

def MasterPlan.decided (plan : MasterPlan) : List String :=
  plan.loads.map (·.graphId) ++ plan.waits.map (·.graphId)

theorem Pass.perm_update {endpoint id : String}
    (endpoints : (pass.plans.map (·.master.endpoint)).Nodup)
    (known : endpoint ∈ pass.plans.map (·.master.endpoint))
    (adds : ∀ plan ∈ pass.plans, (change plan).decided.Perm (id :: plan.decided)) :
    ((pass.update endpoint change).plans.flatMap (·.decided)).Perm
      (id :: pass.plans.flatMap (·.decided)) := by
  rw [Pass.update]
  generalize pass.plans = plans at endpoints known adds
  induction plans with
  | nil => cases known
  | cons plan rest ih =>
    rw [map_cons, nodup_cons] at endpoints
    rw [map_cons]
    by_cases here : plan.master.endpoint = endpoint
    · have others : rest.map (fun plan =>
          if plan.master.endpoint = endpoint then change plan else plan) = rest := by
        conv_rhs => rw [← map_id rest]
        apply map_congr_left
        intro other mem
        apply if_neg
        intro same
        have twice := mem_map_of_mem (f := fun plan => plan.master.endpoint) mem
        rw [same, ← here] at twice
        exact endpoints.1 twice
      rw [if_pos here, others]
      exact (adds plan mem_cons_self).append_right _
    · rw [if_neg here]
      have known : endpoint ∈ rest.map (·.master.endpoint) :=
        (mem_cons.mp known).resolve_left (Ne.symm here)
      have more := ih endpoints.2 known fun plan mem => adds plan (mem_cons_of_mem _ mem)
      exact (more.append_left _).trans perm_middle

theorem Pass.perm_wait (endpoints : (pass.plans.map (·.master.endpoint)).Nodup)
    (known : endpoint ∈ pass.plans.map (·.master.endpoint)) (reason : WaitReason)
    (shortfall : Option ℤ) :
    ((pass.wait policy graph endpoint reason shortfall).plans.flatMap (·.decided)).Perm
      (graph.graphId :: pass.plans.flatMap (·.decided)) := by
  apply Pass.perm_update endpoints known
  intro plan _
  rw [MasterPlan.decided, map_append, ← append_assoc]
  exact perm_append_comm

/-- Each load adds its decision. -/
theorem Pass.perm_next (endpoints : (pass.plans.map (·.master.endpoint)).Nodup) {after : Pass}
    (step : Pass.Next policy graphs now pass graph after) :
    (after.plans.flatMap (·.decided)).Perm (graph.graphId :: pass.plans.flatMap (·.decided)) := by
  cases step with
  | wait endpoint reason shortfall known => exact Pass.perm_wait endpoints known reason shortfall
  | load target bytes mem =>
    apply Pass.perm_update endpoints (mem_map_of_mem mem)
    intro plan _
    rw [MasterPlan.decided, map_append, append_assoc]
    exact perm_middle
  | claim target made missing shortfall mem free room =>
    have frame := makeRoom_frame room
    have same : (pass.claim graph made).plans.map (·.master.endpoint) =
        pass.plans.map (·.master.endpoint) := by
      rw [Pass.claim, Pass.update, map_map]
      apply map_congr_left
      intro plan _
      rw [Function.comp_apply]
      split
      · next here => exact here.symm
      · rfl
    have decided : (pass.claim graph made).plans.flatMap (·.decided) =
        pass.plans.flatMap (·.decided) := by
      rw [Pass.claim, Pass.update, flatMap_map]
      apply flatMap_congr
      intro plan inPlans
      split
      · next here =>
          rw [frame.1] at here
          rw [inj_on_of_nodup_map endpoints inPlans mem here]
          rw [frame.2.2.2.1, frame.2.2.2.2]
          rfl
      · rfl
    rw [← decided]
    apply Pass.perm_wait
    · rwa [same]
    · rw [same]
      exact mem_map_of_mem mem

end

section

variable {policy : ResidencyPolicy} {graphs : List Graph} {now : ℤ} {sized : Bool}
  {masters : List Master}

/-- A master's own plan changes nothing that is held on it, and starts no load. -/
theorem planMaster_frame (master : Master) :
    (planMaster policy master graphs now sized).master = master ∧
      (planMaster policy master graphs now sized).reserved = reservedOn policy master graphs ∧
      (planMaster policy master graphs now sized).seeding = graphs.any (·.seeding) ∧
      (planMaster policy master graphs now sized).claimed = false ∧
      (planMaster policy master graphs now sized).decided = [] := by
  rw [planMaster]
  cases master.used with
  | none => exact ⟨rfl, rfl, rfl, rfl, rfl⟩
  | some used =>
    dsimp only
    split <;> exact ⟨rfl, rfl, rfl, rfl, rfl⟩

theorem loads_planMaster (master : Master) :
    (planMaster policy master graphs now sized).loads = [] :=
  map_eq_nil_iff.mp (append_eq_nil_iff.mp (planMaster_frame master).2.2.2.2).1

def startOf (policy : ResidencyPolicy) (masters : List Master) (graphs : List Graph) (now : ℤ)
    (sized : Bool) : Pass :=
  let plans := masters.map fun master =>
    planMaster policy master (graphsOn graphs master) now sized
  { plans, busy := (plans.filter (·.seeding)).map (·.master.endpoint) }

theorem sound_startOf (nodup : (graphs.map (·.graphId)).Nodup) :
    (startOf policy masters graphs now sized).Sound policy graphs masters := by
  constructor
  · rw [startOf, map_map]
    conv_rhs => rw [← map_id masters]
    apply map_congr_left
    intro master _
    exact (planMaster_frame master).1
  · intro plan mem
    obtain ⟨master, -, rfl⟩ := mem_map.mp mem
    have frame := @planMaster_frame policy (graphsOn graphs master) now sized master
    have noLoads := @loads_planMaster policy (graphsOn graphs master) now sized master
    constructor
    · rw [frame.1]
      exact evictsSafely_planMaster master (nodup.sublist (filter_sublist.map _))
    · rw [frame.1]
      exact frame.2.1
    · rw [frame.1]
      exact frame.2.2.1
    · rintro (seeding | claimed | loads)
      · exact mem_map_of_mem (mem_filter.mpr ⟨mem, seeding⟩)
      · rw [frame.2.2.2.1] at claimed
        cases claimed
      · exact absurd noLoads loads
    · exact .inl noLoads

/-- After any of the loads asked for, what holds still does, and each has its decision. -/
theorem Pass.sound_foldl (nodup : (graphs.map (·.graphId)).Nodup)
    (endpoints : (masters.map (·.endpoint)).Nodup) (items : List Graph)
    (known : ∀ graph ∈ items, graph ∈ asked graphs ∧ graph.endpoint ∈ masters.map (·.endpoint))
    {pass : Pass} (sound : pass.Sound policy graphs masters) :
    (items.foldl (Pass.next policy graphs now sized) pass).Sound policy graphs masters ∧
      ((items.foldl (Pass.next policy graphs now sized) pass).plans.flatMap (·.decided)).Perm
        (items.map (·.graphId) ++ pass.plans.flatMap (·.decided)) := by
  induction items generalizing pass with
  | nil => exact ⟨sound, Perm.refl _⟩
  | cons graph rest ih =>
    obtain ⟨isAsked, home⟩ := known graph mem_cons_self
    have ends : pass.plans.map (·.master.endpoint) = masters.map (·.endpoint) := by
      rw [← sound.masters, map_map]
      rfl
    have step : Pass.Next policy graphs now pass graph
        (Pass.next policy graphs now sized pass graph) := Pass.next_spec (ends ▸ home)
    obtain ⟨after, decided⟩ := ih (fun other mem => known other (mem_cons_of_mem _ mem))
      (sound.next nodup endpoints isAsked step)
    refine ⟨after, decided.trans ?_⟩
    have added := Pass.perm_next (ends ▸ endpoints) step
    exact (added.append_left _).trans perm_middle

end

section

variable (policy : ResidencyPolicy) (snapshot : Snapshot) (now : ℤ) (sized : Bool)

def Snapshot.plan : Plan :=
  Residency.plan policy snapshot.masters snapshot.graphs now sized

theorem Snapshot.mem_asked {graph : Graph} :
    graph ∈ asked snapshot.graphs ↔ graph ∈ snapshot.graphs ∧ isAsked graph = true := by
  rw [asked, mem_insertionSort, mem_filter]

/-- What holds of every pass. -/
theorem Snapshot.sound : (planLoads policy (snapshot.allMasters.map fun master =>
        planMaster policy master (graphsOn snapshot.graphs master) now sized)
      snapshot.graphs now sized).Sound policy snapshot.graphs snapshot.allMasters ∧
    ((snapshot.plan policy now sized).masters.flatMap (·.decided)).Perm
      ((asked snapshot.graphs).map (·.graphId)) := by
  have start : (startOf policy snapshot.allMasters snapshot.graphs now sized).Sound policy
      snapshot.graphs snapshot.allMasters := sound_startOf snapshot.ids_nodup
  obtain ⟨sound, decided⟩ := @Pass.sound_foldl policy snapshot.graphs now sized snapshot.allMasters
    snapshot.ids_nodup snapshot.nodup_allMasters (asked snapshot.graphs)
    (fun graph mem => ⟨mem, snapshot.endpoint_mem_allMasters (snapshot.mem_asked.mp mem).1⟩) _ start
  refine ⟨sound, decided.trans ?_⟩
  have none : (startOf policy snapshot.allMasters snapshot.graphs now sized).plans.flatMap
      (·.decided) = [] := by
    rw [flatMap_eq_nil_iff]
    intro plan mem
    obtain ⟨master, -, rfl⟩ := mem_map.mp mem
    exact (planMaster_frame master).2.2.2.2
  rw [none, append_nil]

theorem Snapshot.sound_of_mem {plan : MasterPlan}
    (mem : plan ∈ (snapshot.plan policy now sized).masters) :
    plan.master ∈ snapshot.allMasters ∧ ∃ busy, plan.Sound policy snapshot.graphs busy := by
  obtain ⟨sound, -⟩ := snapshot.sound policy now sized
  constructor
  · rw [← sound.masters]
    exact mem_map_of_mem mem
  · exact ⟨_, sound.plans plan mem⟩

theorem Snapshot.mem_masters {master : Master} (mem : master ∈ snapshot.allMasters)
    (read : master.used.isSome) : master ∈ snapshot.masters := by
  rcases mem_append.mp mem with known | named
  · exact known
  · rw [unread, mem_map] at named
    obtain ⟨entry, -, rfl⟩ := named
    cases read

theorem Snapshot.evicted {plan : MasterPlan}
    (inPlan : plan ∈ (snapshot.plan policy now sized).masters) {eviction : Eviction}
    (mem : eviction ∈ plan.evictions) : eviction.endpoint = plan.master.endpoint ∧
      evictsOn policy plan.master ∧ ∃ graph ∈ snapshot.graphs,
        graph.graphId = eviction.graphId ∧ graph.endpoint = plan.master.endpoint ∧
          isCandidate graph = true := by
  obtain ⟨-, busy, sound⟩ := snapshot.sound_of_mem policy now sized inPlan
  obtain ⟨on, enabled, graph, candidate, same⟩ := sound.evicts.safe eviction mem
  obtain ⟨onMaster, candidate⟩ := mem_filter.mp candidate
  obtain ⟨inGraphs, home⟩ := mem_filter.mp onMaster
  exact ⟨on, enabled, graph, inGraphs, same, of_decide_eq_true home, candidate⟩

theorem Snapshot.loaded {load : Load} (mem : load ∈ (snapshot.plan policy now sized).loads) :
    ∃ graph ∈ snapshot.graphs, load.graphId = graph.graphId ∧ isAsked graph = true := by
  obtain ⟨plan, inPlan, mem⟩ := mem_flatMap.mp mem
  obtain ⟨-, busy, sound⟩ := snapshot.sound_of_mem policy now sized inPlan
  rcases sound.loads with none | ⟨-, -, only, one, graph, asker, same, -⟩
  · rw [none] at mem
    cases mem
  · rw [one, mem_singleton] at mem
    obtain ⟨inGraphs, isAsked⟩ := snapshot.mem_asked.mp asker
    exact ⟨graph, inGraphs, mem ▸ same, isAsked⟩

theorem Snapshot.nodup_evictions :
    ((snapshot.plan policy now sized).evictions.map (·.graphId)).Nodup := by
  rw [Plan.evictions, map_flatMap, nodup_flatMap]
  constructor
  · intro plan inPlan
    obtain ⟨-, busy, sound⟩ := snapshot.sound_of_mem policy now sized inPlan
    exact sound.evicts.once
  · have endpoints := snapshot.nodup_allMasters
    rw [← (snapshot.sound policy now sized).1.masters, map_map, List.Nodup,
      pairwise_map] at endpoints
    apply endpoints.imp_of_mem
    intro first second inPlan inPlan' apart id mem mem'
    obtain ⟨eviction, evicts, rfl⟩ := mem_map.mp mem
    obtain ⟨eviction', evicts', same⟩ := mem_map.mp mem'
    obtain ⟨-, -, graph, inGraphs, isGraph, home, -⟩ :=
      snapshot.evicted policy now sized inPlan evicts
    obtain ⟨-, -, graph', inGraphs', isGraph', home', -⟩ :=
      snapshot.evicted policy now sized inPlan' evicts'
    have eq := snapshot.eq_of_graphId inGraphs inGraphs'
      (isGraph.trans (same.symm.trans isGraph'.symm))
    apply apart
    rw [Function.comp_apply, Function.comp_apply, ← home, ← home', eq]

/-- The planner evicts only what is safe to evict: each graph once, idle, owned, evictable, not
leased and of a class that may leave memory, on a master that was read and is not loading; and
it loads none of them. -/
theorem Snapshot.plan_evictions_safe :
    (∀ eviction ∈ (snapshot.plan policy now sized).evictions, policy.evictionEnabled = true ∧
      ∃ graph ∈ snapshot.graphs, graph.graphId = eviction.graphId ∧
        graph.status = .idle ∧ graph.owned = true ∧ graph.evictable = true ∧
        graph.leased = false ∧ (graph.residency = .standard ∨ graph.residency = .coldline) ∧
        ∃ master ∈ snapshot.masters, master.endpoint = graph.endpoint ∧
          eviction.endpoint = graph.endpoint ∧ master.used.isSome ∧
          master.hold ≠ some "loading") ∧
    ((snapshot.plan policy now sized).evictions.map (·.graphId)).Nodup ∧
    (∀ eviction ∈ (snapshot.plan policy now sized).evictions,
      ∀ load ∈ (snapshot.plan policy now sized).loads, load.graphId ≠ eviction.graphId) := by
  refine ⟨?_, snapshot.nodup_evictions policy now sized, ?_⟩
  · intro eviction mem
    obtain ⟨plan, inPlan, mem⟩ := mem_flatMap.mp mem
    obtain ⟨on, carries, graph, inGraphs, isGraph, home, candidate⟩ :=
      snapshot.evicted policy now sized inPlan mem
    simp only [evictsOn, Bool.and_eq_true, bne_iff_ne] at carries
    simp only [isCandidate, Bool.and_eq_true, Bool.or_eq_true, decide_eq_true_eq,
      Bool.not_eq_true'] at candidate
    obtain ⟨⟨enabled, read⟩, notLoading⟩ := carries
    obtain ⟨⟨⟨⟨idle, owned⟩, evictable⟩, unleased⟩, leaves⟩ := candidate
    have known := snapshot.mem_masters (snapshot.sound_of_mem policy now sized inPlan).1 read
    exact ⟨enabled, graph, inGraphs, isGraph, idle, owned, evictable, unleased, leaves,
      plan.master, known, home.symm, on.trans home.symm, read, notLoading⟩
  · intro eviction mem load loads same
    obtain ⟨plan, inPlan, mem⟩ := mem_flatMap.mp mem
    obtain ⟨-, -, graph, inGraphs, isGraph, -, candidate⟩ :=
      snapshot.evicted policy now sized inPlan mem
    obtain ⟨asker, inGraphs', isAsker, isAsked⟩ := snapshot.loaded policy now sized loads
    have eq := snapshot.eq_of_graphId inGraphs' inGraphs
      (isAsker.symm.trans (same.trans isGraph.symm))
    simp only [isCandidate, Bool.and_eq_true, decide_eq_true_eq] at candidate
    rw [eq, Residency.isAsked, candidate.1.1.1.1] at isAsked
    simp at isAsked

/-- Loads never overfill a master: each load asked for starts or waits, once; a master takes one
at most, none while it is held, seeding, unreadable or claimed; and one with a limit only when
its use, what is held on it and what the load needs stay at its start mark. -/
theorem Snapshot.plan_loads_fit : (∀ graph ∈ snapshot.graphs, isAsked graph = true →
      ((snapshot.plan policy now sized).loads.map (·.graphId) ++
        (snapshot.plan policy now sized).waits.map (·.graphId)).count graph.graphId = 1) ∧
    ∀ plan ∈ (snapshot.plan policy now sized).masters, plan.loads.length ≤ 1 ∧
      ∀ load ∈ plan.loads, plan.master.held = false ∧ plan.claimed = false ∧
        (∀ graph ∈ snapshot.graphs, graph.endpoint = plan.master.endpoint → graph.seeding = false) ∧
        ∃ used, plan.master.used = some used ∧
          ∃ graph ∈ snapshot.graphs, graph.graphId = load.graphId ∧
            ∃ needed, need graph policy = some needed ∧ (0 < plan.master.maxmemory →
                used + reservedOn policy plan.master (graphsOn snapshot.graphs plan.master) +
                  needed ≤ startMark plan.master policy) := by
  constructor
  · intro graph inGraphs isAsked
    have split : ((snapshot.plan policy now sized).loads.map (·.graphId) ++
        (snapshot.plan policy now sized).waits.map (·.graphId)).Perm
          ((asked snapshot.graphs).map (·.graphId)) := by
      have merged := flatMap_append_perm (snapshot.plan policy now sized).masters
        (fun plan : MasterPlan => plan.loads.map (·.graphId))
        (fun plan : MasterPlan => plan.waits.map (·.graphId))
      rw [Plan.loads, Plan.waits, map_flatMap, map_flatMap]
      exact merged.trans (snapshot.sound policy now sized).2
    rw [split.count_eq]
    apply count_eq_one_of_mem
    · have nodup := snapshot.ids_nodup.sublist (filter_sublist (p := Residency.isAsked).map _)
      have sorted := (perm_insertionSort (fun first second : Graph =>
        first.requestedAt.getD 0 ≤ second.requestedAt.getD 0)
          (snapshot.graphs.filter Residency.isAsked)).map (·.graphId)
      exact sorted.nodup_iff.mpr nodup
    · exact mem_map_of_mem (snapshot.mem_asked.mpr ⟨inGraphs, isAsked⟩)
  · intro plan inPlan
    obtain ⟨-, busy, sound⟩ := snapshot.sound_of_mem policy now sized inPlan
    rcases sound.loads with none | ⟨seeding, unclaimed, only, one, graph, asker, same, fits⟩
    · rw [none]
      exact ⟨Nat.zero_le 1, nofun⟩
    · rw [one]
      refine ⟨le_refl 1, ?_⟩
      intro load mem
      obtain rfl := mem_singleton.mp mem
      refine ⟨fits.free, unclaimed, ?_, ?_⟩
      · intro other inGraphs home
        rw [sound.seeding, List.any_eq_false] at seeding
        exact Bool.not_eq_true _ ▸ seeding other (mem_filter.mpr ⟨inGraphs, decide_eq_true home⟩)
      · obtain ⟨used, read⟩ := Option.isSome_iff_exists.mp fits.readable
        obtain ⟨needed, asks, admitted⟩ := fits.admitted
        refine ⟨used, read, graph, (snapshot.mem_asked.mp asker).1, same.symm, needed, asks, ?_⟩
        intro limited
        rw [admitLoad, read] at admitted
        dsimp only at admitted
        rw [if_neg (not_le.mpr limited), decide_eq_true_eq, sound.reserved] at admitted
        omega

end

end DataViz.Residency
