/-
# What publishing a draft keeps

The published view's entries are the members, as it has them and in layers that are there, and what
the merge left to a person stays. Where the draft moved an entry, it sits where the draft has it,
unless that is a layer that is gone: then its order and group go as well. Publishing the result
again changes nothing, but for entries that lost their layer.
-/

import DataViz.LiveView.OwnershipLaws
import DataViz.LiveView.Promote

namespace DataViz.LiveView.Promotion

open Dict

open View (Entry fieldsOf getOrNull)
open Ownership

variable {p : Promotion} {urn key : String} {truth after entry : Entry} {done done' : Reconciled}

theorem get?_take (entry : Entry) (move : String × Json) : (take entry move).get? key =
    if move.1 = key then (if move.2 = .null then none else some move.2) else entry.get? key := by
  rw [take]
  by_cases null : move.2 = .null
  · rw [if_pos null, get?_pop, if_pos null]
  · rw [if_neg null, get?_set, if_neg null]

/-- An entry put elsewhere has the new place, and the rest as it was. -/
theorem get?_foldl_take {moves : Dict String Json} (distinct : moves.keys.Nodup) (entry : Entry) :
    (moves.foldl take entry).get? key = match moves.get? key with
      | some value => if value = .null then none else some value
      | none => entry.get? key := by
  induction moves generalizing entry with
  | nil => rfl
  | cons move rest ih =>
    obtain ⟨fresh, others⟩ := List.nodup_cons.mp distinct
    rw [List.foldl_cons, ih others, get?_take, get?_cons]
    by_cases same : move.1 = key
    · have unlisted : Dict.get? rest key = none := by
        rw [← same]
        exact get?_eq_none_iff.mpr fresh
      rw [unlisted, if_pos same, if_pos same]
    · rw [if_neg same, if_neg same]

theorem nodup_moves : (p.moves urn).keys.Nodup := by
  rw [moves]
  split
  · exact (keys_ofKeys_sublist _ _).nodup (by decide)
  · exact List.nodup_nil

/-- The draft's value of a key that it changed from its fork. -/
def moved (p : Promotion) (urn key : String) : Option Json :=
  (p.moves urn).get? key

theorem moved_eq_some {value : Json} : p.moved urn key = some value ↔
    key ∈ placementKeys ∧ ∃ drafted forked, (p.draft.get? urn).bind fieldsOf = some drafted ∧
      (p.fork.get? urn).bind fieldsOf = some forked ∧
      ¬Json.PyEq (getOrNull drafted key) (getOrNull forked key) ∧
      getOrNull drafted key = value := by
  rw [moved, moves]
  split
  · next drafted forked here there =>
      rw [get?_ofKeys, here, there]
      by_cases mem : key ∈ placementKeys
      · by_cases same : Json.PyEq (getOrNull drafted key) (getOrNull forked key)
        · simp [same]
        · simp [mem, same]
      · simp [mem]
  · next lacks =>
      constructor
      · nofun
      · rintro ⟨-, drafted, forked, here, there, -⟩
        exact absurd there (lacks drafted forked here)

/-- Where an entry sits: where the draft moved it, else where it was merged, or published. -/
def place (p : Promotion) (urn : String) (truth : Entry) (key : String) : Option Json :=
  match p.moved urn key with
  | some value => if value = .null then none else some value
  | none => (p.start urn truth).get? key

theorem get?_sits : (p.sits urn truth).get? key = p.place urn truth key :=
  get?_foldl_take nodup_moves _

theorem get?_owned_sits (mem : key ∈ placementKeys) :
    (owned truth (p.sits urn truth)).get? key = p.place urn truth key := by
  rw [get?_owned, get?_sits]
  · rintro rfl
    exact absurd mem (by decide)
  · rintro rfl
    exact absurd mem (by decide)

def stays (p : Promotion) (urn : String) (truth : Entry) : Prop :=
  (valid p.layerIds (p.place urn truth "layerId")).isSome

instance (p : Promotion) (urn : String) (truth : Entry) : Decidable (p.stays urn truth) :=
  inferInstanceAs (Decidable (_ = true))

theorem fallback_of_layers (layers : p.layerIds ≠ []) :
    ∃ layer ∈ p.layerIds, p.fallback = some layer :=
  @Write.fallback_of_layers
    { incoming := [], layerIds := p.layerIds, fallbackLayerId := p.fallbackLayerId } layers

theorem placed_of_stays {lost : Bool} (stays : p.stays urn truth)
    (ran : placed p.layerIds p.fallback (owned truth (p.sits urn truth)) = some (after, lost)) :
    after = owned truth (p.sits urn truth) ∧ lost = false := by
  unfold placed at ran
  rw [get?_owned_sits (by decide)] at ran
  split at ran
  · obtain ⟨layer, there⟩ := Option.isSome_iff_exists.mp stays
    rw [there] at ran
    cases ran
    exact ⟨rfl, rfl⟩
  · cases ran

theorem placed_of_gone {lost : Bool} {layer : String} (gone : ¬p.stays urn truth)
    (falls : p.fallback = some layer)
    (ran : placed p.layerIds p.fallback (owned truth (p.sits urn truth)) = some (after, lost)) :
    after = (((owned truth (p.sits urn truth)).pop "orderKey").pop "logicalNodeId").set "layerId"
      (.str layer) ∧ lost = true := by
  unfold placed at ran
  rw [get?_owned_sits (by decide)] at ran
  rw [stays, Option.not_isSome_iff_eq_none] at gone
  split at ran
  · rw [gone, falls] at ran
    cases ran
    exact ⟨rfl, rfl⟩
  · cases ran

/-- The published view's entries, one after another. -/
theorem foldlM_keep {entries : Dict String Entry} (distinct : entries.keys.Nodup)
    (ran : entries.foldlM p.keep done = some done') :
    (∀ urn truth, entries.get? urn = some truth → ∃ outcome, p.outcome urn truth = some outcome ∧
      done'.assignments.get? urn = (outcome.after.map .obj).or (done.assignments.get? urn) ∧
      done'.overrides.get? urn = outcome.record.or (done.overrides.get? urn)) ∧
    (∀ urn, entries.get? urn = none → done'.assignments.get? urn = done.assignments.get? urn ∧
      done'.overrides.get? urn = done.overrides.get? urn) ∧
    (done'.replaceNeeded = true ↔ done.replaceNeeded = true ∨
      ∃ urn truth outcome, entries.get? urn = some truth ∧ p.outcome urn truth = some outcome ∧
        outcome.lost = true) := by
  induction entries generalizing done with
  | nil =>
    cases ran
    refine ⟨nofun, fun _ _ => ⟨rfl, rfl⟩, ?_⟩
    simp
  | cons entry rest ih =>
    rw [List.foldlM_cons, Option.bind_eq_bind, Option.bind_eq_some_iff] at ran
    obtain ⟨next, first, ran⟩ := ran
    obtain ⟨urn', truth'⟩ := entry
    obtain ⟨fresh, others⟩ := List.nodup_cons.mp distinct
    obtain ⟨outcome', comes, rfl⟩ := Option.map_eq_some_iff.mp first
    obtain ⟨named, unnamed, lost⟩ := ih others ran
    have unlisted : Dict.get? rest urn' = none := get?_eq_none_iff.mpr fresh
    have here (urn : String) : (outcome'.takenOver done urn').assignments.get? urn =
        if urn' = urn then (outcome'.after.map .obj).or (done.assignments.get? urn)
        else done.assignments.get? urn := by
      rw [Outcome.takenOver]
      cases outcome'.after with
      | none => rw [Option.map_none, Option.none_or, ite_self]
      | some after => rw [Option.map_some, Option.some_or, get?_set]
    have record (urn : String) : (outcome'.takenOver done urn').overrides.get? urn =
        if urn' = urn then outcome'.record.or (done.overrides.get? urn)
        else done.overrides.get? urn := by
      rw [Outcome.takenOver]
      cases outcome'.record with
      | none => rw [Option.none_or, ite_self]
      | some record => rw [Option.some_or, get?_set]
    refine ⟨fun urn truth listed => ?_, fun urn listed => ?_, ?_⟩
    · rw [get?_cons] at listed
      split at listed
      · next same =>
          subst same
          cases listed
          obtain ⟨stays, records⟩ := unnamed _ unlisted
          exact ⟨outcome', comes, by rw [stays, here, if_pos rfl],
            by rw [records, record, if_pos rfl]⟩
      · next other =>
          obtain ⟨outcome, comes, stays, records⟩ := named urn truth listed
          rw [here, if_neg other] at stays
          rw [record, if_neg other] at records
          exact ⟨outcome, comes, stays, records⟩
    · rw [get?_cons] at listed
      split at listed
      · cases listed
      · next other =>
          obtain ⟨stays, records⟩ := unnamed urn listed
          rw [here, if_neg other] at stays
          rw [record, if_neg other] at records
          exact ⟨stays, records⟩
    · rw [lost]
      change (done.replaceNeeded || outcome'.lost) = true ∨ _ ↔ _
      rw [Bool.or_eq_true, or_assoc]
      apply or_congr_right
      constructor
      · rintro (is | ⟨urn, truth, outcome, listed, comes, is⟩)
        · exact ⟨urn', truth', outcome', get?_cons_self _ _ _, comes, is⟩
        · refine ⟨urn, truth, outcome, ?_, comes, is⟩
          rw [get?_cons_ne, listed]
          rintro rfl
          rw [unlisted] at listed
          cases listed
      · rintro ⟨urn, truth, outcome, listed, comes', is⟩
        rw [get?_cons] at listed
        split at listed
        · next same =>
            subst same
            cases listed
            rw [comes] at comes'
            cases comes'
            exact .inl is
        · exact .inr ⟨urn, truth, outcome, listed, comes', is⟩

theorem get?_kept (urn : String) : p.kept.get? urn = (p.merged.get? urn).filter fun json =>
      !isMachineEntry json || (machineEntry p.published urn).isSome := by
  have owns : urn ∈ (machineEntries p.published).keys ↔ (machineEntry p.published urn).isSome := by
    rw [mem_keys_iff, get?_machineEntries]
  rw [kept]
  have filtered := get?_filter_entries p.merged
    (fun urn json => !isMachineEntry json || decide (urn ∈ (machineEntries p.published).keys)) urn
  simpa only [owns, Bool.decide_eq_true] using filtered

/-- What the merge left to a person is not the server's. -/
theorem byHand_iff : p.byHand urn = true ↔
    ∃ json, p.merged.get? urn = some json ∧ isMachineEntry json = false := by
  rw [byHand, Option.any_eq_true]
  simp only [Bool.not_eq_true']

structure Publishes (p : Promotion) (done : Reconciled) : Prop where
  owned : ∀ urn truth, machineEntry p.published urn = some truth → p.byHand urn = false →
    ∃ after lost, placed p.layerIds p.fallback (owned truth (p.sits urn truth)) =
      some (after, lost) ∧ done.assignments.get? urn = some (.obj after)
  others : ∀ urn, machineEntry p.published urn = none ∨ p.byHand urn = true →
    done.assignments.get? urn = (p.merged.get? urn).filter fun json => !isMachineEntry json
  overrides : ∀ urn, done.overrides.get? urn = ((machineEntry p.published urn).filter fun _ =>
      !p.byHand urn && decide (p.moves urn ≠ [])).map fun truth => record p.now (p.sits urn truth)
  lost : done.replaceNeeded = true ↔ ∃ urn truth after,
    machineEntry p.published urn = some truth ∧ p.byHand urn = false ∧
    placed p.layerIds p.fallback (Ownership.owned truth (p.sits urn truth)) = some (after, true)

theorem outcome_of_byHand (hand : p.byHand urn = true) : p.outcome urn truth = some {} :=
  if_pos hand

theorem outcome_eq_some (served : p.byHand urn = false) {outcome : Outcome}
    (comes : p.outcome urn truth = some outcome) : ∃ after lost,
      placed p.layerIds p.fallback (Ownership.owned truth (p.sits urn truth)) = some (after, lost) ∧
      outcome = { after := some after, lost, record :=
        if p.moves urn = [] then none else some (record p.now (p.sits urn truth)) } := by
  rw [Promotion.outcome, if_neg (Bool.eq_false_iff.mp served), Option.map_eq_some_iff] at comes
  obtain ⟨⟨after, lost⟩, ran, rfl⟩ := comes
  exact ⟨after, lost, ran, rfl⟩

theorem publishes (ran : p.reconcilePromote = some done) : p.Publishes done := by
  obtain ⟨named, unnamed, lost⟩ := foldlM_keep nodup_machineEntries ran
  simp only [get?_machineEntries] at named unnamed lost
  constructor
  · intro urn truth owns served
    obtain ⟨outcome, comes, stays, -⟩ := named urn truth owns
    obtain ⟨after, lost, placed, rfl⟩ := outcome_eq_some served comes
    exact ⟨after, lost, placed, stays⟩
  · intro urn free
    cases owns : machineEntry p.published urn with
    | none =>
      rw [(unnamed urn owns).1, get?_kept, owns]
      simp only [Option.isSome_none, Bool.or_false]
    | some truth =>
      have hand : p.byHand urn = true := by
        rcases free with free | hand
        · rw [owns] at free
          cases free
        · exact hand
      obtain ⟨outcome, comes, stays, -⟩ := named urn truth owns
      rw [outcome_of_byHand hand] at comes
      cases comes
      obtain ⟨json, here, unmarked⟩ := byHand_iff.mp hand
      rw [stays, Option.map_none, Option.none_or, get?_kept, here, Option.filter_some,
        Option.filter_some, unmarked]
      rfl
  · intro urn
    cases owns : machineEntry p.published urn with
    | none => exact (unnamed urn owns).2
    | some truth =>
      obtain ⟨outcome, comes, -, records⟩ := named urn truth owns
      rw [records]
      by_cases hand : p.byHand urn = true
      · rw [outcome_of_byHand hand] at comes
        cases comes
        rw [hand]
        rfl
      · have served := Bool.eq_false_of_not_eq_true hand
        obtain ⟨after, lost, -, rfl⟩ := outcome_eq_some served comes
        rw [served]
        by_cases none : p.moves urn = []
        · rw [if_pos none, decide_eq_false (not_not_intro none)]
          rfl
        · rw [if_neg none, decide_eq_true none]
          rfl
  · rw [lost]
    constructor
    · rintro (never | ⟨urn, truth, outcome, owns, comes, is⟩)
      · cases never
      · by_cases hand : p.byHand urn = true
        · rw [outcome_of_byHand hand] at comes
          cases comes
          cases is
        · have served := Bool.eq_false_of_not_eq_true hand
          obtain ⟨after, lost, placed, rfl⟩ := outcome_eq_some served comes
          subst is
          exact ⟨urn, truth, after, owns, served, placed⟩
    · rintro ⟨urn, truth, after, owns, served, placed⟩
      obtain ⟨outcome, comes, -⟩ := named urn truth owns
      obtain ⟨after', lost', placed', rfl⟩ := outcome_eq_some served comes
      rw [placed] at placed'
      cases placed'
      exact .inr ⟨urn, truth, _, owns, comes, rfl⟩

theorem reconcilePromote_isSome : (∃ done, p.reconcilePromote = some done) ↔
    ∀ urn truth, machineEntry p.published urn = some truth → p.byHand urn = false →
      hashable (p.place urn truth "layerId") = true := by
  have each (entry : Entry) : (placed p.layerIds p.fallback entry).isSome ↔
      hashable (entry.get? "layerId") = true := by
    unfold placed
    split
    · next is =>
        refine ⟨fun _ => is, fun _ => ?_⟩
        split <;> rfl
    · next isNot => exact ⟨nofun, fun is => absurd is isNot⟩
  constructor
  · rintro ⟨done, ran⟩ urn truth owns served
    obtain ⟨after, lost, placed, -⟩ := (publishes ran).owned urn truth owns served
    have here := (each _).mp (Option.isSome_iff_exists.mpr ⟨_, placed⟩)
    rwa [get?_owned_sits (by decide)] at here
  · intro hashed
    have goes (entries : Dict String Entry) (done : Reconciled)
        (listed : ∀ entry ∈ entries, (p.outcome entry.1 entry.2).isSome) :
        ∃ done', entries.foldlM p.keep done = some done' := by
      induction entries generalizing done with
      | nil => exact ⟨done, rfl⟩
      | cons entry rest ih =>
        obtain ⟨outcome, comes⟩ := Option.isSome_iff_exists.mp (listed entry List.mem_cons_self)
        rw [List.foldlM_cons, keep, comes]
        exact ih _ fun other mem => listed other (List.mem_cons_of_mem _ mem)
    apply goes
    rintro ⟨urn, truth⟩ mem
    have owns := get?_of_mem nodup_machineEntries mem
    rw [get?_machineEntries] at owns
    rw [Promotion.outcome]
    by_cases hand : p.byHand urn = true
    · rw [if_pos hand]
      rfl
    · rw [if_neg hand, Option.isSome_map, each, get?_owned_sits (by decide)]
      exact hashed urn truth owns (Bool.eq_false_of_not_eq_true hand)

theorem hashable_of_placed {lost : Bool}
    (ran : placed p.layerIds p.fallback entry = some (after, lost)) :
    hashable (entry.get? "layerId") = true := by
  unfold placed at ran
  split at ran
  · next is => exact is
  · cases ran

theorem machineEntry_of_owned {lost : Bool} (here : done.assignments.get? urn = some (.obj after))
    (ran : placed p.layerIds p.fallback (owned truth (p.sits urn truth)) = some (after, lost)) :
    machineEntry done.assignments urn = some after := by
  refine machineEntry_eq_some.mpr ⟨here, decide_eq_true ?_⟩
  rw [get?_placed ran (by decide), assignedBy_owned]

/-- Where a dictionary has the places already, putting it there changes nothing. -/
theorem foldl_take_self {moves : Dict String Json}
    (there : ∀ move ∈ moves, entry.get? move.1 = if move.2 = .null then none else some move.2) :
    moves.foldl take entry = entry := by
  induction moves with
  | nil => rfl
  | cons move rest ih =>
    have still : take entry move = entry := by
      have here := there move List.mem_cons_self
      rw [take]
      by_cases null : move.2 = .null
      · rw [if_pos null] at here ⊢
        exact pop_of_get?_eq_none here
      · rw [if_neg null] at here ⊢
        exact set_of_get? here
    rw [List.foldl_cons, still]
    exact ih fun other mem => there other (List.mem_cons_of_mem _ mem)

theorem owned_owned : owned truth (owned truth entry) = owned truth entry := by
  have marked : (owned truth entry).get? "assignedBy" = _ := assignedBy_owned
  have flagged : (owned truth entry).get? "inheritsChildren" = _ := inheritsChildren_owned
  conv_lhs => rw [owned, set_of_get? marked, set_of_get? flagged]

theorem record_congr {now : String} {entry' : Entry}
    (same : ∀ key ∈ placementKeys, entry.get? key = entry'.get? key) :
    record now entry = record now entry' := by
  rw [record]
  congr 1
  exact List.filterMap_congr fun key mem => by rw [same key mem]

def again (p : Promotion) (done : Reconciled) : Promotion :=
  { p with merged := done.assignments }

theorem place_again {start : Entry} (here : (p.again done).start urn truth = start) :
    (p.again done).place urn truth key = match p.moved urn key with
      | some value => if value = .null then none else some value
      | none => start.get? key := by
  rw [place, here]
  rfl

theorem get?_waits (entry : Entry) (layer : String) :
    Dict.get? (((entry.pop "orderKey").pop "logicalNodeId").set "layerId" (.str layer)) key =
      if key = "layerId" then some (.str layer)
      else if key = "orderKey" ∨ key = "logicalNodeId" then none
      else entry.get? key := by
  rw [get?_set, get?_pop, get?_pop]
  by_cases layerKey : key = "layerId"
  · rw [if_pos layerKey.symm, if_pos layerKey]
  · rw [if_neg (Ne.symm layerKey), if_neg layerKey]
    by_cases group : key = "logicalNodeId"
    · rw [if_pos group.symm, if_pos (.inr group)]
    · rw [if_neg (Ne.symm group)]
      by_cases order : key = "orderKey"
      · rw [if_pos order.symm, if_pos (.inl order)]
      · rw [if_neg (Ne.symm order), if_neg (not_or.mpr ⟨order, group⟩)]

section

variable (publishes : p.Publishes done)

include publishes

theorem start_again (owns : machineEntry p.published urn = some truth)
    (served : p.byHand urn = false) : ∃ lost,
      placed p.layerIds p.fallback (owned truth (p.sits urn truth)) =
        some ((p.again done).start urn truth, lost) ∧
      done.assignments.get? urn = some (.obj ((p.again done).start urn truth)) := by
  obtain ⟨after, lost, ran, here⟩ := publishes.owned urn truth owns served
  have start : (p.again done).start urn truth = after := by
    rw [Promotion.start, again, machineEntry_of_owned here ran, Option.getD_some]
  exact ⟨lost, start.symm ▸ ran, start.symm ▸ here⟩

theorem byHand_again (owns : machineEntry p.published urn = some truth) :
    (p.again done).byHand urn = p.byHand urn := by
  by_cases hand : p.byHand urn = true
  · obtain ⟨json, here, unmarked⟩ := byHand_iff.mp hand
    rw [hand, byHand_iff]
    refine ⟨json, ?_, unmarked⟩
    change done.assignments.get? urn = some json
    rw [publishes.others urn (.inr hand), here, Option.filter_some, unmarked]
    rfl
  · have served := Bool.eq_false_of_not_eq_true hand
    obtain ⟨after, lost, ran, here⟩ := publishes.owned urn truth owns served
    rw [served, Bool.eq_false_iff, ne_eq, byHand_iff]
    rintro ⟨json, there, unmarked⟩
    rw [show (p.again done).merged.get? urn = some (.obj after) from here] at there
    cases there
    have marked := (machineEntry_eq_some.mp (machineEntry_of_owned here ran)).2
    rw [isMachineEntry_obj, marked] at unmarked
    cases unmarked

theorem again_of_stays (owns : machineEntry p.published urn = some truth)
    (served : p.byHand urn = false) (stays : p.stays urn truth) :
    placed p.layerIds p.fallback (owned truth ((p.again done).sits urn truth)) =
        some ((p.again done).start urn truth, false) ∧
      record p.now ((p.again done).sits urn truth) = record p.now (p.sits urn truth) := by
  obtain ⟨lost, ran, -⟩ := start_again publishes owns served
  obtain ⟨after, rfl⟩ := placed_of_stays stays ran
  have there (key : String) (mem : key ∈ placementKeys) :
      ((p.again done).start urn truth).get? key = p.place urn truth key := by
    rw [after]
    exact get?_owned_sits mem
  have still : (p.again done).sits urn truth = (p.again done).start urn truth := by
    apply foldl_take_self
    rintro ⟨key, value⟩ mem
    have moves : p.moved urn key = some value := get?_of_mem nodup_moves mem
    rw [there key (moved_eq_some.mp moves).1, place, moves]
  constructor
  · rw [still]
    conv_lhs => rw [after, owned_owned]
    exact ran
  · rw [still]
    apply record_congr
    intro key mem
    rw [there key mem, get?_sits]

/-- One whose layer was gone waits where it did, unless the draft gave it an order or a group
alone. -/
theorem again_of_gone {layer : String} (owns : machineEntry p.published urn = some truth)
    (served : p.byHand urn = false) (gone : ¬p.stays urn truth)
    (falls : p.fallback = some layer) (mem : layer ∈ p.layerIds)
    (settled : (p.moved urn "layerId").isSome ∨
      ∀ key value, p.moved urn key = some value → value = .null)
    {after' : Entry} {lost' : Bool}
    (ran' : placed p.layerIds p.fallback (owned truth ((p.again done).sits urn truth)) =
      some (after', lost')) :
    ∀ key, after'.get? key = ((p.again done).start urn truth).get? key := by
  obtain ⟨lost, ran, -⟩ := start_again publishes owns served
  obtain ⟨after, rfl⟩ := placed_of_gone gone falls ran
  have start (key : String) : ((p.again done).start urn truth).get? key =
      if key = "layerId" then some (.str layer)
      else if key = "orderKey" ∨ key = "logicalNodeId" then none
      else (owned truth (p.sits urn truth)).get? key := by
    conv_lhs => rw [after]
    exact get?_waits _ _
  have rest (key : String) (other : key ∉ placementKeys) :
      (owned truth ((p.again done).sits urn truth)).get? key =
        ((p.again done).start urn truth).get? key := by
    by_cases marker : key = "assignedBy"
    · rw [marker, assignedBy_owned, start, if_neg (by decide), if_neg (by decide), assignedBy_owned]
    · by_cases flag : key = "inheritsChildren"
      · rw [flag, inheritsChildren_owned, start, if_neg (by decide), if_neg (by decide),
          inheritsChildren_owned]
      · have unmoved : p.moved urn key = none :=
          Option.eq_none_iff_forall_ne_some.mpr fun value moves =>
            other (moved_eq_some.mp moves).1
        rw [get?_owned marker flag, get?_sits, place_again rfl, unmoved]
  cases moves : p.moved urn "layerId" with
  | some value =>
    have still : ¬(p.again done).stays urn truth := by
      have same : (p.again done).place urn truth "layerId" = p.place urn truth "layerId" := by
        rw [place_again rfl, place, moves]
      rw [stays, same]
      exact gone
    obtain ⟨waits, -⟩ := placed_of_gone (p := p.again done) still falls ran'
    intro key
    rw [waits, get?_waits, start]
    by_cases layerKey : key = "layerId"
    · rw [if_pos layerKey, if_pos layerKey]
    · by_cases within : key = "orderKey" ∨ key = "logicalNodeId"
      · rw [if_pos within, if_pos within]
      · rw [rest, start, if_neg layerKey, if_neg within]
        rw [placementKeys, List.mem_cons, List.mem_cons, List.mem_singleton]
        exact not_or.mpr ⟨layerKey, within⟩
  | none =>
    have unset : ∀ key value, p.moved urn key = some value → value = .null := by
      rcases settled with moved | unset
      · rw [moves] at moved
        cases moved
      · exact unset
    have waits : (p.again done).place urn truth "layerId" = some (.str layer) := by
      rw [place_again rfl, moves, start, if_pos rfl]
    have there : (p.again done).stays urn truth := by
      rw [stays, waits]
      exact Option.isSome_iff_exists.mpr ⟨layer, if_pos mem⟩
    obtain ⟨rfl, -⟩ := placed_of_stays (p := p.again done) there ran'
    intro key
    by_cases within : key ∈ placementKeys
    · rw [get?_owned_sits within, place_again rfl]
      cases goes : p.moved urn key with
      | none => rfl
      | some value =>
        have other : key ≠ "layerId" := by
          rintro rfl
          rw [moves] at goes
          cases goes
        rw [placementKeys, List.mem_cons, List.mem_cons, List.mem_singleton] at within
        rw [start, if_neg other, if_pos (within.resolve_left other)]
        exact if_pos (unset key value goes)
    · exact rest key within

end

/-- An entry of the server's that the draft gave an order or a group in a layer that is gone does
not stay: with its layer it loses them, and has them again in the fallback. -/
def Settled (p : Promotion) (urn : String) : Prop :=
  ∀ truth, machineEntry p.published urn = some truth → p.byHand urn = false →
    p.stays urn truth ∨ (p.moved urn "layerId").isSome ∨
      ∀ key value, p.moved urn key = some value → value = .null

def SameFields (first second : Option Json) : Prop :=
  first = second ∨ ∃ entry entry' : Entry, first = some (.obj entry) ∧
    second = some (.obj entry') ∧ ∀ key, entry.get? key = entry'.get? key

/-- An entry of the server's is as the published view has it, and where the draft put it, or waits
in the fallback. -/
structure Served (p : Promotion) (urn : String) (truth after : Entry) : Prop where
  marked : isMachine after = true
  cascades : after.get? "inheritsChildren" =
    some (.bool (truth.get? "inheritsChildren" = some (.bool true)))
  layer : ∃ layer ∈ p.layerIds, after.get? "layerId" = some (.str layer)
  sits : p.stays urn truth → ∀ key ∈ placementKeys, after.get? key = p.place urn truth key
  waits : ¬p.stays urn truth → after.get? "layerId" = textOf p.fallback ∧
    after.get? "orderKey" = none ∧ after.get? "logicalNodeId" = none

structure Keeps (p : Promotion) (done : Reconciled) : Prop where
  /-- The server's entries are the published view's, and each of these is listed. -/
  members : ∀ urn, ((machineEntry done.assignments urn).isSome →
      (machineEntry p.published urn).isSome) ∧
    ((machineEntry p.published urn).isSome → (done.assignments.get? urn).isSome)
  /-- What the merge left to a person stays, and what is no member's goes. -/
  others : ∀ urn, machineEntry p.published urn = none ∨ p.byHand urn = true →
    done.assignments.get? urn = (p.merged.get? urn).filter fun json => !isMachineEntry json
  served : ∀ urn truth, machineEntry p.published urn = some truth → p.byHand urn = false →
    ∃ after, done.assignments.get? urn = some (.obj after) ∧ p.Served urn truth after
  /-- The moves of the server's entries are recorded, and no others. -/
  overrides : ∀ urn, (done.overrides.get? urn).isSome ↔
    (machineEntry p.published urn).isSome ∧ p.byHand urn = false ∧ ∃ key, (p.moved urn key).isSome
  lost : done.replaceNeeded = true ↔ ∃ urn truth,
    machineEntry p.published urn = some truth ∧ p.byHand urn = false ∧ ¬p.stays urn truth
  /-- Publishing again changes nothing that has settled. -/
  again : ∃ done', (p.again done).reconcilePromote = some done' ∧
    (∀ urn, p.Settled urn → SameFields (done'.assignments.get? urn) (done.assignments.get? urn)) ∧
    (done.replaceNeeded = false → done'.replaceNeeded = false ∧
      ∀ urn, done'.assignments.get? urn = done.assignments.get? urn ∧
        done'.overrides.get? urn = done.overrides.get? urn)

theorem moves_ne_nil : p.moves urn ≠ [] ↔ ∃ key, (p.moved urn key).isSome := by
  rw [ne_eq, eq_nil_iff, not_forall]
  apply exists_congr
  intro key
  rw [Option.isSome_iff_ne_none]
  rfl

theorem hashable_place_again (publishes : p.Publishes done)
    (owns : machineEntry p.published urn = some truth) (served : p.byHand urn = false)
    (hashed : hashable (p.place urn truth "layerId") = true) :
    hashable ((p.again done).place urn truth "layerId") = true := by
  rw [place_again rfl]
  rw [place] at hashed
  cases moves : p.moved urn "layerId" with
  | some value =>
    rw [moves] at hashed
    exact hashed
  | none =>
    rw [moves] at hashed
    obtain ⟨lost, ran, -⟩ := start_again publishes owns served
    rcases placed_cases ran with ⟨same, -⟩ | ⟨layer, -, waits⟩
    · rw [same, get?_owned_sits (by decide), place, moves]
      exact hashed
    · rw [waits, get?_set_self]
      rfl

theorem Publishes.served (publishes : p.Publishes done) (layers : p.layerIds ≠ [])
    (owns : machineEntry p.published urn = some truth) (served : p.byHand urn = false) :
    ∃ after, done.assignments.get? urn = some (.obj after) ∧ p.Served urn truth after := by
  obtain ⟨layer, mem, falls⟩ := fallback_of_layers layers
  obtain ⟨after, lost, ran, here⟩ := publishes.owned urn truth owns served
  refine ⟨after, here, ?_, ?_, ?_, ?_, ?_⟩
  · exact (machineEntry_eq_some.mp (machineEntry_of_owned here ran)).2
  · rw [get?_placed ran (by decide), inheritsChildren_owned]
  · exact layerId_placed ran ⟨layer, mem, falls⟩
  · intro stays key within
    obtain ⟨rfl, -⟩ := placed_of_stays stays ran
    exact get?_owned_sits within
  · intro gone
    obtain ⟨rfl, -⟩ := placed_of_gone gone falls ran
    rw [falls]
    simp only [get?_waits]
    exact ⟨rfl, rfl, rfl⟩

theorem Publishes.lost_iff (publishes : p.Publishes done) (layers : p.layerIds ≠ []) :
    done.replaceNeeded = true ↔ ∃ urn truth, machineEntry p.published urn = some truth ∧
      p.byHand urn = false ∧ ¬p.stays urn truth := by
  obtain ⟨layer, -, falls⟩ := fallback_of_layers layers
  rw [publishes.lost]
  constructor
  · rintro ⟨urn, truth, after, owns, served, ran⟩
    refine ⟨urn, truth, owns, served, fun stays => ?_⟩
    cases (placed_of_stays stays ran).2
  · rintro ⟨urn, truth, owns, served, gone⟩
    obtain ⟨after, lost, ran, -⟩ := publishes.owned urn truth owns served
    obtain ⟨-, rfl⟩ := placed_of_gone gone falls ran
    exact ⟨urn, truth, after, owns, served, ran⟩

/-- What is a person's, or no member's, is still so when the result is published. -/
theorem others_again (publishes : p.Publishes done) (publishes' : (p.again done).Publishes done')
    (free : machineEntry p.published urn = none ∨ p.byHand urn = true) :
    done'.assignments.get? urn = done.assignments.get? urn := by
  have free' : machineEntry p.published urn = none ∨ (p.again done).byHand urn = true := by
    cases owns : machineEntry p.published urn with
    | none => exact .inl rfl
    | some truth =>
      rw [byHand_again publishes owns]
      rw [owns] at free
      exact .inr (free.resolve_left nofun)
  rw [publishes'.others urn free']
  change (done.assignments.get? urn).filter _ = _
  rw [publishes.others urn free, Option.filter_filter]
  simp only [Bool.and_self]

theorem settled_again (publishes : p.Publishes done)
    (publishes' : (p.again done).Publishes done') (layers : p.layerIds ≠ [])
    (settled : p.Settled urn) :
    SameFields (done'.assignments.get? urn) (done.assignments.get? urn) := by
  obtain ⟨layer, mem, falls⟩ := fallback_of_layers layers
  cases owns : machineEntry p.published urn with
  | none => exact .inl (others_again publishes publishes' (.inl owns))
  | some truth =>
    by_cases hand : p.byHand urn = true
    · exact .inl (others_again publishes publishes' (.inr hand))
    · have served := Bool.eq_false_of_not_eq_true hand
      obtain ⟨lost, ran, here⟩ := start_again publishes owns served
      obtain ⟨after', lost', ran', here'⟩ := publishes'.owned urn truth owns
        ((byHand_again publishes owns).trans served)
      change placed p.layerIds p.fallback _ = _ at ran'
      rw [here, here']
      by_cases stays : p.stays urn truth
      · rw [(again_of_stays publishes owns served stays).1] at ran'
        cases ran'
        exact .inl rfl
      · exact .inr ⟨_, _, rfl, rfl, again_of_gone publishes owns served stays falls mem
          ((settled truth owns served).resolve_left stays) ran'⟩

theorem kept_again (publishes : p.Publishes done)
    (publishes' : (p.again done).Publishes done') (layers : p.layerIds ≠ [])
    (kept : done.replaceNeeded = false) : done'.replaceNeeded = false ∧
      ∀ urn, done'.assignments.get? urn = done.assignments.get? urn ∧
        done'.overrides.get? urn = done.overrides.get? urn := by
  have stays (urn : String) (truth : Entry) (owns : machineEntry p.published urn = some truth)
      (served : p.byHand urn = false) : p.stays urn truth := by
    by_contra gone
    rw [(publishes.lost_iff layers).mpr ⟨urn, truth, owns, served, gone⟩] at kept
    cases kept
  refine ⟨?_, fun urn => ?_⟩
  · rw [Bool.eq_false_iff, ne_eq, publishes'.lost]
    rintro ⟨urn, truth, after, owns, served', ran'⟩
    have served : p.byHand urn = false := (byHand_again publishes owns).symm.trans served'
    change placed p.layerIds p.fallback _ = _ at ran'
    rw [(again_of_stays publishes owns served (stays urn truth owns served)).1] at ran'
    cases ran'
  · cases owns : machineEntry p.published urn with
    | none =>
      refine ⟨others_again publishes publishes' (.inl owns), ?_⟩
      rw [publishes.overrides, publishes'.overrides]
      change ((machineEntry p.published urn).filter _).map _ = _
      rw [owns]
      rfl
    | some truth =>
      by_cases hand : p.byHand urn = true
      · refine ⟨others_again publishes publishes' (.inr hand), ?_⟩
        rw [publishes.overrides, publishes'.overrides, byHand_again publishes owns, hand]
        change ((machineEntry p.published urn).filter _).map _ = _
        rw [owns]
        rfl
      · have served := Bool.eq_false_of_not_eq_true hand
        obtain ⟨lost, ran, here⟩ := start_again publishes owns served
        obtain ⟨after', lost', ran', here'⟩ := publishes'.owned urn truth owns
          ((byHand_again publishes owns).trans served)
        obtain ⟨placed', records⟩ :=
          again_of_stays publishes owns served (stays urn truth owns served)
        change placed p.layerIds p.fallback _ = _ at ran'
        rw [placed'] at ran'
        cases ran'
        refine ⟨here'.trans here.symm, ?_⟩
        rw [publishes.overrides, publishes'.overrides, byHand_again publishes owns]
        change ((machineEntry p.published urn).filter
          fun _ => !p.byHand urn && decide (p.moves urn ≠ [])).map
            (fun truth => record p.now ((p.again done).sits urn truth)) = _
        rw [owns, Option.filter_some]
        split
        · rw [Option.map_some, Option.map_some, records]
        · rfl

theorem Publishes.keeps (publishes : p.Publishes done) (layers : p.layerIds ≠ []) :
    p.Keeps done where
  members urn := by
    cases owns : machineEntry p.published urn with
    | none =>
      refine ⟨fun mine => ?_, nofun⟩
      obtain ⟨entry, mine⟩ := Option.isSome_iff_exists.mp mine
      obtain ⟨here, marked⟩ := machineEntry_eq_some.mp mine
      rw [publishes.others urn (.inl owns), Option.filter_eq_some_iff] at here
      rw [isMachineEntry_obj, marked] at here
      cases here.2
    | some truth =>
      refine ⟨fun _ => rfl, fun _ => ?_⟩
      by_cases hand : p.byHand urn = true
      · obtain ⟨json, here, unmarked⟩ := byHand_iff.mp hand
        rw [publishes.others urn (.inr hand), here, Option.filter_some, unmarked]
        rfl
      · obtain ⟨after, lost, -, here⟩ :=
          publishes.owned urn truth owns (Bool.eq_false_of_not_eq_true hand)
        rw [here]
        rfl
  others := publishes.others
  served _ _ owns served := publishes.served layers owns served
  overrides urn := by
    rw [publishes.overrides, ← moves_ne_nil]
    cases machineEntry p.published urn with
    | none => simp
    | some truth =>
      cases p.byHand urn <;> by_cases none : p.moves urn = [] <;> simp [none]
  lost := publishes.lost_iff layers
  again := by
    have hashed : ∀ urn truth, machineEntry p.published urn = some truth →
        (p.again done).byHand urn = false →
          hashable ((p.again done).place urn truth "layerId") = true := by
      intro urn truth owns served'
      have served : p.byHand urn = false := (byHand_again publishes owns).symm.trans served'
      obtain ⟨after, lost, ran, -⟩ := publishes.owned urn truth owns served
      apply hashable_place_again publishes owns served
      rw [← get?_owned_sits (by decide)]
      exact hashable_of_placed ran
    obtain ⟨done', ran'⟩ := (reconcilePromote_isSome (p := p.again done)).mpr hashed
    exact ⟨done', ran', fun urn => settled_again publishes (Promotion.publishes ran') layers,
      kept_again publishes (Promotion.publishes ran') layers⟩

/-- Publishing a draft's layout goes through where the layer of each entry can be looked up, and
then keeps the members, what people placed and the draft's moves. -/
theorem reconcilePromote_keeps (p : Promotion) (layers : p.layerIds ≠ []) :
    ((∃ done, p.reconcilePromote = some done) ↔
      ∀ urn truth, machineEntry p.published urn = some truth → p.byHand urn = false →
        hashable (p.place urn truth "layerId") = true) ∧
    ∀ done, p.reconcilePromote = some done → p.Keeps done :=
  ⟨reconcilePromote_isSome, fun _ ran => (publishes ran).keeps layers⟩

def ordered (layerId : String) (orderKey : Option String) : Dict String Json :=
  [("orders", .obj ([("layerId", .str layerId), ("assignedBy", machineMark)] ++
    (orderKey.map fun order => ("orderKey", Json.str order)).toList))]

/-- A draft gave the entry an order in a layer. -/
def ordering (layerId : String) : Promotion where
  merged := ordered layerId (some "a1")
  fork := ordered layerId none
  published := ordered layerId none
  draft := ordered layerId (some "a1")
  layerIds := ["marts"]

def result (p : Promotion) : Reconciled :=
  p.reconcilePromote.getD { assignments := [] }

theorem ran_result (goes : p.reconcilePromote.isSome) : p.reconcilePromote = some (result p) := by
  rw [result, ← Option.get_eq_getD (h := goes), Option.some_get]

/-- In a layer that is there it has that order. -/
theorem ordering_marts : (ordering "marts").Keeps (result (ordering "marts")) ∧
    (((result (ordering "marts")).assignments.get? "orders").bind fieldsOf).bind
      (Dict.get? · "orderKey") = some (.str "a1") :=
  ⟨(reconcilePromote_keeps (ordering "marts") (by decide)).2 _
    (ran_result (by decide +kernel)), by decide +kernel⟩

/-- Where the layer is gone it has none, and gets it when the result is published again. -/
theorem ordering_core_not_stable : ¬ ∀ (p : Promotion) (done done' : Reconciled),
    p.layerIds ≠ [] → p.reconcilePromote = some done →
      (p.again done).reconcilePromote = some done' →
        ∀ urn key, ((done'.assignments.get? urn).bind fieldsOf).bind (Dict.get? · key) =
          ((done.assignments.get? urn).bind fieldsOf).bind (Dict.get? · key) := by
  intro stable
  have same := stable (ordering "core") (result (ordering "core"))
    (result (again (ordering "core") (result (ordering "core")))) (by decide)
    (ran_result (by decide +kernel)) (ran_result (by decide +kernel)) "orders" "orderKey"
  revert same
  decide +kernel

end DataViz.LiveView.Promotion
