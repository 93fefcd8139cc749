/-
# Planning again

What the plan does with a candidate rests on its old entry and on the entries before it
(`Inputs.listing`), and a candidate is listed at most once. So planning again over the plan's own
answer gives the same entries, unless a member was left out for the layer its old entry named:
that entry is gone the next time, and the layout's rule may then put the member elsewhere.
-/

import DataViz.LiveView.Plan

namespace DataViz.LiveView

open List Option Dict

open View (Entry isTrue)
open Json (Same Same?)

namespace Inputs

variable {inputs : Inputs} {prev : Option Entry} {machine machine' : Dict String Entry}
  {urn : String} {c : Candidate} {layer : String}

def listing (inputs : Inputs) (prev : Option Entry) (machine : Dict String Entry)
    (urn : String) : Option Entry :=
  (inputs.cands.get? urn).bind fun c =>
    if (inputs.user.get? urn).isSome then none
    else (inputs.home prev machine urn c).bind fun layer =>
      if c.member && inputs.insideWhole machine c layer then none
      else some (inputs.entryIn prev urn c layer)

theorem machine_step (done : Planned) : (inputs.step done urn).machine =
    match inputs.listing (inputs.old.get? urn) done.machine urn with
    | some entry => done.machine.set urn entry
    | none => done.machine := by
  rw [step, listing]
  cases inputs.cands.get? urn with
  | none => rfl
  | some c =>
    rw [bind_some]
    dsimp only
    split
    · rfl
    · cases inputs.home (inputs.old.get? urn) done.machine urn c with
      | none => rfl
      | some layer =>
        rw [bind_some]
        dsimp only
        split <;> split <;> simp_all

def plannedFor (inputs : Inputs) (urns : List String) : Dict String Entry :=
  (urns.foldl inputs.step {}).machine

theorem get?_plannedFor_append (urns : List String) (last key : String) :
    (inputs.plannedFor (urns ++ [last])).get? key = if key = last then
        (inputs.listing (inputs.old.get? last) (inputs.plannedFor urns) last).or
          ((inputs.plannedFor urns).get? last)
      else (inputs.plannedFor urns).get? key := by
  rw [plannedFor, foldl_append, foldl_cons, foldl_nil, machine_step, plannedFor]
  cases inputs.listing (inputs.old.get? last) (urns.foldl inputs.step {}).machine last with
  | none =>
    dsimp only
    split
    · next same => rw [same, none_or]
    · rfl
  | some entry =>
    rw [get?_set]
    split
    · next same => rw [if_pos same.symm, some_or]
    · next other => rw [if_neg (Ne.symm other)]

theorem get?_plannedFor_of_notMem {urns : List String} (absent : urn ∉ urns) :
    (inputs.plannedFor urns).get? urn = none := by
  induction urns using reverseRecOn with
  | nil => rfl
  | append_singleton urns last ih =>
    rw [mem_append, mem_singleton, not_or] at absent
    rw [get?_plannedFor_append, if_neg absent.2, ih absent.1]

/-- A candidate's entry stands from then on. -/
theorem get?_plannedFor_of_mem {before after : List String} (once : urn ∉ before)
    (nodup : urn ∉ after) : (inputs.plannedFor (before ++ urn :: after)).get? urn =
      inputs.listing (inputs.old.get? urn) (inputs.plannedFor before) urn := by
  induction after using reverseRecOn with
  | nil =>
    rw [get?_plannedFor_append, if_pos rfl, get?_plannedFor_of_notMem once, or_none]
  | append_singleton after last ih =>
    rw [mem_append, mem_singleton, not_or] at nodup
    rw [← cons_append, ← append_assoc, get?_plannedFor_append, if_neg nodup.2, ih nodup.1]

theorem mem_order : urn ∈ inputs.order ↔ (inputs.cands.get? urn).isSome := by
  rw [order, mem_insertionSort, mem_sortedKeys, mem_keys_iff]

theorem nodup_order : inputs.order.Nodup :=
  (perm_insertionSort _ _).nodup_iff.mpr (nodup_sortedKeys _)

theorem planned_eq : inputs.planned.machine = inputs.plannedFor inputs.order :=
  rfl

def before (inputs : Inputs) (urn : String) : Dict String Entry :=
  inputs.plannedFor (inputs.order.takeWhile (· ≠ urn))

theorem takeWhile_order {front back : List String} (split : inputs.order = front ++ urn :: back) :
    inputs.order.takeWhile (· ≠ urn) = front := by
  have fresh : urn ∉ front := by
    have nodup := split ▸ inputs.nodup_order
    exact (nodup_middle.mp nodup |> nodup_cons.mp).1 ∘ mem_append_left _
  rw [split, takeWhile_append_of_pos]
  · simp
  · intro other mem
    apply decide_eq_true
    rintro rfl
    exact fresh mem

/-- The plan's entry of a candidate. -/
theorem get?_planned (known : (inputs.cands.get? urn).isSome) : inputs.planned.machine.get? urn =
      inputs.listing (inputs.old.get? urn) (inputs.before urn) urn := by
  obtain ⟨front, back, split⟩ := append_of_mem (mem_order.mpr known)
  have nodup := nodup_cons.mp (nodup_middle.mp (split ▸ inputs.nodup_order))
  rw [mem_append, not_or] at nodup
  rw [planned_eq, before, takeWhile_order split, split, get?_plannedFor_of_mem nodup.1.1 nodup.1.2]

theorem get?_planned_of_unknown (unknown : inputs.cands.get? urn = none) :
    inputs.planned.machine.get? urn = none := by
  apply get?_plannedFor_of_notMem
  rw [mem_order, unknown]
  exact Bool.false_ne_true

theorem get?_takeKey (value : String → Option Json) (entry : Entry) (taken key : String) :
    (takeKey value entry taken).get? key =
      if key = taken then (value key).or (entry.get? key) else entry.get? key := by
  rw [takeKey]
  by_cases same : key = taken
  · subst same
    rw [if_pos rfl]
    cases value key with
    | none => rw [none_or]
    | some json => rw [get?_set_self, some_or]
  · rw [if_neg same]
    cases value taken with
    | none => rfl
    | some json => exact get?_set_ne (Ne.symm same) _ _

theorem get?_takeKeys (value : String → Option Json) (entry : Entry) (key : String) :
    (takeKeys value entry).get? key =
      if key ∈ placementKeys then (value key).or (entry.get? key) else entry.get? key := by
  rw [takeKeys, placementKeys, foldl_cons, foldl_cons, foldl_nil, get?_takeKey, get?_takeKey]
  by_cases group : key = "logicalNodeId"
  · subst group
    rw [if_pos rfl, if_neg (by decide), if_pos (by decide)]
  · by_cases ordered : key = "orderKey"
    · subst ordered
      rw [if_neg (by decide), if_pos rfl, if_pos (by decide)]
    · rw [if_neg group, if_neg ordered, if_neg (by simp [group, ordered])]

/-- What a person gave one of the keys that say where an entry sits. -/
def given (inputs : Inputs) (urn key : String) : Option Json :=
  ((inputs.override urn).get? key).filter isTrue

def carried (prev : Option Entry) (layer key : String) : Option Json :=
  (prev.filter fun prev => decide (prev.get? "layerId" = some (.str layer))).bind (kept · key)

variable {key : String}

theorem get?_entryIn_placement (mem : key ∈ placementKeys) :
    (inputs.entryIn prev urn c layer).get? key =
      (inputs.given urn key).or (carried prev layer key) := by
  have fresh : Dict.get? ([("layerId", .str layer), ("inheritsChildren", .bool c.whole),
      ("assignedBy", machineMark), ("assignedAt", inputs.assignedAt prev)] : Entry) key = none := by
    rw [placementKeys, mem_cons, mem_singleton] at mem
    rcases mem with rfl | rfl <;> rfl
  rw [entryIn, get?_takeKeys, if_pos mem, get?_takeKeys, if_pos mem, fresh, or_none]
  rfl

theorem get?_entryIn (other : key ∉ placementKeys) : (inputs.entryIn prev urn c layer).get? key =
      Dict.get? [("layerId", .str layer), ("inheritsChildren", .bool c.whole),
        ("assignedBy", machineMark), ("assignedAt", inputs.assignedAt prev)] key := by
  rw [entryIn, get?_takeKeys, if_neg other, get?_takeKeys, if_neg other]

@[simp]
theorem layerId_entryIn : (inputs.entryIn prev urn c layer).get? "layerId" = some (.str layer) :=
  get?_entryIn (by decide)

@[simp]
theorem inheritsChildren_entryIn :
    (inputs.entryIn prev urn c layer).get? "inheritsChildren" = some (.bool c.whole) :=
  get?_entryIn (by decide)

@[simp]
theorem isMachine_entryIn : isMachine (inputs.entryIn prev urn c layer) = true := by
  have mark : (inputs.entryIn prev urn c layer).get? "assignedBy" = some machineMark :=
    get?_entryIn (by decide)
  rw [isMachine, mark]
  exact decide_eq_true rfl

variable {entry : Entry}

theorem kept_of_or {first second : Option Json} (held : entry.get? key = first.or second)
    (some' : ∀ json ∈ first, json ≠ .null) (some'' : ∀ json ∈ second, json ≠ .null) :
    kept entry key = first.or second := by
  rw [kept, held]
  cases first with
  | some json => simp [some' json rfl]
  | none =>
    cases second with
    | some json => simp [some'' json rfl]
    | none => rfl

theorem get?_entryIn_again (key : String) :
    (inputs.entryIn (some (inputs.entryIn prev urn c layer)) urn c layer).get? key =
      (inputs.entryIn prev urn c layer).get? key := by
  by_cases mem : key ∈ placementKeys
  · rw [get?_entryIn_placement mem]
    have held : (inputs.entryIn prev urn c layer).get? key =
        (inputs.given urn key).or (carried prev layer key) := get?_entryIn_placement mem
    have stays : carried (some (inputs.entryIn prev urn c layer)) layer key =
        (inputs.given urn key).or (carried prev layer key) := by
      rw [carried, filter_some, layerId_entryIn, if_pos (decide_eq_true rfl)]
      apply kept_of_or held
      · rintro json given rfl
        exact Bool.false_ne_true (mem_filter_iff.mp given).2
      · rintro json carries rfl
        obtain ⟨old, -, carries⟩ := bind_eq_some_iff.mp carries
        exact absurd rfl (of_decide_eq_true (mem_filter_iff.mp carries).2)
    rw [stays, held]
    cases inputs.given urn key with
    | none => rw [none_or, none_or]
    | some json => rw [some_or, some_or]
  · rw [get?_entryIn mem, get?_entryIn mem]
    have at_ : inputs.assignedAt (some (inputs.entryIn prev urn c layer)) =
        inputs.assignedAt prev := by
      have stored : (inputs.entryIn prev urn c layer).get? "assignedAt" =
          some (inputs.assignedAt prev) := get?_entryIn (by decide)
      rw [assignedAt, bind_some, stored]
      by_cases true' : isTrue (inputs.assignedAt prev)
      · rw [filter_some, if_pos true', getD_some]
      · rw [filter_some, if_neg true']
        rw [assignedAt] at true' ⊢
        cases stamp : (prev.bind (·.get? "assignedAt")).filter isTrue with
        | none => rfl
        | some json =>
          rw [stamp] at true'
          exact absurd (mem_filter_iff.mp stamp).2 true'
    rw [at_]

theorem valid_mem {value : Option Json} (is : valid inputs.layerIds value = some layer) :
    value = some (.str layer) ∧ layer ∈ inputs.layerIds := by
  unfold valid at is
  split at is
  · next id =>
      by_cases mem : id ∈ inputs.layerIds
      · rw [if_pos mem] at is
        cases is
        exact ⟨rfl, mem⟩
      · rw [if_neg mem] at is
        cases is
  · cases is

theorem valid_str (mem : layer ∈ inputs.layerIds) :
    valid inputs.layerIds (some (.str layer)) = some layer :=
  if_pos mem

theorem fallbackLayer_mem (is : inputs.fallbackLayer = some layer) : layer ∈ inputs.layerIds := by
  rw [fallbackLayer, or_eq_some_iff] at is
  rcases is with named | ⟨-, first⟩
  · exact (valid_mem (mem_filter_iff.mp named).1).2
  · exact mem_of_head? first

theorem nearest_mem (is : inputs.nearest machine c = some layer) : layer ∈ inputs.layerIds := by
  obtain ⟨container, -, found⟩ := exists_of_findSome?_eq_some is
  obtain ⟨entry, -, found⟩ := bind_eq_some_iff.mp found
  exact (valid_mem found).2

theorem home_mem (goes : inputs.home prev machine urn c = some layer) :
    layer ∈ inputs.layerIds := by
  rw [home, ownLayer, named, or_eq_some_iff, or_eq_some_iff, or_eq_some_iff, or_eq_some_iff] at goes
  rcases goes with (((person | ⟨-, source⟩) | ⟨-, stands⟩) | ⟨-, rule⟩) | ⟨-, falls⟩
  · exact (valid_mem (mem_filter_iff.mp person).1).2
  · exact (valid_mem source).2
  · rw [standing] at stands
    split at stands
    · cases stands
    · obtain ⟨stands, -⟩ := mem_filter_iff.mp stands
      obtain ⟨entry, -, stands⟩ := bind_eq_some_iff.mp stands
      exact (valid_mem stands).2
  · exact (valid_mem rule).2
  · split at falls
    · rw [or_eq_some_iff] at falls
      rcases falls with drawn | ⟨-, waits⟩
      · exact nearest_mem drawn
      · exact fallbackLayer_mem waits
    · cases falls

/-- An entry where the candidate went keeps it there. -/
theorem home_again (goes : inputs.home prev machine urn c = some layer)
    (there : entry.get? "layerId" = some (.str layer)) :
    inputs.home (some entry) machine urn c = some layer := by
  have mem := home_mem goes
  have stands : inputs.layerOf entry = some layer := by
    rw [layerOf, there]
    exact valid_str mem
  rw [home, ownLayer] at goes ⊢
  cases name : inputs.named urn c with
  | some id =>
    rw [name] at goes
    simpa using goes
  | none =>
    rw [name] at goes
    rw [none_or]
    by_cases moves : inputs.restage = true ∨ some layer = inputs.fallbackLayer
    · have noStanding : inputs.standing (some entry) = none := by
        rw [standing]
        rcases moves with restage | waits
        · rw [if_pos restage]
        · split
          · rfl
          · rw [bind_some, stands, filter_some, if_neg (by simpa using waits)]
      have before : inputs.standing prev = none := by
        cases stood : inputs.standing prev with
        | none => rfl
        | some id =>
          rw [stood] at goes
          cases goes
          rw [standing] at stood
          split at stood
          · cases stood
          · next kept =>
              have apart := of_decide_eq_true (mem_filter_iff.mp stood).2
              exact absurd (moves.resolve_left kept) apart
      rw [before] at goes
      rw [noStanding]
      exact goes
    · rw [not_or] at moves
      have stays : inputs.standing (some entry) = some layer := by
        rw [standing, if_neg moves.1, bind_some, stands, filter_some,
          if_pos (decide_eq_true moves.2)]
      rw [stays, some_or, some_or]

/-- A candidate that goes nowhere goes nowhere without its old entry either. -/
theorem home_none (nowhere : inputs.home prev machine urn c = none) :
    inputs.home none machine urn c = none := by
  rw [home, ownLayer, or_eq_none_iff, or_eq_none_iff, or_eq_none_iff] at nowhere
  obtain ⟨⟨⟨noName, -⟩, noRule⟩, noFallback⟩ := nowhere
  have noEntry : inputs.standing none = none := by
    rw [standing, bind_none, filter_none, ite_self]
  rw [home, ownLayer, noName, noEntry, noRule, noFallback]
  rfl

/-- The same entries, the order of their keys aside. -/
def Agree (machine machine' : Dict String Entry) : Prop :=
  ∀ urn, Same? ((machine.get? urn).map Json.obj) ((machine'.get? urn).map Json.obj)

theorem Agree.isSome (agree : Agree machine machine') (urn : String) :
    (machine.get? urn).isSome = (machine'.get? urn).isSome := by
  have same := congrArg Option.isSome (agree urn)
  simpa using same

theorem Agree.text (agree : Agree machine machine') (urn key text : String) :
    (machine.get? urn).bind (·.get? key) = some (.str text) ↔
      (machine'.get? urn).bind (·.get? key) = some (.str text) := by
  have plain (value : Option Json) : Same? value (some (.str text)) ↔ value = some (.str text) := by
    cases value with
    | none => simp
    | some json => cases json <;> simp [Json.EqBy, Json.canonBy]
  have along (machine : Dict String Entry) : Json.valueAt ((machine.get? urn).map Json.obj) [key] =
      (machine.get? urn).bind (·.get? key) := by
    cases machine.get? urn <;> simp
  have same := (agree urn).valueAt [key]
  rw [along, along] at same
  rw [← plain, ← plain]
  exact ⟨fun held => same.symm.trans held, fun held => same.trans held⟩

theorem valid_eq_some_iff {value : Option Json} : valid inputs.layerIds value = some layer ↔
    value = some (.str layer) ∧ layer ∈ inputs.layerIds := by
  constructor
  · exact valid_mem
  · rintro ⟨rfl, mem⟩
    exact valid_str mem

theorem Agree.layerOf (agree : Agree machine machine') (urn : String) :
    (machine.get? urn).bind inputs.layerOf = (machine'.get? urn).bind inputs.layerOf := by
  have reads (machine : Dict String Entry) (layer : String) :
      (machine.get? urn).bind inputs.layerOf = some layer ↔
        (machine.get? urn).bind (·.get? "layerId") = some (.str layer) ∧
          layer ∈ inputs.layerIds := by
    cases machine.get? urn with
    | none => simp
    | some entry => exact valid_eq_some_iff
  apply ext
  intro layer
  rw [reads, reads, agree.text]

theorem Agree.insideWhole (agree : Agree machine machine') :
    inputs.insideWhole machine c layer = inputs.insideWhole machine' c layer := by
  rw [Inputs.insideWhole]
  congr 1
  funext container
  rw [decide_eq_decide.mpr (agree.text container "layerId" layer)]

def again (inputs : Inputs) : Inputs :=
  { inputs with assignments := (plan inputs).assignments }

theorem get?_user (urn : String) :
    inputs.user.get? urn = (inputs.assignments.get? urn).filter fun entry => !isMachine entry :=
  get?_filter_items _ (fun entry => !isMachine entry) urn

theorem get?_old (urn : String) :
    inputs.old.get? urn = (inputs.assignments.get? urn).filter isMachine :=
  get?_filter_items _ isMachine urn

theorem get?_assignments (urn : String) : (plan inputs).assignments.get? urn =
    (inputs.planned.machine.get? urn).or (inputs.user.get? urn) := by
  rw [plan, get?_update, get?_sorted]

/-- A listed candidate's entry is the server's, and no person placed it. -/
theorem listing_eq_some (listed : inputs.listing prev machine urn = some entry) :
    ∃ c layer, inputs.cands.get? urn = some c ∧ inputs.user.get? urn = none ∧
      inputs.home prev machine urn c = some layer ∧
      (c.member && inputs.insideWhole machine c layer) = false ∧
      entry = inputs.entryIn prev urn c layer := by
  obtain ⟨c, known, listed⟩ := bind_eq_some_iff.mp listed
  split at listed
  · cases listed
  · next free =>
      obtain ⟨layer, goes, listed⟩ := bind_eq_some_iff.mp listed
      split at listed
      · cases listed
      · next outside =>
          cases listed
          rw [Bool.not_eq_true, isSome_eq_false_iff, isNone_iff_eq_none] at free
          exact ⟨c, layer, known, free, goes, Bool.eq_false_iff.mpr outside, rfl⟩

theorem planned_eq_some (listed : inputs.planned.machine.get? urn = some entry) :
    inputs.user.get? urn = none ∧ isMachine entry = true := by
  cases known : inputs.cands.get? urn with
  | none =>
    rw [get?_planned_of_unknown known] at listed
    cases listed
  | some c =>
    rw [get?_planned (by rw [known, isSome_some])] at listed
    obtain ⟨c, layer, -, free, -, -, rfl⟩ := listing_eq_some listed
    exact ⟨free, isMachine_entryIn⟩

/-- Planning again finds the entries people placed. -/
theorem get?_user_again (urn : String) : inputs.again.user.get? urn = inputs.user.get? urn := by
  rw [get?_user]
  change ((plan inputs).assignments.get? urn).filter _ = _
  rw [get?_assignments]
  cases listed : inputs.planned.machine.get? urn with
  | some entry =>
    obtain ⟨free, machine⟩ := planned_eq_some listed
    rw [some_or, filter_some, machine, free]
    rfl
  | none =>
    rw [none_or, get?_user, Option.filter_filter]
    simp only [Bool.and_self]

theorem get?_old_again (urn : String) :
    inputs.again.old.get? urn = inputs.planned.machine.get? urn := by
  rw [get?_old]
  change ((plan inputs).assignments.get? urn).filter _ = _
  rw [get?_assignments]
  cases listed : inputs.planned.machine.get? urn with
  | some entry =>
    obtain ⟨-, machine⟩ := planned_eq_some listed
    rw [some_or, filter_some, if_pos machine]
  | none =>
    rw [get?_user]
    simp

theorem home_again_eq (agree : Agree machine' machine) :
    inputs.again.home prev machine' urn c = inputs.home prev machine urn c := by
  have drawn : inputs.again.nearest machine' c = inputs.nearest machine c := by
    rw [nearest]
    congr 1
    funext container
    rw [get?_user_again]
    have same : (machine'.get? container).bind inputs.layerOf =
        (machine.get? container).bind inputs.layerOf := agree.layerOf container
    have both := agree.isSome container
    cases listed' : machine'.get? container with
    | none =>
      rw [listed'] at both
      rw [isSome_eq_false_iff.mp both.symm |> isNone_iff_eq_none.mp]
      rfl
    | some entry' =>
      rw [listed'] at both
      obtain ⟨entry, listed⟩ := isSome_iff_exists.mp both.symm
      rw [listed', listed] at same
      rw [listed]
      exact same
  rw [home, drawn]
  rfl

/-- A member that the plan leaves out for the layer its old entry names: placed without that
entry, it would go somewhere else. -/
def Lingers (inputs : Inputs) (urn : String) : Prop :=
  ∃ c, inputs.cands.get? urn = some c ∧ inputs.user.get? urn = none ∧ c.member = true ∧
    (∃ layer, inputs.home (inputs.old.get? urn) (inputs.before urn) urn c = some layer ∧
      inputs.insideWhole (inputs.before urn) c layer = true) ∧
    ∃ layer, inputs.home none (inputs.before urn) urn c = some layer ∧
      inputs.insideWhole (inputs.before urn) c layer = false

theorem listing_again (agree : Agree machine' (inputs.before urn))
    (known : (inputs.cands.get? urn).isSome) :
    (Same? ((inputs.again.listing (inputs.again.old.get? urn) machine' urn).map Json.obj)
        ((inputs.planned.machine.get? urn).map Json.obj) ∧ ¬ inputs.Lingers urn) ∨
      ((inputs.again.listing (inputs.again.old.get? urn) machine' urn).isSome ∧
        inputs.planned.machine.get? urn = none ∧ inputs.Lingers urn) := by
  obtain ⟨c, known'⟩ := isSome_iff_exists.mp known
  have here : inputs.again.cands.get? urn = some c := known'
  have reads : inputs.again.listing (inputs.again.old.get? urn) machine' urn =
      if (inputs.user.get? urn).isSome then none
      else (inputs.home (inputs.planned.machine.get? urn) (inputs.before urn) urn c).bind
        fun layer => if c.member && inputs.insideWhole (inputs.before urn) c layer then none
          else some (inputs.again.entryIn (inputs.planned.machine.get? urn) urn c layer) := by
    rw [listing, here, bind_some, get?_user_again, get?_old_again, home_again_eq agree]
    congr 2
    funext layer
    have inside : inputs.again.insideWhole machine' c layer =
        inputs.insideWhole (inputs.before urn) c layer := agree.insideWhole
    rw [inside]
  have first := get?_planned known
  cases listed : inputs.planned.machine.get? urn with
  | some entry =>
    left
    rw [listed] at first reads
    obtain ⟨c', layer, isC, free, goes, outside, rfl⟩ := listing_eq_some first.symm
    obtain rfl : c = c' := some.inj (known'.symm.trans isC)
    rw [free] at reads
    rw [reads, home_again goes layerId_entryIn, bind_some]
    constructor
    · simp only [isSome_none, Bool.false_eq_true, if_false, outside, map_some, Json.eqBy?_some]
      exact Json.eqBy_obj_iff.mpr fun key => by
        rw [show inputs.again.entryIn _ urn c layer = inputs.entryIn _ urn c layer from rfl,
          get?_entryIn_again]
    · rintro ⟨c', isC', -, member, ⟨layer', goes', inside⟩, -⟩
      obtain rfl : c = c' := some.inj (known'.symm.trans isC')
      obtain rfl : layer = layer' := some.inj (goes.symm.trans goes')
      rw [member, inside] at outside
      cases outside
  | none =>
    rw [listed] at first reads
    rw [listing, known', bind_some] at first
    cases free : inputs.user.get? urn with
    | some entry =>
      left
      rw [free] at reads
      refine ⟨by rw [reads]; rfl, ?_⟩
      rintro ⟨-, -, unplaced, -⟩
      rw [free] at unplaced
      cases unplaced
    | none =>
      simp only [free, isSome_none, Bool.false_eq_true, if_false] at first reads
      cases goes : inputs.home (inputs.old.get? urn) (inputs.before urn) urn c with
      | none =>
        left
        rw [home_none goes, bind_none] at reads
        refine ⟨by rw [reads], ?_⟩
        rintro ⟨c', isC', -, -, ⟨layer, goes', -⟩, -⟩
        obtain rfl : c = c' := some.inj (known'.symm.trans isC')
        rw [goes] at goes'
        cases goes'
      | some layer =>
        rw [goes, bind_some] at first
        have inside : (c.member && inputs.insideWhole (inputs.before urn) c layer) =
            true := by
          by_contra outside
          rw [if_neg outside] at first
          cases first
        rw [Bool.and_eq_true] at inside
        cases goes' : inputs.home none (inputs.before urn) urn c with
        | none =>
          left
          rw [goes', bind_none] at reads
          refine ⟨by rw [reads], ?_⟩
          rintro ⟨c', isC', -, -, -, layer', goes'', -⟩
          obtain rfl : c = c' := some.inj (known'.symm.trans isC')
          rw [goes'] at goes''
          cases goes''
        | some layer' =>
          rw [goes', bind_some, inside.1, Bool.true_and] at reads
          cases inside' : inputs.insideWhole (inputs.before urn) c layer' with
          | true =>
            left
            rw [inside', if_pos rfl] at reads
            refine ⟨by rw [reads], ?_⟩
            rintro ⟨c', isC', -, -, -, layer'', goes'', outside⟩
            obtain rfl : c = c' := some.inj (known'.symm.trans isC')
            obtain rfl : layer' = layer'' := some.inj (goes'.symm.trans goes'')
            rw [inside'] at outside
            cases outside
          | false =>
            right
            rw [inside'] at reads
            refine ⟨by rw [reads]; rfl, rfl, c, known', free, inside.1,
              ⟨layer, goes, inside.2⟩, layer', goes', inside'⟩

/-- Planning again over the first candidates: the same entries so far, or one that was left out
the first time. -/
theorem plannedFor_again {front back : List String} (split : inputs.order = front ++ back) :
    (Agree (inputs.again.plannedFor front) (inputs.plannedFor front) ∧
        ∀ urn ∈ front, ¬ inputs.Lingers urn) ∨
      ∃ urn ∈ front, inputs.Lingers urn ∧ inputs.planned.machine.get? urn = none ∧
        ((inputs.again.plannedFor front).get? urn).isSome := by
  induction front using reverseRecOn generalizing back with
  | nil => exact .inl ⟨fun _ => Json.EqBy?.refl _, nofun⟩
  | append_singleton front last ih =>
    have split' : inputs.order = front ++ last :: back := by
      rw [split, append_assoc]
      rfl
    have nodup := nodup_cons.mp (nodup_middle.mp (split' ▸ inputs.nodup_order))
    rw [mem_append, not_or] at nodup
    have known : (inputs.cands.get? last).isSome := mem_order.mp (by simp [split'])
    rcases ih split' with ⟨agree, none⟩ | ⟨urn, mem, lingers, gone, listed⟩
    · have beforeLast : inputs.before last = inputs.plannedFor front := by
        rw [before, takeWhile_order split']
      have fresh : (inputs.plannedFor front).get? last = Option.none :=
        get?_plannedFor_of_notMem nodup.1.1
      have fresh' : (inputs.again.plannedFor front).get? last = Option.none :=
        get?_plannedFor_of_notMem nodup.1.1
      have final : (inputs.plannedFor (front ++ [last])).get? last =
          inputs.planned.machine.get? last := by
        rw [get?_plannedFor_append, if_pos rfl, fresh, or_none, get?_planned known, beforeLast]
      rcases listing_again (beforeLast ▸ agree) known with ⟨same, stays⟩ | ⟨listed, gone, lingers⟩
      · left
        constructor
        · intro key
          by_cases here : key = last
          · subst here
            rw [final, get?_plannedFor_append, if_pos rfl, fresh', or_none]
            exact same
          · rw [get?_plannedFor_append, get?_plannedFor_append, if_neg here, if_neg here]
            exact agree key
        · intro urn mem
          rcases mem_append.mp mem with mem | mem
          · exact none urn mem
          · rw [mem_singleton.mp mem]
            exact stays
      · right
        refine ⟨last, mem_append_right _ (mem_singleton_self _), lingers, gone, ?_⟩
        rw [get?_plannedFor_append, if_pos rfl, fresh', or_none]
        exact listed
    · right
      refine ⟨urn, mem_append_left _ mem, lingers, gone, ?_⟩
      rw [get?_plannedFor_append]
      split
      · next same =>
          subst same
          exact absurd mem nodup.1.1
      · exact listed

structure Settled (inputs : Inputs) : Prop where
  assignments : ∀ urn, Same? (((plan inputs.again).assignments.get? urn).map Json.obj)
    (((plan inputs).assignments.get? urn).map Json.obj)
  added : (plan inputs.again).added = []
  removed : (plan inputs.again).removed = []
  moved : (plan inputs.again).moved = []

theorem sortedKeys_eq_nil_iff {keys : List String} : Dict.sortedKeys keys = [] ↔ keys = [] := by
  rw [eq_nil_iff_forall_not_mem, eq_nil_iff_forall_not_mem]
  simp only [mem_sortedKeys]

/-- Updating a live view from unchanged data changes nothing, exactly when no member was left out
for the layer that its old entry named. -/
theorem plan_again_iff (inputs : Inputs) : inputs.Settled ↔ ∀ urn, ¬ inputs.Lingers urn := by
  have runs := plannedFor_again (append_nil inputs.order).symm
  constructor
  · intro settled urn lingers
    rcases runs with ⟨-, none⟩ | ⟨urn', -, -, gone, listed⟩
    · have known : (inputs.cands.get? urn).isSome := by
        obtain ⟨c, known, -⟩ := lingers
        rw [known, isSome_some]
      exact none urn (mem_order.mpr known) lingers
    · have added := settled.added
      rw [plan, sortedKeys_eq_nil_iff, eq_nil_iff_forall_not_mem] at added
      apply added urn'
      rw [mem_filter, get?_old_again, gone]
      exact ⟨Dict.mem_keys_iff.mpr listed, rfl⟩
  · intro none
    rcases runs with ⟨agree, -⟩ | ⟨urn, -, lingers, -⟩
    · have agree : Agree inputs.again.planned.machine inputs.planned.machine := agree
      constructor
      · intro urn
        rw [get?_assignments, get?_assignments, get?_user_again]
        have same := agree urn
        have both := agree.isSome urn
        cases listed : inputs.again.planned.machine.get? urn with
        | none =>
          rw [listed] at both
          rw [isNone_iff_eq_none.mp (isSome_eq_false_iff.mp both.symm)]
        | some entry =>
          rw [listed] at both
          obtain ⟨entry', listed'⟩ := isSome_iff_exists.mp both.symm
          rw [listed, listed'] at same
          rw [listed']
          exact same
      · rw [plan, sortedKeys_eq_nil_iff, filter_eq_nil_iff]
        intro urn mem
        rw [get?_old_again, isNone_iff_eq_none, ← not_isSome_iff_eq_none, not_not, ← agree.isSome]
        exact Dict.mem_keys_iff.mp mem
      · rw [plan, sortedKeys_eq_nil_iff, filter_eq_nil_iff]
        intro urn mem
        have listed := Dict.mem_keys_iff.mp mem
        rw [get?_old_again, ← agree.isSome] at listed
        rw [Bool.and_eq_true, not_and, isNone_iff_eq_none]
        intro unlisted
        rw [unlisted] at listed
        cases listed
      · rw [plan, sortedKeys_eq_nil_iff, filter_eq_nil_iff]
        intro urn mem
        rw [get?_old_again]
        cases listed : inputs.planned.machine.get? urn with
        | none => exact Bool.false_ne_true
        | some entry =>
          obtain ⟨c, known⟩ : ∃ c, inputs.cands.get? urn = some c := by
            by_contra unknown
            have gone := get?_planned_of_unknown
              (eq_none_iff_forall_ne_some.mpr fun c known => unknown ⟨c, known⟩)
            rw [listed] at gone
            cases gone
          have first := get?_planned (isSome_of_eq_some known)
          obtain ⟨c', layer, -, -, -, -, rfl⟩ := listing_eq_some (first.symm.trans listed)
          have text := (agree.text urn "layerId" layer).mpr (by
            rw [listed, bind_some, layerId_entryIn])
          rw [text]
          simp
    · exact absurd lingers (none urn)

/-- A dataset taken whole in one layer, and a table inside it that was in that layer and that the
layout's rule puts in another. -/
def regrouped : Inputs where
  cands := [("dataset", { urn := "dataset", member := true, whole := true }),
    ("table", { urn := "table", member := true, chain := ["dataset"] })]
  assignments := [("table", [("layerId", .str "core"), ("assignedBy", machineMark)])]
  layerIds := ["inbox", "core", "marts"]
  overrides := []
  placer := fun _ => [("dataset", some "core"), ("table", some "marts")]
  fallbackLayerId := none
  limit := 100

/-- The table is left out the first time, and is back in the other layer the second. -/
theorem plan_again_regrouped : ¬ ∀ inputs : Inputs, inputs.Settled := by
  intro settled
  have back : (plan regrouped.again).added = ["table"] := by decide +kernel
  rw [(settled regrouped).added] at back
  cases back

end Inputs

end DataViz.LiveView
