/-
# Who is in a live view

A live view is curated: placed over its entries, an entity of a forest is in the view through its
own entry, or when the nearest container above with an entry passes its layer down. So the plan's
members are all in the view, those it leaves out in the layer of the whole member around them,
exactly when no other entry on the way up interrupts that and the entry of each other member names a
layer.
-/

import DataViz.LiveView.PlanLaws
import DataViz.View.PlaceAllLaws

namespace DataViz.LiveView

open List Option Dict

open View (Entry ExplicitEntry Placement PlacementSpec KeptParent)

variable {urn : String} {Comparison : Type} {rules : List (View.CompiledRule Comparison)}
  {fallbackLayerId : Option String} {letters : Letters}
  {evaluate : Option Json → Comparison → Bool} {out : Dict String Placement}

structure Forest where
  entities : View.Entities
  named : ∀ urn facts, entities.facts.get? urn = some facts → facts.urn = urn
  parent : String → Option String
  chain : String → List String
  chain_eq : ∀ urn, chain urn = (parent urn).elim [] fun container => container :: chain container
  within : ∀ urn container, parent urn = some container → container ∈ entities.facts.keys

variable {forest : Forest}

/-- The parents as `place_all` is given them. -/
def Forest.parents (forest : Forest) : Dict String (List String) :=
  forest.entities.facts.map fun entry => (entry.1, (forest.parent entry.1).toList)

/-- An entry as the contract reads it: one without a layer is none. -/
def explicitEntry (entry : Entry) : Option ExplicitEntry :=
  match entry.get? "layerId" with
  | some (.scalar (.str layerId)) =>
    if layerId = "" then none
    else some ⟨layerId, entry.get? "inheritsChildren" ≠ some (.bool false)⟩
  | _ => none

/-- The curated contract over some assignments. In a curated view the rules and the fallback place
nothing. -/
def curated {Comparison : Type} (layerIds : List String) (assignments : Dict String Entry)
    (rules : List (View.CompiledRule Comparison)) (fallbackLayerId : Option String) :
    PlacementSpec Comparison where
  scope := .curated
  layerIds := layerIds.filter (· ≠ "")
  rules := rules
  explicit := Dict.ofKeys assignments.keys fun urn => (assignments.get? urn).bind explicitEntry
  fallbackLayerId := fallbackLayerId

/-- `Placement.member`: the tier that placed it is one of `MEMBER_SOURCES`. -/
def isMember (placement : Placement) : Bool :=
  placement.source ∈ [.explicit, .inherited, .stamped, .rule]

section

variable (layerIds : List String) (assignments : Dict String Entry)

def live (urn : String) : Option ExplicitEntry :=
  ((assignments.get? urn).bind explicitEntry).filter (·.layerId ∈ layerIds)

def passes (containers : List String) : Option String :=
  (containers.findSome? (live layerIds assignments)).bind fun entry =>
    if entry.inheritsChildren then some entry.layerId else none

variable {layerIds assignments}

theorem explicitEntry_named {stored : Entry} {entry : ExplicitEntry}
    (read : explicitEntry stored = some entry) : entry.layerId ≠ "" := by
  rw [explicitEntry] at read
  split at read
  · split at read
    · cases read
    · next named =>
        cases read
        exact named
  · cases read

theorem layerId_of_live {entry : ExplicitEntry}
    (lives : live layerIds assignments urn = some entry) :
    entry.layerId ≠ "" ∧ entry.layerId ∈ layerIds := by
  obtain ⟨read, mem⟩ := mem_filter_iff.mp lives
  obtain ⟨stored, -, read⟩ := bind_eq_some_iff.mp read
  exact ⟨explicitEntry_named read, of_decide_eq_true mem⟩

theorem layerId_of_passes {containers : List String} {layer : String}
    (passed : passes layerIds assignments containers = some layer) :
    layer ≠ "" ∧ layer ∈ layerIds := by
  obtain ⟨entry, nearest, passed⟩ := bind_eq_some_iff.mp passed
  obtain ⟨container, -, lives⟩ := exists_of_findSome?_eq_some nearest
  split at passed
  · cases passed
    exact layerId_of_live lives
  · cases passed

theorem passes_cons (urn : String) (containers : List String) :
    passes layerIds assignments (urn :: containers) = match live layerIds assignments urn with
      | some entry => if entry.inheritsChildren then some entry.layerId else none
      | none => passes layerIds assignments containers := by
  rw [passes, findSome?_cons]
  cases live layerIds assignments urn <;> rfl

theorem passes_congr {assignments' : Dict String Entry} {containers : List String}
    (same : ∀ container ∈ containers, assignments.get? container = assignments'.get? container) :
    passes layerIds assignments containers = passes layerIds assignments' containers := by
  induction containers with
  | nil => rfl
  | cons container above ih =>
    rw [passes_cons, passes_cons, ih fun other mem => same other (mem_cons_of_mem _ mem),
      live, live, same container (mem_cons_self ..)]

theorem get?_explicit : (curated layerIds assignments rules fallbackLayerId).explicit.get? urn =
    (assignments.get? urn).bind explicitEntry := by
  rw [curated, get?_ofKeys]
  split
  · rfl
  · next absent => rw [get?_eq_none_iff.mpr absent, bind_none]

theorem live_eq : live layerIds assignments urn =
    ((curated layerIds assignments rules fallbackLayerId).explicit.get? urn).filter
      (·.layerId ∈ (curated layerIds assignments rules fallbackLayerId).layerIds) := by
  rw [get?_explicit, live]
  cases read : (assignments.get? urn).bind explicitEntry with
  | none => rfl
  | some entry =>
    obtain ⟨stored, -, read⟩ := bind_eq_some_iff.mp read
    rw [filter_some, filter_some]
    simp [curated, explicitEntry_named read]

end

namespace Forest

theorem parentsIn_eq (known : urn ∈ forest.entities.facts.keys) :
    View.parentsIn forest.entities forest.parents urn = (forest.parent urn).toList := by
  obtain ⟨facts, here⟩ := isSome_iff_exists.mp (mem_keys_iff.mp known)
  have listed : forest.parents.get? urn = some (forest.parent urn).toList := by
    rw [parents, get?_map_value _ (fun urn _ => (forest.parent urn).toList), here, map_some]
  rw [View.parentsIn, if_pos known, listed, getD_some, filter_eq_self]
  intro container mem
  exact decide_eq_true (forest.within urn container (mem_toList.mp mem))

variable {container : String}

theorem chain_of_parent (up : forest.parent urn = some container) :
    forest.chain urn = container :: forest.chain container := by
  rw [forest.chain_eq urn, up]
  rfl

theorem chain_of_root (root : forest.parent urn = none) : forest.chain urn = [] := by
  rw [forest.chain_eq urn, root]
  rfl

theorem length_of_reach {first second : String}
    (path : Digraph.Reach (View.parentsIn forest.entities forest.parents) first second) :
    (forest.chain second).length ≤ (forest.chain first).length := by
  induction path with
  | refl => exact le_refl _
  | tail _ edge ih =>
    have known := (View.mem_of_mem_parentsIn edge).1
    rw [parentsIn_eq known, mem_toList] at edge
    rw [chain_of_parent edge] at ih
    exact Nat.le_of_succ_le ih

theorem keptParent_iff : KeptParent forest.entities forest.parents urn container ↔
      urn ∈ forest.entities.facts.keys ∧ forest.parent urn = some container := by
  constructor
  · rintro ⟨edge, -⟩
    have known := (View.mem_of_mem_parentsIn edge).1
    rw [parentsIn_eq known, mem_toList] at edge
    exact ⟨known, edge⟩
  · rintro ⟨known, up⟩
    refine ⟨?_, fun connected => ?_⟩
    · rw [parentsIn_eq known, mem_toList]
      exact up
    · have back := length_of_reach connected.2
      rw [chain_of_parent up] at back
      exact absurd back (Nat.not_succ_le_self _)

variable {layerIds : List String} {assignments : Dict String Entry}

/-- Where an entity of the forest is, and what it passes down. -/
structure Fate (layerIds : List String) (assignments : Dict String Entry) (forest : Forest)
    (urn : String) (placement : Placement) : Prop where
  layerId : placement.layerId = ((live layerIds assignments urn).map (·.layerId)).or
    (passes layerIds assignments (forest.chain urn))
  member : isMember placement = placement.layerId.isSome
  cascade : placement.cascade =
    (passes layerIds assignments (urn :: forest.chain urn)).map fun _ => .hand

theorem contextOf_fate {placement : Placement}
    (fate : Fate layerIds assignments forest container placement) :
    View.contextOf container placement =
      (passes layerIds assignments (container :: forest.chain container)).map
        fun layer => ⟨container, layer, some .hand⟩ := by
  cases passed : passes layerIds assignments (container :: forest.chain container) with
  | none => simp [View.contextOf, fate.cascade, passed]
  | some layer =>
    have there : placement.layerId = some layer := by
      rw [fate.layerId]
      rw [passes_cons] at passed
      cases lives : live layerIds assignments container with
      | none => rwa [lives] at passed
      | some entry =>
        rw [lives] at passed
        dsimp only at passed
        split at passed
        · exact passed
        · cases passed
    rw [View.contextOf_eq_some there (layerId_of_passes passed).1
      (by rw [fate.cascade, passed, map_some]), map_some]

/-- One entity, from what its container passes down. -/
theorem fate_place {facts : View.NodeFacts} (same : facts.urn = urn)
    (contexts : List View.ParentContext)
    (offered : contexts = (passes layerIds assignments (forest.chain urn)).toList.map
      fun layer => ⟨((forest.parent urn).getD ""), layer, some .hand⟩) :
    Fate layerIds assignments forest urn (View.place letters evaluate
      (curated layerIds assignments rules fallbackLayerId) facts contexts false) := by
  rw [View.place, same, ← live_eq]
  cases here : live layerIds assignments urn with
  | some entry =>
    constructor
    · rw [here]
      rfl
    · rfl
    · rw [passes_cons, here]
      dsimp only
      split <;> rfl
  | none =>
    have down : passes layerIds assignments (urn :: forest.chain urn) =
        passes layerIds assignments (forest.chain urn) := by
      rw [passes_cons, here]
    cases passed : passes layerIds assignments (forest.chain urn) with
    | none =>
      rw [passed] at offered
      subst offered
      constructor
      · rw [here, passed]
        rfl
      · rfl
      · rw [down, passed]
        rfl
    | some layer =>
      rw [passed, toList_some, map_cons, map_nil] at offered
      subst offered
      have inView : layer ∈ (curated layerIds assignments rules fallbackLayerId).layerIds := by
        obtain ⟨named, mem⟩ := layerId_of_passes passed
        exact mem_filter.mpr ⟨mem, decide_eq_true named⟩
      have one : [(⟨(forest.parent urn).getD "", layer, some .hand⟩ : View.ParentContext)].filter
          (·.layerId ∈ (curated layerIds assignments rules fallbackLayerId).layerIds) =
            [⟨(forest.parent urn).getD "", layer, some .hand⟩] :=
        filter_cons_of_pos (decide_eq_true inView)
      rw [one]
      constructor
      · rw [here, passed]
        rfl
      · rfl
      · rw [down, passed]
        rfl

/-- Every entity of the forest has its fate. By induction on how far down it is. -/
theorem fate_of_solves (solves : View.Solves letters evaluate
    (curated layerIds assignments rules fallbackLayerId) forest.entities forest.parents [] out)
    (known : urn ∈ forest.entities.facts.keys) :
    ∃ placement, out.get? urn = some placement ∧
      Fate layerIds assignments forest urn placement := by
  induction steps : (forest.chain urn).length generalizing urn with
  | zero =>
    obtain ⟨facts, here⟩ := isSome_iff_exists.mp (mem_keys_iff.mp known)
    obtain ⟨ps, -, kept, placed⟩ := solves.placed urn facts here
    have root : forest.chain urn = [] := eq_nil_of_length_eq_zero steps
    have none : ps = [] := by
      rw [eq_nil_iff_forall_not_mem]
      intro container mem
      have up := (keptParent_iff.mp ((kept container).mp mem)).2
      rw [chain_of_parent up] at root
      cases root
    refine ⟨_, placed, ?_⟩
    apply fate_place (forest.named urn facts here)
    rw [none, root]
    rfl
  | succ steps' ih =>
    obtain ⟨facts, here⟩ := isSome_iff_exists.mp (mem_keys_iff.mp known)
    obtain ⟨ps, sorted, kept, placed⟩ := solves.placed urn facts here
    cases up : forest.parent urn with
    | none =>
      rw [chain_of_root up] at steps
      cases steps
    | some container =>
      have chain := chain_of_parent up
      obtain ⟨above, found, fate⟩ := ih (forest.within urn container up) (by
        rw [chain] at steps
        exact Nat.succ.inj steps)
      have only : ps = [container] := by
        have mem : ∀ p, p ∈ ps ↔ p = container := by
          intro p
          rw [kept, keptParent_iff, up, some.injEq, eq_comm]
          exact and_iff_right known
        have perm : ps.Perm [container] := by
          rw [perm_ext_iff_of_nodup (sorted.imp fun less => less.ne) (nodup_singleton _)]
          intro p
          rw [mem, mem_singleton]
        exact perm_singleton.mp perm
      refine ⟨_, placed, ?_⟩
      apply fate_place (forest.named urn facts here)
      rw [only, View.offered, flatMap_cons, flatMap_nil, append_nil, found,
        bind_some, contextOf_fate fate, chain, up, getD_some]
      cases passes layerIds assignments (container :: forest.chain container) <;> rfl

end Forest

def OnForest (forest : Forest) (cands : Dict String Candidate) : Prop :=
  ∀ entry ∈ cands, entry.1 ∈ forest.entities.facts.keys ∧ entry.2.chain = forest.chain entry.1

section

variable {cands : Dict String Candidate}

theorem OnForest.set {c : Candidate} (on : OnForest forest cands)
    (known : urn ∈ forest.entities.facts.keys) (chain : c.chain = forest.chain urn) :
    OnForest forest (cands.set urn c) := by
  intro entry mem
  rcases eq_or_mem_of_mem_set mem with rfl | mem
  · exact ⟨known, chain⟩
  · exact on entry mem

theorem OnForest.addMember {source : Resolved} (on : OnForest forest cands)
    (known : urn ∈ forest.entities.facts.keys)
    (chain : (source.chains.get? urn).getD [] = forest.chain urn) :
    OnForest forest (addMember source cands urn) := by
  rw [LiveView.addMember]
  split
  · exact on.set known chain
  · next prev here =>
      split
      · exact on.set known (on (urn, prev) (mem_of_get? here)).2
      · exact on

/-- By induction on the path, from the entity it leads up from. -/
theorem OnForest.addContainers {exclude : List String} (on : OnForest forest cands) :
    OnForest forest (addContainers exclude (forest.chain urn) cands) := by
  induction steps : (forest.chain urn).length generalizing urn cands with
  | zero =>
    rw [eq_nil_of_length_eq_zero steps]
    exact on
  | succ steps' ih =>
    cases up : forest.parent urn with
    | none =>
      rw [Forest.chain_of_root up]
      exact on
    | some container =>
      rw [Forest.chain_of_parent up] at steps ⊢
      rw [LiveView.addContainers]
      split
      · exact on
      · split
        · exact ih on (Nat.succ.inj steps)
        · exact ih (on.set (forest.within urn container up) rfl) (Nat.succ.inj steps)

theorem onForest_candidates {results : List Resolved} (nest : Bool) (exclude : List String)
    (resolved : ∀ source ∈ results, ∀ urn ∈ source.members, urn ∈ forest.entities.facts.keys ∧
      (source.chains.get? urn).getD [] = forest.chain urn) :
    OnForest forest (candidates results nest exclude) := by
  have members : OnForest forest (results.foldl (fun out source =>
        (source.members.filter fun urn => decide (urn ∉ exclude)).foldl (addMember source) out)
          []) := by
    apply foldlRecOn
    · intro entry mem
      cases mem
    · intro cands on source listed
      apply foldlRecOn
      · exact on
      · intro cands on urn mem
        obtain ⟨known, chain⟩ := resolved source listed urn (mem_filter.mp mem).1
        exact on.addMember known chain
  rw [candidates]
  split
  · apply foldlRecOn
    · exact members
    · intro cands on c mem
      obtain ⟨entry, listed, rfl⟩ := mem_map.mp mem
      rw [(members entry listed).2]
      exact on.addContainers
  · exact members

end

namespace Inputs

variable {inputs : Inputs} {c : Candidate} {layer : String}

structure Follows (inputs : Inputs) (forest : Forest) : Prop where
  known : ∀ urn c, inputs.cands.get? urn = some c → urn ∈ forest.entities.facts.keys
  chain : ∀ urn c, inputs.cands.get? urn = some c → c.chain = forest.chain urn

/-- The entries when the plan comes to a candidate: people's, and the server's so far. -/
def entriesBefore (inputs : Inputs) (urn : String) : Dict String Entry :=
  inputs.user.update (inputs.before urn)

theorem OnForest.follows (on : OnForest forest inputs.cands) : inputs.Follows forest where
  known urn c here := (on (urn, c) (mem_of_get? here)).1
  chain urn c here := (on (urn, c) (mem_of_get? here)).2

/-- A member that the plan leaves out, because a whole member around it is in its layer. -/
structure LeftOut (inputs : Inputs) (urn : String) (c : Candidate) (layer : String) : Prop where
  known : inputs.cands.get? urn = some c
  member : c.member = true
  free : inputs.user.get? urn = none
  goes : inputs.home (inputs.old.get? urn) (inputs.before urn) urn c = some layer
  inside : inputs.insideWhole (inputs.before urn) c layer = true

theorem pairwise_order : inputs.order.Pairwise fun first second =>
    ((inputs.cands.get? first).map (·.chain.length)).getD 0 ≤
      ((inputs.cands.get? second).map (·.chain.length)).getD 0 := by
  let depth (urn : String) : ℕ := ((inputs.cands.get? urn).map (·.chain.length)).getD 0
  exact pairwise_insertionSort (fun first second => depth first ≤ depth second) _

theorem length_chain_lt {container : String} (above : container ∈ forest.chain urn) :
    (forest.chain container).length < (forest.chain urn).length := by
  induction steps : (forest.chain urn).length generalizing urn with
  | zero =>
    rw [eq_nil_of_length_eq_zero steps] at above
    cases above
  | succ steps' ih =>
    cases up : forest.parent urn with
    | none =>
      rw [Forest.chain_of_root up] at above
      cases above
    | some parent =>
      rw [Forest.chain_of_parent up] at above steps
      have steps := Nat.succ.inj steps
      rcases mem_cons.mp above with rfl | above
      · rw [steps]
        exact Nat.lt_succ_self _
      · exact Nat.lt_succ_of_lt (ih above steps)

/-- When the plan comes to a candidate, the entries of its containers stand. -/
theorem get?_before (follows : inputs.Follows forest) (known : inputs.cands.get? urn = some c)
    {container : String} (above : container ∈ c.chain) :
    (inputs.before urn).get? container = inputs.planned.machine.get? container := by
  obtain ⟨front, back, split⟩ :=
    append_of_mem (mem_order.mpr (isSome_of_eq_some known))
  rw [before, takeWhile_order split]
  cases drawn : inputs.cands.get? container with
  | none =>
    rw [get?_planned_of_unknown drawn, get?_plannedFor_of_notMem]
    intro mem
    have some' := mem_order.mp (split ▸ mem_append_left _ mem)
    rw [drawn] at some'
    cases some'
  | some container' =>
    have shorter : container'.chain.length < c.chain.length := by
      rw [follows.chain _ _ drawn, follows.chain _ _ known]
      exact length_chain_lt (follows.chain _ _ known ▸ above)
    have first : container ∈ front := by
      have mem : container ∈ inputs.order :=
        mem_order.mpr (isSome_of_eq_some drawn)
      rw [split, mem_append] at mem
      refine mem.resolve_right fun late => ?_
      have sorted := inputs.pairwise_order
      rw [split] at sorted
      rcases mem_cons.mp late with rfl | late
      · rw [drawn] at known
        cases known
        exact lt_irrefl _ shorter
      · have le := rel_of_pairwise_cons (pairwise_append.mp sorted).2.1 late
        rw [known, drawn] at le
        exact absurd shorter (Nat.not_lt.mpr le)
    obtain ⟨front', back', split'⟩ := append_of_mem first
    have whole : inputs.order = front' ++ container :: (back' ++ urn :: back) := by
      rw [split, split', append_assoc, cons_append]
    have nodup := nodup_cons.mp (nodup_middle.mp (whole ▸ inputs.nodup_order))
    rw [mem_append, mem_append, not_or, not_or] at nodup
    rw [get?_planned (isSome_of_eq_some drawn), before, takeWhile_order whole, split',
      get?_plannedFor_of_mem nodup.1.1 nodup.1.2.1]

theorem passes_plan (follows : inputs.Follows forest) (known : inputs.cands.get? urn = some c) :
    passes inputs.layerIds (plan inputs).assignments (forest.chain urn) =
      passes inputs.layerIds (inputs.entriesBefore urn) c.chain := by
  rw [follows.chain _ _ known]
  apply passes_congr
  intro container above
  rw [← follows.chain _ _ known] at above
  rw [get?_assignments, entriesBefore, get?_update, get?_before follows known above]

theorem home_of_member (layers : inputs.layerIds ≠ []) (member : c.member = true)
    (prev : Option Entry) (machine : Dict String Entry) :
    ∃ layer, inputs.home prev machine urn c = some layer := by
  have waits : inputs.fallbackLayer.isSome := by
    rw [fallbackLayer, isSome_or, Bool.or_eq_true]
    right
    rw [isSome_head?]
    exact layers
  rw [← isSome_iff_exists, home, if_pos member, isSome_or, isSome_or, waits,
    Bool.or_true, Bool.or_true]

/-- The entry of a member that no person placed, where the view reads one. -/
theorem live_plan (known : inputs.cands.get? urn = some c) (member : c.member = true)
    (free : inputs.user.get? urn = none)
    (goes : inputs.home (inputs.old.get? urn) (inputs.before urn) urn c = some layer) :
    live inputs.layerIds (plan inputs).assignments urn =
      if inputs.insideWhole (inputs.before urn) c layer = true ∨ layer = "" then none
      else some ⟨layer, c.whole⟩ := by
  rw [live, get?_assignments, free, or_none, get?_planned (isSome_of_eq_some known),
    listing, known, bind_some, free, if_neg (show ¬ (none : Option Entry).isSome = true from
      Bool.false_ne_true), goes, bind_some, member, Bool.true_and]
  by_cases inside : inputs.insideWhole (inputs.before urn) c layer = true
  · rw [if_pos (Or.inl inside), if_pos inside]
    rfl
  · rw [if_neg inside, bind_some]
    have read : explicitEntry (inputs.entryIn (inputs.old.get? urn) urn c layer) =
        if layer = "" then none else some ⟨layer, c.whole⟩ := by
      rw [explicitEntry, layerId_entryIn, inheritsChildren_entryIn]
      cases c.whole <;> rfl
    have mem : decide (layer ∈ inputs.layerIds) = true := decide_eq_true (home_mem goes)
    rw [read]
    by_cases nameless : layer = ""
    · rw [if_pos nameless, if_pos (Or.inr nameless), filter_none]
    · rw [if_neg nameless, if_neg (not_or.mpr ⟨inside, nameless⟩), filter_some, if_pos mem]

/-- The view holds exactly the plan's members: each of them, a member left out in the layer of the
whole member around it; of other entities, containers with an entry, those a person placed, and
what is under an entry that cascades. -/
structure HoldsMembers (inputs : Inputs) (forest : Forest) (out : Dict String Placement) :
    Prop where
  members : ∀ urn c, inputs.cands.get? urn = some c → c.member = true →
    ∃ placement, out.get? urn = some placement ∧ isMember placement = true
  leftOut : ∀ urn c layer, inputs.LeftOut urn c layer →
    ∃ placement, out.get? urn = some placement ∧ placement.layerId = some layer
  others : ∀ urn placement, urn ∈ forest.entities.facts.keys → out.get? urn = some placement →
    isMember placement = true → (∃ c, inputs.cands.get? urn = some c ∧
        (c.member = true ∨ ∃ entry, (plan inputs).assignments.get? urn = some entry)) ∨
      (∃ entry, inputs.user.get? urn = some entry) ∨
      ∃ container ∈ forest.chain urn, ∃ entry,
        (plan inputs).assignments.get? container = some entry ∧
          entry.get? "inheritsChildren" ≠ some (.bool false)

/-- Every member comes to a layer when the plan comes to it. -/
structure Reached (inputs : Inputs) : Prop where
  leftOut : ∀ urn c layer, inputs.LeftOut urn c layer →
    passes inputs.layerIds (inputs.entriesBefore urn) c.chain = some layer
  nameless : ∀ urn c, inputs.cands.get? urn = some c → c.member = true →
    inputs.user.get? urn = none →
      inputs.home (inputs.old.get? urn) (inputs.before urn) urn c = some "" →
        (passes inputs.layerIds (inputs.entriesBefore urn) c.chain).isSome
  byHand : ∀ urn c entry, inputs.cands.get? urn = some c → c.member = true →
    inputs.user.get? urn = some entry →
      ((explicitEntry entry).filter (·.layerId ∈ inputs.layerIds)).isSome ∨
        (passes inputs.layerIds (inputs.entriesBefore urn) c.chain).isSome

theorem live_of_user {entry : Entry} (byHand : inputs.user.get? urn = some entry) :
    live inputs.layerIds (plan inputs).assignments urn =
      (explicitEntry entry).filter (·.layerId ∈ inputs.layerIds) := by
  have unlisted : inputs.planned.machine.get? urn = none := by
    rw [eq_none_iff_forall_ne_some]
    intro other listed
    rw [(planned_eq_some listed).1] at byHand
    cases byHand
  rw [live, get?_assignments, unlisted, byHand, none_or, bind_some]

section

theorem others_of_solves (solves : View.Solves letters evaluate
    (curated inputs.layerIds (plan inputs).assignments rules fallbackLayerId) forest.entities
    forest.parents [] out) {placement : Placement} (known : urn ∈ forest.entities.facts.keys)
    (placed : out.get? urn = some placement) (member : isMember placement = true) :
    (∃ c, inputs.cands.get? urn = some c ∧
      (c.member = true ∨ ∃ entry, (plan inputs).assignments.get? urn = some entry)) ∨
    (∃ entry, inputs.user.get? urn = some entry) ∨
    ∃ container ∈ forest.chain urn, ∃ entry, (plan inputs).assignments.get? container = some entry ∧
        entry.get? "inheritsChildren" ≠ some (.bool false) := by
  obtain ⟨placement', placed', fate⟩ := Forest.fate_of_solves solves known
  rw [placed] at placed'
  cases placed'
  rw [fate.member, fate.layerId, isSome_or, Bool.or_eq_true, isSome_map] at member
  rcases member with own | down
  · obtain ⟨entry, own⟩ := isSome_iff_exists.mp own
    obtain ⟨stored, here, -⟩ := bind_eq_some_iff.mp (mem_filter_iff.mp own).1
    cases drawn : inputs.cands.get? urn with
    | some c => exact Or.inl ⟨c, rfl, Or.inr ⟨stored, here⟩⟩
    | none =>
      rw [get?_assignments, get?_planned_of_unknown drawn] at here
      exact Or.inr (Or.inl ⟨stored, here⟩)
  · obtain ⟨layer, down⟩ := isSome_iff_exists.mp down
    obtain ⟨entry, nearest, down⟩ := bind_eq_some_iff.mp down
    obtain ⟨container, above, own⟩ := exists_of_findSome?_eq_some nearest
    obtain ⟨stored, here, read⟩ := bind_eq_some_iff.mp (mem_filter_iff.mp own).1
    refine Or.inr (Or.inr ⟨container, above, stored, here, fun closed => ?_⟩)
    rw [explicitEntry, closed] at read
    split at read
    · split at read <;> cases read
      cases down
    · cases read

theorem isMember_iff (solves : View.Solves letters evaluate
    (curated inputs.layerIds (plan inputs).assignments rules fallbackLayerId) forest.entities
    forest.parents [] out) (follows : inputs.Follows forest)
    (known : inputs.cands.get? urn = some c) :
    (∃ placement, out.get? urn = some placement ∧ isMember placement = true) ↔
      (live inputs.layerIds (plan inputs).assignments urn).isSome ∨
        (passes inputs.layerIds (inputs.entriesBefore urn) c.chain).isSome := by
  obtain ⟨placement, placed, fate⟩ := Forest.fate_of_solves solves (follows.known _ _ known)
  rw [placed, ← passes_plan follows known, ← isSome_map (f := (·.layerId)),
    ← Bool.or_eq_true, ← isSome_or, ← fate.layerId, ← fate.member]
  simp

/-- The live view holds exactly its members, exactly when every member comes to a layer. -/
theorem holdsMembers_iff (follows : inputs.Follows forest) (layers : inputs.layerIds ≠ [])
    (letters : Letters) (evaluate : Option Json → Comparison → Bool)
    (rules : List (View.CompiledRule Comparison)) (fallbackLayerId : Option String) :
    (∃ out, View.placeAll forest.entities forest.parents letters evaluate
      (curated inputs.layerIds (plan inputs).assignments rules fallbackLayerId) [] = some out ∧
        inputs.HoldsMembers forest out) ↔ inputs.Reached := by
  obtain ⟨out, ran, greedily⟩ := View.placeAll_greedilySolves letters evaluate
    (curated inputs.layerIds (plan inputs).assignments rules fallbackLayerId) forest.entities
    forest.parents []
  have solves := greedily.toSolves
  constructor
  · rintro ⟨out', ran', holds⟩
    rw [ran] at ran'
    cases ran'
    constructor
    · intro urn c layer left
      obtain ⟨placement, placed, there⟩ := holds.leftOut urn c layer left
      obtain ⟨placement', placed', fate⟩ :=
        Forest.fate_of_solves solves (follows.known _ _ left.known)
      rw [placed] at placed'
      cases placed'
      rw [fate.layerId, live_plan left.known left.member left.free left.goes,
        if_pos (Or.inl left.inside), map_none, none_or,
        passes_plan follows left.known] at there
      exact there
    · intro urn c known member free goes
      have either := (isMember_iff solves follows known).mp (holds.members urn c known member)
      rw [live_plan known member free goes, if_pos (Or.inr rfl)] at either
      exact either.resolve_left Bool.false_ne_true
    · intro urn c entry known member byHand
      have either := (isMember_iff solves follows known).mp (holds.members urn c known member)
      rwa [live_of_user byHand] at either
  · intro reached
    refine ⟨out, ran, ?_, ?_, fun urn placement => others_of_solves solves⟩
    · intro urn c known member
      apply (isMember_iff solves follows known).mpr
      cases byHand : inputs.user.get? urn with
      | some entry =>
        rw [live_of_user byHand]
        exact reached.byHand urn c entry known member byHand
      | none =>
        obtain ⟨layer, goes⟩ := home_of_member layers member (inputs.old.get? urn)
          (inputs.before urn)
        rw [live_plan known member byHand goes]
        by_cases inside : inputs.insideWhole (inputs.before urn) c layer = true
        · right
          rw [reached.leftOut urn c layer ⟨known, member, byHand, goes, inside⟩]
          rfl
        · by_cases nameless : layer = ""
          · rw [nameless] at goes
            exact Or.inr (reached.nameless urn c known member byHand goes)
          · rw [if_neg (not_or.mpr ⟨inside, nameless⟩)]
            exact Or.inl rfl
    · intro urn c layer left
      obtain ⟨placement, placed, fate⟩ :=
        Forest.fate_of_solves solves (follows.known _ _ left.known)
      refine ⟨placement, placed, ?_⟩
      rw [fate.layerId, live_plan left.known left.member left.free left.goes,
        if_pos (Or.inl left.inside), map_none, none_or,
        passes_plan follows left.known]
      exact reached.leftOut urn c layer left

end

def nested : Forest where
  entities :=
    { facts := ["dataset", "schema", "table"].map fun urn => (urn, ⟨urn, "", none, [], [], none⟩)
      nodup := by decide }
  named urn facts here := by
    have mem := Dict.mem_of_get? here
    rw [List.mem_map] at mem
    obtain ⟨urn', -, same⟩ := mem
    cases same
    rfl
  parent urn :=
    if urn = "table" then some "schema" else if urn = "schema" then some "dataset" else none
  chain urn :=
    if urn = "table" then ["schema", "dataset"] else if urn = "schema" then ["dataset"] else []
  chain_eq urn := by
    by_cases table : urn = "table"
    · rw [if_pos table, if_pos table]
      rfl
    · rw [if_neg table, if_neg table]
      by_cases schema : urn = "schema"
      · rw [if_pos schema, if_pos schema]
        rfl
      · rw [if_neg schema, if_neg schema]
        rfl
  within urn container up := by
    have known : container = "schema" ∨ container = "dataset" := by
      split at up
      · exact Or.inl (Option.some.inj up).symm
      · split at up
        · exact Or.inr (Option.some.inj up).symm
        · cases up
    rcases known with rfl | rfl <;> decide

/-- A query over the dataset with everything inside it. Its schema is drawn where the layout's own
rule puts it. -/
def dataset (rule : Dict String (Option String)) : Inputs where
  cands := candidates [⟨some "core", ["dataset", "table"], ["dataset"],
    [("table", ["schema", "dataset"])]⟩] true []
  assignments := []
  layerIds := ["inbox", "core"]
  overrides := []
  placer := fun _ => rule
  fallbackLayerId := none
  limit := 100

theorem dataset_follows (rule : Dict String (Option String)) : (dataset rule).Follows nested := by
  apply OnForest.follows
  show OnForest nested (candidates _ true [])
  apply onForest_candidates
  decide +kernel

/-- Where no rule places the schema, the table comes with the dataset. -/
theorem dataset_holdsMembers :
    ∃ out, View.placeAll nested.entities nested.parents Letters.ascii (fun _ (_ : Unit) => false)
      (curated (dataset []).layerIds (plan (dataset [])).assignments [] none) [] = some out ∧
        (dataset []).HoldsMembers nested out := by
  apply (holdsMembers_iff (dataset_follows []) (by decide) Letters.ascii
    (fun _ (_ : Unit) => false) [] none).mpr
  have follows := dataset_follows []
  have goes : ∀ urn ∈ nested.entities.facts.keys, ((dataset []).cands.get? urn).bind (fun c =>
      (dataset []).home ((dataset []).old.get? urn) ((dataset []).before urn) urn c) =
        some "core" ∨ urn = "schema" := by
    decide +kernel
  constructor
  · intro urn c layer left
    have known := follows.known urn c left.known
    have goes := goes urn known
    rw [left.known, bind_some, left.goes] at goes
    rw [follows.chain urn c left.known]
    have listed : urn = "dataset" ∨ urn = "schema" ∨ urn = "table" := by
      simpa [nested, Dict.keys] using known
    rcases listed with rfl | rfl | rfl
    · have inside := left.inside
      rw [insideWhole, follows.chain _ _ left.known] at inside
      cases inside
    · have container : ((dataset []).cands.get? "schema").all (·.member) = false := by
        decide +kernel
      rw [left.known, all_some, left.member] at container
      cases container
    · rw [goes.resolve_right (by decide)]
      decide +kernel
  · intro urn c known member free nameless
    rcases goes urn (follows.known urn c known) with core | rfl
    · rw [known, bind_some, nameless] at core
      exact absurd core (by decide)
    · have container : ((dataset []).cands.get? "schema").all (·.member) = false := by
        decide +kernel
      rw [known, all_some, member] at container
      cases container
  · intro urn c entry known member byHand
    cases byHand

/-- Where one does, the schema's own entry keeps from the table what the dataset passes down. -/
theorem not_holdsMembers_schema : ¬ ∀ (inputs : Inputs) (forest : Forest),
    inputs.Follows forest → inputs.layerIds ≠ [] →
      ∀ (letters : Letters) (evaluate : Option Json → Unit → Bool)
        (rules : List (View.CompiledRule Unit)) (fallbackLayerId : Option String),
        ∃ out, View.placeAll forest.entities forest.parents letters evaluate
          (curated inputs.layerIds (plan inputs).assignments rules fallbackLayerId) [] = some out ∧
            inputs.HoldsMembers forest out := by
  intro holds
  obtain ⟨out, ran, held⟩ := holds (dataset [("schema", some "core")]) nested (dataset_follows _)
    (by decide) Letters.ascii (fun _ _ => false) [] none
  obtain ⟨out', ran', greedily⟩ := View.placeAll_greedilySolves Letters.ascii (fun _ _ => false)
    (curated (dataset [("schema", some "core")]).layerIds
      (plan (dataset [("schema", some "core")])).assignments [] none) nested.entities
    nested.parents []
  rw [ran] at ran'
  cases ran'
  have table : ((dataset [("schema", some "core")]).cands.get? "table").any (·.member) = true := by
    decide +kernel
  obtain ⟨c, known, member⟩ := (any_eq_true _ _).mp table
  have either := (isMember_iff greedily.toSolves (dataset_follows _) known).mp
    (held.members "table" c known member)
  rw [← passes_plan (dataset_follows _) known] at either
  revert either
  decide +kernel

end Inputs

end DataViz.LiveView
