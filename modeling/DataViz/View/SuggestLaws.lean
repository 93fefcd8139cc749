/-
# A suggested placement takes effect

What a suggestion names is a layer of the view, and once it is written `place` puts the entity
there. A pin moves no entity but the pinned one and those that inherit from it; of the others only
the mark that their parents disagree can change.
-/

import DataViz.View.PlaceAllLaws
import DataViz.View.Suggest

namespace DataViz.View

open List Option

variable {letters : Letters} {Comparison : Type} {evaluate : Option Json → Comparison → Bool}

section

variable {spec : PlacementSpec Comparison} {facts : NodeFacts}

theorem place_pinned {layer : String} (inView : layer ∈ spec.layerIds) (inherits : Bool)
    (parents : List ParentContext) (created : Bool) :
    place letters evaluate (spec.pinned facts.urn layer inherits) facts parents created =
      { layerId := some layer
        source := .explicit
        cascade := if inherits then some .hand else none } := by
  have entry : ((spec.pinned facts.urn layer inherits).explicit.get? facts.urn).filter
      (·.layerId ∈ spec.layerIds) = some ⟨layer, inherits⟩ := by
    rw [PlacementSpec.pinned, Dict.get?_set_self, filter_some, if_pos (decide_eq_true inView)]
  unfold place
  dsimp only
  rw [show (spec.pinned facts.urn layer inherits).layerIds = spec.layerIds from rfl, entry]

theorem place_open (open_ : spec.scope ≠ .curated) (parents : List ParentContext) (created : Bool) :
    place letters evaluate spec facts parents created =
      place letters evaluate spec facts parents false := by
  unfold place
  simp only [if_neg open_]

theorem inherit_nil (cascade : Cascade) (stale : Bool) : inherit [] cascade stale = none := rfl

theorem layer_of_member (ruleLayers : ∀ rule ∈ spec.rules, rule.layerId ∈ spec.layerIds)
    (created : Bool) (member : (place letters evaluate spec facts [] created).member = true) :
    ∃ layer ∈ spec.layerIds,
      (place letters evaluate spec facts [] created).layerId = some layer := by
  have stamped : truthy (facts.stamp.filter (· ∈ spec.layerIds)) = true →
      ∃ layer ∈ spec.layerIds, facts.stamp.filter (· ∈ spec.layerIds) = some layer := by
    intro there
    obtain ⟨layer, is, -⟩ := Option.any_eq_true _ _ |>.mp there
    exact ⟨layer, of_decide_eq_true (filter_eq_some_iff.mp is).2, is⟩
  revert member
  unfold place placeSoft
  dsimp only
  rw [filter_nil, inherit_nil, inherit_nil]
  cases entry : (spec.explicit.get? facts.urn).filter (·.layerId ∈ spec.layerIds) with
  | some e => exact fun _ => ⟨_, of_decide_eq_true (filter_eq_some_iff.mp entry).2, rfl⟩
  | none =>
    dsimp only
    split
    next =>
      split
      next created => exact fun _ => stamped (Bool.and_eq_true_iff.mp created).2
      next => exact nofun
    next =>
      split
      next there => exact fun _ => stamped there
      next =>
        cases found : (spec.rulesFor letters facts.entityType).find?
            (·.matches letters evaluate facts) with
        | some rule =>
          have mem := (mem_filter.mp (mem_of_find?_eq_some found)).1
          exact fun _ => ⟨rule.layerId, ruleLayers rule mem, rfl⟩
        | none =>
          dsimp only
          split <;> exact nofun

/-- A root entity in the open view. -/
theorem place_withScope_all : place letters evaluate (spec.withScope .all) facts [] false =
      match (spec.explicit.get? facts.urn).filter (·.layerId ∈ spec.layerIds) with
      | some entry =>
        { layerId := some entry.layerId
          source := .explicit
          cascade := if entry.inheritsChildren then some .hand else none }
      | none =>
        placeSoft letters evaluate spec facts []
          ((spec.explicit.get? facts.urn).any (·.layerId ∉ spec.layerIds))
          (facts.stamp.filter (· ∈ spec.layerIds)) := rfl

/-- A member of a view is one of the open view too, created in a draft or not. -/
theorem member_withScope {created : Bool}
    (member : (place letters evaluate spec facts [] created).member = true) :
    (place letters evaluate (spec.withScope .all) facts [] false).member = true := by
  revert member
  rw [place_withScope_all]
  unfold place
  dsimp only
  rw [filter_nil, inherit_nil]
  cases (spec.explicit.get? facts.urn).filter (·.layerId ∈ spec.layerIds) with
  | some e => exact fun _ => rfl
  | none =>
    dsimp only
    split
    next =>
      split
      next created =>
        rw [placeSoft, if_pos (Bool.and_eq_true_iff.mp created).2]
        exact fun _ => rfl
      next => exact nofun
    next => exact id

end

section

variable {spec : LayeredSpec Comparison} {facts : NodeFacts} {chosen default_ : Option String}

theorem orText_eq_some {first second : Option String} {text : String}
    (is : orText first second = some text) : first = some text ∨ second = some text := by
  rw [orText] at is
  split at is
  · exact .inl is
  · exact .inr is

theorem orText_eq_none {first second : Option String} (is : orText first second = none) :
    second = none := by
  rw [orText] at is
  split at is
  next there =>
    rw [is] at there
    cases there
  next => exact is

variable {layer : String}

theorem mem_of_validLayer {layerId : Option String} (is : validLayer spec layerId = some layer) :
    layer ∈ spec.layerIds :=
  of_decide_eq_true (filter_eq_some_iff.mp is).2

theorem memberLayer_eq_some {placed : Placement} (is : memberLayer placed = some layer) :
    placed.member = true ∧ placed.layerId = some layer := by
  rw [memberLayer] at is
  split at is
  next member => exact ⟨member, is⟩
  next => cases is

theorem mem_of_memberLayer (scope : Scope) (is : memberLayer
      (place letters evaluate (spec.toPlacementSpec.withScope scope) facts [] false) =
        some layer) : layer ∈ spec.layerIds := by
  obtain ⟨member, placed⟩ := memberLayer_eq_some is
  have ruleLayers : ∀ rule ∈ (spec.toPlacementSpec.withScope scope).rules,
      rule.layerId ∈ (spec.toPlacementSpec.withScope scope).layerIds := spec.ruleLayers
  obtain ⟨layer', mem, placed'⟩ := layer_of_member ruleLayers false member
  rw [placed] at placed'
  cases placed'
  exact mem

theorem member_of_memberLayer_none
    (none : memberLayer (place letters evaluate spec.toPlacementSpec facts [] false) = none) :
    (place letters evaluate spec.toPlacementSpec facts [] false).member = false := by
  rw [Bool.eq_false_iff]
  intro member
  obtain ⟨layer, -, placed⟩ := layer_of_member spec.ruleLayers false member
  rw [memberLayer, if_pos member, placed] at none
  cases none

/-- A suggestion names a layer of the view. -/
theorem mem_of_suggested
    (suggested : (suggestPlacement letters evaluate spec facts chosen default_).1 = some layer) :
    layer ∈ spec.layerIds := by
  have computed : suggestComputed letters evaluate spec facts chosen = some layer →
      layer ∈ spec.layerIds := by
    unfold suggestComputed
    dsimp only
    split
    next => exact mem_of_memberLayer .all
    next =>
      intro is
      exact (orText_eq_some is).elim mem_of_validLayer (mem_of_memberLayer spec.scope)
  unfold suggestPlacement at suggested
  dsimp only at suggested
  split at suggested
  next =>
    obtain valid | last := orText_eq_some suggested
    · exact mem_of_validLayer valid
    · split at last
      · exact spec.firstLayer layer last
      · cases last
  next => exact computed suggested

/-- A layer chosen by hand is the suggestion. -/
theorem suggested_of_chosen (inView : layer ∈ spec.layerIds) :
    (suggestPlacement letters evaluate spec facts (some layer) default_).1 = some layer := by
  have named : layer ≠ "" := fun same => spec.named (same ▸ inView)
  have valid : validLayer spec (some layer) = some layer := by
    rw [validLayer, filter_some, if_pos (decide_eq_true inView)]
  have picked (other : Option String) : orText (some layer) other = some layer :=
    if_pos (by simp [truthy, named])
  have computed : suggestComputed letters evaluate spec facts (some layer) = some layer := by
    unfold suggestComputed
    dsimp only
    rw [valid, picked, if_neg (fun both => some_ne_none _ both.1)]
  unfold suggestPlacement
  dsimp only
  rw [computed, if_neg (some_ne_none _)]

/-- Where nothing is suggested, neither the view nor, were it curated, the open one has the entity
in a layer. -/
theorem computed_of_none
    (none_ : (suggestPlacement letters evaluate spec facts chosen default_).1 = none) :
    memberLayer (place letters evaluate spec.toPlacementSpec facts [] false) = none ∧
      (spec.scope = .curated → memberLayer
        (place letters evaluate (spec.toPlacementSpec.withScope .all) facts [] false) = none) := by
  have computed : suggestComputed letters evaluate spec facts chosen = none := by
    unfold suggestPlacement at none_
    dsimp only at none_
    split at none_
    next computed => exact computed
    next given => exact absurd none_ given
  unfold suggestComputed at computed
  dsimp only at computed
  split at computed
  next both => exact ⟨orText_eq_none both.1, fun _ => computed⟩
  next apart =>
    exact ⟨orText_eq_none computed, fun curated => absurd ⟨computed, curated⟩ apart⟩

/-- Where nothing is pinned, the layer suggested is the one the view has the entity in. -/
theorem suggested_of_unpinned
    (unpinned : (suggestPlacement letters evaluate spec facts chosen default_).2 = false) :
    (suggestPlacement letters evaluate spec facts chosen default_).1 =
        memberLayer (place letters evaluate spec.toPlacementSpec facts [] false) ∧
      ((suggestPlacement letters evaluate spec facts chosen default_).1 ≠ none →
        spec.scope ≠ .curated) := by
  have pin : (suggestPlacement letters evaluate spec facts chosen default_).2 =
      ((suggestPlacement letters evaluate spec facts chosen default_).1.isSome &&
        (decide (spec.scope = .curated) ||
          decide ((suggestPlacement letters evaluate spec facts chosen default_).1 ≠
            memberLayer (place letters evaluate spec.toPlacementSpec facts [] false)))) := rfl
  rw [pin, Bool.and_eq_false_iff, Bool.or_eq_false_iff, decide_eq_false_iff_not,
    decide_eq_false_iff_not, not_not] at unpinned
  obtain nothing | ⟨open_, same⟩ := unpinned
  · have none_ : (suggestPlacement letters evaluate spec facts chosen default_).1 = none := by
      rwa [isSome_eq_false_iff, isNone_iff_eq_none] at nothing
    exact ⟨none_.trans (computed_of_none none_).1.symm, fun given => absurd none_ given⟩
  · exact ⟨same, fun _ => open_⟩

/-- Without a suggestion the view does not hold the node. -/
theorem not_member_of_none (created : Bool)
    (none_ : (suggestPlacement letters evaluate spec facts chosen default_).1 = none) :
    (place letters evaluate spec.toPlacementSpec facts [] created).member = false := by
  obtain ⟨current, opened⟩ := computed_of_none none_
  rw [Bool.eq_false_iff]
  intro member
  by_cases curated : spec.scope = .curated
  · have opens := member_withScope member
    have ruleLayers : ∀ rule ∈ (spec.toPlacementSpec.withScope .all).rules,
        rule.layerId ∈ (spec.toPlacementSpec.withScope .all).layerIds := spec.ruleLayers
    obtain ⟨layer, -, placed⟩ := layer_of_member ruleLayers false opens
    have none_ := opened curated
    rw [memberLayer, if_pos opens, placed] at none_
    cases none_
  · rw [place_open curated] at member
    rw [member_of_memberLayer_none current] at member
    cases member

/-- Once the suggestion is written, the view has the entity in the layer suggested. -/
theorem placed_of_suggested
    (suggested : (suggestPlacement letters evaluate spec facts chosen default_).1 = some layer)
    (inherits created : Bool) :
    memberLayer (place letters evaluate (spec.toPlacementSpec.following facts.urn
      (suggestPlacement letters evaluate spec facts chosen default_) inherits) facts [] created) =
        some layer := by
  have inView := mem_of_suggested suggested
  have unpinned : (suggestPlacement letters evaluate spec facts chosen default_).2 = false → _ :=
    suggested_of_unpinned
  generalize suggestPlacement letters evaluate spec facts chosen default_ = suggestion at *
  obtain ⟨layerId, pin⟩ := suggestion
  cases suggested
  cases pin with
  | true =>
    show memberLayer (place letters evaluate
      (spec.toPlacementSpec.pinned facts.urn layer inherits) facts [] created) = some layer
    rw [place_pinned inView]
    rfl
  | false =>
    obtain ⟨same, open_⟩ := unpinned rfl
    show memberLayer (place letters evaluate spec.toPlacementSpec facts [] created) = some layer
    rw [place_open (open_ (some_ne_none layer))]
    exact same.symm

end

section

/-- An inheritance is from the parent of the smallest URN among those that offer it. -/
theorem inherit_cases (parents : List ParentContext) (cascade : Cascade) (stale : Bool) :
    (inherit parents cascade stale = none ∧ ∀ p ∈ parents, p.cascade ≠ some cascade) ∨
      ∃ first ∈ parents, ∃ mark, first.cascade = some cascade ∧
        (∀ p ∈ parents, p.cascade = some cascade → first.urn ≤ p.urn) ∧
        inherit parents cascade stale = some
          { layerId := some first.layerId
            source := .inherited
            inheritedFrom := some first.urn
            staleExplicit := stale
            ambiguousParent := mark
            cascade := some cascade } := by
  have mem_tier (p : ParentContext) :
      p ∈ (parents.filter fun p => p.cascade = some cascade).insertionSort
        (fun a b => a.urn ≤ b.urn) ↔ p ∈ parents ∧ p.cascade = some cascade := by
    simp
  have sorted := pairwise_insertionSort (fun a b : ParentContext => a.urn ≤ b.urn)
    (parents.filter fun p => p.cascade = some cascade)
  unfold inherit
  generalize (parents.filter fun p => p.cascade = some cascade).insertionSort
    (fun a b => a.urn ≤ b.urn) = tier at mem_tier sorted ⊢
  cases tier with
  | nil =>
    refine .inl ⟨rfl, fun p mem offers => ?_⟩
    exact absurd ((mem_tier p).mpr ⟨mem, offers⟩) not_mem_nil
  | cons first tier =>
    obtain ⟨mem, offers⟩ := (mem_tier first).mp mem_cons_self
    refine .inr ⟨first, mem, _, offers, fun p mem offers => ?_, rfl⟩
    cases (mem_tier p).mpr ⟨mem, offers⟩ with
    | head => exact le_refl first.urn
    | tail _ later => exact (pairwise_cons.mp sorted).1 p later

variable {touched : String → Prop} {parents parents' : List ParentContext}

/-- Parents that are told apart by their URNs, and agree but for the touched ones. -/
structure SameOffers (touched : String → Prop) (parents parents' : List ParentContext) : Prop where
  unique : ∀ c ∈ parents, ∀ d ∈ parents, c.urn = d.urn → c = d
  same : ∀ c, ¬ touched c.urn → (c ∈ parents ↔ c ∈ parents')

theorem SameOffers.filter (same : SameOffers touched parents parents')
    (keep : ParentContext → Bool) :
    SameOffers touched (parents.filter keep) (parents'.filter keep) where
  unique c hc d hd := same.unique c (mem_filter.mp hc).1 d (mem_filter.mp hd).1
  same c off := by rw [mem_filter, mem_filter, same.same c off]

theorem SameOffers.inherit_unmarked (same : SameOffers touched parents parents') (cascade : Cascade)
    (stale : Bool)
    (quiet : ∀ a, inherit parents cascade stale = some a → ∀ p, a.inheritedFrom = some p →
      ¬ touched p)
    (quiet' : ∀ a, inherit parents' cascade stale = some a → ∀ p, a.inheritedFrom = some p →
      ¬ touched p) :
    (inherit parents cascade stale).map Placement.unmarked =
      (inherit parents' cascade stale).map Placement.unmarked := by
  obtain ⟨is, none_⟩ | ⟨first, mem, mark, offers, least, is⟩ := inherit_cases parents cascade stale
  · obtain ⟨is', -⟩ | ⟨first', mem', mark', offers', -, is'⟩ := inherit_cases parents' cascade stale
    · rw [is, is']
    · have off := quiet' _ is' first'.urn rfl
      exact absurd offers' (none_ first' ((same.same first' off).mpr mem'))
  · have off := quiet _ is first.urn rfl
    have there := (same.same first off).mp mem
    obtain ⟨-, none_⟩ | ⟨first', mem', mark', offers', least', is'⟩ :=
      inherit_cases parents' cascade stale
    · exact absurd offers (none_ first there)
    · have off' := quiet' _ is' first'.urn rfl
      have back := (same.same first' off').mpr mem'
      obtain rfl : first = first' := same.unique first mem first' back
        (le_antisymm (least first' back offers') (least' first there offers))
      rw [is, is']
      rfl

variable {spec : PlacementSpec Comparison}

theorem SameOffers.placeSoft_unmarked (same : SameOffers touched parents parents')
    (facts : NodeFacts) (stale : Bool) (stamp : Option String)
    (quiet : ∀ p, (placeSoft letters evaluate spec facts parents stale stamp).inheritedFrom =
      some p → ¬ touched p)
    (quiet' : ∀ p, (placeSoft letters evaluate spec facts parents' stale stamp).inheritedFrom =
      some p → ¬ touched p) :
    (placeSoft letters evaluate spec facts parents stale stamp).unmarked =
      (placeSoft letters evaluate spec facts parents' stale stamp).unmarked := by
  unfold placeSoft at quiet quiet' ⊢
  split
  next => rfl
  next stampless =>
    rw [if_neg stampless] at quiet quiet'
    cases found : (spec.rulesFor letters facts.entityType).find?
        (·.matches letters evaluate facts) with
    | some rule => rfl
    | none =>
      rw [found] at quiet quiet'
      have inherited := same.inherit_unmarked .soft stale
        (fun a is p from_ => quiet p (by rw [is]; exact from_))
        (fun a is p from_ => quiet' p (by rw [is]; exact from_))
      generalize inherit parents .soft stale = first at inherited ⊢
      generalize inherit parents' .soft stale = second at inherited ⊢
      cases first with
      | some a =>
        cases second with
        | some b => exact Option.some.inj inherited
        | none => cases inherited
      | none =>
        cases second with
        | some b => cases inherited
        | none => rfl

/-- A node that inherits from no touched parent is placed as before. -/
theorem SameOffers.place_unmarked (same : SameOffers touched parents parents') (facts : NodeFacts)
    (created : Bool)
    (quiet : ∀ p, (place letters evaluate spec facts parents created).inheritedFrom = some p →
      ¬ touched p)
    (quiet' : ∀ p, (place letters evaluate spec facts parents' created).inheritedFrom = some p →
      ¬ touched p) :
    (place letters evaluate spec facts parents created).unmarked =
      (place letters evaluate spec facts parents' created).unmarked := by
  have same := same.filter fun p => p.layerId ∈ spec.layerIds
  unfold place at quiet quiet' ⊢
  dsimp only at quiet quiet' ⊢
  cases entry : (spec.explicit.get? facts.urn).filter (·.layerId ∈ spec.layerIds) with
  | some e => rfl
  | none =>
    rw [entry] at quiet quiet'
    have inherited := same.inherit_unmarked .hand _
      (fun a is p from_ => quiet p (by rw [is]; exact from_))
      (fun a is p from_ => quiet' p (by rw [is]; exact from_))
    generalize inherit (parents.filter _) .hand _ = first at quiet inherited ⊢
    generalize inherit (parents'.filter _) .hand _ = second at quiet' inherited ⊢
    cases first with
    | some a =>
      cases second with
      | some b => exact Option.some.inj inherited
      | none => cases inherited
    | none =>
      cases second with
      | some b => cases inherited
      | none =>
        dsimp only at quiet quiet' ⊢
        split
        next => rfl
        next open_ =>
          rw [if_neg open_] at quiet quiet'
          exact same.placeSoft_unmarked facts _ _ quiet quiet'

theorem mem_offered {out : Dict String Placement} {ps : List String} {c : ParentContext} :
    c ∈ offered out ps ↔ c.urn ∈ ps ∧ (out.get? c.urn).bind (contextOf c.urn) = some c := by
  have urn_eq {p : String} {placement : Placement} {c : ParentContext}
      (context : contextOf p placement = some c) : c.urn = p := by
    rw [contextOf] at context
    split at context
    · obtain ⟨layer, -, rfl⟩ := map_eq_some_iff.mp context
      rfl
    · cases context
  rw [offered, mem_flatMap]
  constructor
  · rintro ⟨p, mem, context⟩
    have is := mem_toList.mp context
    obtain ⟨placement, -, made⟩ := bind_eq_some_iff.mp is
    obtain rfl := urn_eq made
    exact ⟨mem, is⟩
  · rintro ⟨mem, context⟩
    exact ⟨c.urn, mem, mem_toList.mpr context⟩

/-- Placements that differ in the mark pass down the same. -/
theorem bind_contextOf_of_unmarked {first second : Option Placement} (urn : String)
    (same : first.map Placement.unmarked = second.map Placement.unmarked) :
    first.bind (contextOf urn) = second.bind (contextOf urn) := by
  have through (placement : Option Placement) :
      placement.bind (contextOf urn) = (placement.map Placement.unmarked).bind (contextOf urn) := by
    cases placement <;> rfl
  rw [through first, through second, same]

theorem place_pinned_ne {facts : NodeFacts} {urn : String} (ne : facts.urn ≠ urn) (layer : String)
    (inherits : Bool) (parents : List ParentContext) (created : Bool) :
    place letters evaluate (spec.pinned urn layer inherits) facts parents created =
      place letters evaluate spec facts parents created := by
  have explicit : (spec.pinned urn layer inherits).explicit.get? facts.urn =
      spec.explicit.get? facts.urn := Dict.get?_set_ne (Ne.symm ne) _ _
  unfold place
  rw [explicit]
  rfl

variable {entities : Entities} {parentsByUrn : Dict String (List String)}
  {createdInBranch : List String} {out out' : Dict String Placement} {urn layer : String}
  {inherits : Bool}

/-- A pin moves no entity but the pinned one and those that inherit from it. -/
theorem pinned_unmarked
    (left : Solves letters evaluate spec entities parentsByUrn createdInBranch out)
    (right : Solves letters evaluate (spec.pinned urn layer inherits) entities parentsByUrn
      createdInBranch out') {e : String} (off : ¬ Touched entities out out' urn e) :
    (out.get? e).map Placement.unmarked = (out'.get? e).map Placement.unmarked := by
  induction e using (@keptParent_founded entities parentsByUrn).induction with
  | _ e ih =>
    cases known : entities.facts.get? e with
    | none =>
      have off : e ∉ entities.facts.keys := Dict.get?_eq_none_iff.mp known
      rw [Dict.get?_eq_none_iff.mpr fun mem => off (left.once.mem_iff.mp mem),
        Dict.get?_eq_none_iff.mpr fun mem => off (right.once.mem_iff.mp mem)]
    | some facts =>
      obtain ⟨ps, sorted, kept, value⟩ := left.placed e facts known
      obtain ⟨ps', sorted', kept', value'⟩ := right.placed e facts known
      obtain rfl : ps = ps' := eq_of_sorted sorted sorted' fun p =>
        (kept p).trans (kept' p).symm
      have named : facts.urn ≠ urn := fun same => off (.pinned known same)
      rw [place_pinned_ne named] at value'
      have offers : SameOffers (Touched entities out out' urn) (offered out ps)
          (offered out' ps) := {
        unique := fun c hc d hd same => by
          have made := (mem_offered.mp hc).2
          rw [same, (mem_offered.mp hd).2] at made
          exact (Option.some.inj made).symm
        same := fun c free => by
          rw [mem_offered, mem_offered]
          refine and_congr_right fun mem => ?_
          rw [bind_contextOf_of_unmarked c.urn (ih c.urn ((kept c.urn).mp mem) free)] }
      rw [value, value']
      refine congrArg some (offers.place_unmarked facts _ (fun p from_ parent => ?_)
        (fun p from_ parent => ?_))
      · exact off (.inherits (.inl ⟨_, value, from_⟩) parent)
      · exact off (.inherits (.inr ⟨_, value', from_⟩) parent)

end

/-- A suggestion leaves a view as it is or pins the entity. -/
theorem following_cases (spec : PlacementSpec Comparison) (urn : String)
    (suggestion : Option String × Bool) (inherits : Bool) :
    spec.following urn suggestion inherits = spec ∨
      ∃ layer, spec.following urn suggestion inherits = spec.pinned urn layer inherits := by
  match suggestion with
  | (some layer, true) => exact .inr ⟨layer, rfl⟩
  | (some layer, false) => exact .inl rfl
  | (none, _) => exact .inl rfl

/-- A suggested placement takes effect: once it is written the entity is a member of the layer
suggested; where nothing is to be pinned the view has it there already, or in no layer; a chosen
layer of the view is suggested; and a pin moves no entity but the pinned one and those that inherit
from it, but for the mark that its parents disagree. -/
theorem suggestPlacement_takes_effect (letters : Letters)
    (evaluate : Option Json → Comparison → Bool) (spec : LayeredSpec Comparison)
    (facts : NodeFacts) (chosen default_ : Option String) :
    (∀ layer, (suggestPlacement letters evaluate spec facts chosen default_).1 = some layer →
      ∀ inherits created, memberLayer (place letters evaluate
        (spec.toPlacementSpec.following facts.urn
          (suggestPlacement letters evaluate spec facts chosen default_) inherits) facts []
          created) = some layer) ∧
    ((suggestPlacement letters evaluate spec facts chosen default_).1 = none → ∀ created,
        (place letters evaluate spec.toPlacementSpec facts [] created).member = false) ∧
    (∀ layer, chosen = some layer → layer ∈ spec.layerIds →
      (suggestPlacement letters evaluate spec facts chosen default_).1 = some layer) ∧
    ∀ entities parentsByUrn createdInBranch inherits, ∃ out out',
      placeAll entities parentsByUrn letters evaluate spec.toPlacementSpec createdInBranch =
        some out ∧
      placeAll entities parentsByUrn letters evaluate (spec.toPlacementSpec.following facts.urn
        (suggestPlacement letters evaluate spec facts chosen default_) inherits) createdInBranch =
          some out' ∧
      ∀ e, ¬ Touched entities out out' facts.urn e →
        (out.get? e).map Placement.unmarked = (out'.get? e).map Placement.unmarked := by
  refine ⟨fun layer suggested inherits created => placed_of_suggested suggested inherits created,
    fun none_ created => not_member_of_none created none_, ?_, ?_⟩
  · rintro layer rfl inView
    exact suggested_of_chosen inView
  · intro entities parentsByUrn createdInBranch inherits
    obtain ⟨out, ran, solves⟩ := placeAll_greedilySolves letters evaluate spec.toPlacementSpec
      entities parentsByUrn createdInBranch
    obtain ⟨out', ran', solves'⟩ := placeAll_greedilySolves letters evaluate
      (spec.toPlacementSpec.following facts.urn
        (suggestPlacement letters evaluate spec facts chosen default_) inherits)
      entities parentsByUrn createdInBranch
    refine ⟨out, out', ran, ran', fun e off => ?_⟩
    obtain same | ⟨layer, same⟩ := following_cases spec.toPlacementSpec facts.urn
      (suggestPlacement letters evaluate spec facts chosen default_) inherits
    · rw [same, ran] at ran'
      cases ran'
      rfl
    · rw [same] at solves'
      exact pinned_unmarked solves.toSolves solves'.toSolves off

def twoLayers : LayeredSpec Unit where
  scope := .all
  layerIds := ["l1", "l2"]
  rules := []
  explicit := [("a", ⟨"l1", true⟩)]
  fallbackLayerId := none
  firstLayerId := some "l1"
  named := by decide
  ruleLayers := nofun
  firstLayer := by simp

def bare (urn : String) : NodeFacts :=
  ⟨urn, "", none, [], [], none⟩

def family : Entities where
  facts := [("a", bare "a"), ("b", bare "b"), ("c", bare "c")]
  nodup := by decide

/-- The mark can change: a child that inherits from one parent, and still does, is marked once the
other is pinned in another layer. -/
theorem suggestPlacement_marks_siblings_child :
    ¬ ∀ (spec : LayeredSpec Unit) (facts : NodeFacts) (chosen : Option String)
      (entities : Entities) (parentsByUrn : Dict String (List String))
      (out out' : Dict String Placement),
      placeAll entities parentsByUrn Letters.ascii (fun _ _ => false) spec.toPlacementSpec [] =
        some out →
      placeAll entities parentsByUrn Letters.ascii (fun _ _ => false)
        (spec.toPlacementSpec.following facts.urn
          (suggestPlacement Letters.ascii (fun _ _ => false) spec facts chosen none) true) [] =
        some out' →
      ∀ e, ¬ Touched entities out out' facts.urn e → out.get? e = out'.get? e := by
  intro claim
  let hand (layer : String) : Placement :=
    { layerId := some layer, source := .explicit, cascade := some .hand }
  let inherited (mark : Bool) : Placement :=
    { layerId := some "l1", source := .inherited, inheritedFrom := some "a",
      ambiguousParent := mark, cascade := some .hand }
  let out : Dict String Placement :=
    [("a", hand "l1"), ("b", { layerId := none, source := .none }), ("c", inherited false)]
  let out' : Dict String Placement := [("a", hand "l1"), ("b", hand "l2"), ("c", inherited true)]
  have from_ (e p : String) (mem : e ∈ ["a", "c"]) (is : InheritsFrom out e p ∨
      InheritsFrom out' e p) : p = "a" := by
    obtain rfl | rfl : e = "a" ∨ e = "c" := by simpa using mem
    · obtain ⟨placement, here, source⟩ | ⟨placement, here, source⟩ := is
      all_goals
        cases here
        cases source
    · obtain ⟨placement, here, source⟩ | ⟨placement, here, source⟩ := is
      all_goals
        cases here
        exact (Option.some.inj source).symm
  have off (e : String) (touched : Touched family out out' "b" e) : e ∉ ["a", "c"] := by
    induction touched with
    | @pinned e facts known named =>
      intro mem
      obtain rfl | rfl : e = "a" ∨ e = "c" := by simpa using mem
      all_goals
        cases known
        exact absurd named (by decide)
    | @inherits e p is _ ih =>
      intro mem
      exact ih (from_ e p mem is ▸ mem_cons_self)
  have same := claim twoLayers (bare "b") (some "l2") family [("c", ["a", "b"])] out out'
    (by decide +kernel) (by decide +kernel) "c" fun touched => off "c" touched (by decide)
  exact absurd same (by decide)

end DataViz.View
