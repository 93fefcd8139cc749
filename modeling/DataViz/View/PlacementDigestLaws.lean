/-
# The digest determines placement

The text that is hashed can be read back, so views of one digest agree in all that it is made of;
and what it leaves out, the ids of rules and the hand placements in layers that are gone, no tier
reads to decide where an entity is.
-/

import DataViz.View.PlaceAllLaws
import DataViz.View.PlacementDigest

namespace DataViz.View

open List Option

open PyText Writing

variable {printable : Char → Bool}

theorem Tells.after {α : Type} {write : α → List Char} (tells : Tells write Anything)
    {text s t : List Char} {a b : α}
    (same : text ++ (write a ++ s) = text ++ (write b ++ t)) : a = b ∧ s = t :=
  tells a b s t trivial trivial (append_cancel_left same)

/-- The text of a comparison tells it. -/
theorem Comparison.repr_inj {a b : Comparison} (same : a.repr printable = b.repr printable) :
    a = b := by
  obtain ⟨op, same⟩ := Tells.after tells_reprStr same
  obtain ⟨type, same⟩ := Tells.after tells_reprOption same
  obtain ⟨values, same⟩ := Tells.after tells_reprTuple same
  obtain ⟨grain, same⟩ := Tells.after tells_reprOption same
  obtain ⟨cased, same⟩ := Tells.after tells_reprBool same
  obtain ⟨missing, -⟩ := Tells.after tells_reprBool same
  exact Comparison.ext op type values grain cased missing

theorem optional_inj {a b : Option String} (same : optional a = optional b) : a = b := by
  cases a <;> cases b <;> cases same <;> rfl

def SameSet : Option (List String) → Option (List String) → Prop :=
  Option.Rel fun a b => ∀ text, text ∈ a ↔ text ∈ b

theorem mem_iff_of_sortedKeys {a b : List String}
    (same : (Dict.sortedKeys a).map Canon.str = (Dict.sortedKeys b).map Canon.str) (text : String) :
    text ∈ a ↔ text ∈ b := by
  have keys : Dict.sortedKeys a = Dict.sortedKeys b :=
    map_injective_iff.mpr (fun _ _ => Canon.str.inj) same
  rw [← Dict.mem_sortedKeys, keys, Dict.mem_sortedKeys]

theorem sameSet_of_sortedTexts {a b : Option (List String)} (same : sortedTexts a = sortedTexts b) :
    SameSet a b := by
  cases a with
  | none =>
    cases b with
    | none => exact .none
    | some b => cases same
  | some a =>
    cases b with
    | none => cases same
    | some b => exact .some (mem_iff_of_sortedKeys (Canon.list.inj same))

/-- Rules that read the same, place in the same layer and pass on the same. -/
structure SameRule {κ : Type} (r r' : CompiledRule κ) : Prop where
  layerId : r.layerId = r'.layerId
  types : SameSet r.types r'.types
  tags : SameSet r.tags r'.tags
  glob : r.glob = r'.glob
  comparisons : r.comparisons = r'.comparisons
  cascadesSoft : r.cascadesSoft = r'.cascadesSoft

theorem comparisonEntry_inj : Function.Injective (comparisonEntry printable) := by
  rintro ⟨name, cmp⟩ ⟨name', cmp'⟩ same
  simp only [comparisonEntry, Canon.list.injEq, cons.injEq, Canon.str.injEq, and_true,
    String.ofList_inj] at same
  rw [same.1, Comparison.repr_inj same.2]

/-- Rules with one digest entry match alike. -/
theorem sameRule_of_digestEntry {r r' : KeyedRule}
    (same : digestEntry printable r = digestEntry printable r') :
    SameRule r.toCompiledRule r'.toCompiledRule := by
  simp only [digestEntry, Canon.list.injEq, cons.injEq, Canon.str.injEq, Canon.bool.injEq,
    and_true] at same
  obtain ⟨layer, -, types, tags, glob, comparisons, soft⟩ := same
  exact {
    layerId := layer
    types := sameSet_of_sortedTexts types
    tags := sameSet_of_sortedTexts tags
    glob := optional_inj glob
    comparisons := map_injective_iff.mpr comparisonEntry_inj comparisons
    cascadesSoft := soft }

/-- Views that decide alike where entities are. -/
structure SamePlacing {κ : Type} (spec spec' : PlacementSpec κ) : Prop where
  scope : spec.scope = spec'.scope
  layers : ∀ id, id ∈ spec.layerIds ↔ id ∈ spec'.layerIds
  rules : List.Forall₂ SameRule spec.rules spec'.rules
  fallback : spec.fallbackLayerId = spec'.fallbackLayerId
  explicit : ∀ urn, (spec.explicit.get? urn).filter (·.layerId ∈ spec.layerIds) =
    (spec'.explicit.get? urn).filter (·.layerId ∈ spec'.layerIds)

theorem explicitEntryOf_inj : Function.Injective explicitEntryOf := by
  rintro ⟨urn, layer, inherits⟩ ⟨urn', layer', inherits'⟩ same
  simp only [explicitEntryOf, Canon.list.injEq, cons.injEq, Canon.str.injEq,
    Canon.bool.injEq, and_true] at same
  obtain ⟨rfl, rfl, rfl⟩ := same
  rfl

theorem get?_liveExplicit (view : CompiledView) (urn : String) : (liveExplicit view).get? urn =
      (view.explicit.get? urn).filter (·.layerId ∈ view.layerIds) := by
  rw [liveExplicit, Dict.get?_sorted]
  exact Dict.get?_filter_items view.explicit (fun e => decide (e.layerId ∈ view.layerIds)) urn

/-- Views with one canonical form place alike. -/
theorem samePlacing_of_canonical {view view' : CompiledView}
    (same : ∀ key, (canonical printable view).get? key = (canonical printable view').get? key) :
    SamePlacing view.spec view'.spec where
  scope := by
    have scope := same "scope"
    simp only [canonical, Dict.get?_cons_self, some_inj, Canon.str.injEq] at scope
    show view.scope = view'.scope
    revert scope
    cases view.scope <;> cases view'.scope <;> decide
  layers := by
    have layers := some.inj (same "layers")
    exact mem_iff_of_sortedKeys (Canon.list.inj layers)
  rules := by
    have rules := Canon.list.inj (some.inj (same "rules"))
    show List.Forall₂ SameRule (view.rules.map _) (view'.rules.map _)
    rw [forall₂_map_left_iff, forall₂_map_right_iff]
    have entries : List.Forall₂ (fun r r' => digestEntry printable r = digestEntry printable r')
        view.rules view'.rules := by
      have mapped : List.Forall₂ (· = ·) (view.rules.map (digestEntry printable))
          (view'.rules.map (digestEntry printable)) := by
        rw [rules, forall₂_eq_eq_eq]
      exact forall₂_map_right_iff.mp (forall₂_map_left_iff.mp mapped)
    exact entries.imp fun _ _ => sameRule_of_digestEntry
  fallback := optional_inj (some.inj (same "fallback"))
  explicit urn := by
    have explicit := Canon.list.inj (some.inj (same "explicit"))
    have live : liveExplicit view = liveExplicit view' :=
      map_injective_iff.mpr explicitEntryOf_inj explicit
    exact (get?_liveExplicit view urn).symm.trans
      ((congrArg (Dict.get? · urn) live).trans (get?_liveExplicit view' urn))

section

variable {κ : Type} {letters : Letters} {evaluate : Option Json → κ → Bool}
  {spec spec' : PlacementSpec κ} {r r' : CompiledRule κ}

theorem SameSet.all_eq {a b : Option (List String)} (same : SameSet a b)
    {test test' : List String → Bool}
    (tests : ∀ x y : List String, (∀ text, text ∈ x ↔ text ∈ y) → test x = test' y) :
    a.all test = b.all test' := by
  cases same with
  | none => rfl
  | some same => exact tests _ _ same

theorem SameRule.claims (same : SameRule r r') (text : String) :
    r.types.all (text ∈ ·) = r'.types.all (text ∈ ·) :=
  same.types.all_eq fun _ _ iff => decide_eq_decide.mpr (iff text)

theorem SameRule.matches_eq (same : SameRule r r') (facts : NodeFacts) :
    r.matches letters evaluate facts = r'.matches letters evaluate facts := by
  have tags : r.tags.all (fun tags => tags.any (· ∈ facts.tags)) =
      r'.tags.all (fun tags => tags.any (· ∈ facts.tags)) := by
    refine same.tags.all_eq fun x y iff => ?_
    rw [Bool.eq_iff_iff, List.any_eq_true, List.any_eq_true]
    exact exists_congr fun text => and_congr_left fun _ => iff text
  rw [CompiledRule.matches, CompiledRule.matches, same.claims, tags, same.glob, same.comparisons]

theorem SamePlacing.find?_rules (letters : Letters) (evaluate : Option Json → κ → Bool)
    (same : SamePlacing spec spec') (facts : NodeFacts) :
    Option.Rel SameRule
      ((spec.rulesFor letters facts.entityType).find? (·.matches letters evaluate facts))
      ((spec'.rulesFor letters facts.entityType).find? (·.matches letters evaluate facts)) := by
  have rules := same.rules
  unfold PlacementSpec.rulesFor
  generalize spec.rules = rules₁ at rules ⊢
  generalize spec'.rules = rules₂ at rules ⊢
  induction rules with
  | nil => exact .none
  | @cons r r' rest rest' first _ ih =>
    rw [filter_cons, filter_cons, first.claims]
    split
    next =>
      rw [find?_cons, find?_cons, first.matches_eq]
      split
      next => exact .some first
      next => exact ih
    next => exact ih

def withStale (stale : Bool) (placement : Placement) : Placement :=
  { placement with staleExplicit := stale }

theorem inherit_stale (parents : List ParentContext) (cascade : Cascade) (stale : Bool) :
    inherit parents cascade stale = (inherit parents cascade false).map (withStale stale) := by
  rw [inherit, inherit, Option.map_map]
  rfl

/-- The tiers under the hand placements put an entity in one spot. -/
theorem SamePlacing.placeSoft_spot (same : SamePlacing spec spec') (facts : NodeFacts)
    (parents : List ParentContext) (stale stale' : Bool) (stamp : Option String) :
    (placeSoft letters evaluate spec facts parents stale stamp).spot =
      (placeSoft letters evaluate spec' facts parents stale' stamp).spot := by
  rw [placeSoft, placeSoft, inherit_stale parents .soft stale, inherit_stale parents .soft stale',
    same.fallback]
  split
  next => rfl
  next =>
    have rules := same.find?_rules letters evaluate facts
    generalize (spec.rulesFor letters facts.entityType).find? _ = rule at rules ⊢
    generalize (spec'.rulesFor letters facts.entityType).find? _ = rule' at rules ⊢
    cases rules with
    | some rule =>
      dsimp only [Placement.spot, Placement.member]
      rw [rule.layerId, rule.cascadesSoft]
    | none =>
      cases inherit parents .soft false with
      | some inherited => rfl
      | none =>
        show Placement.spot (if _ then _ else _) = Placement.spot (if _ then _ else _)
        split <;> rfl

/-- Views that place alike give a node one layer, source and cascade. -/
theorem SamePlacing.place_spot (same : SamePlacing spec spec') (facts : NodeFacts)
    (parents : List ParentContext) (created : Bool) :
    (place letters evaluate spec facts parents created).spot =
      (place letters evaluate spec' facts parents created).spot := by
  have layers : (fun p : ParentContext => decide (p.layerId ∈ spec.layerIds)) =
      fun p => decide (p.layerId ∈ spec'.layerIds) :=
    funext fun p => decide_eq_decide.mpr (same.layers p.layerId)
  have stamps : (fun id : String => decide (id ∈ spec.layerIds)) =
      fun id => decide (id ∈ spec'.layerIds) :=
    funext fun id => decide_eq_decide.mpr (same.layers id)
  unfold place
  dsimp only
  rw [same.explicit, layers, stamps, same.scope]
  generalize parents.filter _ = parents
  generalize facts.stamp.filter _ = stamp
  generalize (spec.explicit.get? facts.urn).any _ = stale
  generalize (spec'.explicit.get? facts.urn).any _ = stale'
  rw [inherit_stale parents .hand stale, inherit_stale parents .hand stale']
  cases (spec'.explicit.get? facts.urn).filter fun e => decide (e.layerId ∈ spec'.layerIds) with
  | some entry => rfl
  | none =>
    cases inherit parents .hand false with
    | some inherited => rfl
    | none =>
      show Placement.spot (if _ then _ else _) = Placement.spot (if _ then _ else _)
      split
      next => split <;> rfl
      next => exact same.placeSoft_spot facts parents stale stale' stamp

/-- What a parent passes down is read off its spot. -/
theorem contextOf_congr {urn : String} {a b : Placement} (same : a.spot = b.spot) :
    contextOf urn a = contextOf urn b := by
  have layer : a.layerId = b.layerId := congrArg Spot.layerId same
  have cascade : a.cascade = b.cascade := congrArg Spot.cascade same
  rw [contextOf, contextOf, layer, cascade]

theorem offered_of_spots {out out' : Dict String Placement} {ps : List String}
    (same : ∀ p ∈ ps, (out.get? p).map Placement.spot = (out'.get? p).map Placement.spot) :
    offered out ps = offered out' ps := by
  refine flatMap_congr fun p mem => ?_
  have here := same p mem
  cases first : out.get? p with
  | none =>
    rw [first] at here
    rw [map_eq_none_iff.mp here.symm]
  | some placement =>
    rw [first] at here
    obtain ⟨placement', second, spot⟩ := map_eq_some_iff.mp here.symm
    rw [second, bind_some, bind_some, contextOf_congr spot]

/-- Views that decide alike put every entity of a set in one spot. -/
theorem SamePlacing.solves_spot (same : SamePlacing spec spec') {entities : Entities}
    {parentsByUrn : Dict String (List String)} {createdInBranch : List String}
    {out out' : Dict String Placement}
    (left : Solves letters evaluate spec entities parentsByUrn createdInBranch out)
    (right : Solves letters evaluate spec' entities parentsByUrn createdInBranch out')
    (urn : String) : (out.get? urn).map Placement.spot = (out'.get? urn).map Placement.spot := by
  induction urn using (@keptParent_founded entities parentsByUrn).induction with
  | _ u ih =>
    cases known : entities.facts.get? u with
    | none =>
      have off : u ∉ entities.facts.keys := Dict.get?_eq_none_iff.mp known
      rw [Dict.get?_eq_none_iff.mpr fun mem => off (left.once.mem_iff.mp mem),
        Dict.get?_eq_none_iff.mpr fun mem => off (right.once.mem_iff.mp mem)]
    | some facts =>
      obtain ⟨ps, sorted, kept, value⟩ := left.placed u facts known
      obtain ⟨ps', sorted', kept', value'⟩ := right.placed u facts known
      have parents : ps = ps' := eq_of_sorted sorted sorted' fun p =>
        (kept p).trans (kept' p).symm
      have offers : offered out ps = offered out' ps' := by
        rw [← parents]
        exact offered_of_spots fun p mem => ih p ((kept p).mp mem)
      rw [value, value', offers, map_some, map_some, same.place_spot]

end

/-- Two compiled views of one digest, by a hash that gives different texts different digests, put
every entity of every set in one spot: the same layer, membership and cascade. -/
theorem placementDigest_determines (printable : Char → Bool) {hash : List Char → String}
    (injective : Function.Injective hash) {view view' : CompiledView}
    (same : placementDigest printable hash view = placementDigest printable hash view')
    (letters : Letters) (evaluate : Option Json → Comparison → Bool) (entities : Entities)
    (parentsByUrn : Dict String (List String)) (createdInBranch : List String) :
    ∃ out out',
      placeAll entities parentsByUrn letters evaluate view.spec createdInBranch = some out ∧
      placeAll entities parentsByUrn letters evaluate view'.spec createdInBranch = some out' ∧
      ∀ urn, (out.get? urn).map Placement.spot = (out'.get? urn).map Placement.spot := by
  obtain ⟨out, ran, solves⟩ :=
    placeAll_greedilySolves letters evaluate view.spec entities parentsByUrn createdInBranch
  obtain ⟨out', ran', solves'⟩ :=
    placeAll_greedilySolves letters evaluate view'.spec entities parentsByUrn createdInBranch
  have alike : SamePlacing view.spec view'.spec :=
    samePlacing_of_canonical (get?_eq_of_dumpsObject (injective same))
  exact ⟨out, out', ran, ran', alike.solves_spot solves.toSolves solves'.toSolves⟩

def ruledView (ruleId : String) (explicit : Dict String ExplicitEntry) : CompiledView where
  scope := .all
  layerIds := ["l"]
  rules := [{
    id := ruleId
    layerId := "l"
    types := some ["table"]
    tags := none
    glob := some "urn:*"
    comparisons := [("owner", ⟨"eq", some "string", [.str "it's"], none, false, false⟩)]
    cascadesSoft := true
    negPriority := .int 0
    order := .int 1
    position := 0
    index := 0 }]
  explicit := explicit
  firstLayerId := some "l"
  fallbackLayerId := none

/-- Another rule id and a hand placement in a layer that is gone: one digest, one spot. -/
theorem placementDigest_determines_renamed : ∃ out out',
      placeAll ⟨[("u", ⟨"u", "table", none, [], [("owner", .str "it's")], none⟩)], by decide⟩ []
        Letters.ascii (fun stored _ => stored.isSome) (ruledView "r1" []).spec [] = some out ∧
      placeAll ⟨[("u", ⟨"u", "table", none, [], [("owner", .str "it's")], none⟩)], by decide⟩ []
        Letters.ascii (fun stored _ => stored.isSome)
        (ruledView "r2" [("u", ⟨"gone", true⟩)]).spec [] = some out' ∧
      ∀ urn, (out.get? urn).map Placement.spot = (out'.get? urn).map Placement.spot := by
  have same : placementDigest Char.isAlpha String.ofList (ruledView "r1" []) =
      placementDigest Char.isAlpha String.ofList (ruledView "r2" [("u", ⟨"gone", true⟩)]) := by
    have live : liveExplicit (ruledView "r1" []) =
        liveExplicit (ruledView "r2" [("u", ⟨"gone", true⟩)]) := by
      refine Dict.sorted_eq_iff.mpr fun urn => ?_
      simp [ruledView, Dict.items, Dict.ofKeys, Dict.keys]
    rw [placementDigest, placementDigest, canonical, canonical, live]
    rfl
  exact placementDigest_determines Char.isAlpha (fun _ _ => String.ofList_inj.mp) same _ _ _ _ _

end DataViz.View
