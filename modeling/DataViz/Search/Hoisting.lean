/-
# Hoisting a condition keeps what it means

A clamp says of an entity what `_inside` does, and a relationship up the tree to entities that are
named implies the clamp that is hoisted for it. So the head, the root sets and the tail keep what
the predicate holds of (`compile_keeps`), and the statement what is in scope besides (`keeps_iff`).
-/

import DataViz.Search.PredicateLaws

namespace DataViz.Search

open List

open Routes

variable {κ : Type}

namespace EntityGraph

variable (g : EntityGraph κ)

theorem mem_parents {a b : ℕ} : a ∈ g.parents b ↔ b ∈ g.children a := by
  unfold parents children sources targets
  simp only [mem_map, mem_filter, decide_eq_true_eq]
  constructor
  · rintro ⟨edge, ⟨mem, type, rfl⟩, rfl⟩
    exact ⟨edge, ⟨mem, type, rfl⟩, rfl⟩
  · rintro ⟨edge, ⟨mem, type, rfl⟩, rfl⟩
    exact ⟨edge, ⟨mem, type, rfl⟩, rfl⟩

variable {id : ℕ} {urns : List String}

theorem urnIn_eq_true : g.urnIn urns id = some true ↔ g.named urns id = true := by
  unfold urnIn named
  cases g.urn id <;> simp

theorem mem_nodes_of_named (named : g.named urns id = true) : id ∈ g.nodes.map (·.id) := by
  unfold EntityGraph.named urn at named
  cases found : g.nodes.find? (·.id = id) with
  | none => rw [found] at named; cases named
  | some node =>
    have same := find?_some found
    exact mem_map.mpr ⟨node, mem_of_find?_eq_some found, by simpa using same⟩

theorem clamp_of_walk {k depth id root : ℕ} (walk : Walk g.parents k id root) (short : k ≤ depth)
    (named : g.named urns root = true) : g.clamp urns depth id = true := by
  refine List.any_eq_true.mpr ⟨root, g.mem_nodes_of_named named, ?_⟩
  rw [named, Bool.true_and, decide_eq_true_eq]
  exact mem_reached_back (fun _ _ => g.mem_parents.mp) walk short

theorem clamp_iff_inside {depth id : ℕ} :
    g.clamp urns depth id = true ↔ g.inside urns depth id = some true := by
  rw [inside, Truth.or_eq_true, urnIn_eq_true, Option.some.injEq, List.any_eq_true]
  constructor
  · intro holds
    obtain ⟨root, -, both⟩ := List.any_eq_true.mp holds
    rw [Bool.and_eq_true, decide_eq_true_eq] at both
    obtain ⟨named, there⟩ := both
    obtain ⟨k, -, short, found⟩ := mem_reached.mp there
    have walk := (walk_of_mem_ends found).reverse fun _ _ => g.mem_parents.mpr
    obtain ⟨j, least, back⟩ := exists_mem_ends walk
    cases j with
    | zero => exact .inl (mem_singleton.mp back ▸ named)
    | succ j =>
      exact .inr ⟨root, mem_reached.mpr ⟨j + 1, by omega, by omega, back⟩, named⟩
  · rintro (named | ⟨root, there, named⟩)
    · exact g.clamp_of_walk (show Walk g.parents 0 id id from rfl) (Nat.zero_le _) named
    · obtain ⟨k, -, short, found⟩ := mem_reached.mp there
      exact g.clamp_of_walk (walk_of_mem_ends found) short named

/-- A relationship up the tree to entities that are named puts an entity inside them. -/
theorem clamp_of_meets {r : Relation} (any : r.quantifier = .any) (up : r.axis.up = true)
    (meets : r.meets g (fun _ => true) (g.named urns) id = true) :
    g.clamp urns r.hopRange.2 id = true := by
  unfold Relation.meets at meets
  rw [any] at meets
  obtain ⟨relative, there, both⟩ := List.any_eq_true.mp meets
  have reached := (mem_filter.mp (mem_filter.mp there).1).1
  rw [if_pos up] at reached
  obtain ⟨k, -, short, found⟩ := mem_reached.mp reached
  exact g.clamp_of_walk (walk_of_mem_ends found) short (Bool.and_eq_true_iff.mp both).2

end EntityGraph

def Hoisted.keeps (g : EntityGraph κ) (scopeDepth : ℕ) (set : Hoisted) (id : ℕ) : Prop :=
  g.clamp set.1 ((set.2.map PNat.val).getD scopeDepth) id = true

/-- A fragment and the root sets beside it keep an entity. -/
def Visited.keeps (g : EntityGraph κ) (scopeDepth : ℕ) (visited : Visited κ) (id : ℕ) : Prop :=
  visited.text.eval g id = some true ∧ ∀ set ∈ visited.hoisted, set.keeps g scopeDepth id

theorem Site.topAnd_and {site : Site} (top : site.topAnd = true) :
    ({ site with topAnd := site.topAnd && GroupOp.and = .and } : Site) = site := by
  cases site
  cases show _ = true from top
  rfl

section

variable {g : EntityGraph κ} {site : Site} {id : ℕ}

theorem Predicate.hoisted_below (p : Predicate κ) {site : Site} (below : site.topAnd = false) :
    (p.visitor.visit site).hoisted = [] := by
  induction p using Predicate.ind generalizing site with
  | condition | places | everything | is | degree | related | relatedTo => rfl
  | descendantOf urns maxDepth =>
    rw [visitor, visitor1]
    dsimp only
    rw [below]
    split <;> rfl
  | not inner ih => exact ih rfl
  | group op first rest ih =>
    rw [visit_group]
    exact flatMap_eq_nil_iff.mpr fun member mem => ih member mem (by rw [below]; rfl)

theorem Predicate.hoisted_named (p : Predicate κ) {site : Site} :
    ∀ set ∈ (p.visitor.visit site).hoisted, set.1 ≠ [] := by
  induction p using Predicate.ind generalizing site with
  | condition | places | everything | is | degree | related | relatedTo => exact nofun
  | descendantOf urns maxDepth =>
    rw [visitor, visitor1]
    dsimp only
    split
    · exact forall_mem_nil _
    · next named =>
        split
        · exact forall_mem_singleton.mpr named
        · exact forall_mem_nil _
  | not inner ih => exact ih
  | group op first rest ih =>
    rw [visit_group]
    intro set mem
    obtain ⟨member, here, mem⟩ := mem_flatMap.mp mem
    exact ih member here set mem

theorem Agrees.kept_iff {p : Predicate κ} (agrees : Agrees g site p id)
    (nothing : (p.visitor.visit site).hoisted = []) :
    (p.visitor.visit site).keeps g site.scopeDepth id ↔
      p.value g site.scopeDepth site.native id = some true := by
  rw [Visited.keeps, nothing, agrees.eq_true]
  exact and_iff_left nofun

/-- In the top-level AND, what a predicate is written as and the root sets that it hoists keep what
the predicate holds of. -/
theorem keeps_top (p : Predicate κ) (same : site.containment = g.containment)
    (top : site.topAnd = true) (plain : site.expression = false) (straight : ¬ Strays g site p id) :
    (p.visitor.visit site).keeps g site.scopeDepth id ↔
      p.value g site.scopeDepth site.native id = some true := by
  induction p using Predicate.ind with
  | condition | places | everything => exact Agrees.kept_iff (.of_eq rfl) rfl
  | is urns => exact Agrees.kept_iff (.is urns) rfl
  | degree d => exact Agrees.kept_iff (.degree straight) rfl
  | related r => exact Agrees.kept_iff (.related r same) rfl
  | relatedTo r far =>
    exact Agrees.kept_iff (.relatedTo (agreesBelow g far).2 same straight) rfl
  | not inner =>
    exact Agrees.kept_iff (.not (agreesBelow g inner).1 same straight) (inner.hoisted_below rfl)
  | descendantOf urns maxDepth =>
    rw [Predicate.visitor, Predicate.visitor1, Predicate.value]
    dsimp only
    split
    · exact iff_of_false (by rintro ⟨⟨⟩, -⟩) (by rintro ⟨⟩)
    · rw [← EntityGraph.clamp_iff_inside]
      exact ⟨fun keeps => keeps.2 _ (mem_singleton_self _),
        fun inside => ⟨rfl, forall_mem_singleton.mpr inside⟩⟩
  | group op first rest ih =>
    have joined (texts : List (Fragment κ)) :
        visitGroup site op ((first :: rest).any (·.isGroup)) texts = .joined op texts := by
      rw [visitGroup, plain, top]
      rfl
    rw [Predicate.visit_group, joined, Predicate.value_group, Visited.keeps]
    rw [Fragment.eval_joined, map_map]
    cases op with
    | and =>
      have here := Site.topAnd_and top
      rw [here]
      have members (member : Predicate κ) (mem : member ∈ first :: rest) :=
        ih member mem fun strays => straight (.member mem (by rw [here]; exact strays))
      rw [GroupOp.join, Truth.all_eq_true, Truth.all_eq_true, forall_mem_map, forall_mem_map]
      constructor
      · rintro ⟨tests, sets⟩ member mem
        refine (members member mem).mp ⟨tests member mem, fun set there => sets set ?_⟩
        exact mem_flatMap.mpr ⟨member, mem, there⟩
      · intro holds
        refine ⟨fun member mem => ((members member mem).mpr (holds member mem)).1, ?_⟩
        intro set there
        obtain ⟨member, mem, there⟩ := mem_flatMap.mp there
        exact ((members member mem).mpr (holds member mem)).2 set there
    | or =>
      have below : (site.topAnd && decide (GroupOp.or = .and)) = false := Bool.and_false _
      have members (member : Predicate κ) (mem : member ∈ first :: rest) :=
        (agreesBelow g member).1 { site with topAnd := site.topAnd && GroupOp.or = .and } id
          below same fun strays => straight (.member mem strays)
      have nothing : ((first :: rest).flatMap fun member => (member.visitor.visit
          { site with topAnd := site.topAnd && GroupOp.or = .and }).hoisted) = [] :=
        flatMap_eq_nil_iff.mpr fun member _ => member.hoisted_below below
      rw [nothing, and_iff_left (forall_mem_nil _), GroupOp.join, Truth.any_eq_true,
        Truth.any_eq_true]
      constructor
      · rintro ⟨_, mem, isTrue⟩
        obtain ⟨member, here, rfl⟩ := mem_map.mp mem
        exact ⟨_, mem_map_of_mem here, (members member here).sound isTrue⟩
      · rintro ⟨_, mem, isTrue⟩
        obtain ⟨member, here, rfl⟩ := mem_map.mp mem
        exact ⟨_, mem_map_of_mem here, (members member here).keeps true isTrue⟩

end

section

variable {g : EntityGraph κ} {site : Site} {p member : Predicate κ} {id : ℕ}

/-- A relationship that is hoisted clamps what it holds of, and holds of nothing where it names
nothing. -/
theorem hoistAnchored_keeps {visited : Visited κ} (hoisted : p.hoistAnchored = some visited)
    (isTrue : p.value g site.scopeDepth site.native id = some true) :
    visited.keeps g site.scopeDepth id := by
  unfold Predicate.hoistAnchored at hoisted
  split at hoisted
  · next r urns =>
      split at hoisted
      · next anchorable =>
          obtain ⟨any, up⟩ := anchorable
          obtain rfl := Option.some.inj hoisted
          rw [Predicate.value, Option.some.injEq] at isTrue
          by_cases none : urns = []
          · have nobody : (fun relative => decide ((Predicate.is urns : Predicate κ).value g
                site.scopeDepth true relative = some true)) = fun _ => false := by
              funext relative
              rw [Predicate.value, if_pos none]
              rfl
            rw [nobody, Relation.meets, any] at isTrue
            simp at isTrue
          · have named : (fun relative => decide ((Predicate.is urns : Predicate κ).value g
                site.scopeDepth true relative = some true)) = g.named urns := by
              funext relative
              rw [Predicate.value, if_neg none, Bool.eq_iff_iff, decide_eq_true_eq,
                EntityGraph.urnIn_eq_true]
            rw [named] at isTrue
            rw [if_neg none]
            exact ⟨rfl, forall_mem_singleton.mpr (g.clamp_of_meets any up isTrue)⟩
      · cases hoisted
  · cases hoisted

theorem Strays.conjunct (top : site.topAnd = true) (strays : Strays g site p id) :
    ∃ member ∈ p.conjuncts, Strays g site member id := by
  induction p using Predicate.ind with
  | condition | places | everything | is | descendantOf | degree | related | relatedTo | not =>
    exact ⟨_, mem_singleton_self _, strays⟩
  | group op first rest ih =>
    cases op with
    | or => exact ⟨_, mem_singleton_self _, strays⟩
    | and =>
      cases strays with
      | member mem strays =>
        rw [Site.topAnd_and top] at strays
        obtain ⟨conjunct, there, strays⟩ := ih _ mem strays
        refine ⟨conjunct, ?_, strays⟩
        rw [Predicate.conjuncts, Predicate.allConjuncts_eq]
        exact mem_flatMap.mpr ⟨_, mem, there⟩

theorem Predicate.haveRelation_eq (members : List (Predicate κ)) :
    haveRelation members = members.any (·.hasRelation) := by
  induction members with
  | nil => rfl
  | cons member members ih => rw [haveRelation, List.any_cons, ih]

theorem Predicate.hasRelation_conjunct (none : p.hasRelation = false) :
    ∀ member ∈ p.conjuncts, member.hasRelation = false := by
  induction p using Predicate.ind with
  | condition | places | everything | is | descendantOf | degree | related | relatedTo | not =>
    exact forall_mem_singleton.mpr none
  | group op first rest ih =>
    cases op with
    | or => exact forall_mem_singleton.mpr none
    | and =>
      rw [conjuncts, allConjuncts_eq, ← flatMap_cons]
      intro member mem
      obtain ⟨conjunct, there, mem⟩ := mem_flatMap.mp mem
      refine ih conjunct there (Bool.eq_false_iff.mpr fun relation => ?_) member mem
      rw [hasRelation, haveRelation_eq] at none
      have some : (first :: rest).any (·.hasRelation) = true :=
        List.any_eq_true.mpr ⟨conjunct, there, relation⟩
      rw [List.any_cons] at some
      rw [some] at none
      cases none

def Site.of (site : Site) (member : Predicate κ) : Site :=
  if member.hasRelation then { site with topAnd := false, projected := true }
  else { site with topAnd := true }

theorem eval_joinTests (tests : List (Fragment κ)) :
    (joinTests tests).eval g id = some true ↔ ∀ test ∈ tests, test.eval g id = some true := by
  unfold joinTests
  split
  · exact ⟨fun _ => nofun, fun _ => rfl⟩
  · rw [forall_mem_singleton]
  · rw [Fragment.eval_joined, GroupOp.join, Truth.all_eq_true, forall_mem_map]

def Predicate.Straight (g : EntityGraph κ) (site : Site) (p : Predicate κ) (id : ℕ) : Prop :=
  ∀ member ∈ p.conjuncts, ¬ Strays g (site.of member) member id

theorem compile_keeps (same : site.containment = g.containment) (plain : site.expression = false)
    (straight : p.Straight g site id) :
    ((p.compile site).head.eval g id = some true ∧
      (∀ set ∈ (p.compile site).hoisted, set.keeps g site.scopeDepth id) ∧
      ∀ stage ∈ (p.compile site).tail, stage.eval g id = some true) ↔
      p.value g site.scopeDepth site.native id = some true := by
  unfold Predicate.compile
  cases relation : p.hasRelation with
  | false =>
    have top : ¬ Strays g { site with topAnd := true } p id := by
      intro strays
      obtain ⟨member, mem, strays⟩ := strays.conjunct rfl
      refine straight member mem ?_
      rw [Site.of, Predicate.hasRelation_conjunct relation member mem]
      exact strays
    have whole : (p.visitor.visit { site with topAnd := true }).keeps g site.scopeDepth id ↔
        p.value g site.scopeDepth site.native id = some true :=
      keeps_top p same rfl plain top
    rw [← whole]
    exact ⟨fun all => ⟨all.1, all.2.1⟩, fun both => ⟨both.1, both.2, nofun⟩⟩
  | true =>
    rw [if_neg (by simp), p.value_conjuncts]
    rw [eval_joinTests, forall_filter_isAlways, forall_mem_map, forall_mem_map]
    have head (member : Predicate κ) (mem : member ∈ p.conjuncts)
        (none : member.hasRelation = false) :
        (member.visitor.visit { site with topAnd := true }).keeps g site.scopeDepth id ↔
          member.value g site.scopeDepth site.native id = some true := by
      have here := straight member mem
      rw [Site.of, none] at here
      exact keeps_top member same rfl plain here
    have stage (member : Predicate κ) (mem : member ∈ p.conjuncts)
        (relation : member.hasRelation = true) :
        Agrees g { site with topAnd := false, projected := true } member id := by
      have here := straight member mem
      rw [Site.of, relation] at here
      exact (agreesBelow g member).1 _ id rfl same here
    constructor
    · rintro ⟨heads, sets, stages⟩ member mem
      cases relation : member.hasRelation with
      | true =>
        refine (stage member mem relation).sound (stages member ?_)
        exact mem_mergeSort.mpr (mem_filter.mpr ⟨mem, relation⟩)
      | false =>
        have there : member.visitor.visit { site with topAnd := true } ∈
            p.conjuncts.filterMap (Predicate.headOf site) := by
          refine mem_filterMap.mpr ⟨member, mem, ?_⟩
          rw [Predicate.headOf, relation]
          rfl
        refine (head member mem relation).mp ⟨heads _ there, fun set mem => sets set ?_⟩
        exact mem_flatMap.mpr ⟨_, there, mem⟩
    · intro holds
      have all (visited : Visited κ) (mem : visited ∈ p.conjuncts.filterMap
          (Predicate.headOf site)) : visited.keeps g site.scopeDepth id := by
        obtain ⟨member, there, written⟩ := mem_filterMap.mp mem
        unfold Predicate.headOf at written
        split at written
        · next none =>
            obtain rfl := Option.some.inj written
            exact (head member there (Bool.not_eq_true' _ ▸ none)).mpr (holds member there)
        · exact hoistAnchored_keeps written (holds member there)
      refine ⟨fun visited mem => (all visited mem).1, fun set mem => ?_, fun member mem => ?_⟩
      · obtain ⟨visited, there, mem⟩ := mem_flatMap.mp mem
        exact (all visited there).2 set mem
      · obtain ⟨there, relation⟩ := mem_filter.mp (mem_mergeSort.mp mem)
        exact (stage member there relation).keeps true (holds member there)

/-- Only sets that name something bound a search. -/
theorem compile_named : ∀ set ∈ (p.compile site).hoisted, set.1 ≠ [] := by
  unfold Predicate.compile
  split
  · exact p.hoisted_named
  · intro set mem
    obtain ⟨visited, there, mem⟩ := mem_flatMap.mp mem
    obtain ⟨member, -, written⟩ := mem_filterMap.mp there
    unfold Predicate.headOf at written
    split at written
    · obtain rfl := Option.some.inj written
      exact member.hoisted_named set mem
    · unfold Predicate.hoistAnchored at written
      split at written
      · split at written
        · obtain rfl := Option.some.inj written
          split at mem
          · cases mem
          · next some => exact mem_singleton.mp mem ▸ some
        · cases written
      · cases written

/-- Whether an entity is in scope: a candidate, and inside the view's roots where those bound the
search. -/
def EntityGraph.inScope (g : EntityGraph κ) (typed : List String → ℕ → Bool) (q : Query)
    (n : Node) : Bool :=
  g.candidate typed q n &&
    (!(q.scope.mode = .view ∧ q.scope.rootUrns ≠ []) || g.clamp q.scope.rootUrns q.maxDepth n.id)

theorem all_rootSets (scope : Scope) (n : Node) :
    ((p.query g scope).rootSets.all fun set => g.clamp set.1 set.2 n.id) = true ↔
      (scope.mode = .view ∧ scope.rootUrns ≠ [] →
        g.clamp scope.rootUrns (scope.maxDepth.getD 12) n.id = true) ∧
      ∀ set ∈ (p.compile (g.site scope)).hoisted, set.keeps g (scope.maxDepth.getD 12) n.id := by
  have everything : (p.query g scope).hoisted.filter (·.1 ≠ []) = (p.query g scope).hoisted := by
    refine filter_eq_self.mpr (forall_mem_map.mpr fun set mem => ?_)
    exact decide_eq_true (compile_named set mem)
  rw [Query.rootSets, everything, List.all_eq_true, forall_mem_append, forall_mem_map]
  refine and_congr ?_ forall_mem_map
  split
  · next roots =>
      rw [forall_mem_singleton]
      exact ⟨fun clamp _ => clamp, fun clamp => clamp roots⟩
  · next nothing => exact ⟨fun _ roots => absurd roots nothing, fun _ => nofun⟩

theorem bounded_or_all (types : g.containment ≠ []) (q : Query) (id : ℕ) :
    (!g.bounded q || q.rootSets.all fun set => g.clamp set.1 set.2 id) =
      q.rootSets.all fun set => g.clamp set.1 set.2 id := by
  rw [EntityGraph.bounded, decide_eq_true types]
  cases q.rootSets <;> rfl

/-- What the statement keeps is what is in scope and what the predicate holds of, when each of its
members is tested on the entity itself: where there are containment edges to clamp by, and where
no fragment strays. -/
theorem keeps_iff (g : EntityGraph κ) (typed : List String → ℕ → Bool) (scope : Scope)
    (p : Predicate κ) (n : Node) (types : g.containment ≠ [])
    (straight : p.Straight g (g.site scope) n.id) :
    g.keeps typed (p.query g scope) n = true ↔ g.inScope typed (p.query g scope) n = true ∧
        p.value g (scope.maxDepth.getD 12) false n.id = some true := by
  have holds : _ ↔ p.value g (scope.maxDepth.getD 12) false n.id = some true :=
    compile_keeps rfl rfl straight
  have tests : (p.query g scope).keeps n = true ↔
      (p.compile (g.site scope)).head.eval g n.id = some true ∧
        ∀ stage ∈ (p.compile (g.site scope)).tail, stage.eval g n.id = some true :=
    decide_eq_true_iff
  have roots : (!decide (scope.mode = .view ∧ scope.rootUrns ≠ []) ||
      g.clamp scope.rootUrns (scope.maxDepth.getD 12) n.id) = true ↔
        (scope.mode = .view ∧ scope.rootUrns ≠ [] →
          g.clamp scope.rootUrns (scope.maxDepth.getD 12) n.id = true) := by
    rw [Bool.or_eq_true, Bool.not_eq_true', decide_eq_false_iff_not, imp_iff_not_or]
  rw [EntityGraph.keeps, bounded_or_all types, Bool.and_eq_true, Bool.and_eq_true, tests,
    all_rootSets, EntityGraph.inScope, Bool.and_eq_true, ← holds]
  refine Iff.trans ?_ (and_congr_left' (and_congr_right' roots)).symm
  constructor
  · rintro ⟨⟨candidate, head, tail⟩, view, sets⟩
    exact ⟨⟨candidate, view⟩, head, sets, tail⟩
  · rintro ⟨⟨candidate, view⟩, head, sets, tail⟩
    exact ⟨⟨candidate, head, tail⟩, view, sets⟩

end

/-- A database, and a table in it with no description: what tests it is null. -/
def shelf (containment : List String) : EntityGraph Unit where
  nodes := [{ id := 0, urn := some "db", labels := ["Database"] },
    { id := 1, urn := some "table", labels := ["Table"] }]
  edges := [{ type := "CONTAINS", source := 0, target := 1 }]
  containment
  test _ _ _ := none

def shelfTable : Node where
  id := 1
  urn := some "table"
  labels := ["Table"]

def wholeSource : Scope where
  mode := .dataSource
  maxDepth_pos := (by simp : ∀ depth ∈ none, 0 < depth)

/-- A table in a database is kept. -/
theorem keeps_inDatabase :
    (shelf ["CONTAINS"]).keeps (fun _ _ => true) (inDatabase.query (shelf ["CONTAINS"]) wholeSource)
      shelfTable = true := by
  refine (keeps_iff _ _ wholeSource inDatabase shelfTable (by decide) ?_).mpr ⟨by decide, by decide⟩
  intro member mem strays
  obtain rfl | rfl | rfl : member = .descendantOf ["db"] none ∨
      member = .relatedTo { axis := .ancestor } (.is ["db"]) ∨ member = .not (.is ["db"]) := by
    simpa [inDatabase, Predicate.conjuncts, Predicate.allConjuncts] using mem
  · cases strays
  · cases strays with
    | relative relates mem strays =>
      obtain rfl := mem_singleton.mp mem
      cases strays
  · cases strays with
    | null plain filtered null =>
      obtain ⟨-, group⟩ | filtered := filtered
      · cases group
      · cases filtered
    | inner strays => cases strays

/-- A clamp that is dropped where no edge is one of containment, a NOT of a null group, and a degree
of no edge type: each keeps what its predicate does not hold of. -/
theorem keeps_astray : ((shelf []).inScope (fun _ _ => true)
        ((Predicate.descendantOf ["db"] none).query (shelf []) wholeSource) shelfTable = true ∧
      (shelf []).keeps (fun _ _ => true)
        ((Predicate.descendantOf ["db"] none).query (shelf []) wholeSource) shelfTable = true ∧
      (Predicate.descendantOf ["db"] none).value (shelf []) 12 false 1 = some false) ∧
    (∃ p : Predicate Unit, p = .group .or
          (.not (.group .and (.condition ()) [.everything])) [.is ["db"]] ∧
      (shelf ["CONTAINS"]).keeps (fun _ _ => true) (p.query (shelf ["CONTAINS"]) wholeSource)
        shelfTable = true ∧
      p.value (shelf ["CONTAINS"]) 12 false 1 = none) ∧
    ∃ p : Predicate Unit, p = .degree ⟨.both, .lt, 0, []⟩ ∧
      (shelf ["CONTAINS"]).keeps (fun _ _ => true) (p.query (shelf ["CONTAINS"]) wholeSource)
        shelfTable = true ∧
      p.value (shelf ["CONTAINS"]) 12 false 1 = some false :=
  ⟨⟨by decide, by decide, by decide⟩, ⟨_, rfl, by decide, by decide⟩,
    ⟨_, rfl, by decide, by decide⟩⟩

end DataViz.Search
