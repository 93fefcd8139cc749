/-
# What a fragment says of an entity

What a predicate says of an entity, by three-valued logic over what its members say of that entity
alone (`Predicate.value`). Below the top-level AND, what the compiler writes differs from that only
where the predicate is null, and never says true then (`agreesBelow`). It strays in two places
(`Strays`): a degree of no edge type that counts less than none, and a NOT of a group that is null.
-/

import DataViz.Search.Predicate

namespace DataViz.Search

open List

open Routes

variable {κ : Type}

section

variable {motive : Predicate κ → Prop} (condition : ∀ c, motive (.condition c))
  (places : ∀ c, motive (.places c)) (everything : motive .everything)
  (is : ∀ urns, motive (.is urns))
  (descendantOf : ∀ urns maxDepth, motive (.descendantOf urns maxDepth))
  (degree : ∀ d, motive (.degree d)) (related : ∀ r, motive (.related r))
  (relatedTo : ∀ r far, motive far → motive (.relatedTo r far))
  (group : ∀ op first rest, (∀ member ∈ first :: rest, motive member) →
    motive (.group op first rest))
  (not : ∀ inner, motive inner → motive (.not inner))

include condition places everything is descendantOf degree related relatedTo group not in
/-- Induction on a predicate, with each member of a group at hand. -/
@[elab_as_elim]
theorem Predicate.ind (p : Predicate κ) : motive p :=
  @Predicate.rec κ motive (fun ps => ∀ p ∈ ps, motive p) condition places everything is
    descendantOf degree related relatedTo
    (fun op first rest one all => group op first rest (forall_mem_cons.mpr ⟨one, all⟩)) not
    nofun (fun _ _ one all => forall_mem_cons.mpr ⟨one, all⟩) p

end

mutual

def Predicate.value (g : EntityGraph κ) (scopeDepth : ℕ) : Bool → Predicate κ → ℕ → Truth
  | native, .condition c, id => g.test native c id
  | _, .places c, id => g.test true c id
  | _, .everything, _ => some true
  | _, .is urns, id => if urns = [] then some false else g.urnIn urns id
  | _, .descendantOf urns maxDepth, id =>
    if urns = [] then some false
    else g.inside urns ((maxDepth.map PNat.val).getD scopeDepth) id
  | _, .degree d, id => some (d.op.holds (d.count g id) d.value)
  | _, .related r, id => some (r.meets g (fun _ => true) (fun _ => true) id)
  | _, .relatedTo r far, id => some (r.meets g (fun _ => true)
      (fun relative => far.value g scopeDepth true relative = some true) id)
  | native, .group .and first rest, id =>
    Truth.all (first.value g scopeDepth native id :: values g scopeDepth native rest id)
  | native, .group .or first rest, id =>
    Truth.any (first.value g scopeDepth native id :: values g scopeDepth native rest id)
  | native, .not inner, id => Truth.not (inner.value g scopeDepth native id)

def Predicate.values (g : EntityGraph κ) (scopeDepth : ℕ) :
    Bool → List (Predicate κ) → ℕ → List Truth
  | _, [], _ => []
  | native, member :: members, id =>
    member.value g scopeDepth native id :: values g scopeDepth native members id

end

/-- Whether a predicate, where no expression is, is written as the WHERE of a comprehension. -/
def Predicate.isFiltered : Predicate κ → Bool
  | .group _ first rest => (first :: rest).any (·.isGroup)
  | .not inner => inner.isGroup
  | _ => false

/-- Where an entity is read otherwise than a predicate says: by a degree of no edge type that
counts less than none, or under a NOT whose group is null and is written as the WHERE of a
comprehension, which reads null as false. -/
inductive Strays (g : EntityGraph κ) : Site → Predicate κ → ℕ → Prop
  | degree {site : Site} {d : Degree} {id : ℕ} (types : d.edgeTypes = []) (op : d.op = .lt)
      (value : d.value = 0) : Strays g site (.degree d) id
  | null {site : Site} {inner : Predicate κ} {id : ℕ} (plain : site.expression = false)
      (filtered : (site.topAnd = false ∧ inner.isGroup) ∨ inner.isFiltered)
      (null : inner.value g site.scopeDepth site.native id = none) : Strays g site (.not inner) id
  | inner {site : Site} {inner : Predicate κ} {id : ℕ}
      (strays : Strays g { site with topAnd := false } inner id) : Strays g site (.not inner) id
  | member {site : Site} {op : GroupOp} {first : Predicate κ} {rest : List (Predicate κ)}
      {member : Predicate κ} {id : ℕ} (mem : member ∈ first :: rest)
      (strays : Strays g { site with topAnd := site.topAnd && op = .and } member id) :
      Strays g site (.group op first rest) id
  | relative {site : Site} {r : Relation} {far member : Predicate κ} {relative id : ℕ}
      (relates : relative ∈ r.relatives g id) (mem : member ∈ far.conjuncts)
      (strays : Strays g { site with
        topAnd := false, native := true, expression := !(r.quantifier ≠ .all && member.isSimple) }
        member relative) :
      Strays g site (.relatedTo r far) id

theorem any_eq_filter {α : Type*} (items : List α) (test : α → Bool) :
    items.any test = decide (items.filter test ≠ []) := by
  rw [Bool.eq_iff_iff]
  simp [filter_eq_nil_iff]

section

variable {g : EntityGraph κ} {r : Relation} {id : ℕ}

/-- Only what its tests say of the relatives matters to a relationship. -/
theorem Relation.meets_congr {listed test test' : ℕ → Bool}
    (same : ∀ relative ∈ r.relatives g id, (listed relative && test relative) = test' relative)
    (all : r.quantifier = .all → ∀ relative ∈ r.relatives g id, listed relative = true) :
    r.meets g listed test id = r.meets g (fun _ => true) test' id := by
  have tested : ((r.relatives g id).filter listed).filter
      (fun relative => r.isTop g relative && test relative) =
        ((r.relatives g id).filter fun _ => true).filter
          fun relative => r.isTop g relative && test' relative := by
    rw [filter_filter, filter_filter]
    refine filter_congr fun relative mem => ?_
    rw [← same relative mem, Bool.and_true, Bool.and_comm, Bool.and_left_comm]
  unfold Relation.meets
  cases quantifier : r.quantifier with
  | any =>
    dsimp only
    rw [any_eq_filter, any_eq_filter, tested]
  | none =>
    dsimp only
    rw [any_eq_filter, any_eq_filter, tested]
  | count op value =>
    dsimp only
    rw [tested]
  | all =>
    have everyone : (r.relatives g id).filter listed = (r.relatives g id).filter fun _ => true :=
      filter_congr (all quantifier)
    dsimp only
    rw [everyone]
    congr 1
    rw [Bool.eq_iff_iff, List.all_eq_true, List.all_eq_true]
    refine forall₂_congr fun relative mem => ?_
    have there := (mem_filter.mp (mem_filter.mp mem).1).1
    rw [← same relative there, all quantifier relative there, Bool.true_and]

theorem Relation.meets_of_no_edges {test : ℕ → Bool} (none : g.containment = []) :
    r.meets g (fun _ => true) test id = r.overNoRelatives := by
  have nobody : r.relatives g id = [] := by
    refine eq_nil_iff_forall_not_mem.mpr fun relative mem => ?_
    obtain ⟨k, least, -, found⟩ := mem_reached.mp (mem_filter.mp mem).1
    obtain ⟨k, rfl⟩ := Nat.exists_eq_add_of_lt (r.hopRange.1.pos.trans_le least)
    obtain ⟨next, first, -⟩ := walk_of_mem_ends found
    have nowhere : (if r.axis.up then g.parents else g.children) id = [] := by
      unfold EntityGraph.parents EntityGraph.children EntityGraph.sources EntityGraph.targets
      rw [none]
      split <;> simp
    rw [nowhere] at first
    cases first
  unfold Relation.meets Relation.overNoRelatives
  rw [nobody]
  cases r.quantifier with
  | any => rfl
  | none => rfl
  | all => rfl
  | count op value =>
    cases op with
    | lt => rfl
    | _ => simp [CountOp.holds, eq_comm]

end

def GroupOp.join : GroupOp → List Truth → Truth
  | .and => Truth.all
  | .or => Truth.any

section

variable {op : GroupOp} {items : List α} {value reading : α → Truth}

theorem GroupOp.keeps_join (keeps : ∀ item ∈ items, Truth.Keeps (value item) (reading item)) :
    Truth.Keeps (op.join (items.map value)) (op.join (items.map reading)) := by
  cases op with
  | and => exact Truth.Keeps.all keeps
  | or => exact Truth.Keeps.any keeps

theorem GroupOp.join_eq_true
    (sound : ∀ item ∈ items, reading item = some true → value item = some true)
    (isTrue : op.join (items.map reading) = some true) :
    op.join (items.map value) = some true := by
  cases op with
  | and =>
    refine Truth.all_eq_true.mpr (forall_mem_map.mpr fun item mem => sound item mem ?_)
    exact Truth.all_eq_true.mp isTrue _ (mem_map_of_mem mem)
  | or =>
    obtain ⟨_, mem, isTrue⟩ := Truth.any_eq_true.mp isTrue
    obtain ⟨item, here, rfl⟩ := mem_map.mp mem
    exact Truth.any_eq_true.mpr ⟨_, mem_map_of_mem here, sound item here isTrue⟩

end

theorem Fragment.evals_eq (g : EntityGraph κ) (parts : List (Fragment κ)) (id : ℕ) :
    Fragment.evals g parts id = parts.map (·.eval g id) := by
  induction parts with
  | nil => rfl
  | cons part parts ih => rw [Fragment.evals, map_cons, ih]

theorem Fragment.eval_joined (g : EntityGraph κ) (op : GroupOp) (parts : List (Fragment κ))
    (id : ℕ) : (Fragment.joined op parts).eval g id = op.join (parts.map (·.eval g id)) := by
  cases op <;> rw [Fragment.eval, Fragment.evals_eq] <;> rfl

namespace Predicate

theorem values_eq (g : EntityGraph κ) (scopeDepth : ℕ) (native : Bool)
    (members : List (Predicate κ)) (id : ℕ) : values g scopeDepth native members id =
      members.map fun member => member.value g scopeDepth native id := by
  induction members with
  | nil => rfl
  | cons member members ih => rw [values, map_cons, ih]

theorem visitors_eq (members : List (Predicate κ)) : visitors members = members.map visitor := by
  induction members with
  | nil => rfl
  | cons member members ih => rw [visitors, map_cons, ih]

theorem allConjuncts_eq (members : List (Predicate κ)) :
    allConjuncts members = members.flatMap conjuncts := by
  induction members with
  | nil => rfl
  | cons member members ih => rw [allConjuncts, flatMap_cons, ih]

theorem value_group (g : EntityGraph κ) (scopeDepth : ℕ) (native : Bool) (op : GroupOp)
    (first : Predicate κ) (rest : List (Predicate κ)) (id : ℕ) :
    (group op first rest).value g scopeDepth native id =
      op.join ((first :: rest).map fun member => member.value g scopeDepth native id) := by
  cases op <;> rw [value, values_eq, map_cons] <;> rfl

mutual

theorem value_conjuncts (g : EntityGraph κ) (scopeDepth : ℕ) (native : Bool) (id : ℕ) :
    (p : Predicate κ) → (p.value g scopeDepth native id = some true ↔
      ∀ member ∈ p.conjuncts, member.value g scopeDepth native id = some true)
  | .condition _ | .places _ | .everything | .is _ | .descendantOf _ _ | .degree _
  | .related _ | .relatedTo _ _ | .group .or _ _ | .not _ => by
    rw [conjuncts, forall_mem_singleton]
    exact nofun
  | .group .and first rest => by
    rw [value, Truth.all_cons, Truth.and_eq_true, first.value_conjuncts,
      values_conjuncts g scopeDepth native id rest, conjuncts, forall_mem_append]

theorem values_conjuncts (g : EntityGraph κ) (scopeDepth : ℕ) (native : Bool) (id : ℕ) :
    (ps : List (Predicate κ)) → (Truth.all (values g scopeDepth native ps id) = some true ↔
      ∀ member ∈ allConjuncts ps, member.value g scopeDepth native id = some true)
  | [] => by simp [values, allConjuncts]
  | p :: ps => by
    rw [values, Truth.all_cons, Truth.and_eq_true, p.value_conjuncts,
      values_conjuncts g scopeDepth native id ps, allConjuncts, forall_mem_append]

end

mutual

theorem members_visitor : (p : Predicate κ) →
    p.visitor.members = p.conjuncts.map fun member => ⟨member.isSimple, member.visitor.visit⟩
  | .condition _ | .places _ | .everything | .is _ | .descendantOf _ _ | .degree _
  | .related _ | .relatedTo _ _ | .group .or _ _ | .not _ => rfl
  | .group .and first rest => by
    rw [conjuncts, map_append, ← first.members_visitor, ← members_visitors rest]
    rfl

theorem members_visitors : (ps : List (Predicate κ)) → (visitors ps).flatMap (·.members) =
      (allConjuncts ps).map fun member => ⟨member.isSimple, member.visitor.visit⟩
  | [] => rfl
  | p :: ps => by
    rw [visitors, flatMap_cons, allConjuncts, map_append, p.members_visitor, members_visitors ps]

end

/-- How a group is written. -/
theorem visit_group (op : GroupOp) (first : Predicate κ) (rest : List (Predicate κ)) (site : Site) :
    (group op first rest).visitor.visit site =
      { text := visitGroup site op ((first :: rest).any (·.isGroup))
          ((first :: rest).map fun member =>
            (member.visitor.visit { site with topAnd := site.topAnd && op = .and }).text)
        hoisted := (first :: rest).flatMap fun member =>
          (member.visitor.visit { site with topAnd := site.topAnd && op = .and }).hoisted } := by
  cases op <;> rw [visitor, visitors_eq, ← map_cons] <;>
    simp [visitor1, map_map, flatMap_map, Function.comp_def]

end Predicate

theorem Predicate.isFiltered_of_not_isGroup {p : Predicate κ} (alone : p.isGroup = false) :
    p.isFiltered = false := by
  cases p <;> first | rfl | cases alone

theorem Predicate.isFiltered_of_isRelated {p : Predicate κ} (related : p.isRelated = true) :
    p.isFiltered = false := by
  cases p <;> first | rfl | cases related

/-- How what a predicate is written as stands to what it says: it differs only where the predicate
is null, never says true then, and not at all but in the WHERE of a comprehension. -/
structure Agrees (g : EntityGraph κ) (site : Site) (p : Predicate κ) (id : ℕ) : Prop where
  keeps : Truth.Keeps (p.value g site.scopeDepth site.native id)
    ((p.visitor.visit site).text.eval g id)
  sound : (p.visitor.visit site).text.eval g id = some true →
    p.value g site.scopeDepth site.native id = some true
  exact : site.expression = true ∨ p.isFiltered = false →
    (p.visitor.visit site).text.eval g id = p.value g site.scopeDepth site.native id

/-- A predicate is read as what it says wherever it stands below the top-level AND. -/
def AgreesBelow (g : EntityGraph κ) (p : Predicate κ) : Prop :=
  ∀ (site : Site) (id : ℕ), site.topAnd = false → site.containment = g.containment →
    ¬ Strays g site p id → Agrees g site p id

section

variable {g : EntityGraph κ} {site : Site} {p inner far : Predicate κ} {id : ℕ}

theorem Agrees.of_eq (same : (p.visitor.visit site).text.eval g id =
    p.value g site.scopeDepth site.native id) : Agrees g site p id :=
  ⟨same ▸ Truth.Keeps.refl _, fun isTrue => same ▸ isTrue, fun _ => same⟩

theorem Agrees.eq_true (agrees : Agrees g site p id) :
    (p.visitor.visit site).text.eval g id = some true ↔
      p.value g site.scopeDepth site.native id = some true :=
  ⟨agrees.sound, agrees.keeps true⟩

/-- Of a predicate that is not null, the fragment says what the predicate does. -/
theorem Agrees.eq_of_ne_none (agrees : Agrees g site p id)
    (known : p.value g site.scopeDepth site.native id ≠ none) :
    (p.visitor.visit site).text.eval g id = p.value g site.scopeDepth site.native id :=
  agrees.keeps.eq known

/-- A degree is written so that it says how many edges compare so. -/
theorem eval_visitDegree (d : Degree) (projected : Bool) (id : ℕ)
    (counts : ¬ (d.edgeTypes = [] ∧ d.op = .lt ∧ d.value = 0)) :
    (visitDegree d projected : Fragment κ).eval g id =
      some (d.op.holds (d.count g id) d.value) := by
  obtain ⟨direction, op, value, edgeTypes⟩ := d
  by_cases none : edgeTypes = []
  · have nothing : (Degree.mk direction op value edgeTypes).count g id = 0 := by
      subst none
      cases direction <;> simp [Degree.count, EntityGraph.sources, EntityGraph.targets]
    rw [nothing]
    obtain rfl | positive := Nat.eq_zero_or_pos value
    · cases op with
      | lt => exact absurd ⟨none, rfl, rfl⟩ counts
      | _ => simp [visitDegree, none, Fragment.eval, CountOp.holds]
    · have some := positive.ne'
      cases op <;> simp [visitDegree, none, positive, some, some.symm, Fragment.eval,
        CountOp.holds, Nat.not_le.mpr positive]
  · unfold visitDegree
    rw [if_neg none]
    cases projected with
    | true => rfl
    | false =>
      generalize counted : (Degree.mk direction op value edgeTypes).count g id = count
      obtain _ | _ | value := value
      · cases op <;> simp [Fragment.eval, CountOp.holds, counted, Nat.pos_iff_ne_zero]
      · cases op <;> simp [Fragment.eval, CountOp.holds, counted]; rfl
      · cases op <;> simp [Fragment.eval, CountOp.holds, counted]

theorem Agrees.degree {d : Degree} (straight : ¬ Strays g site (.degree d) id) :
    Agrees g site (.degree d) id := by
  refine Agrees.of_eq ?_
  refine eval_visitDegree d _ id fun strays => straight ?_
  exact .degree strays.1 strays.2.1 strays.2.2

theorem Agrees.is (urns : List String) : Agrees g site (.is urns) id := by
  refine Agrees.of_eq ?_
  show (if urns = [] then Fragment.never else .urnIn urns).eval g id =
    if urns = [] then some false else g.urnIn urns id
  split <;> rfl

theorem agreesBelow_descendantOf (urns : List String) (maxDepth : Option ℕ+) :
    AgreesBelow g (.descendantOf urns maxDepth) := by
  intro site id below _ _
  refine Agrees.of_eq ?_
  rw [Predicate.visitor, Predicate.visitor1, Predicate.value]
  dsimp only
  rw [below]
  split <;> rfl

theorem Agrees.related (r : Relation) (same : site.containment = g.containment) :
    Agrees g site (.related r) id := by
  refine Agrees.of_eq ?_
  show (visitRelated site r []).eval g id = some (r.meets g (fun _ => true) (fun _ => true) id)
  unfold visitRelated
  rw [same]
  split
  · next none =>
      rw [Relation.meets_of_no_edges none]
      cases r.overNoRelatives <;> rfl
  · rfl

/-- What is written `true` may be left out. -/
theorem forall_filter_isAlways {texts : List (Fragment κ)} :
    (∀ text ∈ texts.filter (!·.isAlways), text.eval g id = some true) ↔
      ∀ text ∈ texts, text.eval g id = some true := by
  refine ⟨fun holds text mem => ?_, fun holds text mem => holds text (mem_filter.mp mem).1⟩
  cases always : text.isAlways with
  | true =>
    cases text <;> first | rfl | cases always
  | false => exact holds text (mem_filter.mpr ⟨mem, by rw [always]; rfl⟩)

theorem holds_relativeTests {r : Relation} {members : List (Member κ)} :
    ((∀ text ∈ (relativeTests site r members).1, text.eval g id = some true) ∧
      ∀ text ∈ (relativeTests site r members).2, text.eval g id = some true) ↔
      ∀ member ∈ members, (member.visit { site with
        topAnd := false, native := true,
        expression := !(r.quantifier ≠ .all && member.simple) }).text.eval g id = some true := by
  unfold relativeTests
  rw [forall_filter_isAlways, forall_mem_map, forall_mem_map]
  simp only [Fragment.eval]
  rw [forall_filter_isAlways, forall_mem_map]
  constructor
  · rintro ⟨filters, tests⟩ member mem
    cases simple : r.quantifier ≠ .all && member.simple with
    | true => exact filters member (mem_filter.mpr ⟨mem, simple⟩)
    | false => exact tests member (mem_filter.mpr ⟨mem, by rw [simple]; rfl⟩)
  · intro holds
    refine ⟨fun member mem => ?_, fun member mem => ?_⟩
    · obtain ⟨mem, simple⟩ := mem_filter.mp mem
      have here := holds member mem
      rw [simple] at here
      exact here
    · obtain ⟨mem, rest⟩ := mem_filter.mp mem
      have here := holds member mem
      rw [rest] at here
      exact here

theorem Agrees.relatedTo {r : Relation} (members : ∀ member ∈ far.conjuncts, AgreesBelow g member)
    (same : site.containment = g.containment) (straight : ¬ Strays g site (.relatedTo r far) id) :
    Agrees g site (.relatedTo r far) id := by
  refine Agrees.of_eq ?_
  show (visitRelated site r far.visitor.members).eval g id = some (r.meets g (fun _ => true)
    (fun relative => far.value g site.scopeDepth true relative = some true) id)
  unfold visitRelated
  rw [same]
  split
  · next none =>
      rw [Relation.meets_of_no_edges none]
      cases r.overNoRelatives <;> rfl
  · rw [far.members_visitor]
    refine congrArg some (Relation.meets_congr ?_ ?_)
    · intro relative relates
      rw [Bool.eq_iff_iff, Bool.and_eq_true, decide_eq_true_eq, Fragment.evals_eq,
        Fragment.evals_eq, List.all_eq_true, List.all_eq_true, forall_mem_map,
        forall_mem_map, far.value_conjuncts]
      simp only [decide_eq_true_eq]
      rw [holds_relativeTests, forall_mem_map]
      refine forall₂_congr fun member mem => ?_
      have agrees := members member mem { site with
        topAnd := false, native := true,
        expression := !(r.quantifier ≠ .all && member.isSimple) } relative rfl same
        fun strays => straight (.relative relates mem strays)
      exact agrees.eq_true
    · intro all relative relates
      have nothing : (relativeTests site r (far.conjuncts.map fun member =>
          ⟨member.isSimple, member.visitor.visit⟩)).1 = [] := by
        unfold relativeTests
        rw [all]
        simp
      rw [nothing]
      rfl

theorem Agrees.not (agrees : AgreesBelow g inner) (same : site.containment = g.containment)
    (straight : ¬ Strays g site (.not inner) id) : Agrees g site (.not inner) id := by
  have agrees' := agrees { site with topAnd := false } id rfl same fun strays =>
    straight (.inner strays)
  refine Agrees.of_eq ?_
  show (visitNot site inner (inner.visitor.visit { site with topAnd := false }).text).eval g id =
    Truth.not (inner.value g site.scopeDepth site.native id)
  unfold visitNot
  split
  · next plain =>
      refine congrArg Truth.not (agrees'.exact ?_)
      obtain expression | related := Bool.or_eq_true_iff.mp plain
      · exact .inl expression
      · exact .inr (Predicate.isFiltered_of_isRelated related)
  · next plain =>
      obtain ⟨expression, -⟩ := Bool.or_eq_false_iff.mp (Bool.not_eq_true _ ▸ plain)
      split
      · next group =>
          obtain ⟨below, group⟩ := Bool.and_eq_true_iff.mp group
          have known : inner.value g site.scopeDepth site.native id ≠ none := fun null =>
            straight (.null expression (.inl ⟨Bool.not_eq_true' _ ▸ below, group⟩) null)
          have read := agrees'.eq_of_ne_none known
          obtain ⟨said, known⟩ := Option.ne_none_iff_exists'.mp known
          rw [Fragment.eval, read]
          rw [known]
          cases said <;> rfl
      · refine congrArg Truth.not ?_
        cases filtered : inner.isFiltered with
        | true =>
          exact agrees'.eq_of_ne_none fun null =>
            straight (.null expression (.inr filtered) null)
        | false => exact agrees'.exact (.inr filtered)

theorem AgreesBelow.group {op : GroupOp} {first : Predicate κ} {rest : List (Predicate κ)}
    (members : ∀ member ∈ first :: rest, AgreesBelow g member) :
    AgreesBelow g (.group op first rest) := by
  intro site id below same straight
  have here : ({ site with topAnd := site.topAnd && op = .and } : Site) = site := by
    cases site
    cases show _ = false from below
    rfl
  have agrees (member : Predicate κ) (mem : member ∈ first :: rest) : Agrees g site member id :=
    members member mem site id below same fun strays => straight
      (.member mem (by rw [here]; exact strays))
  have value := Predicate.value_group g site.scopeDepth site.native op first rest id
  have text : ((Predicate.group op first rest).visitor.visit site).text =
      visitGroup site op ((first :: rest).any (·.isGroup))
        ((first :: rest).map fun member => (member.visitor.visit site).text) := by
    rw [Predicate.visit_group, here]
  have joined : (Fragment.joined op ((first :: rest).map fun member =>
      (member.visitor.visit site).text)).eval g id = op.join ((first :: rest).map fun member =>
        (member.visitor.visit site).text.eval g id) := by
    rw [Fragment.eval_joined, map_map]
    rfl
  unfold visitGroup at text
  split at text
  · next expression =>
      refine Agrees.of_eq ?_
      rw [text, value, Fragment.eval_joined, map_map, map_map]
      refine congrArg op.join (map_congr_left fun member mem => ?_)
      exact (agrees member mem).exact (.inl expression)
  · next plain =>
      split at text
      · next filtered =>
          rw [below, Bool.not_false, Bool.true_and] at filtered
          have keeps := op.keeps_join fun member mem => (agrees member mem).keeps
          have sound := op.join_eq_true fun member mem => (agrees member mem).sound
          have read : ((Predicate.group op first rest).visitor.visit site).text.eval g id =
              some (decide (op.join ((first :: rest).map fun member =>
                (member.visitor.visit site).text.eval g id) = some true) == true) := by
            rw [text, Fragment.eval, joined]
          refine ⟨?_, ?_, ?_⟩
          · intro said known
            rw [read, keeps said (value ▸ known)]
            cases said <;> rfl
          · intro isTrue
            rw [read, beq_true, Option.some.injEq, decide_eq_true_eq] at isTrue
            rw [value]
            exact sound isTrue
          · rintro (expression | alone)
            · exact absurd expression plain
            · exact Bool.noConfusion (filtered.symm.trans alone)
      · next alone =>
          rw [below] at alone
          refine Agrees.of_eq ?_
          rw [text, value, joined]
          refine congrArg op.join (map_congr_left fun member mem => ?_)
          refine (agrees member mem).exact (.inr (Predicate.isFiltered_of_not_isGroup ?_))
          exact Bool.eq_false_iff.mpr fun group => alone (List.any_eq_true.mpr ⟨member, mem, group⟩)

theorem AgreesBelow.alone (alone : p.conjuncts = [p]) (agrees : AgreesBelow g p) :
    AgreesBelow g p ∧ ∀ member ∈ p.conjuncts, AgreesBelow g member :=
  ⟨agrees, alone ▸ forall_mem_singleton.mpr agrees⟩

/-- Below the top-level AND every predicate, and every member of its AND, is read as what it
says. -/
theorem agreesBelow (g : EntityGraph κ) (p : Predicate κ) :
    AgreesBelow g p ∧ ∀ member ∈ p.conjuncts, AgreesBelow g member := by
  induction p using Predicate.ind with
  | condition c => exact AgreesBelow.alone rfl fun _ _ _ _ _ => .of_eq rfl
  | places c => exact AgreesBelow.alone rfl fun _ _ _ _ _ => .of_eq rfl
  | everything => exact AgreesBelow.alone rfl fun _ _ _ _ _ => .of_eq rfl
  | is urns => exact AgreesBelow.alone rfl fun _ _ _ _ _ => .is urns
  | descendantOf urns maxDepth =>
    exact AgreesBelow.alone rfl (agreesBelow_descendantOf urns maxDepth)
  | degree d => exact AgreesBelow.alone rfl fun _ _ _ _ straight => .degree straight
  | related r => exact AgreesBelow.alone rfl fun _ _ _ same _ => .related r same
  | relatedTo r far ih =>
    exact AgreesBelow.alone rfl fun _ _ _ same straight => .relatedTo ih.2 same straight
  | not inner ih => exact AgreesBelow.alone rfl fun _ _ _ same straight => .not ih.1 same straight
  | group op first rest ih =>
    have agrees : AgreesBelow g (.group op first rest) :=
      .group fun member mem => (ih member mem).1
    cases op with
    | or => exact AgreesBelow.alone rfl agrees
    | and =>
      refine ⟨agrees, ?_⟩
      rw [Predicate.conjuncts, Predicate.allConjuncts_eq, ← flatMap_cons]
      intro member mem
      obtain ⟨p, there, mem⟩ := mem_flatMap.mp mem
      exact (ih p there).2 member mem

end

end DataViz.Search
