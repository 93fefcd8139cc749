/-
# The predicate of a search

`_Compiler` of `falkordb_deep_search.py`, for entity conditions, `descendantOf`, degrees, named
entities and relationships of the hierarchy. A predicate becomes a head that every candidate is
tested by, root sets that bound the search, and the stages of a tail. What stands in the top-level
AND and can bound the search does not stay in the head.

A fragment is modelled by its tree, not by its text; it says true, false or null of an entity. What
an entity condition says of an entity is a parameter.
-/

import DataViz.Data.Routes
import DataViz.Data.Truth
import DataViz.Search.Plan
import Mathlib.Data.PNat.Basic

namespace DataViz.Search

structure Edge where
  type : String
  source : ℕ
  target : ℕ
  deriving DecidableEq

/-- What a statement reads: the entities and edges, the types of the containment edges, and what an
entity condition's fragment says, of natively kept values alone or of raw ones too. -/
structure EntityGraph (κ : Type) where
  nodes : List Node
  edges : List Edge
  containment : List String
  test (native : Bool) (condition : κ) (id : ℕ) : Truth

namespace EntityGraph

variable {κ : Type} (g : EntityGraph κ)

def urn (id : ℕ) : Option String :=
  (g.nodes.find? (·.id = id)).bind (·.urn)

def targets (types : List String) (id : ℕ) : List ℕ :=
  (g.edges.filter fun edge => edge.type ∈ types ∧ edge.source = id).map (·.target)

def sources (types : List String) (id : ℕ) : List ℕ :=
  (g.edges.filter fun edge => edge.type ∈ types ∧ edge.target = id).map (·.source)

def parents : ℕ → List ℕ :=
  g.sources g.containment

def children : ℕ → List ℕ :=
  g.targets g.containment

def named (urns : List String) (id : ℕ) : Bool :=
  (g.urn id).any (· ∈ urns)

/-- A test of an entity's URN, which an entity may not have. -/
def urnIn (urns : List String) (id : ℕ) : Truth :=
  (g.urn id).map (· ∈ urns)

/-- A continuation: an entity that is named, or that a walk of at most `depth` steps down from one
that is named leads to. -/
def clamp (urns : List String) (depth id : ℕ) : Bool :=
  (g.nodes.map (·.id)).any fun root =>
    g.named urns root && id ∈ Routes.reached g.children 0 depth root

def inside (urns : List String) (depth id : ℕ) : Truth :=
  Truth.or (g.urnIn urns id) (some ((Routes.reached g.parents 1 depth id).any (g.named urns)))

end EntityGraph

inductive CountOp
  | eq
  | neq
  | gt
  | gte
  | lt
  | lte
  deriving DecidableEq

def CountOp.holds (op : CountOp) (count value : ℕ) : Bool :=
  match op with
  | .eq => count = value
  | .neq => count ≠ value
  | .gt => value < count
  | .gte => value ≤ count
  | .lt => count < value
  | .lte => count ≤ value

inductive Direction
  | incoming
  | outgoing
  | both
  deriving DecidableEq

/-- `DegreePredicate`, with the edge types it resolves to. -/
structure Degree where
  direction : Direction
  op : CountOp
  value : ℕ
  edgeTypes : List String
  deriving DecidableEq

def Degree.count {κ : Type} (d : Degree) (g : EntityGraph κ) (id : ℕ) : ℕ :=
  match d.direction with
  | .incoming => (g.sources d.edgeTypes id).length
  | .outgoing => (g.targets d.edgeTypes id).length
  | .both => (g.sources d.edgeTypes id).length + (g.targets d.edgeTypes id).length

/-- Which relatives of an entity a relationship is about. -/
inductive Axis
  | parent
  | ancestor
  | root
  | child
  | descendant
  deriving DecidableEq

/-- Whether relatives are looked for up the tree. -/
def Axis.up : Axis → Bool
  | .parent | .ancestor | .root => true
  | .child | .descendant => false

/-- How many of the relatives must meet the condition. -/
inductive Quantifier
  | any
  | none
  | all
  | count (op : CountOp) (value : ℕ)
  deriving DecidableEq

/-- `RelatedPredicate`, but for its condition. -/
structure Relation where
  axis : Axis
  quantifier : Quantifier := .any
  minHops : ℕ+ := 1
  maxHops : Option ℕ+ := none
  deriving DecidableEq

def relationDepthMax : ℕ+ :=
  20

def Relation.hopRange (r : Relation) : ℕ+ × ℕ+ :=
  match r.axis with
  | .parent | .child => (1, 1)
  | .root => (1, relationDepthMax)
  | .ancestor | .descendant => (r.minHops, r.maxHops.getD relationDepthMax)

section

variable {κ : Type} (g : EntityGraph κ) (r : Relation)

/-- The relatives of an entity: what the routes along the axis end on, but for itself. -/
def Relation.relatives (id : ℕ) : List ℕ :=
  (Routes.reached (if r.axis.up then g.parents else g.children)
    r.hopRange.1 r.hopRange.2 id).filter (· ≠ id)

/-- Whether a relative is one at all: a root is a top-level container. -/
def Relation.isTop (relative : ℕ) : Bool :=
  r.axis ≠ .root || g.parents relative = []

/-- Whether relatives meet a condition, as `_visit_related` writes it: those that `listed` lets
through are tested. -/
def Relation.meets (listed test : ℕ → Bool) (id : ℕ) : Bool :=
  let relatives := (r.relatives g id).filter listed
  match r.quantifier with
  | .any => relatives.any fun relative => r.isTop g relative && test relative
  | .none => !relatives.any fun relative => r.isTop g relative && test relative
  | .all => (relatives.filter (r.isTop g)) ≠ [] && (relatives.filter (r.isTop g)).all test
  | .count op value => op.holds
      ((relatives.filter fun relative => r.isTop g relative && test relative).dedup.length) value

def Relation.overNoRelatives : Bool :=
  match r.quantifier with
  | .count .eq value => value = 0
  | .count .neq value => value ≠ 0
  | .count .gt _ => false
  | .count .gte value => value = 0
  | .count .lt value => 0 < value
  | .count .lte _ => true
  | .none => true
  | .any | .all => false

end

inductive GroupOp
  | and
  | or
  deriving DecidableEq

/-- A predicate. Entities are named by URN, the references of a predicate being resolved. A
`condition` tests an entity alone: a text, a property, a tag, a type, or the layer it carries;
`places` tests the layer that the canvas places it in, by its ancestors too. -/
inductive Predicate (κ : Type)
  | condition (c : κ)
  | places (c : κ)
  | everything
  | is (urns : List String)
  | descendantOf (urns : List String) (maxDepth : Option ℕ+)
  | degree (d : Degree)
  | related (r : Relation)
  | relatedTo (r : Relation) (far : Predicate κ)
  | group (op : GroupOp) (first : Predicate κ) (rest : List (Predicate κ))
  | not (inner : Predicate κ)

variable {κ : Type}

inductive Fragment (κ : Type)
  | always
  | never
  | condition (native : Bool) (c : κ)
  | urnIn (urns : List String)
  | inside (urns : List String) (depth : ℕ)
  /-- A pattern, which some edge matches or none does, or how many do. -/
  | present (d : Degree)
  | absent (d : Degree)
  | counted (d : Degree)
  /-- Relatives that the filters of a comprehension let through, with the tests of its
  projection. -/
  | related (r : Relation) (filters tests : List (Fragment κ))
  | joined (op : GroupOp) (parts : List (Fragment κ))
  | not (inner : Fragment κ)
  /-- `operand` and `negated`: with `= true` or `= false` after it. -/
  | equals (inner : Fragment κ) (value : Bool)
  /-- `_filtered`: the WHERE of a comprehension with one item. -/
  | filtered (inner : Fragment κ) (value : Bool)

mutual

/-- What a fragment says of an entity. A comprehension lists an item where its WHERE says true. -/
def Fragment.eval (g : EntityGraph κ) : Fragment κ → ℕ → Truth
  | .always, _ => some true
  | .never, _ => some false
  | .condition native c, id => g.test native c id
  | .urnIn urns, id => g.urnIn urns id
  | .inside urns depth, id => g.inside urns depth id
  | .present d, id => some (0 < d.count g id)
  | .absent d, id => some (d.count g id = 0)
  | .counted d, id => some (d.op.holds (d.count g id) d.value)
  | .related r filters tests, id => some (r.meets g
      (fun relative => (Fragment.evals g filters relative).all (· = some true))
      (fun relative => (Fragment.evals g tests relative).all (· = some true)) id)
  | .joined .and parts, id => Truth.all (Fragment.evals g parts id)
  | .joined .or parts, id => Truth.any (Fragment.evals g parts id)
  | .not inner, id => Truth.not (inner.eval g id)
  | .equals inner true, id => inner.eval g id
  | .equals inner false, id => Truth.not (inner.eval g id)
  | .filtered inner value, id => some (decide (inner.eval g id = some true) == value)

def Fragment.evals (g : EntityGraph κ) : List (Fragment κ) → ℕ → List Truth
  | [], _ => []
  | part :: parts, id => part.eval g id :: Fragment.evals g parts id

end

/-- Whether a fragment is written `true`. -/
def Fragment.isAlways : Fragment κ → Bool
  | .always => true
  | _ => false

/-- Where a fragment is written: in the top-level AND, in an expression, in a projection, and of
natively kept values alone. -/
structure Site where
  topAnd : Bool := false
  expression : Bool := false
  projected : Bool := false
  native : Bool := false
  scopeDepth : ℕ
  containment : List String

/-- A root set that a search is bounded by, with how deep it reaches. -/
abbrev Hoisted :=
  List String × Option ℕ+

/-- What a predicate is written as, and the root sets that it hoists. -/
structure Visited (κ : Type) where
  text : Fragment κ
  hoisted : List Hoisted := []

def Degree.countsEdges (d : Degree) : Bool :=
  !(d.value = 0 || d.value = 1 && (d.op = .lt || d.op = .gte))

def visitDegree (d : Degree) (projected : Bool) : Fragment κ :=
  if d.edgeTypes = [] then
    if d.op = .eq ∧ d.value = 0 then .always
    else if d.op = .gt ∨ d.op = .gte then
      if d.op = .gte ∧ d.value = 0 then .always else .never
    else if d.op = .lt ∨ d.op = .lte then .always
    else if d.op = .neq ∧ d.value ≠ 0 then .always
    else .never
  else if projected then .counted d
  else
    match d.value, d.op with
    | 0, .eq | 0, .lte | 1, .lt => .absent d
    | 0, .neq | 0, .gt | 1, .gte => .present d
    | 0, .gte => .always
    | 0, .lt => .never
    | _, _ => .counted d

namespace Predicate

def isGroup : Predicate κ → Bool
  | .group _ _ _ | .not _ => true
  | _ => false

def isRelated : Predicate κ → Bool
  | .related _ | .relatedTo _ _ => true
  | _ => false

mutual

def holdsInside : Predicate κ → Bool
  | .descendantOf _ _ => true
  | .group _ first rest => first.holdsInside || holdInside rest
  | .not inner => inner.holdsInside
  | _ => false

def holdInside : List (Predicate κ) → Bool
  | [] => false
  | member :: members => member.holdsInside || holdInside members

end

mutual

def hasRelation : Predicate κ → Bool
  | .related _ | .relatedTo _ _ | .places _ => true
  | .degree d => d.countsEdges
  | .group op first rest =>
    op ≠ .and && (first.holdsInside || holdInside rest) || (first.hasRelation || haveRelation rest)
  | .not inner => inner.holdsInside || inner.hasRelation
  | _ => false

def haveRelation : List (Predicate κ) → Bool
  | [] => false
  | member :: members => member.hasRelation || haveRelation members

end

mutual

def isSimple : Predicate κ → Bool
  | .condition _ | .everything | .is _ => true
  | .group _ first rest => first.isSimple && areSimple rest
  | .not inner => inner.isSimple
  | _ => false

def areSimple : List (Predicate κ) → Bool
  | [] => true
  | member :: members => member.isSimple && areSimple members

end

mutual

def conjuncts : Predicate κ → List (Predicate κ)
  | .group .and first rest => first.conjuncts ++ allConjuncts rest
  | p => [p]

def allConjuncts : List (Predicate κ) → List (Predicate κ)
  | [] => []
  | member :: members => member.conjuncts ++ allConjuncts members

end

def axisCost : Axis → ℕ
  | .parent => 1
  | .root | .ancestor => 2
  | .child => 3
  | .descendant => 8

mutual

def relationCost : Predicate κ → ℕ
  | .group _ first rest => first.relationCost + relationCosts rest
  | .not inner => inner.relationCost
  | .places _ => axisCost .ancestor * 4
  | .related r => axisCost r.axis * (if r.axis = .descendant then r.hopRange.2 else 1 : ℕ)
  | .relatedTo r far =>
    axisCost r.axis * (if r.axis = .descendant then r.hopRange.2 else 1 : ℕ) *
      (1 + far.relationCost)
  | _ => 0

def relationCosts : List (Predicate κ) → ℕ
  | [] => 0
  | member :: members => member.relationCost + relationCosts members

end

end Predicate

/-- A member of a relative's condition, with how it is written. -/
structure Member (κ : Type) where
  simple : Bool
  visit : Site → Visited κ

structure Visitor (κ : Type) where
  visit : Site → Visited κ
  members : List (Member κ)

/-- `_relative_tests`: what the WHERE of a comprehension holds, and what its projection does. -/
def relativeTests (site : Site) (r : Relation) (members : List (Member κ)) :
    List (Fragment κ) × List (Fragment κ) :=
  let filtered := members.filter fun member => r.quantifier ≠ .all && member.simple
  let rest := members.filter fun member => !(r.quantifier ≠ .all && member.simple)
  let write (expression : Bool) (member : Member κ) : Fragment κ :=
    (member.visit { site with topAnd := false, native := true, expression }).text
  ((filtered.map (write false)).filter (!·.isAlways),
    ((rest.map (write true)).filter (!·.isAlways)).map (.equals · true))

def visitRelated (site : Site) (r : Relation) (members : List (Member κ)) : Fragment κ :=
  if site.containment = [] then if r.overNoRelatives then .always else .never
  else
    let tests := relativeTests site r members
    .related r tests.1 tests.2

def visitNot (site : Site) (inner : Predicate κ) (text : Fragment κ) : Fragment κ :=
  if site.expression || inner.isRelated then .equals text false
  else if !site.topAnd && inner.isGroup then .filtered text false
  else .not text

def visitGroup (site : Site) (op : GroupOp) (holdsGroup : Bool) (texts : List (Fragment κ)) :
    Fragment κ :=
  if site.expression then .joined op (texts.map (.equals · true))
  else if !site.topAnd && holdsGroup then .filtered (.joined op texts) true
  else .joined op texts

def Predicate.visitor1 (p : Predicate κ) (visit : Site → Visited κ) : Visitor κ where
  visit
  members := [{ simple := p.isSimple, visit }]

mutual

def Predicate.visitor : Predicate κ → Visitor κ
  | .condition c =>
    visitor1 (.condition c) fun site => { text := .condition site.native c }
  | .places c =>
    visitor1 (.places c) fun _ => { text := .condition true c }
  | .everything => visitor1 .everything fun _ => { text := .always }
  | .is urns => visitor1 (.is urns) fun _ => { text := if urns = [] then .never else .urnIn urns }
  | .descendantOf urns maxDepth => visitor1 (.descendantOf urns maxDepth) fun site =>
    if urns = [] then { text := .never }
    else if site.topAnd then { text := .always, hoisted := [(urns, maxDepth)] }
    else { text := .inside urns ((maxDepth.map PNat.val).getD site.scopeDepth) }
  | .degree d => visitor1 (.degree d) fun site => { text := visitDegree d site.projected }
  | .related r => visitor1 (.related r) fun site => { text := visitRelated site r [] }
  | .relatedTo r far => visitor1 (.relatedTo r far) fun site =>
    { text := visitRelated site r far.visitor.members }
  | .group op first rest =>
    let all := first.visitor :: visitors rest
    let visit (site : Site) : Visited κ :=
      let visited := all.map (·.visit { site with topAnd := site.topAnd && op = .and })
      { text := visitGroup site op ((first :: rest).any (·.isGroup)) (visited.map (·.text))
        hoisted := visited.flatMap (·.hoisted) }
    match op with
    | .and => { visit, members := all.flatMap (·.members) }
    | .or => visitor1 (.group .or first rest) visit
  | .not inner => visitor1 (.not inner) fun site =>
    let visited := inner.visitor.visit { site with topAnd := false }
    { visited with text := visitNot site inner visited.text }

def Predicate.visitors : List (Predicate κ) → List (Visitor κ)
  | [] => []
  | member :: members => member.visitor :: visitors members

end

/-- `_anchorable`, of what its relatives must be, and `_hoist_anchored`. -/
def Predicate.hoistAnchored : Predicate κ → Option (Visited κ)
  | .relatedTo r (.is urns) =>
    if r.quantifier = .any ∧ r.axis.up then
      some (if urns = [] then { text := .never }
        else { text := .always, hoisted := [(urns, some r.hopRange.2)] })
    else none
  | _ => none

/-- What a search tests: the head of every candidate, the root sets that it is bounded by, and the
stages of its tail. -/
structure Compiled (κ : Type) where
  head : Fragment κ
  hoisted : List Hoisted
  tail : List (Fragment κ)

def Predicate.headOf (site : Site) (member : Predicate κ) : Option (Visited κ) :=
  if !member.hasRelation then some (member.visitor.visit { site with topAnd := true })
  else member.hoistAnchored

def joinTests : List (Fragment κ) → Fragment κ
  | [] => .always
  | [test] => test
  | tests => .joined .and tests

def Predicate.compile (site : Site) (p : Predicate κ) : Compiled κ :=
  if !p.hasRelation then
    let visited := p.visitor.visit { site with topAnd := true }
    { head := visited.text, hoisted := visited.hoisted, tail := [] }
  else
    let heads := p.conjuncts.filterMap (headOf site)
    let stages := (p.conjuncts.filter (·.hasRelation)).mergeSort
      fun a b => a.relationCost ≤ b.relationCost
    { head := joinTests ((heads.map (·.text)).filter (!·.isAlways))
      hoisted := heads.flatMap (·.hoisted)
      tail := stages.map fun member =>
        (member.visitor.visit { site with topAnd := false, projected := true }).text }

section

variable (g : EntityGraph κ)

/-- What a compiled predicate is as a search's test. -/
def Compiled.query (compiled : Compiled κ) (scope : Scope) : Query where
  scope
  hoisted := compiled.hoisted.map fun set => (set.1, set.2.map PNat.val)
  hoisted_pos := by
    intro set mem depth here
    obtain ⟨hoisted, -, rfl⟩ := List.mem_map.mp mem
    obtain ⟨given, -, rfl⟩ := Option.mem_map.mp here
    exact given.pos
  keeps n := compiled.head.eval g n.id = some true ∧
    ∀ stage ∈ compiled.tail, stage.eval g n.id = some true

/-- Whether root sets bound a search: `_build_scope_continuation_chain` needs containment types. -/
def EntityGraph.bounded (q : Query) : Bool :=
  !q.rootSets.isEmpty && g.containment ≠ []

/-- Whether an entity is among the candidates: only what is on the canvas, where that is searched;
only what has the scope's types, where neither the canvas nor a root set bounds the search. -/
def EntityGraph.candidate (typed : List String → ℕ → Bool) (q : Query) (n : Node) : Bool :=
  (!q.onCanvas || g.named q.scope.visibleUrns n.id) &&
    (g.bounded q || q.onCanvas || typed q.scope.entityTypes n.id)

def EntityGraph.keeps (typed : List String → ℕ → Bool) (q : Query) (n : Node) : Bool :=
  g.candidate typed q n && q.keeps n &&
    (!g.bounded q || q.rootSets.all fun set => g.clamp set.1 set.2 n.id)

def EntityGraph.site (scope : Scope) : Site where
  scopeDepth := scope.maxDepth.getD 12
  containment := g.containment

def Predicate.query (p : Predicate κ) (scope : Scope) : Query :=
  (p.compile (g.site scope)).query g scope

end

/-- Inside the database, with it above, and not the database itself. -/
def inDatabase : Predicate Unit :=
  .group .and (.descendantOf ["db"] none)
    [.relatedTo { axis := .ancestor } (.is ["db"]), .not (.is ["db"])]

end DataViz.Search
