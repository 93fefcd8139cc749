/-
# Which layer of a view an entity is in

`place` answers for one entity from its own facts and what its parents pass down, tier
by tier: its hand placement, a hand-placed parent, its stamp, the first rule that
matches, a softly placed parent, the fallback. `placeAll` places a set, parents first,
with the parent edges inside a containment cycle left out.

How a rule's comparison is evaluated on a stored value is a parameter: nothing about
placing a set depends on it.
-/

import DataViz.Data.Json
import DataViz.Data.Text
import DataViz.View.Components

namespace DataViz.View

/-- What the contract reads about one entity. -/
structure NodeFacts where
  urn : String
  entityType : String
  displayName : Option String
  tags : List String
  properties : Dict String Json
  stamp : Option String

/-- What a placement passes to its children: `HAND` or `SOFT`. -/
inductive Cascade where
  | hand | soft
  deriving DecidableEq, Repr

structure ParentContext where
  urn : String
  layerId : String
  cascade : Option Cascade
  deriving DecidableEq, Repr

inductive Source where
  | explicit | inherited | stamped | rule | fallback | none
  deriving DecidableEq, Repr

structure Placement where
  layerId : Option String
  source : Source
  ruleId : Option String := none
  inheritedFrom : Option String := none
  staleExplicit : Bool := false
  ambiguousParent : Bool := false
  cascade : Option Cascade := none
  deriving DecidableEq, Repr

/-- Whether the tier that placed an entity is one of `MEMBER_SOURCES`. -/
def Placement.member (placement : Placement) : Bool :=
  placement.source ∈ [Source.explicit, .inherited, .stamped, .rule]

structure ExplicitEntry where
  layerId : String
  inheritsChildren : Bool

/-- A compiled rule. A criterion that is absent is `none`, `types` are folded and
`glob` is the pattern its expression was compiled from. -/
structure CompiledRule (Comparison : Type) where
  id : String
  layerId : String
  types : Option (List String)
  tags : Option (List String)
  glob : Option String
  comparisons : List (String × Comparison)
  cascadesSoft : Bool

inductive Scope where
  | all | curated
  deriving DecidableEq, Repr

/-- What `place` reads of `PlacementSpec`, the rules in their order. -/
structure PlacementSpec (Comparison : Type) where
  scope : Scope
  layerIds : List String
  rules : List (CompiledRule Comparison)
  explicit : Dict String ExplicitEntry
  fallbackLayerId : Option String

def truthy (text : Option String) : Bool :=
  text.any (· ≠ "")

section

variable (letters : Letters) {Comparison : Type} (evaluate : Option Json → Comparison → Bool)

/-- `fold_case`, one character at a time. On ASCII text that is `str.lower`. -/
def foldCase (text : String) : String :=
  String.ofList (text.toList.flatMap fun c => if c = 'İ' then ['i'] else letters.lower c)

/-- A glob against a whole text: a star is any run, a question mark one character. -/
def globMatch : List Char → List Char → Bool
  | [], text => text.isEmpty
  | '*' :: pattern, [] => globMatch pattern []
  | '*' :: pattern, c :: text => globMatch pattern (c :: text) || globMatch ('*' :: pattern) text
  | p :: pattern, c :: text => (p = '?' || p = c) && globMatch pattern text
  | _ :: _, [] => false

/-- `_value`: a stored property, else the field of that name. -/
def value (facts : NodeFacts) (name : String) : Option Json :=
  match facts.properties.get? name with
  | some (.scalar .null) | none =>
    if name = "name" then facts.displayName.map fun text => .scalar (.str text)
    else if name = "type" then some (.scalar (.str facts.entityType))
    else if name = "urn" then some (.scalar (.str facts.urn))
    else none
  | some stored => some stored

def CompiledRule.matches (rule : CompiledRule Comparison) (facts : NodeFacts) : Bool :=
  rule.types.all (foldCase letters facts.entityType ∈ ·) &&
    rule.tags.all (fun tags => tags.any (· ∈ facts.tags)) &&
    rule.glob.all (fun pattern => globMatch pattern.toList facts.urn.toList) &&
    rule.comparisons.all fun c => evaluate (value facts c.1) c.2

def PlacementSpec.rulesFor (spec : PlacementSpec Comparison) (entityType : String) :
    List (CompiledRule Comparison) :=
  spec.rules.filter fun rule => rule.types.all (foldCase letters entityType ∈ ·)

end

/-- `_inherit`: from the parent of the smallest URN that offers the cascade, ambiguous when
the parents that do name different layers. -/
def inherit (parents : List ParentContext) (cascade : Cascade) (stale : Bool) : Option Placement :=
  let tier := (parents.filter fun p => p.cascade = some cascade).insertionSort
    fun a b => a.urn ≤ b.urn
  tier.head?.map fun first =>
    { layerId := some first.layerId
      source := .inherited
      inheritedFrom := some first.urn
      staleExplicit := stale
      ambiguousParent := 1 < (tier.map ParentContext.layerId).dedup.length
      cascade := some cascade }

section

variable (letters : Letters) {Comparison : Type} (evaluate : Option Json → Comparison → Bool)
  (spec : PlacementSpec Comparison)

/-- The tiers under the hand placements. `stamp` is the entity's own, a layer of the view. -/
def placeSoft (facts : NodeFacts) (parents : List ParentContext) (stale : Bool)
    (stamp : Option String) : Placement :=
  if truthy stamp then
    { layerId := stamp, source := .stamped, staleExplicit := stale, cascade := some .soft }
  else
    match (spec.rulesFor letters facts.entityType).find? (·.matches letters evaluate facts) with
    | some rule =>
      { layerId := some rule.layerId
        source := .rule
        ruleId := some rule.id
        staleExplicit := stale
        cascade := if rule.cascadesSoft then some .soft else none }
    | none =>
      match inherit parents .soft stale with
      | some inherited => inherited
      | none =>
        if truthy spec.fallbackLayerId then
          { layerId := spec.fallbackLayerId, source := .fallback, staleExplicit := stale }
        else { layerId := none, source := .none, staleExplicit := stale }

def place (facts : NodeFacts) (parents : List ParentContext) (createdInBranch : Bool) :
    Placement :=
  let parents := parents.filter (·.layerId ∈ spec.layerIds)
  let entry := spec.explicit.get? facts.urn
  let stale := entry.any (·.layerId ∉ spec.layerIds)
  match entry.filter (·.layerId ∈ spec.layerIds) with
  | some entry =>
    { layerId := some entry.layerId
      source := .explicit
      cascade := if entry.inheritsChildren then some .hand else none }
  | none =>
    match inherit parents .hand stale with
    | some inherited => inherited
    | none =>
      let stamp := facts.stamp.filter (· ∈ spec.layerIds)
      if spec.scope = .curated then
        if createdInBranch && truthy stamp then
          { layerId := stamp, source := .stamped, staleExplicit := stale
            cascade := some .hand }
        else { layerId := none, source := .none, staleExplicit := stale }
      else placeSoft letters evaluate spec facts parents stale stamp

end

structure Entities where
  facts : Dict String NodeFacts
  nodup : facts.keys.Nodup

section

variable (entities : Entities) (parentsByUrn : Dict String (List String))

/-- The parents of an entity that are in the set, in order, itself left out. -/
def candidates : Dict String (List String) :=
  entities.facts.map fun entry =>
    (entry.1, Dict.sortedKeys <| ((parentsByUrn.get? entry.1).getD []).filter fun p =>
      p ≠ entry.1 ∧ p ∈ entities.facts.keys)

def retained (component : Dict String String) (candidates : Dict String (List String)) :
    Dict String (List String) :=
  candidates.map fun entry =>
    (entry.1, entry.2.filter fun p => component.get? p ≠ component.get? entry.1)

def childrenOf (parents : Dict String (List String)) : Dict String (List String) :=
  Dict.group (parents.flatMap fun entry => entry.2.map fun p => (p, entry.1))

/-- The loop of `place_all`: how many parents each entity waits for, the entities that wait
for none with the smallest first, and the placements in order. -/
structure Queue where
  waiting : Dict String ℤ
  ready : List String
  out : Dict String Placement

def Queue.start (parents : Dict String (List String)) : Queue where
  waiting := parents.map fun entry => (entry.1, (entry.2.length : ℤ))
  ready := ((parents.filter fun entry => entry.2.length = 0).map Prod.fst).insertionSort (· ≤ ·)
  out := []

def Queue.release (q : Queue) (child : String) : Option Queue :=
  (q.waiting.get? child).map fun n =>
    { q with
      waiting := q.waiting.set child (n - 1)
      ready := if n - 1 = 0 then q.ready.orderedInsert (· ≤ ·) child else q.ready }

/-- What a placed parent passes down, when it offers a cascade and a layer. -/
def contextOf (urn : String) (placement : Placement) : Option ParentContext :=
  if placement.cascade.isSome && truthy placement.layerId then
    placement.layerId.map fun layerId => ⟨urn, layerId, placement.cascade⟩
  else none

def contexts (out : Dict String Placement) : List String → Option (List ParentContext)
  | [] => some []
  | p :: parents =>
    (out.get? p).bind fun placement =>
      (contexts out parents).map ((contextOf p placement).toList ++ ·)

variable (letters : Letters) {Comparison : Type} (evaluate : Option Json → Comparison → Bool)
  (spec : PlacementSpec Comparison) (createdInBranch : List String)

/-- The smallest ready entity is placed, and its children wait for one parent less. -/
def Queue.turn (parents : Dict String (List String)) (q : Queue) (u : String)
    (ready : List String) : Option Queue := do
  let listed ← parents.get? u
  let contexts ← contexts q.out listed
  let facts ← entities.facts.get? u
  let placement := place letters evaluate spec facts contexts (u ∈ createdInBranch)
  (((childrenOf parents).get? u).getD []).foldlM Queue.release
    { q with ready, out := q.out.set u placement }

def Queue.remaining (q : Queue) : ℕ :=
  q.ready.length + (q.waiting.map fun entry => entry.2.toNat).sum

theorem sum_set {d : Dict String ℤ} {k : String} {n : ℤ} (listed : d.get? k = some n) (m : ℤ) :
    ((d.set k m).map fun entry => entry.2.toNat).sum + n.toNat =
      (d.map fun entry => entry.2.toNat).sum + m.toNat := by
  induction d with
  | nil => cases listed
  | cons entry d ih =>
    obtain ⟨k', n'⟩ := entry
    by_cases same : k' = k
    · subst same
      rw [Dict.get?_cons_self] at listed
      cases listed
      simp only [Dict.set, if_true, List.map_cons, List.sum_cons]
      omega
    · rw [Dict.get?_cons_ne same] at listed
      have rest := ih listed
      simp only [Dict.set, same, if_false, List.map_cons, List.sum_cons]
      omega

theorem Queue.remaining_release {q q' : Queue} {child : String}
    (released : q.release child = some q') : q'.remaining ≤ q.remaining := by
  obtain ⟨n, listed, rfl⟩ := Option.map_eq_some_iff.mp released
  have total := sum_set listed (n - 1)
  simp only [Queue.remaining]
  split
  · next last =>
      rw [List.orderedInsert_length]
      omega
  · omega

theorem Queue.remaining_releases {q q' : Queue} {released : List String}
    (ran : released.foldlM Queue.release q = some q') : q'.remaining ≤ q.remaining := by
  induction released generalizing q with
  | nil =>
    cases ran
    exact Nat.le_refl _
  | cons child released ih =>
    obtain ⟨next, first, rest⟩ := Option.bind_eq_some_iff.mp ran
    exact Nat.le_trans (ih rest) (Queue.remaining_release first)

theorem Queue.remaining_turn {parents : Dict String (List String)} {q q' : Queue} {u : String}
    {ready : List String} (first : q.ready = u :: ready)
    (turned : q.turn entities letters evaluate spec createdInBranch parents u ready = some q') :
    q'.remaining < q.remaining := by
  simp only [Queue.turn, Option.bind_eq_bind, Option.bind_eq_some_iff] at turned
  obtain ⟨_, _, _, _, _, _, released⟩ := turned
  have less := Queue.remaining_releases released
  simp only [Queue.remaining, first, List.length_cons] at less ⊢
  omega

def Queue.drain (parents : Dict String (List String)) (q : Queue) : Option Queue :=
  match _ : q.ready with
  | [] => some q
  | u :: ready =>
    match _ : q.turn entities letters evaluate spec createdInBranch parents u ready with
    | none => none
    | some q' => Queue.drain parents q'
termination_by q.remaining
decreasing_by exact Queue.remaining_turn entities letters evaluate spec createdInBranch ‹_› ‹_›

/-- `place_all`: the placements in order. A lookup that fails is `none`. -/
def placeAll : Option (Dict String Placement) := do
  let candidates := candidates entities parentsByUrn
  let component ← components candidates
  let parents := retained component candidates
  let q ← Queue.drain entities letters evaluate spec createdInBranch parents (.start parents)
  some q.out

end

end DataViz.View
