/-
# The units of a search

A search reads its scope in units, each one statement: a band of the node IDs of a label, what is
on the canvas under a label, the walk down from some roots, or entities by ID. A plan holds the
units and the root sets that every match must be inside. A unit that runs out of time is replaced
by its halves, or is read one level down.

A statement is modelled by the entities it answers, not by its text. What it tests besides where
an entity is (the search's condition, its hops and relationships) is one test of an entity.
-/

import Mathlib.Algebra.Ring.Nat
import Mathlib.Data.List.Sort
import DataViz.Data.ParentTree

namespace DataViz.Search

open ParentTree (ancestor)

structure Node where
  id : ℕ
  urn : Option String
  labels : List String
  deriving DecidableEq

/-- A graph: its entities, and each container with what is directly in it. -/
structure Graph where
  nodes : List Node
  contains : List (ℕ × ℕ)
  one_parent : ∀ a ∈ contains, ∀ b ∈ contains, a.2 = b.2 → a.1 = b.1
  forest : ∃ level : ℕ → ℕ, ∀ edge ∈ contains, level edge.1 < level edge.2

def sortedSet (ids : List ℕ) : List ℕ :=
  ids.dedup.insertionSort (· ≤ ·)

namespace Graph

variable (g : Graph)

def parent (id : ℕ) : Option ℕ :=
  (g.contains.find? (·.2 = id)).map (·.1)

/-- Whether an entity is a root, or inside it by at most `depth` levels. -/
def within (depth root id : ℕ) : Bool :=
  (List.range (depth + 1)).any fun k => ancestor g.parent k id = some root

/-- Whether an entity is inside a root, by at most `depth` levels. -/
def below (depth root id : ℕ) : Bool :=
  (List.range depth).any fun k => ancestor g.parent (k + 1) id = some root

def children (root : ℕ) : List ℕ :=
  sortedSet ((g.contains.filter (·.1 = root)).map (·.2))

end Graph

inductive ScopeMode where
  | visible | view | dataSource
  deriving DecidableEq

structure Scope where
  mode : ScopeMode
  visibleUrns : List String := []
  rootUrns : List String := []
  entityTypes : List String := []
  maxDepth : Option ℕ := none
  maxDepth_pos : ∀ depth ∈ maxDepth, 1 ≤ depth

/-- A search: `hoisted` are the `descendantOf` sets of its top-level AND with their own depths,
`keeps` all else that it tests. -/
structure Query where
  scope : Scope
  hoisted : List (List String × Option ℕ) := []
  hoisted_pos : ∀ set ∈ hoisted, ∀ depth ∈ set.2, 1 ≤ depth
  keeps : Node → Bool

namespace Query

variable (q : Query)

def maxDepth : ℕ :=
  q.scope.maxDepth.getD 12

def rootSets : List (List String × ℕ) :=
  (if q.scope.mode = .view ∧ q.scope.rootUrns ≠ [] then [(q.scope.rootUrns, q.maxDepth)]
    else []) ++
    (q.hoisted.filter (·.1 ≠ [])).map fun set => (set.1, set.2.getD q.maxDepth)

def onCanvas : Bool :=
  q.scope.mode = .visible && !q.scope.visibleUrns.isEmpty

end Query

/-- The graph that is searched. `labels` are those that hold a user's entities, `levels` the
ontology's types. -/
structure Provider where
  graph : Graph
  labels : List String
  levels : List String
  containment : Bool
  isalnum : Char → Bool
  lower : String → String

/-- Root IDs that a match is inside, and by how much at most. -/
structure Clamp where
  roots : List ℕ
  depth : ℕ

/-- Whether an entity is inside a root set. -/
def Clamp.holds (g : Graph) (clamp : Clamp) (n : Node) : Bool :=
  clamp.roots.any fun root => g.within clamp.depth root n.id

namespace Provider

variable (p : Provider)

def sanitizeLabel (label : String) : String :=
  label.map fun c => if p.isalnum c || c = '_' then c else '_'

/-- Whether a statement under a label answers an entity. -/
def carries (label : String) (n : Node) : Bool :=
  p.sanitizeLabel label ∈ n.labels

def labelsInScope (entityTypes : List String) : List String :=
  let named (types : List String) := (p.labels.filter fun label =>
    p.lower label ∈ types.map p.lower).mergeSort
  let wanted := entityTypes.filter (· ≠ "")
  let wanted := if wanted = [] then p.levels else wanted
  if wanted = [] then p.labels.mergeSort
  else if named wanted ≠ [] then named wanted
  else if named p.levels ≠ [] then named p.levels
  else p.labels.mergeSort

/-- `_label_stats`: how many entities carry a label, and the first ID that a statement under it
answers. -/
def labelStats (label : String) : ℕ × ℕ :=
  (p.graph.nodes.countP (label ∈ ·.labels),
    (((p.graph.nodes.filter (p.carries label)).map (·.id)).min?).getD 0)

def idsOf (urns : List String) : List ℕ :=
  sortedSet ((p.graph.nodes.filter fun n =>
    n.urn.any (· ∈ urns) && p.labels.any (p.carries · n)).map (·.id))

def rooted (q : Query) : Bool :=
  !q.rootSets.isEmpty && p.containment

def resolveClamps (q : Query) : Option (List Clamp) :=
  if p.rooted q then
    q.rootSets.mapM fun set =>
      if p.idsOf set.1 = [] then none else some { roots := p.idsOf set.1, depth := set.2 }
  else some []

def allowed (q : Query) : List String :=
  if p.rooted q || q.onCanvas then p.labels else p.labelsInScope q.scope.entityTypes

/-- What a search is about, by `_in_scope`: what has a URN and one of the search's labels, is on
the canvas where only that is searched, is inside each root set, and passes the search's test. -/
def inScope (q : Query) (n : Node) : Bool :=
  match p.resolveClamps q with
  | none => false
  | some clamps =>
    q.keeps n && n.urn.isSome && (p.allowed q).any (· ∈ n.labels) &&
      (!q.onCanvas || n.urn.any (· ∈ q.scope.visibleUrns)) && clamps.all (·.holds p.graph n)

end Provider

inductive UnitKind where
  | range | visible | walk | ids
  deriving DecidableEq

/-- `Unit`. The edges of a Connections search are read in bands too, from `elo` to `ehi`. -/
structure PlanUnit where
  kind : UnitKind
  label : Option String := none
  lo : Option ℕ := none
  hi : Option ℕ := none
  roots : List ℕ := []
  exclude : List String := []
  size : ℕ := 1
  span : ℕ := 0
  depth : Option ℕ := none
  elo : Option ℕ := none
  ehi : Option ℕ := none
  espan : ℕ := 0
  urns : Option (List String) := none
  deriving DecidableEq

namespace PlanUnit

variable (u : PlanUnit)

def banded : Bool :=
  0 < u.espan || u.elo.isSome || u.ehi.isSome

def splitNodes : Option (List PlanUnit) :=
  let half := max 1 (u.size / 2)
  match u.kind with
  | .range =>
    let lo := u.lo.getD 0
    -- An open-ended range is cut where its nodes likely end.
    let hi := u.hi.getD (lo + u.span)
    if hi - lo < 2 then none
    else
      let mid := lo + (hi - lo) / 2
      some [{ u with hi := some mid, size := half, span := 0 },
        { u with lo := some mid, size := half, span := if u.hi.isSome then 0 else hi - mid }]
  | .walk =>
    let mid := u.roots.length / 2
    if 1 < u.roots.length then
      some [{ u with roots := u.roots.take mid, size := half },
        { u with roots := u.roots.drop mid, size := half }]
    else none
  | .ids =>
    let mid := u.roots.length / 2
    if 1 < u.roots.length then
      some [{ u with roots := u.roots.take mid, size := mid },
        { u with roots := u.roots.drop mid, size := u.roots.length - mid }]
    else none
  | .visible =>
    match u.urns with
    | none => none
    | some urns =>
      let mid := urns.length / 2
      if 1 < urns.length then
        some [{ u with urns := some (urns.take mid), size := half },
          { u with urns := some (urns.drop mid), size := half }]
      else none

def splitBand : Option (List PlanUnit) :=
  let lo := u.elo.getD 0
  let hi := u.ehi.getD (lo + u.espan)
  if hi - lo < 2 then none
  else
    let mid := lo + (hi - lo) / 2
    let half := max 1 (u.size / 2)
    some [{ u with ehi := some mid, espan := 0, size := half },
      { u with elo := some mid, size := half, espan := if u.ehi.isSome then 0 else hi - mid }]

/-- The unit in a Connections search, with the edges of each entity in one band. -/
def withEdges (espan : ℕ) : PlanUnit :=
  { u with espan }

def split : Option (List PlanUnit) :=
  if u.banded then
    let quarters := (u.splitNodes.getD [u]).flatMap fun part => part.splitBand.getD [part]
    if 1 < quarters.length then some quarters else none
  else u.splitNodes

end PlanUnit

/-- What every unit's statement shares. -/
structure Context where
  keeps : Node → Bool
  containment : Bool
  maxDepth : ℕ
  visible : Option (List String)

def Query.context (q : Query) (p : Provider) : Context where
  keeps := q.keeps
  containment := p.containment
  maxDepth := q.maxDepth
  visible := if q.scope.mode = .visible then some q.scope.visibleUrns else none

def reachMax : ℕ :=
  500000

def expandUnit (p : Provider) (ctx : Context) (u : PlanUnit) : Option (List PlanUnit) :=
  if u.kind = .visible ∧ u.urns = none ∧ 1 < (ctx.visible.getD []).length then
    { u with urns := some (ctx.visible.getD []) }.split
  else if u.kind = .walk ∧ ctx.containment then
    match u.roots with
    | [root] =>
      let depth := u.depth.getD ctx.maxDepth
      let children := p.graph.children root
      if depth < 1 ∨ children = [] ∨ reachMax < children.length then none
      else
        let rest := max 1 (u.size - 1)
        let below := if depth = 1 then
            { u with kind := .ids, roots := children, depth := none, size := rest }
          else { u with roots := children, depth := some (depth - 1), size := rest }
        some [{ u with kind := .ids, roots := [root], depth := none, size := 1 }, below]
    | _ => none
  else none

/-- `Plan`, each root set beside its depth. -/
structure Plan where
  units : List PlanUnit
  clamps : List Clamp := []

/-- What a search may read at once. -/
structure Settings where
  width : ℕ
  walkMax : ℕ
  width_pos : 0 < width

/-- The bands of one label, after earlier ones, on a graph of `total` entities. -/
def labelUnits (p : Provider) (width total : ℕ) (earlier : List String) (label : String) :
    List PlanUnit :=
  let count := (p.labelStats label).1
  let first := (p.labelStats label).2
  if count = 0 then []
  else if count ≤ width then
    [{ kind := .range, label := some label, exclude := earlier, size := max 1 count,
        span := max total count }]
  else
    let pieces := (count + width - 1) / width
    -- The label's IDs are taken to spread evenly from its first to the top of the graph's.
    let span := max count (total - first)
    let step := max 1 ((span + pieces - 1) / pieces)
    (List.range pieces).map fun k =>
      let lo := if k = 0 then none else some (first + k * step)
      let hi := if k = pieces - 1 then none else some (first + (k + 1) * step)
      { kind := .range, label := some label, lo, hi, exclude := earlier,
        size := max 1 (count / pieces),
        span := if hi.isSome then 0 else max step (total - lo.getD 0) }

def rangeUnits (p : Provider) (width total : ℕ) (earlier : List String) :
    List String → List PlanUnit
  | [] => []
  | label :: rest =>
    labelUnits p width total earlier label ++ rangeUnits p width total (earlier ++ [label]) rest

/-- The entities on the canvas, under each label that some entity carries. -/
def visibleUnits (p : Provider) (shown : ℕ) (earlier : List String) : List String → List PlanUnit
  | [] => []
  | label :: rest =>
    { kind := .visible, label := some label, exclude := earlier,
      size := max 1 (shown / max 1 (earlier.length + rest.length + 1)) } ::
      visibleUnits p shown (earlier ++ [label]) rest

namespace Provider

variable (p : Provider) (s : Settings)

def total : ℕ :=
  (p.labels.map fun label => (p.labelStats label).1).sum

def counted : List String :=
  p.labels.mergeSort.filter fun label => 0 < (p.labelStats label).1

def limit : ℕ :=
  min s.walkMax (max s.width (p.total / 8))

/-- `_walk_size`: how much is inside a root set, counted to one past the limit. -/
def walkSize (clamp : Clamp) : ℕ :=
  min (p.graph.nodes.countP (clamp.holds p.graph)) (p.limit s + 1)

/-- How large a root set is taken to be. -/
def probe (clamp : Clamp) : ℕ :=
  if p.limit s = 0 then p.limit s + 1 else p.walkSize s clamp

def smaller (a b : Clamp) : Bool :=
  p.probe s a < p.probe s b || p.probe s a = p.probe s b && a.roots.length < b.roots.length

/-- The first of the smallest root sets. -/
def anchorIndex (clamps : List Clamp) : ℕ :=
  (List.range clamps.length).foldl (fun best i =>
    match clamps[i]?, clamps[best]? with
    | some here, some there => if p.smaller s here there then i else best
    | _, _ => best) 0

def outermost (clamp : Clamp) : List ℕ :=
  (clamp.roots.filter fun root =>
    !clamp.roots.any fun other => p.graph.below clamp.depth other root).insertionSort (· ≤ ·)

end Provider

def clampMaxRoots : ℕ :=
  64

def walkBucketRoots : ℕ :=
  32

def buckets (roots : List ℕ) : List (List ℕ) :=
  (List.range ((roots.length + walkBucketRoots - 1) / walkBucketRoots)).map fun i =>
    (roots.drop (i * walkBucketRoots)).take walkBucketRoots

def rootedPlan (p : Provider) (s : Settings) (clamps : List Clamp) : Plan :=
  let index := p.anchorIndex s clamps
  let others := clamps.eraseIdx index
  match clamps[index]? with
  | none => { units := [] }
  | some anchor =>
    if p.probe s anchor ≤ p.limit s then
      let walk : PlanUnit :=
        { kind := .walk, roots := anchor.roots, size := max 1 (p.probe s anchor),
          depth := some anchor.depth }
      { units := [walk], clamps := others }
    else if anchor.roots.length ≤ clampMaxRoots then
      { units := rangeUnits p s.width p.total [] p.labels.mergeSort, clamps := clamps }
    else
      let parts := buckets (p.outermost anchor)
      let walk (roots : List ℕ) : PlanUnit :=
        { kind := .walk, roots, size := max 1 (p.total / max 1 parts.length),
          depth := some anchor.depth }
      { units := parts.map walk, clamps := others }

/-- `make_plan`, of a search that names no entities and has no lineage to walk. -/
def makePlan (p : Provider) (s : Settings) (q : Query) : Plan :=
  match p.resolveClamps q with
  | none => { units := [] }
  | some clamps =>
    if q.onCanvas then
      { units := visibleUnits p q.scope.visibleUrns.length [] p.counted, clamps := clamps }
    else if p.rooted q then rootedPlan p s clamps
    else { units := rangeUnits p s.width p.total [] (p.labelsInScope q.scope.entityTypes) }

/-- Whether an ID is in a band, open where a bound is missing. -/
def inBand (lo hi : Option ℕ) (id : ℕ) : Bool :=
  lo.all (· ≤ id) && hi.all (id < ·)

namespace PlanUnit

variable (p : Provider) (ctx : Context) (u : PlanUnit)

/-- `unit.depth or ctx.max_depth`. -/
def walkDepth : ℕ :=
  match u.depth with
  | none | some 0 => ctx.maxDepth
  | some depth => depth

def shown : List String :=
  u.urns.getD (ctx.visible.getD [])

/-- Whether a statement under the unit's label answers an entity. -/
def labelled (n : Node) : Bool :=
  p.carries (u.label.getD "") n && !u.exclude.any (p.carries · n)

/-- How often the unit's MATCH answers an entity. A walk's is DISTINCT. -/
def reads (n : Node) : ℕ :=
  match u.kind with
  | .walk => if u.roots.any fun root => p.graph.within (u.walkDepth ctx) root n.id then 1 else 0
  | .ids => u.roots.count n.id
  | .visible => if u.labelled p n && n.urn.any (· ∈ u.shown ctx) then 1 else 0
  | .range => if u.labelled p n && inBand u.lo u.hi n.id then 1 else 0

/-- `match_statement`: how often the unit answers an entity, or an edge of it with the given ID in
a Connections search. What a clamp keeps is DISTINCT. -/
def rows (clamps : List Clamp) (n : Node) (edge : ℕ) : ℕ :=
  if n.urn.isSome && ctx.keeps n && clamps.all (·.holds p.graph n) && inBand u.elo u.ehi edge then
    if clamps.isEmpty then u.reads p ctx n else min 1 (u.reads p ctx n)
  else 0

end PlanUnit

end DataViz.Search
