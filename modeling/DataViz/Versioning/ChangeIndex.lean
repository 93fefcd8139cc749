/-
# Change lists

The changes of a draft, or between two revisions, are classified once, by their content hashes, and
kept in a fixed order with counts by kind, status and type. What is listed are pages of a filtered
view, the positions a filter keeps. The last few views are kept by their filter, and threads read
and keep them in any order.

Upper case and case folding are parameters. What an index says of itself besides (its window,
whether it is too large, whether its counts are exact), the urns of edge ends and the builds under
way are left out.
-/

import Mathlib.Data.List.Infix
import Mathlib.Data.Prod.Lex
import DataViz.Data.SizedCache
import DataViz.Data.Text
import DataViz.Versioning.Basic

namespace DataViz.Versioning.ChangeList

inductive Status where
  | added | modified | removed
  deriving DecidableEq

inductive Bucket where
  | node | edge | structural
  deriving DecidableEq

structure Version where
  contentHash : String
  kind : Kind
  type : Option String := none
  name : Option String := none
  qname : Option String := none
  urn : Option String := none
  src : Option String := none
  tgt : Option String := none

/-- `ChangeEntry`: an entity's change, as its version tells it. -/
structure ChangeEntry where
  entityId : EntityId
  kind : Kind
  status : Status
  type : Option String
  name : Option String
  qname : Option String
  urn : Option String
  src : Option String
  tgt : Option String
  structural : Bool

/-- `classify`: none where nothing changed in the end. -/
def classify (before after : Option Version) : Option Status :=
  match before, after with
  | none, none => none
  | none, some _ => some .added
  | some _, none => some .removed
  | some before, some after =>
    if before.contentHash ≠ after.contentHash then some .modified else none

def ChangeEntry.bucket (e : ChangeEntry) : Bucket :=
  match e.kind with
  | .node => .node
  | .edge => if e.structural then .structural else .edge

structure Counts where
  added : ℕ := 0
  modified : ℕ := 0
  removed : ℕ := 0

def Counts.of (counts : Counts) : Status → ℕ
  | .added => counts.added
  | .modified => counts.modified
  | .removed => counts.removed

def Counts.bump (counts : Counts) : Status → Counts
  | .added => { counts with added := counts.added + 1 }
  | .modified => { counts with modified := counts.modified + 1 }
  | .removed => { counts with removed := counts.removed + 1 }

def Counts.sum (counts : Counts) : ℕ :=
  counts.added + counts.modified + counts.removed

/-- `ChangeIndexBuilder`: entries are kept or only counted. -/
structure Builder where
  keep : Bool
  entries : List ChangeEntry := []
  counts : Counts := {}
  nodes : Counts := {}
  edges : Counts := {}
  structures : Counts := {}
  impact : Dict String ℕ := []
  byType : Dict (Bucket × Option String) Counts := []

def impactType (type : Option String) : String :=
  match type with
  | none => "Other"
  | some type => if type = "" then "Other" else type

def Builder.count (b : Builder) (e : ChangeEntry) : Builder where
  keep := b.keep
  entries := if b.keep then b.entries ++ [e] else b.entries
  counts := b.counts.bump e.status
  nodes := if e.bucket = .node then b.nodes.bump e.status else b.nodes
  edges := if e.bucket = .edge then b.edges.bump e.status else b.edges
  structures := if e.bucket = .structural then b.structures.bump e.status else b.structures
  impact :=
    if e.kind = .node then
      b.impact.set (impactType e.type) ((b.impact.get? (impactType e.type)).getD 0 + 1)
    else b.impact
  byType := b.byType.set (e.bucket, e.type)
    (((b.byType.get? (e.bucket, e.type)).getD {}).bump e.status)

section

-- `str.upper` and `str.casefold`
variable (upper casefold : String → String)

/-- The entry of a change, named as it is now or, removed, as it was. `containment` are the types
of containment links. -/
def entryOf (containment : List String) (entityId : EntityId) (status : Status) (live : Version) :
    ChangeEntry :=
  let isNode : Bool := live.kind = .node
  let ofNode (value : Option String) := if isNode then value else none
  let ofEdge (value : Option String) := if isNode then none else value
  { entityId, kind := live.kind, status, type := live.type, name := ofNode live.name,
    qname := ofNode live.qname, urn := ofNode live.urn, src := ofEdge live.src,
    tgt := ofEdge live.tgt,
    structural := !isNode && upper (live.type.getD "") ∈ containment.map upper }

abbrev Pair := EntityId × Option Version × Option Version

def changeOf (containment : List String) (pair : Pair) : Option ChangeEntry := do
  let status ← classify pair.2.1 pair.2.2
  let live ← pair.2.2.or pair.2.1
  return entryOf upper containment pair.1 status live

def Builder.addPairs (containment : List String) (keep : Bool) (pairs : List Pair) : Builder :=
  (pairs.filterMap (changeOf upper containment)).foldl Builder.count { keep }

/-- `_sort_key`: entities, relationships, structure; within each by type, name and id. -/
def sortKey (e : ChangeEntry) : Bool ×ₗ Bool ×ₗ String ×ₗ String ×ₗ String :=
  let name := if e.name.getD "" = "" then e.urn.getD "" else e.name.getD ""
  toLex (decide (e.bucket ≠ .node), toLex (e.structural, toLex (casefold (e.type.getD ""),
    toLex (casefold name, e.entityId))))

def Bucket.name : Bucket → String
  | .node => "node"
  | .edge => "edge"
  | .structural => "structure"

/-- The order of the counts by type: the most changes first. -/
def rowKey (row : (Bucket × Option String) × Counts) : ℤ ×ₗ String ×ₗ String :=
  toLex (-(row.2.sum : ℤ), toLex (row.1.1.name, casefold (row.1.2.getD "")))

structure ChangeIndex where
  entries : List ChangeEntry
  counts : Counts
  entityCounts : Counts
  edgeCounts : Counts
  structureCounts : Counts
  impact : Dict String ℕ
  byType : Dict (Bucket × Option String) Counts

def Builder.finish (b : Builder) : ChangeIndex where
  entries :=
    if b.keep then b.entries.mergeSort fun e e' => sortKey casefold e ≤ sortKey casefold e' else []
  counts := b.counts
  entityCounts := b.nodes
  edgeCounts := b.edges
  structureCounts := b.structures
  impact := b.impact
  byType := b.byType.mergeSort fun row row' => rowKey casefold row ≤ rowKey casefold row'

def indexOf (containment : List String) (keep : Bool) (pairs : List Pair) : ChangeIndex :=
  (Builder.addPairs upper containment keep pairs).finish casefold

/-- What an index counts against the bound of the cache. -/
def ChangeIndex.size (index : ChangeIndex) : ℕ :=
  max 1 index.entries.length

structure Query where
  kind : Option Bucket := none
  statuses : List Status := []
  type : Option String := none
  q : Option String := none

/-- The key of a view: the statuses are a set. -/
structure Filter where
  kind : Option Bucket := none
  statuses : List Status := []
  type : Option String := none
  needle : Option String := none
  deriving DecidableEq

def allStatuses : List Status :=
  [.added, .modified, .removed]

def Query.filter (query : Query) : Filter where
  kind := query.kind
  statuses := allStatuses.filter (· ∈ query.statuses)
  type := query.type
  needle :=
    let needle := casefold (String.ofList (Number.strip (query.q.getD "")))
    if needle = "" then none else some needle

def Filter.matches (f : Filter) (e : ChangeEntry) : Bool :=
  f.kind.all (e.bucket = ·) && (f.statuses.isEmpty || e.status ∈ f.statuses) &&
    f.type.all (e.type = some ·) &&
    f.needle.all fun needle =>
      [e.name, e.qname, e.urn, e.type, some e.entityId].any fun value =>
        needle.toList <:+: (casefold (value.getD "")).toList

def ChangeIndex.positions (index : ChangeIndex) (f : Filter) : List ℕ :=
  if f = {} then List.range index.entries.length
  else (List.range index.entries.length).filter fun i =>
    index.entries[i]?.any (f.matches casefold)

/-- The views that are kept, from the longest unused to the last used. -/
abbrev Views := Dict Filter (List ℕ)

def viewsKept : ℕ :=
  8

/-- A view that is kept is served, and is the last used. -/
def Views.hit (views : Views) (f : Filter) : Option (List ℕ × Views) :=
  (views.get? f).map fun positions => (positions, views.pop f ++ [(f, positions)])

/-- A view is kept, and the longest unused dropped. -/
def Views.keep (views : Views) (f : Filter) (positions : List ℕ) : Views :=
  let views := views.set f positions
  views.drop (views.length - viewsKept)

def ChangeIndex.page (index : ChangeIndex) (positions : List ℕ) (offset limit : ℕ) :
    List ChangeEntry :=
  ((positions.drop offset).take limit).filterMap (index.entries[·]?)

/-- The views of an index that threads reach, each of which looks for its view and, where it is not
kept, keeps the one it made. -/
inductive ChangeIndex.Reach (index : ChangeIndex) : Views → Prop
  | empty : index.Reach []
  | hit {views views' : Views} {f : Filter} {positions : List ℕ} :
      index.Reach views → views.hit f = some (positions, views') → index.Reach views'
  | keep {views : Views} (f : Filter) :
      index.Reach views → index.Reach (views.keep f (index.positions casefold f))

end

end DataViz.Versioning.ChangeList
