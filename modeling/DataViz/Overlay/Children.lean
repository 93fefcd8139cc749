/-
# Paging a container's children on a draft

Positions belong to main's listing. The draft's new children of the container come a page of them
with main's first page, the rest after main's last, at positions of the overlay's own; each page of
main's is overlaid, without the children the draft took away. What is listed is told apart by urn,
and only urns are modelled of the nodes served, not their values and not the edges that come with a
page. The listing's containment types are the overlay's, and nothing is searched for.
-/

import DataViz.Overlay.Delta

namespace DataViz.Overlay

open Versioning

structure Listing (main : Main) (types : EdgeTypes) (parent : String) where
  children : List String
  nodup : children.Nodup
  mem_iff : ∀ child, child ∈ children ↔ ∃ edge ∈ main.edges, types.contains edge.place ∧
    edge.place.sourceUrn = parent ∧ edge.place.targetUrn = child

/-- Where a page starts: in the store's order, or in the tail the overlay adds to it
(`_tail_index`). -/
inductive Position where
  | store (offset : ℕ)
  | tail (index : ℕ)
  deriving DecidableEq

structure ChildrenPage where
  children : List String
  totalChildren : ℕ
  hasMore : Bool
  next : Position
  deriving DecidableEq

def tailOffset : ℕ := 2 ^ 40

def Position.offset : Position → ℕ
  | store offset => offset
  | tail index => tailOffset + index

def storePage (children : List String) (limit offset : ℕ) : ChildrenPage :=
  let page := (children.drop offset).take limit
  { children := page
    totalChildren := children.length
    hasMore := offset + page.length < children.length
    next := .store (offset + page.length) }

/-- What the patch set changes under one parent: the children it added there, those it took
away and did not give back, and how many links from the parent it removed. -/
structure ParentDelta where
  gained : List String
  gone : List String
  removed : ℕ
  deriving DecidableEq

namespace OverlayDelta

variable (delta : OverlayDelta) (casefold : String → String)

/-- The name a patch set has for a node, as names are compared. -/
def nameKey (urn : String) : String :=
  match delta.nodeIndex.get? urn with
  | some skeleton => casefold skeleton.displayName
  | none => ""

def NameLe (first second : String) : Prop :=
  delta.nameKey casefold first < delta.nameKey casefold second ∨
    delta.nameKey casefold first = delta.nameKey casefold second ∧ first ≤ second

instance : DecidableRel (delta.NameLe casefold) := fun _ _ =>
  inferInstanceAs (Decidable (_ ∨ _ ∧ _))

/-- The patch set has something to serve for a node: it created it, or the request has loaded
what it made of it. -/
def Known (loaded : List String) (urn : String) : Prop :=
  urn ∈ loaded ∨ (delta.nodeIndex.get? urn).isSome

instance (loaded : List String) (urn : String) : Decidable (delta.Known loaded urn) :=
  inferInstanceAs (Decidable (_ ∨ _))

def childrenOf (parent : String) (links : List GraphEdge) : List String :=
  (links.filter fun edge => edge.place.sourceUrn = parent).map fun edge => edge.place.targetUrn

/-- `_parent_delta`, as the request finds it that has loaded some modified nodes. -/
def parentDelta (loaded : List String) (parent : String) : ParentDelta :=
  let targets := (childrenOf parent delta.contAdded).dedup
  let taken := childrenOf parent delta.contRemoved
  let live := targets.filter fun urn => urn ∉ delta.nodeRemove
  { gained :=
      (live.filter fun urn => delta.Known loaded urn).insertionSort (delta.NameLe casefold) ++
        (live.filter fun urn => ¬ delta.Known loaded urn).insertionSort (· ≤ ·)
    gone := taken.filter fun urn => urn ∉ targets
    removed := taken.length }

/-- The draft's children of a page that can be served: those it has, then those of main it
moved here. -/
def servable (main : Main) (loaded serve : List String) : List String :=
  (serve.filter fun urn => delta.Known loaded urn) ++
    (serve.filter fun urn => ¬ delta.Known loaded urn).filter fun urn => urn ∈ main.nodes

/-- `compose_page`: main's items overlaid or dropped, then the new ones not among them. -/
def composePage (base added : List String) : List String :=
  added.foldl (fun items urn => if urn ∈ items then items else items ++ [urn])
    (base.filter fun urn => urn ∉ delta.nodeRemove)

/-- `get_children_with_edges` of an overlay whose patch set is not empty. -/
def childrenPage (main : Main) (listing loaded : List String) (parent : String) (limit : ℕ) :
    Position → ChildrenPage
  | .tail index =>
    let ⟨gained, _, removed⟩ := delta.parentDelta casefold loaded parent
    let serve := (gained.drop (limit + index)).take limit
    let done := index + serve.length
    { children := delta.composePage [] (delta.servable main loaded serve)
      totalChildren := listing.length + gained.length - removed
      hasMore := done < gained.length - limit
      next := .tail done }
  | .store offset =>
    let ⟨gained, gone, removed⟩ := delta.parentDelta casefold loaded parent
    let serve := if offset = 0 then gained.take limit else []
    let base := storePage listing limit offset
    let tail := !base.hasMore && decide (0 < gained.length - limit)
    { children := delta.composePage (base.children.filter fun urn => urn ∉ gone)
        (delta.servable main loaded serve)
      totalChildren := base.totalChildren + gained.length - removed
      hasMore := tail || base.hasMore
      next := if tail then .tail 0 else base.next }

end OverlayDelta

/-- `DraftOverlayProvider.get_children_with_edges`, the children and positions of it. -/
def getChildren (types : EdgeTypes) (casefold : String → String) {main : Main}
    (draft : Draft main) (listing loaded : List String) (parent : String) (limit : ℕ)
    (position : Position) : ChildrenPage :=
  let delta := OverlayDelta.ofPatch types draft.patch
  if delta.isEmpty then storePage listing limit position.offset
  else delta.childrenPage casefold main listing loaded parent limit position

/-- Follow the next positions until a page says there is no more. -/
def follow (read : Position → ChildrenPage) : ℕ → Position → Option (List ChildrenPage)
  | 0, _ => none
  | fuel + 1, position =>
    let page := read position
    if page.hasMore then (follow read fuel page.next).map (page :: ·) else some [page]

def composedChildren (types : EdgeTypes) {main : Main} (draft : Draft main) (parent : String) :
    List String :=
  (OverlayDelta.childrenOf parent ((composedEdges main draft.patch draft.values).filter
    fun edge => types.contains edge.place)).dedup

end DataViz.Overlay
