/-
# A draft as a patch set over main

A draft is read by main's own reads and a sparse patch set: the nodes and edges it
created, changed and removed. What it created or changed comes as skeletons, whose
values a read loads for what it serves. Indexing a patch set also counts every edge in
where it runs now and out where main has it, unless both are the same place.

What a draft is read for is the composed state: main's edges but those the draft removed
or holds a value of, and the draft's values. Only the urns of nodes are modelled, and of
an edge its id, its place and its properties.
-/

import DataViz.Versioning.ForkPatch

namespace DataViz.Overlay

open List Option

open Versioning

structure GraphEdge where
  id : EntityId
  place : EdgePlace
  properties : Json
  deriving DecidableEq

/-- A main state: the urns of its live nodes, and its edges, each between live nodes. -/
structure Main where
  nodes : List String
  edges : List GraphEdge
  edges_nodup : (edges.map GraphEdge.id).Nodup
  closed : ∀ edge ∈ edges, edge.place.sourceUrn ∈ nodes ∧ edge.place.targetUrn ∈ nodes

namespace Main

variable (main : Main)

def edge? (id : EntityId) : Option GraphEdge :=
  main.edges.find? fun edge => edge.id = id

theorem edge?_eq_some {main : Main} {id : EntityId} {edge : GraphEdge} :
    main.edge? id = some edge ↔ edge ∈ main.edges ∧ edge.id = id :=
  Dict.find?_key_eq_some main.edges_nodup

end Main

def edgeIds (patch : PatchSet) : List EntityId :=
  patch.edgesUpsert.map EdgeSkeleton.id ++ patch.edgesRemove.map RemovedEdge.id

/-- Main's edges the patch set does not touch, and the draft's values of the others. -/
def composedEdges (main : Main) (patch : PatchSet) (values : EntityId → Option GraphEdge) :
    List GraphEdge :=
  main.edges.filter (fun edge => edge.id ∉ edgeIds patch) ++
    patch.edgesUpsert.filterMap fun entry => values entry.id

/-- The urns live on the draft: main's but those it removed, and those it created. -/
def composedNodes (main : Main) (patch : PatchSet) : List String :=
  main.nodes.filter (fun urn => urn ∉ patch.nodesRemove.map NodeName.urn) ++
    patch.nodesUpsert.map NodeSkeleton.urn

/-- A draft over main: its patch set and the edge values its reads load. A patch set has an
entry for an edge at most once; a skeleton is what its value says, `was` is where main has
the edge, and what is removed is there. -/
structure Draft (main : Main) where
  patch : PatchSet
  values : EntityId → Option GraphEdge
  keyed : (edgeIds patch).Nodup
  loads : ∀ entry ∈ patch.edgesUpsert, ∃ value, values entry.id = some value ∧
    value.id = entry.id ∧ value.place = entry.place
  was : ∀ entry ∈ patch.edgesUpsert, entry.was = (main.edge? entry.id).map GraphEdge.place
  removes : ∀ entry ∈ patch.edgesRemove,
    (main.edge? entry.id).map GraphEdge.place = some entry.place
  closed : ∀ edge ∈ composedEdges main patch values,
    edge.place.sourceUrn ∈ composedNodes main patch ∧
      edge.place.targetUrn ∈ composedNodes main patch

def skeletonEdge (id : EntityId) (place : EdgePlace) : GraphEdge :=
  ⟨id, place, .obj []⟩

/-- Which edge types contain, as the ontology gives them. `upper` is Python's. -/
structure EdgeTypes where
  upper : String → String
  containment : List String

namespace EdgeTypes

variable (types : EdgeTypes)

def contains (place : EdgePlace) : Bool :=
  types.upper place.edgeType ∈ types.containment.map types.upper

/-- The same ends, and types that differ in case at most. -/
def SamePlace (first second : EdgePlace) : Prop :=
  first.sourceUrn = second.sourceUrn ∧ first.targetUrn = second.targetUrn ∧
    types.upper first.edgeType = types.upper second.edgeType

instance (first second : EdgePlace) : Decidable (types.SamePlace first second) :=
  inferInstanceAs (Decidable (_ ∧ _ ∧ _))

theorem SamePlace.contains {types : EdgeTypes} {first second : EdgePlace}
    (same : types.SamePlace first second) : types.contains first = types.contains second := by
  rw [EdgeTypes.contains, EdgeTypes.contains, same.2.2]

end EdgeTypes

/-- An edge counted in where it runs now, or out where main has it. -/
structure Counted where
  added : Bool
  edge : GraphEdge
  deriving DecidableEq

/-- What an entry of `edgesUpsert` counts: nothing when main has the edge at its place. -/
def countedUpsert (types : EdgeTypes) (entry : EdgeSkeleton) : List Counted :=
  let edge := skeletonEdge entry.id entry.place
  match entry.was with
  | none => [⟨true, edge⟩]
  | some was =>
    if types.SamePlace was entry.place then []
    else [⟨false, skeletonEdge entry.id was⟩, ⟨true, edge⟩]

def counted (types : EdgeTypes) (patch : PatchSet) : List Counted :=
  patch.edgesUpsert.flatMap (countedUpsert types) ++
    patch.edgesRemove.map fun entry => ⟨false, skeletonEdge entry.id entry.place⟩

/-- The indexes of `_OverlayDelta` that reads of edges, children and rollups use. -/
structure OverlayDelta where
  nodeIndex : Dict String NodeSkeleton
  nodeNew : List String
  nodeModified : Dict String EntityId
  nodeRemove : List String
  edgeUpsert : Dict EntityId GraphEdge
  edgesAt : Dict String (List GraphEdge)
  edgeRemove : Dict EntityId GraphEdge
  lineageAdded : List GraphEdge
  lineageRemoved : List GraphEdge
  contAdded : List GraphEdge
  contRemoved : List GraphEdge

def GraphEdge.ends (edge : GraphEdge) : List String :=
  [edge.place.sourceUrn, edge.place.targetUrn].dedup

def select (types : EdgeTypes) (patch : PatchSet) (added containment : Bool) : List GraphEdge :=
  ((counted types patch).filter fun count =>
    count.added = added ∧ types.contains count.edge.place = containment).map Counted.edge

/-- `_OverlayDelta.__init__`. -/
def OverlayDelta.ofPatch (types : EdgeTypes) (patch : PatchSet) : OverlayDelta where
  nodeIndex := patch.nodesUpsert.foldl (fun index entry => index.set entry.urn entry) []
  nodeNew := patch.nodesNew
  nodeModified :=
    patch.nodesUpsert.foldl (fun modified entry => modified.set entry.urn entry.entityId)
      (patch.nodesModified.foldl (fun modified entry => modified.set entry.urn entry.entityId) [])
  nodeRemove := patch.nodesRemove.map NodeName.urn
  edgeUpsert := patch.edgesUpsert.foldl
    (fun index entry => index.set entry.id (skeletonEdge entry.id entry.place)) []
  edgesAt := Dict.group (patch.edgesUpsert.flatMap fun entry =>
    let edge := skeletonEdge entry.id entry.place
    edge.ends.map fun urn => (urn, edge))
  edgeRemove := patch.edgesRemove.foldl
    (fun index entry => index.set entry.id (skeletonEdge entry.id entry.place)) []
  lineageAdded := select types patch true false
  lineageRemoved := select types patch false false
  contAdded := select types patch true true
  contRemoved := select types patch false true

namespace OverlayDelta

variable (delta : OverlayDelta)

def isEmpty : Bool :=
  delta.nodeModified.isEmpty && delta.nodeRemove.isEmpty && delta.edgeUpsert.isEmpty &&
    delta.edgeRemove.isEmpty

/-- `structure_moved`: a child is given a containment link and another is taken from it. -/
def structureMoved : Bool :=
  delta.contRemoved.any fun taken =>
    delta.contAdded.any fun given => taken.place.targetUrn = given.place.targetUrn

end OverlayDelta

section

variable {main : Main} (draft : Draft main) (types : EdgeTypes)

theorem Draft.upserts_nodup : (draft.patch.edgesUpsert.map EdgeSkeleton.id).Nodup :=
  (nodup_append.mp draft.keyed).1

theorem Draft.removes_nodup : (draft.patch.edgesRemove.map RemovedEdge.id).Nodup :=
  (nodup_append.mp draft.keyed).2.1

variable {entry : EdgeSkeleton}

theorem Draft.notMem_removes (mem : entry ∈ draft.patch.edgesUpsert) :
    entry.id ∉ draft.patch.edgesRemove.map RemovedEdge.id := by
  intro removed
  exact (nodup_append.mp draft.keyed).2.2 _ (mem_map_of_mem mem) _ removed rfl

variable {edge : GraphEdge}

theorem mem_composedEdges : edge ∈ composedEdges main draft.patch draft.values ↔
      (edge ∈ main.edges ∧ edge.id ∉ edgeIds draft.patch) ∨
        ∃ entry ∈ draft.patch.edgesUpsert, draft.values entry.id = some edge := by
  simp [composedEdges]

theorem mem_was {draft : Draft main} (mem : entry ∈ draft.patch.edgesUpsert) {was : EdgePlace} :
    was ∈ entry.was ↔ ∃ held ∈ main.edges, held.id = entry.id ∧ held.place = was := by
  rw [draft.was entry mem, mem_def, map_eq_some_iff]
  simp only [Main.edge?_eq_some]
  exact ⟨fun ⟨held, ⟨inMain, same⟩, place⟩ => ⟨held, inMain, same, place⟩,
    fun ⟨held, inMain, same, place⟩ => ⟨held, ⟨inMain, same⟩, place⟩⟩

theorem edgeUpsert_ofPatch : (OverlayDelta.ofPatch types draft.patch).edgeUpsert =
      draft.patch.edgesUpsert.map fun entry => (entry.id, skeletonEdge entry.id entry.place) := by
  rw [OverlayDelta.ofPatch, Dict.foldl_set_of_nodup EdgeSkeleton.id _ _ draft.upserts_nodup []
      (fun _ _ => not_mem_nil), nil_append]

theorem edgeRemove_ofPatch : (OverlayDelta.ofPatch types draft.patch).edgeRemove =
      draft.patch.edgesRemove.map fun entry => (entry.id, skeletonEdge entry.id entry.place) := by
  rw [OverlayDelta.ofPatch, Dict.foldl_set_of_nodup RemovedEdge.id _ _ draft.removes_nodup []
      (fun _ _ => not_mem_nil), nil_append]

variable {id : EntityId}

theorem get?_edgeUpsert :
    (OverlayDelta.ofPatch types draft.patch).edgeUpsert.get? id = some edge ↔
      ∃ entry ∈ draft.patch.edgesUpsert, entry.id = id ∧ skeletonEdge id entry.place = edge := by
  rw [OverlayDelta.ofPatch, Dict.get?_foldl_set EdgeSkeleton.id _ _ draft.upserts_nodup,
    Dict.get?_nil, or_none, map_eq_some_iff]
  constructor
  · rintro ⟨entry, found, rfl⟩
    obtain ⟨mem, rfl⟩ := (Dict.find?_key_eq_some draft.upserts_nodup).mp found
    exact ⟨entry, mem, rfl, rfl⟩
  · rintro ⟨entry, mem, rfl, rfl⟩
    exact ⟨entry, (Dict.find?_key_eq_some draft.upserts_nodup).mpr ⟨mem, rfl⟩, rfl⟩

theorem isSome_get?_edgeUpsert :
    ((OverlayDelta.ofPatch types draft.patch).edgeUpsert.get? id).isSome ↔
      ∃ entry ∈ draft.patch.edgesUpsert, entry.id = id := by
  rw [isSome_iff_exists]
  simp only [get?_edgeUpsert]
  exact ⟨fun ⟨_, entry, mem, same, _⟩ => ⟨entry, mem, same⟩,
    fun ⟨entry, mem, same⟩ => ⟨_, entry, mem, same, rfl⟩⟩

theorem isNone_get?_edgeRemove :
    ((OverlayDelta.ofPatch types draft.patch).edgeRemove.get? id).isNone ↔
      id ∉ draft.patch.edgesRemove.map RemovedEdge.id := by
  rw [isNone_iff_eq_none, Dict.get?_eq_none_iff, edgeRemove_ofPatch, Dict.keys, List.map_map]
  rfl

theorem mem_edgesAt {urn : String} :
    edge ∈ ((OverlayDelta.ofPatch types draft.patch).edgesAt.get? urn).getD [] ↔
      (∃ entry ∈ draft.patch.edgesUpsert, skeletonEdge entry.id entry.place = edge) ∧
        (edge.place.sourceUrn = urn ∨ edge.place.targetUrn = urn) := by
  rw [OverlayDelta.ofPatch, Dict.get?_group]
  simp only [List.mem_map, mem_filter, mem_flatMap, decide_eq_true_eq, GraphEdge.ends,
    mem_dedup, mem_cons, not_mem_nil, or_false]
  constructor
  · rintro ⟨⟨at_, found⟩, ⟨⟨entry, mem, ended, ends, same⟩, rfl⟩, rfl⟩
    cases same
    exact ⟨⟨entry, mem, rfl⟩, ends.imp Eq.symm Eq.symm⟩
  · rintro ⟨⟨entry, mem, rfl⟩, ends⟩
    exact ⟨(urn, _), ⟨⟨entry, mem, urn, ends.imp Eq.symm Eq.symm, rfl⟩, rfl⟩, rfl⟩

theorem edges_eq_nil_of_isEmpty {draft : Draft main} {types : EdgeTypes}
    (empty : (OverlayDelta.ofPatch types draft.patch).isEmpty) :
    draft.patch.edgesUpsert = [] ∧ draft.patch.edgesRemove = [] := by
  rw [OverlayDelta.isEmpty, Bool.and_eq_true, Bool.and_eq_true, edgeUpsert_ofPatch,
    edgeRemove_ofPatch, List.isEmpty_iff, List.isEmpty_iff, map_eq_nil_iff,
    map_eq_nil_iff] at empty
  exact ⟨empty.1.2, empty.2⟩

/-- The draft holds the edge elsewhere than main, or main does not hold it. -/
def Moved (entry : EdgeSkeleton) : Prop :=
  ∀ was ∈ entry.was, ¬ types.SamePlace was entry.place

variable {types} {patch : PatchSet}

theorem mem_countedUpsert {count : Counted} :
    count ∈ countedUpsert types entry ↔ Moved types entry ∧
      (count = ⟨true, skeletonEdge entry.id entry.place⟩ ∨
        ∃ was ∈ entry.was, count = ⟨false, skeletonEdge entry.id was⟩) := by
  rw [countedUpsert, Moved]
  cases entry.was with
  | none => simp
  | some was =>
    by_cases same : types.SamePlace was entry.place
    · simp [same]
    · simp [same, or_comm]

theorem mem_select {added containment : Bool} :
    edge ∈ select types patch added containment ↔
      types.contains edge.place = containment ∧ ⟨added, edge⟩ ∈ counted types patch := by
  rw [select, List.mem_map]
  constructor
  · rintro ⟨count, mem, rfl⟩
    obtain ⟨listed, kind⟩ := mem_filter.mp mem
    obtain ⟨rfl, contains⟩ := of_decide_eq_true kind
    exact ⟨contains, listed⟩
  · rintro ⟨contains, listed⟩
    exact ⟨_, mem_filter.mpr ⟨listed, decide_eq_true ⟨rfl, contains⟩⟩, rfl⟩

/-- Counted in are the draft's edges where main does not have them. -/
theorem mem_select_true {containment : Bool} :
    edge ∈ select types patch true containment ↔ types.contains edge.place = containment ∧
      ∃ entry ∈ patch.edgesUpsert, Moved types entry ∧
        skeletonEdge entry.id entry.place = edge := by
  rw [mem_select, counted, mem_append, mem_flatMap]
  simp only [mem_countedUpsert, List.mem_map, Counted.mk.injEq, Bool.true_eq_false,
    Bool.false_eq_true, false_and, and_false, exists_false, or_false, true_and]
  constructor
  · exact fun ⟨kind, entry, mem, moved, same⟩ => ⟨kind, entry, mem, moved, same.symm⟩
  · exact fun ⟨kind, entry, mem, moved, same⟩ => ⟨kind, entry, mem, moved, same.symm⟩

/-- Counted out are main's edges that the draft has elsewhere, or removed. -/
theorem mem_select_false {containment : Bool} :
    edge ∈ select types patch false containment ↔ types.contains edge.place = containment ∧
      ((∃ entry ∈ patch.edgesUpsert, Moved types entry ∧
          ∃ was ∈ entry.was, skeletonEdge entry.id was = edge) ∨
        ∃ entry ∈ patch.edgesRemove, skeletonEdge entry.id entry.place = edge) := by
  rw [mem_select, counted, mem_append, mem_flatMap]
  simp only [mem_countedUpsert, List.mem_map, Counted.mk.injEq,
    Bool.false_eq_true, false_and, false_or, true_and]
  constructor
  · rintro ⟨kind, ⟨entry, mem, moved, was, held, same⟩ | removed⟩
    · exact ⟨kind, .inl ⟨entry, mem, moved, was, held, same.symm⟩⟩
    · exact ⟨kind, .inr removed⟩
  · rintro ⟨kind, ⟨entry, mem, moved, was, held, same⟩ | removed⟩
    · exact ⟨kind, .inl ⟨entry, mem, moved, was, held, same.symm⟩⟩
    · exact ⟨kind, .inr removed⟩

end

end DataViz.Overlay
