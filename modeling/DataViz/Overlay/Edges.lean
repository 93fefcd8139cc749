/-
# Edge reads of a draft

Main's edges are read by main's version of each, dropped when the draft removed them and
served with the draft's value where it has one; then come the draft's own edges that match
the query, no more than its limit. Main is read by its filters, from the offset on and at
most a limit of them.

Such a read is exact, when nothing is cut off, unless main lists an edge whose value in the
draft no longer matches the query.
-/

import DataViz.Overlay.Delta

namespace DataViz.Overlay

open List Option

open Versioning

/-- The ends, types and page an edge read asks for. -/
structure EdgeQuery where
  sourceUrns : Option (List String) := none
  targetUrns : Option (List String) := none
  anyUrns : Option (List String) := none
  edgeTypes : Option (List String) := none
  offset : Option ℕ := some 0
  limit : Option ℕ := some 100
  deriving DecidableEq

namespace EdgeQuery

variable (query : EdgeQuery)

def Allows (names : Option (List String)) (name : String) : Prop :=
  names.getD [] ≠ [] → name ∈ names.getD []

instance (names : Option (List String)) (name : String) : Decidable (Allows names name) :=
  inferInstanceAs (Decidable (_ → _))

def Matches (place : EdgePlace) : Prop :=
  Allows query.sourceUrns place.sourceUrn ∧ Allows query.targetUrns place.targetUrn ∧
    (query.anyUrns.getD [] ≠ [] →
      place.sourceUrn ∈ query.anyUrns.getD [] ∨ place.targetUrn ∈ query.anyUrns.getD []) ∧
    Allows query.edgeTypes place.edgeType

instance (place : EdgePlace) : Decidable (query.Matches place) :=
  inferInstanceAs (Decidable (_ ∧ _ ∧ (_ → _) ∧ _))

/-- The ends asked about: the first list that names any. -/
def named : List String :=
  if query.sourceUrns.getD [] ≠ [] then query.sourceUrns.getD []
  else if query.targetUrns.getD [] ≠ [] then query.targetUrns.getD []
  else query.anyUrns.getD []

/-- A limit of none, or of zero, is the store's hundred. -/
def storeLimit : ℕ :=
  match query.limit with
  | none | some 0 => 100
  | some (limit + 1) => limit + 1

def Reached (added : ℕ) : Prop :=
  ∃ limit ∈ query.limit, limit ≠ 0 ∧ limit ≤ added

instance (added : ℕ) : Decidable (query.Reached added) :=
  match h : query.limit with
  | none => .isFalse fun ⟨limit, mem, _⟩ => by rw [h] at mem; cases mem
  | some limit => decidable_of_iff (limit ≠ 0 ∧ limit ≤ added)
      ⟨fun reached => ⟨limit, h, reached⟩, fun ⟨other, mem, reached⟩ => by
        rw [h] at mem
        cases mem
        exact reached⟩

end EdgeQuery

def Main.getEdges (main : Main) (query : EdgeQuery) : List GraphEdge :=
  ((main.edges.filter fun edge => query.Matches edge.place).drop (query.offset.getD 0)).take
    query.storeLimit

namespace OverlayDelta

variable (delta : OverlayDelta) (query : EdgeQuery)

/-- The draft's edges that a query looks through: those at the ends it names, or all. -/
def pool : List GraphEdge :=
  if query.named ≠ [] then
    (Dict.sortedKeys query.named).flatMap fun urn => (delta.edgesAt.get? urn).getD []
  else delta.edgeUpsert.map Prod.snd

/-- The loop over the pool: what is served of it after the edges seen. -/
def added : List GraphEdge → List EntityId → ℕ → List GraphEdge
  | [], _, _ => []
  | edge :: rest, seen, count =>
    if edge.id ∈ seen then added rest seen count
    else if ¬ query.Matches edge.place then added rest seen count
    else if query.Reached count then []
    else edge :: added rest (edge.id :: seen) (count + 1)

/-- Main's edges as the overlay serves them. -/
def overlaid (base : List GraphEdge) : List GraphEdge :=
  (base.filter fun edge => (delta.edgeRemove.get? edge.id).isNone).map fun edge =>
    (delta.edgeUpsert.get? edge.id).getD edge

/-- `edges`: each edge the draft holds a skeleton of, with its value loaded. -/
def loaded (values : EntityId → Option GraphEdge) (edge : GraphEdge) : GraphEdge :=
  if (delta.edgeUpsert.get? edge.id).isSome then (values edge.id).getD edge else edge

end OverlayDelta

def getEdges (types : EdgeTypes) {main : Main} (draft : Draft main) (query : EdgeQuery) :
    List GraphEdge :=
  let base := main.getEdges query
  let delta := OverlayDelta.ofPatch types draft.patch
  if delta.isEmpty then base
  else
    let out := delta.overlaid base
    (out ++ OverlayDelta.added query (delta.pool query) (out.map GraphEdge.id) 0).map
      (delta.loaded draft.values)

section

variable {query : EdgeQuery} {edge : GraphEdge}

def EdgeQuery.unlimited (query : EdgeQuery) : EdgeQuery :=
  { query with limit := none }

theorem not_reached_unlimited (count : ℕ) : ¬ query.unlimited.Reached count :=
  fun ⟨_, mem, _⟩ => some_ne_none _ mem.symm

namespace OverlayDelta

/-- Without a limit the count does not matter. -/
theorem added_unlimited_cons (first : GraphEdge) (rest : List GraphEdge) (seen : List EntityId)
    (count : ℕ) :
    added query.unlimited (first :: rest) seen count =
      if first.id ∈ seen ∨ ¬ query.Matches first.place then
        added query.unlimited rest seen count
      else first :: added query.unlimited rest (first.id :: seen) (count + 1) := by
  rw [added]
  by_cases old : first.id ∈ seen
  · rw [if_pos old, if_pos (Or.inl old)]
  · rw [if_neg old]
    by_cases matching : query.unlimited.Matches first.place
    · have same : query.Matches first.place := matching
      rw [if_neg (not_not.mpr matching), if_neg (not_reached_unlimited count),
        if_neg (not_or.mpr ⟨old, not_not.mpr same⟩)]
    · have same : ¬ query.Matches first.place := matching
      rw [if_pos matching, if_pos (Or.inr same)]

theorem mem_added_unlimited {edges : List GraphEdge}
    (keyed : ∀ first ∈ edges, ∀ second ∈ edges, first.id = second.id → first = second)
    (seen : List EntityId) (count : ℕ) :
    edge ∈ added query.unlimited edges seen count ↔
      edge ∈ edges ∧ edge.id ∉ seen ∧ query.Matches edge.place := by
  induction edges generalizing seen count with
  | nil => simp [added]
  | cons first rest ih =>
    have keyedRest : ∀ one ∈ rest, ∀ two ∈ rest, one.id = two.id → one = two :=
      fun one memOne two memTwo =>
        keyed one (mem_cons_of_mem first memOne) two (mem_cons_of_mem first memTwo)
    rw [added_unlimited_cons]
    split
    · next skipped =>
        rw [ih keyedRest seen count, mem_cons]
        constructor
        · exact fun ⟨mem, served⟩ => ⟨.inr mem, served⟩
        · rintro ⟨rfl | mem, served⟩
          · exact absurd skipped (not_or.mpr ⟨served.1, not_not.mpr served.2⟩)
          · exact ⟨mem, served⟩
    · next kept =>
        obtain ⟨fresh, matching⟩ := not_or.mp kept
        rw [mem_cons, ih keyedRest, mem_cons, mem_cons, not_or]
        constructor
        · rintro (rfl | ⟨mem, served⟩)
          · exact ⟨.inl rfl, fresh, not_not.mp matching⟩
          · exact ⟨.inr mem, served.1.2, served.2⟩
        · rintro ⟨rfl | mem, served⟩
          · exact .inl rfl
          · by_cases same : edge.id = first.id
            · exact .inl (keyed edge (mem_cons_of_mem first mem) first mem_cons_self same)
            · exact .inr ⟨mem, ⟨same, served.1⟩, served.2⟩

theorem nodup_added_unlimited (edges : List GraphEdge) (seen : List EntityId) (count : ℕ) :
    ((added query.unlimited edges seen count).map GraphEdge.id).Nodup ∧
      ∀ id ∈ (added query.unlimited edges seen count).map GraphEdge.id, id ∉ seen := by
  induction edges generalizing seen count with
  | nil => simp [added]
  | cons first rest ih =>
    rw [added_unlimited_cons]
    split
    · exact ih seen count
    · next kept =>
        obtain ⟨nodup, fresh⟩ := ih (first.id :: seen) (count + 1)
        constructor
        · exact nodup_cons.mpr ⟨fun mem => fresh _ mem mem_cons_self, nodup⟩
        · intro id mem
          cases mem_cons.mp mem with
          | inl same => exact same ▸ (not_or.mp kept).1
          | inr later => exact fun old => fresh id later (mem_cons_of_mem _ old)

/-- A limit cuts off what comes after so many. -/
theorem added_eq_take {limit : ℕ} (limited : query.limit = some limit) (positive : limit ≠ 0)
    (edges : List GraphEdge) (seen : List EntityId) (count : ℕ) :
    added query edges seen count =
      (added query.unlimited edges seen count).take (limit - count) := by
  induction edges generalizing seen count with
  | nil => simp [added]
  | cons first rest ih =>
    rw [added_unlimited_cons, added]
    by_cases old : first.id ∈ seen
    · rw [if_pos old, if_pos (Or.inl old), ih]
    · rw [if_neg old]
      by_cases matching : query.Matches first.place
      · rw [if_neg (not_not.mpr matching), if_neg (not_or.mpr ⟨old, not_not.mpr matching⟩)]
        by_cases reached : query.Reached count
        · obtain ⟨found, mem, -, full⟩ := reached
          rw [limited] at mem
          cases mem
          rw [if_pos ⟨limit, limited, positive, full⟩, Nat.sub_eq_zero_of_le full, take_zero]
        · have room : count < limit := by
            by_contra full
            exact reached ⟨limit, limited, positive, Nat.le_of_not_lt full⟩
          have split : limit - count = limit - (count + 1) + 1 := by omega
          rw [if_neg reached, ih, split, take_succ_cons]
      · rw [if_pos matching, if_pos (Or.inr matching), ih]

theorem added_eq_unlimited (never : ∀ count, ¬ query.Reached count) (edges : List GraphEdge)
    (seen : List EntityId) (count : ℕ) :
    added query edges seen count = added query.unlimited edges seen count := by
  induction edges generalizing seen count with
  | nil => simp [added]
  | cons first rest ih =>
    rw [added_unlimited_cons, added]
    by_cases old : first.id ∈ seen
    · rw [if_pos old, if_pos (Or.inl old), ih]
    · rw [if_neg old]
      by_cases matching : query.Matches first.place
      · rw [if_neg (not_not.mpr matching), if_neg (not_or.mpr ⟨old, not_not.mpr matching⟩),
          if_neg (never count), ih]
      · rw [if_pos matching, if_pos (Or.inr matching), ih]

end OverlayDelta

end

section

variable {main : Main} {draft : Draft main} {types : EdgeTypes} {query : EdgeQuery}

/-- Neither main's matches nor the draft's are more than the query takes. -/
structure EdgeQuery.Untruncated (query : EdgeQuery) (draft : Draft main) : Prop where
  offset : query.offset.getD 0 = 0
  store : (main.edges.filter fun edge => query.Matches edge.place).length ≤ query.storeLimit
  draft : ∀ limit ∈ query.limit, limit ≠ 0 →
    (draft.patch.edgesUpsert.filter fun entry => query.Matches entry.place).length ≤ limit

theorem EdgeQuery.Untruncated.getEdges (whole : query.Untruncated draft) :
    main.getEdges query = main.edges.filter fun edge => query.Matches edge.place := by
  rw [Main.getEdges, whole.offset, drop_zero, take_of_length_le whole.store]

theorem EdgeQuery.Matches.named {place : EdgePlace} (matching : query.Matches place)
    (some : query.named ≠ []) :
    place.sourceUrn ∈ query.named ∨ place.targetUrn ∈ query.named := by
  obtain ⟨source, target, either, -⟩ := matching
  rw [EdgeQuery.named] at some ⊢
  by_cases sources : query.sourceUrns.getD [] = []
  · rw [if_neg (not_not.mpr sources)] at some ⊢
    by_cases targets : query.targetUrns.getD [] = []
    · rw [if_neg (not_not.mpr targets)] at some ⊢
      exact either some
    · rw [if_pos targets]
      exact .inr (target targets)
  · rw [if_pos sources]
    exact .inl (source sources)

variable {edge : GraphEdge}

theorem mem_pool : edge ∈ (OverlayDelta.ofPatch types draft.patch).pool query ↔
      (∃ entry ∈ draft.patch.edgesUpsert, skeletonEdge entry.id entry.place = edge) ∧
        (query.named ≠ [] →
          edge.place.sourceUrn ∈ query.named ∨ edge.place.targetUrn ∈ query.named) := by
  rw [OverlayDelta.pool]
  split
  · next some =>
      simp only [mem_flatMap, Dict.mem_sortedKeys, mem_edgesAt]
      constructor
      · rintro ⟨urn, named, held, rfl | rfl⟩
        · exact ⟨held, fun _ => .inl named⟩
        · exact ⟨held, fun _ => .inr named⟩
      · rintro ⟨held, ends⟩
        cases ends some with
        | inl source => exact ⟨_, source, held, .inl rfl⟩
        | inr target => exact ⟨_, target, held, .inr rfl⟩
  · next none =>
      rw [edgeUpsert_ofPatch, List.map_map, List.mem_map]
      exact ⟨fun held => ⟨held, fun some => absurd some none⟩, fun held => held.1⟩

theorem pool_keyed (first : GraphEdge)
    (memFirst : first ∈ (OverlayDelta.ofPatch types draft.patch).pool query) (second : GraphEdge)
    (memSecond : second ∈ (OverlayDelta.ofPatch types draft.patch).pool query)
    (same : first.id = second.id) : first = second := by
  obtain ⟨one, memOne, rfl⟩ := (mem_pool.mp memFirst).1
  obtain ⟨two, memTwo, rfl⟩ := (mem_pool.mp memSecond).1
  rw [inj_on_of_nodup_map draft.upserts_nodup memOne memTwo same]

/-- The draft's matches all come before the limit. -/
theorem EdgeQuery.Untruncated.added (whole : query.Untruncated draft) (seen : List EntityId) :
    OverlayDelta.added query ((OverlayDelta.ofPatch types draft.patch).pool query) seen 0 =
      OverlayDelta.added query.unlimited
        ((OverlayDelta.ofPatch types draft.patch).pool query) seen 0 := by
  by_cases limited : ∃ limit ∈ query.limit, limit ≠ 0
  · obtain ⟨limit, mem, positive⟩ := limited
    rw [OverlayDelta.added_eq_take mem positive]
    apply take_of_length_le
    have sub : (OverlayDelta.added query.unlimited
        ((OverlayDelta.ofPatch types draft.patch).pool query) seen 0).map GraphEdge.id ⊆
          (draft.patch.edgesUpsert.filter fun entry => query.Matches entry.place).map
            EdgeSkeleton.id := by
      intro id mem
      obtain ⟨edge, served, rfl⟩ := mem_map.mp mem
      obtain ⟨pooled, -, matching⟩ :=
        (OverlayDelta.mem_added_unlimited pool_keyed seen 0).mp served
      obtain ⟨entry, held, rfl⟩ := (mem_pool.mp pooled).1
      exact mem_map_of_mem (mem_filter.mpr ⟨held, decide_eq_true matching⟩)
    have shorter := ((OverlayDelta.nodup_added_unlimited _ _ _).1.subperm sub).length_le
    rw [length_map, length_map] at shorter
    exact shorter.trans (whole.draft limit mem positive)
  · exact OverlayDelta.added_eq_unlimited
      (fun _ ⟨limit, mem, positive, _⟩ => limited ⟨limit, mem, positive⟩) _ _ _

theorem mem_added (whole : query.Untruncated draft) {seen : List EntityId} :
    edge ∈ OverlayDelta.added query ((OverlayDelta.ofPatch types draft.patch).pool query) seen 0 ↔
      (∃ entry ∈ draft.patch.edgesUpsert, skeletonEdge entry.id entry.place = edge) ∧
        edge.id ∉ seen ∧ query.Matches edge.place := by
  rw [whole.added, OverlayDelta.mem_added_unlimited pool_keyed, mem_pool]
  constructor
  · exact fun ⟨⟨held, _⟩, served⟩ => ⟨held, served⟩
  · exact fun ⟨held, served⟩ => ⟨⟨held, served.2.named⟩, served⟩

theorem loaded_of_mem {entry : EdgeSkeleton} (mem : entry ∈ draft.patch.edgesUpsert)
    {value edge : GraphEdge} (held : draft.values entry.id = some value)
    (same : entry.id = edge.id) :
    (OverlayDelta.ofPatch types draft.patch).loaded draft.values edge = value := by
  rw [OverlayDelta.loaded, if_pos ((isSome_get?_edgeUpsert draft types).mpr ⟨entry, mem, same⟩),
    ← same, held, getD_some]

theorem loaded_of_notMem (untouched : ∀ entry ∈ draft.patch.edgesUpsert, entry.id ≠ edge.id) :
    (OverlayDelta.ofPatch types draft.patch).loaded draft.values edge = edge := by
  rw [OverlayDelta.loaded, if_neg]
  intro found
  obtain ⟨entry, mem, same⟩ := (isSome_get?_edgeUpsert draft types).mp found
  exact untouched entry mem same

/-- What the overlay makes of main's edges keeps their ids. -/
theorem mem_overlaid {base : List GraphEdge} :
    edge ∈ (OverlayDelta.ofPatch types draft.patch).overlaid base ↔
      ∃ held ∈ base, held.id ∉ draft.patch.edgesRemove.map RemovedEdge.id ∧
        edge = ((OverlayDelta.ofPatch types draft.patch).edgeUpsert.get? held.id).getD held := by
  simp only [OverlayDelta.overlaid, List.mem_map, mem_filter, isNone_get?_edgeRemove]
  constructor
  · rintro ⟨held, ⟨mem, kept⟩, rfl⟩
    exact ⟨held, mem, kept, rfl⟩
  · rintro ⟨held, mem, kept, rfl⟩
    exact ⟨held, ⟨mem, kept⟩, rfl⟩

theorem id_getD_edgeUpsert (held : GraphEdge) :
    (((OverlayDelta.ofPatch types draft.patch).edgeUpsert.get? held.id).getD held).id =
      held.id := by
  cases found : (OverlayDelta.ofPatch types draft.patch).edgeUpsert.get? held.id with
  | none => rfl
  | some edge =>
    obtain ⟨entry, -, -, rfl⟩ := (get?_edgeUpsert draft types).mp found
    rfl

theorem map_id_overlaid (base : List GraphEdge) :
    ((OverlayDelta.ofPatch types draft.patch).overlaid base).map GraphEdge.id =
      (base.filter fun edge => ((OverlayDelta.ofPatch types draft.patch).edgeRemove.get?
        edge.id).isNone).map GraphEdge.id := by
  rw [OverlayDelta.overlaid, List.map_map]
  exact map_congr_left fun held _ => id_getD_edgeUpsert held

theorem id_loaded (edge : GraphEdge) :
    ((OverlayDelta.ofPatch types draft.patch).loaded draft.values edge).id = edge.id := by
  by_cases touched : ∃ entry ∈ draft.patch.edgesUpsert, entry.id = edge.id
  · obtain ⟨entry, mem, same⟩ := touched
    obtain ⟨value, held, id, -⟩ := draft.loads entry mem
    rw [loaded_of_mem mem held same, id, same]
  · rw [loaded_of_notMem fun entry mem same => touched ⟨entry, mem, same⟩]

theorem mem_getEdges (whole : query.Untruncated draft) : edge ∈ getEdges types draft query ↔
      (edge ∈ main.edges ∧ edge.id ∉ edgeIds draft.patch ∧ query.Matches edge.place) ∨
        ∃ entry ∈ draft.patch.edgesUpsert, draft.values entry.id = some edge ∧
          ((∃ was ∈ entry.was, query.Matches was) ∨ query.Matches entry.place) := by
  have inMain {held : GraphEdge} : held ∈ main.getEdges query ↔
      held ∈ main.edges ∧ query.Matches held.place := by
    rw [whole.getEdges, mem_filter, decide_eq_true_eq]
  rw [getEdges]
  split
  · next empty =>
      obtain ⟨upserts, removes⟩ := edges_eq_nil_of_isEmpty empty
      simp [inMain, edgeIds, upserts, removes]
  · simp only [List.mem_map, mem_append, mem_overlaid, inMain, mem_added whole]
    constructor
    · rintro ⟨served, ⟨held, ⟨mem, matching⟩, kept, rfl⟩ | ⟨⟨entry, mem, rfl⟩, -, matching⟩, rfl⟩
      · by_cases touched : ∃ entry ∈ draft.patch.edgesUpsert, entry.id = held.id
        · obtain ⟨entry, upserted, same⟩ := touched
          obtain ⟨value, loads, -⟩ := draft.loads entry upserted
          rw [loaded_of_mem upserted loads (same.trans (id_getD_edgeUpsert held).symm)]
          exact .inr ⟨entry, upserted, loads, .inl ⟨held.place,
            (mem_was upserted).mpr ⟨held, mem, same.symm, rfl⟩, matching⟩⟩
        · have untouched : (OverlayDelta.ofPatch types draft.patch).edgeUpsert.get? held.id =
              none := by
            rw [← not_isSome_iff_eq_none, isSome_get?_edgeUpsert]
            exact touched
          rw [untouched, getD_none,
            loaded_of_notMem fun entry upserted same => touched ⟨entry, upserted, same⟩]
          refine .inl ⟨mem, fun touch => ?_, matching⟩
          cases mem_append.mp touch with
          | inl upserted =>
            obtain ⟨entry, upserted, same⟩ := mem_map.mp upserted
            exact touched ⟨entry, upserted, same⟩
          | inr removed => exact kept (mem_map.mp removed)
      · obtain ⟨value, loads, -⟩ := draft.loads entry mem
        rw [loaded_of_mem mem loads rfl]
        exact .inr ⟨entry, mem, loads, .inr matching⟩
    · rintro (⟨mem, untouched, matching⟩ | ⟨entry, upserted, loads, matching⟩)
      · have touch (entry : EdgeSkeleton) (upserted : entry ∈ draft.patch.edgesUpsert) :
            entry.id ≠ edge.id := fun same =>
          untouched (mem_append_left _ (mem_map.mpr ⟨entry, upserted, same⟩))
        have same : (OverlayDelta.ofPatch types draft.patch).edgeUpsert.get? edge.id = none := by
          rw [← not_isSome_iff_eq_none, isSome_get?_edgeUpsert]
          exact fun ⟨entry, upserted, same⟩ => touch entry upserted same
        refine ⟨edge, .inl ⟨edge, ⟨mem, matching⟩, fun removed => untouched
          (mem_append_right _ (List.mem_map.mpr removed)), ?_⟩, loaded_of_notMem touch⟩
        rw [same, getD_none]
      · have listed (held : GraphEdge) (mem : held ∈ main.edges) (same : held.id = entry.id)
            (matching : query.Matches held.place) : ∃ served,
            ((∃ held, (held ∈ main.edges ∧ query.Matches held.place) ∧
              (¬ ∃ entry ∈ draft.patch.edgesRemove, entry.id = held.id) ∧ served =
                ((OverlayDelta.ofPatch types draft.patch).edgeUpsert.get? held.id).getD held)) ∧
            (OverlayDelta.ofPatch types draft.patch).loaded draft.values served = edge :=
          ⟨_, ⟨held, ⟨mem, matching⟩, fun removed => draft.notMem_removes upserted
              (mem_map.mpr (same ▸ removed)), rfl⟩,
            loaded_of_mem upserted loads (same.symm.trans (id_getD_edgeUpsert held).symm)⟩
        cases matching with
        | inl was =>
          obtain ⟨was, old, matching⟩ := was
          obtain ⟨held, mem, same, rfl⟩ := (mem_was upserted).mp old
          obtain ⟨served, found, value⟩ := listed held mem same matching
          exact ⟨served, .inl found, value⟩
        | inr matching =>
          by_cases seen : entry.id ∈
              ((OverlayDelta.ofPatch types draft.patch).overlaid (main.getEdges query)).map
                GraphEdge.id
          · rw [map_id_overlaid, List.mem_map] at seen
            obtain ⟨held, mem, same⟩ := seen
            obtain ⟨inStore, matches_⟩ := inMain.mp (mem_of_mem_filter mem)
            obtain ⟨served, found, value⟩ := listed held inStore same matches_
            exact ⟨served, .inl found, value⟩
          · refine ⟨_, .inr ⟨⟨entry, upserted, rfl⟩, ?_, matching⟩,
              loaded_of_mem upserted loads rfl⟩
            rintro ⟨served, ⟨held, base, kept, value⟩, same⟩
            exact seen (mem_map.mpr ⟨served, mem_overlaid.mpr ⟨held, inMain.mpr base,
              fun removed => kept (mem_map.mp removed), value⟩, same⟩)

theorem nodup_getEdges (whole : query.Untruncated draft) :
    ((getEdges types draft query).map GraphEdge.id).Nodup := by
  have base : ((main.getEdges query).map GraphEdge.id).Nodup := by
    rw [whole.getEdges]
    exact main.edges_nodup.sublist (filter_sublist.map _)
  rw [getEdges]
  split
  · exact base
  · have ids : GraphEdge.id ∘ (OverlayDelta.ofPatch types draft.patch).loaded draft.values =
        GraphEdge.id := funext id_loaded
    rw [List.map_map, ids, whole.added, map_append]
    obtain ⟨nodup, fresh⟩ := @OverlayDelta.nodup_added_unlimited query
      ((OverlayDelta.ofPatch types draft.patch).pool query)
      (((OverlayDelta.ofPatch types draft.patch).overlaid (main.getEdges query)).map GraphEdge.id) 0
    refine nodup_append.mpr ⟨?_, nodup, fun id old other new same => ?_⟩
    · rw [map_id_overlaid]
      exact base.sublist (filter_sublist.map _)
    · exact fresh other new (same ▸ old)

structure ServesExactly (query : EdgeQuery) (edges read : List GraphEdge) : Prop where
  once : (read.map GraphEdge.id).Nodup
  exact : ∀ edge, edge ∈ read ↔ edge ∈ edges ∧ query.Matches edge.place

/-- A read that is not cut off serves exactly the composed state's matches, if and only if
no edge of the patch set matches the query where main has it and not where the draft does. -/
theorem getEdges_servesExactly_iff (types : EdgeTypes) {main : Main} (draft : Draft main)
    (query : EdgeQuery) (whole : query.Untruncated draft) :
    ServesExactly query (composedEdges main draft.patch draft.values) (getEdges types draft query) ↔
      ∀ entry ∈ draft.patch.edgesUpsert, ∀ was ∈ entry.was,
        query.Matches was → query.Matches entry.place := by
  constructor
  · intro exact entry mem was old matching
    obtain ⟨value, loads, -, place⟩ := draft.loads entry mem
    have served : value ∈ getEdges types draft query :=
      (mem_getEdges whole).mpr (.inr ⟨entry, mem, loads, .inl ⟨was, old, matching⟩⟩)
    rw [← place]
    exact ((exact.exact value).mp served).2
  · intro stays
    refine ⟨nodup_getEdges whole, fun edge => ?_⟩
    rw [mem_getEdges whole, mem_composedEdges]
    constructor
    · rintro (⟨mem, untouched, matching⟩ | ⟨entry, mem, loads, matching⟩)
      · exact ⟨.inl ⟨mem, untouched⟩, matching⟩
      · obtain ⟨value, same, -, place⟩ := draft.loads entry mem
        rw [loads] at same
        cases same
        refine ⟨.inr ⟨entry, mem, loads⟩, place ▸ ?_⟩
        cases matching with
        | inl old =>
          obtain ⟨was, old, matching⟩ := old
          exact stays entry mem was old matching
        | inr now => exact now
    · rintro ⟨⟨mem, untouched⟩ | ⟨entry, mem, loads⟩, matching⟩
      · exact .inl ⟨mem, untouched, matching⟩
      · obtain ⟨value, same, -, place⟩ := draft.loads entry mem
        rw [loads] at same
        cases same
        exact .inr ⟨entry, mem, loads, .inr (place ▸ matching)⟩

def twoFlows : Main where
  nodes := ["a", "b", "c"]
  edges := [⟨"e1", ⟨"a", "b", "FLOWS"⟩, .obj []⟩, ⟨"e2", ⟨"a", "c", "FLOWS"⟩, .obj []⟩]
  edges_nodup := by decide +kernel
  closed := by decide +kernel

def sourceMoved : Draft twoFlows where
  patch := { PatchSet.empty with
    edgesUpsert := [⟨"e1", ⟨"c", "b", "FLOWS"⟩, some ⟨"a", "b", "FLOWS"⟩⟩] }
  values := fun id => if id = "e1" then some ⟨"e1", ⟨"c", "b", "FLOWS"⟩, .obj []⟩ else none
  keyed := by decide +kernel
  loads entry mem := by
    obtain rfl := List.mem_singleton.mp mem
    exact ⟨⟨"e1", ⟨"c", "b", "FLOWS"⟩, .obj []⟩, rfl, rfl, rfl⟩
  was := by decide +kernel
  removes := nofun
  closed := by decide +kernel

/-- A read of what runs to `b` is exact: the flow still does. -/
theorem getEdges_servesExactly_target : ServesExactly { targetUrns := some ["b"] }
      (composedEdges twoFlows sourceMoved.patch sourceMoved.values)
      (getEdges ⟨id, ["CONTAINS"]⟩ sourceMoved { targetUrns := some ["b"] }) :=
  (getEdges_servesExactly_iff ⟨id, ["CONTAINS"]⟩ sourceMoved { targetUrns := some ["b"] }
    { offset := rfl, store := by decide +kernel, draft := by decide +kernel }).mpr
    (by decide +kernel)

/-- A read of what runs from `a` serves the flow that now runs from `c`. -/
theorem getEdges_source_moved : EdgeQuery.Untruncated { sourceUrns := some ["a"] } sourceMoved ∧
      ¬ ServesExactly { sourceUrns := some ["a"] }
        (composedEdges twoFlows sourceMoved.patch sourceMoved.values)
        (getEdges ⟨id, ["CONTAINS"]⟩ sourceMoved { sourceUrns := some ["a"] }) := by
  refine ⟨{ offset := rfl, store := by decide +kernel, draft := by decide +kernel }, ?_⟩
  intro exact
  have served : (⟨"e1", ⟨"c", "b", "FLOWS"⟩, .obj []⟩ : GraphEdge) ∈
      getEdges ⟨id, ["CONTAINS"]⟩ sourceMoved { sourceUrns := some ["a"] } := by decide +kernel
  have matching := ((exact.exact _).mp served).2
  revert matching
  decide +kernel

end

end DataViz.Overlay
