/-
# What a trace finds

The two directions of a trace share their visited set, so a node within both depths is found in one
direction only, and an expansion that fails leaves no mark on the result. Where neither happens each
direction is a breadth-first search of its own.
-/

import DataViz.Trace.Orchestrator

namespace DataViz.Trace

open List

open DataViz.Digraph

variable {g : AggGraph} {request : TraceRequest} {anchor : String} {hop : ℕ}
  {callbacks : TraceCallbacks}

/-- The aggregated edges at the level of a trace, each with an id of its own. -/
structure AggGraph where
  edges : List GraphEdge
  nodup_ids : (edges.map GraphEdge.id).Nodup

def GraphEdge.near : Direction → GraphEdge → String
  | .up, edge => edge.targetUrn
  | .down, edge => edge.sourceUrn

def GraphEdge.far : Direction → GraphEdge → String
  | .up, edge => edge.sourceUrn
  | .down, edge => edge.targetUrn

def AggGraph.next (g : AggGraph) (direction : Direction) (urn : String) : List String :=
  (g.edges.filter fun edge => edge.near direction = urn).map fun edge => edge.far direction

def TraceRequest.depth (request : TraceRequest) : Direction → ℕ
  | .up => request.upstreamDepth
  | .down => request.downstreamDepth

def TraceResult.found (result : TraceResult) : Direction → List String
  | .up => result.upstreamUrns
  | .down => result.downstreamUrns

/-- Every expansion fails or answers with exactly the edges at the frontier. -/
def Exact (g : AggGraph) (callbacks : TraceCallbacks) : Prop :=
  ∀ hop direction urns level ltypes budget recs,
    callbacks.expandFrontier hop direction urns level ltypes budget = some recs →
      (∀ rec ∈ recs, rec.edge ∈ g.edges ∧ rec.edge.near direction ∈ urns ∧
        rec.newUrn = rec.edge.far direction) ∧
      ∀ edge ∈ g.edges, edge.near direction ∈ urns → ∃ rec ∈ recs, rec.edge = edge

/-- The result holds exactly the nodes within the depths, and the edges of every node
within fewer hops. -/
def FindsAll (g : AggGraph) (request : TraceRequest) (anchor : String)
    (result : TraceResult) : Prop :=
  ∀ direction, (∀ urn, urn ∈ result.found direction ↔
      urn ≠ anchor ∧ Within (g.next direction) (request.depth direction) anchor urn) ∧
    ∀ edge ∈ g.edges, ∀ hops < request.depth direction,
      Within (g.next direction) hops anchor (edge.near direction) → edge ∈ result.edges

/-- A result without a failed expansion holds everything; another one is not shown as
complete. -/
def Trustworthy (g : AggGraph) (request : TraceRequest) (anchor : String)
    (result : TraceResult) : Prop :=
  (result.warnings = [] → FindsAll g request anchor result) ∧
    (result.warnings ≠ [] → result.truncated = true)

namespace TraceState

variable (s : TraceState)

def found : Direction → List String
  | .up => s.upstream
  | .down => s.downstream

def frontier : Direction → List String
  | .up => s.upFrontier
  | .down => s.downFrontier

end TraceState

section

variable {s : TraceState} {direction other : Direction} {rec : FrontierRecord} {urn : String}

theorem mem_visited_takeRecord :
    urn ∈ (takeRecord direction s rec).visited ↔ urn ∈ s.visited ∨ urn = rec.newUrn := by
  unfold takeRecord
  by_cases seen : rec.newUrn ∈ s.visited
  · simp only [seen, if_true]
    exact ⟨.inl, fun either => either.elim id fun same => same ▸ seen⟩
  · cases direction <;> simp [seen]

theorem mem_found_takeRecord : urn ∈ (takeRecord direction s rec).found other ↔
      urn ∈ s.found other ∨ other = direction ∧ urn = rec.newUrn ∧ urn ∉ s.visited := by
  unfold takeRecord
  by_cases seen : rec.newUrn ∈ s.visited
  · have old : ¬ (urn = rec.newUrn ∧ urn ∉ s.visited) := fun new => new.2 (new.1 ▸ seen)
    simp only [seen, if_true, TraceState.found]
    cases other <;> simp [old]
  · have new : urn = rec.newUrn → urn ∉ s.visited := fun same => same ▸ seen
    cases direction <;> cases other <;> simp [seen, TraceState.found] <;> tauto

theorem mem_frontier_takeRecord : urn ∈ (takeRecord direction s rec).frontier other ↔
      urn ∈ s.frontier other ∨ other = direction ∧ urn = rec.newUrn ∧ urn ∉ s.visited := by
  unfold takeRecord
  by_cases seen : rec.newUrn ∈ s.visited
  · have old : ¬ (urn = rec.newUrn ∧ urn ∉ s.visited) := fun new => new.2 (new.1 ▸ seen)
    simp only [seen, if_true, TraceState.frontier]
    cases other <;> simp [old]
  · have new : urn = rec.newUrn → urn ∉ s.visited := fun same => same ▸ seen
    cases direction <;> cases other <;> simp [seen, TraceState.frontier] <;> tauto

theorem edges_takeRecord : (takeRecord direction s rec).edges =
      if rec.edgeId ∈ s.edges.keys then s.edges else s.edges.set rec.edgeId rec.edge := by
  unfold takeRecord
  by_cases seen : rec.newUrn ∈ s.visited
  · simp only [seen, if_true]
  · cases direction <;> simp only [seen, if_false]

theorem quiet_takeRecord : (takeRecord direction s rec).warnings = s.warnings ∧
      (takeRecord direction s rec).truncationReason = s.truncationReason := by
  unfold takeRecord
  by_cases seen : rec.newUrn ∈ s.visited
  · simp only [seen, if_true, and_self]
  · cases direction <;> simp only [seen, if_false, and_self]

variable {recs : List FrontierRecord}

theorem mem_visited_takeRecords : urn ∈ (recs.foldl (takeRecord direction) s).visited ↔
      urn ∈ s.visited ∨ ∃ rec ∈ recs, urn = rec.newUrn := by
  induction recs generalizing s with
  | nil => simp
  | cons rec rest ih =>
    rw [foldl_cons, ih, mem_visited_takeRecord, exists_mem_cons_iff, or_assoc]

/-- What the records of a direction add to it are the ends not seen before. -/
theorem mem_found_takeRecords : urn ∈ (recs.foldl (takeRecord direction) s).found other ↔
      urn ∈ s.found other ∨
        other = direction ∧ (∃ rec ∈ recs, urn = rec.newUrn) ∧ urn ∉ s.visited := by
  induction recs generalizing s with
  | nil => simp
  | cons rec rest ih =>
    rw [foldl_cons, ih, mem_found_takeRecord, mem_visited_takeRecord, exists_mem_cons_iff]
    tauto

/-- The next frontier is what the records add. -/
theorem mem_frontier_takeRecords : urn ∈ (recs.foldl (takeRecord direction) s).frontier other ↔
      urn ∈ s.frontier other ∨
        other = direction ∧ (∃ rec ∈ recs, urn = rec.newUrn) ∧ urn ∉ s.visited := by
  induction recs generalizing s with
  | nil => simp
  | cons rec rest ih =>
    rw [foldl_cons, ih, mem_frontier_takeRecord, mem_visited_takeRecord, exists_mem_cons_iff]
    tauto

theorem takeRecords_of_ne (ne : other ≠ direction) :
    (recs.foldl (takeRecord direction) s).found other = s.found other ∧
      (recs.foldl (takeRecord direction) s).frontier other = s.frontier other := by
  induction recs generalizing s with
  | nil => exact ⟨rfl, rfl⟩
  | cons rec rest ih =>
    rw [foldl_cons, ih.1, ih.2]
    unfold takeRecord
    by_cases seen : rec.newUrn ∈ s.visited
    · simp only [seen, if_true]
      cases other <;> exact ⟨rfl, rfl⟩
    · cases direction <;> cases other <;> simp_all [TraceState.found, TraceState.frontier]

def TraceState.EdgesOf (g : AggGraph) (s : TraceState) : Prop :=
  ∀ entry ∈ s.edges, entry.2 ∈ g.edges ∧ entry.1 = entry.2.id

theorem edgesOf_takeRecords {g : AggGraph} (sound : s.EdgesOf g)
    (each : ∀ rec ∈ recs, rec.edge ∈ g.edges) :
    (recs.foldl (takeRecord direction) s).EdgesOf g := by
  induction recs generalizing s with
  | nil => exact sound
  | cons rec rest ih =>
    apply ih
    · intro entry member
      rw [edges_takeRecord] at member
      split at member
      · exact sound entry member
      · cases Dict.eq_or_mem_of_mem_set member with
        | inl same => exact same ▸ ⟨each rec mem_cons_self, rfl⟩
        | inr old => exact sound entry old
    · exact fun later member => each later (mem_cons_of_mem _ member)

theorem mem_keys_takeRecords {id : String} : id ∈ (recs.foldl (takeRecord direction) s).edges.keys ↔
      id ∈ s.edges.keys ∨ ∃ rec ∈ recs, id = rec.edgeId := by
  induction recs generalizing s with
  | nil => simp
  | cons rec rest ih =>
    rw [foldl_cons, ih, edges_takeRecord, exists_mem_cons_iff, ← or_assoc]
    refine or_congr ?_ Iff.rfl
    split
    · next known =>
      exact ⟨.inl, fun either => either.elim (fun old => old) fun same => same ▸ known⟩
    · rw [Dict.mem_keys_iff, Dict.get?_set, Dict.mem_keys_iff]
      by_cases same : rec.edgeId = id
      · simp [same]
      · simp [same, Ne.symm same]

theorem quiet_takeRecords : (recs.foldl (takeRecord direction) s).warnings = s.warnings ∧
      (recs.foldl (takeRecord direction) s).truncationReason = s.truncationReason := by
  induction recs generalizing s with
  | nil => exact ⟨rfl, rfl⟩
  | cons rec rest ih =>
    rw [foldl_cons, ih.1, ih.2]
    exact quiet_takeRecord

end

section

variable {direction : Direction} {s t : TraceState}

/-- A direction after some hops: what is found lies that near, and the nodes that near
whose edges have not been read are at the frontier. -/
structure Layer (g : AggGraph) (request : TraceRequest) (anchor : String)
    (direction : Direction) (hop : ℕ) (s : TraceState) : Prop where
  found_iff : ∀ urn, urn ∈ s.found direction ↔ urn ≠ anchor ∧
    Within (g.next direction) (min hop (request.depth direction)) anchor urn
  near : ∀ urn ∈ s.frontier direction,
    Within (g.next direction) (min hop (request.depth direction)) anchor urn
  read : hop < request.depth direction → ∀ urn, Within (g.next direction) hop anchor urn →
    urn ∈ s.frontier direction ∨ ∀ edge ∈ g.edges, edge.near direction = urn →
      edge.id ∈ s.edges.keys ∧ Within (g.next direction) hop anchor (edge.far direction)
  edges : ∀ edge ∈ g.edges, ∀ hops < min hop (request.depth direction),
    Within (g.next direction) hops anchor (edge.near direction) → edge.id ∈ s.edges.keys

theorem mem_next {urn other : String} : other ∈ g.next direction urn ↔
      ∃ edge ∈ g.edges, edge.near direction = urn ∧ edge.far direction = other := by
  simp [AggGraph.next, and_assoc]

structure Expands (g : AggGraph) (anchor : String) (request : TraceRequest)
    (direction : Direction) (s t : TraceState) : Prop where
  found_iff : ∀ urn, urn ∈ t.found direction ↔ urn ∈ s.found direction ∨ urn ∈ t.frontier direction
  frontier_iff : ∀ urn, urn ∈ t.frontier direction ↔
    (∃ edge ∈ g.edges, edge.near direction ∈ s.frontier direction ∧
      edge.far direction = urn) ∧ urn ≠ anchor ∧ urn ∉ s.found direction
  recorded : ∀ edge ∈ g.edges, edge.near direction ∈ s.frontier direction → edge.id ∈ t.edges.keys
  kept : ∀ id ∈ s.edges.keys, id ∈ t.edges.keys

/-- Reading the edges of the frontier leads one hop further. -/
theorem Layer.expand (layer : Layer g request anchor direction hop s)
    (within : hop < request.depth direction)
    (expands : Expands g anchor request direction s t) :
    Layer g request anchor direction (hop + 1) t := by
  have now : min hop (request.depth direction) = hop := min_eq_left within.le
  have next : min (hop + 1) (request.depth direction) = hop + 1 := min_eq_left within
  have found := layer.found_iff
  have near := layer.near
  rw [now] at found near
  have fresh : ∀ urn ∈ t.frontier direction, Within (g.next direction) (hop + 1) anchor urn := by
    intro urn member
    obtain ⟨edge, isEdge, atFrontier, rfl⟩ := ((expands.frontier_iff urn).mp member).1
    exact .inr ⟨edge.near direction, near _ atFrontier, mem_next.mpr ⟨edge, isEdge, rfl, rfl⟩⟩
  -- A node one hop further is within the old hops or newly at the frontier.
  have further : ∀ urn, Within (g.next direction) (hop + 1) anchor urn →
      Within (g.next direction) hop anchor urn ∨ urn ∈ t.frontier direction := by
    intro urn member
    by_cases old : Within (g.next direction) hop anchor urn
    · exact .inl old
    · cases member with
      | inl same => exact absurd same old
      | inr last =>
        obtain ⟨middle, reached, step⟩ := last
        obtain ⟨edge, isEdge, rfl, rfl⟩ := mem_next.mp step
        cases layer.read within _ reached with
        | inl atFrontier =>
          refine .inr ((expands.frontier_iff _).mpr ⟨⟨edge, isEdge, atFrontier, rfl⟩, ?_, ?_⟩)
          · intro same
            rw [same] at old
            exact old (.refl hop anchor)
          · exact fun member => old ((found _).mp member).2
        | inr done => exact absurd (done edge isEdge rfl).2 old
  have readNow : ∀ urn, Within (g.next direction) hop anchor urn → ∀ edge ∈ g.edges,
      edge.near direction = urn → edge.id ∈ t.edges.keys ∧
        Within (g.next direction) (hop + 1) anchor (edge.far direction) := by
    intro urn reached edge isEdge same
    refine ⟨?_, .inr ⟨urn, reached, mem_next.mpr ⟨edge, isEdge, same, rfl⟩⟩⟩
    cases layer.read within urn reached with
    | inl atFrontier => exact expands.recorded edge isEdge (same ▸ atFrontier)
    | inr done => exact expands.kept _ (done edge isEdge same).1
  constructor
  · intro urn
    rw [next, expands.found_iff, found]
    constructor
    · intro either
      cases either with
      | inl old => exact ⟨old.1, .inl old.2⟩
      | inr new => exact ⟨((expands.frontier_iff urn).mp new).2.1, fresh urn new⟩
    · intro reached
      exact (further urn reached.2).imp_left fun old => ⟨reached.1, old⟩
  · rw [next]
    exact fresh
  · intro _ urn reached
    cases further urn reached with
    | inl old => exact .inr (readNow urn old)
    | inr new => exact .inl new
  · intro edge isEdge hops few reached
    exact (readNow _ (reached.mono (by omega)) edge isEdge rfl).1

/-- A direction that has reached its depth or its end is whole for every later hop. -/
theorem Layer.rest (layer : Layer g request anchor direction hop s)
    (done : request.depth direction ≤ hop ∨ s.frontier direction = [])
    (found : t.found direction = s.found direction) (none : t.frontier direction = [])
    (kept : ∀ id ∈ s.edges.keys, id ∈ t.edges.keys) :
    Layer g request anchor direction (hop + 1) t := by
  by_cases deep : request.depth direction ≤ hop
  · have now : min hop (request.depth direction) = request.depth direction := min_eq_right deep
    have next : min (hop + 1) (request.depth direction) = request.depth direction :=
      min_eq_right (deep.trans (Nat.le_succ _))
    constructor
    · intro urn
      rw [next, ← now, found]
      exact layer.found_iff urn
    · rw [none]
      nofun
    · intro shallow
      omega
    · intro edge isEdge hops few reached
      exact kept _ (layer.edges edge isEdge hops (by omega) reached)
  · have empty := done.resolve_left deep
    apply layer.expand (not_le.mp deep)
    constructor
    · intro urn
      rw [found, none]
      simp
    · intro urn
      rw [none, empty]
      simp
    · intro edge _ atFrontier
      rw [empty] at atFrontier
      simp at atFrontier
    · exact kept

/-- A finished direction found just what lies within its depth, and every edge on the way. -/
theorem Layer.final (layer : Layer g request anchor direction hop s)
    (done : request.depth direction ≤ hop ∨ s.frontier direction = []) :
    (∀ urn, urn ∈ s.found direction ↔
      urn ≠ anchor ∧ Within (g.next direction) (request.depth direction) anchor urn) ∧
    ∀ edge ∈ g.edges, ∀ hops < request.depth direction,
      Within (g.next direction) hops anchor (edge.near direction) → edge.id ∈ s.edges.keys := by
  by_cases deep : request.depth direction ≤ hop
  · have now : min hop (request.depth direction) = request.depth direction := min_eq_right deep
    have found := layer.found_iff
    have edges := layer.edges
    rw [now] at found edges
    exact ⟨found, edges⟩
  · have empty := done.resolve_left deep
    have now : min hop (request.depth direction) = hop := min_eq_left (not_le.mp deep).le
    have found := layer.found_iff
    rw [now] at found
    have read : ∀ urn, Within (g.next direction) hop anchor urn → ∀ edge ∈ g.edges,
        edge.near direction = urn → edge.id ∈ s.edges.keys ∧
          Within (g.next direction) hop anchor (edge.far direction) := by
      intro urn reached
      cases layer.read (not_le.mp deep) urn reached with
      | inl atFrontier =>
        rw [empty] at atFrontier
        simp at atFrontier
      | inr all => exact all
    have closed : ∀ more urn, Within (g.next direction) more anchor urn →
        Within (g.next direction) hop anchor urn := by
      intro more urn far
      refine Within.of_closed (fun middle reached other step => ?_) far
      obtain ⟨edge, isEdge, same, rfl⟩ := mem_next.mp step
      exact (read middle reached edge isEdge same).2
    constructor
    · intro urn
      rw [found]
      exact and_congr_right fun _ =>
        ⟨fun near => near.mono (not_le.mp deep).le, closed _ urn⟩
    · intro edge isEdge hops _ reached
      exact (read _ (closed hops _ reached) edge isEdge rfl).1

end

section

variable {direction : Direction} {s t : TraceState}

/-- No node other than the anchor lies within both depths. -/
def Apart (g : AggGraph) (request : TraceRequest) (anchor : String) : Prop :=
  ∀ urn, urn ≠ anchor → ¬ (Within (g.next .up) request.upstreamDepth anchor urn ∧
      Within (g.next .down) request.downstreamDepth anchor urn)

/-- Records that name the edges of the frontier, all of them, expand it. -/
theorem expands_of_answer {recs : List FrontierRecord}
    (layer : Layer g request anchor direction hop s) (within : hop < request.depth direction)
    (sound : ∀ rec ∈ recs, rec.edge ∈ g.edges ∧ rec.edge.near direction ∈ s.frontier direction ∧
      rec.newUrn = rec.edge.far direction)
    (complete : ∀ edge ∈ g.edges, edge.near direction ∈ s.frontier direction →
      ∃ rec ∈ recs, rec.edge = edge)
    (found : t.found direction = s.found direction) (cleared : t.frontier direction = [])
    (seen : anchor ∈ t.visited ∧ ∀ urn ∈ s.found direction, urn ∈ t.visited)
    (foreign : ∀ urn ∈ t.visited, urn = anchor ∨ urn ∈ s.found direction ∨
      ¬ Within (g.next direction) (request.depth direction) anchor urn)
    (kept : ∀ id ∈ s.edges.keys, id ∈ t.edges.keys) :
    Expands g anchor request direction s (recs.foldl (takeRecord direction) t) := by
  have ends : ∀ urn, (∃ rec ∈ recs, urn = rec.newUrn) ↔ ∃ edge ∈ g.edges,
      edge.near direction ∈ s.frontier direction ∧ edge.far direction = urn := by
    intro urn
    constructor
    · intro has
      obtain ⟨rec, member, rfl⟩ := has
      obtain ⟨isEdge, atFrontier, same⟩ := sound rec member
      exact ⟨rec.edge, isEdge, atFrontier, same.symm⟩
    · intro has
      obtain ⟨edge, isEdge, atFrontier, rfl⟩ := has
      obtain ⟨rec, member, rfl⟩ := complete edge isEdge atFrontier
      exact ⟨rec, member, (sound rec member).2.2.symm⟩
  have frontier : ∀ urn, urn ∈ (recs.foldl (takeRecord direction) t).frontier direction ↔
      (∃ rec ∈ recs, urn = rec.newUrn) ∧ urn ∉ t.visited := by
    intro urn
    rw [mem_frontier_takeRecords, cleared]
    simp
  constructor
  · intro urn
    rw [mem_found_takeRecords, frontier, found]
    simp
  · intro urn
    rw [frontier, ends]
    refine and_congr_right fun has => ?_
    have near : Within (g.next direction) (request.depth direction) anchor urn := by
      obtain ⟨edge, isEdge, atFrontier, rfl⟩ := has
      have start := layer.near _ atFrontier
      rw [min_eq_left within.le] at start
      have step : Within (g.next direction) (hop + 1) anchor (edge.far direction) :=
        .inr ⟨_, start, mem_next.mpr ⟨edge, isEdge, rfl, rfl⟩⟩
      exact step.mono within
    constructor
    · intro unseen
      exact ⟨fun same => unseen (same ▸ seen.1), fun member => unseen (seen.2 urn member)⟩
    · intro new visited
      cases foreign urn visited with
      | inl same => exact new.1 same
      | inr other => exact other.elim new.2 fun far => far near
  · intro edge isEdge atFrontier
    obtain ⟨rec, member, rfl⟩ := complete edge isEdge atFrontier
    exact mem_keys_takeRecords.mpr (.inr ⟨rec, member, rfl⟩)
  · intro id member
    exact mem_keys_takeRecords.mpr (.inl (kept id member))

/-- One direction's share of a hop: the answer, if an expansion was asked for. -/
def takeStep (callbacks : TraceCallbacks) (request : TraceRequest) (hop : ℕ) (s : TraceState)
    (direction : Direction) (t : TraceState) : TraceState :=
  if hop < request.depth direction ∧ s.frontier direction ≠ [] then
    takeAnswer hop direction t (callbacks.expandFrontier hop direction (s.frontier direction)
      request.level (if request.lineageEdgeTypes = [] then none else some request.lineageEdgeTypes)
      (request.maxNodes - s.nodes.length))
  else t

theorem foldl_hopTasks (t : TraceState) :
    (hopTasks callbacks request hop s).foldl (fun s task => takeAnswer hop task.1 s task.2) t =
      takeStep callbacks request hop s .down (takeStep callbacks request hop s .up t) := by
  have one : ∀ (asked : Prop) [Decidable asked] (task : Direction × Option (List FrontierRecord))
      (t : TraceState), (if asked then [task] else []).foldl
        (fun s task => takeAnswer hop task.1 s task.2) t =
      if asked then takeAnswer hop task.1 t task.2 else t := by
    intro asked _ task t
    split <;> rfl
  rw [hopTasks, foldl_append, one, one]
  rfl

theorem hopTasks_eq_nil : hopTasks callbacks request hop s = [] ↔
      ∀ direction, request.depth direction ≤ hop ∨ s.frontier direction = [] := by
  have each : (∀ direction, request.depth direction ≤ hop ∨ s.frontier direction = []) ↔
      (request.upstreamDepth ≤ hop ∨ s.upFrontier = []) ∧
        (request.downstreamDepth ≤ hop ∨ s.downFrontier = []) :=
    ⟨fun all => ⟨all .up, all .down⟩, fun both direction => by
      cases direction
      · exact both.1
      · exact both.2⟩
  rw [each, hopTasks, append_eq_nil_iff]
  simp only [ite_eq_right_iff, imp_false, cons_ne_nil, not_and_or, not_lt, ne_eq, not_not]

theorem warnings_takeStep (quiet : (takeStep callbacks request hop s direction t).warnings = []) :
    t.warnings = [] := by
  unfold takeStep at quiet
  split at quiet
  · unfold takeAnswer at quiet
    split at quiet
    · simp at quiet
    · rwa [quiet_takeRecords.1] at quiet
  · exact quiet

structure Searched (g : AggGraph) (request : TraceRequest) (anchor : String) (hop : ℕ)
    (s : TraceState) : Prop where
  layer : ∀ direction, Layer g request anchor direction hop s
  visited_iff : ∀ urn, urn ∈ s.visited ↔ urn = anchor ∨ ∃ direction, urn ∈ s.found direction
  edgesOf : s.EdgesOf g

/-- A quiet step takes its direction one hop on and leaves the other as it was. -/
theorem layer_takeStep (exact_ : Exact g callbacks) (layer : Layer g request anchor direction hop s)
    (quiet : (takeStep callbacks request hop s direction t).warnings = [])
    (found : t.found direction = s.found direction) (cleared : t.frontier direction = [])
    (seen : anchor ∈ t.visited ∧ ∀ urn ∈ s.found direction, urn ∈ t.visited)
    (foreign : ∀ urn ∈ t.visited, urn = anchor ∨ urn ∈ s.found direction ∨
      ¬ Within (g.next direction) (request.depth direction) anchor urn)
    (kept : ∀ id ∈ s.edges.keys, id ∈ t.edges.keys) (sound : t.EdgesOf g) :
    Layer g request anchor direction (hop + 1) (takeStep callbacks request hop s direction t) ∧
    (∀ urn, urn ∈ (takeStep callbacks request hop s direction t).visited ↔ urn ∈ t.visited ∨
      urn ∈ (takeStep callbacks request hop s direction t).found direction) ∧
    (∀ other ≠ direction,
      (takeStep callbacks request hop s direction t).found other = t.found other ∧
        (takeStep callbacks request hop s direction t).frontier other = t.frontier other) ∧
    (∀ id ∈ t.edges.keys, id ∈ (takeStep callbacks request hop s direction t).edges.keys) ∧
    (takeStep callbacks request hop s direction t).EdgesOf g := by
  unfold takeStep at quiet ⊢
  by_cases asked : hop < request.depth direction ∧ s.frontier direction ≠ []
  · rw [if_pos asked] at quiet ⊢
    cases answer : callbacks.expandFrontier hop direction (s.frontier direction) request.level
        (if request.lineageEdgeTypes = [] then none else some request.lineageEdgeTypes)
        (request.maxNodes - s.nodes.length) with
    | none => simp [answer, takeAnswer] at quiet
    | some recs =>
      obtain ⟨each, complete⟩ := exact_ _ _ _ _ _ _ recs answer
      have expands := expands_of_answer layer asked.1 each complete found cleared seen foreign kept
      refine ⟨layer.expand asked.1 expands, ?_, ?_, ?_, ?_⟩
      · intro urn
        simp only [takeAnswer]
        rw [mem_visited_takeRecords, mem_found_takeRecords, found]
        tauto
      · intro other ne
        exact takeRecords_of_ne ne
      · exact fun id member => mem_keys_takeRecords.mpr (.inl member)
      · exact edgesOf_takeRecords sound fun rec member => (each rec member).1
  · rw [if_neg asked]
    have done : request.depth direction ≤ hop ∨ s.frontier direction = [] := by
      rw [not_and_or, not_lt, not_not] at asked
      exact asked
    refine ⟨layer.rest done found cleared kept, ?_, ?_, ?_, sound⟩
    · intro urn
      rw [found]
      exact ⟨.inl, fun either => either.elim (fun old => old) (seen.2 urn)⟩
    · exact fun other _ => ⟨rfl, rfl⟩
    · exact fun id member => member

def cleared (s : TraceState) : TraceState :=
  { s with upFrontier := [], downFrontier := [] }

theorem found_cleared (direction : Direction) :
    (cleared s).found direction = s.found direction := by
  cases direction <;> rfl

theorem frontier_cleared (direction : Direction) : (cleared s).frontier direction = [] := by
  cases direction <;> rfl

/-- A quiet hop takes both directions one hop on. -/
theorem Searched.nextHop (searched : Searched g request anchor hop s) (exact_ : Exact g callbacks)
    (apart : Apart g request anchor)
    (quiet : (takeStep callbacks request hop s .down
      (takeStep callbacks request hop s .up (cleared s))).warnings = []) :
    Searched g request anchor (hop + 1) (takeStep callbacks request hop s .down
      (takeStep callbacks request hop s .up (cleared s))) := by
  have near : ∀ direction urn, urn ∈ s.found direction → urn ≠ anchor ∧
      Within (g.next direction) (request.depth direction) anchor urn := by
    intro direction urn member
    have found := ((searched.layer direction).found_iff urn).mp member
    exact ⟨found.1, found.2.mono (min_le_right _ _)⟩
  have seen : ∀ direction, anchor ∈ s.visited ∧ ∀ urn ∈ s.found direction, urn ∈ s.visited :=
    fun direction => ⟨(searched.visited_iff anchor).mpr (.inl rfl),
      fun urn member => (searched.visited_iff urn).mpr (.inr ⟨direction, member⟩)⟩
  -- What the other direction has visited lies outside this one's depth.
  have upForeign : ∀ urn ∈ (cleared s).visited, urn = anchor ∨ urn ∈ s.found .up ∨
      ¬ Within (g.next .up) (request.depth .up) anchor urn := by
    intro urn member
    cases (searched.visited_iff urn).mp member with
    | inl same => exact .inl same
    | inr has =>
      obtain ⟨direction, found⟩ := has
      cases direction with
      | up => exact .inr (.inl found)
      | down =>
        obtain ⟨ne, down⟩ := near .down urn found
        exact .inr (.inr fun up => apart urn ne ⟨up, down⟩)
  obtain ⟨upLayer, upVisited, upOther, upKept, upSound⟩ :=
    layer_takeStep exact_ (searched.layer .up) (warnings_takeStep quiet) (found_cleared .up)
      (frontier_cleared .up) (seen .up) upForeign (fun id member => member) searched.edgesOf
  have downFound := (upOther .down (by decide)).1.trans (found_cleared .down)
  have downForeign : ∀ urn ∈ (takeStep callbacks request hop s .up (cleared s)).visited,
      urn = anchor ∨ urn ∈ s.found .down ∨
        ¬ Within (g.next .down) (request.depth .down) anchor urn := by
    intro urn member
    have ofUp : urn ∈ (takeStep callbacks request hop s .up (cleared s)).found .up →
        urn = anchor ∨ urn ∈ s.found .down ∨
          ¬ Within (g.next .down) (request.depth .down) anchor urn := by
      intro found
      have up := (upLayer.found_iff urn).mp found
      exact .inr (.inr fun down => apart urn up.1 ⟨up.2.mono (min_le_right _ _), down⟩)
    cases (upVisited urn).mp member with
    | inr found => exact ofUp found
    | inl old =>
      cases (searched.visited_iff urn).mp old with
      | inl same => exact .inl same
      | inr has =>
        obtain ⟨direction, found⟩ := has
        cases direction with
        | down => exact .inr (.inl found)
        | up =>
          have up := near .up urn found
          exact .inr (.inr fun down => apart urn up.1 ⟨up.2, down⟩)
  obtain ⟨downLayer, downVisited, downOther, downKept, downSound⟩ :=
    layer_takeStep exact_ (searched.layer .down) quiet downFound
      ((upOther .down (by decide)).2.trans (frontier_cleared .down))
      ⟨(upVisited anchor).mpr (.inl (seen .down).1),
        fun urn member => (upVisited urn).mpr (.inl ((seen .down).2 urn member))⟩
      downForeign (fun id member => upKept id member) upSound
  obtain ⟨upFound, upFrontier⟩ := downOther .up (by decide)
  constructor
  · intro direction
    cases direction with
    | down => exact downLayer
    | up =>
      constructor
      · rw [upFound]
        exact upLayer.found_iff
      · rw [upFrontier]
        exact upLayer.near
      · rw [upFrontier]
        intro within urn reached
        exact (upLayer.read within urn reached).imp_right fun all edge isEdge same =>
          ⟨downKept _ (all edge isEdge same).1, (all edge isEdge same).2⟩
      · exact fun edge isEdge hops few reached =>
          downKept _ (upLayer.edges edge isEdge hops few reached)
  · intro urn
    have downOld : urn ∈ s.found .down → urn ∈ (takeStep callbacks request hop s .down
        (takeStep callbacks request hop s .up (cleared s))).found .down := by
      intro old
      have layer := ((searched.layer .down).found_iff urn).mp old
      exact (downLayer.found_iff urn).mpr ⟨layer.1, layer.2.mono (by omega)⟩
    have upOld : urn ∈ s.found .up →
        urn ∈ (takeStep callbacks request hop s .up (cleared s)).found .up := by
      intro old
      have layer := ((searched.layer .up).found_iff urn).mp old
      exact (upLayer.found_iff urn).mpr ⟨layer.1, layer.2.mono (by omega)⟩
    have start : urn ∈ (cleared s).visited ↔ urn = anchor ∨ ∃ direction, urn ∈ s.found direction :=
      searched.visited_iff urn
    have both : ∀ found : Direction → List String,
        (∃ direction, urn ∈ found direction) ↔ urn ∈ found .up ∨ urn ∈ found .down :=
      fun found => ⟨fun has => by
        obtain ⟨direction, member⟩ := has
        cases direction
        · exact .inl member
        · exact .inr member, fun either => either.elim (⟨_, ·⟩) (⟨_, ·⟩)⟩
    rw [both] at start ⊢
    rw [downVisited, upVisited, upFound]
    tauto
  · exact downSound

theorem expandHops_succ (hops : ℕ) : expandHops callbacks request (hops + 1) hop s =
      if callbacks.late hop then { s with truncationReason := some "timeout" }
      else if request.maxNodes ≤ s.nodes.length then
        { s with truncationReason := some "max_nodes" }
      else if hopTasks callbacks request hop s = [] then s
      else
        let t := takeStep callbacks request hop s .down
          (takeStep callbacks request hop s .up (cleared s))
        if t.upFrontier = [] ∧ t.downFrontier = [] then t
        else expandHops callbacks request hops (hop + 1) t := by
  rw [expandHops]
  simp only [foldl_hopTasks]
  rfl

/-- A search that warns of nothing began with no warning. -/
theorem warnings_expandHops {hops : ℕ}
    (quiet : (expandHops callbacks request hops hop s).warnings = []) : s.warnings = [] := by
  induction hops generalizing hop s with
  | zero => exact quiet
  | succ hops ih =>
    rw [expandHops_succ] at quiet
    simp only at quiet
    split at quiet
    · exact quiet
    split at quiet
    · exact quiet
    split at quiet
    · exact quiet
    have start : ∀ {t : TraceState}, t.warnings = [] → t = takeStep callbacks request hop s .down
          (takeStep callbacks request hop s .up (cleared s)) → (cleared s).warnings = [] :=
      fun silent same => warnings_takeStep (warnings_takeStep (same ▸ silent))
    split at quiet
    · exact start quiet rfl
    · exact start (ih quiet) rfl

/-- A search that is neither cut short nor fails is done in both directions. -/
theorem Searched.run (searched : Searched g request anchor hop s) (exact_ : Exact g callbacks)
    (apart : Apart g request anchor) {hops : ℕ}
    (enough : max request.upstreamDepth request.downstreamDepth ≤ hop + hops)
    (quiet : (expandHops callbacks request hops hop s).warnings = [])
    (whole : (expandHops callbacks request hops hop s).truncationReason = none) :
    ∃ last, Searched g request anchor last (expandHops callbacks request hops hop s) ∧
      ∀ direction, request.depth direction ≤ last ∨
        (expandHops callbacks request hops hop s).frontier direction = [] := by
  induction hops generalizing hop s with
  | zero =>
    refine ⟨hop, searched, fun direction => .inl ?_⟩
    cases direction
    · exact (le_max_left _ _).trans enough
    · exact (le_max_right _ _).trans enough
  | succ hops ih =>
    rw [expandHops_succ] at quiet whole ⊢
    simp only at quiet whole ⊢
    split at quiet
    · next late => simp [late] at whole
    split at quiet
    · next late full => simp [late, full] at whole
    next late full =>
    rw [if_neg late, if_neg full] at whole ⊢
    split at quiet
    · next idle =>
        rw [if_pos idle] at whole ⊢
        exact ⟨hop, searched, hopTasks_eq_nil.mp idle⟩
    next busy =>
    rw [if_neg busy] at whole ⊢
    split at quiet
    · next empty =>
        rw [if_pos empty] at whole ⊢
        refine ⟨hop + 1, searched.nextHop exact_ apart quiet, fun direction => .inr ?_⟩
        cases direction
        · exact empty.1
        · exact empty.2
    · next more =>
        rw [if_neg more] at whole ⊢
        exact ih (searched.nextHop exact_ apart (warnings_expandHops quiet)) (by omega) quiet whole

/-- Before the first hop only the anchor is reached. -/
theorem searched_start (anchor : String) :
    Searched g request anchor 0 (startState callbacks request anchor) := by
  have none : ∀ direction, (startState callbacks request anchor).found direction = [] := by
    intro direction
    cases direction <;> rfl
  constructor
  · intro direction
    constructor
    · intro urn
      rw [none]
      simp [Within]
    · intro urn member
      cases direction <;>
        · simp only [TraceState.frontier, startState] at member
          split at member <;> simp_all [Within]
    · intro deep urn same
      cases show urn = anchor from same
      left
      cases direction
      · simp [TraceState.frontier, startState, show 0 < request.upstreamDepth from deep]
      · simp [TraceState.frontier, startState, show 0 < request.downstreamDepth from deep]
    · intro edge _ hops few
      omega
  · intro urn
    simp only [none]
    simp [startState]
  · nofun

structure Once (s : TraceState) : Prop where
  visited : ∀ direction, ∀ urn ∈ s.found direction, urn ∈ s.visited
  apart : ∀ urn, ¬ (urn ∈ s.found .up ∧ urn ∈ s.found .down)

theorem Once.takeStep (once : Once t) : Once (takeStep callbacks request hop s direction t) := by
  unfold Trace.takeStep
  split
  · unfold takeAnswer
    split
    · exact ⟨fun direction urn member => once.visited direction urn (by
        cases direction <;> exact member), once.apart⟩
    · constructor
      · intro other urn member
        rw [mem_found_takeRecords] at member
        rw [mem_visited_takeRecords]
        exact member.imp (once.visited other urn) fun new => new.2.1
      · intro urn both
        rw [mem_found_takeRecords, mem_found_takeRecords] at both
        have up := once.visited .up urn
        have down := once.visited .down urn
        have apart := once.apart urn
        cases direction <;> simp at both <;> tauto
  · exact once

/-- No hop finds an entity twice. -/
theorem Once.expandHops {hops : ℕ} (once : Once s) :
    Once (expandHops callbacks request hops hop s) := by
  induction hops generalizing hop s with
  | zero => exact once
  | succ hops ih =>
    have same : ∀ reason, Once { s with truncationReason := reason } := fun reason =>
      ⟨fun direction urn member => once.visited direction urn (by
        cases direction <;> exact member), once.apart⟩
    have start : Once (cleared s) :=
      ⟨fun direction urn member => once.visited direction urn (by
        cases direction <;> exact member), once.apart⟩
    rw [expandHops_succ]
    simp only
    split
    · exact same _
    split
    · exact same _
    split
    · exact once
    split
    · exact start.takeStep.takeStep
    · exact ih start.takeStep.takeStep

end

section

def searchOf (callbacks : TraceCallbacks) (request : TraceRequest) : TraceState :=
  expandHops callbacks request (max request.upstreamDepth request.downstreamDepth) 0
    (startState callbacks request (anchorOf callbacks request).1)

/-- The answer finds what the search found. -/
theorem found_traceAtLevel (direction : Direction) :
    (traceAtLevel callbacks request).found direction =
      (searchOf callbacks request).found direction := by
  cases direction <;> rfl

theorem mem_edges_of_mem_keys {s : TraceState} (sound : s.EdgesOf g) {edge : GraphEdge}
    (isEdge : edge ∈ g.edges) (member : edge.id ∈ s.edges.keys) :
    edge ∈ s.edges.map Prod.snd := by
  obtain ⟨entry, found, same⟩ := mem_map.mp member
  obtain ⟨other, own⟩ := sound entry found
  have equal : entry.2 = edge :=
    inj_on_of_nodup_map g.nodup_ids other isEdge (own.symm.trans same)
  exact mem_map.mpr ⟨entry, found, equal⟩

/-- When the expansions answer exactly or fail and the result is not marked truncated:
it is complete, or shows that it is not, precisely when no expansion failed and no node
but the anchor lies within both depths. -/
theorem traceAtLevel_trustworthy_iff (g : AggGraph) (callbacks : TraceCallbacks)
    (request : TraceRequest) (exact_ : Exact g callbacks)
    (whole : (traceAtLevel callbacks request).truncated = false) :
    Trustworthy g request (anchorOf callbacks request).1 (traceAtLevel callbacks request) ↔
      (traceAtLevel callbacks request).warnings = [] ∧
        Apart g request (anchorOf callbacks request).1 := by
  have reason : (searchOf callbacks request).truncationReason = none :=
    Option.isNone_iff_eq_none.mp (Option.isSome_eq_false_iff.mp whole)
  constructor
  · intro trustworthy
    have quiet : (traceAtLevel callbacks request).warnings = [] := by
      by_contra failed
      rw [trustworthy.2 failed] at whole
      simp at whole
    refine ⟨quiet, fun urn ne both => ?_⟩
    have finds := trustworthy.1 quiet
    have once : Once (searchOf callbacks request) := by
      apply Once.expandHops
      constructor
      · intro direction urn member
        cases direction <;> cases member
      · intro urn both
        cases both.1
    apply once.apart urn
    rw [← found_traceAtLevel, ← found_traceAtLevel]
    exact ⟨((finds .up).1 urn).mpr ⟨ne, both.1⟩, ((finds .down).1 urn).mpr ⟨ne, both.2⟩⟩
  · intro fine
    refine ⟨fun quiet direction => ?_, fun failed => absurd fine.1 failed⟩
    have start : Searched g request (anchorOf callbacks request).1 0
        (startState callbacks request (anchorOf callbacks request).1) := searched_start _
    obtain ⟨last, searched, done⟩ := start.run exact_ fine.2 (by omega) quiet reason
    obtain ⟨found, edges⟩ := (searched.layer direction).final (done direction)
    rw [found_traceAtLevel]
    exact ⟨found, fun edge isEdge hops few reached =>
      mem_edges_of_mem_keys searched.edgesOf isEdge (edges edge isEdge hops few reached)⟩

/-- Callbacks that answer for a graph of tables, none of them contained. -/
def answering (g : AggGraph) : TraceCallbacks where
  getNode urn := some ⟨urn, "table"⟩
  getNodesBatch urns := some (urns.map fun urn => ⟨urn, "table"⟩)
  getNodeLevel _ := some 2
  resolveAnchorAtLevel urn _ _ := urn
  hasAggregatedAtLevel _ _ := true
  findAncestorWithLineage _ _ _ := none
  expandFrontier _ direction urns _ _ _ :=
    some ((g.edges.filter fun edge => edge.near direction ∈ urns).map fun edge =>
      ⟨edge.id, edge.sourceUrn, edge.targetUrn, edge.far direction, edge.edgeType, edge.weight,
        edge.sourceEdgeTypes, none⟩)
  collectAncestorUrns _ _ := some []
  fetchContainmentEdges _ _ := some []
  late _ := false

/-- Callbacks that answer from the graph itself are exact. -/
theorem exact_answering (g : AggGraph) : Exact g (answering g) := by
  intro hop direction urns level ltypes budget recs answer
  cases answer
  constructor
  · intro rec member
    obtain ⟨edge, found, rfl⟩ := mem_map.mp member
    obtain ⟨isEdge, near⟩ := mem_filter.mp found
    exact ⟨isEdge, of_decide_eq_true near, rfl⟩
  · intro edge isEdge near
    exact ⟨_, mem_map.mpr ⟨edge, mem_filter.mpr ⟨isEdge, decide_eq_true near⟩, rfl⟩, rfl⟩

def oneHop : TraceRequest := ⟨"a", 2, 1, 1, [], [], 100, true⟩

def between : AggGraph :=
  ⟨[⟨"e1", "y", "a", "AGGREGATED", 1, []⟩, ⟨"e2", "a", "x", "AGGREGATED", 1, []⟩], by decide⟩

/-- The trace of a table between two others is complete. -/
theorem traceAtLevel_trustworthy_between :
    Trustworthy between oneHop "a" (traceAtLevel (answering between) oneHop) := by
  refine (traceAtLevel_trustworthy_iff between (answering between) oneHop
    (exact_answering between) (by decide +kernel)).mpr ⟨by decide +kernel, ?_⟩
  intro urn ne both
  have upNext : between.next .up "a" = ["y"] := by decide
  have downNext : between.next .down "a" = ["x"] := by decide
  have up : urn = "a" ∨ urn = "y" := by
    refine (show urn = "a" ∨ _ from both.1).imp_right fun step => ?_
    obtain ⟨_, rfl, member⟩ := step
    exact mem_singleton.mp (upNext ▸ member)
  have down : urn = "a" ∨ urn = "x" := by
    refine (show urn = "a" ∨ _ from both.2).imp_right fun step => ?_
    obtain ⟨_, rfl, member⟩ := step
    exact mem_singleton.mp (downNext ▸ member)
  have apart : ("y" : String) ≠ "x" := by decide
  have start : urn ≠ "a" := ne
  cases up with
  | inl same => exact start same
  | inr isUp =>
    cases down with
    | inl same => exact start same
    | inr isDown => exact apart (isUp.symm.trans isDown)

def cycle : AggGraph :=
  ⟨[⟨"e1", "a", "x", "AGGREGATED", 1, []⟩, ⟨"e2", "x", "a", "AGGREGATED", 1, []⟩], by decide⟩

/-- The other table of a cycle is found upstream, so it is missing downstream, and the
result is not marked. -/
theorem traceAtLevel_cycle : ∃ (g : AggGraph) (callbacks : TraceCallbacks) (request : TraceRequest),
      Exact g callbacks ∧ (traceAtLevel callbacks request).truncated = false ∧
      (traceAtLevel callbacks request).warnings = [] ∧
      ¬ FindsAll g request (anchorOf callbacks request).1 (traceAtLevel callbacks request) := by
  refine ⟨cycle, answering cycle, oneHop, exact_answering cycle, by decide +kernel,
    by decide +kernel, fun finds => ?_⟩
  have missing : "x" ∉ (traceAtLevel (answering cycle) oneHop).found .down := by decide +kernel
  apply missing
  apply ((finds .down).1 "x").mpr
  have step : "x" ∈ cycle.next .down "a" := by decide
  exact ⟨by decide, .inr ⟨"a", rfl, step⟩⟩

end

end DataViz.Trace
