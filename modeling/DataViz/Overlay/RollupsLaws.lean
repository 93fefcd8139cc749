/-
# What a draft's rollups count

A pair's rollup counts the lineage edges of a state that run from under its source to under its
target, or from and to the pair itself. Main's rollups are taken to be complete.

Where the ends of the moved flows have one container at each level, the rollups served are those of
the composed state just when the flows kept are grouped as many to each pair by the composed state
as by main.
-/

import DataViz.Overlay.Rollups
import Mathlib.Tactic.Ring

namespace DataViz.Overlay

open List Option Dict

open Versioning

section

variable {parent : String → Option String} {place : String}

theorem mem_climb {fuel : ℕ} {chain : List String} {next : Option String}
    (mem : place ∈ climb parent fuel chain next) :
    place ∈ chain ∨ ∃ start ∈ next,
      DataViz.Digraph.Reach (fun urn => (parent urn).toList) start place := by
  induction fuel generalizing chain next with
  | zero => exact .inl mem
  | succ fuel ih =>
    cases next with
    | none => exact .inl mem
    | some container =>
      rw [climb] at mem
      split at mem
      · exact .inl mem
      · cases ih mem with
        | inl found =>
          cases mem_append.mp found with
          | inl old => exact .inl old
          | inr last =>
            rw [mem_singleton.mp last]
            exact .inr ⟨container, rfl, .refl container⟩
        | inr above =>
          obtain ⟨start, next, path⟩ := above
          exact .inr ⟨container, rfl,
            (DataViz.Digraph.Reach.of_mem (mem_toList.mpr next)).trans path⟩

theorem mem_climb_of_mem {fuel : ℕ} {chain : List String} {next : Option String}
    (mem : place ∈ chain) : place ∈ climb parent fuel chain next := by
  induction fuel generalizing chain next with
  | zero => exact mem
  | succ fuel ih =>
    cases next with
    | none => exact mem
    | some container =>
      rw [climb]
      split
      · exact mem
      · exact ih (mem_append_left _ mem)

theorem climb_closed {pool : List String} (parents : ∀ urn, ∀ above ∈ parent urn, above ∈ pool)
    {fuel : ℕ} {chain : List String} {next : Option String} (nodup : chain.Nodup)
    (within : chain ⊆ pool) (nextWithin : ∀ start ∈ next, start ∈ pool)
    (enough : pool.length < chain.length + fuel)
    (closed : ∀ urn ∈ chain, ∀ above ∈ parent urn, above ∈ chain ∨ above ∈ next) :
    (∀ start ∈ next, start ∈ climb parent fuel chain next) ∧
      ∀ urn ∈ climb parent fuel chain next, ∀ above ∈ parent urn,
        above ∈ climb parent fuel chain next := by
  induction fuel generalizing chain next with
  | zero =>
    have short := (nodup.subperm within).length_le
    omega
  | succ fuel ih =>
    cases next with
    | none =>
      exact ⟨nofun, fun urn mem above up => (closed urn mem above up).resolve_right nofun⟩
    | some container =>
      rw [climb]
      split
      · next seen =>
          refine ⟨fun start same => some.inj same ▸ seen, fun urn mem above up => ?_⟩
          cases closed urn mem above up with
          | inl old => exact old
          | inr same => exact some.inj same ▸ seen
      · next fresh =>
          have longer : (chain ++ [container]).Nodup :=
            nodup_append.mpr ⟨nodup, nodup_singleton _, fun old mem other last same =>
              fresh (mem_singleton.mp last ▸ same ▸ mem)⟩
          have rest := @ih (chain ++ [container]) (parent container) longer
            (append_subset.mpr ⟨within, cons_subset.mpr ⟨nextWithin container rfl, nil_subset _⟩⟩)
            (parents container) (by rw [length_append, length_singleton]; omega)
            (by
              intro urn mem above up
              cases mem_append.mp mem with
              | inl old =>
                cases closed urn old above up with
                | inl found => exact .inl (mem_append_left _ found)
                | inr same =>
                  exact .inl (mem_append_right _ (mem_singleton.mpr (some.inj same).symm))
              | inr last =>
                rw [mem_singleton.mp last] at up
                exact .inr up)
          refine ⟨fun start same => ?_, rest.2⟩
          rw [← some.inj same]
          exact mem_climb_of_mem (mem_append_right _ (mem_singleton_self _))

end

section

variable {types : EdgeTypes} {edges : List GraphEdge} {urn place : String}

def OneContainer (types : EdgeTypes) (edges : List GraphEdge) (urn : String) : Prop :=
  ∀ place, DataViz.Digraph.Reach (containersOf types edges) urn place →
    ∀ first ∈ containersOf types edges place, ∀ second ∈ containersOf types edges place,
      first = second

theorem containersOf_subset (urn : String) :
    containersOf types edges urn ⊆ edges.map fun edge => edge.place.sourceUrn :=
  map_subset _ (filter_subset_self _)

theorem mem_chainOf (one : OneContainer types edges urn) :
    place = urn ∨ place ∈ chainOf types edges urn ↔
      DataViz.Digraph.Reach (containersOf types edges) urn place := by
  have head {urn above : String} (up : above ∈ (containersOf types edges urn).head?) :
      above ∈ containersOf types edges urn := mem_of_mem_head? up
  have steps {start : String} : DataViz.Digraph.Reach
      (fun urn => ((containersOf types edges urn).head?).toList) start place →
        DataViz.Digraph.Reach (containersOf types edges) start place :=
    DataViz.Digraph.Reach.mono fun urn above up => head (mem_toList.mp up)
  constructor
  · rintro (rfl | mem)
    · exact .refl _
    · cases mem_climb mem with
      | inl none => cases none
      | inr above =>
        obtain ⟨start, up, path⟩ := above
        exact (DataViz.Digraph.Reach.of_mem (head up)).trans (steps path)
  · intro path
    obtain ⟨first, closed⟩ := @climb_closed (fun urn => (containersOf types edges urn).head?)
      (edges.map fun edge => edge.place.sourceUrn)
      (fun urn above up => containersOf_subset urn (head up)) (edges.length + 1) []
      (containersOf types edges urn).head? nodup_nil (nil_subset _)
      (fun above up => containersOf_subset urn (head up)) (by simp) nofun
    have inside : (place = urn ∨ place ∈ chainOf types edges urn) ∧
        DataViz.Digraph.Reach (containersOf types edges) urn place := by
      apply @DataViz.Digraph.Reach.stays _ _ _ _ (fun place =>
        (place = urn ∨ place ∈ chainOf types edges urn) ∧
          DataViz.Digraph.Reach (containersOf types edges) urn place) _ path
      · exact ⟨.inl rfl, .refl urn⟩
      · rintro below ⟨chained, reached⟩ above up
        obtain ⟨up', isHead⟩ : ∃ up', up' ∈ (containersOf types edges below).head? :=
          isSome_iff_exists.mp (isSome_head?.mpr (ne_nil_of_mem up))
        cases one below reached above up up' (head isHead)
        refine ⟨.inr ?_, reached.trans (.of_mem up)⟩
        cases chained with
        | inl same => exact first above (same ▸ isHead)
        | inr mem => exact closed below mem above isHead
    exact inside.1

end

section

variable {pair : String × String} {out : Dict (String × String) Slot}

def weightAt (out : Dict (String × String) Slot) (pair : String × String) : ℤ :=
  ((out.get? pair).map Slot.weight).getD 0

theorem weightAt_moveCell (sign : ℤ) (edgeType : String) (cell : String × String) :
    weightAt (moveCell sign edgeType out cell) pair =
      weightAt out pair + if cell = pair then sign else 0 := by
  rw [weightAt, moveCell, get?_set]
  by_cases same : cell = pair
  · subst same
    rw [if_pos rfl, if_pos rfl, weightAt]
    cases out.get? cell <;> rfl
  · rw [if_neg same, if_neg same, add_zero, weightAt]

theorem weightAt_foldl_moveCell (sign : ℤ) (edgeType : String) {cells : List (String × String)}
    (nodup : cells.Nodup) :
    weightAt (cells.foldl (moveCell sign edgeType) out) pair =
      weightAt out pair + if pair ∈ cells then sign else 0 := by
  induction cells generalizing out with
  | nil => simp
  | cons cell rest ih =>
    obtain ⟨fresh, nodupRest⟩ := nodup_cons.mp nodup
    rw [foldl_cons, ih nodupRest, weightAt_moveCell]
    by_cases same : cell = pair
    · subst same
      simp [fresh]
    · simp [same, Ne.symm same]

variable {chains : Dict String (List String)} {request : Request} {flow : GraphEdge}

theorem mem_placed {named : List String} {urn place : String} : place ∈ placed chains named urn ↔
      (place = urn ∨ place ∈ (chains.get? urn).getD []) ∧ (named ≠ [] → place ∈ named) := by
  rw [placed, mem_filter, mem_dedup, mem_cons, decide_eq_true_eq]

theorem mem_cells : pair ∈ cells chains request flow ↔
    pair.1 ∈ placed chains request.sources flow.place.sourceUrn ∧
      pair.2 ∈ placed chains request.targets flow.place.targetUrn ∧ pair.1 ≠ pair.2 := by
  obtain ⟨source, target⟩ := pair
  simp only [cells, mem_filter, mem_flatMap, List.mem_map, Prod.mk.injEq, decide_eq_true_eq]
  constructor
  · rintro ⟨⟨source, inSources, target, inTargets, rfl, rfl⟩, distinct⟩
    exact ⟨inSources, inTargets, distinct⟩
  · exact fun ⟨inSources, inTargets, distinct⟩ =>
      ⟨⟨source, inSources, target, inTargets, rfl, rfl⟩, distinct⟩

theorem nodup_cells : (cells chains request flow).Nodup := by
  have nodup (named : List String) (urn : String) : (placed chains named urn).Nodup :=
    (nodup_dedup _).filter _
  apply Nodup.filter
  rw [nodup_flatMap]
  constructor
  · intro source _
    exact (nodup _ _).map fun first second same => (Prod.mk.inj same).2
  · apply (nodup request.sources flow.place.sourceUrn).imp
    intro first second distinct pair inFirst inSecond
    obtain ⟨_, -, rfl⟩ := mem_map.mp inFirst
    obtain ⟨_, -, same⟩ := mem_map.mp inSecond
    exact distinct (Prod.mk.inj same).1.symm

theorem weightAt_rollupCells (flows : List GraphEdge) (sign : ℤ) :
    weightAt (rollupCells flows sign chains request out) pair = weightAt out pair +
        sign * (flows.countP fun flow => pair ∈ cells chains request flow) := by
  induction flows generalizing out with
  | nil => simp [rollupCells]
  | cons flow rest ih =>
    unfold rollupCells at ih ⊢
    rw [foldl_cons, ih, weightAt_foldl_moveCell _ _ nodup_cells]
    by_cases counted : pair ∈ cells chains request flow
    · simp [counted]
      ring
    · simp [counted]

end

section

variable {byPair : Dict (String × String) AggregatedEdge} {pair : String × String}

def countAt (byPair : Dict (String × String) AggregatedEdge) (pair : String × String) : Option ℕ :=
  (byPair.get? pair).map AggregatedEdge.edgeCount

/-- A pair with a count above zero is there, another absent. -/
def positive (count : ℤ) : Option ℕ :=
  if count ≤ 0 then none else some count.toNat

theorem countAt_movePair {move : (String × String) × Slot} : countAt (movePair byPair move) pair =
      if move.1 = pair then positive (((countAt byPair pair).getD 0 : ℕ) + move.2.weight)
      else countAt byPair pair := by
  obtain ⟨cell, slot⟩ := move
  by_cases same : cell = pair
  · subst same
    rw [movePair, countAt, countAt, positive]
    cases found : byPair.get? cell with
    | none =>
      by_cases more : 0 < slot.weight
      · simp [more, more.not_ge]
      · simp [more, found, Int.not_lt.mp more]
    | some current =>
      by_cases gone : (current.edgeCount : ℤ) + slot.weight ≤ 0
      · simp [gone, get?_pop]
      · simp [gone]
  · rw [movePair, countAt, countAt]
    cases byPair.get? cell with
    | none =>
      dsimp only
      split
      · rw [get?_set_ne same]
      · rfl
    | some current =>
      dsimp only
      split
      · rw [get?_pop, if_neg same]
      · rw [get?_set_ne same]

theorem getD_positive (count : ℕ) : (positive count).getD 0 = count := by
  rw [positive]
  split
  · next none =>
      rw [getD_none]
      omega
  · rw [getD_some, Int.toNat_natCast]

theorem positive_toList_inj {count count' : ℤ} :
    (positive count).toList = (positive count').toList ↔ count.toNat = count'.toNat := by
  rw [positive, positive]
  split <;> split
  · simp only [true_iff]
    omega
  · simp
    omega
  · simp
    omega
  · simp

theorem positive_coe {count : ℕ} (some : 0 < count) : positive count = .some count := by
  rw [positive, if_neg (by omega), Int.toNat_natCast]

theorem countAt_foldl_movePair {moves : Dict (String × String) Slot} (nodup : moves.keys.Nodup)
    (counts : ∀ pair, ∀ count ∈ countAt byPair pair, 0 < count) :
    countAt (moves.foldl movePair byPair) pair =
      positive (((countAt byPair pair).getD 0 : ℕ) + weightAt moves pair) := by
  induction moves generalizing byPair with
  | nil =>
    rw [foldl_nil]
    cases found : countAt byPair pair with
    | none => rfl
    | some count => exact (positive_coe (counts pair count found)).symm
  | cons move rest ih =>
    obtain ⟨fresh, nodupRest⟩ := nodup_cons.mp nodup
    rw [foldl_cons, ih nodupRest]
    · rw [countAt_movePair, weightAt, weightAt, get?_cons]
      by_cases same : move.1 = pair
      · subst same
        rw [if_pos rfl, if_pos rfl, get?_eq_none_iff.mpr fresh, map_none,
          getD_none, Int.add_zero, map_some, getD_some]
        generalize ((countAt byPair move.1).getD 0 : ℤ) + move.2.weight = moved
        rw [positive, positive]
        by_cases gone : moved ≤ 0
        · rw [if_pos gone]
          rfl
        · rw [if_neg gone, getD_some, Int.toNat_of_nonneg (by omega), if_neg gone]
      · rw [if_neg same, if_neg same]
    · intro other count found
      rw [countAt_movePair] at found
      split at found
      · rw [positive] at found
        split at found
        · cases found
        · cases found
          omega
      · exact counts other count found

structure Keyed (byPair : Dict (String × String) AggregatedEdge) : Prop where
  pairs : ∀ entry ∈ byPair, entry.2.pair = entry.1
  nodup : byPair.keys.Nodup

theorem Keyed.set (keyed : Keyed byPair) {edge : AggregatedEdge} (same : edge.pair = pair) :
    Keyed (byPair.set pair edge) where
  pairs entry mem := by
    cases eq_or_mem_of_mem_set mem with
    | inl new => rw [new, same]
    | inr old => exact keyed.pairs entry old
  nodup := nodup_keys_set keyed.nodup pair edge

theorem Keyed.movePair (keyed : Keyed byPair) (move : (String × String) × Slot) :
    Keyed (movePair byPair move) := by
  rw [Overlay.movePair]
  cases found : byPair.get? move.1 with
  | none =>
    dsimp only
    split
    · exact keyed.set rfl
    · exact keyed
  | some current =>
    dsimp only
    split
    · exact ⟨fun entry mem => keyed.pairs entry (mem_of_mem_filter mem),
        keyed.nodup.sublist (filter_sublist.map _)⟩
    · exact keyed.set (keyed.pairs _ (mem_of_get? found))

theorem Keyed.foldl_movePair (keyed : Keyed byPair) (moves : Dict (String × String) Slot) :
    Keyed (moves.foldl Overlay.movePair byPair) := by
  induction moves generalizing byPair with
  | nil => exact keyed
  | cons move rest ih => exact ih (keyed.movePair move)

def countsOf (edges : List AggregatedEdge) (pair : String × String) : List ℕ :=
  (edges.filter fun edge => edge.pair = pair).map AggregatedEdge.edgeCount

theorem Keyed.countsOf_values (keyed : Keyed byPair) :
    countsOf (byPair.map Prod.snd) pair = (countAt byPair pair).toList := by
  induction byPair with
  | nil => rfl
  | cons entry rest ih =>
    obtain ⟨key, edge⟩ := entry
    have here : edge.pair = key := keyed.pairs _ mem_cons_self
    obtain ⟨fresh, nodupRest⟩ := nodup_cons.mp keyed.nodup
    have later := ih ⟨fun entry mem => keyed.pairs entry (mem_cons_of_mem _ mem), nodupRest⟩
    rw [countsOf] at later
    rw [countsOf, countAt, map_cons, get?_cons]
    by_cases same : key = pair
    · subst same
      rw [filter_cons_of_pos (by simpa using here), map_cons, later, countAt,
        get?_eq_none_iff.mpr fresh, if_pos rfl]
      rfl
    · have other : ¬ edge.pair = pair := fun found => same (here.symm.trans found)
      rw [filter_cons_of_neg (by simpa using other), later, countAt, if_neg same]

theorem countsOf_perm {edges edges' : List AggregatedEdge} {count : Option ℕ}
    (perm : edges.Perm edges') (once : countsOf edges' pair = count.toList) :
    countsOf edges pair = count.toList := by
  have counts : (countsOf edges pair).Perm (countsOf edges' pair) := (perm.filter _).map _
  rw [once] at counts
  cases count with
  | none => exact perm_nil.mp counts
  | some count => exact perm_singleton.mp counts

theorem keyed_ofList {edges : List AggregatedEdge}
    (single : ∀ pair, (countsOf edges pair).length ≤ 1) :
    Keyed (edges.foldl (fun byPair edge => byPair.set edge.pair edge) []) ∧
      ∀ pair, (countAt (edges.foldl (fun byPair edge => byPair.set edge.pair edge) [])
        pair).toList = countsOf edges pair := by
  have nodup : (edges.map AggregatedEdge.pair).Nodup := by
    rw [nodup_iff_count_le_one]
    intro pair
    have once := single pair
    rw [countsOf, length_map, ← countP_eq_length_filter] at once
    rw [count, countP_map]
    refine le_of_eq_of_le (countP_congr fun edge _ => ?_) once
    simp
  rw [foldl_set_of_nodup AggregatedEdge.pair (fun edge => edge) edges nodup []
    (fun _ _ => not_mem_nil), nil_append]
  have keyed : Keyed (edges.map fun edge => (edge.pair, edge)) := by
    constructor
    · intro entry mem
      obtain ⟨edge, -, rfl⟩ := mem_map.mp mem
      rfl
    · rw [Dict.keys, List.map_map]
      exact nodup
  refine ⟨keyed, fun pair => ?_⟩
  rw [← keyed.countsOf_values, List.map_map]
  congr 1
  exact map_id edges

end

def EdgeTypes.IsLineage (types : EdgeTypes) (lineage : List String) (place : EdgePlace) : Prop :=
  types.upper place.edgeType ∈ lineage.map types.upper ∧ types.contains place = false

instance (types : EdgeTypes) (lineage : List String) (place : EdgePlace) :
    Decidable (types.IsLineage lineage place) :=
  inferInstanceAs (Decidable (_ ∧ _))

/-- A lineage edge that runs from under the pair's source to under its target. -/
def RunsUnder (types : EdgeTypes) (lineage : List String) (containers : String → List String)
    (pair : String × String) (place : EdgePlace) : Prop :=
  types.IsLineage lineage place ∧ DataViz.Digraph.Reach containers place.sourceUrn pair.1 ∧
    DataViz.Digraph.Reach containers place.targetUrn pair.2

open scoped Classical in
noncomputable def flowsUnder (types : EdgeTypes) (lineage : List String)
    (containers : String → List String) (edges : List GraphEdge) (pair : String × String) : ℕ :=
  edges.countP fun edge => RunsUnder types lineage containers pair edge.place

noncomputable def rollup (types : EdgeTypes) (lineage : List String) (edges : List GraphEdge)
    (pair : String × String) : ℕ :=
  flowsUnder types lineage (containersOf types edges) edges pair

instance (types : EdgeTypes) (entry : EdgeSkeleton) : Decidable (Moved types entry) :=
  inferInstanceAs (Decidable (∀ was ∈ entry.was, ¬ types.SamePlace was entry.place))

/-- The edges of main that the draft has elsewhere, or removed. -/
def leavingIds (types : EdgeTypes) (patch : PatchSet) : List EntityId :=
  (patch.edgesUpsert.filter fun entry => Moved types entry).map EdgeSkeleton.id ++
    patch.edgesRemove.map RemovedEdge.id

def keptEdges (types : EdgeTypes) (main : Main) (patch : PatchSet) : List GraphEdge :=
  main.edges.filter fun edge => edge.id ∉ leavingIds types patch

section

variable {types : EdgeTypes} {lineage : List String} {main : Main} {draft : Draft main}
  {containers : String → List String} {pair : String × String}

theorem RunsUnder.congr {first second : EdgePlace} (same : types.SamePlace first second) :
    RunsUnder types lineage containers pair first ↔
      RunsUnder types lineage containers pair second := by
  rw [RunsUnder, RunsUnder, EdgeTypes.IsLineage, EdgeTypes.IsLineage, same.1, same.2.1,
    same.2.2, same.contains]

theorem map_id_countedUpsert (entries : List EdgeSkeleton) (added containment : Bool) :
    (((entries.flatMap (countedUpsert types)).filter fun count =>
        count.added = added ∧ types.contains count.edge.place = containment).map
      fun count => count.edge.id).Sublist (entries.map EdgeSkeleton.id) := by
  induction entries with
  | nil => exact Sublist.refl _
  | cons entry rest ih =>
    rw [flatMap_cons, filter_append, map_append, map_cons, ← singleton_append]
    refine Sublist.append ?_ ih
    rw [countedUpsert]
    cases entry.was with
    | none =>
      exact (filter_sublist.map _).trans (Sublist.refl _)
    | some was =>
      dsimp only
      split
      · exact nil_sublist _
      · have fewer := monotone_filter_right [(⟨false, skeletonEdge entry.id was⟩ : Counted),
            ⟨true, skeletonEdge entry.id entry.place⟩]
          (fun count both => decide_eq_true (of_decide_eq_true both).1 :
            ∀ count : Counted, decide (count.added = added ∧
              types.contains count.edge.place = containment) → decide (count.added = added))
        refine (fewer.map _).trans ?_
        cases added
        · exact Sublist.refl _
        · exact Sublist.refl _

/-- An edge is counted in once at most, and out once at most. -/
theorem nodup_select (added containment : Bool) :
    ((select types draft.patch added containment).map GraphEdge.id).Nodup := by
  apply Nodup.sublist _ draft.keyed
  rw [select, List.map_map, counted, filter_append, map_append]
  refine Sublist.append (map_id_countedUpsert _ _ _) ?_
  have all : (draft.patch.edgesRemove.map fun entry =>
      (⟨false, skeletonEdge entry.id entry.place⟩ : Counted)).map
        (GraphEdge.id ∘ Counted.edge) = draft.patch.edgesRemove.map RemovedEdge.id := by
    rw [List.map_map]
    rfl
  rw [← all]
  exact filter_sublist.map _

/-- Only places are counted. -/
theorem flowsUnder_congr {edges edges' : List GraphEdge}
    (same : edges.map GraphEdge.place = edges'.map GraphEdge.place) :
    flowsUnder types lineage containers edges pair =
      flowsUnder types lineage containers edges' pair := by
  classical
  have places (edges : List GraphEdge) : flowsUnder types lineage containers edges pair =
      (edges.map GraphEdge.place).countP
        fun place => decide (RunsUnder types lineage containers pair place) := by
    rw [countP_map]
    rfl
  rw [places, places, same]

theorem flowsUnder_filter_contains (edges : List GraphEdge) : flowsUnder types lineage containers
        (edges.filter fun edge => types.contains edge.place = false) pair =
      flowsUnder types lineage containers edges pair := by
  rw [flowsUnder, countP_filter]
  refine countP_congr fun edge _ => ?_
  simp only [Bool.and_eq_true, decide_eq_true_eq]
  exact ⟨And.left, fun runs => ⟨runs, runs.1.2⟩⟩

theorem flowsUnder_append (edges edges' : List GraphEdge) :
    flowsUnder types lineage containers (edges ++ edges') pair =
      flowsUnder types lineage containers edges pair +
        flowsUnder types lineage containers edges' pair :=
  countP_append

theorem flowsUnder_filter_add (edges : List GraphEdge) (part : GraphEdge → Prop)
    [DecidablePred part] :
    flowsUnder types lineage containers (edges.filter fun edge => part edge) pair +
        flowsUnder types lineage containers (edges.filter fun edge => ¬ part edge) pair =
      flowsUnder types lineage containers edges pair := by
  rw [flowsUnder, flowsUnder, flowsUnder,
    countP_eq_countP_filter_add edges _ fun edge => decide (part edge)]
  simp

theorem flowsUnder_perm {edges edges' : List GraphEdge} (perm : edges.Perm edges') :
    flowsUnder types lineage containers edges pair =
      flowsUnder types lineage containers edges' pair :=
  perm.countP_eq _

theorem mem_leavingIds {id : EntityId} : id ∈ leavingIds types draft.patch ↔
    (∃ entry ∈ draft.patch.edgesUpsert, Moved types entry ∧ entry.id = id) ∨
      ∃ entry ∈ draft.patch.edgesRemove, entry.id = id := by
  simp [leavingIds, and_assoc]

def leavingEdges (types : EdgeTypes) (main : Main) (patch : PatchSet) : List GraphEdge :=
  main.edges.filter fun edge => edge.id ∈ leavingIds types patch

/-- The edges that the draft has elsewhere than main, or main has not. -/
def arrivingEdges (types : EdgeTypes) (patch : PatchSet) : List GraphEdge :=
  (patch.edgesUpsert.filter fun entry => Moved types entry).map fun entry =>
    skeletonEdge entry.id entry.place

/-- What the draft's index counts out is what it takes from main. -/
theorem perm_select_false : (((leavingEdges types main draft.patch).filter fun edge =>
      types.contains edge.place = false).map fun edge => skeletonEdge edge.id edge.place).Perm
        (select types draft.patch false false) := by
  have ids : ((((leavingEdges types main draft.patch).filter fun edge =>
      types.contains edge.place = false).map fun edge =>
        skeletonEdge edge.id edge.place).map GraphEdge.id).Nodup := by
    rw [List.map_map]
    exact main.edges_nodup.sublist ((filter_sublist.trans filter_sublist).map GraphEdge.id)
  rw [perm_ext_iff_of_nodup ids.of_map (nodup_select false false).of_map]
  intro edge
  rw [mem_select_false]
  simp only [List.mem_map, leavingEdges, mem_filter, mem_leavingIds, decide_eq_true_eq]
  constructor
  · rintro ⟨held, ⟨⟨inMain, leaving⟩, kind⟩, rfl⟩
    refine ⟨kind, leaving.imp ?_ ?_⟩
    · rintro ⟨entry, mem, moved, same⟩
      exact ⟨entry, mem, moved, held.place,
        (mem_was mem).mpr ⟨held, inMain, same.symm, rfl⟩, by rw [same]⟩
    · rintro ⟨entry, mem, same⟩
      refine ⟨entry, mem, ?_⟩
      have place := draft.removes entry mem
      rw [Main.edge?_eq_some.mpr ⟨inMain, same.symm⟩] at place
      rw [← some.inj place, same]
  · rintro ⟨kind, ⟨entry, mem, moved, was, held, rfl⟩ | ⟨entry, mem, rfl⟩⟩
    · obtain ⟨edge, inMain, same, rfl⟩ := (mem_was mem).mp held
      exact ⟨edge, ⟨⟨inMain, .inl ⟨entry, mem, moved, same.symm⟩⟩, kind⟩, by rw [same]⟩
    · obtain ⟨edge, found, place⟩ := map_eq_some_iff.mp (draft.removes entry mem)
      obtain ⟨inMain, same⟩ := Main.edge?_eq_some.mp found
      exact ⟨edge, ⟨⟨inMain, .inr ⟨entry, mem, same.symm⟩⟩, place ▸ kind⟩, by rw [same, place]⟩

/-- What the draft's index counts in is what it has elsewhere than main. -/
theorem perm_select_true : ((arrivingEdges types draft.patch).filter fun edge =>
      types.contains edge.place = false).Perm (select types draft.patch true false) := by
  have ids : (((arrivingEdges types draft.patch).filter fun edge =>
      types.contains edge.place = false).map GraphEdge.id).Nodup := by
    refine Nodup.sublist (filter_sublist.map GraphEdge.id) ?_
    rw [arrivingEdges, List.map_map]
    exact draft.upserts_nodup.sublist (filter_sublist.map EdgeSkeleton.id)
  rw [perm_ext_iff_of_nodup ids.of_map (nodup_select true false).of_map]
  intro edge
  rw [mem_select_true]
  simp only [arrivingEdges, List.mem_map, mem_filter, decide_eq_true_eq]
  constructor
  · rintro ⟨⟨entry, ⟨mem, moved⟩, same⟩, kind⟩
    exact ⟨kind, entry, mem, moved, same⟩
  · rintro ⟨kind, entry, mem, moved, same⟩
    exact ⟨⟨entry, ⟨mem, moved⟩, same⟩, kind⟩

theorem flowsUnder_main : flowsUnder types lineage containers main.edges pair =
      flowsUnder types lineage containers (keptEdges types main draft.patch) pair +
        flowsUnder types lineage containers (select types draft.patch false false) pair := by
  have leaving : flowsUnder types lineage containers (select types draft.patch false false) pair =
      flowsUnder types lineage containers (leavingEdges types main draft.patch) pair := by
    rw [← flowsUnder_perm perm_select_false, ← flowsUnder_filter_contains (leavingEdges _ _ _)]
    refine flowsUnder_congr ?_
    rw [List.map_map]
    rfl
  rw [leaving, keptEdges, leavingEdges, Nat.add_comm, flowsUnder_filter_add]

def stayedEdges (types : EdgeTypes) (patch : PatchSet) : List GraphEdge :=
  (patch.edgesUpsert.filter fun entry => ¬ Moved types entry).map fun entry =>
    skeletonEdge entry.id entry.place

theorem perm_stayedEdges : ((stayedEdges types draft.patch).map GraphEdge.id).Perm
      (((keptEdges types main draft.patch).filter fun edge =>
        edge.id ∈ edgeIds draft.patch).map GraphEdge.id) := by
  have nodup : ((stayedEdges types draft.patch).map GraphEdge.id).Nodup := by
    rw [stayedEdges, List.map_map]
    exact draft.upserts_nodup.sublist (filter_sublist.map EdgeSkeleton.id)
  have nodup' : (((keptEdges types main draft.patch).filter fun edge =>
      edge.id ∈ edgeIds draft.patch).map GraphEdge.id).Nodup :=
    main.edges_nodup.sublist ((filter_sublist.trans filter_sublist).map GraphEdge.id)
  rw [perm_ext_iff_of_nodup nodup nodup']
  intro id
  simp only [stayedEdges, List.map_map, List.mem_map, mem_filter, keptEdges, decide_eq_true_eq]
  constructor
  · rintro ⟨entry, ⟨mem, stays⟩, rfl⟩
    obtain ⟨was, held, same⟩ : ∃ was ∈ entry.was, types.SamePlace was entry.place := by
      simpa [Moved] using stays
    obtain ⟨edge, inMain, sameId, -⟩ := (mem_was mem).mp held
    refine ⟨edge, ⟨⟨inMain, ?_⟩, ?_⟩, sameId⟩
    · rw [sameId, mem_leavingIds, not_or]
      constructor
      · rintro ⟨other, otherMem, moved, otherId⟩
        rw [inj_on_of_nodup_map draft.upserts_nodup otherMem mem otherId] at moved
        exact stays moved
      · rintro ⟨removed, removedMem, removedId⟩
        exact draft.notMem_removes mem (removedId ▸ List.mem_map_of_mem removedMem)
    · rw [sameId, edgeIds, mem_append]
      exact .inl (List.mem_map_of_mem mem)
  · rintro ⟨edge, ⟨⟨inMain, kept⟩, touched⟩, rfl⟩
    rw [mem_leavingIds, not_or] at kept
    cases mem_append.mp touched with
    | inl upserted =>
      obtain ⟨entry, mem, same⟩ := mem_map.mp upserted
      exact ⟨entry, ⟨mem, fun moved => kept.1 ⟨entry, mem, moved, same⟩⟩, same⟩
    | inr removed =>
      obtain ⟨entry, mem, same⟩ := mem_map.mp removed
      exact absurd ⟨entry, mem, same⟩ kept.2

theorem flowsUnder_stayedEdges :
    flowsUnder types lineage containers (stayedEdges types draft.patch) pair =
      flowsUnder types lineage containers ((keptEdges types main draft.patch).filter
        fun edge => edge.id ∈ edgeIds draft.patch) pair := by
  classical
  let runs (id : EntityId) : Prop :=
    ∃ edge ∈ main.edges, edge.id = id ∧ RunsUnder types lineage containers pair edge.place
  have byId {edges : List GraphEdge} (agrees : ∀ edge ∈ edges,
      RunsUnder types lineage containers pair edge.place ↔ runs edge.id) :
      flowsUnder types lineage containers edges pair =
        (edges.map GraphEdge.id).countP fun id => decide (runs id) := by
    rw [countP_map]
    exact countP_congr fun edge mem => by simpa using agrees edge mem
  rw [byId, byId, perm_stayedEdges.countP_eq]
  · intro edge mem
    have inMain : edge ∈ main.edges := mem_of_mem_filter (mem_of_mem_filter mem)
    constructor
    · exact fun counted => ⟨edge, inMain, rfl, counted⟩
    · rintro ⟨held, heldIn, same, counted⟩
      exact inj_on_of_nodup_map main.edges_nodup heldIn inMain same ▸ counted
  · intro edge mem
    obtain ⟨entry, listed, rfl⟩ := mem_map.mp mem
    obtain ⟨entryMem, stays⟩ := mem_filter.mp listed
    obtain ⟨was, held, samePlace⟩ : ∃ was ∈ entry.was, types.SamePlace was entry.place := by
      simpa [Moved] using stays
    obtain ⟨main', inMain, sameId, rfl⟩ := (mem_was entryMem).mp held
    refine (RunsUnder.congr samePlace).symm.trans ⟨?_, ?_⟩
    · exact fun counted => ⟨main', inMain, sameId, counted⟩
    · rintro ⟨other, otherIn, otherId, counted⟩
      exact inj_on_of_nodup_map main.edges_nodup otherIn inMain
        (otherId.trans sameId.symm) ▸ counted

theorem flowsUnder_composed :
    flowsUnder types lineage containers (composedEdges main draft.patch draft.values) pair =
      flowsUnder types lineage containers (keptEdges types main draft.patch) pair +
        flowsUnder types lineage containers (select types draft.patch true false) pair := by
  have values : (draft.patch.edgesUpsert.filterMap fun entry => draft.values entry.id).map
      GraphEdge.place = draft.patch.edgesUpsert.map EdgeSkeleton.place := by
    rw [map_filterMap, ← filterMap_eq_map]
    refine filterMap_congr fun entry mem => ?_
    obtain ⟨value, loads, -, place⟩ := draft.loads entry mem
    rw [loads, map_some, place]
    rfl
  have upserts : flowsUnder types lineage containers
      (draft.patch.edgesUpsert.filterMap fun entry => draft.values entry.id) pair =
        flowsUnder types lineage containers (arrivingEdges types draft.patch) pair +
          flowsUnder types lineage containers (stayedEdges types draft.patch) pair := by
    have parts := (filter_append_perm (fun entry => decide (Moved types entry))
      draft.patch.edgesUpsert).map fun entry => skeletonEdge entry.id entry.place
    rw [map_append] at parts
    rw [← flowsUnder_append, arrivingEdges, stayedEdges]
    simp only [decide_not]
    rw [flowsUnder_perm parts]
    refine flowsUnder_congr ?_
    rw [values, List.map_map]
    rfl
  have untouched : main.edges.filter (fun edge => edge.id ∉ edgeIds draft.patch) =
      (keptEdges types main draft.patch).filter fun edge => edge.id ∉ edgeIds draft.patch := by
    rw [keptEdges, List.filter_filter]
    refine filter_congr fun edge _ => ?_
    have leaves : edge.id ∈ leavingIds types draft.patch → edge.id ∈ edgeIds draft.patch := by
      intro leaving
      rw [mem_leavingIds] at leaving
      rw [edgeIds, mem_append]
      exact leaving.imp (fun ⟨entry, mem, _, same⟩ => same ▸ mem_map_of_mem mem)
        fun ⟨entry, mem, same⟩ => same ▸ mem_map_of_mem mem
    by_cases touched : edge.id ∈ edgeIds draft.patch
    · simp [touched]
    · simp [touched, mt leaves touched]
  have arriving : flowsUnder types lineage containers (select types draft.patch true false) pair =
      flowsUnder types lineage containers (arrivingEdges types draft.patch) pair := by
    rw [← flowsUnder_perm perm_select_true, flowsUnder_filter_contains]
  rw [composedEdges, flowsUnder_append, upserts, flowsUnder_stayedEdges, untouched, arriving,
    ← flowsUnder_filter_add (keptEdges types main draft.patch)
      fun edge => edge.id ∈ edgeIds draft.patch]
  omega

end

section

variable {types : EdgeTypes} {lineage : List String} {main : Main} {draft : Draft main}
  {request : Request} {pair : String × String}

def Lists (types : EdgeTypes) (edges : List GraphEdge) (pair : String × String)
    (place : EdgePlace) : Prop :=
  (pair.1 = place.sourceUrn ∨ pair.1 ∈ chainOf types edges place.sourceUrn) ∧
    (pair.2 = place.targetUrn ∨ pair.2 ∈ chainOf types edges place.targetUrn)

instance (types : EdgeTypes) (edges : List GraphEdge) (pair : String × String)
    (place : EdgePlace) : Decidable (Lists types edges pair place) :=
  inferInstanceAs (Decidable ((_ ∨ _) ∧ (_ ∨ _)))

def listed (types : EdgeTypes) (edges flows : List GraphEdge) (pair : String × String) : ℕ :=
  flows.countP fun flow => Lists types edges pair flow.place

variable {edges : List GraphEdge}

theorem getD_ancestorChains {nodes urns : List String} {urn : String}
    (asked : urn ∈ urns) (live : urn ∈ nodes) :
    ((ancestorChains types nodes edges urns).get? urn).getD [] = chainOf types edges urn := by
  rw [ancestorChains]
  split
  · next none =>
      have noContainers : containersOf types edges urn = [] := by
        simp [containersOf, EdgeTypes.contains, none]
      simp [chainOf, noContainers, climb]
  · rw [get?_ofKeys, if_pos (mem_filter.mpr ⟨asked, decide_eq_true live⟩)]
    rfl

variable {flow : GraphEdge}

theorem mem_ends {flows : List GraphEdge} (mem : flow ∈ flows) :
    flow.place.sourceUrn ∈ ends flows ∧ flow.place.targetUrn ∈ ends flows := by
  constructor <;> rw [ends, mem_sortedKeys, mem_flatMap]
  · exact ⟨flow, mem, by simp⟩
  · exact ⟨flow, mem, by simp⟩

theorem countP_cells {nodes : List String} {edges flows : List GraphEdge}
    (live : ∀ flow ∈ flows, flow.place.sourceUrn ∈ nodes ∧ flow.place.targetUrn ∈ nodes)
    (named : ¬ (request.sources = [] ∧ request.targets = [])) :
    (flows.countP fun flow =>
        pair ∈ cells (ancestorChains types nodes edges (ends flows)) request flow) =
      if request.Asks pair then listed types edges flows pair else 0 := by
  have counts (flow : GraphEdge) (mem : flow ∈ flows) :
      pair ∈ cells (ancestorChains types nodes edges (ends flows)) request flow ↔
        request.Asks pair ∧ Lists types edges pair flow.place := by
    rw [mem_cells, mem_placed, mem_placed, getD_ancestorChains (mem_ends mem).1 (live flow mem).1,
      getD_ancestorChains (mem_ends mem).2 (live flow mem).2, Request.Asks, Lists]
    constructor
    · rintro ⟨⟨source, inSources⟩, ⟨target, inTargets⟩, distinct⟩
      exact ⟨⟨not_and_or.mp named, inSources, inTargets, distinct⟩, source, target⟩
    · rintro ⟨⟨_, inSources, inTargets, distinct⟩, source, target⟩
      exact ⟨⟨source, inSources⟩, ⟨target, inTargets⟩, distinct⟩
  by_cases asks : request.Asks pair
  · rw [if_pos asks]
    exact countP_congr fun flow mem => by simp [counts flow mem, asks]
  · rw [if_neg asks, countP_eq_zero]
    exact fun flow mem => by simp [counts flow mem, asks]

theorem live_added {containment : Bool}
    (mem : flow ∈ select types draft.patch true containment) :
    flow.place.sourceUrn ∈ composedNodes main draft.patch ∧
      flow.place.targetUrn ∈ composedNodes main draft.patch := by
  obtain ⟨-, entry, upserted, -, rfl⟩ := mem_select_true.mp mem
  obtain ⟨value, loads, -, place⟩ := draft.loads entry upserted
  have live := draft.closed value ((mem_composedEdges draft).mpr (.inr ⟨entry, upserted, loads⟩))
  rw [place] at live
  exact live

theorem live_removed {containment : Bool}
    (mem : flow ∈ select types draft.patch false containment) :
    flow.place.sourceUrn ∈ main.nodes ∧ flow.place.targetUrn ∈ main.nodes := by
  obtain ⟨-, ⟨entry, upserted, -, was, held, rfl⟩ | ⟨entry, removed, rfl⟩⟩ :=
    mem_select_false.mp mem
  · obtain ⟨edge, inMain, -, rfl⟩ := (mem_was upserted).mp held
    exact main.closed edge inMain
  · obtain ⟨edge, found, place⟩ := map_eq_some_iff.mp (draft.removes entry removed)
    have live := main.closed edge (Main.edge?_eq_some.mp found).1
    rw [place] at live
    exact live

theorem weightAt_adjustments : weightAt (adjustments types draft request) pair =
      if request.Asks pair then
        (listed types (composedEdges main draft.patch draft.values)
            (select types draft.patch true false) pair : ℤ) -
          listed types main.edges (select types draft.patch false false) pair
      else 0 := by
  rw [adjustments]
  by_cases named : request.sources = [] ∧ request.targets = []
  · have unasked : ¬ request.Asks pair := fun asks => asks.1.elim (· named.1) (· named.2)
    simp [named, unasked, weightAt]
  · rw [if_neg named, weightAt_rollupCells, weightAt_rollupCells]
    rw [OverlayDelta.ofPatch]
    rw [countP_cells (fun _ => live_added) named, countP_cells (fun _ => live_removed) named]
    by_cases asks : request.Asks pair
    · simp only [asks, if_true, weightAt, get?_nil, map_none, getD_none]
      ring
    · simp [asks, weightAt]

theorem nodup_keys_rollupCells {flows : List GraphEdge} {sign : ℤ}
    {chains : Dict String (List String)} {out : Dict (String × String) Slot}
    (nodup : out.keys.Nodup) : (rollupCells flows sign chains request out).keys.Nodup := by
  have cell (edgeType : String) (cells : List (String × String)) :
      ∀ {out : Dict (String × String) Slot}, out.keys.Nodup →
        (cells.foldl (moveCell sign edgeType) out).keys.Nodup := by
    induction cells with
    | nil => exact fun nodup => nodup
    | cons cell rest ih => exact fun nodup => ih (nodup_keys_set nodup _ _)
  induction flows generalizing out with
  | nil => exact nodup
  | cons flow rest ih => exact ih (cell _ _ nodup)

theorem nodup_keys_adjustments : (adjustments types draft request).keys.Nodup := by
  rw [adjustments]
  split
  · exact nodup_nil
  · exact nodup_keys_rollupCells (nodup_keys_rollupCells nodup_nil)

/-- A result says of each pair asked for its rollup in a state, and of no other. -/
def Carries (types : EdgeTypes) (lineage : List String) (edges : List GraphEdge)
    (request : Request) (result : AggregatedResult) : Prop :=
  ∀ pair, countsOf result.aggregatedEdges pair =
    if request.Asks pair then (positive (rollup types lineage edges pair)).toList else []

theorem countsOf_rolledUp {base : AggregatedResult}
    (complete : Carries types lineage main.edges request base) :
    countsOf (rolledUp types draft base request).aggregatedEdges pair = if request.Asks pair then
        (positive (rollup types lineage main.edges pair +
          listed types (composedEdges main draft.patch draft.values)
            (select types draft.patch true false) pair -
          listed types main.edges (select types draft.patch false false) pair)).toList
      else [] := by
  rw [rolledUp]
  split
  · next unchanged =>
      have added : select types draft.patch true false = [] := unchanged.1
      have removed : select types draft.patch false false = [] := unchanged.2
      rw [complete pair, added, removed]
      simp [listed]
  · have single (pair : String × String) : (countsOf base.aggregatedEdges pair).length ≤ 1 := by
      rw [complete pair]
      split
      · exact length_toList_le
      · exact Nat.zero_le 1
    obtain ⟨keyed, counts⟩ := keyed_ofList single
    have counted (pair : String × String) : countAt (base.aggregatedEdges.foldl
        (fun byPair edge => byPair.set edge.pair edge) []) pair =
          if request.Asks pair then positive (rollup types lineage main.edges pair) else none := by
      have same := counts pair
      rw [complete pair] at same
      split
      · next asks =>
          rw [if_pos asks] at same
          simpa using congrArg head? same
      · next unasked =>
          rw [if_neg unasked] at same
          exact toList_eq_nil_iff.mp same
    have moved := @countsOf_perm pair _ _ _
      (perm_insertionSort (fun first second : AggregatedEdge =>
        second.edgeCount ≤ first.edgeCount) _)
      (keyed.foldl_movePair (adjustments types draft request)).countsOf_values
    rw [moved, countAt_foldl_movePair nodup_keys_adjustments, weightAt_adjustments, counted]
    · by_cases asks : request.Asks pair
      · rw [if_pos asks, if_pos asks, if_pos asks, getD_positive, add_sub_assoc]
      · rw [if_neg asks, if_neg asks, if_neg asks]
        rfl
    · intro other count found
      rw [counted] at found
      split at found
      · rw [positive] at found
        split at found
        · cases found
        · cases found
          omega
      · cases found

/-- The flows a draft adds and takes away are lineage, and their ends have one container at
each level. -/
structure Placed (types : EdgeTypes) (lineage : List String) {main : Main}
    (draft : Draft main) : Prop where
  added : ∀ flow ∈ select types draft.patch true false, types.IsLineage lineage flow.place ∧
    OneContainer types (composedEdges main draft.patch draft.values) flow.place.sourceUrn ∧
      OneContainer types (composedEdges main draft.patch draft.values) flow.place.targetUrn
  removed : ∀ flow ∈ select types draft.patch false false, types.IsLineage lineage flow.place ∧
    OneContainer types main.edges flow.place.sourceUrn ∧
      OneContainer types main.edges flow.place.targetUrn

theorem listed_eq_flowsUnder {edges flows : List GraphEdge}
    (placed : ∀ flow ∈ flows, types.IsLineage lineage flow.place ∧
      OneContainer types edges flow.place.sourceUrn ∧
        OneContainer types edges flow.place.targetUrn) :
    listed types edges flows pair =
      flowsUnder types lineage (containersOf types edges) flows pair := by
  classical
  refine countP_congr fun flow mem => ?_
  obtain ⟨isLineage, source, target⟩ := placed flow mem
  rw [decide_eq_true_iff, decide_eq_true_iff, Lists, mem_chainOf source, mem_chainOf target,
    RunsUnder]
  exact ⟨fun under => ⟨isLineage, under⟩, And.right⟩

/-- Main's flows under a pair, with those the chains list added or taken away, are as many
as the composed state has there. -/
def Balances (types : EdgeTypes) (lineage : List String) {main : Main} (draft : Draft main)
    (pair : String × String) : Prop :=
  let composed := composedEdges main draft.patch draft.values
  let kept := keptEdges types main draft.patch
  let added := select types draft.patch true false
  let removed := select types draft.patch false false
  flowsUnder types lineage (containersOf types main.edges) kept pair +
        flowsUnder types lineage (containersOf types main.edges) removed pair +
      listed types composed added pair - listed types main.edges removed pair =
    flowsUnder types lineage (containersOf types composed) kept pair +
      flowsUnder types lineage (containersOf types composed) added pair

theorem balances_iff (placed : Placed types lineage draft) : Balances types lineage draft pair ↔
      flowsUnder types lineage (containersOf types main.edges)
          (keptEdges types main draft.patch) pair =
        flowsUnder types lineage (containersOf types (composedEdges main draft.patch draft.values))
          (keptEdges types main draft.patch) pair := by
  rw [Balances, listed_eq_flowsUnder placed.added, listed_eq_flowsUnder placed.removed]
  omega

/-- The moved rollups are the composed state's just where the flows balance. -/
theorem rolledUp_carries_iff {base : AggregatedResult}
    (complete : Carries types lineage main.edges request base) :
    Carries types lineage (composedEdges main draft.patch draft.values) request
        (rolledUp types draft base request) ↔
      ∀ pair, request.Asks pair → Balances types lineage draft pair := by
  refine forall_congr' fun pair => ?_
  rw [countsOf_rolledUp complete]
  by_cases asks : request.Asks pair
  · rw [if_pos asks, if_pos asks, positive_toList_inj, rollup, rollup,
      @flowsUnder_main _ _ _ draft, flowsUnder_composed, Balances]
    simp only [asks, true_implies]
    omega
  · simp [asks]

theorem rolledUp_stale (base : AggregatedResult) :
    (rolledUp types draft base request).stale = base.stale := by
  rw [rolledUp]
  split <;> rfl

/-- Over complete rollups of main, the overlay's are stale or the composed state's if and
only if the read is of a past revision whose containers moved, or the flows balance under
each pair asked for. -/
theorem getAggregatedEdges_exact_iff (types : EdgeTypes) (lineage : List String) {main : Main}
    (draft : Draft main) (asOf : Bool) (base : AggregatedResult) (request : Request)
    (fresh : base.stale = false) (complete : Carries types lineage main.edges request base) :
    (((getAggregatedEdges types draft asOf base request).stale ∨
        Carries types lineage (composedEdges main draft.patch draft.values) request
          (getAggregatedEdges types draft asOf base request)) ↔
      (asOf ∧ (OverlayDelta.ofPatch types draft.patch).structureMoved) ∨
        ∀ pair, request.Asks pair → Balances types lineage draft pair) ∧
    (Placed types lineage draft → ∀ pair, Balances types lineage draft pair ↔
      flowsUnder types lineage (containersOf types main.edges)
          (keptEdges types main draft.patch) pair =
        flowsUnder types lineage (containersOf types (composedEdges main draft.patch draft.values))
          (keptEdges types main draft.patch) pair) := by
  refine ⟨?_, fun placed pair => balances_iff placed⟩
  rw [getAggregatedEdges, ← rolledUp_carries_iff complete]
  by_cases moved : asOf && (OverlayDelta.ofPatch types draft.patch).structureMoved
  · have marked := Bool.and_eq_true_iff.mp moved
    simp [marked]
  · have unmarked : ¬ (asOf ∧ (OverlayDelta.ofPatch types draft.patch).structureMoved) :=
      fun both => moved (Bool.and_eq_true_iff.mpr both)
    rw [if_neg moved, rolledUp_stale, fresh]
    simp [unmarked]

/-- A state where no node has two containers has one at each level. -/
theorem OneContainer.of_nodup (urn : String)
    (nodup : ((edges.filter fun edge => types.contains edge.place).map
      fun edge => edge.place.targetUrn).Nodup) : OneContainer types edges urn := by
  intro place _ first inFirst second inSecond
  obtain ⟨edge, held, rfl⟩ := mem_map.mp inFirst
  obtain ⟨other, otherHeld, rfl⟩ := mem_map.mp inSecond
  simp only [mem_filter, decide_eq_true_eq] at held otherHeld
  have same := inj_on_of_nodup_map nodup (mem_filter.mpr ⟨held.1, held.2.1⟩)
    (mem_filter.mpr ⟨otherHeld.1, otherHeld.2.1⟩) (held.2.2.trans otherHeld.2.2.symm)
  rw [same]

theorem rollup_eq_listed
    (nodup : ((edges.filter fun edge => types.contains edge.place).map
      fun edge => edge.place.targetUrn).Nodup)
    (flows : ∀ edge ∈ edges.filter fun edge => types.contains edge.place = false,
      types.IsLineage lineage edge.place) :
    rollup types lineage edges pair =
      listed types edges (edges.filter fun edge => types.contains edge.place = false) pair := by
  rw [rollup, ← flowsUnder_filter_contains, listed_eq_flowsUnder]
  exact fun flow mem => ⟨flows flow mem, .of_nodup _ nodup, .of_nodup _ nodup⟩

def flowUnder : Main where
  nodes := ["p", "q", "a", "b"]
  edges := [⟨"c", ⟨"p", "a", "CONTAINS"⟩, .obj []⟩, ⟨"f", ⟨"a", "b", "FLOWS"⟩, .obj []⟩]
  edges_nodup := by decide +kernel
  closed := by decide +kernel

def flowAdded : Draft flowUnder where
  patch := { PatchSet.empty with edgesUpsert := [⟨"g", ⟨"a", "b", "FLOWS"⟩, none⟩] }
  values := fun id => if id = "g" then some ⟨"g", ⟨"a", "b", "FLOWS"⟩, .obj []⟩ else none
  keyed := by decide +kernel
  loads entry mem := by
    obtain rfl := List.mem_singleton.mp mem
    exact ⟨⟨"g", ⟨"a", "b", "FLOWS"⟩, .obj []⟩, rfl, rfl, rfl⟩
  was := by decide +kernel
  removes := nofun
  closed := by decide +kernel

def containerMoved : Draft flowUnder where
  patch := { PatchSet.empty with
    edgesUpsert := [⟨"c", ⟨"q", "a", "CONTAINS"⟩, some ⟨"p", "a", "CONTAINS"⟩⟩] }
  values := fun id => if id = "c" then some ⟨"c", ⟨"q", "a", "CONTAINS"⟩, .obj []⟩ else none
  keyed := by decide +kernel
  loads entry mem := by
    obtain rfl := List.mem_singleton.mp mem
    exact ⟨⟨"c", ⟨"q", "a", "CONTAINS"⟩, .obj []⟩, rfl, rfl, rfl⟩
  was := by decide +kernel
  removes := nofun
  closed := by decide +kernel

/-- Main's answer for what flows from under `p` to under `b`. -/
def underP : AggregatedResult :=
  ⟨[⟨"agg-p-b", "p", "b", 1, ["FLOWS"]⟩], 1, false, none⟩

theorem carries_single {result : AggregatedResult}
    {source target : String} (distinct : source ≠ target)
    (asked : countsOf result.aggregatedEdges (source, target) =
      (positive (rollup types lineage edges (source, target))).toList)
    (only : ∀ edge ∈ result.aggregatedEdges, edge.pair = (source, target)) :
    Carries types lineage edges ⟨[source], [target]⟩ result := by
  intro pair
  by_cases same : pair = (source, target)
  · rw [same, asked, if_pos]
    exact ⟨.inl (cons_ne_nil _ _), fun _ => mem_singleton_self _,
      fun _ => mem_singleton_self _, distinct⟩
  · rw [if_neg, countsOf, filter_eq_nil_iff.mpr, map_nil]
    · intro edge mem here
      exact same ((of_decide_eq_true here).symm.trans (only edge mem))
    · rintro ⟨-, inSources, inTargets, -⟩
      exact same (Prod.ext (mem_singleton.mp (inSources (cons_ne_nil _ _)))
        (mem_singleton.mp (inTargets (cons_ne_nil _ _))))

/-- The draft's added flow is counted with main's. -/
theorem getAggregatedEdges_flowAdded : Carries ⟨id, ["CONTAINS"]⟩ ["FLOWS"]
      (composedEdges flowUnder flowAdded.patch flowAdded.values) ⟨["p"], ["b"]⟩
      (getAggregatedEdges ⟨id, ["CONTAINS"]⟩ flowAdded false underP ⟨["p"], ["b"]⟩) := by
  have complete : Carries ⟨id, ["CONTAINS"]⟩ ["FLOWS"] flowUnder.edges ⟨["p"], ["b"]⟩ underP := by
    apply carries_single (by decide +kernel) _ (by decide +kernel)
    rw [rollup_eq_listed (by decide +kernel) (by decide +kernel)]
    decide +kernel
  have placed : Placed ⟨id, ["CONTAINS"]⟩ ["FLOWS"] flowAdded := by
    constructor
    · intro flow mem
      refine ⟨?_, .of_nodup _ (by decide +kernel), .of_nodup _ (by decide +kernel)⟩
      revert flow
      decide +kernel
    · intro flow mem
      refine ⟨?_, .of_nodup _ (by decide +kernel), .of_nodup _ (by decide +kernel)⟩
      revert flow
      decide +kernel
  have containers : containersOf ⟨id, ["CONTAINS"]⟩ flowUnder.edges =
      containersOf ⟨id, ["CONTAINS"]⟩
        (composedEdges flowUnder flowAdded.patch flowAdded.values) := by
    have composed : composedEdges flowUnder flowAdded.patch flowAdded.values =
        flowUnder.edges ++ [⟨"g", ⟨"a", "b", "FLOWS"⟩, .obj []⟩] := by decide +kernel
    have flows : EdgeTypes.contains ⟨id, ["CONTAINS"]⟩ ⟨"a", "b", "FLOWS"⟩ = false := by
      decide +kernel
    funext urn
    rw [composed, containersOf, containersOf]
    simp [flows]
  obtain ⟨exact_, balances⟩ := getAggregatedEdges_exact_iff ⟨id, ["CONTAINS"]⟩ ["FLOWS"]
    flowAdded false underP ⟨["p"], ["b"]⟩ rfl complete
  refine (exact_.mpr (.inr fun pair _ => (balances placed pair).mpr ?_)).resolve_left ?_
  · rw [← containers]
  · decide +kernel

/-- Main's grouping is served of a flow whose source is contained elsewhere on the draft, and
nothing says that it is stale. -/
theorem getAggregatedEdges_containerMoved :
    Carries ⟨id, ["CONTAINS"]⟩ ["FLOWS"] flowUnder.edges ⟨["q"], ["b"]⟩ ⟨[], 0, false, none⟩ ∧
      ¬ ((getAggregatedEdges ⟨id, ["CONTAINS"]⟩ containerMoved false ⟨[], 0, false, none⟩
            ⟨["q"], ["b"]⟩).stale ∨
        Carries ⟨id, ["CONTAINS"]⟩ ["FLOWS"]
          (composedEdges flowUnder containerMoved.patch containerMoved.values) ⟨["q"], ["b"]⟩
          (getAggregatedEdges ⟨id, ["CONTAINS"]⟩ containerMoved false ⟨[], 0, false, none⟩
            ⟨["q"], ["b"]⟩)) := by
  constructor
  · apply carries_single (by decide +kernel) _ (by decide +kernel)
    rw [rollup_eq_listed (by decide +kernel) (by decide +kernel)]
    decide +kernel
  · rintro (stale | carries)
    · revert stale
      decide +kernel
    · have served := carries ("q", "b")
      rw [rollup_eq_listed (by decide +kernel) (by decide +kernel)] at served
      revert served
      decide +kernel

end

end DataViz.Overlay
