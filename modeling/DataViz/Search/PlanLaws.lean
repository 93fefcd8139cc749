/-
# The units of a search partition its scope

How often an entity is read is shared out by every cut: a band of IDs by its halves, roots by
theirs, and in a forest the walk down from one root by the root and the walk from what is directly
in it. So however the units of a plan are cut, they answer each match once exactly where the plan's
own units reach it once, each root of a walk on its own (`makePlan_partitions_iff`).
-/

import DataViz.Data.Pieces
import DataViz.Search.Plan

namespace DataViz.Search

open List Option

open ParentTree (ancestor Cyclic ancestor_zero ancestor_succ ancestor_succ' cyclic_of_two)
open Pieces (Cuts)

variable {u : PlanUnit} {clamps : List Clamp} {n : Node} {edge : ℕ}

/-! ## Sets of IDs -/

@[simp]
theorem mem_sortedSet {ids : List ℕ} {id : ℕ} : id ∈ sortedSet ids ↔ id ∈ ids := by
  rw [sortedSet, (perm_insertionSort _ _).mem_iff, mem_dedup]

theorem nodup_sortedSet (ids : List ℕ) : (sortedSet ids).Nodup :=
  (perm_insertionSort _ _).nodup_iff.mpr ids.nodup_dedup

theorem countP_take_add_drop {α : Type*} (test : α → Bool) (xs : List α) (mid : ℕ) :
    (xs.take mid).countP test + (xs.drop mid).countP test = xs.countP test := by
  rw [← countP_append, take_append_drop]

theorem countP_le_one_iff {α : Type*} {test : α → Bool} {xs : List α} (nodup : xs.Nodup) :
    xs.countP test ≤ 1 ↔
      ∀ first ∈ xs, ∀ second ∈ xs, test first = true → test second = true → first = second := by
  induction xs with
  | nil => exact ⟨fun _ _ mem => absurd mem not_mem_nil, fun _ => Nat.zero_le _⟩
  | cons x rest ih =>
    obtain ⟨new, nodup⟩ := nodup_cons.mp nodup
    by_cases passes : test x = true
    · rw [countP_cons_of_pos passes, Nat.succ_le_succ_iff, Nat.le_zero, countP_eq_zero]
      constructor
      · intro none first mem second mem' firstPasses secondPasses
        rcases mem_cons.mp mem with rfl | mem
        · rcases mem_cons.mp mem' with rfl | mem'
          · rfl
          · exact absurd secondPasses (none second mem')
        · exact absurd firstPasses (none first mem)
      · intro unique other mem otherPasses
        have same := unique x mem_cons_self other (mem_cons_of_mem _ mem) passes otherPasses
        exact new (same ▸ mem)
    · rw [countP_cons_of_neg passes, ih nodup]
      constructor
      · intro unique first mem second mem' firstPasses secondPasses
        rcases mem_cons.mp mem with rfl | mem
        · exact absurd firstPasses passes
        · rcases mem_cons.mp mem' with rfl | mem'
          · exact absurd secondPasses passes
          · exact unique first mem second mem' firstPasses secondPasses
      · intro unique first mem second mem'
        exact unique first (mem_cons_of_mem _ mem) second (mem_cons_of_mem _ mem')

/-! ## Containment -/

namespace Graph

variable {g : Graph}

theorem parent_eq_some {child root : ℕ} :
    g.parent child = some root ↔ (root, child) ∈ g.contains := by
  rw [parent, map_eq_some_iff]
  constructor
  · rintro ⟨edge, found, rfl⟩
    have same := find?_some found
    rw [decide_eq_true_eq] at same
    exact same ▸ mem_of_find?_eq_some found
  · intro mem
    have isSome : (g.contains.find? (·.2 = child)).isSome := by
      rw [find?_isSome]
      exact ⟨_, mem, decide_eq_true rfl⟩
    obtain ⟨edge, found⟩ := isSome_iff_exists.mp isSome
    have same := find?_some found
    rw [decide_eq_true_eq] at same
    exact ⟨edge, found, g.one_parent edge (mem_of_find?_eq_some found) _ mem same⟩

theorem mem_children {root child : ℕ} : child ∈ g.children root ↔ g.parent child = some root := by
  rw [children, mem_sortedSet, List.mem_map, parent_eq_some]
  constructor
  · rintro ⟨edge, mem, rfl⟩
    rw [mem_filter, decide_eq_true_eq] at mem
    exact mem.2 ▸ mem.1
  · intro mem
    exact ⟨(root, child), mem_filter.mpr ⟨mem, decide_eq_true rfl⟩, rfl⟩

/-- Nothing is inside itself. -/
theorem not_cyclic (id : ℕ) : ¬ Cyclic g.parent id := by
  obtain ⟨level, falls⟩ := g.forest
  have climbs (n : ℕ) : ∀ {top}, ancestor g.parent (n + 1) id = some top →
      level top < level id := by
    induction n with
    | zero =>
      intro top up
      rw [ancestor_succ', bind_eq_some_iff] at up
      obtain ⟨container, up, same⟩ := up
      rw [ancestor_zero, some.injEq] at same
      exact same ▸ falls _ (parent_eq_some.mp up)
    | succ n ih =>
      intro top up
      rw [ancestor_succ, bind_eq_some_iff] at up
      obtain ⟨container, up, last⟩ := up
      exact (falls _ (parent_eq_some.mp last)).trans (ih up)
  rintro ⟨n, circle⟩
  exact lt_irrefl _ (climbs n circle)

theorem within_iff {depth root id : ℕ} :
    g.within depth root id = true ↔ ∃ k ≤ depth, ancestor g.parent k id = some root := by
  simp only [within, List.any_eq_true, mem_range, Nat.lt_succ_iff, decide_eq_true_eq]

/-- An entity is inside a root by one number of levels. -/
theorem steps_unique {root id j k : ℕ} (first : ancestor g.parent j id = some root)
    (second : ancestor g.parent k id = some root) : j = k := by
  rcases lt_trichotomy j k with less | same | more
  · exact absurd (cyclic_of_two less first second) (not_cyclic root)
  · exact same
  · exact absurd (cyclic_of_two more second first) (not_cyclic root)

theorem within_zero {root id : ℕ} : g.within 0 root id = true ↔ id = root := by
  rw [within_iff]
  constructor
  · rintro ⟨k, least, up⟩
    rw [Nat.le_zero.mp least, ancestor_zero, some.injEq] at up
    exact up
  · rintro rfl
    exact ⟨0, le_rfl, rfl⟩

theorem countP_within_zero (roots : List ℕ) (id : ℕ) :
    roots.countP (g.within 0 · id) = roots.count id := by
  apply countP_congr
  intro root _
  rw [within_zero, beq_iff_eq, eq_comm]

theorem within_succ {depth root id : ℕ} : g.within (depth + 1) root id = true ↔
    id = root ∨ ∃ child ∈ g.children root, g.within depth child id = true := by
  simp only [within_iff, mem_children]
  constructor
  · rintro ⟨k, most, up⟩
    cases k with
    | zero => exact .inl (some.inj up)
    | succ k =>
      rw [ancestor_succ, bind_eq_some_iff] at up
      obtain ⟨child, up, last⟩ := up
      exact .inr ⟨child, last, k, Nat.le_of_succ_le_succ most, up⟩
  · rintro (rfl | ⟨child, last, k, most, up⟩)
    · exact ⟨0, Nat.zero_le _, rfl⟩
    · refine ⟨k + 1, Nat.succ_le_succ most, ?_⟩
      rw [ancestor_succ, up, bind_some, last]

theorem not_within_child {depth root child : ℕ} (mem : child ∈ g.children root) :
    ¬ g.within depth child root = true := by
  rw [within_iff]
  rintro ⟨k, -, up⟩
  apply not_cyclic (g := g) root
  refine ⟨k, ?_⟩
  rw [ancestor_succ, up, bind_some, mem_children.mp mem]

theorem child_unique {depth root id first second : ℕ} (mem : first ∈ g.children root)
    (mem' : second ∈ g.children root) (inFirst : g.within depth first id = true)
    (inSecond : g.within depth second id = true) : first = second := by
  rw [mem_children] at mem mem'
  obtain ⟨j, -, up⟩ := within_iff.mp inFirst
  obtain ⟨k, -, up'⟩ := within_iff.mp inSecond
  have top : ancestor g.parent (j + 1) id = some root := by
    rw [ancestor_succ, up, bind_some, mem]
  have top' : ancestor g.parent (k + 1) id = some root := by
    rw [ancestor_succ, up', bind_some, mem']
  have same := Nat.succ.inj (steps_unique top top')
  rw [same, up'] at up
  exact (some.inj up).symm

theorem countP_children (depth root id : ℕ) :
    [root].count id + (g.children root).countP (g.within depth · id) =
      [root].countP (g.within (depth + 1) · id) := by
  have few : (g.children root).countP (g.within depth · id) ≤ 1 :=
    (countP_le_one_iff (nodup_sortedSet _)).mpr fun _ mem _ mem' => child_unique mem mem'
  rw [count_singleton, countP_singleton]
  by_cases same : id = root
  · have none : (g.children root).countP (g.within depth · id) = 0 :=
      countP_eq_zero.mpr fun child mem => same ▸ not_within_child mem
    rw [none, if_pos (beq_iff_eq.mpr same.symm), if_pos (within_succ.mpr (.inl same))]
  · rw [if_neg fun equal => same (beq_iff_eq.mp equal).symm, Nat.zero_add]
    by_cases inside : ∃ child ∈ g.children root, g.within depth child id = true
    · have some' := countP_pos_iff.mpr inside
      rw [if_pos (within_succ.mpr (.inr inside))]
      omega
    · rw [if_neg fun within => not_or.mpr ⟨same, inside⟩ (within_succ.mp within)]
      rw [not_exists] at inside
      exact countP_eq_zero.mpr fun child mem within => inside child ⟨mem, within⟩

end Graph

/-! ## Bands -/

theorem inBand_eq_true {lo hi : Option ℕ} {id : ℕ} :
    inBand lo hi id = true ↔ lo.getD 0 ≤ id ∧ ∀ top ∈ hi, id < top := by
  rw [inBand]
  cases lo <;> cases hi <;> simp

/-- A band is shared out by its halves. -/
theorem inBand_cut {lo hi : Option ℕ} {mid : ℕ} (least : lo.getD 0 ≤ mid)
    (most : ∀ top ∈ hi, mid ≤ top) (id : ℕ) :
    (inBand lo (some mid) id).toNat + (inBand (some mid) hi id).toNat =
      (inBand lo hi id).toNat := by
  have upper : inBand (some mid) hi id = true ↔ mid ≤ id ∧ ∀ top ∈ hi, id < top :=
    inBand_eq_true
  have lower : inBand lo (some mid) id = true ↔ lo.getD 0 ≤ id ∧ id < mid := by
    rw [inBand_eq_true]
    simp
  by_cases before : id < mid
  · have none : inBand (some mid) hi id = false := by
      rw [Bool.eq_false_iff, ne_eq, upper]
      omega
    have same : inBand lo (some mid) id = inBand lo hi id := by
      rw [Bool.eq_iff_iff, lower, inBand_eq_true]
      exact and_congr_right fun _ =>
        ⟨fun _ top mem => before.trans_le (most top mem), fun _ => before⟩
    rw [none, same, Bool.toNat_false, Nat.add_zero]
  · have none : inBand lo (some mid) id = false := by
      rw [Bool.eq_false_iff, ne_eq, lower]
      omega
    have same : inBand (some mid) hi id = inBand lo hi id := by
      rw [Bool.eq_iff_iff, upper, inBand_eq_true]
      exact and_congr_left fun _ => ⟨fun _ => by omega, fun _ => by omega⟩
    rw [none, same, Bool.toNat_false, Nat.zero_add]

/-! ## Ways to an entity -/

namespace PlanUnit

section

variable (p : Provider) (ctx : Context)

/-- How many ways a unit reaches an entity: each root of a walk is one. -/
def ways (u : PlanUnit) (n : Node) : ℕ :=
  match u.kind with
  | .walk => u.roots.countP fun root => p.graph.within (u.walkDepth ctx) root n.id
  | .ids => u.roots.count n.id
  | .visible =>
    if u.labelled p n then (n.urn.map fun urn => (u.shown ctx).count urn).getD 0 else 0
  | .range => if u.labelled p n then (inBand u.lo u.hi n.id).toNat else 0

/-- How many ways a unit reaches a match, or an edge of it. -/
def weight (clamps : List Clamp) (n : Node) (edge : ℕ) (u : PlanUnit) : ℕ :=
  if n.urn.isSome && ctx.keeps n && clamps.all (·.holds p.graph n) then
    (inBand u.elo u.ehi edge).toNat * u.ways p ctx n
  else 0

end

variable {p : Provider} {ctx : Context}

theorem reads_le_ways (n : Node) : u.reads p ctx n ≤ u.ways p ctx n := by
  unfold reads ways
  cases u.kind with
  | walk =>
    dsimp only
    split
    · next some' => exact countP_pos_iff.mpr (any_eq_true.mp some')
    · exact Nat.zero_le _
  | ids => exact le_rfl
  | visible =>
    dsimp only
    split
    · next reads =>
        rw [Bool.and_eq_true] at reads
        rw [if_pos reads.1]
        cases urn : n.urn with
        | none => rw [urn] at reads; cases reads.2
        | some urn =>
          rw [urn, any_some, decide_eq_true_eq] at reads
          exact count_pos_iff.mpr reads.2
    · exact Nat.zero_le _
  | range =>
    dsimp only
    cases u.labelled p n <;> cases inBand u.lo u.hi n.id <;> decide

theorem reads_pos_of_ways_pos {n : Node} (some' : 0 < u.ways p ctx n) : 0 < u.reads p ctx n := by
  revert some'
  unfold reads ways
  cases u.kind with
  | walk =>
    intro some'
    rw [if_pos (any_eq_true.mpr (countP_pos_iff.mp some'))]
    exact Nat.one_pos
  | ids => exact id
  | visible =>
    cases u.labelled p n with
    | false => exact fun none => absurd none (lt_irrefl 0)
    | true =>
      rw [if_pos rfl, Bool.true_and]
      cases n.urn with
      | none => exact fun none => absurd none (lt_irrefl 0)
      | some urn =>
        rw [map_some, getD_some, count_pos_iff]
        intro mem
        rw [any_some, if_pos (decide_eq_true mem)]
        exact Nat.one_pos
  | range =>
    dsimp only
    cases u.labelled p n <;> cases inBand u.lo u.hi n.id <;> decide

theorem rows_le_weight (clamps : List Clamp) (n : Node) (edge : ℕ) :
    u.rows p ctx clamps n edge ≤ u.weight p ctx clamps n edge := by
  have le : u.reads p ctx n ≤ u.ways p ctx n := reads_le_ways n
  unfold rows weight
  cases n.urn.isSome && ctx.keeps n && clamps.all (·.holds p.graph n) with
  | false => exact le_rfl
  | true =>
    cases inBand u.elo u.ehi edge with
    | false => exact Nat.zero_le _
    | true =>
      rw [Bool.and_true, if_pos rfl, Bool.toNat_true, Nat.one_mul]
      split
      · exact le
      · exact (Nat.min_le_right _ _).trans le

theorem rows_pos_of_weight_pos {clamps : List Clamp} {n : Node} {edge : ℕ}
    (some' : 0 < u.weight p ctx clamps n edge) : 0 < u.rows p ctx clamps n edge := by
  revert some'
  unfold rows weight
  cases n.urn.isSome && ctx.keeps n && clamps.all (·.holds p.graph n) with
  | false => exact id
  | true =>
    cases inBand u.elo u.ehi edge with
    | false =>
      rw [Bool.toNat_false, Nat.zero_mul]
      exact fun none => absurd none (lt_irrefl 0)
    | true =>
      rw [Bool.and_true, if_pos rfl, if_pos rfl, Bool.toNat_true, Nat.one_mul]
      intro some'
      have reads := reads_pos_of_ways_pos some'
      split
      · exact reads
      · exact lt_min Nat.one_pos reads

variable {parts : List PlanUnit}

variable (p ctx) in
/-- The halves of a unit share out its entities, and read the same edges of each. -/
theorem splitNodes_spec (cut : u.splitNodes = some parts) :
    ∃ left right, parts = [left, right] ∧ (left.elo = u.elo ∧ left.ehi = u.ehi) ∧
      (right.elo = u.elo ∧ right.ehi = u.ehi) ∧
      ∀ n, left.ways p ctx n + right.ways p ctx n = u.ways p ctx n := by
  unfold splitNodes at cut
  dsimp only at cut
  split at cut
  · next kind =>
      split at cut
      · cases cut
      · next wide =>
          cases cut
          refine ⟨_, _, rfl, ⟨rfl, rfl⟩, ⟨rfl, rfl⟩, fun n => ?_⟩
          simp only [ways, kind]
          change (if u.labelled p n then _ else 0) + (if u.labelled p n then _ else 0) = _
          cases u.labelled p n with
          | false => rfl
          | true =>
            refine inBand_cut (Nat.le_add_right _ _) (fun top mem => ?_) n.id
            rw [mem, getD_some] at wide ⊢
            omega
  · next kind =>
      split at cut
      · cases cut
        refine ⟨_, _, rfl, ⟨rfl, rfl⟩, ⟨rfl, rfl⟩, fun n => ?_⟩
        simp only [ways, kind]
        exact countP_take_add_drop _ _ _
      · cases cut
  · next kind =>
      split at cut
      · cases cut
        refine ⟨_, _, rfl, ⟨rfl, rfl⟩, ⟨rfl, rfl⟩, fun n => ?_⟩
        simp only [ways, kind]
        exact countP_take_add_drop _ _ _
      · cases cut
  · next kind =>
      split at cut
      · cases cut
      · next urns shows =>
          split at cut
          · cases cut
            refine ⟨_, _, rfl, ⟨rfl, rfl⟩, ⟨rfl, rfl⟩, fun n => ?_⟩
            simp only [ways, kind]
            change (if u.labelled p n then _ else 0) + (if u.labelled p n then _ else 0) = _
            cases u.labelled p n with
            | false => rfl
            | true =>
              cases n.urn with
              | none => rfl
              | some urn =>
                simp only [shown, shows]
                exact countP_take_add_drop _ _ _
          · cases cut

variable (p ctx) in
/-- The halves of a band share out its edges, and reach what the unit does. -/
theorem splitBand_spec (cut : u.splitBand = some parts) :
    ∃ left right, parts = [left, right] ∧
      (∀ n, left.ways p ctx n = u.ways p ctx n) ∧ (∀ n, right.ways p ctx n = u.ways p ctx n) ∧
      ∀ edge, (inBand left.elo left.ehi edge).toNat + (inBand right.elo right.ehi edge).toNat =
        (inBand u.elo u.ehi edge).toNat := by
  unfold splitBand at cut
  dsimp only at cut
  split at cut
  · cases cut
  · next wide =>
      cases cut
      refine ⟨_, _, rfl, fun n => rfl, fun n => rfl, fun edge => ?_⟩
      dsimp only
      refine inBand_cut (Nat.le_add_right _ _) (fun top mem => ?_) edge
      rw [mem, getD_some] at wide ⊢
      omega

/-- What some parts reach, of the same edges each, or of edges that they share out. -/
theorem weight_pair {left right : PlanUnit}
    (shared : (inBand left.elo left.ehi edge).toNat * left.ways p ctx n +
      (inBand right.elo right.ehi edge).toNat * right.ways p ctx n =
        (inBand u.elo u.ehi edge).toNat * u.ways p ctx n) :
    ([left, right].map (weight p ctx clamps n edge)).sum = u.weight p ctx clamps n edge := by
  unfold weight
  split
  · exact shared
  · rfl

theorem weight_splitNodes (cut : u.splitNodes = some parts) :
    (parts.map (weight p ctx clamps n edge)).sum = u.weight p ctx clamps n edge := by
  obtain ⟨left, right, rfl, ⟨elo, ehi⟩, ⟨elo', ehi'⟩, ways⟩ :=
    splitNodes_spec p ctx cut
  apply weight_pair
  rw [elo, ehi, elo', ehi', ← Nat.mul_add, ways]

theorem weight_splitBand (cut : u.splitBand = some parts) :
    (parts.map (weight p ctx clamps n edge)).sum = u.weight p ctx clamps n edge := by
  obtain ⟨left, right, rfl, ways, ways', bands⟩ := splitBand_spec p ctx cut
  apply weight_pair
  rw [ways, ways', ← Nat.add_mul, bands]

theorem weight_getD {cut : Option (List PlanUnit)} (shared : ∀ parts, cut = some parts →
    (parts.map (weight p ctx clamps n edge)).sum = u.weight p ctx clamps n edge) :
    ((cut.getD [u]).map (weight p ctx clamps n edge)).sum = u.weight p ctx clamps n edge := by
  cases cut with
  | none => exact sum_singleton
  | some parts => exact shared parts rfl

theorem weight_split (cut : u.split = some parts) :
    (parts.map (weight p ctx clamps n edge)).sum = u.weight p ctx clamps n edge := by
  unfold split at cut
  split at cut
  · dsimp only at cut
    split at cut
    · cases cut
      have each (part : PlanUnit) : ((part.splitBand.getD [part]).map
          (weight p ctx clamps n edge)).sum = part.weight p ctx clamps n edge :=
        weight_getD fun _ => weight_splitBand
      rw [map_flatMap, flatMap_def, sum_flatten, List.map_map]
      have sums : sum ∘ (fun part : PlanUnit => (part.splitBand.getD [part]).map
          (weight p ctx clamps n edge)) = weight p ctx clamps n edge := funext each
      rw [sums]
      exact weight_getD fun _ => weight_splitNodes
    · cases cut
  · exact weight_splitNodes cut

/-- One level down, a unit reaches what it did. -/
theorem weight_expandUnit (cut : expandUnit p ctx u = some parts) :
    (parts.map (weight p ctx clamps n edge)).sum = u.weight p ctx clamps n edge := by
  unfold expandUnit at cut
  split at cut
  · next canvas =>
      obtain ⟨kind, urns, -⟩ := canvas
      rw [weight_split cut]
      simp only [weight, ways, kind, shown, urns]
      rfl
  · split at cut
    · next walks =>
        split at cut
        · next root roots =>
            dsimp only at cut
            split at cut
            · cases cut
            · next deep =>
                rw [not_or, not_lt] at deep
                obtain ⟨depth, depth_eq⟩ := Nat.exists_eq_add_of_le' deep.1
                have walkDepth : u.walkDepth ctx = depth + 1 := by
                  unfold PlanUnit.walkDepth
                  cases given : u.depth with
                  | none =>
                    rw [given] at depth_eq
                    exact depth_eq
                  | some d =>
                    rw [given, getD_some] at depth_eq
                    rw [depth_eq]
                    rfl
                have below : u.ways p ctx n = [root].count n.id +
                    (p.graph.children root).countP (p.graph.within depth · n.id) := by
                  rw [Graph.countP_children]
                  unfold ways
                  rw [walks.1, roots, walkDepth]
                rw [depth_eq] at cut
                cases depth with
                | zero =>
                  cases cut
                  apply weight_pair
                  rw [below, Graph.countP_within_zero, Nat.mul_add]
                  rfl
                | succ depth =>
                  cases cut
                  apply weight_pair
                  rw [below, Nat.mul_add]
                  simp only [ways, walks.1]
                  rfl
        · cases cut
    · cases cut

/-! ## Cutting a unit apart -/

/-- How much a unit holds that can be cut apart. -/
def number (ctx : Context) (u : PlanUnit) : ℕ :=
  match u.kind with
  | .walk | .ids => u.roots.length
  | .visible => (u.shown ctx).length
  | .range => 0

/-- Beyond one way, there is one for each of what a unit holds at most. -/
theorem ways_le (n : Node) : u.ways p ctx n ≤ max 1 (u.number ctx) := by
  unfold ways number
  cases u.kind with
  | walk => exact countP_le_length.trans (le_max_right _ _)
  | ids => exact count_le_length.trans (le_max_right _ _)
  | visible =>
    dsimp only
    split
    · cases n.urn with
      | none => exact Nat.zero_le _
      | some urn => exact count_le_length.trans (le_max_right _ _)
    · exact Nat.zero_le _
  | range =>
    dsimp only
    split
    · exact (Bool.toNat_le _).trans (le_max_left _ _)
    · exact Nat.zero_le _

theorem weight_le : u.weight p ctx clamps n edge ≤ max 1 (u.number ctx) := by
  unfold weight
  split
  · have band := Bool.toNat_le (inBand u.elo u.ehi edge)
    exact (Nat.mul_le_mul_right _ band).trans ((Nat.one_mul _).le.trans (ways_le n))
  · exact Nat.zero_le _

/-- What holds two or more is cut into halves that hold less. -/
theorem splitNodes_number (many : 2 ≤ u.number ctx) (named : u.kind = .visible → u.urns.isSome) :
    ∃ left right, u.splitNodes = some [left, right] ∧ left.number ctx < u.number ctx ∧
      right.number ctx < u.number ctx := by
  have halves {α : Type} {xs : List α} (many : 2 ≤ xs.length) :
      (xs.take (xs.length / 2)).length < xs.length ∧
        (xs.drop (xs.length / 2)).length < xs.length := by
    rw [length_take, length_drop]
    omega
  revert many named
  unfold splitNodes number
  cases kind : u.kind with
  | walk =>
    intro many _
    dsimp only
    rw [if_pos (show 1 < u.roots.length from many)]
    exact ⟨_, _, rfl, by simpa only [kind] using halves many⟩
  | ids =>
    intro many _
    rw [if_pos (show 1 < u.roots.length from many)]
    exact ⟨_, _, rfl, by simpa only [kind] using halves many⟩
  | visible =>
    intro many named
    obtain ⟨urns, urns_eq⟩ := isSome_iff_exists.mp (named rfl)
    dsimp only [shown] at many ⊢
    rw [urns_eq] at many ⊢
    dsimp only
    rw [if_pos (show 1 < urns.length from many)]
    exact ⟨_, _, rfl, by simpa only [kind, getD_some] using halves many⟩
  | range => exact fun many => absurd many (Nat.not_succ_le_zero 1)

variable (ctx) in
theorem splitBand_number (cut : u.splitBand = some parts) :
    parts.length = 2 ∧ ∀ part ∈ parts, part.number ctx = u.number ctx := by
  unfold splitBand at cut
  dsimp only at cut
  split at cut
  · cases cut
  · cases cut
    refine ⟨rfl, fun part mem => ?_⟩
    rcases mem_pair.mp mem with rfl | rfl <;> rfl

variable (ctx) in
theorem splitBand_getD_number : 0 < (u.splitBand.getD [u]).length ∧
      ∀ part ∈ u.splitBand.getD [u], part.number ctx = u.number ctx := by
  cases cut : u.splitBand with
  | none => exact ⟨Nat.one_pos, fun part mem => by rw [mem_singleton.mp mem]⟩
  | some parts =>
    obtain ⟨two, same⟩ := splitBand_number ctx cut
    exact ⟨two ▸ Nat.two_pos, same⟩

variable (ctx) in
theorem split_of_splitNodes {left right : PlanUnit} (cut : u.splitNodes = some [left, right]) :
    ∃ parts, u.split = some parts ∧ ∀ part ∈ parts,
      part.number ctx = left.number ctx ∨ part.number ctx = right.number ctx := by
  unfold split
  dsimp only
  rw [cut, getD_some, flatMap_cons, flatMap_singleton]
  obtain ⟨some', same⟩ := left.splitBand_getD_number ctx
  obtain ⟨some'', same'⟩ := right.splitBand_getD_number ctx
  split
  · rw [length_append, if_pos (by omega)]
    refine ⟨_, rfl, fun part mem => ?_⟩
    exact (mem_append.mp mem).imp (same part) (same' part)
  · refine ⟨_, rfl, fun part mem => ?_⟩
    rcases mem_pair.mp mem with rfl | rfl
    · exact .inl rfl
    · exact .inr rfl

end PlanUnit

/-- What a unit may be replaced by: the parts of a split, or what is read one level down. -/
inductive Replaced (p : Provider) (ctx : Context) : PlanUnit → List PlanUnit → Prop where
  | split {u : PlanUnit} {parts : List PlanUnit} (cut : u.split = some parts) :
      Replaced p ctx u parts
  | expand {u : PlanUnit} {parts : List PlanUnit} (cut : expandUnit p ctx u = some parts) :
      Replaced p ctx u parts

section

variable {p : Provider} {ctx : Context}

theorem Replaced.weight_eq {parts : List PlanUnit} (cut : Replaced p ctx u parts) :
    (parts.map (PlanUnit.weight p ctx clamps n edge)).sum = u.weight p ctx clamps n edge := by
  cases cut with
  | split cut => exact PlanUnit.weight_split cut
  | expand cut => exact PlanUnit.weight_expandUnit cut

/-- A unit that reaches an entity in two ways can be replaced by smaller ones. -/
theorem exists_replaced (heavy : 2 ≤ u.weight p ctx clamps n edge) :
    ∃ parts, Replaced p ctx u parts ∧ ∀ part ∈ parts, part.number ctx < u.number ctx := by
  have many : 2 ≤ u.number ctx := by
    have most := PlanUnit.weight_le.trans' heavy
    omega
  by_cases named : u.kind = .visible → u.urns.isSome
  · obtain ⟨left, right, cut, less, less'⟩ := PlanUnit.splitNodes_number many named
    obtain ⟨parts, cut, same⟩ := PlanUnit.split_of_splitNodes ctx cut
    refine ⟨parts, .split cut, fun part mem => ?_⟩
    rcases same part mem with same | same
    · exact same ▸ less
    · exact same ▸ less'
  · rw [Classical.not_imp, not_isSome_iff_eq_none] at named
    obtain ⟨kind, urns⟩ := named
    -- What is on the canvas is named first, and halved at once.
    have number : u.number ctx = (ctx.visible.getD []).length := by
      simp only [PlanUnit.number, kind, PlanUnit.shown, urns, getD_none]
    have same : { u with urns := some (ctx.visible.getD []) }.number ctx = u.number ctx := by
      simp only [PlanUnit.number, kind, PlanUnit.shown, urns, getD_none, getD_some]
    obtain ⟨left, right, cut, less, less'⟩ :=
      PlanUnit.splitNodes_number (same ▸ many) fun _ => rfl
    obtain ⟨parts, cut, equal⟩ := PlanUnit.split_of_splitNodes ctx cut
    refine ⟨parts, .expand ?_, fun part mem => ?_⟩
    · unfold expandUnit
      rw [if_pos ⟨kind, urns, number ▸ many⟩, cut]
    · rw [← same]
      rcases equal part mem with equal | equal
      · exact equal ▸ less
      · exact equal ▸ less'

end

/-! ## The bands of a label -/

section

variable {p : Provider} {ctx : Context}

/-- How many ways some units reach an entity. -/
def waysOf (p : Provider) (ctx : Context) (n : Node) (units : List PlanUnit) : ℕ :=
  (units.map (PlanUnit.ways p ctx · n)).sum

theorem waysOf_append (units more : List PlanUnit) :
    waysOf p ctx n (units ++ more) = waysOf p ctx n units + waysOf p ctx n more := by
  rw [waysOf, map_append, sum_append]
  rfl

/-- Bands of one width after another are one band, whose last may be open. -/
theorem sum_bands (first step id : ℕ) (more : ℕ) :
    ((List.range (more + 2)).map fun k => (inBand (if k = 0 then none else some (first + k * step))
      (if k = more + 1 then none else some (first + (k + 1) * step)) id).toNat).sum = 1 := by
  have closed (m : ℕ) (least : 1 ≤ m) (most : m ≤ more + 1) :
      ((range m).map fun k => (inBand (if k = 0 then none else some (first + k * step))
        (if k = more + 1 then none else some (first + (k + 1) * step)) id).toNat).sum =
          (inBand none (some (first + m * step)) id).toNat := by
    induction m, least using Nat.le_induction with
    | base =>
      rw [range_one, map_singleton, sum_singleton, if_pos rfl, if_neg (by omega)]
    | succ m least ih =>
      rw [range_succ, map_append, sum_append, ih (by omega), map_singleton,
        sum_singleton, if_neg (by omega), if_neg (by omega)]
      refine inBand_cut (Nat.zero_le _) (fun top mem => ?_) id
      cases mem
      exact Nat.add_le_add_left (Nat.mul_le_mul_right _ (Nat.le_succ m)) _
  rw [range_succ, map_append, sum_append, closed _ (by omega) le_rfl,
    map_singleton, sum_singleton, if_neg (by omega), if_pos rfl]
  exact inBand_cut (Nat.zero_le _) (fun _ mem => absurd mem (not_mem_none _)) id

/-- The bands of a label reach each entity under it once, unless an earlier label holds it. -/
theorem waysOf_labelUnits {width : ℕ} (some' : 0 < width) (total : ℕ) (earlier : List String)
    (label : String) : waysOf p ctx n (labelUnits p width total earlier label) =
      (decide (0 < (p.labelStats label).1) &&
        (p.carries label n && !earlier.any (p.carries · n))).toNat := by
  unfold labelUnits
  dsimp only
  split
  · next none =>
      rw [none]
      rfl
  · next count =>
      rw [decide_eq_true (Nat.pos_of_ne_zero count)]
      split
      · change (if p.carries label n && !earlier.any (p.carries · n) then 1 else 0) = _
        cases p.carries label n && !earlier.any (p.carries · n) <;> rfl
      · next large =>
          have two : 2 ≤ ((p.labelStats label).1 + width - 1) / width := by
            rw [Nat.le_div_iff_mul_le some']
            omega
          obtain ⟨more, pieces⟩ := Nat.exists_eq_add_of_le' two
          rw [pieces, waysOf, List.map_map]
          cases held : p.carries label n && !earlier.any (p.carries · n) with
          | false =>
            refine sum_eq_zero fun amount mem => ?_
            obtain ⟨k, -, rfl⟩ := mem_map.mp mem
            exact if_neg (Bool.eq_false_iff.mp held)
          | true =>
            generalize max 1 ((max (p.labelStats label).1 (total - (p.labelStats label).2) +
              (more + 2) - 1) / (more + 2)) = step
            refine Eq.trans ?_ (sum_bands (p.labelStats label).2 step n.id more)
            apply congrArg sum
            apply map_congr_left
            intro k _
            exact if_pos held

/-- Whether an entity is read under a label: the first one that holds it is not taken for empty. -/
def Provider.readUnder (p : Provider) (labels : List String) (n : Node) : Bool :=
  (labels.find? (p.carries · n)).any fun label => 0 < (p.labelStats label).1

theorem waysOf_rangeUnits {width : ℕ} (some' : 0 < width) (total : ℕ) (labels : List String) :
    ∀ earlier, waysOf p ctx n (rangeUnits p width total earlier labels) =
      (!earlier.any (p.carries · n) && p.readUnder labels n).toNat := by
  induction labels with
  | nil =>
    intro earlier
    rw [Provider.readUnder, find?_nil, any_none, Bool.and_false]
    rfl
  | cons label rest ih =>
    intro earlier
    rw [rangeUnits, waysOf_append, waysOf_labelUnits some', ih, any_append, any_cons,
      any_nil, Bool.or_false, Provider.readUnder, Provider.readUnder, find?_cons]
    cases p.carries label n <;> cases earlier.any (p.carries · n) <;>
      simp

theorem waysOf_visibleUnits (shown : ℕ) (labels : List String) :
    ∀ earlier, waysOf p ctx n (visibleUnits p shown earlier labels) =
      if !earlier.any (p.carries · n) && labels.any (p.carries · n) then
        (n.urn.map fun urn => (ctx.visible.getD []).count urn).getD 0
      else 0 := by
  induction labels with
  | nil =>
    intro earlier
    rw [any_nil, Bool.and_false]
    rfl
  | cons label rest ih =>
    intro earlier
    rw [visibleUnits, waysOf, map_cons, sum_cons, ← waysOf, ih, any_append,
      any_cons, any_nil, Bool.or_false, any_cons]
    change (if p.carries label n && !earlier.any (p.carries · n) then _ else 0) + _ = _
    cases p.carries label n <;> cases earlier.any (p.carries · n) <;> simp [PlanUnit.shown]

end

/-! ## Walks -/

section

variable {p : Provider} {ctx : Context}

theorem flatten_buckets (roots : List ℕ) : (buckets roots).flatten = roots := by
  have first (count : ℕ) : ((range count).map fun i =>
      (roots.drop (i * walkBucketRoots)).take walkBucketRoots).flatten =
        roots.take (count * walkBucketRoots) := by
    induction count with
    | zero => rw [Nat.zero_mul, take_zero]; rfl
    | succ count ih =>
      rw [range_succ, map_append, flatten_append, ih, map_singleton,
        flatten_singleton, Nat.succ_mul, take_add]
  rw [buckets, first]
  apply take_of_length_le
  unfold walkBucketRoots
  omega

variable {clamp : Clamp}

theorem mem_outermost {root : ℕ} : root ∈ p.outermost clamp ↔
    root ∈ clamp.roots ∧ ∀ other ∈ clamp.roots, ¬ p.graph.below clamp.depth other root = true := by
  rw [Provider.outermost, (perm_insertionSort _ _).mem_iff, mem_filter,
    Bool.not_eq_true', List.any_eq_false]

theorem nodup_outermost (nodup : clamp.roots.Nodup) : (p.outermost clamp).Nodup :=
  (perm_insertionSort _ _).nodup_iff.mpr (nodup.filter _)

/-- Of two roots that reach an entity, the lower is inside the other. -/
theorem below_of_within {g : Graph} {depth upper lower id j k : ℕ} (less : j < k) (most : k ≤ depth)
    (low : ancestor g.parent j id = some lower) (high : ancestor g.parent k id = some upper) :
    g.below depth upper lower = true := by
  obtain ⟨middle, up, rest⟩ := ParentTree.exists_ancestor_of_le less.le high
  rw [low, some.injEq] at up
  rw [← up] at rest
  rw [Graph.below, List.any_eq_true]
  refine ⟨k - j - 1, mem_range.mpr (by omega), decide_eq_true ?_⟩
  rw [Nat.sub_add_cancel (by omega)]
  exact rest

theorem outermost_unique (nodup : clamp.roots.Nodup) (id : ℕ) :
    (p.outermost clamp).countP (p.graph.within clamp.depth · id) ≤ 1 := by
  rw [countP_le_one_iff (nodup_outermost nodup)]
  intro first mem second mem' inFirst inSecond
  rw [mem_outermost] at mem mem'
  obtain ⟨j, most, up⟩ := Graph.within_iff.mp inFirst
  obtain ⟨k, most', up'⟩ := Graph.within_iff.mp inSecond
  rcases lt_trichotomy j k with less | same | more
  · exact absurd (below_of_within less most' up up') (mem.2 second mem'.1)
  · rw [same, up', some.injEq] at up
    exact up.symm
  · exact absurd (below_of_within more most up' up) (mem'.2 first mem.1)

theorem waysOf_walk {roots : List ℕ} {depth : ℕ} (deep : 1 ≤ depth) (size : ℕ) :
    PlanUnit.ways p ctx { kind := .walk, roots, size, depth := some depth } n =
      roots.countP (p.graph.within depth · n.id) := by
  obtain ⟨less, rfl⟩ := Nat.exists_eq_add_of_le' deep
  rfl

/-- The root set that is walked, and the others. -/
theorem anchorIndex_lt (s : Settings) {clamps : List Clamp} (some' : clamps ≠ []) :
    p.anchorIndex s clamps < clamps.length := by
  have least := length_pos_iff.mpr some'
  have stays {choose : ℕ → ℕ → ℕ} (picks : ∀ best i, choose best i = i ∨ choose best i = best)
      (indices : List ℕ) : (∀ i ∈ indices, i < clamps.length) → ∀ best < clamps.length,
      indices.foldl choose best < clamps.length := by
    induction indices with
    | nil => exact fun _ best within => within
    | cons i rest ih =>
      intro all best within
      apply ih fun j mem => all j (mem_cons_of_mem _ mem)
      rcases picks best i with same | same
      · rw [same]
        exact all i mem_cons_self
      · rw [same]
        exact within
  refine stays (fun best i => ?_) _ (fun i mem => mem_range.mp mem) 0 least
  split
  · split
    · exact .inl rfl
    · exact .inr rfl
  · exact .inr rfl

theorem all_eraseIdx {clamps : List Clamp} {i : ℕ} {anchor : Clamp} (at' : clamps[i]? = some anchor)
    (test : Clamp → Bool) :
    clamps.all test = (test anchor && (clamps.eraseIdx i).all test) := by
  obtain ⟨within, rfl⟩ := List.getElem?_eq_some_iff.mp at'
  rw [← (getElem_cons_eraseIdx_perm within).all_eq, all_cons]

end

/-! ## The plan -/

/-- Units that answer each entity of a search's scope once and no other, or each edge of it. So
what they count comes to the number of matches. -/
structure Partitions (p : Provider) (q : Query) (clamps : List Clamp) (units : List PlanUnit) :
    Prop where
  once : ∀ n ∈ p.graph.nodes, ∀ edge,
    (units.map (PlanUnit.rows p (q.context p) · clamps n edge)).sum = if p.inScope q n then 1 else 0
  total : ∀ items : List (Node × ℕ), (∀ item ∈ items, item.1 ∈ p.graph.nodes) →
    (units.map fun u => (items.map fun item =>
      u.rows p (q.context p) clamps item.1 item.2).sum).sum =
        items.countP fun item => p.inScope q item.1

namespace Provider

variable (p : Provider) (s : Settings) (q : Query)

/-- Whether an entity carries a label of the search. -/
def searchable (n : Node) : Bool :=
  (p.allowed q).any (· ∈ n.labels)

/-- Whether an entity passes the search's test, inside its root sets. -/
def kept (clamps : List Clamp) (n : Node) : Bool :=
  n.urn.isSome && q.keeps n && clamps.all (·.holds p.graph n)

/-- Whether the plan for the canvas reaches an entity once: a label that holds it is read exactly
where one is searched, and its URN is named once. -/
def CanvasOnce (n : Node) (urn : String) : Prop :=
  (p.searchable q n = true ↔ p.counted.any (p.carries · n) = true) ∧
    (p.counted.any (p.carries · n) = true → q.scope.visibleUrns.count urn = 1)

/-- Whether the plan for a root set reaches an entity inside it once. One walk must reach it from
one root only, the walks of buckets from an outermost root. -/
def RootedOnce (anchor : Clamp) (n : Node) : Prop :=
  if p.probe s anchor ≤ p.limit s then
    p.searchable q n = true ∧ ∀ first ∈ anchor.roots, ∀ second ∈ anchor.roots,
      p.graph.within anchor.depth first n.id = true →
        p.graph.within anchor.depth second n.id = true → first = second
  else if anchor.roots.length ≤ clampMaxRoots then
    p.searchable q n = true ↔ p.readUnder p.labels.mergeSort n = true
  else
    p.searchable q n = true ↔
      ∃ root ∈ p.outermost anchor, p.graph.within anchor.depth root n.id = true

/-- Whether a plan reaches an entity that its search keeps once. -/
def Once (clamps : List Clamp) (n : Node) : Prop :=
  if q.onCanvas then ∀ urn ∈ n.urn, urn ∈ q.scope.visibleUrns → p.CanvasOnce q n urn
  else if p.rooted q then
    ∀ anchor ∈ clamps[p.anchorIndex s clamps]?, p.RootedOnce s q anchor n
  else
    p.searchable q n = true ↔ p.readUnder (p.labelsInScope q.scope.entityTypes) n = true

/-- Whether a plan reaches what its search keeps once. -/
def Exact : Prop :=
  ∀ clamps ∈ p.resolveClamps q, ∀ n ∈ p.graph.nodes, p.kept q clamps n = true → p.Once s q clamps n

end Provider

section

variable {p : Provider} {s : Settings} {q : Query} {units : List PlanUnit}

theorem sum_rows (once : ∀ n ∈ p.graph.nodes, ∀ edge,
    (units.map (PlanUnit.rows p (q.context p) · clamps n edge)).sum =
      if p.inScope q n then 1 else 0) (items : List (Node × ℕ)) :
    (∀ item ∈ items, item.1 ∈ p.graph.nodes) → (units.map fun u => (items.map fun item =>
        u.rows p (q.context p) clamps item.1 item.2).sum).sum =
          items.countP fun item => p.inScope q item.1 := by
  induction items with
  | nil =>
    intro _
    exact sum_eq_zero fun amount mem => by
      obtain ⟨u, -, rfl⟩ := mem_map.mp mem
      rfl
  | cons item rest ih =>
    intro all
    simp only [map_cons, sum_cons, sum_map_add]
    rw [once item.1 (all item mem_cons_self), ih fun other mem =>
      all other (mem_cons_of_mem _ mem), countP_cons, Nat.add_comm]

theorem Query.maxDepth_pos (q : Query) : 1 ≤ q.maxDepth := by
  unfold Query.maxDepth
  cases given : q.scope.maxDepth with
  | none => decide
  | some depth => exact q.scope.maxDepth_pos depth given

theorem rootSets_pos {set : List String × ℕ} (mem : set ∈ q.rootSets) : 1 ≤ set.2 := by
  rw [Query.rootSets, mem_append] at mem
  rcases mem with mem | mem
  · split at mem
    · rw [mem_singleton.mp mem]
      exact q.maxDepth_pos
    · exact absurd mem not_mem_nil
  · obtain ⟨hoisted, named, rfl⟩ := mem_map.mp mem
    cases given : hoisted.2 with
    | none =>
      exact q.maxDepth_pos
    | some depth =>
      exact q.hoisted_pos hoisted (mem_filter.mp named).1 depth given

/-- The root sets of a search are found without repeats, and reach below their roots. -/
theorem resolveClamps_spec (found : p.resolveClamps q = some clamps) :
    (∀ clamp ∈ clamps, clamp.roots.Nodup ∧ 1 ≤ clamp.depth) ∧
      (p.rooted q = true → clamps ≠ []) := by
  unfold Provider.resolveClamps at found
  split at found
  · next rooted =>
      rw [ParentTree.mapM_eq_some_iff] at found
      constructor
      · intro clamp mem
        have listed : some clamp ∈ clamps.map some := mem_map_of_mem mem
        rw [← found, List.mem_map] at listed
        obtain ⟨set, named, same⟩ := listed
        split at same
        · cases same
        · cases same
          exact ⟨nodup_sortedSet _, rootSets_pos named⟩
      · rintro - rfl
        rw [map_nil, map_eq_nil_iff] at found
        rw [Provider.rooted, found] at rooted
        cases rooted
  · next free =>
      cases found
      exact ⟨fun _ mem => absurd mem not_mem_nil, fun rooted => absurd rooted free⟩

theorem inScope_eq (found : p.resolveClamps q = some clamps) : p.inScope q n =
    (p.kept q clamps n && (p.searchable q n &&
      (!q.onCanvas || n.urn.any (· ∈ q.scope.visibleUrns)))) := by
  unfold Provider.inScope Provider.kept Provider.searchable
  rw [found]
  dsimp only
  cases q.keeps n <;> cases n.urn.isSome <;> cases clamps.all (·.holds p.graph n) <;>
    cases (p.allowed q).any (· ∈ n.labels) <;>
      cases !q.onCanvas || n.urn.any (· ∈ q.scope.visibleUrns) <;> rfl

theorem sum_weight (whole : ∀ u ∈ units, u.elo = none ∧ u.ehi = none) (espan edge : ℕ) :
    ((units.map (·.withEdges espan)).map (PlanUnit.weight p (q.context p) clamps n edge)).sum =
        if p.kept q clamps n then waysOf p (q.context p) n units else 0 := by
  rw [List.map_map]
  have each : ∀ u ∈ units, (PlanUnit.weight p (q.context p) clamps n edge ∘
      (·.withEdges espan)) u = if p.kept q clamps n then u.ways p (q.context p) n else 0 := by
    intro u mem
    obtain ⟨elo, ehi⟩ := whole u mem
    change (if p.kept q clamps n then (inBand u.elo u.ehi edge).toNat * u.ways p (q.context p) n
      else 0) = _
    rw [elo, ehi]
    change (if p.kept q clamps n then 1 * u.ways p (q.context p) n else 0) = _
    rw [Nat.one_mul]
  rw [map_congr_left each]
  split
  · rfl
  · exact sum_eq_zero fun amount mem => by
      obtain ⟨u, -, rfl⟩ := mem_map.mp mem
      rfl

/-! ## What a plan reaches -/

theorem labelUnits_whole {width total : ℕ} {earlier : List String} {label : String}
    {u : PlanUnit} (mem : u ∈ labelUnits p width total earlier label) :
    u.elo = none ∧ u.ehi = none := by
  unfold labelUnits at mem
  dsimp only at mem
  split at mem
  · exact absurd mem not_mem_nil
  · split at mem
    · rw [mem_singleton.mp mem]
      exact ⟨rfl, rfl⟩
    · obtain ⟨k, -, rfl⟩ := mem_map.mp mem
      exact ⟨rfl, rfl⟩

theorem rangeUnits_whole {width total : ℕ} {labels : List String} : ∀ {earlier},
    ∀ u ∈ rangeUnits p width total earlier labels, u.elo = none ∧ u.ehi = none := by
  induction labels with
  | nil => exact fun _ mem => absurd mem not_mem_nil
  | cons label rest ih =>
    intro earlier u mem
    rcases mem_append.mp mem with mem | mem
    · exact labelUnits_whole mem
    · exact ih u mem

theorem visibleUnits_whole {shown : ℕ} {labels : List String} : ∀ {earlier},
    ∀ u ∈ visibleUnits p shown earlier labels, u.elo = none ∧ u.ehi = none := by
  induction labels with
  | nil => exact fun _ mem => absurd mem not_mem_nil
  | cons label rest ih =>
    intro earlier u mem
    rcases mem_cons.mp mem with rfl | mem
    · exact ⟨rfl, rfl⟩
    · exact ih u mem

theorem waysOf_walks {depth : ℕ} (deep : 1 ≤ depth) (size : ℕ) (parts : List (List ℕ)) :
    waysOf p ctx n (parts.map fun roots =>
      { kind := .walk, roots, size, depth := some depth }) =
        parts.flatten.countP (p.graph.within depth · n.id) := by
  induction parts with
  | nil => rfl
  | cons roots rest ih =>
    rw [map_cons, flatten_cons, countP_append, ← ih, waysOf, map_cons, waysOf_walk deep]
    rfl

theorem sum_weight_walks {index : ℕ} {anchor : Clamp} (at' : clamps[index]? = some anchor)
    (whole : ∀ u ∈ units, u.elo = none ∧ u.ehi = none)
    (reached : waysOf p (q.context p) n units ≠ 0 → anchor.holds p.graph n = true)
    (espan edge : ℕ) :
    ((units.map (·.withEdges espan)).map
      (PlanUnit.weight p (q.context p) (clamps.eraseIdx index) n edge)).sum =
        if p.kept q clamps n then waysOf p (q.context p) n units else 0 := by
  rw [sum_weight whole]
  unfold Provider.kept
  rw [all_eraseIdx at']
  cases holds : anchor.holds p.graph n with
  | true => rw [Bool.true_and]
  | false =>
    have none : waysOf p (q.context p) n units = 0 := by
      by_contra some'
      rw [reached some'] at holds
      cases holds
    rw [none, ite_self, ite_self]

/-- How many ways the search's plan reaches an entity. -/
def planWays (p : Provider) (s : Settings) (q : Query) (n : Node) : ℕ :=
  waysOf p (q.context p) n (makePlan p s q).units

theorem sum_weight_makePlan (found : p.resolveClamps q = some clamps) (espan edge : ℕ) :
    (((makePlan p s q).units.map (·.withEdges espan)).map
      (PlanUnit.weight p (q.context p) (makePlan p s q).clamps n edge)).sum =
        if p.kept q clamps n then planWays p s q n else 0 := by
  obtain ⟨sound, some'⟩ := resolveClamps_spec found
  unfold planWays makePlan
  rw [found]
  dsimp only
  split
  · exact sum_weight visibleUnits_whole espan edge
  · split
    · next rooted =>
        have at' := getElem?_eq_getElem (anchorIndex_lt (p := p) s (some' rooted))
        have deep := (sound _ (mem_of_getElem? at')).2
        unfold rootedPlan
        dsimp only
        rw [at']
        dsimp only
        split
        · refine sum_weight_walks at' (fun u mem => ?_) (fun reached => ?_) espan edge
          · rw [mem_singleton.mp mem]
            exact ⟨rfl, rfl⟩
          · rw [waysOf, map_singleton, sum_singleton, waysOf_walk deep,
              ← Nat.pos_iff_ne_zero] at reached
            exact any_eq_true.mpr (countP_pos_iff.mp reached)
        · split
          · exact sum_weight rangeUnits_whole espan edge
          · refine sum_weight_walks at' (fun u mem => ?_) (fun reached => ?_) espan edge
            · obtain ⟨roots, -, rfl⟩ := mem_map.mp mem
              exact ⟨rfl, rfl⟩
            · rw [waysOf_walks deep, flatten_buckets, ← Nat.pos_iff_ne_zero,
                countP_pos_iff] at reached
              obtain ⟨root, mem, inside⟩ := reached
              exact any_eq_true.mpr ⟨root, (mem_outermost.mp mem).1, inside⟩
    · next free =>
        unfold Provider.resolveClamps at found
        rw [if_neg free] at found
        cases found
        exact sum_weight rangeUnits_whole espan edge

theorem rootedOnce_iff {index : ℕ} {anchor : Clamp} (at' : clamps[index]? = some anchor)
    (index_eq : index = p.anchorIndex s clamps) (nodup : anchor.roots.Nodup)
    (deep : 1 ≤ anchor.depth) (inside : anchor.holds p.graph n = true) :
    waysOf p ctx n (rootedPlan p s clamps).units = (p.searchable q n).toNat ↔
      p.RootedOnce s q anchor n := by
  unfold rootedPlan Provider.RootedOnce
  dsimp only
  rw [← index_eq, at']
  dsimp only
  split
  · rw [waysOf, map_singleton, sum_singleton, waysOf_walk deep, ← countP_le_one_iff nodup]
    have some' : 0 < anchor.roots.countP (p.graph.within anchor.depth · n.id) :=
      countP_pos_iff.mpr (any_eq_true.mp inside)
    cases p.searchable q n with
    | true =>
      rw [Bool.toNat_true, and_iff_right rfl]
      omega
    | false =>
      exact ⟨fun none => absurd none some'.ne', fun both => nomatch both.1⟩
  · split
    · rw [waysOf_rangeUnits s.width_pos, any_nil, Bool.not_false, Bool.true_and,
        ← Bool.eq_iff_iff]
      cases p.searchable q n <;> cases p.readUnder p.labels.mergeSort n <;> decide
    · rw [waysOf_walks deep, flatten_buckets]
      have few := outermost_unique (p := p) nodup n.id
      have reaches := countP_pos_iff (p := (p.graph.within anchor.depth · n.id))
        (l := p.outermost anchor)
      rw [← reaches]
      cases p.searchable q n with
      | true =>
        rw [Bool.toNat_true, iff_true_left rfl]
        omega
      | false =>
        rw [Bool.toNat_false, iff_false_left Bool.false_ne_true]
        omega

theorem canvasOnce_iff (urn : String) (shown : urn ∈ q.scope.visibleUrns) :
    (if p.counted.any (p.carries · n) then q.scope.visibleUrns.count urn else 0) =
      (p.searchable q n).toNat ↔ p.CanvasOnce q n urn := by
  have some' : q.scope.visibleUrns.count urn ≠ 0 := (count_pos_iff.mpr shown).ne'
  unfold Provider.CanvasOnce
  cases p.counted.any (p.carries · n) <;> cases p.searchable q n <;> simp [some']

theorem once_iff (found : p.resolveClamps q = some clamps) (keep : p.kept q clamps n = true) :
    planWays p s q n = (p.searchable q n &&
      (!q.onCanvas || n.urn.any (· ∈ q.scope.visibleUrns))).toNat ↔ p.Once s q clamps n := by
  obtain ⟨sound, some'⟩ := resolveClamps_spec found
  unfold planWays makePlan Provider.Once
  rw [found]
  dsimp only
  cases canvas : q.onCanvas with
  | true =>
    have visible : (q.context p).visible.getD [] = q.scope.visibleUrns := by
      rw [Query.onCanvas, Bool.and_eq_true, decide_eq_true_eq] at canvas
      rw [Query.context, if_pos canvas.1, getD_some]
    rw [if_pos rfl, if_pos rfl, waysOf_visibleUnits, any_nil, Bool.not_false, Bool.true_and,
      visible, Bool.not_true, Bool.false_or]
    cases n.urn with
    | none => simp
    | some urn =>
      rw [map_some, getD_some, any_some]
      by_cases shown : urn ∈ q.scope.visibleUrns
      · rw [decide_eq_true shown, Bool.and_true, canvasOnce_iff urn shown]
        simp [shown]
      · simp [shown, count_eq_zero_of_not_mem shown]
  | false =>
    rw [if_neg Bool.false_ne_true, if_neg Bool.false_ne_true, Bool.not_false, Bool.true_or,
      Bool.and_true]
    split
    · next rooted =>
        have at' := getElem?_eq_getElem (anchorIndex_lt (p := p) s (some' rooted))
        have holds := (Bool.and_eq_true_iff.mp keep).2
        rw [all_eraseIdx at', Bool.and_eq_true] at holds
        obtain ⟨nodup, deep⟩ := sound _ (mem_of_getElem? at')
        rw [rootedOnce_iff at' rfl nodup deep holds.1, at']
        simp only [mem_def, some.injEq, forall_eq']
    · rw [waysOf_rangeUnits s.width_pos, any_nil, Bool.not_false, Bool.true_and,
        ← Bool.eq_iff_iff]
      cases p.searchable q n <;>
        cases p.readUnder (p.labelsInScope q.scope.entityTypes) n <;> decide

theorem sum_rows_iff (p : Provider) (q : Query) (clamps : List Clamp) (n : Node) (edge : ℕ)
    (units : List PlanUnit) :
    (∀ after, Cuts (Replaced p (q.context p)) units after →
      (after.map (PlanUnit.rows p (q.context p) · clamps n edge)).sum =
        if p.inScope q n then 1 else 0) ↔
      (units.map (PlanUnit.weight p (q.context p) clamps n edge)).sum =
        if p.inScope q n then 1 else 0 :=
  Pieces.sum_counts_iff (fun _ _ cut => cut.weight_eq) (PlanUnit.number (q.context p))
    (fun _ heavy => exists_replaced heavy) (fun _ => PlanUnit.rows_le_weight clamps n edge)
    (fun _ some' => PlanUnit.rows_pos_of_weight_pos some') (by split <;> decide)

/-- A plan's units reach an entity as often as they should where the plan reaches what the search
keeps once. -/
theorem sum_weight_iff (found : p.resolveClamps q = some clamps) (espan edge : ℕ) :
    (((makePlan p s q).units.map (·.withEdges espan)).map
      (PlanUnit.weight p (q.context p) (makePlan p s q).clamps n edge)).sum =
        (if p.inScope q n then 1 else 0) ↔
      (p.kept q clamps n = true → p.Once s q clamps n) := by
  rw [sum_weight_makePlan found, inScope_eq found]
  cases keep : p.kept q clamps n with
  | true =>
    rw [imp_iff_right rfl, ← once_iff found keep]
    cases p.searchable q n && (!q.onCanvas || n.urn.any (· ∈ q.scope.visibleUrns)) <;> rfl
  | false =>
    exact iff_of_true rfl fun absurd => nomatch absurd

/-- A plan's units, and whatever they are replaced by, answer each match once exactly where the
plan reaches what the search keeps once. -/
theorem makePlan_partitions_iff (p : Provider) (s : Settings) (q : Query) (espan : ℕ) :
    (∀ units, Cuts (Replaced p (q.context p))
        ((makePlan p s q).units.map (·.withEdges espan)) units →
      Partitions p q (makePlan p s q).clamps units) ↔ p.Exact s q := by
  have each : (∀ units, Cuts (Replaced p (q.context p))
        ((makePlan p s q).units.map (·.withEdges espan)) units →
      Partitions p q (makePlan p s q).clamps units) ↔
      ∀ n ∈ p.graph.nodes, ∀ edge, (((makePlan p s q).units.map (·.withEdges espan)).map
        (PlanUnit.weight p (q.context p) (makePlan p s q).clamps n edge)).sum =
          if p.inScope q n then 1 else 0 := by
    constructor
    · intro all n mem edge
      rw [← sum_rows_iff]
      exact fun units cuts => (all units cuts).once n mem edge
    · intro all units cuts
      have once : ∀ n ∈ p.graph.nodes, ∀ edge, (units.map
          (PlanUnit.rows p (q.context p) · (makePlan p s q).clamps n edge)).sum =
            if p.inScope q n then 1 else 0 :=
        fun n mem edge => (sum_rows_iff ..).mpr (all n mem edge) units cuts
      exact ⟨once, sum_rows once⟩
  rw [each]
  unfold Provider.Exact
  cases found : p.resolveClamps q with
  | none =>
    refine iff_of_true (fun n _ edge => ?_) fun clamps mem => nomatch mem
    rw [makePlan, Provider.inScope, found]
    rfl
  | some clamps =>
    simp only [sum_weight_iff found, mem_def, some.injEq, forall_eq']
    exact forall₂_congr fun n _ => forall_const ℕ

end

/-! ## A root inside a root -/

def shop : Provider where
  graph :=
    { nodes := [⟨1, some "urn:store", ["Store"]⟩, ⟨2, some "urn:shelf", ["Shelf"]⟩]
      contains := [(1, 2)]
      one_parent := by decide
      forest := ⟨id, by decide⟩ }
  labels := ["Store", "Shelf"]
  levels := ["Store", "Shelf"]
  containment := true
  isalnum := Char.isAlphanum
  lower := String.toLower

/-- A search of a view whose roots are the store and the shelf. -/
def shopView : Query where
  scope :=
    { mode := .view, rootUrns := ["urn:store", "urn:shelf"]
      maxDepth_pos := fun _ mem => absurd mem (Option.not_mem_none _) }
  hoisted_pos _ mem := absurd mem List.not_mem_nil
  keeps _ := true

/-- The least that a search may read at once. -/
def smallSteps : Settings where
  width := 1000
  walkMax := 300000
  width_pos := Nat.succ_pos 999

/-- The store and the shelf are walked at once; in halves, the shelf is answered by both. -/
theorem not_partitions_shop : ¬ ∀ (p : Provider) (s : Settings) (q : Query) (espan : ℕ),
    ∀ units, Cuts (Replaced p (q.context p))
        ((makePlan p s q).units.map (·.withEdges espan)) units →
      Partitions p q (makePlan p s q).clamps units := by
  intro all
  have walk : (makePlan shop smallSteps shopView).units.map (·.withEdges 0) =
      [] ++ { kind := .walk, roots := [1, 2], size := 2, depth := some 12 } :: [] := by
    decide +kernel
  have start : Cuts (Replaced shop (shopView.context shop))
      ((makePlan shop smallSteps shopView).units.map (·.withEdges 0))
      ([] ++ { kind := .walk, roots := [1, 2], size := 2, depth := some 12 } :: []) :=
    walk ▸ .refl
  have twice := (all shop smallSteps shopView 0 _ (start.step (.split rfl))).once
    ⟨2, some "urn:shelf", ["Shelf"]⟩ (by decide) 0
  revert twice
  decide +kernel

end DataViz.Search
