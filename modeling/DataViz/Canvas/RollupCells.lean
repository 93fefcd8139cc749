/-
# The roll-up cells keep their own flows

`useEdgeProjection` takes from each cell the shares of the ends nearest under its ends and gives the
pairs back their own flows, those of no finer pair. The shares are filed under a text that joins the
two urns, and two pairs with one text share theirs.
-/

import DataViz.Data.Dict
import DataViz.Data.Forest
import Mathlib.Algebra.BigOperators.Ring.Finset
import Mathlib.Algebra.Order.BigOperators.Group.Finset
import Mathlib.Algebra.Order.Ring.Int
import Mathlib.Data.List.Find
import Mathlib.Tactic.Ring

namespace DataViz.Canvas.RollupCells

open List Option

structure AggregatedEdgeInfo where
  sourceUrn : String
  targetUrn : String
  edgeCount : ℤ

abbrev AggregatedEdgeInfo.pair (c : AggregatedEdgeInfo) : String × String :=
  (c.sourceUrn, c.targetUrn)

/-- `cellWeight`: a roll-up that does not say how many flows it stands for weighs one. -/
def cellWeight (c : AggregatedEdgeInfo) : ℤ :=
  if 0 < c.edgeCount then c.edgeCount else 1

def pairKey (pair : String × String) : String :=
  pair.1 ++ "->" ++ pair.2

section

variable (upPath : String → List String) (holds : String → Bool)
  (cells : List AggregatedEdgeInfo)

def ends : List String :=
  cells.flatMap fun c => [c.sourceUrn, c.targetUrn]

def nearestEnd (urn : String) : Option String :=
  ((upPath urn).find? (· ∈ ends cells)).filter holds

/-- What a cell adds to the shares, in the order of the calls of `share`. -/
def sharesOf (c : AggregatedEdgeInfo) : List ((String × String) × ℤ) :=
  let aboveT := nearestEnd upPath holds cells c.targetUrn
  let aboveS := nearestEnd upPath holds cells c.sourceUrn
  (aboveT.toList.map fun t => ((c.sourceUrn, t), cellWeight c)) ++
    (aboveS.toList.map fun s => ((s, c.targetUrn), cellWeight c)) ++
    aboveS.toList.flatMap fun s => aboveT.toList.map fun t => ((s, t), -cellWeight c)

def share (loaded : Dict String ℤ) (entry : (String × String) × ℤ) : Dict String ℤ :=
  loaded.set (pairKey entry.1) ((loaded.get? (pairKey entry.1)).getD 0 + entry.2)

def loadedShare : Dict String ℤ :=
  (cells.flatMap (sharesOf upPath holds cells)).foldl share []

def keptWeight (c : AggregatedEdgeInfo) : ℤ :=
  cellWeight c - ((loadedShare upPath holds cells).get? (pairKey c.pair)).getD 0

end

/-- What is filed under a text, share by share. -/
theorem get?_foldl_share (entries : List ((String × String) × ℤ)) (key : String) :
    ∀ loaded : Dict String ℤ, ((entries.foldl share loaded).get? key).getD 0 =
      (loaded.get? key).getD 0 +
        (entries.map fun entry => if pairKey entry.1 = key then entry.2 else 0).sum := by
  induction entries with
  | nil => simp
  | cons entry entries ih =>
    intro loaded
    rw [foldl_cons, ih, share, Dict.get?_set, map_cons, sum_cons, ← add_assoc]
    split
    next same => rw [same, getD_some]
    next => rw [add_zero]

section

variable (F : Forest String) (flows : List (String × String)) (marks : Finset String)

/-- The number of flows between the subtrees of two ends. -/
def flowsBetween (pair : String × String) : ℕ :=
  flows.countP fun flow => pair.1 ∈ F.path flow.1 ∧ pair.2 ∈ F.path flow.2

def ownFlows (pair : String × String) : ℕ :=
  flows.countP fun flow =>
    F.nearest marks flow.1 = some pair.1 ∧ F.nearest marks flow.2 = some pair.2

/-- The cells are those of a set of roll-up ends: one for each two ends with a flow between
their subtrees, and as heavy as these are many. -/
structure CellsOf (holds : String → Bool) (cells : List AggregatedEdgeInfo) : Prop where
  once : (cells.map (·.pair)).Nodup
  pairs : ∀ pair, pair ∈ cells.map (·.pair) ↔
    pair.1 ∈ marks ∧ pair.2 ∈ marks ∧ 0 < flowsBetween F flows pair
  weights : ∀ c ∈ cells, c.edgeCount = flowsBetween F flows c.pair
  stands : ∀ urn ∈ marks, holds urn = true

/-- Each cell is left its own flows, so that a flow between two subtrees is counted once and
what is left out had none. -/
structure KeepsOwn (holds : String → Bool) (cells : List AggregatedEdgeInfo) : Prop where
  own : ∀ c ∈ cells, keptWeight F.up holds cells c = ownFlows F flows marks c.pair
  once : (cells.map (keptWeight F.up holds cells)).sum = flows.countP fun flow =>
    (F.nearest marks flow.1).isSome ∧ (F.nearest marks flow.2).isSome

/-- Another pair of ends that is written as a cell's has no flow of a finer pair. -/
def Unmixed (cells : List AggregatedEdgeInfo) : Prop :=
  ∀ c ∈ cells, ∀ s ∈ marks, ∀ t ∈ marks, (s, t) ≠ c.pair → pairKey (s, t) = pairKey c.pair →
    ownFlows F flows marks (s, t) = flowsBetween F flows (s, t)

variable {F flows marks} {holds : String → Bool} {cells : List AggregatedEdgeInfo}

theorem countP_eq_sum (p : String × String → Prop) [DecidablePred p] :
    (flows.countP p : ℤ) = (flows.map fun flow => if p flow then (1 : ℤ) else 0).sum := by
  induction flows with
  | nil => rfl
  | cons flow flows ih =>
    rw [map_cons, sum_cons, ← ih]
    by_cases here : p flow <;> simp [here, add_comm]

def near (F : Forest String) (marks : Finset String) (a u : String) : ℤ :=
  if F.nearest marks u = some a then 1 else 0

theorem flowsBetween_eq (pair : String × String) : (flowsBetween F flows pair : ℤ) =
    (flows.map fun flow => F.below pair.1 flow.1 * F.below pair.2 flow.2).sum := by
  rw [flowsBetween, countP_eq_sum]
  congr 1
  refine map_congr_left fun flow _ => ?_
  by_cases first : pair.1 ∈ F.path flow.1 <;> simp [Forest.below, first]

theorem ownFlows_eq (pair : String × String) : (ownFlows F flows marks pair : ℤ) =
    (flows.map fun flow => near F marks pair.1 flow.1 * near F marks pair.2 flow.2).sum := by
  rw [ownFlows, countP_eq_sum]
  congr 1
  refine map_congr_left fun flow _ => ?_
  by_cases first : F.nearest marks flow.1 = some pair.1 <;> simp [near, first]

/-- What is filed under a pair: the flows between its subtrees that a finer pair has. -/
def mixed (F : Forest String) (flows : List (String × String)) (marks : Finset String)
    (pair : String × String) : ℤ :=
  flowsBetween F flows pair - ownFlows F flows marks pair

theorem ownFlows_le (pair : String × String) :
    ownFlows F flows marks pair ≤ flowsBetween F flows pair := by
  refine countP_mono_left fun flow _ own => ?_
  have inside {a u : String} (near : F.nearest marks u = some a) : a ∈ F.path u :=
    mem_of_find?_eq_some near
  simp only [decide_eq_true_eq] at own ⊢
  exact ⟨inside own.1, inside own.2⟩

theorem mixed_nonneg (pair : String × String) : 0 ≤ mixed F flows marks pair := by
  have fewer : ownFlows F flows marks pair ≤ _ := ownFlows_le pair
  rw [mixed]
  omega

/-- One for an end, and for one whose nearest end above is that end. -/
def isEnd (a b : String) : ℤ :=
  if b = a then 1 else 0

def hasAbove (F : Forest String) (marks : Finset String) (a b : String) : ℤ :=
  if F.nearestAbove marks b = some a then 1 else 0

/-- What a cell of a pair of ends files under another, for each flow it counts. -/
def coefficient (F : Forest String) (marks : Finset String) (pair under : String × String) : ℤ :=
  isEnd pair.1 under.1 * hasAbove F marks pair.2 under.2 +
    hasAbove F marks pair.1 under.1 * isEnd pair.2 under.2 -
    hasAbove F marks pair.1 under.1 * hasAbove F marks pair.2 under.2

theorem sum_mul_swap {ι : Type*} (index : Finset ι) (count : ι → String × String → ℤ)
    (factor : ι → ℤ) : ∑ i ∈ index, (flows.map (count i)).sum * factor i =
      (flows.map fun flow => ∑ i ∈ index, count i flow * factor i).sum := by
  induction flows with
  | nil => simp
  | cons flow flows ih => simp [add_mul, Finset.sum_add_distrib, ih]

theorem sum_product_mul (marks : Finset String) (x y p q : String → ℤ) :
    ∑ under ∈ marks ×ˢ marks, x under.1 * y under.2 * (p under.1 * q under.2) =
      (∑ s ∈ marks, x s * p s) * ∑ t ∈ marks, y t * q t := by
  rw [Finset.sum_mul_sum, Finset.sum_product]
  refine Finset.sum_congr rfl fun s _ => Finset.sum_congr rfl fun t _ => ?_
  ring

/-- A flow between two subtrees that a finer pair has is filed once. -/
theorem sum_coefficient {pair : String × String} (first : pair.1 ∈ marks)
    (second : pair.2 ∈ marks) (u v : String) :
    ∑ under ∈ marks ×ˢ marks,
        F.below under.1 u * F.below under.2 v * coefficient F marks pair under =
      F.below pair.1 u * F.below pair.2 v - near F marks pair.1 u * near F marks pair.2 v := by
  have own {a : String} (mem : a ∈ marks) (u : String) :
      ∑ s ∈ marks, F.below s u * isEnd a s = F.below a u := by
    simp [isEnd, mem]
  have rest {a : String} (mem : a ∈ marks) (u : String) :
      ∑ s ∈ marks, F.below s u * hasAbove F marks a s = F.below a u - near F marks a u := by
    rw [F.below_eq mem u, near]
    simp [hasAbove]
  have product := sum_product_mul marks (F.below · u) (F.below · v)
  simp only [coefficient, mul_add, mul_sub, Finset.sum_add_distrib, Finset.sum_sub_distrib]
  rw [product (isEnd pair.1) (hasAbove F marks pair.2),
    product (hasAbove F marks pair.1) (isEnd pair.2),
    product (hasAbove F marks pair.1) (hasAbove F marks pair.2),
    own first, own second, rest first, rest second]
  ring

def filed (entries : List ((String × String) × ℤ)) (pair : String × String) : ℤ :=
  (entries.map fun entry => if entry.1 = pair then entry.2 else 0).sum

namespace CellsOf

variable (cellsOf : CellsOf F flows marks holds cells)
include cellsOf

theorem sum_cells (value : String × String → ℤ)
    (silent : ∀ pair, flowsBetween F flows pair = 0 → value pair = 0) :
    (cells.map fun c => value c.pair).sum = ∑ pair ∈ marks ×ˢ marks, value pair := by
  have list := sum_toFinset value cellsOf.once
  rw [List.map_map] at list
  refine list.symm.trans (Finset.sum_subset (fun pair mem => ?_) fun pair mem absent => ?_)
  · have cell := (cellsOf.pairs pair).mp (mem_toFinset.mp mem)
    exact Finset.mem_product.mpr ⟨cell.1, cell.2.1⟩
  · have mem := Finset.mem_product.mp mem
    refine silent pair (Nat.eq_zero_of_not_pos fun flows => absent (mem_toFinset.mpr ?_))
    exact (cellsOf.pairs pair).mpr ⟨mem.1, mem.2, flows⟩

theorem cellWeight_eq {c : AggregatedEdgeInfo} (mem : c ∈ cells) :
    cellWeight c = flowsBetween F flows c.pair := by
  have positive := ((cellsOf.pairs c.pair).mp (mem_map_of_mem mem)).2.2
  rw [cellWeight, cellsOf.weights c mem, if_pos (by omega)]

theorem mem_ends_iff {urn above : String} (mem : urn ∈ ends cells) (up : above ∈ F.up urn) :
    above ∈ ends cells ↔ above ∈ marks := by
  have more (pair pair' : String × String) (first : pair'.1 ∈ F.path pair.1)
      (second : pair'.2 ∈ F.path pair.2) (flowing : 0 < flowsBetween F flows pair) :
      0 < flowsBetween F flows pair' := by
    refine flowing.trans_le (countP_mono_left fun flow _ inside => ?_)
    simp only [decide_eq_true_eq] at inside ⊢
    exact ⟨F.mem_path_trans inside.1 first, F.mem_path_trans inside.2 second⟩
  obtain ⟨c, memC, isEnd⟩ := mem_flatMap.mp mem
  have cell := (cellsOf.pairs c.pair).mp (mem_map_of_mem memC)
  constructor
  · intro mem
    obtain ⟨c, memC, isEnd⟩ := mem_flatMap.mp mem
    have cell := (cellsOf.pairs c.pair).mp (mem_map_of_mem memC)
    obtain rfl | rfl : above = c.sourceUrn ∨ above = c.targetUrn := by simpa using isEnd
    · exact cell.1
    · exact cell.2.1
  · intro marked
    have up : above ∈ F.path urn := mem_cons_of_mem _ up
    obtain rfl | rfl : urn = c.sourceUrn ∨ urn = c.targetUrn := by simpa using isEnd
    · have higher := more c.pair (above, c.targetUrn) up F.mem_path_self cell.2.2
      obtain ⟨found, memFound, same⟩ := mem_map.mp
        ((cellsOf.pairs (above, c.targetUrn)).mpr ⟨marked, cell.2.1, higher⟩)
      exact mem_flatMap.mpr ⟨found, memFound, by simp [(Prod.mk.inj same).1]⟩
    · have higher := more c.pair (c.sourceUrn, above) F.mem_path_self up cell.2.2
      obtain ⟨found, memFound, same⟩ := mem_map.mp
        ((cellsOf.pairs (c.sourceUrn, above)).mpr ⟨cell.1, marked, higher⟩)
      exact mem_flatMap.mpr ⟨found, memFound, by simp [(Prod.mk.inj same).2]⟩

theorem nearestEnd_eq {urn : String} (mem : urn ∈ ends cells) :
    nearestEnd F.up holds cells urn = F.nearestAbove marks urn := by
  have same : (F.up urn).find? (· ∈ ends cells) = (F.up urn).find? (· ∈ marks) :=
    find?_congr fun above up => decide_eq_decide.mpr (cellsOf.mem_ends_iff mem up)
  rw [nearestEnd, same, Forest.nearestAbove]
  cases found : (F.up urn).find? (· ∈ marks) with
  | none => rfl
  | some above =>
    have marked : above ∈ marks := by simpa using find?_some found
    rw [filter_some, if_pos (cellsOf.stands above marked)]

theorem filed_eq {pair : String × String} (first : pair.1 ∈ marks) (second : pair.2 ∈ marks) :
    filed (cells.flatMap (sharesOf F.up holds cells)) pair = mixed F flows marks pair := by
  have cell (c : AggregatedEdgeInfo) (mem : c ∈ cells) : filed (sharesOf F.up holds cells c) pair =
        flowsBetween F flows c.pair * coefficient F marks pair c.pair := by
    have source := cellsOf.nearestEnd_eq
      (mem_flatMap.mpr ⟨c, mem, mem_cons_self⟩ : c.sourceUrn ∈ ends cells)
    have target := cellsOf.nearestEnd_eq
      (mem_flatMap.mpr ⟨c, mem, by simp⟩ : c.targetUrn ∈ ends cells)
    rw [sharesOf, source, target, cellsOf.cellWeight_eq mem]
    obtain ⟨a, b⟩ := pair
    cases aboveS : F.nearestAbove marks c.sourceUrn <;>
      cases aboveT : F.nearestAbove marks c.targetUrn <;>
        simp only [filed, coefficient, isEnd, hasAbove, aboveS, aboveT, toList_none,
          toList_some, map_nil, map_cons, flatMap_nil, flatMap_cons,
          append_nil, nil_append, cons_append, sum_cons, sum_nil,
          Prod.mk.injEq, some.injEq, reduceCtorEq, if_false]
    all_goals grind
  have list : filed (cells.flatMap (sharesOf F.up holds cells)) pair = (cells.map fun c =>
      (flowsBetween F flows c.pair : ℤ) * coefficient F marks pair c.pair).sum := by
    rw [filed, map_flatMap, List.flatMap, sum_flatten, List.map_map]
    congr 1
    exact map_congr_left cell
  rw [list, cellsOf.sum_cells
    (fun under => flowsBetween F flows under * coefficient F marks pair under)
    (by simp +contextual)]
  simp only [flowsBetween_eq, sum_mul_swap, sum_coefficient first second, mixed, ownFlows_eq]
  rw [eq_sub_iff_add_eq, ← sum_map_add]
  simp only [sub_add_cancel]

theorem filed_mem {entry : (String × String) × ℤ}
    (mem : entry ∈ cells.flatMap (sharesOf F.up holds cells)) : entry.1 ∈ marks ×ˢ marks := by
  obtain ⟨c, mem, entry'⟩ := mem_flatMap.mp mem
  have cell := (cellsOf.pairs c.pair).mp (mem_map_of_mem mem)
  have above {urn a : String} (near : a ∈ (nearestEnd F.up holds cells urn).toList)
      (isEnd : urn ∈ ends cells) : a ∈ marks := by
    rw [cellsOf.nearestEnd_eq isEnd, mem_toList] at near
    simpa using find?_some near
  have source : c.sourceUrn ∈ ends cells := mem_flatMap.mpr ⟨c, mem, mem_cons_self⟩
  have target : c.targetUrn ∈ ends cells := mem_flatMap.mpr ⟨c, mem, by simp⟩
  simp only [sharesOf, mem_append, List.mem_map, mem_flatMap] at entry'
  rw [Finset.mem_product]
  obtain (⟨t, near, rfl⟩ | ⟨s, near, rfl⟩) | ⟨s, near, t, near', rfl⟩ := entry'
  · exact ⟨cell.1, above near target⟩
  · exact ⟨above near source, cell.2.1⟩
  · exact ⟨above near source, above near' target⟩

/-- What is filed under a text is what is filed under the pairs written so. -/
theorem loadedShare_eq (key : String) : ((loadedShare F.up holds cells).get? key).getD 0 =
      ∑ pair ∈ marks ×ˢ marks, if pairKey pair = key then mixed F flows marks pair else 0 := by
  have apart (entries : List ((String × String) × ℤ))
      (inside : ∀ entry ∈ entries, entry.1 ∈ marks ×ˢ marks) :
      (entries.map fun entry => if pairKey entry.1 = key then entry.2 else 0).sum =
        ∑ pair ∈ marks ×ˢ marks, if pairKey pair = key then filed entries pair else 0 := by
    induction entries with
    | nil => simp [filed]
    | cons entry entries ih =>
      have both (pair : String × String) :
          (if pairKey pair = key then filed (entry :: entries) pair else 0) =
            (if entry.1 = pair then if pairKey entry.1 = key then entry.2 else 0 else 0) +
              if pairKey pair = key then filed entries pair else 0 := by
        rw [filed, map_cons, sum_cons, ← filed]
        by_cases same : entry.1 = pair
        · subst same
          split <;> simp
        · simp [same]
      simp only [both]
      rw [Finset.sum_add_distrib, Finset.sum_ite_eq, if_pos (inside entry mem_cons_self),
        map_cons, sum_cons,
        ih fun later mem => inside later (mem_cons_of_mem _ mem)]
  rw [loadedShare, get?_foldl_share, Dict.get?_nil, getD_none, zero_add,
    apart _ fun entry mem => cellsOf.filed_mem mem]
  refine Finset.sum_congr rfl fun pair mem => ?_
  have mem := Finset.mem_product.mp mem
  rw [cellsOf.filed_eq mem.1 mem.2]

theorem keptWeight_eq {c : AggregatedEdgeInfo} (mem : c ∈ cells) :
    keptWeight F.up holds cells c = ownFlows F flows marks c.pair -
      ∑ pair ∈ (marks ×ˢ marks).erase c.pair,
        if pairKey pair = pairKey c.pair then mixed F flows marks pair else 0 := by
  have cell := (cellsOf.pairs c.pair).mp (mem_map_of_mem mem)
  have here : c.pair ∈ marks ×ˢ marks := Finset.mem_product.mpr ⟨cell.1, cell.2.1⟩
  rw [keptWeight, cellsOf.cellWeight_eq mem, cellsOf.loadedShare_eq,
    ← Finset.add_sum_erase _ _ here, if_pos rfl, mixed]
  ring

omit cellsOf in
theorem sum_own : ∑ pair ∈ marks ×ˢ marks, (ownFlows F flows marks pair : ℤ) =
    flows.countP fun flow =>
      (F.nearest marks flow.1).isSome ∧ (F.nearest marks flow.2).isSome := by
  have one (u : String) : ∑ a ∈ marks, near F marks a u * 1 =
      if (F.nearest marks u).isSome then 1 else 0 := by
    cases found : F.nearest marks u with
    | none => simp [near, found]
    | some a =>
      have marked : a ∈ marks := by simpa using find?_some found
      simp [near, found, marked]
  have counted (flow : String × String) : ∑ pair ∈ marks ×ˢ marks,
      near F marks pair.1 flow.1 * near F marks pair.2 flow.2 * (1 * 1) =
        if (F.nearest marks flow.1).isSome ∧ (F.nearest marks flow.2).isSome then 1 else 0 := by
    rw [sum_product_mul marks (near F marks · flow.1) (near F marks · flow.2) (fun _ => 1)
      fun _ => 1, one, one]
    by_cases first : (F.nearest marks flow.1).isSome <;> simp [first]
  calc ∑ pair ∈ marks ×ˢ marks, (ownFlows F flows marks pair : ℤ)
      = ∑ pair ∈ marks ×ˢ marks, (flows.map fun flow =>
          near F marks pair.1 flow.1 * near F marks pair.2 flow.2).sum * (1 * 1) := by
        simp only [ownFlows_eq, mul_one]
    _ = (flows.map fun flow => ∑ pair ∈ marks ×ˢ marks,
          near F marks pair.1 flow.1 * near F marks pair.2 flow.2 * (1 * 1)).sum :=
        sum_mul_swap _ _ _
    _ = _ := by
        rw [countP_eq_sum]
        congr 1
        exact map_congr_left fun flow _ => counted flow

end CellsOf

/-- For every forest, flows and roll-up ends that all stand for what is under them, each
cell is left its own flows just when no other pair of ends written like it has flows of a
finer pair. -/
theorem keepsOwn_iff (cellsOf : CellsOf F flows marks holds cells) :
    KeepsOwn F flows marks holds cells ↔ Unmixed F flows marks cells := by
  have clean (c : AggregatedEdgeInfo) (mem : c ∈ cells) :
      keptWeight F.up holds cells c = ownFlows F flows marks c.pair ↔
        ∀ s ∈ marks, ∀ t ∈ marks, (s, t) ≠ c.pair → pairKey (s, t) = pairKey c.pair →
          ownFlows F flows marks (s, t) = flowsBetween F flows (s, t) := by
    rw [cellsOf.keptWeight_eq mem, sub_eq_self, Finset.sum_eq_zero_iff_of_nonneg]
    · constructor
      · intro all s first t second ne same
        have none := all (s, t) (Finset.mem_erase.mpr ⟨ne, Finset.mem_product.mpr ⟨first, second⟩⟩)
        rw [if_pos same, mixed] at none
        omega
      · intro all pair here
        obtain ⟨ne, here⟩ := Finset.mem_erase.mp here
        have here := Finset.mem_product.mp here
        split
        next same => rw [mixed, all _ here.1 _ here.2 ne same, sub_self]
        next => rfl
    · intro pair _
      split
      · exact mixed_nonneg pair
      · exact le_rfl
  constructor
  · intro keeps c mem
    exact (clean c mem).mp (keeps.own c mem)
  · intro unmixed
    have own := fun c mem => (clean c mem).mpr (unmixed c mem)
    refine ⟨own, ?_⟩
    rw [← CellsOf.sum_own, ← cellsOf.sum_cells]
    · congr 1
      exact map_congr_left own
    · intro pair none
      have fewer : ownFlows F flows marks pair ≤ _ := ownFlows_le pair
      omega

end

def arrows : Forest String where
  up urn := if urn = "x" then ["a->b"] else []
  up_tail := by
    intro u p rest above
    split at above
    · cases above
      rfl
    · cases above

def arrowFlows : List (String × String) :=
  [("a", "b->c"), ("x", "c")]

def arrowEnds : Finset String :=
  {"a", "b->c", "a->b", "c", "x"}

def arrowCells : List AggregatedEdgeInfo :=
  [⟨"a", "b->c", 1⟩, ⟨"a->b", "c", 1⟩, ⟨"x", "c", 1⟩]

theorem arrows_cellsOf : CellsOf arrows arrowFlows arrowEnds (fun _ => true) arrowCells where
  once := by decide
  weights := by decide
  stands _ _ := rfl
  pairs := by
    intro pair
    have ofEnds : ∀ s ∈ arrowEnds, ∀ t ∈ arrowEnds, 0 < flowsBetween arrows arrowFlows (s, t) →
        (s, t) ∈ arrowCells.map (·.pair) := by decide +kernel
    have ofCells : ∀ pair ∈ arrowCells.map (·.pair), pair.1 ∈ arrowEnds ∧ pair.2 ∈ arrowEnds ∧
        0 < flowsBetween arrows arrowFlows pair := by decide +kernel
    exact ⟨ofCells pair, fun cell => ofEnds _ cell.1 _ cell.2.1 cell.2.2⟩

theorem keepsOwn_iff_arrows : KeepsOwn arrows arrowFlows arrowEnds (fun _ => true) arrowCells ↔
    Unmixed arrows arrowFlows arrowEnds arrowCells :=
  keepsOwn_iff arrows_cellsOf

/-- The cell of `a` and `b->c` loses its flow to what `a->b` and `c` share with a column. -/
theorem arrows_not_keepsOwn : ¬ ∀ (F : Forest String) (flows : List (String × String))
    (marks : Finset String) (holds : String → Bool) (cells : List AggregatedEdgeInfo),
    CellsOf F flows marks holds cells → KeepsOwn F flows marks holds cells := by
  intro all
  have own := (all _ _ _ _ _ arrows_cellsOf).own ⟨"a", "b->c", 1⟩ mem_cons_self
  exact absurd own (by decide +kernel)

/-- What section A leaves a cell does not depend on the order in which the cells arrived, also
where the texts of different pairs are the same. -/
theorem keptWeight_perm {cells cells' : List AggregatedEdgeInfo} (reordered : cells.Perm cells')
    (c : AggregatedEdgeInfo) :
    keptWeight upPath holds cells c = keptWeight upPath holds cells' c := by
  have same : sharesOf upPath holds cells = sharesOf upPath holds cells' := by
    have ends_ (urn : String) : urn ∈ ends cells ↔ urn ∈ ends cells' :=
      (reordered.flatMap_right _).mem_iff
    have nearest : nearestEnd upPath holds cells = nearestEnd upPath holds cells' := by
      funext urn
      simp only [nearestEnd, ends_]
    funext c
    rw [sharesOf, sharesOf, nearest]
  have filed := ((reordered.flatMap_right (sharesOf upPath holds cells')).map
    fun entry => if pairKey entry.1 = pairKey c.pair then entry.2 else 0).sum_eq
  rw [keptWeight, keptWeight, loadedShare, loadedShare, get?_foldl_share, get?_foldl_share, same,
    filed]

/-- The cells of two pairs that are written alike, the other way round. -/
theorem keptWeight_perm_arrows : keptWeight arrows.up (fun _ => true) arrowCells ⟨"x", "c", 1⟩ =
    keptWeight arrows.up (fun _ => true) arrowCells.reverse ⟨"x", "c", 1⟩ :=
  keptWeight_perm arrowCells.reverse_perm.symm _

end DataViz.Canvas.RollupCells
