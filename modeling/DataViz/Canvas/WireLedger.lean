/-
# The wires state every flow once

`traceWireLedger.ts`: `buildLedger` counts the raw hops inside each pair, and
`accountRollups` takes from each cell what these and the finer cells already state. All
is filed under the text of a pair, and a walk up stops at an empty urn.
-/

import DataViz.Canvas.RollupCells
import DataViz.Data.Counts
import DataViz.Data.JsonReader
import Mathlib.Data.List.Lex
import Mathlib.Data.List.ProdSigma

namespace DataViz.Canvas.WireLedger

open List

open RollupCells (flowsBetween ownFlows)

def pairKey (pair : String × String) : String :=
  pair.1 ++ ">" ++ pair.2

section

variable (containment : List (String × String))

/-- `modelParentOf`: of the edges to a child, the first one wins. -/
def parentOf (urn : String) : Option String :=
  (containment.find? (·.2 = urn)).map (·.1)

/-- The loop of `ancestorWalker`. -/
def climb : ℕ → List String → Option String → List String
  | n + 1, out, some cursor =>
    if cursor = "" ∨ cursor ∈ out then out
    else climb n (out ++ [cursor]) (parentOf containment cursor)
  | _, out, _ => out

/-- A walk takes each edge once, for it stops where it has been. -/
def ancestorsOrSelf (urn : String) : List String :=
  climb containment (containment.length + 1) [] (some urn)

def pairsAbove (pair : String × String) : List (String × String) :=
  ancestorsOrSelf containment pair.1 ×ˢ ancestorsOrSelf containment pair.2

/-- The pairs that `askedPairs` leaves in the index. -/
def wanted (asked : Option (List (String × String))) (pair : String × String) : Bool :=
  asked.all fun pairs => pair.1 ∈ pairs.map (·.1) ∧ pair.2 ∈ pairs.map (·.2) ∧
    pairKey pair ∈ pairs.map pairKey

/-- `partial` is `inPart`. -/
inductive PairState
  | complete | inPart | none
  deriving DecidableEq

structure PairLedger where
  state : String × String → PairState
  rawCount : String × String → ℕ

def cone (edges : List (String × String)) (asked : Option (List (String × String))) :
    Dict String ℕ :=
  Dict.addAll [] (edges.flatMap fun edge =>
    ((pairsAbove containment edge).filter (wanted asked)).map fun pair => (pairKey pair, 1))

def buildLedger (completePairs : Option (List String)) (edges : List (String × String))
    (asked : Option (List (String × String))) : PairLedger :=
  let rawCount pair := (cone containment edges asked).amount (pairKey pair)
  { rawCount
    state := fun pair => match completePairs with
      | none => if 0 < rawCount pair then .complete else .none
      | some keys =>
        if pairKey pair ∈ keys then .complete
        else if 0 < rawCount pair then .inPart else .none }

structure RollupCell where
  source : String
  target : String
  weight : ℕ

abbrev RollupCell.pair (c : RollupCell) : String × String :=
  (c.source, c.target)

abbrev RollupCell.key (c : RollupCell) : String :=
  pairKey c.pair

inductive WireKind
  | rollup | residual

structure AccountedRollup where
  source : String
  target : String
  count : ℕ
  kind : WireKind

def addCell (byPair : Dict String RollupCell) (c : RollupCell) : Dict String RollupCell :=
  match byPair.get? c.key with
  | some seen => byPair.set c.key { seen with weight := seen.weight + c.weight }
  | none => byPair.set c.key c

def depthOf (c : RollupCell) : ℤ :=
  (ancestorsOrSelf containment c.source).length - 1 +
    ((ancestorsOrSelf containment c.target).length - 1)

/-- The order of the cells: the deepest first, and those of one depth by their texts. -/
def before (a b : String × RollupCell) : Bool :=
  depthOf containment b.2 < depthOf containment a.2 ∨
    depthOf containment a.2 = depthOf containment b.2 ∧
      a.1.toList.flatMap JsonReader.unitsOf ≤ b.1.toList.flatMap JsonReader.unitsOf

structure Accounting where
  innerStated : Dict String ℕ
  out : Dict String AccountedRollup

/-- What a cell still says. One with nothing left to say, or less, says zero. -/
def stated (floor : Bool) (weight raw inner : ℕ) : ℕ × WireKind :=
  if inner = 0 then
    if 0 < raw then (if floor then max 1 (weight - raw) else weight - raw, .residual)
    else (weight, .rollup)
  else (weight - (raw + inner), .residual)

def account (ledger : PairLedger) (floor : Bool) (s : Accounting)
    (entry : String × RollupCell) : Accounting :=
  let cell := entry.2
  let raw := ledger.rawCount cell.pair
  if 0 < raw ∧ ledger.state cell.pair = .complete then s
  else
    let statement := stated floor cell.weight raw (s.innerStated.amount entry.1)
    if statement.1 = 0 then s
    else
      { innerStated := s.innerStated.addAll
          (((pairsAbove containment cell.pair).filter (· ≠ cell.pair)).map fun above =>
            (pairKey above, statement.1))
        out := s.out.set entry.1 ⟨cell.source, cell.target, statement.1, statement.2⟩ }

def accountRollups (cells : List RollupCell) (ledger : PairLedger) (floor : Bool := true) :
    Dict String AccountedRollup :=
  (((cells.foldl addCell []).mergeSort (before containment)).foldl
    (account containment ledger floor) ⟨[], []⟩).out

end

section

variable {F : Forest String} {containment : List (String × String)}

/-- The way up, as far as the urns are not empty. -/
def walked (F : Forest String) (urn : String) : List String :=
  (F.path urn).takeWhile (· ≠ "")

section

variable (draws : ∀ urn, parentOf containment urn = (F.up urn).head?)
include draws

theorem climb_eq (n : ℕ) (urn : String) (out : List String) (enough : (F.path urn).length ≤ n)
    (fresh : ∀ a ∈ F.path urn, a ∉ out) :
    climb containment n out (some urn) = out ++ walked F urn := by
  induction urn using F.induct generalizing n out with
  | root urn none =>
    obtain - | n := n
    · simp [Forest.path] at enough
    · have ends : parentOf containment urn = .none := by rw [draws, none]; rfl
      have new := fresh urn F.mem_path_self
      by_cases empty : urn = "" <;> cases n <;>
        simp [climb, walked, Forest.path, none, ends, new, empty]
  | child urn p parent ih =>
    have up : parentOf containment urn = some p := by rw [draws, parent]; rfl
    rw [Forest.path, parent] at enough fresh
    obtain - | n := n
    · cases enough
    · have new := fresh urn mem_cons_self
      have shorter : (F.path p).length ≤ n := Nat.le_of_succ_le_succ enough
      have rest := ih n (out ++ [urn]) shorter fun a mem old => by
        obtain old | same := mem_append.mp old
        · exact fresh a (mem_cons_of_mem _ mem) old
        · rw [mem_singleton.mp same] at mem
          exact F.notMem_up (parent ▸ mem)
      rw [climb, walked, Forest.path, parent, up, rest]
      by_cases empty : urn = ""
      · simp [empty]
      · simp [empty, new, walked]

theorem ancestorsOrSelf_eq (urn : String) : ancestorsOrSelf containment urn = walked F urn := by
  have parents (urn : String) : F.up urn ⊆ containment.map (·.1) := by
    induction urn using F.induct with
    | root urn none => rw [none]; exact nil_subset _
    | child urn p parent ih =>
      rw [parent]
      refine cons_subset.mpr ⟨?_, ih⟩
      have up : parentOf containment urn = some p := by rw [draws, parent]; rfl
      obtain ⟨edge, found, rfl⟩ := Option.map_eq_some_iff.mp up
      exact mem_map_of_mem (mem_of_find?_eq_some found)
  have short := (subperm_of_subset (nodup_cons.mp F.nodup_path).2 (parents urn)).length_le
  rw [ancestorsOrSelf, climb_eq draws _ _ _ _ fun _ _ => not_mem_nil, nil_append]
  simpa [Forest.path] using short

end

/-- What is on the way up has less way to go. -/
theorem length_walked_le {a urn : String} (mem : a ∈ walked F urn) :
    (walked F a).length ≤ (walked F urn).length ∧
      (a ≠ urn → (walked F a).length < (walked F urn).length) := by
  induction urn using F.induct with
  | root urn none =>
    have same : a = urn := by
      simpa [Forest.path, none] using (takeWhile_sublist _).subset mem
    exact ⟨same ▸ le_rfl, fun apart => absurd same apart⟩
  | child urn p parent ih =>
    by_cases same : a = urn
    · exact ⟨same ▸ le_rfl, fun apart => absurd same apart⟩
    · by_cases empty : urn = ""
      · simp [walked, Forest.path, empty] at mem
      · have cons : walked F urn = urn :: walked F p := by
          simp [walked, Forest.path.eq_1 F urn, parent, empty]
        rw [cons, length_cons]
        have higher := (ih ((mem_cons.mp (cons ▸ mem)).resolve_left same)).1
        exact ⟨by omega, fun _ => by omega⟩

end

section

variable (F : Forest String) (raw rest : List (String × String)) (marks : Finset String)
  (cells : List RollupCell)

abbrev Inside (c d : RollupCell) : Prop :=
  c.source ∈ F.path d.source ∧ c.target ∈ F.path d.target

/-- The cells are the pairs of visible nodes, none in the other, with a flow between their
subtrees, and as heavy as these are many. -/
structure CellsOf : Prop where
  once : (cells.map (·.pair)).Nodup
  pairs : ∀ pair, pair ∈ cells.map (·.pair) ↔ pair.1 ∈ marks ∧ pair.2 ∈ marks ∧
    pair.1 ∉ F.path pair.2 ∧ pair.2 ∉ F.path pair.1 ∧ 0 < flowsBetween F (raw ++ rest) pair
  weights : ∀ c ∈ cells, c.weight = flowsBetween F (raw ++ rest) c.pair

/-- The pairs at or above a pair, as far up as the urns are not empty. -/
def walkedPairs (pair : String × String) : List (String × String) :=
  walked F pair.1 ×ˢ walked F pair.2

/-- The cells that have flows of their own, which no raw hop states. -/
def speaking : List (String × String) :=
  (cells.map (·.pair)).filter fun pair => ownFlows F rest marks pair ≠ 0

/-- The walks up from a raw hop, and from a cell with flows of its own, reach the cells that
hold it, and come by no other pair that is written as a cell's: no cell is, and, of the pairs
that are asked for, none above a raw hop. -/
structure Legible (asked : Option (List (String × String))) : Prop where
  reached : ∀ c ∈ cells, ∀ pair ∈ raw ++ speaking F rest marks cells,
    c.source ∈ F.path pair.1 → c.target ∈ F.path pair.2 → c.pair ∈ walkedPairs F pair
  once : (cells.map (·.key)).Nodup
  hops : ∀ c ∈ cells, ∀ hop ∈ raw, ∀ pair ∈ walkedPairs F hop, wanted asked pair = true →
    pairKey pair = c.key → pair = c.pair
  inner : ∀ c ∈ cells, ∀ cell ∈ speaking F rest marks cells, ∀ pair ∈ walkedPairs F cell,
    pairKey pair = c.key → pair = c.pair

/-- The ledger counts the raw hops and is asked about the cells, and a cell it calls complete
holds all its flows raw. -/
structure Given (containment : List (String × String)) (completePairs : Option (List String))
    (asked : Option (List (String × String))) : Prop extends
    CellsOf F raw rest marks cells where
  draws : ∀ urn, parentOf containment urn = (F.up urn).head?
  asks : ∀ pairs ∈ asked, ∀ c ∈ cells, c.pair ∈ pairs
  vouched : ∀ c ∈ cells,
    (buildLedger containment completePairs raw asked).state c.pair = .complete →
      flowsBetween F rest c.pair = 0

def countOf (out : Dict String AccountedRollup) (pair : String × String) : ℕ :=
  ((out.get? (pairKey pair)).map (·.count)).getD 0

/-- A cell states the flows not held raw that no finer pair has, so that inside a cell what
is held raw and what is stated add up. -/
structure StatesOnce (out : Dict String AccountedRollup) : Prop where
  own : ∀ c ∈ cells, (out.get? c.key).map (fun w => ((w.source, w.target), w.count)) =
    if ownFlows F rest marks c.pair = 0 then none
    else some (c.pair, ownFlows F rest marks c.pair)
  only : ∀ key ∈ out.keys, key ∈ cells.map (·.key)
  adds : ∀ c ∈ cells, flowsBetween F raw c.pair +
    ((cells.filter (Inside F c ·)).map fun d => countOf out d.pair).sum = c.weight

variable {F raw rest marks cells}

theorem flowsBetween_append (pair : String × String) : flowsBetween F (raw ++ rest) pair =
    flowsBetween F raw pair + flowsBetween F rest pair :=
  countP_append

theorem CellsOf.sum_own (cellsOf : CellsOf F raw rest marks cells) {c : RollupCell}
    (mem : c ∈ cells) : ((cells.filter (Inside F c ·)).map fun d =>
      ownFlows F rest marks d.pair).sum = flowsBetween F rest c.pair := by
  have cell := (cellsOf.pairs c.pair).mp (mem_map_of_mem mem)
  have all : ∀ more ⊆ raw ++ rest, ((cells.filter (Inside F c ·)).map fun d =>
      ownFlows F more marks d.pair).sum = flowsBetween F more c.pair := by
    intro more inside
    induction more with
    | nil => simp [ownFlows, flowsBetween]
    | cons flow more ih =>
      obtain ⟨here, inside⟩ := cons_subset.mp inside
      have one : ((cells.filter (Inside F c ·)).map fun d =>
          if F.nearest marks flow.1 = some d.source ∧ F.nearest marks flow.2 = some d.target
          then 1 else 0).sum =
            if c.source ∈ F.path flow.1 ∧ c.target ∈ F.path flow.2 then 1 else 0 := by
        by_cases above : c.source ∈ F.path flow.1 ∧ c.target ∈ F.path flow.2
        · obtain ⟨s, nearS, first⟩ := F.mem_path_nearest cell.1 above.1
          obtain ⟨t, nearT, second⟩ := F.mem_path_nearest cell.2.1 above.2
          have onS := mem_of_find?_eq_some nearS
          have onT := mem_of_find?_eq_some nearT
          -- One of the two in the other would have the ends of the cell so.
          have apart {a b p q : String} (up : p ∈ F.path a) (up' : q ∈ F.path b)
              (ne : p ∉ F.path q) (ne' : q ∉ F.path p) : a ∉ F.path b := by
            intro nested
            obtain higher | higher := F.comparable (F.mem_path_trans nested up) up'
            · exact ne' higher
            · exact ne higher
          have found := (cellsOf.pairs (s, t)).mpr ⟨by simpa using find?_some nearS,
            by simpa using find?_some nearT, apart first second cell.2.2.1 cell.2.2.2.1,
            apart second first cell.2.2.2.1 cell.2.2.1,
            countP_pos_iff.mpr ⟨flow, here, by simpa using ⟨onS, onT⟩⟩⟩
          obtain ⟨d, memD, same⟩ := mem_map.mp found
          obtain ⟨rfl, rfl⟩ := Prod.mk.inj same
          have within : Inside F c d := ⟨first, second⟩
          have listed : d.pair ∈ (cells.filter (Inside F c ·)).map (·.pair) :=
            mem_map_of_mem (mem_filter.mpr ⟨memD, by simpa using within⟩)
          have once : ((cells.filter (Inside F c ·)).map (·.pair)).Nodup :=
            cellsOf.once.sublist (filter_sublist.map _)
          have count := Dict.sumAt_map_of_nodup once id (a := d.pair) (fun _ _ eq => eq) 1
          rw [if_pos listed, Dict.sumAt, map_map, map_map] at count
          rw [if_pos above]
          refine Eq.trans ?_ count
          congr 1
          refine map_congr_left fun e _ => if_congr ?_ rfl rfl
          rw [nearS, nearT, Option.some_inj, Option.some_inj, eq_comm, @eq_comm _ d.target]
          exact (@Prod.ext_iff _ _ e.pair d.pair).symm
        · rw [if_neg above]
          refine sum_eq_zero fun n mem => ?_
          obtain ⟨d, memD, rfl⟩ := mem_map.mp mem
          refine if_neg fun near => above ?_
          have within : Inside F c d := by simpa using (mem_filter.mp memD).2
          exact ⟨F.mem_path_trans (mem_of_find?_eq_some near.1) within.1,
            F.mem_path_trans (mem_of_find?_eq_some near.2) within.2⟩
      have next : flowsBetween F (flow :: more) c.pair = flowsBetween F more c.pair +
          if c.source ∈ F.path flow.1 ∧ c.target ∈ F.path flow.2 then 1 else 0 := by
        simp [flowsBetween, countP_cons]
      rw [next, ← one, ← ih inside, ← sum_map_add]
      congr 1
      refine map_congr_left fun d _ => ?_
      simp [ownFlows, countP_cons]
  exact all rest (subset_append_right _ _)

/-- After some of the cells, the deepest first. -/
structure Accounted (F : Forest String) (rest : List (String × String)) (marks : Finset String)
    (cells done : List RollupCell) (s : Accounting) : Prop where
  inner : ∀ c ∈ cells, s.innerStated.amount c.key = ((done.filter fun d =>
    Inside F c d ∧ d.pair ≠ c.pair).map fun d => ownFlows F rest marks d.pair).sum
  out : ∀ c ∈ cells, (s.out.get? c.key).map (fun w => ((w.source, w.target), w.count)) =
    if c.pair ∈ done.map (·.pair) ∧ ownFlows F rest marks c.pair ≠ 0 then
      some (c.pair, ownFlows F rest marks c.pair) else none
  only : ∀ key ∈ s.out.keys, key ∈ cells.map (·.key)

namespace Given

variable {containment : List (String × String)} {completePairs : Option (List String)}
  {asked : Option (List (String × String))}
  (given : Given F raw rest marks cells containment completePairs asked)
include given

theorem pairsAbove_eq (pair : String × String) :
    pairsAbove containment pair = walkedPairs F pair := by
  rw [pairsAbove, ancestorsOrSelf_eq given.draws, ancestorsOrSelf_eq given.draws, walkedPairs]

variable {c : RollupCell}

/-- What the walks up from a pair file under a cell's text, if they reach the cell where it
holds the pair and come by no other pair written so. -/
theorem sumAt_above {pair : String × String} {keep : String × String → Bool}
    (reached : c.source ∈ F.path pair.1 → c.target ∈ F.path pair.2 → c.pair ∈ walkedPairs F pair)
    (apart : ∀ p ∈ walkedPairs F pair, keep p = true → pairKey p = c.key → p = c.pair) (n : ℕ) :
    Dict.sumAt (((pairsAbove containment pair).filter keep).map fun p => (pairKey p, n)) c.key =
      if (c.source ∈ F.path pair.1 ∧ c.target ∈ F.path pair.2) ∧ keep c.pair then n else 0 := by
  have once : ((walkedPairs F pair).filter keep).Nodup :=
    ((F.nodup_path.sublist (takeWhile_sublist _)).product
      (F.nodup_path.sublist (takeWhile_sublist _))).filter _
  rw [given.pairsAbove_eq, RollupCell.key, Dict.sumAt_map_of_nodup once pairKey fun p within =>
    apart p (mem_filter.mp within).1 (mem_filter.mp within).2]
  refine ite_congr (propext ?_) (fun _ => rfl) fun _ => rfl
  rw [mem_filter]
  refine and_congr_left fun _ => ⟨fun mem => ?_, fun inside => reached inside.1 inside.2⟩
  obtain ⟨first, second⟩ := mem_product.mp mem
  exact ⟨(takeWhile_sublist _).subset first, (takeWhile_sublist _).subset second⟩

variable (legible : Legible F raw rest marks cells asked)
include legible

theorem rawCount_eq (mem : c ∈ cells) :
    (buildLedger containment completePairs raw asked).rawCount c.pair =
      flowsBetween F raw c.pair := by
  have asks : wanted asked c.pair = true := by
    rw [wanted, Option.all_eq_true]
    intro pairs same
    have asked := given.asks pairs same c mem
    simpa using ⟨⟨_, asked⟩, ⟨_, asked⟩, _, _, asked, rfl⟩
  have all : ∀ edges ⊆ raw, Dict.sumAt (edges.flatMap fun edge =>
      ((pairsAbove containment edge).filter (wanted asked)).map fun pair => (pairKey pair, 1))
        c.key = flowsBetween F edges c.pair := by
    intro edges inside
    induction edges with
    | nil => rfl
    | cons edge edges ih =>
      obtain ⟨here, inside⟩ := cons_subset.mp inside
      rw [flatMap_cons, Dict.sumAt_append, ih inside,
        given.sumAt_above (legible.reached c mem edge (mem_append_left _ here))
          (legible.hops c mem edge here), flowsBetween, flowsBetween, countP_cons]
      simp [asks, Nat.add_comm]
  refine (Dict.amount_addAll [] _ _).trans ?_
  rw [all raw (Subset.refl _)]
  exact Nat.zero_add _

/-- A cell that has been told what the finer ones state says its own flows. -/
theorem account_eq (mem : c ∈ cells) {s : Accounting}
    (inner : s.innerStated.amount c.key + ownFlows F rest marks c.pair =
      flowsBetween F rest c.pair) :
    ∃ kind, account containment (buildLedger containment completePairs raw asked) false s
      (c.key, c) = if ownFlows F rest marks c.pair = 0 then s else
        { innerStated := s.innerStated.addAll
            (((pairsAbove containment c.pair).filter (· ≠ c.pair)).map fun above =>
              (pairKey above, ownFlows F rest marks c.pair))
          out := s.out.set c.key ⟨c.source, c.target, ownFlows F rest marks c.pair, kind⟩ } := by
  have weight := (given.weights c mem).trans (flowsBetween_append c.pair)
  have own : (stated false c.weight (flowsBetween F raw c.pair)
      (s.innerStated.amount c.key)).1 = ownFlows F rest marks c.pair := by
    rw [stated]
    split
    · split
      · show c.weight - flowsBetween F raw c.pair = _
        omega
      · omega
    · omega
  refine ⟨(stated false c.weight (flowsBetween F raw c.pair) (s.innerStated.amount c.key)).2, ?_⟩
  rw [account, given.rawCount_eq legible mem]
  dsimp only
  rw [own]
  split
  next complete =>
    have none := given.vouched c mem complete.2
    rw [if_pos (by omega)]
  next => rfl

theorem accounted_step {done later : List RollupCell} {s : Accounting}
    (perm : (done ++ c :: later).Perm cells)
    (deepest : ∀ d ∈ later, Inside F c d → ownFlows F rest marks d.pair ≠ 0 → d.pair = c.pair)
    (accounted : Accounted F rest marks cells done s) :
    Accounted F rest marks cells (done ++ [c])
      (account containment (buildLedger containment completePairs raw asked) false s
        (c.key, c)) := by
  have mem : c ∈ cells := perm.subset (mem_append_right _ mem_cons_self)
  have once := (perm.map (·.pair)).nodup_iff.mpr given.once
  rw [map_append, map_cons, nodup_middle, nodup_cons, mem_append, not_or] at once
  have apart {d : RollupCell} {list : List RollupCell} (absent : c.pair ∉ list.map (·.pair))
      (listed : d ∈ list) : d.pair ≠ c.pair :=
    fun same => absent (same ▸ mem_map_of_mem listed)
  have inner : s.innerStated.amount c.key + ownFlows F rest marks c.pair =
      flowsBetween F rest c.pair := by
    have before : done.filter (Inside F c ·) =
        done.filter fun d => Inside F c d ∧ d.pair ≠ c.pair :=
      filter_congr fun d listed => by simp [apart once.1.1 listed]
    have after : ((later.filter (Inside F c ·)).map fun d => ownFlows F rest marks d.pair).sum =
        0 := by
      refine sum_eq_zero fun n mem => ?_
      obtain ⟨d, memD, rfl⟩ := mem_map.mp mem
      obtain ⟨listed, inside⟩ := mem_filter.mp memD
      by_contra own
      exact apart once.1.2 listed (deepest d listed (by simpa using inside) own)
    have self : Inside F c c := ⟨F.mem_path_self, F.mem_path_self⟩
    rw [accounted.inner c mem, ← given.sum_own mem, ← ((perm.filter _).map _).sum_eq,
      filter_append, before, filter_cons_of_pos (by simpa using self), map_append, sum_append,
      map_cons, sum_cons, after, Nat.add_zero]
  obtain ⟨kind, eq⟩ := given.account_eq legible mem inner
  have joined (d : RollupCell) : d.pair ∈ (done ++ [c]).map (·.pair) ↔
      d.pair ∈ done.map (·.pair) ∨ d.pair = c.pair := by simp
  have sums (d : RollupCell) : (((done ++ [c]).filter fun e =>
      Inside F d e ∧ e.pair ≠ d.pair).map fun e => ownFlows F rest marks e.pair).sum =
      ((done.filter fun e => Inside F d e ∧ e.pair ≠ d.pair).map fun e =>
        ownFlows F rest marks e.pair).sum +
        if Inside F d c ∧ c.pair ≠ d.pair then ownFlows F rest marks c.pair else 0 := by
    rw [filter_append, map_append, sum_append, filter_singleton]
    by_cases finer : Inside F d c ∧ c.pair ≠ d.pair
    · rw [if_pos finer, decide_eq_true finer]
      rfl
    · rw [if_neg finer, decide_eq_false finer]
      rfl
  rw [eq]
  by_cases none : ownFlows F rest marks c.pair = 0
  · rw [if_pos none]
    refine ⟨fun d listed => ?_, fun d listed => ?_, accounted.only⟩
    · rw [accounted.inner d listed, sums, none, ite_self, Nat.add_zero]
    · rw [accounted.out d listed]
      refine ite_congr (propext ?_) (fun _ => rfl) fun _ => rfl
      rw [joined]
      refine and_congr_left fun some => ⟨.inl, fun either => either.resolve_right fun same => ?_⟩
      exact some (same ▸ none)
  · rw [if_neg none]
    refine ⟨fun d listed => ?_, fun d listed => ?_, fun key listed => ?_⟩
    · have speaks : c.pair ∈ speaking F rest marks cells :=
        mem_filter.mpr ⟨mem_map_of_mem mem, by simpa using none⟩
      rw [Dict.amount_addAll, given.sumAt_above
        (legible.reached d listed _ (mem_append_right _ speaks))
        (fun p within _ => legible.inner d listed _ speaks p within), accounted.inner d listed,
        sums]
      simp only [decide_eq_true_eq, ne_comm]
    · rw [Dict.get?_set]
      by_cases same : c.key = d.key
      · have pair := congrArg RollupCell.pair (inj_on_of_nodup_map legible.once mem listed same)
        rw [if_pos same, if_pos ⟨(joined d).mpr (.inr pair.symm), pair ▸ none⟩, ← pair]
        rfl
      · rw [if_neg same, accounted.out d listed]
        have other : d.pair ≠ c.pair := fun pair => same (congrArg pairKey pair.symm)
        simp [other]
    · obtain rfl | old := Dict.mem_keys_set.mp listed
      · exact mem_map_of_mem mem
      · exact accounted.only key old

omit given in
theorem byPair_eq : cells.foldl addCell [] = cells.map fun c => (c.key, c) := by
  have all (list : List RollupCell) (byPair : Dict String RollupCell)
      (fresh : (byPair.keys ++ list.map (·.key)).Nodup) :
      list.foldl addCell byPair = byPair ++ list.map fun c => (c.key, c) := by
    induction list generalizing byPair with
    | nil => rw [foldl_nil, map_nil, append_nil]
    | cons c list ih =>
      have new : c.key ∉ byPair.keys := fun old =>
        (nodup_append.mp fresh).2.2 _ old _ mem_cons_self rfl
      rw [foldl_cons, addCell, Dict.get?_eq_none_iff.mpr new]
      rw [Dict.set_of_notMem new, ih _ (by simpa [Dict.keys] using fresh)]
      simp
  exact all cells [] legible.once

theorem depthOf_lt {c d : RollupCell} (memC : c ∈ cells) (memD : d ∈ cells) (inside : Inside F c d)
    (own : ownFlows F rest marks d.pair ≠ 0) (apart : d.pair ≠ c.pair) :
    depthOf containment c < depthOf containment d := by
  have speaks : d.pair ∈ speaking F rest marks cells :=
    mem_filter.mpr ⟨mem_map_of_mem memD, by simpa using own⟩
  obtain ⟨(first : c.source ∈ walked F d.source), (second : c.target ∈ walked F d.target)⟩ :=
    mem_product.mp (legible.reached c memC _ (mem_append_right _ speaks) inside.1 inside.2)
  have source := length_walked_le first
  have target := length_walked_le second
  simp only [depthOf, ancestorsOrSelf_eq given.draws]
  by_cases same : c.source = d.source
  · have other := target.2 fun same' => apart (Prod.ext same.symm same'.symm)
    omega
  · have other := source.2 same
    omega

theorem accounted_all : ∃ list s, list.Perm cells ∧ Accounted F rest marks cells list s ∧
    accountRollups containment cells (buildLedger containment completePairs raw asked) false =
      s.out := by
  let order (c d : RollupCell) := before containment (c.key, c) (d.key, d)
  have run (later done : List RollupCell) (s : Accounting) (perm : (done ++ later).Perm cells)
      (sorted : later.Pairwise fun c d => order c d = true)
      (accounted : Accounted F rest marks cells done s) :
      Accounted F rest marks cells (done ++ later) (later.foldl (fun s c =>
        account containment (buildLedger containment completePairs raw asked) false s
          (c.key, c)) s) := by
    induction later generalizing done s with
    | nil => rwa [append_nil]
    | cons c later ih =>
      obtain ⟨first, sorted⟩ := pairwise_cons.mp sorted
      have mem {d : RollupCell} (listed : d ∈ c :: later) : d ∈ cells :=
        perm.subset (mem_append_right _ listed)
      have next := given.accounted_step legible perm (fun d listed inside own => by
        by_contra apart
        have deeper := given.depthOf_lt legible (mem mem_cons_self)
          (mem (mem_cons_of_mem _ listed)) inside own apart
        have ordered := first d listed
        simp only [order, before, decide_eq_true_eq] at ordered
        omega) accounted
      rw [append_cons] at perm ⊢
      exact ih _ _ perm sorted next
  have sorted := @pairwise_mergeSort _ order (fun a b c first second => by
    simp only [order, before, decide_eq_true_eq] at first second ⊢
    obtain first | first := first <;> obtain second | second := second
    · exact .inl (second.trans first)
    · exact .inl (second.1 ▸ first)
    · exact .inl (first.1 ▸ second)
    · exact .inr ⟨first.1.trans second.1, le_trans first.2 second.2⟩) (fun a b => by
    simp only [order, before, Bool.or_eq_true, decide_eq_true_eq]
    obtain less | same | more := lt_trichotomy (depthOf containment a) (depthOf containment b)
    · exact .inr (.inl less)
    · obtain first | second := le_total (a.key.toList.flatMap JsonReader.unitsOf)
        (b.key.toList.flatMap JsonReader.unitsOf)
      · exact .inl (.inr ⟨same, first⟩)
      · exact .inr (.inr ⟨same.symm, second⟩)
    · exact .inl (.inl more)) cells
  have perm := mergeSort_perm cells order
  have all := run (cells.mergeSort order) [] ⟨[], []⟩ perm sorted
    ⟨fun _ _ => rfl, fun _ _ => by simp, nofun⟩
  refine ⟨_, _, perm, all, ?_⟩
  rw [accountRollups, byPair_eq legible,
    ← map_mergeSort (r := order) (s := before containment) fun _ _ _ _ => rfl,
    foldl_map]

end Given

/-- For every forest, raw and other flows and visible nodes, each cell states the flows not
held raw that are its own, if the walks up come by the cells they should and by no other pair
that is written as a cell's. -/
theorem statesOnce_of_legible {containment : List (String × String)}
    {completePairs : Option (List String)} {asked : Option (List (String × String))}
    (given : Given F raw rest marks cells containment completePairs asked)
    (legible : Legible F raw rest marks cells asked) :
    StatesOnce F raw rest marks cells (accountRollups containment cells
      (buildLedger containment completePairs raw asked) false) := by
  obtain ⟨list, s, perm, accounted, eq⟩ := given.accounted_all legible
  rw [eq]
  have own : ∀ c ∈ cells, (s.out.get? c.key).map (fun w => ((w.source, w.target), w.count)) =
      if ownFlows F rest marks c.pair = 0 then none
      else some (c.pair, ownFlows F rest marks c.pair) := by
    intro c mem
    have listed : c.pair ∈ list.map (·.pair) := mem_map_of_mem (perm.symm.subset mem)
    rw [accounted.out c mem]
    by_cases zero : ownFlows F rest marks c.pair = 0 <;> simp [zero, listed]
  refine ⟨own, accounted.only, fun c mem => ?_⟩
  rw [given.weights c mem, flowsBetween_append, ← given.sum_own mem]
  congr 2
  refine map_congr_left fun d listed => ?_
  have count := congrArg (Option.map Prod.snd) (own d (mem_filter.mp listed).1)
  rw [Option.map_map] at count
  refine (congrArg (Option.getD · 0) count).trans ?_
  split
  next zero => exact zero.symm
  next => rfl

end

def tables : Forest String where
  up urn := if urn = "t" ∨ urn = "u" then ["db"] else []
  up_tail := by
    intro u p rest above
    split at above
    · cases above
      rfl
    · cases above

abbrev tableCells : List RollupCell :=
  [⟨"db", "x", 3⟩, ⟨"t", "x", 2⟩]

/-- Of three flows to `x`, two from `t` and one from `u`, one is held raw; `u` is not visible. -/
theorem given_tables : Given tables [("t", "x")] [("t", "x"), ("u", "x")] {"db", "t", "x"}
    tableCells [("db", "t"), ("db", "u")] (some []) none where
  once := by decide
  weights := by decide +kernel
  draws urn := by
    by_cases t : urn = "t"
    · subst t
      rfl
    · by_cases u : urn = "u"
      · subst u
        rfl
      · simp [parentOf, tables, t, u, Ne.symm t, Ne.symm u]
  asks := nofun
  vouched := by decide +kernel
  pairs := by
    intro pair
    have ofEnds : ∀ s ∈ ({"db", "t", "x"} : Finset String),
        ∀ t ∈ ({"db", "t", "x"} : Finset String),
        s ∉ tables.path t → t ∉ tables.path s →
        0 < flowsBetween tables [("t", "x"), ("t", "x"), ("u", "x")] (s, t) →
        (s, t) ∈ tableCells.map (·.pair) := by decide +kernel
    have ofCells : ∀ pair ∈ tableCells.map (·.pair), pair.1 ∈ ({"db", "t", "x"} : Finset String) ∧
        pair.2 ∈ ({"db", "t", "x"} : Finset String) ∧ pair.1 ∉ tables.path pair.2 ∧
        pair.2 ∉ tables.path pair.1 ∧
        0 < flowsBetween tables [("t", "x"), ("t", "x"), ("u", "x")] pair := by decide +kernel
    exact ⟨ofCells pair, fun ⟨first, second, in₁, in₂, flows⟩ =>
      ofEnds _ first _ second in₁ in₂ flows⟩

/-- Each of the two cells states one flow. -/
theorem statesOnce_tables : StatesOnce tables [("t", "x")] [("t", "x"), ("u", "x")]
    {"db", "t", "x"} tableCells (accountRollups [("db", "t"), ("db", "u")] tableCells
      (buildLedger [("db", "t"), ("db", "u")] (some []) [("t", "x")] none) false) :=
  statesOnce_of_legible given_tables
    { reached := by decide +kernel, once := by decide, hops := by decide +kernel
      inner := by decide +kernel }

def flat : Forest String where
  up _ := []
  up_tail := nofun

theorem alike_not_statesOnce : ¬ ∀ (F : Forest String) (raw rest : List (String × String))
    (marks : Finset String) (cells : List RollupCell) (containment : List (String × String))
    (completePairs : Option (List String)) (asked : Option (List (String × String))),
    Given F raw rest marks cells containment completePairs asked →
      StatesOnce F raw rest marks cells (accountRollups containment cells
        (buildLedger containment completePairs raw asked) false) := by
  intro all
  have given : Given flat [] [("a>b", "c"), ("a", "b>c")] {"a>b", "c", "a", "b>c"}
      [⟨"a>b", "c", 1⟩, ⟨"a", "b>c", 1⟩] [] none none :=
    { once := by decide
      weights := by decide
      draws := fun _ => rfl
      asks := nofun
      vouched := by decide +kernel
      pairs := by
        rintro ⟨s, t⟩
        simp only [map_cons, map_nil, mem_cons, not_mem_nil, or_false, Prod.mk.injEq]
        constructor
        · rintro (⟨rfl, rfl⟩ | ⟨rfl, rfl⟩) <;> decide +kernel
        · rintro ⟨-, -, -, -, flows⟩
          obtain ⟨flow, mem, here⟩ := countP_pos_iff.mp flows
          simp_all [Forest.path, flat]
          grind }
  exact absurd ((all _ _ _ _ _ _ _ _ given).own ⟨"a>b", "c", 1⟩ mem_cons_self) (by decide +kernel)

end DataViz.Canvas.WireLedger
