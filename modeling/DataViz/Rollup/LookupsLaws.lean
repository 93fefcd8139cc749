/-
# Closures, counts and depths agree

On the map that `_break_cycles` leaves, every walk up ends. There `_depth_of` and the closures give
each node one depth, `_anc_count` bounds what the closure holds, and so the cube estimate bounds the
cells of the cube, whatever was asked before.
-/

import DataViz.Rollup.CycleBreakingLaws
import DataViz.Rollup.Lookups

namespace DataViz.Rollup

open List Option

open DataViz.Digraph

variable {α : Type*} [DecidableEq α]

section

variable {value : List ℕ → ℕ} {parents : Dict α (List α)} {valueOf : α → ℕ}

def Right (valueOf : α → ℕ) (memo : Dict α ℕ) : Prop :=
  ∀ a v, memo.get? a = some v → v = valueOf a

/-- From one memo a walk makes another: what it holds is right, and nothing is lost. -/
structure Grows (valueOf : α → ℕ) (memo memo' : Dict α ℕ) : Prop where
  right : Right valueOf memo'
  more : ∀ a, (memo.get? a).isSome = true → (memo'.get? a).isSome = true

variable {memo : Dict α ℕ}

theorem mapM_get? (right : Right valueOf memo) {ps : List α}
    (known : ∀ p ∈ ps, (memo.get? p).isSome = true) :
    ps.mapM memo.get? = some (ps.map valueOf) := by
  induction ps with
  | nil => rfl
  | cons p ps ih =>
    obtain ⟨here, later⟩ := forall_mem_cons.1 known
    obtain ⟨v, held⟩ := isSome_iff_exists.1 here
    rw [mapM_cons, held, ih later, right p v held]
    rfl

theorem memoWalk_ready (own : ∀ a, valueOf a = value ((ups parents a).map valueOf)) {node : α}
    (right : Right valueOf memo) (known : ∀ p ∈ ups parents node, (memo.get? p).isSome = true) :
    ∃ memo', Grows valueOf memo memo' ∧ (memo'.get? node).isSome = true ∧
      ∀ turns below, memoWalk value parents (turns + 1) (node :: below) memo =
        memoWalk value parents turns below memo' := by
  by_cases held : (memo.get? node).isSome = true
  · exact ⟨memo, ⟨right, fun _ => id⟩, held, fun turns below => by rw [memoWalk, if_pos held]⟩
  · have none : ((ups parents node).filter fun p => (memo.get? p).isNone) = [] := by
      refine filter_eq_nil_iff.2 fun p mem => ?_
      rw [Bool.not_eq_true, isNone_eq_false_iff]
      exact known p mem
    refine ⟨memo.set node (valueOf node), ⟨fun a v here => ?_, fun a here => ?_⟩, ?_, ?_⟩
    · rw [Dict.get?_set] at here
      split at here
      case isTrue same => exact same ▸ (some.inj here).symm
      case isFalse => exact right a v here
    · rw [← Dict.mem_keys_iff] at here ⊢
      exact Dict.mem_keys_set.2 (.inr here)
    · rw [Dict.get?_set_self]
      rfl
    · intro turns below
      have values := mapM_get? right known
      rw [ups] at none values
      rw [memoWalk, if_neg held]
      simp only [none, isEmpty_nil, if_true, values, bind_some]
      rw [← ups, ← own]

theorem memoWalk_nodes {nodes : List α}
    (each : ∀ node ∈ nodes, ∀ memo, Right valueOf memo → ∃ memo' cost, Grows valueOf memo memo' ∧
      (memo'.get? node).isSome = true ∧
      ∀ turns below, memoWalk value parents (turns + cost) (node :: below) memo =
        memoWalk value parents turns below memo')
    (right : Right valueOf memo) :
    ∃ memo' cost, Grows valueOf memo memo' ∧ (∀ node ∈ nodes, (memo'.get? node).isSome = true) ∧
      ∀ turns below, memoWalk value parents (turns + cost) (nodes ++ below) memo =
        memoWalk value parents turns below memo' := by
  induction nodes generalizing memo with
  | nil => exact ⟨memo, 0, ⟨right, fun _ => id⟩, nofun, fun _ _ => rfl⟩
  | cons node nodes ih =>
    obtain ⟨here, later⟩ := forall_mem_cons.1 each
    obtain ⟨memo₁, cost₁, grows₁, known, walked₁⟩ := here memo right
    obtain ⟨memo₂, cost₂, grows₂, rest, walked₂⟩ := ih later grows₁.right
    refine ⟨memo₂, cost₂ + cost₁, ⟨grows₂.right, fun a old => grows₂.more a (grows₁.more a old)⟩,
      forall_mem_cons.2 ⟨grows₂.more node known, rest⟩, fun turns below => ?_⟩
    rw [← Nat.add_assoc, cons_append, walked₁, walked₂]

theorem memoWalk_node (own : ∀ a, valueOf a = value ((ups parents a).map valueOf)) {node : α}
    (ends : Ends (ups parents) node) : ∀ memo, Right valueOf memo →
    ∃ memo' cost, Grows valueOf memo memo' ∧ (memo'.get? node).isSome = true ∧
      ∀ turns below, memoWalk value parents (turns + cost) (node :: below) memo =
        memoWalk value parents turns below memo' := by
  induction ends with
  | intro node _ ih =>
    intro memo right
    let pending := (ups parents node).filter fun p => (memo.get? p).isNone
    by_cases ready : pending = []
    · have known : ∀ p ∈ ups parents node, (memo.get? p).isSome = true := by
        intro p mem
        have listed := filter_eq_nil_iff.1 ready p mem
        rwa [Bool.not_eq_true, isNone_eq_false_iff] at listed
      obtain ⟨memo', grows, here, walked⟩ := memoWalk_ready own right known
      exact ⟨memo', 1, grows, here, walked⟩
    · by_cases held : (memo.get? node).isSome = true
      · exact ⟨memo, 1, ⟨right, fun _ => id⟩, held, fun turns below => by
          rw [memoWalk, if_pos held]⟩
      -- The parents that wait are walked first; then the node is on top again.
      have each : ∀ p ∈ pending.reverse, p ∈ ups parents node := fun p mem =>
        (mem_filter.1 (mem_reverse.1 mem)).1
      obtain ⟨memo₁, cost, grows₁, walkedAll, walked₁⟩ :=
        memoWalk_nodes (fun p mem => ih p (each p mem)) right
      have known : ∀ p ∈ ups parents node, (memo₁.get? p).isSome = true := by
        intro p mem
        by_cases old : (memo.get? p).isSome = true
        · exact grows₁.more p old
        · refine walkedAll p (mem_reverse.2 (mem_filter.2 ⟨mem, ?_⟩))
          rw [isNone_iff_eq_none]
          exact not_isSome_iff_eq_none.1 old
      obtain ⟨memo₂, grows₂, here, walked₂⟩ := memoWalk_ready own grows₁.right known
      refine ⟨memo₂, 1 + cost + 1,
        ⟨grows₂.right, fun a old => grows₂.more a (grows₁.more a old)⟩, here, ?_⟩
      intro turns below
      have waits : pending.isEmpty = false := by simpa using ready
      have pushed : memoWalk value parents (turns + (1 + cost + 1)) (node :: below) memo =
          memoWalk value parents (turns + 1 + cost) (pending.reverse ++ node :: below) memo := by
        rw [show turns + (1 + cost + 1) = turns + 1 + cost + 1 by omega, memoWalk, if_neg held]
        exact if_neg (by rw [Bool.not_eq_true]; exact waits)
      rw [pushed, walked₁, walked₂]

theorem memoized_spec (own : ∀ a, valueOf a = value ((ups parents a).map valueOf))
    (ends : ∀ a, Ends (ups parents) a) (right : Right valueOf memo) (node : α) :
    ∃ enough memo', Right valueOf memo' ∧ ∀ turns, enough ≤ turns →
      memoized value parents turns node memo = some (valueOf node, memo') := by
  cases held : memo.get? node with
  | some hit =>
    refine ⟨0, memo, right, fun turns _ => ?_⟩
    rw [memoized, held, right node hit held]
  | none =>
    obtain ⟨memo', cost, grows, here, walked⟩ := memoWalk_node own (ends node) memo right
    obtain ⟨v, found⟩ := isSome_iff_exists.1 here
    refine ⟨cost + 1, memo', grows.right, fun turns enough => ?_⟩
    have ran : memoWalk value parents turns [node] memo = some memo' := by
      obtain ⟨more, rfl⟩ := Nat.exists_eq_add_of_le enough
      rw [show cost + 1 + more = more + 1 + cost by omega, walked]
      rfl
    rw [memoized, held]
    simp only [ran, bind_some, found, map_some, grows.right node v found]

end

section

variable {parents : Dict α (List α)}

theorem depthAbove_eq (depths : List ℕ) : depthAbove depths = (depths.map (· + 1)).foldr max 0 := by
  cases depths with
  | nil => rfl
  | cons d ds =>
    have shift : ∀ (ds : List ℕ) (d : ℕ),
        1 + ds.foldl max d = (ds.map (· + 1)).foldl max (d + 1) := by
      intro ds
      induction ds with
      | nil => exact fun d => Nat.add_comm 1 d
      | cons e ds ih =>
        intro d
        rw [foldl_cons, ih, map_cons]
        exact congrArg (List.foldl max · _) (by omega)
    rw [depthAbove, shift, foldr_eq_foldl, map_cons, foldl_cons, Nat.max_eq_right (Nat.zero_le _)]

/-- What `_anc_count` counts: the ways up from a node, the empty one too. -/
noncomputable def waysUp (parents : Dict α (List α)) : α → ℕ :=
  climb countAbove (ups parents)

theorem waysUp_eq (ends : ∀ a, Ends (ups parents) a) (node : α) :
    waysUp parents node = countAbove ((ups parents node).map (waysUp parents)) :=
  climb_eq countAbove (ends node)

theorem depth_eq_depthAbove (ends : ∀ a, Ends (ups parents) a) (node : α) :
    depth (ups parents) node = depthAbove ((ups parents node).map (depth (ups parents))) := by
  rw [depthAbove_eq, List.map_map]
  exact depth_eq (ends node)

/-- Some list of as many nodes holds all that can be reached upward. -/
theorem exists_listed (ends : ∀ a, Ends (ups parents) a) (node : α) :
    ∃ listed : List α, listed.length = waysUp parents node ∧
      ∀ b, Reach (ups parents) node b → b ∈ listed := by
  induction ends node with
  | intro node _ ih =>
    have joined : ∀ ps : List α, (∀ p ∈ ps, p ∈ ups parents node) →
        ∃ listed : List α, listed.length = (ps.map (waysUp parents)).sum ∧
          ∀ p ∈ ps, ∀ b, Reach (ups parents) p b → b ∈ listed := by
      intro ps
      induction ps with
      | nil => exact fun _ => ⟨[], rfl, nofun⟩
      | cons p ps rest =>
        intro sub
        obtain ⟨first, length₁, all₁⟩ := ih p (sub p mem_cons_self)
        obtain ⟨others, length₂, all₂⟩ := rest fun q mem => sub q (mem_cons_of_mem _ mem)
        refine ⟨first ++ others, ?_, forall_mem_cons.2 ⟨fun b path => ?_, ?_⟩⟩
        · rw [length_append, length₁, length₂, map_cons, sum_cons]
        · exact mem_append_left _ (all₁ b path)
        · exact fun q mem b path => mem_append_right _ (all₂ q mem b path)
    obtain ⟨above, length, all⟩ := joined (ups parents node) fun _ => id
    refine ⟨node :: above, ?_, fun b path => ?_⟩
    · rw [waysUp_eq ends, countAbove, length_cons, length, Nat.add_comm]
    · rcases reach_iff.1 path with rfl | ⟨p, mem, later⟩
      · exact mem_cons_self
      · exact mem_cons_of_mem _ (all p mem b later)

/-- A closure holds no more nodes than its node's count. -/
theorem Exact.length_le (ends : ∀ a, Ends (ups parents) a) {node : α} {closure : Dict α ℕ}
    (exact_ : Exact parents node closure) : closure.keys.length ≤ waysUp parents node := by
  obtain ⟨listed, length, all⟩ := exists_listed ends node
  have sub : closure.keys ⊆ listed := fun b inside => all b (exact_.reached b inside)
  exact length ▸ (exact_.reads.nodup.subperm sub).length_le

theorem length_cubePairs_le (s t : Dict α ℕ) (includeLeafMirror : Bool) (a b : α) :
    (cubePairs s t includeLeafMirror a b).length ≤ s.keys.length * t.keys.length := by
  rw [cubePairs, length_flatMap]
  induction s.keys with
  | nil => exact Nat.zero_le _
  | cons sp rest ih =>
    rw [map_cons, sum_cons, length_cons, Nat.succ_mul, Nat.add_comm]
    refine Nat.add_le_add ih ?_
    rw [length_map]
    exact length_filter_le _ _

end

namespace Lookups

section

variable {parents : Dict α (List α)} {run : Lookups α}

/-- The memos of a run hold nothing but what is right. -/
structure Fits (parents : Dict α (List α)) (run : Lookups α) : Prop where
  same : run.parents = parents
  closures : ClosureWalk.GoodMemo parents run.closureMemo
  counts : Right (waysUp parents) run.ancMemo
  depths : Right (depth (ups parents)) run.depthMemo

theorem Fits.closure (fits : Fits parents run) (node : α) :
    ∃ closure run', run.closure node = some (closure, run') ∧ Exact parents node closure ∧
      Fits parents run' := by
  obtain ⟨closure, memo, called, exact_, good⟩ := ancestorClosureOf_exact fits.closures node
  have kept : ClosureWalk.GoodMemo parents (memo.pop node) := by
    intro a other held
    rw [Dict.get?_pop] at held
    split at held
    case isTrue => cases held
    case isFalse => exact good a other held
  let evicted := closureMemoMax < memo.length ∧ node ∉ run.structParents
  refine ⟨closure, { run with closureMemo := if evicted then memo.pop node else memo }, ?_, exact_,
    ⟨fits.same, ?_, fits.counts, fits.depths⟩⟩
  · rw [Lookups.closure, show run.parents = parents from fits.same, called]
    rfl
  · split
    · exact kept
    · exact good

theorem Fits.ancCount (ends : ∀ a, Ends (ups parents) a) (fits : Fits parents run) (node : α) :
    ∃ enough run', Fits parents run' ∧ ∀ turns, enough ≤ turns →
      run.ancCount turns node = some (waysUp parents node, run') := by
  obtain ⟨enough, memo, right, each⟩ := memoized_spec (waysUp_eq ends) ends fits.counts node
  refine ⟨enough, { run with ancMemo := memo }, ⟨fits.same, fits.closures, right, fits.depths⟩,
    fun turns large => ?_⟩
  rw [Lookups.ancCount, fits.same, each turns large]
  rfl

theorem Fits.depthOf (ends : ∀ a, Ends (ups parents) a) (fits : Fits parents run) (node : α) :
    ∃ enough run', Fits parents run' ∧ ∀ turns, enough ≤ turns →
      run.depthOf turns node = some (depth (ups parents) node, run') := by
  obtain ⟨enough, memo, right, each⟩ :=
    memoized_spec (depth_eq_depthAbove ends) ends fits.depths node
  refine ⟨enough, { run with depthMemo := memo }, ⟨fits.same, fits.closures, fits.counts, right⟩,
    fun turns large => ?_⟩
  rw [Lookups.depthOf, fits.same, each turns large]
  rfl

/-- Whether an answer is what the depths, the counts and the nodes above say. -/
def Tells (parents : Dict α (List α)) (depth count : α → ℕ) : Call α → Answer α → Prop
  | .closure n, .closure closure =>
    closure.keys.Nodup ∧ (∀ b, b ∈ closure.keys ↔ Reach (parentsOf parents) n b) ∧
      closure.get? n = some (depth n) ∧ (∀ a d, closure.get? a = some d → d = depth a) ∧
      closure.keys.length ≤ count n
  | .ancCount n, .number number => number = count n
  | .depthOf n, .number number => number = depth n
  | _, _ => False

theorem Exact.tells (ends : ∀ a, Ends (ups parents) a) {node : α} {closure : Dict α ℕ}
    (exact_ : Exact parents node closure) :
    Tells parents (depth (ups parents)) (waysUp parents) (.closure node) (.closure closure) := by
  obtain ⟨nodup, keys, depths⟩ := exact_.closes
  refine ⟨nodup, keys, exact_.get?_self (ends node).cycleFree, fun a d held => ?_,
    exact_.length_le ends⟩
  exact depths a d held (ends a).cycleFree

theorem Fits.answer (ends : ∀ a, Ends (ups parents) a) (fits : Fits parents run)
    (call : Call α) : ∃ enough answer run', Fits parents run' ∧
      Tells parents (depth (ups parents)) (waysUp parents) call answer ∧
      ∀ turns, enough ≤ turns → run.answer turns call = some (answer, run') := by
  cases call with
  | closure node =>
    obtain ⟨closure, run', called, exact_, fits'⟩ := fits.closure node
    refine ⟨0, .closure closure, run', fits', Exact.tells ends exact_, fun turns _ => ?_⟩
    rw [Lookups.answer, called]
    rfl
  | ancCount node =>
    obtain ⟨enough, run', fits', each⟩ := fits.ancCount ends node
    refine ⟨enough, .number (waysUp parents node), run', fits', rfl, fun turns large => ?_⟩
    rw [Lookups.answer, each turns large]
    rfl
  | depthOf node =>
    obtain ⟨enough, run', fits', each⟩ := fits.depthOf ends node
    refine ⟨enough, .number (depth (ups parents) node), run', fits', rfl, fun turns large => ?_⟩
    rw [Lookups.answer, each turns large]
    rfl

theorem Fits.answers (ends : ∀ a, Ends (ups parents) a) (fits : Fits parents run)
    (calls : List (Call α)) : ∃ enough answers run', Fits parents run' ∧
      List.Forall₂ (Tells parents (depth (ups parents)) (waysUp parents)) calls answers ∧
      ∀ turns, enough ≤ turns → Lookups.answers turns calls run = some (answers, run') := by
  induction calls generalizing run with
  | nil => exact ⟨0, [], run, fits, .nil, fun _ _ => rfl⟩
  | cons call calls ih =>
    obtain ⟨first, answer, run₁, fits₁, tells, called⟩ := fits.answer ends call
    obtain ⟨rest, answers, run₂, fits₂, each, later⟩ := ih fits₁
    refine ⟨max first rest, answer :: answers, run₂, fits₂, .cons tells each, ?_⟩
    intro turns large
    rw [Lookups.answers, called turns (by omega)]
    show (Lookups.answers turns calls run₁).bind _ = _
    rw [later turns (by omega)]
    rfl

noncomputable def waysTogether (parents : Dict α (List α)) (edges : List (α × α)) : ℕ :=
  (edges.map fun edge => waysUp parents edge.1 * waysUp parents edge.2).sum

theorem waysTogether_cons (parents : Dict α (List α)) (edge : α × α) (edges : List (α × α)) :
    waysTogether parents (edge :: edges) =
      waysUp parents edge.1 * waysUp parents edge.2 + waysTogether parents edges :=
  sum_cons

theorem Fits.foldlM_countEdge (ends : ∀ a, Ends (ups parents) a) (edges : List (α × α))
    (sum : ℕ) (fits : Fits parents run) :
    ∃ enough run', Fits parents run' ∧ ∀ turns, enough ≤ turns →
      edges.foldlM (countEdge turns) (sum, run) =
        some (sum + waysTogether parents edges, run') := by
  induction edges generalizing sum run with
  | nil => exact ⟨0, run, fits, fun _ _ => rfl⟩
  | cons edge edges ih =>
    obtain ⟨first, run₁, fits₁, source⟩ := fits.ancCount ends edge.1
    obtain ⟨second, run₂, fits₂, target⟩ := fits₁.ancCount ends edge.2
    obtain ⟨rest, run₃, fits₃, later⟩ :=
      ih (sum + waysUp parents edge.1 * waysUp parents edge.2) fits₂
    refine ⟨max first (max second rest), run₃, fits₃, fun turns large => ?_⟩
    have counted : countEdge turns (sum, run) edge =
        some (sum + waysUp parents edge.1 * waysUp parents edge.2, run₂) := by
      simp only [countEdge, source turns (by omega), target turns (by omega),
        bind_eq_bind, bind_some]
    rw [foldlM_cons, counted, waysTogether_cons, ← Nat.add_assoc]
    exact later turns (by omega)

theorem Fits.foldlM_cellsOfEdge (ends : ∀ a, Ends (ups parents) a) (includeLeafMirror : Bool)
    (edges before : List (α × α)) (fits : Fits parents run) :
    ∃ cells run', Fits parents run' ∧
      edges.foldlM (cellsOfEdge includeLeafMirror) (before, run) = some (cells, run') ∧
      cells.length ≤ before.length + waysTogether parents edges := by
  induction edges generalizing before run with
  | nil => exact ⟨before, run, fits, rfl, le_refl _⟩
  | cons edge edges ih =>
    obtain ⟨s, run₁, source, exactS, fits₁⟩ := fits.closure edge.1
    obtain ⟨t, run₂, target, exactT, fits₂⟩ := fits₁.closure edge.2
    obtain ⟨cells, run₃, fits₃, later, few⟩ :=
      ih (before ++ cubePairs s t includeLeafMirror edge.1 edge.2) fits₂
    have filled : cellsOfEdge includeLeafMirror (before, run) edge =
        some (before ++ cubePairs s t includeLeafMirror edge.1 edge.2, run₂) := by
      simp only [cellsOfEdge, source, target, bind_eq_bind, bind_some]
    refine ⟨cells, run₃, fits₃, ?_, few.trans ?_⟩
    · rw [foldlM_cons, filled]
      exact later
    · have pairs := (length_cubePairs_le s t includeLeafMirror edge.1 edge.2).trans
        (Nat.mul_le_mul (exactS.length_le ends) (exactT.length_le ends))
      rw [length_append, waysTogether_cons]
      omega

theorem Fits.cubeEstimate (ends : ∀ a, Ends (ups parents) a) (fits : Fits parents run)
    (includeLeafMirror : Bool) (edges : List (α × α)) :
    ∃ enough estimate counted cells filled,
      (∀ turns, enough ≤ turns → run.cubeEstimate turns edges = some (estimate, counted)) ∧
      run.cubeCells includeLeafMirror edges = some (cells, filled) ∧
      cells.dedup.length ≤ estimate := by
  obtain ⟨enough, counted, -, each⟩ := fits.foldlM_countEdge ends edges 0
  obtain ⟨cells, filled, -, made, few⟩ := fits.foldlM_cellsOfEdge ends includeLeafMirror edges []
  refine ⟨enough, _, counted, cells, filled, each, made, ?_⟩
  exact (dedup_sublist cells).length_le.trans few

end

end Lookups

section

variable {parents : Dict α (List α)}

def lookupsOf (parents : Dict α (List α)) (structParents : List α) : Lookups α :=
  { parents, structParents }

/-- Cycles are broken by links that lie on them and no others; on the map that is left, closures,
counts and depths agree whatever is asked before, and the cube estimate bounds the cells. -/
theorem breakCycles_agrees (parents : Dict α (List α))
    (distinct : ∀ n, (parentsOf parents n).Nodup) :
    ∃ broken, breakCycles parents = some broken ∧
      (∀ n, ¬Relation.TransGen (fun x y => y ∈ parentsOf broken x) n n) ∧
      (∀ n, (parentsOf broken n).Sublist (parentsOf parents n)) ∧
      (∀ n, ∀ p ∈ parentsOf parents n, p ∉ parentsOf broken n → Reach (parentsOf parents) p n) ∧
      ((∀ n, ¬Relation.TransGen (fun x y => y ∈ parentsOf parents x) n n) →
        ∀ n, parentsOf broken n = parentsOf parents n) ∧
      ∃ depth count : α → ℕ, ∀ structParents calls, ∃ enough answers run, (∀ turns, enough ≤ turns →
          (lookupsOf broken structParents).answers turns calls = some (answers, run)) ∧
        List.Forall₂ (Lookups.Tells broken depth count) calls answers ∧
        ∀ includeLeafMirror edges, ∃ enough estimate counted cells filled,
          (∀ turns, enough ≤ turns → run.cubeEstimate turns edges = some (estimate, counted)) ∧
          run.cubeCells includeLeafMirror edges = some (cells, filled) ∧
          cells.dedup.length ≤ estimate := by
  obtain ⟨broken, broke, ends, links, cycles⟩ := breakCycles_spec distinct
  have endsUps : ∀ n, Ends (ups broken) n := fun n =>
    (ends n).mono fun a p mem => (mem_ups.1 mem).1
  refine ⟨broken, broke, fun n => (ends n).cycleFree n (.refl n), links, cycles, ?_, ?_⟩
  · intro acyclic n
    refine (links n).eq_of_length_le ?_
    refine (Nodup.subperm (distinct n) fun p mem => ?_).length_le
    by_contra gone
    exact acyclic n (Relation.TransGen.head'_iff.2 ⟨p, mem, cycles n p mem gone⟩)
  · refine ⟨depth (ups broken), waysUp broken, fun structParents calls => ?_⟩
    have fits : Lookups.Fits broken (lookupsOf broken structParents) := ⟨rfl, nofun, nofun, nofun⟩
    obtain ⟨enough, answers, run, fits', tells, each⟩ := fits.answers endsUps calls
    exact ⟨enough, answers, run, each, tells, fits'.cubeEstimate endsUps⟩

theorem nodup_parentsOf (distinct : ∀ entry ∈ parents, entry.2.Nodup) (n : α) :
    (parentsOf parents n).Nodup := by
  rw [parentsOf]
  cases held : parents.get? n with
  | none => exact nodup_nil
  | some listed => exact distinct (n, listed) (Dict.mem_of_get? held)

/-- Of two nodes below each other, the second with a parent besides. -/
theorem breakCycles_two : ∃ broken, breakCycles [(1, [2]), (2, [1, 3])] = some broken ∧
    ∀ n, ¬Relation.TransGen (fun x y => y ∈ parentsOf broken x) n n := by
  have each : ∀ entry ∈ ([(1, [2]), (2, [1, 3])] : Dict ℕ (List ℕ)), entry.2.Nodup := by decide
  obtain ⟨broken, broke, acyclic, -⟩ := breakCycles_agrees _ (nodup_parentsOf each)
  exact ⟨broken, broke, acyclic⟩

end

end DataViz.Rollup
