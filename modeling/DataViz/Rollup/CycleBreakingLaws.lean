/-
# What breaking cycles cuts

The map that `_break_cycles` leaves has no cycle, each of its links is one of the original map's,
and each link it lost lies on a cycle of the original map.
-/

import DataViz.Rollup.CycleBreaking
import DataViz.Rollup.ClosureWalkLaws

namespace DataViz.Rollup

open List Option Dict

open DataViz.Digraph

variable {α : Type*} [DecidableEq α]

section

variable {parents after : Dict α (List α)} {cur p : α}

theorem parentsOf_cutLink (cut : cutLink parents cur p = some after) (node : α) :
    parentsOf after node =
      if cur = node then (parentsOf parents cur).filter (· ≠ p) else parentsOf parents node := by
  obtain ⟨listed, held, rfl⟩ := map_eq_some_iff.1 cut
  have own : parentsOf parents cur = listed := by
    rw [parentsOf, held]
    rfl
  rw [own]
  dsimp only
  split
  case isTrue none =>
    rw [parentsOf, get?_pop]
    split
    · exact (isEmpty_iff.1 none).symm
    · rfl
  case isFalse =>
    rw [parentsOf, get?_set]
    split
    · rfl
    · rfl

theorem exists_cutLink (link : p ∈ parentsOf parents cur) :
    ∃ after, cutLink parents cur p = some after := by
  rw [cutLink]
  rw [parentsOf] at link
  cases held : parents.get? cur with
  | none => simp [held] at link
  | some listed => exact ⟨_, rfl⟩

theorem parentsOf_of_notMem (off : cur ∉ parents.keys) : parentsOf parents cur = [] := by
  rw [mem_keys_iff, not_isSome_iff_eq_none] at off
  rw [parentsOf, off]
  rfl

end

namespace CycleBreak

section

variable {original : Dict α (List α)} {walk : CycleBreak α}

def onStack (walk : CycleBreak α) : List α :=
  walk.stack.map Prod.fst

/-- The parents a node on the way has looked at are done, or the node above it. -/
def Looked (walk : CycleBreak α) : Option α → List (α × List α) → Prop
  | _, [] => True
  | above, (cur, rest) :: below =>
    (∀ p ∈ parentsOf walk.parents cur, p ∈ rest ∨ walk.state.get? p = some .done ∨ above = some p) ∧
    Looked walk (some cur) below

structure Inv (original : Dict α (List α)) (walk : CycleBreak α) : Prop where
  links : ∀ n, (parentsOf walk.parents n).Sublist (parentsOf original n)
  cycles : ∀ n, ∀ p ∈ parentsOf original n, p ∉ parentsOf walk.parents n →
    Reach (parentsOf original) p n
  way : walk.onStack.IsChain fun upper lower => upper ∈ parentsOf original lower
  nodup : walk.onStack.Nodup
  path : ∀ a, walk.state.get? a = some .onPath ↔ a ∈ walk.onStack
  rests : ∀ frame ∈ walk.stack, frame.2 ⊆ parentsOf walk.parents frame.1 ∧ frame.2.Nodup
  looked : Looked walk none walk.stack
  ends : ∀ a, walk.state.get? a = some .done → Ends (parentsOf walk.parents) a

/-- What is done stays done, and a link that is cut needs no look. -/
theorem Looked.mono {above : Option α} {stack : List (α × List α)}
    (looked : Looked walk above stack) {other : CycleBreak α}
    (fewer : ∀ n, parentsOf other.parents n ⊆ parentsOf walk.parents n)
    (done : ∀ a, walk.state.get? a = some .done → other.state.get? a = some .done) :
    Looked other above stack := by
  induction stack generalizing above with
  | nil => trivial
  | cons frame below ih =>
    exact ⟨fun p mem => (looked.1 p (fewer _ mem)).imp_right (.imp_left (done p)), ih looked.2⟩

variable {cur : α}

/-- The frames below a node that is done. -/
theorem Looked.pop {stack : List (α × List α)} (looked : Looked walk (some cur) stack)
    {other : CycleBreak α} (same : other.parents = walk.parents)
    (done : ∀ a, walk.state.get? a = some .done → other.state.get? a = some .done)
    (here : other.state.get? cur = some .done) : Looked other none stack := by
  cases stack with
  | nil => trivial
  | cons frame below =>
    have later : Looked other (some frame.1) below :=
      looked.2.mono (fun n => same ▸ Subset.refl _) done
    refine ⟨fun p mem => ?_, later⟩
    rw [same] at mem
    rcases looked.1 p mem with rest | old | above
    · exact .inl rest
    · exact .inr (.inl (done p old))
    · exact .inr (.inl (some.inj above ▸ here))

variable {below : List (α × List α)} {rest : List α}

omit [DecidableEq α] in
theorem onStack_of_top (top : walk.stack = (cur, rest) :: below) :
    walk.onStack = cur :: below.map Prod.fst := by
  rw [onStack, top, map_cons]

variable {cur p : α}

theorem Inv.cut (inv : Inv original walk) (top : walk.stack = (cur, p :: rest) :: below)
    (on : p ∈ walk.onStack) {parents : Dict α (List α)}
    (cut : cutLink walk.parents cur p = some parents) :
    Inv original { walk with stack := (cur, rest) :: below, parents } := by
  let next : CycleBreak α := { walk with stack := (cur, rest) :: below, parents }
  have whole := onStack_of_top top
  have same : next.onStack = walk.onStack := whole.symm
  have after := parentsOf_cutLink cut
  have sub : ∀ n, (parentsOf parents n).Sublist (parentsOf walk.parents n) := by
    intro n
    rw [after]
    split
    case isTrue here => exact here ▸ filter_sublist
    case isFalse => exact Sublist.refl _
  have unique : cur ∉ below.map Prod.fst := by
    have nodup := inv.nodup
    rw [whole] at nodup
    exact (nodup_cons.1 nodup).1
  obtain ⟨listed, distinct⟩ := inv.rests (cur, p :: rest) (top ▸ mem_cons_self)
  obtain ⟨absent, restDistinct⟩ := nodup_cons.1 distinct
  have looked := inv.looked
  rw [top] at looked
  constructor
  case links => exact fun n => (sub n).trans (inv.links n)
  case cycles =>
    intro n q mem gone
    by_cases kept : q ∈ parentsOf walk.parents n
    · have here : cur = n ∧ q = p := by
        rw [after] at gone
        split at gone
        case isTrue here =>
          subst here
          rw [mem_filter, not_and] at gone
          exact ⟨rfl, by simpa using gone kept⟩
        case isFalse => exact absurd kept gone
      obtain ⟨rfl, rfl⟩ := here
      have way := inv.way
      rw [whole] at way on
      exact reach_of_chain way q on
    · exact inv.cycles n q mem kept
  case way => exact same ▸ inv.way
  case nodup => exact same ▸ inv.nodup
  case path => exact same ▸ inv.path
  case rests =>
    intro frame mem
    show frame.2 ⊆ parentsOf parents frame.1 ∧ frame.2.Nodup
    rcases mem_cons.1 mem with rfl | mem
    · refine ⟨fun q here => ?_, restDistinct⟩
      rw [after, if_pos rfl, mem_filter, decide_eq_true_eq]
      exact ⟨listed (mem_cons_of_mem _ here), fun same => absent (same ▸ here)⟩
    · have other : cur ≠ frame.1 := fun same => unique (same ▸ mem_map_of_mem mem)
      rw [after, if_neg other]
      exact inv.rests frame (top ▸ mem_cons_of_mem _ mem)
  case looked =>
    refine ⟨fun q mem => ?_, looked.2.mono (fun n => (sub n).subset) fun _ => id⟩
    have mem : q ∈ (parentsOf walk.parents cur).filter (· ≠ p) := by
      have mem : q ∈ parentsOf parents cur := mem
      rwa [after, if_pos rfl] at mem
    rw [mem_filter, decide_eq_true_eq] at mem
    exact (looked.1 q mem.1).imp_left fun listed =>
      (mem_cons.1 listed).resolve_left mem.2
  case ends => exact fun a done => (inv.ends a done).mono fun n => (sub n).subset

theorem Inv.pass (inv : Inv original walk) (top : walk.stack = (cur, p :: rest) :: below)
    (off : p ∉ walk.onStack) (ends : Ends (parentsOf walk.parents) p) {state : Dict α Visit}
    (done : state.get? p = some .done)
    (others : ∀ a, a ≠ p → state.get? a = walk.state.get? a) :
    Inv original { walk with stack := (cur, rest) :: below, state } := by
  let next : CycleBreak α := { walk with stack := (cur, rest) :: below, state }
  have same : next.onStack = walk.onStack := (onStack_of_top top).symm
  have kept : ∀ a, walk.state.get? a = some .done → state.get? a = some .done := by
    intro a old
    by_cases here : a = p
    · exact here ▸ done
    · rw [others a here, old]
  obtain ⟨listed, distinct⟩ := inv.rests (cur, p :: rest) (top ▸ mem_cons_self)
  have looked := inv.looked
  rw [top] at looked
  constructor
  case links => exact inv.links
  case cycles => exact inv.cycles
  case way => exact same ▸ inv.way
  case nodup => exact same ▸ inv.nodup
  case path =>
    intro a
    rw [same]
    by_cases here : a = p
    · subst here
      rw [done]
      exact ⟨nofun, fun on => absurd on off⟩
    · rw [others a here]
      exact inv.path a
  case rests =>
    intro frame mem
    rcases mem_cons.1 mem with rfl | mem
    · exact ⟨fun q here => listed (mem_cons_of_mem _ here), distinct.of_cons⟩
    · exact inv.rests frame (top ▸ mem_cons_of_mem _ mem)
  case looked =>
    refine ⟨fun q mem => ?_, looked.2.mono (fun n => Subset.refl _) kept⟩
    rcases looked.1 q mem with here | old | above
    · rcases mem_cons.1 here with rfl | here
      · exact .inr (.inl done)
      · exact .inl here
    · exact .inr (.inl (kept q old))
    · cases above
  case ends =>
    intro a here
    by_cases same : a = p
    · exact same ▸ ends
    · rw [others a same] at here
      exact inv.ends a here

theorem Inv.push (inv : Inv original walk) (top : walk.stack = (cur, p :: rest) :: below)
    (new : walk.state.get? p = none) (distinct : (parentsOf original p).Nodup) :
    Inv original { walk with
      stack := (p, parentsOf walk.parents p) :: (cur, rest) :: below
      state := walk.state.set p .onPath } := by
  let next : CycleBreak α := { walk with
    stack := (p, parentsOf walk.parents p) :: (cur, rest) :: below
    state := walk.state.set p .onPath }
  have whole := onStack_of_top top
  have longer : next.onStack = p :: walk.onStack := by
    rw [whole]
    rfl
  have off : p ∉ walk.onStack := by
    rw [← inv.path, new]
    exact nofun
  have kept : ∀ a, walk.state.get? a = some .done → next.state.get? a = some .done := by
    intro a old
    rw [get?_set_ne, old]
    rintro rfl
    rw [new] at old
    cases old
  obtain ⟨listed, rests⟩ := inv.rests (cur, p :: rest) (top ▸ mem_cons_self)
  have looked := inv.looked
  rw [top] at looked
  constructor
  case links => exact inv.links
  case cycles => exact inv.cycles
  case way =>
    refine isChain_cons_cons.2 ⟨?_, whole ▸ inv.way⟩
    exact (inv.links cur).subset (listed mem_cons_self)
  case nodup => exact longer ▸ nodup_cons.2 ⟨off, inv.nodup⟩
  case path =>
    intro a
    rw [longer, mem_cons, get?_set]
    split
    case isTrue same => exact ⟨fun _ => .inl same.symm, fun _ => rfl⟩
    case isFalse other =>
      rw [inv.path]
      exact ⟨.inr, fun on => on.resolve_left (Ne.symm other)⟩
  case rests =>
    intro frame mem
    rcases mem_cons.1 mem with rfl | mem
    · exact ⟨Subset.refl _, distinct.sublist (inv.links p)⟩
    · rcases mem_cons.1 mem with rfl | mem
      · exact ⟨fun q here => listed (mem_cons_of_mem _ here), rests.of_cons⟩
      · exact inv.rests frame (top ▸ mem_cons_of_mem _ mem)
  case looked =>
    have later : Looked next (some cur) below :=
      looked.2.mono (fun n => Subset.refl _) kept
    refine ⟨fun q mem => .inl mem, fun q mem => ?_, later⟩
    rcases looked.1 q mem with here | old | above
    · rcases mem_cons.1 here with rfl | here
      · exact .inr (.inr rfl)
      · exact .inl here
    · exact .inr (.inl (kept q old))
    · cases above
  case ends =>
    intro a here
    rw [get?_set] at here
    split at here
    case isTrue => cases here
    case isFalse => exact inv.ends a here

/-- The node on top has looked at all its parents. -/
theorem Inv.close (inv : Inv original walk) (top : walk.stack = (cur, []) :: below) :
    Inv original { walk with stack := below, state := walk.state.set cur .done } := by
  let next : CycleBreak α := { walk with stack := below, state := walk.state.set cur .done }
  have whole := onStack_of_top top
  have shorter : next.onStack = below.map Prod.fst := rfl
  have nodup := inv.nodup
  have way := inv.way
  rw [whole] at nodup way
  obtain ⟨absent, belowNodup⟩ := nodup_cons.1 nodup
  have here : next.state.get? cur = some .done := get?_set_self _ _ _
  have kept : ∀ a, walk.state.get? a = some .done → next.state.get? a = some .done := by
    intro a old
    by_cases same : cur = a
    · exact same ▸ here
    · rw [get?_set_ne same, old]
  have looked := inv.looked
  rw [top] at looked
  constructor
  case links => exact inv.links
  case cycles => exact inv.cycles
  case way => exact way.tail
  case nodup => exact belowNodup
  case path =>
    intro a
    rw [shorter, get?_set]
    split
    case isTrue same => exact ⟨nofun, fun on => absurd (same ▸ on) absent⟩
    case isFalse other =>
      rw [inv.path, whole, mem_cons]
      exact ⟨fun on => on.resolve_left (Ne.symm other), .inr⟩
  case rests => exact fun frame mem => inv.rests frame (top ▸ mem_cons_of_mem _ mem)
  case looked => exact looked.2.pop rfl kept here
  case ends =>
    intro a done
    rw [get?_set] at done
    split at done
    case isTrue same =>
      subst same
      refine Acc.intro _ fun p parent => inv.ends p ?_
      rcases looked.1 p parent with none | old | above
      · cases none
      · exact old
      · cases above
    case isFalse => exact inv.ends a done

/-- A turn does not fail and keeps what holds of a walk. -/
theorem Inv.step (inv : Inv original walk) (distinct : ∀ n, (parentsOf original n).Nodup) :
    ∃ next, walk.step = some next ∧ Inv original next := by
  rw [CycleBreak.step]
  split
  case h_1 => exact ⟨walk, rfl, inv⟩
  case h_2 cur below top => exact ⟨_, rfl, inv.close top⟩
  case h_3 cur p rest below top =>
    have listed := (inv.rests (cur, p :: rest) (top ▸ mem_cons_self)).1 mem_cons_self
    rw [look]
    split
    case isTrue closes =>
      obtain ⟨parents, cut⟩ := exists_cutLink listed
      have on : p ∈ walk.onStack := by
        rcases closes with path | rfl
        · exact (inv.path p).1 path
        · rw [onStack_of_top top]
          exact mem_cons_self
      exact ⟨_, by rw [cut]; rfl, inv.cut top on cut⟩
    case isFalse open_ =>
      have off : p ∉ walk.onStack := fun on => open_ (.inl ((inv.path p).2 on))
      split
      case isTrue done => exact ⟨_, rfl, inv.pass top off (inv.ends p done) done fun _ _ => rfl⟩
      case isFalse undone =>
        split
        case isTrue root =>
          have ends : Ends (parentsOf walk.parents) p := by
            refine Acc.intro _ fun q parent => ?_
            rw [parentsOf_of_notMem root] at parent
            cases parent
          refine ⟨_, rfl, inv.pass top off ends (get?_set_self _ _ _) fun a other => ?_⟩
          exact get?_set_ne (Ne.symm other) _ _
        case isFalse =>
          have new : walk.state.get? p = none := by
            cases held : walk.state.get? p with
            | none => rfl
            | some visit =>
              cases visit with
              | onPath => exact absurd (.inl held) open_
              | done => exact absurd held undone
          exact ⟨_, rfl, inv.push top new (distinct p)⟩

theorem isSome_set {state : Dict α Visit} {key a : α} {visit : Visit}
    (here : (state.get? a).isSome = true) : ((state.set key visit).get? a).isSome = true := by
  rw [← mem_keys_iff] at here ⊢
  exact mem_keys_set.2 (.inr here)

/-- Each turn leaves less to do, and forgets no node. -/
theorem Inv.step_remaining (inv : Inv original walk) (more : walk.stack ≠ [])
    {next : CycleBreak α} (stepped : walk.step = some next) :
    (∀ a, walk.seen a = true → next.seen a = true) ∧
      remaining (parentsOf original) (nodesOf original) next.seen next.stack <
        remaining (parentsOf original) (nodesOf original) walk.seen walk.stack := by
  rw [CycleBreak.step] at stepped
  split at stepped
  case h_1 none => exact absurd none more
  case h_2 cur below top =>
    obtain rfl := some.inj stepped
    have grows : ∀ a, walk.seen a = true →
        ({ walk with stack := below, state := walk.state.set cur .done } : CycleBreak α).seen a =
          true := fun a here => isSome_set here
    rw [top]
    exact ⟨grows, remaining_back grows⟩
  case h_3 cur p rest below top =>
    rw [look] at stepped
    rw [top]
    split at stepped
    case isTrue =>
      obtain ⟨parents, -, rfl⟩ := map_eq_some_iff.1 stepped
      exact ⟨fun _ here => here, remaining_looked fun _ here => here⟩
    case isFalse open_ =>
      split at stepped
      case isTrue =>
        obtain rfl := some.inj stepped
        exact ⟨fun _ here => here, remaining_looked fun _ here => here⟩
      case isFalse undone =>
        split at stepped
        case isTrue =>
          obtain rfl := some.inj stepped
          exact ⟨fun _ here => isSome_set here, remaining_looked fun _ here => isSome_set here⟩
        case isFalse =>
          obtain rfl := some.inj stepped
          have listed := (inv.rests (cur, p :: rest) (top ▸ mem_cons_self)).1 mem_cons_self
          refine ⟨fun _ here => isSome_set here, remaining_found ?_ ?_ ?_ ?_ ?_⟩
          · exact parentsOf_subset cur ((inv.links cur).subset listed)
          · rw [seen]
            cases held : walk.state.get? p with
            | none => rfl
            | some visit =>
              cases visit with
              | onPath => exact absurd (.inl held) open_
              | done => exact absurd held undone
          · rw [seen, get?_set_self]
            rfl
          · exact fun _ here => isSome_set here
          · exact (inv.links p).length_le

theorem Inv.run (inv : Inv original walk) (distinct : ∀ n, (parentsOf original n).Nodup) {turns : ℕ}
    (enough : remaining (parentsOf original) (nodesOf original) walk.seen walk.stack < turns) :
    ∃ last, walk.run turns = some last ∧ Inv original last ∧ last.stack = [] ∧
      ∀ a, walk.seen a = true → last.seen a = true := by
  induction turns generalizing walk with
  | zero => exact absurd enough (Nat.not_lt_zero _)
  | succ turns ih =>
    rw [CycleBreak.run]
    by_cases none : walk.stack = []
    · exact ⟨walk, if_pos none, inv, none, fun _ => id⟩
    · obtain ⟨next, stepped, inv'⟩ := inv.step distinct
      obtain ⟨grows, less⟩ := inv.step_remaining none stepped
      obtain ⟨last, ran, kept, done, later⟩ := ih inv' (by omega)
      refine ⟨last, ?_, kept, done, fun a here => later a (grows a here)⟩
      rw [if_neg none, stepped]
      exact ran

theorem Inv.done_of_seen (inv : Inv original walk) (end_ : walk.stack = []) {a : α}
    (seen : walk.seen a = true) : walk.state.get? a = some .done := by
  obtain ⟨visit, held⟩ := isSome_iff_exists.1 seen
  cases visit with
  | done => exact held
  | onPath =>
    have on := (inv.path a).1 held
    rw [onStack, end_] at on
    cases on

theorem Inv.from_ (inv : Inv original walk) (distinct : ∀ n, (parentsOf original n).Nodup)
    (idle : walk.stack = []) (start : α) :
    ∃ last, walk.from_ original start = some last ∧ Inv original last ∧ last.stack = [] ∧
      (∀ a, walk.seen a = true → last.seen a = true) ∧ last.seen start = true := by
  rw [CycleBreak.from_]
  split
  case isTrue done =>
    exact ⟨walk, rfl, inv, idle, fun _ => id, by rw [seen, done]; rfl⟩
  case isFalse undone =>
    let first : CycleBreak α := { walk with
      stack := [(start, parentsOf walk.parents start)]
      state := walk.state.set start .onPath }
    have firstInv : Inv original first := by
      constructor
      case links => exact inv.links
      case cycles => exact inv.cycles
      case way => exact isChain_singleton _
      case nodup => exact nodup_singleton _
      case path =>
        intro a
        show (walk.state.set start .onPath).get? a = some .onPath ↔ a ∈ [start]
        rw [get?_set, mem_singleton]
        split
        case isTrue same => exact ⟨fun _ => same.symm, fun _ => rfl⟩
        case isFalse other =>
          rw [inv.path, onStack, idle]
          exact ⟨nofun, fun same => absurd same.symm other⟩
      case rests =>
        intro frame mem
        rw [mem_singleton.1 mem]
        exact ⟨Subset.refl _, (distinct start).sublist (inv.links start)⟩
      case looked => exact ⟨fun p mem => .inl mem, trivial⟩
      case ends =>
        intro a here
        rw [get?_set] at here
        split at here
        case isTrue => cases here
        case isFalse => exact inv.ends a here
    obtain ⟨last, ran, kept, done, later⟩ := firstInv.run distinct (Nat.lt_succ_self _)
    have here : first.seen start = true := by
      rw [seen, get?_set_self]
      rfl
    exact ⟨last, ran, kept, done, fun a old => later a (isSome_set old), later start here⟩

theorem Inv.initial (original : Dict α (List α)) :
    Inv original ({ parents := original } : CycleBreak α) where
  links _ := Sublist.refl _
  cycles _ _ mem gone := absurd mem gone
  way := isChain_nil
  nodup := nodup_nil
  path _ := ⟨nofun, nofun⟩
  rests := nofun
  looked := trivial
  ends := nofun

theorem Inv.all (inv : Inv original walk) (distinct : ∀ n, (parentsOf original n).Nodup)
    (idle : walk.stack = []) (starts : List α) :
    ∃ last, starts.foldlM (fun walk start => CycleBreak.from_ walk original start) walk =
        some last ∧
      Inv original last ∧ last.stack = [] ∧ (∀ a, walk.seen a = true → last.seen a = true) ∧
      ∀ start ∈ starts, last.seen start = true := by
  induction starts generalizing walk with
  | nil => exact ⟨walk, rfl, inv, idle, fun _ => id, nofun⟩
  | cons start starts ih =>
    obtain ⟨next, ran, kept, idle', grows, here⟩ := inv.from_ distinct idle start
    obtain ⟨last, rest, kept', done, later, each⟩ := ih kept idle'
    refine ⟨last, ?_, kept', done, fun a old => later a (grows a old), ?_⟩
    · rw [foldlM_cons, ran]
      exact rest
    · exact forall_mem_cons.2 ⟨later start here, each⟩

end

end CycleBreak

section

variable {parents : Dict α (List α)}

/-- Breaking cycles does not fail. In the map it leaves, every walk up ends; it has no link that was
not there, and the links it lost lie on cycles. -/
theorem breakCycles_spec (distinct : ∀ n, (parentsOf parents n).Nodup) :
    ∃ broken, breakCycles parents = some broken ∧ (∀ n, Ends (parentsOf broken) n) ∧
      (∀ n, (parentsOf broken n).Sublist (parentsOf parents n)) ∧
      ∀ n, ∀ p ∈ parentsOf parents n, p ∉ parentsOf broken n → Reach (parentsOf parents) p n := by
  obtain ⟨last, ran, inv, idle, -, each⟩ :=
    (CycleBreak.Inv.initial parents).all distinct rfl parents.keys
  refine ⟨last.parents, by rw [breakCycles, ran]; rfl, fun n => ?_, inv.links, inv.cycles⟩
  by_cases key : n ∈ parents.keys
  · exact inv.ends n (inv.done_of_seen idle (each n key))
  · have none : parentsOf last.parents n = [] := by
      have sub := inv.links n
      rw [parentsOf_of_notMem key] at sub
      exact sublist_nil.1 sub
    refine Acc.intro _ fun p parent => ?_
    rw [none] at parent
    cases parent

end

end DataViz.Rollup
