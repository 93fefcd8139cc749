/-
# The loops found are those there are

`_strongly_connected` takes the turns of the components that place entities: the work of a node is
the edges it has yet to look at, and a component's number stands for its root. An edge is reported
exactly when its child reaches its parent by edges with other ids.
-/

import DataViz.Versioning.ContainmentCycles
import DataViz.View.ComponentsLaws

open DataViz.Digraph

namespace DataViz.Versioning

open Dict

open View

def Adjacency.graph (adj : Adjacency) : Dict EntityId (List EntityId) :=
  adj.map fun entry => (entry.1, entry.2.map Prod.snd)

theorem Adjacency.get?_graph (adj : Adjacency) (v : EntityId) :
    adj.graph.get? v = (adj.get? v).map (·.map Prod.snd) :=
  get?_map_value adj (fun _ edges => edges.map Prod.snd) v

def numbered (number : EntityId → ℕ) (component : Dict EntityId EntityId) : Dict EntityId ℕ :=
  component.map fun entry => (entry.1, number entry.2)

theorem numbered_set (number : EntityId → ℕ) (component : Dict EntityId EntityId) (w v : EntityId) :
    numbered number (component.set w v) = (numbered number component).set w (number v) := by
  induction component with
  | nil => rfl
  | cons entry rest ih =>
    obtain ⟨k, root⟩ := entry
    by_cases same : k = w
    · subst same
      simp [numbered, Dict.set]
    · simp only [numbered, Dict.set, if_neg same, List.map_cons]
      exact congrArg _ ih

namespace Strong

variable {v : EntityId}

/-- Nodes are taken off the stack alike. -/
theorem popInto_numbered {number : EntityId → ℕ} {ncomp : ℕ} (named : number v = ncomp)
    (stack : List EntityId) (component : Dict EntityId EntityId) :
    popInto ncomp v stack (numbered number component) =
      (Tarjan.popUntil v stack component).map fun r => (r.1, numbered number r.2) := by
  induction stack generalizing component with
  | nil => rfl
  | cons w stack ih =>
    have set : (numbered number component).set w ncomp = numbered number (component.set w v) := by
      rw [numbered_set, named]
    rw [popInto, Tarjan.popUntil, set]
    split
    next => rfl
    next => exact ih _

/-- What a closed component adds to those known. -/
theorem popUntil_component {stack rest : List EntityId}
    {component component' : Dict EntityId EntityId}
    (popped : Tarjan.popUntil v stack component = some (rest, component')) :
    (∀ entry ∈ component', entry.2 = v ∨ entry ∈ component) ∧ v ∈ component'.keys ∧
      component.keys ⊆ component'.keys := by
  have grows (component : Dict EntityId EntityId) (w : EntityId) :
      component.keys ⊆ (component.set w v).keys := by
    intro x mem
    rw [mem_keys_iff] at mem ⊢
    rw [get?_set]
    split
    next => rfl
    next => exact mem
  have added (component : Dict EntityId EntityId) (w : EntityId) :
      ∀ entry ∈ component.set w v, entry.2 = v ∨ entry ∈ component :=
    fun entry mem => (eq_or_mem_of_mem_set mem).imp_left fun same => by rw [same]
  induction stack generalizing component with
  | nil => cases popped
  | cons w stack ih =>
    rw [Tarjan.popUntil] at popped
    split at popped
    next same =>
      obtain ⟨rfl, rfl⟩ := Prod.mk.inj (Option.some.inj popped)
      subst same
      refine ⟨added component w, ?_, grows component w⟩
      rw [mem_keys_iff, get?_set_self]
      rfl
    next =>
      obtain ⟨old, root, more⟩ := ih popped
      refine ⟨fun entry mem => ?_, root, List.Subset.trans (grows component w) more⟩
      exact (old entry mem).elim .inl (added component w entry)

/-- A state of `_strongly_connected` in the other algorithm's terms. -/
structure Follows (adj : Adjacency) (s : Strong) (t : Tarjan EntityId) : Prop where
  index : t.index = s.index
  low : t.low = s.low
  stack : t.stack = s.stack
  counter : s.counter = s.index.length
  work : t.work = s.work.map fun entry =>
    (entry.1, ((adj.out entry.1).drop entry.2).map Prod.snd)
  placed : ∀ x, (s.index.get? x).isSome = true → (adj.get? x).isSome = true
  roots : ∀ entry ∈ t.component, entry.2 ∈ t.component.keys
  numbers : ∃ number, s.comp = numbered number t.component ∧
    (∀ entry ∈ t.component, number entry.2 < s.ncomp) ∧
    ∀ entry ∈ t.component, ∀ other ∈ t.component, number entry.2 = number other.2 →
      entry.2 = other.2

variable {adj : Adjacency} {s : Strong} {t : Tarjan EntityId}

theorem tellParent_eq (low : Dict EntityId ℕ) (v : EntityId) (work : List (EntityId × ℕ)) :
    Tarjan.tellParent low v (work.map fun entry =>
      (entry.1, ((adj.out entry.1).drop entry.2).map Prod.snd)) = tellParent low v work := by
  cases work with
  | nil => rfl
  | cons entry work => rfl

/-- A node is found by both. -/
theorem Follows.visit (follows : Follows adj s t) {w : EntityId}
    (listed : (adj.get? w).isSome = true) (fresh : s.index.get? w = none) :
    Follows adj (s.visit w) (t.visit w ((adj.out w).map Prod.snd)) where
  index := by
    rw [Tarjan.visit, Strong.visit, follows.counter, follows.index]
  low := by
    rw [Tarjan.visit, Strong.visit, follows.counter, follows.index, follows.low]
  stack := by
    rw [Tarjan.visit, Strong.visit, follows.stack]
  counter := by
    rw [Strong.visit, Tarjan.length_set_of_fresh fresh, follows.counter]
  work := by
    rw [Tarjan.visit, follows.work]
    rfl
  placed x found := by
    rw [Strong.visit, get?_set] at found
    split at found
    next same => exact same ▸ listed
    next => exact follows.placed x found
  roots := follows.roots
  numbers := follows.numbers

/-- A node's edges are all looked at by both. -/
theorem Follows.finish (follows : Follows adj s t) {work : List (EntityId × ℕ)}
    (open_ : t.component.get? v = none) {t' : Tarjan EntityId}
    (finished : t.finish v (work.map fun entry =>
      (entry.1, ((adj.out entry.1).drop entry.2).map Prod.snd)) = some t') :
    ∃ s', s.finish v work = some s' ∧ Follows adj s' t' := by
  obtain ⟨index, low, stack, component, waiting⟩ := t
  obtain rfl : index = s.index := follows.index
  obtain rfl : low = s.low := follows.low
  obtain rfl : stack = s.stack := follows.stack
  obtain ⟨number, comp, below, apart⟩ := follows.numbers
  simp only [Tarjan.finish, Option.bind_eq_bind, Option.bind_eq_some_iff, tellParent_eq] at finished
  obtain ⟨low, told, least, lowest, n, numberOf, chosen⟩ := finished
  rw [Strong.finish, told, Option.bind_eq_bind, Option.bind_some, lowest, Option.bind_eq_bind,
    Option.bind_some, numberOf, Option.bind_eq_bind, Option.bind_some]
  split at chosen
  next same =>
    rw [if_pos same]
    obtain ⟨⟨rest, component'⟩, popped, closes⟩ := Option.bind_eq_some_iff.mp chosen
    cases closes
    -- The closed component's root is new, so its number is not one of those given before.
    let number' (root : EntityId) : ℕ := if root = v then s.ncomp else number root
    have old (entry : EntityId × EntityId) (mem : entry ∈ component) : entry.2 ≠ v := by
      intro same
      have known := follows.roots entry mem
      rw [same, mem_keys_iff, open_] at known
      cases known
    have kept : numbered number component = numbered number' component :=
      List.map_congr_left fun entry mem => by
        show _ = (entry.1, if entry.2 = v then s.ncomp else number entry.2)
        rw [if_neg (old entry mem)]
    have pops := popInto_numbered (show number' v = s.ncomp from if_pos rfl) s.stack component
    rw [popped, ← kept, ← comp] at pops
    rw [pops]
    obtain ⟨entries, rooted, keys⟩ := popUntil_component popped
    refine ⟨_, rfl, ?_⟩
    exact {
      index := rfl
      low := rfl
      stack := rfl
      counter := follows.counter
      work := rfl
      placed := follows.placed
      roots := fun entry mem => (entries entry mem).elim (fun same => same ▸ rooted)
        fun mem => keys (follows.roots entry mem)
      numbers := by
        refine ⟨number', rfl, fun entry mem => ?_, fun entry mem other mem' same => ?_⟩
        · show (if entry.2 = v then s.ncomp else number entry.2) < s.ncomp + 1
          split
          next => exact Nat.lt_succ_self _
          next ne => exact Nat.lt_succ_of_lt (below entry ((entries entry mem).resolve_left ne))
        · change (if entry.2 = v then s.ncomp else number entry.2) =
            (if other.2 = v then s.ncomp else number other.2) at same
          split at same
          next here =>
            split at same
            next there => rw [here, there]
            next ne =>
              have less := below other ((entries other mem').resolve_left ne)
              omega
          next ne =>
            have less := below entry ((entries entry mem).resolve_left ne)
            split at same
            next there => omega
            next ne' =>
              exact apart entry ((entries entry mem).resolve_left ne) other
                ((entries other mem').resolve_left ne') same }
  next ne =>
    rw [if_neg ne]
    cases chosen
    refine ⟨_, rfl, ?_⟩
    exact {
      index := rfl
      low := rfl
      stack := rfl
      counter := follows.counter
      work := rfl
      placed := follows.placed
      roots := follows.roots
      numbers := follows.numbers }

/-- Both take the same turn. -/
theorem Follows.step (follows : Follows adj s t) (inv : Tarjan.Inv adj.graph none t)
    (busy : t.work ≠ []) {t' : Tarjan EntityId} (stepped : t.step adj.graph = some t') :
    ∃ s', s.step adj = some s' ∧ Follows adj s' t' := by
  obtain ⟨index, low, stack, component, waiting⟩ := t
  obtain rfl : index = s.index := follows.index
  obtain rfl : low = s.low := follows.low
  obtain rfl : stack = s.stack := follows.stack
  cases working : s.work with
  | nil =>
    rw [follows.work, working] at busy
    exact absurd rfl busy
  | cons entry work =>
  obtain ⟨v, i⟩ := entry
  have here : waiting = _ := follows.work
  rw [working, List.map_cons] at here
  have waits : v ∈ s.stack := by
    refine inv.working.subset ?_
    rw [here]
    exact List.mem_cons_self
  have found := (inv.found v).mpr (.inl waits)
  obtain ⟨nbrs, listed⟩ := Option.isSome_iff_exists.mp (follows.placed v found)
  have out : adj.out v = nbrs := by rw [Adjacency.out, listed, Option.getD_some]
  rw [out] at here
  simp only [Strong.step, working, listed, Option.bind_eq_bind, Option.bind_some]
  cases next : nbrs[i]? with
  | none =>
    have all := List.getElem?_eq_none_iff.mp next
    rw [List.drop_eq_nil_of_le all] at here
    simp only [Tarjan.step, here, List.map_nil] at stepped
    exact follows.finish (Option.not_isSome_iff_eq_none.mp (inv.unsettled v waits)) stepped
  | some edge =>
    obtain ⟨oeid, w⟩ := edge
    obtain ⟨lt, at_⟩ := List.getElem?_eq_some_iff.mp next
    have later : nbrs.drop i = (oeid, w) :: nbrs.drop (i + 1) := by
      rw [List.drop_eq_getElem_cons lt, at_]
    rw [later, List.map_cons] at here
    have moved : Follows adj { s with work := (v, i + 1) :: work }
        ⟨s.index, s.low, s.stack, component, (v, (nbrs.drop (i + 1)).map Prod.snd) ::
          work.map fun entry => (entry.1, ((adj.out entry.1).drop entry.2).map Prod.snd)⟩ :=
      { follows with
        work := by
          rw [List.map_cons, out] }
    simp only [Tarjan.step, here] at stepped
    dsimp only
    cases known : s.index.get? w with
    | none =>
      simp only [known] at stepped
      obtain ⟨edges, there, rfl⟩ := Option.map_eq_some_iff.mp stepped
      rw [Adjacency.get?_graph] at there
      obtain ⟨pairs, listed', rfl⟩ := Option.map_eq_some_iff.mp there
      have outW : adj.out w = pairs := by rw [Adjacency.out, listed', Option.getD_some]
      refine ⟨_, rfl, ?_⟩
      rw [← outW]
      exact moved.visit (by rw [listed']; rfl) known
    | some n =>
      simp only [known] at stepped
      dsimp only
      split at stepped
      next on =>
        rw [if_pos on]
        obtain ⟨low, lowered, rfl⟩ := Option.map_eq_some_iff.mp stepped
        refine ⟨{ s with work := (v, i + 1) :: work, low }, ?_, { moved with low := rfl }⟩
        rw [show lower s.low v n = some low from lowered]
        rfl
      next off =>
        rw [if_neg off]
        cases stepped
        exact ⟨_, rfl, moved⟩

section

variable (closed : ∀ v, ∀ w ∈ targets adj.graph v, (adj.graph.get? w).isSome = true)

include closed

/-- With turns enough, both come to the end of their work. -/
theorem Follows.run {turns : ℕ} (follows : Follows adj s t) (inv : Tarjan.Inv adj.graph none t)
    (enough : t.remaining adj.graph < turns) :
    ∃ s' t', s.run adj turns = some s' ∧ Follows adj s' t' ∧ Tarjan.Inv adj.graph none t' ∧
      t'.work = [] ∧ ∀ x, t.Found x → t'.Found x := by
  induction turns generalizing s t with
  | zero => omega
  | succ turns ih =>
    rw [Strong.run]
    by_cases idle : s.work = []
    · rw [if_pos idle]
      have idle' : t.work = [] := by rw [follows.work, idle, List.map_nil]
      exact ⟨s, t, rfl, follows, inv, idle', fun _ found => found⟩
    · rw [if_neg idle]
      have busy : t.work ≠ [] := by
        rw [follows.work]
        exact fun none => idle (List.map_eq_nil_iff.mp none)
      obtain ⟨t', stepped, inv', grows⟩ := inv.step_keeps busy closed
      obtain ⟨s', ran, follows'⟩ := follows.step inv busy stepped
      have less := Tarjan.remaining_step busy stepped
      obtain ⟨s'', t'', ran', last, inv'', idle', grows'⟩ := ih follows' inv' (by omega)
      refine ⟨s'', t'', ?_, last, inv'', idle', fun x found => grows' x (grows x found)⟩
      rw [ran, Option.bind_some, ran']

theorem Follows.fromRoots {roots : List EntityId} (follows : Follows adj s t)
    (inv : Tarjan.Inv adj.graph none t) (idle : t.work = [])
    (listed : ∀ root ∈ roots, (adj.get? root).isSome = true) :
    ∃ s' t', s.fromRoots adj adj.turns roots = some s' ∧ Follows adj s' t' ∧
      Tarjan.Inv adj.graph none t' ∧ t'.work = [] ∧ (∀ x, t.Found x → t'.Found x) ∧
      ∀ root ∈ roots, t'.Found root := by
  induction roots generalizing s t with
  | nil => exact ⟨s, t, rfl, follows, inv, idle, fun _ found => found, nofun⟩
  | cons root roots ih =>
    have rest : ∀ r ∈ roots, (adj.get? r).isSome = true :=
      fun r member => listed r (List.mem_cons_of_mem _ member)
    rw [Strong.fromRoots]
    cases known : s.index.get? root with
    | some n =>
      have found : t.Found root := by rw [Tarjan.Found, follows.index, known]; rfl
      obtain ⟨s', t', ran, last, inv', idle', grows, all⟩ := ih follows inv idle rest
      refine ⟨s', t', by rw [Option.isSome_some, if_pos rfl, ran], last, inv', idle', grows, ?_⟩
      exact List.forall_mem_cons.mpr ⟨grows root found, all⟩
    | none =>
      have here := listed root List.mem_cons_self
      obtain ⟨edges, atRoot⟩ := Option.isSome_iff_exists.mp here
      have out : adj.out root = edges := by rw [Adjacency.out, atRoot, Option.getD_some]
      have ends : targets adj.graph root = (adj.out root).map Prod.snd := by
        rw [targets, Adjacency.get?_graph, atRoot, out, Option.map_some, Option.getD_some]
      have fresh : t.index.get? root = none := by rw [follows.index, known]
      have visited := inv.visit fresh (fun p on => by simp [Tarjan.AtWork, idle] at on)
        (by rintro _ ⟨⟩)
      rw [ends] at visited
      have few : (t.visit root ((adj.out root).map Prod.snd)).remaining adj.graph < adj.turns := by
        have atGraph : adj.graph.get? root = some ((adj.out root).map Prod.snd) := by
          rw [Adjacency.get?_graph, atRoot, out, Option.map_some]
        have keys (x : _) : x ∈ (t.index.set root t.index.length).keys ↔
            x ∈ t.index.keys ∨ x = root := mem_keys_set.trans or_comm
        have less := Tarjan.unfound_visit (get?_eq_none_iff.mp fresh) atGraph keys
        have most := Tarjan.unfound_mono (List.nil_subset t.index.keys) adj.graph
        have total : Tarjan.unfound [] adj.graph + 1 = adj.turns := by
          simp [Tarjan.unfound, Adjacency.turns, Adjacency.graph, Function.comp_def]
        simp only [Tarjan.remaining, Tarjan.visit, idle, List.map_cons, List.map_nil,
          List.sum_cons, List.sum_nil]
        omega
      obtain ⟨s', t', ran, follows', inv', idle', grows⟩ :=
        Follows.run closed (follows.visit here known) visited few
      obtain ⟨s'', t'', more, last, inv'', idle'', grows', all⟩ := ih follows' inv' idle' rest
      have first :=
        (Tarjan.found_visit t root ((adj.out root).map Prod.snd) root).mpr (.inl rfl)
      refine ⟨s'', t'', ?_, last, inv'', idle'', fun x found => ?_, ?_⟩
      · rw [Option.isSome_none, if_neg Bool.false_ne_true, ran, Option.bind_some, more]
      · exact grows' x (grows x ((Tarjan.found_visit t root _ x).mpr (.inr found)))
      · exact List.forall_mem_cons.mpr ⟨grows' root (grows root first), all⟩

/-- `_strongly_connected` numbers the nodes of a graph, two of them alike exactly when each reaches
the other. -/
theorem stronglyConnected_spec : ∃ comp, stronglyConnected adj = some comp ∧
      (∀ v, (comp.get? v).isSome = true ↔ v ∈ adj.keys) ∧
      ∀ u ∈ adj.keys, ∀ v ∈ adj.keys,
        (comp.get? u = comp.get? v ↔ Connected (targets adj.graph) u v) := by
  have start : Follows adj {} ⟨[], [], [], [], []⟩ := {
    index := rfl
    low := rfl
    stack := rfl
    counter := rfl
    work := rfl
    placed := fun x found => by cases found
    roots := nofun
    numbers := ⟨fun _ => 0, rfl, nofun, nofun⟩ }
  obtain ⟨s, t, ran, follows, inv, idle, -, all⟩ := start.fromRoots closed Tarjan.Inv.start rfl
    fun root member => mem_keys_iff.mp member
  obtain ⟨number, comp, -, apart⟩ := follows.numbers
  have get? (v : EntityId) : s.comp.get? v = (t.component.get? v).map number := by
    rw [comp]
    exact get?_map_value t.component (fun _ root => number root) v
  have settled : ∀ v ∈ adj.keys, t.Settled v := by
    intro v member
    refine ((inv.found v).mp (all v member)).resolve_left fun waits => ?_
    obtain ⟨p, on, -⟩ := inv.rooted v waits
    simp [Tarjan.AtWork, idle] at on
  refine ⟨s.comp, by rw [stronglyConnected, ran]; rfl, fun v => ?_, fun u hu v hv => ?_⟩
  · rw [get?, Option.isSome_map]
    constructor
    · intro done
      have found := (inv.found v).mpr (.inr done)
      rw [Tarjan.Found, follows.index] at found
      exact mem_keys_iff.mpr (follows.placed v found)
    · exact settled v
  · obtain ⟨root, atU⟩ := Option.isSome_iff_exists.mp (settled u hu)
    obtain ⟨root', atV⟩ := Option.isSome_iff_exists.mp (settled v hv)
    rw [get?, get?, atU, atV, Option.map_some, Option.map_some, Option.some.injEq]
    constructor
    · intro same
      obtain rfl := apart _ (mem_of_get? atU) _ (mem_of_get? atV) same
      exact (inv.connected u root atU).trans (inv.connected v root atV).symm
    · intro pair
      have same := inv.whole u v (settled u hu) (settled v hv) pair
      rw [atU, atV] at same
      rw [Option.some.inj same]

end

end Strong

section

variable (edges : List ContainmentEdge)

def contains (v : EntityId) : List EntityId :=
  (edges.filter fun e => e.linked ∧ e.parent = v).map (·.child)

/-- Where the edges of a node lead, every version of one edge set aside. -/
def containsBeside (eid v : EntityId) : List EntityId :=
  (edges.filter fun e => e.linked ∧ e.id ≠ eid ∧ e.parent = v).map (·.child)

/-- The child of an edge can already reach its parent by other edges. -/
def ContainmentEdge.ClosesLoop (check : ContainmentEdge) : Prop :=
  check.linked = true ∧ check.parent ≠ check.child ∧
    Reach (containsBeside edges check.id) check.child check.parent

variable {edges} {check : ContainmentEdge} {eid v w : EntityId}

theorem mem_contains : w ∈ contains edges v ↔
    ∃ e ∈ edges, e.linked = true ∧ e.parent = v ∧ e.child = w := by
  simp only [contains, List.mem_map, List.mem_filter, decide_eq_true_eq, and_assoc]

theorem mem_containsBeside : w ∈ containsBeside edges eid v ↔
    ∃ e ∈ edges, e.linked = true ∧ e.id ≠ eid ∧ e.parent = v ∧ e.child = w := by
  simp only [containsBeside, List.mem_map, List.mem_filter, decide_eq_true_eq, and_assoc]

theorem containsBeside_subset (eid v : EntityId) :
    containsBeside edges eid v ⊆ contains edges v := by
  intro w mem
  obtain ⟨e, here, linked, -, ends⟩ := mem_containsBeside.mp mem
  exact mem_contains.mpr ⟨e, here, linked, ends⟩

/-- Of an edge with one version, the way back never runs along the edge itself. -/
theorem reach_beside (among : check ∈ edges) (linked : check.linked = true)
    (once : versions edges check.id ≤ 1) (path : Reach (contains edges) check.child v) :
    Reach (containsBeside edges check.id) check.child v := by
  induction path with
  | refl => exact .refl _
  | @tail y z _ edge ih =>
    obtain ⟨e, mem, linked', from_, leads⟩ := mem_contains.mp edge
    by_cases same : e.id = check.id
    · have mem' : e ∈ edges.filter fun e => e.linked ∧ e.id = check.id :=
        List.mem_filter.mpr ⟨mem, decide_eq_true ⟨linked', same⟩⟩
      have among' : check ∈ edges.filter fun e => e.linked ∧ e.id = check.id :=
        List.mem_filter.mpr ⟨among, decide_eq_true ⟨linked, rfl⟩⟩
      obtain ⟨only, all⟩ := List.length_eq_one_iff.mp
        (Nat.le_antisymm once (List.length_pos_of_mem among'))
      rw [all, List.mem_singleton] at mem' among'
      rw [← leads, mem', ← among']
      exact .refl _
    · exact ih.trans (.of_mem (mem_containsBeside.mpr ⟨e, mem, linked', same, from_, leads⟩))

namespace Adjacency

theorem out_add (adj : Adjacency) (e : ContainmentEdge) (v : EntityId) :
    (adj.add e).out v = adj.out v ++ if e.parent = v then [(e.id, e.child)] else [] := by
  have set : ((adj.set e.parent (adj.out e.parent ++ [(e.id, e.child)])).get? v).getD [] =
      adj.out v ++ if e.parent = v then [(e.id, e.child)] else [] := by
    rw [get?_set]
    split
    next same =>
      subst same
      rfl
    next => rw [List.append_nil, out]
  rw [← set, add]
  split
  next => rfl
  next absent =>
    rw [out, get?_set]
    split
    next same =>
      subst same
      rw [Option.not_isSome_iff_eq_none] at absent
      rw [show Dict.get? (Dict.set adj e.parent (adj.out e.parent ++ [(e.id, e.child)])) e.child =
        none from absent]
      rfl
    next => rfl

theorem mem_keys_add (adj : Adjacency) (e : ContainmentEdge) (v : EntityId) :
    v ∈ (adj.add e).keys ↔ v ∈ adj.keys ∨ v = e.parent ∨ v = e.child := by
  have set (value : List (EntityId × EntityId)) :
      v ∈ (adj.set e.parent value).keys ↔ v ∈ adj.keys ∨ v = e.parent := by
    rw [mem_keys_iff, mem_keys_iff, get?_set]
    by_cases same : e.parent = v
    · simp [same]
    · simp [same, Ne.symm same]
  rw [add, ← or_assoc]
  split
  next present =>
    rw [set]
    refine ⟨.inl, fun either => either.elim id fun same => ?_⟩
    subst same
    exact (set _).mp (mem_keys_iff.mpr present)
  next =>
    rw [← set ((adj.get? e.parent).getD [] ++ [(e.id, e.child)]), mem_keys_iff,
      mem_keys_iff, get?_set]
    by_cases same : e.child = v
    · simp [same]
    · simp [same, Ne.symm same]

variable (edges)

theorem out_of (v : EntityId) : (of edges).out v =
    (edges.filter fun e => e.linked ∧ e.parent = v).map fun e => (e.id, e.child) := by
  have fold (linked : List ContainmentEdge) (adj : Adjacency) : (linked.foldl add adj).out v =
      adj.out v ++ (linked.filter fun e => e.parent = v).map fun e => (e.id, e.child) := by
    induction linked generalizing adj with
    | nil => exact (List.append_nil _).symm
    | cons e linked ih =>
      rw [List.foldl_cons, ih, out_add]
      by_cases same : e.parent = v <;> simp [same]
  rw [of, fold]
  simp [out, and_comm]

theorem mem_keys_of (v : EntityId) :
    v ∈ (of edges).keys ↔ ∃ e ∈ edges, e.linked = true ∧ (v = e.parent ∨ v = e.child) := by
  have fold (linked : List ContainmentEdge) (adj : Adjacency) : v ∈ (linked.foldl add adj).keys ↔
      v ∈ adj.keys ∨ ∃ e ∈ linked, v = e.parent ∨ v = e.child := by
    induction linked generalizing adj with
    | nil => simp
    | cons e linked ih => rw [List.foldl_cons, ih, mem_keys_add, List.exists_mem_cons_iff, or_assoc]
  rw [of, fold]
  simp [Dict.keys, and_assoc]

theorem targets_of (v : EntityId) : targets (of edges).graph v = contains edges v := by
  have ends : targets (of edges).graph v = ((of edges).out v).map Prod.snd := by
    rw [targets, get?_graph, out]
    cases (of edges).get? v <;> rfl
  rw [ends, out_of, List.map_map]
  rfl

theorem closed_of (v : EntityId) :
    ∀ w ∈ targets (of edges).graph v, ((of edges).graph.get? w).isSome = true := by
  intro w mem
  rw [targets_of] at mem
  obtain ⟨e, here, linked, -, rfl⟩ := mem_contains.mp mem
  rw [get?_graph, Option.isSome_map]
  exact mem_keys_iff.mp ((mem_keys_of edges _).mpr ⟨e, here, linked, .inr rfl⟩)

end Adjacency

variable {comp : Dict EntityId ℕ}

theorem mem_inComponent {ca : ℕ} : w ∈ inComponent (.of edges) comp eid ca v ↔
      w ∈ containsBeside edges eid v ∧ comp.get? w = some ca := by
  rw [inComponent, Adjacency.out_of, mem_containsBeside]
  simp only [List.mem_map, List.mem_filter, decide_eq_true_eq]
  constructor
  · rintro ⟨_, ⟨⟨e, ⟨mem, linked, from_⟩, rfl⟩, ne, same⟩, rfl⟩
    exact ⟨⟨e, mem, linked, ne, from_, rfl⟩, same⟩
  · rintro ⟨⟨e, mem, linked, ne, from_, rfl⟩, same⟩
    exact ⟨_, ⟨⟨e, ⟨mem, linked, from_⟩, rfl⟩, ne, same⟩, rfl⟩

/-- The way back stays inside the component, for the edge itself closes the loop. -/
theorem reach_inComponent {ca : ℕ} (among : check ∈ edges) (linked : check.linked = true)
    (atParent : comp.get? check.parent = some ca)
    (same : ∀ u, Connected (contains edges) u check.parent → comp.get? u = comp.get? check.parent) :
    Reach (inComponent (.of edges) comp check.id ca) check.child check.parent ↔
      Reach (containsBeside edges check.id) check.child check.parent := by
  constructor
  · exact Reach.mono fun v w mem => (mem_inComponent.mp mem).1
  · intro path
    have down : check.child ∈ contains edges check.parent :=
      mem_contains.mpr ⟨check, among, linked, rfl, rfl⟩
    have on (x : EntityId) (before : Reach (contains edges) check.child x)
        (after : Reach (containsBeside edges check.id) x check.parent) :
        Reach (inComponent (.of edges) comp check.id ca) x check.parent := by
      induction after using Relation.ReflTransGen.head_induction_on with
      | refl => exact .refl _
      | @head y z edge rest ih =>
        have further := before.trans (.of_mem (containsBeside_subset _ _ edge))
        have back : Connected (contains edges) z check.parent :=
          ⟨Reach.mono (containsBeside_subset check.id) rest, (Reach.of_mem down).trans further⟩
        have inside : comp.get? z = some ca := (same z back).trans atParent
        exact (Reach.of_mem (mem_inComponent.mpr ⟨edge, inside⟩)).trans (ih further)
    exact on check.child (.refl _) path

/-- A checked edge closes a loop where the components say so. -/
theorem closesLoop_iff (among : check ∈ edges)
    (listed : ∀ v, (comp.get? v).isSome = true ↔ v ∈ (Adjacency.of edges).keys)
    (same : ∀ u ∈ (Adjacency.of edges).keys, ∀ v ∈ (Adjacency.of edges).keys,
      (comp.get? u = comp.get? v ↔ Connected (contains edges) u v)) :
    closesLoop edges (.of edges) comp check = true ↔ check.ClosesLoop edges := by
  have named (v : EntityId) (mem : v ∈ (Adjacency.of edges).keys) : v ≠ "" := by
    obtain ⟨e, -, linked, ends⟩ := (Adjacency.mem_keys_of edges v).mp mem
    rw [ContainmentEdge.linked, Bool.and_eq_true, decide_eq_true_eq, decide_eq_true_eq] at linked
    rcases ends with rfl | rfl
    · exact linked.1
    · exact linked.2
  have unplaced (v : EntityId) (empty : v = "") : comp.get? v = none := by
    rw [← Option.not_isSome_iff_eq_none, listed]
    exact fun mem => named v mem empty
  rw [closesLoop]
  by_cases linked : check.linked = true
  · have atParent := (Adjacency.mem_keys_of edges check.parent).mpr ⟨check, among, linked, .inl rfl⟩
    have atChild := (Adjacency.mem_keys_of edges check.child).mpr ⟨check, among, linked, .inr rfl⟩
    obtain ⟨ca, here⟩ := Option.isSome_iff_exists.mp ((listed _).mpr atParent)
    have down : check.child ∈ contains edges check.parent :=
      mem_contains.mpr ⟨check, among, linked, rfl, rfl⟩
    rw [here]
    dsimp only
    split
    next skipped =>
      refine iff_of_false Bool.false_ne_true fun closes => ?_
      rcases skipped with loop | apart
      · exact closes.2.1 loop
      · refine apart ?_
        rw [← here, same _ atChild _ atParent]
        exact ⟨Reach.mono (containsBeside_subset check.id) closes.2.2, .of_mem down⟩
    next both =>
      rw [not_or, not_not] at both
      obtain ⟨ne, there⟩ := both
      have back := (same _ atChild _ atParent).mp (there.trans here.symm)
      split
      next once =>
        exact iff_of_true rfl ⟨linked, ne, reach_beside among linked once back.1⟩
      next =>
        have closed (v : EntityId) : inComponent (.of edges) comp check.id ca v ⊆
            (Adjacency.of edges).keys := by
          intro w mem
          obtain ⟨e, here, linked, -, -, rfl⟩ := mem_containsBeside.mp (mem_inComponent.mp mem).1
          exact (Adjacency.mem_keys_of edges _).mpr ⟨e, here, linked, .inr rfl⟩
        rw [search_iff closed ne (by omega), reach_inComponent among linked here]
        · exact ⟨fun path => ⟨linked, ne, path⟩, fun closes => closes.2.2⟩
        · intro u pair
          refine (same u ?_ _ atParent).mpr pair
          cases pair.1 using Relation.ReflTransGen.head_induction_on with
          | refl => exact atParent
          | head edge rest =>
            obtain ⟨e, here, linked, rfl, -⟩ := mem_contains.mp edge
            exact (Adjacency.mem_keys_of edges _).mpr ⟨e, here, linked, .inl rfl⟩
  · refine iff_of_false ?_ fun closes => linked closes.1
    rw [ContainmentEdge.linked, Bool.and_eq_true, decide_eq_true_eq, decide_eq_true_eq,
      not_and_or, not_not, not_not] at linked
    rcases linked with parent | child
    · rw [unplaced _ parent]
      exact Bool.false_ne_true
    · rw [unplaced _ child]
      split
      next => exact Bool.false_ne_true
      next ca _ =>
        rw [if_pos (.inr (by rintro ⟨⟩))]
        exact Bool.false_ne_true

/-- The edges reported are those whose child reaches their parent by other edges; of an edge with
one version, those that lie on a loop. -/
theorem containmentCycleEdges_exact (edges checks : List ContainmentEdge)
    (among : ∀ check ∈ checks, check ∈ edges) :
    ∃ looped, containmentCycleEdges edges checks = some looped ∧
      (∀ eid, eid ∈ looped ↔ ∃ check ∈ checks, check.id = eid ∧ check.ClosesLoop edges) ∧
      ∀ check ∈ checks, versions edges check.id ≤ 1 →
        (check.ClosesLoop edges ↔ check.linked = true ∧ check.parent ≠ check.child ∧
          Reach (contains edges) check.child check.parent) := by
  obtain ⟨comp, found, listed, same⟩ :=
    Strong.stronglyConnected_spec (Adjacency.closed_of edges)
  rw [funext (Adjacency.targets_of edges)] at same
  refine ⟨_, by rw [containmentCycleEdges, found]; rfl, fun eid => ?_, fun check mem once => ?_⟩
  · rw [List.mem_map]
    constructor
    · rintro ⟨check, mem, rfl⟩
      obtain ⟨here, closes⟩ := List.mem_filter.mp mem
      exact ⟨check, here, rfl, (closesLoop_iff (among check here) listed same).mp closes⟩
    · rintro ⟨check, here, rfl, closes⟩
      refine ⟨check, List.mem_filter.mpr ⟨here, ?_⟩, rfl⟩
      exact (closesLoop_iff (among check here) listed same).mpr closes
  · constructor
    · rintro ⟨linked, ne, path⟩
      exact ⟨linked, ne, path.mono (containsBeside_subset check.id)⟩
    · rintro ⟨linked, ne, path⟩
      exact ⟨linked, ne, reach_beside (among check mem) linked once path⟩

end

/-- Two loops apart, one of parallel edges. -/
theorem containmentCycleEdges_exact_loops : ∃ looped, containmentCycleEdges
        [⟨"p", "a", "b"⟩, ⟨"q", "a", "b"⟩, ⟨"r", "b", "a"⟩, ⟨"s", "b", "c"⟩]
        [⟨"q", "a", "b"⟩, ⟨"s", "b", "c"⟩] = some looped ∧ "q" ∈ looped ∧ "s" ∉ looped := by
  obtain ⟨looped, found, -⟩ := containmentCycleEdges_exact
    [⟨"p", "a", "b"⟩, ⟨"q", "a", "b"⟩, ⟨"r", "b", "a"⟩, ⟨"s", "b", "c"⟩]
    [⟨"q", "a", "b"⟩, ⟨"s", "b", "c"⟩] (by decide)
  refine ⟨looped, found, ?_⟩
  have ran : containmentCycleEdges
      [⟨"p", "a", "b"⟩, ⟨"q", "a", "b"⟩, ⟨"r", "b", "a"⟩, ⟨"s", "b", "c"⟩]
      [⟨"q", "a", "b"⟩, ⟨"s", "b", "c"⟩] = some ["q"] := by decide +kernel
  cases ran.symm.trans found
  decide

/-- An entity in itself is on a loop and is not reported, and neither is an edge whose way back is
an older version of itself. -/
theorem containmentCycleEdges_self :
    (containmentCycleEdges [⟨"x", "a", "a"⟩] [⟨"x", "a", "a"⟩] = some [] ∧
        "a" ∈ contains [⟨"x", "a", "a"⟩] "a") ∧
      containmentCycleEdges [⟨"x", "a", "b"⟩, ⟨"x", "b", "a"⟩] [⟨"x", "b", "a"⟩] = some [] ∧
        "b" ∈ contains [⟨"x", "a", "b"⟩, ⟨"x", "b", "a"⟩] "a" :=
  ⟨⟨by decide +kernel, by decide⟩, by decide +kernel, by decide⟩

end DataViz.Versioning
