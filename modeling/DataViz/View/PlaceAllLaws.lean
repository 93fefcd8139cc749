/-
# Placing a set solves the placement equations

The loop of `place_all` takes the smallest entity whose kept parents are all placed, so
its order is the greedy one, and each placement is `place` of the contexts its parents
already have. Kept parents lie in another component, which makes waiting for them well
founded: nothing is left out, and the answer is the only one.
-/

import Mathlib.Data.Finset.Card
import DataViz.Data.GreedyOrder
import DataViz.View.ComponentsLaws
import DataViz.View.Place

namespace DataViz.View

open List Option Dict

open DataViz.Digraph DataViz.GreedyOrder

def parentsOf (parents : Dict String (List String)) (u : String) : List String :=
  (parents.get? u).getD []

/-- Kept parents as the loop is given them: each entity once, its parents once each and in
the set. -/
structure Kept (parents : Dict String (List String)) : Prop where
  nodup : parents.keys.Nodup
  once : ∀ entry ∈ parents, entry.2.Nodup
  within : ∀ entry ∈ parents, ∀ p ∈ entry.2, p ∈ parents.keys

variable {parents : Dict String (List String)}

theorem get?_eq_parentsOf {u : String} (member : u ∈ parents.keys) :
    parents.get? u = some (parentsOf parents u) := by
  obtain ⟨ps, listed⟩ := isSome_iff_exists.mp (mem_keys_iff.mp member)
  rw [parentsOf, listed, getD_some]

theorem mem_of_mem_parentsOf {u p : String} (member : p ∈ parentsOf parents u) :
    ∃ entry ∈ parents, entry.1 = u ∧ entry.2 = parentsOf parents u := by
  cases listed : parents.get? u with
  | none => simp [parentsOf, listed] at member
  | some ps => exact ⟨(u, ps), mem_of_get? listed, rfl, by simp [parentsOf, listed]⟩

theorem Kept.parentsOf_nodup (kept : Kept parents) (u : String) : (parentsOf parents u).Nodup := by
  cases listed : parents.get? u with
  | none => simp [parentsOf, listed]
  | some ps => simpa [parentsOf, listed] using kept.once _ (mem_of_get? listed)

theorem Kept.parentsOf_within (kept : Kept parents) {u p : String}
    (member : p ∈ parentsOf parents u) : u ∈ parents.keys ∧ p ∈ parents.keys := by
  obtain ⟨entry, listed, rfl, same⟩ := mem_of_mem_parentsOf member
  exact ⟨mem_map_of_mem listed, kept.within entry listed p (same ▸ member)⟩

variable {ps : List String}

theorem filter_pairs (nodup : ps.Nodup) (u v : String) :
    ((ps.map fun p => (p, v)).filter fun pair => pair.1 = u).map Prod.snd =
      if u ∈ ps then [v] else [] := by
  have kept : ps.filter (fun p => p = u) = replicate (ps.count u) u := filter_eq u
  have same : (fun pair : String × String => decide (pair.1 = u)) ∘ (fun p => (p, v)) =
      fun p => decide (p = u) := rfl
  rw [List.filter_map, same, kept]
  by_cases member : u ∈ ps
  · simp [member, count_eq_one_of_mem nodup member]
  · simp [member, count_eq_zero_of_not_mem member]

/-- The children of a node are the nodes that name it as a parent. -/
theorem children_eq (once : ∀ entry ∈ parents, entry.2.Nodup) (u : String) :
    ((childrenOf parents).get? u).getD [] =
      (parents.filter fun entry => u ∈ entry.2).map Prod.fst := by
  rw [childrenOf, get?_group]
  induction parents with
  | nil => rfl
  | cons entry parents ih =>
    have rest := ih fun e member => once e (mem_cons_of_mem _ member)
    have first := filter_pairs (once entry mem_cons_self) u entry.1
    rw [flatMap_cons, filter_append, map_append, rest, first]
    by_cases member : u ∈ entry.2 <;> simp [member]

theorem Kept.mem_children (kept : Kept parents) {u v : String} :
    v ∈ ((childrenOf parents).get? u).getD [] ↔ u ∈ parentsOf parents v := by
  rw [children_eq kept.once, List.mem_map]
  constructor
  · rintro ⟨⟨v', ps⟩, member, rfl⟩
    obtain ⟨listed, holds⟩ := mem_filter.mp member
    rw [parentsOf, get?_of_mem kept.nodup listed]
    simpa using holds
  · intro member
    obtain ⟨entry, listed, rfl, same⟩ := mem_of_mem_parentsOf member
    exact ⟨entry, mem_filter.mpr ⟨listed, by simpa [same] using member⟩, rfl⟩

theorem Kept.children_nodup (kept : Kept parents) (u : String) :
    (((childrenOf parents).get? u).getD []).Nodup := by
  rw [children_eq kept.once]
  exact kept.nodup.sublist (filter_sublist.map _)

structure Released (children : List String) (q q' : Queue) : Prop where
  out : q'.out = q.out
  waiting : ∀ v, q'.waiting.get? v =
    if v ∈ children then (q.waiting.get? v).map (· - 1) else q.waiting.get? v
  ready : ∀ x, x ∈ q'.ready ↔ x ∈ q.ready ∨ x ∈ children ∧ q.waiting.get? x = some 1
  sorted : q'.ready.Pairwise (· < ·)

/-- One parent placed takes one off the child's count, and readies it at none. -/
theorem release_spec {q : Queue} {child : String} {n : ℤ} (listed : q.waiting.get? child = some n)
    (sorted : q.ready.Pairwise (· < ·)) (absent : child ∉ q.ready) :
    ∃ q', q.release child = some q' ∧ Released [child] q q' := by
  have ran : q.release child = some { q with
        waiting := q.waiting.set child (n - 1)
        ready := if n - 1 = 0 then q.ready.orderedInsert (· ≤ ·) child else q.ready } := by
    rw [Queue.release, listed, map_some]
  refine ⟨_, ran, rfl, fun v => ?_, fun x => ?_, ?_⟩
  · rw [get?_set]
    by_cases same : child = v
    · subst same
      simp [listed]
    · simp [same, Ne.symm same]
  · by_cases last : n - 1 = 0
    · have one : n = 1 := by omega
      rw [if_pos last, mem_orderedInsert, or_comm, mem_singleton]
      refine or_congr_right ⟨fun same => ⟨same, by rw [same, listed, one]⟩, And.left⟩
    · have more : ∀ y, y ∈ [child] → q.waiting.get? y ≠ some 1 := by
        intro y member one
        rw [mem_singleton.mp member, listed, some.injEq] at one
        omega
      rw [if_neg last]
      exact ⟨.inl, fun either => either.resolve_right fun new => more x new.1 new.2⟩
  · split
    · have weak := (sorted.imp fun less => le_of_lt less).orderedInsert child
      have once : (q.ready.orderedInsert (· ≤ ·) child).Nodup := by
        rw [(perm_orderedInsert _ child q.ready).nodup_iff, nodup_cons]
        exact ⟨absent, sorted.imp fun less => ne_of_lt less⟩
      exact (weak.and once).imp fun both => lt_of_le_of_ne both.1 both.2
    · exact sorted

/-- Releasing the children of a placed node takes each down by one. -/
theorem releases_spec {children : List String} {q : Queue} (nodup : children.Nodup)
    (listed : ∀ c ∈ children, (q.waiting.get? c).isSome = true)
    (sorted : q.ready.Pairwise (· < ·)) (absent : ∀ c ∈ children, c ∉ q.ready) :
    ∃ q', children.foldlM Queue.release q = some q' ∧ Released children q q' := by
  induction children generalizing q with
  | nil => exact ⟨q, rfl, rfl, fun v => by simp, fun x => by simp, sorted⟩
  | cons child children ih =>
    obtain ⟨fresh, nodup⟩ := nodup_cons.mp nodup
    obtain ⟨n, here⟩ := isSome_iff_exists.mp (listed child mem_cons_self)
    obtain ⟨q₁, ran, first⟩ := release_spec here sorted (absent child mem_cons_self)
    have apart : ∀ c ∈ children, c ≠ child := fun c member same => fresh (same ▸ member)
    have kept : ∀ c, c ≠ child → q₁.waiting.get? c = q.waiting.get? c := fun c ne => by
      rw [first.waiting, if_neg (by simpa using ne)]
    obtain ⟨q₂, rest, second⟩ := ih nodup (fun c member => by
        rw [kept c (apart c member)]
        exact listed c (mem_cons_of_mem _ member))
      first.sorted
      (fun c member ready => by
        cases (first.ready c).mp ready with
        | inl before => exact absent c (mem_cons_of_mem _ member) before
        | inr new => exact apart c member (mem_singleton.mp new.1))
    refine ⟨q₂, ?_, second.out.trans first.out, fun v => ?_, fun x => ?_, second.sorted⟩
    · rw [foldlM_cons, ran]
      exact rest
    · rw [second.waiting, first.waiting]
      by_cases same : v = child
      · subst same
        simp [fresh]
      · simp [same]
    · rw [second.ready, first.ready]
      by_cases same : x = child
      · subst same
        simp [fresh]
      · simp [same, kept x same]

def offered (out : Dict String Placement) (ps : List String) : List ParentContext :=
  ps.flatMap fun p => ((out.get? p).bind (contextOf p)).toList

/-- With its parents placed, a node reads what they offer. -/
theorem contexts_eq {out : Dict String Placement} (placed : ∀ p ∈ ps, p ∈ out.keys) :
    contexts out ps = some (offered out ps) := by
  induction ps with
  | nil => rfl
  | cons p ps ih =>
    obtain ⟨placement, here⟩ :=
      isSome_iff_exists.mp (mem_keys_iff.mp (placed p mem_cons_self))
    have rest := ih fun x member => placed x (mem_cons_of_mem _ member)
    simp [contexts, here, rest, offered]

theorem offered_congr {out out' : Dict String Placement}
    (same : ∀ p ∈ ps, out.get? p = out'.get? p) : offered out ps = offered out' ps := by
  induction ps with
  | nil => rfl
  | cons p ps ih =>
    have rest := ih fun x member => same x (mem_cons_of_mem _ member)
    simp only [offered, flatMap_cons, same p mem_cons_self] at rest ⊢
    rw [rest]

theorem keys_set_of_fresh {d : Dict String Placement} {k : String} (fresh : k ∉ d.keys)
    (placement : Placement) : (d.set k placement).keys = d.keys ++ [k] := by
  induction d with
  | nil => rfl
  | cons entry d ih =>
    obtain ⟨k', v⟩ := entry
    obtain ⟨apart, fresh⟩ := ne_and_not_mem_of_not_mem_cons fresh
    have rest := ih fresh
    simp only [Dict.keys] at rest
    simp [Dict.set, Dict.keys, Ne.symm apart, rest]

section

variable (entities : Entities) (letters : Letters) {Comparison : Type}
  (evaluate : Option Json → Comparison → Bool) (spec : PlacementSpec Comparison)
  (createdInBranch : List String) (parents : Dict String (List String))

abbrev Waits : List String → String → Prop :=
  Ready (· ∈ parents.keys) fun u p => p ∈ parentsOf parents u

/-- The invariant of the loop: the counts are of the parents not placed yet, the queue
holds what is ready, the order is the greedy one and every placement is that of the
contexts its parents have. -/
structure Queue.Inv (q : Queue) : Prop where
  waiting : ∀ u ∈ parents.keys, q.waiting.get? u =
    some (((parentsOf parents u).filter (· ∉ q.out.keys)).length : ℤ)
  ready : ∀ u, u ∈ q.ready ↔ Waits parents q.out.keys u
  sorted : q.ready.Pairwise (· < ·)
  greedy : Greedy (· ∈ parents.keys) (fun u p => p ∈ parentsOf parents u) q.out.keys
  placed : ∀ u placement, q.out.get? u = some placement →
    ∃ facts, entities.facts.get? u = some facts ∧
      placement = place letters evaluate spec facts (offered q.out (parentsOf parents u))
        (u ∈ createdInBranch)

variable {parents}

theorem placed_of_greedy {out : List String}
    (greedy : Greedy (· ∈ parents.keys) (fun u p => p ∈ parentsOf parents u) out) {u p : String}
    (member : u ∈ out) (need : p ∈ parentsOf parents u) : p ∈ out := by
  obtain ⟨before, after, rfl⟩ := append_of_mem member
  exact mem_append_left _ (greedy.needs_before need)

/-- The parents still to be placed once `u` is. -/
theorem filter_unplaced (ps out : List String) (u : String) :
    ps.filter (· ∉ out ++ [u]) = (ps.filter (· ∉ out)).filter (· ≠ u) := by
  rw [List.filter_filter]
  refine filter_congr fun p _ => ?_
  by_cases first : p ∈ out <;> by_cases second : p = u <;> simp [first, second]

variable {u : String}

/-- The number of parents still to be placed falls by one where `u` is among them. -/
theorem length_unplaced {ps out : List String} (nodup : ps.Nodup) (fresh : u ∉ out) :
    ((ps.filter (· ∉ out)).length : ℤ) =
      (ps.filter (· ∉ out ++ [u])).length + if u ∈ ps then 1 else 0 := by
  have once : (ps.filter (· ∉ out)).Nodup := nodup.filter _
  have among : u ∈ ps.filter (· ∉ out) ↔ u ∈ ps := by simp [fresh]
  have erased : (ps.filter (· ∉ out)).filter (· ≠ u) = (ps.filter (· ∉ out)).erase u := by
    rw [once.erase_eq_filter]
    exact filter_congr fun p _ => by by_cases same : p = u <;> simp [same]
  rw [filter_unplaced, erased]
  by_cases member : u ∈ ps
  · have length := length_erase_of_mem (among.mpr member)
    have positive := length_pos_of_mem (among.mpr member)
    rw [if_pos member]
    omega
  · rw [if_neg member, erase_of_not_mem (fun mem => member (among.mp mem))]
    omega

/-- One parent is still to be placed when all others are. -/
theorem length_eq_one_iff {ps out : List String} (nodup : ps.Nodup) (fresh : u ∉ out)
    (member : u ∈ ps) :
    ((ps.filter (· ∉ out)).length : ℤ) = 1 ↔ ∀ p ∈ ps, p ∈ out ++ [u] := by
  have length := length_unplaced nodup fresh
  rw [if_pos member] at length
  rw [length]
  constructor
  · intro one p mem
    have none : (ps.filter (· ∉ out ++ [u])).length = 0 := by omega
    have empty := eq_nil_of_length_eq_zero none
    rw [filter_eq_nil_iff] at empty
    simpa [or_iff_not_imp_left] using empty p mem
  · intro all
    have empty : ps.filter (· ∉ out ++ [u]) = [] :=
      filter_eq_nil_iff.mpr fun p mem => by
        simpa [or_iff_not_imp_left] using all p mem
    rw [empty]
    rfl

/-- A turn of the loop places the smallest ready entity. -/
theorem turn_keeps (kept : Kept parents) (keys : parents.keys = entities.facts.keys) {q : Queue}
    (inv : Queue.Inv entities letters evaluate spec createdInBranch parents q) {ready : List String}
    (first : q.ready = u :: ready) :
    ∃ q', q.turn entities letters evaluate spec createdInBranch parents u ready = some q' ∧
      Queue.Inv entities letters evaluate spec createdInBranch parents q' := by
  have here : Waits parents q.out.keys u := (inv.ready u).mp (by simp [first])
  obtain ⟨member, fresh, met⟩ := here
  obtain ⟨facts, known⟩ := isSome_iff_exists.mp (mem_keys_iff.mp (keys ▸ member))
  have ranked := inv.sorted
  rw [first, pairwise_cons] at ranked
  obtain ⟨least, sorted⟩ := ranked
  have smaller : ∀ {x}, x ∈ ready → x ∈ q.ready := fun mem => by simp [first, mem]
  have alone : u ∉ parentsOf parents u := fun own => fresh (met u own)
  -- A child of `u` waits for `u`, so it is neither placed nor ready.
  have late : ∀ x, u ∈ parentsOf parents x → x ∉ q.out.keys := fun x need out =>
    fresh (placed_of_greedy inv.greedy out need)
  have idle : ∀ x, u ∈ parentsOf parents x → x ∉ q.ready := fun x need mem =>
    fresh (((inv.ready x).mp mem).2.2 u need)
  generalize hplacement : place letters evaluate spec facts (offered q.out (parentsOf parents u))
    (u ∈ createdInBranch) = placement
  have out_keys := keys_set_of_fresh fresh placement
  have counts : ∀ c ∈ ((childrenOf parents).get? u).getD [],
      (q.waiting.get? c).isSome = true := fun c mem => by
    rw [inv.waiting c (kept.parentsOf_within (kept.mem_children.mp mem)).1]
    rfl
  obtain ⟨q', ran, released⟩ := releases_spec (q := { q with ready, out := q.out.set u placement })
    (kept.children_nodup u) counts sorted
    fun c mem ready => idle c (kept.mem_children.mp mem) (smaller ready)
  have out_eq : q'.out = q.out.set u placement := released.out
  have q'_keys : q'.out.keys = q.out.keys ++ [u] := by rw [out_eq, out_keys]
  have turned :
      q.turn entities letters evaluate spec createdInBranch parents u ready = some q' := by
    simp only [Queue.turn, bind_eq_bind, get?_eq_parentsOf member, contexts_eq met, known,
      bind_some, hplacement]
    exact ran
  refine ⟨q', turned, ?_, ?_, released.sorted, ?_, ?_⟩
  · intro v mem
    have length := length_unplaced (kept.parentsOf_nodup v) fresh
    rw [released.waiting v, inv.waiting v mem, q'_keys]
    split
    · next child =>
        rw [if_pos (kept.mem_children.mp child)] at length
        rw [length, map_some, add_sub_cancel_right]
    · next other =>
        rw [if_neg fun need => other (kept.mem_children.mpr need), add_zero] at length
        rw [length]
  · intro x
    rw [released.ready x, kept.mem_children, q'_keys]
    constructor
    · rintro (rest | ⟨child, one⟩)
      · obtain ⟨mem, out, need⟩ := (inv.ready x).mp (smaller rest)
        have apart : x ≠ u := fun same => lt_irrefl _ (same ▸ least x rest)
        exact ⟨mem, by simp [out, apart], fun p hp => mem_append_left _ (need p hp)⟩
      · have mem := (kept.parentsOf_within child).1
        have apart : x ≠ u := fun same => alone (same ▸ child)
        rw [inv.waiting x mem, some.injEq] at one
        exact ⟨mem, by simp [late x child, apart],
          (length_eq_one_iff (kept.parentsOf_nodup x) fresh child).mp one⟩
    · rintro ⟨mem, out, need⟩
      obtain ⟨out, apart⟩ : x ∉ q.out.keys ∧ x ≠ u := by simpa using out
      by_cases child : u ∈ parentsOf parents x
      · refine .inr ⟨child, ?_⟩
        rw [inv.waiting x mem, (length_eq_one_iff (kept.parentsOf_nodup x) fresh child).mpr need]
      · have waits : Waits parents q.out.keys x := by
          refine ⟨mem, out, fun p hp => ?_⟩
          refine (mem_append.mp (need p hp)).resolve_right fun same => ?_
          exact child (mem_singleton.mp same ▸ hp)
        have ready := (inv.ready x).mpr waits
        rw [first] at ready
        exact .inl ((mem_cons.mp ready).resolve_left apart)
  · rw [q'_keys]
    refine .snoc inv.greedy ⟨member, fresh, met⟩ fun v waits => ?_
    have mem := (inv.ready v).mpr waits
    rw [first] at mem
    cases mem_cons.mp mem with
    | inl same => exact le_of_eq same.symm
    | inr rest => exact le_of_lt (least v rest)
  · intro v answer listed
    rw [out_eq, get?_set] at listed
    have stable : ∀ w, (w = u ∨ w ∈ q.out.keys) →
        offered q'.out (parentsOf parents w) = offered q.out (parentsOf parents w) := by
      intro w old
      refine offered_congr fun p need => ?_
      have apart : u ≠ p := by
        rintro rfl
        cases old with
        | inl same => exact alone (same ▸ need)
        | inr placed => exact late w need placed
      rw [out_eq, get?_set_ne apart]
    split at listed
    · next same =>
        cases listed
        refine ⟨facts, same ▸ known, ?_⟩
        rw [← hplacement, stable v (.inl same.symm), same]
    · obtain ⟨facts', known', value⟩ := inv.placed v answer listed
      have old : v ∈ q.out.keys := mem_keys_iff.mpr (by simp [listed])
      exact ⟨facts', known', by rw [stable v (.inr old)]; exact value⟩

/-- The queue drains under its invariant. -/
theorem drain_keeps (kept : Kept parents) (keys : parents.keys = entities.facts.keys) {q : Queue}
    (inv : Queue.Inv entities letters evaluate spec createdInBranch parents q) :
    ∃ q', q.drain entities letters evaluate spec createdInBranch parents = some q' ∧
      Queue.Inv entities letters evaluate spec createdInBranch parents q' ∧ q'.ready = [] := by
  induction left : q.remaining using Nat.strong_induction_on generalizing q with
  | _ n ih =>
    rw [Queue.drain]
    split
    · next empty => exact ⟨q, rfl, inv, empty⟩
    · next u ready first =>
        obtain ⟨q', turned, inv'⟩ :=
          turn_keeps entities letters evaluate spec createdInBranch kept keys inv first
        have less :=
          Queue.remaining_turn entities letters evaluate spec createdInBranch first turned
        obtain ⟨last, ran, inv'', empty⟩ := ih q'.remaining (left ▸ less) inv' rfl
        refine ⟨last, ?_, inv'', empty⟩
        split
        · next failed => rw [turned] at failed; cases failed
        · next q'' again =>
            rw [turned] at again
            cases again
            exact ran

/-- The queue of the start meets its invariant. -/
theorem start_inv (kept : Kept parents) :
    Queue.Inv entities letters evaluate spec createdInBranch parents (.start parents) where
  waiting u member := by
    have whole : (parentsOf parents u).filter (· ∉ Dict.keys (Queue.start parents).out) =
        parentsOf parents u := filter_eq_self.mpr fun p _ => by simp [Queue.start, Dict.keys]
    rw [whole]
    have mapped := get?_map_value parents (fun _ ps => (ps.length : ℤ)) u
    rw [get?_eq_parentsOf member] at mapped
    exact mapped
  ready u := by
    simp only [Queue.start, mem_insertionSort]
    constructor
    · intro free
      obtain ⟨⟨v, ps⟩, member, rfl⟩ := mem_map.mp free
      obtain ⟨listed, none⟩ := mem_filter.mp member
      have empty : ps = [] := eq_nil_of_length_eq_zero (by simpa using none)
      refine ⟨mem_map_of_mem listed, by simp [Dict.keys], fun p need => ?_⟩
      have none : parentsOf parents v = [] := by
        rw [parentsOf, get?_of_mem kept.nodup listed, getD_some, empty]
      have waits : p ∈ parentsOf parents v := need
      rw [none] at waits
      cases waits
    · rintro ⟨member, _, met⟩
      have empty : parentsOf parents u = [] :=
        eq_nil_iff_forall_not_mem.mpr fun p need => by simpa [Dict.keys] using met p need
      have listed := mem_of_get? (get?_eq_parentsOf member)
      rw [empty] at listed
      exact mem_map.mpr ⟨(u, []), mem_filter.mpr ⟨listed, by simp⟩, rfl⟩
  sorted := by
    have weak := pairwise_insertionSort (· ≤ ·)
      ((parents.filter fun entry => entry.2.length = 0).map Prod.fst)
    have once : ((parents.filter fun entry => entry.2.length = 0).map Prod.fst).Nodup :=
      kept.nodup.sublist (filter_sublist.map _)
    have sortedOnce := (perm_insertionSort (· ≤ ·) _).nodup_iff.mpr once
    exact (weak.and sortedOnce).imp fun both => lt_of_le_of_ne both.1 both.2
  greedy := .nil
  placed u placement listed := by cases listed

end

section

variable (entities : Entities) (parentsByUrn : Dict String (List String))

def parentsIn (u : String) : List String :=
  if u ∈ entities.facts.keys then
    ((parentsByUrn.get? u).getD []).filter (· ∈ entities.facts.keys)
  else []

/-- A parent in the set that lies in another strongly connected component. -/
def KeptParent (u p : String) : Prop :=
  p ∈ parentsIn entities parentsByUrn u ∧ ¬ Connected (parentsIn entities parentsByUrn) u p

variable {entities parentsByUrn}

theorem keys_candidates : (candidates entities parentsByUrn).keys = entities.facts.keys := by
  simp [candidates, Dict.keys]

variable {u p : String}

theorem mem_targets_candidates : p ∈ targets (candidates entities parentsByUrn) u ↔
      p ∈ parentsIn entities parentsByUrn u ∧ p ≠ u := by
  have mapped := get?_map_value entities.facts (fun u _ => Dict.sortedKeys <|
    ((parentsByUrn.get? u).getD []).filter fun p => p ≠ u ∧ p ∈ entities.facts.keys) u
  rw [targets, candidates, mapped, parentsIn]
  by_cases member : u ∈ entities.facts.keys
  · obtain ⟨facts, known⟩ := isSome_iff_exists.mp (mem_keys_iff.mp member)
    rw [known]
    simp
    tauto
  · rw [get?_eq_none_iff.mpr member, if_neg member]
    simp

theorem reach_candidates {a b : String} : Reach (targets (candidates entities parentsByUrn)) a b ↔
      Reach (parentsIn entities parentsByUrn) a b := by
  constructor
  · intro path
    induction path with
    | refl => exact .refl a
    | tail _ edge ih => exact ih.trans (.of_mem (mem_targets_candidates.mp edge).1)
  · intro path
    induction path with
    | refl => exact .refl a
    | @tail b c _ edge ih =>
      by_cases same : c = b
      · exact same ▸ ih
      · exact ih.trans (.of_mem (mem_targets_candidates.mpr ⟨edge, same⟩))

theorem connected_candidates {a b : String} :
    Connected (targets (candidates entities parentsByUrn)) a b ↔
      Connected (parentsIn entities parentsByUrn) a b :=
  and_congr reach_candidates reach_candidates

theorem mem_of_mem_parentsIn (edge : p ∈ parentsIn entities parentsByUrn u) :
    u ∈ entities.facts.keys ∧ p ∈ entities.facts.keys := by
  unfold parentsIn at edge
  split at edge
  · next member => exact ⟨member, by simpa using (mem_filter.mp edge).2⟩
  · cases edge

/-- The kept parents have no cycle, so the placement equations have one solution. -/
theorem keptParent_founded : WellFounded fun p u => KeptParent entities parentsByUrn u p := by
  classical
  let reached (u : String) : Finset String :=
    entities.facts.keys.toFinset.filter (Reach (parentsIn entities parentsByUrn) u)
  refine Subrelation.wf (r := fun p u => (reached p).card < (reached u).card) ?_
    (measure fun u => (reached u).card).wf
  intro p u kept
  obtain ⟨edge, apart⟩ := kept
  refine Finset.card_lt_card (Finset.ssubset_iff_of_subset ?_ |>.mpr ⟨u, ?_, ?_⟩)
  · intro x member
    obtain ⟨listed, path⟩ := Finset.mem_filter.mp member
    exact Finset.mem_filter.mpr ⟨listed, (Reach.of_mem edge).trans path⟩
  · have member := (mem_of_mem_parentsIn edge).1
    exact Finset.mem_filter.mpr ⟨mem_toFinset.mpr member, .refl u⟩
  · intro member
    exact apart ⟨.of_mem edge, (Finset.mem_filter.mp member).2⟩

variable (entities parentsByUrn) in
theorem candidates_closed : ∀ v, ∀ w ∈ targets (candidates entities parentsByUrn) v,
    w ∈ (candidates entities parentsByUrn).keys := by
  intro v w edge
  rw [keys_candidates]
  exact (mem_of_mem_parentsIn (mem_targets_candidates.mp edge).1).2

variable {component : Dict String String}

theorem keys_retained :
    (retained component (candidates entities parentsByUrn)).keys = entities.facts.keys := by
  rw [← @keys_candidates entities parentsByUrn]
  simp [retained, Dict.keys]

theorem parentsOf_retained (u : String) :
    parentsOf (retained component (candidates entities parentsByUrn)) u =
      (targets (candidates entities parentsByUrn) u).filter
        fun p => component.get? p ≠ component.get? u := by
  have mapped := get?_map_value (candidates entities parentsByUrn)
    (fun u ps => ps.filter fun p => component.get? p ≠ component.get? u) u
  rw [parentsOf, retained, mapped, targets]
  cases (candidates entities parentsByUrn).get? u <;> rfl

theorem mem_parentsOf_retained (tells : ∀ u ∈ (candidates entities parentsByUrn).keys,
      ∀ v ∈ (candidates entities parentsByUrn).keys, (component.get? u = component.get? v ↔
        Connected (targets (candidates entities parentsByUrn)) u v)) :
    p ∈ parentsOf (retained component (candidates entities parentsByUrn)) u ↔
      KeptParent entities parentsByUrn u p := by
  rw [parentsOf_retained, mem_filter, mem_targets_candidates, decide_eq_true_eq]
  simp only [keys_candidates] at tells
  constructor
  · rintro ⟨⟨edge, _⟩, differ⟩
    have ⟨hu, hp⟩ := mem_of_mem_parentsIn edge
    refine ⟨edge, fun pair => differ ?_⟩
    exact ((tells u hu p hp).mpr (connected_candidates.mpr pair)).symm
  · rintro ⟨edge, apart⟩
    have ⟨hu, hp⟩ := mem_of_mem_parentsIn edge
    refine ⟨⟨edge, fun same => apart (same ▸ .refl p)⟩, fun same => apart ?_⟩
    exact connected_candidates.mp ((tells u hu p hp).mp same.symm)

theorem sorted_retained (u : String) :
    (parentsOf (retained component (candidates entities parentsByUrn)) u).Pairwise (· < ·) := by
  rw [parentsOf_retained]
  refine Pairwise.filter _ ?_
  have mapped := get?_map_value entities.facts (fun u _ => Dict.sortedKeys <|
    ((parentsByUrn.get? u).getD []).filter fun p => p ≠ u ∧ p ∈ entities.facts.keys) u
  rw [targets, candidates, mapped]
  cases entities.facts.get? u with
  | none => exact .nil
  | some facts =>
    exact ((pairwise_insertionSort (· ≤ ·) _).and (nodup_sortedKeys _)).imp
      fun both => lt_of_le_of_ne both.1 both.2

theorem kept_retained : Kept (retained component (candidates entities parentsByUrn)) where
  nodup := by
    rw [keys_retained]
    exact entities.nodup
  once entry member := by
    have listed :=
      get?_of_mem (@keys_retained entities parentsByUrn component ▸ entities.nodup) member
    have same : parentsOf (retained component (candidates entities parentsByUrn)) entry.1 =
        entry.2 := by rw [parentsOf, listed, getD_some]
    exact same ▸ (sorted_retained entry.1).imp fun less => ne_of_lt less
  within entry member p need := by
    have listed :=
      get?_of_mem (@keys_retained entities parentsByUrn component ▸ entities.nodup) member
    have same : parentsOf (retained component (candidates entities parentsByUrn)) entry.1 =
        entry.2 := by rw [parentsOf, listed, getD_some]
    rw [← same, parentsOf_retained] at need
    rw [keys_retained]
    exact (mem_of_mem_parentsIn (mem_targets_candidates.mp (mem_filter.mp need).1).1).2

end

section

variable (letters : Letters) {Comparison : Type} (evaluate : Option Json → Comparison → Bool)
  (spec : PlacementSpec Comparison)

/-- The placement equations: each entity once, no entity before a kept parent, and each
placement that of the entity's facts and of what its kept parents offer. -/
structure Solves (entities : Entities) (parentsByUrn : Dict String (List String))
    (createdInBranch : List String) (out : Dict String Placement) : Prop where
  once : out.keys.Perm entities.facts.keys
  after : ∀ before u rest, out.keys = before ++ u :: rest →
    ∀ p, KeptParent entities parentsByUrn u p → p ∈ before
  placed : ∀ u facts, entities.facts.get? u = some facts → ∃ ps : List String, ps.Pairwise (· < ·) ∧
      (∀ p, p ∈ ps ↔ KeptParent entities parentsByUrn u p) ∧
      out.get? u = some (place letters evaluate spec facts (offered out ps) (u ∈ createdInBranch))

/-- Placements in the greedy order, with nothing left to place. -/
structure GreedilySolves (entities : Entities) (parentsByUrn : Dict String (List String))
    (createdInBranch : List String) (out : Dict String Placement) : Prop extends
    Solves letters evaluate spec entities parentsByUrn createdInBranch out where
  greedy : Greedy (· ∈ entities.facts.keys) (KeptParent entities parentsByUrn) out.keys
  complete : ∀ u, ¬ Ready (· ∈ entities.facts.keys) (KeptParent entities parentsByUrn) out.keys u

/-- The queue's answer solves the placement equations, for every graph. -/
theorem placeAll_greedilySolves (entities : Entities) (parentsByUrn : Dict String (List String))
    (createdInBranch : List String) :
    ∃ out, placeAll entities parentsByUrn letters evaluate spec createdInBranch = some out ∧
      GreedilySolves letters evaluate spec entities parentsByUrn createdInBranch out := by
  obtain ⟨component, found, _, tells⟩ :=
    components_connected (candidates_closed entities parentsByUrn)
  have kept : Kept (retained component (candidates entities parentsByUrn)) := kept_retained
  obtain ⟨q, ran, inv, empty⟩ := drain_keeps entities letters evaluate spec createdInBranch kept
    keys_retained (start_inv entities letters evaluate spec createdInBranch kept)
  have items : (· ∈ (retained component (candidates entities parentsByUrn)).keys) =
      (· ∈ entities.facts.keys) := by rw [keys_retained]
  have needs :
      (fun u p => p ∈ parentsOf (retained component (candidates entities parentsByUrn)) u) =
        KeptParent entities parentsByUrn := by
    funext u p
    exact propext (mem_parentsOf_retained tells)
  have greedy := inv.greedy
  have complete : ∀ u, ¬ Waits (retained component (candidates entities parentsByUrn))
      q.out.keys u := fun u waits => by
    have ready := (inv.ready u).mpr waits
    rw [empty] at ready
    cases ready
  simp only [Waits, items, needs] at greedy complete
  have all : ∀ u, u ∈ q.out.keys ↔ u ∈ entities.facts.keys := fun u =>
    ⟨greedy.items_of_mem u, mem_of_not_ready keptParent_founded
      (fun _ _ _ need => (mem_of_mem_parentsIn need.1).2) complete⟩
  refine ⟨q.out, ?_, ⟨?_, ?_, ?_⟩, greedy, complete⟩
  · simp only [placeAll, found, ran, bind_eq_bind, bind_some]
  · exact (perm_ext_iff_of_nodup greedy.nodup entities.nodup).mpr all
  · intro before u rest split p need
    rw [split] at greedy
    exact greedy.needs_before need
  · intro u facts known
    have member : u ∈ q.out.keys := (all u).mpr (mem_keys_iff.mpr (by simp [known]))
    obtain ⟨placement, listed⟩ := isSome_iff_exists.mp (mem_keys_iff.mp member)
    obtain ⟨facts', known', value⟩ := inv.placed u placement listed
    rw [known] at known'
    cases known'
    exact ⟨_, sorted_retained u, fun p => mem_parentsOf_retained tells, by rw [listed, value]⟩

structure SameInput (entities entities' : Entities)
    (parentsByUrn parentsByUrn' : Dict String (List String))
    (createdInBranch createdInBranch' : List String) : Prop where
  facts : ∀ u, entities.facts.get? u = entities'.facts.get? u
  parents : ∀ u p, p ∈ (parentsByUrn.get? u).getD [] ↔ p ∈ (parentsByUrn'.get? u).getD []
  created : ∀ u, u ∈ createdInBranch ↔ u ∈ createdInBranch'

namespace SameInput

variable {entities entities' : Entities} {parentsByUrn parentsByUrn' : Dict String (List String)}
  {createdInBranch createdInBranch' : List String}
  (same : SameInput entities entities' parentsByUrn parentsByUrn' createdInBranch createdInBranch')

include same

theorem mem_keys (u : String) : u ∈ entities.facts.keys ↔ u ∈ entities'.facts.keys := by
  rw [mem_keys_iff, mem_keys_iff, same.facts u]

theorem mem_parentsIn (u p : String) :
    p ∈ parentsIn entities parentsByUrn u ↔ p ∈ parentsIn entities' parentsByUrn' u := by
  unfold parentsIn
  by_cases member : u ∈ entities.facts.keys
  · simp [same.mem_keys, same.parents]
  · rw [if_neg member, if_neg fun other => member ((same.mem_keys u).mpr other)]

theorem keptParent : KeptParent entities parentsByUrn = KeptParent entities' parentsByUrn' := by
  have forth := fun a b (path : Reach (parentsIn entities parentsByUrn) a b) =>
    path.mono fun u p => (same.mem_parentsIn u p).mp
  have back := fun a b (path : Reach (parentsIn entities' parentsByUrn') a b) =>
    path.mono fun u p => (same.mem_parentsIn u p).mpr
  funext u p
  refine propext (and_congr (same.mem_parentsIn u p) (not_congr ?_))
  exact ⟨fun pair => ⟨forth _ _ pair.1, forth _ _ pair.2⟩,
    fun pair => ⟨back _ _ pair.1, back _ _ pair.2⟩⟩

end SameInput

theorem eq_of_keys_of_get? {d d' : Dict String Placement} (keys : d.keys = d'.keys)
    (nodup : d.keys.Nodup) (same : ∀ k ∈ d.keys, d.get? k = d'.get? k) : d = d' := by
  induction d generalizing d' with
  | nil => exact (map_eq_nil_iff.mp keys.symm).symm
  | cons entry d ih =>
    match d', keys with
    | entry' :: d', keys =>
      obtain ⟨k, v⟩ := entry
      obtain ⟨k', v'⟩ := entry'
      obtain ⟨rfl, rest⟩ := cons.inj keys
      obtain ⟨fresh, nodup⟩ := nodup_cons.mp nodup
      have value := same k mem_cons_self
      rw [get?_cons_self, get?_cons_self] at value
      cases value
      refine congrArg _ (ih rest nodup fun x member => ?_)
      have apart : k ≠ x := fun eq => fresh (eq ▸ member)
      have answer := same x (mem_cons_of_mem _ member)
      rwa [get?_cons_ne apart, get?_cons_ne apart] at answer

theorem eq_of_sorted {ps ps' : List String} (sorted : ps.Pairwise (· < ·))
    (sorted' : ps'.Pairwise (· < ·)) (same : ∀ p, p ∈ ps ↔ p ∈ ps') : ps = ps' := by
  have perm : ps.Perm ps' :=
    (perm_ext_iff_of_nodup (sorted.imp fun less => ne_of_lt less)
      (sorted'.imp fun less => ne_of_lt less)).mpr same
  exact perm.eq_of_pairwise (fun a b _ _ ab ba => absurd ba (lt_asymm ab)) sorted sorted'

/-- The placements of inputs that say the same are the same, order included. -/
theorem GreedilySolves.unique {entities entities' : Entities}
    {parentsByUrn parentsByUrn' : Dict String (List String)}
    {createdInBranch createdInBranch' : List String}
    (same : SameInput entities entities' parentsByUrn parentsByUrn' createdInBranch
      createdInBranch')
    {out out' : Dict String Placement}
    (left : GreedilySolves letters evaluate spec entities parentsByUrn createdInBranch out)
    (right : GreedilySolves letters evaluate spec entities' parentsByUrn' createdInBranch' out') :
    out = out' := by
  have items : (· ∈ entities.facts.keys) = (· ∈ entities'.facts.keys) :=
    funext fun u => propext (same.mem_keys u)
  have greedy := right.greedy
  have complete := right.complete
  rw [← items, ← same.keptParent] at greedy complete
  have keys := left.greedy.unique greedy left.complete complete
  refine eq_of_keys_of_get? keys left.greedy.nodup fun u member => ?_
  induction u using (@keptParent_founded entities parentsByUrn).induction with
  | _ u ih =>
    have listed := left.once.mem_iff.mp member
    obtain ⟨facts, known⟩ := isSome_iff_exists.mp (mem_keys_iff.mp listed)
    obtain ⟨ps, sorted, kept, value⟩ := left.placed u facts known
    obtain ⟨ps', sorted', kept', value'⟩ := right.placed u facts (same.facts u ▸ known)
    rw [← same.keptParent] at kept'
    have parents : ps = ps' :=
      eq_of_sorted sorted sorted' fun p => (kept p).trans (kept' p).symm
    have offers : offered out ps = offered out' ps' := by
      rw [← parents]
      refine offered_congr fun p need => ih p ((kept p).mp need) ?_
      have edge := ((kept p).mp need).1
      exact left.once.mem_iff.mpr (mem_of_mem_parentsIn edge).2
    have created : decide (u ∈ createdInBranch) = decide (u ∈ createdInBranch') :=
      decide_eq_decide.mpr (same.created u)
    rw [value, value', offers, created]

/-- A parent that offers a cascade is followed. -/
theorem inherit_of_mem {parents : List ParentContext} {cascade : Cascade} {p : ParentContext}
    (member : p ∈ parents) (offers : p.cascade = some cascade) (stale : Bool) :
    ∃ answer, inherit parents cascade stale = some answer ∧ answer.source = .inherited ∧
      answer.cascade = some cascade ∧ ∃ q ∈ parents, answer.layerId = some q.layerId := by
  generalize tiered : (parents.filter fun p => p.cascade = some cascade).insertionSort
    (fun a b => a.urn ≤ b.urn) = tier
  have mem_tier : ∀ q, q ∈ tier ↔ q ∈ parents ∧ q.cascade = some cascade := fun q => by
    rw [← tiered]
    simp
  cases tier with
  | nil => exact absurd ((mem_tier p).mpr ⟨member, offers⟩) not_mem_nil
  | cons first tier =>
    have answer : inherit parents cascade stale = some
        { layerId := some first.layerId
          source := .inherited
          inheritedFrom := some first.urn
          staleExplicit := stale
          ambiguousParent := 1 < ((first :: tier).map ParentContext.layerId).dedup.length
          cascade := some cascade } := by
      simp only [inherit, tiered, head?_cons, map_some]
    exact ⟨_, answer, rfl, rfl, first, ((mem_tier first).mp mem_cons_self).1, rfl⟩

variable {placement : Placement}

theorem contextOf_eq_some {u layer : String} {cascade : Cascade}
    (listed : placement.layerId = some layer) (named : layer ≠ "")
    (offers : placement.cascade = some cascade) :
    contextOf u placement = some ⟨u, layer, some cascade⟩ := by
  simp [contextOf, listed, offers, truthy, named]

theorem layerId_ne_of_contextOf {u : String} {c : ParentContext}
    (context : contextOf u placement = some c) : c.layerId ≠ "" := by
  unfold contextOf at context
  split at context
  · next holds =>
      obtain ⟨layer, listed, rfl⟩ := map_eq_some_iff.mp context
      simpa [truthy, listed] using (Bool.and_eq_true_iff.mp holds).2
  · cases context

/-- A node without a pin of its own takes the layer a hand-placed parent offers. -/
theorem Solves.inherits {entities : Entities} {parentsByUrn : Dict String (List String)}
    {createdInBranch : List String} {out : Dict String Placement}
    (solves : Solves letters evaluate spec entities parentsByUrn createdInBranch out)
    {u p layer : String} {facts : NodeFacts} (known : entities.facts.get? u = some facts)
    (kept : KeptParent entities parentsByUrn u p) (parent : out.get? p = some placement)
    (listed : placement.layerId = some layer) (named : layer ≠ "") (inView : layer ∈ spec.layerIds)
    (offers : placement.cascade = some .hand)
    (unpinned : ∀ entry, spec.explicit.get? facts.urn = some entry →
      entry.layerId ∉ spec.layerIds) :
    ∃ answer layer', out.get? u = some answer ∧ answer.source = .inherited ∧
      answer.cascade = some .hand ∧ answer.layerId = some layer' ∧ layer' ≠ "" ∧
      layer' ∈ spec.layerIds := by
  obtain ⟨ps, _, members, value⟩ := solves.placed u facts known
  have offered_p : ⟨p, layer, some .hand⟩ ∈ offered out ps := by
    refine mem_flatMap.mpr ⟨p, (members p).mpr kept, ?_⟩
    rw [parent, bind_some, contextOf_eq_some listed named offers]
    exact mem_singleton_self _
  have seen : (⟨p, layer, some .hand⟩ : ParentContext) ∈
      (offered out ps).filter (·.layerId ∈ spec.layerIds) :=
    mem_filter.mpr ⟨offered_p, by simpa using inView⟩
  have free : (spec.explicit.get? facts.urn).filter (·.layerId ∈ spec.layerIds) = none := by
    cases pinned : spec.explicit.get? facts.urn with
    | none => rfl
    | some entry => simp [Option.filter, unpinned entry pinned]
  obtain ⟨answer, inherited, source, cascade, q, member, layer_eq⟩ :=
    inherit_of_mem seen rfl ((spec.explicit.get? facts.urn).any (·.layerId ∉ spec.layerIds))
  have placed : place letters evaluate spec facts (offered out ps) (u ∈ createdInBranch) =
      answer := by
    simp only [place, free, inherited]
  obtain ⟨mem, inside⟩ := mem_filter.mp member
  obtain ⟨x, _, context⟩ := mem_flatMap.mp mem
  obtain ⟨placement', _, contextOf_x⟩ := bind_eq_some_iff.mp (mem_toList.mp context)
  exact ⟨answer, q.layerId, by rw [value, placed], source, cascade, layer_eq,
    layerId_ne_of_contextOf contextOf_x, by simpa using inside⟩

/-- `place_all` succeeds and solves the placement equations. Inputs that say the same in
another order have the same answer, its order included. A hand placement that a parent of
another component passes down, on a cycle or not, is inherited and passed on. -/
theorem placeAll_solves (entities : Entities) (parentsByUrn : Dict String (List String))
    (createdInBranch : List String) :
    ∃ out, placeAll entities parentsByUrn letters evaluate spec createdInBranch = some out ∧
      Solves letters evaluate spec entities parentsByUrn createdInBranch out ∧
      (∀ entities' parentsByUrn' createdInBranch',
        SameInput entities entities' parentsByUrn parentsByUrn' createdInBranch createdInBranch' →
        placeAll entities' parentsByUrn' letters evaluate spec createdInBranch' = some out) ∧
      ∀ u p layer facts placement, entities.facts.get? u = some facts →
        KeptParent entities parentsByUrn u p → out.get? p = some placement →
        placement.layerId = some layer → layer ≠ "" → layer ∈ spec.layerIds →
        placement.cascade = some .hand →
        (∀ entry, spec.explicit.get? facts.urn = some entry → entry.layerId ∉ spec.layerIds) →
        ∃ answer layer', out.get? u = some answer ∧ answer.source = .inherited ∧
          answer.cascade = some .hand ∧ answer.layerId = some layer' ∧ layer' ≠ "" ∧
          layer' ∈ spec.layerIds := by
  obtain ⟨out, ran, solves⟩ :=
    placeAll_greedilySolves letters evaluate spec entities parentsByUrn createdInBranch
  refine ⟨out, ran, solves.toSolves, ?_, ?_⟩
  · intro entities' parentsByUrn' createdInBranch' same
    obtain ⟨out', ran', solves'⟩ :=
      placeAll_greedilySolves letters evaluate spec entities' parentsByUrn' createdInBranch'
    rw [ran', solves.unique letters evaluate spec same solves']
  · intro u p layer facts placement known kept parent listed named inView offers unpinned
    exact solves.toSolves.inherits letters evaluate spec known kept parent listed named inView
      offers unpinned

end

end DataViz.View
