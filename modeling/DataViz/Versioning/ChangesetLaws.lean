/-
# The squash is exact and minimal

Laid over the base state, the net changes leave what is live in the head state, and a change is
recorded of those entities only whose live payloads differ. The hash is taken to tell payloads
apart, whatever the order of their keys.
-/

import DataViz.Versioning.Changeset

namespace DataViz.Versioning

open Option

/-- An entity's live payload in a state; a tombstone and an empty payload are none. -/
def liveAt (state : State) (eid : EntityId) : Option Payload :=
  livePayload (state.get? eid).join

variable {η : Type}

/-- Changes laid over a state: each sets its entity's payload, or its tombstone. -/
def applyDeltas (state : State) (deltas : List (Delta η)) : State :=
  deltas.foldl (fun laid d => laid.set d.entityId d.payload) state

def opBetween (base head : Option Payload) : Option Op :=
  match base, head with
  | none, none => none
  | none, some _ => some .create
  | some _, none => some .delete
  | some _, some _ => some .update

/-- The changes between two states, each entity's once: no more, and no less. -/
structure ExactSquash (base head : State) (deltas : List (Delta η)) : Prop where
  once : (deltas.map Delta.entityId).Nodup
  applied : ∀ eid, SamePayload (liveAt (applyDeltas base deltas) eid) (liveAt head eid)
  minimal : ∀ eid, eid ∈ deltas.map Delta.entityId ↔
    ¬ SamePayload (liveAt base eid) (liveAt head eid)
  ops : ∀ d ∈ deltas, some d.op = opBetween (liveAt base d.entityId) (liveAt head d.entityId)

variable [DecidableEq η] {contentHash : Option Payload → η}

@[simp]
theorem livePayload_idem (p : Option Payload) : livePayload (livePayload p) = livePayload p :=
  livePayload_of_ne (livePayload_ne_empty p)

theorem op_deltaOf {eid : EntityId} {b h : Option Payload} {d : Delta η}
    (here : deltaOf contentHash eid b h = some d) :
    some d.op = opBetween (livePayload b) (livePayload h) := by
  rw [deltaOf] at here
  split at here
  next => cases here
  next base head =>
    obtain rfl := Option.some.inj here
    rw [base, head]
    rfl
  next base head =>
    obtain rfl := Option.some.inj here
    rw [base, head]
    rfl
  next base head =>
    obtain rfl := Option.some.inj (ite_none_right_eq_some.mp here).2
    rw [base, head]
    rfl

theorem deltaOf_eq_none_iff
    (distinguishes : ∀ p q, contentHash p = contentHash q ↔ SamePayload p q) {eid : EntityId}
    {b h : Option Payload} :
    deltaOf contentHash eid b h = none ↔ SamePayload (livePayload b) (livePayload h) := by
  refine ⟨fun none => (distinguishes _ _).mp (deltaOf_eq_none none), fun same => ?_⟩
  rw [deltaOf]
  split
  next => rfl
  next base head =>
    rw [base, head] at same
    cases Json.eqBy?_none_left.mp same
  next base head =>
    rw [base, head] at same
    cases Json.eqBy?_none_right.mp same
  next base head =>
    rw [base, head] at same
    exact if_neg (not_not_intro ((distinguishes _ _).mpr same))

theorem mem_entityIds_netDelta {base head : State} {eid : EntityId} :
    eid ∈ (netDelta contentHash base head).map Delta.entityId ↔
      ∃ d, deltaOf contentHash eid (base.get? eid).join (head.get? eid).join = some d := by
  rw [List.mem_map]
  constructor
  · rintro ⟨d, mem, rfl⟩
    exact ⟨d, mem_netDelta.mp mem⟩
  · rintro ⟨d, here⟩
    obtain rfl := entityId_deltaOf here
    exact ⟨d, mem_netDelta.mpr here, rfl⟩

/-- Where a change is recorded, laying it over the base leaves its payload; elsewhere the base
stays. -/
theorem liveAt_applyDeltas (base head : State) (eid : EntityId) :
    liveAt (applyDeltas base (netDelta contentHash base head)) eid =
      match deltaOf contentHash eid (base.get? eid).join (head.get? eid).join with
      | some _ => liveAt head eid
      | none => liveAt base eid := by
  rw [liveAt, applyDeltas, Dict.get?_foldl_set _ _ _ (nodup_netDelta _ _)]
  cases found : (netDelta contentHash base head).find? fun d => d.entityId = eid with
  | some d =>
    have here := List.find?_some found
    obtain rfl : d.entityId = eid := of_decide_eq_true here
    have change := mem_netDelta.mp (List.mem_of_find?_eq_some found)
    rw [change, map_some, (deltaOf_eq_some change).1]
    exact livePayload_idem _
  | none =>
    cases change : deltaOf contentHash eid (base.get? eid).join (head.get? eid).join with
    | none =>
      rfl
    | some d =>
      obtain rfl := entityId_deltaOf change
      have absent := List.find?_eq_none.mp found d (mem_netDelta.mpr change)
      exact absurd (decide_eq_true rfl) absent

/-- `net_delta` is the exact and minimal squash. -/
theorem netDelta_exact (contentHash : Option Payload → η)
    (distinguishes : ∀ p q, contentHash p = contentHash q ↔ SamePayload p q) (base head : State) :
    ExactSquash base head (netDelta contentHash base head) where
  once := nodup_netDelta base head
  applied eid := by
    rw [liveAt_applyDeltas]
    split
    next => exact SamePayload.refl _
    next none => exact (deltaOf_eq_none_iff distinguishes).mp none
  minimal eid := by
    rw [mem_entityIds_netDelta, ← isSome_iff_exists, isSome_iff_ne_none, ne_eq,
      deltaOf_eq_none_iff distinguishes]
    rfl
  ops d mem := op_deltaOf (mem_netDelta.mp mem)

/-- An entity created and deleted again leaves no change; one deleted and one edited do. -/
theorem netDelta_exact_edits :
    ExactSquash [("a", some [("name", .str "A")]), ("b", some [("name", .str "B")])]
      [("a", none), ("b", some [("name", .str "C")]), ("c", none), ("d", some [])]
      (netDelta (fun p => p.map fun q => Json.canonBy id (.obj q))
        [("a", some [("name", .str "A")]), ("b", some [("name", .str "B")])]
        [("a", none), ("b", some [("name", .str "C")]), ("c", none), ("d", some [])]) := by
  apply netDelta_exact
  intro p q
  rw [SamePayload, Json.Same?, Json.EqBy?, map_map, map_map]
  rfl

/-- The changes of a list of states after a base, each squashed from the one before it. -/
def squashes (contentHash : Option Payload → η) : State → List State → List (Delta η)
  | _, [] => []
  | base, head :: later => netDelta contentHash base head ++ squashes contentHash head later

theorem applied_alike (distinguishes : ∀ p q, contentHash p = contentHash q ↔ SamePayload p q)
    {laid base : State} (head : State)
    (alike : ∀ eid, SamePayload (liveAt laid eid) (liveAt base eid)) (eid : EntityId) :
    SamePayload (liveAt (applyDeltas laid (netDelta contentHash base head)) eid)
      (liveAt head eid) := by
  rw [liveAt, applyDeltas, Dict.get?_foldl_set _ _ _ (nodup_netDelta _ _)]
  cases found : (netDelta contentHash base head).find? fun d => d.entityId = eid with
  | some d =>
    obtain rfl : d.entityId = eid := by simpa using List.find?_some found
    have change := mem_netDelta.mp (List.mem_of_find?_eq_some found)
    rw [map_some, some_or, join_some, (deltaOf_eq_some change).1, livePayload_idem]
    exact .refl _
  | none =>
    apply (alike eid).trans ((deltaOf_eq_none_iff distinguishes).mp _)
    · exact eid
    · by_contra some
      have listed := mem_entityIds_netDelta.mpr (ne_none_iff_exists'.mp some)
      obtain ⟨d, mem, here⟩ := List.mem_map.mp listed
      exact List.find?_eq_none.mp found d mem (decide_eq_true here)

/-- Laid over a base one after another, the squashes of any states that follow it leave what one
squash to the last of them leaves. -/
theorem squashes_compose (contentHash : Option Payload → η)
    (distinguishes : ∀ p q, contentHash p = contentHash q ↔ SamePayload p q) (base : State)
    (states : List State) (eid : EntityId) :
    SamePayload (liveAt (applyDeltas base (squashes contentHash base states)) eid)
      (liveAt (applyDeltas base (netDelta contentHash base (states.getLastD base))) eid) := by
  apply SamePayload.trans _ (applied_alike distinguishes _ (fun _ => .refl _) eid).symm
  have run (states : List State) : ∀ laid base : State,
      (∀ eid, SamePayload (liveAt laid eid) (liveAt base eid)) →
      SamePayload (liveAt (applyDeltas laid (squashes contentHash base states)) eid)
        (liveAt (states.getLastD base) eid) := by
    induction states with
    | nil => exact fun laid base alike => alike eid
    | cons head later ih =>
      intro laid base alike
      rw [squashes, applyDeltas, List.foldl_append, List.getLastD_cons]
      exact ih _ _ (applied_alike distinguishes head alike)
  exact run states base base fun _ => .refl _

/-- A draft that renames an entity, and then deletes it. -/
theorem squashes_compose_edits : SamePayload (liveAt (applyDeltas [("a", some [("name", .str "A")])]
        (squashes (fun p => p.map fun q => Json.canonBy id (.obj q))
          [("a", some [("name", .str "A")])] [[("a", some [("name", .str "B")])], []])) "a")
      (liveAt (applyDeltas [("a", some [("name", .str "A")])]
        (netDelta (fun p => p.map fun q => Json.canonBy id (.obj q))
          [("a", some [("name", .str "A")])] [])) "a") := by
  apply squashes_compose
  intro p q
  rw [SamePayload, Json.Same?, Json.EqBy?, map_map, map_map]
  rfl

end DataViz.Versioning
