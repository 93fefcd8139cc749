/-
# The full-state cascade restores integrity

The containment loop computes what the tombstones bring down, whatever order
Python's sets are iterated in, and ends within one round for each child of a
containment link. After it, one pass over the edges is enough: an edge whose
ends are nodes is left dangling only by an end the state has never known.
-/

import DataViz.Versioning.Cascade

namespace DataViz.Versioning

open List Dict Option

open Cascade

variable {links : List (EntityId × EntityId)} {eid : EntityId} {state : State}

theorem mem_tombstones : eid ∈ tombstones state ↔ state.get? eid = some none := by
  rw [tombstones, mem_keys_filter_items state (fun value => decide (value = none))]
  constructor
  · rintro ⟨value, hget, hnone⟩
    rw [hget, of_decide_eq_true hnone]
  · intro hget
    exact ⟨none, hget, by simp⟩

theorem mem_liveIds : eid ∈ liveIds state ↔ ∃ p, state.get? eid = some (some p) := by
  rw [liveIds, mem_keys_filter_items state (fun value => decide (value ≠ none))]
  constructor
  · rintro ⟨value, hget, hlive⟩
    obtain ⟨p, rfl⟩ := ne_none_iff_exists'.mp (of_decide_eq_true hlive)
    exact ⟨p, hget⟩
  · rintro ⟨p, hget⟩
    exact ⟨some p, hget, by simp⟩

theorem nodup_tombstones (state : State) : (tombstones state).Nodup := by
  have hkeys := nodup_keys_items state
  exact hkeys.sublist (filter_sublist.map Prod.fst)

theorem get?_tombstone (state : State) (ids : List EntityId) (eid : EntityId) :
    (tombstone state ids).get? eid = if eid ∈ ids then some none else state.get? eid := by
  rw [tombstone]
  induction ids generalizing state with
  | nil => simp
  | cons id rest ih =>
    rw [foldl_cons, ih, get?_set]
    by_cases hrest : eid ∈ rest
    · simp [hrest]
    · by_cases hid : id = eid
      · simp [hid]
      · simp [hrest, hid, Ne.symm hid]

theorem mem_parentsOf {parent child : EntityId} :
    parent ∈ parentsOf links child ↔ (parent, child) ∈ links := by
  simp [parentsOf]

theorem mem_children {parent child : EntityId} :
    child ∈ children links parent ↔ (parent, child) ∈ links := by
  simp [children]

def standing (links : List (EntityId × EntityId)) (fallen : List EntityId) : Finset EntityId :=
  (links.map Prod.snd).toFinset \ fallen.toFinset

theorem card_standing_le (links : List (EntityId × EntityId)) (fallen : List EntityId) :
    (standing links fallen).card ≤ links.length := by
  have hsub : (standing links fallen).card ≤ (links.map Prod.snd).toFinset.card :=
    Finset.card_le_card Finset.sdiff_subset
  have hlength := toFinset_card_le (links.map Prod.snd)
  rw [length_map] at hlength
  omega

/-- A round that brings a child down leaves fewer standing. -/
theorem card_standing_lt {fallen nxt : List EntityId} (hnxt : ∀ x ∈ nxt, x ∈ links.map Prod.snd)
    (hnodup : (fallen ++ nxt).Nodup) (hne : nxt ≠ []) :
    (standing links (fallen ++ nxt)).card < (standing links fallen).card := by
  obtain ⟨x, hx⟩ := exists_mem_of_ne_nil _ hne
  refine Finset.card_lt_card (Finset.ssubset_iff_of_subset ?_ |>.mpr ⟨x, ?_, ?_⟩)
  · intro y hy
    simp only [standing, Finset.mem_sdiff, List.mem_toFinset, mem_append, not_or] at hy ⊢
    exact ⟨hy.1, hy.2.1⟩
  · simp only [standing, Finset.mem_sdiff, List.mem_toFinset]
    refine ⟨hnxt x hx, fun hmem => ?_⟩
    exact (nodup_append.mp hnodup).2.2 x hmem x hx rfl
  · simp [standing, hx]

variable {order : SetOrder}

theorem mem_visits {round : ℕ} {frontier : List EntityId} {child : EntityId} :
    child ∈ ((order.iter round frontier).flatMap fun p => order.iter round (children links p)) ↔
      ∃ parent ∈ frontier, (parent, child) ∈ links := by
  rw [mem_flatMap]
  constructor
  · rintro ⟨parent, hparent, hchild⟩
    exact ⟨parent, (order.perm _ _).mem_iff.mp hparent,
      mem_children.mp ((order.perm _ _).mem_iff.mp hchild)⟩
  · rintro ⟨parent, hparent, hlink⟩
    exact ⟨parent, (order.perm _ _).mem_iff.mpr hparent,
      (order.perm _ _).mem_iff.mpr (mem_children.mpr hlink)⟩

theorem roomFor_always (parents : EntityId → List EntityId) (roots : EntityId → Prop) :
    RoomFor parents roots (fun _ => true) :=
  fun _ _ _ _ => rfl

/-- With a round for every child still standing and one more, the loop ends, and
what it has taken is what the roots bring down. -/
theorem containmentRounds_eq (order : SetOrder) (round : ℕ) (state : State)
    (cascaded : List EntityId) {roots : EntityId → Prop} {fuel : ℕ}
    {fallen frontier : List EntityId}
    (hprogress : Progress (parentsOf links) roots fallen frontier)
    (hfuel : (standing links fallen).card + 1 ≤ fuel) :
    ∃ added, containmentRounds order links fuel round state fallen frontier cascaded =
        some (tombstone state added, cascaded ++ added) ∧
      (fallen ++ added).Nodup ∧ ∀ x, x ∈ fallen ++ added ↔ Fallen (parentsOf links) roots x := by
  induction fuel generalizing round state fallen frontier cascaded with
  | zero => omega
  | succ fuel ih =>
    cases frontier with
    | nil =>
      refine ⟨[], by simp [containmentRounds, tombstone], by simpa using hprogress.nodup,
        fun x => ?_⟩
      rw [append_nil]
      exact hprogress.mem_iff
    | cons parent rest =>
      rw [containmentRounds]
      generalize hvisits : ((order.iter round (parent :: rest)).flatMap fun p =>
        order.iter round (children links p)) = visits
      have hstep : Progress (parentsOf links) roots
          (fallen ++ sweep (parentsOf links) (fun _ => true) visits fallen)
          (sweep (parentsOf links) (fun _ => true) visits fallen) := by
        refine hprogress.round (roomFor_always _ _) fun p hp x hx _ => ?_
        rw [← hvisits]
        exact mem_visits.mpr ⟨p, hp, mem_parentsOf.mp hx⟩
      generalize hnxt : sweep (parentsOf links) (fun _ => true) visits fallen = nxt at hstep
      have htombstone : ∀ added, tombstone (tombstone state nxt) added =
          tombstone state (nxt ++ added) := by
        intro added
        simp [tombstone, foldl_append]
      by_cases hempty : nxt = []
      · subst hempty
        refine ⟨[], by cases fuel <;> simp [containmentRounds, tombstone],
          by simpa using hstep.nodup, fun x => ?_⟩
        exact hstep.mem_iff
      · have hchild : ∀ x ∈ nxt, x ∈ links.map Prod.snd := by
          intro x hx
          rw [← hnxt] at hx
          have hvisit := mem_of_mem_sweep hx
          rw [← hvisits] at hvisit
          obtain ⟨p, -, hlink⟩ := mem_visits.mp hvisit
          exact mem_map_of_mem hlink
        have hless := card_standing_lt hchild hstep.nodup hempty
        obtain ⟨added, hrun, hnodup, hmem⟩ :=
          ih (round + 1) (tombstone state nxt) (cascaded ++ nxt) hstep (by omega)
        refine ⟨nxt ++ added, ?_, by simpa using hnodup, fun x => ?_⟩
        · rw [hrun, htombstone, append_assoc]
        · rw [← hmem x, append_assoc]

def containmentParents (upper : String → String) (types : List String) (state : State) :
    EntityId → List EntityId :=
  parentsOf (containmentLinks upper (types.map upper) state)

theorem cascadeContainment_eq (upper : String → String) (order : SetOrder) (types : List String)
    (state : State) :
    ∃ mid cascaded, cascadeContainment upper order state types = some (mid, cascaded) ∧
      (∀ x, x ∈ cascaded ↔ Fallen (containmentParents upper types state) (· ∈ tombstones state) x ∧
          x ∉ tombstones state) ∧
      ∀ x, mid.get? x = if x ∈ cascaded then some none else state.get? x := by
  rw [cascadeContainment]
  by_cases hcset : types.map upper = []
  · have hlinks : containmentLinks upper (types.map upper) state = [] := by
      refine filterMap_eq_nil_iff.mpr fun entry _ => ?_
      cases entry.2 with
      | none => rfl
      | some p => simp [containmentLink, hcset]
    refine ⟨state, [], if_pos hcset, fun x => ?_, fun x => by simp⟩
    refine iff_of_false not_mem_nil ?_
    rintro ⟨hfallen, hlive⟩
    cases hfallen with
    | root h => exact hlive h
    | orphan hparent => exact hparent (by rw [containmentParents, hlinks]; rfl)
  · rw [if_neg hcset]
    have hstart : Progress (parentsOf (containmentLinks upper (types.map upper) state))
        (· ∈ tombstones state) (tombstones state) (tombstones state) :=
      progress_start (nodup_tombstones state) fun x => Iff.rfl
    have hfuel := card_standing_le (containmentLinks upper (types.map upper) state)
      (tombstones state)
    obtain ⟨added, hrun, hnodup, hmem⟩ := containmentRounds_eq order 0 state [] hstart
      (Nat.add_le_add_right hfuel 1)
    refine ⟨tombstone state added, added, hrun, fun x => ?_, fun x => get?_tombstone _ _ _⟩
    rw [containmentParents, ← hmem x]
    constructor
    · intro hx
      refine ⟨mem_append_right _ hx, fun hroot => ?_⟩
      exact (nodup_append.mp hnodup).2.2 x hroot x hx rfl
    · rintro ⟨hx, hlive⟩
      exact (mem_append.mp hx).resolve_left hlive

/-- One pass tombstones the payloads that touch a tombstone, and nothing else. -/
theorem get?_cascadeIncidentEdges (state : State) (eid : EntityId) :
    (cascadeIncidentEdges state).1.get? eid =
      if (state.get? eid).any fun value => value.any (touches (tombstones state)) then some none
      else state.get? eid := by
  rw [cascadeIncidentEdges]
  by_cases htomb : tombstones state = []
  · have hnone : ∀ p, touches (tombstones state) p = false := by
      intro p
      rw [htomb, touches]
      cases source p <;> cases target p <;> simp
    have hany : ((state.get? eid).any fun value => value.any (touches (tombstones state))) =
        false := by
      rcases state.get? eid with - | - | p <;> simp [hnone]
    rw [if_pos htomb, hany]
    rfl
  · have hmem := mem_keys_filter_items state
      (fun value => value.any (touches (tombstones state))) eid
    rw [if_neg htomb, get?_tombstone]
    refine if_congr (hmem.trans ?_) rfl rfl
    cases state.get? eid <;> simp

variable {p : Payload}

theorem touches_of_live (h : (cascadeIncidentEdges state).1.get? eid = some (some p)) :
    state.get? eid = some (some p) ∧ touches (tombstones state) p = false := by
  rw [get?_cascadeIncidentEdges] at h
  split at h
  · cases h
  · rename_i hstays
    refine ⟨h, ?_⟩
    simpa [h] using hstays

theorem touches_of_endpoint {tomb : List EntityId} (hsource : source p ≠ none) {y : EntityId}
    (hend : source p = some y ∨ target p = some y) (hy : y ∈ tomb) : touches tomb p = true := by
  obtain ⟨src, hsrc⟩ := ne_none_iff_exists'.mp hsource
  rcases hend with hend | hend
  · obtain rfl : src = y := some.inj (hsrc.symm.trans hend)
    simp [touches, hsrc, hy]
  · simp [touches, hsrc, hend, hy]

/-- The guard passes exactly when no live payload dangles. -/
theorem assertReferentialIntegrity_ok_iff : assertReferentialIntegrity state = .ok () ↔
      ∀ eid p, state.get? eid = some (some p) → dangles (liveIds state) p = false := by
  rw [assertReferentialIntegrity]
  cases hfind : state.items.find? fun entry => entry.2.any (dangles (liveIds state)) with
  | none =>
    rw [find?_eq_none] at hfind
    refine iff_of_true rfl fun eid p hget => ?_
    simpa using hfind (eid, some p) (mem_items_iff.mpr hget)
  | some entry =>
    obtain ⟨eid, value⟩ := entry
    have hmem := mem_of_find?_eq_some hfind
    have hdangles := find?_some hfind
    cases value with
    | none => simp at hdangles
    | some p =>
      refine iff_of_false (by simp) fun hall => ?_
      have hfine := hall eid p (mem_items_iff.mp hmem)
      simp [hfine] at hdangles

/-- A refusal names a live edge that dangles. -/
theorem exists_dangling_of_error {message : String}
    (h : assertReferentialIntegrity state = .error message) :
    ∃ eid p, state.get? eid = some (some p) ∧ dangles (liveIds state) p = true ∧
      message = danglingError eid p := by
  rw [assertReferentialIntegrity] at h
  split at h
  · rename_i eid p hfind
    have hdangles := find?_some hfind
    injection h with h
    exact ⟨eid, p, mem_items_iff.mp (mem_of_find?_eq_some hfind), by simpa using hdangles, h.symm⟩
  · cases h

theorem dangles_eq_false_iff {live : List EntityId} :
    dangles live p = false ↔ (source p = none ∧ target p = none) ∨
      ∃ src tgt, source p = some src ∧ target p = some tgt ∧ src ∈ live ∧ tgt ∈ live := by
  cases hsource : source p <;> cases htarget : target p <;>
    simp [dangles, isLive, hsource, htarget]

def IsNode (p : Payload) : Prop :=
  source p = none ∧ target p = none

def EndsAtNodes (state : State) : Prop :=
  ∀ eid p, state.get? eid = some (some p) → ∀ y, source p = some y ∨ target p = some y →
    ∀ q, state.get? y = some (some q) → IsNode q

instance (p : Payload) : Decidable (IsNode p) :=
  inferInstanceAs (Decidable (_ ∧ _))

theorem endsAtNodes_iff : EndsAtNodes state ↔ ∀ entry ∈ state.items, ∀ p ∈ entry.2.toList,
      ∀ y ∈ (source p).toList ++ (target p).toList, ∀ value ∈ (state.get? y).toList,
        ∀ q ∈ value.toList, IsNode q := by
  constructor
  · rintro h ⟨eid, value⟩ hentry p hp y hy value' hvalue q hq
    obtain rfl : value = some p := by simpa using hp
    obtain rfl : value' = some q := by simpa using hq
    exact h eid p (mem_items_iff.mp hentry) y (by simpa using hy) q (by simpa using hvalue)
  · intro h eid p hget y hy q hq
    exact h (eid, some p) (mem_items_iff.mpr hget) p (by simp) y (by simpa using hy) (some q)
      (by simpa using hq) q (by simp)

instance (state : State) : Decidable (EndsAtNodes state) :=
  decidable_of_iff _ endsAtNodes_iff.symm

theorem endpoint_live {state mid : State} {cascaded : List EntityId}
    (hmid : ∀ x, mid.get? x = if x ∈ cascaded then some none else state.get? x)
    (hnodes : EndsAtNodes state) (hget : (cascadeIncidentEdges mid).1.get? eid = some (some p))
    (hsource : source p ≠ none) {y : EntityId} (hend : source p = some y ∨ target p = some y)
    (hy : state.get? y ≠ none) : y ∈ liveIds (cascadeIncidentEdges mid).1 := by
  obtain ⟨hstays, huntouched⟩ := touches_of_live hget
  have hfree : y ∉ tombstones mid := by
    intro hmem
    rw [touches_of_endpoint hsource hend hmem] at huntouched
    cases huntouched
  have hin : state.get? eid = some (some p) := by
    rw [hmid] at hstays
    split at hstays
    · cases hstays
    · exact hstays
  have hnot : y ∉ cascaded := by
    intro hmem
    rw [mem_tombstones, hmid, if_pos hmem] at hfree
    exact hfree rfl
  have hsame : mid.get? y = state.get? y := by rw [hmid, if_neg hnot]
  obtain ⟨value, hvalue⟩ := ne_none_iff_exists'.mp hy
  cases value with
  | none => exact absurd (mem_tombstones.mpr (hsame.trans hvalue)) hfree
  | some q =>
    have hnode : IsNode q := hnodes eid p hin y hend q hvalue
    refine mem_liveIds.mpr ⟨q, ?_⟩
    have huncut : touches (tombstones mid) q = false := by simp [touches, hnode.1]
    rw [get?_cascadeIncidentEdges, hsame, hvalue]
    simp [huncut]

/-- From a state whose live edges all have live nodes for ends, let a batch
tombstone and write entities; the ends of the edges stay nodes. Then the
containment cascade ends, whatever order sets are iterated in, and tombstones
exactly the least set of further nodes that have a parent and lose all of them.
After the incident-edge pass an edge can dangle only if the batch wrote it
without an end or at an id the state has never known; so a batch of tombstones
alone passes the guard, and a refusal names such an edge of the batch. -/
theorem cascade_restores_integrity (upper : String → String) (order : SetOrder)
    (types : List String) (before after : State) (batch : List EntityId)
    (hbefore : assertReferentialIntegrity before = .ok ())
    (hbatch : ∀ eid ∉ batch, after.get? eid = before.get? eid)
    (hkept : ∀ eid, before.get? eid ≠ none → after.get? eid ≠ none)
    (hnodes : EndsAtNodes after) :
    ∃ mid cascaded, cascadeContainment upper order after types = some (mid, cascaded) ∧
      (∀ x, x ∈ cascaded ↔ Fallen (containmentParents upper types after) (· ∈ tombstones after) x ∧
          x ∉ tombstones after) ∧
      (∀ x, mid.get? x = if x ∈ cascaded then some none else after.get? x) ∧
      ((∀ eid ∈ batch, after.get? eid = some none) →
        assertReferentialIntegrity (cascadeIncidentEdges mid).1 = .ok ()) ∧
      ∀ message, assertReferentialIntegrity (cascadeIncidentEdges mid).1 = .error message →
        ∃ eid ∈ batch, ∃ p, after.get? eid = some (some p) ∧ message = danglingError eid p ∧
          (source p = none ∨ target p = none ∨
            ∃ y, (source p = some y ∨ target p = some y) ∧ after.get? y = none) := by
  obtain ⟨mid, cascaded, hrun, hcascaded, hmid⟩ := cascadeContainment_eq upper order types after
  have herror : ∀ message,
      assertReferentialIntegrity (cascadeIncidentEdges mid).1 = .error message →
      ∃ eid ∈ batch, ∃ p, after.get? eid = some (some p) ∧ message = danglingError eid p ∧
        (source p = none ∨ target p = none ∨
          ∃ y, (source p = some y ∨ target p = some y) ∧ after.get? y = none) := by
    intro message herror
    obtain ⟨eid, p, hget, hdangles, rfl⟩ := exists_dangling_of_error herror
    have hin : after.get? eid = some (some p) := by
      have hstays := (touches_of_live hget).1
      rw [hmid] at hstays
      split at hstays
      · cases hstays
      · exact hstays
    -- With both ends named and known, the edge would not dangle.
    have hlost : source p = none ∨ target p = none ∨
        ∃ y, (source p = some y ∨ target p = some y) ∧ after.get? y = none := by
      by_contra hkeeps
      push Not at hkeeps
      obtain ⟨hsource, htarget, hknown⟩ := hkeeps
      obtain ⟨src, hsrc⟩ := ne_none_iff_exists'.mp hsource
      obtain ⟨tgt, htgt⟩ := ne_none_iff_exists'.mp htarget
      have hlive := fun y hend => endpoint_live hmid hnodes hget hsource hend (hknown y hend)
      have hfine := dangles_eq_false_iff.mpr (.inr ⟨src, tgt, hsrc, htgt, hlive src (.inl hsrc),
        hlive tgt (.inr htgt)⟩)
      rw [hfine] at hdangles
      cases hdangles
    refine ⟨eid, ?_, p, hin, rfl, hlost⟩
    -- An edge from before had both ends named and known.
    by_contra hold
    have hprior : before.get? eid = some (some p) := (hbatch eid hold).symm.trans hin
    rcases dangles_eq_false_iff.mp (assertReferentialIntegrity_ok_iff.mp hbefore eid p hprior) with
      ⟨hsource, htarget⟩ | ⟨src, tgt, hsrc, htgt, hsrcLive, htgtLive⟩
    · simp [dangles, hsource, htarget] at hdangles
    · have hknown : ∀ y, y ∈ liveIds before → after.get? y ≠ none := by
        intro y hy
        obtain ⟨q, hq⟩ := mem_liveIds.mp hy
        exact hkept y (by simp [hq])
      rcases hlost with hnone | hnone | ⟨y, hend | hend, hy⟩
      · simp [hsrc] at hnone
      · simp [htgt] at hnone
      · obtain rfl : src = y := some.inj (hsrc.symm.trans hend)
        exact hknown src hsrcLive hy
      · obtain rfl : tgt = y := some.inj (htgt.symm.trans hend)
        exact hknown tgt htgtLive hy
  refine ⟨mid, cascaded, hrun, hcascaded, hmid, fun htombs => ?_, herror⟩
  cases hguard : assertReferentialIntegrity (cascadeIncidentEdges mid).1 with
  | ok u => rfl
  | error message =>
    obtain ⟨eid, hmem, p, hin, -⟩ := herror message hguard
    rw [htombs eid hmem] at hin
    cases hin

def edgeOf (edgeType src tgt : String) : Payload :=
  [("edgeType", .str edgeType), ("sourceEntityId", .str src), ("targetEntityId", .str tgt)]

/-- Deleting `"a"` takes its only child and the edges of both, and the guard then
refuses the batch's new edge to an unknown id. -/
theorem cascade_restores_integrity_batch : ∃ mid cascaded, cascadeContainment id insertionOrder
        [("a", none), ("b", some []), ("c", some []), ("ab", some (edgeOf "CONTAINS" "a" "b")),
          ("bc", some (edgeOf "FLOWS" "b" "c")), ("cx", some (edgeOf "FLOWS" "c" "ghost"))]
        ["CONTAINS"] = some (mid, cascaded) ∧
      (∀ x, x ∈ cascaded → Fallen (containmentParents id ["CONTAINS"]
        [("a", none), ("b", some []), ("c", some []), ("ab", some (edgeOf "CONTAINS" "a" "b")),
          ("bc", some (edgeOf "FLOWS" "b" "c")), ("cx", some (edgeOf "FLOWS" "c" "ghost"))])
        (· ∈ ["a"]) x) ∧
      assertReferentialIntegrity (cascadeIncidentEdges mid).1 =
        .error "edge cx would dangle (endpoint tombstoned): c->ghost" := by
  have hkeys : ∀ eid ∈ ["a", "b", "c", "ab", "bc"], eid ∈ ["a", "b", "c", "ab", "bc", "cx"] := by
    decide
  obtain ⟨mid, cascaded, hrun, hmem, -, -, -⟩ := cascade_restores_integrity id insertionOrder
    ["CONTAINS"]
    [("a", some []), ("b", some []), ("c", some []), ("ab", some (edgeOf "CONTAINS" "a" "b")),
      ("bc", some (edgeOf "FLOWS" "b" "c"))]
    [("a", none), ("b", some []), ("c", some []), ("ab", some (edgeOf "CONTAINS" "a" "b")),
      ("bc", some (edgeOf "FLOWS" "b" "c")), ("cx", some (edgeOf "FLOWS" "c" "ghost"))]
    ["a", "cx"] (by decide +kernel)
    (fun eid heid => by
      obtain ⟨ha, hcx⟩ : eid ≠ "a" ∧ eid ≠ "cx" := by simpa using heid
      simp [Dict.get?_cons, Ne.symm ha, Ne.symm hcx])
    (fun eid hne => by
      rw [Ne, Dict.get?_eq_none_iff, not_not] at hne ⊢
      exact hkeys eid hne)
    (by decide +kernel)
  have hresult : cascadeContainment id insertionOrder
      [("a", none), ("b", some []), ("c", some []), ("ab", some (edgeOf "CONTAINS" "a" "b")),
        ("bc", some (edgeOf "FLOWS" "b" "c")), ("cx", some (edgeOf "FLOWS" "c" "ghost"))]
      ["CONTAINS"] = some
      ([("a", none), ("b", none), ("c", some []), ("ab", some (edgeOf "CONTAINS" "a" "b")),
        ("bc", some (edgeOf "FLOWS" "b" "c")), ("cx", some (edgeOf "FLOWS" "c" "ghost"))],
        ["b"]) := by decide +kernel
  obtain ⟨rfl, rfl⟩ := Prod.mk.inj (some.inj (hrun.symm.trans hresult))
  exact ⟨_, _, hresult, fun x hx => ((hmem x).mp hx).1, by decide +kernel⟩

/-- An edge whose source is itself an edge is left dangling by the one pass. -/
theorem cascadeIncidentEdges_edge_on_edge : assertReferentialIntegrity
        [("n1", some []), ("n2", some []), ("e1", some (edgeOf "FLOWS" "e2" "n2")),
          ("e2", some (edgeOf "FLOWS" "n1" "n2"))] = .ok () ∧
      cascadeContainment id insertionOrder
        [("n1", none), ("n2", some []), ("e1", some (edgeOf "FLOWS" "e2" "n2")),
          ("e2", some (edgeOf "FLOWS" "n1" "n2"))] ["CONTAINS"] =
        some ([("n1", none), ("n2", some []), ("e1", some (edgeOf "FLOWS" "e2" "n2")),
          ("e2", some (edgeOf "FLOWS" "n1" "n2"))], []) ∧
      assertReferentialIntegrity (cascadeIncidentEdges
        [("n1", none), ("n2", some []), ("e1", some (edgeOf "FLOWS" "e2" "n2")),
          ("e2", some (edgeOf "FLOWS" "n1" "n2"))]).1 =
        .error "edge e1 would dangle (endpoint tombstoned): e2->n2" := by
  decide +kernel

end DataViz.Versioning
