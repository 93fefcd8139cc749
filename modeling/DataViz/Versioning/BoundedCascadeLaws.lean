/-
# The bounded cascade against the full-state one

What the bounded walk reads from the store is the hierarchy as written, cut down to the edges at
hand: its candidates are the children of the frontier and its parents are all parents. So each round
is a round of the full cascade. With sixty-four rounds it agrees with the full cascade, in every
order a set may be iterated in, exactly when all that falls does so within sixty-four synchronous
rounds and there is room for it.
-/

import DataViz.Versioning.BoundedCascade
import DataViz.Versioning.CascadeLaws

namespace DataViz.Versioning

open List Option Dict

open Cascade

variable {ids : List EntityId} {p : Payload}

theorem endsMeet_iff (hids : "" ∉ ids) :
    endsMeet ids p = true ↔ ∃ y ∈ ids, source p = some y ∨ target p = some y := by
  have hend : ∀ e : Option EntityId, e.getD "" ∈ ids ↔ ∃ y ∈ ids, e = some y := by
    intro e
    cases e with
    | none => simp [hids]
    | some y => simp
  rw [endsMeet, edgeSrcTgt, Bool.or_eq_true, decide_eq_true_iff, decide_eq_true_iff, hend, hend]
  constructor
  · rintro (⟨y, hy, h⟩ | ⟨y, hy, h⟩)
    · exact ⟨y, hy, .inl h⟩
    · exact ⟨y, hy, .inr h⟩
  · rintro ⟨y, hy, h | h⟩
    · exact .inl ⟨y, hy, h⟩
    · exact .inr ⟨y, hy, h⟩

variable {upper : String → String} {w : WriteInProgress}

theorem get?_composed (eid : EntityId) :
    w.composed.get? eid = (w.overlay.get? eid).or (w.stored.get? eid) :=
  get?_update _ _ _

theorem mem_incidentLiveEdges {eid : EntityId} : (eid, p) ∈ incidentLiveEdges w ids ↔
      w.stored.get? eid = some (some p) ∧ ∃ y ∈ ids, y ∈ w.touched eid := by
  rw [incidentLiveEdges, mem_filterMap]
  constructor
  · rintro ⟨⟨eid', value⟩, hmem, hentry⟩
    split at hentry
    · rename_i htouched
      obtain ⟨p', rfl, hpair⟩ := map_eq_some_iff.mp hentry
      obtain ⟨rfl, rfl⟩ := Prod.mk.inj hpair
      obtain ⟨y, hy, hids⟩ := any_eq_true.mp htouched
      exact ⟨mem_items_iff.mp hmem, y, of_decide_eq_true hids, hy⟩
    · cases hentry
  · rintro ⟨hget, y, hy, htouched⟩
    refine ⟨(eid, some p), mem_items_iff.mpr hget, ?_⟩
    have hany : (w.touched eid).any (· ∈ ids) = true :=
      any_eq_true.mpr ⟨y, htouched, decide_eq_true hy⟩
    rw [if_pos hany]
    rfl

theorem mem_effectiveIncidentEdges (hoverlay : w.overlay ≠ []) (hids : "" ∉ ids) {eid : EntityId} :
    (eid, p) ∈ effectiveIncidentEdges w ids ↔
      w.composed.get? eid = some (some p) ∧ isEdgePayload p = true ∧ endsMeet ids p = true := by
  rw [effectiveIncidentEdges, if_neg hoverlay, mem_append]
  -- The entry a stored edge contributes is its composed value.
  have hstored : ∀ eid p, (eid, p) ∈ ((incidentLiveEdges w ids).filterMap fun entry =>
      (((w.overlay.get? entry.1).getD (some entry.2)).filter (endsMeet ids)).map
        (Prod.mk entry.1)) ↔
      ((∃ q, w.stored.get? eid = some (some q)) ∧ ∃ y ∈ ids, y ∈ w.touched eid) ∧
        w.composed.get? eid = some (some p) ∧ endsMeet ids p = true := by
    intro eid p
    rw [mem_filterMap]
    constructor
    · rintro ⟨⟨eid', q⟩, hmem, hentry⟩
      obtain ⟨p', hvalue, hpair⟩ := map_eq_some_iff.mp hentry
      obtain ⟨rfl, rfl⟩ := Prod.mk.inj hpair
      obtain ⟨hlive, htouched⟩ := mem_incidentLiveEdges.mp hmem
      obtain ⟨hvalue, hmeets⟩ := filter_eq_some_iff.mp hvalue
      refine ⟨⟨⟨q, hlive⟩, htouched⟩, ?_, hmeets⟩
      rw [get?_composed, hlive]
      cases hover : w.overlay.get? eid' with
      | none => simpa [hover] using hvalue
      | some v => simpa [hover] using hvalue
    · rintro ⟨⟨⟨q, hlive⟩, htouched⟩, hcomposed, hmeets⟩
      refine ⟨(eid, q), mem_incidentLiveEdges.mpr ⟨hlive, htouched⟩, ?_⟩
      rw [get?_composed, hlive] at hcomposed
      refine map_eq_some_iff.mpr ⟨p, filter_eq_some_iff.mpr ⟨?_, hmeets⟩, rfl⟩
      cases hover : w.overlay.get? eid with
      | none => simpa [hover] using hcomposed
      | some v => simpa [hover] using hcomposed
  generalize ((incidentLiveEdges w ids).filterMap fun entry =>
    (((w.overlay.get? entry.1).getD (some entry.2)).filter (endsMeet ids)).map
      (Prod.mk entry.1)) = stored at hstored
  rw [hstored, mem_filterMap]
  constructor
  · rintro (⟨⟨-, y, -, hy⟩, hcomposed, hmeets⟩ | ⟨⟨eid', value⟩, hmem, hentry⟩)
    · exact ⟨hcomposed, w.touched_isEdge eid (ne_nil_of_mem hy) p hcomposed, hmeets⟩
    · split at hentry
      · cases hentry
      · obtain ⟨p', hvalue, hpair⟩ := map_eq_some_iff.mp hentry
        obtain ⟨rfl, rfl⟩ := Prod.mk.inj hpair
        obtain ⟨hvalue, hdrawn⟩ := filter_eq_some_iff.mp hvalue
        rw [Bool.and_eq_true] at hdrawn
        have hover : w.overlay.get? eid' = some (some p') :=
          hvalue ▸ mem_items_iff.mp hmem
        exact ⟨by rw [get?_composed, hover]; rfl, hdrawn⟩
  · rintro ⟨hcomposed, hedge, hmeets⟩
    by_cases hkey : eid ∈ Dict.keys stored
    · obtain ⟨⟨eid', p'⟩, hmem, rfl⟩ := mem_map.mp hkey
      obtain ⟨hread, -⟩ := (hstored eid' p').mp hmem
      exact .inl ⟨hread, hcomposed, hmeets⟩
    · cases hover : w.overlay.get? eid with
      | some value =>
        right
        obtain rfl : value = some p := by
          rw [get?_composed, hover] at hcomposed
          exact some.inj hcomposed
        refine ⟨(eid, some p), mem_items_iff.mpr hover, ?_⟩
        rw [if_neg hkey]
        simp [Option.filter, hedge, hmeets]
      | none =>
        -- A stored edge the write leaves alone: its rows record its ends.
        left
        have hlive : w.stored.get? eid = some (some p) := by
          rw [get?_composed, hover] at hcomposed
          exact hcomposed
        obtain ⟨y, hy, hend⟩ := (endsMeet_iff hids).mp hmeets
        exact ⟨⟨⟨p, hlive⟩, y, hy, w.touched_ends eid p hlive hedge y hend⟩, hcomposed, hmeets⟩

theorem mem_containmentLinks {cset : List String} {state : State} {a b : EntityId} :
    (a, b) ∈ containmentLinks upper cset state ↔
      ∃ eid p, state.get? eid = some (some p) ∧ isEdgePayload p = true ∧
        isContainment upper cset p = true ∧ source p = some a ∧ target p = some b ∧
        a ≠ "" ∧ b ≠ "" := by
  rw [containmentLinks, mem_filterMap]
  constructor
  · rintro ⟨⟨eid, value⟩, hmem, hentry⟩
    obtain ⟨p, rfl, hlink⟩ := bind_eq_some_iff.mp hentry
    rw [containmentLink] at hlink
    split at hlink
    · rename_i hedge
      split at hlink
      · rename_i src tgt hsrc htgt
        split at hlink
        · rename_i hnamed
          obtain ⟨rfl, rfl⟩ := Prod.mk.inj (some.inj hlink)
          exact ⟨eid, p, mem_items_iff.mp hmem, hedge.1, decide_eq_true hedge.2, hsrc, htgt, hnamed⟩
        · cases hlink
      · cases hlink
    · cases hlink
  · rintro ⟨eid, p, hget, hedge, hcontains, hsrc, htgt, hnamed⟩
    refine ⟨(eid, some p), mem_items_iff.mpr hget, ?_⟩
    show containmentLink upper cset p = some (a, b)
    rw [containmentLink, if_pos ⟨hedge, of_decide_eq_true hcontains⟩, hsrc, htgt]
    exact if_pos hnamed

variable {cset : List String}

theorem getD_eq_iff {e : Option EntityId} {y : EntityId} (hy : y ≠ "") :
    e.getD "" = y ↔ e = some y := by
  cases e with
  | none => simpa using Ne.symm hy
  | some z => simp

theorem mem_candidatesOf (hoverlay : w.overlay ≠ []) {frontier deleted : List EntityId}
    (hfrontier : "" ∉ frontier) {x : EntityId} :
    x ∈ candidatesOf upper cset w frontier deleted ↔
      x ∉ deleted ∧ ∃ p ∈ frontier, (p, x) ∈ containmentLinks upper cset w.composed := by
  rw [candidatesOf, mem_dedup, mem_filterMap]
  constructor
  · rintro ⟨⟨eid, p⟩, hmem, hentry⟩
    obtain ⟨hget, hedge, -⟩ := (mem_effectiveIncidentEdges hoverlay hfrontier).mp hmem
    obtain ⟨⟨hcontains, hparent, hnamed, hfresh⟩, htgt⟩ := ite_none_right_eq_some.mp hentry
    obtain rfl := some.inj htgt
    have hparentNamed : (source p).getD "" ≠ "" := fun h => hfrontier (h ▸ hparent)
    refine ⟨hfresh, (source p).getD "", hparent, mem_containmentLinks.mpr
      ⟨eid, p, hget, hedge, hcontains, ?_, ?_, hparentNamed, hnamed⟩⟩
    · exact (getD_eq_iff hparentNamed).mp rfl
    · exact (getD_eq_iff hnamed).mp rfl
  · rintro ⟨hfresh, a, ha, hlink⟩
    obtain ⟨eid, p, hget, hedge, hcontains, hsrc, htgt, -, hnamed⟩ := mem_containmentLinks.mp hlink
    have hmeets : endsMeet frontier p = true := (endsMeet_iff hfrontier).mpr ⟨a, ha, .inl hsrc⟩
    refine ⟨(eid, p), (mem_effectiveIncidentEdges hoverlay hfrontier).mpr ⟨hget, hedge, hmeets⟩, ?_⟩
    simp [edgeSrcTgt, hsrc, htgt, hcontains, ha, hnamed, hfresh]

theorem not_mem_candidatesOf (hoverlay : w.overlay ≠ []) {frontier deleted : List EntityId}
    (hfrontier : "" ∉ frontier) : "" ∉ candidatesOf upper cset w frontier deleted := by
  intro hmem
  obtain ⟨-, p, -, hlink⟩ := (mem_candidatesOf hoverlay hfrontier).mp hmem
  obtain ⟨eid, q, -, -, -, -, -, -, hnamed⟩ := mem_containmentLinks.mp hlink
  exact hnamed rfl

theorem mem_candidateParents (hoverlay : w.overlay ≠ []) {candidates : List EntityId}
    (hcandidates : "" ∉ candidates) {child : EntityId} (hchild : child ∈ candidates)
    (a : EntityId) :
    a ∈ candidateParents upper cset w candidates child ↔
      a ∈ parentsOf (containmentLinks upper cset w.composed) child := by
  rw [candidateParents, mem_dedup, mem_filterMap, mem_parentsOf]
  have hchildNamed : child ≠ "" := fun h => hcandidates (h ▸ hchild)
  constructor
  · rintro ⟨⟨eid, p⟩, hmem, hentry⟩
    obtain ⟨hget, hedge, -⟩ := (mem_effectiveIncidentEdges hoverlay hcandidates).mp hmem
    obtain ⟨⟨hcontains, -, hnamed, htgt⟩, hsrc⟩ := ite_none_right_eq_some.mp hentry
    obtain rfl := some.inj hsrc
    exact mem_containmentLinks.mpr ⟨eid, p, hget, hedge, hcontains, (getD_eq_iff hnamed).mp rfl,
      (getD_eq_iff hchildNamed).mp htgt, hnamed, hchildNamed⟩
  · intro hlink
    obtain ⟨eid, p, hget, hedge, hcontains, hsrc, htgt, hnamed, -⟩ := mem_containmentLinks.mp hlink
    have hmeets : endsMeet candidates p = true :=
      (endsMeet_iff hcandidates).mpr ⟨child, hchild, .inr htgt⟩
    refine ⟨(eid, p), (mem_effectiveIncidentEdges hoverlay hcandidates).mpr
      ⟨hget, hedge, hmeets⟩, ?_⟩
    simp [edgeSrcTgt, hsrc, htgt, hcontains, hchild, hnamed]

section

abbrev WriteInProgress.parents (w : WriteInProgress) (upper : String → String)
    (cset : List String) : EntityId → List EntityId :=
  parentsOf (containmentLinks upper cset w.composed)

variable {order : SetOrder} {cap : ℕ} {roots : EntityId → Prop}

def subtreeRound (upper : String → String) (order : SetOrder) (cset : List String)
    (w : WriteInProgress) (cap round : ℕ) (deleted frontier : List EntityId) : List EntityId :=
  sweep (w.parents upper cset) (fun n => decide (n < cap))
    (order.iter round (candidatesOf upper cset w frontier deleted)) deleted

variable {deleted frontier : List EntityId} {rounds round : ℕ}

theorem subtreeRounds_succ (hoverlay : w.overlay ≠ []) (hfrontier : "" ∉ frontier) :
    subtreeRounds upper order cset w cap (rounds + 1) round deleted frontier =
      if frontier = [] ∨ cap ≤ deleted.length ∨ candidatesOf upper cset w frontier deleted = []
      then deleted
      else subtreeRounds upper order cset w cap rounds (round + 1)
        (deleted ++ subtreeRound upper order cset w cap round deleted frontier)
        (subtreeRound upper order cset w cap round deleted frontier) := by
  have hparents : ∀ c ∈ order.iter round (candidatesOf upper cset w frontier deleted), ∀ a,
      a ∈ candidateParents upper cset w (candidatesOf upper cset w frontier deleted) c ↔
        a ∈ w.parents upper cset c := by
    intro c hc a
    exact mem_candidateParents hoverlay (not_mem_candidatesOf hoverlay hfrontier)
      ((order.perm _ _).mem_iff.mp hc) a
  have hsweep := sweep_congr (fun n => decide (n < cap)) hparents deleted
  rw [subtreeRounds, subtreeRound]
  by_cases hstop : frontier = [] ∨ cap ≤ deleted.length
  · rw [if_pos hstop, if_pos (hstop.elim .inl fun h => .inr (.inl h))]
  · rw [if_neg hstop]
    push Not at hstop
    by_cases hnone : candidatesOf upper cset w frontier deleted = []
    · simp only [hnone, if_true, or_true]
    · simp only [hnone, hstop.1, Nat.not_le.mpr hstop.2, if_false, or_false, hsweep]

theorem not_mem_subtreeRound (hoverlay : w.overlay ≠ []) {round : ℕ} (hfrontier : "" ∉ frontier) :
    "" ∉ subtreeRound upper order cset w cap round deleted frontier := by
  intro hmem
  exact not_mem_candidatesOf hoverlay hfrontier
    ((order.perm _ _).mem_iff.mp (mem_of_mem_sweep hmem))

/-- A property of what has been deleted that every round keeps holds at the end. -/
theorem subtreeRounds_induction (hoverlay : w.overlay ≠ []) {motive : ℕ → List EntityId → Prop}
    (hround : ∀ round deleted frontier, "" ∉ frontier → motive round deleted →
      motive (round + 1) (deleted ++ subtreeRound upper order cset w cap round deleted frontier))
    (hmono : ∀ round deleted, motive round deleted → motive (round + 1) deleted)
    (hfrontier : "" ∉ frontier) (hstart : motive round deleted) :
    motive (round + rounds)
      (subtreeRounds upper order cset w cap rounds round deleted frontier) := by
  have hlater : ∀ n round deleted, motive round deleted → motive (round + n) deleted := by
    intro n round deleted h
    induction n with
    | zero => exact h
    | succ n ih => exact hmono _ _ ih
  induction rounds generalizing round deleted frontier with
  | zero => exact hstart
  | succ rounds ih =>
    rw [subtreeRounds_succ hoverlay hfrontier]
    split
    · exact hlater (rounds + 1) round deleted hstart
    · rw [show round + (rounds + 1) = round + 1 + rounds by omega]
      exact ih (not_mem_subtreeRound hoverlay hfrontier)
        (hround round deleted frontier hfrontier hstart)

/-- The walk never takes more than there is room for, beyond what it starts with. -/
theorem length_subtreeRounds_le (hoverlay : w.overlay ≠ []) (hfrontier : "" ∉ frontier) :
    subtreeRounds upper order cset w cap rounds round deleted frontier = deleted ∨
      (subtreeRounds upper order cset w cap rounds round deleted frontier).length ≤ cap := by
  refine subtreeRounds_induction hoverlay
    (motive := fun _ result => result = deleted ∨ result.length ≤ cap)
    (fun round' deleted' frontier' _ h => ?_) (fun _ _ h => h) hfrontier (.inl rfl)
  have hround : subtreeRound upper order cset w cap round' deleted' frontier' = [] ∨
      (deleted' ++ subtreeRound upper order cset w cap round' deleted' frontier').length ≤ cap :=
    length_append_sweep_le _ _
  rcases hround with hnone | hle
  · rw [hnone, append_nil]
    exact h
  · exact .inr hle

theorem subset_subtreeRounds (hoverlay : w.overlay ≠ []) (hfrontier : "" ∉ frontier) {x : EntityId}
    (hx : x ∈ deleted) :
    x ∈ subtreeRounds upper order cset w cap rounds round deleted frontier :=
  subtreeRounds_induction hoverlay (motive := fun _ result => x ∈ result)
    (fun _ _ _ _ h => mem_append_left _ h) (fun _ _ h => h) hfrontier hx

/-- The walk deletes nothing the roots do not bring down. -/
theorem subtreeRounds_sound (hoverlay : w.overlay ≠ []) (hfrontier : "" ∉ frontier)
    (hdeleted : ∀ x ∈ deleted, Fallen (w.parents upper cset) roots x) :
    ∀ x ∈ subtreeRounds upper order cset w cap rounds round deleted frontier,
      Fallen (w.parents upper cset) roots x := by
  refine subtreeRounds_induction hoverlay (motive := fun _ result => ∀ x ∈ result,
    Fallen (w.parents upper cset) roots x)
    (fun _ deleted' _ _ h x hx => ?_) (fun _ _ h => h) hfrontier hdeleted
  rcases mem_append.mp hx with hx | hx
  · exact h x hx
  · exact fallen_of_mem_sweep h hx

/-- With room for everything, the walk gets at least as far as the synchronous
rounds do. -/
theorem subtreeRounds_complete (hoverlay : w.overlay ≠ []) {rounds round n : ℕ}
    (hfrontier : "" ∉ frontier) (hroom : RoomFor (w.parents upper cset) roots
      (fun n => decide (n < cap)))
    (hprogress : Progress (w.parents upper cset) roots deleted frontier)
    (hn : ∀ x, FallenWithin (w.parents upper cset) roots n x → x ∈ deleted) :
    ∀ x, FallenWithin (w.parents upper cset) roots (n + rounds) x →
      x ∈ subtreeRounds upper order cset w cap rounds round deleted frontier := by
  induction rounds generalizing round n deleted frontier with
  | zero => exact hn
  | succ rounds ih =>
    have hcandidates : ∀ p ∈ frontier, ∀ x, p ∈ w.parents upper cset x → x ∉ deleted →
          x ∈ order.iter round (candidatesOf upper cset w frontier deleted) := by
      intro p hp x hx hfresh
      exact (order.perm _ _).mem_iff.mpr
        ((mem_candidatesOf hoverlay hfrontier).mpr ⟨hfresh, p, hp, mem_parentsOf.mp hx⟩)
    rw [subtreeRounds_succ hoverlay hfrontier]
    split
    · rename_i hstop
      intro x hx
      have hfallen := fallenWithin_fallen hx
      rcases hstop with rfl | hcap | hnone
      · exact hprogress.mem_iff.mpr hfallen
      · -- At the cap, everything has fallen.
        by_contra hmem
        have hless := of_decide_eq_true
          (hroom deleted hprogress.nodup hprogress.sound ⟨x, hfallen, hmem⟩)
        omega
      · have hlast := hprogress.round hroom hcandidates
        have hempty : order.iter round (candidatesOf upper cset w frontier deleted) = [] := by
          have hlength :=
            (order.perm round (candidatesOf upper cset w frontier deleted)).length_eq
          rw [hnone] at hlength ⊢
          exact length_eq_zero_iff.mp hlength
        rw [hempty] at hlast
        simpa [sweep] using hlast.mem_iff.mpr hfallen
    · intro x hx
      rw [show n + (rounds + 1) = n + 1 + rounds by omega] at hx
      exact ih (not_mem_subtreeRound hoverlay hfrontier) (hprogress.round hroom hcandidates)
        (fun y hy => hprogress.fallenWithin_succ hroom hcandidates hn hy) x hx

open Classical in
/-- Sets iterated so that, round by round, what cannot fall synchronously comes
first. -/
noncomputable def synchronousOrder (parents : EntityId → List EntityId) (roots : EntityId → Prop) :
    SetOrder where
  iter round ids :=
    (ids.filter fun x => ¬ Orphaned parents (FallenWithin parents roots round) x) ++
      ids.filter fun x => Orphaned parents (FallenWithin parents roots round) x
  perm round ids := by
    refine List.perm_append_comm.trans ?_
    simpa using List.filter_append_perm
      (fun x => decide (Orphaned parents (FallenWithin parents roots round) x)) ids

theorem subtreeRounds_synchronous (hoverlay : w.overlay ≠ []) (hfrontier : "" ∉ frontier)
    (hdeleted : ∀ x ∈ deleted, FallenWithin (w.parents upper cset) roots round x) :
    ∀ x ∈ subtreeRounds upper (synchronousOrder (w.parents upper cset) roots) cset w cap
        rounds round deleted frontier,
      FallenWithin (w.parents upper cset) roots (round + rounds) x := by
  refine subtreeRounds_induction hoverlay (motive := fun n result => ∀ x ∈ result,
    FallenWithin (w.parents upper cset) roots n x)
    (fun n deleted' frontier' _ h x hx => ?_)
    (fun n _ h x hx => fallenWithin_mono (Nat.le_succ n) (h x hx)) hfrontier hdeleted
  refine fallenWithin_succ_of_mem_sweep h (fun y hy => ?_) (fun y hy => ?_) hx
  · simpa using (mem_filter.mp hy).2
  · simpa using (mem_filter.mp hy).2

end

section

variable {types : List String} {rootIds : List EntityId}

/-- The write deletes the roots, and no live edge ends at another tombstone. -/
structure DeletesRoots (w : WriteInProgress) (rootIds : List EntityId) : Prop where
  deleted : ∀ x ∈ rootIds, x ≠ "" → w.overlay.get? x = some none
  others : ∀ x, w.composed.get? x = some none → (x ∈ rootIds → x = "") →
    ∀ eid p, w.composed.get? eid = some (some p) → source p ≠ some x ∧ target p ≠ some x

/-- The bounded cascade deletes the roots and what the full-state cascade of the
hierarchy as written does, and the edges with an end at a tombstone, in whatever
orders the two iterate over sets. -/
def CascadesAgree (upper : String → String) (types : List String) (w : WriteInProgress)
    (rootIds : List EntityId) : Prop :=
  ∀ order order' mid cascaded,
    cascadeContainment upper order' w.composed types = some (mid, cascaded) →
    (∀ x, x ∈ (cascadeDeletes upper order w rootIds types).1 ↔
      (x ∈ rootIds ∧ x ≠ "") ∨ x ∈ cascaded) ∧
    ∀ eid p, (eid, p) ∈ (cascadeDeletes upper order w rootIds types).2 ↔
      w.composed.get? eid = some (some p) ∧ isEdgePayload p = true ∧
        ∃ y ∈ tombstones mid, source p = some y ∨ target p = some y

/-- All that falls does so within the walk's rounds, and there is room for it. -/
def WithinBounds (parents : EntityId → List EntityId) (roots : EntityId → Prop) : Prop :=
  (∀ x, Fallen parents roots x → FallenWithin parents roots cascadeMaxDepth x) ∧
    ((∃ all : List EntityId, all.length ≤ cascadeMaxNodes ∧ ∀ x, Fallen parents roots x → x ∈ all) ∨
      ∀ x, Fallen parents roots x → roots x)

variable {x : EntityId}

theorem DeletesRoots.tombstoned (h : DeletesRoots w rootIds) (hx : x ∈ rootIds) (hnamed : x ≠ "") :
    x ∈ tombstones w.composed := by
  rw [mem_tombstones, get?_composed, h.deleted x hx hnamed]
  rfl

theorem DeletesRoots.mem_of_end (h : DeletesRoots w rootIds) (hx : x ∈ tombstones w.composed)
    {eid : EntityId} {p : Payload} (hget : w.composed.get? eid = some (some p))
    (hend : source p = some x ∨ target p = some x) : x ∈ rootIds ∧ x ≠ "" := by
  by_contra hother
  have hends := h.others x (mem_tombstones.mp hx)
    (fun hmem => by_contra fun hne => hother ⟨hmem, hne⟩)
    eid p hget
  exact hend.elim hends.1 hends.2

/-- The full-state cascade adds what the roots bring down. -/
theorem DeletesRoots.mem_cascaded_iff (h : DeletesRoots w rootIds) :
    (Fallen (w.parents upper cset) (· ∈ tombstones w.composed) x ∧ x ∉ tombstones w.composed) ↔
      Fallen (w.parents upper cset) (fun y => y ∈ rootIds ∧ y ≠ "") x ∧
        ¬ (x ∈ rootIds ∧ x ≠ "") := by
  -- Only roots among the tombstones are parents.
  have hroots : ∀ y, Fallen (w.parents upper cset) (· ∈ tombstones w.composed) y →
      y ∈ tombstones w.composed ∨
        Fallen (w.parents upper cset) (fun y => y ∈ rootIds ∧ y ≠ "") y := by
    intro y hy
    induction hy with
    | root hy => exact .inl hy
    | orphan hparent _ ih =>
      right
      refine .orphan hparent fun p hp => ?_
      rcases ih p hp with htomb | hfallen
      · obtain ⟨eid, q, hget, -, -, hsrc, -⟩ := mem_containmentLinks.mp (mem_parentsOf.mp hp)
        exact .root (h.mem_of_end htomb hget (.inl hsrc))
      · exact hfallen
  constructor
  · rintro ⟨hfallen, hlive⟩
    exact ⟨(hroots x hfallen).resolve_left hlive, fun hroot => hlive (h.tombstoned hroot.1 hroot.2)⟩
  · rintro ⟨hfallen, hroot⟩
    refine ⟨fallen_least (fun y hy => .root (h.tombstoned hy.1 hy.2))
      (fun y hy => fallen_of_orphaned hy) hfallen, fun htomb => ?_⟩
    cases hfallen with
    | root hx => exact hroot hx
    | orphan hparent _ =>
      obtain ⟨p, hp⟩ := exists_mem_of_ne_nil _ hparent
      obtain ⟨eid, q, hget, -, -, -, htgt, -⟩ := mem_containmentLinks.mp (mem_parentsOf.mp hp)
      exact hroot (h.mem_of_end htomb hget (.inr htgt))

theorem mem_namedRoots : x ∈ namedRoots rootIds ↔ x ∈ rootIds ∧ x ≠ "" := by
  simp [namedRoots]

theorem DeletesRoots.overlay_ne_nil (h : DeletesRoots w rootIds)
    (hroots : namedRoots rootIds ≠ []) :
    w.overlay ≠ [] := by
  obtain ⟨x, hx⟩ := exists_mem_of_ne_nil _ hroots
  have hdeleted := h.deleted x (mem_namedRoots.mp hx).1 (mem_namedRoots.mp hx).2
  intro hempty
  rw [hempty] at hdeleted
  cases hdeleted

/-- Without containment types the walk stops at once, so the nodes are the
walk's in any case. -/
theorem cascadeDeletes_eq (hroots : namedRoots rootIds ≠ []) (order : SetOrder) :
    cascadeDeletes upper order w rootIds types =
      (cascadeSubtree upper order (types.map upper) w (namedRoots rootIds) cascadeMaxNodes
          cascadeMaxDepth,
        effectiveIncidentEdges w (cascadeSubtree upper order (types.map upper) w
          (namedRoots rootIds) cascadeMaxNodes cascadeMaxDepth)) := by
  simp only [cascadeDeletes, if_neg hroots]
  split
  · rename_i hcset
    have hnone : candidatesOf upper [] w (namedRoots rootIds) (namedRoots rootIds) = [] := by
      simp [candidatesOf, isContainment]
    have hstop : cascadeSubtree upper order (types.map upper) w (namedRoots rootIds)
        cascadeMaxNodes cascadeMaxDepth = namedRoots rootIds := by
      rw [hcset, cascadeSubtree, cascadeMaxDepth, subtreeRounds]
      split
      · rfl
      · simp only [hnone, if_true]
    rw [hstop]
  · rfl

theorem not_mem_namedRoots : "" ∉ namedRoots rootIds :=
  fun h => (mem_namedRoots.mp h).2 rfl

/-- Nothing comes down without roots. -/
theorem not_fallen {parents : EntityId → List EntityId} (hroots : namedRoots rootIds = []) :
    ¬ Fallen parents (fun y => y ∈ rootIds ∧ y ≠ "") x := by
  intro hx
  induction hx with
  | root hy => exact ne_nil_of_mem (mem_namedRoots.mpr hy) hroots
  | orphan hparent _ ih =>
    obtain ⟨p, hp⟩ := exists_mem_of_ne_nil _ hparent
    exact ih p hp

theorem DeletesRoots.cascadesAgree_iff_fallen (h : DeletesRoots w rootIds) :
    CascadesAgree upper types w rootIds ↔
      ∀ order x, x ∈ (cascadeDeletes upper order w rootIds types).1 ↔
        Fallen (w.parents upper (types.map upper)) (fun y => y ∈ rootIds ∧ y ≠ "") x := by
  have hfull : ∀ x, Fallen (w.parents upper (types.map upper)) (fun y => y ∈ rootIds ∧ y ≠ "") x ↔
      (x ∈ rootIds ∧ x ≠ "") ∨
        Fallen (w.parents upper (types.map upper)) (· ∈ tombstones w.composed) x ∧
          x ∉ tombstones w.composed := by
    intro x
    rw [h.mem_cascaded_iff]
    constructor
    · intro hx
      by_cases hroot : x ∈ rootIds ∧ x ≠ ""
      · exact .inl hroot
      · exact .inr ⟨hx, hroot⟩
    · rintro (hroot | ⟨hx, -⟩)
      · exact .root hroot
      · exact hx
  constructor
  · intro hagree order x
    obtain ⟨mid, cascaded, hrun, hcascaded, -⟩ :=
      cascadeContainment_eq upper insertionOrder types w.composed
    rw [(hagree order insertionOrder mid cascaded hrun).1 x, hcascaded, hfull]
    rfl
  · intro hsame order order' mid cascaded hrun
    obtain ⟨mid', cascaded', hrun', hcascaded, hmid⟩ :=
      cascadeContainment_eq upper order' types w.composed
    obtain ⟨rfl, rfl⟩ := Prod.mk.inj (some.inj (hrun.symm.trans hrun'))
    have hnodes : ∀ x, x ∈ (cascadeDeletes upper order w rootIds types).1 ↔
        (x ∈ rootIds ∧ x ≠ "") ∨ x ∈ cascaded := by
      intro x
      rw [hsame, hfull, hcascaded]
      rfl
    refine ⟨hnodes, fun eid p => ?_⟩
    -- At a live edge, the tombstones of the result are the deleted nodes.
    have hends : w.composed.get? eid = some (some p) →
        ∀ y, (source p = some y ∨ target p = some y) →
        (y ∈ tombstones mid ↔ y ∈ (cascadeDeletes upper order w rootIds types).1) := by
      intro hget y hend
      rw [hnodes, mem_tombstones, hmid]
      split
      · rename_i hfell
        exact iff_of_true rfl (.inr hfell)
      · rename_i hstays
        rw [← mem_tombstones]
        constructor
        · exact fun htomb => .inl (h.mem_of_end htomb hget hend)
        · rintro (hroot | hfell)
          · exact h.tombstoned hroot.1 hroot.2
          · exact absurd hfell hstays
    by_cases hroots : namedRoots rootIds = []
    · have hempty : cascadeDeletes upper order w rootIds types = ([], []) := by
        simp only [cascadeDeletes, if_pos hroots]
      rw [hempty] at hends ⊢
      refine iff_of_false not_mem_nil ?_
      rintro ⟨hget, -, y, hy, hend⟩
      exact not_mem_nil ((hends hget y hend).mp hy)
    · have hunnamed : "" ∉ (cascadeDeletes upper order w rootIds types).1 := by
        rw [hsame]
        intro hfallen
        cases hfallen with
        | root hroot => exact hroot.2 rfl
        | orphan hparent _ =>
          obtain ⟨q, hq⟩ := exists_mem_of_ne_nil _ hparent
          obtain ⟨-, -, -, -, -, -, -, -, hnamed⟩ := mem_containmentLinks.mp (mem_parentsOf.mp hq)
          exact hnamed rfl
      have hedges : (cascadeDeletes upper order w rootIds types).2 =
          effectiveIncidentEdges w (cascadeDeletes upper order w rootIds types).1 := by
        rw [cascadeDeletes_eq hroots]
      rw [hedges, mem_effectiveIncidentEdges (h.overlay_ne_nil hroots) hunnamed,
        endsMeet_iff hunnamed]
      refine and_congr_right fun hget => and_congr_right fun _ => exists_congr fun y => ?_
      constructor
      · exact fun ⟨hy, hend⟩ => ⟨(hends hget y hend).mpr hy, hend⟩
      · exact fun ⟨hy, hend⟩ => ⟨(hends hget y hend).mp hy, hend⟩

/-- Agreement needs the rounds. -/
theorem DeletesRoots.fallenWithin_of_agree (h : DeletesRoots w rootIds)
    (hagree : CascadesAgree upper types w rootIds)
    (hx : Fallen (w.parents upper (types.map upper)) (fun y => y ∈ rootIds ∧ y ≠ "") x) :
    FallenWithin (w.parents upper (types.map upper)) (fun y => y ∈ rootIds ∧ y ≠ "")
      cascadeMaxDepth x := by
  by_cases hroots : namedRoots rootIds = []
  · exact absurd hx (not_fallen hroots)
  · have hmem := (h.cascadesAgree_iff_fallen.mp hagree (synchronousOrder
      (w.parents upper (types.map upper)) (fun y => y ∈ rootIds ∧ y ≠ "")) x).mpr hx
    rw [cascadeDeletes_eq hroots] at hmem
    have hstart : ∀ y ∈ namedRoots rootIds, FallenWithin (w.parents upper (types.map upper))
        (fun y => y ∈ rootIds ∧ y ≠ "") 0 y :=
      fun y hy => mem_namedRoots.mp hy
    have hwithin := subtreeRounds_synchronous (h.overlay_ne_nil hroots) not_mem_namedRoots
      hstart x hmem
    rwa [Nat.zero_add] at hwithin

end

def currentEnds (stored : State) (eid : EntityId) : List EntityId :=
  match stored.get? eid with
  | some (some p) => if isEdgePayload p then (source p).toList ++ (target p).toList else []
  | _ => []

theorem get?_deleted (ids : List EntityId) (eid : EntityId) :
    Dict.get? (ids.map fun id => (id, (none : Option Payload))) eid =
      if eid ∈ ids then some none else none := by
  induction ids with
  | nil => rfl
  | cons id rest ih =>
    rw [map_cons, get?_cons, ih]
    by_cases hid : id = eid
    · simp [hid]
    · simp [hid, Ne.symm hid]

/-- The write that deletes some nodes and nothing else, over edges that have never
moved. -/
def deletion (stored : State) (ids : List EntityId) : WriteInProgress where
  stored := stored
  touched := currentEnds stored
  overlay := ids.map fun id => (id, none)
  touched_ends eid p hget hedge y hend := by
    simpa [currentEnds, hget, hedge] using hend
  touched_isEdge eid htouched p hget := by
    rw [Dict.get?_update, get?_deleted] at hget
    split at hget
    · cases hget
    · have hstored : stored.get? eid = some (some p) := hget
      by_contra hnode
      exact htouched (by simp [currentEnds, hstored, hnode])

theorem get?_deletion (stored : State) (ids : List EntityId) (eid : EntityId) :
    (deletion stored ids).composed.get? eid = if eid ∈ ids then some none else stored.get? eid := by
  rw [get?_composed, deletion, get?_deleted]
  split <;> rfl

theorem deletesRoots_deletion {stored : State} (hnamed : "" ∉ ids)
    (hlive : tombstones stored = []) : DeletesRoots (deletion stored ids) ids where
  deleted x hx _ := by
    rw [deletion, get?_deleted, if_pos hx]
  others x htomb hother := by
    rw [get?_deletion] at htomb
    split at htomb
    · rename_i hx
      exact absurd (hother hx ▸ hx) hnamed
    · have hmem := mem_tombstones.mpr htomb
      rw [hlive] at hmem
      cases hmem

/-- A node with two parents, both under the deleted root, and one that a parent
outside keeps. -/
def diamond : State :=
  [("a", some []), ("b", some []), ("c", some []), ("d", some []), ("r", some []), ("s", some []),
    ("ab", some (edgeOf "CONTAINS" "a" "b")), ("ac", some (edgeOf "CONTAINS" "a" "c")),
    ("bd", some (edgeOf "CONTAINS" "b" "d")), ("cd", some (edgeOf "CONTAINS" "c" "d")),
    ("bs", some (edgeOf "CONTAINS" "b" "s")), ("rs", some (edgeOf "CONTAINS" "r" "s")),
    ("sd", some (edgeOf "FLOWS" "s" "d"))]

/-- The bounded cascade of a write agrees with the full-state cascade of the
hierarchy as written, in whatever orders sets are iterated, exactly when all that
falls does so within sixty-four synchronous rounds and the node cap leaves room
for it. -/
theorem cascadesAgree_iff (upper : String → String) (types : List String) (w : WriteInProgress)
    (rootIds : List EntityId) (h : DeletesRoots w rootIds) :
    CascadesAgree upper types w rootIds ↔ WithinBounds (containmentParents upper types w.composed)
        (fun x => x ∈ rootIds ∧ x ≠ "") := by
  constructor
  · intro hagree
    refine ⟨fun x hx => h.fallenWithin_of_agree hagree hx, ?_⟩
    by_cases hroots : namedRoots rootIds = []
    · exact .inr fun x hx => absurd hx (not_fallen hroots)
    · have hmem := h.cascadesAgree_iff_fallen.mp hagree insertionOrder
      rw [cascadeDeletes_eq hroots] at hmem
      have hlength : subtreeRounds upper insertionOrder (types.map upper) w cascadeMaxNodes
            cascadeMaxDepth 0 (namedRoots rootIds) (namedRoots rootIds) = namedRoots rootIds ∨
          (subtreeRounds upper insertionOrder (types.map upper) w cascadeMaxNodes cascadeMaxDepth 0
            (namedRoots rootIds) (namedRoots rootIds)).length ≤ cascadeMaxNodes :=
        length_subtreeRounds_le (h.overlay_ne_nil hroots) not_mem_namedRoots
      rcases hlength with hstart | hle
      · refine .inr fun x hx => mem_namedRoots.mp ?_
        rw [← hstart]
        exact (hmem x).mpr hx
      · exact .inl ⟨_, hle, fun x hx => (hmem x).mpr hx⟩
  · rintro ⟨hdepth, hsize⟩
    refine h.cascadesAgree_iff_fallen.mpr fun order x => ?_
    by_cases hroots : namedRoots rootIds = []
    · have hempty : cascadeDeletes upper order w rootIds types = ([], []) := by
        simp only [cascadeDeletes, if_pos hroots]
      rw [hempty]
      exact iff_of_false not_mem_nil (not_fallen hroots)
    · rw [cascadeDeletes_eq hroots]
      refine ⟨subtreeRounds_sound (h.overlay_ne_nil hroots) not_mem_namedRoots
        (fun y hy => .root (mem_namedRoots.mp hy)) x, fun hx => ?_⟩
      rcases hsize with ⟨all, hlength, hall⟩ | hnone
      · have hroom : RoomFor (w.parents upper (types.map upper)) (fun y => y ∈ rootIds ∧ y ≠ "")
            (fun n => decide (n < cascadeMaxNodes)) := by
          intro fallen hnodup hfallen ⟨y, hy, hfresh⟩
          have hsub : (y :: fallen) ⊆ all := by
            intro z hz
            rcases mem_cons.mp hz with rfl | hz
            · exact hall z hy
            · exact hall z (hfallen z hz)
          have hle := (nodup_cons.mpr ⟨hfresh, hnodup⟩).subperm hsub |>.length_le
          rw [length_cons] at hle
          exact decide_eq_true (by omega)
        have hprogress : Progress (w.parents upper (types.map upper))
            (fun y => y ∈ rootIds ∧ y ≠ "") (namedRoots rootIds) (namedRoots rootIds) :=
          progress_start (nodup_dedup _) fun y => mem_namedRoots.symm
        have hwithin := hdepth x hx
        exact subtreeRounds_complete (n := 0) (h.overlay_ne_nil hroots) not_mem_namedRoots hroom
          hprogress (fun y hy => mem_namedRoots.mpr hy) x hwithin
      · exact subset_subtreeRounds (h.overlay_ne_nil hroots) not_mem_namedRoots
          (mem_namedRoots.mpr (hnone x hx))

theorem cascadesAgree_iff_diamond : CascadesAgree id ["CONTAINS"] (deletion diamond ["a"]) ["a"] ∧
      (cascadeDeletes id insertionOrder (deletion diamond ["a"]) ["a"] ["CONTAINS"]).1 =
        ["a", "b", "c", "d"] := by
  have hlinks : ∀ link ∈ containmentLinks id ["CONTAINS"] (deletion diamond ["a"]).composed,
      (∀ p ∈ parentsOf (containmentLinks id ["CONTAINS"] (deletion diamond ["a"]).composed) link.2,
        p ∈ ["a", "b", "c", "d"]) → link.2 ∈ ["a", "b", "c", "d"] := by
    decide +kernel
  have hclosed : ∀ x, Fallen (containmentParents id ["CONTAINS"] (deletion diamond ["a"]).composed)
      (fun x => x ∈ ["a"] ∧ x ≠ "") x → x ∈ ["a", "b", "c", "d"] := by
    intro x hx
    induction hx with
    | root hx => exact mem_of_mem_head? (mem_singleton.mp hx.1 ▸ rfl)
    | @orphan x hparent _ ih =>
      obtain ⟨p, hp⟩ := exists_mem_of_ne_nil _ hparent
      exact hlinks (p, x) (mem_parentsOf.mp hp) ih
  have hwithin : ∀ x ∈ ["a", "b", "c", "d"],
      FallenWithin (containmentParents id ["CONTAINS"] (deletion diamond ["a"]).composed)
        (fun x => x ∈ ["a"] ∧ x ≠ "") 2 x := by
    decide +kernel
  refine ⟨(cascadesAgree_iff id ["CONTAINS"] (deletion diamond ["a"]) ["a"]
    (deletesRoots_deletion (by decide) (by decide +kernel))).mpr
      ⟨fun x hx => fallenWithin_mono (by decide) (hwithin x (hclosed x hx)),
        .inl ⟨["a", "b", "c", "d"], by decide, hclosed⟩⟩, by decide +kernel⟩

def chainNode (k : ℕ) : EntityId := String.ofList (List.replicate (k + 1) 'n')

def chainEdge (k : ℕ) : EntityId := String.ofList (List.replicate (k + 1) 'e')

def chain (n : ℕ) : State :=
  ((List.range (n + 1)).map fun k => (chainNode k, some [])) ++ (List.range n).map fun k =>
      (chainEdge k, some (edgeOf "CONTAINS" (chainNode k) (chainNode (k + 1))))

theorem chainNode_inj {j k : ℕ} : chainNode j = chainNode k ↔ j = k := by
  simp [chainNode, String.ofList_inj]

theorem chainEdge_inj {j k : ℕ} : chainEdge j = chainEdge k ↔ j = k := by
  simp [chainEdge, String.ofList_inj]

theorem chainNode_ne_empty (k : ℕ) : chainNode k ≠ "" := by
  simp [chainNode]

theorem chainEdge_ne_chainNode (j k : ℕ) : chainEdge j ≠ chainNode k := by
  rw [chainEdge, chainNode, Ne, String.ofList_inj]
  simp [replicate_succ]

theorem get?_chain_edge {n k : ℕ} (hk : k < n) : (chain n).get? (chainEdge k) =
      some (some (edgeOf "CONTAINS" (chainNode k) (chainNode (k + 1)))) := by
  have hnode : Dict.get? ((range (n + 1)).map fun k => (chainNode k, some ([] : Payload)))
      (chainEdge k) = none := by
    rw [get?_eq_none_iff]
    simp [Dict.keys, fun j => Ne.symm (chainEdge_ne_chainNode k j)]
  have hnodup : (Dict.keys ((range n).map fun k =>
      (chainEdge k, some (edgeOf "CONTAINS" (chainNode k) (chainNode (k + 1)))))).Nodup := by
    rw [Dict.keys, List.map_map]
    exact nodup_range.map fun i j hij => chainEdge_inj.mp hij
  rw [chain, get?_append, hnode]
  exact get?_of_mem hnodup (mem_map_of_mem (mem_range.mpr hk))

theorem mem_parents_chain {n : ℕ} {a b : EntityId} :
    a ∈ (deletion (chain n) [chainNode 0]).parents id ["CONTAINS"] b ↔
      ∃ k < n, a = chainNode k ∧ b = chainNode (k + 1) := by
  rw [mem_parentsOf, mem_containmentLinks]
  constructor
  · rintro ⟨eid, p, hget, hedge, -, hsrc, htgt, -⟩
    rw [get?_deletion] at hget
    split at hget
    · cases hget
    · rcases mem_append.mp (mem_of_get? hget) with hnode | hedge'
      · obtain ⟨k, -, hpair⟩ := mem_map.mp hnode
        obtain ⟨-, hp⟩ := Prod.mk.inj hpair
        obtain rfl : [] = p := some.inj hp
        cases hedge
      · obtain ⟨k, hk, hpair⟩ := mem_map.mp hedge'
        obtain ⟨-, hp⟩ := Prod.mk.inj hpair
        obtain rfl := some.inj hp
        refine ⟨k, mem_range.mp hk, ?_, ?_⟩
        · simpa [source, edgeOf, textAt, pyOr, get?_cons, chainNode_ne_empty] using hsrc.symm
        · simpa [target, edgeOf, textAt, pyOr, get?_cons, chainNode_ne_empty] using htgt.symm
  · rintro ⟨k, hk, rfl, rfl⟩
    refine ⟨chainEdge k, edgeOf "CONTAINS" (chainNode k) (chainNode (k + 1)), ?_, rfl, ?_, ?_, ?_,
      chainNode_ne_empty k, chainNode_ne_empty (k + 1)⟩
    · rw [get?_deletion, if_neg (by simpa using chainEdge_ne_chainNode k 0), get?_chain_edge hk]
    · simp [isContainment, edgeType, edgeOf, textAt]
    · simp [source, edgeOf, textAt, pyOr, get?_cons, chainNode_ne_empty]
    · simp [target, edgeOf, textAt, pyOr, get?_cons, chainNode_ne_empty]

/-- The whole chain comes down with its start, -/
theorem fallen_chain {n k : ℕ} (hk : k ≤ n) :
    Fallen ((deletion (chain n) [chainNode 0]).parents id ["CONTAINS"])
      (fun x => x ∈ [chainNode 0] ∧ x ≠ "") (chainNode k) := by
  induction k with
  | zero => exact .root ⟨mem_singleton_self _, chainNode_ne_empty 0⟩
  | succ k ih =>
    refine .orphan (ne_nil_of_mem (mem_parents_chain.mpr ⟨k, by omega, rfl, rfl⟩)) fun p hp => ?_
    obtain ⟨j, -, rfl, hnode⟩ := mem_parents_chain.mp hp
    obtain rfl : k = j := by simpa [chainNode_inj] using hnode
    exact ih (by omega)

/-- one link a round. -/
theorem le_of_fallenWithin_chain {n r k : ℕ} (hk : k ≤ n)
    (h : FallenWithin ((deletion (chain n) [chainNode 0]).parents id ["CONTAINS"])
      (fun x => x ∈ [chainNode 0] ∧ x ≠ "") r (chainNode k)) : k ≤ r := by
  induction r generalizing k with
  | zero => exact Nat.le_of_eq (chainNode_inj.mp (mem_singleton.mp h.1))
  | succ r ih =>
    rcases h with h | ⟨-, hall⟩
    · exact Nat.le_succ_of_le (ih hk h)
    · cases k with
      | zero => exact Nat.zero_le _
      | succ k =>
        have hparent := mem_parents_chain.mpr ⟨k, Nat.lt_of_succ_le hk, rfl, rfl⟩
        exact Nat.succ_le_succ (ih (by omega) (hall _ hparent))

theorem deletesRoots_chain (n : ℕ) :
    DeletesRoots (deletion (chain n) [chainNode 0]) [chainNode 0] := by
  refine deletesRoots_deletion (by simpa using (chainNode_ne_empty 0).symm) ?_
  rw [eq_nil_iff_forall_not_mem]
  intro x hx
  rcases mem_append.mp (mem_of_get? (mem_tombstones.mp hx)) with hmem | hmem
  · obtain ⟨k, -, hpair⟩ := mem_map.mp hmem
    cases (Prod.mk.inj hpair).2
  · obtain ⟨k, -, hpair⟩ := mem_map.mp hmem
    cases (Prod.mk.inj hpair).2

/-- Deleting the start of a chain of sixty-five links leaves its end behind. -/
theorem cascadesAgree_chain_false : DeletesRoots (deletion (chain 65) [chainNode 0]) [chainNode 0] ∧
      ¬ CascadesAgree id ["CONTAINS"] (deletion (chain 65) [chainNode 0]) [chainNode 0] := by
  refine ⟨deletesRoots_chain 65, fun hagree => ?_⟩
  have hwithin := (deletesRoots_chain 65).fallenWithin_of_agree hagree (fallen_chain le_rfl)
  have hle : 65 ≤ cascadeMaxDepth := le_of_fallenWithin_chain le_rfl hwithin
  exact absurd hle (by decide)

end DataViz.Versioning
