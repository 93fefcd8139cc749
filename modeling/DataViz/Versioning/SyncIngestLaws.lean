/-
# A source sync keeps people's edits

Each entity a sync merges obeys the law of the three-way merge, with main at the last
sync as base, main's head as ours and a row of the entity, or its absence, as theirs.
An entity no row of which differs from main is left as main has it. What the merge
settles then lands, but for what its deletions bring down: a child of what falls, and
an edge at what falls.
-/

import DataViz.Versioning.MergeLaws
import DataViz.Versioning.SourceRowsLaws
import DataViz.Versioning.SyncIngest

namespace DataViz.Versioning

open List Option Dict

open Cascade

variable {η : Type} {config : SyncConfig} {store : VersionStore η} {g : MainGraph}
  {commits : List (ℕ × SyncCommitKind)} {options : SyncOptions} {order : SetOrder}

def conflictsOf (conflicts : List SyncConflict) (eid : EntityId) : List Conflict :=
  (conflicts.filter fun c => c.entityId = eid).map SyncConflict.conflict

theorem syncRounds_ok {round : EntityId → Except PyError (Option Payload × List Conflict)}
    {ids : List EntityId} (hnodup : ids.Nodup) {merged : State} {conflicts : List SyncConflict}
    (h : syncRounds round ids = .ok (merged, conflicts)) (eid : EntityId) :
    (eid ∈ ids ∧ ∃ payload, round eid = .ok (payload, conflictsOf conflicts eid) ∧
        merged.get? eid = some payload) ∨
      (eid ∉ ids ∧ merged.get? eid = none ∧ conflictsOf conflicts eid = []) := by
  induction ids generalizing merged conflicts with
  | nil =>
    obtain ⟨rfl, rfl⟩ := Prod.mk.inj (Except.ok.inj h)
    exact .inr ⟨not_mem_nil, rfl, rfl⟩
  | cons first rest ih =>
    obtain ⟨hfresh, hrest⟩ := nodup_cons.mp hnodup
    rw [syncRounds] at h
    cases hfirst : round first with
    | error e =>
      rw [hfirst] at h
      cases h
    | ok out =>
      obtain ⟨payload, confs⟩ := out
      cases htail : syncRounds round rest with
      | error e =>
        rw [hfirst] at h
        simp only [bind, Except.bind, htail] at h
        cases h
      | ok tail =>
        obtain ⟨mergedRest, conflictsRest⟩ := tail
        rw [hfirst] at h
        simp only [bind, Except.bind, htail, pure, Except.pure, Except.ok.injEq, Prod.mk.injEq] at h
        obtain ⟨rfl, rfl⟩ := h
        have htailAt := ih hrest htail
        have hown : conflictsOf (confs.map (SyncConflict.mk first)) eid =
            if first = eid then confs else [] := by
          rw [conflictsOf, List.filter_map]
          by_cases heid : first = eid
          · simp [heid, Function.comp_def]
          · simp [heid, Function.comp_def]
        have happend : conflictsOf (confs.map (SyncConflict.mk first) ++ conflictsRest) eid =
            (if first = eid then confs else []) ++ conflictsOf conflictsRest eid := by
          rw [← hown, conflictsOf, filter_append, map_append]
          rfl
        rw [happend, get?_cons]
        by_cases heid : first = eid
        · subst heid
          rcases htailAt with ⟨hmem, -⟩ | ⟨-, -, hnone⟩
          · exact absurd hmem hfresh
          · refine .inl ⟨mem_cons_self, payload, ?_, if_pos rfl⟩
            rw [if_pos rfl, hnone, append_nil, hfirst]
        · rw [if_neg heid, if_neg heid]
          rcases htailAt with ⟨hmem, hround⟩ | ⟨hmem, hnone⟩
          · exact .inl ⟨mem_cons_of_mem _ hmem, hround⟩
          · exact .inr ⟨fun hcons => (mem_cons.mp hcons).elim (Ne.symm heid) hmem, hnone⟩

theorem get?_collapseEmptyPayloads (state : State) (eid : EntityId) :
    (collapseEmptyPayloads state).get? eid = (state.get? eid).map livePayload :=
  get?_map_value state (fun _ value => livePayload value) eid

section

variable {read : Bounded}
variable {merged : State} {conflicts : List SyncConflict}

/-- What the merge leaves of the changed entities, and of no other. -/
theorem syncMerged_ok (h : syncMerged config store g commits options read =
    .ok (merged, conflicts)) :
    (options.externalWins = false → conflicts = []) ∧ ∀ eid,
      (eid ∈ syncChanged store g options read ∧ ∃ payload,
        syncRound config.setFields options.policy options.resolutions
          (valuesAt store (g.layers (lastSyncSeq commits)) (syncChanged store g options read))
          (syncOurs store g options read) read.theirs eid =
            .ok (payload, conflictsOf conflicts eid) ∧
        merged.get? eid = some (livePayload payload)) ∨
      (eid ∉ syncChanged store g options read ∧ merged.get? eid = none ∧
        conflictsOf conflicts eid = []) := by
  rw [syncMerged] at h
  split at h
  · cases h
  · rename_i collapsed confs hrounds
    split at h
    · cases h
    · rename_i hquiet
      obtain ⟨rfl, rfl⟩ := Prod.mk.inj (Except.ok.inj h)
      constructor
      · intro hours
        by_contra hne
        exact hquiet ⟨by rw [SyncOptions.policy, hours]; rfl, hne⟩
      · intro eid
        rcases syncRounds_ok (nodup_sortedKeys _) hrounds eid with
          ⟨hmem, payload, hround, hget⟩ | ⟨hmem, hget, hnone⟩
        · exact .inl ⟨hmem, payload, hround, by rw [get?_collapseEmptyPayloads, hget]; rfl⟩
        · exact .inr ⟨hmem, by rw [get?_collapseEmptyPayloads, hget]; rfl, hnone⟩

end

/-- What the deletions among settled values bring down along containment. -/
inductive Falls (upper : String → String) (types : List String)
    (settled : EntityId → Option Payload) : EntityId → Prop
  | deleted {eid : EntityId} (h : settled eid = none) : Falls upper types settled eid
  | contained {other parent eid : EntityId} {p : Payload} (h : settled other = some p)
      (hlink : containmentLink upper (types.map upper) p = some (parent, eid))
      (hparent : Falls upper types settled parent) : Falls upper types settled eid

/-- A cascade takes the entity: a child of what falls, or an edge at it. -/
inductive TakenAway (upper : String → String) (types : List String)
    (settled : EntityId → Option Payload) (eid : EntityId) : Prop
  | child {other parent : EntityId} {p : Payload} (h : settled other = some p)
      (hlink : containmentLink upper (types.map upper) p = some (parent, eid))
      (hparent : Falls upper types settled parent)
  | edge {p : Payload} {end_ : EntityId} (h : settled eid = some p)
      (hend : source p = some end_ ∨ target p = some end_)
      (hfalls : Falls upper types settled end_)

section

variable {view : State}
variable {settled : EntityId → Option Payload}

/-- The cascades tombstone what they take, and nothing else. -/
theorem get?_syncCascaded (hview : ∀ eid value, view.get? eid = some value → settled eid = value)
    (eid : EntityId) :
    (syncCascaded config order options view).get? eid = view.get? eid ∨
      ((syncCascaded config order options view).get? eid = some none ∧
        TakenAway config.upper options.containmentEdgeTypes settled eid) := by
  obtain ⟨mid, cascaded, hcascade, hmem, hmid⟩ :=
    cascadeContainment_eq config.upper order options.containmentEdgeTypes view
  have hlink : ∀ {parent child}, parent ∈ containmentParents config.upper
      options.containmentEdgeTypes view child → ∃ other p, settled other = some p ∧
        containmentLink config.upper (options.containmentEdgeTypes.map config.upper) p =
          some (parent, child) := by
    intro parent child hparent
    obtain ⟨⟨other, value⟩, hentry, hpair⟩ := mem_filterMap.mp (mem_parentsOf.mp hparent)
    obtain ⟨p, rfl, hpair⟩ := bind_eq_some_iff.mp hpair
    exact ⟨other, p, hview other _ (mem_items_iff.mp hentry), hpair⟩
  have hfalls : ∀ x, Fallen (containmentParents config.upper options.containmentEdgeTypes view)
      (· ∈ tombstones view) x → Falls config.upper options.containmentEdgeTypes settled x := by
    intro x hx
    induction hx with
    | root h => exact .deleted (hview _ _ (mem_tombstones.mp h))
    | orphan hparent _ ih =>
      obtain ⟨parent, hmem⟩ := exists_mem_of_ne_nil _ hparent
      obtain ⟨other, p, hother, hedge⟩ := hlink hmem
      exact .contained hother hedge (ih parent hmem)
  have htomb : ∀ y, y ∈ tombstones mid →
      Falls config.upper options.containmentEdgeTypes settled y := by
    intro y hy
    rw [mem_tombstones, hmid] at hy
    by_cases hin : y ∈ cascaded
    · exact hfalls y ((hmem y).mp hin).1
    · rw [if_neg hin] at hy
      exact .deleted (hview y none hy)
  rw [syncCascaded, hcascade, map_some, getD_some, get?_cascadeIncidentEdges]
  by_cases hin : eid ∈ cascaded
  · obtain ⟨hfallen, hroot⟩ := (hmem eid).mp hin
    right
    rw [hmid, if_pos hin]
    refine ⟨by simp, ?_⟩
    cases hfallen with
    | root h => exact absurd h hroot
    | orphan hparent hall =>
      obtain ⟨parent, hmem⟩ := exists_mem_of_ne_nil _ hparent
      obtain ⟨other, p, hother, hedge⟩ := hlink hmem
      exact .child hother hedge (hfalls parent (hall parent hmem))
  · rw [hmid, if_neg hin]
    split
    · rename_i hany
      right
      obtain ⟨p, hp, htouches⟩ := exists_touches_of_any hany
      obtain ⟨y, hend, hy⟩ := exists_end_of_touches htouches
      exact ⟨rfl, .edge (hview eid _ hp) hend (htomb y hy)⟩
    · exact .inl rfl

end

section

variable [DecidableEq η] {contentHash : Option Payload → η}
variable {newId : ℕ → EntityId} {rows : List Payload} {now : ℕ} {report : SyncReport η}

theorem squashes_syncCommit (contentHash : Option Payload → η) (g : MainGraph) (now : ℕ)
    (states : State × State) :
    Squashes contentHash g states (syncCommit contentHash g now states) :=
  ⟨rfl, rfl, rfl⟩

/-- An accepted sync squashes the merged and cascaded state onto main. -/
theorem syncIngest_ok
    (h : syncIngest contentHash config order store g commits options newId rows now = .ok report) :
    let read := externalStateBounded contentHash store order g.key newId rows
    ∃ merged overridden commit,
      syncMerged config store g commits options read = .ok (merged, overridden) ∧
      Squashes contentHash g (syncOurs store g options read ++ hydration order store g merged,
          syncCascaded config order options (merged ++ hydration order store g merged)) commit ∧
      report.commit = nonemptyCommit commit ∧
      report.rejected = read.rejected ∧ report.overridden = overridden.take 200 := by
  intro read
  rw [syncIngest] at h
  simp only [bind, Except.bind] at h
  split at h
  · cases h
  split at h
  · cases h
  · rename_i curation _ out hstates
    obtain ⟨states, overridden⟩ := out
    rw [syncStates] at hstates
    simp only [bind, Except.bind] at hstates
    split at hstates
    · cases hstates
    · rename_i out hmerged
      obtain ⟨merged, overridden'⟩ := out
      split at hstates
      · cases hstates
      · obtain ⟨rfl, rfl⟩ := Prod.mk.inj (Except.ok.inj hstates)
        refine ⟨merged, overridden', _, hmerged, squashes_syncCommit contentHash g now _, ?_⟩
        split at h
        · rename_i hnil
          obtain rfl := Except.ok.inj h
          exact ⟨(if_pos hnil).symm, rfl, rfl⟩
        · rename_i hne
          split at h
          · cases h
          · obtain rfl := Except.ok.inj h
            exact ⟨(if_neg hne).symm, rfl, rfl⟩

/-- What the source says of an entity: a row of it, or by its absence that it is
gone. -/
inductive SourceSays (entries : List (EntityId × Payload)) (deletes : Bool) (eid : EntityId) :
    Option Payload → Prop
  | row {p : Payload} (h : (eid, p) ∈ entries) : SourceSays entries deletes eid (some p)
  | dropped (hdeletes : deletes = true) (h : ∀ p, (eid, p) ∉ entries) :
      SourceSays entries deletes eid none

variable {kinds : EntityId → Kind} {history : List (Commit η)}
variable (hrun : Run contentHash history store) (hkinds : KeepsKinds kinds history)
  (hhashed : Hashed contentHash history)

omit [DecidableEq η] in
/-- Main's own live entities are live in its state. -/
theorem get?_state_of_own {eid : EntityId} {p : Payload}
    (h : (composed history [(g.key, g.head)]).get? eid = some (some p)) :
    (g.state history g.head).get? eid = some (some p) := by
  rw [get?_composed_singleton] at h
  rw [get?_state, h]
  rfl

include hrun hkinds hhashed

theorem mem_liveIdsAbsentFrom {seen : List EntityId} {eid : EntityId} :
    eid ∈ liveIdsAbsentFrom store g.key seen ↔ eid ∉ seen ∧
      ∃ p, (lastDelta history (fun commit => commit.branch = g.key) eid).map Delta.value =
        some (some p) := by
  rw [liveIdsAbsentFrom, List.mem_map]
  constructor
  · rintro ⟨⟨eid', head⟩, hmem, rfl⟩
    obtain ⟨hentry, hcond⟩ := mem_filter.mp hmem
    obtain ⟨hlive, hseen⟩ := Bool.and_eq_true_iff.mp hcond
    have hget := mem_items_iff.mp hentry
    rw [get?_headIndex] at hget
    obtain ⟨value, hvalue, hhead⟩ := headSays_of_get? hrun hkinds hhashed hget
    refine ⟨of_decide_eq_true hseen, ?_⟩
    rw [hhead.isTombstone] at hlive
    obtain ⟨p, rfl⟩ : ∃ p, value = some p := by
      cases value with
      | none => cases hlive
      | some p => exact ⟨p, rfl⟩
    exact ⟨p, hvalue⟩
  · rintro ⟨hseen, p, hvalue⟩
    obtain ⟨head, hget⟩ := exists_head hrun.records hvalue
    obtain ⟨value, hvalue', hhead⟩ := headSays_of_get? hrun hkinds hhashed hget
    obtain rfl := some.inj (hvalue.symm.trans hvalue')
    refine ⟨(eid, head), mem_filter.mpr ⟨?_, ?_⟩, rfl⟩
    · rw [mem_items_iff, get?_headIndex, hget]
    · rw [hhead.isTombstone]
      simpa using hseen

variable (hhash : ∀ p q, contentHash p = contentHash q ↔ SamePayload p q)
  (hhead : g.IsHead history)

include hhash hhead

theorem settled_of_syncMerged (hnamed : ∀ p, (g.state history g.head).get? "" ≠ some (some p))
    (hnew : ∀ i, newId i ≠ "") {merged : State} {conflicts : List SyncConflict}
    (hmerged : syncMerged config store g commits options
      (externalStateBounded contentHash store order g.key newId rows) = .ok (merged, conflicts))
    {eid : EntityId} (hres : options.resolutions.get? eid = none) :
    (∃ theirs value, SourceSays (boundedEntries contentHash store order g.key newId rows)
        options.deletes eid theirs ∧
      livePayload ((merged.get? eid).getD ((g.state history g.head).get? eid).join) =
        livePayload value ∧
      MergesTo config.setFields options.policy
        ((g.state history (lastSyncSeq commits)).get? eid).join
        ((g.state history g.head).get? eid).join theirs value (conflictsOf conflicts eid)) ∨
    ((∀ p, (eid, p) ∉ boundedEntries contentHash store order g.key newId rows) ∧
      (options.deletes = true → ∀ p,
        (lastDelta history (fun commit => commit.branch = g.key) eid).map Delta.value ≠
          some (some p)) ∧
      merged.get? eid = none ∧ conflictsOf conflicts eid = []) := by
  have hours : IsState history g.key (composed history [(g.key, g.head)]) :=
    isState_of_composed hhead.2 rfl
  have hreads := reads_of_settled (g := g) hrun hkinds.settled
  obtain ⟨full, hagree⟩ : ∃ full, Agree (g.state history g.head)
      (externalStateBounded contentHash store order g.key newId rows) full _ :=
    agree_boundedEntries hrun hkinds hhashed hours hhash (fun _ _ => get?_state_of_own) hnamed
      hnew rows
  generalize externalStateBounded contentHash store order g.key newId rows = read at *
  have hseen : eid ∈ read.seen ↔
      ∃ p, (eid, p) ∈ boundedEntries contentHash store order g.key newId rows := by
    rw [hagree.seen, List.mem_map]
    constructor
    · rintro ⟨entry, hentry, rfl⟩
      exact ⟨entry.2, hentry⟩
    · rintro ⟨p, hentry⟩
      exact ⟨(eid, p), hentry, rfl⟩
  have hchanged : eid ∈ syncChanged store g options read ↔
      read.theirs.get? eid ≠ none ∨ eid ∈ syncDeletions store g options read := by
    have hnot : eid ∉ options.resolutions.keys := get?_eq_none_iff.mp hres
    rw [syncChanged, mem_sortedKeys, mem_append, mem_append,
      or_iff_left hnot, mem_keys_iff, isSome_iff_ne_none]
  rcases (syncMerged_ok hmerged).2 eid with ⟨hmem, payload, hround, hget⟩ | ⟨hmem, hget, hquiet⟩
  · left
    rw [syncRound, hres, syncOurs, hreads, hreads, if_pos hmem, if_pos hmem] at hround
    cases hout : threeWayMerge ((g.state history (lastSyncSeq commits)).get? eid).join
        ((g.state history g.head).get? eid).join (read.theirs.get? eid) config.setFields
        options.policy with
    | error e =>
      simp only [hout, Except.map] at hround
      cases hround
    | ok out =>
      simp only [hout, Except.map, Except.ok.injEq, Prod.mk.injEq] at hround
      obtain ⟨rfl, hconfs⟩ := hround
      have hlaw := threeWayMerge_mergesTo hout
      rw [hconfs] at hlaw
      refine ⟨read.theirs.get? eid, out.merged, ?_, ?_, hlaw⟩
      · cases htheirs : read.theirs.get? eid with
        | some p => exact .row (hagree.kept eid p htheirs)
        | none =>
          have hdeleted := (hchanged.mp hmem).resolve_left (not_not.mpr htheirs)
          rw [syncDeletions] at hdeleted
          split at hdeleted
          · rename_i hdeletes
            rw [mem_liveIdsAbsentFrom hrun hkinds hhashed] at hdeleted
            exact .dropped hdeletes fun p hentry => hdeleted.1 (hseen.mpr ⟨p, hentry⟩)
          · cases hdeleted
      · rw [hget, getD_some, livePayload_of_ne (livePayload_ne_empty _)]
  · obtain ⟨htheirs, hkept⟩ := not_or.mp (hchanged.not.mp hmem)
    rw [not_not] at htheirs
    by_cases hrow : eid ∈ read.seen
    · left
      rcases hagree.skipped eid with hfull | ⟨p, hfull, hsame⟩
      · exact absurd (hfull.symm.trans htheirs) (hagree.mem_seen_iff.mp hrow)
      · rw [hagree.theirs] at hfull
        refine ⟨some p, ((g.state history g.head).get? eid).join,
          .row (mem_of_get?_foldl_pairs hfull), by rw [hget]; rfl, ?_⟩
        rw [hquiet]
        exact .of_agree (.inl ⟨Json.EqBy?.of_same hsame.symm, .refl _⟩)
    · right
      refine ⟨fun p hentry => hrow (hseen.mpr ⟨p, hentry⟩), fun hdeletes p hvalue => hkept ?_, hget,
        hquiet⟩
      rw [syncDeletions, if_pos hdeletes, mem_liveIdsAbsentFrom hrun hkinds hhashed]
      exact ⟨hrow, p, hvalue⟩

omit hhashed in
theorem lands_of_syncStates {merged : State} {read : Bounded} {commit : Commit η}
    (hcommit : Squashes contentHash g
      (syncOurs store g options read ++ hydration order store g merged,
        syncCascaded config order options (merged ++ hydration order store g merged)) commit)
    (hmerged : ∀ eid, merged.get? eid ≠ none ↔ eid ∈ syncChanged store g options read)
    (eid : EntityId) :
    let settled := fun eid => (merged.get? eid).getD ((g.state history g.head).get? eid).join
    SameLive ((g.after history (nonemptyCommit commit)).get? eid) (some (settled eid)) ∨
      (livePayload ((g.after history (nonemptyCommit commit)).get? eid).join = none ∧
        TakenAway config.upper options.containmentEdgeTypes settled eid) := by
  intro settled
  have hreads := reads_of_settled (g := g) hrun hkinds.settled
  have hneighbour : ∀ eid, eid ∈ neighborhood order store g merged → merged.get? eid = none :=
    fun eid hmem => (mem_neighborhood.mp hmem).1
  have hview : ∀ eid, (merged ++ hydration order store g merged : State).get? eid =
      (merged.get? eid).or (if eid ∈ neighborhood order store g merged then
        ((g.state history g.head).get? eid).join.map some else none) := by
    intro eid
    rw [get?_append, get?_hydration (hreads g.head)]
  have hside : ∀ eid, (syncOurs store g options read ++ hydration order store g merged :
      State).get? eid =
      (if eid ∈ syncChanged store g options read then (g.state history g.head).get? eid
        else none).or (if eid ∈ neighborhood order store g merged then
          ((g.state history g.head).get? eid).join.map some else none) := by
    intro eid
    rw [get?_append, get?_hydration (hreads g.head), syncOurs, hreads]
  have hsettled : ∀ eid value, (merged ++ hydration order store g merged : State).get? eid =
      some value → settled eid = value := by
    intro eid value hvalue
    rw [hview] at hvalue
    show (merged.get? eid).getD _ = value
    cases hget : merged.get? eid with
    | some v =>
      rw [hget] at hvalue
      exact some.inj hvalue
    | none =>
      rw [hget] at hvalue
      obtain ⟨p, hp, rfl⟩ := map_eq_some_iff.mp (ite_none_right_eq_some.mp hvalue).2
      exact hp
  have hcascaded : (syncCascaded config order options
      (merged ++ hydration order store g merged)).get? eid =
        (merged ++ hydration order store g merged : State).get? eid ∨ _ :=
    get?_syncCascaded hsettled eid
  cases hin : (merged ++ hydration order store g merged : State).get? eid with
  | none =>
    left
    have hnone := hview eid
    rw [hin] at hnone
    obtain ⟨hget, hnb⟩ := or_eq_none_iff.mp hnone.symm
    have hfirst : (syncOurs store g options read ++ hydration order store g merged :
        State).get? eid = none := by
      rw [hside, if_neg ((hmerged eid).not.mp (not_not.mpr hget)), hnb]
      rfl
    have hsecond : ((syncCascaded config order options
        (merged ++ hydration order store g merged)).get? eid).join = none := by
      rcases hcascaded with heq | ⟨heq, -⟩
      · rw [heq, hin]
        rfl
      · rw [heq]
        rfl
    rw [get?_after hhead hcommit, hfirst, hsecond]
    show SameLive ((g.state history g.head).get? eid) (some ((merged.get? eid).getD _))
    rw [hget]
    exact SamePayload.refl _
  | some value =>
    have hcur : ((syncOurs store g options read ++ hydration order store g merged :
        State).get? eid).join = ((g.state history g.head).get? eid).join := by
      rw [hside]
      by_cases hmem : eid ∈ syncChanged store g options read
      · have hnot : eid ∉ neighborhood order store g merged := fun hnb =>
          (hmerged eid).mpr hmem (hneighbour eid hnb)
        rw [if_pos hmem, if_neg hnot, or_none]
      · have hget : merged.get? eid = none := not_not.mp ((hmerged eid).not.mpr hmem)
        rw [hview, hget] at hin
        rw [if_neg hmem, if_pos (ite_none_right_eq_some.mp hin).1]
        cases ((g.state history g.head).get? eid).join <;> rfl
    have hafter := sameLive_after hhash hhead hcommit hcur
    rcases hcascaded with heq | ⟨heq, htaken⟩
    · rw [heq, hin, ← hsettled eid value hin] at hafter
      exact .inl hafter
    · rw [heq] at hafter
      refine .inr ⟨?_, htaken⟩
      have hdead := Json.eqBy?_none_right.mp hafter
      exact map_eq_none_iff.mp hdead

end

/-- A sync kept people's edits. Each entity nobody resolved is settled by the law of the
three-way merge, between main at the last sync, main at its head and what the source
says; one the source says nothing of stays as it is. Without a winner there is no
conflict; where the source wins, the report lists the conflicts, two hundred at most.
What is settled lands, but for what the cascades of its deletions take. -/
structure KeepsEdits {η : Type} (config : SyncConfig) (options : SyncOptions)
    (entries : List (EntityId × Payload)) (base ours after : State) (own : EntityId → Prop)
    (report : SyncReport η) (settled : EntityId → Option Payload)
    (conflicts : List SyncConflict) : Prop where
  overridden : report.overridden = conflicts.take 200
  quiet : options.externalWins = false → conflicts = []
  settles : ∀ eid, options.resolutions.get? eid = none →
    (∃ theirs merged, SourceSays entries options.deletes eid theirs ∧
      livePayload (settled eid) = livePayload merged ∧
      MergesTo config.setFields options.policy (base.get? eid).join (ours.get? eid).join
        theirs merged (conflictsOf conflicts eid)) ∨
    ((∀ p, (eid, p) ∉ entries) ∧ (options.deletes = true → ¬ own eid) ∧
      settled eid = (ours.get? eid).join ∧ conflictsOf conflicts eid = [])
  lands : ∀ eid, SameLive (after.get? eid) (some (settled eid)) ∨
    (livePayload (after.get? eid).join = none ∧
      TakenAway config.upper options.containmentEdgeTypes settled eid)

def OwnLive {η : Type} (history : List (Commit η)) (g : MainGraph) (eid : EntityId) : Prop :=
  ∃ p, (lastDelta history (fun commit => commit.branch = g.key) eid).map Delta.value = some (some p)

/-- An accepted sync keeps people's edits, and takes a row whose urn or triple names one live
entity that main itself holds for that entity's. -/
theorem syncIngest_keepsEdits {η : Type} [DecidableEq η] (contentHash : Option Payload → η)
    (hhash : ∀ p q, contentHash p = contentHash q ↔ SamePayload p q)
    (config : SyncConfig) (order : SetOrder) (kinds : EntityId → Kind)
    (history : List (Commit η)) (store : VersionStore η) (g : MainGraph)
    (commits : List (ℕ × SyncCommitKind)) (options : SyncOptions) (newId : ℕ → EntityId)
    (rows : List Payload) (now : ℕ) (report : SyncReport η)
    (hrun : Run contentHash history store) (hkinds : KeepsKinds kinds history)
    (hhashed : Hashed contentHash history) (hhead : g.IsHead history)
    (hnamed : ∀ p, (g.state history g.head).get? "" ≠ some (some p))
    (hnew : ∀ i, newId i ≠ "")
    (h : syncIngest contentHash config order store g commits options newId rows now = .ok report) :
    (∃ settled conflicts,
      KeepsEdits config options (boundedEntries contentHash store order g.key newId rows)
        (g.state history (lastSyncSeq commits)) (g.state history g.head)
        (g.after history report.commit) (OwnLive history g) report settled conflicts) ∧
      ResolvesRows contentHash store order g.key newId rows kinds
        (composed history [(g.key, g.head)]) := by
  refine ⟨?_, resolvesRows hrun hkinds hhashed (isState_of_composed hhead.2 rfl)
    (fun p hown => hnamed p (get?_state_of_own hown)) newId rows⟩
  obtain ⟨merged, conflicts, commit, hmerged, hsquashes, hcommit, -, hoverridden⟩ :=
    syncIngest_ok h
  have hkeys : ∀ eid, merged.get? eid ≠ none ↔ eid ∈ syncChanged store g options
      (externalStateBounded contentHash store order g.key newId rows) := by
    intro eid
    rcases (syncMerged_ok hmerged).2 eid with ⟨hmem, payload, -, hget⟩ | ⟨hmem, hget, -⟩
    · exact iff_of_true (by rw [hget]; exact some_ne_none _) hmem
    · exact iff_of_false (not_not.mpr hget) hmem
  refine ⟨fun eid => (merged.get? eid).getD ((g.state history g.head).get? eid).join, conflicts,
    hoverridden, (syncMerged_ok hmerged).1, fun eid hres => ?_, fun eid => ?_⟩
  · rcases settled_of_syncMerged hrun hkinds hhashed hhash hhead hnamed hnew hmerged hres with
      hsays | ⟨hsilent, hdropped, hget, hquiet⟩
    · exact .inl hsays
    · refine .inr ⟨hsilent, fun hdeletes ⟨p, hown⟩ => hdropped hdeletes p hown, ?_, hquiet⟩
      simp only [hget, getD_none]
  · have hlands := lands_of_syncStates hrun hkinds hhash hhead hsquashes hkeys eid
    rw [← hcommit] at hlands
    exact hlands

def smallConfig : SyncConfig where
  setFields := ["tags"]
  deleteMaxAbs := 500
  deleteMaxFraction live := live / 20
  upper := id

/-- A sync without overrides that reads a whole snapshot. -/
def plainOptions : SyncOptions where
  externalWins := false
  resolutions := []
  containmentEdgeTypes := ["CONTAINS"]
  allowCurationRisk := false
  allowMassDelete := false
  holdsMain := false
  deletes := true

def syncedThen (first later : List (Delta (Option Json)))
    (hfirst : (first.map Delta.entityId).Nodup ∧ ∀ d ∈ first, d.op = .delete ↔ d.payload = none)
    (hlater : (later.map Delta.entityId).Nodup ∧ ∀ d ∈ later, d.op = .delete ↔ d.payload = none) :
    List (Commit (Option Json)) :=
  [commitOf "g" 1 1 first hfirst.1 hfirst.2, commitOf "g" 2 2 later hlater.1 hlater.2]

def syncSmall (store : VersionStore (Option Json)) (rows : List Payload) :
    Except RefusedSync (SyncReport (Option Json)) :=
  syncIngest canonicalForm smallConfig insertionOrder store (plainMain 2 (by decide))
    [(1, .sync), (2, .person)] plainOptions freshUrn rows 3

/-- What main holds of an entity after it, and the conflicts the source won. -/
def syncedValue (history : List (Commit (Option Json))) (store : VersionStore (Option Json))
    (rows : List Payload) (eid : EntityId) :
    Except RefusedSync (Option (Option Payload) × List SyncConflict) :=
  (syncSmall store rows).map fun report =>
    (((plainMain 2 (by decide)).after history report.commit).get? eid, report.overridden)

def classifiedTable : List (Commit (Option Json)) :=
  syncedThen [changeTo "a" none (some (tableOf "t"))]
    [changeTo "a" (some (tableOf "t")) (some (tableOf "t" ++ [("classification", .str "secret")]))]
    (by decide) (by decide)

def displayedTable : List Payload :=
  [tableRow "t" ++ [("displayName", .str "T")]]

/-- The person's class and the source's name both stay. -/
theorem syncIngest_keepsEdits_classifiedTable :
    ∃ store report settled conflicts, Run canonicalForm classifiedTable store ∧
      syncSmall store displayedTable = .ok report ∧
      syncedValue classifiedTable store displayedTable "a" =
        .ok (some (some [("classification", .str "secret"), ("displayName", .str "T"),
          ("entityType", .str "Table"), ("urn", .str "t")]), []) ∧
      KeepsEdits smallConfig plainOptions [("a", tableOf "t" ++ [("displayName", .str "T")])]
        ((plainMain 2 (by decide)).state classifiedTable 1)
        ((plainMain 2 (by decide)).state classifiedTable 2)
        ((plainMain 2 (by decide)).after classifiedTable report.commit)
        (OwnLive classifiedTable (plainMain 2 (by decide))) report settled conflicts := by
  have hkinds : KeepsKinds smallKindOf classifiedTable := by
    unfold KeepsKinds
    decide +kernel
  have hhashed : Hashed canonicalForm classifiedTable := by
    unfold Hashed
    decide +kernel
  have hhead : (plainMain 2 (by decide)).IsHead classifiedTable := ⟨by decide, by decide +kernel⟩
  have hnamed : ∀ p, ((plainMain 2 (by decide)).state classifiedTable 2).get? "" ≠
      some (some p) := by
    have hnone : ((plainMain 2 (by decide)).state classifiedTable 2).get? "" = none := by
      decide +kernel
    intro p hp
    cases hnone.symm.trans hp
  obtain ⟨store, hrun, hvalue, hentries⟩ : ∃ store, Run canonicalForm classifiedTable store ∧
      syncedValue classifiedTable store displayedTable "a" =
        .ok (some (some [("classification", .str "secret"), ("displayName", .str "T"),
          ("entityType", .str "Table"), ("urn", .str "t")]), []) ∧
      boundedEntries canonicalForm store insertionOrder ("g", "main") freshUrn displayedTable =
          [("a", tableOf "t" ++ [("displayName", .str "T")])] := by
    refine ⟨_, .commit _ false (.commit _ false .start (by decide) rfl) (by decide) rfl, ?_, ?_⟩
    · decide +kernel
    · decide +kernel
  cases hreport : syncSmall store displayedTable with
  | error refused =>
    rw [syncedValue, hreport] at hvalue
    cases hvalue
  | ok report =>
    obtain ⟨⟨settled, conflicts, hkeeps⟩, -⟩ := syncIngest_keepsEdits canonicalForm
      (fun _ _ => Iff.rfl) smallConfig insertionOrder smallKindOf classifiedTable store
      (plainMain 2 (by decide)) [(1, .sync), (2, .person)] plainOptions freshUrn
      displayedTable 3 report hrun hkinds hhashed hhead hnamed
      freshUrn_ne_empty hreport
    have hkey : (plainMain 2 (by decide)).key = ("g", "main") := rfl
    rw [hkey, hentries] at hkeeps
    exact ⟨store, report, settled, conflicts, hrun, hreport, hvalue, hkeeps⟩

def notedFlow : List (Commit (Option Json)) :=
  syncedThen [changeTo "a" none (some (tableOf "t")), changeTo "b" none (some (tableOf "u")),
      changeTo "x" none (some (edgeOf "FLOWS" "a" "b"))]
    [changeTo "x" (some (edgeOf "FLOWS" "a" "b"))
      (some (edgeOf "FLOWS" "a" "b" ++ [("properties", .obj [("note", .str "n")])]))]
    (by decide) (by decide)

def taggedTable (tags : List String) : Payload :=
  tableOf "t" ++ [("tags", .arr (tags.map Json.str))]

def tagged : List (Commit (Option Json)) :=
  syncedThen [changeTo "a" none (some (taggedTable ["p"]))]
    [changeTo "a" (some (taggedTable ["p"])) (some (taggedTable ["p", "q"]))]
    (by decide) (by decide)

def deletedTable : List (Commit (Option Json)) :=
  syncedThen [changeTo "a" none (some (tableOf "t"))] [changeTo "a" (some (tableOf "t")) none]
    (by decide) (by decide)

/-- A source that drops a table takes the flow a person edited with it, though it still
has the flow; tags both changed are united; and a table a person deleted comes back
under its urn. Nothing is reported. -/
theorem syncIngest_loses : (∃ store, Run canonicalForm notedFlow store ∧
      syncedValue notedFlow store [tableRow "t", flowRow "t" "u"] "x" = .ok (some none, [])) ∧
    (∃ store, Run canonicalForm tagged store ∧
      syncedValue tagged store [("kind", .str "node") :: taggedTable ["p", "r"]] "a" =
        .ok (some (some [("entityType", .str "Table"),
          ("tags", .arr [.str "p", .str "q", .str "r"]), ("urn", .str "t")]), [])) ∧
    ∃ store, Run canonicalForm deletedTable store ∧
      syncedValue deletedTable store [tableRow "t"] "t" = .ok (some (some (tableOf "t")), []) := by
  refine ⟨⟨_, .commit _ false (.commit _ false .start (by decide) rfl) (by decide) rfl, ?_⟩,
    ⟨_, .commit _ false (.commit _ false .start (by decide) rfl) (by decide) rfl, ?_⟩,
    ⟨_, .commit _ false (.commit _ false .start (by decide) rfl) (by decide) rfl, ?_⟩⟩
  · decide +kernel
  · decide +kernel
  · decide +kernel

end DataViz.Versioning
