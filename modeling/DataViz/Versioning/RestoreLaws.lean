/-
# What a revert and a restore leave

A restore composes the values at its target for the entities written since; the others are as they
were. Where the target state is sound, the cascade then has nothing to bring down and the guard
nothing to refuse, so the squash leads back to that state. A revert does the same for the entities
of one commit.

Both rest on as-of reads that give the fold of the commits, and on a content hash without
collisions.
-/

import DataViz.Versioning.CascadeLaws
import DataViz.Versioning.Restore
import DataViz.Versioning.VersionStoreLaws

namespace DataViz.Versioning

open List Option Dict

variable {η : Type} {contentHash : Option Payload → η} {history : List (Commit η)}
  {store : VersionStore η} {order : SetOrder} {g : MainGraph}

def SameLive (p q : Option (Option Payload)) : Prop :=
  SamePayload (livePayload p.join) (livePayload q.join)

theorem SameLive.refl (p : Option (Option Payload)) : SameLive p p := SamePayload.refl _

theorem SameLive.symm {p q : Option (Option Payload)} (h : SameLive p q) : SameLive q p :=
  SamePayload.symm h

theorem SameLive.trans {p q r : Option (Option Payload)} (hpq : SameLive p q)
    (hqr : SameLive q r) : SameLive p r := SamePayload.trans hpq hqr

section

/-- The state of main at a sequence number: the commits of its layers, folded. -/
def MainGraph.state (g : MainGraph) (history : List (Commit η)) (seq : ℕ) : State :=
  composed history (g.layers seq)

def WrittenIn (history : List (Commit η)) (branch : BranchKey) (lo hi : ℕ)
    (eid : EntityId) : Prop :=
  ∃ commit ∈ history, commit.branch = branch ∧ lo < commit.seq ∧ commit.seq ≤ hi ∧
    ∃ d ∈ commit.deltas, d.entityId = eid

theorem get?_state (g : MainGraph) (history : List (Commit η)) (seq : ℕ) (eid : EntityId) :
    (g.state history seq).get? eid = ((lastDelta history (upTo g.key seq) eid).map Delta.value).or
        ((composed history (g.parents seq)).get? eid) := by
  rw [MainGraph.state, MainGraph.layers, composed, get?_update, get?_foldUpTo]

variable {lo hi : ℕ}

theorem lastDelta_upTo_of_untouched {history : List (Commit η)} {branch : BranchKey} (hle : lo ≤ hi)
    {eid : EntityId} (h : ¬ WrittenIn history branch lo hi eid) :
    lastDelta history (upTo branch hi) eid = lastDelta history (upTo branch lo) eid := by
  rw [lastDelta]
  congr 1
  refine filterMap_congr fun commit hcommit => ?_
  by_cases hbranch : commit.branch = branch
  · by_cases hlo : commit.seq ≤ lo
    · have hhi := hlo.trans hle
      simp [upTo, hbranch, hlo, hhi]
    · have hnone : commit.seq ≤ hi → commit.deltaAt eid = none := by
        intro hhi
        by_contra hsome
        obtain ⟨d, hd⟩ := ne_none_iff_exists'.mp hsome
        exact h ⟨commit, hcommit, hbranch, Nat.lt_of_not_le hlo, hhi, d, deltaAt_eq_some.mp hd⟩
      by_cases hhi : commit.seq ≤ hi
      · simp [upTo, hbranch, hlo, hhi, hnone hhi]
      · simp [upTo, hlo, hhi]
  · simp [upTo, hbranch]

theorem state_of_untouched {g : MainGraph} {history : List (Commit η)} (hle : lo ≤ hi)
    (hparents : g.parents lo = g.parents hi) {eid : EntityId}
    (h : ¬ WrittenIn history g.key lo hi eid) :
    (g.state history hi).get? eid = (g.state history lo).get? eid := by
  rw [get?_state, get?_state, lastDelta_upTo_of_untouched hle h, hparents]

/-- Between two Updates from parent the base stays. -/
theorem MainGraph.parents_eq (g : MainGraph) (hgenesis : g.genesisSeq ≤ lo) (hle : lo ≤ hi)
    (hsame : ∀ seq ∈ g.forkSeqs, lo < seq → ¬ seq ≤ hi) : g.parents lo = g.parents hi := by
  induction hi, hle using Nat.le_induction with
  | base => rfl
  | succ hi hle ih =>
    rw [ih fun seq hseq hlt hle' => hsame seq hseq hlt (Nat.le_succ_of_le hle')]
    refine (g.parents_succ hi (hgenesis.trans hle) fun hmem => ?_).symm
    exact hsame (hi + 1) hmem (Nat.lt_succ_of_le hle) le_rfl

end

section

variable [DecidableEq η]
theorem Run.exists_row_iff (hrun : Run contentHash history store) (kind : Kind)
    (branch : BranchKey) (seq : ℕ) (eid : EntityId) :
    (∃ row ∈ store.versions kind, row.branch = branch ∧ row.commitSeq = seq ∧ row.entityId = eid) ↔
      ∃ commit ∈ history, commit.branch = branch ∧ commit.seq = seq ∧
        commit.kindOf eid = kind ∧ ∃ d ∈ commit.deltas, d.entityId = eid := by
  induction hrun with
  | start => cases kind <;> simp [VersionStore.empty, VersionStore.versions]
  | @commit history store store' commit occGuard _ _ hwrite ih =>
    have hrows := (writeDeltas_ok hwrite).1 kind
    have hnew : (∃ row ∈ versionRows commit kind store.nextId commit.deltas,
        row.branch = branch ∧ row.commitSeq = seq ∧ row.entityId = eid) ↔
        commit.branch = branch ∧ commit.seq = seq ∧ commit.kindOf eid = kind ∧
          ∃ d ∈ commit.deltas, d.entityId = eid := by
      constructor
      · rintro ⟨row, hrow, rfl, rfl, rfl⟩
        obtain ⟨i, d, hd, hkind, rfl⟩ := mem_versionRows.mp hrow
        exact ⟨rfl, rfl, hkind, d, mem_of_getElem? hd, rfl⟩
      · rintro ⟨rfl, rfl, hkind, d, hd, rfl⟩
        obtain ⟨i, hi⟩ := mem_iff_getElem?.mp hd
        exact ⟨versionRow commit (store.nextId + i) d,
          mem_versionRows.mpr ⟨i, d, hi, hkind, rfl⟩, rfl, rfl, rfl⟩
    rw [hrows]
    simp only [mem_append, or_and_right, exists_or, ih, hnew, mem_singleton, exists_eq_left]

theorem Run.mem_writtenIn (hrun : Run contentHash history store) (window : BranchKey × ℕ × ℕ)
    (eid : EntityId) :
    eid ∈ writtenIn store.nodeVersions window ++ writtenIn store.edgeVersions window ↔
      WrittenIn history window.1 window.2.1 window.2.2 eid := by
  have htable : ∀ kind, eid ∈ writtenIn (store.versions kind) window ↔
      ∃ seq, window.2.1 < seq ∧ seq ≤ window.2.2 ∧ ∃ row ∈ store.versions kind,
        row.branch = window.1 ∧ row.commitSeq = seq ∧ row.entityId = eid := by
    intro kind
    rw [writtenIn, List.mem_map]
    constructor
    · rintro ⟨row, hrow, rfl⟩
      obtain ⟨hmem, hin⟩ := mem_filter.mp hrow
      obtain ⟨hbranch, hlo, hhi⟩ := of_decide_eq_true hin
      exact ⟨row.commitSeq, hlo, hhi, row, hmem, hbranch, rfl, rfl⟩
    · rintro ⟨seq, hlo, hhi, row, hmem, hbranch, rfl, rfl⟩
      exact ⟨row, mem_filter.mpr ⟨hmem, decide_eq_true ⟨hbranch, hlo, hhi⟩⟩, rfl⟩
  have hnode := htable .node
  have hedge := htable .edge
  simp only [hrun.exists_row_iff] at hnode hedge
  rw [mem_append]
  constructor
  · rintro (hmem | hmem)
    · obtain ⟨seq, hlo, hhi, commit, hcommit, hbranch, rfl, -, hd⟩ := hnode.mp hmem
      exact ⟨commit, hcommit, hbranch, hlo, hhi, hd⟩
    · obtain ⟨seq, hlo, hhi, commit, hcommit, hbranch, rfl, -, hd⟩ := hedge.mp hmem
      exact ⟨commit, hcommit, hbranch, hlo, hhi, hd⟩
  · rintro ⟨commit, hcommit, hbranch, hlo, hhi, hd⟩
    cases hkind : commit.kindOf eid with
    | node => exact .inl (hnode.mpr
        ⟨commit.seq, hlo, hhi, commit, hcommit, hbranch, rfl, hkind, hd⟩)
    | edge => exact .inr (hedge.mpr
        ⟨commit.seq, hlo, hhi, commit, hcommit, hbranch, rfl, hkind, hd⟩)

theorem Run.mem_changedInWindow (hrun : Run contentHash history store) {g : MainGraph} {lo hi : ℕ}
    (hparents : g.parents lo = g.parents hi) {eid : EntityId} :
    eid ∈ changedInWindow store g lo hi ↔ WrittenIn history g.key lo hi eid := by
  have hempty : ∀ window ∈ zipWith (fun a b => (a.1, min a.2 b.2, max a.2 b.2))
      (g.parents lo) (g.parents hi), ¬ WrittenIn history window.1 window.2.1 window.2.2 eid := by
    rintro window hwindow ⟨commit, -, -, hlo, hhi, -⟩
    rw [← hparents, zipWith_self] at hwindow
    obtain ⟨layer, -, rfl⟩ := mem_map.mp hwindow
    simp only [min_self, max_self] at hlo hhi
    omega
  rw [changedInWindow, mem_dedup, mem_flatMap]
  constructor
  · rintro ⟨window, hwindow, hmem⟩
    rw [hrun.mem_writtenIn] at hmem
    rcases mem_cons.mp hwindow with rfl | hparent
    · exact hmem
    · exact absurd hmem (hempty window hparent)
  · intro h
    exact ⟨(g.key, lo, hi), mem_cons_self, (hrun.mem_writtenIn _ eid).mpr h⟩

end

section

variable {p : Payload}

theorem mem_namedEnds {y : EntityId} :
    y ∈ namedEnds p ↔ y ≠ "" ∧ (source p = some y ∨ target p = some y) := by
  have hend : ∀ value : Option EntityId, y ≠ "" → (y = value.getD "" ↔ value = some y) := by
    intro value hne
    cases value with
    | none => simp [hne]
    | some z => simp [eq_comm]
  rw [namedEnds, mem_filter]
  simp only [mem_cons, not_mem_nil, or_false, decide_eq_true_eq]
  constructor
  · rintro ⟨hy, hne⟩
    exact ⟨hne, hy.imp (hend _ hne).mp (hend _ hne).mp⟩
  · rintro ⟨hne, hy⟩
    exact ⟨hy.imp (hend _ hne).mpr (hend _ hne).mpr, hne⟩

theorem get?_restricted (values : State) (touched : List EntityId) (eid : EntityId) :
    (restricted values touched).get? eid =
      if eid ∈ touched then some (values.get? eid).join else none := by
  rw [restricted]
  induction touched with
  | nil => rfl
  | cons other rest ih =>
    rw [map_cons, get?_cons, ih]
    by_cases heid : other = eid
    · simp [heid]
    · simp [heid, Ne.symm heid]

variable {eid : EntityId}

theorem MainGraph.mem_incidentLiveEdges {ids : List EntityId}
    (h : (eid, p) ∈ g.incidentLiveEdges store ids) :
    (valuesAt store (g.layers g.head) (incidentEdgeIds store g ids)).get? eid = some (some p) := by
  obtain ⟨⟨key, value⟩, hmem, hpair⟩ := mem_filterMap.mp h
  obtain ⟨q, rfl, heq⟩ := map_eq_some_iff.mp hpair
  obtain ⟨rfl, rfl⟩ := Prod.mk.inj heq
  exact mem_items_iff.mp hmem

/-- The edges a sparse state's deletions bring into view. -/
def incidentOf (store : VersionStore η) (g : MainGraph) (merged : State) : Dict EntityId Payload :=
  if tombstones merged = [] then [] else g.incidentLiveEdges store (tombstones merged)

theorem mem_neighborhood {merged : State} :
    eid ∈ neighborhood order store g merged ↔ merged.get? eid = none ∧
      ((∃ p, (eid, p) ∈ incidentOf store g merged) ∨
        ∃ p, ((∃ other, merged.get? other = some (some p)) ∨
          ∃ other, (other, p) ∈ incidentOf store g merged) ∧ eid ∈ namedEnds p) := by
  rw [neighborhood, mem_filter, (order.perm _ _).mem_iff, mem_dedup, mem_append,
    decide_eq_true_iff, ← get?_eq_none_iff, and_comm]
  refine and_congr_right fun _ => or_congr ?_ ?_
  · simp [Dict.keys, incidentOf]
  · simp only [mem_flatMap, mem_append, mem_filterMap, List.mem_map, Prod.exists,
      mem_items_iff, exists_eq_right, incidentOf]

theorem get?_hydration {history : List (Commit η)}
    (hreads : ∀ ids eid, (valuesAt store (g.layers g.head) ids).get? eid =
      if eid ∈ ids then (g.state history g.head).get? eid else none)
    (merged : State) (eid : EntityId) :
    (hydration order store g merged).get? eid = if eid ∈ neighborhood order store g merged then
        ((g.state history g.head).get? eid).join.map some else none := by
  rw [hydration, get?_ofKeys, hreads]
  split <;> rfl

theorem incidentOf_value {history : List (Commit η)}
    (hreads : ∀ ids eid, (valuesAt store (g.layers g.head) ids).get? eid =
      if eid ∈ ids then (g.state history g.head).get? eid else none)
    {merged : State} (h : (eid, p) ∈ incidentOf store g merged) :
    (g.state history g.head).get? eid = some (some p) := by
  rw [incidentOf] at h
  split at h
  · cases h
  · have hvalue := g.mem_incidentLiveEdges h
    rw [hreads] at hvalue
    exact (ite_none_right_eq_some.mp hvalue).2

end

section

/-- Main after a revert or a restore: its new commit, if it wrote one. -/
def MainGraph.after (g : MainGraph) (history : List (Commit η)) : Option (Commit η) → State
  | none => g.state history g.head
  | some commit => g.state (history ++ [commit]) (g.head + 1)

def MainGraph.IsHead (g : MainGraph) (history : List (Commit η)) : Prop :=
  g.genesisSeq ≤ g.head ∧ ∀ commit ∈ history, commit.branch = g.key → commit.seq ≤ g.head

theorem composed_append_of_ne {history : List (Commit η)} {commit : Commit η}
    {layers : List (BranchKey × ℕ)} (h : ∀ layer ∈ layers, layer.1 ≠ commit.branch) :
    composed (history ++ [commit]) layers = composed history layers := by
  induction layers with
  | nil => rfl
  | cons layer layers ih =>
    obtain ⟨branch, seq⟩ := layer
    obtain ⟨hne, hrest⟩ := forall_mem_cons.mp h
    have hskip : upTo branch seq commit = false :=
      decide_eq_false fun hat => hne hat.1.symm
    rw [composed, composed, ih hrest, foldUpTo, foldUpTo]
    simp [hskip]

variable [DecidableEq η]

structure Squashes (contentHash : Option Payload → η) (g : MainGraph) (states : State × State)
    (commit : Commit η) : Prop where
  branch : commit.branch = g.key
  seq : commit.seq = g.head + 1
  deltas : commit.deltas = netDelta contentHash states.1 states.2

theorem squashes_squashCommit (contentHash : Option Payload → η) (store : VersionStore η)
    (g : MainGraph) (now : ℕ) (states : State × State) :
    Squashes contentHash g states (squashCommit contentHash store g now states) :=
  ⟨rfl, rfl, rfl⟩

section

variable {states : State × State} {commit : Commit η}

theorem Squashes.deltaAt (h : Squashes contentHash g states commit) (eid : EntityId) :
    commit.deltaAt eid =
      deltaOf contentHash eid (states.1.get? eid).join (states.2.get? eid).join := by
  refine ext fun d => ?_
  rw [deltaAt_eq_some, h.deltas, mem_netDelta]
  constructor
  · rintro ⟨hd, rfl⟩
    exact hd
  · intro hd
    have heid := entityId_deltaOf hd
    exact ⟨heid ▸ hd, heid⟩

/-- What a squash wrote lies over what main held. -/
theorem get?_after (hhead : g.IsHead history) (hcommit : Squashes contentHash g states commit)
    (eid : EntityId) :
    (g.after history (nonemptyCommit commit)).get? eid =
      ((deltaOf contentHash eid (states.1.get? eid).join (states.2.get? eid).join).map
        Delta.value).or ((g.state history g.head).get? eid) := by
  rw [← hcommit.deltaAt, nonemptyCommit]
  split
  · rename_i hnil
    simp [MainGraph.after, Commit.deltaAt, hnil]
  · have hparents : g.parents (g.head + 1) = g.parents g.head :=
      g.parents_succ g.head hhead.1 fun hmem =>
        absurd (g.forkSeqs_le _ hmem) (Nat.not_succ_le_self _)
    have hother : composed (history ++ [commit]) (g.parents g.head) =
        composed history (g.parents g.head) :=
      composed_append_of_ne fun layer hlayer => hcommit.branch ▸ g.parents_ne _ layer hlayer
    have hself : upTo g.key (g.head + 1) commit = true := by
      simp [upTo, hcommit.branch, hcommit.seq]
    have hold : lastDelta history (upTo g.key (g.head + 1)) eid =
        lastDelta history (upTo g.key g.head) eid := by
      refine lastDelta_congr fun prior hprior => ?_
      rw [upTo, upTo, Bool.eq_iff_iff]
      simp only [decide_eq_true_iff]
      refine and_congr_right fun hkey => ?_
      have hle := hhead.2 prior hprior hkey
      omega
    rw [MainGraph.after, get?_state, get?_state, lastDelta_concat, if_pos hself, hparents, hother,
      hold]
    cases commit.deltaAt eid <;> rfl

/-- A squash leads to its second state wherever its first is what main holds. -/
theorem sameLive_after (hhash : ∀ p q, contentHash p = contentHash q ↔ SamePayload p q)
    (hhead : g.IsHead history) (hcommit : Squashes contentHash g states commit) {eid : EntityId}
    (hcur : (states.1.get? eid).join = ((g.state history g.head).get? eid).join) :
    SameLive ((g.after history (nonemptyCommit commit)).get? eid) (states.2.get? eid) := by
  rw [get?_after hhead hcommit, hcur]
  cases hd : deltaOf contentHash eid ((g.state history g.head).get? eid).join
      (states.2.get? eid).join with
  | none =>
    exact (hhash _ _).mp (deltaOf_eq_none hd)
  | some d =>
    have hvalue : d.value = livePayload (states.2.get? eid).join := by
      rw [← (deltaOf_eq_some hd).1, Delta.value]
      split
      · exact ((payload_deltaOf hd).mp ‹_›).symm
      · rfl
    rw [map_some, some_or, SameLive, join_some, hvalue, livePayload_of_ne (livePayload_ne_empty _)]

theorem after_of_none (hhead : g.IsHead history) (hcommit : Squashes contentHash g states commit)
    {eid : EntityId} (hfirst : states.1.get? eid = none) (hsecond : states.2.get? eid = none) :
    (g.after history (nonemptyCommit commit)).get? eid = (g.state history g.head).get? eid := by
  rw [get?_after hhead hcommit, hfirst, hsecond]
  rfl

end

end

section

/-- A state a restore can lead to: sound, its edges between nodes, and no edge at
the empty id. -/
structure Restorable (state : State) : Prop where
  sound : assertReferentialIntegrity state = .ok ()
  ends : EndsAtNodes state
  named : ∀ entry ∈ state.items, ∀ p ∈ entry.2.toList, source p ≠ some "" ∧ target p ≠ some ""

instance (state : State) : Decidable (Restorable state) :=
  decidable_of_iff (assertReferentialIntegrity state = .ok () ∧ EndsAtNodes state ∧
      ∀ entry ∈ state.items, ∀ p ∈ entry.2.toList, source p ≠ some "" ∧ target p ≠ some "")
    ⟨fun ⟨hsound, hends, hnamed⟩ => ⟨hsound, hends, hnamed⟩,
      fun ⟨hsound, hends, hnamed⟩ => ⟨hsound, hends, hnamed⟩⟩

theorem Restorable.ends_live {state : State} (h : Restorable state) {eid : EntityId} {p : Payload}
    (hp : state.get? eid = some (some p)) : IsNode p ∨ ∃ src tgt, source p = some src ∧
      target p = some tgt ∧ src ∈ liveIds state ∧ tgt ∈ liveIds state :=
  dangles_eq_false_iff.mp (assertReferentialIntegrity_ok_iff.mp h.sound eid p hp)

/-- The touched entities at one state, with the neighbourhood of main's. -/
def hydratedState (order : SetOrder) (store : VersionStore η) (g : MainGraph) (values : State)
    (touched : List EntityId) : State :=
  restricted values touched ++ hydration order store g (restricted values touched)

def mainSide (order : SetOrder) (store : VersionStore η) (g : MainGraph)
    (history : List (Commit η)) (values : State) (touched : List EntityId) : State :=
  restricted (g.state history g.head) touched ++ hydration order store g (restricted values touched)

theorem exists_touches_of_any {value : Option (Option Payload)} {tomb : List EntityId}
    (h : (value.any fun value => value.any (touches tomb)) = true) :
    ∃ p, value = some (some p) ∧ touches tomb p = true := by
  rcases value with - | - | p
  · cases h
  · cases h
  · exact ⟨p, rfl, h⟩

theorem exists_end_of_touches {tomb : List EntityId} {p : Payload} (h : touches tomb p = true) :
    ∃ y, (source p = some y ∨ target p = some y) ∧ y ∈ tomb := by
  rw [touches] at h
  cases hsource : source p with
  | none => simp [hsource] at h
  | some src =>
    by_cases hsrc : src ∈ tomb
    · exact ⟨src, .inl rfl, hsrc⟩
    · cases htarget : target p with
      | none => simp [hsource, htarget, hsrc] at h
      | some tgt => exact ⟨tgt, .inr rfl, by simpa [hsource, htarget, hsrc] using h⟩

section

variable {values : State} {touched : List EntityId}
  (hreads : ∀ ids eid, (valuesAt store (g.layers g.head) ids).get? eid =
    if eid ∈ ids then (g.state history g.head).get? eid else none)

include hreads

theorem get?_hydratedState (eid : EntityId) :
    (hydratedState order store g values touched).get? eid =
      if eid ∈ touched then some (values.get? eid).join
      else if eid ∈ neighborhood order store g (restricted values touched) then
        ((g.state history g.head).get? eid).join.map some
      else none := by
  rw [hydratedState, get?_append, get?_restricted, get?_hydration hreads]
  by_cases heid : eid ∈ touched <;> simp [heid]

theorem get?_mainSide (eid : EntityId) : (mainSide order store g history values touched).get? eid =
      if eid ∈ touched then some ((g.state history g.head).get? eid).join
      else if eid ∈ neighborhood order store g (restricted values touched) then
        ((g.state history g.head).get? eid).join.map some
      else none := by
  rw [mainSide, get?_append, get?_restricted, get?_hydration hreads]
  by_cases heid : eid ∈ touched <;> simp [heid]

theorem mem_tombstones_hydratedState {eid : EntityId} :
    eid ∈ tombstones (hydratedState order store g values touched) ↔
      eid ∈ touched ∧ (values.get? eid).join = none := by
  rw [mem_tombstones, get?_hydratedState hreads]
  by_cases heid : eid ∈ touched
  · simp [heid]
  · by_cases hmem : eid ∈ neighborhood order store g (restricted values touched)
    · cases ((g.state history g.head).get? eid).join <;> simp [heid, hmem]
    · simp [heid, hmem]

theorem mem_hydratedState_of_end {p : Payload} {y : EntityId} {q : Payload}
    (hview : (∃ other, (restricted values touched).get? other = some (some p)) ∨
      ∃ other, (other, p) ∈ incidentOf store g (restricted values touched))
    (hend : source p = some y ∨ target p = some y) (hne : y ≠ "") (htouched : y ∉ touched)
    (hlive : (g.state history g.head).get? y = some (some q)) :
    (hydratedState order store g values touched).get? y = some (some q) := by
  have hnone : (restricted values touched).get? y = none := by
    rw [get?_restricted, if_neg htouched]
  have hmem : y ∈ neighborhood order store g (restricted values touched) :=
    mem_neighborhood.mpr ⟨hnone, .inr ⟨p, hview, mem_namedEnds.mpr ⟨hne, hend⟩⟩⟩
  rw [get?_hydratedState hreads, if_neg htouched, if_pos hmem, hlive]
  rfl

theorem guards_of_restorable (order : SetOrder) (hvalues : Restorable values)
    (hhead : Restorable (g.state history g.head))
    (hsame : ∀ eid ∉ touched, (g.state history g.head).get? eid = values.get? eid) :
    (∀ eid, (cascadeIncidentEdges (hydratedState order store g values touched)).1.get? eid =
        (hydratedState order store g values touched).get? eid) ∧
      assertReferentialIntegrity
        (cascadeIncidentEdges (hydratedState order store g values touched)).1 = .ok () := by
  have hlive : ∀ eid p, (hydratedState order store g values touched).get? eid = some (some p) →
      values.get? eid = some (some p) := by
    intro eid p hp
    rw [get?_hydratedState hreads] at hp
    split at hp
    · exact join_eq_some_iff.mp (some.inj hp)
    · rename_i htouched
      obtain ⟨-, hp⟩ := ite_none_right_eq_some.mp hp
      obtain ⟨q, hq, heq⟩ := map_eq_some_iff.mp hp
      obtain rfl := some.inj heq
      rw [← hsame eid htouched]
      exact join_eq_some_iff.mp hq
  have hends : ∀ eid p, (hydratedState order store g values touched).get? eid = some (some p) →
      ∀ y, source p = some y ∨ target p = some y → y ∈ liveIds values := by
    intro eid p hp y hend
    rcases hvalues.ends_live (hlive eid p hp) with ⟨hsource, htarget⟩ |
      ⟨src, tgt, hsource, htarget, hsrc, htgt⟩
    · rcases hend with hend | hend
      · rw [hsource] at hend
        cases hend
      · rw [htarget] at hend
        cases hend
    · rcases hend with hend | hend
      · exact some.inj (hsource.symm.trans hend) ▸ hsrc
      · exact some.inj (htarget.symm.trans hend) ▸ htgt
  have hsame' : ∀ eid, (cascadeIncidentEdges
      (hydratedState order store g values touched)).1.get? eid =
        (hydratedState order store g values touched).get? eid := by
    intro eid
    rw [get?_cascadeIncidentEdges]
    refine if_neg fun hany => ?_
    obtain ⟨p, hp, htouches⟩ := exists_touches_of_any hany
    obtain ⟨y, hend, htomb⟩ := exists_end_of_touches htouches
    -- A deleted entity is not live in the state restored, where the ends of edges are.
    obtain ⟨-, hnone⟩ := (mem_tombstones_hydratedState hreads).mp htomb
    obtain ⟨q, hq⟩ := mem_liveIds.mp (hends eid p hp y hend)
    rw [hq] at hnone
    cases hnone
  refine ⟨hsame', assertReferentialIntegrity_ok_iff.mpr fun eid p hp => ?_⟩
  rw [hsame'] at hp
  rw [dangles_eq_false_iff]
  have hpS := hlive eid p hp
  -- An end is touched and returns, or is drawn in with the edge.
  have hin : ∀ y, source p = some y ∨ target p = some y →
      y ∈ liveIds (cascadeIncidentEdges (hydratedState order store g values touched)).1 := by
    intro y hend
    obtain ⟨q, hq⟩ := mem_liveIds.mp (hends eid p hp y hend)
    rw [mem_liveIds]
    refine ⟨q, ?_⟩
    rw [hsame']
    by_cases hy : y ∈ touched
    · rw [get?_hydratedState hreads, if_pos hy, hq]
      rfl
    · have hyHead : (g.state history g.head).get? y = some (some q) := (hsame y hy).trans hq
      have hne : y ≠ "" := by
        rintro rfl
        obtain ⟨hsource, htarget⟩ :=
          hvalues.named (eid, some p) (mem_items_iff.mpr hpS) p (by simp)
        exact hend.elim hsource htarget
      refine mem_hydratedState_of_end hreads ?_ hend hne hy hyHead
      by_cases heid : eid ∈ touched
      · refine .inl ⟨eid, ?_⟩
        rw [get?_restricted, if_pos heid, hpS]
        rfl
      · have hmem : eid ∈ neighborhood order store g (restricted values touched) := by
          rw [get?_hydratedState hreads, if_neg heid] at hp
          exact (ite_none_right_eq_some.mp hp).1
        have hpHead : (g.state history g.head).get? eid = some (some p) :=
          (hsame eid heid).trans hpS
        rcases (mem_neighborhood.mp hmem).2 with ⟨p', hincident⟩ | ⟨p', hview, hend'⟩
        · have hp' := incidentOf_value hreads hincident
          obtain rfl : p = p' := some.inj (some.inj (hpHead.symm.trans hp'))
          exact .inr ⟨eid, hincident⟩
        · -- What is drawn in as an end is a node, so it has no end itself.
          exfalso
          have hnode : IsNode p := by
            obtain ⟨-, hend'⟩ := mem_namedEnds.mp hend'
            rcases hview with ⟨other, hother⟩ | ⟨other, hother⟩
            · rw [get?_restricted] at hother
              obtain ⟨-, hother⟩ := ite_none_right_eq_some.mp hother
              exact hvalues.ends other p' (join_eq_some_iff.mp (some.inj hother)) eid
                hend' p hpS
            · exact hhead.ends other p' (incidentOf_value hreads hother) eid hend' p hpHead
          rcases hend with hend | hend
          · rw [hnode.1] at hend
            cases hend
          · rw [hnode.2] at hend
            cases hend
  rcases hvalues.ends_live hpS with hnode | ⟨src, tgt, hsource, htarget, -, -⟩
  · exact .inl hnode
  · exact .inr ⟨src, tgt, hsource, htarget, hin src (.inl hsource), hin tgt (.inr htarget)⟩

end

end

section

variable [DecidableEq η]
theorem restricted_congr {first second : State} {touched : List EntityId}
    (h : ∀ eid ∈ touched, first.get? eid = second.get? eid) :
    restricted first touched = restricted second touched := by
  refine map_congr_left fun eid heid => ?_
  rw [h eid heid]

/-- As-of reads of main give the fold. -/
theorem reads_of_settled (hrun : Run contentHash history store) (hsettled : NodesSettled history)
    (seq : ℕ) (ids : List EntityId) (eid : EntityId) :
    (valuesAt store (g.layers seq) ids).get? eid =
      if eid ∈ ids then (g.state history seq).get? eid else none :=
  ((readsFold_iff_nodesSettled contentHash history store hrun).mpr hsettled).valuesAt _ ids eid

theorem parents_of_withinBase {seq : ℕ} (hgenesis : g.genesisSeq ≤ seq) (hle : seq ≤ g.head)
    (hbase : withinBase g seq = true) : g.parents seq = g.parents g.head := by
  refine g.parents_eq hgenesis hle fun u hu hlt huhead => ?_
  have hall := all_eq_true.mp hbase u (mem_filter.mpr ⟨hu, decide_eq_true huhead⟩)
  have hle' : u ≤ seq := of_decide_eq_true hall
  omega

theorem restore_leads_back (order : SetOrder)
    (hhash : ∀ p q, contentHash p = contentHash q ↔ SamePayload p q)
    (hrun : Run contentHash history store) (hsettled : NodesSettled history)
    (hhead : g.IsHead history) {commitId : String} {row : CommitRow}
    (hrow : g.commits.get? commitId = some row) (hmain : row.branch = g.key)
    (hbase : withinBase g row.seq = true) (htarget : Restorable (g.state history row.seq))
    (hcurrent : Restorable (g.state history g.head)) (now : ℕ) :
    ∃ commit, restoreToCommit order contentHash store g commitId now = .ok commit ∧
      ∀ eid, SameLive ((g.after history commit).get? eid) ((g.state history row.seq).get? eid) := by
  obtain ⟨hgenesis, hle⟩ := g.seq_mem commitId row hrow hmain
  have hparents := parents_of_withinBase hgenesis hle hbase
  have hreads := fun seq => reads_of_settled (g := g) hrun hsettled seq
  generalize htouched : order.iter 0 (changedInWindow store g row.seq g.head) = touched
  have hmem : ∀ eid, eid ∈ touched ↔ WrittenIn history g.key row.seq g.head eid := by
    intro eid
    rw [← htouched, (order.perm _ _).mem_iff, hrun.mem_changedInWindow hparents]
  have hsame : ∀ eid ∉ touched, (g.state history g.head).get? eid =
      (g.state history row.seq).get? eid := fun eid heid =>
    state_of_untouched hle hparents ((hmem eid).not.mp heid)
  have hrestricted : ∀ seq, restricted (valuesAt store (g.layers seq) touched) touched =
      restricted (g.state history seq) touched := fun seq =>
    restricted_congr fun eid heid => by rw [hreads, if_pos heid]
  obtain ⟨hcascade, hguard⟩ := guards_of_restorable (hreads g.head) order htarget hcurrent hsame
  have hstates : restoreStates order store g commitId =
      .ok (mainSide order store g history (g.state history row.seq) touched, (cascadeIncidentEdges
          (hydratedState order store g (g.state history row.seq) touched)).1) := by
    rw [restoreStates, hrow]
    simp only [hmain, ne_eq, not_true_eq_false, if_false, hbase, Bool.true_eq_false, htouched,
      hrestricted, guarded]
    rw [← hydratedState, hguard, mainSide]
  refine ⟨_, by rw [restoreToCommit, hstates]; rfl, fun eid => ?_⟩
  by_cases hview : eid ∈ touched ∨
      eid ∈ neighborhood order store g (restricted (g.state history row.seq) touched)
  · refine (sameLive_after hhash hhead (squashes_squashCommit _ _ _ _ _) ?_).trans ?_
    · rw [get?_mainSide (hreads g.head)]
      rcases hview with heid | heid
      · rw [if_pos heid, join_some]
      · split
        · rw [join_some]
        · cases ((g.state history g.head).get? eid).join <;> rfl
    · rw [hcascade, get?_hydratedState (hreads g.head)]
      split
      · exact SamePayload.refl _
      · rename_i heid
        rw [if_pos (hview.resolve_left heid), hsame eid heid, SameLive]
        cases ((g.state history row.seq).get? eid).join <;> exact SamePayload.refl _
  · obtain ⟨heid, hnb⟩ := not_or.mp hview
    rw [after_of_none hhead (squashes_squashCommit _ _ _ _ _)
      (by rw [get?_mainSide (hreads g.head), if_neg heid, if_neg hnb])
      (by rw [hcascade, get?_hydratedState (hreads g.head), if_neg heid, if_neg hnb]),
      hsame eid heid]
    exact SameLive.refl _

/-- A later time of the graph: some commits further, none of them read at the old
head. -/
structure GrowsTo (g : MainGraph) (later : List (Commit η)) (g' : MainGraph) : Prop where
  key : g'.key = g.key
  layers : g'.layers g.head = g.layers g.head
  newer : ∀ commit ∈ later, ∀ layer ∈ g.layers g.head, commit.branch = layer.1 →
    layer.2 < commit.seq

omit [DecidableEq η] in
theorem GrowsTo.state_eq {later : List (Commit η)} {g' : MainGraph} (h : GrowsTo g later g') :
    g'.state (history ++ later) g.head = g.state history g.head := by
  rw [MainGraph.state, MainGraph.state, h.layers]
  have hnewer := h.newer
  generalize g.layers g.head = layers at hnewer
  induction layers with
  | nil => rfl
  | cons layer layers ih =>
    obtain ⟨branch, seq⟩ := layer
    have hskip : later.filter (upTo branch seq) = [] := by
      refine filter_eq_nil_iff.mpr fun commit hcommit hat => ?_
      obtain ⟨hbranch, hle⟩ := of_decide_eq_true hat
      exact absurd (hnewer commit hcommit (branch, seq) mem_cons_self hbranch) (Nat.not_lt.mpr hle)
    rw [composed, composed, ih fun commit hcommit layer hlayer =>
      hnewer commit hcommit layer (mem_cons_of_mem _ hlayer), foldUpTo, foldUpTo,
      filter_append, hskip, append_nil]

/-- In any run whose node records are settled, a restore to a commit since the
latest Update from parent leads back to that commit's state, when it and the
current one are sound with edges between nodes; and any later restore to the
head it replaced leads back to the state it replaced. -/
theorem restoreToCommit_restores (contentHash : Option Payload → η)
    (hhash : ∀ p q, contentHash p = contentHash q ↔ SamePayload p q) (order : SetOrder)
    (history : List (Commit η)) (store : VersionStore η) (hrun : Run contentHash history store)
    (hsettled : NodesSettled history) (g : MainGraph) (hhead : g.IsHead history)
    (commitId : String) (row : CommitRow) (hrow : g.commits.get? commitId = some row)
    (hmain : row.branch = g.key) (hbase : withinBase g row.seq = true)
    (htarget : Restorable (g.state history row.seq))
    (hcurrent : Restorable (g.state history g.head)) (now : ℕ) :
    ∃ commit, restoreToCommit order contentHash store g commitId now = .ok commit ∧
      (∀ eid, SameLive ((g.after history commit).get? eid) ((g.state history row.seq).get? eid)) ∧
      ∀ (more : List (Commit η)) (store' : VersionStore η) (g' : MainGraph),
        Run contentHash (history ++ (commit.toList ++ more)) store' →
        NodesSettled (history ++ (commit.toList ++ more)) →
        GrowsTo g (commit.toList ++ more) g' → g'.IsHead (history ++ (commit.toList ++ more)) →
        ∀ headId headRow, g'.commits.get? headId = some headRow → headRow.branch = g'.key →
          headRow.seq = g.head → withinBase g' g.head = true →
          Restorable (g'.state (history ++ (commit.toList ++ more)) g'.head) → ∀ now',
          ∃ undo, restoreToCommit order contentHash store' g' headId now' = .ok undo ∧
            ∀ eid, SameLive ((g'.after (history ++ (commit.toList ++ more)) undo).get? eid)
              ((g.state history g.head).get? eid) := by
  obtain ⟨commit, hcommit, hback⟩ := restore_leads_back order hhash hrun hsettled hhead
    hrow hmain hbase htarget hcurrent now
  refine ⟨commit, hcommit, hback, ?_⟩
  intro more store' g' hrun' hsettled' hgrows hhead' headId headRow hrow' hmain' hseq hbase'
    hcurrent' now'
  have hold : g'.state (history ++ (commit.toList ++ more)) headRow.seq =
      g.state history g.head := by
    rw [hseq, hgrows.state_eq]
  obtain ⟨undo, hundo, hback'⟩ := restore_leads_back order hhash hrun' hsettled' hhead'
    hrow' hmain' (hseq ▸ hbase') (hold ▸ hcurrent) hcurrent' now'
  exact ⟨undo, hundo, hold ▸ hback'⟩

end

section

def AtRemoved (g : MainGraph) (history : List (Commit η)) (k : ℕ) (p : Payload) : Prop :=
  ∃ y, (source p = some y ∨ target p = some y) ∧ WrittenIn history g.key (k - 1) k y ∧
    ((g.state history (k - 1)).get? y).join = none

/-- An entity has a value, or is an edge that fell with a node the revert removes. -/
def LeftAs (g : MainGraph) (history : List (Commit η)) (k : ℕ) (value : Option (Option Payload))
    (after : Option (Option Payload)) : Prop :=
  SameLive after value ∨
    (∃ p, value = some (some p) ∧ AtRemoved g history k p) ∧ SameLive after none

theorem LeftAs.of_join {k : ℕ} {value after : Option (Option Payload)}
    (h : LeftAs g history k (some value.join) after) : LeftAs g history k value after := by
  rcases h with hsame | ⟨⟨p, hp, hremoved⟩, hnone⟩
  · exact .inl hsame
  · exact .inr ⟨⟨p, join_eq_some_iff.mp (some.inj hp), hremoved⟩, hnone⟩

/-- The entities the commit at `k` wrote that have another value by now. -/
def ChangedSince (g : MainGraph) (history : List (Commit η)) (k : ℕ) (eid : EntityId) : Prop :=
  WrittenIn history g.key (k - 1) k eid ∧
    ¬ SamePayload ((g.state history g.head).get? eid).join ((g.state history k).get? eid).join

theorem cascaded_hydratedState {values : State} {touched : List EntityId} {k : ℕ}
    (hreads : ∀ ids eid, (valuesAt store (g.layers g.head) ids).get? eid =
      if eid ∈ ids then (g.state history g.head).get? eid else none)
    (hmem : ∀ eid, eid ∈ touched ↔ WrittenIn history g.key (k - 1) k eid)
    (hvalues : values = g.state history (k - 1)) {eid : EntityId} {value : Option (Option Payload)}
    (hvalue : (hydratedState order store g values touched).get? eid = value) :
    (cascadeIncidentEdges (hydratedState order store g values touched)).1.get? eid = value ∨
      (∃ p, value = some (some p) ∧ AtRemoved g history k p) ∧
        (cascadeIncidentEdges (hydratedState order store g values touched)).1.get? eid =
          some none := by
  rw [get?_cascadeIncidentEdges, hvalue]
  by_cases hany : (value.any fun value => value.any
      (touches (tombstones (hydratedState order store g values touched)))) = true
  · obtain ⟨p, rfl, htouches⟩ := exists_touches_of_any hany
    obtain ⟨y, hend, htomb⟩ := exists_end_of_touches htouches
    obtain ⟨hy, hnone⟩ := (mem_tombstones_hydratedState hreads).mp htomb
    refine .inr ⟨⟨p, rfl, y, hend, (hmem y).mp hy, hvalues ▸ hnone⟩, if_pos hany⟩
  · exact .inl (if_neg hany)

/-- Over one base a revert reads the commit's own changes. -/
theorem parents_pred {commitId : String} {row : CommitRow}
    (hrow : g.commits.get? commitId = some row) (hmain : row.branch = g.key)
    (hgenesis : row.kind ≠ .genesis) (hsync : row.kind ≠ .syncParent) :
    g.parents (row.seq - 1) = g.parents row.seq := by
  obtain ⟨hlt, hbase⟩ := g.takes_base commitId row hrow hmain hgenesis hsync
  have hsucc := g.parents_succ (row.seq - 1) (by omega)
  rw [show row.seq - 1 + 1 = row.seq by omega] at hsucc
  exact (hsucc hbase).symm

variable [DecidableEq η]

section

variable {commitId : String} {row : CommitRow} (hrun : Run contentHash history store)
  (hrow : g.commits.get? commitId = some row) (hmain : row.branch = g.key)
  (hgenesis : row.kind ≠ .genesis) (hsync : row.kind ≠ .syncParent)

include hrun hrow hmain hgenesis hsync

theorem mem_touched_revert (order : SetOrder) (eid : EntityId) :
    eid ∈ order.iter 0 (changedInWindow store g (row.seq - 1) row.seq) ↔
      WrittenIn history g.key (row.seq - 1) row.seq eid := by
  rw [(order.perm _ _).mem_iff, hrun.mem_changedInWindow (parents_pred hrow hmain hgenesis hsync)]

theorem revertStates_eq (order : SetOrder) (hsettled : NodesSettled history) :
    revertStates order contentHash store g commitId =
      let touched := order.iter 0 (changedInWindow store g (row.seq - 1) row.seq)
      match revertConflicts contentHash (g.state history row.seq) (g.state history g.head)
        touched with
      | [] => guarded order store g (restricted (g.state history (row.seq - 1)) touched)
          (restricted (g.state history g.head) touched)
      | conflicts => .error (.mergeConflict conflicts) := by
  have hreads := fun seq => reads_of_settled (g := g) hrun hsettled seq
  generalize htouched : order.iter 0 (changedInWindow store g (row.seq - 1) row.seq) = touched
  have hrestricted : ∀ seq, restricted (valuesAt store (g.layers seq) touched) touched =
      restricted (g.state history seq) touched := fun seq =>
    restricted_congr fun eid heid => by rw [hreads, if_pos heid]
  have hconflicts : revertConflicts contentHash (valuesAt store (g.layers row.seq) touched)
      (valuesAt store (g.layers g.head) touched) touched =
      revertConflicts contentHash (g.state history row.seq) (g.state history g.head) touched := by
    refine filter_congr fun eid heid => ?_
    rw [mem_sortedKeys] at heid
    rw [hreads, hreads, if_pos heid, if_pos heid]
  simp only [revertStates, hrow]
  rw [if_neg (not_not_intro hmain), if_neg hgenesis, if_neg hsync]
  simp only [htouched, hrestricted]
  exact hconflicts ▸ rfl

/-- A revert finds a conflict exactly when an entity the commit wrote has another
value by now. -/
theorem revertConflicts_eq_nil_iff (order : SetOrder)
    (hhash : ∀ p q, contentHash p = contentHash q ↔ SamePayload p q) :
    revertConflicts contentHash (g.state history row.seq) (g.state history g.head)
        (order.iter 0 (changedInWindow store g (row.seq - 1) row.seq)) = [] ↔
      ¬ ∃ eid, ChangedSince g history row.seq eid := by
  rw [revertConflicts, filter_eq_nil_iff]
  simp only [mem_sortedKeys, mem_touched_revert hrun hrow hmain hgenesis hsync order,
    decide_eq_true_eq, ne_eq, not_not, hhash, ChangedSince, not_exists, not_and]

end

/-- In a run whose node records are settled, take a commit of main that is neither
its genesis nor an Update from parent. Its revert is refused for a conflict
exactly when an entity the commit wrote has another value by now. A revert that
succeeds leaves each entity the commit wrote as it was just before, and every
other as it is now, except that edges at a node it removes are gone. -/
theorem revertCommit_takesBack (contentHash : Option Payload → η)
    (hhash : ∀ p q, contentHash p = contentHash q ↔ SamePayload p q) (order : SetOrder)
    (history : List (Commit η)) (store : VersionStore η) (hrun : Run contentHash history store)
    (hsettled : NodesSettled history) (g : MainGraph) (hhead : g.IsHead history)
    (commitId : String) (row : CommitRow) (hrow : g.commits.get? commitId = some row)
    (hmain : row.branch = g.key) (hgenesis : row.kind ≠ .genesis)
    (hsync : row.kind ≠ .syncParent) (now : ℕ) :
    ((∃ eids, revertCommit order contentHash store g commitId now =
        .error (.mergeConflict eids)) ↔ ∃ eid, ChangedSince g history row.seq eid) ∧
      ∀ commit, revertCommit order contentHash store g commitId now = .ok commit → ∀ eid,
        (WrittenIn history g.key (row.seq - 1) row.seq eid →
          LeftAs g history row.seq ((g.state history (row.seq - 1)).get? eid)
            ((g.after history commit).get? eid)) ∧
        (¬ WrittenIn history g.key (row.seq - 1) row.seq eid →
          LeftAs g history row.seq ((g.state history g.head).get? eid)
            ((g.after history commit).get? eid)) := by
  have hstates := revertStates_eq hrun hrow hmain hgenesis hsync order hsettled
  have hconflict := revertConflicts_eq_nil_iff hrun hrow hmain hgenesis hsync order hhash
  have hmem := mem_touched_revert hrun hrow hmain hgenesis hsync order
  have hreads := reads_of_settled (g := g) hrun hsettled g.head
  generalize order.iter 0 (changedInWindow store g (row.seq - 1) row.seq) = touched at *
  simp only at hstates
  constructor
  · rw [revertCommit, hstates]
    cases hconfs : revertConflicts contentHash (g.state history row.seq)
        (g.state history g.head) touched with
    | nil =>
      refine iff_of_false ?_ (hconflict.mp hconfs)
      rintro ⟨eids, herror⟩
      rw [guarded] at herror
      cases hguard : assertReferentialIntegrity (cascadeIncidentEdges (hydratedState order store
          g (g.state history (row.seq - 1)) touched)).1 with
      | error message =>
        rw [hydratedState] at hguard
        simp only [hguard] at herror
        cases herror
      | ok u =>
        rw [hydratedState] at hguard
        simp only [hguard] at herror
        cases herror
    | cons eid rest =>
      refine iff_of_true ⟨eid :: rest, rfl⟩ ?_
      by_contra hnone
      rw [hconflict.mpr hnone] at hconfs
      cases hconfs
  · intro commit hcommit eid
    obtain ⟨states, hok, rfl⟩ : ∃ states, revertStates order contentHash store g commitId =
        .ok states ∧ nonemptyCommit (squashCommit contentHash store g now states) = commit := by
      rw [revertCommit] at hcommit
      cases hrevert : revertStates order contentHash store g commitId with
      | error e =>
        rw [hrevert] at hcommit
        cases hcommit
      | ok states =>
        rw [hrevert] at hcommit
        exact ⟨states, rfl, Except.ok.inj hcommit⟩
    obtain rfl : states = (mainSide order store g history (g.state history (row.seq - 1)) touched,
        (cascadeIncidentEdges (hydratedState order store g (g.state history (row.seq - 1))
          touched)).1) := by
      rw [hstates] at hok
      split at hok
      · rw [guarded] at hok
        split at hok
        · cases hok
        · exact (Except.ok.inj hok).symm
      · cases hok
    generalize hstate : hydratedState order store g (g.state history (row.seq - 1)) touched =
      merged at *
    generalize hside : mainSide order store g history (g.state history (row.seq - 1)) touched =
      side at *
    -- An entity in view ends as the guarded state has it.
    have hleft : ∀ value, merged.get? eid = some value →
        (side.get? eid).join = ((g.state history g.head).get? eid).join →
        LeftAs g history row.seq (some value) ((g.after history (nonemptyCommit (squashCommit
          contentHash store g now (side, (cascadeIncidentEdges merged).1)))).get? eid) := by
      intro value hvalue hcur
      have hafter := sameLive_after hhash hhead (squashes_squashCommit contentHash store g now
        (side, (cascadeIncidentEdges merged).1)) hcur
      have hfalls := cascaded_hydratedState hreads hmem rfl (hstate ▸ hvalue)
      rw [hstate] at hfalls
      rcases hfalls with hkept | ⟨⟨p, hp, hremoved⟩, hfell⟩
      · exact .inl (hkept ▸ hafter)
      · refine .inr ⟨⟨p, hp, hremoved⟩, ?_⟩
        rw [hfell] at hafter
        exact hafter
    have hview : merged.get? eid = _ := hstate ▸ get?_hydratedState hreads eid
    have htheirs : side.get? eid = _ := hside ▸ get?_mainSide hreads eid
    refine ⟨fun htouched => ?_, fun hfree => ?_⟩
    · rw [if_pos ((hmem eid).mpr htouched)] at hview htheirs
      refine (hleft _ hview ?_).of_join
      rw [htheirs, join_some]
    · rw [if_neg ((hmem eid).not.mpr hfree)] at hview htheirs
      by_cases hlive : eid ∈ neighborhood order store g
          (restricted (g.state history (row.seq - 1)) touched) ∧
          ((g.state history g.head).get? eid).join ≠ none
      · obtain ⟨hnb, hsome⟩ := hlive
        obtain ⟨p, hp⟩ := ne_none_iff_exists'.mp hsome
        rw [if_pos hnb, hp] at hview htheirs
        have hcur := join_eq_some_iff.mp hp
        rw [hcur]
        exact hleft _ hview (by rw [htheirs, hp]; rfl)
      · have hnone : (if eid ∈ neighborhood order store g
            (restricted (g.state history (row.seq - 1)) touched) then
              ((g.state history g.head).get? eid).join.map some else none) = none := by
          rw [not_and_or, not_not] at hlive
          rcases hlive with hout | hdead
          · exact if_neg hout
          · simp [hdead]
        rw [hnone] at hview htheirs
        left
        rw [after_of_none hhead (squashes_squashCommit contentHash store g now _) htheirs
          (by rw [get?_cascadeIncidentEdges, hview]; rfl)]
        exact SameLive.refl _

end

/-- A content hash without collisions: the payload with its keys in order. -/
def canonicalForm (p : Option Payload) : Option Json :=
  (p.map Json.obj).map (Json.canonBy id)

def changeTo (eid : EntityId) (b h : Option Payload) : Delta (Option Json) :=
  ⟨eid, if h = none then .delete else if b = none then .create else .update, h,
    b.map fun p => canonicalForm (some p), canonicalForm h⟩

def mainCommit (seq : ℕ) (deltas : List (Delta (Option Json))) (kinds : Dict EntityId Kind)
    (hnodup : (deltas.map Delta.entityId).Nodup)
    (hpayload : ∀ d ∈ deltas, d.op = .delete ↔ d.payload = none) : Commit (Option Json) :=
  ⟨("g", "main"), seq, deltas, kinds, seq, hnodup, hpayload⟩

/-- A node, another, and an edge between them. -/
def smallGraph : List (Delta (Option Json)) :=
  [changeTo "a" none (some [("urn", .str "a")]), changeTo "b" none (some [("urn", .str "b")]),
    changeTo "x" none (some (edgeOf "FLOWS" "a" "b"))]

def smallKinds : Dict EntityId Kind :=
  [("a", .node), ("b", .node), ("x", .edge)]

/-- The main of a graph that is no fork, with one commit for each sequence number
from its genesis to its head. -/
def plainMain (head : ℕ) (hpos : 1 ≤ head) : MainGraph where
  key := ("g", "main")
  head := head
  commits := (List.range' 2 (head - 1)).map fun seq =>
    (toString seq, ⟨("g", "main"), seq, .other⟩)
  genesisSeq := 1
  forkSeqs := []
  parents _ := []
  seq_mem id row hrow _ := by
    obtain ⟨seq, hseq, hpair⟩ := List.mem_map.mp (Dict.mem_of_get? hrow)
    obtain ⟨-, rfl⟩ := Prod.mk.inj hpair
    obtain ⟨hlo, hhi⟩ := List.mem_range'_1.mp hseq
    exact ⟨by simp only; omega, by simp only; omega⟩
  takes_base id row hrow _ _ _ := by
    obtain ⟨seq, hseq, hpair⟩ := List.mem_map.mp (Dict.mem_of_get? hrow)
    obtain ⟨-, rfl⟩ := Prod.mk.inj hpair
    obtain ⟨hlo, -⟩ := List.mem_range'_1.mp hseq
    exact ⟨by simp only; omega, List.not_mem_nil⟩
  forkSeqs_le _ h := absurd h List.not_mem_nil
  parents_succ _ _ _ := rfl
  parents_ne _ _ h := absurd h List.not_mem_nil

def deletedNode : List (Commit (Option Json)) :=
  [mainCommit 2 smallGraph smallKinds (by decide) (by decide),
    mainCommit 3 [changeTo "b" (some [("urn", .str "b")]) none,
      changeTo "x" (some (edgeOf "FLOWS" "a" "b")) none] smallKinds (by decide) (by decide)]

/-- A restore brings both back. -/
theorem restoreToCommit_restores_deletedNode :
    ∃ store commit, restoreToCommit insertionOrder canonicalForm store
        (plainMain 3 (by decide)) "2" 4 = .ok commit ∧
      ∀ eid, SameLive (((plainMain 3 (by decide)).after deletedNode commit).get? eid)
        (((plainMain 3 (by decide)).state deletedNode 2).get? eid) := by
  have hrun : Run canonicalForm deletedNode _ :=
    .commit _ false (.commit _ false .start (by decide) rfl) (by decide) rfl
  obtain ⟨commit, hcommit, hback, -⟩ := restoreToCommit_restores canonicalForm
    (fun _ _ => Iff.rfl) insertionOrder deletedNode _ hrun (nodesSettled_of_kinds (by decide))
    (plainMain 3 (by decide)) ⟨by decide, by decide⟩ "2" ⟨("g", "main"), 2, .other⟩
    (by decide +kernel) rfl rfl (by decide +kernel) (by decide +kernel) 4
  exact ⟨_, commit, hcommit, hback⟩

/-- An edge is deleted by a change recorded as a node's, and drawn again with
another value. -/
def redrawnEdge : List (Commit (Option Json)) :=
  [mainCommit 2 smallGraph smallKinds (by decide) (by decide),
    mainCommit 3 [changeTo "x" (some (edgeOf "FLOWS" "a" "b")) none] [] (by decide) (by decide),
    mainCommit 4 [changeTo "x" none (some (edgeOf "FEEDS" "a" "b"))] smallKinds (by decide)
      (by decide)]

/-- A restore to the deletion, through sound states, leaves the edge there with its
first value. -/
theorem restoreToCommit_redrawnEdge : ∃ store commit, Run canonicalForm redrawnEdge store ∧
      (∀ seq ∈ [1, 2, 3, 4], Restorable ((plainMain 4 (by decide)).state redrawnEdge seq)) ∧
      restoreToCommit insertionOrder canonicalForm store (plainMain 4 (by decide)) "3" 5 =
        .ok (some commit) ∧
      ((plainMain 4 (by decide)).state redrawnEdge 3).get? "x" = some none ∧
      ((plainMain 4 (by decide)).after redrawnEdge (some commit)).get? "x" =
        some (some (edgeOf "FLOWS" "a" "b")) := by
  have hrun : Run canonicalForm redrawnEdge _ :=
    .commit _ false (.commit _ false (.commit _ false .start (by decide) rfl) (by decide) rfl)
      (by decide) rfl
  refine ⟨_, _, hrun, by decide +kernel, rfl, by decide +kernel, by decide +kernel⟩

def renamedNode : List (Commit (Option Json)) :=
  [mainCommit 2 smallGraph smallKinds (by decide) (by decide),
    mainCommit 3 [changeTo "a" (some [("urn", .str "a")]) (some [("urn", .str "a2")])] smallKinds
      (by decide) (by decide)]

/-- Taking back the creation of the small graph is refused; taking back the renaming
is not. -/
theorem revertCommit_takesBack_renamedNode :
    ∃ store commit, (∃ eids, revertCommit insertionOrder canonicalForm store
        (plainMain 3 (by decide)) "2" 4 = .error (.mergeConflict eids)) ∧
      revertCommit insertionOrder canonicalForm store (plainMain 3 (by decide)) "3" 4 = .ok commit ∧
      LeftAs (plainMain 3 (by decide)) renamedNode 3 (some (some [("urn", .str "a")]))
        (((plainMain 3 (by decide)).after renamedNode commit).get? "a") := by
  have hrun : Run canonicalForm renamedNode _ :=
    .commit _ false (.commit _ false .start (by decide) rfl) (by decide) rfl
  have hsettled : NodesSettled renamedNode := nodesSettled_of_kinds (by decide)
  obtain ⟨hrefused, -⟩ := revertCommit_takesBack canonicalForm (fun _ _ => Iff.rfl)
    insertionOrder renamedNode _ hrun hsettled (plainMain 3 (by decide)) ⟨by decide, by decide⟩
    "2" ⟨("g", "main"), 2, .other⟩ (by decide +kernel) rfl (by decide) (by decide) 4
  obtain ⟨-, hback⟩ := revertCommit_takesBack canonicalForm (fun _ _ => Iff.rfl)
    insertionOrder renamedNode _ hrun hsettled (plainMain 3 (by decide)) ⟨by decide, by decide⟩
    "3" ⟨("g", "main"), 3, .other⟩ (by decide +kernel) rfl (by decide) (by decide) 4
  have htouched : WrittenIn renamedNode ("g", "main") 2 3 "a" :=
    ⟨_, mem_cons_of_mem _ mem_cons_self, rfl, by decide, by decide, _, mem_cons_self, rfl⟩
  refine ⟨_, _, hrefused.mpr ⟨"a", ⟨_, mem_cons_self, rfl, by decide, by decide, _,
    mem_cons_self, rfl⟩, by decide +kernel⟩, rfl, ?_⟩
  exact (hback _ rfl "a").1 htouched

/-- A node is renamed, renamed again and given its first new name back. -/
def renamedBack : List (Commit (Option Json)) :=
  renamedNode ++
    [mainCommit 4 [changeTo "a" (some [("urn", .str "a2")]) (some [("urn", .str "a3")])]
        smallKinds (by decide) (by decide),
      mainCommit 5 [changeTo "a" (some [("urn", .str "a3")]) (some [("urn", .str "a2")])]
        smallKinds (by decide) (by decide)]

/-- The first renaming is taken back, although the node was changed after it. -/
theorem revertCommit_renamedBack : ∃ store commit, Run canonicalForm renamedBack store ∧
      WrittenIn renamedBack ("g", "main") 2 3 "a" ∧ WrittenIn renamedBack ("g", "main") 3 5 "a" ∧
      revertCommit insertionOrder canonicalForm store (plainMain 5 (by decide)) "3" 6 =
        .ok (some commit) ∧
      ((plainMain 5 (by decide)).after renamedBack (some commit)).get? "a" =
        some (some [("urn", .str "a")]) := by
  have hrun : Run canonicalForm renamedBack _ :=
    .commit _ false (.commit _ false (.commit _ false (.commit _ false .start (by decide) rfl)
      (by decide) rfl) (by decide) rfl) (by decide) rfl
  have hfirst : WrittenIn renamedBack ("g", "main") 2 3 "a" :=
    ⟨_, mem_cons_of_mem _ mem_cons_self, rfl, by decide, by decide, _, mem_cons_self, rfl⟩
  have hlater : WrittenIn renamedBack ("g", "main") 3 5 "a" :=
    ⟨_, mem_cons_of_mem _ (mem_cons_of_mem _ mem_cons_self), rfl, by decide,
      by decide, _, mem_cons_self, rfl⟩
  exact ⟨_, _, hrun, hfirst, hlater, rfl, by decide +kernel⟩

end DataViz.Versioning
