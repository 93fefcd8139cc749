/-
# Reading as of a sequence number is folding the commits

Two states of the same history are compared: the one left by applying the
committed batches in order, and the one read back from the version rows. They
agree entity by entity as long as the newest change wins over both tables; a
change recorded as a node's hides behind an older row of the edge table.
-/

import DataViz.Versioning.VersionStore

namespace DataViz.Versioning

open List Option Dict

variable {η : Type}

/-! ## The history -/

def Delta.value (d : Delta η) : Option Payload :=
  if d.op = .delete then none else d.payload

def Commit.deltaAt (commit : Commit η) (eid : EntityId) : Option (Delta η) :=
  commit.deltas.find? fun d => d.entityId = eid

def applyCommit (state : State) (commit : Commit η) : State :=
  commit.deltas.foldl (fun state d => state.set d.entityId d.value) state

def upTo (branch : BranchKey) (seq : ℕ) (commit : Commit η) : Bool :=
  commit.branch = branch ∧ commit.seq ≤ seq

/-- The batches of a branch at or below a sequence number, applied in order. -/
def foldUpTo (history : List (Commit η)) (branch : BranchKey) (seq : ℕ) : State :=
  (history.filter (upTo branch seq)).foldl applyCommit []

def lastDelta (history : List (Commit η)) (select : Commit η → Bool) (eid : EntityId) :
    Option (Delta η) :=
  (history.filterMap fun commit => if select commit then commit.deltaAt eid else none).getLast?

variable {eid : EntityId}

theorem deltaAt_eq_some {commit : Commit η} {d : Delta η} :
    commit.deltaAt eid = some d ↔ d ∈ commit.deltas ∧ d.entityId = eid :=
  find?_key_eq_some commit.nodup

theorem get?_applyCommit (state : State) (commit : Commit η) (eid : EntityId) :
    (applyCommit state commit).get? eid =
      ((commit.deltaAt eid).map Delta.value).or (state.get? eid) :=
  get?_foldl_set _ _ _ commit.nodup _ _

theorem lastDelta_append (history later : List (Commit η)) (select : Commit η → Bool)
    (eid : EntityId) :
    lastDelta (history ++ later) select eid =
      (lastDelta later select eid).or (lastDelta history select eid) := by
  rw [lastDelta, filterMap_append, getLast?_append]
  rfl

theorem lastDelta_concat (history : List (Commit η)) (commit : Commit η)
    (select : Commit η → Bool) (eid : EntityId) :
    lastDelta (history ++ [commit]) select eid =
      (if select commit then commit.deltaAt eid else none).or (lastDelta history select eid) := by
  have hone : lastDelta [commit] select eid =
      if select commit then commit.deltaAt eid else none := by
    rw [lastDelta]
    split <;> simp_all
  rw [lastDelta_append, hone]

theorem lastDelta_congr {history : List (Commit η)} {select select' : Commit η → Bool}
    (h : ∀ commit ∈ history, select commit = select' commit) :
    lastDelta history select eid = lastDelta history select' eid := by
  rw [lastDelta]
  congr 1
  refine filterMap_congr fun commit hcommit => ?_
  rw [h commit hcommit]

theorem exists_of_lastDelta {history : List (Commit η)} {select : Commit η → Bool}
    {d : Delta η} (h : lastDelta history select eid = some d) :
    ∃ commit ∈ history, select commit = true ∧ commit.deltaAt eid = some d := by
  obtain ⟨commit, hcommit, hd⟩ := mem_filterMap.mp (mem_of_getLast? h)
  obtain ⟨hselect, hd⟩ := ite_none_right_eq_some.mp hd
  exact ⟨commit, hcommit, hselect, hd⟩

theorem get?_foldUpTo (history : List (Commit η)) (branch : BranchKey) (seq : ℕ) (eid : EntityId) :
    (foldUpTo history branch seq).get? eid =
      (lastDelta history (upTo branch seq) eid).map Delta.value := by
  induction history using reverseRecOn with
  | nil => rfl
  | append_singleton history commit ih =>
    rw [lastDelta_concat, foldUpTo, filter_append, foldl_append, ← foldUpTo]
    cases hselect : upTo branch seq commit with
    | false => simpa [hselect] using ih
    | true =>
      rw [filter_cons_of_pos hselect, filter_nil, foldl_cons, foldl_nil,
        get?_applyCommit, ih, if_pos rfl]
      cases commit.deltaAt eid <;> rfl

/-! ## What a write does -/

section

variable {contentHash : Option Payload → η}

theorem map_entityId_headChanges (commit : Commit η) (vid : ℕ) (deltas : List (Delta η)) :
    (headChanges contentHash commit vid deltas).map HeadChange.entityId =
      deltas.map Delta.entityId := by
  induction deltas generalizing vid with
  | nil => rfl
  | cons d rest ih => rw [headChanges, map_cons, map_cons, ih]

theorem nodup_headChanges (contentHash : Option Payload → η) (commit : Commit η) (vid : ℕ) :
    ((headChanges contentHash commit vid commit.deltas).map HeadChange.entityId).Nodup := by
  rw [map_entityId_headChanges]
  exact commit.nodup

variable {deltas : List (Delta η)} {vid : ℕ}

variable {commit : Commit η}

theorem mem_versionRows {kind : Kind} {row : VersionRow} :
    row ∈ versionRows commit kind vid deltas ↔
      ∃ i d, deltas[i]? = some d ∧ commit.kindOf d.entityId = kind ∧
        row = versionRow commit (vid + i) d := by
  induction deltas generalizing vid with
  | nil => simp [versionRows]
  | cons d rest ih =>
    rw [versionRows]
    constructor
    · intro hrow
      split at hrow
      · rename_i hkind
        rcases mem_cons.mp hrow with rfl | hrow
        · exact ⟨0, d, rfl, hkind, rfl⟩
        · obtain ⟨i, d', hd', hkind', rfl⟩ := ih.mp hrow
          exact ⟨i + 1, d', hd', hkind', by rw [Nat.add_right_comm, Nat.add_assoc]⟩
      · obtain ⟨i, d', hd', hkind', rfl⟩ := ih.mp hrow
        exact ⟨i + 1, d', hd', hkind', by rw [Nat.add_right_comm, Nat.add_assoc]⟩
    · rintro ⟨i, d', hd', hkind, rfl⟩
      cases i with
      | zero =>
        obtain rfl : d = d' := some.inj hd'
        rw [if_pos hkind]
        exact mem_cons_self
      | succ i =>
        have hmem : versionRow commit (vid + (i + 1)) d' ∈ versionRows commit kind (vid + 1) rest :=
          ih.mpr ⟨i, d', hd', hkind, by rw [Nat.add_right_comm, Nat.add_assoc]⟩
        split
        · exact mem_cons_of_mem _ hmem
        · exact hmem

theorem filter_versionRows (commit : Commit η) (kind : Kind) (vid : ℕ)
    (hnodup : (deltas.map Delta.entityId).Nodup) (eid : EntityId) :
    (versionRows commit kind vid deltas).filter (fun row => row.entityId = eid) = [] ∧
        ((deltas.find? fun d => d.entityId = eid) = none ∨ commit.kindOf eid ≠ kind) ∨
      ∃ i d, (deltas.find? fun d => d.entityId = eid) = some d ∧ commit.kindOf eid = kind ∧
        (versionRows commit kind vid deltas).filter (fun row => row.entityId = eid) =
          [versionRow commit i d] := by
  induction deltas generalizing vid with
  | nil => exact .inl ⟨rfl, .inl rfl⟩
  | cons d rest ih =>
    obtain ⟨hfresh, hrest⟩ := nodup_cons.mp hnodup
    rw [versionRows, find?_cons]
    by_cases heid : d.entityId = eid
    · subst heid
      -- No later change is this entity's.
      have hnone : (versionRows commit kind (vid + 1) rest).filter
          (fun row => row.entityId = d.entityId) = [] := by
        rw [filter_eq_nil_iff]
        intro row hrow heq
        obtain ⟨i, d', hd', -, rfl⟩ := mem_versionRows.mp hrow
        have hmem := mem_map_of_mem (mem_of_getElem? hd') (f := Delta.entityId)
        exact hfresh (of_decide_eq_true heq ▸ hmem)
      simp only [decide_true]
      by_cases hkind : commit.kindOf d.entityId = kind
      · refine .inr ⟨vid, d, rfl, hkind, ?_⟩
        rw [if_pos hkind, filter_cons_of_pos (by simp [versionRow]), hnone]
      · exact .inl ⟨by rw [if_neg hkind, hnone], .inr hkind⟩
    · have hskip : (if commit.kindOf d.entityId = kind then
          versionRow commit vid d :: versionRows commit kind (vid + 1) rest
        else versionRows commit kind (vid + 1) rest).filter (fun row => row.entityId = eid) =
          (versionRows commit kind (vid + 1) rest).filter fun row => row.entityId = eid := by
        split
        · exact filter_cons_of_neg (by simp [versionRow, heid])
        · rfl
      simp only [heid, decide_false, hskip]
      exact ih (vid + 1) hrest

theorem find?_headChanges (contentHash : Option Payload → η) {eid : EntityId}
    {d : Delta η} (hd : (deltas.find? fun d => d.entityId = eid) = some d) :
    ∃ v, versionRow commit v d ∈ versionRows commit (commit.kindOf eid) vid deltas ∧
      (headChanges contentHash commit vid deltas).find? (fun change => change.entityId = eid) = some
          { entityId := eid
            head :=
              { entityKind := commit.kindOf eid
                headVersionId := v
                contentHash := d.contentHash
                isTombstone := d.op = .delete }
            preImage := d.prevContentHash.getD (contentHash none) } := by
  induction deltas generalizing vid with
  | nil => cases hd
  | cons d' rest ih =>
    rw [headChanges, versionRows]
    by_cases heid : d'.entityId = eid
    · subst heid
      obtain rfl : d' = d := by simpa using hd
      refine ⟨vid, ?_, by simp⟩
      rw [if_pos rfl]
      exact mem_cons_self
    · have hrest : (rest.find? fun d => d.entityId = eid) = some d := by simpa [heid] using hd
      obtain ⟨v, hrow, hchange⟩ := @ih (vid + 1) hrest
      refine ⟨v, ?_, by simpa [heid] using hchange⟩
      split
      · exact mem_cons_of_mem _ hrow
      · exact hrow

theorem find?_headChanges_eq_none (contentHash : Option Payload → η)
    {eid : EntityId} (hd : commit.deltaAt eid = none) :
    (headChanges contentHash commit vid commit.deltas).find? (fun change => change.entityId = eid) =
      none := by
  rw [find?_eq_none]
  intro change hchange heid
  have hmem := mem_map_of_mem hchange (f := HeadChange.entityId)
  rw [map_entityId_headChanges, of_decide_eq_true heid] at hmem
  obtain ⟨d, hd', heq⟩ := mem_map.mp hmem
  rw [deltaAt_eq_some.mpr ⟨hd', heq⟩] at hd
  cases hd

variable {changes : List (HeadChange η)}

theorem get?_pointHeads {branch : BranchKey} {heads : Dict (BranchKey × EntityId) (Head η)}
    (hnodup : (changes.map HeadChange.entityId).Nodup) (other : BranchKey) (eid : EntityId) :
    (pointHeads branch heads changes).get? (other, eid) = if other = branch then
        ((changes.find? fun change => change.entityId = eid).map HeadChange.head).or
          (heads.get? (other, eid))
      else heads.get? (other, eid) := by
  have hkeys : (changes.map fun change => (branch, change.entityId)).Nodup := by
    have hmap := hnodup.map (Prod.mk_right_injective branch)
    rwa [List.map_map] at hmap
  rw [pointHeads, get?_foldl_set (fun change : HeadChange η => (branch, change.entityId))
    HeadChange.head changes hkeys]
  by_cases hbranch : other = branch
  · subst hbranch
    simp
  · have hnone : (changes.find? fun _ => false) = none := find?_eq_none.mpr (by simp)
    simp [hbranch, Ne.symm hbranch, hnone]

theorem find?_filter (hnodup : (changes.map HeadChange.entityId).Nodup) (keep : HeadChange η → Bool)
    (eid : EntityId) :
    (changes.filter keep).find? (fun change => change.entityId = eid) =
      (changes.find? fun change => change.entityId = eid).filter keep := by
  have hsub : ((changes.filter keep).map HeadChange.entityId).Nodup :=
    hnodup.sublist (filter_sublist.map _)
  refine ext fun change => ?_
  rw [find?_key_eq_some hsub, filter_eq_some_iff, find?_key_eq_some hnodup, mem_filter]
  tauto

theorem mem_map_filter_iff (hnodup : (changes.map HeadChange.entityId).Nodup)
    (keep : HeadChange η → Bool) {change : HeadChange η} (hchange : change ∈ changes) :
    change.entityId ∈ (changes.filter keep).map HeadChange.entityId ↔ keep change = true := by
  rw [List.mem_map]
  constructor
  · rintro ⟨other, hother, heid⟩
    obtain ⟨hmem, hkeep⟩ := mem_filter.mp hother
    rwa [inj_on_of_nodup_map hnodup hmem hchange heid] at hkeep
  · exact fun hkeep => ⟨change, mem_filter.mpr ⟨hchange, hkeep⟩, rfl⟩

variable [DecidableEq η]

/-- The guard on one head: it is missing or still at the pre-image. -/
def unmoved (contentHash : Option Payload → η) (branch : BranchKey)
    (heads : Dict (BranchKey × EntityId) (Head η)) (change : HeadChange η) : Bool :=
  (heads.get? (branch, change.entityId)).isNone || atPreImage contentHash branch heads change

section

variable {branch : BranchKey} {heads : Dict (BranchKey × EntityId) (Head η)}
  {changes : List (HeadChange η)} {change : HeadChange η}

theorem mem_advanceHeads (hnodup : (changes.map HeadChange.entityId).Nodup)
    (hchange : change ∈ changes) :
    change.entityId ∈ (advanceHeads contentHash branch heads changes).2 ↔
      atPreImage contentHash branch heads change = true :=
  mem_map_filter_iff hnodup _ hchange

/-- What `_ADD_HEADS` is left with. -/
def freshChanges (contentHash : Option Payload → η) (branch : BranchKey)
    (heads : Dict (BranchKey × EntityId) (Head η)) (changes : List (HeadChange η)) :
    List (HeadChange η) :=
  changes.filter fun change =>
    change.entityId ∉ (advanceHeads contentHash branch heads changes).2

theorem get?_advanceHeads (hnodup : (changes.map HeadChange.entityId).Nodup) (other : BranchKey)
    (eid : EntityId) :
    (advanceHeads contentHash branch heads changes).1.get? (other, eid) = if other = branch then
        (((changes.find? fun change => change.entityId = eid).filter
          (atPreImage contentHash branch heads)).map HeadChange.head).or (heads.get? (other, eid))
      else heads.get? (other, eid) := by
  rw [advanceHeads, get?_pointHeads (hnodup.sublist (filter_sublist.map _)), find?_filter hnodup]

theorem mem_freshChanges (hnodup : (changes.map HeadChange.entityId).Nodup) :
    change ∈ freshChanges contentHash branch heads changes ↔
      change ∈ changes ∧ atPreImage contentHash branch heads change = false := by
  rw [freshChanges, mem_filter]
  refine and_congr_right fun hchange => ?_
  rw [decide_eq_true_iff, mem_advanceHeads hnodup hchange, Bool.not_eq_true]

theorem nodup_freshChanges (hnodup : (changes.map HeadChange.entityId).Nodup) :
    ((freshChanges contentHash branch heads changes).map HeadChange.entityId).Nodup :=
  hnodup.sublist (filter_sublist.map _)

theorem mem_advanced_iff (hnodup : (changes.map HeadChange.entityId).Nodup)
    (hchange : change ∈ changes) :
    change.entityId ∈ (advanceHeads contentHash branch heads changes).2 ++
        (addHeads branch (advanceHeads contentHash branch heads changes).1
          (freshChanges contentHash branch heads changes)).2 ↔
      unmoved contentHash branch heads change = true := by
  have hfind := (find?_key_eq_some hnodup).mpr ⟨hchange, rfl⟩
  rw [mem_append, mem_advanceHeads hnodup hchange, unmoved]
  cases hpre : atPreImage contentHash branch heads change with
  | true => simp
  | false =>
    have hfresh : change ∈ freshChanges contentHash branch heads changes :=
      (mem_freshChanges hnodup).mpr ⟨hchange, hpre⟩
    rw [addHeads, mem_map_filter_iff (nodup_freshChanges hnodup) _ hfresh,
      get?_advanceHeads hnodup, if_pos rfl, hfind, filter_some, hpre]
    simp

/-- A guarded write goes through exactly when no head has moved, and is then an
unguarded one. -/
theorem upsertHeads_guarded (contentHash : Option Payload → η) (branch : BranchKey)
    (heads : Dict (BranchKey × EntityId) (Head η)) {changes : List (HeadChange η)}
    (hnodup : (changes.map HeadChange.entityId).Nodup) :
    (∃ heads', upsertHeads contentHash branch heads changes true = .ok heads' ∧
        (∀ change ∈ changes, unmoved contentHash branch heads change = true) ∧
        ∀ key, heads'.get? key = (pointHeads branch heads changes).get? key) ∨
      ∃ change ∈ changes, unmoved contentHash branch heads change = false ∧
        upsertHeads contentHash branch heads changes true = .error ⟨change.entityId⟩ := by
  unfold upsertHeads
  dsimp only
  rw [← freshChanges]
  cases hfind : changes.find? fun change => change.entityId ∉
      (advanceHeads contentHash branch heads changes).2 ++
        (addHeads branch (advanceHeads contentHash branch heads changes).1
          (freshChanges contentHash branch heads changes)).2 with
  | some change =>
    have hchange := mem_of_find?_eq_some hfind
    have hout := find?_some hfind
    rw [decide_eq_true_iff, mem_advanced_iff hnodup hchange, Bool.not_eq_true] at hout
    exact .inr ⟨change, hchange, hout, rfl⟩
  | none =>
    have hall : ∀ change ∈ changes, unmoved contentHash branch heads change = true := by
      intro change hchange
      rw [find?_eq_none] at hfind
      by_contra hmoved
      exact hfind change hchange (decide_eq_true ((mem_advanced_iff hnodup hchange).not.mpr hmoved))
    refine .inl ⟨_, rfl, hall, ?_⟩
    rintro ⟨other, eid⟩
    have hnodupFresh : ((freshChanges contentHash branch heads changes).map
        HeadChange.entityId).Nodup := nodup_freshChanges hnodup
    rw [addHeads, get?_pointHeads (hnodupFresh.sublist (filter_sublist.map _)),
      find?_filter hnodupFresh, freshChanges, find?_filter hnodup, get?_advanceHeads hnodup,
      get?_pointHeads hnodup]
    split
    · rename_i hbranch
      subst hbranch
      cases hchange : changes.find? fun change => change.entityId = eid with
      | none => rfl
      | some change =>
        obtain ⟨hmem, rfl⟩ := (find?_key_eq_some hnodup).mp hchange
        have hunmoved := hall change hmem
        have hmoved : change.entityId ∈ (advanceHeads contentHash other heads changes).2 ↔
            atPreImage contentHash other heads change = true :=
          mem_advanceHeads hnodup hmem
        cases hpre : atPreImage contentHash other heads change with
        | true => simp [Option.filter, hmoved, hpre]
        | false =>
          have habsent : heads.get? (other, change.entityId) = none := by
            simpa [unmoved, hpre] using hunmoved
          simp [Option.filter, hmoved, hpre, get?_advanceHeads hnodup, hchange, habsent]
    · rfl

end

theorem writeDeltas_ok {store store' : VersionStore η} {occGuard : Bool}
    (h : writeDeltas contentHash store commit occGuard = .ok store') :
    (∀ kind, store'.versions kind =
        store.versions kind ++ versionRows commit kind store.nextId commit.deltas) ∧
      store'.nextId = store.nextId + commit.deltas.length ∧
      ∀ key, store'.entityHeads.get? key = (pointHeads commit.branch store.entityHeads
        (headChanges contentHash commit store.nextId commit.deltas)).get? key := by
  rw [writeDeltas] at h
  split at h
  · cases h
  · rename_i heads hheads
    obtain rfl := Except.ok.inj h
    refine ⟨fun kind => by cases kind <;> rfl, rfl, ?_⟩
    cases occGuard with
    | false =>
      obtain rfl := Except.ok.inj hheads
      exact fun _ => rfl
    | true =>
      rcases upsertHeads_guarded contentHash commit.branch store.entityHeads
          (nodup_headChanges contentHash commit store.nextId) with
        ⟨heads', hok, -, hsame⟩ | ⟨change, -, -, herror⟩
      · obtain rfl := Except.ok.inj (hheads.symm.trans hok)
        exact hsame
      · rw [herror] at hheads
        cases hheads

end

/-! ## Runs -/

section

/-- The stores reached by committing a history, each commit later than every
other of its branch. -/
inductive Run [DecidableEq η] (contentHash : Option Payload → η) :
    List (Commit η) → VersionStore η → Prop
  | start : Run contentHash [] VersionStore.empty
  | commit {history : List (Commit η)} {store store' : VersionStore η} (commit : Commit η)
      (occGuard : Bool) (hrun : Run contentHash history store)
      (hlater : ∀ prior ∈ history, prior.branch = commit.branch → prior.seq < commit.seq)
      (hwrite : writeDeltas contentHash store commit occGuard = .ok store') :
      Run contentHash (history ++ [commit]) store'

/-- The commits of a branch recording an entity under a kind, at or below a
sequence number. -/
def recordedUpTo (kind : Kind) (eid : EntityId) (branch : BranchKey) (seq : ℕ)
    (commit : Commit η) : Bool :=
  upTo branch seq commit && commit.kindOf eid = kind

structure HeadHolds (store : VersionStore η) (h : Head η) (d : Delta η) : Prop where
  isTombstone : h.isTombstone = decide (d.op = .delete)
  contentHash : h.contentHash = d.contentHash
  row : ∃ row ∈ store.versions h.entityKind, row.id = h.headVersionId ∧ row.payload = d.payload

structure Records (history : List (Commit η)) (store : VersionStore η) : Prop where
  seqs : ∀ kind, ∀ row ∈ store.versions kind, ∃ commit ∈ history,
    commit.branch = row.branch ∧ commit.seq = row.commitSeq
  fresh : ∀ kind, ∀ row ∈ store.versions kind, row.id < store.nextId
  unique : ∀ kind kind', ∀ row ∈ store.versions kind, ∀ row' ∈ store.versions kind',
    row.id = row'.id → kind = kind' ∧ row = row'
  winners : ∀ kind branch seq eid,
    (winner (rowsAt (store.versions kind) branch seq) eid).map VersionRow.value =
      (lastDelta history (recordedUpTo kind eid branch seq) eid).map Delta.value
  heads : ∀ branch eid, Option.Rel (HeadHolds store) (store.entityHeads.get? (branch, eid))
    (lastDelta history (fun commit => commit.branch = branch) eid)

theorem records_start : Records ([] : List (Commit η)) VersionStore.empty where
  seqs kind row hrow := by cases kind <;> cases hrow
  fresh kind row hrow := by cases kind <;> cases hrow
  unique kind kind' row hrow := by cases kind <;> cases hrow
  winners kind branch seq eid := by cases kind <;> rfl
  heads branch eid := .none

theorem rowsAt_versionRows (commit : Commit η) (kind : Kind) (vid : ℕ) (deltas : List (Delta η))
    (branch : BranchKey) (seq : ℕ) :
    rowsAt (versionRows commit kind vid deltas) branch seq =
      if upTo branch seq commit then versionRows commit kind vid deltas else [] := by
  split
  · rename_i hselect
    refine filter_eq_self.mpr fun row hrow => ?_
    obtain ⟨i, d, -, -, rfl⟩ := mem_versionRows.mp hrow
    exact hselect
  · rename_i hskip
    refine filter_eq_nil_iff.mpr fun row hrow => ?_
    obtain ⟨i, d, -, -, rfl⟩ := mem_versionRows.mp hrow
    exact hskip

variable {rows : List VersionRow} {row : VersionRow}

theorem argmax_concat_of_lt
    (h : ∀ old ∈ rows.argmax fun row => toLex (row.commitSeq, row.createdAt),
      toLex (old.commitSeq, old.createdAt) < toLex (row.commitSeq, row.createdAt)) :
    ((rows ++ [row]).argmax fun row => toLex (row.commitSeq, row.createdAt)) = some row := by
  rw [argmax_concat]
  cases hold : rows.argmax fun row => toLex (row.commitSeq, row.createdAt) with
  | none => rfl
  | some old => exact if_pos (h old hold)

variable {history : List (Commit η)} {store : VersionStore η}

theorem Records.winner_append (h : Records history store) {commit : Commit η}
    (hlater : ∀ prior ∈ history, prior.branch = commit.branch → prior.seq < commit.seq)
    (kind : Kind) (branch : BranchKey) (seq : ℕ) (eid : EntityId) :
    (winner (rowsAt (store.versions kind ++ versionRows commit kind store.nextId commit.deltas)
      branch seq) eid).map VersionRow.value =
      (lastDelta (history ++ [commit]) (recordedUpTo kind eid branch seq) eid).map Delta.value := by
  have hold := h.winners kind branch seq eid
  have hrows : (rowsAt (store.versions kind ++ versionRows commit kind store.nextId commit.deltas)
      branch seq).filter (fun row => row.entityId = eid) =
        (rowsAt (store.versions kind) branch seq).filter (fun row => row.entityId = eid) ++
          (if upTo branch seq commit then
            (versionRows commit kind store.nextId commit.deltas).filter
              (fun row => row.entityId = eid) else []) := by
    rw [rowsAt, filter_append, filter_append, ← rowsAt, ← rowsAt, rowsAt_versionRows]
    split <;> rfl
  rw [lastDelta_concat, winner, hrows, recordedUpTo]
  cases hselect : upTo branch seq commit with
  | false => simpa [winner] using hold
  | true =>
    rcases filter_versionRows commit kind store.nextId commit.nodup eid with
      ⟨hnone, hother⟩ | ⟨i, d, hd, hkind, hone⟩
    · have hskip : (if commit.kindOf eid = kind then commit.deltaAt eid else none) = none := by
        rcases hother with hnil | hother
        · exact ite_eq_right_iff.mpr fun _ => hnil
        · exact if_neg hother
      simpa [hnone, hskip, winner] using hold
    · have hdelta : commit.deltaAt eid = some d := hd
      have hnewest : ∀ row ∈ ((rowsAt (store.versions kind) branch seq).filter
          fun row => row.entityId = eid).argmax fun row => toLex (row.commitSeq, row.createdAt),
          toLex (row.commitSeq, row.createdAt) < toLex (commit.seq, commit.now) := by
        intro row hrow
        have hmem := (mem_filter.mp (argmax_mem hrow)).1
        obtain ⟨hrow', hat⟩ := mem_filter.mp hmem
        obtain ⟨prior, hprior, hbranch, hseq⟩ := h.seqs kind row hrow'
        have hsame : prior.branch = commit.branch := by
          rw [hbranch, (of_decide_eq_true hat).1, (of_decide_eq_true hselect).1]
        exact Prod.Lex.left _ _ (hseq ▸ hlater prior hprior hsame)
      rw [if_pos rfl, hone, argmax_concat_of_lt hnewest]
      simp [hkind, hdelta, versionRow, VersionRow.value, Delta.value]

theorem optionRel_imp {α β : Type} {r r' : α → β → Prop} (h : ∀ a b, r a b → r' a b)
    {a : Option α} {b : Option β} (hab : Option.Rel r a b) : Option.Rel r' a b := by
  cases hab with
  | some hab => exact .some (h _ _ hab)
  | none => exact .none

theorem HeadHolds.mono {store store' : VersionStore η} {head : Head η} {d : Delta η}
    (hsub : ∀ kind, store.versions kind ⊆ store'.versions kind) (h : HeadHolds store head d) :
    HeadHolds store' head d where
  isTombstone := h.isTombstone
  contentHash := h.contentHash
  row := by
    obtain ⟨row, hrow, hid, hpayload⟩ := h.row
    exact ⟨row, hsub _ hrow, hid, hpayload⟩

variable {contentHash : Option Payload → η}

theorem Records.commit [DecidableEq η] {store store' : VersionStore η} {commit : Commit η}
    {occGuard : Bool} (h : Records history store)
    (hlater : ∀ prior ∈ history, prior.branch = commit.branch → prior.seq < commit.seq)
    (hwrite : writeDeltas contentHash store commit occGuard = .ok store') :
    Records (history ++ [commit]) store' := by
  obtain ⟨hrows, hnext, hheads⟩ := writeDeltas_ok hwrite
  have hsub : ∀ kind, store.versions kind ⊆ store'.versions kind := fun kind => by
    rw [hrows]
    exact subset_append_left _ _
  -- A row is an old one, or one of the commit's with an id of its place.
  have hsplit : ∀ kind, ∀ row ∈ store'.versions kind, row ∈ store.versions kind ∨
      ∃ i d, commit.deltas[i]? = some d ∧ commit.kindOf d.entityId = kind ∧
        row = versionRow commit (store.nextId + i) d := by
    intro kind row hrow
    rw [hrows] at hrow
    exact (mem_append.mp hrow).imp_right mem_versionRows.mp
  constructor
  case seqs =>
    intro kind row hrow
    rcases hsplit kind row hrow with hold | ⟨i, d, -, -, rfl⟩
    · obtain ⟨prior, hprior, hbranch, hseq⟩ := h.seqs kind row hold
      exact ⟨prior, mem_append_left _ hprior, hbranch, hseq⟩
    · exact ⟨commit, by simp, rfl, rfl⟩
  case fresh =>
    intro kind row hrow
    rw [hnext]
    rcases hsplit kind row hrow with hold | ⟨i, d, hd, -, rfl⟩
    · exact Nat.lt_add_right _ (h.fresh kind row hold)
    · have hi : i < commit.deltas.length := (List.getElem?_eq_some_iff.mp hd).1
      exact Nat.add_lt_add_left hi _
  case unique =>
    intro kind kind' row hrow row' hrow' hid
    rcases hsplit kind row hrow with hold | ⟨i, d, hd, hkind, rfl⟩ <;>
      rcases hsplit kind' row' hrow' with hold' | ⟨i', d', hd', hkind', rfl⟩
    · exact h.unique kind kind' row hold row' hold' hid
    · have hless := h.fresh kind row hold
      simp only [versionRow] at hid
      omega
    · have hless := h.fresh kind' row' hold'
      simp only [versionRow] at hid
      omega
    · obtain rfl : i = i' := Nat.add_left_cancel hid
      obtain rfl := some.inj (hd.symm.trans hd')
      exact ⟨hkind.symm.trans hkind', rfl⟩
  case winners =>
    intro kind branch seq eid
    rw [hrows]
    exact h.winner_append hlater kind branch seq eid
  case heads =>
    intro branch eid
    have hold := optionRel_imp (fun _ _ => HeadHolds.mono hsub) (h.heads branch eid)
    rw [hheads, get?_pointHeads (nodup_headChanges contentHash commit _), lastDelta_concat]
    by_cases hbranch : branch = commit.branch
    · subst hbranch
      rw [if_pos rfl, if_pos (decide_eq_true rfl)]
      cases hd : commit.deltaAt eid with
      | none =>
        rw [find?_headChanges_eq_none contentHash hd]
        exact hold
      | some d =>
        obtain ⟨v, hrow, hchange⟩ := find?_headChanges contentHash hd
        rw [hchange]
        refine .some ⟨rfl, rfl, versionRow commit v d, ?_, rfl, rfl⟩
        rw [hrows]
        exact mem_append_right _ hrow
    · rw [if_neg hbranch, if_neg (by simpa using Ne.symm hbranch)]
      exact hold

theorem Run.records [DecidableEq η] (h : Run contentHash history store) :
    Records history store := by
  induction h with
  | start => exact records_start
  | commit commit occGuard _ hlater hwrite ih => exact ih.commit hlater hwrite

variable {eid : EntityId}

theorem Run.head_recorded [DecidableEq η] (h : Run contentHash history store) {branch : BranchKey}
    {head : Head η} (hhead : store.entityHeads.get? (branch, eid) = some head) :
    ∃ commit ∈ history, commit.kindOf eid = head.entityKind ∧
      ∃ d ∈ commit.deltas, d.entityId = eid := by
  induction h with
  | start => cases hhead
  | @commit history store store' commit occGuard _ _ hwrite ih =>
    rw [(writeDeltas_ok hwrite).2.2, get?_pointHeads (nodup_headChanges contentHash commit _)]
      at hhead
    have hold : store.entityHeads.get? (branch, eid) = some head →
        ∃ prior ∈ history ++ [commit], prior.kindOf eid = head.entityKind ∧
          ∃ d ∈ prior.deltas, d.entityId = eid := by
      intro hget
      obtain ⟨prior, hprior, hd⟩ := ih hget
      exact ⟨prior, mem_append_left _ hprior, hd⟩
    by_cases hbranch : branch = commit.branch
    · rw [if_pos hbranch] at hhead
      cases hd : commit.deltaAt eid with
      | none =>
        rw [find?_headChanges_eq_none contentHash hd] at hhead
        exact hold hhead
      | some d =>
        obtain ⟨v, -, hchange⟩ := find?_headChanges contentHash hd
        rw [hchange] at hhead
        obtain rfl := some.inj hhead
        obtain ⟨hmem, heid⟩ := deltaAt_eq_some.mp hd
        exact ⟨commit, by simp, rfl, d, hmem, heid⟩
    · rw [if_neg hbranch] at hhead
      exact hold hhead

/-! ## Reads -/

/-- The value the two tables give: a row of the edge table hides the node
table's. -/
def readValue (history : List (Commit η)) (branch : BranchKey) (seq : ℕ) (eid : EntityId) :
    Option (Option Payload) :=
  ((lastDelta history (recordedUpTo .edge eid branch seq) eid).or
    (lastDelta history (recordedUpTo .node eid branch seq) eid)).map Delta.value

theorem get?_layerValues (h : Records history store) (branch : BranchKey) (seq : ℕ)
    (ids : List EntityId) (eid : EntityId) :
    (layerValues store branch seq ids).get? eid =
      if eid ∈ ids then readValue history branch seq eid else none := by
  rw [layerValues, get?_update, get?_ofKeys, get?_ofKeys, h.winners, h.winners, readValue]
  by_cases heid : eid ∈ ids
  · simp only [mem_dedup, heid, if_true]
    cases lastDelta history (recordedUpTo .edge eid branch seq) eid <;> rfl
  · simp [heid]

/-- The value some layers give: a nearer layer's before a farther one's. -/
def readBack (history : List (Commit η)) : List (BranchKey × ℕ) → EntityId → Option (Option Payload)
  | [], _ => none
  | (branch, seq) :: layers, eid =>
    (readValue history branch seq eid).or (readBack history layers eid)

theorem get?_valuesAt (h : Records history store) (layers : List (BranchKey × ℕ))
    (ids : List EntityId) (eid : EntityId) :
    (valuesAt store layers ids).get? eid =
      if eid ∈ ids then readBack history layers eid else none := by
  induction layers generalizing ids with
  | nil => simp [valuesAt, readBack]
  | cons layer layers ih =>
    obtain ⟨branch, seq⟩ := layer
    -- An id read in this layer is not asked of the next.
    have hkey : eid ∈ (layerValues store branch seq ids).keys ↔
        (if eid ∈ ids then readValue history branch seq eid else none).isSome := by
      rw [mem_keys_iff, get?_layerValues h]
    rw [valuesAt, readBack, get?_update, ih, get?_layerValues h]
    by_cases heid : eid ∈ ids
    · cases hvalue : readValue history branch seq eid with
      | none => simp [heid, hkey, hvalue]
      | some value => simp [heid, hkey, hvalue]
    · simp [heid]

theorem entityId_of_winner (h : winner rows eid = some row) : row ∈ rows ∧ row.entityId = eid := by
  obtain ⟨hmem, heid⟩ := mem_filter.mp (argmax_mem h)
  exact ⟨hmem, of_decide_eq_true heid⟩

theorem get?_payloadsByVersion
    (hunique : ∀ row ∈ rows, ∀ row' ∈ rows, row.id = row'.id → row = row') {vids : List ℕ}
    (hrow : row ∈ rows) (hvid : row.id ∈ vids) :
    (payloadsByVersion rows vids).get? row.id = some row.payload := by
  have hmem : (row.id, row.payload) ∈ payloadsByVersion rows vids :=
    mem_map.mpr ⟨row, mem_filter.mpr ⟨hrow, decide_eq_true hvid⟩, rfl⟩
  have hkey : row.id ∈ Dict.keys (payloadsByVersion rows vids) :=
    mem_map_of_mem hmem (f := Prod.fst)
  obtain ⟨payload, hget⟩ := isSome_iff_exists.mp (mem_keys_iff.mp hkey)
  obtain ⟨row', hrow', hpair⟩ := mem_map.mp (mem_of_get? hget)
  obtain ⟨hid, rfl⟩ := Prod.mk.inj hpair
  rw [hget, hunique row' (mem_filter.mp hrow').1 row hrow hid]

/-- The two phases of a table's state read the winners' values. -/
theorem get?_tableState (h : Records history store) (kind : Kind) (branch : BranchKey) (seq : ℕ)
    (eid : EntityId) : (tableState (store.versions kind) branch seq).get? eid =
      (lastDelta history (recordedUpTo kind eid branch seq) eid).map Delta.value := by
  have hunique : ∀ row ∈ store.versions kind, ∀ row' ∈ store.versions kind, row.id = row'.id →
      row = row' := fun row hrow row' hrow' hid => (h.unique kind kind row hrow row' hrow' hid).2
  have hstate : tableState (store.versions kind) branch seq =
      Dict.ofKeys ((rowsAt (store.versions kind) branch seq).map VersionRow.entityId).dedup
        (fun eid =>
          (winner (rowsAt (store.versions kind) branch seq) eid).map VersionRow.value) := by
    rw [tableState, map_filterMap]
    refine filterMap_congr fun eid heid => ?_
    rw [Option.map_map]
    refine map_congr fun row hrow => ?_
    obtain ⟨hmem, rfl⟩ := entityId_of_winner hrow
    have hstored := (mem_filter.mp hmem).1
    rw [Function.comp_apply, VersionRow.value]
    by_cases hdelete : row.op = .delete
    · rw [if_pos hdelete, if_pos hdelete]
    · have hwinner : row ∈ ((rowsAt (store.versions kind) branch seq).map
          VersionRow.entityId).dedup.filterMap (winner (rowsAt (store.versions kind) branch seq)) :=
        mem_filterMap.mpr ⟨row.entityId, heid, hrow⟩
      rw [if_neg hdelete, if_neg hdelete, get?_payloadsByVersion hunique hstored
        (mem_map_of_mem (mem_filter.mpr ⟨hwinner, decide_eq_true hdelete⟩))]
      rfl
  rw [hstate, get?_ofKeys, ← h.winners]
  split
  · rfl
  · rename_i hnone
    cases hwinner : winner (rowsAt (store.versions kind) branch seq) eid with
    | none => rfl
    | some row =>
      obtain ⟨hmem, rfl⟩ := entityId_of_winner hwinner
      exact absurd (mem_dedup.mpr (mem_map_of_mem hmem)) hnone

theorem get?_payloadsByVersion_eq_none {vids : List ℕ} {vid : ℕ} (h : ∀ row ∈ rows, row.id ≠ vid) :
    (payloadsByVersion rows vids).get? vid = none := by
  rw [get?_eq_none_iff]
  intro hkey
  obtain ⟨entry, hentry, rfl⟩ := mem_map.mp hkey
  obtain ⟨row, hrow, rfl⟩ := mem_map.mp hentry
  exact h row (mem_filter.mp hrow).1 rfl

theorem get?_payloadByVid (h : Records history store) (vids : Kind → List ℕ) {kind : Kind}
    (hrow : row ∈ store.versions kind) (hvid : row.id ∈ vids kind) :
    ((payloadsByVersion (store.versions .node) (vids .node)).update
      (payloadsByVersion (store.versions .edge) (vids .edge))).get? row.id = some row.payload := by
  have hself : (payloadsByVersion (store.versions kind) (vids kind)).get? row.id =
      some row.payload :=
    get?_payloadsByVersion (fun x hx y hy hid => (h.unique kind kind x hx y hy hid).2) hrow hvid
  rw [get?_update]
  cases kind with
  | edge => rw [hself]; rfl
  | node =>
    have hother : ∀ row' ∈ store.versions .edge, row'.id ≠ row.id := by
      intro row' hrow' hid
      cases (h.unique .edge .node row' hrow' row hrow hid).1
    rw [get?_payloadsByVersion_eq_none hother, hself]
    rfl

/-- What the heads of a branch hold is what its last changes left. -/
theorem get?_branchOwnPayloads (h : Records history store) (branch : BranchKey) (eid : EntityId) :
    (branchOwnPayloads store branch).get? eid =
      (lastDelta history (fun commit => commit.branch = branch) eid).map Delta.value := by
  have hentry : ∀ entry ∈ store.entityHeads.items.filter fun entry => entry.1.1 = branch,
      store.entityHeads.get? (branch, entry.1.2) = some entry.2 := by
    rintro ⟨⟨other, eid'⟩, head⟩ hentry
    obtain ⟨hmem, hbranch⟩ := mem_filter.mp hentry
    obtain rfl : other = branch := of_decide_eq_true hbranch
    exact mem_items_iff.mp hmem
  have hnodup : (Dict.keys (branchOwnPayloads store branch)).Nodup := by
    rw [branchOwnPayloads, Dict.keys, List.map_map]
    refine Nodup.map_on ?_ ((Nodup.of_map Prod.fst (nodup_keys_items store.entityHeads)).filter _)
    rintro ⟨⟨b, e⟩, x⟩ hx ⟨⟨b', e'⟩, y⟩ hy heid
    obtain rfl : b = branch := of_decide_eq_true (mem_filter.mp hx).2
    obtain rfl : b' = b := of_decide_eq_true (mem_filter.mp hy).2
    obtain rfl : e = e' := heid
    have hsame : some x = some y := (hentry _ hx).symm.trans (hentry ((b', e), y) hy)
    rw [some.inj hsame]
  have hrel := h.heads branch eid
  cases hhead : store.entityHeads.get? (branch, eid) with
  | none =>
    rw [hhead] at hrel
    cases hlast : lastDelta history (fun commit => commit.branch = branch) eid with
    | some d => rw [hlast] at hrel; cases hrel
    | none =>
      rw [map_none, get?_eq_none_iff]
      intro hkey
      obtain ⟨pair, hpair, rfl⟩ := mem_map.mp hkey
      obtain ⟨entry, hmem, rfl⟩ := mem_map.mp hpair
      rw [hentry entry hmem] at hhead
      cases hhead
  | some head =>
    rw [hhead] at hrel
    cases hlast : lastDelta history (fun commit => commit.branch = branch) eid with
    | none => rw [hlast] at hrel; cases hrel
    | some d =>
      rw [hlast] at hrel
      obtain ⟨htomb, -, row, hrow, hid, hpayload⟩ : HeadHolds store head d := by
        cases hrel; assumption
      have hmem : ((branch, eid), head) ∈
          store.entityHeads.items.filter fun entry => entry.1.1 = branch :=
        mem_filter.mpr ⟨mem_items_iff.mpr hhead, decide_eq_true rfl⟩
      refine get?_of_mem hnodup (mem_map.mpr ⟨_, hmem, ?_⟩)
      refine Prod.ext rfl ?_
      cases htombstone : head.isTombstone with
      | true =>
        rw [htomb, decide_eq_true_iff] at htombstone
        simp [htombstone, Delta.value]
      | false =>
        have hdelete : d.op ≠ .delete := by simpa [htombstone] using htomb
        have hlive : ((branch, eid), head) ∈
            (store.entityHeads.items.filter fun entry => entry.1.1 = branch).filter fun entry =>
                !entry.2.isTombstone && decide (entry.2.entityKind = head.entityKind) := by
          rw [mem_filter]
          exact ⟨hmem, by simp [htombstone]⟩
        have hlookup := get?_payloadByVid h (fun kind =>
          ((store.entityHeads.items.filter fun entry => entry.1.1 = branch).filter
            fun entry => !entry.2.isTombstone && decide (entry.2.entityKind = kind)).map
              fun entry => entry.2.headVersionId) hrow
          (hid ▸ mem_map_of_mem hlive)
        rw [hid, hpayload] at hlookup
        simp only [Bool.false_eq_true, if_false, hlookup, join_some, Delta.value, hdelete]

/-! ## The fold and the reads -/

/-- The state the commits of some layers leave, a nearer layer over a farther. -/
def composed (history : List (Commit η)) : List (BranchKey × ℕ) → State
  | [] => []
  | (branch, seq) :: layers => (composed history layers).update (foldUpTo history branch seq)

/-- Reads as of any sequence number, over any layers, give the fold of the commits
up to it, and at the newest one the heads hold it. -/
structure ReadsFold (history : List (Commit η)) (store : VersionStore η) : Prop where
  valuesAt : ∀ layers ids eid, (valuesAt store layers ids).get? eid =
    if eid ∈ ids then (composed history layers).get? eid else none
  stateAsOf : ∀ layers eid, (stateAsOf store layers).get? eid = (composed history layers).get? eid
  heads : ∀ branch seq, (∀ commit ∈ history, commit.branch = branch → commit.seq ≤ seq) → ∀ eid,
    (branchOwnPayloads store branch).get? eid = (foldUpTo history branch seq).get? eid

def recordedOn (kind : Kind) (eid : EntityId) (branch : BranchKey) (commit : Commit η) : Bool :=
  commit.branch = branch ∧ commit.kindOf eid = kind

/-- A change recorded as a node's, of an entity that its branch has recorded as an
edge, leaves what the last of those records did. -/
def NodesSettled (history : List (Commit η)) : Prop :=
  ∀ before commit after, history = before ++ commit :: after →
    ∀ d ∈ commit.deltas, commit.kindOf d.entityId = .node →
      ∀ e, lastDelta before (recordedOn .edge d.entityId commit.branch) d.entityId = some e →
        e.value = d.value

/-- An earlier history is settled when a later one is. -/
theorem NodesSettled.of_append {before added : List (Commit η)}
    (h : NodesSettled (before ++ added)) : NodesSettled before := by
  intro front commit after heq
  exact h front commit (after ++ added) (by simp [heq])

theorem Run.pairwise [DecidableEq η] (h : Run contentHash history store) :
    history.Pairwise fun prior commit => prior.branch = commit.branch → prior.seq < commit.seq := by
  induction h with
  | start => exact Pairwise.nil
  | commit commit _ _ hlater _ ih =>
    rw [pairwise_append]
    refine ⟨ih, pairwise_singleton _ _, fun prior hprior other hother => ?_⟩
    obtain rfl := mem_singleton.mp hother
    exact hlater prior hprior

/-- Below a later commit of the branch, the sequence number does not select. -/
theorem lastDelta_recordedUpTo {before : List (Commit η)} {commit : Commit η}
    (hlater : ∀ prior ∈ before, prior.branch = commit.branch → prior.seq < commit.seq)
    {seq : ℕ} (hseq : commit.seq ≤ seq) (kind : Kind) (eid : EntityId) :
    lastDelta before (recordedUpTo kind eid commit.branch seq) eid =
      lastDelta before (recordedOn kind eid commit.branch) eid := by
  refine lastDelta_congr fun prior hprior => ?_
  rw [recordedUpTo, upTo, recordedOn, Bool.eq_iff_iff]
  simp only [Bool.and_eq_true, decide_eq_true_iff]
  constructor
  · exact fun h => ⟨h.1.1, h.2⟩
  · exact fun h => ⟨⟨h.1, (hlater prior hprior h.1).le.trans hseq⟩, h.2⟩

theorem lastDelta_eq_none {select : Commit η → Bool}
    (h : ∀ commit ∈ history, select commit = false) : lastDelta history select eid = none := by
  rw [lastDelta, getLast?_eq_none_iff, filterMap_eq_nil_iff]
  intro commit hcommit
  rw [h commit hcommit]
  rfl

/-- The tables give the fold's values when every node record is settled. -/
theorem readValue_eq_of_settled (hpairwise : history.Pairwise fun prior commit =>
      prior.branch = commit.branch → prior.seq < commit.seq)
    (hsettled : NodesSettled history) (branch : BranchKey) (seq : ℕ) (eid : EntityId) :
    readValue history branch seq eid =
      (lastDelta history (upTo branch seq) eid).map Delta.value := by
  induction history using reverseRecOn with
  | nil => rfl
  | append_singleton history commit ih =>
    rw [pairwise_append] at hpairwise
    have hlater : ∀ prior ∈ history, prior.branch = commit.branch → prior.seq < commit.seq :=
      fun prior hprior => hpairwise.2.2 prior hprior commit (mem_singleton_self _)
    have hbefore := ih hpairwise.1 fun before earlier after heq => by
      refine hsettled before earlier (after ++ [commit]) ?_
      rw [heq]
      simp
    rw [readValue, lastDelta_concat, lastDelta_concat, lastDelta_concat, recordedUpTo, recordedUpTo]
    rw [readValue] at hbefore
    cases hselect : upTo branch seq commit with
    | false => simpa using hbefore
    | true =>
      cases hd : commit.deltaAt eid with
      | none => simpa using hbefore
      | some d =>
        cases hkind : commit.kindOf eid with
        | edge => simp
        | node =>
          obtain ⟨hmem, rfl⟩ := deltaAt_eq_some.mp hd
          obtain ⟨rfl, hseq⟩ := of_decide_eq_true hselect
          have hedge := lastDelta_recordedUpTo hlater hseq .edge d.entityId
          cases he : lastDelta history (recordedUpTo .edge d.entityId commit.branch seq)
              d.entityId with
          | none => simp
          | some e =>
            have hvalue := hsettled history commit [] rfl d hmem hkind e (hedge.symm.trans he)
            simp [hvalue]

theorem readBack_eq_composed (hvalue : ∀ branch seq eid, readValue history branch seq eid =
      (lastDelta history (upTo branch seq) eid).map Delta.value)
    (layers : List (BranchKey × ℕ)) (eid : EntityId) :
    readBack history layers eid = (composed history layers).get? eid := by
  induction layers with
  | nil => rfl
  | cons layer layers ih =>
    obtain ⟨branch, seq⟩ := layer
    rw [readBack, composed, get?_update, hvalue, get?_foldUpTo, ih]

theorem readValue_of_edge {before after : List (Commit η)} {commit : Commit η}
    (hpairwise : (before ++ commit :: after).Pairwise fun prior commit =>
      prior.branch = commit.branch → prior.seq < commit.seq) {d e : Delta η}
    (hd : d ∈ commit.deltas) (hkind : commit.kindOf d.entityId = .node)
    (he : lastDelta before (recordedOn .edge d.entityId commit.branch) d.entityId = some e) :
    readValue (before ++ commit :: after) commit.branch commit.seq d.entityId = some e.value ∧
      lastDelta (before ++ commit :: after) (upTo commit.branch commit.seq) d.entityId
        = some d := by
  rw [pairwise_append, pairwise_cons] at hpairwise
  obtain ⟨-, ⟨hafter, -⟩, hcross⟩ := hpairwise
  have hlater : ∀ prior ∈ before, prior.branch = commit.branch → prior.seq < commit.seq :=
    fun prior hprior => hcross prior hprior commit (by simp)
  have hdelta := deltaAt_eq_some.mpr ⟨hd, rfl⟩
  have hskip : ∀ later ∈ after, upTo commit.branch commit.seq later = false := by
    intro later hmem
    refine decide_eq_false fun hat => ?_
    exact absurd (hafter later hmem hat.1.symm) (Nat.not_lt.mpr hat.2)
  have hsplit : ∀ select : Commit η → Bool, (∀ later ∈ after, select later = false) →
      lastDelta (before ++ commit :: after) select d.entityId =
        (if select commit then some d else none).or (lastDelta before select d.entityId) := by
    intro select hnone
    rw [show before ++ commit :: after = before ++ [commit] ++ after by simp, lastDelta_append,
      lastDelta_eq_none hnone, lastDelta_concat, hdelta]
    rfl
  have hself : upTo commit.branch commit.seq commit = true := by simp [upTo]
  constructor
  · rw [readValue, hsplit _ fun later hmem => by rw [recordedUpTo, hskip later hmem]; rfl,
      lastDelta_recordedUpTo hlater le_rfl, he]
    simp [recordedUpTo, hkind]
  · rw [hsplit _ hskip, if_pos hself]
    rfl

theorem nodesSettled_of_kinds
    (h : ∀ commit ∈ history, ∀ d ∈ commit.deltas, commit.kindOf d.entityId = .node →
      ∀ prior ∈ history, prior.branch = commit.branch → ∀ e ∈ prior.deltas,
        e.entityId = d.entityId → prior.kindOf d.entityId = .node) : NodesSettled history := by
  intro before commit after heq d hd hkind e he
  obtain ⟨prior, hprior, hselect, hdelta⟩ := exists_of_lastDelta he
  obtain ⟨hbranch, hedge⟩ := of_decide_eq_true hselect
  obtain ⟨hmem, heid⟩ := deltaAt_eq_some.mp hdelta
  have hnode :=
    h commit (by simp [heq]) d hd hkind prior (by simp [heq, hprior]) hbranch e hmem heid
  rw [hedge] at hnode
  cases hnode

/-- In any run, reading as of any sequence number is folding the commits up to it
and the heads hold the newest fold, exactly when every node record of an entity
that the branch has recorded as an edge leaves what the last edge record did. -/
theorem readsFold_iff_nodesSettled [DecidableEq η] (contentHash : Option Payload → η)
    (history : List (Commit η)) (store : VersionStore η) (hrun : Run contentHash history store) :
    ReadsFold history store ↔ NodesSettled history := by
  have hrecords := hrun.records
  have hpairwise := hrun.pairwise
  constructor
  · intro hreads before commit after heq d hd hkind e he
    have hread := hreads.valuesAt [(commit.branch, commit.seq)] [d.entityId] d.entityId
    have hids : d.entityId ∈ [d.entityId] := mem_singleton_self _
    rw [heq] at hpairwise
    obtain ⟨hvalue, hlast⟩ := readValue_of_edge hpairwise hd hkind he
    rw [valuesAt, Dict.get?_update, get?_layerValues hrecords, if_pos hids, heq, hvalue, composed,
      Dict.get?_update, get?_foldUpTo, hlast] at hread
    simpa [valuesAt, composed] using hread
  · intro hsettled
    have hvalue := readValue_eq_of_settled hpairwise hsettled
    constructor
    case valuesAt =>
      intro layers ids eid
      rw [get?_valuesAt hrecords, readBack_eq_composed hvalue]
    case stateAsOf =>
      intro layers
      induction layers with
      | nil => exact fun _ => rfl
      | cons layer layers ih =>
        intro eid
        obtain ⟨branch, seq⟩ := layer
        have hnode := get?_tableState hrecords .node branch seq eid
        have hedge := get?_tableState hrecords .edge branch seq eid
        simp only [VersionStore.versions] at hnode hedge
        rw [stateAsOf, composed, Dict.get?_update, Dict.get?_update, Dict.get?_update, hnode,
          hedge, ih, get?_foldUpTo, ← hvalue, readValue, ← Option.or_assoc]
        cases lastDelta history (recordedUpTo .edge eid branch seq) eid <;> rfl
    case heads =>
      intro branch seq hnewest eid
      rw [get?_branchOwnPayloads hrecords, get?_foldUpTo]
      congr 1
      refine lastDelta_congr fun commit hcommit => ?_
      rw [upTo, Bool.eq_iff_iff]
      simp only [decide_eq_true_iff]
      exact ⟨fun hbranch => ⟨hbranch, hnewest commit hcommit hbranch⟩, And.left⟩

/-- One change of a branch's commit, hashed by its payload. -/
def commitOne (seq : ℕ) (eid : EntityId) (kind : Kind) (op : Op) (payload : Option Payload)
    (prev : Option (Option Payload)) (h : op = .delete ↔ payload = none) :
    Commit (Option Payload) where
  branch := ("g", "main")
  seq := seq
  deltas := [⟨eid, op, payload, prev, payload⟩]
  kindByEntity := [(eid, kind)]
  now := seq
  nodup := List.nodup_singleton _
  payload_iff d hd := by
    obtain rfl := List.mem_singleton.mp hd
    exact h

/-- An edge is created, deleted and re-created beside a node. -/
def recreated : List (Commit (Option Payload)) :=
  [commitOne 1 "x" .edge .create (some [("sourceEntityId", .str "a")]) none (by decide),
    commitOne 2 "a" .node .create (some [("urn", .str "u")]) none (by decide),
    commitOne 3 "x" .edge .delete none (some (some [("sourceEntityId", .str "a")])) (by decide),
    commitOne 5 "x" .edge .create (some [("sourceEntityId", .str "c")]) none (by decide)]

theorem readsFold_iff_nodesSettled_recreated :
    ∃ store, Run id recreated store ∧ ReadsFold recreated store ∧
      (valuesAt store [(("g", "main"), 4)] ["a", "x"]).get? "x" = some none ∧
      (branchOwnPayloads store ("g", "main")).get? "x" =
        some (some [("sourceEntityId", .str "c")]) := by
  have hrun : Run id recreated _ :=
    .commit _ true (.commit _ true (.commit _ true (.commit _ true .start
      (by decide) rfl) (by decide) rfl) (by decide) rfl) (by decide) rfl
  refine ⟨_, hrun, (readsFold_iff_nodesSettled id recreated _ hrun).mpr
    (nodesSettled_of_kinds (by decide)), by decide +kernel, by decide +kernel⟩

/-- An edge whose deletion is recorded under the default kind. -/
def deletedAsNode : List (Commit (Option Payload)) :=
  [commitOne 1 "x" .edge .create (some [("sourceEntityId", .str "a")]) none (by decide),
    commitOne 2 "x" .node .delete none (some (some [("sourceEntityId", .str "a")])) (by decide)]

/-- It reads back live at the sequence number that deleted it, while its head is a
tombstone. -/
theorem valuesAt_deletedAsNode : ∃ store, Run id deletedAsNode store ∧
      (foldUpTo deletedAsNode ("g", "main") 2).get? "x" = some none ∧
      (branchOwnPayloads store ("g", "main")).get? "x" = some none ∧
      (valuesAt store [(("g", "main"), 2)] ["x"]).get? "x" =
        some (some [("sourceEntityId", .str "a")]) ∧
      (stateAsOf store [(("g", "main"), 2)]).get? "x" =
        some (some [("sourceEntityId", .str "a")]) := by
  have hrun : Run id deletedAsNode _ :=
    .commit _ true (.commit _ true .start (by decide) rfl) (by decide) rfl
  exact ⟨_, hrun, by decide +kernel, by decide +kernel, by decide +kernel, by decide +kernel⟩

end

end DataViz.Versioning
