/-
# No update is lost

Whatever the interleaving, a write goes through exactly when every entity it
writes still has the value, by content hash, that the save read; otherwise it
changes nothing and the save starts over. So each committed change was computed
from the value it replaced, and the state is what the committed changes leave one
after the other. With the branch's lock the same holds of whole batches, whatever
they compute from.
-/

import DataViz.Versioning.BranchWriters
import Mathlib.Data.List.Permutation

namespace DataViz.Versioning

open List Option

theorem SamePayload.livePayload {p q : Option Payload} (h : SamePayload p q) :
    SamePayload (livePayload p) (livePayload q) := by
  by_cases hp : p = some []
  · subst hp
    rw [h.symm.eq_empty]
  · have hq : q ≠ some [] := fun hq => hp (hq ▸ h).eq_empty
    rw [livePayload_of_ne hp, livePayload_of_ne hq]
    exact h

def Phase.curVals : Phase → Option State
  | .read curVals => some curVals
  | .computed curVals _ => some curVals
  | _ => none

namespace Writers

variable {η ι : Type} (writers : Writers η ι)

/-- A change as `net_delta` makes it: hashed, and never of an empty payload. -/
def NetChange (d : Delta η) : Prop :=
  d.contentHash = writers.contentHash d.payload ∧ d.payload ≠ some []

variable {commit : Commit η} {d : Delta η}

theorem value_eq_payload (hd : d ∈ commit.deltas) : d.value = d.payload := by
  rw [Delta.value]
  split
  · rename_i hdelete
    exact ((commit.payload_iff d hd).mp hdelete).symm
  · rfl

/-- What the branch's head of an entity holds, or else what its base layers do. -/
def current (world : World η ι) (eid : EntityId) : Option Payload :=
  match (branchOwnPayloads world.store writers.branch).get? eid with
  | some value => value
  | none => ((valuesAt world.store writers.baseLayers [eid]).get? eid).join

def onBranch (commit : Commit η) : Bool :=
  commit.branch = writers.branch

def valueIn (history : List (Commit η)) (eid : EntityId) : Option Payload :=
  match lastDelta history writers.onBranch eid with
  | some d => d.value
  | none => (readBack history writers.baseLayers eid).join

theorem current_eq {world : World η ι} (h : Records world.history world.store) (eid : EntityId) :
    writers.current world eid = writers.valueIn world.history eid := by
  have hheads : (branchOwnPayloads world.store writers.branch).get? eid =
      (lastDelta world.history writers.onBranch eid).map Delta.value :=
    get?_branchOwnPayloads h writers.branch eid
  rw [current, valueIn, hheads, get?_valuesAt h, if_pos (mem_singleton_self eid)]
  cases lastDelta world.history writers.onBranch eid <;> rfl

def ReadFrom (w : ι) (history : List (Commit η)) (curVals : State) : Prop :=
  ∀ eid, curVals.get? eid = if eid ∈ (writers.batch w).ids then
    readBack history ((writers.branch, newestSeq history writers.branch) :: writers.baseLayers) eid
    else none

variable {curVals : State} {eid : EntityId} {w : ι}

/-- What a save has read was current after a prefix of the history. -/
theorem ReadFrom.get?_join {writers : Writers η ι} {before : List (Commit η)}
    (h : writers.ReadFrom w before curVals) (heid : eid ∈ (writers.batch w).ids) :
    (curVals.get? eid).join = (readBack before
      ((writers.branch, newestSeq before writers.branch) :: writers.baseLayers) eid).join := by
  rw [h eid, if_pos heid]

theorem readBack_base (hbase : ∀ layer ∈ writers.baseLayers, layer.1 ≠ writers.branch)
    {before added : List (Commit η)} (hadded : ∀ commit ∈ added, commit.branch = writers.branch)
    (eid : EntityId) :
    readBack (before ++ added) writers.baseLayers eid = readBack before writers.baseLayers eid := by
  revert hbase
  generalize writers.baseLayers = layers
  intro hbase
  induction layers with
  | nil => rfl
  | cons layer layers ih =>
    obtain ⟨branch, seq⟩ := layer
    have hne : branch ≠ writers.branch := hbase (branch, seq) (by simp)
    have hnone : ∀ kind, lastDelta added (recordedUpTo kind eid branch seq) eid = none := by
      intro kind
      refine lastDelta_eq_none fun commit hcommit => ?_
      rw [recordedUpTo, upTo, hadded commit hcommit]
      simp [Ne.symm hne]
    rw [readBack, readBack, readValue, readValue, lastDelta_append, lastDelta_append, hnone, hnone,
      ih fun layer hlayer => hbase layer (mem_cons_of_mem _ hlayer)]
    rfl

theorem valueIn_concat (hbase : ∀ layer ∈ writers.baseLayers, layer.1 ≠ writers.branch)
    (history : List (Commit η)) (hbranch : commit.branch = writers.branch) (eid : EntityId) :
    writers.valueIn (history ++ [commit]) eid = match commit.deltaAt eid with
      | some d => d.value
      | none => writers.valueIn history eid := by
  have hselect : writers.onBranch commit = true := decide_eq_true hbranch
  rw [valueIn, valueIn, lastDelta_concat, if_pos hselect,
    writers.readBack_base hbase (by simpa using hbranch)]
  cases commit.deltaAt eid <;> rfl

theorem readBack_of_absent (hbase : ∀ layer ∈ writers.baseLayers, layer.1 ≠ writers.branch)
    {before added : List (Commit η)} (hadded : ∀ commit ∈ added, commit.branch = writers.branch)
    (habsent : lastDelta (before ++ added) writers.onBranch eid = none) (seq : ℕ) :
    readBack before ((writers.branch, seq) :: writers.baseLayers) eid =
      readBack (before ++ added) writers.baseLayers eid := by
  rw [lastDelta_append, or_eq_none_iff] at habsent
  have hnone : ∀ kind, lastDelta before (recordedUpTo kind eid writers.branch seq) eid = none := by
    intro kind
    by_contra hsome
    obtain ⟨d, hd⟩ := ne_none_iff_exists'.mp hsome
    obtain ⟨commit, hcommit, hselect, hdelta⟩ := exists_of_lastDelta hd
    rw [recordedUpTo, upTo, Bool.and_eq_true, decide_eq_true_iff] at hselect
    have hlast := habsent.2
    rw [lastDelta, getLast?_eq_none_iff, filterMap_eq_nil_iff] at hlast
    have hskip := hlast commit hcommit
    have hbranch : writers.onBranch commit = true := decide_eq_true hselect.1.1
    rw [if_pos hbranch, hdelta] at hskip
    cases hskip
  rw [readBack, readValue, hnone, hnone, writers.readBack_base hbase hadded]
  rfl

variable {history : List (Commit η)}

theorem readBack_ne_empty (hrecorded : ∀ commit ∈ history, ∀ d ∈ commit.deltas, writers.NetChange d)
    (layers : List (BranchKey × ℕ)) (eid : EntityId) :
    (readBack history layers eid).join ≠ some [] := by
  have hvalue : ∀ (select : Commit η → Bool) (d : Delta η),
      lastDelta history select eid = some d → d.value ≠ some [] := by
    intro select d hd
    obtain ⟨commit, hcommit, -, hdelta⟩ := exists_of_lastDelta hd
    have hmem := (deltaAt_eq_some.mp hdelta).1
    rw [value_eq_payload hmem]
    exact (hrecorded commit hcommit d hmem).2
  induction layers with
  | nil => simp [readBack]
  | cons layer layers ih =>
    obtain ⟨branch, seq⟩ := layer
    rw [readBack, readValue]
    cases hedge : lastDelta history (recordedUpTo .edge eid branch seq) eid with
    | some d => simpa [hedge] using hvalue _ d hedge
    | none =>
      cases hnode : lastDelta history (recordedUpTo .node eid branch seq) eid with
      | some d => simpa [hnode] using hvalue _ d hnode
      | none => simpa using ih

theorem le_foldl_max {seq : ℕ} {seqs : List ℕ} {newest : ℕ} (h : seq ≤ newest ∨ seq ∈ seqs) :
    seq ≤ seqs.foldl max newest := by
  induction seqs generalizing newest with
  | nil => simpa using h
  | cons other rest ih =>
    refine ih ?_
    rcases h with hnewest | hmem
    · exact .inl (le_max_of_le_left hnewest)
    · rcases mem_cons.mp hmem with rfl | hrest
      · exact .inl (le_max_right _ _)
      · exact .inr hrest

theorem seq_le_newestSeq {branch : BranchKey} (hcommit : commit ∈ history)
    (hbranch : commit.branch = branch) : commit.seq ≤ newestSeq history branch :=
  le_foldl_max (.inr (mem_map_of_mem (mem_filter.mpr ⟨hcommit, decide_eq_true hbranch⟩)))

theorem ReadFrom.eq_valueIn {writers : Writers η ι} (h : writers.ReadFrom w history curVals)
    (hpairwise : history.Pairwise fun prior commit =>
      prior.branch = commit.branch → prior.seq < commit.seq)
    (hsettled : NodesSettled history) (heid : eid ∈ (writers.batch w).ids) :
    (curVals.get? eid).join = writers.valueIn history eid := by
  have hnewest : lastDelta history (upTo writers.branch (newestSeq history writers.branch)) eid =
      lastDelta history writers.onBranch eid := by
    refine lastDelta_congr fun commit hcommit => ?_
    rw [upTo, onBranch, Bool.eq_iff_iff, decide_eq_true_iff, decide_eq_true_iff]
    exact ⟨And.left, fun hbranch => ⟨hbranch, seq_le_newestSeq hcommit hbranch⟩⟩
  rw [h.get?_join heid, readBack, readValue_eq_of_settled hpairwise hsettled, hnewest, valueIn]
  cases lastDelta history writers.onBranch eid <;> rfl

theorem mem_keys_newVals : eid ∈ (writers.newVals w curVals).keys ↔ eid ∈ (writers.batch w).ids ∧
      (writers.batch w).compute (fun eid => (curVals.get? eid).join) eid ≠ none := by
  rw [← not_iff_not, ← Dict.get?_eq_none_iff, newVals, Dict.get?_ofKeys]
  simp

variable [DecidableEq η] {curVals newVals : State}

theorem mem_deltas : d ∈ writers.deltas curVals newVals ↔ d.entityId ∈ newVals.keys ∧
      deltaOf writers.contentHash d.entityId (curVals.get? d.entityId).join
        (newVals.get? d.entityId).join = some d := by
  rw [deltas, mem_netDelta, Dict.get?_ofKeys]
  by_cases hkey : d.entityId ∈ newVals.keys
  · simp [hkey]
  · simp [hkey, Dict.get?_eq_none_iff.mpr hkey, deltaOf, livePayload]

/-- What a batch leaves of an entity it names, changed or not. -/
theorem deltaAt_commitOf {world : World η ι} (hkey : eid ∈ newVals.keys) :
    (writers.commitOf world w curVals newVals).deltaAt eid =
      deltaOf writers.contentHash eid (curVals.get? eid).join (newVals.get? eid).join := by
  refine ext fun d => ?_
  rw [deltaAt_eq_some]
  constructor
  · rintro ⟨hd, rfl⟩
    exact (writers.mem_deltas.mp hd).2
  · intro hd
    obtain rfl := entityId_deltaOf hd
    exact ⟨writers.mem_deltas.mpr ⟨hkey, hd⟩, rfl⟩

theorem netChange_of_mem (hd : d ∈ writers.deltas curVals newVals) : writers.NetChange d := by
  obtain ⟨hpayload, hhash, -⟩ := deltaOf_eq_some (writers.mem_deltas.mp hd).2
  exact ⟨by rw [hhash, hpayload], by simp [hpayload]⟩

/-- The entities of a batch's changes still have the values the save read. -/
def AtRead (world : World η ι) (curVals : State) (deltas : List (Delta η)) : Prop :=
  ∀ d ∈ deltas, writers.contentHash (writers.current world d.entityId) =
    writers.contentHash (curVals.get? d.entityId).join

end Writers

variable {η : Type}

theorem unmoved_iff [DecidableEq η] {contentHash : Option Payload → η} {branch : BranchKey}
    {heads : Dict (BranchKey × EntityId) (Head η)} {change : HeadChange η} :
    unmoved contentHash branch heads change = true ↔
      ∀ head, heads.get? (branch, change.entityId) = some head →
        head.contentHash = change.preImage ∨
          change.preImage = contentHash none ∧ head.contentHash = contentHash (some []) := by
  rw [unmoved, atPreImage]
  cases heads.get? (branch, change.entityId) <;> simp

theorem forall_headChanges {contentHash : Option Payload → η} {commit : Commit η}
    {P : EntityId → η → Prop} {vid : ℕ} {deltas : List (Delta η)} :
    (∀ change ∈ headChanges contentHash commit vid deltas, P change.entityId change.preImage) ↔
      ∀ d ∈ deltas, P d.entityId (d.prevContentHash.getD (contentHash none)) := by
  induction deltas generalizing vid with
  | nil => simp [headChanges]
  | cons d rest ih => rw [headChanges, forall_mem_cons, forall_mem_cons, ih]

theorem writeDeltas_guarded [DecidableEq η] (contentHash : Option Payload → η)
    (store : VersionStore η) (commit : Commit η) :
    (∃ store', writeDeltas contentHash store commit true = .ok store') ↔
      ∀ change ∈ headChanges contentHash commit store.nextId commit.deltas,
        unmoved contentHash commit.branch store.entityHeads change = true := by
  rw [writeDeltas]
  rcases upsertHeads_guarded contentHash commit.branch store.entityHeads
      (nodup_headChanges contentHash commit store.nextId) with
    ⟨heads, hok, hunmoved, -⟩ | ⟨change, hchange, hmoved, herror⟩
  · simpa [hok] using hunmoved
  · simp only [herror, reduceCtorEq, exists_false, false_iff]
    intro hunmoved
    rw [hunmoved change hchange] at hmoved
    cases hmoved

namespace Writers

variable {η ι : Type} {writers : Writers η ι} [DecidableEq η]

theorem guard_iff (separates : ∀ p q, writers.contentHash p = writers.contentHash q →
      SamePayload p q)
    (hbase : ∀ layer ∈ writers.baseLayers, layer.1 ≠ writers.branch) {world : World η ι}
    (hrun : Run writers.contentHash world.history world.store)
    (hrecorded : ∀ commit ∈ world.history, ∀ d ∈ commit.deltas, writers.NetChange d)
    {before added : List (Commit η)} (heq : world.history = before ++ added)
    (hadded : ∀ commit ∈ added, commit.branch = writers.branch) (eid : EntityId) (seq : ℕ) :
    let read := (readBack before ((writers.branch, seq) :: writers.baseLayers) eid).join
    (∀ head, world.store.entityHeads.get? (writers.branch, eid) = some head →
        head.contentHash = writers.contentHash read ∨
          writers.contentHash read = writers.contentHash none ∧
            head.contentHash = writers.contentHash (some [])) ↔
      writers.contentHash (writers.current world eid) = writers.contentHash read := by
  intro read
  rw [writers.current_eq hrun.records, valueIn]
  have hheads : Option.Rel (HeadHolds world.store)
      (world.store.entityHeads.get? (writers.branch, eid))
      (lastDelta world.history writers.onBranch eid) := hrun.records.heads writers.branch eid
  cases hlast : lastDelta world.history writers.onBranch eid with
  | none =>
    rw [hlast] at hheads
    generalize world.store.entityHeads.get? (writers.branch, eid) = head? at hheads ⊢
    cases hheads
    have hread : read = (readBack world.history writers.baseLayers eid).join := by
      rw [heq] at hlast ⊢
      exact congrArg join (writers.readBack_of_absent hbase hadded hlast seq)
    simp [hread]
  | some d =>
    rw [hlast] at hheads
    obtain ⟨commit, hcommit, -, hdelta⟩ := exists_of_lastDelta hlast
    have hmem := (deltaAt_eq_some.mp hdelta).1
    obtain ⟨hhash, hne⟩ := hrecorded commit hcommit d hmem
    generalize world.store.entityHeads.get? (writers.branch, eid) = head? at hheads ⊢
    cases hheads with
    | @some head _ hholds =>
      have hhead : head.contentHash = writers.contentHash d.value := by
        rw [hholds.contentHash, hhash, value_eq_payload hmem]
      have hnonempty : head.contentHash ≠ writers.contentHash (some []) := by
        intro hempty
        rw [hhead, value_eq_payload hmem] at hempty
        exact hne (separates _ _ hempty).eq_empty
      simp [hhead] at hnonempty ⊢
      simp [hnonempty]

variable (writers) in
/-- A world before any of the saves: reached by commits that `net_delta` made, with
base layers of other branches. -/
structure Start (world : World η ι) : Prop where
  run : Run writers.contentHash world.history world.store
  recorded : ∀ commit ∈ world.history, ∀ d ∈ commit.deltas, writers.NetChange d
  base : ∀ layer ∈ writers.baseLayers, layer.1 ≠ writers.branch
  idle : ∀ w, world.phase w = .idle
  log : world.log = []

variable (writers) in
/-- The values were current after some prefix of the history, and under the lock are
current still. -/
def Reading (history : List (Commit η)) (lock : Option ι) (w : ι) (curVals : State) : Prop :=
  ∃ before added, history = before ++ added ∧
    (∀ commit ∈ added, commit.branch = writers.branch) ∧ writers.ReadFrom w before curVals ∧
    (writers.locking = true → lock = some w ∧ added = [])

variable (writers) in
/-- The invariant: the tables are a run's, the saves in progress hold what they read,
and the log lists the commits since the start, each by the save that is done. -/
structure Inv (start world : World η ι) : Prop where
  run : Run writers.contentHash world.history world.store
  recorded : ∀ commit ∈ world.history, ∀ d ∈ commit.deltas, writers.NetChange d
  reading : ∀ w curVals, (world.phase w).curVals = some curVals →
    writers.Reading world.history world.lock w curVals
  newVals : ∀ w curVals newVals, world.phase w = .computed curVals newVals →
    newVals = writers.newVals w curVals
  commits : ∃ commits, world.history = start.history ++ commits ∧
    (∀ commit ∈ commits, commit.branch = writers.branch) ∧
    commits.map (fun commit => commit.deltas.map Delta.entityId) = world.log.map Prod.snd
  nodup : (world.log.map Prod.fst).Nodup
  done : ∀ w, w ∈ world.log.map Prod.fst ↔ world.phase w = .committed

theorem Start.inv {start : World η ι} (h : writers.Start start) : writers.Inv start start where
  run := h.run
  recorded := h.recorded
  reading w curVals hreading := by
    rw [h.idle w] at hreading
    cases hreading
  newVals w curVals newVals hphase := by
    rw [h.idle w] at hphase
    cases hphase
  commits := ⟨[], by simp, by simp, by simp [h.log]⟩
  nodup := by simp [h.log]
  done w := by simp [h.log, h.idle w]

variable {start world : World η ι}

/-- Under the lock, one save is in progress at a time. -/
theorem Inv.eq_of_reading (h : writers.Inv start world) (hlocking : writers.locking = true)
    {w w' : ι} {curVals curVals' : State} (hw : (world.phase w).curVals = some curVals)
    (hw' : (world.phase w').curVals = some curVals') : w' = w := by
  obtain ⟨_, _, _, _, _, hlock⟩ := h.reading w curVals hw
  obtain ⟨_, _, _, _, _, hlock'⟩ := h.reading w' curVals' hw'
  exact some.inj ((hlock' hlocking).1.symm.trans (hlock hlocking).1)

variable {w : ι}

theorem Inv.run_commit (h : writers.Inv start world) {curVals newVals : State}
    {store : VersionStore η} (hwrite : writeDeltas writers.contentHash world.store
      (writers.commitOf world w curVals newVals) true = .ok store) :
    Run writers.contentHash (world.history ++ [writers.commitOf world w curVals newVals]) store :=
  .commit _ true h.run (fun _ hprior hbranch => Nat.lt_succ_of_le (seq_le_newestSeq hprior hbranch))
    hwrite

/-- A save's write goes through exactly when the entities it writes have the values it
read. -/
theorem Inv.write_iff (separates : ∀ p q, writers.contentHash p = writers.contentHash q →
      SamePayload p q) (hstart : writers.Start start) (h : writers.Inv start world)
    {curVals newVals : State} (hphase : world.phase w = .computed curVals newVals) :
    (∃ store, writeDeltas writers.contentHash world.store
        (writers.commitOf world w curVals newVals) true = .ok store) ↔
      writers.AtRead world curVals (writers.deltas curVals newVals) := by
  obtain ⟨before, added, heq, hadded, hfrom, -⟩ :=
    h.reading w curVals (by simp [hphase, Phase.curVals])
  have hprefix : ∀ commit ∈ before, ∀ d ∈ commit.deltas, writers.NetChange d := fun commit hmem =>
    h.recorded commit (heq ▸ mem_append_left _ hmem)
  rw [writeDeltas_guarded]
  simp only [unmoved_iff]
  refine (forall_headChanges (P := fun eid pre => ∀ head,
    world.store.entityHeads.get? (writers.branch, eid) = some head → head.contentHash = pre ∨
      pre = writers.contentHash none ∧ head.contentHash = writers.contentHash (some []))).trans ?_
  refine forall₂_congr fun d hd => ?_
  have hdelta := writers.mem_deltas.mp hd
  have hids : d.entityId ∈ (writers.batch w).ids := by
    rw [h.newVals w curVals newVals hphase] at hdelta
    exact (writers.mem_keys_newVals.mp hdelta.1).1
  have hread := hfrom.get?_join hids
  rw [(deltaOf_eq_some hdelta.2).2.2, hread,
    livePayload_of_ne (writers.readBack_ne_empty hprefix _ _)]
  exact guard_iff separates hstart.base h.run h.recorded heq hadded d.entityId _

variable [DecidableEq ι]

variable (writers) in
/-- What one step of a writer can do: nothing, when it is done or waits for the
lock, or the step of its phase. -/
inductive Stepped (world : World η ι) (w : ι) : World η ι → Prop
  | none : Stepped world w world
  | read (hphase : world.phase w = .idle) (hfree : writers.locking = true → world.lock = none) :
      Stepped world w { world with
          lock := if writers.locking then some w else none
          phase := Function.update world.phase w (.read (valuesAt world.store
            ((writers.branch, newestSeq world.history writers.branch) :: writers.baseLayers)
            (writers.batch w).ids)) }
  | unchanged (curVals : State) (hphase : world.phase w = .read curVals)
      (hnone : writers.deltas curVals (writers.newVals w curVals) = []) :
      Stepped world w { world with
          lock := none
          phase := Function.update world.phase w .unchanged }
  | computed (curVals : State) (hphase : world.phase w = .read curVals) : Stepped world w
        { world with
          phase := Function.update world.phase w (.computed curVals (writers.newVals w curVals)) }
  | committed (curVals newVals : State) (hphase : world.phase w = .computed curVals newVals)
      (store : VersionStore η)
      (hwrite : writeDeltas writers.contentHash world.store
        (writers.commitOf world w curVals newVals) true = .ok store) :
      Stepped world w
        { history := world.history ++ [writers.commitOf world w curVals newVals]
          store := store
          headCommit := some (writers.commitOf world w curVals newVals).seq
          lock := none
          phase := Function.update world.phase w .committed
          attempts := world.attempts
          log := world.log ++
            [(w, (writers.commitOf world w curVals newVals).deltas.map Delta.entityId)] }
  | stale (curVals newVals : State) (hphase : world.phase w = .computed curVals newVals)
      (stale : StaleHead)
      (hwrite : writeDeltas writers.contentHash world.store
        (writers.commitOf world w curVals newVals) true = .error stale) :
      Stepped world w { world with
          lock := none
          phase := Function.update world.phase w
            (if writers.maxRetries ≤ world.attempts w + 1 then .exhausted else .idle)
          attempts := Function.update world.attempts w (world.attempts w + 1) }

theorem stepped (world : World η ι) (w : ι) : writers.Stepped world w (writers.step world w) := by
  rw [step]
  cases hphase : world.phase w with
  | idle =>
    simp only
    split
    · exact .none
    · rename_i hfree
      refine .read hphase fun hlocking => ?_
      by_contra hheld
      exact hfree ⟨hlocking, hheld⟩
  | read curVals =>
    simp only
    split
    · rename_i hnone
      exact .unchanged curVals hphase hnone
    · exact .computed curVals hphase
  | computed curVals newVals =>
    simp only
    split
    · rename_i store hwrite
      exact .committed curVals newVals hphase store hwrite
    · rename_i stale hwrite
      exact .stale curVals newVals hphase stale hwrite
  | committed => exact .none
  | unchanged => exact .none
  | exhausted => exact .none

/-- A step that changes one writer's phase and appends no commit keeps the invariant. -/
theorem Inv.update (h : writers.Inv start world) {lock : Option ι} {phase : Phase}
    {attempts : ι → ℕ}
    (hother : writers.locking = true → ∀ w', w' ≠ w → (world.phase w').curVals = none)
    (hself : ∀ curVals, phase.curVals = some curVals → writers.Reading world.history lock w curVals)
    (hnew : ∀ curVals newVals, phase = .computed curVals newVals →
      newVals = writers.newVals w curVals)
    (hbefore : world.phase w ≠ .committed) (hafter : phase ≠ .committed) :
    writers.Inv start { world with
        lock := lock
        phase := Function.update world.phase w phase
        attempts := attempts } where
  run := h.run
  recorded := h.recorded
  reading w' curVals hreading := by
    by_cases hw : w' = w
    · subst hw
      exact hself curVals (by simpa using hreading)
    · have hread : (world.phase w').curVals = some curVals := by simpa [hw] using hreading
      obtain ⟨before, added, heq, hadded, hfrom, -⟩ := h.reading w' curVals hread
      refine ⟨before, added, heq, hadded, hfrom, fun hlocking => ?_⟩
      rw [hother hlocking w' hw] at hread
      cases hread
  newVals w' curVals newVals hphase := by
    by_cases hw : w' = w
    · subst hw
      exact hnew curVals newVals (by simpa using hphase)
    · exact h.newVals w' curVals newVals (by simpa [hw] using hphase)
  commits := h.commits
  nodup := h.nodup
  done w' := by
    by_cases hw : w' = w
    · subst hw
      simpa [hafter, hbefore] using h.done w'
    · simpa [hw] using h.done w'

theorem Inv.step {start world world' : World η ι} (h : writers.Inv start world)
    (hstep : writers.Stepped world w world') : writers.Inv start world' := by
  have hother : ∀ curVals, (world.phase w).curVals = some curVals → writers.locking = true →
      ∀ w', w' ≠ w → (world.phase w').curVals = none := by
    intro curVals hcur hlocking w' hne
    by_contra hsome
    obtain ⟨curVals', hcur'⟩ := ne_none_iff_exists'.mp hsome
    exact hne (h.eq_of_reading hlocking hcur hcur')
  cases hstep with
  | none => exact h
  | read hphase hfree =>
    refine h.update (fun hlocking w' _ => ?_) (fun curVals hcur => ?_)
      (by simp) (by simp [hphase]) (by simp)
    · by_contra hsome
      obtain ⟨curVals', hcur'⟩ := ne_none_iff_exists'.mp hsome
      obtain ⟨_, _, _, _, _, hlock⟩ := h.reading w' curVals' hcur'
      have hheld := (hlock hlocking).1
      rw [hfree hlocking] at hheld
      cases hheld
    · obtain rfl := some.inj hcur
      refine ⟨world.history, [], by simp, by simp, fun eid => ?_, fun hlocking => ?_⟩
      · rw [get?_valuesAt h.run.records]
      · simp [hlocking]
  | unchanged curVals hphase hnone =>
    exact h.update (hother curVals (by simp [hphase, Phase.curVals]))
      (by simp [Phase.curVals]) (by simp) (by simp [hphase]) (by simp)
  | computed curVals hphase =>
    have hcur : (world.phase w).curVals = some curVals := by simp [hphase, Phase.curVals]
    refine h.update (hother curVals hcur) (fun curVals' hcur' => ?_) ?_ (by simp [hphase]) (by simp)
    · obtain rfl := some.inj hcur'
      exact h.reading w curVals hcur
    · rintro curVals' newVals' ⟨⟩
      rfl
  | committed curVals newVals hphase store hwrite =>
    have hcur : (world.phase w).curVals = some curVals := by simp [hphase, Phase.curVals]
    have hfresh : w ∉ world.log.map Prod.fst := by simp [h.done w, hphase]
    refine ⟨h.run_commit hwrite, ?_, ?_, ?_, ?_, ?_, ?_⟩
    · intro commit hcommit d hd
      rcases mem_append.mp hcommit with hold | hnew
      · exact h.recorded commit hold d hd
      · obtain rfl := mem_singleton.mp hnew
        exact writers.netChange_of_mem hd
    · intro w' curVals' hreading
      have hne : w' ≠ w := by
        rintro rfl
        simp [Phase.curVals] at hreading
      have hread : (world.phase w').curVals = some curVals' := by simpa [hne] using hreading
      obtain ⟨before, added, heq, hadded, hfrom, -⟩ := h.reading w' curVals' hread
      refine ⟨before, added ++ [writers.commitOf world w curVals newVals], by simp [heq], ?_,
        hfrom, fun hlocking => ?_⟩
      · intro commit hcommit
        rcases mem_append.mp hcommit with hold | hnew
        · exact hadded commit hold
        · obtain rfl := mem_singleton.mp hnew
          rfl
      · rw [hother curVals hcur hlocking w' hne] at hread
        cases hread
    · intro w' curVals' newVals' hphase'
      have hne : w' ≠ w := by
        rintro rfl
        simp at hphase'
      exact h.newVals w' curVals' newVals' (by simpa [hne] using hphase')
    · obtain ⟨commits, heq, hbranch, hlog⟩ := h.commits
      refine ⟨commits ++ [writers.commitOf world w curVals newVals], by simp [heq], ?_,
        by simp [hlog]⟩
      intro commit hcommit
      rcases mem_append.mp hcommit with hold | hnew
      · exact hbranch commit hold
      · obtain rfl := mem_singleton.mp hnew
        rfl
    · rw [map_append]
      exact nodup_append_comm.mp (nodup_cons.mpr ⟨hfresh, h.nodup⟩)
    · intro w'
      by_cases hw : w' = w
      · simp [hw]
      · simpa [hw] using h.done w'
  | stale curVals newVals hphase stale hwrite =>
    refine h.update (hother curVals (by simp [hphase, Phase.curVals])) ?_ ?_ (by simp [hphase]) ?_
    all_goals split <;> simp [Phase.curVals]

theorem Start.inv_run {start : World η ι} (h : writers.Start start) (schedule : List ι) :
    writers.Inv start (writers.run start schedule) := by
  induction schedule using reverseRecOn with
  | nil => exact h.inv
  | append_singleton schedule w ih =>
    rw [Writers.run, foldl_append]
    exact ih.step (writers.stepped _ w)

end Writers

/-- The new values of a batch, of the entities it names and from their values alone. -/
def Batch.outcome (batch : Batch) (values : EntityId → Option Payload) (eid : EntityId) :
    Option (Option Payload) :=
  if eid ∈ batch.ids then
    batch.compute (fun eid => if eid ∈ batch.ids then values eid else none) eid
  else none

/-- The values a batch leaves when nothing comes between. -/
def Batch.apply (batch : Batch) (values : EntityId → Option Payload) (eid : EntityId) :
    Option Payload :=
  match batch.outcome values eid with
  | some value => livePayload value
  | none => values eid

def Batch.applyTo (batch : Batch) (written : List EntityId) (values : EntityId → Option Payload)
    (eid : EntityId) : Option Payload :=
  if eid ∈ written then batch.apply values eid else values eid

def Batch.Respects (batch : Batch) : Prop :=
  ∀ values values', (∀ eid, SamePayload (values eid) (values' eid)) →
    ∀ eid, Option.Rel SamePayload (batch.compute values eid) (batch.compute values' eid)

/-- A batch computes each entity's new value from that entity's value. -/
def Batch.Local (batch : Batch) : Prop :=
  ∀ values values' eid, SamePayload (values eid) (values' eid) →
    Option.Rel SamePayload (batch.compute values eid) (batch.compute values' eid)

namespace Writers

variable {η ι : Type} {writers : Writers η ι} [DecidableEq η]

theorem valueIn_commitOf (hbase : ∀ layer ∈ writers.baseLayers, layer.1 ≠ writers.branch)
    (world : World η ι) (w : ι) (curVals : State) (eid : EntityId) :
    let commit := writers.commitOf world w curVals (writers.newVals w curVals)
    let computed := if eid ∈ (writers.batch w).ids then
      (writers.batch w).compute (fun eid => (curVals.get? eid).join) eid else none
    (∃ value, computed = some value ∧ eid ∈ commit.deltas.map Delta.entityId ∧
        writers.valueIn (world.history ++ [commit]) eid = livePayload value) ∨
      (∃ value, computed = some value ∧ eid ∉ commit.deltas.map Delta.entityId ∧
        writers.contentHash (livePayload (curVals.get? eid).join) =
          writers.contentHash (livePayload value) ∧
        writers.valueIn (world.history ++ [commit]) eid = writers.valueIn world.history eid) ∨
      computed = none ∧ eid ∉ commit.deltas.map Delta.entityId ∧
        writers.valueIn (world.history ++ [commit]) eid = writers.valueIn world.history eid := by
  intro commit computed
  have hget : (writers.newVals w curVals).get? eid = computed := by
    simp [Writers.newVals, Dict.get?_ofKeys, computed]
  have hvalue : writers.valueIn (world.history ++ [commit]) eid = match commit.deltaAt eid with
      | some d => d.value
      | none => writers.valueIn world.history eid :=
    writers.valueIn_concat hbase world.history rfl eid
  have hmem : eid ∈ commit.deltas.map Delta.entityId ↔ commit.deltaAt eid ≠ none := by
    rw [ne_none_iff_exists']
    simp [deltaAt_eq_some]
  cases hcomputed : computed with
  | none =>
    have hnone : commit.deltaAt eid = none := by
      refine eq_none_iff_forall_ne_some.mpr fun d hd => ?_
      obtain ⟨hdelta, rfl⟩ := deltaAt_eq_some.mp hd
      exact Dict.get?_eq_none_iff.mp (hget.trans hcomputed) (writers.mem_deltas.mp hdelta).1
    rw [hnone] at hvalue
    exact .inr (.inr ⟨rfl, by simp [hmem, hnone], hvalue⟩)
  | some value =>
    have hkey : eid ∈ (writers.newVals w curVals).keys := by
      by_contra hkey
      rw [Dict.get?_eq_none_iff.mpr hkey, hcomputed] at hget
      cases hget
    have hdelta : commit.deltaAt eid = deltaOf writers.contentHash eid
        (curVals.get? eid).join value := by
      rw [writers.deltaAt_commitOf hkey, hget, hcomputed]
      rfl
    cases hd : deltaOf writers.contentHash eid (curVals.get? eid).join value with
    | none =>
      rw [hd] at hdelta
      rw [hdelta] at hvalue
      exact .inr (.inl ⟨value, rfl, by simp [hmem, hdelta], deltaOf_eq_none hd, hvalue⟩)
    | some d =>
      rw [hd] at hdelta
      rw [hdelta] at hvalue
      refine .inl ⟨value, rfl, by simp [hmem, hdelta], hvalue.trans ?_⟩
      show d.value = livePayload value
      rw [value_eq_payload (deltaAt_eq_some.mp hdelta).1, (deltaOf_eq_some hd).1]

variable {values : EntityId → Option Payload}

theorem apply_of_some {batch : Batch} {eid : EntityId} {value : Option Payload}
    (h : Option.Rel SamePayload (some value) (batch.outcome values eid)) :
    SamePayload (livePayload value) (batch.apply values eid) := by
  rw [Batch.apply]
  generalize batch.outcome values eid = outcome at h ⊢
  cases h with
  | some hvalue => exact hvalue.livePayload

theorem apply_of_none {batch : Batch} {eid : EntityId}
    (h : Option.Rel SamePayload none (batch.outcome values eid)) :
    batch.apply values eid = values eid := by
  rw [Batch.apply]
  generalize batch.outcome values eid = outcome at h ⊢
  cases h
  rfl

/-- A write through the guard leaves what recomputing the written entities from the
current values would. -/
theorem commitOf_local (separates : ∀ p q, writers.contentHash p = writers.contentHash q →
      SamePayload p q)
    (hbase : ∀ layer ∈ writers.baseLayers, layer.1 ≠ writers.branch) {world : World η ι}
    (hrecords : Records world.history world.store) {w : ι} (hlocal : (writers.batch w).Local)
    {curVals : State}
    (hread : writers.AtRead world curVals (writers.deltas curVals (writers.newVals w curVals)))
    (hvalues : ∀ eid, SamePayload (writers.valueIn world.history eid) (values eid))
    (eid : EntityId) :
    let commit := writers.commitOf world w curVals (writers.newVals w curVals)
    SamePayload (writers.valueIn (world.history ++ [commit]) eid)
      ((writers.batch w).applyTo (commit.deltas.map Delta.entityId) values eid) := by
  intro commit
  rw [Batch.applyTo]
  rcases valueIn_commitOf hbase world w curVals eid with
    ⟨value, hcomputed, hwritten, hleft⟩ | ⟨value, -, hwritten, -, hleft⟩ | ⟨-, hwritten, hleft⟩
  · obtain ⟨hids, hcompute⟩ := ite_none_right_eq_some.mp hcomputed
    obtain ⟨d, hd, rfl⟩ := mem_map.mp hwritten
    have hcurrent : SamePayload (curVals.get? d.entityId).join (values d.entityId) := by
      have hsame := separates _ _ (hread d hd)
      rw [writers.current_eq hrecords] at hsame
      exact hsame.symm.trans (hvalues d.entityId)
    have hrel := hlocal (fun eid => (curVals.get? eid).join)
      (fun eid => if eid ∈ (writers.batch w).ids then values eid else none) d.entityId
      (by simpa [hids] using hcurrent)
    rw [hcompute] at hrel
    rw [hleft, if_pos hwritten]
    refine apply_of_some ?_
    rw [Batch.outcome, if_pos hids]
    exact hrel
  · rw [hleft, if_neg hwritten]
    exact hvalues eid
  · rw [hleft, if_neg hwritten]
    exact hvalues eid

/-- A write of what was computed from the current values leaves what the whole batch
would. -/
theorem commitOf_serial (separates : ∀ p q, writers.contentHash p = writers.contentHash q →
      SamePayload p q)
    (hbase : ∀ layer ∈ writers.baseLayers, layer.1 ≠ writers.branch) {world : World η ι} {w : ι}
    (hrespects : (writers.batch w).Respects) {curVals : State}
    (hread : ∀ eid ∈ (writers.batch w).ids,
      (curVals.get? eid).join = writers.valueIn world.history eid)
    (hnone : ∀ eid ∉ (writers.batch w).ids, curVals.get? eid = none)
    (hnonempty : ∀ eid, (curVals.get? eid).join ≠ some [])
    (hvalues : ∀ eid, SamePayload (writers.valueIn world.history eid) (values eid))
    (eid : EntityId) :
    SamePayload (writers.valueIn (world.history ++
        [writers.commitOf world w curVals (writers.newVals w curVals)]) eid)
      ((writers.batch w).apply values eid) := by
  have hrel : Option.Rel SamePayload (if eid ∈ (writers.batch w).ids then
        (writers.batch w).compute (fun eid => (curVals.get? eid).join) eid else none)
      ((writers.batch w).outcome values eid) := by
    rw [Batch.outcome]
    split
    · refine hrespects _ _ (fun other => ?_) eid
      by_cases hother : other ∈ (writers.batch w).ids
      · rw [if_pos hother, hread other hother]
        exact hvalues other
      · rw [if_neg hother, hnone other hother]
        rfl
    · exact .none
  rcases valueIn_commitOf hbase world w curVals eid with
    ⟨value, hcomputed, -, hleft⟩ | ⟨value, hcomputed, -, hsame, hleft⟩ | ⟨hcomputed, -, hleft⟩
  · rw [hcomputed] at hrel
    rw [hleft]
    exact apply_of_some hrel
  · have hids := (ite_none_right_eq_some.mp hcomputed).1
    rw [hcomputed] at hrel
    rw [livePayload_of_ne (hnonempty eid), hread eid hids] at hsame
    rw [hleft]
    exact (separates _ _ hsame).trans (apply_of_some hrel)
  · rw [hcomputed] at hrel
    rw [hleft, apply_of_none hrel]
    exact hvalues eid

section

variable [DecidableEq ι]

theorem run_concat (start : World η ι) (schedule : List ι) (w : ι) :
    writers.run start (schedule ++ [w]) = writers.step (writers.run start schedule) w := by
  rw [Writers.run, foldl_append]
  rfl

variable (writers) in
/-- The values the committed saves leave, each recomputing what it wrote from the
values before it. -/
def serialWrites (log : List (ι × List EntityId)) (values : EntityId → Option Payload) :
    EntityId → Option Payload :=
  log.foldl (fun values entry => (writers.batch entry.1).applyTo entry.2 values) values

variable (writers) in
/-- The values the committed saves leave, one whole batch after the other. -/
def serial (log : List (ι × List EntityId)) (values : EntityId → Option Payload) :
    EntityId → Option Payload :=
  log.foldl (fun values entry => (writers.batch entry.1).apply values) values

theorem serialWrites_run (separates : ∀ p q, writers.contentHash p = writers.contentHash q →
      SamePayload p q) (hlocal : ∀ w, (writers.batch w).Local) {start : World η ι}
    (hstart : writers.Start start) (schedule : List ι) (eid : EntityId) :
    SamePayload (writers.valueIn (writers.run start schedule).history eid)
      (writers.serialWrites (writers.run start schedule).log
        (writers.valueIn start.history) eid) := by
  induction schedule using reverseRecOn generalizing eid with
  | nil =>
    rw [Writers.run, foldl_nil, hstart.log]
    rfl
  | append_singleton schedule w ih =>
    have hinv := hstart.inv_run schedule
    have hstep := writers.stepped (writers.run start schedule) w
    rw [run_concat]
    generalize writers.run start schedule = world at hstep hinv ih ⊢
    generalize writers.step world w = next at hstep ⊢
    cases hstep with
    | committed curVals newVals hphase store hwrite =>
      have hread := (hinv.write_iff separates hstart hphase).mp ⟨store, hwrite⟩
      obtain rfl := hinv.newVals w curVals newVals hphase
      rw [serialWrites, foldl_append, foldl_cons, foldl_nil]
      exact commitOf_local separates hstart.base hinv.run.records (hlocal w) hread ih eid
    | _ => exact ih eid

theorem serial_run (separates : ∀ p q, writers.contentHash p = writers.contentHash q →
      SamePayload p q) (hrespects : ∀ w, (writers.batch w).Respects)
    (hlocking : writers.locking = true) {start : World η ι} (hstart : writers.Start start)
    (schedule : List ι) (hsettled : NodesSettled (writers.run start schedule).history)
    (eid : EntityId) :
    SamePayload (writers.valueIn (writers.run start schedule).history eid)
      (writers.serial (writers.run start schedule).log (writers.valueIn start.history) eid) := by
  induction schedule using reverseRecOn generalizing eid with
  | nil =>
    rw [Writers.run, foldl_nil, hstart.log]
    rfl
  | append_singleton schedule w ih =>
    have hinv := hstart.inv_run schedule
    have hstep := writers.stepped (writers.run start schedule) w
    rw [run_concat] at hsettled ⊢
    generalize writers.run start schedule = world at hstep hinv hsettled ih ⊢
    generalize writers.step world w = next at hstep hsettled ⊢
    cases hstep with
    | committed curVals newVals hphase store hwrite =>
      have hbefore : NodesSettled world.history := hsettled.of_append
      obtain rfl := hinv.newVals w curVals newVals hphase
      obtain ⟨before, added, heq, -, hfrom, hlock⟩ :=
        hinv.reading w curVals (by simp [hphase, Phase.curVals])
      obtain rfl := (hlock hlocking).2
      rw [append_nil] at heq
      subst heq
      rw [serial, foldl_append]
      refine commitOf_serial separates hstart.base (hrespects w)
        (fun eid heid => hfrom.eq_valueIn hinv.run.pairwise hbefore heid)
        (fun eid heid => (hfrom eid).trans (if_neg heid)) (fun eid => ?_) (ih hbefore) eid
      rw [hfrom eid]
      split
      · exact writers.readBack_ne_empty hinv.recorded _ eid
      · simp
    | _ => exact ih hsettled eid

variable (writers) in
structure NoLostUpdate (start world : World η ι) : Prop where
  write : ∀ w curVals newVals, world.phase w = .computed curVals newVals →
    let commit := writers.commitOf world w curVals newVals
    let next := writers.step world w
    newVals = writers.newVals w curVals ∧
      (writers.AtRead world curVals commit.deltas ∧ next.phase w = .committed ∧
          next.history = world.history ++ [commit] ∧ next.headCommit = some commit.seq ∨
        ¬ writers.AtRead world curVals commit.deltas ∧ next.store = world.store ∧
          next.history = world.history ∧ next.headCommit = world.headCommit ∧
          next.log = world.log ∧
          next.phase w = if writers.maxRetries ≤ world.attempts w + 1 then .exhausted else .idle)
  reread : ∀ w, world.phase w = .idle → (writers.locking = true → world.lock = none) →
    ∃ curVals, (writers.step world w).phase w = .read curVals ∧ (NodesSettled world.history →
        ∀ eid ∈ (writers.batch w).ids, (curVals.get? eid).join = writers.current world eid)
  serialWrites : (∀ w, (writers.batch w).Local) → ∀ eid, SamePayload (writers.current world eid)
      (writers.serialWrites world.log (writers.current start) eid)
  serial : writers.locking = true → (∀ w, (writers.batch w).Respects) →
    NodesSettled world.history → ∀ eid, SamePayload (writers.current world eid)
        (writers.serial world.log (writers.current start) eid)
  commits : ∃ commits, world.history = start.history ++ commits ∧
    (∀ commit ∈ commits, commit.branch = writers.branch) ∧
    commits.map (fun commit => commit.deltas.map Delta.entityId) = world.log.map Prod.snd
  once : (world.log.map Prod.fst).Nodup ∧
    ∀ w, w ∈ world.log.map Prod.fst ↔ world.phase w = .committed

/-- No schedule of the saves' steps loses an update. -/
theorem no_lost_update (writers : Writers η ι)
    (separates : ∀ p q, writers.contentHash p = writers.contentHash q → SamePayload p q)
    (start : World η ι) (hstart : writers.Start start) (schedule : List ι) :
    writers.NoLostUpdate start (writers.run start schedule) := by
  have hinv := hstart.inv_run schedule
  have hcurrent : ∀ eid, writers.current (writers.run start schedule) eid =
      writers.valueIn (writers.run start schedule).history eid :=
    writers.current_eq hinv.run.records
  have hstartCurrent : writers.current start = writers.valueIn start.history :=
    funext (writers.current_eq hstart.run.records)
  refine
    { write := fun w curVals newVals hphase => ?_
      reread := fun w hphase hfree => ?_
      serialWrites := fun hlocal eid => ?_
      serial := fun hlocking hrespects hsettled eid => ?_
      commits := hinv.commits
      once := ⟨hinv.nodup, hinv.done⟩ }
  · refine ⟨hinv.newVals w curVals newVals hphase, ?_⟩
    have hwrite := hinv.write_iff separates hstart hphase
    generalize writers.run start schedule = world at hphase hwrite ⊢
    have hstep : writers.step world w = _ := Writers.step.eq_def writers world w
    rw [hphase] at hstep
    cases hresult : writeDeltas writers.contentHash world.store
        (writers.commitOf world w curVals newVals) true with
    | ok store =>
      refine .inl ⟨hwrite.mp ⟨store, hresult⟩, ?_⟩
      simp only [hresult] at hstep
      rw [hstep]
      simp
    | error stale =>
      refine .inr ⟨fun hread => ?_, ?_⟩
      · obtain ⟨store, hok⟩ := hwrite.mpr hread
        rw [hresult] at hok
        cases hok
      · simp only [hresult] at hstep
        rw [hstep]
        simp
  · generalize writers.run start schedule = world at hphase hfree hinv hcurrent ⊢
    refine ⟨valuesAt world.store
      ((writers.branch, newestSeq world.history writers.branch) :: writers.baseLayers)
      (writers.batch w).ids, ?_, fun hsettled eid heid => ?_⟩
    · have hgo : ¬ (writers.locking = true ∧ world.lock ≠ none) := fun hheld =>
        hheld.2 (hfree hheld.1)
      rw [step, hphase]
      simp only [if_neg hgo]
      simp
    · have hfrom : writers.ReadFrom w world.history (valuesAt world.store
          ((writers.branch, newestSeq world.history writers.branch) :: writers.baseLayers)
          (writers.batch w).ids) := fun eid => get?_valuesAt hinv.run.records _ _ eid
      rw [hcurrent, hfrom.eq_valueIn hinv.run.pairwise hsettled heid]
  · rw [hcurrent, hstartCurrent]
    exact serialWrites_run separates hlocal hstart schedule eid
  · rw [hcurrent, hstartCurrent]
    exact serial_run separates hrespects hlocking hstart schedule hsettled eid

end

/-- Two saves that each set a field of one entity, without the lock. -/
def racing : Writers (Option Payload) Bool where
  contentHash := id
  branch := ("g", "main")
  baseLayers := []
  batch w :=
    { ids := ["x"]
      compute := fun values eid =>
        if eid = "x" then
          some (some (((values "x").getD []).set (if w then "b" else "a") (.bool true)))
        else none
      kindByEntity := [] }
  locking := false
  maxRetries := 3

def untouched {ι : Type} : World (Option Payload) ι where
  history := []
  store := VersionStore.empty
  headCommit := none
  lock := none
  phase _ := .idle
  attempts _ := 0
  log := []

/-- Both read the entity as absent; the second to write starts over, and both fields
are there. -/
theorem no_lost_update_racing :
    let world := racing.run untouched [false, true, false, true, false, true, true, true, true]
    racing.NoLostUpdate untouched world ∧ world.attempts true = 1 ∧
      world.log = [(false, ["x"]), (true, ["x"])] ∧
      racing.current world "x" = some [("a", .bool true), ("b", .bool true)] :=
  ⟨no_lost_update racing (fun p q h => by cases (h : p = q); rfl) untouched
      ⟨.start, by simp [untouched], by simp [racing], fun _ => rfl, rfl⟩ _,
    by decide +kernel, by decide +kernel, by decide +kernel⟩

/-- The state is what the committed batches leave in some order, whole and one after the
other. -/
def Serializable (writers : Writers η ι) (start world : World η ι) : Prop :=
  ∃ order, order.Perm world.log ∧ ∀ eid,
    SamePayload (writers.current world eid) (writers.serial order (writers.current start) eid)

/-- Two saves without the lock. Each writes one of two entities, after what it read of the
other, which it says again. -/
def skewed : Writers (Option Payload) Bool where
  contentHash := id
  branch := ("g", "main")
  baseLayers := []
  batch w :=
    { ids := ["x", "y"]
      compute := fun values eid =>
        let (own, other) := if w then ("y", "x") else ("x", "y")
        if eid = own then
          some (some [(if values other = none then "a" else "b", .bool true)])
        else some (values eid)
      kindByEntity := [] }
  locking := false
  maxRetries := 3

/-- Three saves under the lock. The second records as a node what the first recorded as an
edge, and a second entity; the third writes what it reads of both. -/
def relabelled : Writers (Option Payload) (Fin 3) where
  contentHash := id
  branch := ("g", "main")
  baseLayers := []
  batch
    | 0 =>
      { ids := ["y"]
        compute := fun _ _ => some (some [("a", .bool true)])
        kindByEntity := [("y", .edge)] }
    | 1 =>
      { ids := ["y", "z"]
        compute := fun _ eid => some (some [(if eid = "y" then "b" else "c", .bool true)])
        kindByEntity := [("y", .node), ("z", .node)] }
    | 2 =>
      { ids := ["x", "y", "z"]
        compute := fun values eid =>
          if eid = "x" then some (some ((values "y").getD [] ++ (values "z").getD [])) else none
        kindByEntity := [("x", .node)] }
  locking := true
  maxRetries := 3

/-- With the guard alone, both saves commit and neither comes first. Under the lock, the
third save reads the edge's value of the relabelled entity beside the newest of the other. -/
theorem not_serializable : (skewed.Start untouched ∧
      ¬ skewed.Serializable untouched
        (skewed.run untouched [false, true, false, true, false, true])) ∧
    relabelled.Start untouched ∧
      ¬ relabelled.Serializable untouched
        (relabelled.run untouched [0, 0, 0, 1, 1, 1, 2, 2, 2]) := by
  refine ⟨⟨⟨.start, by simp [untouched], by simp [skewed], fun _ => rfl, rfl⟩, ?_⟩,
    ⟨.start, by simp [untouched], by simp [relabelled], fun _ => rfl, rfl⟩, ?_⟩
  · rintro ⟨order, perm, same⟩
    have all : ∀ order ∈ [(false, ["x"]), (true, ["y"])].permutations',
        ¬ ∀ eid ∈ ["x", "y"], SamePayload
          (skewed.current (skewed.run untouched [false, true, false, true, false, true]) eid)
          (skewed.serial order (skewed.current untouched) eid) := by decide +kernel
    exact all order (mem_permutations'.mpr perm) fun eid _ => same eid
  · rintro ⟨order, perm, same⟩
    have all : ∀ order ∈ [((0 : Fin 3), ["y"]), (1, ["y", "z"]), (2, ["x"])].permutations',
        ¬ ∀ eid ∈ ["x", "y"], SamePayload
          (relabelled.current (relabelled.run untouched [0, 0, 0, 1, 1, 1, 2, 2, 2]) eid)
          (relabelled.serial order (relabelled.current untouched) eid) := by decide +kernel
    exact all order (mem_permutations'.mpr perm) fun eid _ => same eid

end Writers

end DataViz.Versioning
