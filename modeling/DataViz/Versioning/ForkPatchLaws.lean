/-
# What a fork's patch set says

Built from scratch, a patch set has one entry for each entity on which the fork's layers and the
root differ, so laying it over the root gives the fork. An extension classifies again the entities
the root changed and keeps the other entries, with the urns of edge ends as the root named them
before.

The reads rest on entities that keep their kind, and the classification on a content hash without
collisions.
-/

import DataViz.Versioning.ForkPatch
import DataViz.Versioning.RestoreLaws

namespace DataViz.Versioning

open List Option Dict

variable {patch : PatchSet} {η : Type} {eid : EntityId}

def PatchEntry.serves : PatchEntry → Bool
  | nodesUpsert _ | nodesModified _ | edgesUpsert _ => true
  | nodesRemove _ | edgesRemove _ => false

namespace PatchSet

theorem mem_entries_add {out : PatchSet} {entry x : PatchEntry} :
    x ∈ (out.add entry).entries ↔ x ∈ out.entries ∨ x = entry := by
  cases entry <;> simp only [add, entries, map_append, mem_append, map_cons,
    map_nil, mem_singleton] <;> tauto

theorem mem_nodesNew_add {out : PatchSet} {entry : PatchEntry} {urn : String} :
    urn ∈ (out.add entry).nodesNew ↔
      urn ∈ out.nodesNew ∨ ∃ n, entry = .nodesUpsert n ∧ n.urn = urn := by
  cases entry <;> simp [add, eq_comm]

def SameEntries (p q : PatchSet) : Prop :=
  (∀ x, x ∈ p.entries ↔ x ∈ q.entries) ∧ ∀ urn, urn ∈ p.nodesNew ↔ urn ∈ q.nodesNew

theorem SameEntries.of_eq {p q : PatchSet} (h : p = q) : p.SameEntries q := by
  subst h
  exact ⟨fun _ => Iff.rfl, fun _ => Iff.rfl⟩

theorem mem_entries_iff {x : PatchEntry} : x ∈ patch.entries ↔ match x with
      | .nodesUpsert n => n ∈ patch.nodesUpsert
      | .nodesModified n => n ∈ patch.nodesModified
      | .nodesRemove n => n ∈ patch.nodesRemove
      | .edgesUpsert e => e ∈ patch.edgesUpsert
      | .edgesRemove e => e ∈ patch.edgesRemove := by
  cases x <;> simp [entries]

theorem mem_served {eid : EntityId} :
    eid ∈ patch.served ↔ ∃ x ∈ patch.entries, x.key = eid ∧ x.serves = true := by
  simp only [served, mem_append, List.mem_map]
  constructor
  · rintro ((⟨n, hn, rfl⟩ | ⟨n, hn, rfl⟩) | ⟨e, he, rfl⟩)
    · exact ⟨.nodesUpsert n, mem_entries_iff.mpr hn, rfl, rfl⟩
    · exact ⟨.nodesModified n, mem_entries_iff.mpr hn, rfl, rfl⟩
    · exact ⟨.edgesUpsert e, mem_entries_iff.mpr he, rfl, rfl⟩
  · rintro ⟨x, hx, rfl, hserves⟩
    rw [mem_entries_iff] at hx
    cases x with
    | nodesUpsert n => exact .inl (.inl ⟨n, hx, rfl⟩)
    | nodesModified n => exact .inl (.inr ⟨n, hx, rfl⟩)
    | edgesUpsert e => exact .inr ⟨e, hx, rfl⟩
    | nodesRemove | edgesRemove => cases hserves

theorem mem_removed {eid : EntityId} :
    eid ∈ patch.removed ↔ ∃ x ∈ patch.entries, x.key = eid ∧ x.serves = false := by
  simp only [removed, mem_append, List.mem_map]
  constructor
  · rintro (⟨n, hn, rfl⟩ | ⟨e, he, rfl⟩)
    · exact ⟨.nodesRemove n, mem_entries_iff.mpr hn, rfl, rfl⟩
    · exact ⟨.edgesRemove e, mem_entries_iff.mpr he, rfl, rfl⟩
  · rintro ⟨x, hx, rfl, hserves⟩
    rw [mem_entries_iff] at hx
    cases x with
    | nodesRemove n => exact .inl ⟨n, hx, rfl⟩
    | edgesRemove e => exact .inr ⟨e, hx, rfl⟩
    | nodesUpsert | nodesModified | edgesUpsert => cases hserves

end PatchSet

theorem mem_entries_extendedPatch {prev window : PatchSet} {ids : List EntityId} {x : PatchEntry} :
    x ∈ (extendedPatch prev window ids).entries ↔
      (x ∈ prev.entries ∧ x.key ∉ ids) ∨ x ∈ window.entries := by
  simp only [PatchSet.mem_entries_iff]
  cases x <;> simp [extendedPatch, PatchEntry.key]

theorem mem_nodesNew_extendedPatch {prev window : PatchSet} {ids : List EntityId} {urn : String} :
    urn ∈ (extendedPatch prev window ids).nodesNew ↔
      (urn ∈ prev.nodesNew ∧ ∀ n, .nodesUpsert n ∈ prev.entries → n.entityId ∈ ids → n.urn ≠ urn) ∨
        urn ∈ window.nodesNew := by
  simp [extendedPatch, PatchSet.mem_entries_iff]

section

variable [DecidableEq η] {ourUrns theirUrns : Dict EntityId String}

theorem key_classified {eid : EntityId} {f r : Option (Stored η)} {x : PatchEntry}
    (h : classified ourUrns theirUrns eid f r = some x) : x.key = eid := by
  unfold classified at h
  split at h
  · cases h
  · obtain rfl := some.inj h
    split <;> rfl
  · obtain rfl := some.inj h
    split <;> rfl
  · obtain ⟨-, h⟩ := ite_none_left_eq_some.mp h
    obtain rfl := some.inj h
    split <;> rfl

theorem mem_entries_forkPatch {ids : List EntityId} {ours theirs : Dict EntityId (Stored η)}
    {x : PatchEntry} :
    x ∈ (forkPatch ourUrns theirUrns ids ours theirs).entries ↔
      ∃ eid ∈ ids, classified ourUrns theirUrns eid (ours.get? eid) (theirs.get? eid) = some x := by
  rw [forkPatch]
  induction ids using reverseRecOn with
  | nil => simp [PatchSet.empty, PatchSet.entries]
  | append_singleton ids eid ih =>
    cases hentry : classified ourUrns theirUrns eid (ours.get? eid) (theirs.get? eid) with
    | none => simp [ih, or_and_right, exists_or, hentry]
    | some entry =>
      simp [PatchSet.mem_entries_add, ih, or_and_right, exists_or, hentry, eq_comm]

theorem mem_nodesNew_forkPatch {ids : List EntityId} {ours theirs : Dict EntityId (Stored η)}
    {urn : String} :
    urn ∈ (forkPatch ourUrns theirUrns ids ours theirs).nodesNew ↔
      ∃ n, .nodesUpsert n ∈ (forkPatch ourUrns theirUrns ids ours theirs).entries ∧
        n.urn = urn := by
  rw [forkPatch]
  induction ids using reverseRecOn with
  | nil => simp [PatchSet.empty, PatchSet.entries]
  | append_singleton ids eid ih =>
    rw [foldl_append, foldl_cons, foldl_nil]
    cases classified ourUrns theirUrns eid (ours.get? eid) (theirs.get? eid) with
    | none => exact ih
    | some entry =>
      simp only [PatchSet.mem_nodesNew_add, PatchSet.mem_entries_add, ih, or_and_right, exists_or]
      exact or_congr_right (exists_congr fun n => and_congr_left fun _ => eq_comm)

end

section

variable {kinds : EntityId → Kind} {history : List (Commit η)} {store : VersionStore η}

def KeepsKinds (kinds : EntityId → Kind) (history : List (Commit η)) : Prop :=
  ∀ commit ∈ history, ∀ d ∈ commit.deltas, commit.kindOf d.entityId = kinds d.entityId

def Hashed (contentHash : Option Payload → η) (history : List (Commit η)) : Prop :=
  ∀ commit ∈ history, ∀ d ∈ commit.deltas, d.contentHash = contentHash d.payload

theorem KeepsKinds.settled (h : KeepsKinds kinds history) : NodesSettled history := by
  apply nodesSettled_of_kinds
  intro commit hcommit d hd hkind prior hprior _ e he heid
  rw [← heid, h prior hprior e he, heid, ← h commit hcommit d hd, hkind]

theorem lastDelta_congr_at {select select' : Commit η → Bool}
    (h : ∀ commit ∈ history, ∀ d ∈ commit.deltas, d.entityId = eid →
      select commit = select' commit) :
    lastDelta history select eid = lastDelta history select' eid := by
  rw [lastDelta]
  congr 1
  apply filterMap_congr
  intro commit hcommit
  cases hd : commit.deltaAt eid with
  | none => simp
  | some d =>
    obtain ⟨hmem, heid⟩ := deltaAt_eq_some.mp hd
    rw [h commit hcommit d hmem heid]

theorem lastDelta_none_mono {select select' : Commit η → Bool}
    (h : ∀ commit, select' commit = true → select commit = true)
    (hnone : lastDelta history select eid = none) : lastDelta history select' eid = none := by
  rw [lastDelta, getLast?_eq_none_iff, filterMap_eq_nil_iff] at hnone ⊢
  intro commit hcommit
  have hskip := hnone commit hcommit
  cases hselect : select' commit with
  | false => rfl
  | true => rwa [h commit hselect] at hskip

theorem KeepsKinds.lastDelta_recorded (h : KeepsKinds kinds history) (kind : Kind)
    (branch : BranchKey) (seq : ℕ) (eid : EntityId) :
    lastDelta history (recordedUpTo kind eid branch seq) eid =
      if kinds eid = kind then lastDelta history (upTo branch seq) eid else none := by
  by_cases hkind : kinds eid = kind
  · rw [if_pos hkind]
    apply lastDelta_congr_at
    rintro commit hcommit d hd rfl
    simp [recordedUpTo, h commit hcommit d hd, hkind]
  · have hnone : lastDelta history (fun _ => false) eid = none := lastDelta_eq_none fun _ _ => rfl
    rw [if_neg hkind, ← hnone]
    apply lastDelta_congr_at
    rintro commit hcommit d hd rfl
    simp [recordedUpTo, h commit hcommit d hd, hkind]

variable [DecidableEq η] {contentHash : Option Payload → η}

/-- An entity's live value among some layers, without its payload. -/
def storedIn (contentHash : Option Payload → η) (kinds : EntityId → Kind)
    (history : List (Commit η)) (layers : List (BranchKey × ℕ)) (eid : EntityId) :
    Option (Stored η) :=
  storedValue contentHash (kinds eid) ((composed history layers).get? eid).join

theorem get?_layerHashes (hrecords : Records history store) (hkinds : KeepsKinds kinds history)
    (branch : BranchKey) (seq : ℕ) (ids : List EntityId) (eid : EntityId) :
    (layerHashes contentHash store branch seq ids).get? eid = if eid ∈ ids then
        storedValue contentHash (kinds eid)
          ((lastDelta history (upTo branch seq) eid).map Delta.value).join
      else none := by
  have hread : ∀ kind, ((winner (rowsAt (store.versions kind) branch seq) eid).bind fun row =>
      storedValue contentHash kind row.value) =
      if kinds eid = kind then
        storedValue contentHash (kinds eid)
          ((lastDelta history (upTo branch seq) eid).map Delta.value).join
      else none := by
    intro kind
    have hwinner := hrecords.winners kind branch seq eid
    rw [hkinds.lastDelta_recorded] at hwinner
    by_cases hkind : kinds eid = kind
    · rw [if_pos hkind] at hwinner ⊢
      rw [← hwinner, hkind]
      cases winner (rowsAt (store.versions kind) branch seq) eid <;> rfl
    · rw [if_neg hkind, map_none, map_eq_none_iff] at hwinner
      rw [if_neg hkind, hwinner]
      rfl
  rw [layerHashes, get?_update, get?_ofKeys, get?_ofKeys, hread, hread]
  by_cases heid : eid ∈ ids
  · cases kinds eid <;> simp
  · simp [heid]

/-- A read over some layers gives the live values of the fold. -/
theorem get?_hashesAt (hrecords : Records history store) (hkinds : KeepsKinds kinds history)
    (layers : List (BranchKey × ℕ)) (ids : List EntityId) (eid : EntityId) :
    (hashesAt contentHash store layers ids).get? eid =
      if eid ∈ ids then storedIn contentHash kinds history layers eid else none := by
  induction layers generalizing ids with
  | nil => simp [hashesAt, storedIn, composed, storedValue]
  | cons layer layers ih =>
    obtain ⟨branch, seq⟩ := layer
    have hseen : eid ∈ (layerValues store branch seq ids).keys ↔
        eid ∈ ids ∧ lastDelta history (upTo branch seq) eid ≠ none := by
      rw [mem_keys_iff, get?_layerValues hrecords, readValue, hkinds.lastDelta_recorded,
        hkinds.lastDelta_recorded]
      by_cases heid : eid ∈ ids
      · cases kinds eid <;> simp [heid, isSome_iff_ne_none]
      · simp [heid]
    have hstored : storedIn contentHash kinds history ((branch, seq) :: layers) eid =
        storedValue contentHash (kinds eid)
          (((lastDelta history (upTo branch seq) eid).map Delta.value).or
            ((composed history layers).get? eid)).join := by
      rw [storedIn, composed, get?_update, get?_foldUpTo]
    rw [hashesAt, get?_update, ih, get?_layerHashes hrecords hkinds, hstored]
    by_cases heid : eid ∈ ids
    · cases hlast : lastDelta history (upTo branch seq) eid with
      | none => simp [heid, hseen, hlast, storedIn, storedValue]
      | some d => simp [heid, hseen, hlast]
    · simp [heid]

omit [DecidableEq η] in
theorem get?_headIndex (store : VersionStore η) (branch : BranchKey) (eid : EntityId) :
    (headIndex store branch).get? eid = store.entityHeads.get? (branch, eid) :=
  (get?_under store.entityHeads.items branch eid).trans (get?_items _ _)

variable {branch : BranchKey}

omit [DecidableEq η] in
theorem mem_keys_headIndex (hrecords : Records history store) :
    eid ∈ (headIndex store branch).keys ↔
      lastDelta history (fun commit => commit.branch = branch) eid ≠ none := by
  rw [mem_keys_iff, get?_headIndex]
  have hrel := hrecords.heads branch eid
  generalize store.entityHeads.get? (branch, eid) = head at hrel
  generalize lastDelta history (fun commit => commit.branch = branch) eid = last at hrel
  cases hrel <;> simp

variable {head : Head η}

omit [DecidableEq η] in
theorem headRow_eq (hrecords : Records history store) {row : VersionRow}
    (hrow : row ∈ store.versions head.entityKind) (hid : row.id = head.headVersionId) :
    headRow store head = some (head.entityKind, row) := by
  have hfind : (store.versions head.entityKind).find?
      (fun other => other.id = head.headVersionId) = some row := by
    cases hfound : (store.versions head.entityKind).find?
        fun other => other.id = head.headVersionId with
    | none => exact absurd (decide_eq_true hid) (find?_eq_none.mp hfound row hrow)
    | some other =>
      have hother : other.id = head.headVersionId := by simpa using find?_some hfound
      have hsame := hrecords.unique _ _ other (mem_of_find?_eq_some hfound) row hrow
        (hother.trans hid.symm)
      rw [hsame.2]
  simp only [headRow, hfind]
  rfl

structure HeadSays (contentHash : Option Payload → η) (store : VersionStore η) (kind : Kind)
    (value : Option Payload) (head : Head η) : Prop where
  entityKind : head.entityKind = kind
  hash : head.contentHash = contentHash value
  isTombstone : head.isTombstone = value.isNone
  row : ∃ row ∈ store.versions kind, row.id = head.headVersionId ∧ row.payload = value

theorem headSays_of_get? (hrun : Run contentHash history store) (hkinds : KeepsKinds kinds history)
    (hhashed : Hashed contentHash history)
    (hhead : store.entityHeads.get? (branch, eid) = some head) :
    ∃ value, (lastDelta history (fun commit => commit.branch = branch) eid).map Delta.value =
        some value ∧ HeadSays contentHash store (kinds eid) value head := by
  have hrel := hrun.records.heads branch eid
  rw [hhead] at hrel
  cases hlast : lastDelta history (fun commit => commit.branch = branch) eid with
  | none => rw [hlast] at hrel; cases hrel
  | some d =>
    rw [hlast] at hrel
    obtain ⟨htomb, hhash, row, hrow, hid, hpayload⟩ : HeadHolds store head d := by
      cases hrel; assumption
    obtain ⟨recorder, hrecorder, hkind, e, he, rfl⟩ := hrun.head_recorded hhead
    rw [hkinds recorder hrecorder e he] at hkind
    obtain ⟨commit, hcommit, -, hd⟩ := exists_of_lastDelta hlast
    have hmem := (deltaAt_eq_some.mp hd).1
    have hvalue : d.value = d.payload := by
      rw [Delta.value]
      split
      · rename_i hdelete
        exact ((commit.payload_iff d hmem).mp hdelete).symm
      · rfl
    refine ⟨d.value, rfl, hkind.symm, ?_, ?_, row, hkind ▸ hrow, hid, hpayload.trans hvalue.symm⟩
    · rw [hhash, hhashed commit hcommit d hmem, hvalue]
    · rw [htomb, hvalue, Bool.eq_iff_iff, decide_eq_true_iff, isNone_iff_eq_none]
      exact commit.payload_iff d hmem

omit [DecidableEq η] in
theorem exists_head (hrecords : Records history store) {value : Option Payload}
    (h : (lastDelta history (fun commit => commit.branch = branch) eid).map Delta.value =
      some value) : ∃ head, store.entityHeads.get? (branch, eid) = some head := by
  obtain ⟨d, hlast, -⟩ := map_eq_some_iff.mp h
  have hrel := hrecords.heads branch eid
  rw [hlast] at hrel
  cases hget : store.entityHeads.get? (branch, eid) with
  | none => rw [hget] at hrel; cases hrel
  | some head => exact ⟨head, rfl⟩

theorem storedHead_eq (hrecords : Records history store) {kind : Kind} {value : Option Payload}
    (h : HeadSays contentHash store kind value head) :
    storedHead contentHash store head = storedValue contentHash kind value := by
  obtain ⟨rfl, hhash, htomb, row, hrow, hid, hpayload⟩ := h
  rw [storedHead, headRow_eq hrecords hrow hid, htomb, hhash]
  cases value with
  | none => rfl
  | some p =>
    have hcolumns : ∀ kind chash, { storedOf kind (chash : η) p with kind := kind } =
        storedOf kind chash p := by
      intro kind chash
      cases kind <;> rfl
    cases hlive : liveHash contentHash (contentHash (some p)) <;>
      simp [hlive, hpayload, storedValue, hcolumns]

def Fork.IsHead (fork : Fork) (history : List (Commit η)) : Prop :=
  ∀ commit ∈ history, commit.branch = fork.key → commit.seq ≤ fork.head

theorem get?_oursOf (hrun : Run contentHash history store) (hkinds : KeepsKinds kinds history)
    (hhashed : Hashed contentHash history) {fork : Fork} (hhead : fork.IsHead history)
    {heads : Option (Dict EntityId (Head η))}
    (hheads : heads = none ∨ heads = some (headIndex store fork.key)) (ids : List EntityId)
    (eid : EntityId) :
    (oursOf contentHash store fork heads ids).get? eid =
      if eid ∈ ids then storedIn contentHash kinds history fork.layers eid else none := by
  rcases hheads with rfl | rfl
  · exact get?_hashesAt hrun.records hkinds _ _ _
  · have hlast : lastDelta history (upTo fork.key fork.head) eid =
        lastDelta history (fun commit => commit.branch = fork.key) eid := by
      apply lastDelta_congr
      intro commit hcommit
      rw [upTo, Bool.eq_iff_iff, decide_eq_true_iff, decide_eq_true_iff]
      exact ⟨And.left, fun hbranch => ⟨hbranch, hhead commit hcommit hbranch⟩⟩
    have hstored : storedIn contentHash kinds history fork.layers eid =
        storedValue contentHash (kinds eid)
          (((lastDelta history (fun commit => commit.branch = fork.key) eid).map Delta.value).or
            ((composed history fork.layers.tail).get? eid)).join := by
      rw [storedIn, Fork.layers, composed, get?_update, get?_foldUpTo, hlast, tail_cons]
    have hkeys : eid ∈ (headIndex store fork.key).keys ↔
        lastDelta history (fun commit => commit.branch = fork.key) eid ≠ none :=
      mem_keys_headIndex hrun.records
    rw [oursOf, get?_update, get?_ofKeys, get?_hashesAt hrun.records hkinds,
      get?_headIndex, hstored, storedIn]
    by_cases heid : eid ∈ ids
    · cases hd : lastDelta history (fun commit => commit.branch = fork.key) eid with
      | none => simp [heid, hkeys, hd]
      | some d =>
        obtain ⟨head, hget⟩ := exists_head hrun.records (congrArg (Option.map Delta.value) hd)
        obtain ⟨value, hvalue, hsays⟩ := headSays_of_get? hrun hkinds hhashed hget
        rw [hd] at hvalue
        simp [heid, hkeys, hd, hget, hvalue, storedHead_eq hrun.records hsays]
    · simp [heid]

/-- The urn the readers of some layers name a node id by. -/
def nameAt (contentHash : Option Payload → η) (store : VersionStore η)
    (layers : List (BranchKey × ℕ)) (eid : EntityId) : String :=
  currentUrn store layers [] (hashesAt contentHash store layers [eid]) eid

variable {layers : List (BranchKey × ℕ)}

theorem get?_currentUrns (hrecords : Records history store) (hkinds : KeepsKinds kinds history)
    {known : Dict EntityId (Stored η)} (hknown : ∀ eid v, known.get? eid = some v →
      storedIn contentHash kinds history layers eid = some v)
    (ids : List EntityId) (eid : EntityId) :
    (currentUrns contentHash store layers known ids).get? eid =
      if eid ∈ ids ∧ eid ≠ "" then some (nameAt contentHash store layers eid) else none := by
  rw [currentUrns, get?_ofKeys]
  by_cases heid : eid ∈ ids ∧ eid ≠ ""
  · have hmem : eid ∈ (ids.filter (· ≠ "")).dedup := by simpa using heid
    rw [if_pos heid, if_pos hmem, nameAt, currentUrn, currentUrn, get?_hashesAt hrecords hkinds,
      get?_hashesAt hrecords hkinds, if_pos heid.1, if_pos (mem_singleton_self eid),
      get?_nil]
    cases hget : known.get? eid with
    | none => rfl
    | some v =>
      rw [hknown eid v hget]
      by_cases hkind : v.kind = .node
      · cases hurn : pyOr v.urn none <;> simp [hkind, hurn, urnOr]
      · simp [hkind]
  · have hmem : eid ∉ (ids.filter (· ≠ "")).dedup := by simpa using heid
    rw [if_neg heid, if_neg hmem]

def placeNamed (name : EntityId → String) (v : Stored η) : EdgePlace :=
  let named := fun eid : Option EntityId =>
    eid.elim "" fun eid => if eid = "" then "" else name eid
  ⟨named v.src, named v.tgt, (pyOr v.type none).getD "unknown"⟩

def Stored.ends (v : Stored η) : List EntityId :=
  [v.src, v.tgt].filterMap id

variable {v : Stored η}

omit [DecidableEq η] in
theorem placeOf_eq {urns : Dict EntityId String} {name : EntityId → String}
    (h : ∀ eid ∈ v.ends, eid ≠ "" → urns.get? eid = some (name eid)) :
    placeOf urns v = placeNamed name v := by
  have hend : ∀ x : Option EntityId, (∀ eid, x = some eid → eid ∈ v.ends) →
      endName urns x = x.elim "" fun eid => if eid = "" then "" else name eid := by
    intro x hx
    cases x with
    | none => rfl
    | some eid =>
      rw [endName, elim_some]
      split
      · rfl
      · rename_i hne
        rw [h eid (hx eid rfl) hne, getD_some]
  rw [placeOf, placeNamed, hend v.src fun eid heid => by simp [Stored.ends, heid],
    hend v.tgt fun eid heid => by simp [Stored.ends, heid]]

/-- The urns the readers of some layers name a value's ends by. -/
def endUrns (contentHash : Option Payload → η) (store : VersionStore η)
    (layers : List (BranchKey × ℕ)) (v : Option (Stored η)) : Dict EntityId String :=
  currentUrns contentHash store layers [] (v.elim [] Stored.ends)

def sidesAt (contentHash : Option Payload → η) (store : VersionStore η) (fork : Fork)
    (rootHead : ℕ) (eid : EntityId) : Option (Stored η) × Option (Stored η) :=
  ((hashesAt contentHash store fork.layers [eid]).get? eid,
    (hashesAt contentHash store [(fork.root, rootHead)] [eid]).get? eid)

def entryAt (contentHash : Option Payload → η) (store : VersionStore η) (fork : Fork)
    (rootHead : ℕ) (eid : EntityId) : Option PatchEntry :=
  let sides := sidesAt contentHash store fork rootHead eid
  classified (endUrns contentHash store fork.layers sides.1)
    (endUrns contentHash store [(fork.root, rootHead)] sides.2) eid sides.1 sides.2

theorem classified_congr {ourUrns theirUrns ourUrns' theirUrns' : Dict EntityId String}
    {f r : Option (Stored η)} (hours : ∀ v, f = some v → placeOf ourUrns v = placeOf ourUrns' v)
    (htheirs : ∀ v, r = some v → placeOf theirUrns v = placeOf theirUrns' v) :
    classified ourUrns theirUrns eid f r = classified ourUrns' theirUrns' eid f r := by
  cases f with
  | none =>
    cases r with
    | none => rfl
    | some r => simp [classified, htheirs r rfl]
  | some f =>
    cases r with
    | none => simp [classified, hours f rfl]
    | some r => simp [classified, was, hours f rfl, htheirs r rfl]

theorem storedIn_eq_some : storedIn contentHash kinds history layers eid = some v ↔
      ∃ p, (composed history layers).get? eid = some (some p) ∧
        liveHash contentHash (contentHash (some p)) = true ∧
        v = storedOf (kinds eid) (contentHash (some p)) p := by
  rw [storedIn, storedValue, bind_eq_some_iff]
  refine exists_congr fun p => and_congr join_eq_some_iff ?_
  rw [ite_none_right_eq_some, some.injEq, eq_comm (a := v)]

theorem ne_node_of_mem_ends {eid end_ : EntityId}
    (h : storedIn contentHash kinds history layers eid = some v) (hend : end_ ∈ v.ends) :
    v.kind ≠ .node := by
  obtain ⟨p, -, -, rfl⟩ := storedIn_eq_some.mp h
  cases heid : kinds eid with
  | node => simp [Stored.ends, storedOf, heid] at hend
  | edge => simp [storedOf]

omit [DecidableEq η] in
theorem mem_ends {values : Dict EntityId (Stored η)} : eid ∈ ends values ↔
      (∃ other v, values.get? other = some v ∧ v.kind ≠ .node ∧ eid ∈ v.ends) ∧ eid ≠ "" := by
  rw [ends, mem_filter, mem_flatMap, decide_eq_true_iff]
  refine and_congr_left fun _ => ?_
  constructor
  · rintro ⟨⟨other, v⟩, hmem, hend⟩
    by_cases hkind : v.kind = .node
    · simp [hkind] at hend
    · exact ⟨other, v, mem_items_iff.mp hmem, hkind, by simpa [Stored.ends, hkind] using hend⟩
  · rintro ⟨other, v, hget, hkind, hend⟩
    exact ⟨(other, v), mem_items_iff.mpr hget, by simpa [Stored.ends, hkind] using hend⟩

theorem placeOf_currentUrns (hrecords : Records history store) (hkinds : KeepsKinds kinds history)
    {known : Dict EntityId (Stored η)} (hknown : ∀ eid v, known.get? eid = some v →
      storedIn contentHash kinds history layers eid = some v)
    {ids : List EntityId} (h : ∀ eid ∈ v.ends, eid ≠ "" → eid ∈ ids) :
    placeOf (currentUrns contentHash store layers known ids) v =
      placeNamed (nameAt contentHash store layers) v := by
  apply placeOf_eq
  intro eid heid hne
  rw [get?_currentUrns hrecords hkinds hknown, if_pos ⟨h eid heid hne, hne⟩]

theorem placeOf_ends (hrecords : Records history store) (hkinds : KeepsKinds kinds history)
    {values : Dict EntityId (Stored η)} (hvalues : ∀ eid v, values.get? eid = some v →
      storedIn contentHash kinds history layers eid = some v)
    (hget : values.get? eid = some v) :
    placeOf (currentUrns contentHash store layers values (ends values)) v =
      placeNamed (nameAt contentHash store layers) v := by
  refine placeOf_currentUrns hrecords hkinds hvalues fun end_ hend hne => ?_
  exact mem_ends.mpr ⟨⟨eid, v, hget, ne_node_of_mem_ends (hvalues eid v hget) hend, hend⟩, hne⟩

theorem placeOf_endUrns (hrecords : Records history store) (hkinds : KeepsKinds kinds history)
    (layers : List (BranchKey × ℕ)) (v : Stored η) :
    placeOf (endUrns contentHash store layers (some v)) v =
      placeNamed (nameAt contentHash store layers) v := by
  have hnone : ∀ eid v, Dict.get? ([] : Dict EntityId (Stored η)) eid = some v →
      storedIn contentHash kinds history layers eid = some v := nofun
  exact placeOf_currentUrns hrecords hkinds hnone fun _ hend _ => hend

section

variable {fork : Fork}

theorem sidesAt_eq (hrecords : Records history store) (hkinds : KeepsKinds kinds history)
    (rootHead : ℕ) (eid : EntityId) :
    sidesAt contentHash store fork rootHead eid =
      (storedIn contentHash kinds history fork.layers eid,
        storedIn contentHash kinds history [(fork.root, rootHead)] eid) := by
  rw [sidesAt, get?_hashesAt hrecords hkinds, get?_hashesAt hrecords hkinds,
    if_pos (mem_singleton_self eid), if_pos (mem_singleton_self eid)]

variable {f r : Option (Stored η)}

theorem entryAt_eq (hrecords : Records history store) (hkinds : KeepsKinds kinds history)
    (rootHead : ℕ) (eid : EntityId) (hf : storedIn contentHash kinds history fork.layers eid = f)
    (hr : storedIn contentHash kinds history [(fork.root, rootHead)] eid = r) :
    entryAt contentHash store fork rootHead eid =
      classified (endUrns contentHash store fork.layers f)
        (endUrns contentHash store [(fork.root, rootHead)] r) eid f r := by
  rw [entryAt, sidesAt_eq hrecords hkinds, hf, hr]

theorem mem_entries_forkClassified (hrun : Run contentHash history store)
    (hkinds : KeepsKinds kinds history) (hhashed : Hashed contentHash history)
    (hhead : fork.IsHead history) (order : SetOrder) {heads : Option (Dict EntityId (Head η))}
    (hheads : heads = none ∨ heads = some (headIndex store fork.key)) (ids : List EntityId)
    (rootHead : ℕ) (x : PatchEntry) :
    x ∈ (forkClassified contentHash store order fork heads ids rootHead).entries ↔
      ∃ eid ∈ ids, entryAt contentHash store fork rootHead eid = some x := by
  have hours := get?_oursOf hrun hkinds hhashed hhead hheads ids
  have htheirs : ∀ eid, (hashesAt contentHash store [(fork.root, rootHead)] ids).get? eid =
      if eid ∈ ids then storedIn contentHash kinds history [(fork.root, rootHead)] eid
      else none := get?_hashesAt hrun.records hkinds _ ids
  rw [forkClassified, mem_entries_forkPatch]
  refine exists_congr fun eid => ?_
  rw [(order.perm _ _).mem_iff]
  refine and_congr_right fun heid => ?_
  have hour : ∀ eid v, (oursOf contentHash store fork heads ids).get? eid = some v →
      storedIn contentHash kinds history fork.layers eid = some v := by
    intro eid v hv
    rw [hours] at hv
    exact (ite_none_right_eq_some.mp hv).2
  have htheir : ∀ eid v, (hashesAt contentHash store [(fork.root, rootHead)] ids).get? eid =
      some v → storedIn contentHash kinds history [(fork.root, rootHead)] eid = some v := by
    intro eid v hv
    rw [htheirs] at hv
    exact (ite_none_right_eq_some.mp hv).2
  have hown := hours eid
  have hroot := htheirs eid
  rw [if_pos heid] at hown hroot
  rw [entryAt_eq hrun.records hkinds rootHead eid hown.symm hroot.symm,
    classified_congr (fun v hv => ?_) fun v hv => ?_]
  · rw [hv, placeOf_endUrns hrun.records hkinds]
    exact placeOf_ends hrun.records hkinds hour hv
  · rw [hv, placeOf_endUrns hrun.records hkinds]
    exact placeOf_ends hrun.records hkinds htheir hv

theorem lastDelta_of_not_mem_ownChanges (hrun : Run contentHash history store)
    {layer : BranchKey × ℕ} (h : eid ∉ ownChanges store layer) :
    lastDelta history (upTo layer.1 layer.2) eid = none := by
  by_contra hsome
  obtain ⟨d, hlast⟩ := ne_none_iff_exists'.mp hsome
  obtain ⟨commit, hcommit, hselect, hd⟩ := exists_of_lastDelta hlast
  obtain ⟨hbranch, hseq⟩ := of_decide_eq_true hselect
  obtain ⟨hmem, heid⟩ := deltaAt_eq_some.mp hd
  obtain ⟨row, hrow, hrowBranch, hrowSeq, hrowId⟩ :=
    (hrun.exists_row_iff (commit.kindOf eid) layer.1 commit.seq eid).mpr
      ⟨commit, hcommit, hbranch, rfl, rfl, d, hmem, heid⟩
  apply h
  rw [ownChanges, mem_dedup, List.mem_map]
  refine ⟨row, ?_, hrowId⟩
  have hat : row ∈ rowsAt (store.versions (commit.kindOf eid)) layer.1 layer.2 :=
    mem_filter.mpr ⟨hrow, decide_eq_true ⟨hrowBranch, hrowSeq ▸ hseq⟩⟩
  rw [mem_append]
  generalize commit.kindOf eid = kind at hat
  cases kind with
  | node => exact .inl hat
  | edge => exact .inr hat

theorem mem_rootChanges (hrun : Run contentHash history store) {root : BranchKey} {lo hi : ℕ} :
    eid ∈ rootChanges store root lo hi ↔ WrittenIn history root lo hi eid := by
  rw [rootChanges, mem_dedup]
  exact hrun.mem_writtenIn (root, lo, hi) eid

omit [DecidableEq η] in
theorem get?_composed_singleton (history : List (Commit η)) (layer : BranchKey × ℕ)
    (eid : EntityId) :
    (composed history [layer]).get? eid =
      (lastDelta history (upTo layer.1 layer.2) eid).map Delta.value := by
  rw [composed, get?_update, get?_foldUpTo]
  exact or_none

omit [DecidableEq η] in
/-- Layers without a change of an entity are read through. -/
theorem get?_composed_through {near : List (BranchKey × ℕ)} {far : List (BranchKey × ℕ)}
    (h : ∀ layer ∈ near, lastDelta history (upTo layer.1 layer.2) eid = none) :
    (composed history (near ++ far)).get? eid = (composed history far).get? eid := by
  induction near with
  | nil => rfl
  | cons layer near ih =>
    obtain ⟨hlayer, hnear⟩ := forall_mem_cons.mp h
    rw [cons_append, composed, get?_update, get?_foldUpTo, hlayer, ih hnear]
    rfl

variable {rootHead : ℕ}

theorem composed_of_not_mem_forkIds (hrun : Run contentHash history store)
    (hbase : fork.base ≤ rootHead) (h : eid ∉ forkIds store fork rootHead) :
    (composed history fork.layers).get? eid =
      (composed history [(fork.root, rootHead)]).get? eid := by
  rw [forkIds, mem_dedup, mem_append, mem_append, not_or, not_or] at h
  obtain ⟨⟨hheads, hbetween⟩, hroot⟩ := h
  rw [mem_keys_headIndex hrun.records, not_not] at hheads
  have hown : lastDelta history (upTo fork.key fork.head) eid = none :=
    lastDelta_none_mono (fun commit hselect => decide_eq_true (of_decide_eq_true hselect).1) hheads
  have hnear : ∀ layer ∈ (fork.key, fork.head) :: fork.between,
      lastDelta history (upTo layer.1 layer.2) eid = none := by
    intro layer hlayer
    rcases mem_cons.mp hlayer with rfl | hmem
    · exact hown
    · exact lastDelta_of_not_mem_ownChanges hrun fun hchange =>
        hbetween (mem_flatMap.mpr ⟨layer, hmem, hchange⟩)
  have hthrough : (composed history fork.layers).get? eid =
      (composed history [(fork.root, fork.base)]).get? eid := get?_composed_through hnear
  rw [hthrough, get?_composed_singleton, get?_composed_singleton]
  by_cases hlt : fork.base < rootHead
  · rw [if_pos hlt, mem_rootChanges hrun] at hroot
    rw [lastDelta_upTo_of_untouched hbase hroot]
  · rw [Nat.le_antisymm hbase (Nat.not_lt.mp hlt)]

theorem liveHash_iff
    (hhash : ∀ p q, contentHash p = contentHash q ↔ SamePayload p q) (p : Payload) :
    liveHash contentHash (contentHash (some p)) = true ↔ p ≠ [] := by
  rw [liveHash, decide_eq_true_iff, ne_eq, ne_eq, hhash, hhash]
  constructor
  · rintro ⟨hempty, -⟩ rfl
    exact hempty (SamePayload.refl _)
  · intro hne
    refine ⟨fun hsame => hne (some.inj hsame.eq_empty), fun hsame => ?_⟩
    simp [SamePayload] at hsame

theorem storedIn_eq_none (hhash : ∀ p q, contentHash p = contentHash q ↔ SamePayload p q)
    {layers : List (BranchKey × ℕ)} : storedIn contentHash kinds history layers eid = none ↔
      livePayload ((composed history layers).get? eid).join = none := by
  rw [storedIn, storedValue]
  cases ((composed history layers).get? eid).join with
  | none => exact iff_of_true rfl rfl
  | some p =>
    have hlive := liveHash_iff hhash p
    by_cases hp : p = []
    · simp [hp, livePayload, liveHash]
    · simp [hp, livePayload, hlive]

/-- Without collisions equal hashes are the same live values. -/
theorem sameLive_iff (hhash : ∀ p q, contentHash p = contentHash q ↔ SamePayload p q)
    {layers layers' : List (BranchKey × ℕ)} :
    (storedIn contentHash kinds history layers eid).map Stored.contentHash =
        (storedIn contentHash kinds history layers' eid).map Stored.contentHash ↔
      SameLive ((composed history layers).get? eid) ((composed history layers').get? eid) := by
  have hvalue : ∀ layers, (storedIn contentHash kinds history layers eid).map Stored.contentHash =
      (livePayload ((composed history layers).get? eid).join).map
        fun p => contentHash (some p) := by
    intro layers
    rw [storedIn, storedValue]
    cases ((composed history layers).get? eid).join with
    | none => rfl
    | some p =>
      have hlive := liveHash_iff hhash p
      by_cases hp : p = []
      · simp [hp, livePayload, liveHash]
      · cases hkind : kinds eid <;> simp [hp, livePayload, hlive, storedOf]
  rw [hvalue, hvalue, SameLive]
  cases livePayload ((composed history layers).get? eid).join with
  | none =>
    cases livePayload ((composed history layers').get? eid).join with
    | none => exact iff_of_true rfl (SamePayload.refl _)
    | some q => simp [SamePayload]
  | some p =>
    cases livePayload ((composed history layers').get? eid).join with
    | none => simp [SamePayload]
    | some q =>
      rw [map_some, map_some, some.injEq]
      exact hhash _ _

theorem serves_classified {ourUrns theirUrns : Dict EntityId String} {x : PatchEntry}
    (h : classified ourUrns theirUrns eid f r = some x) : x.serves = f.isSome := by
  unfold classified at h
  split at h
  · cases h
  · obtain rfl := some.inj h
    split <;> rfl
  · obtain rfl := some.inj h
    split <;> rfl
  · obtain ⟨-, h⟩ := ite_none_left_eq_some.mp h
    obtain rfl := some.inj h
    split <;> rfl

/-- There is no entry exactly when neither side has the entity live, or both by one
hash. -/
theorem classified_eq_none_iff {ourUrns theirUrns : Dict EntityId String} :
    classified ourUrns theirUrns eid f r = none ↔
      f.map Stored.contentHash = r.map Stored.contentHash := by
  cases f with
  | none => cases r <;> simp [classified]
  | some f => cases r <;> simp [classified]

theorem key_entryAt {x : PatchEntry} (h : entryAt contentHash store fork rootHead eid = some x) :
    x.key = eid :=
  key_classified h

theorem mem_entries_forkOverlayDelta (hrun : Run contentHash history store)
    (hkinds : KeepsKinds kinds history) (hhashed : Hashed contentHash history)
    (hhead : fork.IsHead history) (order : SetOrder) (hbase : fork.base ≤ rootHead)
    (x : PatchEntry) :
    x ∈ (forkOverlayDelta contentHash store order fork rootHead).entries ↔
      ∃ eid, entryAt contentHash store fork rootHead eid = some x := by
  rw [forkOverlayDelta, mem_entries_forkClassified hrun hkinds hhashed hhead order (.inr rfl)]
  refine exists_congr fun eid => and_iff_right_of_imp fun hentry => ?_
  by_contra heid
  have hsame : storedIn contentHash kinds history fork.layers eid =
      storedIn contentHash kinds history [(fork.root, rootHead)] eid := by
    rw [storedIn, storedIn, composed_of_not_mem_forkIds hrun hbase heid]
  rw [entryAt_eq hrun.records hkinds rootHead eid hsame rfl,
    classified_eq_none_iff.mpr rfl] at hentry
  cases hentry

theorem sameLive_laidOver (hhash : ∀ p q, contentHash p = contentHash q ↔ SamePayload p q)
    (hrun : Run contentHash history store) (hkinds : KeepsKinds kinds history)
    (hpatch : ∀ x, x ∈ patch.entries ↔ ∃ eid, entryAt contentHash store fork rootHead eid = some x)
    (eid : EntityId) :
    SameLive ((laidOver store fork patch rootHead).get? eid)
      ((composed history fork.layers).get? eid) := by
  have hreads := (readsFold_iff_nodesSettled contentHash history store hrun).mpr hkinds.settled
  have hentry : ∀ serves, (∃ x ∈ patch.entries, x.key = eid ∧ x.serves = serves) ↔
      ∃ x, entryAt contentHash store fork rootHead eid = some x ∧ x.serves = serves := by
    intro serves
    constructor
    · rintro ⟨x, hx, hkey, hserves⟩
      obtain ⟨other, hother⟩ := (hpatch x).mp hx
      obtain rfl := (key_entryAt hother).symm.trans hkey
      exact ⟨x, hother, hserves⟩
    · rintro ⟨x, hx, hserves⟩
      exact ⟨x, (hpatch x).mpr ⟨eid, hx⟩, key_entryAt hx, hserves⟩
  obtain ⟨ourUrns, theirUrns, heq⟩ : ∃ ourUrns theirUrns,
      entryAt contentHash store fork rootHead eid = classified ourUrns theirUrns eid
        (storedIn contentHash kinds history fork.layers eid)
        (storedIn contentHash kinds history [(fork.root, rootHead)] eid) :=
    ⟨_, _, entryAt_eq hrun.records hkinds rootHead eid rfl rfl⟩
  have hserved : eid ∈ patch.served ↔
      ∃ x, entryAt contentHash store fork rootHead eid = some x ∧ x.serves = true := by
    rw [PatchSet.mem_served, hentry]
  have hremoved : eid ∈ patch.removed ↔
      ∃ x, entryAt contentHash store fork rootHead eid = some x ∧ x.serves = false := by
    rw [PatchSet.mem_removed, hentry]
  have hvalues := get?_filter_key (valuesAt store fork.layers patch.served)
    (fun other => decide (other ∈ patch.served)) eid
  have hbase := get?_filter_key (stateAsOf store [(fork.root, rootHead)])
    (fun other => decide (other ∉ patch.removed)) eid
  rw [hreads.valuesAt] at hvalues
  rw [hreads.stateAsOf] at hbase
  rw [laidOver, PatchSet.lay, get?_update, hvalues, hbase]
  rw [heq] at hserved hremoved
  cases hclass : classified ourUrns theirUrns eid
      (storedIn contentHash kinds history fork.layers eid)
      (storedIn contentHash kinds history [(fork.root, rootHead)] eid) with
  | none =>
    simp only [hclass, reduceCtorEq, false_and, exists_false] at hserved hremoved
    rw [classified_eq_none_iff, sameLive_iff hhash] at hclass
    simpa [hserved, hremoved] using hclass.symm
  | some x =>
    have hserves := serves_classified hclass
    simp only [hclass, some.injEq, exists_eq_left'] at hserved hremoved
    cases hf : storedIn contentHash kinds history fork.layers eid with
    | none =>
      rw [hf] at hserves
      rw [storedIn_eq_none hhash] at hf
      simp only [hserved, hremoved, hserves, SameLive, hf]
      simpa [livePayload] using SamePayload.refl none
    | some f =>
      rw [hf] at hserves
      obtain ⟨p, hp, -⟩ := storedIn_eq_some.mp hf
      simp only [hserved, hserves, hp]
      simp [SameLive.refl]

omit [DecidableEq η] in
theorem placeNamed_eq_iff {name name' : EntityId → String} {v : Stored η} :
    placeNamed name v = placeNamed name' v ↔ ∀ eid ∈ v.ends, eid ≠ "" → name eid = name' eid := by
  have hend : ∀ x : Option EntityId, ((x.elim "" fun eid => if eid = "" then "" else name eid) =
        x.elim "" fun eid => if eid = "" then "" else name' eid) ↔
      ∀ eid, x = some eid → eid ≠ "" → name eid = name' eid := by
    intro x
    cases x with
    | none => simp
    | some eid => by_cases heid : eid = "" <;> simp [heid]
  have hmem : ∀ eid, eid ∈ v.ends ↔ v.src = some eid ∨ v.tgt = some eid := by
    simp [Stored.ends, eq_comm]
  rw [placeNamed, placeNamed, EdgePlace.mk.injEq, hend, hend]
  simp only [hmem, and_true]
  constructor
  · rintro ⟨hsrc, htgt⟩ eid (heid | heid) hne
    · exact hsrc eid heid hne
    · exact htgt eid heid hne
  · intro h
    exact ⟨fun eid heid => h eid (.inl heid), fun eid heid => h eid (.inr heid)⟩

theorem classified_eq_iff {ourUrns theirUrns ourUrns' theirUrns' : Dict EntityId String}
    (hkind : ∀ v w, f = some v → r = some w → v.kind = w.kind) :
    classified ourUrns theirUrns eid f r = classified ourUrns' theirUrns' eid f r ↔
      (f.map Stored.contentHash ≠ r.map Stored.contentHash →
        (∀ v, f = some v → v.kind ≠ .node → placeOf ourUrns v = placeOf ourUrns' v) ∧
          ∀ v, r = some v → v.kind ≠ .node → placeOf theirUrns v = placeOf theirUrns' v) := by
  cases f with
  | none =>
    cases r with
    | none => simp [classified]
    | some r => by_cases hnode : r.kind = .node <;> simp [classified, hnode]
  | some f =>
    cases r with
    | none => by_cases hnode : f.kind = .node <;> simp [classified, hnode]
    | some r =>
      have hsame := hkind f r rfl rfl
      by_cases hhash : f.contentHash = r.contentHash
      · simp [classified, hhash]
      · by_cases hnode : f.kind = .node
        · simp [classified, hhash, hnode, ← hsame]
        · simp [classified, hhash, hnode, ← hsame, was]

/-- The ends of an entity's values on two sides go by the urns they went by. -/
def EndsNamed (contentHash : Option Payload → η) (before after : VersionStore η) (fork : Fork)
    (since rootHead : ℕ) (f r : Option (Stored η)) : Prop :=
  (∀ v, f = some v → ∀ end_ ∈ v.ends, end_ ≠ "" →
    nameAt contentHash before fork.layers end_ = nameAt contentHash after fork.layers end_) ∧
  ∀ v, r = some v → ∀ end_ ∈ v.ends, end_ ≠ "" →
    nameAt contentHash before [(fork.root, since)] end_ =
      nameAt contentHash after [(fork.root, rootHead)] end_

def CreatedAs (contentHash : Option Payload → η) (store : VersionStore η) (fork : Fork)
    (rootHead : ℕ) (eid : EntityId) (urn : String) : Prop :=
  ∃ f, sidesAt contentHash store fork rootHead eid = (some f, none) ∧ f.kind = .node ∧
    urnOr f.urn eid = urn

/-- When an extension says what a patch set built from scratch says: outside the
root's changes, the ends of the edges the two sides differ on go by the urns they
went by, and no created node shares its urn with a node created inside, unless one
of those still is. -/
structure ExtendsAlike (contentHash : Option Payload → η) (before after : VersionStore η)
    (fork : Fork) (since rootHead : ℕ) : Prop where
  names : ∀ eid ∉ rootChanges after fork.root since rootHead,
    let sides := sidesAt contentHash after fork rootHead eid
    sides.1.map Stored.contentHash ≠ sides.2.map Stored.contentHash →
      EndsNamed contentHash before after fork since rootHead sides.1 sides.2
  urns : ∀ eid ∉ rootChanges after fork.root since rootHead, ∀ urn,
    CreatedAs contentHash after fork rootHead eid urn →
      ∀ other ∈ rootChanges after fork.root since rootHead,
        CreatedAs contentHash before fork since other urn →
          ∃ another ∈ rootChanges after fork.root since rootHead,
            CreatedAs contentHash after fork rootHead another urn

structure Fork.RootMoved (fork : Fork) (later : List (Commit η)) (since rootHead : ℕ) : Prop where
  own : ∀ commit ∈ later, commit.branch ≠ fork.key
  between : ∀ commit ∈ later, ∀ layer ∈ fork.between, commit.branch = layer.1 → layer.2 < commit.seq
  root : ∀ commit ∈ later, commit.branch = fork.root → since < commit.seq
  base_le : fork.base ≤ since
  since_le : since ≤ rootHead

omit [DecidableEq η] in
theorem composed_append {later : List (Commit η)} {layers : List (BranchKey × ℕ)}
    (h : ∀ commit ∈ later, ∀ layer ∈ layers, commit.branch = layer.1 → layer.2 < commit.seq) :
    composed (history ++ later) layers = composed history layers := by
  induction layers with
  | nil => rfl
  | cons layer layers ih =>
    obtain ⟨branch, seq⟩ := layer
    have hskip : later.filter (upTo branch seq) = [] := by
      rw [filter_eq_nil_iff]
      intro commit hcommit hselect
      obtain ⟨hbranch, hseq⟩ := of_decide_eq_true hselect
      exact absurd (h commit hcommit (branch, seq) mem_cons_self hbranch) (by omega)
    rw [composed, composed, foldUpTo, foldUpTo, filter_append, hskip, append_nil,
      ih fun commit hcommit layer hlayer =>
        h commit hcommit layer (mem_cons_of_mem _ hlayer)]

section

variable {later : List (Commit η)} {after : VersionStore η} {since rootHead : ℕ}

omit [DecidableEq η] in
theorem Fork.RootMoved.composed_layers (hmoved : fork.RootMoved later since rootHead) :
    composed (history ++ later) fork.layers = composed history fork.layers := by
  apply composed_append
  intro commit hcommit layer hlayer hbranch
  rw [Fork.layers, mem_cons, mem_append, mem_singleton] at hlayer
  rcases hlayer with rfl | hbetween | rfl
  · exact absurd hbranch (hmoved.own commit hcommit)
  · exact hmoved.between commit hcommit layer hbetween hbranch
  · exact hmoved.base_le.trans_lt (hmoved.root commit hcommit hbranch)

/-- What the root did not change it has as before. -/
theorem Fork.RootMoved.composed_root (hmoved : fork.RootMoved later since rootHead)
    (hrun : Run contentHash (history ++ later) after)
    (heid : eid ∉ rootChanges after fork.root since rootHead) :
    (composed (history ++ later) [(fork.root, rootHead)]).get? eid =
      (composed history [(fork.root, since)]).get? eid := by
  rw [mem_rootChanges hrun] at heid
  rw [get?_composed_singleton, lastDelta_upTo_of_untouched hmoved.since_le heid,
    ← get?_composed_singleton _ (fork.root, since), composed_append]
  intro commit hcommit layer hlayer hbranch
  obtain rfl := mem_singleton.mp hlayer
  exact hmoved.root commit hcommit hbranch

theorem kind_of_storedIn {layers : List (BranchKey × ℕ)} {v : Stored η}
    (h : storedIn contentHash kinds history layers eid = some v) : v.kind = kinds eid := by
  obtain ⟨p, -, -, rfl⟩ := storedIn_eq_some.mp h
  cases kinds eid <;> rfl

theorem entryAt_eq_iff (hrun : Run contentHash history store)
    (hrun' : Run contentHash (history ++ later) after)
    (hkinds : KeepsKinds kinds (history ++ later)) (hmoved : fork.RootMoved later since rootHead)
    (heid : eid ∉ rootChanges after fork.root since rootHead) :
    entryAt contentHash store fork since eid = entryAt contentHash after fork rootHead eid ↔
      let sides := sidesAt contentHash after fork rootHead eid
      sides.1.map Stored.contentHash ≠ sides.2.map Stored.contentHash →
        EndsNamed contentHash store after fork since rootHead sides.1 sides.2 := by
  have hkinds₀ : KeepsKinds kinds history := fun commit hcommit =>
    hkinds commit (mem_append_left _ hcommit)
  have hours : storedIn contentHash kinds (history ++ later) fork.layers eid =
      storedIn contentHash kinds history fork.layers eid := by
    rw [storedIn, hmoved.composed_layers, storedIn]
  have htheirs : storedIn contentHash kinds (history ++ later) [(fork.root, rootHead)] eid =
      storedIn contentHash kinds history [(fork.root, since)] eid := by
    rw [storedIn, hmoved.composed_root hrun' heid, storedIn]
  rw [sidesAt_eq hrun'.records hkinds, hours, htheirs, entryAt_eq hrun.records hkinds₀ _ _ rfl rfl,
    entryAt_eq hrun'.records hkinds _ _ hours htheirs, classified_eq_iff]
  · refine imp_congr_right fun _ => and_congr ?_ ?_
    · refine forall_congr' fun v => imp_congr_right fun hv => ?_
      rw [hv, placeOf_endUrns hrun.records hkinds₀, placeOf_endUrns hrun'.records hkinds,
        placeNamed_eq_iff]
      exact ⟨fun h end_ hend => h (ne_node_of_mem_ends hv hend) end_ hend, fun h _ => h⟩
    · refine forall_congr' fun v => imp_congr_right fun hv => ?_
      rw [hv, placeOf_endUrns hrun.records hkinds₀, placeOf_endUrns hrun'.records hkinds,
        placeNamed_eq_iff]
      exact ⟨fun h end_ hend => h (ne_node_of_mem_ends hv hend) end_ hend, fun h _ => h⟩
  · intro v w hv hw
    rw [kind_of_storedIn hv, kind_of_storedIn hw]

theorem exists_nodesUpsert_iff {urn : String} :
    (∃ n, entryAt contentHash store fork rootHead eid = some (.nodesUpsert n) ∧ n.urn = urn) ↔
      CreatedAs contentHash store fork rootHead eid urn := by
  rw [CreatedAs, entryAt]
  generalize sidesAt contentHash store fork rootHead eid = sides
  obtain ⟨f, r⟩ := sides
  cases f with
  | none =>
    cases r with
    | none => simp [classified]
    | some r => by_cases hnode : r.kind = .node <;> simp [classified, hnode]
  | some f =>
    cases r with
    | none => by_cases hnode : f.kind = .node <;> simp [classified, hnode]
    | some r =>
      by_cases hhash : f.contentHash = r.contentHash
      · simp [classified, hhash]
      · by_cases hnode : f.kind = .node <;> simp [classified, hhash, hnode]

theorem mem_nodesNew_iff {patch : PatchSet} (among : EntityId → Prop)
    (hself : ∀ urn, urn ∈ patch.nodesNew ↔ ∃ n, .nodesUpsert n ∈ patch.entries ∧ n.urn = urn)
    (h : ∀ x, x ∈ patch.entries ↔
      ∃ eid, among eid ∧ entryAt contentHash store fork rootHead eid = some x) (urn : String) :
    urn ∈ patch.nodesNew ↔
      ∃ eid, among eid ∧ CreatedAs contentHash store fork rootHead eid urn := by
  simp only [hself, h, ← exists_nodesUpsert_iff]
  constructor
  · rintro ⟨n, ⟨eid, heid, hn⟩, rfl⟩
    exact ⟨eid, heid, n, hn, rfl⟩
  · rintro ⟨eid, heid, n, hn, rfl⟩
    exact ⟨n, ⟨eid, heid, hn⟩, rfl⟩

/-- From scratch, those of all of them. -/
theorem mem_nodesNew_forkOverlayDelta {order : SetOrder}
    (h : ∀ x, x ∈ (forkOverlayDelta contentHash store order fork rootHead).entries ↔
      ∃ eid, entryAt contentHash store fork rootHead eid = some x) (urn : String) :
    urn ∈ (forkOverlayDelta contentHash store order fork rootHead).nodesNew ↔
      ∃ eid, CreatedAs contentHash store fork rootHead eid urn := by
  have hself : ∀ urn, urn ∈ (forkOverlayDelta contentHash store order fork rootHead).nodesNew ↔
      ∃ n, .nodesUpsert n ∈ (forkOverlayDelta contentHash store order fork rootHead).entries ∧
        n.urn = urn := fun _ => mem_nodesNew_forkPatch
  have hnew := mem_nodesNew_iff (fun _ => True) hself (by simpa only [true_and] using h) urn
  simpa only [true_and] using hnew

omit [DecidableEq η] in
theorem replaced_iff {old new : EntityId → Option PatchEntry}
    (hold : ∀ eid x, old eid = some x → x.key = eid)
    (hnew : ∀ eid x, new eid = some x → x.key = eid) (ids : List EntityId) :
    (∀ x, ((∃ eid, old eid = some x) ∧ x.key ∉ ids ∨ ∃ eid ∈ ids, new eid = some x) ↔
        ∃ eid, new eid = some x) ↔
      ∀ eid ∉ ids, old eid = new eid := by
  constructor
  · intro h eid heid
    apply ext
    intro x
    constructor
    · intro hx
      obtain ⟨other, hother⟩ := (h x).mp (.inl ⟨⟨eid, hx⟩, hold eid x hx ▸ heid⟩)
      rwa [← hnew other x hother, hold eid x hx] at hother
    · intro hx
      rcases (h x).mpr ⟨eid, hx⟩ with ⟨⟨other, hother⟩, -⟩ | ⟨other, hmem, hother⟩
      · rwa [← hold other x hother, hnew eid x hx] at hother
      · rw [← hnew other x hother, hnew eid x hx] at hmem
        exact absurd hmem heid
  · intro h x
    constructor
    · rintro (⟨⟨eid, hx⟩, heid⟩ | ⟨eid, -, hx⟩)
      · rw [hold eid x hx] at heid
        exact ⟨eid, h eid heid ▸ hx⟩
      · exact ⟨eid, hx⟩
    · rintro ⟨eid, hx⟩
      by_cases heid : eid ∈ ids
      · exact .inr ⟨eid, heid, hx⟩
      · exact .inl ⟨⟨eid, (h eid heid).trans hx⟩, hnew eid x hx ▸ heid⟩

theorem sameEntries_iff (hrun : Run contentHash history store)
    (hrun' : Run contentHash (history ++ later) after)
    (hkinds : KeepsKinds kinds (history ++ later)) (hhashed : Hashed contentHash (history ++ later))
    (hhead : fork.IsHead history) (hmoved : fork.RootMoved later since rootHead)
    (order order' : SetOrder) {prev : PatchSet}
    (hprev : prev.SameEntries (forkOverlayDelta contentHash store order fork since)) :
    (extendOverlayDelta contentHash after order' fork prev since rootHead).SameEntries
        (forkOverlayDelta contentHash after order' fork rootHead) ↔
      ExtendsAlike contentHash store after fork since rootHead := by
  have hkinds₀ : KeepsKinds kinds history := fun commit hcommit =>
    hkinds commit (mem_append_left _ hcommit)
  have hhashed₀ : Hashed contentHash history := fun commit hcommit =>
    hhashed commit (mem_append_left _ hcommit)
  have hhead' : fork.IsHead (history ++ later) := by
    intro commit hcommit hbranch
    rcases mem_append.mp hcommit with hold | hlater
    · exact hhead commit hold hbranch
    · exact absurd hbranch (hmoved.own commit hlater)
  have hbase' := hmoved.base_le.trans hmoved.since_le
  have hold₀ :=
    mem_entries_forkOverlayDelta hrun hkinds₀ hhashed₀ hhead order hmoved.base_le
  have hold : ∀ x, x ∈ prev.entries ↔
      ∃ eid, entryAt contentHash store fork since eid = some x := fun x =>
    (hprev.1 x).trans (hold₀ x)
  have hnew := mem_entries_forkOverlayDelta hrun' hkinds hhashed hhead' order' hbase'
  generalize hids : rootChanges after fork.root since rootHead = ids
  have hwindow := mem_entries_forkClassified hrun' hkinds hhashed hhead' order' (.inl rfl) ids
    rootHead
  have hentries : (∀ x, x ∈ (extendOverlayDelta contentHash after order' fork prev since
        rootHead).entries ↔ x ∈ (forkOverlayDelta contentHash after order' fork rootHead).entries) ↔
      ∀ eid ∉ ids, entryAt contentHash store fork since eid =
        entryAt contentHash after fork rootHead eid := by
    rw [← replaced_iff (fun _ _ => key_entryAt) (fun _ _ => key_entryAt) ids]
    simp only [extendOverlayDelta, hids, mem_entries_extendedPatch, hold, hwindow, hnew]
  have hnames : (∀ eid ∉ ids, entryAt contentHash store fork since eid =
      entryAt contentHash after fork rootHead eid) ↔
      ∀ eid ∉ ids,
        let sides := sidesAt contentHash after fork rootHead eid
        sides.1.map Stored.contentHash ≠ sides.2.map Stored.contentHash →
          EndsNamed contentHash store after fork since rootHead sides.1 sides.2 := by
    subst hids
    exact forall_congr' fun eid => imp_congr_right fun heid =>
      entryAt_eq_iff hrun hrun' hkinds hmoved heid
  have holdNew : ∀ urn, urn ∈ prev.nodesNew ↔
      ∃ eid, CreatedAs contentHash store fork since eid urn := by
    intro urn
    rw [hprev.2]
    exact mem_nodesNew_forkOverlayDelta hold₀ urn
  have hnewNew := mem_nodesNew_forkOverlayDelta hnew
  have hextNew : ∀ urn,
      urn ∈ (extendOverlayDelta contentHash after order' fork prev since rootHead).nodesNew ↔
        ((∃ eid, CreatedAs contentHash store fork since eid urn) ∧
          ∀ other ∈ ids, ¬ CreatedAs contentHash store fork since other urn) ∨
          ∃ eid ∈ ids, CreatedAs contentHash after fork rootHead eid urn := by
    intro urn
    have hself : ∀ urn,
        urn ∈ (forkClassified contentHash after order' fork none ids rootHead).nodesNew ↔
          ∃ n, .nodesUpsert n ∈
            (forkClassified contentHash after order' fork none ids rootHead).entries ∧
              n.urn = urn := fun _ => mem_nodesNew_forkPatch
    rw [extendOverlayDelta, hids, mem_nodesNew_extendedPatch, holdNew,
      mem_nodesNew_iff (· ∈ ids) hself hwindow]
    refine or_congr_left (and_congr_right fun _ => ?_)
    simp only [hold, ← exists_nodesUpsert_iff]
    constructor
    · rintro h other hother ⟨n, hn, rfl⟩
      have hkey : n.entityId = other := key_entryAt hn
      exact h n ⟨other, hn⟩ (hkey ▸ hother) rfl
    · rintro h n ⟨other, hn⟩ hmem rfl
      have hkey : n.entityId = other := key_entryAt hn
      exact h other (hkey ▸ hmem) ⟨n, hn, rfl⟩
  rw [PatchSet.SameEntries, hentries]
  refine Iff.trans (and_congr_right fun hsame => ?_) ⟨fun h => ⟨hids ▸ hnames.mp h.1, hids ▸ h.2⟩,
      fun h => ⟨hnames.mpr (hids ▸ h.names), hids ▸ h.urns⟩⟩
  have hcreated : ∀ eid ∉ ids, ∀ urn, CreatedAs contentHash store fork since eid urn ↔
      CreatedAs contentHash after fork rootHead eid urn := by
    intro eid heid urn
    rw [← exists_nodesUpsert_iff, ← exists_nodesUpsert_iff, hsame eid heid]
  simp only [hextNew, hnewNew]
  constructor
  · intro h eid heid urn hurn other hother hold
    rcases (h urn).mpr ⟨eid, hurn⟩ with ⟨-, hapart⟩ | hinside
    · exact absurd hold (hapart other hother)
    · exact hinside
  · intro h urn
    constructor
    · rintro (⟨⟨eid, hurn⟩, hapart⟩ | ⟨eid, -, hurn⟩)
      · have heid : eid ∉ ids := fun hmem => hapart eid hmem hurn
        exact ⟨eid, (hcreated eid heid urn).mp hurn⟩
      · exact ⟨eid, hurn⟩
    · rintro ⟨eid, hurn⟩
      by_cases heid : eid ∈ ids
      · exact .inr ⟨eid, heid, hurn⟩
      · by_cases hinside : ∃ other ∈ ids, CreatedAs contentHash store fork since other urn
        · obtain ⟨other, hother, hold⟩ := hinside
          exact .inr (h eid heid urn hurn other hother hold)
        · refine .inl ⟨⟨eid, (hcreated eid heid urn).mpr hurn⟩, fun other hother hold => ?_⟩
          exact hinside ⟨other, hother, hold⟩

end

/-- A patch set a reader holds for the fork with the root at a head: one built from
scratch, or one held and extended alike by what the root changed. -/
inductive Fork.Held (contentHash : Option Payload → η) (kinds : EntityId → Kind)
    (order : SetOrder) (fork : Fork) :
    List (Commit η) → VersionStore η → ℕ → PatchSet → Prop
  | built {history : List (Commit η)} {store : VersionStore η} {since : ℕ}
      (hrun : Run contentHash history store) (hkinds : KeepsKinds kinds history)
      (hhashed : Hashed contentHash history) (hhead : fork.IsHead history)
      (hbase : fork.base ≤ since) :
      Held contentHash kinds order fork history store since
        (forkOverlayDelta contentHash store order fork since)
  | extended {history later : List (Commit η)} {store after : VersionStore η}
      {since rootHead : ℕ} {prev : PatchSet}
      (hheld : Held contentHash kinds order fork history store since prev)
      (hrun : Run contentHash (history ++ later) after)
      (hkinds : KeepsKinds kinds (history ++ later))
      (hhashed : Hashed contentHash (history ++ later))
      (hmoved : fork.RootMoved later since rootHead)
      (halike : ExtendsAlike contentHash store after fork since rootHead) :
      Held contentHash kinds order fork (history ++ later) after rootHead
        (extendOverlayDelta contentHash after order fork prev since rootHead)

/-- What is so wherever a patch set is held. -/
structure Fork.Reading (contentHash : Option Payload → η) (kinds : EntityId → Kind) (fork : Fork)
    (history : List (Commit η)) (store : VersionStore η) (since : ℕ) : Prop where
  run : Run contentHash history store
  kinds : KeepsKinds kinds history
  hashed : Hashed contentHash history
  head : fork.IsHead history
  base : fork.base ≤ since

theorem Fork.Held.reading {order : SetOrder} {since : ℕ}
    (h : fork.Held contentHash kinds order history store since patch) :
    fork.Reading contentHash kinds history store since := by
  induction h with
  | built hrun hkinds hhashed hhead hbase => exact ⟨hrun, hkinds, hhashed, hhead, hbase⟩
  | extended _ hrun hkinds hhashed hmoved _ ih =>
    refine ⟨hrun, hkinds, hhashed, fun commit hcommit hbranch => ?_,
      hmoved.base_le.trans hmoved.since_le⟩
    rcases mem_append.mp hcommit with hold | hlater
    · exact ih.head commit hold hbranch
    · exact absurd hbranch (hmoved.own commit hlater)

theorem Fork.Held.sameEntries {order : SetOrder} {since : ℕ}
    (h : fork.Held contentHash kinds order history store since patch) :
    patch.SameEntries (forkOverlayDelta contentHash store order fork since) := by
  induction h with
  | built => exact .of_eq rfl
  | extended hheld hrun hkinds hhashed hmoved halike ih =>
    exact (sameEntries_iff hheld.reading.run hrun hkinds hhashed hheld.reading.head hmoved
      order order ih).mpr halike

end

end

/-- A patch set a reader holds has the entries of one built from scratch and gives,
laid over the root's state, the fork's; and its next extension has those entries
exactly when it extends alike. -/
theorem forkPatch_reproduces {η : Type} [DecidableEq η] (contentHash : Option Payload → η)
    (hhash : ∀ p q, contentHash p = contentHash q ↔ SamePayload p q) (kinds : EntityId → Kind)
    (order : SetOrder) (fork : Fork) (history : List (Commit η)) (store : VersionStore η)
    (since : ℕ) (patch : PatchSet)
    (hheld : fork.Held contentHash kinds order history store since patch) :
    patch.SameEntries (forkOverlayDelta contentHash store order fork since) ∧
      (∀ eid, SameLive ((laidOver store fork patch since).get? eid)
        ((composed history fork.layers).get? eid)) ∧
      ∀ later after rootHead, Run contentHash (history ++ later) after →
        KeepsKinds kinds (history ++ later) → Hashed contentHash (history ++ later) →
        fork.RootMoved later since rootHead →
        ((extendOverlayDelta contentHash after order fork patch since rootHead).SameEntries
            (forkOverlayDelta contentHash after order fork rootHead) ↔
          ExtendsAlike contentHash store after fork since rootHead) := by
  obtain ⟨hrun, hkinds, hhashed, hhead, hbase⟩ := hheld.reading
  refine ⟨hheld.sameEntries, fun eid => ?_, ?_⟩
  · have hscratch := mem_entries_forkOverlayDelta hrun hkinds hhashed hhead order hbase
    exact sameLive_laidOver hhash hrun hkinds
      (fun x => (hheld.sameEntries.1 x).trans (hscratch x)) eid
  · intro later after rootHead hrun' hkinds' hhashed' hmoved
    exact sameEntries_iff hrun hrun' hkinds' hhashed' hhead hmoved order order hheld.sameEntries

def commitOf (graph : String) (seq now : ℕ) (deltas : List (Delta (Option Json)))
    (hnodup : (deltas.map Delta.entityId).Nodup)
    (hpayload : ∀ d ∈ deltas, d.op = .delete ↔ d.payload = none) : Commit (Option Json) :=
  ⟨(graph, "main"), seq, deltas, smallKinds, now, hnodup, hpayload⟩

def smallFork : Fork := ⟨("f", "main"), 2, [], ("g", "main"), 1⟩

theorem payload_smallGraph : ∀ d ∈ smallGraph, d.op = .delete ↔ d.payload = none := by decide

theorem payload_removed : ∀ d ∈ [changeTo "x" (some (edgeOf "FLOWS" "a" "b")) none],
    d.op = .delete ↔ d.payload = none := by decide

theorem payload_moved : ∀ d ∈ [changeTo "a" (some [("urn", .str "a")]) (some [("urn", .str "a2")])],
      d.op = .delete ↔ d.payload = none := by decide

def edgeRemoved : List (Commit (Option Json)) :=
  [commitOf "g" 1 1 smallGraph (by decide : ["a", "b", "x"].Nodup) payload_smallGraph,
    commitOf "f" 2 2 [changeTo "x" (some (edgeOf "FLOWS" "a" "b")) none] (nodup_singleton _)
      payload_removed]

def nodeNamed : List (Commit (Option Json)) :=
  [commitOf "g" 2 3 [changeTo "b" (some [("urn", .str "b")])
    (some [("urn", .str "b"), ("displayName", .str "B")])] (by decide) (by decide)]

def nodeMoved : List (Commit (Option Json)) :=
  [commitOf "g" 2 3 [changeTo "a" (some [("urn", .str "a")]) (some [("urn", .str "a2")])]
    (nodup_singleton _) payload_moved]

def smallKindOf (eid : EntityId) : Kind :=
  if eid = "x" then .edge else .node

/-- The patch set gives the fork, and extends alike when the root names a node. -/
theorem forkPatch_reproduces_nodeNamed : ∃ store after, Run canonicalForm edgeRemoved store ∧
      Run canonicalForm (edgeRemoved ++ nodeNamed) after ∧
      (forkOverlayDelta canonicalForm store insertionOrder smallFork 1).edgesRemove =
        [⟨"x", ⟨"a", "b", "FLOWS"⟩⟩] ∧
      (∀ eid, SameLive ((laidOver store smallFork
          (forkOverlayDelta canonicalForm store insertionOrder smallFork 1) 1).get? eid)
        ((composed edgeRemoved smallFork.layers).get? eid)) ∧
      ExtendsAlike canonicalForm store after smallFork 1 2 := by
  have hrun : Run canonicalForm edgeRemoved _ :=
    .commit _ false (.commit _ false .start (by decide) rfl) (by decide) rfl
  have hrun' : Run canonicalForm (edgeRemoved ++ nodeNamed) _ :=
    .commit _ false hrun (by decide) rfl
  have hkinds : KeepsKinds smallKindOf (edgeRemoved ++ nodeNamed) := by
    unfold KeepsKinds
    decide +kernel
  have hhashed : Hashed canonicalForm (edgeRemoved ++ nodeNamed) := by
    unfold Hashed
    decide +kernel
  have hhead : smallFork.IsHead edgeRemoved := by
    unfold Fork.IsHead
    decide +kernel
  obtain ⟨-, hlaid, hextend⟩ := forkPatch_reproduces canonicalForm (fun _ _ => Iff.rfl)
    smallKindOf insertionOrder smallFork edgeRemoved _ 1 _
    (.built hrun (fun commit hcommit => hkinds commit (mem_append_left _ hcommit))
      (fun commit hcommit => hhashed commit (mem_append_left _ hcommit)) hhead le_rfl)
  refine ⟨_, _, hrun, hrun', by decide +kernel, hlaid, ?_⟩
  refine (hextend nodeNamed _ 2 hrun' hkinds hhashed
    ⟨by decide +kernel, by decide +kernel, by decide +kernel, le_rfl, by decide⟩).mp ?_
  exact .of_eq (by decide +kernel)

/-- When the root gives an end of the removed edge another urn, an extension keeps the
old one. -/
theorem forkPatch_nodeMoved : ∃ store after, Run canonicalForm edgeRemoved store ∧
      Run canonicalForm (edgeRemoved ++ nodeMoved) after ∧
      smallFork.RootMoved nodeMoved 1 2 ∧
      let prev := forkOverlayDelta canonicalForm store insertionOrder smallFork 1
      let extended := extendOverlayDelta canonicalForm after insertionOrder smallFork prev 1 2
      let scratch := forkOverlayDelta canonicalForm after insertionOrder smallFork 2
      extended.edgesRemove = [⟨"x", ⟨"a", "b", "FLOWS"⟩⟩] ∧
        scratch.edgesRemove = [⟨"x", ⟨"a2", "b", "FLOWS"⟩⟩] ∧
        ¬ extended.SameEntries scratch := by
  have hrun : Run canonicalForm edgeRemoved _ :=
    .commit _ false (.commit _ false .start (by decide) rfl) (by decide) rfl
  have hrun' : Run canonicalForm (edgeRemoved ++ nodeMoved) _ :=
    .commit _ false hrun (by decide) rfl
  refine ⟨_, _, hrun, hrun',
    ⟨by decide +kernel, by decide +kernel, by decide +kernel, le_rfl, by decide⟩,
    by decide +kernel, by decide +kernel, fun hsame => ?_⟩
  have hentry := (hsame.1 (.edgesRemove ⟨"x", ⟨"a", "b", "FLOWS"⟩⟩)).mp (by decide +kernel)
  exact absurd hentry (by decide +kernel)

end DataViz.Versioning
