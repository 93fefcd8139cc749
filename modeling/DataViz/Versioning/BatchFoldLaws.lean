/-
# When a folded batch agrees with its operations

Of each entity the fold holds a value still to be laid, and the operations one by one leave a
payload. A step keeps the two alike exactly where it suits what the fold holds. An operation that
sets without a payload never suits: it deletes, and the fold takes it for an empty one.
-/

import DataViz.Versioning.BatchFold
import DataViz.Versioning.Cascade
import DataViz.Versioning.PatchComposition

namespace DataViz.Versioning

open List Dict Option

variable {op : ChangeOp} {isEdge : Payload → Bool}

section

variable {first second : Payload}

theorem views_of_same (same : SamePayload (some first) (some second)) :
    (∀ field, Json.Same? (first.get? field) (second.get? field)) ∧
      hasProperties first = hasProperties second ∧
      ∀ key, Json.Same? ((propertiesOf first).get? key) ((propertiesOf second).get? key) := by
  have fields : ∀ field, Json.Same? (first.get? field) (second.get? field) := by
    simpa [SamePayload, Json.eqBy_obj_iff] using same
  refine ⟨fields, ?_, fun key => ?_⟩
  · have here := fields "properties"
    unfold hasProperties
    cases one : first.get? "properties" with
    | none =>
      rw [one] at here
      rw [Json.eqBy?_none_left.mp here]
    | some value =>
      cases two : second.get? "properties" with
      | none =>
        rw [one, two] at here
        cases Json.eqBy?_none_right.mp here
      | some value' =>
        rw [one, two] at here
        replace here := Json.eqBy?_some.mp here
        have null : value = .null ↔ value' = .null := by
          constructor
          · rintro rfl
            exact same_scalar_iff.mp here
          · rintro rfl
            exact same_scalar_iff.mp (Eq.symm here)
        simp [null]
  · have here := fields "properties"
    unfold propertiesOf
    cases one : first.get? "properties" with
    | none =>
      rw [one] at here
      rw [Json.eqBy?_none_left.mp here]
    | some value =>
      cases two : second.get? "properties" with
      | none =>
        rw [one, two] at here
        cases Json.eqBy?_none_right.mp here
      | some value' =>
        rw [one, two] at here
        replace here := Json.eqBy?_some.mp here
        cases value with
        | scalar s => rw [same_scalar_iff.mp here]
        | arr items =>
          cases value' with
          | arr items' => rfl
          | scalar s => cases here
          | obj fields => cases here
        | obj before =>
          obtain ⟨after, rfl⟩ := here.exists_obj
          exact Json.eqBy_obj_iff.mp here key

theorem isSome_of_same {first second : Option Json} (same : Json.Same? first second) :
    first.isSome = second.isSome := by
  cases first with
  | none => rw [Json.eqBy?_none_left.mp same]
  | some value =>
    cases second with
    | none => cases Json.eqBy?_none_right.mp same
    | some value' => rfl

theorem mergeProp_same {before before' : Option Json} (sent : Option Json)
    (same : Json.Same? before before') :
    Json.Same? (dropMarker (mergeProp before sent)) (dropMarker (mergeProp before' sent)) := by
  cases sent with
  | some value => exact (same_dropMarker_iff _ _).mpr (keptOver_same value same).2
  | none =>
    cases before with
    | none => rw [Json.eqBy?_none_left.mp same]
    | some value =>
      cases before' with
      | none => cases Json.eqBy?_none_right.mp same
      | some value' => exact (same_dropMarker_iff _ _).mpr (Json.eqBy?_some.mp same)

/-- A patch does the same to payloads that are the same. -/
theorem patched_same (same : SamePayload (some first) (some second)) (patch : Payload) :
    (PropsMerge first patch ↔ PropsMerge second patch) ∧
      SamePayload (some (patched first patch)) (some (patched second patch)) := by
  obtain ⟨fields, given, properties⟩ := views_of_same same
  constructor
  · exact forall_congr' fun key => forall_congr' fun value => forall_congr' fun _ =>
      (keptOver_same value (properties key)).1
  · rw [samePayload_iff (properProperties_patched _ _) (properProperties_patched _ _)]
    refine ⟨fun field other => ?_, ?_, ?_, fun key => ?_⟩
    · rw [patched, patched, get?_overlay _ _ _ other, get?_overlay _ _ _ other]
      cases patch.get? field with
      | none => exact fields field
      | some value => rfl
    · rw [patched, patched, hasProperties_overlay, hasProperties_overlay, given]
    · rw [patched, patched, isSome_overlay, isSome_overlay, isSome_of_same (fields "properties")]
    · rw [get?_propertiesOf_patched, get?_propertiesOf_patched]
      exact mergeProp_same _ (properties key)

end

variable {stored patch : Payload}

theorem mergeable_nil (patch : Payload) : PropsMerge [] patch :=
  fun _ _ _ _ absurd => nomatch absurd

/-- Over nothing a patch leaves what creating its payload leaves. -/
theorem patched_nil (proper : ProperProperties patch) :
    SamePayload (some (patched [] patch)) (some (stripDeletes patch)) := by
  rw [samePayload_iff (properProperties_patched _ _) (properProperties_stripDeletes _ proper)]
  refine ⟨fun field other => ?_, ?_, ?_, fun key => ?_⟩
  · rw [patched, get?_overlay _ _ _ other, get?_stripDeletes _ other, get?_nil, or_none]
  · rw [patched, hasProperties_overlay, hasProperties_stripDeletes]
    exact Bool.or_false _
  · rw [patched, isSome_overlay, isSome_stripDeletes]
    exact Bool.or_false _
  · have empty : (propertiesOf ([] : Payload)).get? key = none := rfl
    rw [get?_propertiesOf_patched, get?_propertiesOf_stripDeletes, empty, mergeProp_none_left]

/-- A stored property that a patch removes, or sets to a value that is not taken for it. -/
def HiddenProp (value : Json) : Option Json → Prop
  | some sent => Replaces value sent
  | none => value = propDelete

/-- Nothing of a stored payload shows through a patch, which names each of its fields and hides
each of its properties. -/
structure Hidden (stored patch : Payload) : Prop where
  fields : ∀ field ∈ stored.keys, field ∈ patch.keys
  given : hasProperties stored = true → hasProperties patch = true
  properties : ∀ key value, (propertiesOf stored).get? key = some value →
    HiddenProp value ((propertiesOf patch).get? key)

theorem hiddenProp_iff {value : Json} {sent : Option Json} : HiddenProp value sent ↔
      (∀ y, sent = some y → Returns value y) ∧
        Json.Same? (dropMarker (mergeProp (some value) sent)) (dropMarker sent) := by
  cases sent with
  | some y =>
    rw [mergeProp_some, same_dropMarker_iff]
    simp [HiddenProp, Replaces, keptOver]
  | none =>
    rw [mergeProp_none_right, dropMarker_none]
    by_cases marker : value = propDelete
    · subst marker
      refine iff_of_true rfl ⟨fun _ sent => ?_, rfl⟩
      cases sent
    · rw [dropMarker_of_ne marker]
      refine iff_of_false marker fun both => ?_
      cases both.2

theorem hidden_iff : (PropsMerge stored patch ∧
        SamePayload (some (patched stored patch)) (some (patched [] patch))) ↔
      Hidden stored patch := by
  have empty : ∀ key, (propertiesOf ([] : Payload)).get? key = none := fun _ => rfl
  rw [samePayload_iff (properProperties_patched _ _) (properProperties_patched _ _)]
  simp only [get?_propertiesOf_patched, empty, mergeProp_none_left]
  simp only [patched, hasProperties_overlay, isSome_overlay]
  constructor
  · rintro ⟨returns, fields, given, named, properties⟩
    refine ⟨fun field mem => ?_, fun has => ?_, fun key value here => ?_⟩
    · by_contra unsent
      have absent : patch.get? field = none := get?_eq_none_iff.mpr unsent
      have there : (stored.get? field).isSome = true := mem_keys_iff.mp mem
      by_cases name : field = "properties"
      · subst name
        rw [absent, there] at named
        cases named
      · have same := fields field name
        rw [get?_overlay _ _ _ name, get?_overlay _ _ _ name, absent] at same
        have gone : stored.get? field = none := Json.eqBy?_none_right.mp same
        rw [gone] at there
        cases there
    · rw [has] at given
      simpa [hasProperties] using given
    · have same := properties key
      rw [here] at same
      exact hiddenProp_iff.mpr ⟨fun y sent => returns key y sent value here, same⟩
  · intro hidden
    have each : ∀ key value, (propertiesOf stored).get? key = some value →
        (∀ y, (propertiesOf patch).get? key = some y → Returns value y) ∧
          Json.Same? (dropMarker (mergeProp (some value) ((propertiesOf patch).get? key)))
            (dropMarker ((propertiesOf patch).get? key)) :=
      fun key value here => hiddenProp_iff.mp (hidden.properties key value here)
    refine ⟨fun key y sent value here => (each key value here).1 y sent,
      fun field name => ?_, ?_, ?_, fun key => ?_⟩
    · rw [get?_overlay _ _ _ name, get?_overlay _ _ _ name]
      cases sent : patch.get? field with
      | some value => rfl
      | none =>
        have gone : stored.get? field = none := get?_eq_none_iff.mpr fun mem =>
          get?_eq_none_iff.mp sent (hidden.fields field mem)
        rw [gone]
        rfl
    · cases has : hasProperties stored with
      | false => rfl
      | true => rw [hidden.given has, Bool.true_or, Bool.true_or]
    · cases there : (stored.get? "properties").isSome with
      | false => rfl
      | true =>
        rw [mem_keys_iff.mp (hidden.fields _ (mem_keys_iff.mpr there)), Bool.true_or, Bool.true_or]
    · cases here : (propertiesOf stored).get? key with
      | none => rw [mergeProp_none_left]
      | some value => exact (each key value here).2

/-- What the fold holds of an entity after an operation, and whether it is a patch. -/
def nextPending (pending : Option (Option Payload)) (isPatch : Bool) (op : ChangeOp) :
    Except CompareError (Option Payload × Bool) :=
  let payload := op.payload.getD []
  match op.op, pending.join with
  | .update, some earlier =>
    if isPatch then (composePatches earlier payload).map fun value => (some value, true)
    else (applyPatch (some earlier) payload).map fun value => (some value, false)
  | .update, none => .ok (some payload, true)
  | .create, _ => .ok (some (stripDeletes payload), false)
  | .delete, _ => .ok (none, false)

/-- What is held of an entity, laid over its stored value, is what the operations leave of it. -/
def LandsAlike (stored : Option Payload) (pending : Option (Option Payload)) (isPatch : Bool)
    (applied : Option Payload) : Prop :=
  match pending with
  | none => SamePayload stored applied
  | some none => SamePayload none applied
  | some (some value) =>
    if isPatch then
      PropsMerge (stored.getD []) value ∧
        SamePayload (some (patched (stored.getD []) value)) applied
    else SamePayload (some value) applied

/-- What an update meets where it suits a stored value and what is held over it. -/
def UpdateSuits (stored : Option Payload) (pending : Option (Option Payload)) (isPatch : Bool)
    (payload : Payload) : Prop :=
  match pending, stored with
  | none, none => True
  | none, some current => PropsMerge current payload
  | some none, none => True
  | some none, some current => Hidden current payload
  | some (some earlier), stored =>
    if isPatch then
      ∀ key, ComesAlike ((propertiesOf (stored.getD [])).get? key)
        ((propertiesOf earlier).get? key) ((propertiesOf payload).get? key)
    else PropsMerge earlier payload

/-- What an operation meets where it suits a stored value and what is held over it. -/
def Suits (stored : Option Payload) (pending : Option (Option Payload)) (isPatch : Bool)
    (op : ChangeOp) : Prop :=
  match op.op, op.payload with
  | .delete, _ => True
  | _, none => False
  | .create, some _ => True
  | .update, some payload => UpdateSuits stored pending isPatch payload

section

variable {stored applied : Option Payload} {pending : Option (Option Payload)} {isPatch : Bool}

theorem samePayload_none_iff : SamePayload none applied ↔ applied = none := by
  cases applied <;> simp [SamePayload]

theorem SamePayload.exists_some {value : Payload} (same : SamePayload (some value) applied) :
    ∃ value', applied = some value' := by
  cases applied with
  | none => simp [SamePayload] at same
  | some value' => exact ⟨value', rfl⟩

/-- What an update leaves of a value that is there. -/
theorem applyTo_update {payload current : Payload} (update : op.op = .update)
    (sent : op.payload = some payload) {left : Option Payload} :
    op.applyTo (some current) = .ok left ↔
      PropsMerge current payload ∧ left = some (patched current payload) := by
  simp only [ChangeOp.applyTo, update, sent, map_eq_ok, applyPatch_eq_ok, getD_some]
  exact ⟨fun ⟨_, ⟨returns, same⟩, here⟩ => ⟨returns, same ▸ here.symm⟩,
    fun ⟨returns, here⟩ => ⟨_, ⟨returns, rfl⟩, here.symm⟩⟩

variable {payload : Payload}

theorem applyTo_none (update : op.op = .update)
    (sent : op.payload = some payload) :
    op.applyTo none = .ok (some (stripDeletes payload)) := by
  simp [ChangeOp.applyTo, update, sent]

theorem nextPending_first (update : op.op = .update)
    (sent : op.payload = some payload) (unheld : pending.join = none) :
    nextPending pending isPatch op = .ok (some payload, true) := by
  simp [nextPending, update, sent, unheld]

theorem nextPending_patch {payload earlier value : Payload} {patch : Bool}
    (update : op.op = .update) (sent : op.payload = some payload) :
    nextPending (some (some earlier)) true op = .ok (some value, patch) ↔
      PropsMerge earlier payload ∧ value = joined earlier payload ∧ patch = true := by
  simp only [nextPending, update, sent, join_some, if_true, map_eq_ok,
    composePatches_eq_ok, getD_some]
  constructor
  · rintro ⟨_, ⟨returns, rfl⟩, same⟩
    cases same
    exact ⟨returns, rfl, rfl⟩
  · rintro ⟨returns, rfl, rfl⟩
    exact ⟨_, ⟨returns, rfl⟩, rfl⟩

theorem nextPending_whole {payload earlier value : Payload} {patch : Bool}
    (update : op.op = .update) (sent : op.payload = some payload) :
    nextPending (some (some earlier)) false op = .ok (some value, patch) ↔
      PropsMerge earlier payload ∧ value = patched earlier payload ∧ patch = false := by
  simp only [nextPending, update, sent, join_some, Bool.false_eq_true, if_false, map_eq_ok,
    applyPatch_eq_ok, getD_some]
  constructor
  · rintro ⟨_, ⟨returns, rfl⟩, same⟩
    cases same
    exact ⟨returns, rfl, rfl⟩
  · rintro ⟨returns, rfl, rfl⟩
    exact ⟨_, ⟨returns, rfl⟩, rfl⟩

theorem nextPending_held {earlier : Payload} {value : Option Payload} {patch : Bool}
    (update : op.op = .update)
    (next : nextPending (some (some earlier)) isPatch op = .ok (value, patch)) :
    ∃ payload, value = some payload := by
  simp only [nextPending, update, join_some] at next
  split at next
  · obtain ⟨payload, -, same⟩ := map_eq_ok.mp next
    cases same
    exact ⟨payload, rfl⟩
  · obtain ⟨payload, -, same⟩ := map_eq_ok.mp next
    cases same
    exact ⟨payload, rfl⟩

/-- The first patch over an entity that the operations have left absent. -/
theorem first_absent_iff (proper : ProperProperties payload) :
    LandsAlike stored (some (some payload)) true (some (stripDeletes payload)) ↔
      PropsMerge (stored.getD []) payload ∧
        SamePayload (some (patched (stored.getD []) payload)) (some (patched [] payload)) :=
  and_congr_right fun _ => ⟨fun same => same.trans (patched_nil proper).symm,
    fun same => same.trans (patched_nil proper)⟩

/-- An update keeps an entity alike exactly where it suits. -/
theorem alike_update_iff (update : op.op = .update)
    (sent : op.payload = some payload) (proper : ProperProperties payload)
    (alike : LandsAlike stored pending isPatch applied) :
    (∃ value patch left, nextPending pending isPatch op = .ok (value, patch) ∧
        op.applyTo applied = .ok left ∧ LandsAlike stored (some value) patch left) ↔
      UpdateSuits stored pending isPatch payload := by
  have nothing : PropsMerge [] payload ∧
      SamePayload (some (patched [] payload)) (some (patched [] payload)) :=
    ⟨mergeable_nil payload, SamePayload.refl _⟩
  match pending, stored with
  | none, none =>
    obtain rfl := samePayload_none_iff.mp alike
    refine iff_of_true ⟨_, _, _, nextPending_first update sent rfl,
      applyTo_none update sent, (first_absent_iff proper).mpr nothing⟩ trivial
  | none, some current =>
    obtain ⟨left, rfl⟩ := alike.exists_some
    obtain ⟨returns, same⟩ := patched_same alike payload
    rw [nextPending_first update sent rfl]
    constructor
    · rintro ⟨_, _, _, held, -, lands⟩
      cases held
      exact lands.1
    · intro mergeable
      exact ⟨_, _, _, rfl, (applyTo_update update sent).mpr ⟨returns.mp mergeable, rfl⟩,
        mergeable, same⟩
  | some none, none =>
    obtain rfl := samePayload_none_iff.mp alike
    refine iff_of_true ⟨_, _, _, nextPending_first update sent rfl,
      applyTo_none update sent, (first_absent_iff proper).mpr nothing⟩ trivial
  | some none, some current =>
    obtain rfl := samePayload_none_iff.mp alike
    have hidden : LandsAlike (some current) (some (some payload)) true
        (some (stripDeletes payload)) ↔ Hidden current payload :=
      (first_absent_iff proper).trans hidden_iff
    rw [nextPending_first update sent rfl, applyTo_none update sent]
    constructor
    · rintro ⟨_, _, _, held, left, lands⟩
      cases held
      cases left
      exact hidden.mp lands
    · intro hides
      exact ⟨_, _, _, rfl, rfl, hidden.mpr hides⟩
  | some (some earlier), stored =>
    cases isPatch with
    | true =>
      obtain ⟨first, laid⟩ := alike
      obtain ⟨current, rfl⟩ := laid.exists_some
      obtain ⟨returns, same⟩ := patched_same laid payload
      refine Iff.trans ?_ (comeAlike_iff (stored.getD []) earlier payload)
      constructor
      · rintro ⟨value, patch, left, next, done, lands⟩
        obtain ⟨value, rfl⟩ := nextPending_held update next
        obtain ⟨composes, rfl, rfl⟩ := (nextPending_patch update sent).mp next
        obtain ⟨applies, rfl⟩ := (applyTo_update update sent).mp done
        exact ⟨first, returns.mpr applies, composes, lands.1, same.trans lands.2.symm⟩
      · rintro ⟨-, applies, composes, lays, alike⟩
        exact ⟨_, _, _, (nextPending_patch update sent).mpr ⟨composes, rfl, rfl⟩,
          (applyTo_update update sent).mpr ⟨returns.mp applies, rfl⟩, lays,
          alike.symm.trans same⟩
    | false =>
      obtain ⟨current, rfl⟩ := SamePayload.exists_some alike
      obtain ⟨returns, same⟩ := patched_same alike payload
      constructor
      · rintro ⟨value, patch, left, next, -, -⟩
        obtain ⟨value, rfl⟩ := nextPending_held update next
        exact ((nextPending_whole update sent).mp next).1
      · intro applies
        exact ⟨_, _, _, (nextPending_whole update sent).mpr ⟨applies, rfl, rfl⟩,
          (applyTo_update update sent).mpr ⟨returns.mp applies, rfl⟩, same⟩

theorem not_alike_absent {value : Payload} :
    ¬ LandsAlike stored (some (some value)) isPatch none := by
  intro alike
  cases isPatch with
  | true => cases samePayload_none_iff.mp alike.2.symm
  | false => cases samePayload_none_iff.mp (SamePayload.symm alike)

theorem nextPending_update (update : op.op = .update) {value : Option Payload} {patch : Bool}
    (next : nextPending pending isPatch op = .ok (value, patch)) :
    ∃ payload, value = some payload := by
  cases held : pending.join with
  | none =>
    simp only [nextPending, update, held, Except.ok.injEq, Prod.mk.injEq] at next
    exact ⟨_, next.1.symm⟩
  | some earlier =>
    rw [join_eq_some_iff.mp held] at next
    exact nextPending_held update next

/-- An operation that sets without a payload deletes, and is folded as an empty one. -/
theorem not_alike_unsent (kind : op.op ≠ .delete) (unsent : op.payload = none) :
    ¬ ∃ value patch left, nextPending pending isPatch op = .ok (value, patch) ∧
      op.applyTo applied = .ok left ∧ LandsAlike stored (some value) patch left := by
  rintro ⟨value, patch, left, next, done, lands⟩
  have gone : op.applyTo applied = .ok none := by
    cases sets : op.op <;> simp [ChangeOp.applyTo, sets, unsent]
  have held : ∃ payload, value = some payload := by
    cases sets : op.op with
    | delete => exact absurd sets kind
    | update => exact nextPending_update sets next
    | create =>
      simp only [nextPending, sets, Except.ok.injEq, Prod.mk.injEq] at next
      exact ⟨_, next.1.symm⟩
  obtain ⟨payload, rfl⟩ := held
  rw [gone] at done
  cases done
  exact not_alike_absent lands

/-- An operation keeps an entity alike exactly where it suits. -/
theorem alike_step_iff (proper : ProperProperties (op.payload.getD []))
    (alike : LandsAlike stored pending isPatch applied) :
    (∃ value patch left, nextPending pending isPatch op = .ok (value, patch) ∧
        op.applyTo applied = .ok left ∧ LandsAlike stored (some value) patch left) ↔
      Suits stored pending isPatch op := by
  cases kind : op.op with
  | delete =>
    refine iff_of_true ⟨none, false, none, ?_, ?_, SamePayload.refl _⟩ ?_
    · simp [nextPending, kind]
    · simp [ChangeOp.applyTo, kind]
    · simp [Suits, kind]
  | create =>
    cases sent : op.payload with
    | none =>
      exact iff_of_false (not_alike_unsent (by simp [kind]) sent) (by simp [Suits, kind, sent])
    | some payload =>
      refine iff_of_true ⟨some (stripDeletes payload), false, some (stripDeletes payload),
        ?_, ?_, SamePayload.refl _⟩ ?_
      · simp [nextPending, kind, sent]
      · simp [ChangeOp.applyTo, kind, sent]
      · simp [Suits, kind, sent]
  | update =>
    cases sent : op.payload with
    | none =>
      exact iff_of_false (not_alike_unsent (by simp [kind]) sent) (by simp [Suits, kind, sent])
    | some payload =>
      rw [sent] at proper
      rw [alike_update_iff kind sent proper alike, Suits, kind, sent]

end

section

/-- The fold after an operation, by what it then holds of the operation's entity. -/
def BatchFold.holding (isEdge : Payload → Bool) (sanitizeNode : Payload → Payload)
    (out : BatchFold) (op : ChangeOp) (held : Option Payload × Bool) : BatchFold where
  newVals := out.newVals.set op.entityId
    (held.1.map fun value => if op.kind isEdge = .node then sanitizeNode value else value)
  kindByEntity := out.kindByEntity.set op.entityId (op.kind isEdge)
  updateIds :=
    if held.2 then out.updateIds.insert op.entityId
    else out.updateIds.filter (· ≠ op.entityId)
  baseVersions :=
    match op.op, (out.newVals.get? op.entityId).join, op.baseVersion with
    | .update, none, some version => out.baseVersions.set op.entityId version
    | _, _, _ => out.baseVersions

theorem foldOp_eq (sanitizeNode : Payload → Payload) (out : BatchFold) (op : ChangeOp) :
    foldOp isEdge sanitizeNode out op =
      (nextPending (out.newVals.get? op.entityId) (op.entityId ∈ out.updateIds) op).map
        (out.holding isEdge sanitizeNode op) := by
  unfold foldOp nextPending
  cases kind : op.op with
  | create => simp [Except.map, BatchFold.holding, kind]
  | delete => simp [Except.map, BatchFold.holding, kind]
  | update =>
    cases held : (out.newVals.get? op.entityId).join with
    | none =>
      simp only [Except.map, BatchFold.holding, kind, held]
      cases op.baseVersion <;> rfl
    | some earlier =>
      by_cases patch : op.entityId ∈ out.updateIds
      · have ids : out.updateIds.insert op.entityId = out.updateIds := insert_of_mem patch
        simp only [held, patch, if_true, decide_true]
        cases composePatches earlier (op.payload.getD []) with
        | error e => rfl
        | ok value => simp [Except.map, bind, Except.bind, pure, Except.pure,
            BatchFold.holding, kind, held, ids]
      · have ids : out.updateIds.filter (fun id => !decide (id = op.entityId)) = out.updateIds := by
          rw [filter_eq_self]
          intro id mem
          have other : id ≠ op.entityId := fun same => patch (same ▸ mem)
          simp [other]
        simp only [held, patch, if_false, decide_false, Bool.false_eq_true]
        cases applyPatch (some earlier) (op.payload.getD []) with
        | error e => rfl
        | ok value => simp [Except.map, bind, Except.bind, pure, Except.pure,
            BatchFold.holding, kind, held, ids]

/-- The payloads of an entity that some operation treats as a node are sanitized, as
staging leaves them. -/
def Sanitized (isEdge : Payload → Bool) (ops : List ChangeOp) : Prop :=
  ∀ op ∈ ops, op.kind isEdge = .node → ∀ other ∈ ops, other.entityId = op.entityId →
    Unreserved (other.payload.getD [])

theorem unreserved_nextPending {pending : Option (Option Payload)} {isPatch : Bool} {op : ChangeOp}
    (before : ∀ value, pending.join = some value → Unreserved value)
    (sent : Unreserved (op.payload.getD [])) {value : Payload} {patch : Bool}
    (next : nextPending pending isPatch op = .ok (some value, patch)) : Unreserved value := by
  unfold nextPending at next
  split at next
  · rename_i earlier _ held
    split at next
    · simp only [map_eq_ok, composePatches_eq_ok, Prod.mk.injEq, some.injEq] at next
      obtain ⟨_, ⟨-, rfl⟩, rfl, -⟩ := next
      exact (before earlier held).joined sent
    · simp only [map_eq_ok, applyPatch_eq_ok, getD_some, Prod.mk.injEq,
        some.injEq] at next
      obtain ⟨_, ⟨-, rfl⟩, rfl, -⟩ := next
      exact (before earlier held).patched sent
  · cases next
    exact sent
  · cases next
    exact sent.stripDeletes
  · cases next

/-- Sanitizing a value that is so already, or is no node's, leaves it. -/
theorem sanitize_held {op : ChangeOp} {held : Option Payload}
    (clean : op.kind isEdge = .node → ∀ value, held = some value → Unreserved value) :
    held.map (fun value => if op.kind isEdge = .node then sanitizeNodeProperties value else value) =
      held := by
  cases held with
  | none => rfl
  | some value =>
    rw [map_some]
    split
    · rename_i node
      rw [sanitizeNodeProperties_of_unreserved (clean node value rfl)]
    · rfl

theorem foldBatchOps_concat (sanitizeNode : Payload → Payload) (ops : List ChangeOp)
    (op : ChangeOp) :
    foldBatchOps isEdge sanitizeNode (ops ++ [op]) =
      foldBatchOps isEdge sanitizeNode ops >>= fun fold => foldOp isEdge sanitizeNode fold op := by
  simp [foldBatchOps]

theorem materialize_concat (curVals : State) (ops : List ChangeOp) (op : ChangeOp) :
    materialize curVals (ops ++ [op]) =
      materialize curVals ops >>= fun state => materializeOp state op := by
  simp [materialize]

/-- What is held of an entity whose payloads are sanitized is sanitized. -/
theorem unreserved_foldBatchOps {ops : List ChangeOp} {fold : BatchFold}
    (returned : foldBatchOps isEdge sanitizeNodeProperties ops = .ok fold) {eid : EntityId}
    (clean : ∀ op ∈ ops, op.entityId = eid → Unreserved (op.payload.getD [])) {value : Payload}
    (held : (fold.newVals.get? eid).join = some value) : Unreserved value := by
  induction ops using reverseRecOn generalizing fold value with
  | nil =>
    cases returned
    cases held
  | append_singleton ops op ih =>
    simp only [foldBatchOps_concat, bind_eq_ok, foldOp_eq, map_eq_ok] at returned
    obtain ⟨before, prior, ⟨next, patch⟩, stepped, rfl⟩ := returned
    have earlier : ∀ value, (before.newVals.get? eid).join = some value → Unreserved value :=
      fun _ => ih prior fun op mem => clean op (mem_append_left _ mem)
    by_cases same : op.entityId = eid
    · subst same
      have sent := clean op (mem_append_right _ mem_cons_self) rfl
      rw [BatchFold.holding, get?_set_self, sanitize_held] at held
      · cases held
        exact unreserved_nextPending earlier sent stepped
      · rintro - value rfl
        exact unreserved_nextPending earlier sent stepped
    · rw [BatchFold.holding, get?_set_ne same] at held
      exact earlier value held

end

section

variable (curVals : State) (fold : BatchFold)

def LayReturns (eid : EntityId) (value : Option Payload) : Prop :=
  ∀ patch, value = some patch → eid ∈ fold.updateIds →
    PropsMerge ((curVals.get? eid).join.getD []) patch

def laidValue (eid : EntityId) (value : Option Payload) : Option Payload :=
  if eid ∈ fold.updateIds then value.map (patched ((curVals.get? eid).join.getD [])) else value

variable {curVals fold}

theorem layEntry_eq_ok {eid : EntityId} {value laid : Option Payload} :
    layEntry curVals fold eid value = .ok laid ↔
      LayReturns curVals fold eid value ∧ laid = laidValue curVals fold eid value := by
  cases value with
  | none => simp [layEntry, LayReturns, laidValue, eq_comm]
  | some patch =>
    by_cases mem : eid ∈ fold.updateIds
    · rw [layEntry, if_pos mem]
      simp only [map_eq_ok, applyPatch_eq_ok, LayReturns, laidValue,
        map_some, some.injEq, forall_eq', mem, true_implies]
      exact ⟨fun ⟨_, ⟨returns, same⟩, here⟩ => ⟨returns, same ▸ here.symm⟩,
        fun ⟨returns, here⟩ => ⟨_, ⟨returns, rfl⟩, here.symm⟩⟩
    · simp [layEntry, LayReturns, laidValue, mem, eq_comm]

theorem layFold_eq_ok {laid : State} : layFold curVals fold = .ok laid ↔
      (∀ eid value, fold.newVals.get? eid = some value → LayReturns curVals fold eid value) ∧
        laid = curVals.update (fold.newVals.items.map fun entry =>
          (entry.1, laidValue curVals fold entry.1 entry.2)) := by
  simp only [layFold, bind_eq_ok, mapValuesM_eq_ok fun _ _ _ => layEntry_eq_ok]
  constructor
  · rintro ⟨values, ⟨returns, rfl⟩, same⟩
    exact ⟨returns, (Except.ok.inj same).symm⟩
  · rintro ⟨returns, rfl⟩
    exact ⟨_, ⟨returns, rfl⟩, rfl⟩

theorem alike_held_iff {eid : EntityId} {value applied : Option Payload} :
    LandsAlike (curVals.get? eid).join (some value) (eid ∈ fold.updateIds) applied ↔
      LayReturns curVals fold eid value ∧
        SamePayload (laidValue curVals fold eid value) applied := by
  cases value with
  | none => simp [LandsAlike, LayReturns, laidValue]
  | some patch =>
    by_cases mem : eid ∈ fold.updateIds
    · simp [LandsAlike, LayReturns, laidValue, mem]
    · simp [LandsAlike, LayReturns, laidValue, mem]

/-- Laying a fold returns and leaves given payloads exactly where what it holds of each entity
does. -/
theorem layFold_iff_alike {applied : EntityId → Option Payload} :
    (∃ laid, layFold curVals fold = .ok laid ∧
        ∀ eid, SamePayload (laid.get? eid).join (applied eid)) ↔
      ∀ eid, LandsAlike (curVals.get? eid).join (fold.newVals.get? eid) (eid ∈ fold.updateIds)
        (applied eid) := by
  have view : ∀ eid, ((curVals.update (fold.newVals.items.map fun entry =>
      (entry.1, laidValue curVals fold entry.1 entry.2))).get? eid).join =
        match fold.newVals.get? eid with
        | some value => laidValue curVals fold eid value
        | none => (curVals.get? eid).join := by
    intro eid
    rw [get?_update, get?_map_items]
    cases fold.newVals.get? eid <;> rfl
  have each : ∀ eid, LandsAlike (curVals.get? eid).join (fold.newVals.get? eid)
      (eid ∈ fold.updateIds) (applied eid) ↔
        (∀ value, fold.newVals.get? eid = some value → LayReturns curVals fold eid value) ∧
          SamePayload (match fold.newVals.get? eid with
            | some value => laidValue curVals fold eid value
            | none => (curVals.get? eid).join) (applied eid) := by
    intro eid
    cases held : fold.newVals.get? eid with
    | none => exact ⟨fun same => ⟨nofun, same⟩, fun both => both.2⟩
    | some value => simp [alike_held_iff]
  simp only [layFold_eq_ok, each, forall_and]
  constructor
  · rintro ⟨_, ⟨returns, rfl⟩, same⟩
    exact ⟨returns, fun eid => view eid ▸ same eid⟩
  · rintro ⟨returns, same⟩
    exact ⟨_, ⟨returns, rfl⟩, fun eid => (view eid).symm ▸ same eid⟩

end

section

variable {curVals : State} {ops : List ChangeOp}

/-- Folded and laid, and one by one, a batch returns and leaves every entity alike. -/
def Agrees (isEdge : Payload → Bool) (curVals : State) (ops : List ChangeOp) : Prop :=
  ∃ fold laid applied, foldBatchOps isEdge sanitizeNodeProperties ops = .ok fold ∧
    layFold curVals fold = .ok laid ∧ materialize curVals ops = .ok applied ∧
    ∀ eid, SamePayload (laid.get? eid).join (applied.get? eid).join

/-- What is held of every entity after a batch is alike what its operations leave. -/
def AllAlike (curVals : State) (fold : BatchFold) (applied : State) : Prop :=
  ∀ eid, LandsAlike (curVals.get? eid).join (fold.newVals.get? eid) (eid ∈ fold.updateIds)
    (applied.get? eid).join

theorem agrees_iff_alike : Agrees isEdge curVals ops ↔
      ∃ fold applied, foldBatchOps isEdge sanitizeNodeProperties ops = .ok fold ∧
        materialize curVals ops = .ok applied ∧ AllAlike curVals fold applied := by
  simp only [AllAlike, ← layFold_iff_alike]
  constructor
  · rintro ⟨fold, laid, applied, folded, lays, applies, same⟩
    exact ⟨fold, applied, folded, applies, laid, lays, same⟩
  · rintro ⟨fold, applied, folded, applies, laid, lays, same⟩
    exact ⟨fold, laid, applied, folded, lays, applies, same⟩

/-- After one more operation the entities are alike where its own entity is. -/
theorem allAlike_holding_iff {fold : BatchFold} {applied : State}
    (alike : AllAlike curVals fold applied) {held : Option Payload × Bool} {left : Option Payload}
    (clean : op.kind isEdge = .node → ∀ value, held.1 = some value → Unreserved value) :
    AllAlike curVals (fold.holding isEdge sanitizeNodeProperties op held)
        (applied.set op.entityId left) ↔
      LandsAlike (curVals.get? op.entityId).join (some held.1) held.2 left := by
  have ids : ∀ eid, decide (eid ∈ (fold.holding isEdge sanitizeNodeProperties op held).updateIds) =
        if eid = op.entityId then held.2 else decide (eid ∈ fold.updateIds) := by
    intro eid
    obtain ⟨value, patch⟩ := held
    cases patch with
    | true => by_cases same : eid = op.entityId <;> simp [BatchFold.holding, mem_insert_iff, same]
    | false => by_cases same : eid = op.entityId <;> simp [BatchFold.holding, same]
  constructor
  · intro all
    have here := all op.entityId
    rw [ids, if_pos rfl, get?_set_self, BatchFold.holding, get?_set_self, sanitize_held clean]
      at here
    exact here
  · intro here eid
    by_cases same : eid = op.entityId
    · subst same
      rw [ids, if_pos rfl, get?_set_self, BatchFold.holding, get?_set_self, sanitize_held clean]
      exact here
    · rw [ids, if_neg same, get?_set_ne (Ne.symm same), BatchFold.holding,
        get?_set_ne (Ne.symm same)]
      exact alike eid

/-- A batch that agrees still does with one more operation exactly where that suits what is held
of its entity. -/
theorem agrees_concat_iff (sanitized : Sanitized isEdge (ops ++ [op]))
    (proper : ProperProperties (op.payload.getD [])) {fold : BatchFold} {applied : State}
    (folded : foldBatchOps isEdge sanitizeNodeProperties ops = .ok fold)
    (applies : materialize curVals ops = .ok applied) (alike : AllAlike curVals fold applied) :
    Agrees isEdge curVals (ops ++ [op]) ↔
      Suits (curVals.get? op.entityId).join (fold.newVals.get? op.entityId)
        (op.entityId ∈ fold.updateIds) op := by
  have clean : ∀ {held : Option Payload × Bool},
      nextPending (fold.newVals.get? op.entityId) (op.entityId ∈ fold.updateIds) op = .ok held →
      op.kind isEdge = .node → ∀ value, held.1 = some value → Unreserved value := by
    rintro ⟨_, patch⟩ next node value rfl
    have all := fun other mem => sanitized op (mem_append_right _ mem_cons_self) node other mem
    refine unreserved_nextPending (fun earlier held => ?_) (all op
      (mem_append_right _ mem_cons_self) rfl) next
    exact unreserved_foldBatchOps folded (fun other mem => all other (mem_append_left _ mem)) held
  rw [← alike_step_iff proper (alike op.entityId), agrees_iff_alike]
  simp only [foldBatchOps_concat, materialize_concat, bind_eq_ok, folded, applies,
    Except.ok.injEq, exists_eq_left', foldOp_eq, map_eq_ok]
  constructor
  · rintro ⟨_, _, ⟨held, next, rfl⟩, stepped, all⟩
    obtain ⟨left, done, same⟩ := bind_eq_ok.mp stepped
    cases same
    exact ⟨held.1, held.2, left, next, done, (allAlike_holding_iff alike (clean next)).mp all⟩
  · rintro ⟨value, patch, left, next, done, lands⟩
    exact ⟨_, _, ⟨(value, patch), next, rfl⟩, bind_eq_ok.mpr ⟨left, done, rfl⟩,
      (allAlike_holding_iff alike (clean next)).mpr lands⟩

/-- A batch and every shorter one it starts with agree exactly where each operation suits what
the fold holds of its entity when it comes. -/
theorem agrees_iff_suits (isEdge : Payload → Bool) (curVals : State) (ops : List ChangeOp)
    (proper : ∀ op ∈ ops, ProperProperties (op.payload.getD []))
    (sanitized : Sanitized isEdge ops) :
    (∀ before, before <+: ops → Agrees isEdge curVals before) ↔
      ∀ before op, before ++ [op] <+: ops → ∀ fold,
        foldBatchOps isEdge sanitizeNodeProperties before = .ok fold →
          Suits (curVals.get? op.entityId).join (fold.newVals.get? op.entityId)
            (op.entityId ∈ fold.updateIds) op := by
  induction ops using reverseRecOn with
  | nil =>
    refine iff_of_true (fun before short => ?_) fun before op short => ?_
    · rw [prefix_nil.mp short]
      exact agrees_iff_alike.mpr ⟨_, _, rfl, rfl, fun eid => SamePayload.refl _⟩
    · simp at short
  | append_singleton ops op ih =>
    have priorProper := fun op mem => proper op (mem_append_left _ mem)
    have priorSanitized : Sanitized isEdge ops := fun op mem node other there =>
      sanitized op (mem_append_left _ mem) node other (mem_append_left _ there)
    have last := proper op (mem_append_right _ mem_cons_self)
    have prior := ih priorProper priorSanitized
    -- The batch is its own longest start; the shorter ones are the induction's.
    have starts : (∀ before, before <+: ops ++ [op] → Agrees isEdge curVals before) ↔
        Agrees isEdge curVals (ops ++ [op]) ∧
          ∀ before, before <+: ops → Agrees isEdge curVals before := by
      simp only [prefix_concat_iff, or_imp, forall_and, forall_eq]
    rw [starts, and_comm]
    constructor
    · rintro ⟨shorter, whole⟩ before other short fold folded
      rcases prefix_concat_iff.mp short with same | short
      · obtain ⟨rfl, rfl⟩ := append_singleton_inj.mp same
        obtain ⟨_, applied, folded', applies, alike⟩ :=
          agrees_iff_alike.mp (shorter before (prefix_refl before))
        cases folded.symm.trans folded'
        exact (agrees_concat_iff sanitized last folded applies alike).mp whole
      · exact prior.mp shorter before other short fold folded
    · intro suits
      have shorter := prior.mpr fun before other short =>
        suits before other (short.trans (prefix_append ops [op]))
      obtain ⟨fold, applied, folded, applies, alike⟩ :=
        agrees_iff_alike.mp (shorter ops (prefix_refl ops))
      exact ⟨shorter, (agrees_concat_iff sanitized last folded applies alike).mpr
        (suits ops op (prefix_refl _) fold folded)⟩

def named : State :=
  [("n", some [("displayName", .str "Old"),
    ("properties", .obj [("gone", .int 1), ("kept", .int 2)])])]

def setAndUnset : List ChangeOp :=
  [⟨"n", .update, some [("displayName", .str "New"), ("properties", .obj [("gone", .int 5)])],
      some .node, none⟩,
    ⟨"n", .update, some [("properties", .obj [("gone", propDelete)])], some .node, none⟩]

theorem agrees_iff_suits_setAndUnset : Agrees isEdgePayload named setAndUnset ∧
      materialize named setAndUnset = .ok [("n", some [("displayName", .str "New"),
        ("properties", .obj [("kept", .int 2)])])] := by
  have sanitized : Sanitized isEdgePayload setAndUnset := by
    intro op _ _ other mem _
    simp only [setAndUnset, mem_cons, not_mem_nil, or_false] at mem
    rcases mem with rfl | rfl <;> unfold Unreserved <;> decide
  have proper : ∀ op ∈ setAndUnset, ProperProperties (op.payload.getD []) := by
    intro op mem _
    simp only [setAndUnset, mem_cons, not_mem_nil, or_false] at mem
    rcases mem with rfl | rfl <;> exact ⟨_, rfl⟩
  have suits := (agrees_iff_suits isEdgePayload named setAndUnset proper sanitized).mpr
  refine ⟨suits ?_ setAndUnset (prefix_refl _), by decide +kernel⟩
  intro before op short fold folded
  rcases before with - | ⟨first, - | ⟨second, rest⟩⟩
  · obtain ⟨rfl, -⟩ := cons_prefix_cons.mp short
    cases folded
    intro key value sent
    have only := mem_singleton.mp (mem_of_get? sent)
    cases only
    rintro _ ⟨rfl⟩
    decide +kernel
  · obtain ⟨rfl, last⟩ := cons_prefix_cons.mp short
    obtain ⟨rfl, -⟩ := cons_prefix_cons.mp last
    cases folded
    intro key
    constructor
    · intro value sent
      cases mem_singleton.mp (mem_of_get? sent)
      rintro _ ⟨rfl⟩
      decide +kernel
    · intro value sent
      cases mem_singleton.mp (mem_of_get? sent)
      refine ⟨fun _ _ => returns_propDelete _, ?_⟩
      change chains (.int 1) (.int 5) propDelete = true
      decide +kernel
  · simp [setAndUnset] at short

/-- An entity is deleted and updated in one batch. -/
def deleteAndUpdate : List ChangeOp :=
  [⟨"n", .delete, none, some .node, none⟩,
    ⟨"n", .update, some [("displayName", .str "New")], some .node, none⟩]

/-- The fold's patch meets the deleted payload, and its fields come back. -/
theorem agrees_deleteAndUpdate :
    let live : State := [("n", some [("displayName", .str "Old"), ("entityType", .str "Table")])]
    (foldBatchOps isEdgePayload sanitizeNodeProperties deleteAndUpdate >>= layFold live) =
        .ok [("n", some [("displayName", .str "New"), ("entityType", .str "Table")])] ∧
      materialize live deleteAndUpdate = .ok [("n", some [("displayName", .str "New")])] ∧
      ¬ Agrees isEdgePayload live deleteAndUpdate := by
  intro live
  have laid : (foldBatchOps isEdgePayload sanitizeNodeProperties deleteAndUpdate >>= layFold live) =
        .ok [("n", some [("displayName", .str "New"), ("entityType", .str "Table")])] := by
    decide +kernel
  have applied : materialize live deleteAndUpdate =
      .ok [("n", some [("displayName", .str "New")])] := by decide +kernel
  refine ⟨laid, applied, ?_⟩
  rintro ⟨fold, here, there, folded, lays, applies, same⟩
  rw [folded] at laid
  cases lays.symm.trans laid
  cases applies.symm.trans applied
  have alike := same "n"
  revert alike
  decide +kernel

end

end DataViz.Versioning
