/-
# The removal marker

Applying a patch drops the removal marker from the properties it leaves. Below a property's value
nothing is dropped: a value with a marker inside is stored as it is.
-/

import DataViz.Versioning.BatchFoldLaws

namespace DataViz.Versioning

open List Option Dict

mutual

/-- Whether a value is the removal marker, or has it inside. -/
def holdsMarker : Json → Bool
  | .scalar s => s = .str "__nx_prop_delete__"
  | .arr items => itemsHoldMarker items
  | .obj fields => fieldsHoldMarker fields

/-- `holdsMarker` of some item. -/
def itemsHoldMarker : List Json → Bool
  | [] => false
  | item :: rest => holdsMarker item || itemsHoldMarker rest

/-- `holdsMarker` of some field's value. -/
def fieldsHoldMarker : List (String × Json) → Bool
  | [] => false
  | (_, value) :: rest => holdsMarker value || fieldsHoldMarker rest

end

theorem holdsMarker_get? {fields : Dict String Json} (free : fieldsHoldMarker fields = false)
    {key : String} {value : Json} (here : fields.get? key = some value) :
    holdsMarker value = false := by
  induction fields with
  | nil => cases here
  | cons field rest ih =>
    obtain ⟨name, first⟩ := field
    obtain ⟨freeFirst, freeRest⟩ := Bool.or_eq_false_iff.mp free
    by_cases same : name = key
    · subst same
      rw [get?_cons_self] at here
      cases here
      exact freeFirst
    · rw [get?_cons_ne same] at here
      exact ih freeRest here

mutual

theorem holdsMarker_preserve : ∀ {stored incoming value : Json},
    preserveStoredType stored incoming = .ok value →
      holdsMarker stored = false → holdsMarker incoming = false → holdsMarker value = false
  | .scalar stored, incoming, value => fun returned freeStored free => by
    rw [preserveStoredType_scalar, map_eq_ok] at returned
    obtain ⟨same, -, rfl⟩ := returned
    split
    · exact freeStored
    · exact free
  | .arr stored, .arr news, value => fun returned freeStored free => by
    rw [preserveStoredType] at returned
    split at returned
    · obtain ⟨items, kept, rfl⟩ := map_eq_ok.mp returned
      exact itemsHoldMarker_preserve kept freeStored free
    · cases returned
      exact free
  | .arr stored, .scalar _, value => fun returned _ free => by
    cases returned
    exact free
  | .arr stored, .obj _, value => fun returned _ free => by
    cases returned
    exact free
  | .obj stored, .obj news, value => fun returned freeStored free => by
    rw [preserveStoredType, map_eq_ok] at returned
    obtain ⟨fields, kept, rfl⟩ := returned
    exact fieldsHoldMarker_preserve kept freeStored free
  | .obj stored, .scalar _, value => fun returned _ free => by
    cases returned
    exact free
  | .obj stored, .arr _, value => fun returned _ free => by
    cases returned
    exact free

theorem itemsHoldMarker_preserve : ∀ {olds news items : List Json},
    preserveItems olds news = .ok items →
      itemsHoldMarker olds = false → itemsHoldMarker news = false → itemsHoldMarker items = false
  | [], news, items => fun returned _ free => by
    cases news with
    | nil =>
      cases returned
      exact free
    | cons item rest =>
      cases returned
      exact free
  | _ :: _, [], items => fun returned _ free => by
    cases returned
    exact free
  | first :: olds, item :: news, items => fun returned freeStored free => by
    obtain ⟨freeFirst, freeOlds⟩ := Bool.or_eq_false_iff.mp freeStored
    obtain ⟨freeItem, freeNews⟩ := Bool.or_eq_false_iff.mp free
    rw [preserveItems_cons, bind_eq_ok] at returned
    obtain ⟨value, here, later⟩ := returned
    obtain ⟨rest, there, rfl⟩ := map_eq_ok.mp later
    rw [itemsHoldMarker, holdsMarker_preserve here freeFirst freeItem,
      itemsHoldMarker_preserve there freeOlds freeNews]
    rfl

theorem fieldsHoldMarker_preserve : ∀ {stored : Dict String Json} {seen : List String}
    {news fields : List (String × Json)}, preserveFields stored seen news = .ok fields →
      fieldsHoldMarker stored = false → fieldsHoldMarker news = false →
        fieldsHoldMarker fields = false
  | stored, seen, [], fields => fun returned _ free => by
    cases returned
    exact free
  | stored, seen, (key, incoming) :: rest, fields => fun returned freeStored free => by
    obtain ⟨freeIncoming, freeRest⟩ := Bool.or_eq_false_iff.mp free
    by_cases old : key ∈ seen
    · rw [preserveFields, if_pos old] at returned
      exact fieldsHoldMarker_preserve returned freeStored freeRest
    · rw [preserveFields_cons stored old, bind_eq_ok] at returned
      obtain ⟨value, here, later⟩ := returned
      obtain ⟨others, there, rfl⟩ := map_eq_ok.mp later
      rw [fieldsHoldMarker, fieldsHoldMarker_preserve there freeStored freeRest, Bool.or_false]
      cases before : stored.get? key with
      | none =>
        rw [before] at here
        cases here
        exact freeIncoming
      | some old =>
        rw [before] at here
        exact holdsMarker_preserve here (holdsMarker_get? freeStored before) freeIncoming

end

/-- A patch whose properties are set to allowed values, or marked for removal. -/
def Carries (allowed : Json → Prop) (payload : Payload) : Prop :=
  ∀ key value, (propertiesOf payload).get? key = some value → value = propDelete ∨ allowed value

/-- A payload whose properties have allowed values, no marker among them. -/
def Stores (allowed : Json → Prop) (payload : Payload) : Prop :=
  ∀ key value, (propertiesOf payload).get? key = some value → value ≠ propDelete ∧ allowed value

theorem dropMarker_eq_some {stored : Option Json} {value : Json} :
    dropMarker stored = some value ↔ stored = some value ∧ value ≠ propDelete := by
  rw [dropMarker, filter_eq_some_iff, isDelete, Bool.not_eq_true', decide_eq_false_iff_not]

section

variable {allowed : Json → Prop} {payload : Payload}

theorem Stores.carries (stores : Stores allowed payload) : Carries allowed payload :=
  fun key value here => .inr (stores key value here).2

theorem carries_of_forall
    (all : ∀ entry ∈ propertiesOf payload, entry.2 = propDelete ∨ allowed entry.2) :
    Carries allowed payload :=
  fun _ _ here => all _ (mem_of_get? here)

theorem stores_nil : Stores allowed [] :=
  fun _ _ here => nomatch here

theorem Carries.stripDeletes (carries : Carries allowed payload) :
    Stores allowed (stripDeletes payload) := by
  intro key value here
  rw [get?_propertiesOf_stripDeletes, dropMarker_eq_some] at here
  exact ⟨here.2, (carries key value here.1).resolve_left here.2⟩

theorem propertiesOf_sanitize (payload : Payload) :
    propertiesOf (sanitizeNodeProperties payload) = propertiesOf payload ∨
      propertiesOf (sanitizeNodeProperties payload) =
        (propertiesOf payload).filter fun entry => entry.1 ∉ reservedNodeKeys := by
  unfold sanitizeNodeProperties
  split
  next properties here =>
    have same : propertiesOf payload = properties := by
      rw [propertiesOf, here]
    dsimp only
    split
    · exact .inl rfl
    · rw [propertiesOf_set, same]
      exact .inr rfl
  next => exact .inl rfl

theorem get?_sanitize {key : String} {value : Json}
    (here : (propertiesOf (sanitizeNodeProperties payload)).get? key = some value) :
    (propertiesOf payload).get? key = some value := by
  obtain same | clean := propertiesOf_sanitize payload
  · rwa [same] at here
  · have kept := get?_filter_key (propertiesOf payload)
      (fun name => decide (name ∉ reservedNodeKeys)) key
    rw [clean, kept] at here
    exact (ite_none_right_eq_some.mp here).2

theorem Carries.sanitize (carries : Carries allowed payload) :
    Carries allowed (sanitizeNodeProperties payload) :=
  fun key value here => carries key value (get?_sanitize here)

theorem Stores.sanitize (stores : Stores allowed payload) :
    Stores allowed (sanitizeNodeProperties payload) :=
  fun key value here => stores key value (get?_sanitize here)

variable (closed : ∀ {stored incoming value}, preserveStoredType stored incoming = .ok value →
  allowed stored → allowed incoming → allowed value)
include closed

theorem mergeProp_allowed {before sent : Option Json} {value : Json}
    (returns : ∀ v, sent = some v → ReturnsOver before v)
    (old : ∀ v, before = some v → v = propDelete ∨ allowed v)
    (new : ∀ v, sent = some v → v = propDelete ∨ allowed v)
    (here : mergeProp before sent = some value) : value = propDelete ∨ allowed value := by
  cases sent with
  | none => exact old value here
  | some second =>
    have stored : overStored before second = .ok (keptOver before second) :=
      overStored_eq_ok.mpr ⟨returns second rfl, rfl⟩
    rw [some.inj here] at stored
    cases before with
    | none =>
      cases stored
      exact new value rfl
    | some first =>
      obtain removed | changed := new second rfl
      · rw [removed, overStored, preserveStoredType_propDelete] at stored
        cases stored
        exact .inl rfl
      · obtain gone | there := old first rfl
        · rw [gone, overStored, preserveStoredType_over_propDelete] at stored
          cases stored
          exact .inr changed
        · exact .inr (closed stored there changed)

theorem Carries.joined {first second : Payload} (returns : PropsMerge first second)
    (one : Carries allowed first) (two : Carries allowed second) :
    Carries allowed (joined first second) := by
  intro key value here
  rw [get?_propertiesOf_composed] at here
  exact mergeProp_allowed closed (returns key) (one key) (two key) here

theorem Carries.patched {base patch : Payload} (returns : PropsMerge base patch)
    (old : Carries allowed base) (new : Carries allowed patch) :
    Stores allowed (patched base patch) := by
  intro key value here
  rw [get?_propertiesOf_patched, dropMarker_eq_some] at here
  exact ⟨here.2,
    (mergeProp_allowed closed (returns key) (old key) (new key) here.1).resolve_left here.2⟩

variable {op : ChangeOp}

theorem stores_applyTo {value : Option Payload} {left : Payload}
    (carries : ∀ payload, op.payload = some payload → Carries allowed payload)
    (stored : ∀ current, value = some current → Stores allowed current)
    (here : op.applyTo value = .ok (some left)) : Stores allowed left := by
  unfold ChangeOp.applyTo at here
  split at here
  · cases here
  · cases here
  case h_3 payload current _ sent =>
    simp only [map_eq_ok, applyPatch_eq_ok, getD_some, some.injEq] at here
    obtain ⟨_, ⟨returns, rfl⟩, rfl⟩ := here
    exact Carries.patched closed returns (stored current rfl).carries (carries payload sent)
  case h_4 sent _ _ =>
    cases here
    exact (carries _ sent).stripDeletes

/-- Every live payload of a state has only allowed values, and no marker. -/
def AllStore (allowed : Json → Prop) (state : State) : Prop :=
  ∀ eid payload, (state.get? eid).join = some payload → Stores allowed payload

/-- Every operation of a batch carries allowed values, and markers. -/
def AllCarry (allowed : Json → Prop) (ops : List ChangeOp) : Prop :=
  ∀ op ∈ ops, ∀ payload, op.payload = some payload → Carries allowed payload

variable {state : State}

omit closed in
theorem AllStore.set (all : AllStore allowed state) {eid : EntityId} {value : Option Payload}
    (stores : ∀ payload, value = some payload → Stores allowed payload) :
    AllStore allowed (state.set eid value) := by
  intro other payload here
  by_cases same : eid = other
  · subst same
    rw [get?_set_self] at here
    exact stores payload here
  · rw [get?_set_ne same] at here
    exact all other payload here

variable {ops : List ChangeOp}

theorem allStore_materialize (all : AllStore allowed state) (carry : AllCarry allowed ops)
    {after : State} (returned : materialize state ops = .ok after) : AllStore allowed after := by
  unfold materialize at returned
  induction ops generalizing state with
  | nil =>
    cases returned
    exact all
  | cons op rest ih =>
    rw [foldlM_cons, bind_eq_ok] at returned
    obtain ⟨next, stepped, later⟩ := returned
    obtain ⟨value, applied, same⟩ := bind_eq_ok.mp stepped
    cases same
    refine ih (all.set fun payload here => ?_) (fun op mem => carry op (mem_cons_of_mem _ mem))
      later
    rw [here] at applied
    exact stores_applyTo closed (carry op mem_cons_self) (all op.entityId) applied

/-- What a fold holds: patches that carry allowed values and markers, and payloads that store
allowed values. -/
def FoldStores (allowed : Json → Prop) (fold : BatchFold) : Prop :=
  ∀ eid payload, (fold.newVals.get? eid).join = some payload →
    Carries allowed payload ∧ (eid ∉ fold.updateIds → Stores allowed payload)

theorem held_nextPending {pending : Option (Option Payload)} {isPatch : Bool}
    (before : ∀ earlier, pending.join = some earlier →
      Carries allowed earlier ∧ (isPatch = false → Stores allowed earlier))
    (sent : Carries allowed (op.payload.getD [])) {value : Payload} {patch : Bool}
    (next : nextPending pending isPatch op = .ok (some value, patch)) :
    Carries allowed value ∧ (patch = false → Stores allowed value) := by
  unfold nextPending at next
  split at next
  · rename_i earlier _ held
    obtain ⟨carries, -⟩ := before earlier held
    split at next
    · simp only [map_eq_ok, composePatches_eq_ok, Prod.mk.injEq, some.injEq] at next
      obtain ⟨_, ⟨returns, rfl⟩, rfl, rfl⟩ := next
      exact ⟨carries.joined closed returns sent, fun absurd => nomatch absurd⟩
    · simp only [map_eq_ok, applyPatch_eq_ok, getD_some, Prod.mk.injEq,
        some.injEq] at next
      obtain ⟨_, ⟨returns, rfl⟩, rfl, rfl⟩ := next
      have stores := carries.patched closed returns sent
      exact ⟨stores.carries, fun _ => stores⟩
  · cases next
    exact ⟨sent, fun absurd => nomatch absurd⟩
  · cases next
    exact ⟨sent.stripDeletes.carries, fun _ => sent.stripDeletes⟩
  · cases next

variable {isEdge : Payload → Bool}

theorem foldStores_foldOp {fold after : BatchFold}
    (holds : FoldStores allowed fold)
    (carry : ∀ payload, op.payload = some payload → Carries allowed payload)
    (returned : foldOp isEdge sanitizeNodeProperties fold op = .ok after) :
    FoldStores allowed after := by
  have sent : Carries allowed (op.payload.getD []) := by
    cases here : op.payload with
    | none => exact stores_nil.carries
    | some payload => exact carry payload here
  rw [foldOp_eq, map_eq_ok] at returned
  obtain ⟨⟨held, patch⟩, next, rfl⟩ := returned
  intro eid payload here
  by_cases same : op.entityId = eid
  · subst same
    have ids : op.entityId ∉ (fold.holding isEdge sanitizeNodeProperties op
        (held, patch)).updateIds → patch = false := by
      intro absent
      cases patch with
      | false => rfl
      | true => exact absurd (mem_insert_iff.mpr (.inl rfl)) absent
    rw [BatchFold.holding, get?_set_self] at here
    cases held with
    | none => cases here
    | some value =>
      obtain ⟨carries, stores⟩ := held_nextPending closed (fun earlier there =>
        ⟨(holds _ earlier there).1, fun whole =>
          (holds _ earlier there).2 (of_decide_eq_false whole)⟩) sent next
      rw [map_some, join_some, some.injEq] at here
      subst here
      split
      · exact ⟨carries.sanitize, fun absent => (stores (ids absent)).sanitize⟩
      · exact ⟨carries, fun absent => stores (ids absent)⟩
  · rw [BatchFold.holding, get?_set_ne same] at here
    obtain ⟨carries, stores⟩ := holds eid payload here
    refine ⟨carries, fun absent => stores fun mem => absent ?_⟩
    cases patch with
    | true => exact mem_insert_iff.mpr (.inr mem)
    | false => exact mem_filter.mpr ⟨mem, decide_eq_true (Ne.symm same)⟩

theorem foldStores_foldBatchOps (carry : AllCarry allowed ops)
    {fold : BatchFold}
    (returned : foldBatchOps isEdge sanitizeNodeProperties ops = .ok fold) :
    FoldStores allowed fold := by
  induction ops using reverseRecOn generalizing fold with
  | nil =>
    cases returned
    exact fun eid payload here => nomatch here
  | append_singleton ops op ih =>
    rw [foldBatchOps_concat, bind_eq_ok] at returned
    obtain ⟨before, prior, stepped⟩ := returned
    exact foldStores_foldOp closed (ih (fun op mem => carry op (mem_append_left _ mem)) prior)
      (carry op (mem_append_right _ mem_cons_self)) stepped

theorem allStore_layFold (all : AllStore allowed state)
    (carry : AllCarry allowed ops) {fold : BatchFold} {laid : State}
    (folded : foldBatchOps isEdge sanitizeNodeProperties ops = .ok fold)
    (lays : layFold state fold = .ok laid) : AllStore allowed laid := by
  have holds := foldStores_foldBatchOps closed carry folded
  obtain ⟨returns, rfl⟩ := layFold_eq_ok.mp lays
  intro eid payload here
  rw [get?_update, get?_map_items] at here
  cases pending : fold.newVals.get? eid with
  | none =>
    rw [pending] at here
    exact all eid payload here
  | some value =>
    rw [pending, map_some, some_or, join_some] at here
    have returned := returns eid value pending
    cases value with
    | none => simp [laidValue] at here
    | some patch =>
      have held := holds eid patch (by rw [pending, join_some])
      by_cases mem : eid ∈ fold.updateIds
      · rw [laidValue, if_pos mem, map_some, some.injEq] at here
        subst here
        apply Carries.patched closed (returned patch rfl mem) _ held.1
        cases current : (state.get? eid).join with
        | none => exact stores_nil.carries
        | some stored => exact (all eid stored current).carries
      · rw [laidValue, if_neg mem] at here
        cases here
        exact held.2 mem

end

/-- No live payload has the marker anywhere in its properties. -/
def MarkerFree (state : State) : Prop :=
  AllStore (fun value => holdsMarker value = false) state

/-- Where they return, operations never leave the marker as a property's value, one by one or
folded; and nowhere in the properties where they carry it as a property's value alone. -/
theorem marker_never_stored (isEdge : Payload → Bool) (state : State) (ops : List ChangeOp)
    (free : MarkerFree state) :
    (∀ after, materialize state ops = .ok after → AllStore (fun _ => True) after ∧
        (AllCarry (fun value => holdsMarker value = false) ops → MarkerFree after)) ∧
      ∀ fold laid, foldBatchOps isEdge sanitizeNodeProperties ops = .ok fold →
        layFold state fold = .ok laid → AllStore (fun _ => True) laid ∧
            (AllCarry (fun value => holdsMarker value = false) ops → MarkerFree laid) := by
  have anyClosed : ∀ {stored incoming value : Json},
      preserveStoredType stored incoming = .ok value → True → True → True :=
    fun _ _ _ => trivial
  have anyStored : AllStore (fun _ => True) state := fun eid payload here key value there =>
    ⟨(free eid payload here key value there).1, trivial⟩
  have anyCarried : AllCarry (fun _ => True) ops := fun _ _ _ _ _ _ _ => .inr trivial
  constructor
  · intro after returned
    exact ⟨allStore_materialize anyClosed anyStored anyCarried returned, fun carried =>
      allStore_materialize holdsMarker_preserve free carried returned⟩
  · intro fold laid folded lays
    exact ⟨allStore_layFold anyClosed anyStored anyCarried folded lays, fun carried =>
      allStore_layFold holdsMarker_preserve free carried folded lays⟩

def measured : State :=
  [("n", some [("properties", .obj [("rows", .int 1)])])]

/-- The property is removed and set in one batch, and another in it is marked. -/
def removedAndSet : List ChangeOp :=
  [⟨"n", .update, some [("properties", .obj [("rows", propDelete)])], some .node, none⟩,
    ⟨"n", .update, some [("properties", .obj [("rows", .int 2), ("owner", propDelete)])],
      some .node, none⟩,
    ⟨"m", .create, some [("properties", .obj [("rows", propDelete)])], some .node, none⟩]

def setAndMade : State :=
  [("n", some [("properties", .obj [("rows", .int 2)])]), ("m", some [("properties", .obj [])])]

theorem marker_never_stored_removedAndSet : materialize measured removedAndSet = .ok setAndMade ∧
      (foldBatchOps (fun _ => false) sanitizeNodeProperties removedAndSet >>=
        layFold measured) = .ok setAndMade ∧
      MarkerFree setAndMade := by
  have carried : ∀ op ∈ removedAndSet, ∀ payload ∈ op.payload,
      ∀ entry ∈ propertiesOf payload, entry.2 = propDelete ∨ holdsMarker entry.2 = false := by
    decide +kernel
  have free : MarkerFree measured := by
    intro eid payload here key value there
    have mem := Dict.mem_of_get? (join_eq_some_iff.mp here)
    rw [measured, mem_singleton, Prod.mk.injEq, some.injEq] at mem
    obtain ⟨rfl, rfl⟩ := mem
    have entry := Dict.mem_of_get? there
    revert entry
    simp only [propertiesOf, Dict.get?_cons_self, mem_singleton, Prod.mk.injEq]
    rintro ⟨rfl, rfl⟩
    decide
  have returned : materialize measured removedAndSet = .ok setAndMade := by decide +kernel
  have stored := (marker_never_stored (fun _ => false) measured removedAndSet free).1 _ returned
  exact ⟨returned, by decide +kernel,
    stored.2 fun op mem payload sent => carries_of_forall (carried op mem payload sent)⟩

/-- A marker inside a property's value is stored with it. -/
theorem marker_stored_inside :
    ¬ ∀ (isEdge : Payload → Bool) (state : State) (ops : List ChangeOp), MarkerFree state →
      (∀ after, materialize state ops = .ok after → MarkerFree after) ∧
        ∀ fold laid, foldBatchOps isEdge sanitizeNodeProperties ops = .ok fold →
          layFold state fold = .ok laid → MarkerFree laid := by
  intro all
  have returned : materialize []
      [⟨"n", .create, some [("properties", .obj [("size", .obj [("rows", propDelete)])])],
        some .node, none⟩] =
      .ok [("n", some [("properties", .obj [("size", .obj [("rows", propDelete)])])])] := by
    decide +kernel
  have stored := (all (fun _ => false) [] _ fun _ _ here => nomatch here).1 _ returned
  have absurd := (stored "n" [("properties", .obj [("size", .obj [("rows", propDelete)])])]
    (by decide +kernel) "size" (.obj [("rows", propDelete)]) (by decide +kernel)).2
  revert absurd
  decide +kernel

end DataViz.Versioning
