/-
# What a patch leaves

A payload is seen through its top-level fields and its properties. A patch replaces
the fields it names, and merges its properties one by one over those it meets; the
result of a patch is determined by these views.
-/

import DataViz.Versioning.PropertyPatch

namespace DataViz.Versioning

open Dict List

def Returns (stored incoming : Json) : Prop :=
  ∃ value, preserveStoredType stored incoming = .ok value

instance (stored incoming : Json) : Decidable (Returns stored incoming) :=
  match h : preserveStoredType stored incoming with
  | .ok value => .isTrue ⟨value, h⟩
  | .error _ => .isFalse fun returns => by
    obtain ⟨value, returned⟩ := returns
    rw [h] at returned
    cases returned

def kept (stored incoming : Json) : Json :=
  (preserveStoredType stored incoming).toOption.getD incoming

theorem preserveStoredType_eq_ok {stored incoming value : Json} :
    preserveStoredType stored incoming = .ok value ↔
      Returns stored incoming ∧ value = kept stored incoming := by
  rw [Returns, kept]
  cases preserveStoredType stored incoming with
  | ok result => simp [Except.toOption, eq_comm]
  | error e => simp

section

variable {stored incoming : Json} {s : Scalar} {olds news : List Json}
  {before after : Dict String Json}

theorem preserveStoredType_scalar (s : Scalar) (incoming : Json) :
    preserveStoredType (.scalar s) incoming =
      (sameScalar s incoming).map fun same => if same then .scalar s else incoming := by
  rw [preserveStoredType]
  cases sameScalar s incoming <;> rfl

theorem returns_scalar_iff :
    Returns (.scalar s) incoming ↔ ∃ same, sameScalar s incoming = .ok same := by
  simp only [Returns, preserveStoredType_scalar, map_eq_ok]
  exact ⟨fun ⟨_, same, here, _⟩ => ⟨same, here⟩, fun ⟨same, here⟩ => ⟨_, same, here, rfl⟩⟩

theorem kept_scalar (s : Scalar) (incoming : Json) : kept (.scalar s) incoming =
      if sameScalar s incoming = .ok true then .scalar s else incoming := by
  rw [kept, preserveStoredType_scalar]
  cases sameScalar s incoming with
  | ok same => cases same <;> rfl
  | error e => rfl

theorem preserveItems_cons (old new : Json) (olds news : List Json) :
    preserveItems (old :: olds) (new :: news) = preserveStoredType old new >>= fun value =>
        (preserveItems olds news).map (value :: ·) := by
  rfl

theorem preserveItems_eq_ok (same : olds.length = news.length) {items : List Json} :
    preserveItems olds news = .ok items ↔
      List.Forall₂ Returns olds news ∧ items = List.zipWith kept olds news := by
  induction olds generalizing news items with
  | nil =>
    cases news with
    | nil => simp [preserveItems, eq_comm]
    | cons new news => cases same
  | cons old olds ih =>
    cases news with
    | nil => cases same
    | cons new news =>
      have short : olds.length = news.length := Nat.succ.inj same
      simp only [preserveItems_cons, bind_eq_ok, map_eq_ok, preserveStoredType_eq_ok,
        ih short, List.forall₂_cons, List.zipWith_cons_cons]
      constructor
      · rintro ⟨value, ⟨here, rfl⟩, rest, ⟨there, rfl⟩, rfl⟩
        exact ⟨⟨here, there⟩, rfl⟩
      · rintro ⟨⟨here, there⟩, rfl⟩
        exact ⟨_, ⟨here, rfl⟩, _, ⟨there, rfl⟩, rfl⟩

theorem preserveStoredType_arr_of_ne (other : olds.length ≠ news.length) :
    preserveStoredType (.arr olds) (.arr news) = .ok (.arr news) := by
  rw [preserveStoredType, if_neg other]

theorem returns_arr_iff (same : olds.length = news.length) :
    Returns (.arr olds) (.arr news) ↔ List.Forall₂ Returns olds news := by
  simp [Returns, preserveStoredType, if_pos same, map_eq_ok, preserveItems_eq_ok same]

theorem kept_arr (same : olds.length = news.length) (returns : Returns (.arr olds) (.arr news)) :
    kept (.arr olds) (.arr news) = .arr (List.zipWith kept olds news) := by
  have items := (preserveItems_eq_ok same).mpr ⟨(returns_arr_iff same).mp returns, rfl⟩
  rw [kept, preserveStoredType, if_pos same, items]
  rfl

def ReturnsOver (before : Option Json) (incoming : Json) : Prop :=
  ∀ stored, before = some stored → Returns stored incoming

def keptOver : Option Json → Json → Json
  | some stored, incoming => kept stored incoming
  | none, incoming => incoming

theorem overStored_eq_ok {before : Option Json} {value : Json} :
    overStored before incoming = .ok value ↔
      ReturnsOver before incoming ∧ value = keptOver before incoming := by
  cases before with
  | none => simp [overStored, ReturnsOver, keptOver, eq_comm]
  | some stored => simp [overStored, ReturnsOver, keptOver, preserveStoredType_eq_ok]

theorem preserveFields_cons (before : Dict String Json) {seen : List String} {key : String}
    (fresh : key ∉ seen) (new : Json) (rest : List (String × Json)) :
    preserveFields before seen ((key, new) :: rest) =
      overStored (before.get? key) new >>= fun value =>
        (preserveFields before (key :: seen) rest).map ((key, value) :: ·) := by
  rw [preserveFields, if_neg fresh]
  cases before.get? key <;> rfl

theorem preserveFields_returns_iff (before after : Dict String Json) (seen : List String) :
    (∃ fields, preserveFields before seen after = .ok fields) ↔
      ∀ key ∉ seen, ∀ new, after.get? key = some new → ReturnsOver (before.get? key) new := by
  induction after generalizing seen with
  | nil => exact iff_of_true ⟨[], by rw [preserveFields]⟩ fun _ _ _ absurd => nomatch absurd
  | cons entry rest ih =>
    obtain ⟨name, new⟩ := entry
    by_cases old : name ∈ seen
    · rw [preserveFields, if_pos old, ih]
      refine forall_congr' fun key => forall_congr' fun fresh => ?_
      rw [get?_cons_ne fun same : name = key => fresh (same ▸ old)]
    · simp only [preserveFields_cons before old, bind_eq_ok, map_eq_ok, overStored_eq_ok]
      constructor
      · rintro ⟨fields, value, ⟨here, rfl⟩, later, there, rfl⟩ key fresh found sent
        by_cases same : name = key
        · subst same
          rw [get?_cons_self] at sent
          cases sent
          exact here
        · rw [get?_cons_ne same] at sent
          exact (ih _).mp ⟨later, there⟩ key (by simp [Ne.symm same, fresh]) found sent
      · intro each
        obtain ⟨later, there⟩ := (ih _).mpr fun key fresh found sent => by
          rw [mem_cons, not_or] at fresh
          exact each key fresh.2 found (by rw [get?_cons_ne (Ne.symm fresh.1), sent])
        exact ⟨_, _, ⟨each name old new (get?_cons_self _ _ _), rfl⟩, later, there, rfl⟩

theorem get?_preserveFields {seen : List String} {fields : Dict String Json}
    (returned : preserveFields before seen after = .ok fields) {key : String}
    (fresh : key ∉ seen) :
    fields.get? key = (after.get? key).map (keptOver (before.get? key)) := by
  induction after generalizing seen fields with
  | nil =>
    cases returned
    rfl
  | cons entry rest ih =>
    obtain ⟨name, new⟩ := entry
    by_cases old : name ∈ seen
    · rw [preserveFields, if_pos old] at returned
      rw [ih returned fresh, get?_cons_ne fun same : name = key => fresh (same ▸ old)]
    · simp only [preserveFields_cons before old, bind_eq_ok, map_eq_ok,
        overStored_eq_ok] at returned
      obtain ⟨value, ⟨-, rfl⟩, later, there, rfl⟩ := returned
      by_cases same : name = key
      · subst same
        rw [get?_cons_self, get?_cons_self, Option.map_some]
      · rw [get?_cons_ne same, get?_cons_ne same, ih there (by simp [Ne.symm same, fresh])]

theorem returns_obj_iff : Returns (.obj before) (.obj after) ↔
      ∀ key new, after.get? key = some new → ReturnsOver (before.get? key) new := by
  have fields := preserveFields_returns_iff before after []
  simp only [not_mem_nil, not_false_eq_true, true_implies] at fields
  rw [← fields]
  simp [Returns, preserveStoredType, map_eq_ok]

theorem exists_kept_obj (returns : Returns (.obj before) (.obj after)) :
    ∃ fields : Dict String Json, kept (.obj before) (.obj after) = .obj fields ∧
      ∀ key, fields.get? key = (after.get? key).map (keptOver (before.get? key)) := by
  obtain ⟨value, returned⟩ := returns
  have same := (preserveStoredType_eq_ok.mp returned).2
  rw [preserveStoredType, map_eq_ok] at returned
  obtain ⟨fields, there, rfl⟩ := returned
  exact ⟨fields, same.symm, fun key => get?_preserveFields there not_mem_nil⟩

end

theorem eqBy_arr_iff {leaf : Scalar → Scalar} {first second : List Json} :
    Json.EqBy leaf (.arr first) (.arr second) ↔ Forall₂ (Json.EqBy leaf) first second := by
  rw [Json.EqBy, Json.canonBy, Json.canonBy, Json.arr.injEq, Json.canonByList_eq_map,
    Json.canonByList_eq_map]
  induction first generalizing second with
  | nil => cases second <;> simp
  | cons item rest ih =>
    cases second with
    | nil => simp
    | cons item' rest' => simp [ih, Json.EqBy]

theorem same_scalar_iff {s : Scalar} {value : Json} :
    Json.Same (.scalar s) value ↔ value = .scalar s := by
  cases value with
  | scalar t => simp [Json.EqBy, Json.canonBy, eq_comm]
  | arr items => simp [Json.EqBy, Json.canonBy]
  | obj fields => simp [Json.EqBy, Json.canonBy]

theorem sizeOf_lt_of_get? {fields : Dict String Json} {key : String} {value : Json}
    (here : fields.get? key = some value) : sizeOf value < sizeOf (Json.obj fields) := by
  have smaller := Json.sizeOf_get?_lt fields key
  rw [here] at smaller
  simpa using smaller

section

variable {olds olds' : List Json}

/-- Stored lists that are the same item by item are kept alike, where single values are. -/
theorem keptItems_same (news : List Json) (each : ∀ new ∈ news, ∀ old old', Json.Same old old' →
      (Returns old new ↔ Returns old' new) ∧ Json.Same (kept old new) (kept old' new))
    (same : Forall₂ Json.Same olds olds') :
    (Forall₂ Returns olds news ↔ Forall₂ Returns olds' news) ∧
      Forall₂ Json.Same (zipWith kept olds news) (zipWith kept olds' news) := by
  induction same generalizing news with
  | nil => simp
  | @cons old old' olds olds' here _ ih =>
    cases news with
    | nil => simp
    | cons new news =>
      obtain ⟨returns, alike⟩ := each new mem_cons_self old old' here
      obtain ⟨later, others⟩ := ih _ fun new mem => each new (mem_cons_of_mem _ mem)
      simp only [forall₂_cons, zipWith_cons_cons]
      exact ⟨and_congr returns later, alike, others⟩

theorem keptOver_same_of {before before' : Option Json} {new : Json}
    (each : ∀ old old', Json.Same old old' →
      (Returns old new ↔ Returns old' new) ∧ Json.Same (kept old new) (kept old' new))
    (same : Json.Same? before before') :
    (ReturnsOver before new ↔ ReturnsOver before' new) ∧
      Json.Same (keptOver before new) (keptOver before' new) := by
  cases before with
  | none =>
    obtain rfl := Json.eqBy?_none_left.mp same
    exact ⟨Iff.rfl, rfl⟩
  | some old =>
    cases before' with
    | none => cases Json.eqBy?_none_right.mp same
    | some old' => simpa [ReturnsOver, keptOver] using each old old' (Json.eqBy?_some.mp same)

theorem kept_of_not_returns {stored incoming : Json} (raises : ¬ Returns stored incoming) :
    kept stored incoming = incoming := by
  rw [kept]
  cases result : preserveStoredType stored incoming with
  | ok value => exact absurd ⟨value, result⟩ raises
  | error e => rfl

theorem kept_of_eq {stored incoming : Json}
    (asSent : preserveStoredType stored incoming = .ok incoming) :
    Returns stored incoming ∧ kept stored incoming = incoming := by
  obtain ⟨returns, same⟩ := preserveStoredType_eq_ok.mp asSent
  exact ⟨returns, same.symm⟩

/-- What is kept of a value is the same over the same stored value. -/
theorem kept_same (incoming : Json) : ∀ stored stored', Json.Same stored stored' →
    (Returns stored incoming ↔ Returns stored' incoming) ∧
      Json.Same (kept stored incoming) (kept stored' incoming) := by
  induction size : sizeOf incoming using Nat.strong_induction_on generalizing incoming with
  | _ n ih =>
  have asSent : ∀ {stored stored' : Json}, preserveStoredType stored incoming = .ok incoming →
      preserveStoredType stored' incoming = .ok incoming →
      (Returns stored incoming ↔ Returns stored' incoming) ∧
        Json.Same (kept stored incoming) (kept stored' incoming) := by
    intro stored stored' here there
    rw [(kept_of_eq here).2, (kept_of_eq there).2]
    exact ⟨iff_of_true (kept_of_eq here).1 (kept_of_eq there).1, rfl⟩
  intro stored stored' same
  cases stored with
  | scalar s =>
    obtain rfl := same_scalar_iff.mp same
    exact ⟨Iff.rfl, rfl⟩
  | arr olds =>
    cases stored' with
    | scalar s => cases same
    | obj fields => cases same
    | arr olds' =>
      have items := eqBy_arr_iff.mp same
      cases incoming with
      | scalar s => exact asSent rfl rfl
      | obj fields => exact asSent rfl rfl
      | arr news =>
        by_cases long : olds.length = news.length
        · have long' : olds'.length = news.length := items.length_eq ▸ long
          obtain ⟨returns, alike⟩ := keptItems_same news (fun new mem =>
            ih _ (by have := List.sizeOf_lt_of_mem mem; simp at size; omega) new rfl) items
          rw [← returns_arr_iff long, ← returns_arr_iff long'] at returns
          refine ⟨returns, ?_⟩
          by_cases here : Returns (.arr olds) (.arr news)
          · rw [kept_arr long here, kept_arr long' (returns.mp here)]
            exact eqBy_arr_iff.mpr alike
          · rw [kept_of_not_returns here, kept_of_not_returns (mt returns.mpr here)]
            rfl
        · exact asSent (preserveStoredType_arr_of_ne long)
            (preserveStoredType_arr_of_ne (items.length_eq ▸ long))
  | obj before =>
    obtain ⟨before', rfl⟩ := same.exists_obj
    cases incoming with
    | scalar s => exact asSent rfl rfl
    | arr items => exact asSent rfl rfl
    | obj after =>
      have each : ∀ key new, Dict.get? after key = some new →
          (ReturnsOver (Dict.get? before key) new ↔ ReturnsOver (before'.get? key) new) ∧
            Json.Same (keptOver (Dict.get? before key) new) (keptOver (before'.get? key) new) := by
        intro key new sent
        exact keptOver_same_of (ih _ (size ▸ sizeOf_lt_of_get? sent) new rfl)
          (Json.eqBy_obj_iff.mp same key)
      have returns : Returns (.obj before) (.obj after) ↔ Returns (.obj before') (.obj after) := by
        rw [returns_obj_iff, returns_obj_iff]
        exact forall_congr' fun key => forall_congr' fun new => forall_congr' fun sent =>
          (each key new sent).1
      refine ⟨returns, ?_⟩
      by_cases here : Returns (.obj before) (.obj after)
      · obtain ⟨fields, left, views⟩ := exists_kept_obj here
        obtain ⟨fields', right, views'⟩ := exists_kept_obj (returns.mp here)
        rw [left, right]
        refine Json.eqBy_obj_iff.mpr fun key => ?_
        rw [views, views']
        cases sent : Dict.get? after key with
        | none => rfl
        | some new => exact Json.eqBy?_some.mpr (each key new sent).2
      · rw [kept_of_not_returns here, kept_of_not_returns (mt returns.mpr here)]
        rfl

theorem keptOver_same {before before' : Option Json} (new : Json)
    (same : Json.Same? before before') :
    (ReturnsOver before new ↔ ReturnsOver before' new) ∧
      Json.Same (keptOver before new) (keptOver before' new) :=
  keptOver_same_of (kept_same new) same

end

/-- A marker is stored over anything. -/
@[simp]
theorem preserveStoredType_propDelete (stored : Json) :
    preserveStoredType stored propDelete = .ok propDelete := by
  have hint : Number.intParts "__nx_prop_delete__" = none := rfl
  have hfloat : Number.readFloat "__nx_prop_delete__" = none := rfl
  have hsame : ∀ stored : Scalar, sameScalar stored propDelete = .ok false := by
    intro stored
    cases stored with
    | bool stored => cases stored <;> rfl
    | null => rfl
    | int stored => simp [sameScalar, sameInt, propDelete, hint]
    | float text stored => simp [sameScalar, sameFloat, propDelete, hfloat]
    | str stored => rfl
  cases stored with
  | scalar stored =>
    rw [preserveStoredType_scalar, hsame]
    rfl
  | arr stored => rfl
  | obj stored => rfl

/-- Anything is stored over a marker. -/
@[simp]
theorem preserveStoredType_over_propDelete (value : Json) :
    preserveStoredType propDelete value = .ok value := by
  have hfloat : Number.readFloat "__nx_prop_delete__" = none := rfl
  have hsame : sameText "__nx_prop_delete__" value = .ok false := by
    cases value with
    | scalar value => cases value <;> simp [sameText, hfloat]
    | arr items => rfl
    | obj fields => rfl
  rw [propDelete, preserveStoredType_scalar, sameScalar, hsame]
  rfl

@[simp]
theorem returns_propDelete (stored : Json) : Returns stored propDelete :=
  (kept_of_eq (preserveStoredType_propDelete stored)).1

@[simp]
theorem returns_over_propDelete (value : Json) : Returns propDelete value :=
  (kept_of_eq (preserveStoredType_over_propDelete value)).1

@[simp]
theorem kept_over_propDelete (value : Json) : kept propDelete value = value :=
  (kept_of_eq (preserveStoredType_over_propDelete value)).2

/-- What is left of a property: nothing when it is marked for removal. -/
def dropMarker (value : Option Json) : Option Json :=
  value.filter fun value => !isDelete value

@[simp]
theorem dropMarker_none : dropMarker none = none := rfl

@[simp]
theorem dropMarker_propDelete : dropMarker (some propDelete) = none := rfl

theorem dropMarker_of_ne {value : Json} (h : value ≠ propDelete) :
    dropMarker (some value) = some value := by
  simp [dropMarker, isDelete, h]

def ProperProperties (payload : Payload) : Prop :=
  hasProperties payload = true → ∃ properties, payload.get? "properties" = some (.obj properties)

variable {payload : Payload}

theorem hasProperties_eq_false : hasProperties payload = false ↔
      payload.get? "properties" = none ∨ payload.get? "properties" = some .null := by
  rw [hasProperties]
  cases payload.get? "properties" <;> simp

theorem propertiesOf_eq_nil (h : hasProperties payload = false) : propertiesOf payload = [] := by
  rw [propertiesOf]
  rcases hasProperties_eq_false.mp h with hnone | hnull
  · rw [hnone]
  · rw [hnull]

section

variable (payload : Payload) (properties : Dict String Json)

@[simp]
theorem propertiesOf_set :
    propertiesOf (payload.set "properties" (.obj properties)) = properties := by
  rw [propertiesOf, get?_set_self]

@[simp]
theorem hasProperties_set : hasProperties (payload.set "properties" (.obj properties)) = true := by
  simp [hasProperties]

theorem properProperties_set : ProperProperties (payload.set "properties" (.obj properties)) :=
  fun _ => ⟨properties, get?_set_self _ _ _⟩

end

/-- Two payloads are the same when their views are. -/
theorem samePayload_iff {first second : Payload} (hfirst : ProperProperties first)
    (hsecond : ProperProperties second) :
    SamePayload (some first) (some second) ↔
      (∀ field ≠ "properties", Json.Same? (first.get? field) (second.get? field)) ∧
        hasProperties first = hasProperties second ∧
        (first.get? "properties").isSome = (second.get? "properties").isSome ∧
        ∀ key, Json.Same? ((propertiesOf first).get? key) ((propertiesOf second).get? key) := by
  have hsame : SamePayload (some first) (some second) ↔
      ∀ field, Json.Same? (first.get? field) (second.get? field) := by
    simp [SamePayload, Json.eqBy_obj_iff]
  have hproperties : Json.Same? (first.get? "properties") (second.get? "properties") ↔
      hasProperties first = hasProperties second ∧
        (first.get? "properties").isSome = (second.get? "properties").isSome ∧
        ∀ key, Json.Same? ((propertiesOf first).get? key) ((propertiesOf second).get? key) := by
    cases hhas : hasProperties first with
    | true =>
      obtain ⟨properties, hget⟩ := hfirst hhas
      cases hhas' : hasProperties second with
      | true =>
        obtain ⟨properties', hget'⟩ := hsecond hhas'
        simp [propertiesOf, hget, hget', Json.eqBy_obj_iff]
      | false =>
        rcases hasProperties_eq_false.mp hhas' with hget' | hget' <;>
          simp [hget, hget', Json.EqBy, Json.canonBy]
    | false =>
      rw [propertiesOf_eq_nil hhas]
      cases hhas' : hasProperties second with
      | true =>
        obtain ⟨properties', hget'⟩ := hsecond hhas'
        rcases hasProperties_eq_false.mp hhas with hget | hget <;>
          simp [hget, hget', Json.EqBy, Json.canonBy]
      | false =>
        rw [propertiesOf_eq_nil hhas']
        rcases hasProperties_eq_false.mp hhas with hget | hget <;>
          rcases hasProperties_eq_false.mp hhas' with hget' | hget' <;>
          simp [hget, hget', Json.EqBy]
  rw [hsame, ← hproperties]
  constructor
  · exact fun h => ⟨fun field _ => h field, h "properties"⟩
  · rintro ⟨hfields, hprops⟩ field
    by_cases hfield : field = "properties"
    · rw [hfield]
      exact hprops
    · exact hfields field hfield

/-- Whether merging a patch's properties returns. -/
def PropsMerge (base patch : Payload) : Prop :=
  ∀ key value, (propertiesOf patch).get? key = some value →
    ReturnsOver ((propertiesOf base).get? key) value

def keptProps (base patch : Payload) : Dict String Json :=
  (propertiesOf base).update ((propertiesOf patch).items.map fun entry =>
    (entry.1, keptOver ((propertiesOf base).get? entry.1) entry.2))

theorem mergeProps_eq_ok {base patch : Payload} {merged : Dict String Json} :
    mergeProps base patch = .ok merged ↔ PropsMerge base patch ∧ merged = keptProps base patch := by
  have computed : ∀ sent, (propertiesOf patch).mapValuesM
      (fun key value => overStored ((propertiesOf base).get? key) value) = .ok sent ↔
        PropsMerge base patch ∧ sent = (propertiesOf patch).items.map fun entry =>
          (entry.1, keptOver ((propertiesOf base).get? entry.1) entry.2) :=
    fun _ => mapValuesM_eq_ok fun _ _ _ => overStored_eq_ok
  rw [mergeProps, bind_eq_ok]
  simp only [computed]
  constructor
  · rintro ⟨sent, ⟨returned, rfl⟩, same⟩
    exact ⟨returned, (Except.ok.inj same).symm⟩
  · rintro ⟨returned, rfl⟩
    exact ⟨_, ⟨returned, rfl⟩, rfl⟩

/-- A property a patch may name over one that may be there. -/
def mergeProp : Option Json → Option Json → Option Json
  | before, none => before
  | before, some value => some (keptOver before value)

@[simp]
theorem mergeProp_none_left (value : Option Json) : mergeProp none value = value := by
  cases value <;> rfl

@[simp]
theorem mergeProp_none_right (before : Option Json) : mergeProp before none = before := rfl

theorem mergeProp_some (before : Option Json) (value : Json) :
    mergeProp before (some value) = some (keptOver before value) := rfl

theorem get?_keptProps (base patch : Payload) (key : String) : (keptProps base patch).get? key =
      mergeProp ((propertiesOf base).get? key) ((propertiesOf patch).get? key) := by
  have hpatch := get?_map_items (propertiesOf patch)
    (fun key value => keptOver ((propertiesOf base).get? key) value) key
  rw [keptProps, get?_update, hpatch]
  cases (propertiesOf patch).get? key <;> rfl

theorem get?_dropDeletes (properties : Dict String Json) (key : String) :
    (dropDeletes properties).get? key = dropMarker (properties.get? key) :=
  get?_filter_items properties (fun value => !isDelete value) key

variable {base patch : Payload}

/-- Laid over each other, two payloads without properties have none. -/
theorem hasProperties_update (h : ¬ (hasProperties patch || hasProperties base) = true) :
    hasProperties (base.update patch) = false := by
  rw [Bool.or_eq_true, not_or, Bool.not_eq_true, Bool.not_eq_true] at h
  rw [hasProperties_eq_false, get?_update]
  rcases hasProperties_eq_false.mp h.1 with hpatch | hpatch
  · rw [hpatch]
    exact hasProperties_eq_false.mp h.2
  · rw [hpatch]
    exact .inr rfl

/-- A payload laid over another, with these properties if either has any. -/
def overlay (base patch : Payload) (properties : Dict String Json) : Payload :=
  if hasProperties patch || hasProperties base then
    (base.update patch).set "properties" (.obj properties)
  else base.update patch

section

variable (base patch : Payload) (properties : Dict String Json)

theorem get?_overlay {field : String} (hfield : field ≠ "properties") :
    (overlay base patch properties).get? field = (patch.get? field).or (base.get? field) := by
  rw [overlay]
  split
  · rw [get?_set_ne (Ne.symm hfield), get?_update]
  · rw [get?_update]

theorem hasProperties_overlay : hasProperties (overlay base patch properties) =
      (hasProperties patch || hasProperties base) := by
  rw [overlay]
  split
  · rename_i h
    rw [hasProperties_set, h]
  · rename_i h
    rw [hasProperties_update h, Bool.eq_false_of_not_eq_true h]

theorem isSome_overlay : ((overlay base patch properties).get? "properties").isSome =
      ((patch.get? "properties").isSome || (base.get? "properties").isSome) := by
  have hsome : ∀ payload : Payload, hasProperties payload = true →
      (payload.get? "properties").isSome = true := by
    intro payload hhas
    by_contra hnone
    rw [Option.not_isSome_iff_eq_none] at hnone
    rw [hasProperties_eq_false.mpr (.inl hnone)] at hhas
    cases hhas
  rw [overlay]
  split
  · rename_i h
    rw [get?_set_self, Option.isSome_some]
    rcases Bool.or_eq_true_iff.mp h with hpatch | hbase
    · rw [hsome patch hpatch, Bool.true_or]
    · rw [hsome base hbase, Bool.or_true]
  · rw [get?_update, Option.isSome_or]

theorem properProperties_overlay : ProperProperties (overlay base patch properties) := by
  rw [overlay]
  split
  · exact properProperties_set _ _
  · rename_i h
    intro hhas
    rw [hasProperties_update h] at hhas
    cases hhas

theorem propertiesOf_overlay : propertiesOf (overlay base patch properties) =
      if hasProperties patch || hasProperties base then properties else [] := by
  rw [overlay]
  split
  · exact propertiesOf_set _ _
  · rename_i h
    exact propertiesOf_eq_nil (hasProperties_update h)

/-- Without properties on either side there is none to merge. -/
theorem get?_propertiesOf_eq_none {base patch : Payload}
    (h : ¬ (hasProperties patch || hasProperties base) = true) (key : String) :
    (propertiesOf patch).get? key = none ∧ (propertiesOf base).get? key = none := by
  rw [Bool.or_eq_true, not_or, Bool.not_eq_true, Bool.not_eq_true] at h
  rw [propertiesOf_eq_nil h.1, propertiesOf_eq_nil h.2]
  exact ⟨rfl, rfl⟩

def patched (base patch : Payload) : Payload :=
  overlay base patch (dropDeletes (keptProps base patch))

/-- What composing two patches leaves, where it returns. -/
def joined (first second : Payload) : Payload :=
  overlay first second (keptProps first second)

/-- Without properties on either side no comparison is made. -/
theorem mergeable_of_not {base patch : Payload}
    (h : ¬ (hasProperties patch || hasProperties base) = true) : PropsMerge base patch := by
  intro key value sent
  rw [(get?_propertiesOf_eq_none h key).1] at sent
  cases sent

theorem applyPatch_eq_ok {base : Option Payload} {patch after : Payload} :
    applyPatch base patch = .ok after ↔
      PropsMerge (base.getD []) patch ∧ after = patched (base.getD []) patch := by
  rw [applyPatch, patched, overlay]
  split
  · simp only [bind_eq_ok, mergeProps_eq_ok]
    constructor
    · rintro ⟨merged, ⟨returned, rfl⟩, same⟩
      exact ⟨returned, (Except.ok.inj same).symm⟩
    · rintro ⟨returned, rfl⟩
      exact ⟨_, ⟨returned, rfl⟩, rfl⟩
  · rename_i h
    rw [and_iff_right (mergeable_of_not h), Except.ok.injEq, eq_comm]

theorem composePatches_eq_ok {first second after : Payload} :
    composePatches first second = .ok after ↔
      PropsMerge first second ∧ after = joined first second := by
  rw [composePatches, joined, overlay, Bool.or_comm]
  split
  · simp only [bind_eq_ok, mergeProps_eq_ok]
    constructor
    · rintro ⟨merged, ⟨returned, rfl⟩, same⟩
      exact ⟨returned, (Except.ok.inj same).symm⟩
    · rintro ⟨returned, rfl⟩
      exact ⟨_, ⟨returned, rfl⟩, rfl⟩
  · rename_i h
    rw [and_iff_right (mergeable_of_not h), Except.ok.injEq, eq_comm]

theorem get?_propertiesOf_patched (key : String) : (propertiesOf (patched base patch)).get? key =
      dropMarker (mergeProp ((propertiesOf base).get? key) ((propertiesOf patch).get? key)) := by
  rw [patched, propertiesOf_overlay]
  split
  · rw [get?_dropDeletes, get?_keptProps]
  · rename_i h
    obtain ⟨hpatch, hbase⟩ := get?_propertiesOf_eq_none h key
    rw [hpatch, hbase]
    rfl

theorem get?_propertiesOf_composed (key : String) : (propertiesOf (joined base patch)).get? key =
      mergeProp ((propertiesOf base).get? key) ((propertiesOf patch).get? key) := by
  rw [joined, propertiesOf_overlay]
  split
  · rw [get?_keptProps]
  · rename_i h
    obtain ⟨hpatch, hbase⟩ := get?_propertiesOf_eq_none h key
    rw [hpatch, hbase]
    rfl

end

section

variable (payload : Payload)

theorem stripDeletes_cases : stripDeletes payload = payload ∧
        (∀ key, (propertiesOf payload).get? key ≠ some propDelete) ∨
      hasProperties payload = true ∧ stripDeletes payload =
        payload.set "properties" (.obj (dropDeletes (propertiesOf payload))) := by
  rw [stripDeletes, hasProperties, propertiesOf]
  split
  · rename_i properties hget
    split
    · exact .inr ⟨by simp [hget], rfl⟩
    · rename_i hany
      refine .inl ⟨rfl, fun key hkey => hany ?_⟩
      exact List.any_eq_true.mpr ⟨(key, propDelete), mem_items_iff.mpr hkey, by simp [isDelete]⟩
  · rename_i hget
    refine .inl ⟨rfl, fun key hkey => ?_⟩
    simp at hkey

theorem get?_stripDeletes {field : String} (hfield : field ≠ "properties") :
    (stripDeletes payload).get? field = payload.get? field := by
  rcases stripDeletes_cases payload with ⟨hsame, -⟩ | ⟨-, hset⟩
  · rw [hsame]
  · rw [hset, get?_set_ne (Ne.symm hfield)]

theorem hasProperties_stripDeletes :
    hasProperties (stripDeletes payload) = hasProperties payload := by
  rcases stripDeletes_cases payload with ⟨hsame, -⟩ | ⟨hhas, hset⟩
  · rw [hsame]
  · rw [hset, hasProperties_set, hhas]

theorem isSome_stripDeletes :
    ((stripDeletes payload).get? "properties").isSome = (payload.get? "properties").isSome := by
  rcases stripDeletes_cases payload with ⟨hsame, -⟩ | ⟨hhas, hset⟩
  · rw [hsame]
  · rw [hset, get?_set_self]
    cases hget : payload.get? "properties" with
    | none => rw [hasProperties_eq_false.mpr (.inl hget)] at hhas; cases hhas
    | some value => rfl

theorem get?_propertiesOf_stripDeletes (key : String) :
    (propertiesOf (stripDeletes payload)).get? key =
      dropMarker ((propertiesOf payload).get? key) := by
  rcases stripDeletes_cases payload with ⟨hsame, hnone⟩ | ⟨-, hset⟩
  · rw [hsame]
    cases hkey : (propertiesOf payload).get? key with
    | none => rfl
    | some value => exact (dropMarker_of_ne fun hvalue => hnone key (hvalue ▸ hkey)).symm
  · rw [hset, propertiesOf_set, get?_dropDeletes]

theorem properProperties_stripDeletes (h : ProperProperties payload) :
    ProperProperties (stripDeletes payload) := by
  rcases stripDeletes_cases payload with ⟨hsame, -⟩ | ⟨-, hset⟩
  · rw [hsame]
    exact h
  · rw [hset]
    exact properProperties_set _ _

end

def Unreserved (payload : Payload) : Prop :=
  ∀ key ∈ reservedNodeKeys, (propertiesOf payload).get? key = none

theorem sanitizeNodeProperties_of_unreserved (h : Unreserved payload) :
    sanitizeNodeProperties payload = payload := by
  rw [sanitizeNodeProperties]
  split
  · rename_i properties hget
    have hall : properties.filter (fun entry => entry.1 ∉ reservedNodeKeys) = properties := by
      rw [List.filter_eq_self]
      intro entry hentry
      rw [decide_eq_true_iff]
      intro hreserved
      have hnone := h entry.1 hreserved
      rw [propertiesOf, hget] at hnone
      exact get?_eq_none_iff.mp hnone (List.mem_map_of_mem hentry)
    rw [hall, if_pos rfl]
  · rfl

theorem Unreserved.patched (hbase : Unreserved base) (hpatch : Unreserved patch) :
    Unreserved (patched base patch) := by
  intro key hkey
  rw [get?_propertiesOf_patched, hbase key hkey, hpatch key hkey]
  rfl

theorem Unreserved.joined (hbase : Unreserved base) (hpatch : Unreserved patch) :
    Unreserved (joined base patch) := by
  intro key hkey
  rw [get?_propertiesOf_composed, hbase key hkey, hpatch key hkey]
  rfl

theorem Unreserved.stripDeletes (h : Unreserved payload) : Unreserved (stripDeletes payload) := by
  intro key hkey
  rw [get?_propertiesOf_stripDeletes, h key hkey]
  rfl

end DataViz.Versioning
