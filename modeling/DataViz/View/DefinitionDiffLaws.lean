/-
# What a comparison sees

Two definitions are called identical when what a comparison sees of them is equal: layers by their
first text id, without their order and what is null; placements that are objects; and everything
else without what is null in objects. Equal definitions are identical, and what is counted is
counted exactly.
-/

import DataViz.View.DefinitionDiff
import DataViz.View.PortableLaws

namespace DataViz.View.Compare

open List Option Dict

open Json

variable {x y : Json} {u v : Option Json} {a b : Dict String Json}

section

theorem pyEq_null_iff : PyEq .null x ↔ x = .null := by
  constructor
  · intro same
    cases x with
    | scalar s =>
      cases s with
      | null => rfl
      | _ => cases same
    | _ => cases same
  · rintro rfl
    rfl

/-- Values that are not null, under a function that keeps null apart, compare as values of which
none and null are one. -/
theorem pyEq?_filter_iff (f : Json → Json) (null : ∀ x, f x = .null ↔ x = .null) :
    PyEq? ((u.filter (· ≠ .null)).map f) ((v.filter (· ≠ .null)).map f) ↔
      PyEq (f (u.getD .null)) (f (v.getD .null)) := by
  have gone (x : Json) : (some x).filter (· ≠ .null) = if x = .null then none else some x := by
    by_cases isNull : x = .null <;> simp [Option.filter, isNull]
  have fNull : f .null = .null := (null .null).mpr rfl
  have left (x : Json) : PyEq .null (f x) ↔ x = .null := pyEq_null_iff.trans (null x)
  have right (x : Json) : PyEq (f x) .null ↔ x = .null :=
    ⟨fun same => (left x).mp same.symm, fun same => ((left x).mpr same).symm⟩
  cases u with
  | none =>
    cases v with
    | none => exact ⟨fun _ => rfl, fun _ => rfl⟩
    | some y =>
      rw [gone, getD_none, fNull, left]
      by_cases isNull : y = .null
      · rw [if_pos isNull]
        exact ⟨fun _ => isNull, fun _ => rfl⟩
      · rw [if_neg isNull]
        exact ⟨fun same => (some_ne_none _ same.symm).elim, fun same => absurd same isNull⟩
  | some x =>
    cases v with
    | none =>
      rw [gone, getD_none, fNull, right]
      by_cases isNull : x = .null
      · rw [if_pos isNull]
        exact ⟨fun _ => isNull, fun _ => rfl⟩
      · rw [if_neg isNull]
        exact ⟨fun same => (some_ne_none _ same).elim, fun same => absurd same isNull⟩
    | some y =>
      rw [gone, gone, getD_some, getD_some]
      by_cases xNull : x = .null
      · subst xNull
        rw [fNull, left]
        by_cases yNull : y = .null
        · rw [if_pos yNull]
          exact ⟨fun _ => yNull, fun _ => rfl⟩
        · rw [if_neg yNull]
          exact ⟨fun same => (some_ne_none _ same.symm).elim, fun same => absurd same yNull⟩
      · rw [if_neg xNull]
        by_cases yNull : y = .null
        · subst yNull
          rw [fNull, right]
          exact ⟨fun same => (some_ne_none _ same).elim, fun same => absurd same xNull⟩
        · rw [if_neg yNull]
          exact eqBy?_some

theorem pyEq?_present_iff : PyEq? (u.filter (· ≠ .null)) (v.filter (· ≠ .null)) ↔
    PyEq (u.getD .null) (v.getD .null) := by
  have same := pyEq?_filter_iff (u := u) (v := v) id fun _ => Iff.rfl
  rwa [map_id_apply, map_id_apply] at same

mutual

/-- A value without what is null in objects, but for objects in lists. -/
def prune : Json → Json
  | .obj fields => .obj (pruneFields [] fields)
  | .arr items => .arr items
  | .scalar s => .scalar s

def pruneFields (past : List String) : List (String × Json) → List (String × Json)
  | [] => []
  | (key, value) :: rest =>
    if key ∈ past then pruneFields past rest
    else if value = .null then pruneFields (key :: past) rest
    else (key, prune value) :: pruneFields (key :: past) rest

end

theorem prune_eq_null_iff : prune x = .null ↔ x = .null := by
  cases x <;> simp [prune]

theorem get?_pruneFields (fields : Dict String Json) (past : List String) (key : String) :
    Dict.get? (pruneFields past fields) key =
      if key ∈ past then none else ((fields.get? key).filter (· ≠ .null)).map prune := by
  induction fields generalizing past with
  | nil => simp [pruneFields]
  | cons field rest ih =>
    obtain ⟨k, value⟩ := field
    rw [pruneFields]
    by_cases seen : k ∈ past
    · rw [if_pos seen, ih]
      by_cases here : key ∈ past
      · rw [if_pos here, if_pos here]
      · have ne : k ≠ key := by
          rintro rfl
          exact here seen
        rw [if_neg here, if_neg here, get?_cons_ne ne]
    · rw [if_neg seen]
      by_cases same : k = key
      · subst same
        rw [if_neg seen, get?_cons_self]
        by_cases isNull : value = .null
        · rw [if_pos isNull, ih, if_pos mem_cons_self, isNull]
          rfl
        · simp [Option.filter, isNull]
      · have further : Dict.get? (pruneFields (k :: past) rest) key =
            if key ∈ past then none else ((Dict.get? rest key).filter (· ≠ .null)).map prune := by
          rw [ih]
          simp [Ne.symm same]
        rw [get?_cons_ne same, ← further]
        split
        · rfl
        · rw [get?_cons_ne same]

theorem pyEq_prune_obj_iff {before after : Dict String Json} :
    PyEq (prune (.obj before)) (prune (.obj after)) ↔ ∀ key,
      PyEq (prune ((before.get? key).getD .null)) (prune ((after.get? key).getD .null)) := by
  refine eqBy_obj_iff.trans (forall_congr' fun key => ?_)
  rw [get?_pruneFields, get?_pruneFields]
  exact pyEq?_filter_iff prune fun _ => prune_eq_null_iff

/-- A value that is no object compares as it is. -/
theorem pyEq_prune_iff (plain : fieldsOf x = none) : PyEq (prune x) (prune y) ↔ PyEq x y := by
  cases x with
  | obj fields => cases plain
  | arr items =>
    cases y with
    | obj fields => exact ⟨nofun, nofun⟩
    | _ => rfl
  | scalar s =>
    cases y with
    | obj fields => exact ⟨nofun, nofun⟩
    | _ => rfl

theorem getD_eq_obj {fields : Dict String Json} (object : fieldsOf (u.getD .null) = some fields) :
    u = some (.obj fields) := by
  cases u with
  | none => cases object
  | some x =>
    cases x with
    | obj own => exact congrArg (fun fields => some (Json.obj fields)) (some.inj object)
    | _ => cases object

theorem pyEq_getD (same : PyEq? u v) : PyEq (u.getD .null) (v.getD .null) := by
  cases u with
  | none =>
    rw [eqBy?_none_left.mp same]
    rfl
  | some x =>
    cases v with
    | none => cases same
    | some y => exact eqBy?_some.mp same

/-- Equal values are equal without null. -/
theorem pyEq_prune (same : PyEq (u.getD .null) (v.getD .null)) :
    PyEq (prune (u.getD .null)) (prune (v.getD .null)) := by
  induction size : sizeOf u using Nat.strong_induction_on generalizing u v with
  | _ _ ih =>
    cases u with
    | none => exact (pyEq_prune_iff rfl).mpr same
    | some x =>
      cases x with
      | obj before =>
        rw [getD_some] at same ⊢
        obtain ⟨after, here⟩ := same.exists_obj
        rw [here] at same ⊢
        rw [pyEq_prune_obj_iff]
        intro key
        have alike := pyEq_getD (eqBy_obj_iff.mp same key)
        exact ih _ (size ▸ sizeOf_get?_lt before key) alike rfl
      | _ => exact (pyEq_prune_iff rfl).mpr same

end

section

theorem foldl_spec {step : List String → String → List String} {holds : String → Prop} {most : ℕ}
    (keys : List String)
    (each : ∀ out, ∀ key ∈ keys, ∃ more, step out key = out ++ more ∧
      (out.length < most → (more = [] ↔ holds key))) (out : List String) :
    ∃ more, keys.foldl step out = out ++ more ∧
      (out.length < most → (more = [] ↔ ∀ key ∈ keys, holds key)) := by
  induction keys generalizing out with
  | nil => exact ⟨[], (append_nil out).symm, fun _ => by simp⟩
  | cons key rest ih =>
    obtain ⟨more, stepped, first⟩ := each out key mem_cons_self
    obtain ⟨others, went, last⟩ :=
      ih (fun out key mem => each out key (mem_cons_of_mem _ mem)) (out ++ more)
    refine ⟨more ++ others, by rw [foldl_cons, stepped, went, append_assoc], ?_⟩
    intro room
    rw [append_eq_nil_iff, forall_mem_cons, ← first room]
    refine and_congr_right fun nothing => last ?_
    rwa [nothing, append_nil]

/-- Paths are appended, and with room for one none is where the values are equal without null. -/
theorem changedPaths_spec (a b : Option Json) (path : String) (out : List String) :
    ∃ more, changedPaths a b path out = out ++ more ∧ (out.length < maxSettingPaths →
      (more = [] ↔ PyEq (prune (a.getD .null)) (prune (b.getD .null)))) := by
  induction a, b, path, out using changedPaths.induct with
  | case1 a b path out done =>
    refine ⟨[], ?_, fun room => ?_⟩
    · rw [changedPaths.eq_def, if_pos done, append_nil]
    · have same := done.resolve_left (not_le.mpr room)
      exact ⟨fun _ => pyEq_prune same, fun _ => rfl⟩
  | case2 path out before after changed ih =>
    obtain ⟨more, went, ends⟩ := foldl_spec
      (Dict.sortedKeys (Dict.keys before ++ Dict.keys after)) (fun out key _ => ih out key) out
    refine ⟨more, ?_, fun room => (ends room).trans ?_⟩
    · rw [changedPaths.eq_def, if_neg changed]
      exact went
    · rw [getD_some, getD_some, pyEq_prune_obj_iff]
      refine ⟨fun all key => ?_, fun all key _ => all key⟩
      by_cases listed : key ∈ Dict.sortedKeys (Dict.keys before ++ Dict.keys after)
      · exact all key listed
      · rw [mem_sortedKeys, mem_append, not_or, ← get?_eq_none_iff, ← get?_eq_none_iff] at listed
        rw [listed.1, listed.2]
        rfl
  | case3 a b path out changed plain =>
    refine ⟨[if path = "" then "(root)" else path], ?_, fun room => ?_⟩
    · rw [changedPaths.eq_def, if_neg changed]
      split
      case h_1 before after => exact (plain before after rfl rfl).elim
      case h_2 => rfl
    · have different := mt Or.inr changed
      refine ⟨fun nothing => absurd nothing (cons_ne_nil _ _), fun same => absurd ?_ different⟩
      cases object : fieldsOf (a.getD .null) with
      | none => exact (pyEq_prune_iff object).mp same
      | some before =>
        cases object' : fieldsOf (b.getD .null) with
        | none => exact ((pyEq_prune_iff object').mp same.symm).symm
        | some after =>
          exact (plain before after (getD_eq_obj object) (getD_eq_obj object')).elim

end

section

variable {id : String} {layer : Dict String Json}

def shownLayer (layer : Dict String Json) : Json :=
  .obj (dropNulls (layer.pop "order"))

theorem nodup_keys_layersById : (layersById a).keys.Nodup :=
  nodup_keys_firsts

theorem identified_of_get? (found : (layersById a).get? id = some layer) :
    layer.get? "id" = some (.str id) := by
  have mem := mem_of_get? (get?_firsts.symm.trans found)
  obtain ⟨other, -, own⟩ := mem_filterMap.mp mem
  obtain ⟨text, named, pair⟩ := map_eq_some_iff.mp own
  obtain ⟨rfl, rfl⟩ := Prod.mk.inj pair
  obtain ⟨value, found, isText⟩ := bind_eq_some_iff.mp named
  cases value with
  | scalar s =>
    cases s with
    | str text' => rw [found, some.inj isText]
    | _ => cases isText
  | _ => cases isText

theorem get?_shownLayer (key : String) : (dropNulls (layer.pop "order")).get? key =
    if key = "order" then none else (layer.get? key).filter (· ≠ .null) := by
  rw [get?_dropNulls, get?_pop]
  by_cases order : key = "order"
  · rw [if_pos order.symm, if_pos order]
    rfl
  · rw [if_neg (Ne.symm order), if_neg order]

theorem pyEq_shownLayer_iff {before after : Dict String Json} :
    PyEq (shownLayer before) (shownLayer after) ↔ changedFields before after = [] := by
  rw [changedFields, filter_eq_nil_iff]
  refine eqBy_obj_iff.trans ⟨fun same key _ changed => ?_, fun none key => ?_⟩
  · have changed := of_decide_eq_true changed
    have here := same key
    rw [get?_shownLayer, get?_shownLayer, if_neg changed.1, if_neg changed.1] at here
    exact changed.2 (pyEq?_present_iff.mp here)
  · rw [get?_shownLayer, get?_shownLayer]
    by_cases order : key = "order"
    · rw [if_pos order, if_pos order]
    · rw [if_neg order, if_neg order]
      refine pyEq?_present_iff.mpr ?_
      by_cases listed : key ∈ Dict.sortedKeys (before.keys ++ after.keys)
      · by_contra changed
        exact none key listed (decide_eq_true ⟨order, changed⟩)
      · rw [mem_sortedKeys, mem_append, not_or, ← get?_eq_none_iff, ← get?_eq_none_iff] at listed
        rw [listed.1, listed.2]
        rfl

def shownLayers (definition : Dict String Json) : List Json :=
  (layersById definition).map fun layer => shownLayer layer.2

def idText (value : Json) : Option String :=
  ((fieldsOf value).bind fun fields => fields.get? "id").bind textOf

theorem idText_canonBy (value : Json) : idText (canonBy Scalar.numeric value) = idText value := by
  cases value with
  | obj fields =>
    show ((Dict.sorted (canonByFields _ fields)).get? "id").bind textOf =
      (Dict.get? fields "id").bind textOf
    rw [get?_sorted, get?_canonByFields]
    cases Dict.get? fields "id" with
    | none => rfl
    | some id =>
      cases id with
      | scalar s => cases s <;> rfl
      | _ => rfl
  | _ => rfl

theorem idText_shownLayer (found : (layersById a).get? id = some layer) :
    idText (shownLayer layer) = some id := by
  show ((dropNulls (layer.pop "order")).get? "id").bind textOf = some id
  rw [get?_shownLayer, identified_of_get? found]
  rfl

def shownAt (definition : Dict String Json) (id : String) : Json :=
  shownLayer (((layersById definition).get? id).getD [])

theorem shownLayers_eq : shownLayers a = (layersById a).keys.map (shownAt a) := by
  have values := map_snd_eq (nodup_keys_layersById (a := a)) []
  have shown : shownLayers a = ((layersById a).map Prod.snd).map shownLayer := by
    rw [List.map_map]
    rfl
  rw [shown, values, List.map_map]
  rfl

theorem map_idText_shownLayers : (shownLayers a).map idText = (layersById a).keys.map some := by
  rw [shownLayers_eq, List.map_map]
  refine map_congr_left fun id mem => ?_
  obtain ⟨layer, found⟩ := isSome_iff_exists.mp (mem_keys_iff.mp mem)
  show idText (shownAt a id) = some id
  rw [shownAt, found, getD_some, idText_shownLayer found]

/-- Layers look alike when they have the same ids in the same order and look alike under each. -/
theorem pyEq_shownLayers_iff : PyEq (.arr (shownLayers a)) (.arr (shownLayers b)) ↔
    (layersById a).keys = (layersById b).keys ∧
      ∀ id ∈ (layersById a).keys, PyEq (shownAt a id) (shownAt b id) := by
  rw [pyEq_arr_iff]
  have ids (definition : Dict String Json) :
      ((shownLayers definition).map (canonBy Scalar.numeric)).map idText =
        (layersById definition).keys.map some := by
    rw [List.map_map, ← map_idText_shownLayers]
    exact map_congr_left fun layer _ => idText_canonBy layer
  constructor
  · intro same
    have keys : (layersById a).keys = (layersById b).keys := by
      have texts := congrArg (map idText) same
      rw [ids, ids] at texts
      exact map_injective_iff.mpr (some_injective _) texts
    refine ⟨keys, ?_⟩
    rw [shownLayers_eq, shownLayers_eq, ← keys, List.map_map, List.map_map, map_inj_left] at same
    exact same
  · rintro ⟨keys, same⟩
    rw [shownLayers_eq, shownLayers_eq, ← keys, List.map_map, List.map_map, map_inj_left]
    exact same

theorem filter_fresh_eq_nil_iff {keys : List String} {d : Dict String (Dict String Json)} :
    (d.filter fun entry => entry.1 ∉ keys) = [] ↔ ∀ key ∈ d.keys, key ∈ keys := by
  rw [filter_eq_nil_iff]
  constructor
  · intro none key mem
    obtain ⟨entry, listed, rfl⟩ := mem_map.mp mem
    by_contra fresh
    exact none entry listed (decide_eq_true fresh)
  · intro all entry mem fresh
    exact of_decide_eq_true fresh (all _ (mem_map_of_mem mem))

theorem changedLayers_eq_nil_iff (labelA labelB : Option (Dict String Json)) :
    (changes a b labelA labelB).changedLayers = [] ↔ ∀ id before after,
      (layersById a).get? id = some before → (layersById b).get? id = some after →
        PyEq (shownLayer before) (shownLayer after) := by
  rw [changes]
  dsimp only
  rw [filterMap_eq_nil_iff]
  constructor
  · intro none id before after old new
    have here := none (id, before) (mem_of_get? old)
    rw [new, bind_some] at here
    split at here
    · next same => exact pyEq_shownLayer_iff.mpr same
    · cases here
  · rintro same ⟨id, before⟩ mem
    have old := get?_of_mem nodup_keys_layersById mem
    cases new : (layersById b).get? id with
    | none => rfl
    | some after => exact if_pos (pyEq_shownLayer_iff.mp (same id before after old new))

theorem pyEq_shownLayers_iff_changes (labelA labelB : Option (Dict String Json)) :
    PyEq (.arr (shownLayers a)) (.arr (shownLayers b)) ↔
      (changes a b labelA labelB).addedLayers = [] ∧
      (changes a b labelA labelB).removedLayers = [] ∧
      (changes a b labelA labelB).changedLayers = [] ∧
      (changes a b labelA labelB).reordered = false := by
  have added : (changes a b labelA labelB).addedLayers = [] ↔
      ∀ id ∈ (layersById b).keys, id ∈ (layersById a).keys :=
    map_eq_nil_iff.trans filter_fresh_eq_nil_iff
  have removed : (changes a b labelA labelB).removedLayers = [] ↔
      ∀ id ∈ (layersById a).keys, id ∈ (layersById b).keys :=
    map_eq_nil_iff.trans filter_fresh_eq_nil_iff
  have inPlace : (changes a b labelA labelB).reordered = false ↔
      (layersById a).keys.filter (· ∈ (layersById b).keys) =
        (layersById b).keys.filter (· ∈ (layersById a).keys) :=
    decide_eq_false_iff_not.trans not_not
  rw [pyEq_shownLayers_iff, added, removed, inPlace, changedLayers_eq_nil_iff]
  constructor
  · rintro ⟨keys, same⟩
    refine ⟨fun id mem => keys ▸ mem, fun id mem => keys ▸ mem, fun id before after old new => ?_,
      by rw [keys]⟩
    have here := same id (mem_keys_iff.mpr (old ▸ rfl))
    rwa [shownAt, shownAt, old, new] at here
  · rintro ⟨added, removed, same, inPlace⟩
    rw [filter_eq_self.mpr fun id mem => decide_eq_true (removed id mem),
      filter_eq_self.mpr fun id mem => decide_eq_true (added id mem)] at inPlace
    refine ⟨inPlace, fun id mem => ?_⟩
    obtain ⟨before, old⟩ := isSome_iff_exists.mp (mem_keys_iff.mp mem)
    obtain ⟨after, new⟩ := isSome_iff_exists.mp (mem_keys_iff.mp (removed id mem))
    rw [shownAt, shownAt, old, new]
    exact same id before after old new

end

section

variable {urn : String} (labelA labelB : Option (Dict String Json))

theorem nodup_keys_assignments : (assignments a).keys.Nodup := by
  rw [assignments, storedAssignments]
  split
  · exact (keys_ofKeys_sublist _ _).nodup (nodup_dedup _)
  · exact nodup_nil

theorem mem_urnsWhere {d : Dict String Entry} (distinct : d.keys.Nodup)
    {holds : String → Entry → Bool} :
    urn ∈ urnsWhere d holds ↔ ∃ entry, d.get? urn = some entry ∧ holds urn entry = true := by
  rw [urnsWhere, mem_sortedKeys, List.mem_map]
  constructor
  · rintro ⟨entry, mem, rfl⟩
    obtain ⟨mem, own⟩ := mem_filter.mp mem
    exact ⟨entry.2, get?_of_mem distinct mem, own⟩
  · rintro ⟨entry, found, own⟩
    exact ⟨(urn, entry), mem_filter.mpr ⟨mem_of_get? found, own⟩, rfl⟩

def entryAt (definition : Dict String Json) (urn : String) : Option Entry :=
  (assignments definition).get? urn

def layerAt (definition : Dict String Json) (urn : String) : Json :=
  getOrNull ((entryAt definition urn).getD []) "layerId"

/-- An entity is placed on both sides, and not alike. -/
def Differs (a b : Dict String Json) (urn : String) : Prop :=
  (entryAt a urn).isSome ∧ (entryAt b urn).isSome ∧
    ¬PyEq? ((entryAt a urn).map .obj) ((entryAt b urn).map .obj)

/-- So many entities satisfy a condition. -/
def Exactly (count : ℕ) (holds : String → Prop) : Prop :=
  ∃ urns : List String, urns.Nodup ∧ (∀ urn, urn ∈ urns ↔ holds urn) ∧ urns.length = count

/-- Added is what only the second version places. -/
theorem mem_added : urn ∈ (changes a b labelA labelB).added ↔
    (entryAt b urn).isSome ∧ (entryAt a urn).isNone := by
  show urn ∈ urnsWhere (assignments b) (fun urn _ => ((assignments a).get? urn).isNone) ↔ _
  rw [mem_urnsWhere nodup_keys_assignments]
  rw [isSome_iff_exists, exists_and_right]
  rfl

/-- Removed is what only the first version places. -/
theorem mem_removed : urn ∈ (changes a b labelA labelB).removed ↔
    (entryAt a urn).isSome ∧ (entryAt b urn).isNone := by
  show urn ∈ urnsWhere (assignments a) (fun urn _ => ((assignments b).get? urn).isNone) ↔ _
  rw [mem_urnsWhere nodup_keys_assignments]
  rw [isSome_iff_exists, exists_and_right]
  rfl

def different (a b : Dict String Json) : List String :=
  (urnsWhere (assignments a) fun urn _ => ((assignments b).get? urn).isSome).filter fun urn =>
    ¬PyEq (.obj ((entryAt a urn).getD [])) (.obj ((entryAt b urn).getD []))

theorem nodup_different : (different a b).Nodup :=
  (nodup_sortedKeys _).filter _

theorem mem_different : urn ∈ different a b ↔ Differs a b urn := by
  rw [different, mem_filter, mem_urnsWhere nodup_keys_assignments, decide_eq_true_eq, Differs,
    exists_and_right, ← isSome_iff_exists, and_assoc]
  refine and_congr_right fun old => and_congr_right fun new => not_congr ?_
  obtain ⟨before, old⟩ := isSome_iff_exists.mp old
  obtain ⟨after, new⟩ := isSome_iff_exists.mp new
  rw [entryAt, entryAt, old, new]
  exact eqBy?_some.symm

/-- Modified is what differs within one layer. -/
theorem modified_eq : (changes a b labelA labelB).modified =
    (different a b).filter fun urn => PyEq (layerAt a urn) (layerAt b urn) :=
  rfl

/-- Moved is what differs and changes its layer. -/
theorem moved_eq : (changes a b labelA labelB).moved =
    ((different a b).filter fun urn => !decide (PyEq (layerAt a urn) (layerAt b urn))).map
      fun urn => ⟨urn, layerAt a urn, layerAt b urn⟩ :=
  rfl

/-- The assignments agree when the four lists are empty. -/
theorem assignments_alike_iff :
    (∀ urn, PyEq? ((entryAt a urn).map .obj) ((entryAt b urn).map .obj)) ↔
      (changes a b labelA labelB).added = [] ∧ (changes a b labelA labelB).removed = [] ∧
      (changes a b labelA labelB).moved = [] ∧ (changes a b labelA labelB).modified = [] := by
  have kept : (changes a b labelA labelB).moved = [] ∧
      (changes a b labelA labelB).modified = [] ↔ ∀ urn, ¬Differs a b urn := by
    rw [moved_eq, modified_eq, map_eq_nil_iff, filter_eq_nil_iff, filter_eq_nil_iff]
    constructor
    · rintro ⟨moved, modified⟩ urn differs
      have mem := mem_different.mpr differs
      by_cases stays : PyEq (layerAt a urn) (layerAt b urn)
      · exact modified urn mem (decide_eq_true stays)
      · exact moved urn mem (by rw [decide_eq_false stays]; rfl)
    · exact fun none => ⟨fun urn mem => absurd (mem_different.mp mem) (none urn),
        fun urn mem => absurd (mem_different.mp mem) (none urn)⟩
  rw [kept, eq_nil_iff_forall_not_mem, eq_nil_iff_forall_not_mem]
  simp only [mem_added, mem_removed]
  constructor
  · intro same
    have both (urn : String) : (entryAt a urn).isSome = (entryAt b urn).isSome := by
      have alike := congrArg isSome (same urn)
      rwa [isSome_map, isSome_map, isSome_map, isSome_map] at alike
    refine ⟨fun urn ⟨new, gone⟩ => ?_, fun urn ⟨old, gone⟩ => ?_,
      fun urn differs => differs.2.2 (same urn)⟩
    · rw [← both urn, isNone_iff_eq_none.mp gone] at new
      cases new
    · rw [both urn, isNone_iff_eq_none.mp gone] at old
      cases old
  · rintro ⟨added, removed, alike⟩ urn
    have new := added urn
    have old := removed urn
    have here := alike urn
    rw [Differs] at here
    cases before : entryAt a urn with
    | none =>
      cases after : entryAt b urn with
      | none => rfl
      | some entry => exact absurd ⟨after ▸ rfl, before ▸ rfl⟩ new
    | some entry =>
      cases after : entryAt b urn with
      | none => exact absurd ⟨before ▸ rfl, after ▸ rfl⟩ old
      | some entry' =>
        by_contra differs
        rw [before, after] at here
        exact here ⟨rfl, rfl, differs⟩

end

section

variable (labelA labelB : Option (Dict String Json))

def shown (definition : Dict String Json) : Json :=
  .obj [("layers", .arr (shownLayers definition)),
    ("assignments", .obj ((assignments definition).map fun entry => (entry.1, .obj entry.2))),
    ("settings", prune (.obj (withoutLayersAndAssignments definition)))]

/-- Two versions are shown alike when layers, entries and settings agree. -/
theorem pyEq_shown_iff : PyEq (shown a) (shown b) ↔
    PyEq (.arr (shownLayers a)) (.arr (shownLayers b)) ∧
    (∀ urn, PyEq? ((entryAt a urn).map .obj) ((entryAt b urn).map .obj)) ∧
    PyEq (prune (.obj (withoutLayersAndAssignments a)))
      (prune (.obj (withoutLayersAndAssignments b))) := by
  have placements : PyEq (.obj ((assignments a).map fun entry => (entry.1, .obj entry.2)))
      (.obj ((assignments b).map fun entry => (entry.1, .obj entry.2))) ↔
        ∀ urn, PyEq? ((entryAt a urn).map .obj) ((entryAt b urn).map .obj) := by
    refine eqBy_obj_iff.trans (forall_congr' fun urn => ?_)
    rw [get?_map_value _ (fun _ entry => Json.obj entry),
      get?_map_value _ (fun _ entry => Json.obj entry)]
    rfl
  rw [← placements]
  refine eqBy_obj_iff.trans ⟨fun same => ?_, fun ⟨layers, placed, settings⟩ key => ?_⟩
  · exact ⟨eqBy?_some.mp (same "layers"), eqBy?_some.mp (same "assignments"),
      eqBy?_some.mp (same "settings")⟩
  · simp only [get?_cons, get?_nil]
    split
    · exact eqBy?_some.mpr layers
    · split
      · exact eqBy?_some.mpr placed
      · split
        · exact eqBy?_some.mpr settings
        · exact EqBy?.refl none

/-- No setting is listed when the rest agrees without its blanks. -/
theorem settings_eq_nil_iff : (changes a b labelA labelB).settings = [] ↔
    PyEq (prune (.obj (withoutLayersAndAssignments a)))
      (prune (.obj (withoutLayersAndAssignments b))) := by
  obtain ⟨more, went, ends⟩ := changedPaths_spec (some (.obj (withoutLayersAndAssignments a)))
    (some (.obj (withoutLayersAndAssignments b))) "" []
  have own : (changes a b labelA labelB).settings = more := went
  rw [own]
  exact ends (by decide)

/-- Without labels, definitions are identical when what is seen of them is equal. -/
theorem identical_iff : (changes a b none none).identical = true ↔ PyEq (shown a) (shown b) := by
  rw [pyEq_shown_iff, pyEq_shownLayers_iff_changes none none, assignments_alike_iff none none,
    ← settings_eq_nil_iff none none]
  simp only [Diff.identical, Bool.and_eq_true, List.isEmpty_iff, Bool.not_eq_true', and_assoc]
  exact ⟨fun all => all.2, fun all => ⟨rfl, all⟩⟩

end

section

variable {key : String}

def canonObj (fields : Dict String Json) : Json :=
  canonBy Scalar.numeric (.obj fields)

theorem pyEq?_object (same : PyEq? u v) :
    (u.bind fieldsOf).map canonObj = (v.bind fieldsOf).map canonObj := by
  cases u with
  | none =>
    rw [eqBy?_none_left.mp same]
  | some x =>
    cases v with
    | none => cases same
    | some y =>
      have same := eqBy?_some.mp same
      cases x with
      | obj fields =>
        obtain ⟨other, rfl⟩ := same.exists_obj
        exact congrArg some same
      | arr items =>
        cases y with
        | obj fields => cases same
        | _ => rfl
      | scalar s =>
        cases y with
        | obj fields => cases same
        | _ => rfl

theorem pyEq_dictOf (same : PyEq? u v) : PyEq (.obj (dictOf u)) (.obj (dictOf v)) := by
  have objects := pyEq?_object same
  rw [dictOf, dictOf]
  cases left : u.bind fieldsOf with
  | none =>
    rw [left] at objects
    rw [map_eq_none_iff.mp objects.symm]
    rfl
  | some fields =>
    rw [left] at objects
    obtain ⟨other, found, own⟩ := map_eq_some_iff.mp objects.symm
    rw [found]
    exact own.symm

theorem pyEq_referenceLayout (same : PyEq (.obj a) (.obj b)) :
    PyEq (.obj (referenceLayout a)) (.obj (referenceLayout b)) :=
  pyEq_dictOf (eqBy_obj_iff.mp (pyEq_dictOf (eqBy_obj_iff.mp same "layout")) "referenceLayout")

theorem objectsIn_congr (same : PyEq? u v) :
    (objectsIn u).map canonObj = (objectsIn v).map canonObj := by
  have inList (items : List Json) : (items.filterMap fieldsOf).map canonObj =
      (items.map (canonBy Scalar.numeric)).filterMap fun value =>
        (fieldsOf value).map fun _ => value := by
    rw [map_filterMap, filterMap_map]
    refine filterMap_congr fun value _ => ?_
    cases value <;> rfl
  cases u with
  | none => rw [eqBy?_none_left.mp same]
  | some x =>
    cases v with
    | none => cases same
    | some y =>
      have same := eqBy?_some.mp same
      cases x with
      | arr items =>
        cases y with
        | arr items' =>
          show (items.filterMap fieldsOf).map canonObj = (items'.filterMap fieldsOf).map canonObj
          rw [inList, inList, pyEq_arr_iff.mp same]
        | _ => cases same
      | obj fields =>
        cases y with
        | arr items => cases same
        | _ => rfl
      | scalar s =>
        cases y with
        | arr items => cases same
        | _ => rfl

/-- Equal definitions have equal layers under the same ids. -/
theorem layersById_congr (same : PyEq (.obj a) (.obj b)) :
    (layersById a).map (fun entry => (entry.1, canonObj entry.2)) =
      (layersById b).map fun entry => (entry.1, canonObj entry.2) := by
  have pairs (layers : List (Dict String Json)) :
      (layers.filterMap identified).map (fun entry => (entry.1, canonObj entry.2)) =
        (layers.map canonObj).filterMap fun value => (idText value).map (·, value) := by
    rw [map_filterMap, filterMap_map]
    refine filterMap_congr fun layer _ => ?_
    show (identified layer).map _ = (idText (canonObj layer)).map (·, canonObj layer)
    rw [canonObj, idText_canonBy, identified, Option.map_map]
    rfl
  have layers := objectsIn_congr (eqBy_obj_iff.mp (pyEq_referenceLayout same) "layers")
  rw [layersById, layersById, ← firsts_map, ← firsts_map, pairs, pairs]
  exact congrArg (fun layers => Dict.firsts (filterMap _ layers)) layers

theorem pyEq_shownLayer {before after : Dict String Json} (same : PyEq (.obj before) (.obj after)) :
    PyEq (shownLayer before) (shownLayer after) := by
  refine eqBy_obj_iff.mpr fun key => ?_
  rw [get?_shownLayer, get?_shownLayer]
  split
  · rfl
  · exact pyEq?_present_iff.mpr (pyEq_getD (eqBy_obj_iff.mp same key))

theorem shownLayers_congr (same : PyEq (.obj a) (.obj b)) :
    PyEq (.arr (shownLayers a)) (.arr (shownLayers b)) := by
  have layers := layersById_congr same
  have keys (d : Dict String (Dict String Json)) :
      Dict.keys (d.map fun entry => (entry.1, canonObj entry.2)) = d.keys := map_map
  have ids : (layersById a).keys = (layersById b).keys := by
    rw [← keys, ← keys, layers]
  refine pyEq_shownLayers_iff.mpr ⟨ids, fun id mem => ?_⟩
  obtain ⟨before, old⟩ := isSome_iff_exists.mp (mem_keys_iff.mp mem)
  obtain ⟨after, new⟩ := isSome_iff_exists.mp (mem_keys_iff.mp (ids ▸ mem))
  have here := congrArg (fun d => Dict.get? d id) layers
  rw [get?_map_value _ (fun _ => canonObj), get?_map_value _ (fun _ => canonObj), old, new] at here
  rw [shownAt, shownAt, old, new]
  exact pyEq_shownLayer (some.inj here)

theorem get?_storedAssignments_eq (raw : Dict String Json) (urn : String) :
    (storedAssignments raw).get? urn =
      ((dictOf (raw.get? "assignments")).get? urn).bind fieldsOf := by
  cases stored : (raw.get? "assignments").bind fieldsOf with
  | some fields =>
    obtain ⟨value, found, object⟩ := bind_eq_some_iff.mp stored
    cases value with
    | obj own =>
      obtain rfl := some.inj object
      rw [get?_storedAssignments found, dictOf, stored, getD_some]
    | _ => cases object
  | none =>
    rw [dictOf, stored, storedAssignments]
    split
    · next found =>
        rw [found] at stored
        cases stored
    · rfl

/-- Equal definitions place alike. -/
theorem entryAt_congr (same : PyEq (.obj a) (.obj b)) (urn : String) :
    PyEq? ((entryAt a urn).map .obj) ((entryAt b urn).map .obj) := by
  have stored := eqBy_obj_iff.mp (pyEq_dictOf
    (eqBy_obj_iff.mp (pyEq_referenceLayout same) "assignments")) urn
  have canon (entry : Option Entry) :
      (entry.map .obj).map (canonBy Scalar.numeric) = entry.map canonObj := map_map ..
  rw [entryAt, entryAt, assignments, assignments, get?_storedAssignments_eq,
    get?_storedAssignments_eq]
  exact (canon _).trans ((pyEq?_object stored).trans (canon _).symm)

def onObject (change : Dict String Json → Dict String Json) : Json → Json
  | .obj fields => .obj (change fields)
  | value => value

theorem get?_changeObject (change : Dict String Json → Dict String Json)
    (fields : Dict String Json) (other : String) : (changeObject change key fields).get? other =
      if other = key then (fields.get? key).map (onObject change) else fields.get? other := by
  rw [changeObject]
  cases found : fields.get? key with
  | none =>
    by_cases same : other = key
    · rw [if_pos same, same]
      exact found
    · rw [if_neg same]
      rfl
  | some value =>
    cases value with
    | obj inner =>
      show (fields.set key (.obj (change inner))).get? other = _
      rw [get?_set]
      by_cases same : other = key
      · rw [if_pos same.symm, if_pos same]
        rfl
      · rw [if_neg (Ne.symm same), if_neg same]
    | _ =>
      by_cases same : other = key
      · rw [if_pos same, same]
        exact found
      · rw [if_neg same]
        rfl

theorem changeObject_congr {change : Dict String Json → Dict String Json}
    (keeps : ∀ a b, PyEq (.obj a) (.obj b) → PyEq (.obj (change a)) (.obj (change b)))
    (same : PyEq (.obj a) (.obj b)) :
    PyEq (.obj (changeObject change key a)) (.obj (changeObject change key b)) := by
  refine eqBy_obj_iff.mpr fun other => ?_
  rw [get?_changeObject, get?_changeObject]
  have here := eqBy_obj_iff.mp same
  split
  · have inner := here key
    cases left : a.get? key with
    | none =>
      rw [left] at inner
      rw [eqBy?_none_left.mp inner]
    | some x =>
      cases right : b.get? key with
      | none =>
        rw [left, right] at inner
        cases inner
      | some y =>
        rw [left, right] at inner
        have inner := eqBy?_some.mp inner
        refine eqBy?_some.mpr ?_
        cases x with
        | obj before =>
          obtain ⟨after, rfl⟩ := inner.exists_obj
          exact keeps before after inner
        | arr items =>
          cases y with
          | obj fields => cases inner
          | _ => exact inner
        | scalar s =>
          cases y with
          | obj fields => cases inner
          | _ => exact inner
  · exact here other

theorem withoutLayersAndAssignments_congr (same : PyEq (.obj a) (.obj b)) :
    PyEq (.obj (withoutLayersAndAssignments a)) (.obj (withoutLayersAndAssignments b)) := by
  refine changeObject_congr (fun _ _ => changeObject_congr fun a b same => ?_) same
  refine eqBy_obj_iff.mpr fun key => ?_
  rw [get?_filter_key a (fun key => key ∉ ["layers", "assignments"]),
    get?_filter_key b (fun key => key ∉ ["layers", "assignments"])]
  split
  · exact eqBy_obj_iff.mp same key
  · rfl

/-- Equal definitions look alike. -/
theorem shown_congr (same : PyEq (.obj a) (.obj b)) : PyEq (shown a) (shown b) := by
  refine pyEq_shown_iff.mpr ⟨shownLayers_congr same, entryAt_congr same, ?_⟩
  have rest := withoutLayersAndAssignments_congr same
  exact pyEq_prune (u := some (.obj _)) (v := some (.obj _)) rest

end

section

theorem referenceLayout_definitionOf (source : Dict String Json) (viewType : Option String) :
    referenceLayout (definitionOf source viewType) =
      (rawReferenceLayout (definitionOf source viewType)).getD [] := by
  have legacy : (definitionOf source viewType).get? "referenceLayout" = none := by
    rw [get?_definitionOf, if_neg (by decide), if_neg (by decide), if_pos (by decide)]
  rw [referenceLayout, rawReferenceLayout, legacy, bind_none, or_none, dictOf,
    get?_dictOf, bind_assoc]

theorem comparable_of_portable {config : Json} {viewType : Option String}
    (portable : portableDefinition config viewType = some a) : comparable a = true := by
  rw [portableDefinition] at portable
  split at portable
  · obtain rfl := some.inj portable
    rw [comparable, referenceLayout_definitionOf, rawReferenceLayout_definitionOf]
    cases rawReferenceLayout (dictOf (some config)) with
    | none => rfl
    | some raw =>
      rw [map_some, getD_some, portableLayout_eq, get?_layoutWith]
      rfl
  · cases portable

/-- What is found and what is reported, when a comparison returns. -/
theorem diffDefinitions_eq_some {labelA labelB : Option (Dict String Json)} {sampleLimit : ℤ}
    {diff : Diff} {report : AssignmentReport}
    (here : diffDefinitions a b labelA labelB sampleLimit = some (diff, report)) :
    diff = changes a b labelA labelB ∧ report = diff.assignmentReport sampleLimit := by
  rw [diffDefinitions] at here
  split at here
  · obtain ⟨rfl, rfl⟩ := Prod.mk.inj (some.inj here)
    exact ⟨rfl, rfl⟩
  · cases here

theorem exactly_modified : Exactly (changes a b none none).modified.length fun urn =>
    Differs a b urn ∧ PyEq (layerAt a urn) (layerAt b urn) := by
  rw [modified_eq]
  refine ⟨(different a b).filter fun urn => PyEq (layerAt a urn) (layerAt b urn),
    nodup_different.filter _, fun urn => ?_, rfl⟩
  rw [mem_filter, mem_different, decide_eq_true_eq]

theorem exactly_moved : Exactly (changes a b none none).moved.length fun urn =>
    Differs a b urn ∧ ¬PyEq (layerAt a urn) (layerAt b urn) := by
  rw [moved_eq, length_map]
  refine ⟨(different a b).filter fun urn => !decide (PyEq (layerAt a urn) (layerAt b urn)),
    nodup_different.filter _, fun urn => ?_, rfl⟩
  rw [mem_filter, mem_different, Bool.not_eq_true', decide_eq_false_iff_not]

/-- A comparison of portable definitions returns. It calls them identical exactly when what it sees
of them is equal, so equal definitions are; where it does not, a section names a difference; and
what it counts it counts exactly, whatever the sample limit. -/
theorem diffDefinitions_tells (a b : Dict String Json) (sampleLimit : ℤ) :
    (∀ config config' viewType viewType', portableDefinition config viewType = some a →
      portableDefinition config' viewType' = some b →
        (diffDefinitions a b none none sampleLimit).isSome) ∧
    ∀ diff report, diffDefinitions a b none none sampleLimit = some (diff, report) →
      (diff.identical = true ↔ PyEq (shown a) (shown b)) ∧
      (Same (.obj a) (.obj b) → diff.identical = true) ∧
      (diff.identical = false → diff.addedLayers ≠ [] ∨ diff.removedLayers ≠ [] ∨
        diff.changedLayers ≠ [] ∨ diff.reordered = true ∨ diff.added ≠ [] ∨ diff.removed ≠ [] ∨
        diff.moved ≠ [] ∨ diff.modified ≠ [] ∨ diff.settings ≠ []) ∧
      Exactly report.added (fun urn => (entryAt b urn).isSome ∧ (entryAt a urn).isNone) ∧
      Exactly report.removed (fun urn => (entryAt a urn).isSome ∧ (entryAt b urn).isNone) ∧
      Exactly report.moved (fun urn =>
        Differs a b urn ∧ ¬PyEq (layerAt a urn) (layerAt b urn)) ∧
      Exactly report.modified (fun urn =>
        Differs a b urn ∧ PyEq (layerAt a urn) (layerAt b urn)) := by
  refine ⟨fun config config' viewType viewType' first second => ?_, fun diff report here => ?_⟩
  · rw [diffDefinitions, if_pos ⟨comparable_of_portable first, comparable_of_portable second⟩]
    rfl
  · obtain ⟨rfl, rfl⟩ := diffDefinitions_eq_some here
    refine ⟨identical_iff, fun same => ?_, fun differ => ?_, ?_, ?_, exactly_moved,
      exactly_modified⟩
    · exact identical_iff.mpr (shown_congr (eqBy?_some.mp (EqBy?.of_same (eqBy?_some.mpr same))))
    · by_contra none
      simp only [not_or, not_not, Bool.not_eq_true] at none
      obtain ⟨layers, layers', layers'', order, new, old, moved, modified, settings⟩ := none
      rw [Diff.identical, layers, layers', layers'', order, new, old, moved, modified,
        settings] at differ
      cases differ
    · exact ⟨_, Dict.nodup_sortedKeys _, fun _ => mem_added none none, rfl⟩
    · exact ⟨_, Dict.nodup_sortedKeys _, fun _ => mem_removed none none, rfl⟩

/-- Two configs whose definitions are called identical and are not. -/
def Missed (config config' : Json) : Prop :=
  ∃ a b, portableDefinition config none = some a ∧ portableDefinition config' none = some b ∧
    (diffDefinitions a b none none 200).map (·.1.identical) = some true ∧
    ¬Same (.obj a) (.obj b)

theorem missed_of_shown {config config' : Json} {a b : Dict String Json}
    (first : portableDefinition config none = some a)
    (second : portableDefinition config' none = some b) (alike : PyEq (shown a) (shown b))
    (differ : ¬Same (.obj a) (.obj b)) : Missed config config' := by
  refine ⟨a, b, first, second, ?_, differ⟩
  rw [diffDefinitions, if_pos ⟨comparable_of_portable first, comparable_of_portable second⟩,
    map_some, identical_iff.mpr alike]

def oneLayer (fields : Dict String Json) : Json :=
  .obj [("referenceLayout", .obj [("layers", .arr [.obj fields])])]

/-- A setting that is null and none, the order of a layer, a layer whose id is no text, and numbers
of one value are missed. -/
theorem diffDefinitions_missed : Missed (.obj [("filters", .null)]) (.obj []) ∧
    Missed (oneLayer [("id", .str "l"), ("order", .int 1)])
      (oneLayer [("id", .str "l"), ("order", .int 2)]) ∧
    Missed (oneLayer [("id", .int 1)]) (oneLayer [("id", .int 2)]) ∧
    Missed (.obj [("zoom", .int 1)]) (.obj [("zoom", .bool true)]) :=
  ⟨missed_of_shown rfl rfl (by decide +kernel) (by decide +kernel),
    missed_of_shown rfl rfl (by decide +kernel) (by decide +kernel),
    missed_of_shown rfl rfl (by decide +kernel) (by decide +kernel),
    missed_of_shown rfl rfl (by decide +kernel) (by decide +kernel)⟩

end

end DataViz.View.Compare
