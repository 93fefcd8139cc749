/-
# What the portable form forgets

Taking the portable form again, of a definition or of the config stored for it, gives the same
unless the query placed an entity that a rule names as well: its entry is dropped, and the rule
places it the next time.

Configs that differ only in what the form is to forget have the same form but for two exceptions
(`formsAgree_iff`). Joining what was split gives the definition back unless its layout holds
something that is no layout.
-/

import DataViz.Data.FirstKeys
import DataViz.View.Portable

namespace DataViz.View

open List Option Dict

open Json

/-! ## Equality of objects -/

theorem same_obj_iff {first second : Dict String Json} :
    Same (.obj first) (.obj second) ↔ ∀ key, Same? (first.get? key) (second.get? key) :=
  eqBy_obj_iff

theorem same_obj_iff_at {first second : Dict String Json} {key : String}
    (others : ∀ other ≠ key, Same? (first.get? other) (second.get? other)) :
    Same (.obj first) (.obj second) ↔ Same? (first.get? key) (second.get? key) := by
  rw [same_obj_iff]
  constructor
  · exact fun same => same key
  · intro same other
    by_cases here : other = key
    · exact here ▸ same
    · exact others other here

/-- Present values are the same as values. -/
theorem same?_some {first second : Json} : Same? (some first) (some second) ↔ Same first second :=
  eqBy?_some

/-! ## Placements -/

section

variable {kept : Bool} {raw : Dict String Json} {urn : String}

theorem get?_foldl_claim (assignments : Dict String Entry) (claims : Claims) :
    (claims.foldl claim assignments).get? urn = (assignments.get? urn).or (Dict.get? claims urn) :=
  get?_foldl_setdefault claims assignments

/-- The placements that claim after the stored ones. -/
def claimsOf (raw : Dict String Json) : Claims :=
  (listOf (raw.get? "layers")).flatMap layerClaims

/-- The placement that has an entity: its stored one, else the first that claims it. -/
def placedBy (raw : Dict String Json) (urn : String) : Option Entry :=
  ((storedAssignments raw).get? urn).or (Dict.get? (claimsOf raw) urn)

/-- A layout is read by urn, the placement before the rule. -/
theorem get?_normalize : (normalize raw).assignments.get? urn = placedBy raw urn :=
  get?_foldl_claim _ _

theorem get?_dropNulls (entry : Entry) (key : String) :
    (dropNulls entry).get? key = (entry.get? key).filter (· ≠ .null) := by
  exact get?_filter_items entry (fun value => decide (value ≠ .null)) key

@[simp]
theorem isMachine_dropNulls (entry : Entry) : isMachine (dropNulls entry) = isMachine entry := by
  rw [isMachine, isMachine, get?_dropNulls]
  cases entry.get? "assignedBy" with
  | none => rfl
  | some value =>
    by_cases null : value = .null
    · subst null
      rfl
    · simp [Option.filter, null]

/-- What travels is the placement without its nulls. -/
theorem get?_canonicalAssignments : (canonicalAssignments raw).get? urn =
    if Travels urn then (placedBy raw urn).map dropNulls else none := by
  rw [canonicalAssignments, get?_map_value _ (fun _ => dropNulls),
    get?_filter_key _ (fun urn => decide (Travels urn)), get?_normalize]
  by_cases travels : Travels urn
  · rw [if_pos travels, if_pos (decide_eq_true travels)]
  · rw [if_neg travels, if_neg (by simpa using travels), map_none]

/-- An entry of a definition's: of a view kept up to date not the query's. -/
def Stays (kept : Bool) (entry : Entry) : Prop :=
  kept → isMachine entry = false

instance (kept : Bool) (entry : Entry) : Decidable (Stays kept entry) :=
  inferInstanceAs (Decidable (_ → _))

/-- A definition's placement of an entity. -/
theorem get?_portableAssignments : (portableAssignments kept raw).get? urn =
    if Travels urn then ((placedBy raw urn).filter (Stays kept ·)).map dropNulls else none := by
  rw [portableAssignments]
  cases kept with
  | false =>
    have all : (fun entry => decide (Stays false entry)) = fun _ => true :=
      funext fun entry => decide_eq_true nofun
    rw [if_neg Bool.false_ne_true, get?_canonicalAssignments, all]
    cases placedBy raw urn <;> rfl
  | true =>
    rw [if_pos rfl, get?_filter_items _ (fun entry => !isMachine entry), get?_canonicalAssignments]
    split
    · cases placedBy raw urn with
      | none => rfl
      | some entry =>
        cases machine : isMachine entry <;> simp [Option.filter, Stays, machine]
    · rfl

theorem portableLayout_eq : portableLayout kept raw =
    layoutWith raw (portableAssignments kept raw) := by
  cases kept <;> rfl

end

/-! ## Reading a portable layout again -/

section

variable {kept : Bool} {raw : Dict String Json} {assignments : Dict String Entry} {urn : String}

theorem get?_layoutWith (key : String) : (layoutWith raw assignments).get? key =
    if key = "assignments" then
      some (.obj (assignments.map fun entry => (entry.1, .obj entry.2)))
    else if key = "layers" then some (.arr (normalize raw).layers)
    else raw.get? key := by
  rw [layoutWith, get?_set, get?_set,
    get?_filter_key _ (fun key => decide (key ∉ ["layers", "assignments"]))]
  by_cases isAssignments : key = "assignments"
  · rw [if_pos isAssignments.symm, if_pos isAssignments]
  · by_cases isLayers : key = "layers"
    · rw [if_neg (Ne.symm isAssignments), if_pos isLayers.symm, if_neg isAssignments,
        if_pos isLayers]
    · rw [if_neg (Ne.symm isAssignments), if_neg (Ne.symm isLayers), if_neg isAssignments,
        if_neg isLayers]
      simp [isAssignments, isLayers]

theorem get?_storedAssignments {fields : Dict String Json}
    (stored : raw.get? "assignments" = some (.obj fields)) :
    (storedAssignments raw).get? urn = (fields.get? urn).bind fieldsOf := by
  rw [storedAssignments, stored]
  rw [get?_ofKeys]
  split
  · rfl
  · next absent =>
      rw [mem_dedup, ← get?_eq_none_iff] at absent
      rw [absent, bind_none]

theorem get?_storedAssignments_layoutWith :
    (storedAssignments (layoutWith raw assignments)).get? urn = assignments.get? urn := by
  have stored : (layoutWith raw assignments).get? "assignments" =
      some (.obj (assignments.map fun entry => (entry.1, .obj entry.2))) := by
    rw [get?_layoutWith, if_pos rfl]
  rw [get?_storedAssignments stored, get?_map_value assignments (fun _ entry => Json.obj entry)]
  cases assignments.get? urn <;> rfl

def layerRuleClaims : Json → Claims
  | .obj layer => ruleClaims layer
  | _ => []

def layerEntityClaims : Json → Claims
  | .obj layer => entityClaims layer
  | _ => []

theorem layerClaims_eq (layer : Json) :
    layerClaims layer = layerEntityClaims layer ++ layerRuleClaims layer := by
  cases layer <;> rfl

theorem layerEntityClaims_stripLayer (layer : Json) :
    layerEntityClaims (stripLayer layer) = [] := by
  cases layer with
  | obj layer =>
    rw [stripLayer, layerEntityClaims, entityClaims,
      get?_filter_key _ (fun key => decide (key ≠ "entityAssignments"))]
    rfl
  | _ => rfl

theorem layerRuleClaims_stripLayer (layer : Json) :
    layerRuleClaims (stripLayer layer) = layerRuleClaims layer := by
  cases layer with
  | obj layer =>
    have held (key : String) (other : key ≠ "entityAssignments") :
        Dict.get? (layer.filter fun field => decide (field.1 ≠ "entityAssignments")) key =
          Dict.get? layer key := by
      rw [get?_filter_key _ (fun key => decide (key ≠ "entityAssignments"))]
      simp [other]
    rw [stripLayer, layerRuleClaims, layerRuleClaims, ruleClaims, ruleClaims, getOrNull,
      getOrNull, held "id" (by decide), held "rules" (by decide),
      held "logicalNodes" (by decide)]
  | _ => rfl

theorem stripLayer_stripLayer (layer : Json) :
    stripLayer (stripLayer layer) = stripLayer layer := by
  cases layer with
  | obj layer =>
    rw [stripLayer, stripLayer]
    simp
  | _ => rfl

theorem layers_layoutWith : listOf ((layoutWith raw assignments).get? "layers") =
    (listOf (raw.get? "layers")).map stripLayer := by
  rw [get?_layoutWith]
  rfl

/-- The placements that a layout's rules make. -/
def rulesOf (raw : Dict String Json) : Claims :=
  (listOf (raw.get? "layers")).flatMap layerRuleClaims

theorem claimsOf_layoutWith : claimsOf (layoutWith raw assignments) = rulesOf raw := by
  rw [claimsOf, layers_layoutWith, flatMap_map]
  congr 1
  funext layer
  rw [layerClaims_eq, layerEntityClaims_stripLayer, layerRuleClaims_stripLayer, nil_append]

/-- What a rule makes is not the query's. -/
theorem isMachine_of_mem_rulesOf {entry : String × Entry} (mem : entry ∈ rulesOf raw) :
    isMachine entry.2 = false := by
  have rule (layerId : Json) (node : Option Json) : isMachine (ruleEntry layerId node) = false := by
    have text : (Json.str "rule") ≠ .str "query" := by decide
    cases node <;> simp [isMachine, ruleEntry, get?_cons, text]
  obtain ⟨layer, -, mem⟩ := mem_flatMap.mp mem
  cases layer with
  | obj layer =>
    cases mem_append.mp mem with
    | inl own =>
      obtain ⟨urn, -, rfl⟩ := mem_map.mp own
      exact rule _ _
    | inr below =>
      obtain ⟨node, -, rfl⟩ := mem_map.mp below
      exact rule _ _
  | _ => cases mem

theorem isSome_placedBy_of_rule (named : (Dict.get? (rulesOf raw) urn).isSome) :
    (placedBy raw urn).isSome := by
  rw [← mem_keys_iff, Dict.keys, List.mem_map] at named
  obtain ⟨entry, mem, same⟩ := named
  obtain ⟨layer, inLayers, mem⟩ := mem_flatMap.mp mem
  have claimed : entry ∈ claimsOf raw := by
    refine mem_flatMap.mpr ⟨layer, inLayers, ?_⟩
    rw [layerClaims_eq]
    exact mem_append_right _ mem
  have isKey : (Dict.get? (claimsOf raw) urn).isSome :=
    mem_keys_iff.mp (mem_map.mpr ⟨entry, claimed, same⟩)
  rw [placedBy, isSome_or, isKey, Bool.or_true]

/-- The portable layout places by what it kept, then by its rules. -/
theorem placedBy_portableLayout : placedBy (portableLayout kept raw) urn =
    ((portableAssignments kept raw).get? urn).or (Dict.get? (rulesOf raw) urn) := by
  rw [portableLayout_eq, placedBy, get?_storedAssignments_layoutWith, claimsOf_layoutWith]

/-- The query placed an entity that a rule names as well. -/
def Reclaimed (kept : Bool) (raw : Dict String Json) (urn : String) : Prop :=
  Travels urn ∧ (∃ entry ∈ placedBy raw urn, ¬ Stays kept entry) ∧
    (Dict.get? (rulesOf raw) urn).isSome

theorem same_dropNulls (entry : Entry) :
    Same (.obj (dropNulls (dropNulls entry))) (.obj (dropNulls entry)) := by
  refine same_obj_iff.mpr fun key => ?_
  rw [get?_dropNulls, get?_dropNulls]
  simp [EqBy?]

/-- An entity has the same placement after another pass, unless it is reclaimed. -/
theorem portableAssignments_again :
    Same? (((portableAssignments kept (portableLayout kept raw)).get? urn).map Json.obj)
        (((portableAssignments kept raw).get? urn).map Json.obj) ↔
      ¬ Reclaimed kept raw urn := by
  rw [get?_portableAssignments, placedBy_portableLayout, get?_portableAssignments, Reclaimed]
  by_cases travels : Travels urn
  · rw [if_pos travels, if_pos travels]
    cases placed : placedBy raw urn with
    | none =>
      have noRule : Dict.get? (rulesOf raw) urn = none := by
        rw [← not_isSome_iff_eq_none]
        intro named
        have has := isSome_placedBy_of_rule named
        rw [placed] at has
        cases has
      simp [noRule]
    | some entry =>
      by_cases stays : Stays kept entry
      · have again : Stays kept (dropNulls entry) := by
          rwa [Stays, isMachine_dropNulls]
        simp [Option.filter, stays, again, same_dropNulls]
      · cases ruled : Dict.get? (rulesOf raw) urn with
        | none => simp [Option.filter, stays]
        | some rule =>
          have ruleStays : Stays kept rule := fun _ =>
            isMachine_of_mem_rulesOf (mem_of_get? ruled)
          simp [Option.filter, stays, ruleStays, travels]
  · simp [travels]

end

/-- Making a layout portable twice is making it so once where no rule takes back a urn. -/
theorem same_portableLayout_again : Same (.obj (portableLayout kept (portableLayout kept raw)))
        (.obj (portableLayout kept raw)) ↔
      ∀ urn, ¬ Reclaimed kept raw urn := by
  have placements (raw : Dict String Json) : (portableLayout kept raw).get? "assignments" =
      some (.obj ((portableAssignments kept raw).map fun entry => (entry.1, .obj entry.2))) := by
    rw [portableLayout_eq, get?_layoutWith, if_pos rfl]
  rw [@same_obj_iff_at _ _ "assignments", placements, placements, same?_some, same_obj_iff]
  · refine forall_congr' fun urn => ?_
    rw [get?_map_value (portableAssignments kept raw) (fun _ entry => Json.obj entry),
      get?_map_value (portableAssignments kept (portableLayout kept raw))
        (fun _ entry => Json.obj entry)]
    exact portableAssignments_again
  · intro key other
    have layers : (normalize (portableLayout kept raw)).layers = (normalize raw).layers := by
      rw [portableLayout_eq, normalize, layers_layoutWith, List.map_map]
      exact map_congr_left fun layer _ => stripLayer_stripLayer layer
    rw [portableLayout_eq, get?_layoutWith, if_neg other, layers]
    by_cases isLayers : key = "layers"
    · rw [if_pos isLayers, portableLayout_eq, get?_layoutWith, if_neg other, if_pos isLayers]
    · rw [if_neg isLayers]

/-! ## Definitions -/

section

variable {source : Dict String Json} {viewType : Option String}

/-- The fields of a definition: content, layout and what is not dropped. -/
theorem get?_definitionOf (key : String) : (definitionOf source viewType).get? key =
    if key = "content" then some (.obj (contentField source))
    else if key = "layout" then some (.obj (layoutField source viewType))
    else if isDropped key then none else source.get? key := by
  rw [definitionOf]
  rw [get?_set, get?_set, get?_filter_key source (fun key => !isDropped key)]
  by_cases content : key = "content"
  · rw [if_pos content.symm, if_pos content]
  · by_cases layout : key = "layout"
    · rw [if_neg (Ne.symm content), if_pos layout.symm, if_neg content, if_pos layout]
    · rw [if_neg (Ne.symm content), if_neg (Ne.symm layout), if_neg content, if_neg layout]
      cases isDropped key <;> rfl

theorem get?_dictOf (value : Option Json) (key : String) :
    (dictOf value).get? key = (value.bind fieldsOf).bind fun fields => fields.get? key := by
  rw [dictOf]
  cases value.bind fieldsOf <;> rfl

theorem get?_layoutField {key : String} (other : key ≠ "type") :
    (layoutField source viewType).get? key = if key = "referenceLayout" then
        ((rawReferenceLayout source).map fun raw =>
          .obj (portableLayout (keptUpToDate source) raw)).or
            ((dictOf (source.get? "layout")).get? "referenceLayout")
      else (dictOf (source.get? "layout")).get? key := by
  have laid : (laidOut source).get? key = if key = "referenceLayout" then
      ((rawReferenceLayout source).map fun raw =>
        .obj (portableLayout (keptUpToDate source) raw)).or
          ((dictOf (source.get? "layout")).get? "referenceLayout")
      else (dictOf (source.get? "layout")).get? key := by
    rw [laidOut]
    cases rawReferenceLayout source with
    | none =>
      rw [map_none, none_or]
      by_cases same : key = "referenceLayout"
      · rw [if_pos same, same]
      · rw [if_neg same]
    | some raw =>
      rw [map_some, some_or]
      rw [get?_set]
      simp only [eq_comm]
  rw [← laid, layoutField]
  split
  · rfl
  · rw [get?_set_ne (Ne.symm other)]

theorem isSome_typeOf_layoutField : (typeOf (layoutField source viewType)).isSome := by
  have default : defaultType viewType ≠ "" := by
    rw [defaultType]
    cases viewType with
    | none => decide
    | some type =>
      by_cases empty : type = ""
      · simp [Option.filter, empty]
      · simp [Option.filter, empty]
  rw [layoutField]
  split
  · next typed => exact typed
  · rw [typeOf]
    simp [default]

theorem isScope_deriveEntityScope : isScope (some (deriveEntityScope source)) := by
  rw [deriveEntityScope]
  split
  · next explicit =>
      cases found : ((source.get? "content").bind fieldsOf).bind fun content =>
          content.get? "entityScope" with
      | none =>
        rw [found] at explicit
        cases explicit
      | some scope =>
        rw [found] at explicit
        exact explicit
  · split <;> decide

theorem isScope_contentField : isScope ((contentField source).get? "entityScope") := by
  rw [contentField]
  split
  · next explicit => exact explicit
  · rw [get?_set_self]
    exact isScope_deriveEntityScope

theorem rawReferenceLayout_definitionOf : rawReferenceLayout (definitionOf source viewType) =
      (rawReferenceLayout source).map (portableLayout (keptUpToDate source)) := by
  have legacy : (definitionOf source viewType).get? "referenceLayout" = none := by
    rw [get?_definitionOf, if_neg (by decide), if_neg (by decide), if_pos (by decide)]
  have nested : ((definitionOf source viewType).get? "layout").bind fieldsOf =
      some (layoutField source viewType) := by
    rw [get?_definitionOf]
    rfl
  rw [rawReferenceLayout, legacy, nested, bind_some, get?_layoutField (by decide),
    if_pos rfl, bind_none, or_none]
  cases found : rawReferenceLayout source with
  | some raw => rfl
  | none =>
    rw [get?_dictOf]
    rw [rawReferenceLayout, or_eq_none_iff] at found
    exact found.1

theorem keptUpToDate_definitionOf :
    keptUpToDate (definitionOf source viewType) = keptUpToDate source := by
  rw [keptUpToDate, get?_definitionOf, if_neg (by decide), if_neg (by decide),
    if_neg (by decide), keptUpToDate]

theorem contentField_definitionOf :
    contentField (definitionOf source viewType) = contentField source := by
  have content : dictOf ((definitionOf source viewType).get? "content") = contentField source := by
    rw [get?_definitionOf]
    rfl
  rw [contentField, content, if_pos isScope_contentField]

theorem get?_layoutField_definitionOf {viewType' : Option String} {key : String}
    (other : key ≠ "referenceLayout") :
    (layoutField (definitionOf source viewType) viewType').get? key =
      (layoutField source viewType).get? key := by
  have layout : dictOf ((definitionOf source viewType).get? "layout") =
      layoutField source viewType := by
    rw [get?_definitionOf]
    rfl
  have laid : (laidOut (definitionOf source viewType)).get? key =
      (layoutField source viewType).get? key := by
    rw [laidOut, layout]
    cases rawReferenceLayout (definitionOf source viewType) with
    | none => rfl
    | some raw => exact get?_set_ne (Ne.symm other) _ _
  have typed : typeOf (laidOut (definitionOf source viewType)) =
      typeOf (layoutField source viewType) := by
    rw [typeOf, laidOut, layout, typeOf]
    cases rawReferenceLayout (definitionOf source viewType) with
    | none => rfl
    | some raw =>
      rw [get?_set_ne (by decide)]
  rw [layoutField, if_pos, laid]
  rw [typed]
  exact isSome_typeOf_layoutField

/-- Another pass over a definition changes nothing unless an entity is reclaimed. -/
theorem same_definitionOf_again {viewType' : Option String} :
    Same (.obj (definitionOf (definitionOf source viewType) viewType'))
        (.obj (definitionOf source viewType)) ↔
      ∀ raw ∈ rawReferenceLayout source, ∀ urn, ¬ Reclaimed (keptUpToDate source) raw urn := by
  have layout (source : Dict String Json) (viewType : Option String) :
      (definitionOf source viewType).get? "layout" = some (.obj (layoutField source viewType)) := by
    rw [get?_definitionOf, if_neg (by decide), if_pos rfl]
  have dict : dictOf ((definitionOf source viewType).get? "layout") =
      layoutField source viewType := by
    rw [layout]
    rfl
  rw [@same_obj_iff_at _ _ "layout", layout, layout, same?_some,
    @same_obj_iff_at _ _ "referenceLayout"]
  · rw [get?_layoutField (by decide), if_pos rfl, rawReferenceLayout_definitionOf,
      keptUpToDate_definitionOf, dict, get?_layoutField (by decide), if_pos rfl]
    cases rawReferenceLayout source with
    | none => simp [EqBy?]
    | some raw =>
      rw [map_some, map_some, map_some, some_or, some_or, same?_some, same_portableLayout_again]
      simp
  · intro key other
    rw [get?_layoutField_definitionOf other]
  · intro key other
    rw [get?_definitionOf, contentField_definitionOf, if_neg other]
    by_cases content : key = "content"
    · rw [if_pos content, get?_definitionOf, if_pos content]
    · rw [if_neg content]
      cases dropped : isDropped key with
      | true =>
        rw [get?_definitionOf, if_neg content, if_neg other, dropped, if_pos rfl, if_pos rfl]
      | false => rfl

end

/-! ## The form of a stored definition -/

section

variable {source : Dict String Json} {viewType viewType' icon : Option String} {kept : Bool}
  {raw : Dict String Json}

theorem layerReadable_stripLayer {layer : Json} (read : layerReadable layer) :
    layerReadable (stripLayer layer) := by
  cases layer with
  | obj layer =>
    have held (key : String) : Dict.get? (layer.filter fun field =>
        decide (field.1 ≠ "entityAssignments")) key =
          if key = "entityAssignments" then none else Dict.get? layer key := by
      rw [get?_filter_key _ (fun key => decide (key ≠ "entityAssignments"))]
      by_cases same : key = "entityAssignments"
      · simp [same]
      · simp [same]
    rw [layerReadable, fieldsOf] at read
    rw [stripLayer, layerReadable, fieldsOf]
    dsimp only at read ⊢
    rw [held, held, held]
    simp only [Bool.and_eq_true] at read ⊢
    exact ⟨⟨⟨rfl, rfl⟩, read.1.2⟩, read.2⟩
  | _ => rfl

theorem readable_portableLayout (read : readable raw) : readable (portableLayout kept raw) := by
  rw [readable, List.all_eq_true] at read
  rw [readable, portableLayout_eq, layers_layoutWith, List.all_eq_true]
  intro layer mem
  obtain ⟨stored, inLayers, rfl⟩ := mem_map.mp mem
  exact layerReadable_stripLayer (read stored inLayers)

theorem readable_definitionOf (read : readable ((rawReferenceLayout source).getD [])) :
    readable ((rawReferenceLayout (definitionOf source viewType)).getD []) := by
  rw [rawReferenceLayout_definitionOf]
  cases found : rawReferenceLayout source with
  | none => rfl
  | some raw =>
    rw [found] at read
    exact readable_portableLayout read

theorem portableDefinition_definitionOf (read : readable ((rawReferenceLayout source).getD [])) :
    portableDefinition (.obj (definitionOf source viewType)) viewType' =
      some (definitionOf (definitionOf source viewType) viewType') :=
  if_pos (readable_definitionOf read)

/-- A label of a config does not show in its definition. -/
theorem definitionOf_set_icon (value : Json) :
    Same (.obj (definitionOf (source.set "icon" value) viewType))
        (.obj (definitionOf source viewType)) ∧
      rawReferenceLayout (source.set "icon" value) = rawReferenceLayout source := by
  have held {key : String} (other : key ≠ "icon") :
      (source.set "icon" value).get? key = source.get? key :=
    get?_set_ne (Ne.symm other) _ _
  have raw : rawReferenceLayout (source.set "icon" value) = rawReferenceLayout source := by
    rw [rawReferenceLayout, rawReferenceLayout, held (by decide), held (by decide)]
  have layout : layoutField (source.set "icon" value) viewType = layoutField source viewType := by
    rw [layoutField, layoutField, laidOut, laidOut, raw, keptUpToDate, keptUpToDate,
      held (by decide), held (by decide)]
  have content : contentField (source.set "icon" value) = contentField source := by
    rw [contentField, contentField, deriveEntityScope, deriveEntityScope, raw, held (by decide)]
  refine ⟨same_obj_iff.mpr fun key => ?_, raw⟩
  rw [get?_definitionOf, get?_definitionOf, layout, content]
  by_cases isIcon : key = "icon"
  · subst isIcon
    rfl
  · rw [held isIcon]

/-- A definition stored and read back is the definition taken twice. -/
theorem portableDefinition_configFromDefinition
    (read : readable ((rawReferenceLayout source).getD [])) :
    ∃ again, portableDefinition
        (.obj (configFromDefinition (definitionOf source viewType) icon)) viewType' = some again ∧
      Same (.obj again) (.obj (definitionOf (definitionOf source viewType) viewType')) := by
  have plain : ∃ again, portableDefinition (.obj (definitionOf source viewType)) viewType' =
      some again ∧ Same (.obj again)
        (.obj (definitionOf (definitionOf source viewType) viewType')) :=
    ⟨_, portableDefinition_definitionOf read, rfl⟩
  cases icon with
  | none => exact plain
  | some icon =>
    rw [configFromDefinition]
    split
    · obtain ⟨same, raw⟩ := @definitionOf_set_icon (definitionOf source viewType) viewType'
        (.str icon)
      refine ⟨_, if_pos ?_, same⟩
      change readable ((rawReferenceLayout
        ((definitionOf source viewType).set "icon" (.str icon))).getD [])
      rw [raw]
      exact readable_definitionOf read
    · exact plain

end

/-! ## Splitting and joining -/

section

variable {definition fields : Dict String Json} {outer inner key : String}

theorem get?_popUnder (object : definition.get? outer = some (.obj fields)) :
    (popUnder definition outer inner).get? key =
      if key = outer then some (.obj (fields.pop inner)) else definition.get? key := by
  rw [popUnder, object]
  dsimp only [bind_some, fieldsOf]
  rw [get?_set]
  simp only [eq_comm]

theorem get?_setUnder (value : Json) : (setUnder definition outer inner value).get? key =
    if key = outer then some (.obj ((dictOf (definition.get? outer)).set inner value))
    else definition.get? key := by
  rw [setUnder, get?_set]
  simp only [eq_comm]

def relaidLayout (layout : Dict String Json) : Dict String Json :=
  if dictOf (layout.get? "referenceLayout") = [] then layout.pop "referenceLayout"
  else (layout.pop "referenceLayout").set "referenceLayout"
    (.obj (dictOf (layout.get? "referenceLayout")))

theorem same_relaidLayout_iff {layout : Dict String Json} :
    Same (.obj (relaidLayout layout)) (.obj layout) ↔ layout.get? "referenceLayout" = none ∨
        dictOf (layout.get? "referenceLayout") ≠ [] := by
  have others (key : String) (other : key ≠ "referenceLayout") :
      (relaidLayout layout).get? key = layout.get? key := by
    rw [relaidLayout]
    split
    · rw [get?_pop, if_neg (Ne.symm other)]
    · rw [get?_set_ne (Ne.symm other), get?_pop, if_neg (Ne.symm other)]
  rw [same_obj_iff_at fun key other => by rw [others key other], relaidLayout]
  by_cases empty : dictOf (layout.get? "referenceLayout") = []
  · rw [if_pos empty, get?_pop]
    simp [empty]
  · rw [if_neg empty, get?_set_self]
    simp only [ne_eq, empty, not_false_eq_true, or_true, iff_true]
    cases found : layout.get? "referenceLayout" with
    | none =>
      rw [found] at empty
      exact absurd rfl empty
    | some value =>
      rw [found] at empty
      cases value with
      | obj fields => rfl
      | _ => exact absurd rfl empty

/-- Splitting and joining is the identity unless an empty reference layout is lost. -/
theorem same_joinDefinition_iff {layout content : Dict String Json} {scope : Json}
    (laid : definition.get? "layout" = some (.obj layout))
    (held : definition.get? "content" = some (.obj content))
    (stamped : content.get? "entityScope" = some scope) (present : scope ≠ .null) :
    Same (.obj (joinDefinition (splitDefinition definition))) (.obj definition) ↔
      layout.get? "referenceLayout" = none ∨ dictOf (layout.get? "referenceLayout") ≠ [] := by
  have rest (key : String) : (splitDefinition definition).rest.get? key =
      if key = "content" then some (.obj (content.pop "entityScope"))
      else if key = "layout" then some (.obj (layout.pop "referenceLayout"))
      else definition.get? key := by
    have inner : (popUnder definition "layout" "referenceLayout").get? "content" =
        some (.obj content) := by
      rw [get?_popUnder laid, if_neg (by decide), held]
    rw [splitDefinition, get?_popUnder inner, get?_popUnder laid]
  have scopeOf : (splitDefinition definition).entityScope = some scope := by
    simp [splitDefinition, held, dictOf, fieldsOf, stamped, present]
  have layoutOf : (splitDefinition definition).referenceLayout =
      dictOf (layout.get? "referenceLayout") := by
    simp [splitDefinition, laid, dictOf, fieldsOf]
  have restLayout : (splitDefinition definition).rest.get? "layout" =
      some (.obj (layout.pop "referenceLayout")) := by
    rw [rest, if_neg (by decide), if_pos rfl]
  have relaid (key : String) : Dict.get? (if dictOf (layout.get? "referenceLayout") = [] then
        (splitDefinition definition).rest
      else setUnder (splitDefinition definition).rest "layout" "referenceLayout"
        (.obj (dictOf (layout.get? "referenceLayout")))) key =
      if key = "layout" then some (.obj (relaidLayout layout))
      else (splitDefinition definition).rest.get? key := by
    rw [relaidLayout]
    split
    · next empty =>
        by_cases isLayout : key = "layout"
        · rw [if_pos isLayout, isLayout, restLayout]
        · rw [if_neg isLayout]
    · rw [get?_setUnder, restLayout]
      rfl
  have joined (key : String) : (joinDefinition (splitDefinition definition)).get? key =
      if key = "content" then
        some (.obj ((content.pop "entityScope").set "entityScope" scope))
      else if key = "layout" then some (.obj (relaidLayout layout))
      else definition.get? key := by
    rw [joinDefinition, scopeOf, layoutOf]
    have content' := (relaid "content").trans (show _ = some (.obj (content.pop "entityScope")) by
        rw [if_neg (by decide), rest, if_pos rfl])
    rw [get?_setUnder, content', relaid, rest]
    by_cases isContent : key = "content"
    · rw [if_pos isContent, if_pos isContent]
      rfl
    · rw [if_neg isContent, if_neg isContent, if_neg isContent]
      by_cases isLayout : key = "layout"
      · rw [if_pos isLayout, if_pos isLayout]
      · rw [if_neg isLayout, if_neg isLayout, if_neg isLayout]
  rw [@same_obj_iff_at _ _ "layout", joined, if_neg (by decide), if_pos rfl, laid, same?_some]
  · exact same_relaidLayout_iff
  · intro key other
    rw [joined, if_neg other]
    by_cases isContent : key = "content"
    · rw [if_pos isContent, isContent, held, same?_some, same_obj_iff]
      intro field
      rw [get?_set, get?_pop]
      by_cases isScope : "entityScope" = field
      · rw [if_pos isScope, ← isScope, stamped]
      · rw [if_neg isScope, if_neg isScope]
    · rw [if_neg isContent]

end

/-! ## Configs that differ in what is forgotten -/

section

variable {kept : Bool} {raw raw' : Dict String Json} {urn : String}

def Counts (kept : Bool) (entry : String × Entry) : Prop :=
  Travels entry.1 ∧ Stays kept entry.2

instance (kept : Bool) (entry : String × Entry) : Decidable (Counts kept entry) :=
  inferInstanceAs (Decidable (_ ∧ _))

def design (kept : Bool) (entry : Option Entry) : Option Json :=
  (entry.filter (Stays kept ·)).map fun entry => .obj (dropNulls entry)

/-- Layers that differ in the placements they hold of entities that do not travel or that the
query placed, at most. -/
def AlikeLayer (kept : Bool) (layer layer' : Json) : Prop :=
  stripLayer layer = stripLayer layer' ∧ (layerEntityClaims layer).filter (Counts kept ·) =
      (layerEntityClaims layer').filter (Counts kept ·)

/-- Layouts that differ in placements that are forgotten, at most. -/
structure AlikeLayouts (kept : Bool) (raw raw' : Dict String Json) : Prop where
  side : ∀ key, key ≠ "layers" → key ≠ "assignments" → raw.get? key = raw'.get? key
  stored : ∀ urn, Travels urn → Same? (design kept ((storedAssignments raw).get? urn))
    (design kept ((storedAssignments raw').get? urn))
  layers : List.Forall₂ (AlikeLayer kept) (listOf (raw.get? "layers")) (listOf (raw'.get? "layers"))

/-- The first placement of an entity among those a definition can have. -/
def counting (kept : Bool) (raw : Dict String Json) (urn : String) : Option Entry :=
  (((storedAssignments raw).get? urn).filter (Stays kept ·)).or
    (Dict.get? ((claimsOf raw).filter (Counts kept ·)) urn)

/-- An entry of the query hides another placement of its entity. -/
def Masked (kept : Bool) (raw : Dict String Json) (urn : String) : Prop :=
  Travels urn ∧ (∃ entry ∈ placedBy raw urn, ¬ Stays kept entry) ∧ (counting kept raw urn).isSome

theorem get?_filter_counts {claims : Claims} (travels : Travels urn)
    (stays : ∀ entry ∈ Dict.get? claims urn, Stays kept entry) :
    Dict.get? (claims.filter (Counts kept ·)) urn = Dict.get? claims urn := by
  induction claims with
  | nil => rfl
  | cons entry rest ih =>
    rw [get?_cons] at stays ⊢
    by_cases here : entry.1 = urn
    · rw [if_pos here] at stays ⊢
      have counts : Counts kept entry := ⟨here ▸ travels, stays entry.2 rfl⟩
      rw [filter_cons, if_pos (decide_eq_true counts), get?_cons, if_pos here]
    · rw [if_neg here] at stays ⊢
      rw [filter_cons]
      split
      · rw [get?_cons_ne here, ih stays]
      · exact ih stays

theorem counting_eq_placedBy (travels : Travels urn)
    (stays : ∀ entry ∈ placedBy raw urn, Stays kept entry) :
    counting kept raw urn = placedBy raw urn := by
  rw [counting]
  rw [placedBy] at stays ⊢
  cases found : (storedAssignments raw).get? urn with
  | some entry =>
    rw [found] at stays
    rw [Option.filter, if_pos (decide_eq_true (stays entry rfl)), some_or, some_or]
  | none =>
    rw [found] at stays
    rw [Option.filter, none_or, none_or, get?_filter_counts travels stays]

theorem get?_portableAssignments_of_travels (travels : Travels urn) :
    (Masked kept raw urn → (portableAssignments kept raw).get? urn = none) ∧
      (¬ Masked kept raw urn → (portableAssignments kept raw).get? urn =
        (counting kept raw urn).map dropNulls) := by
  rw [get?_portableAssignments, if_pos travels]
  by_cases stays : ∀ entry ∈ placedBy raw urn, Stays kept entry
  · constructor
    · rintro ⟨-, ⟨entry, placed, hides⟩, -⟩
      exact absurd (stays entry placed) hides
    · intro _
      rw [counting_eq_placedBy travels stays]
      cases placed : placedBy raw urn with
      | none => rfl
      | some entry => rw [Option.filter, if_pos (decide_eq_true (stays entry placed))]
  · simp only [not_forall] at stays
    obtain ⟨entry, placed, hides⟩ := stays
    rw [placed, Option.filter, if_neg (by simpa using hides)]
    refine ⟨fun _ => rfl, fun unmasked => ?_⟩
    have uncounted : counting kept raw urn = none := by
      rw [← not_isSome_iff_eq_none]
      exact fun counted => unmasked ⟨travels, ⟨entry, placed, hides⟩, counted⟩
    rw [uncounted]

namespace AlikeLayouts

variable (alike : AlikeLayouts kept raw raw')

include alike

theorem layers_normalize : (normalize raw).layers = (normalize raw').layers := by
  change (listOf (raw.get? "layers")).map stripLayer = (listOf (raw'.get? "layers")).map stripLayer
  have layers := alike.layers
  generalize listOf (raw.get? "layers") = first at layers ⊢
  generalize listOf (raw'.get? "layers") = second at layers ⊢
  induction layers with
  | nil => rfl
  | cons same _ ih => rw [map_cons, map_cons, same.1, ih]

theorem filter_claimsOf : (claimsOf raw).filter (Counts kept ·) =
    (claimsOf raw').filter (Counts kept ·) := by
  rw [claimsOf, claimsOf]
  have layers := alike.layers
  generalize listOf (raw.get? "layers") = first at layers ⊢
  generalize listOf (raw'.get? "layers") = second at layers ⊢
  induction layers with
  | nil => rfl
  | @cons layer layer' _ _ same _ ih =>
    rw [flatMap_cons, flatMap_cons, filter_append, filter_append, ih,
      layerClaims_eq, layerClaims_eq, filter_append, filter_append, same.2,
      ← layerRuleClaims_stripLayer layer, same.1, layerRuleClaims_stripLayer]

theorem same_counting (travels : Travels urn) :
    Same? ((counting kept raw urn).map fun entry => .obj (dropNulls entry))
      ((counting kept raw' urn).map fun entry => .obj (dropNulls entry)) := by
  have stored := alike.stored urn travels
  rw [design, design] at stored
  rw [counting, counting, alike.filter_claimsOf]
  cases first : ((storedAssignments raw).get? urn).filter (Stays kept ·) with
  | none =>
    rw [first] at stored
    rw [show ((storedAssignments raw').get? urn).filter (Stays kept ·) = none by
      simpa using stored]
  | some entry =>
    cases second : ((storedAssignments raw').get? urn).filter (Stays kept ·) with
    | none => rw [first, second] at stored; simp at stored
    | some entry' =>
      rw [first, second] at stored
      exact stored

theorem isSome_counting (travels : Travels urn) :
    (counting kept raw urn).isSome = (counting kept raw' urn).isSome := by
  have same := congrArg isSome (alike.same_counting travels)
  simpa using same

/-- Both layouts place an entity alike, unless it is masked in one of them alone. -/
theorem same_portableAssignments : Same? (((portableAssignments kept raw).get? urn).map Json.obj)
      (((portableAssignments kept raw').get? urn).map Json.obj) ↔
    (Masked kept raw urn ↔ Masked kept raw' urn) := by
  by_cases travels : Travels urn
  · have same := alike.same_counting travels
    obtain ⟨hidden, shown⟩ := @get?_portableAssignments_of_travels kept raw urn travels
    obtain ⟨hidden', shown'⟩ := @get?_portableAssignments_of_travels kept raw' urn travels
    by_cases masked : Masked kept raw urn
    · by_cases masked' : Masked kept raw' urn
      · rw [hidden masked, hidden' masked']
        simp [masked, masked']
      · have counted := masked.2.2
        rw [alike.isSome_counting travels] at counted
        obtain ⟨entry, counts⟩ := isSome_iff_exists.mp counted
        rw [hidden masked, shown' masked', counts]
        simp [masked, masked']
    · by_cases masked' : Masked kept raw' urn
      · have counted := masked'.2.2
        rw [← alike.isSome_counting travels] at counted
        obtain ⟨entry, counts⟩ := isSome_iff_exists.mp counted
        rw [shown masked, hidden' masked', counts]
        simp [masked, masked']
      · rw [shown masked, shown' masked', Option.map_map, Option.map_map]
        simp only [masked, masked', iff_true]
        exact same
  · rw [get?_portableAssignments, get?_portableAssignments]
    simp [Masked, travels]

/-- Two forms of a layout agree where they mask the same urns. -/
theorem same_portableLayout :
    Same (.obj (portableLayout kept raw)) (.obj (portableLayout kept raw')) ↔
      ∀ urn, Masked kept raw urn ↔ Masked kept raw' urn := by
  rw [portableLayout_eq, portableLayout_eq, @same_obj_iff_at _ _ "assignments",
    get?_layoutWith, get?_layoutWith, if_pos rfl, if_pos rfl, same?_some, same_obj_iff]
  · refine forall_congr' fun urn => ?_
    rw [get?_map_value (portableAssignments kept raw) (fun _ entry => Json.obj entry),
      get?_map_value (portableAssignments kept raw') (fun _ entry => Json.obj entry)]
    exact alike.same_portableAssignments
  · intro key other
    rw [get?_layoutWith, get?_layoutWith, if_neg other, if_neg other, alike.layers_normalize]
    by_cases isLayers : key = "layers"
    · rw [if_pos isLayers, if_pos isLayers]
    · rw [if_neg isLayers, if_neg isLayers, alike.side key isLayers other]

end AlikeLayouts

variable {config config' : Dict String Json} {viewType : Option String}

/-- Configs that differ, at most, in environment keys, labels and what a layout forgets. -/
structure Alike (config config' : Dict String Json) : Prop where
  fields : ∀ key, isDropped key = false → key ≠ "layout" → config.get? key = config'.get? key
  layout : ∀ key, key ≠ "referenceLayout" →
    (dictOf (config.get? "layout")).get? key = (dictOf (config'.get? "layout")).get? key
  laid : ∀ raw ∈ rawReferenceLayout config, ∃ raw' ∈ rawReferenceLayout config',
    AlikeLayouts (keptUpToDate config) raw raw'
  unlaid : rawReferenceLayout config = none → rawReferenceLayout config' = none ∧
    (dictOf (config.get? "layout")).get? "referenceLayout" =
      (dictOf (config'.get? "layout")).get? "referenceLayout"

def Unplaced (config : Dict String Json) : Prop :=
  ∀ urn, placedBy ((rawReferenceLayout config).getD []) urn = none

def Scoped (config : Dict String Json) : Prop :=
  isScope ((dictOf (config.get? "content")).get? "entityScope")

theorem contentField_of_scoped (named : Scoped config) :
    contentField config = dictOf (config.get? "content") :=
  if_pos named

theorem contentField_of_not_scoped (derived : ¬ Scoped config) : contentField config =
    (dictOf (config.get? "content")).set "entityScope" (deriveEntityScope config) :=
  if_neg derived

theorem same_iff_of_isScope {scope scope' : Json} (named : isScope (some scope))
    (named' : isScope (some scope')) : Same scope scope' ↔ scope = scope' := by
  rw [isScope] at named named'
  simp only [some.injEq, Bool.or_eq_true, decide_eq_true_eq] at named named'
  rcases named with rfl | rfl
  · rcases named' with rfl | rfl <;> decide +kernel
  · rcases named' with rfl | rfl <;> decide +kernel

theorem deriveEntityScope_eq_iff (derived : ¬ Scoped config) (derived' : ¬ Scoped config') :
    deriveEntityScope config = deriveEntityScope config' ↔
      (Unplaced config ↔ Unplaced config') := by
  have empty (config : Dict String Json) :
      (normalize ((rawReferenceLayout config).getD [])).assignments = [] ↔ Unplaced config := by
    rw [eq_nil_iff, Unplaced]
    simp only [get?_normalize]
  have scope {config : Dict String Json} (derived : ¬ Scoped config) :
      deriveEntityScope config = if (normalize ((rawReferenceLayout config).getD
        [])).assignments = [] then .str "all" else .str "curated" := by
    rw [Scoped, get?_dictOf] at derived
    exact if_neg derived
  rw [scope derived, scope derived']
  split <;> split <;> simp_all

theorem get?_of_typeOf {layout : Dict String Json} {type : String}
    (typed : typeOf layout = some type) : layout.get? "type" = some (.str type) := by
  rw [typeOf] at typed
  split at typed
  · next text found =>
      split at typed
      · cases typed
      · rw [found, some.inj typed]
  · cases typed

theorem get?_layoutField_type : (layoutField config viewType).get? "type" =
    some (.str ((typeOf (dictOf (config.get? "layout"))).getD (defaultType viewType))) := by
  have laid : (laidOut config).get? "type" = (dictOf (config.get? "layout")).get? "type" := by
    rw [laidOut]
    cases rawReferenceLayout config with
    | none => rfl
    | some raw => exact get?_set_ne (by decide) _ _
  have typed : typeOf (laidOut config) = typeOf (dictOf (config.get? "layout")) := by
    rw [typeOf, laid, typeOf]
  rw [layoutField, ← typed]
  cases found : typeOf (laidOut config) with
  | none =>
    rw [if_neg (by decide), get?_set_self]
    rfl
  | some type =>
    rw [if_pos isSome_some, get?_of_typeOf found]
    rfl

namespace Alike

variable (alike : Alike config config')

include alike

theorem keptUpToDate_eq : keptUpToDate config = keptUpToDate config' := by
  rw [keptUpToDate, keptUpToDate, alike.fields "membership" (by decide) (by decide)]

theorem content_eq : config.get? "content" = config'.get? "content" :=
  alike.fields "content" (by decide) (by decide)

theorem same_layoutField : Same (.obj (layoutField config viewType))
      (.obj (layoutField config' viewType)) ↔
    ∀ raw ∈ rawReferenceLayout config, ∀ raw' ∈ rawReferenceLayout config',
      ∀ urn, Masked (keptUpToDate config) raw urn ↔ Masked (keptUpToDate config) raw' urn := by
  rw [@same_obj_iff_at _ _ "referenceLayout", get?_layoutField (by decide), if_pos rfl,
    get?_layoutField (by decide), if_pos rfl, ← alike.keptUpToDate_eq]
  · cases found : rawReferenceLayout config with
    | none =>
      obtain ⟨none, unlaid⟩ := alike.unlaid found
      rw [none, unlaid]
      simp [EqBy?]
    | some raw =>
      obtain ⟨raw', found', layouts⟩ := alike.laid raw found
      rw [found', map_some, map_some, some_or, some_or, same?_some, layouts.same_portableLayout]
      simp
  · intro key other
    by_cases isType : key = "type"
    · have typed : typeOf (dictOf (config.get? "layout")) =
          typeOf (dictOf (config'.get? "layout")) := by
        rw [typeOf, alike.layout "type" (by decide), typeOf]
      rw [isType, get?_layoutField_type, get?_layoutField_type, typed]
    · rw [get?_layoutField isType, get?_layoutField isType, if_neg other, if_neg other,
        alike.layout key other]

/-- Both definitions have the same `content` if neither derives its scope, or both the same. -/
theorem same_contentField : Same (.obj (contentField config)) (.obj (contentField config')) ↔
    Scoped config ∨ (Unplaced config ↔ Unplaced config') := by
  have both : Scoped config ↔ Scoped config' := by
    rw [Scoped, Scoped, alike.content_eq]
  by_cases named : Scoped config
  · rw [contentField_of_scoped named, contentField_of_scoped (both.mp named), alike.content_eq]
    simp [named, EqBy]
  · rw [contentField_of_not_scoped named, contentField_of_not_scoped (mt both.mpr named),
      alike.content_eq, @same_obj_iff_at _ _ "entityScope", get?_set_self,
      get?_set_self, ← deriveEntityScope_eq_iff named (mt both.mpr named)]
    · rw [same?_some, same_iff_of_isScope isScope_deriveEntityScope isScope_deriveEntityScope]
      simp [named]
    · intro key other
      rw [get?_set_ne (Ne.symm other), get?_set_ne (Ne.symm other)]

/-- Two configurations have one definition where they mask and scope alike. -/
theorem same_definitionOf : Same (.obj (definitionOf config viewType))
      (.obj (definitionOf config' viewType)) ↔
    (∀ raw ∈ rawReferenceLayout config, ∀ raw' ∈ rawReferenceLayout config',
      ∀ urn, Masked (keptUpToDate config) raw urn ↔ Masked (keptUpToDate config) raw' urn) ∧
    (Scoped config ∨ (Unplaced config ↔ Unplaced config')) := by
  rw [← alike.same_layoutField, ← alike.same_contentField, same_obj_iff]
  constructor
  · intro same
    have layout := same "layout"
    have content := same "content"
    rw [get?_definitionOf, get?_definitionOf, if_neg (by decide), if_pos rfl,
      if_neg (by decide), if_pos rfl, same?_some] at layout
    rw [get?_definitionOf, get?_definitionOf, if_pos rfl, if_pos rfl, same?_some] at content
    exact ⟨layout, content⟩
  · rintro ⟨layout, content⟩ key
    rw [get?_definitionOf, get?_definitionOf]
    by_cases isContent : key = "content"
    · rwa [if_pos isContent, if_pos isContent, same?_some]
    · by_cases isLayout : key = "layout"
      · rwa [if_neg isContent, if_pos isLayout, if_neg isContent, if_pos isLayout, same?_some]
      · rw [if_neg isContent, if_neg isLayout, if_neg isContent, if_neg isLayout]
        cases dropped : isDropped key with
        | true => rfl
        | false => rw [alike.fields key dropped isLayout]

end Alike

theorem Alike.set {key : String} (dropped : isDropped key) (other : key ≠ "referenceLayout")
    (value : Json) : Alike config (config.set key value) := by
  have held {field : String} (kept : field = "referenceLayout" ∨ isDropped field = false) :
      (config.set key value).get? field = config.get? field := by
    refine get?_set_ne (fun same => ?_) _ _
    subst same
    cases kept with
    | inl layout => exact other layout
    | inr kept => rw [dropped] at kept; cases kept
  have raw : rawReferenceLayout (config.set key value) = rawReferenceLayout config := by
    rw [rawReferenceLayout, rawReferenceLayout, held (.inr (by decide)), held (.inl rfl)]
  refine ⟨fun field kept _ => (held (.inr kept)).symm, ?_, ?_, ?_⟩
  · rw [held (.inr (by decide))]
    exact fun _ _ => rfl
  · intro layout found
    have same (layers : List Json) :
        List.Forall₂ (AlikeLayer (keptUpToDate config)) layers layers :=
      forall₂_same.mpr fun _ _ => ⟨rfl, rfl⟩
    exact ⟨layout, raw ▸ found, fun _ _ _ => rfl, fun _ _ => rfl, same _⟩
  · intro none
    rw [raw, held (.inr (by decide))]
    exact ⟨none, rfl⟩

end

/-! ## The portable form -/

section

variable {config config' : Json} {viewType viewType' icon : Option String}

/-- Taking a config's definition does not raise. -/
def Readable (config : Json) : Prop :=
  readable ((rawReferenceLayout (dictOf (some config))).getD [])

instance (config : Json) : Decidable (Readable config) :=
  inferInstanceAs (Decidable (_ = true))

def Idempotent (config : Json) (viewType viewType' : Option String) : Prop :=
  ∃ first again, portableDefinition config viewType = some first ∧
    portableDefinition (.obj first) viewType' = some again ∧ Same (.obj again) (.obj first)

def FormsAgree (config config' : Json) (viewType : Option String) : Prop :=
  ∃ first second, portableDefinition config viewType = some first ∧
    portableDefinition config' viewType = some second ∧ Same (.obj first) (.obj second)

def Joins (config : Json) (viewType : Option String) : Prop :=
  ∃ definition, portableDefinition config viewType = some definition ∧
    Same (.obj (joinDefinition (splitDefinition definition))) (.obj definition)

def StoresBack (config : Json) (viewType viewType' icon : Option String) : Prop :=
  ∃ definition again, portableDefinition config viewType = some definition ∧
    portableDefinition (.obj (configFromDefinition definition icon)) viewType' = some again ∧
      Same (.obj again) (.obj definition)

theorem portableDefinition_eq_some {definition : Dict String Json} :
    portableDefinition config viewType = some definition ↔
      Readable config ∧ definitionOf (dictOf (some config)) viewType = definition := by
  rw [portableDefinition]
  split
  · next read => simp [Readable, read]
  · next unreadable => simp [Readable, unreadable]

/-- No entity that the query placed is named by a rule. -/
def Unclaimed (config : Dict String Json) : Prop :=
  ∀ raw ∈ rawReferenceLayout config, ∀ urn, ¬ Reclaimed (keptUpToDate config) raw urn

theorem idempotent_iff : Idempotent config viewType viewType' ↔
    Readable config ∧ Unclaimed (dictOf (some config)) := by
  constructor
  · rintro ⟨first, again, one, two, same⟩
    obtain ⟨read, rfl⟩ := portableDefinition_eq_some.mp one
    rw [portableDefinition_definitionOf read] at two
    cases two
    exact ⟨read, same_definitionOf_again.mp same⟩
  · rintro ⟨read, unclaimed⟩
    exact ⟨_, _, portableDefinition_eq_some.mpr ⟨read, rfl⟩,
      portableDefinition_definitionOf read, same_definitionOf_again.mpr unclaimed⟩

theorem storesBack_iff : StoresBack config viewType viewType' icon ↔
    Readable config ∧ Unclaimed (dictOf (some config)) := by
  constructor
  · rintro ⟨first, again, one, two, same⟩
    obtain ⟨read, rfl⟩ := portableDefinition_eq_some.mp one
    obtain ⟨stored, form, asIs⟩ := @portableDefinition_configFromDefinition _ viewType viewType'
      icon read
    rw [form] at two
    cases two
    exact ⟨read, same_definitionOf_again.mp (asIs.symm.trans same)⟩
  · rintro ⟨read, unclaimed⟩
    obtain ⟨stored, form, asIs⟩ := @portableDefinition_configFromDefinition _ viewType viewType'
      icon read
    exact ⟨_, stored, portableDefinition_eq_some.mpr ⟨read, rfl⟩, form,
      asIs.trans (same_definitionOf_again.mpr unclaimed)⟩

theorem formsAgree_iff (alike : Alike (dictOf (some config)) (dictOf (some config'))) :
    FormsAgree config config' viewType ↔ Readable config ∧ Readable config' ∧
      (∀ raw ∈ rawReferenceLayout (dictOf (some config)),
        ∀ raw' ∈ rawReferenceLayout (dictOf (some config')), ∀ urn,
          Masked (keptUpToDate (dictOf (some config))) raw urn ↔
            Masked (keptUpToDate (dictOf (some config))) raw' urn) ∧
      (Scoped (dictOf (some config)) ∨
        (Unplaced (dictOf (some config)) ↔ Unplaced (dictOf (some config')))) := by
  rw [← alike.same_definitionOf]
  constructor
  · rintro ⟨first, second, one, two, same⟩
    obtain ⟨read, rfl⟩ := portableDefinition_eq_some.mp one
    obtain ⟨read', rfl⟩ := portableDefinition_eq_some.mp two
    exact ⟨read, read', same⟩
  · rintro ⟨read, read', same⟩
    exact ⟨_, _, portableDefinition_eq_some.mpr ⟨read, rfl⟩,
      portableDefinition_eq_some.mpr ⟨read', rfl⟩, same⟩

theorem joins_iff : Joins config viewType ↔ Readable config ∧
    ((rawReferenceLayout (dictOf (some config))).isSome ∨
      (dictOf ((dictOf (some config)).get? "layout")).get? "referenceLayout" = none) := by
  generalize source_eq : dictOf (some config) = source
  have laid : (definitionOf source viewType).get? "layout" =
      some (.obj (layoutField source viewType)) := by
    rw [get?_definitionOf, if_neg (by decide), if_pos rfl]
  have held : (definitionOf source viewType).get? "content" =
      some (.obj (contentField source)) := by
    rw [get?_definitionOf, if_pos rfl]
  obtain ⟨scope, stamped, present⟩ : ∃ scope,
      (contentField source).get? "entityScope" = some scope ∧ scope ≠ .null := by
    have named := @isScope_contentField source
    rw [isScope, Bool.or_eq_true, decide_eq_true_eq, decide_eq_true_eq] at named
    cases named with
    | inl all => exact ⟨_, all, by decide⟩
    | inr curated => exact ⟨_, curated, by decide⟩
  have condition : ((layoutField source viewType).get? "referenceLayout" = none ∨
      dictOf ((layoutField source viewType).get? "referenceLayout") ≠ []) ↔
        ((rawReferenceLayout source).isSome ∨
          (dictOf (source.get? "layout")).get? "referenceLayout" = none) := by
    rw [get?_layoutField (by decide)]
    cases found : rawReferenceLayout source with
    | some raw =>
      have some_ : portableLayout (keptUpToDate source) raw ≠ [] := by
        rw [portableLayout_eq]
        exact set_ne_nil _ _ _
      simp [dictOf, fieldsOf, some_]
    | none =>
      have noLayout : dictOf ((dictOf (source.get? "layout")).get? "referenceLayout") = [] := by
        rw [rawReferenceLayout, or_eq_none_iff] at found
        rw [get?_dictOf, dictOf, found.1]
        rfl
      simp [noLayout]
  rw [← condition, ← same_joinDefinition_iff laid held stamped present, ← source_eq]
  constructor
  · rintro ⟨definition, one, same⟩
    obtain ⟨read, rfl⟩ := portableDefinition_eq_some.mp one
    exact ⟨read, same⟩
  · rintro ⟨read, same⟩
    exact ⟨_, portableDefinition_eq_some.mpr ⟨read, rfl⟩, same⟩

/-- The portable form is canonical where the config can be read: its definition and its
stored form have the same definition if and only if no entity that the query placed is named
by a rule; configs that differ in what is forgotten have the same if and only if no entity is
masked in one of them alone and they derive no scope or the same; and parts are joined to the
definition if and only if nothing but a layout is in the layout's place. -/
theorem portableDefinition_canonical_iff (config config' : Json)
    (viewType viewType' icon : Option String)
    (alike : Alike (dictOf (some config)) (dictOf (some config'))) :
    (Idempotent config viewType viewType' ↔ Readable config ∧ Unclaimed (dictOf (some config))) ∧
    (FormsAgree config config' viewType ↔ Readable config ∧ Readable config' ∧
      (∀ raw ∈ rawReferenceLayout (dictOf (some config)),
        ∀ raw' ∈ rawReferenceLayout (dictOf (some config')), ∀ urn,
          Masked (keptUpToDate (dictOf (some config))) raw urn ↔
            Masked (keptUpToDate (dictOf (some config))) raw' urn) ∧
      (Scoped (dictOf (some config)) ∨
        (Unplaced (dictOf (some config)) ↔ Unplaced (dictOf (some config'))))) ∧
    (Joins config viewType ↔ Readable config ∧ ((rawReferenceLayout (dictOf (some config))).isSome ∨
        (dictOf ((dictOf (some config)).get? "layout")).get? "referenceLayout" = none)) ∧
    (StoresBack config viewType viewType' icon ↔
      Readable config ∧ Unclaimed (dictOf (some config))) :=
  ⟨idempotent_iff, formsAgree_iff alike, joins_iff, storesBack_iff⟩

def placedView : Dict String Json :=
  [("layout", .obj [("referenceLayout", .obj [("layers", .arr [.obj [("id", .str "l1"),
        ("rules", .arr [.obj [("urnPattern", .str "urn:b")]])]]),
      ("assignments", .obj [("urn:a", .obj [("layerId", .str "l1"), ("assignedBy", .null)])])])])]

/-- Who owns a view is no part of its portable form, and its form is canonical. -/
theorem portableDefinition_canonical_placedView : Idempotent (.obj placedView) none none ∧
      FormsAgree (.obj placedView) (.obj (placedView.set "createdBy" (.str "u1"))) none ∧
      Joins (.obj placedView) none ∧ StoresBack (.obj placedView) none none (some "table") := by
  obtain ⟨idempotent, agree, joins, stores⟩ := portableDefinition_canonical_iff (.obj placedView)
    (.obj (placedView.set "createdBy" (.str "u1"))) none none (some "table")
    (@Alike.set placedView "createdBy" (by decide) (by decide) (.str "u1"))
  have stays (entry : Entry) : Stays (keptUpToDate placedView) entry := by
    have off : keptUpToDate placedView = false := by decide +kernel
    rw [off]
    exact nofun
  have unclaimed : Readable (.obj placedView) ∧ Unclaimed (dictOf (some (.obj placedView))) := by
    refine ⟨by decide +kernel, fun raw _ urn claimed => ?_⟩
    obtain ⟨-, ⟨entry, -, hides⟩, -⟩ := claimed
    exact hides (stays entry)
  refine ⟨idempotent.mpr unclaimed, agree.mpr ⟨unclaimed.1, by decide +kernel, ?_, .inr ?_⟩,
    joins.mpr ⟨unclaimed.1, .inl (by decide +kernel)⟩, stores.mpr unclaimed⟩
  · intro raw _ raw' _ urn
    have unmasked (raw : Dict String Json) : ¬ Masked (keptUpToDate placedView) raw urn :=
      fun ⟨_, ⟨entry, _, hides⟩, _⟩ => hides (stays entry)
    exact iff_of_false (unmasked raw) (unmasked raw')
  · have same : rawReferenceLayout (placedView.set "createdBy" (.str "u1")) =
        rawReferenceLayout placedView := by decide +kernel
    rw [show dictOf (some (.obj (placedView.set "createdBy" (.str "u1")))) =
      placedView.set "createdBy" (.str "u1") from rfl, Unplaced, Unplaced, same]
    rfl

/-- A view kept up to date, whose query placed an entity that a rule names. -/
def reclaimedView : Json :=
  .obj [("membership", .obj [("mode", .str "live")]), ("layout", .obj [("referenceLayout", .obj [
      ("layers", .arr [.obj [("id", .str "l1"),
        ("rules", .arr [.obj [("urnPattern", .str "urn:a")]])]]),
      ("assignments", .obj [("urn:a", .obj [("layerId", .str "l1"),
        ("assignedBy", .str "query")])])])])]

/-- The second pass places the entity that the first left out; and a layout of `null` is gone
after splitting and joining. -/
theorem portableDefinition_not_canonical : ¬ Idempotent reclaimedView none none ∧
      ¬ Joins (.obj [("layout", .obj [("referenceLayout", .null)])]) none := by
  constructor
  · rintro ⟨first, again, one, two, same⟩
    have differ : ((portableDefinition reclaimedView none).bind fun first =>
        (portableDefinition (.obj first) none).map fun again =>
          decide (Same (.obj again) (.obj first))) = some false := by decide +kernel
    rw [one, bind_some, two, map_some, decide_eq_true same] at differ
    cases differ
  · rintro ⟨definition, one, same⟩
    have differ : ((portableDefinition (.obj [("layout", .obj [("referenceLayout", .null)])])
        none).map fun definition => decide (Same
          (.obj (joinDefinition (splitDefinition definition))) (.obj definition))) =
            some false := by decide +kernel
    rw [one, map_some, decide_eq_true same] at differ
    cases differ

end

end DataViz.View
