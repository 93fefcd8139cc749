/-
# What the places of a rewritten definition name

Place by place, rewriting names at a place what the rewrite makes of the names that stood there
(`renamed_rewritePlaces`): a name that is pruned goes, any other is renamed, chains and swaps at
once. The rules of the result are those of the definition, rewritten one by one, and a table by
name has under a key the value that stayed there, or else the first that was moved to it.

`hasCriterion_rewriteRule` says when a rule is left without a criterion.
-/

import DataViz.View.References

namespace DataViz.View

open Dict

/-! ## Values in place -/

section

variable {fields : Dict String Json} {change : Json → Json} {key other : String}

theorem get?_adjust (key other : String) (change : Json → Json) (fields : Dict String Json) :
    (adjust key change fields).get? other =
      if key = other then (fields.get? other).map change else fields.get? other := by
  unfold adjust
  by_cases same : key = other
  · subst same
    rw [if_pos rfl]
    cases here : fields.get? key with
    | none => exact here
    | some value => exact get?_set_self fields key (change value)
  · rw [if_neg same]
    cases fields.get? key with
    | none => rfl
    | some value => exact get?_set_ne same fields (change value)

theorem get?_adjust_self : (adjust key change fields).get? key = (fields.get? key).map change := by
  rw [get?_adjust, if_pos rfl]

theorem objectsIn_onItems (change : Dict String Json → Dict String Json) (value : Option Json) :
    objectsIn (value.map (onItems (·.map (onObject change)))) = (objectsIn value).map change := by
  cases value with
  | none => rfl
  | some value =>
    cases value with
    | arr items =>
      change (items.map (onObject change)).filterMap fieldsOf =
        (items.filterMap fieldsOf).map change
      rw [List.filterMap_map, List.map_filterMap]
      congr 1
      funext item
      cases item <;> rfl
    | _ => rfl

end

/-! ## New names -/

/-- What becomes of a name where it is kept or not: nothing where a dropped one goes. -/
def Renaming.image (names : Renaming) (kept : Bool) (name : String) : Option String :=
  if !kept && name ∈ names.drop then none else some (names.rename name)

def Rewrite.names (rw : Rewrite) : RefKind → Renaming
  | .pattern => {}
  | .entityType => rw.types
  | .relationshipType => rw.relTypes
  | _ => rw.urns

def Rewrite.image (rw : Rewrite) (r : Reference) : Option Reference :=
  ((rw.names r.kind).image r.kept r.name).map fun name => { r with name }

def Renamed (rw : Rewrite) (before after : List Reference) : Prop :=
  ∀ r', r' ∈ after ↔ ∃ r ∈ before, rw.image r = some r'

section

variable {rw : Rewrite}

theorem Renamed.nil : Renamed rw [] [] := by
  intro r'
  simp

/-- Parts renamed each for itself are renamed together. -/
theorem Renamed.append {before after before' after' : List Reference}
    (first : Renamed rw before after) (second : Renamed rw before' after') :
    Renamed rw (before ++ before') (after ++ after') := by
  intro r'
  rw [List.mem_append, first, second]
  constructor
  · rintro (⟨r, mem, image⟩ | ⟨r, mem, image⟩)
    · exact ⟨r, List.mem_append_left _ mem, image⟩
    · exact ⟨r, List.mem_append_right _ mem, image⟩
  · rintro ⟨r, mem, image⟩
    exact (List.mem_append.mp mem).imp (fun mem => ⟨r, mem, image⟩) fun mem => ⟨r, mem, image⟩

theorem Renamed.filterMap {α : Type*} {names : α → List Reference} {change : α → Option α}
    (each : ∀ part, Renamed rw (names part) ((change part).toList.flatMap names))
    (parts : List α) :
    Renamed rw (parts.flatMap names) ((parts.filterMap change).flatMap names) := by
  induction parts with
  | nil => exact .nil
  | cons part rest ih =>
    have split : ((part :: rest).filterMap change).flatMap names =
        (change part).toList.flatMap names ++ (rest.filterMap change).flatMap names := by
      rw [List.filterMap_cons]
      cases change part with
      | none => rfl
      | some part' =>
        rw [Option.toList_some, List.flatMap_cons, List.flatMap_singleton]
    rw [split]
    exact (each part).append ih

theorem Renamed.flatMap {α : Type*} {names : α → List Reference} {change : α → α}
    (each : ∀ part, Renamed rw (names part) (names (change part))) (parts : List α) :
    Renamed rw (parts.flatMap names) ((parts.map change).flatMap names) := by
  rw [← List.filterMap_eq_map]
  apply Renamed.filterMap
  intro part
  rw [Function.comp_apply, Option.toList_some, List.flatMap_singleton]
  exact each part

variable {kept : Bool}

theorem renamed_namesOf {kind : RefKind} {before after : List String}
    (same : ∀ name', name' ∈ after ↔
      ∃ name ∈ before, (rw.names kind).image kept name = some name') :
    Renamed rw (namesOf kind kept before) (namesOf kind kept after) := by
  intro r'
  unfold namesOf Rewrite.image
  simp only [List.mem_map, exists_exists_and_eq_and, Option.map_eq_some_iff]
  constructor
  · rintro ⟨name', mem, rfl⟩
    obtain ⟨name, mem, image⟩ := (same name').mp mem
    exact ⟨name, mem, name', image, rfl⟩
  · rintro ⟨name, mem, name', image, rfl⟩
    exact ⟨name', (same name').mpr ⟨name, mem, image⟩, rfl⟩

theorem renamed_one (kind : RefKind) {name name' : String}
    (image : (rw.names kind).image kept name = some name') :
    Renamed rw (namesOf kind kept [name]) (namesOf kind kept [name']) := by
  apply renamed_namesOf
  intro other
  simp only [List.mem_singleton, exists_eq_left, image, Option.some.injEq]
  exact eq_comm

theorem renamed_gone (kind : RefKind) {name : String}
    (image : (rw.names kind).image kept name = none) :
    Renamed rw (namesOf kind kept [name]) [] := by
  show Renamed rw (namesOf kind kept [name]) (namesOf kind kept [])
  apply renamed_namesOf
  intro other
  simp [image]

theorem dictOf_map {change : Dict String Json → Dict String Json} (nil : change [] = [])
    (value : Option Json) : dictOf (value.map (onObject change)) = change (dictOf value) := by
  cases value with
  | none => exact nil.symm
  | some value =>
    cases value with
    | obj fields => rfl
    | _ => exact nil.symm

theorem renamed_dictOf {names : Dict String Json → List Reference}
    {change : Dict String Json → Dict String Json} (nil : change [] = [])
    (each : ∀ fields, Renamed rw (names fields) (names (change fields))) (value : Option Json) :
    Renamed rw (names (dictOf value)) (names (dictOf (value.map (onObject change)))) := by
  rw [dictOf_map nil]
  exact each (dictOf value)

end

/-! ## Lists of names -/

section

variable {names : Renaming}

theorem mapList_other {item : Json} (other : textOf item = none) (seen : List String)
    (rest : List Json) : mapList names seen (item :: rest) = item :: mapList names seen rest := by
  cases item with
  | scalar s =>
    cases s with
    | str name => cases other
    | _ => rfl
  | _ => rfl

theorem mapList_text (name : String) (seen : List String) (rest : List Json) :
    mapList names seen (.str name :: rest) =
      if name ∈ names.drop ∨ names.rename name ∈ seen then mapList names seen rest
      else .str (names.rename name) :: mapList names (names.rename name :: seen) rest := by
  show (if name ∈ names.drop then mapList names seen rest
    else if names.rename name ∈ seen then mapList names seen rest else _) = _
  by_cases drop : name ∈ names.drop
  · rw [if_pos drop, if_pos (.inl drop)]
  · by_cases here : names.rename name ∈ seen
    · rw [if_neg drop, if_pos here, if_pos (.inr here)]
    · rw [if_neg drop, if_neg here, if_neg (not_or.mpr ⟨drop, here⟩)]

theorem image_pruned {name name' : String} :
    names.image false name = some name' ↔ name ∉ names.drop ∧ names.rename name = name' := by
  unfold Renaming.image
  by_cases drop : name ∈ names.drop <;> simp [drop]

theorem image_dropped {name : String} (drop : name ∈ names.drop) :
    names.image false name = none := by
  simp [Renaming.image, drop]

theorem image_kept {name name' : String} :
    names.image true name = some name' ↔ names.rename name = name' := by
  simp [Renaming.image]

theorem textOf_eq_some {item : Json} {name : String} (text : textOf item = some name) :
    item = .str name := by
  cases item with
  | scalar s =>
    cases s with
    | str other =>
      cases text
      rfl
    | _ => cases text
  | _ => cases text

/-- A rewritten list holds the images of its names, each once. -/
theorem mem_mapList (names : Renaming) (items : List Json) :
    ∀ (seen : List String) (name' : String),
      (name' ∈ seen ∨ name' ∈ (mapList names seen items).filterMap textOf) ↔
        (name' ∈ seen ∨ ∃ name ∈ items.filterMap textOf, names.image false name = some name') := by
  induction items with
  | nil => simp [mapList]
  | cons item rest ih =>
    intro seen name'
    cases text : textOf item with
    | none =>
      rw [mapList_other text, List.filterMap_cons_none text, List.filterMap_cons_none text]
      exact ih seen name'
    | some name =>
      rw [List.filterMap_cons_some text]
      cases textOf_eq_some text
      rw [mapList_text]
      simp only [List.mem_cons, exists_eq_or_imp, image_pruned]
      split
      next skipped =>
        rw [ih seen name']
        simp only [image_pruned]
        constructor
        · exact Or.imp_right .inr
        · rintro (here | ⟨kept, rfl⟩ | there)
          · exact .inl here
          · exact .inl (skipped.resolve_left kept)
          · exact .inr there
      next taken =>
        obtain ⟨kept, -⟩ := not_or.mp taken
        have later := ih (names.rename name :: seen) name'
        simp only [List.mem_cons, image_pruned] at later
        have front : textOf (.str (names.rename name)) = some (names.rename name) := rfl
        rw [List.filterMap_cons_some front, List.mem_cons, or_left_comm, ← or_assoc, later]
        constructor
        · rintro ((rfl | here) | there)
          · exact .inr (.inl ⟨kept, rfl⟩)
          · exact .inl here
          · exact .inr (.inr there)
        · rintro (here | ⟨-, rfl⟩ | there)
          · exact .inl (.inr here)
          · exact .inl (.inl rfl)
          · exact .inr there

end

section

variable {rw : Rewrite}

theorem textsIn_eq (value : Option Json) : textsIn value = (listOf value).filterMap textOf := rfl

/-- A list of names is renamed, the dropped names left out. -/
theorem renamed_mapList (kind : RefKind) (value : Option Json) :
    Renamed rw (namesOf kind false (textsIn value))
      (namesOf kind false (textsIn (value.map (onItems (mapList (rw.names kind) []))))) := by
  apply renamed_namesOf
  intro name'
  cases value with
  | none => simp [textsIn, listOf]
  | some value =>
    cases value with
    | arr items =>
      have whole := mem_mapList (rw.names kind) items [] name'
      simpa [textsIn_eq, listOf, onItems] using whole
    | _ => simp [textsIn, listOf, onItems]

/-- In a predicate the names that would empty the list stay. -/
theorem renamed_mapPredicateList (kind : RefKind) (value : Option Json) :
    Renamed rw (namesOf kind true (textsIn value))
      (namesOf kind true (textsIn (value.map (mapPredicateList (rw.names kind))))) := by
  apply renamed_namesOf
  intro name'
  simp only [image_kept]
  unfold mapPredicateList
  by_cases empty : (rw.names kind).map.isEmpty
  · have same (name : String) : (rw.names kind).rename name = name := by
      rw [Renaming.rename, List.isEmpty_iff.mp empty]
      rfl
    rw [if_pos empty, Option.map_id_fun, id]
    simp only [same, exists_eq_right]
  · rw [if_neg empty]
    cases value with
    | none => simp [textsIn, listOf]
    | some value =>
      cases value with
      | arr items =>
        have whole := mem_mapList { map := (rw.names kind).map } items [] name'
        simpa [textsIn_eq, listOf, onItems, image_pruned, Renaming.rename] using whole
      | _ => simp [textsIn, listOf, onItems]

theorem textAt_of_other {value : Option Json} (other : ∀ name, value = some (.str name) → False) :
    textAt value = [] := by
  cases value with
  | none => rfl
  | some value =>
    cases text : textOf value with
    | none => simp [textAt, text]
    | some name =>
      cases textOf_eq_some text
      exact (other name rfl).elim

theorem renamed_renameText (kind : RefKind) (key : String) (fields : Dict String Json) :
    Renamed rw (namesOf kind true (textAt (fields.get? key)))
      (namesOf kind true (textAt ((renameText key (rw.names kind) fields).get? key))) := by
  apply renamed_namesOf
  intro name'
  simp only [image_kept]
  unfold renameText
  split
  next name here =>
    rw [here]
    simp [textAt, textOf, eq_comm]
  next other =>
    rw [textAt_of_other other]
    simp

theorem get?_renameText_ne {key other : String} (ne : key ≠ other) (names : Renaming)
    (fields : Dict String Json) :
    (renameText key names fields).get? other = fields.get? other := by
  unfold renameText
  split
  · exact get?_set_ne ne fields _
  · rfl

end

/-! ## Tables by name -/

section

variable {names : Renaming} {table : Dict String Json} {key : String}

def firstMoved (names : Renaming) (table : Dict String Json) (key : String) : Option Json :=
  (table.find? fun entry => entry.1 ∉ names.drop ∧ names.map.get? entry.1 = some key).map (·.2)

def lastRenamed (names : Renaming) (table : Dict String Json) (key : String) : Option Json :=
  ((table.filter fun entry => entry.1 ∉ names.drop).reverse.find?
    fun entry => names.rename entry.1 = key).map (·.2)

theorem get?_moveKey (kept : Dict String Json) (entry : String × Json) (key : String) :
    (moveKey names kept entry).get? key = (kept.get? key).or
        (if entry.1 ∉ names.drop ∧ names.map.get? entry.1 = some key then some entry.2
          else none) := by
  unfold moveKey
  cases here : names.map.get? entry.1 with
  | none => simp
  | some new =>
    by_cases skipped : entry.1 ∈ names.drop ∨ new ∈ kept.keys
    · show (if entry.1 ∈ names.drop ∨ new ∈ kept.keys then kept else _).get? key = _
      rw [if_pos skipped]
      by_cases drop : entry.1 ∈ names.drop
      · simp [drop]
      · by_cases same : new = key
        · subst same
          obtain ⟨value, bound⟩ := Option.isSome_iff_exists.mp
            (mem_keys_iff.mp (skipped.resolve_left drop))
          simp [bound]
        · simp [same]
    · obtain ⟨drop, fresh⟩ := not_or.mp skipped
      show (if entry.1 ∈ names.drop ∨ new ∈ kept.keys then kept else _).get? key = _
      rw [if_neg skipped, get?_set]
      by_cases same : new = key
      · subst same
        simp [drop, get?_eq_none_iff.mpr fresh]
      · simp [same]

theorem get?_foldl_moveKey (entries : List (String × Json)) (kept : Dict String Json)
    (key : String) :
    (entries.foldl (moveKey names) kept).get? key =
      (kept.get? key).or (firstMoved names entries key) := by
  induction entries generalizing kept with
  | nil => simp [firstMoved]
  | cons entry rest ih =>
    rw [List.foldl_cons, ih, get?_moveKey]
    unfold firstMoved
    by_cases moved : entry.1 ∉ names.drop ∧ names.map.get? entry.1 = some key
    · simp [moved]
    · simp [moved]

/-- A name that stays keeps its value; any other has the first moved to it. -/
theorem get?_renameKeys (names : Renaming) (table : Dict String Json) (key : String) :
    (renameKeys names table).get? key =
      (if key ∉ names.drop ∧ key ∉ names.map.keys then table.get? key else none).or
        (firstMoved names table key) := by
  have stay := get?_filter_key table
    (fun key => decide (key ∉ names.drop ∧ key ∉ names.map.keys)) key
  simp only [decide_eq_true_eq] at stay
  unfold renameKeys
  rw [get?_foldl_moveKey]
  congr 1

theorem get?_renameOverrides (names : Renaming) (table : Dict String Json) (key : String) :
    (renameOverrides names table).get? key = lastRenamed names table key := by
  unfold renameOverrides lastRenamed
  rw [get?_foldl_set_last (fun entry => names.rename entry.1) Prod.snd, get?_nil, Option.or_none]

theorem rename_of_mapped {name new : String} (mapped : names.map.get? name = some new) :
    names.rename name = new := by
  rw [Renaming.rename, mapped]
  rfl

theorem rename_of_notMapped {name : String} (free : name ∉ names.map.keys) :
    names.rename name = name := by
  rw [Renaming.rename, get?_eq_none_iff.mpr free]
  rfl

/-- The keys of a renamed table are the images of its keys. -/
theorem mem_keys_renameKeys : key ∈ (renameKeys names table).keys ↔
      ∃ name ∈ table.keys, names.image false name = some key := by
  simp only [image_pruned]
  rw [mem_keys_iff, get?_renameKeys, Option.isSome_or, Bool.or_eq_true]
  constructor
  · rintro (stays | moved)
    · split at stays
      next free => exact ⟨key, mem_keys_iff.mpr stays, free.1, rename_of_notMapped free.2⟩
      next => cases stays
    · rw [firstMoved, Option.isSome_map, List.find?_isSome] at moved
      obtain ⟨entry, mem, here⟩ := moved
      obtain ⟨drop, mapped⟩ := of_decide_eq_true here
      exact ⟨entry.1, List.mem_map_of_mem mem, drop, rename_of_mapped mapped⟩
  · rintro ⟨name, mem, drop, rfl⟩
    cases mapped : names.map.get? name with
    | none =>
      have free := get?_eq_none_iff.mp mapped
      rw [rename_of_notMapped free, if_pos ⟨drop, free⟩]
      exact .inl (mem_keys_iff.mp mem)
    | some new =>
      right
      rw [rename_of_mapped mapped, firstMoved, Option.isSome_map, List.find?_isSome]
      obtain ⟨entry, here, rfl⟩ := List.mem_map.mp mem
      exact ⟨entry, here, decide_eq_true ⟨drop, mapped⟩⟩

theorem mem_keys_renameOverrides : key ∈ (renameOverrides names table).keys ↔
      ∃ name ∈ table.keys, names.image false name = some key := by
  simp only [image_pruned]
  rw [mem_keys_iff, get?_renameOverrides, lastRenamed, Option.isSome_map, List.find?_isSome]
  constructor
  · rintro ⟨entry, mem, here⟩
    obtain ⟨mem, drop⟩ := List.mem_filter.mp (List.mem_reverse.mp mem)
    exact ⟨entry.1, List.mem_map_of_mem mem, of_decide_eq_true drop, of_decide_eq_true here⟩
  · rintro ⟨name, mem, drop, renamed⟩
    obtain ⟨entry, here, rfl⟩ := List.mem_map.mp mem
    exact ⟨entry, List.mem_reverse.mpr (List.mem_filter.mpr ⟨here, decide_eq_true drop⟩),
      decide_eq_true renamed⟩

theorem renamed_keys {rw : Rewrite} (kind : RefKind)
    {change : Dict String Json → Dict String Json} (nil : change [] = [])
    (keys : ∀ table key, key ∈ (change table).keys ↔
      ∃ name ∈ Dict.keys table, (rw.names kind).image false name = some key)
    (value : Option Json) :
    Renamed rw (namesOf kind false (dictOf value).keys)
      (namesOf kind false (dictOf (value.map (onObject change))).keys) := by
  rw [dictOf_map nil]
  exact renamed_namesOf (keys (dictOf value))

end

/-! ## Rules -/

section

variable {rw : Rewrite} {rule : Dict String Json}

theorem exact_rename {pattern : String} (exact : isExactUrnPattern pattern = true) :
    isExactUrnPattern (rw.urns.rename pattern) = true := by
  cases mapped : rw.urns.map.get? pattern with
  | none => rwa [Renaming.rename, mapped]
  | some new =>
    rw [rename_of_mapped mapped]
    exact rw.urns_exact _ (mem_of_get? mapped)

variable {rule' : Dict String Json}

theorem patternNames_congr (same : rule'.get? "urnPattern" = rule.get? "urnPattern") :
    patternNames rule' = patternNames rule := by
  unfold patternNames
  rw [same]

theorem patternNames_of_none (none : rule.get? "urnPattern" = none) : patternNames rule = [] := by
  unfold patternNames
  rw [none]

theorem patternNames_of_exact {pattern : String}
    (here : rule.get? "urnPattern" = some (.str pattern))
    (exact : isExactUrnPattern pattern = true) :
    patternNames rule = namesOf .rule false [pattern] := by
  unfold patternNames
  rw [here]
  exact if_pos exact

theorem image_glob (pattern : String) : (rw.names .pattern).image false pattern = some pattern := by
  rw [image_pruned]
  exact ⟨List.not_mem_nil, rfl⟩

theorem renamed_pattern_same (other : ∀ pattern, rule.get? "urnPattern" = some (.str pattern) →
      isExactUrnPattern pattern = false) :
    Renamed rw (patternNames rule) (patternNames rule) := by
  unfold patternNames
  split
  next pattern here =>
    rw [if_neg (by simp [other pattern here])]
    split
    · exact renamed_one .pattern (image_glob pattern)
    · exact .nil
  next => exact .nil

theorem get?_mapInPlace (key other : String) (names : Renaming) (fields : Dict String Json) :
    (mapInPlace key names fields).get? other =
      if key = other then (fields.get? other).map (onItems (mapList names []))
      else fields.get? other :=
  get?_adjust key other _ fields

/-- The types of a rule, whatever became of its pattern. -/
theorem renamed_ruleTypes (same : rule'.get? "entityTypes" = rule.get? "entityTypes") :
    Renamed rw (namesOf .entityType false (textsIn (rule.get? "entityTypes")))
      (namesOf .entityType false
        (textsIn ((mapInPlace "entityTypes" rw.types rule').get? "entityTypes"))) := by
  rw [get?_mapInPlace, if_pos rfl, same]
  exact renamed_mapList .entityType _

theorem renamed_rule (pattern : Renamed rw (patternNames rule) (patternNames rule'))
    (same : rule'.get? "entityTypes" = rule.get? "entityTypes") :
    Renamed rw (ruleNames rule) (ruleNames (mapInPlace "entityTypes" rw.types rule')) := by
  have kept : patternNames (mapInPlace "entityTypes" rw.types rule') = patternNames rule' :=
    patternNames_congr (by rw [get?_mapInPlace, if_neg (by decide)])
  unfold ruleNames
  rw [kept]
  exact pattern.append (renamed_ruleTypes same)

theorem textsIn_of_falsy {value : Option Json} (falsy : value.any isTrue = false) :
    textsIn value = [] := by
  cases value with
  | none => rfl
  | some value =>
    cases value with
    | arr items =>
      have empty : items = [] := by simpa [isTrue] using falsy
      rw [empty]
      rfl
    | _ => rfl

theorem rewritePattern_cases (rw : Rewrite) (rule : Dict String Json) :
    (∃ pattern, rule.get? "urnPattern" = some (.str pattern) ∧
        isExactUrnPattern pattern = true ∧ pattern ∈ rw.urns.drop ∧
        rewritePattern rw rule = dropPattern rule) ∨
      (∃ pattern, rule.get? "urnPattern" = some (.str pattern) ∧
        isExactUrnPattern pattern = true ∧ pattern ∉ rw.urns.drop ∧
        rewritePattern rw rule = some (rule.set "urnPattern" (.str (rw.urns.rename pattern)))) ∨
      ((∀ pattern, rule.get? "urnPattern" = some (.str pattern) →
        isExactUrnPattern pattern = false) ∧ rewritePattern rw rule = some rule) := by
  unfold rewritePattern
  split
  next pattern here =>
    by_cases exact : isExactUrnPattern pattern
    · rw [if_pos exact]
      by_cases drop : pattern ∈ rw.urns.drop
      · exact .inl ⟨pattern, here, exact, drop, if_pos drop⟩
      · exact .inr (.inl ⟨pattern, here, exact, drop, if_neg drop⟩)
    · rw [if_neg exact]
      refine .inr (.inr ⟨fun other there => ?_, rfl⟩)
      cases here.symm.trans there
      exact eq_false_of_ne_true exact
  next other =>
    exact .inr (.inr ⟨fun pattern here => absurd here (other pattern), rfl⟩)

/-- A rule is renamed, or dropped with its last criterion. -/
theorem renamed_rewriteRule (rule : Dict String Json) :
    Renamed rw (ruleNames rule) ((rewriteRule rw rule).toList.flatMap ruleNames) := by
  unfold rewriteRule
  obtain ⟨pattern, here, exact, drop, same⟩ | ⟨pattern, here, exact, drop, same⟩ |
    ⟨other, same⟩ := rewritePattern_cases rw rule
  · have gone : Renamed rw (patternNames rule) [] := by
      rw [patternNames_of_exact here exact]
      exact renamed_gone .rule (image_dropped drop)
    rw [same, dropPattern]
    split
    · rw [Option.map_some, Option.toList_some, List.flatMap_singleton]
      apply renamed_rule
      · have popped : (rule.pop "urnPattern").get? "urnPattern" = none := by
          rw [get?_pop, if_pos rfl]
        rwa [patternNames_of_none popped]
      · rw [get?_pop, if_neg (by decide)]
    next none =>
      have types : (rule.get? "entityTypes").any isTrue = false := by
        rw [List.any_eq_true] at none
        exact eq_false_of_ne_true fun here => none ⟨"entityTypes", by decide, here⟩
      show Renamed rw (patternNames rule ++ namesOf .entityType false _) []
      rw [textsIn_of_falsy types]
      exact gone.append .nil
  · rw [same, Option.map_some, Option.toList_some, List.flatMap_singleton]
    apply renamed_rule
    · rw [patternNames_of_exact here exact, patternNames_of_exact
        (get?_set_self rule "urnPattern" _) (exact_rename exact)]
      exact renamed_one .rule (image_pruned.mpr ⟨drop, rfl⟩)
    · rw [get?_set_ne (by decide)]
  · rw [same, Option.map_some, Option.toList_some, List.flatMap_singleton]
    exact renamed_rule (renamed_pattern_same other) rfl

end

/-! ### Criteria -/

/-- A rule that has a criterion: one without matches every entity. -/
def hasCriterion (rule : Dict String Json) : Bool :=
  (rule.get? "urnPattern").any isTrue || ruleCriteria.any fun key => (rule.get? key).any isTrue

def allDropped (names : Renaming) : Option Json → Bool
  | some (.arr items) => !items.isEmpty && items.all fun item => (textOf item).any (· ∈ names.drop)
  | _ => false

/-- Whether a rule has a pattern that does not name a dropped entity. -/
def patternStays (rw : Rewrite) (rule : Dict String Json) : Bool :=
  match rule.get? "urnPattern" with
  | some (.scalar (.str pattern)) =>
    pattern ≠ "" && !(isExactUrnPattern pattern && pattern ∈ rw.urns.drop)
  | some pattern => isTrue pattern
  | none => false

/-- Whether a rule has a criterion that no rewrite changes. -/
def otherCriteria (rule : Dict String Json) : Bool :=
  ["tags", "propertyMatch", "conditions"].any fun key => (rule.get? key).any isTrue

/-- A rule whose types are all dropped, where nothing else is a criterion of it. -/
def losesCriterion (rw : Rewrite) (rule : Dict String Json) : Bool :=
  allDropped rw.types (rule.get? "entityTypes") && !patternStays rw rule && !otherCriteria rule

section

variable {rw : Rewrite} {names : Renaming} {rule : Dict String Json}

theorem mapList_eq_nil (items : List Json) :
    mapList names [] items = [] ↔ ∀ item ∈ items, (textOf item).any (· ∈ names.drop) = true := by
  induction items with
  | nil => simp [mapList]
  | cons item rest ih =>
    rw [List.forall_mem_cons]
    cases text : textOf item with
    | none =>
      rw [mapList_other text]
      simp
    | some name =>
      cases textOf_eq_some text
      rw [mapList_text]
      by_cases drop : name ∈ names.drop
      · rw [if_pos (.inl drop), ih]
        simp [drop]
      · simp [drop]

/-- A list that was no criterion is none when pruned; one that was stays one unless all of it is
dropped. -/
theorem isTrue_mapList (value : Option Json) : (value.map (onItems (mapList names []))).any isTrue =
      (value.any isTrue && !allDropped names value) := by
  cases value with
  | none => rfl
  | some value =>
    cases value with
    | arr items =>
      show (!(mapList names [] items).isEmpty) = (!items.isEmpty && !(!items.isEmpty && _))
      by_cases empty : items = []
      · subst empty
        rfl
      · have full : items.isEmpty = false := by simpa using empty
        rw [full, Bool.eq_iff_iff]
        simp [mapList_eq_nil]
    | _ => simp [onItems, allDropped]

theorem truthy_of_allDropped (names : Renaming) (value : Option Json)
    (all : allDropped names value = true) : value.any isTrue = true := by
  unfold allDropped at all
  split at all
  next items =>
    rw [Bool.and_eq_true] at all
    exact all.1
  next => cases all

theorem ruleCriteria_any (rule : Dict String Json) :
    (ruleCriteria.any fun key => (rule.get? key).any isTrue) =
      ((rule.get? "entityTypes").any isTrue || otherCriteria rule) := rfl

theorem hasCriterion_mapInPlace (names : Renaming) (rule : Dict String Json) :
    hasCriterion (mapInPlace "entityTypes" names rule) = ((rule.get? "urnPattern").any isTrue ||
        (((rule.get? "entityTypes").any isTrue && !allDropped names (rule.get? "entityTypes")) ||
          otherCriteria rule)) := by
  have others : otherCriteria (mapInPlace "entityTypes" names rule) = otherCriteria rule := by
    simp [otherCriteria, get?_mapInPlace]
  rw [hasCriterion, ruleCriteria_any, others, get?_mapInPlace, if_neg (by decide),
    get?_mapInPlace, if_pos rfl, isTrue_mapList]

variable {pattern : String}

theorem isTrue_of_exact (exact : isExactUrnPattern pattern = true) :
    isTrue (.str pattern) = true := by
  simp only [isExactUrnPattern, Bool.and_eq_true] at exact
  simpa [isTrue] using exact.1.1

theorem patternStays_of_dropped (here : rule.get? "urnPattern" = some (.str pattern))
    (exact : isExactUrnPattern pattern = true) (drop : pattern ∈ rw.urns.drop) :
    patternStays rw rule = false := by
  simp [patternStays, here, exact, drop]

theorem patternStays_of_kept (here : rule.get? "urnPattern" = some (.str pattern))
    (exact : isExactUrnPattern pattern = true) (drop : pattern ∉ rw.urns.drop) :
    patternStays rw rule = true := by
  have named : pattern ≠ "" := by
    simpa [isTrue] using isTrue_of_exact exact
  simp [patternStays, here, drop, named]

theorem patternStays_of_other (other : ∀ pattern, rule.get? "urnPattern" = some (.str pattern) →
      isExactUrnPattern pattern = false) :
    patternStays rw rule = (rule.get? "urnPattern").any isTrue := by
  unfold patternStays
  split
  next pattern here => simp [here, other pattern here, isTrue]
  next pattern _ here => rw [here, Option.any_some]
  next none => rw [none, Option.any_none]

/-- A rule that had a criterion is left with none exactly when its types are all dropped and
nothing else is one. -/
theorem hasCriterion_rewriteRule {rule' : Dict String Json}
    (stays : rewriteRule rw rule = some rule') (had : hasCriterion rule = true) :
    hasCriterion rule' = !losesCriterion rw rule := by
  obtain ⟨between, step, rfl⟩ := Option.map_eq_some_iff.mp stays
  have typed := truthy_of_allDropped rw.types (rule.get? "entityTypes")
  rw [hasCriterion_mapInPlace, losesCriterion]
  rw [hasCriterion, ruleCriteria_any] at had
  obtain ⟨pattern, here, exact, drop, same⟩ | ⟨pattern, here, exact, drop, same⟩ |
    ⟨other, same⟩ := rewritePattern_cases rw rule
  · -- the pattern goes, so another criterion was there
    rw [same, dropPattern, ruleCriteria_any] at step
    split at step
    next more =>
      cases step
      have others : otherCriteria (rule.pop "urnPattern") = otherCriteria rule := by
        simp [otherCriteria, get?_pop]
      rw [get?_pop, if_pos rfl, get?_pop, if_neg (by decide), others,
        patternStays_of_dropped here exact drop]
      revert more typed
      cases (rule.get? "entityTypes").any isTrue <;>
        cases allDropped rw.types (rule.get? "entityTypes") <;> simp
    next => cases step
  · -- the pattern stays a criterion
    cases same.symm.trans step
    rw [get?_set_self, Option.any_some, isTrue_of_exact (exact_rename exact), Bool.true_or,
      patternStays_of_kept here exact drop, Bool.not_true, Bool.and_false, Bool.false_and,
      Bool.not_false]
  · cases same.symm.trans step
    rw [patternStays_of_other other]
    revert had typed
    cases (rule.get? "urnPattern").any isTrue <;> cases (rule.get? "entityTypes").any isTrue <;>
        cases allDropped rw.types (rule.get? "entityTypes") <;> simp

end

/-! ## Layers -/

section

variable (rw : Rewrite)

theorem objectsIn_rewriteRules (rules : Json) : objectsIn (some (rewriteRules rw rules)) =
      (objectsIn (some rules)).filterMap (rewriteRule rw) := by
  cases rules with
  | arr items =>
    show (items.filterMap (rewriteRuleItem rw)).filterMap fieldsOf =
      (items.filterMap fieldsOf).filterMap (rewriteRule rw)
    rw [List.filterMap_filterMap, List.filterMap_filterMap]
    congr 1
    funext item
    cases item with
    | obj rule =>
      show ((rewriteRule rw rule).map .obj).bind fieldsOf = rewriteRule rw rule
      cases rewriteRule rw rule <;> rfl
    | _ => rfl
  | _ => rfl

mutual

/-- The rules of a logical node, at every depth, are the rewritten ones. -/
theorem nodeRules_rewrite : ∀ node,
    nodeRules (rewriteLogicalNode rw node) = (nodeRules node).filterMap (rewriteRule rw)
  | .obj fields => fieldRules_rewrite fields
  | .arr _ => rfl
  | .scalar _ => rfl

theorem nodesRules_rewrite : ∀ nodes,
    nodesRules (rewriteLogicalNodes rw nodes) = (nodesRules nodes).filterMap (rewriteRule rw)
  | [] => rfl
  | node :: rest => by
    rw [rewriteLogicalNodes, nodesRules, nodesRules, List.filterMap_append,
      nodeRules_rewrite node, nodesRules_rewrite rest]

theorem fieldRules_rewrite : ∀ fields,
    fieldRules (rewriteNodeFields rw fields) = (fieldRules fields).filterMap (rewriteRule rw)
  | [] => rfl
  | (key, .arr items) :: rest => by
    rw [fieldRules, List.filterMap_append, ← fieldRules_rewrite rest, rewriteNodeFields]
    by_cases rules : key = "rules"
    · rw [if_pos rules, if_pos rules, ← objectsIn_rewriteRules]
      show fieldRules ((key, .arr _) :: _) = _
      rw [fieldRules, if_pos rules]
      rfl
    · by_cases children : key = "children"
      · rw [if_neg rules, if_pos children, if_neg rules, if_pos children, fieldRules,
          if_neg rules, if_pos children, nodesRules_rewrite items]
      · rw [if_neg rules, if_neg children, if_neg rules, if_neg children, fieldRules,
          if_neg rules, if_neg children, List.filterMap_nil]
  | (key, .obj fields) :: rest => by
    show fieldRules ((key, if key = "rules" then _ else _) :: rewriteNodeFields rw rest) =
      (fieldRules rest).filterMap (rewriteRule rw)
    rw [← fieldRules_rewrite rest]
    by_cases rules : key = "rules"
    · subst rules
      rfl
    · rw [if_neg rules]
      rfl
  | (key, .scalar s) :: rest => by
    show fieldRules ((key, if key = "rules" then _ else _) :: rewriteNodeFields rw rest) =
      (fieldRules rest).filterMap (rewriteRule rw)
    rw [← fieldRules_rewrite rest]
    by_cases rules : key = "rules"
    · subst rules
      rfl
    · rw [if_neg rules]
      rfl

end

variable {rw}

theorem get?_rewriteAnchor_ne {key : String} (ne : "anchorUrn" ≠ key)
    (layer : Dict String Json) : (rewriteAnchor rw layer).get? key = layer.get? key := by
  unfold rewriteAnchor
  split
  · split
    · rfl
    · split
      · rw [get?_pop, if_neg ne]
      · rw [get?_set_ne ne]
  · rfl

/-- The rules of a layer are rewritten one by one. -/
theorem layerRules_rewriteLayer (layer : Dict String Json) :
    layerRules (rewriteLayer rw layer) = (layerRules layer).filterMap (rewriteRule rw) := by
  have rules : (rewriteLayer rw layer).get? "rules" =
      (layer.get? "rules").map (rewriteRules rw) := by
    simp [rewriteLayer, get?_adjust, get?_mapInPlace, get?_rewriteAnchor_ne]
  have nodes : (rewriteLayer rw layer).get? "logicalNodes" =
      (layer.get? "logicalNodes").map (onItems (rewriteLogicalNodes rw)) := by
    simp [rewriteLayer, get?_adjust, get?_mapInPlace, get?_rewriteAnchor_ne]
  have own : objectsIn ((layer.get? "rules").map (rewriteRules rw)) =
      (objectsIn (layer.get? "rules")).filterMap (rewriteRule rw) := by
    cases layer.get? "rules" with
    | none => rfl
    | some value => exact objectsIn_rewriteRules rw value
  have below : nodesRules (listOf ((layer.get? "logicalNodes").map
        (onItems (rewriteLogicalNodes rw)))) =
      (nodesRules (listOf (layer.get? "logicalNodes"))).filterMap (rewriteRule rw) := by
    cases layer.get? "logicalNodes" with
    | none => rfl
    | some value =>
      cases value with
      | arr items => exact nodesRules_rewrite rw items
      | _ => rfl
  rw [layerRules, rules, nodes, own, below, ← List.filterMap_append, layerRules]

theorem rename_ne_blank {names : Renaming} {name : String}
    (named : ∀ entry ∈ names.map, entry.2 ≠ "") (ne : name ≠ "") : names.rename name ≠ "" := by
  cases mapped : names.map.get? name with
  | none => rwa [Renaming.rename, mapped]
  | some new =>
    rw [rename_of_mapped mapped]
    exact named _ (mem_of_get? mapped)

theorem filter_textAt {name : String} (ne : name ≠ "") :
    (textAt (some (.str name))).filter (· ≠ "") = [name] :=
  List.filter_cons_of_pos (decide_eq_true ne)

theorem ne_blank_of_exact {pattern : String} (exact : isExactUrnPattern pattern = true) :
    pattern ≠ "" := by
  simpa [isTrue] using isTrue_of_exact exact

theorem renamed_rewriteAnchor (layer : Dict String Json) :
    Renamed rw (namesOf .anchor false ((textAt (layer.get? "anchorUrn")).filter (· ≠ "")))
      (namesOf .anchor false
        ((textAt ((rewriteAnchor rw layer).get? "anchorUrn")).filter (· ≠ ""))) := by
  unfold rewriteAnchor
  split
  next anchor here =>
    by_cases blank : anchor = ""
    · rw [if_pos blank, here, blank]
      exact .nil
    · rw [if_neg blank, here, filter_textAt blank]
      by_cases drop : anchor ∈ rw.urns.drop
      · rw [if_pos drop, get?_pop]
        exact renamed_gone .anchor (image_dropped drop)
      · have named := rename_ne_blank
          (fun entry mem => ne_blank_of_exact (rw.urns_exact entry mem)) blank
        rw [if_neg drop, get?_set_self, filter_textAt named]
        exact renamed_one .anchor (image_pruned.mpr ⟨drop, rfl⟩)
  next other =>
    rw [textAt_of_other other]
    exact .nil

theorem renamed_place (kind : RefKind) {key : String} {before after : Dict String Json}
    (same : after.get? key = (before.get? key).map (onItems (mapList (rw.names kind) []))) :
    Renamed rw (namesOf kind false (textsIn (before.get? key)))
      (namesOf kind false (textsIn (after.get? key))) := by
  rw [same]
  exact renamed_mapList kind _

theorem renamed_rewriteScope (scope : Dict String Json) :
    Renamed rw (scopeNames scope) (scopeNames (rewriteScope rw scope)) :=
  (renamed_place .relationshipType (by simp [rewriteScope, get?_mapInPlace]; rfl)).append
    (renamed_place .relationshipType (by simp [rewriteScope, get?_mapInPlace]; rfl))

/-- A layer is renamed: its anchor, its types and its rules. -/
theorem renamed_rewriteLayer (layer : Dict String Json) :
    Renamed rw (layerNames layer) (layerNames (rewriteLayer rw layer)) := by
  have anchor : (rewriteLayer rw layer).get? "anchorUrn" =
      (rewriteAnchor rw layer).get? "anchorUrn" := by
    simp [rewriteLayer, get?_adjust, get?_mapInPlace]
  have types : (rewriteLayer rw layer).get? "entityTypes" =
      (layer.get? "entityTypes").map (onItems (mapList (rw.names .entityType) [])) := by
    simp [rewriteLayer, get?_adjust, get?_mapInPlace, get?_rewriteAnchor_ne]
    rfl
  have scope : (rewriteLayer rw layer).get? "scopeEdges" =
      (layer.get? "scopeEdges").map (onObject (rewriteScope rw)) := by
    simp [rewriteLayer, get?_adjust, get?_mapInPlace, get?_rewriteAnchor_ne]
  unfold layerNames
  rw [layerRules_rewriteLayer, anchor, scope]
  apply Renamed.append
  · apply Renamed.append
    · exact (renamed_rewriteAnchor layer).append (renamed_place .entityType types)
    · exact renamed_dictOf rfl renamed_rewriteScope _
  · exact Renamed.filterMap renamed_rewriteRule _

end

/-! ## Conditions -/

section

variable (rw : Rewrite)

theorem isNested_rewritePredicate (key : String) (value : Json) :
    isNested key (rewritePredicate rw value) = isNested key value := by
  cases value <;> rfl

theorem isNested_onItems (change : List Json → List Json) (key : String) (value : Json) :
    isNested key (onItems change value) = isNested key value := by
  cases value <;> rfl

theorem isNested_mapPredicateList (names : Renaming) (key : String) (value : Json) :
    isNested key (mapPredicateList names value) = isNested key value := by
  unfold mapPredicateList
  split
  · rfl
  · exact isNested_onItems _ key value

theorem isNested_rewriteField (typeTest : Bool) (key : String) (value : Json) :
    isNested key (rewriteField rw typeTest key value) = isNested key value := by
  unfold rewriteField
  split
  · exact isNested_mapPredicateList _ key value
  · split
    · exact isNested_onItems _ key value
    · split
      · split
        · exact isNested_mapPredicateList _ key value
        · rfl
      · split
        · exact isNested_mapPredicateList _ key value
        · rfl

/-- A predicate keeps its keys, each value rewritten by what it means. -/
theorem get?_rewritePredicateFields (typeTest : Bool) (fields : List (String × Json))
    (key : String) :
    Dict.get? (rewritePredicateFields rw typeTest fields) key =
      (Dict.get? fields key).map fun value =>
        if isNested key value then rewritePredicate rw value
        else rewriteField rw typeTest key value := by
  induction fields with
  | nil => rfl
  | cons field rest ih =>
    obtain ⟨name, value⟩ := field
    rw [rewritePredicateFields, get?_cons, get?_cons, ih]
    by_cases same : name = key
    · subst same
      rw [if_pos rfl, if_pos rfl, Option.map_some]
    · rw [if_neg same, if_neg same]

theorem isNested_of_plain {key : String} (plain : key ≠ "children" ∧ key ∉ predicateNestedKeys)
    (value : Json) : isNested key value = false := by
  cases value with
  | arr items => exact decide_eq_false plain.1
  | obj fields => exact decide_eq_false plain.2
  | scalar s => rfl

section

variable {rw} {key : String}

theorem get?_plain (plain : key ≠ "children" ∧ key ∉ predicateNestedKeys) (typeTest : Bool)
    (fields : List (String × Json)) : Dict.get? (rewritePredicateFields rw typeTest fields) key =
      (Dict.get? fields key).map (rewriteField rw typeTest key) := by
  rw [get?_rewritePredicateFields]
  congr 1
  funext value
  rw [isNested_of_plain plain, if_neg Bool.false_ne_true]

theorem get?_urns (mem : key ∈ predicateUrnKeys) (typeTest : Bool) (fields : List (String × Json)) :
    Dict.get? (rewritePredicateFields rw typeTest fields) key =
      (Dict.get? fields key).map (mapPredicateList rw.urns) := by
  have plain : ∀ key ∈ predicateUrnKeys, key ≠ "children" ∧ key ∉ predicateNestedKeys := by
    decide
  rw [get?_plain (plain key mem)]
  congr 1
  funext value
  exact if_pos mem

theorem get?_refs (mem : key ∈ predicateRefKeys) (typeTest : Bool) (fields : List (String × Json)) :
    Dict.get? (rewritePredicateFields rw typeTest fields) key =
      (Dict.get? fields key).map (onItems (·.map (onObject (rewriteRef rw)))) := by
  have plain : ∀ key ∈ predicateRefKeys,
      (key ≠ "children" ∧ key ∉ predicateNestedKeys) ∧ key ∉ predicateUrnKeys := by
    decide
  obtain ⟨nested, urns⟩ := plain key mem
  rw [get?_plain nested]
  congr 1
  funext value
  rw [rewriteField, if_neg urns, if_pos mem]

theorem get?_values (typeTest : Bool) (fields : List (String × Json)) :
    Dict.get? (rewritePredicateFields rw typeTest fields) "values" =
      (Dict.get? fields "values").map fun value =>
        if typeTest then mapPredicateList rw.types value else value := by
  rw [get?_plain (by decide)]
  congr 1

theorem get?_edgeTypes (mem : key ∈ predicateEdgeTypeKeys) (typeTest : Bool)
    (fields : List (String × Json)) :
    Dict.get? (rewritePredicateFields rw typeTest fields) key =
      (Dict.get? fields key).map (mapPredicateList rw.relTypes) := by
  have plain : ∀ key ∈ predicateEdgeTypeKeys,
      (key ≠ "children" ∧ key ∉ predicateNestedKeys) ∧ key ∉ predicateUrnKeys ∧
        key ∉ predicateRefKeys ∧ key ≠ "values" := by
    decide
  obtain ⟨nested, urns, refs, values⟩ := plain key mem
  rw [get?_plain nested]
  congr 1
  funext value
  rw [rewriteField, if_neg urns, if_neg refs, if_neg values, if_pos mem]

theorem isTypeTest_rewrite (typeTest : Bool) (fields : List (String × Json)) :
    isTypeTest (rewritePredicateFields rw typeTest fields) = isTypeTest fields := by
  have same (value : Json) : rewriteField rw typeTest "kind" value = value := rfl
  unfold isTypeTest
  rw [get?_plain (by decide)]
  congr 2
  cases Dict.get? fields "kind" with
  | none => rfl
  | some value => exact congrArg some (same value)

theorem Renamed.keys {keys : List String} {before after : String → List Reference}
    (each : ∀ key ∈ keys, Renamed rw (before key) (after key)) :
    Renamed rw (keys.flatMap before) (keys.flatMap after) := by
  induction keys with
  | nil => exact .nil
  | cons key rest ih =>
    exact (each key List.mem_cons_self).append
      (ih fun other mem => each other (List.mem_cons_of_mem key mem))

theorem renamed_rewriteRef (ref : Dict String Json) :
    Renamed rw (refNames ref) (refNames (rewriteRef rw ref)) := by
  unfold refNames rewriteRef
  apply Renamed.append
  · rw [get?_renameText_ne (by decide)]
    exact renamed_renameText .predicate "urn" ref
  · rw [← get?_renameText_ne (show "urn" ≠ "entityType" by decide) rw.urns ref]
    exact renamed_renameText .entityType "entityType" _

/-- One node of a predicate is renamed. -/
theorem renamed_node (fields : Dict String Json) : Renamed rw (predicateNodeNames fields)
      (predicateNodeNames (rewritePredicateFields rw (isTypeTest fields) fields)) := by
  apply Renamed.append
  · apply Renamed.append
    · apply Renamed.append
      · apply Renamed.keys
        intro key mem
        rw [get?_urns mem]
        exact renamed_mapPredicateList .predicate _
      · unfold predicateRefs
        rw [List.flatMap_assoc, List.flatMap_assoc]
        apply Renamed.keys
        intro key mem
        rw [get?_refs mem, objectsIn_onItems]
        exact Renamed.flatMap renamed_rewriteRef _
    · rw [isTypeTest_rewrite, get?_values]
      split
      · exact renamed_mapPredicateList .entityType _
      · exact .nil
  · apply Renamed.keys
    intro key mem
    rw [get?_edgeTypes mem]
    exact renamed_mapPredicateList .relationshipType _

end

mutual

/-- A predicate is renamed at every depth. -/
theorem renamed_predicate : ∀ predicate,
    Renamed rw (predicateNames predicate) (predicateNames (rewritePredicate rw predicate))
  | .obj fields => (renamed_node fields).append (renamed_nested (isTypeTest fields) fields)
  | .arr items => renamed_items items
  | .scalar _ => .nil

theorem renamed_items : ∀ items, Renamed rw ((itemNodes items).flatMap predicateNodeNames)
      ((itemNodes (rewritePredicates rw items)).flatMap predicateNodeNames)
  | [] => .nil
  | item :: rest => by
    rw [rewritePredicates, itemNodes, itemNodes, List.flatMap_append, List.flatMap_append]
    exact (renamed_predicate item).append (renamed_items rest)

theorem renamed_nested : ∀ (typeTest : Bool) (fields : List (String × Json)),
    Renamed rw ((nestedNodes fields).flatMap predicateNodeNames)
      ((nestedNodes (rewritePredicateFields rw typeTest fields)).flatMap predicateNodeNames)
  | _, [] => .nil
  | typeTest, (key, value) :: rest => by
    rw [rewritePredicateFields, nestedNodes, nestedNodes, List.flatMap_append, List.flatMap_append]
    apply Renamed.append _ (renamed_nested typeTest rest)
    by_cases nested : isNested key value
    · rw [if_pos nested, if_pos nested, if_pos (by rwa [isNested_rewritePredicate])]
      exact renamed_predicate value
    · rw [if_neg nested, if_neg nested, if_neg (by rwa [isNested_rewriteField])]
      exact .nil

end

end

/-! ## Definitions -/

def assignmentsOf (definition : Dict String Json) : Dict String Json :=
  dictOf ((referenceLayout definition).get? "assignments")

def overridesOf (definition : Dict String Json) : Dict String Json :=
  dictOf ((dictOf (definition.get? "membership")).get? "overrides")

def entityOverridesOf (definition : Dict String Json) : Dict String Json :=
  dictOf (definition.get? "entityOverrides")

section

variable {rw : Rewrite}

/-- A condition, if there is one. -/
theorem renamed_query (value : Option Json) : Renamed rw (value.toList.flatMap predicateNames)
      ((value.map (rewritePredicate rw)).toList.flatMap predicateNames) := by
  cases value with
  | none => exact .nil
  | some predicate =>
    rw [Option.map_some, Option.toList_some, Option.toList_some, List.flatMap_singleton,
      List.flatMap_singleton]
    exact renamed_predicate rw predicate

theorem displayPredicates_flatMap (layout : Dict String Json) :
    (displayPredicates layout).flatMap predicateNames =
      (objectsIn (layout.get? "displayRules")).flatMap fun rule =>
        (rule.get? "predicate").toList.flatMap predicateNames := by
  rw [displayPredicates, List.filterMap_eq_flatMap_toList, List.flatMap_assoc]

theorem get?_rewriteReferenceLayout (rw : Rewrite) (layout : Dict String Json) :
    (rewriteReferenceLayout rw layout).get? "assignments" =
        (layout.get? "assignments").map (onObject (renameKeys rw.urns)) ∧
      (rewriteReferenceLayout rw layout).get? "layers" =
        (layout.get? "layers").map (onItems (·.map (onObject (rewriteLayer rw)))) ∧
      (rewriteReferenceLayout rw layout).get? "displayRules" = (layout.get? "displayRules").map
          (onItems (·.map (onObject (adjust "predicate" (rewritePredicate rw))))) := by
  simp [rewriteReferenceLayout, get?_adjust]

theorem renamed_rewriteReferenceLayout (layout : Dict String Json) :
    Renamed rw (referenceLayoutNames layout)
      (referenceLayoutNames (rewriteReferenceLayout rw layout)) := by
  obtain ⟨assignments, layers, display⟩ := get?_rewriteReferenceLayout rw layout
  unfold referenceLayoutNames
  rw [displayPredicates_flatMap, displayPredicates_flatMap, assignments, layers, display,
    objectsIn_onItems, objectsIn_onItems]
  apply Renamed.append
  · apply Renamed.append
    · exact renamed_keys .assignment rfl (fun _ _ => mem_keys_renameKeys) _
    · exact Renamed.flatMap renamed_rewriteLayer _
  · apply Renamed.flatMap
    intro rule
    rw [get?_adjust_self]
    exact renamed_query _

theorem renamed_level (level : Dict String Json) : Renamed rw (levelNames level)
      (levelNames (mapInPlace "visibleEntityTypes" rw.types level)) :=
  renamed_place .entityType get?_adjust_self

theorem renamed_rewriteGranularity (projection : Dict String Json) : Renamed rw
      (namesOf .entityType false
        ((textAt (projection.get? "targetGranularityType")).filter (· ≠ "")))
      (namesOf .entityType false
        ((textAt ((rewriteGranularity rw projection).get? "targetGranularityType")).filter
          (· ≠ ""))) := by
  unfold rewriteGranularity
  split
  next type here =>
    by_cases blank : type = ""
    · rw [if_pos blank, here, blank]
      exact .nil
    · rw [if_neg blank, here, filter_textAt blank, get?_set_self]
      by_cases drop : type ∈ rw.types.drop
      · rw [if_pos drop]
        exact renamed_gone .entityType (image_dropped drop)
      · rw [if_neg drop, filter_textAt (rename_ne_blank rw.types_named blank)]
        exact renamed_one .entityType (image_pruned.mpr ⟨drop, rfl⟩)
  next other =>
    rw [textAt_of_other other]
    exact .nil

theorem get?_rewriteGranularity_ne {key : String} (ne : "targetGranularityType" ≠ key)
    (projection : Dict String Json) :
    (rewriteGranularity rw projection).get? key = projection.get? key := by
  unfold rewriteGranularity
  split
  · split
    · rfl
    · rw [get?_set_ne ne]
  · rfl

theorem renamed_rewriteProjection (projection : Dict String Json) :
    Renamed rw (projectionNames projection)
      (projectionNames (rewriteProjection rw projection)) := by
  have granularity : (rewriteProjection rw projection).get? "targetGranularityType" =
      (rewriteGranularity rw projection).get? "targetGranularityType" := by
    simp [rewriteProjection, get?_mapInPlace]
  unfold projectionNames
  rw [granularity]
  apply Renamed.append
  · apply (renamed_rewriteGranularity projection).append
    apply renamed_place .entityType
    simp [rewriteProjection, get?_mapInPlace, get?_rewriteGranularity_ne]
    rfl
  · apply renamed_place .relationshipType
    simp [rewriteProjection, get?_mapInPlace, get?_rewriteGranularity_ne]
    rfl

theorem get?_rewriteLayout (rw : Rewrite) (layout : Dict String Json) :
    (rewriteLayout rw layout).get? "referenceLayout" =
        (layout.get? "referenceLayout").map (onObject (rewriteReferenceLayout rw)) ∧
      (rewriteLayout rw layout).get? "lod" = (layout.get? "lod").map (onObject (rewriteLod rw)) ∧
      (rewriteLayout rw layout).get? "projection" =
        (layout.get? "projection").map (onObject (rewriteProjection rw)) := by
  simp [rewriteLayout, get?_adjust]

theorem renamed_rewriteLayout (layout : Dict String Json) :
    Renamed rw (layoutNames layout) (layoutNames (rewriteLayout rw layout)) := by
  obtain ⟨reference, lod, projection⟩ := get?_rewriteLayout rw layout
  unfold layoutNames
  rw [reference, lod, projection]
  apply Renamed.append
  · apply Renamed.append
    · exact renamed_dictOf rfl renamed_rewriteReferenceLayout _
    · rw [dictOf_map rfl, rewriteLod, get?_adjust_self, objectsIn_onItems]
      exact Renamed.flatMap renamed_level _
  · exact renamed_dictOf rfl renamed_rewriteProjection _

theorem renamed_rewriteContent (content : Dict String Json) :
    Renamed rw (contentNames content) (contentNames (rewriteContent rw content)) := by
  have place (kind : RefKind) {key : String} (mine : (rewriteContent rw content).get? key =
      (content.get? key).map (onItems (mapList (rw.names kind) []))) := renamed_place kind mine
  apply Renamed.append
  · apply Renamed.append
    · apply Renamed.append
      · exact place .root (by simp [rewriteContent, get?_mapInPlace]; rfl)
      · exact place .entityType (by simp [rewriteContent, get?_mapInPlace]; rfl)
    · exact place .entityType (by simp [rewriteContent, get?_mapInPlace]; rfl)
  · exact place .relationshipType (by simp [rewriteContent, get?_mapInPlace]; rfl)

theorem seedsOf_rewriteSource (source : Dict String Json) :
    seedsOf (rewriteSource rw source) = rewriteSeeds rw (seedsOf source) := by
  unfold seedsOf rewriteSource
  rw [get?_adjust_self, dictOf_map rfl, get?_adjust_self, dictOf_map rfl]

theorem renamed_rewriteSource (source : Dict String Json) :
    Renamed rw (sourceNames source) (sourceNames (rewriteSource rw source)) := by
  have urns (seeds : Dict String Json) : (rewriteSeeds rw seeds).get? "urns" =
      (seeds.get? "urns").map (mapPredicateList rw.urns) := by
    simp [rewriteSeeds, get?_adjust]
  have query (seeds : Dict String Json) : (rewriteSeeds rw seeds).get? "query" =
      (seeds.get? "query").map (rewritePredicate rw) := by
    simp [rewriteSeeds, get?_adjust]
  unfold sourceNames
  rw [seedsOf_rewriteSource, urns, query]
  exact (renamed_mapPredicateList .membership _).append (renamed_query _)

theorem get?_rewriteMembership (rw : Rewrite) (membership : Dict String Json) :
    (rewriteMembership rw membership).get? "sources" =
        (membership.get? "sources").map (onItems (·.map (onObject (rewriteSource rw)))) ∧
      (rewriteMembership rw membership).get? "exclude" =
        (membership.get? "exclude").map (onItems (mapList rw.urns [])) ∧
      (rewriteMembership rw membership).get? "overrides" =
        (membership.get? "overrides").map (onObject (renameOverrides rw.urns)) := by
  simp [rewriteMembership, get?_adjust, get?_mapInPlace]

theorem renamed_rewriteMembership (membership : Dict String Json) :
    Renamed rw (membershipNames membership)
      (membershipNames (rewriteMembership rw membership)) := by
  obtain ⟨sources, exclude, overrides⟩ :=
    get?_rewriteMembership rw membership
  unfold membershipNames
  rw [sources, overrides, objectsIn_onItems]
  apply Renamed.append
  · exact (Renamed.flatMap renamed_rewriteSource _).append (renamed_place .membership exclude)
  · exact renamed_keys .membership rfl (fun _ _ => mem_keys_renameOverrides) _

section

variable (rw) (definition : Dict String Json)

theorem get?_rewritePlaces : (rewritePlaces rw definition).get? "layout" =
        (definition.get? "layout").map (onObject (rewriteLayout rw)) ∧
      (rewritePlaces rw definition).get? "content" =
        (definition.get? "content").map (onObject (rewriteContent rw)) ∧
      (rewritePlaces rw definition).get? "filters" = (definition.get? "filters").map
        (onObject (mapInPlace "entityTypeFilters" rw.types)) ∧
      (rewritePlaces rw definition).get? "entityOverrides" =
        (definition.get? "entityOverrides").map (onObject (renameKeys rw.types)) ∧
      (rewritePlaces rw definition).get? "membership" =
        (definition.get? "membership").map (onObject (rewriteMembership rw)) ∧
      (rewritePlaces rw definition).get? "search" = (definition.get? "search").map
        (onObject (adjust "predicate" (rewritePredicate rw))) := by
  simp [rewritePlaces, get?_adjust]

/-- What a definition names, blank texts among it. -/
theorem renamed_rewritePlaces :
    Renamed rw (placedNames definition) (placedNames (rewritePlaces rw definition)) := by
  obtain ⟨layout, content, filters, overrides, membership, search⟩ :=
    get?_rewritePlaces rw definition
  unfold placedNames
  rw [layout, content, filters, overrides, membership, search]
  apply Renamed.append
  · apply Renamed.append
    · apply Renamed.append
      · apply Renamed.append
        · apply Renamed.append
          · exact renamed_dictOf rfl renamed_rewriteLayout _
          · exact renamed_dictOf rfl renamed_rewriteContent _
        · rw [dictOf_map rfl]
          exact renamed_place .entityType get?_adjust_self
      · exact renamed_keys .entityType rfl (fun _ _ => mem_keys_renameKeys) _
    · exact renamed_dictOf rfl renamed_rewriteMembership _
  · unfold searchNames
    rw [dictOf_map rfl, get?_adjust_self]
    exact renamed_query _

theorem referenceLayout_rewritePlaces : referenceLayout (rewritePlaces rw definition) =
      rewriteReferenceLayout rw (referenceLayout definition) := by
  unfold referenceLayout
  rw [(get?_rewritePlaces rw definition).1, dictOf_map rfl, (get?_rewriteLayout rw _).1,
    dictOf_map rfl]

/-- The rules of a definition are rewritten one by one. -/
theorem eachRule_rewritePlaces : eachRule (rewritePlaces rw definition) =
      (eachRule definition).filterMap (rewriteRule rw) := by
  have layers : layersOf (rewritePlaces rw definition) =
      (layersOf definition).map (rewriteLayer rw) := by
    unfold layersOf
    rw [referenceLayout_rewritePlaces, (get?_rewriteReferenceLayout rw _).2.1, objectsIn_onItems]
  unfold eachRule
  rw [layers, List.flatMap_map, List.filterMap_flatMap]
  congr 1
  funext layer
  exact layerRules_rewriteLayer layer

theorem assignmentsOf_rewritePlaces : assignmentsOf (rewritePlaces rw definition) =
      renameKeys rw.urns (assignmentsOf definition) := by
  unfold assignmentsOf
  rw [referenceLayout_rewritePlaces, (get?_rewriteReferenceLayout rw _).1, dictOf_map rfl]

theorem overridesOf_rewritePlaces : overridesOf (rewritePlaces rw definition) =
      renameOverrides rw.urns (overridesOf definition) := by
  obtain ⟨-, -, -, -, membership, -⟩ := get?_rewritePlaces rw definition
  unfold overridesOf
  rw [membership, dictOf_map rfl, (get?_rewriteMembership rw _).2.2, dictOf_map rfl]

theorem entityOverridesOf_rewritePlaces : entityOverridesOf (rewritePlaces rw definition) =
      renameKeys rw.types (entityOverridesOf definition) := by
  obtain ⟨-, -, -, overrides, -, -⟩ := get?_rewritePlaces rw definition
  unfold entityOverridesOf
  rw [overrides, dictOf_map rfl]

end

end

end DataViz.View
