/-
# Rebasing loses no update

Values are equal when they are one thing in a file (`sameness`), so comparing is an equivalence, and
a key is decided by three of them: what was exported, what is there and what the row gives. A row
that is applied writes no key that was changed since its export, but for tags, whose additions and
removals are taken from both sides. Where tags cannot be taken as sets, or the new ones not be
sorted, the row raises and is not applied.
-/

import DataViz.Transfer.Rebase
import DataViz.Versioning.PropertyPatchLaws

namespace DataViz.Transfer

open List Option Dict

open Json Versioning

variable {rebased : Payload × List String} {changed : Payload}

/-- What a comparison sees of a value: nothing of null, of a scalar its text. -/
def sameness : Json → Option (Text ⊕ Json)
  | .scalar value => if value = .null then none else some (.inl (strip (scalarText value)))
  | value => some (.inr (canonBy Scalar.numeric value))

theorem scalarEq_iff {a b : Json} : scalarEq a b = true ↔ sameness a = sameness b := by
  cases a with
  | scalar a =>
    cases b with
    | scalar b =>
      rw [scalarEq, sameness, sameness]
      by_cases nullA : a = .null <;> by_cases nullB : b = .null <;>
        simp [nullA, nullB, eq_comm]
    | arr items =>
      by_cases null : a = .null <;> simp [scalarEq, sameness, null, EqBy, canonBy]
    | obj fields =>
      by_cases null : a = .null <;> simp [scalarEq, sameness, null, EqBy, canonBy]
  | arr items =>
    cases b with
    | scalar b => by_cases null : b = .null <;> simp [scalarEq, sameness, null, EqBy, canonBy]
    | arr others => simp [scalarEq, sameness, EqBy]
    | obj fields => simp [scalarEq, sameness, EqBy, canonBy]
  | obj fields =>
    cases b with
    | scalar b => by_cases null : b = .null <;> simp [scalarEq, sameness, null, EqBy, canonBy]
    | arr items => simp [scalarEq, sameness, EqBy, canonBy]
    | obj others => simp [scalarEq, sameness, EqBy]

theorem same_iff {a b : Option Json} : same a b = true ↔ a.map sameness = b.map sameness := by
  cases a with
  | none => cases b <;> simp [same]
  | some a =>
    cases b with
    | none => simp [same]
    | some b => simp [same, scalarEq_iff]

section

variable {exported untouched alike : Bool}

theorem verdict_eq_stands : verdict exported untouched alike = .stands ↔ exported = true := by
  cases exported <;> cases untouched <;> cases alike <;> decide

theorem verdict_eq_goes : verdict exported untouched alike = .goes ↔
      exported = false ∧ (untouched = true ∨ alike = true) := by
  cases exported <;> cases untouched <;> cases alike <;> decide

theorem verdict_eq_clashes : verdict exported untouched alike = .clashes ↔
      exported = false ∧ untouched = false ∧ alike = false := by
  cases exported <;> cases untouched <;> cases alike <;> decide

end

section

variable {tags first second : List Scalar} {tag : Scalar}

theorem has_iff : has tags tag = true ↔ ∃ other ∈ tags, other.numeric = tag.numeric := by
  simp [has]

theorem has_of_mem (mem : tag ∈ tags) : has tags tag = true :=
  has_iff.mpr ⟨tag, mem, rfl⟩

theorem has_congr {other : Scalar} (same : other.numeric = tag.numeric) :
    has tags other = has tags tag := by
  rw [has, has, same]

theorem sameTags_iff : sameTags first second = true ↔ ∀ tag, has first tag = has second tag := by
  simp only [sameTags, Bool.and_eq_true, List.all_eq_true]
  constructor
  · rintro ⟨one, two⟩ tag
    rw [Bool.eq_iff_iff, has_iff, has_iff]
    constructor
    · rintro ⟨other, mem, same⟩
      obtain ⟨there, mem', same'⟩ := has_iff.mp (one other mem)
      exact ⟨there, mem', same'.trans same⟩
    · rintro ⟨other, mem, same⟩
      obtain ⟨there, mem', same'⟩ := has_iff.mp (two other mem)
      exact ⟨there, mem', same'.trans same⟩
  · intro both
    exact ⟨fun tag mem => both tag ▸ has_of_mem mem, fun tag mem => both tag ▸ has_of_mem mem⟩

theorem has_append : has (first ++ second) tag = (has first tag || has second tag) := by
  simp [has]

/-- A set with the tags that pass a test, where the test sees a tag as a set does. -/
theorem has_filter {keep : Scalar → Bool}
    (sees : ∀ tag other : Scalar, other.numeric = tag.numeric → keep other = keep tag) :
    has (tags.filter keep) tag = (has tags tag && keep tag) := by
  rw [Bool.eq_iff_iff, Bool.and_eq_true, has_iff, has_iff]
  constructor
  · rintro ⟨other, mem, same⟩
    obtain ⟨there, kept⟩ := mem_filter.mp mem
    exact ⟨⟨other, there, same⟩, sees tag other same ▸ kept⟩
  · rintro ⟨⟨other, mem, same⟩, kept⟩
    exact ⟨other, mem_filter.mpr ⟨mem, sees tag other same ▸ kept⟩, same⟩

theorem has_distinctTags : has (distinctTags tags) tag = has tags tag := by
  induction tags with
  | nil => rfl
  | cons other rest ih =>
    have sees : ∀ tag' other' : Scalar, other'.numeric = tag'.numeric →
        decide (other'.numeric ≠ other.numeric) = decide (tag'.numeric ≠ other.numeric) :=
      fun _ _ same => by rw [same]
    have cons : ∀ others, has (other :: others) tag =
        (decide (other.numeric = tag.numeric) || has others tag) := fun _ => rfl
    rw [distinctTags, cons, cons, has_filter sees, ih]
    by_cases same : other.numeric = tag.numeric
    · simp [same]
    · simp [same, Ne.symm same]

/-- Whether `sorted` compares no two tags of different kinds. -/
def Sortable (tags : List Scalar) : Prop :=
  tags.all isText ∨ tags.all isNumber ∨ tags.length ≤ 1

theorem sortedTags_returns_iff : (∃ sorted, sortedTags tags = .ok sorted) ↔ Sortable tags := by
  unfold sortedTags Sortable
  split
  · next texts => exact iff_of_true ⟨_, rfl⟩ (.inl texts)
  · next texts =>
      split
      · next numbers => exact iff_of_true ⟨_, rfl⟩ (.inr (.inl numbers))
      · next numbers =>
          split
          · next short => exact iff_of_true ⟨_, rfl⟩ (.inr (.inr short))
          · next long =>
              refine iff_of_false (fun ⟨_, absurd⟩ => nomatch absurd) ?_
              rintro (one | two | three)
              · exact texts one
              · exact numbers two
              · exact long three

theorem has_sortedTags {sorted : List Scalar} (returned : sortedTags tags = .ok sorted) :
    has sorted tag = has tags tag := by
  have perm : sorted.Perm tags := by
    unfold sortedTags at returned
    split at returned
    · cases returned
      exact perm_insertionSort _ _
    · split at returned
      · cases returned
        exact perm_insertionSort _ _
      · split at returned
        · cases returned
          exact Perm.refl _
        · cases returned
  rw [Bool.eq_iff_iff, has_iff, has_iff]
  simp only [perm.mem_iff]

theorem tagsIn_scalars (tags : List Scalar) : tagsIn (.arr (tags.map .scalar)) = .ok tags := by
  rw [tagsIn, mapM_eq_ok, forall₂_map_left_iff]
  exact forall₂_same.mpr fun _ _ => rfl

/-- A tag that a value holds, where its tags can be taken as a set. -/
def hasTag (value : Json) (tag : Scalar) : Prop :=
  ∃ tags, tagsIn value = .ok tags ∧ has tags tag = true

theorem hasTag_iff {value : Json} (returned : tagsIn value = .ok tags) :
    hasTag value tag ↔ has tags tag = true := by
  constructor
  · rintro ⟨others, returned', here⟩
    rw [returned] at returned'
    cases returned'
    exact here
  · exact fun here => ⟨tags, returned, here⟩

end

def PlainField (field : String) : Prop :=
  field ≠ "properties" ∧ field ≠ "tags"

section

variable {patch base cur new : Payload}

theorem get?_present (fields : Dict String (Option Json)) (field : String) :
    (present fields).get? field = (fields.get? field).join := by
  rw [present, get?_ofKeys]
  by_cases named : field ∈ fields.keys
  · rw [if_pos named]
  · rw [if_neg named, get?_eq_none_iff.mpr named, join_none]

/-- What goes of a field, where the row returns. -/
theorem get?_rebase {rebased : Payload × List String}
    (returned : rebase patch base cur = .ok rebased) (field : String) :
    rebased.1.get? field = (patch.get? field).bind fun value =>
      ((rebaseField base cur field value).toOption.map Prod.fst).join := by
  obtain ⟨fields, computed, same⟩ := bind_eq_ok.mp returned
  cases same
  rw [get?_present, get?_map_value fields (fun _ result => result.1), get?_mapValuesM computed]
  cases patch.get? field <;> rfl

theorem get?_changedFields {changed : Payload} (returned : changedFields new cur = .ok changed)
    (field : String) :
    changed.get? field =
      (new.get? field).bind fun value => (changedField cur field value).toOption.join := by
  obtain ⟨fields, computed, rfl⟩ := map_eq_ok.mp returned
  rw [get?_present, get?_mapValuesM computed]
  cases new.get? field <;> rfl

variable {field : String}

theorem rebaseField_plain (plain : PlainField field) (value : Json) :
    rebaseField base cur field value =
      .ok (if fieldVerdict base cur field value = .goes then some value else none,
        if fieldVerdict base cur field value = .clashes then [field] else []) := by
  rw [rebaseField, if_neg plain.1, if_neg plain.2]

theorem get?_rebase_plain (returned : rebase patch base cur = .ok rebased)
    (plain : PlainField field) : rebased.1.get? field =
      (patch.get? field).filter fun value => fieldVerdict base cur field value = .goes := by
  rw [get?_rebase returned]
  cases patch.get? field with
  | none => rfl
  | some value =>
    rw [bind_some, rebaseField_plain plain, filter_some]
    by_cases goes : fieldVerdict base cur field value = .goes <;> simp [goes, Except.toOption]

theorem get?_changedFields_plain (returned : changedFields new cur = .ok changed)
    (plain : PlainField field) : changed.get? field =
      (new.get? field).filter fun value => !scalarEq value (fieldOf cur field) := by
  rw [get?_changedFields returned]
  cases new.get? field with
  | none => rfl
  | some value =>
    rw [bind_some, changedField, if_neg plain.1, if_neg plain.2, filter_some]
    cases scalarEq value (fieldOf cur field) <;> rfl

theorem propertiesOf_eq_fieldsIn (payload : Payload) :
    propertiesOf payload = fieldsIn ((payload.get? "properties").getD .null) := by
  rw [propertiesOf]
  cases payload.get? "properties" with
  | none => rfl
  | some value => cases value <;> rfl

/-- Properties that are left out where there are none. -/
theorem propertiesOf_of_get? {payload : Payload} {props : Dict String Json}
    (here : payload.get? "properties" = if props = [] then none else some (.obj props)) :
    propertiesOf payload = props := by
  rw [propertiesOf, here]
  by_cases empty : props = []
  · rw [if_pos empty, empty]
  · rw [if_neg empty]

theorem get?_propertiesOf_rebase (returned : rebase patch base cur = .ok rebased) (key : String) :
    (propertiesOf rebased.1).get? key = ((propertiesOf patch).get? key).filter fun value =>
        propVerdict base cur key value = .goes := by
  have props : propertiesOf rebased.1 = (propertiesOf patch).items.filter fun entry =>
        propVerdict base cur entry.1 entry.2 = .goes := by
    apply propertiesOf_of_get?
    rw [get?_rebase returned, propertiesOf_eq_fieldsIn]
    cases patch.get? "properties" with
    | none => rfl
    | some value =>
      rfl
  rw [props]
  exact get?_filter_entries _ (fun key value => propVerdict base cur key value = .goes) key

theorem get?_propertiesOf_changedFields (returned : changedFields new cur = .ok changed)
    (key : String) : (propertiesOf changed).get? key =
      ((propertiesOf new).get? key).filter fun value =>
        if isDelete value then decide (key ∈ (propertiesOf cur).keys)
        else !scalarEq value (((propertiesOf cur).get? key).getD .null) := by
  have props : propertiesOf changed = changedProps (propertiesOf new) (propertiesOf cur) := by
    apply propertiesOf_of_get?
    rw [get?_changedFields returned, propertiesOf_eq_fieldsIn new]
    cases new.get? "properties" with
    | none => rfl
    | some value =>
      rfl
  rw [props]
  exact get?_filter_entries _ (fun key value => if isDelete value then
    decide (key ∈ (propertiesOf cur).keys)
    else !scalarEq value (((propertiesOf cur).get? key).getD .null)) key

/-- The keys of a row that clash: its fields', and its properties'. -/
theorem mem_clashes (returned : rebase patch base cur = .ok rebased) {name : String} :
    name ∈ rebased.2 ↔ (PlainField name ∧ ∃ value, patch.get? name = some value ∧
        fieldVerdict base cur name value = .clashes) ∨
      ∃ value, (propertiesOf patch).get? name = some value ∧
        propVerdict base cur name value = .clashes := by
  have ofProps (value : Json) : name ∈ ((Dict.items (fieldsIn value)).filter fun entry =>
      propVerdict base cur entry.1 entry.2 = .clashes).map (·.1) ↔
      ∃ held, Dict.get? (fieldsIn value) name = some held ∧
        propVerdict base cur name held = .clashes := by
    rw [List.mem_map]
    constructor
    · rintro ⟨⟨key, held⟩, mem, rfl⟩
      obtain ⟨listed, clash⟩ := mem_filter.mp mem
      exact ⟨held, mem_items_iff.mp listed, of_decide_eq_true clash⟩
    · rintro ⟨held, found, clash⟩
      exact ⟨(name, held), mem_filter.mpr ⟨mem_items_iff.mpr found, decide_eq_true clash⟩, rfl⟩
  obtain ⟨fields, computed, same⟩ := bind_eq_ok.mp returned
  cases same
  rw [mem_flatMap]
  constructor
  · rintro ⟨⟨field, result⟩, listed, mem⟩
    obtain ⟨value, given, done⟩ := (mem_of_mapValuesM computed).mp listed
    rw [rebaseField] at done
    by_cases props : field = "properties"
    · subst props
      cases done
      right
      rw [propertiesOf_eq_fieldsIn, given]
      exact (ofProps value).mp mem
    · rw [if_neg props] at done
      by_cases tags : field = "tags"
      · rw [if_pos tags] at done
        obtain ⟨left, -, same⟩ := bind_eq_ok.mp done
        cases same
        cases mem
      · rw [if_neg tags] at done
        cases done
        dsimp only at mem
        split at mem
        · next clash =>
            rw [mem_singleton] at mem
            subst mem
            exact .inl ⟨⟨props, tags⟩, value, given, clash⟩
        · cases mem
  · rintro (⟨plain, value, given, clash⟩ | ⟨value, given, clash⟩)
    · refine ⟨(name, _), (mem_of_mapValuesM computed).mpr
        ⟨value, given, rebaseField_plain plain value⟩, ?_⟩
      rw [if_pos clash]
      exact mem_singleton_self name
    · rw [propertiesOf_eq_fieldsIn] at given
      cases held : patch.get? "properties" with
      | none =>
        rw [held] at given
        cases given
      | some props =>
        rw [held] at given
        have done : ∃ result, rebaseField base cur "properties" props = .ok result :=
          ⟨_, by rw [rebaseField, if_pos rfl]⟩
        obtain ⟨result, done⟩ := done
        refine ⟨("properties", result), (mem_of_mapValuesM computed).mpr ⟨props, held, done⟩, ?_⟩
        cases done
        exact (ofProps props).mpr ⟨value, given, clash⟩

/-- Whether the tags a row gives can be rebased: what it gives and what was exported can be taken
as sets, and where they differ what is there can be too, and what is new can be sorted. -/
def TagsReturn (base cur : Payload) (value : Json) : Prop :=
  ∃ mine was, tagsIn value = .ok mine ∧ tagsIn (fieldOf base "tags") = .ok was ∧
    (sameTags mine was = false → ∃ now, tagsIn (fieldOf cur "tags") = .ok now ∧
      Sortable (newTags mine was now))

theorem rebaseTags_eq_ok {value : Json} {left : Option Json} :
    rebaseTags base cur value = .ok left ↔
      ∃ mine, tagsIn value = .ok mine ∧ ∃ was, tagsIn (fieldOf base "tags") = .ok was ∧
        (sameTags mine was = true ∧ left = none ∨
          sameTags mine was = false ∧ ∃ now, tagsIn (fieldOf cur "tags") = .ok now ∧
            ∃ new, sortedTags (newTags mine was now) = .ok new ∧
              left = some (.arr ((now.filter (fun tag => !(has was tag && !has mine tag)) ++
                new).map .scalar))) := by
  simp only [rebaseTags, bind_eq_ok]
  refine exists_congr fun mine => and_congr_right fun _ => exists_congr fun was =>
    and_congr_right fun _ => ?_
  cases sameTags mine was with
  | true => simp [pure, Except.pure, eq_comm]
  | false =>
    rw [if_neg Bool.false_ne_true]
    simp only [bind_eq_ok, Bool.false_eq_true, false_and, false_or, true_and]
    refine exists_congr fun now => and_congr_right fun _ => exists_congr fun new =>
      and_congr_right fun _ => ?_
    exact ⟨fun same => (Except.ok.inj same).symm, fun same => congrArg Except.ok same.symm⟩

theorem rebaseTags_returns_iff {value : Json} :
    (∃ left, rebaseTags base cur value = .ok left) ↔ TagsReturn base cur value := by
  simp only [rebaseTags_eq_ok]
  constructor
  · rintro ⟨left, mine, given, was, exported, ⟨same, -⟩ | ⟨-, now, there, new, sorted, -⟩⟩
    · exact ⟨mine, was, given, exported, fun differ => nomatch same.symm.trans differ⟩
    · exact ⟨mine, was, given, exported, fun _ =>
        ⟨now, there, sortedTags_returns_iff.mp ⟨new, sorted⟩⟩⟩
  · rintro ⟨mine, was, given, exported, differ⟩
    cases same : sameTags mine was with
    | true => exact ⟨none, mine, given, was, exported, .inl ⟨same, rfl⟩⟩
    | false =>
      obtain ⟨now, there, sortable⟩ := differ same
      obtain ⟨new, sorted⟩ := sortedTags_returns_iff.mpr sortable
      exact ⟨_, mine, given, was, exported, .inr ⟨same, now, there, new, sorted, rfl⟩⟩

/-- A row returns exactly where its tags can be rebased. -/
theorem rebase_returns_iff : (∃ rebased, rebase patch base cur = .ok rebased) ↔
    ∀ value, patch.get? "tags" = some value → TagsReturn base cur value := by
  have fields : (∃ rebased, rebase patch base cur = .ok rebased) ↔
      ∃ fields, patch.mapValuesM (rebaseField base cur) = .ok fields := by
    simp only [rebase, bind_eq_ok]
    exact ⟨fun ⟨_, fields, computed, _⟩ => ⟨fields, computed⟩,
      fun ⟨fields, computed⟩ => ⟨_, fields, computed, rfl⟩⟩
  rw [fields, mapValuesM_returns_iff]
  constructor
  · intro each value given
    obtain ⟨result, done⟩ := each "tags" value given
    obtain ⟨left, returned, -⟩ := bind_eq_ok.mp done
    exact rebaseTags_returns_iff.mp ⟨left, returned⟩
  · intro tags field value given
    by_cases props : field = "properties"
    · subst props
      exact ⟨_, by rw [rebaseField, if_pos rfl]⟩
    · by_cases name : field = "tags"
      · subst name
        obtain ⟨left, returned⟩ := rebaseTags_returns_iff.mpr (tags value given)
        exact ⟨(left, []), by
          exact bind_eq_ok.mpr ⟨left, returned, rfl⟩⟩
      · exact ⟨_, rebaseField_plain ⟨props, name⟩ value⟩

/-- The tags a row leaves: those there are, without those it took away, and those it gave. -/
theorem mem_rebaseTags {value : Json} {left : Option Json}
    (returned : rebaseTags base cur value = .ok left) {tag : Scalar} :
    hasTag (left.getD (fieldOf cur "tags")) tag ↔ hasTag (fieldOf cur "tags") tag ∧
          ¬ (hasTag (fieldOf base "tags") tag ∧ ¬ hasTag value tag) ∨
        hasTag value tag ∧ ¬ hasTag (fieldOf base "tags") tag := by
  obtain ⟨mine, given, was, exported, cases⟩ := rebaseTags_eq_ok.mp returned
  rw [hasTag_iff given, hasTag_iff exported]
  rcases cases with ⟨unchanged, rfl⟩ | ⟨-, now, there, new, sorted, rfl⟩
  · rw [sameTags_iff.mp unchanged tag]
    tauto
  · rw [getD_some, hasTag_iff (tagsIn_scalars _), hasTag_iff there, has_append,
      has_sortedTags sorted, newTags, has_filter, has_filter, has_distinctTags]
    · simp only [Bool.or_eq_true, Bool.and_eq_true, Bool.not_eq_true', Bool.eq_false_iff, ne_eq]
      tauto
    · exact fun _ _ same => by rw [has_congr same, has_congr same]
    · exact fun _ _ same => by rw [has_congr same, has_congr same]

theorem fieldOf_patched (plain : field ≠ "properties") :
    (patched cur new).get? field = (new.get? field).or (cur.get? field) :=
  get?_overlay _ _ _ plain

/-- A row that is diffed is refused for another row of its entity alone. -/
theorem settleRow_eq_update {noun : String} {first : Option ℕ} {changed after : Payload}
    (settles : settleRow noun first new cur = .ok (.update changed after)) :
    changedFields new cur = .ok changed ∧ after = patched cur changed := by
  obtain ⟨diffed, returned, later⟩ := bind_eq_ok.mp settles
  have diffs := mapError_eq_ok.mp returned
  split at later
  · cases later
  · cases first with
    | some first => cases later
    | none =>
      obtain ⟨made, applied, same⟩ := bind_eq_ok.mp later
      cases same
      exact ⟨diffs, (applyPatch_eq_ok.mp (mapError_eq_ok.mp applied)).2⟩

end

section

variable (patch base cur : Payload)

/-- What goes of a row, and the keys that clash: what was exported is the entity's `base`. -/
structure Rebases (rebased : Payload × List String) : Prop where
  /-- A key the row does not name stays. -/
  field_unnamed : ∀ field, patch.get? field = none → rebased.1.get? field = none
  prop_unnamed : ∀ key, (propertiesOf patch).get? key = none →
    (propertiesOf rebased.1).get? key = none
  /-- What the row did not change stays. -/
  field_stays : ∀ field value, PlainField field → patch.get? field = some value →
    scalarEq value (fieldOf base field) → rebased.1.get? field = none
  prop_stays : ∀ key value, (propertiesOf patch).get? key = some value →
    same (dropMarker (some value)) ((propertiesOf base).get? key) →
    (propertiesOf rebased.1).get? key = none
  /-- What only the row changed goes. -/
  field_goes : ∀ field value, PlainField field → patch.get? field = some value →
    scalarEq value (fieldOf base field) = false →
    scalarEq (fieldOf cur field) (fieldOf base field) →
    rebased.1.get? field = some value
  prop_goes : ∀ key value, (propertiesOf patch).get? key = some value →
    same (dropMarker (some value)) ((propertiesOf base).get? key) = false →
    same ((propertiesOf cur).get? key) ((propertiesOf base).get? key) →
    (propertiesOf rebased.1).get? key = some value
  /-- Tags are added and removed by both sides. -/
  tags : ∀ value, patch.get? "tags" = some value → ∀ tag,
    hasTag ((rebased.1.get? "tags").getD (fieldOf cur "tags")) tag ↔
      hasTag (fieldOf cur "tags") tag ∧ ¬ (hasTag (fieldOf base "tags") tag ∧ ¬ hasTag value tag) ∨
        hasTag value tag ∧ ¬ hasTag (fieldOf base "tags") tag
  /-- What both changed differently clashes, and nothing else does. -/
  clash : ∀ name, name ∈ rebased.2 ↔ (PlainField name ∧ ∃ value, patch.get? name = some value ∧
      scalarEq value (fieldOf base name) = false ∧
      scalarEq (fieldOf cur name) (fieldOf base name) = false ∧
      scalarEq value (fieldOf cur name) = false) ∨
    ∃ value, (propertiesOf patch).get? name = some value ∧
      same (dropMarker (some value)) ((propertiesOf base).get? name) = false ∧
      same ((propertiesOf cur).get? name) ((propertiesOf base).get? name) = false ∧
      same (dropMarker (some value)) ((propertiesOf cur).get? name) = false

/-- What only the row changed is what the entity holds after. A null is as good as no property, and
a value sent back in another form keeps the form it is stored in. -/
structure Applies (after : Payload) : Prop where
  field : ∀ field value, PlainField field → patch.get? field = some value →
    scalarEq value (fieldOf base field) = false →
    scalarEq (fieldOf cur field) (fieldOf base field) → after.get? field = some value
  prop : ∀ key value, (propertiesOf patch).get? key = some value →
    same (dropMarker (some value)) ((propertiesOf base).get? key) = false →
    same ((propertiesOf cur).get? key) ((propertiesOf base).get? key) →
    ((propertiesOf after).get? key).getD .null =
      (dropMarker (mergeProp ((propertiesOf cur).get? key) (some value))).getD .null

/-- Nothing that was written since the export is undone. -/
structure UndoesNothing (after : Payload) : Prop where
  field : ∀ field, PlainField field → scalarEq (fieldOf cur field) (fieldOf base field) = false →
    after.get? field = cur.get? field
  prop : ∀ key, same ((propertiesOf cur).get? key) ((propertiesOf base).get? key) = false →
    (propertiesOf after).get? key = dropMarker ((propertiesOf cur).get? key)
  tag_added : ∀ tag, hasTag (fieldOf cur "tags") tag → ¬ hasTag (fieldOf base "tags") tag →
    hasTag (fieldOf after "tags") tag
  tag_removed : ∀ tag, hasTag (fieldOf base "tags") tag → ¬ hasTag (fieldOf cur "tags") tag →
    ¬ hasTag (fieldOf after "tags") tag

variable {patch base cur}

theorem propVerdict_eq {key : String} {value : Json} : propVerdict base cur key value =
    verdict (same (dropMarker (some value)) ((propertiesOf base).get? key))
      (same ((propertiesOf cur).get? key) ((propertiesOf base).get? key))
      (same (dropMarker (some value)) ((propertiesOf cur).get? key)) := by
  rw [propVerdict, dropMarker, filter_some]
  cases isDelete value <;> rfl

variable (returned : rebase patch base cur = .ok rebased)
include returned

theorem rebases : Rebases patch base cur rebased where
  field_unnamed field unnamed := by rw [get?_rebase returned, unnamed, bind_none]
  prop_unnamed key unnamed := by rw [get?_propertiesOf_rebase returned, unnamed, filter_none]
  field_stays field value plain given unchanged := by
    have verdict : fieldVerdict base cur field value = .stands := verdict_eq_stands.mpr unchanged
    rw [get?_rebase_plain returned plain, given, filter_some, verdict]
    rfl
  prop_stays key value given unchanged := by
    have verdict : propVerdict base cur key value = .stands :=
      propVerdict_eq.trans (verdict_eq_stands.mpr unchanged)
    rw [get?_propertiesOf_rebase returned, given, filter_some, verdict]
    rfl
  field_goes field value plain given changed untouched := by
    have verdict : fieldVerdict base cur field value = .goes :=
      verdict_eq_goes.mpr ⟨changed, .inl untouched⟩
    rw [get?_rebase_plain returned plain, given, filter_some, verdict]
    rfl
  prop_goes key value given changed untouched := by
    have verdict : propVerdict base cur key value = .goes :=
      propVerdict_eq.trans (verdict_eq_goes.mpr ⟨changed, .inl untouched⟩)
    rw [get?_propertiesOf_rebase returned, given, filter_some, verdict]
    rfl
  tags value given tag := by
    obtain ⟨left, done⟩ :=
      rebaseTags_returns_iff.mpr (rebase_returns_iff.mp ⟨_, returned⟩ value given)
    have field : rebaseField base cur "tags" value = .ok (left, []) := by
      exact bind_eq_ok.mpr ⟨left, done, rfl⟩
    rw [get?_rebase returned, given, bind_some, field]
    exact mem_rebaseTags done
  clash name := by
    rw [mem_clashes returned]
    simp only [propVerdict_eq, fieldVerdict, verdict_eq_clashes]

variable (diffed : changedFields rebased.1 cur = .ok changed)
include diffed

/-- A key that was changed since the export is not written. -/
theorem get?_changedFields_rebase {field : String} (plain : PlainField field)
    (touched : scalarEq (fieldOf cur field) (fieldOf base field) = false) :
    changed.get? field = none := by
  rw [get?_changedFields_plain diffed plain, get?_rebase_plain returned plain]
  cases patch.get? field with
  | none => rfl
  | some value =>
    rw [filter_some]
    split
    · next goes =>
        obtain ⟨-, alike⟩ := verdict_eq_goes.mp (of_decide_eq_true goes)
        rw [touched] at alike
        rw [filter_some, alike.resolve_left Bool.false_ne_true]
        rfl
    · rfl

theorem get?_propertiesOf_changedFields_rebase {key : String}
    (touched : same ((propertiesOf cur).get? key) ((propertiesOf base).get? key) = false) :
    (propertiesOf changed).get? key = none := by
  rw [get?_propertiesOf_changedFields diffed, get?_propertiesOf_rebase returned]
  cases (propertiesOf patch).get? key with
  | none => rfl
  | some value =>
    rw [filter_some]
    split
    · next goes =>
        obtain ⟨-, alike⟩ := verdict_eq_goes.mp (propVerdict_eq.symm.trans (of_decide_eq_true goes))
        rw [touched] at alike
        have alike := alike.resolve_left Bool.false_ne_true
        rw [filter_some]
        by_cases deleted : isDelete value
        · have gone : (propertiesOf cur).get? key = none := by
            rw [dropMarker, filter_some, deleted] at alike
            cases here : (propertiesOf cur).get? key with
            | none => rfl
            | some held =>
              rw [here] at alike
              cases alike
          rw [if_pos deleted, decide_eq_false (get?_eq_none_iff.mp gone)]
          rfl
        · rw [dropMarker, filter_some, Bool.eq_false_of_not_eq_true deleted] at alike
          cases here : (propertiesOf cur).get? key with
          | none =>
            rw [here] at alike
            cases alike
          | some held =>
            rw [here] at alike
            have alike : scalarEq value held = true := alike
            rw [if_neg deleted, getD_some, alike]
            rfl
    · rfl

omit returned in
/-- The tags written are those the row leaves. -/
theorem hasTag_patched {tag : Scalar} : hasTag (fieldOf (patched cur changed) "tags") tag ↔
      hasTag ((rebased.1.get? "tags").getD (fieldOf cur "tags")) tag := by
  rw [fieldOf, fieldOf_patched (by decide), get?_changedFields diffed]
  cases sent : rebased.1.get? "tags" with
  | none => rfl
  | some value =>
    obtain ⟨fields, computed, -⟩ := map_eq_ok.mp diffed
    obtain ⟨result, done⟩ := mapValuesM_returns_iff.mp ⟨fields, computed⟩ "tags" value sent
    rw [bind_some, getD_some, done]
    obtain ⟨given, mine, later⟩ := bind_eq_ok.mp done
    obtain ⟨now, there, same⟩ := bind_eq_ok.mp later
    cases same
    cases unchanged : sameTags given now with
    | false => rfl
    | true =>
      have each := sameTags_iff.mp unchanged tag
      rw [hasTag_iff mine, each, ← hasTag_iff there]
      rfl

theorem undoesNothing : UndoesNothing base cur (patched cur changed) := by
  have tags : ∃ mine : Scalar → Prop, ∀ tag, hasTag (fieldOf (patched cur changed) "tags") tag ↔
        hasTag (fieldOf cur "tags") tag ∧ ¬ (hasTag (fieldOf base "tags") tag ∧ ¬ mine tag) ∨
          mine tag ∧ ¬ hasTag (fieldOf base "tags") tag := by
    cases given : patch.get? "tags" with
    | none =>
      refine ⟨hasTag (fieldOf base "tags"), fun tag => ?_⟩
      rw [hasTag_patched diffed, (rebases returned).field_unnamed "tags" given]
      tauto
    | some value =>
      refine ⟨hasTag value, fun tag => ?_⟩
      rw [hasTag_patched diffed]
      exact (rebases returned).tags value given tag
  obtain ⟨mine, tags⟩ := tags
  exact {
    field := by
      intro field plain touched
      rw [fieldOf_patched plain.1, get?_changedFields_rebase returned diffed plain touched, none_or]
    prop := by
      intro key touched
      rw [get?_propertiesOf_patched,
        get?_propertiesOf_changedFields_rebase returned diffed touched, mergeProp_none_right]
    tag_added := fun tag here new => (tags tag).mpr (.inl ⟨here, fun old => new old.1⟩)
    tag_removed := by
      intro tag was gone here
      rcases (tags tag).mp here with ⟨stays, -⟩ | ⟨-, new⟩
      · exact gone stays
      · exact new was }

theorem applies : Applies patch base cur (patched cur changed) where
  field field value plain given changed untouched := by
    have differs : scalarEq value (fieldOf cur field) = false := by
      rw [Bool.eq_false_iff] at changed ⊢
      intro alike
      exact changed (scalarEq_iff.mpr ((scalarEq_iff.mp alike).trans (scalarEq_iff.mp untouched)))
    rw [fieldOf_patched plain.1, get?_changedFields_plain diffed plain,
      (rebases returned).field_goes field value plain given changed untouched, filter_some,
      differs]
    rfl
  prop key value given changed untouched := by
    have differs : same (dropMarker (some value)) ((propertiesOf cur).get? key) = false := by
      rw [Bool.eq_false_iff] at changed ⊢
      intro alike
      exact changed (same_iff.mpr ((same_iff.mp alike).trans (same_iff.mp untouched)))
    rw [get?_propertiesOf_patched, get?_propertiesOf_changedFields diffed,
      (rebases returned).prop_goes key value given changed untouched, filter_some]
    cases here : (propertiesOf cur).get? key with
    | none =>
      rw [here] at differs
      by_cases deleted : isDelete value
      · rw [dropMarker, filter_some, deleted] at differs
        cases differs
      · rw [if_neg deleted, getD_none]
        by_cases null : value = .null
        · subst null
          rfl
        · have there : scalarEq value .null = false := by
            rw [Bool.eq_false_iff]
            intro alike
            rw [scalarEq_iff] at alike
            cases value with
            | scalar value =>
              rw [sameness] at alike
              split at alike
              · next nothing => exact null (congrArg Json.scalar nothing)
              · cases alike
            | arr items => cases alike
            | obj fields => cases alike
          rw [there]
          rfl
    | some held =>
      rw [here] at differs
      by_cases deleted : isDelete value
      · rw [if_pos deleted, decide_eq_true (mem_keys_iff.mpr (here ▸ rfl))]
        rfl
      · rw [dropMarker, filter_some, Bool.eq_false_of_not_eq_true deleted] at differs
        have differs : scalarEq value held = false := differs
        rw [if_neg deleted, getD_some, differs]
        rfl

end

/-- A row exported at a version its entity no longer has writes its own edits and nothing else: it
raises where its tags cannot be rebased, is refused where one of its edits clashes, and else nothing
written since the export is undone. -/
theorem rebase_loses_no_update (patch base cur : Payload) :
    ((∃ rebased, rebase patch base cur = .ok rebased) ↔
        ∀ value, patch.get? "tags" = some value → TagsReturn base cur value) ∧
      (∀ rebased, rebase patch base cur = .ok rebased → Rebases patch base cur rebased) ∧
      ∀ (indexes : Indexes) (noun : String) (eid : EntityId) (version : Option String),
        indexes.stale eid version = some base →
        (∀ rebased, rebase patch base cur = .ok rebased → rebased.2 ≠ [] →
          ∃ reason, indexes.resolveUpdate noun eid version patch cur = .ok (.invalid reason)) ∧
        ∀ changed after,
          indexes.resolveUpdate noun eid version patch cur = .ok (.update changed after) →
          ∃ rebased, rebase patch base cur = .ok rebased ∧ rebased.2 = [] ∧
            Applies patch base cur after ∧ UndoesNothing base cur after := by
  refine ⟨rebase_returns_iff, fun rebased returned => rebases returned,
    fun indexes noun eid version stale => ⟨fun rebased returned clash => ?_, ?_⟩⟩
  · unfold Indexes.resolveUpdate
    rw [stale]
    exact ⟨_, bind_eq_ok.mpr ⟨rebased, mapError_eq_ok.mpr returned, if_neg clash⟩⟩
  · intro changed after update
    unfold Indexes.resolveUpdate at update
    rw [stale] at update
    obtain ⟨rebased, raised, later⟩ := bind_eq_ok.mp update
    have returned := mapError_eq_ok.mp raised
    dsimp only at later
    split at later
    · next none =>
        obtain ⟨diffed, rfl⟩ := settleRow_eq_update later
        exact ⟨rebased, returned, none, applies returned diffed, undoesNothing returned diffed⟩
    · cases later

def exported : Payload :=
  [("displayName", .str "Orders"), ("description", .str "old"), ("tags", .arr [.str "a", .str "b"]),
    ("properties", .obj [("rows", .int 1), ("owner", .str "x")])]

/-- Another description and owner, and a tag more. -/
def current : Payload :=
  [("displayName", .str "Orders"), ("description", .str "new"),
    ("tags", .arr [.str "a", .str "b", .str "c"]),
    ("properties", .obj [("rows", .int 1), ("owner", .str "y")])]

/-- Another name and number of rows, and a tag instead of another. -/
def edited : Payload :=
  [("displayName", .str "Sales"), ("description", .str "old"), ("tags", .arr [.str "a", .str "d"]),
    ("properties", .obj [("rows", .int 2), ("owner", .str "x")])]

def merged : Payload :=
  [("displayName", .str "Sales"), ("description", .str "new"),
    ("tags", .arr [.str "a", .str "c", .str "d"]),
    ("properties", .obj [("rows", .int 2), ("owner", .str "y")])]

def held : Indexes where
  hashOf := [("t", "h2")]
  bases := [(("t", "h1"), exported)]
  seen := []

theorem rebase_loses_no_update_edited :
    held.resolveUpdate "node" "t" (some "h1") edited current = .ok (.update
      [("displayName", .str "Sales"), ("tags", .arr [.str "a", .str "c", .str "d"]),
        ("properties", .obj [("rows", .int 2)])] merged) ∧
      Applies edited exported current merged ∧ UndoesNothing exported current merged := by
  have updates : held.resolveUpdate "node" "t" (some "h1") edited current = .ok (.update
      [("displayName", .str "Sales"), ("tags", .arr [.str "a", .str "c", .str "d"]),
        ("properties", .obj [("rows", .int 2)])] merged) := by decide +kernel
  obtain ⟨_, -, -, applies, undoesNothing⟩ :=
    ((rebase_loses_no_update edited exported current).2.2 held "node" "t" (some "h1") rfl).2
      _ _ updates
  exact ⟨updates, applies, undoesNothing⟩

/-- A text and a number that a row adds to the tags cannot be sorted. -/
theorem rebase_mixedTags : rebase [("tags", .arr [.str "a", .int 1])] [] [] = .error .unordered ∧
      ¬ ∀ patch base cur : Payload, ∃ rebased, rebase patch base cur = .ok rebased ∧
        Rebases patch base cur rebased := by
  have raises : rebase [("tags", .arr [.str "a", .int 1])] [] [] = .error .unordered := by
    decide +kernel
  refine ⟨raises, fun all => ?_⟩
  obtain ⟨rebased, returned, -⟩ := all [("tags", .arr [.str "a", .int 1])] [] []
  cases returned

end DataViz.Transfer
