/-
# Rewriting a definition's references agrees with collecting them

Collecting after rewriting lists exactly the images of what was collected before, but where a blank
text is given a name (`renamed_collect_iff`). `rewrite_agrees_iff` says what else can go wrong: an
override or a value moved to a taken name, a rule left without a criterion, and a reference that
cannot be looked up.
-/

import DataViz.View.ReferencesLaws

namespace DataViz.View

open List Option

/-- What becomes of a rule; nothing where it goes. An empty rewrite leaves it. -/
def ruleAfter (rw : Rewrite) (rule : Dict String Json) : Option (Dict String Json) :=
  if rw.isEmpty then some rule else rewriteRule rw rule

def OwnKept (names : Renaming) (before after : Dict String Json) : Prop :=
  ∀ key value, before.get? key = some value → names.image false key = some key →
    after.get? key = some value

/-- The result names the images of what the definition named, keeps what was an entity's own, and
leaves every rule a criterion that had one. -/
structure Agrees (rw : Rewrite) (before after : Dict String Json) : Prop where
  names : Renamed rw (collect before) (collect after)
  placements : OwnKept rw.urns (assignmentsOf before) (assignmentsOf after)
  overrides : OwnKept rw.urns (overridesOf before) (overridesOf after)
  entityOverrides : OwnKept rw.types (entityOverridesOf before) (entityOverridesOf after)
  rules : eachRule after = (eachRule before).filterMap (ruleAfter rw)
  criteria : ∀ rule ∈ eachRule before, hasCriterion rule = true →
    ∀ rule', ruleAfter rw rule = some rule' → hasCriterion rule' = true

/-- A blank text is given only names that another place is given too. -/
def BlanksNamed (rw : Rewrite) (definition : Dict String Json) : Prop :=
  ∀ r ∈ placedNames definition, r.name = "" → ∀ r', rw.image r = some r' → r'.name ≠ "" →
    ∃ named ∈ collect definition, rw.image named = some r'

/-- Of the values that are moved to a name that is mapped to itself, its own comes first. -/
def OwnFirst (names : Renaming) (table : Dict String Json) : Prop :=
  ∀ key value, table.get? key = some value → names.map.get? key = some key → key ∉ names.drop →
    firstMoved names table key = some value

/-- Of the values that come to a name that stays, its own comes last. -/
def OwnLast (names : Renaming) (table : Dict String Json) : Prop :=
  ∀ key value, table.get? key = some value → names.image false key = some key →
    lastRenamed names table key = some value

structure Suits (rw : Rewrite) (definition : Dict String Json) : Prop where
  hashable : hashableRefs definition = true
  blanks : BlanksNamed rw definition
  placements : OwnFirst rw.urns (assignmentsOf definition)
  overrides : OwnLast rw.urns (overridesOf definition)
  entityOverrides : OwnFirst rw.types (entityOverridesOf definition)
  criteria : ∀ rule ∈ eachRule definition, losesCriterion rw rule = false

section

variable {rw : Rewrite} {definition : Dict String Json} {names : Renaming}
  {table : Dict String Json}

theorem mem_collect {r : Reference} :
    r ∈ collect definition ↔ r ∈ placedNames definition ∧ r.name ≠ "" := by
  rw [collect, mem_filter, decide_eq_true_eq]

theorem image_named {r r' : Reference} (image : rw.image r = some r') (named : r.name ≠ "") :
    r'.name ≠ "" := by
  obtain ⟨name, here, rfl⟩ := map_eq_some_iff.mp image
  have renamed : (rw.names r.kind).rename r.name = name := by
    unfold Renaming.image at here
    split at here
    · cases here
    · exact some.inj here
  have urns : ∀ entry ∈ rw.urns.map, entry.2 ≠ "" := fun entry mem =>
    ne_blank_of_exact (rw.urns_exact entry mem)
  rw [← renamed]
  apply rename_ne_blank _ named
  cases r.kind with
  | pattern => exact fun entry mem => absurd mem not_mem_nil
  | entityType => exact rw.types_named
  | relationshipType => exact rw.relTypes_named
  | _ => exact urns

theorem renamed_collect_iff :
    Renamed rw (collect definition) (collect (rewritePlaces rw definition)) ↔
      BlanksNamed rw definition := by
  have places := renamed_rewritePlaces rw definition
  constructor
  · intro same r mem blank r' image named
    have there : r' ∈ placedNames (rewritePlaces rw definition) := (places r').mpr ⟨r, mem, image⟩
    exact (same r').mp (mem_collect.mpr ⟨there, named⟩)
  · intro blanks r'
    constructor
    · intro mem
      obtain ⟨there, named⟩ := mem_collect.mp mem
      obtain ⟨r, here, image⟩ := (places r').mp there
      by_cases blank : r.name = ""
      · exact blanks r here blank r' image named
      · exact ⟨r, mem_collect.mpr ⟨here, blank⟩, image⟩
    · rintro ⟨r, mem, image⟩
      obtain ⟨here, named⟩ := mem_collect.mp mem
      exact mem_collect.mpr ⟨(places r').mpr ⟨r, here, image⟩, image_named image named⟩

theorem ownKept_renameKeys_iff :
    OwnKept names table (renameKeys names table) ↔ OwnFirst names table := by
  unfold OwnKept OwnFirst
  simp only [get?_renameKeys, image_pruned]
  constructor
  · intro kept key value here mapped drop
    have moved := kept key value here ⟨drop, rename_of_mapped mapped⟩
    have listed : key ∈ names.map.keys := by
      rw [Dict.mem_keys_iff, mapped]
      rfl
    rwa [if_neg (fun free => free.2 listed)] at moved
  · rintro first key value here ⟨drop, stays⟩
    cases mapped : names.map.get? key with
    | none =>
      rw [if_pos ⟨drop, Dict.get?_eq_none_iff.mp mapped⟩, here, some_or]
    | some new =>
      cases (rename_of_mapped mapped).symm.trans stays
      have listed : key ∈ names.map.keys := by
        rw [Dict.mem_keys_iff, mapped]
        rfl
      rw [if_neg (fun free => free.2 listed)]
      exact first key value here mapped drop

theorem ownKept_renameOverrides_iff :
    OwnKept names table (renameOverrides names table) ↔ OwnLast names table := by
  unfold OwnKept OwnLast
  simp only [get?_renameOverrides]

theorem stays_of_losesCriterion {rule : Dict String Json} (loses : losesCriterion rw rule = true) :
    hasCriterion rule = true ∧ ∃ rule', rewriteRule rw rule = some rule' := by
  simp only [losesCriterion, Bool.and_eq_true] at loses
  have typed := truthy_of_allDropped rw.types _ loses.1.1
  have criterion : (ruleCriteria.any fun key => (rule.get? key).any isTrue) = true := by
    rw [ruleCriteria_any, typed, Bool.true_or]
  constructor
  · rw [hasCriterion, criterion, Bool.or_true]
  · unfold rewriteRule
    obtain ⟨pattern, here, exact, drop, same⟩ | ⟨pattern, here, exact, drop, same⟩ |
      ⟨other, same⟩ := rewritePattern_cases rw rule
    · rw [same, dropPattern, if_pos criterion]
      exact ⟨_, rfl⟩
    · rw [same]
      exact ⟨_, rfl⟩
    · rw [same]
      exact ⟨_, rfl⟩

theorem image_of_isEmpty (empty : rw.isEmpty = true) (r : Reference) : rw.image r = some r := by
  simp only [Rewrite.isEmpty, Bool.and_eq_true, List.isEmpty_iff] at empty
  obtain ⟨⟨⟨⟨⟨urnMap, urnDrop⟩, typeMap⟩, typeDrop⟩, relMap⟩, relDrop⟩ := empty
  have bare : (rw.names r.kind).map = [] ∧ (rw.names r.kind).drop = [] := by
    cases r.kind with
    | pattern => exact ⟨rfl, rfl⟩
    | entityType => exact ⟨typeMap, typeDrop⟩
    | relationshipType => exact ⟨relMap, relDrop⟩
    | _ => exact ⟨urnMap, urnDrop⟩
  have same : (rw.names r.kind).image r.kept r.name = some r.name := by
    simp [Renaming.image, Renaming.rename, bare]
  rw [Rewrite.image, same]
  rfl

/-- An empty rewrite changes nothing. -/
theorem agrees_of_isEmpty (empty : rw.isEmpty = true) : Agrees rw definition definition where
  names r' := by simp [image_of_isEmpty empty]
  placements _ _ here _ := here
  overrides _ _ here _ := here
  entityOverrides _ _ here _ := here
  rules := by
    have same : ruleAfter rw = some := funext fun rule => if_pos empty
    rw [same, filterMap_some]
  criteria rule _ had rule' same := by
    cases (if_pos empty).symm.trans same
    exact had

theorem agrees_rewritePlaces_iff (full : ¬ rw.isEmpty = true) (hashable : hashableRefs definition) :
    Agrees rw definition (rewritePlaces rw definition) ↔ Suits rw definition := by
  have after : ruleAfter rw = rewriteRule rw := funext fun rule => if_neg full
  constructor
  · rintro ⟨named, placements, overrides, entityOverrides, -, criteria⟩
    rw [assignmentsOf_rewritePlaces, ownKept_renameKeys_iff] at placements
    rw [overridesOf_rewritePlaces, ownKept_renameOverrides_iff] at overrides
    rw [entityOverridesOf_rewritePlaces, ownKept_renameKeys_iff] at entityOverrides
    refine ⟨hashable, renamed_collect_iff.mp named, placements, overrides, entityOverrides,
      fun rule mem => ?_⟩
    by_contra left
    have loses := eq_true_of_ne_false left
    obtain ⟨had, rule', stays⟩ := stays_of_losesCriterion loses
    rw [after] at criteria
    have still := criteria rule mem had rule' stays
    rw [hasCriterion_rewriteRule stays had, loses] at still
    cases still
  · rintro ⟨-, blanks, placements, overrides, entityOverrides, criteria⟩
    refine ⟨renamed_collect_iff.mpr blanks, ?_, ?_, ?_, ?_, ?_⟩
    · rwa [assignmentsOf_rewritePlaces, ownKept_renameKeys_iff]
    · rwa [overridesOf_rewritePlaces, ownKept_renameOverrides_iff]
    · rwa [entityOverridesOf_rewritePlaces, ownKept_renameKeys_iff]
    · rw [after, eachRule_rewritePlaces]
    · intro rule mem had rule' stays
      rw [after] at stays
      rw [hasCriterion_rewriteRule stays had, criteria rule mem, Bool.not_false]

end

/-- Rewriting agrees with collecting exactly where nothing is rewritten, or every reference can be
looked up, no blank text is given a name of its own, no value comes over an entity's own, and no
rule has only types that are dropped. -/
theorem rewrite_agrees_iff (rw : Rewrite) (definition : Dict String Json) :
    (∃ result, rewrite rw definition = some result ∧ Agrees rw definition result) ↔
      (rw.isEmpty = true ∨ Suits rw definition) := by
  unfold rewrite
  by_cases empty : rw.isEmpty
  · rw [if_pos empty]
    exact iff_of_true ⟨definition, rfl, agrees_of_isEmpty empty⟩ (.inl empty)
  · rw [if_neg empty, or_iff_right empty]
    by_cases hashable : hashableRefs definition
    · rw [if_pos hashable, ← agrees_rewritePlaces_iff empty hashable]
      simp only [some.injEq, exists_eq_left']
    · rw [if_neg hashable]
      constructor
      · rintro ⟨result, raised, -⟩
        cases raised
      · exact fun suits => absurd suits.hashable hashable

/-- One entity is called another's name. -/
def oneEntity : Rewrite where
  urns := { map := [("urn:a", "urn:b")] }
  urns_exact := by decide
  types_named := by decide
  relTypes_named := by decide

/-- A membership that remembers where two entities were put. -/
def twoOverrides (first second : String) : Dict String Json :=
  [("membership", .obj [("overrides", .obj [("urn:b", .obj [("layerId", .str first)]),
    ("urn:a", .obj [("layerId", .str second)])])])]

/-- Where the entity that stays was put is lost. -/
theorem not_agrees_twoOverrides :
    ¬ ∃ result, rewrite oneEntity (twoOverrides "l1" "l2") = some result ∧
      Agrees oneEntity (twoOverrides "l1" "l2") result := by
  have run : rewrite oneEntity (twoOverrides "l1" "l2") =
      some [("membership", .obj [("overrides", .obj [("urn:b",
        .obj [("layerId", .str "l2")])])])] := by
    decide +kernel
  rintro ⟨result, same, agrees⟩
  cases run.symm.trans same
  have kept := agrees.overrides "urn:b" (.obj [("layerId", .str "l1")]) (by decide +kernel)
    (by decide +kernel)
  revert kept
  decide +kernel

end DataViz.View
