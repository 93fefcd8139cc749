/-
# The field-level three-way merge

`merge.py`: one engine for draft pulls, publishes and source syncs. Values are
merged by shape. A one-sided change is taken; two dictionaries are merged key by
key; a field named in `set_fields` is merged as an unordered set; anything else
changed on both sides is a conflict, recorded with its key path, and one side
wins the field for the time being.

The missing-key sentinel `MISSING` is `none`. Python's `set` of a list with a
list or dictionary in it raises `TypeError`, so the merge is fallible.
-/

import Mathlib.Data.Prod.Lex
import DataViz.Versioning.Basic

namespace DataViz.Versioning

/-- A field path; the empty path is the whole entity. -/
abbrev Path := List String

inductive ConflictKind
  | field
  | deleteModify
  deriving DecidableEq

/-- A divergent change both sides made that the engine cannot resolve. -/
structure Conflict where
  path : Path
  base : Json
  ours : Json
  theirs : Json
  kind : ConflictKind
  deriving DecidableEq

/-- The tentatively merged value and the conflicts left to settle. -/
structure MergeOutcome where
  merged : Option Payload
  conflicts : List Conflict
  deriving DecidableEq

/-- Who wins a field both sides changed differently. -/
inductive OnConflict
  | ours
  | theirs
  deriving DecidableEq

/-- The side that wins a disputed field. -/
def OnConflict.winner {α : Type} : OnConflict → α → α → α
  | .ours, ov, _ => ov
  | .theirs, _, tv => tv

def typeText : Scalar → String
  | .null => "<class 'NoneType'>"
  | .bool _ => "<class 'bool'>"
  | .int _ => "<class 'int'>"
  | .float _ _ => "<class 'float'>"
  | .str _ => "<class 'str'>"

def strText : Scalar → String
  | .null => "None"
  | .bool b => if b then "True" else "False"
  | .int n => toString n
  | .float text _ => text
  | .str s => s

/-- Membership in a Python set: equality of hashable values is `==`. -/
def setMem (s : List Scalar) (x : Scalar) : Bool :=
  s.any fun y => y.numeric = x.numeric

/-- Set difference, keeping the left operand's elements. -/
def setDiff (a b : List Scalar) : List Scalar :=
  a.filter fun x => !setMem b x

/-- Set union: the left operand's elements, then the right's new ones. -/
def setUnion (a b : List Scalar) : List Scalar :=
  a ++ setDiff b a

/-- `set(items)`: later duplicates are dropped and an unhashable item raises. -/
def toSet : List Json → Except PyError (List Scalar)
  | [] => .ok []
  | .scalar s :: rest => (toSet rest).map fun tail => s :: setDiff tail [s]
  | .arr _ :: _ => .error (.typeError "unhashable type: 'list'")
  | .obj _ :: _ => .error (.typeError "unhashable type: 'dict'")

/-- `set(v) if isinstance(v, list) else set()`. -/
def elements : Option Json → Except PyError (List Scalar)
  | some (.arr items) => toSet items
  | _ => .ok []

def setKey (x : Scalar) : String ×ₗ String :=
  toLex (typeText x, strText x)

/-- The three-way set formula on hashable values: both sides' additions and
both sides' removals. -/
def mergeElements (b o t : List Scalar) : List Scalar :=
  let added := setUnion (setDiff o b) (setDiff t b)
  let removed := setUnion (setDiff b o) (setDiff b t)
  (setDiff (setUnion b added) removed).insertionSort fun x y => setKey x ≤ setKey y

/-- `_merge_set`: commutative set merge of an unordered collection. -/
def mergeSet (bv ov tv : Option Json) : Except PyError (List Json) := do
  let b ← elements bv
  let o ← elements ov
  let t ← elements tv
  return (mergeElements b o t).map Json.scalar

/-- `_orNone`: a missing side is reported as `null`. -/
def orNone (v : Option Json) : Json :=
  v.getD .null

/-- The loop of `_merge_fields`: the keys in order, each merged value kept
unless it is missing, the conflicts collected. -/
def mergeEntries (merge : String → Except PyError (Option Json × List Conflict)) :
    List String → Except PyError (Dict String Json × List Conflict)
  | [] => .ok ([], [])
  | key :: rest => do
    let (value, confs) ← merge key
    let (result, conflicts) ← mergeEntries merge rest
    match value with
    | some v => return ((key, v) :: result, confs ++ conflicts)
    | none => return (result, confs ++ conflicts)

/-- The union of three dictionaries' keys, in the order the loop visits them. -/
def mergeKeys (base ours theirs : Dict String Json) : List String :=
  Dict.sortedKeys (base.keys ++ ours.keys ++ theirs.keys)

section

variable (setFields : List String) (onConflict : OnConflict)

mutual

def mergeFields (base ours theirs : Dict String Json) (path : Path) :
    Except PyError (Dict String Json × List Conflict) :=
  mergeEntries (fun key => mergeValue (base.get? key) (ours.get? key) (theirs.get? key)
      (key ∈ setFields) (path ++ [key]))
    (mergeKeys base ours theirs)
termination_by 2 * sizeOf (some (Json.obj ours))
decreasing_by
  have hsize := Json.sizeOf_get?_lt ours key
  omega

def mergeValue (bv ov tv : Option Json) (isSet : Bool) (path : Path) :
    Except PyError (Option Json × List Conflict) :=
  if Json.PyEq? ov tv then .ok (ov, [])
  else if Json.PyEq? ov bv then .ok (tv, [])
  else if Json.PyEq? tv bv then .ok (ov, [])
  else if isSet then
    (mergeSet bv ov tv).map fun items => (some (.arr items), [])
  else
    match ov, tv, bv with
    | some (.obj o), some (.obj t), none =>
      (mergeFields [] o t path).map fun r => (some (.obj r.1), r.2)
    | some (.obj o), some (.obj t), some (.obj b) =>
      (mergeFields b o t path).map fun r => (some (.obj r.1), r.2)
    | ov, tv, bv =>
      .ok (onConflict.winner ov tv, [⟨path, orNone bv, orNone ov, orNone tv, .field⟩])
termination_by 2 * sizeOf ov + 1

end

end

/-- `three_way_merge`: merge one entity; `none` is absent or tombstoned. -/
def threeWayMerge (base ours theirs : Option Payload) (setFields : List String)
    (onConflict : OnConflict := .ours) : Except PyError MergeOutcome :=
  match ours, theirs with
  | none, none => .ok ⟨none, []⟩
  | some o, some t =>
    (mergeFields setFields onConflict (base.getD []) o t []).map fun r => ⟨some r.1, r.2⟩
  | ours, theirs =>
    let present := (ours.or theirs).getD []
    match base with
    | none => .ok ⟨some present, []⟩
    | some b =>
      if Json.PyEq (.obj present) (.obj b) then .ok ⟨none, []⟩
      else
        let conflict : Conflict :=
          ⟨[], .obj b, orNone (ours.map Json.obj), orNone (theirs.map Json.obj), .deleteModify⟩
        match onConflict with
        | .theirs => .ok ⟨theirs, [conflict]⟩
        | .ours => .ok ⟨some present, [conflict]⟩

/-- All three values differ pairwise under the given reading of equality. -/
structure Diverge (leaf : Scalar → Scalar) (bv ov tv : Option Json) : Prop where
  sides : ¬ Json.EqBy? leaf ov tv
  ours : ¬ Json.EqBy? leaf ov bv
  theirs : ¬ Json.EqBy? leaf tv bv

/-- The dictionary a field merge starts from: a missing base counts as empty. -/
def baseFields : Option Json → Option Payload
  | none => some []
  | some (.obj b) => some b
  | _ => none

/-- Both sides are dictionaries and so is the base, unless it is missing. -/
def Mergeable (bv ov tv : Option Json) : Prop :=
  ∃ b o t, baseFields bv = some b ∧ ov = some (.obj o) ∧ tv = some (.obj t)

/-- The ways `mergeValue` can return, one constructor for each branch. -/
inductive ValueOutcome (setFields : List String) (onConflict : OnConflict)
    (bv ov tv : Option Json) (isSet : Bool) (path : Path) :
    Option Json → List Conflict → Prop
  | agree (h : Json.PyEq? ov tv) : ValueOutcome setFields onConflict bv ov tv isSet path ov []
  | onlyTheirs (h : Json.PyEq? ov bv) : ValueOutcome setFields onConflict bv ov tv isSet path tv []
  | onlyOurs (h : Json.PyEq? tv bv) : ValueOutcome setFields onConflict bv ov tv isSet path ov []
  | set (hdiverge : Diverge Scalar.numeric bv ov tv) (hset : isSet = true)
      {items : List Json} (hitems : mergeSet bv ov tv = .ok items) :
      ValueOutcome setFields onConflict bv ov tv isSet path (some (.arr items)) []
  | fields (hdiverge : Diverge Scalar.numeric bv ov tv) (hset : isSet = false)
      {b o t result : Payload} {confs : List Conflict}
      (hb : baseFields bv = some b) (ho : ov = some (.obj o)) (ht : tv = some (.obj t))
      (hfields : mergeFields setFields onConflict b o t path = .ok (result, confs)) :
      ValueOutcome setFields onConflict bv ov tv isSet path (some (.obj result)) confs
  | conflict (hdiverge : Diverge Scalar.numeric bv ov tv) (hset : isSet = false)
      (hatomic : ¬ Mergeable bv ov tv) :
      ValueOutcome setFields onConflict bv ov tv isSet path (onConflict.winner ov tv)
        [⟨path, orNone bv, orNone ov, orNone tv, .field⟩]

section

variable {setFields : List String} {onConflict : OnConflict}

theorem mergeValue_outcome {bv ov tv : Option Json} {isSet : Bool} {path : Path}
    {value : Option Json} {confs : List Conflict}
    (h : mergeValue setFields onConflict bv ov tv isSet path = .ok (value, confs)) :
    ValueOutcome setFields onConflict bv ov tv isSet path value confs := by
  rw [mergeValue.eq_def] at h
  split at h
  case isTrue hsides =>
    obtain ⟨rfl, rfl⟩ : ov = value ∧ [] = confs := by simpa using h
    exact .agree hsides
  case isFalse hsides =>
  split at h
  case isTrue hours =>
    obtain ⟨rfl, rfl⟩ : tv = value ∧ [] = confs := by simpa using h
    exact .onlyTheirs hours
  case isFalse hours =>
  split at h
  case isTrue htheirs =>
    obtain ⟨rfl, rfl⟩ : ov = value ∧ [] = confs := by simpa using h
    exact .onlyOurs htheirs
  case isFalse htheirs =>
  have hdiverge : Diverge Scalar.numeric bv ov tv := ⟨hsides, hours, htheirs⟩
  split at h
  case isTrue hset =>
    cases hitems : mergeSet bv ov tv with
    | error e => simp [hitems, Except.map] at h
    | ok items =>
      obtain ⟨rfl, rfl⟩ : some (Json.arr items) = value ∧ [] = confs := by
        simpa [hitems, Except.map] using h
      exact .set hdiverge hset hitems
  case isFalse hset =>
  have hset : isSet = false := by simpa using hset
  split at h
  case h_1 o t =>
    cases hfields : mergeFields setFields onConflict [] o t path with
    | error e => simp [hfields, Except.map] at h
    | ok result =>
      obtain ⟨rfl, rfl⟩ : some (Json.obj result.1) = value ∧ result.2 = confs := by
        simpa [hfields, Except.map] using h
      exact .fields hdiverge hset rfl rfl rfl hfields
  case h_2 o t b =>
    cases hfields : mergeFields setFields onConflict b o t path with
    | error e => simp [hfields, Except.map] at h
    | ok result =>
      obtain ⟨rfl, rfl⟩ : some (Json.obj result.1) = value ∧ result.2 = confs := by
        simpa [hfields, Except.map] using h
      exact .fields hdiverge hset rfl rfl rfl hfields
  case h_3 hmissing hobject =>
    obtain ⟨rfl, rfl⟩ : onConflict.winner ov tv = value ∧
        [⟨path, orNone bv, orNone ov, orNone tv, .field⟩] = confs := by simpa using h
    refine .conflict hdiverge hset ?_
    rintro ⟨b, o, t, hb, rfl, rfl⟩
    rcases bv with - | (s | items | fields)
    · exact hmissing o t rfl rfl rfl
    · simp [baseFields] at hb
    · simp [baseFields] at hb
    · exact hobject o t fields rfl rfl rfl

theorem mergeEntries_ok {merge : String → Except PyError (Option Json × List Conflict)}
    {keys : List String} {result : Payload} {confs : List Conflict}
    (h : mergeEntries merge keys = .ok (result, confs)) :
    (∀ key, (key ∈ keys ∧ ∃ cs, merge key = .ok (result.get? key, cs) ∧ cs ⊆ confs) ∨
      (key ∉ keys ∧ result.get? key = none)) ∧
    ∀ c ∈ confs, ∃ key value cs, merge key = .ok (value, cs) ∧ c ∈ cs := by
  induction keys generalizing result confs with
  | nil =>
    obtain ⟨rfl, rfl⟩ : [] = result ∧ [] = confs := by simpa [mergeEntries] using h
    simp
  | cons head rest ih =>
    simp only [mergeEntries, bind, Except.bind] at h
    split at h
    · cases h
    · rename_i hd hhead
      obtain ⟨value, cs⟩ := hd
      split at h
      · cases h
      · rename_i tl hrest
        obtain ⟨tail, tailConfs⟩ := tl
        obtain ⟨hkeys, hconfs⟩ := ih hrest
        have hresult : confs = cs ++ tailConfs ∧
            ∀ key, result.get? key = if head = key ∧ value.isSome then value else
              Dict.get? tail key := by
          cases value with
          | none =>
            obtain ⟨rfl, rfl⟩ : tail = result ∧ cs ++ tailConfs = confs := by
              simpa [pure, Except.pure] using h
            simp
          | some v =>
            obtain ⟨rfl, rfl⟩ : (head, v) :: tail = result ∧ cs ++ tailConfs = confs := by
              simpa [pure, Except.pure] using h
            simp [Dict.get?_cons]
        obtain ⟨rfl, hget⟩ := hresult
        refine ⟨fun key => ?_, fun c hc => ?_⟩
        · by_cases hkey : head = key
          · subst hkey
            refine .inl ⟨by simp, cs, ?_, List.subset_append_left _ _⟩
            rw [hhead, hget]
            cases value with
            | some v => simp
            | none =>
              -- A later occurrence of the key asks `merge` again and gets nothing again.
              rcases hkeys head with ⟨-, cs', hagain, -⟩ | ⟨-, hnone⟩
              · rw [hhead] at hagain
                have hnone : none = Dict.get? tail head := by
                  injection hagain with hpair
                  exact congrArg Prod.fst hpair
                simp [← hnone]
              · simp [hnone]
          · rcases hkeys key with ⟨hmem, cs', hmerge, hsub⟩ | ⟨hmem, hnone⟩
            · refine .inl ⟨List.mem_cons_of_mem _ hmem, cs', ?_,
                List.Subset.trans hsub (List.subset_append_right _ _)⟩
              simpa [hget, hkey] using hmerge
            · exact .inr ⟨by simp [Ne.symm hkey, hmem], by simpa [hget, hkey] using hnone⟩
        · rcases List.mem_append.mp hc with hc | hc
          · exact ⟨head, value, cs, hhead, hc⟩
          · exact hconfs c hc

/-- A key no side has stays absent. -/
theorem mergeValue_none (isSet : Bool) (path : Path) :
    mergeValue setFields onConflict none none none isSet path = .ok (none, []) := by
  rw [mergeValue.eq_def, if_pos (Json.EqBy?.refl none)]

theorem mergeFields_ok {base ours theirs result : Payload} {path : Path} {confs : List Conflict}
    (h : mergeFields setFields onConflict base ours theirs path = .ok (result, confs)) :
    (∀ key, ∃ cs, mergeValue setFields onConflict (base.get? key) (ours.get? key)
      (theirs.get? key) (key ∈ setFields) (path ++ [key]) = .ok (result.get? key, cs) ∧
      cs ⊆ confs) ∧
    ∀ c ∈ confs, ∃ key value cs, mergeValue setFields onConflict (base.get? key) (ours.get? key)
      (theirs.get? key) (key ∈ setFields) (path ++ [key]) = .ok (value, cs) ∧ c ∈ cs := by
  rw [mergeFields] at h
  obtain ⟨hkeys, hconfs⟩ := mergeEntries_ok h
  refine ⟨fun key => ?_, hconfs⟩
  rcases hkeys key with ⟨-, hmerge⟩ | ⟨hmem, hnone⟩
  · exact hmerge
  · have habsent : base.get? key = none ∧ ours.get? key = none ∧ theirs.get? key = none := by
      simpa [mergeKeys, Dict.mem_keys_iff, Option.isSome_iff_ne_none] using hmem
    obtain ⟨hb, ho, ht⟩ := habsent
    refine ⟨[], ?_, List.nil_subset _⟩
    rw [hb, ho, ht, hnone, mergeValue_none]

end

end DataViz.Versioning
