/-
# Rows rebased onto what was written since

A row of an import may name the version it was exported at. Where its entity has changed since, the
row is cut to its own edits: a cell still as it was exported is none, so what was written meanwhile
stands. A value both changed, and differently, is a clash, and a row with one is refused.

Values are compared as a file holds them, so a number is its text. Tags are taken as a set, and the
new ones sorted: where they cannot be, that raises. What else a row is checked for before it is
diffed, and the notes beside its outcome, are left out, and so are properties that are neither an
object nor empty.
-/

import DataViz.Transfer.Delimited
import DataViz.Versioning.PropertyPatch

namespace DataViz.Transfer

open Json Versioning

/-- `str(value)`. -/
def scalarText : Scalar → Text
  | .null => "None".toList
  | .bool b => (if b then "True" else "False").toList
  | .int n => (toString n).toList
  | .float text _ => text.toList
  | .str text => text.toList

def scalarEq : Json → Json → Bool
  | .scalar a, .scalar b =>
    if a = .null ∨ b = .null then a = b else strip (scalarText a) = strip (scalarText b)
  | a, b => PyEq a b

def same : Option Json → Option Json → Bool
  | some a, some b => scalarEq a b
  | none, none => true
  | _, _ => false

def fieldOf (payload : Payload) (field : String) : Json :=
  (payload.get? field).getD .null

/-- The fields of a row's `properties`. -/
def fieldsIn : Json → Dict String Json
  | .obj fields => fields
  | _ => []

/-- What taking tags as a set, or sorting them, raises. -/
inductive TagsError where
  | unhashable | notIterable | unordered
  deriving DecidableEq

def hashed : Json → Except TagsError Scalar
  | .scalar tag => .ok tag
  | _ => .error .unhashable

/-- The items of `set(value or [])`: those of a list, a text's characters, an object's keys. -/
def tagsIn : Json → Except TagsError (List Scalar)
  | .scalar .null => .ok []
  | .scalar (.bool b) => if b then .error .notIterable else .ok []
  | .scalar (.int n) => if n = 0 then .ok [] else .error .notIterable
  | .scalar (.float _ value) => if value = 0 then .ok [] else .error .notIterable
  | .scalar (.str text) => .ok (text.toList.map fun c => .str (String.singleton c))
  | .arr items => items.mapM hashed
  | .obj fields => .ok ((Dict.keys fields).dedup.map .str)

/-- Whether a set has a tag: a number is in it as any number that is equal. -/
def has (tags : List Scalar) (tag : Scalar) : Bool :=
  tags.any fun other => other.numeric = tag.numeric

def sameTags (first second : List Scalar) : Bool :=
  first.all (has second) && second.all (has first)

/-- The items of a set, of equal ones the first. -/
def distinctTags : List Scalar → List Scalar
  | [] => []
  | tag :: rest => tag :: (distinctTags rest).filter fun other => other.numeric ≠ tag.numeric

def isText : Scalar → Bool
  | .str _ => true
  | _ => false

def isNumber : Scalar → Bool
  | .bool _ | .int _ | .float _ _ => true
  | _ => false

def amount : Scalar → ℚ
  | .bool b => if b then 1 else 0
  | .int n => n
  | .float _ value => value
  | _ => 0

def textOf : Scalar → String
  | .str text => text
  | _ => ""

/-- `sorted`: two items are compared as texts or as numbers. -/
def sortedTags (tags : List Scalar) : Except TagsError (List Scalar) :=
  if tags.all isText then .ok (tags.insertionSort fun a b => textOf a ≤ textOf b)
  else if tags.all isNumber then .ok (tags.insertionSort fun a b => amount a ≤ amount b)
  else if tags.length ≤ 1 then .ok tags
  else .error .unordered

/-- What becomes of a key: what is there stands, the row's value goes, or they clash. -/
inductive Verdict where
  | stands | goes | clashes
  deriving DecidableEq

/-- The verdict on a key, by whether the row's value is the exported one, whether the current one
is, and whether the row's is the current one. -/
def verdict (exported untouched alike : Bool) : Verdict :=
  if exported then .stands else if untouched || alike then .goes else .clashes

/-- The verdict on a property a row names. A marked one is absent. -/
def propVerdict (base cur : Payload) (key : String) (value : Json) : Verdict :=
  let mine := if isDelete value then none else some value
  let was := (propertiesOf base).get? key
  let now := (propertiesOf cur).get? key
  verdict (same mine was) (same now was) (same mine now)

def fieldVerdict (base cur : Payload) (field : String) (value : Json) : Verdict :=
  let was := fieldOf base field
  let now := fieldOf cur field
  verdict (scalarEq value was) (scalarEq now was) (scalarEq value now)

/-- The tags a row gave that were not exported and are not there. -/
def newTags (mine was now : List Scalar) : List Scalar :=
  (distinctTags mine).filter fun tag => !has was tag && !has now tag

/-- What a row leaves of its tags: those there are, without those it took away, and the new ones it
gave. -/
def rebaseTags (base cur : Payload) (value : Json) : Except TagsError (Option Json) := do
  let mine ← tagsIn value
  let was ← tagsIn (fieldOf base "tags")
  if sameTags mine was then return none
  else
    let now ← tagsIn (fieldOf cur "tags")
    let new ← sortedTags (newTags mine was now)
    let stay := now.filter fun tag => !(has was tag && !has mine tag)
    return some (.arr ((stay ++ new).map .scalar))

def rebaseField (base cur : Payload) (field : String) (value : Json) :
    Except TagsError (Option Json × List String) :=
  if field = "properties" then
    let given := Dict.items (fieldsIn value)
    let props := given.filter fun entry => propVerdict base cur entry.1 entry.2 = .goes
    .ok (if props = [] then none else some (.obj props),
      (given.filter fun entry => propVerdict base cur entry.1 entry.2 = .clashes).map (·.1))
  else if field = "tags" then do
    let tags ← rebaseTags base cur value
    return (tags, [])
  else
    .ok (if fieldVerdict base cur field value = .goes then some value else none,
      if fieldVerdict base cur field value = .clashes then [field] else [])

def present (fields : Dict String (Option Json)) : Payload :=
  Dict.ofKeys fields.keys fun field => (fields.get? field).join

/-- `_rebase`: what goes of a row, and the keys that clash. -/
def rebase (patch base cur : Payload) : Except TagsError (Payload × List String) := do
  let fields ← patch.mapValuesM (rebaseField base cur)
  return (present (fields.map fun entry => (entry.1, entry.2.1)),
    fields.flatMap fun entry => entry.2.2)

def changedProps (new cur : Dict String Json) : Dict String Json :=
  new.items.filter fun entry =>
    if isDelete entry.2 then entry.1 ∈ cur.keys
    else !scalarEq entry.2 ((cur.get? entry.1).getD .null)

def changedField (cur : Payload) (field : String) (value : Json) : Except TagsError (Option Json) :=
  if field = "properties" then
    let changed := changedProps (fieldsIn value) (propertiesOf cur)
    .ok (if changed = [] then none else some (.obj changed))
  else if field = "tags" then do
    let given ← tagsIn value
    let now ← tagsIn (fieldOf cur "tags")
    return if sameTags given now then none else some value
  else .ok (if scalarEq value (fieldOf cur field) then none else some value)

def changedFields (new cur : Payload) : Except TagsError Payload :=
  (new.mapValuesM (changedField cur)).map present

/-- What a file's rows are resolved against: the hash of each entity's head, the versions held, and
the rows that named an entity before. -/
structure Indexes where
  hashOf : Dict EntityId String
  bases : Dict (EntityId × String) Payload
  seen : Dict EntityId ℕ

/-- `_stale`: the version a row was exported at, where its entity has changed since. -/
def Indexes.stale (indexes : Indexes) (eid : EntityId) (baseVersion : Option String) :
    Option Payload :=
  match baseVersion, indexes.hashOf.get? eid with
  | some version, some head =>
    if version = "" ∨ head = version then none else indexes.bases.get? (eid, version)
  | _, _ => none

def changedSince (fields : List String) : String :=
  "changed since you exported it: " ++ ", ".intercalate fields ++
    " — export again, or clear baseVersion to overwrite"

def namedAlready (first : ℕ) (noun : String) : String :=
  "row " ++ toString (first + 1) ++ " of this file already names this " ++ noun ++
    " — give each " ++ noun ++ " one row"

inductive RowOutcome where
  | invalid (reason : String)
  | unchanged
  /-- The patch that is written, and what it makes of the entity. -/
  | update (changed after : Payload)
  deriving DecidableEq

/-- What a row raises: for its tags, or for a value compared with the stored one. -/
inductive RowError where
  | tags (error : TagsError)
  | compare (error : CompareError)
  deriving DecidableEq

/-- A row that is diffed against what is there, `first` the row that named the entity before. -/
def settleRow (noun : String) (first : Option ℕ) (new cur : Payload) :
    Except RowError RowOutcome := do
  let changed ← (changedFields new cur).mapError .tags
  if changed = [] then return .unchanged
  else
    match first with
    | some first => return .invalid (namedAlready first noun)
    | none =>
      let after ← (applyPatch (some cur) changed).mapError .compare
      return .update changed after

/-- A row of `resolve_rows` that updates the entity it matched. -/
def Indexes.resolveUpdate (indexes : Indexes) (noun : String) (eid : EntityId)
    (baseVersion : Option String) (patch cur : Payload) : Except RowError RowOutcome :=
  let first := indexes.seen.get? eid
  match indexes.stale eid baseVersion with
  | none => settleRow noun first patch cur
  | some base => do
    let rebased ← (rebase patch base cur).mapError .tags
    let reason :=
      match first with
      | some first => namedAlready first noun
      | none => changedSince rebased.2
    if rebased.2 = [] then settleRow noun first rebased.1 cur else return .invalid reason

end DataViz.Transfer
