/-
# Partial updates

`property_patch.py`: an update names only the fields it changes. Top-level fields
replace; the `properties` are merged one level deep, a value marked `PROP_DELETE`
removing its property. `typed_merge.py` keeps a stored property's type when a patch
sends the same value back in a lossier form.

Comparing an integer past the doubles with a float raises `OverflowError`, and reading
an integer of too many digits `ValueError`. Properties that are neither an object nor
empty have no items to merge and are not modelled.
-/

import DataViz.Data.Number
import DataViz.Data.Raising
import DataViz.Versioning.Basic

namespace DataViz.Versioning

/-- What comparing two values raises. -/
inductive CompareError
  | overflowError
  | valueError
  deriving DecidableEq

def floatOfInt (n : ℤ) : Except CompareError ℚ :=
  match Number.toDouble n with
  | some double => .ok double
  | none => .error .overflowError

def sameInt (stored : ℤ) : Json → Except CompareError Bool
  | .str incoming =>
    match Number.intParts incoming with
    | none => .ok false
    | some (sign, digits) =>
      if Number.maxStrDigits < digits.length then .error .valueError
      else .ok (sign * Number.ofDigits digits = stored)
  | .scalar (.float _ incoming) => do
    let double ← floatOfInt stored
    return double = incoming
  | _ => .ok false

def sameFloat (stored : ℚ) : Json → Except CompareError Bool
  | .str incoming => .ok ((Number.readFloat incoming).join = some stored)
  | .int incoming => do
    let double ← floatOfInt incoming
    return double = stored
  | _ => .ok false

def sameBool (stored : Bool) : Json → Except CompareError Bool
  | .str incoming =>
    .ok ((Number.strip incoming).map Char.toLower = (if stored then "true" else "false").toList)
  | _ => .ok false

/-- `_same_text`: a string that holds a number, sent back as the number. The text is read
first, and where it holds none the number is not looked at. -/
def sameText (stored : String) : Json → Except CompareError Bool
  | .int incoming =>
    match Number.readFloat stored with
    | none => .ok false
    | some number => do
      let double ← floatOfInt incoming
      return number = some double
  | .scalar (.float _ incoming) => .ok ((Number.readFloat stored).join = some incoming)
  | _ => .ok false

/-- Whether an incoming value is a stored scalar in another form. -/
def sameScalar : Scalar → Json → Except CompareError Bool
  | .null => fun _ => .ok false
  | .bool stored => sameBool stored
  | .int stored => sameInt stored
  | .float _ stored => sameFloat stored
  | .str stored => sameText stored

mutual

def preserveStoredType : Json → Json → Except CompareError Json
  | .scalar stored, incoming => do
    let same ← sameScalar stored incoming
    return if same then .scalar stored else incoming
  | .arr stored, .arr incoming =>
    if stored.length = incoming.length then (preserveItems stored incoming).map .arr
    else .ok (.arr incoming)
  | .obj stored, .obj incoming => (preserveFields stored [] incoming).map .obj
  | _, incoming => .ok incoming

/-- `preserve_stored_type` element by element. -/
def preserveItems : List Json → List Json → Except CompareError (List Json)
  | stored :: olds, incoming :: news => do
    let value ← preserveStoredType stored incoming
    let rest ← preserveItems olds news
    return value :: rest
  | _, news => .ok news

/-- `preserve_stored_type` key by key. A key that stands again later is `seen`, and its
first value alone is the object's. -/
def preserveFields (stored : Dict String Json) (seen : List String) :
    List (String × Json) → Except CompareError (List (String × Json))
  | [] => .ok []
  | (key, incoming) :: rest =>
    if key ∈ seen then preserveFields stored seen rest
    else do
      let value ← match stored.get? key with
        | some value => preserveStoredType value incoming
        | none => .ok incoming
      let rest ← preserveFields stored (key :: seen) rest
      return (key, value) :: rest

end

/-- Marks a property for removal inside a patch. -/
def propDelete : Json := .str "__nx_prop_delete__"

def isDelete (value : Json) : Bool :=
  value = propDelete

def hasProperties (payload : Payload) : Bool :=
  ((payload.get? "properties").getD .null) ≠ .null

def propertiesOf (payload : Payload) : Dict String Json :=
  match payload.get? "properties" with
  | some (.obj properties) => properties
  | _ => []

def dropDeletes (properties : Dict String Json) : Dict String Json :=
  properties.items.filter fun entry => !isDelete entry.2

/-- What a patch's property stores over the property it meets. -/
def overStored : Option Json → Json → Except CompareError Json
  | some stored, value => preserveStoredType stored value
  | none, value => .ok value

def mergeProps (base patch : Payload) : Except CompareError (Dict String Json) := do
  let before := propertiesOf base
  let merged ← (propertiesOf patch).mapValuesM fun key value =>
    overStored (before.get? key) value
  return before.update merged

def applyPatch (base : Option Payload) (patch : Payload) : Except CompareError Payload :=
  let base := base.getD []
  let out := base.update patch
  if hasProperties patch || hasProperties base then do
    let merged ← mergeProps base patch
    return out.set "properties" (.obj (dropDeletes merged))
  else .ok out

def composePatches (first second : Payload) : Except CompareError Payload :=
  let out := first.update second
  if hasProperties first || hasProperties second then do
    let merged ← mergeProps first second
    return out.set "properties" (.obj merged)
  else .ok out

def stripDeletes (payload : Payload) : Payload :=
  match payload.get? "properties" with
  | some (.obj properties) =>
    if (Dict.items properties).any fun entry => isDelete entry.2 then
      payload.set "properties" (.obj (dropDeletes properties))
    else payload
  | _ => payload

def reservedNodeKeys : List String :=
  ["urn", "entityType", "displayName", "qualifiedName", "description", "tags",
    "layerAssignment", "childCount", "sourceSystem", "lastSyncedAt", "level", "levelDigest",
    "entityId", "searchableText", "properties", "propertiesRaw", "urnSource", "nameSource",
    "gvHash"]

def sanitizeNodeProperties (payload : Payload) : Payload :=
  match payload.get? "properties" with
  | some (.obj properties) =>
    let clean := properties.filter fun entry => entry.1 ∉ reservedNodeKeys
    if clean.length = properties.length then payload
    else payload.set "properties" (.obj clean)
  | _ => payload

end DataViz.Versioning
