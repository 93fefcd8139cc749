/-
# The residency policy in force

`residency_policy.py`: a change names settings by their wire names and is refused when a value is
of the wrong kind, out of its range, or would contradict another once in force with what is saved.
What is in force is each saved value in its own range, else the environment's, with Coldline never
outliving Standard and the stop mark five points under the start mark.

A request and the settings row hold JSON values, `null` for an unset one. How Python reads a text
as an integer is a parameter: no accepted value is a text of digits.
-/

import DataViz.Data.Json
import DataViz.Residency.Plan
import Mathlib.Data.List.DropRight

namespace DataViz.Residency

inductive Whole
  | standardIdleSecs
  | coldlineIdleSecs
  | highWaterPct
  | lowWaterPct
  | loadMarginPct
  | bytesPerEntity
  | coldlineCanvasLoadAbove
  | capacityIntervalSecs
  deriving DecidableEq

def Whole.range : Whole → ℤ × ℤ
  | .standardIdleSecs => (3600, 365 * 86400)
  | .coldlineIdleSecs => (300, 7 * 86400)
  | .highWaterPct => (50, 95)
  | .lowWaterPct => (30, 90)
  | .loadMarginPct => (100, 300)
  | .bytesPerEntity => (100, 10000)
  | .coldlineCanvasLoadAbove => (0, 100000000)
  | .capacityIntervalSecs => (15, 600)

inductive Wire
  | evictionEnabled
  | defaultResidency
  | whole (field : Whole)
  deriving DecidableEq

def Wire.name : Wire → String
  | .evictionEnabled => "evictionEnabled"
  | .defaultResidency => "defaultResidency"
  | .whole .standardIdleSecs => "standardIdleSecs"
  | .whole .coldlineIdleSecs => "coldlineIdleSecs"
  | .whole .highWaterPct => "highWaterPct"
  | .whole .lowWaterPct => "lowWaterPct"
  | .whole .loadMarginPct => "loadMarginPct"
  | .whole .bytesPerEntity => "bytesPerEntity"
  | .whole .coldlineCanvasLoadAbove => "coldlineCanvasLoadAbove"
  | .whole .capacityIntervalSecs => "capacityIntervalSecs"

def wireNames : List Wire :=
  [.evictionEnabled, .defaultResidency, .whole .standardIdleSecs, .whole .coldlineIdleSecs,
    .whole .highWaterPct, .whole .lowWaterPct, .whole .loadMarginPct, .whole .bytesPerEntity,
    .whole .coldlineCanvasLoadAbove, .whole .capacityIntervalSecs]

def wireNamed (name : String) : Option Wire :=
  wireNames.find? (·.name = name)

def classes : List String := ["always", "standard", "coldline"]

/-- The environment's defaults; that of `defaultResidency` is `"standard"`. -/
structure Environment where
  evictionEnabled : Bool
  whole : Whole → ℤ

def Environment.shipped : Environment where
  evictionEnabled := true
  whole
    | .standardIdleSecs => 604800
    | .coldlineIdleSecs => 3600
    | .highWaterPct => 80
    | .lowWaterPct => 70
    | .loadMarginPct => 130
    | .bytesPerEntity => 550
    | .coldlineCanvasLoadAbove => 500000
    | .capacityIntervalSecs => 60

/-- What a settings row holds for each setting, `null` where it is unset. -/
abbrev Saved := Wire → Json

/-- A value for each setting, `ResidencyPolicy` of the source. -/
structure Values where
  evictionEnabled : Bool
  defaultResidency : String
  whole : Whole → ℤ

def Values.value (values : Values) : Wire → Json
  | .evictionEnabled => .bool values.evictionEnabled
  | .defaultResidency => .str values.defaultResidency
  | .whole field => .int (values.whole field)

def Values.planned (values : Values) : ResidencyPolicy where
  evictionEnabled := values.evictionEnabled
  standardIdleSecs := values.whole .standardIdleSecs
  coldlineIdleSecs := values.whole .coldlineIdleSecs
  highWaterPct := values.whole .highWaterPct
  lowWaterPct := values.whole .lowWaterPct
  loadMarginPct := values.whole .loadMarginPct
  bytesPerEntity := values.whole .bytesPerEntity

section

variable (readInt : String → Option ℤ)

def toInt : Json → Option ℤ
  | .int n => some n
  | .bool b => some (if b then 1 else 0)
  | .scalar (.float _ value) => some (value.num.tdiv value.den)
  | .str s => readInt s
  | _ => none

def switchInRange (value : Json) (fallback : Bool) : Bool :=
  match value with
  | .bool b => b
  | _ => fallback

def classInRange (value : Json) (fallback : String) : String :=
  match value with
  | .str s => if s ∈ classes then s else fallback
  | _ => fallback

def wholeInRange (field : Whole) (value : Json) (fallback : ℤ) : ℤ :=
  match toInt readInt value with
  | some n => max field.range.1 (min field.range.2 n)
  | none => fallback

def orDefault {α : Type} (value : Json) (default_ : α) (inRange : Json → α → α) : α :=
  match value with
  | .null => default_
  | value => inRange value default_

def ownDefault (env : Environment) : Values where
  evictionEnabled := switchInRange (.bool env.evictionEnabled) env.evictionEnabled
  defaultResidency := classInRange (.str "standard") "standard"
  whole field := wholeInRange readInt field (.int (env.whole field)) (env.whole field)

def single (env : Environment) (saved : Saved) : Values where
  evictionEnabled :=
    orDefault (saved .evictionEnabled) (ownDefault readInt env).evictionEnabled switchInRange
  defaultResidency :=
    orDefault (saved .defaultResidency) (ownDefault readInt env).defaultResidency classInRange
  whole field :=
    orDefault (saved (.whole field)) ((ownDefault readInt env).whole field)
      (wholeInRange readInt field)

def effective (env : Environment) (saved : Saved) : Values :=
  let values := single readInt env saved
  { values with
    whole := fun field => match field with
      | .coldlineIdleSecs => min (values.whole .coldlineIdleSecs) (values.whole .standardIdleSecs)
      | .lowWaterPct => min (values.whole .lowWaterPct) (values.whole .highWaterPct - 5)
      | field => values.whole field }

end

section

def isInherit (value : Json) : Bool :=
  match value with
  | .int n => n = -1
  | _ => false

/-- What a value asked for is stored as: `-1` clears a setting. -/
def storedAs (value : Json) : Json :=
  if isInherit value then .null else value

def merged (saved : Saved) (values : Dict String Json) : Saved := fun wire =>
  match values.get? wire.name with
  | none => saved wire
  | some .null => saved wire
  | some value => storedAs value

/-- One setting of `apply`; `none` is the `KeyError` of a name that is no setting's. -/
def applyOne (row : Saved) (entry : String × Json) : Option Saved :=
  match entry.2 with
  | .null => some row
  | value => (wireNamed entry.1).map fun wire => Function.update row wire (storedAs value)

def apply (row : Saved) (values : Dict String Json) : Option Saved :=
  values.foldlM applyOne row

structure PolicyInvalid where
  field : String
  message : String
deriving DecidableEq

/-- `f"{n:,}"` of a number that is not negative. -/
def grouped (n : ℤ) : String :=
  String.ofList (List.intercalate [',']
    (((Nat.toDigits 10 n.toNat).reverse.toChunks 3).map List.reverse).reverse)

/-- Whether a value is of a setting's kind and in its range. -/
def accepts : Wire → Json → Bool
  | .evictionEnabled, .bool _ => true
  | .defaultResidency, .str s => s ∈ classes
  | .whole field, .int n => field.range.1 ≤ n && n ≤ field.range.2
  | _, _ => false

def refusal : Wire → String
  | .evictionEnabled => "must be true or false, or -1 for the default"
  | .defaultResidency => "must be always, standard or coldline, or -1 for the default"
  | .whole field =>
    "must be a whole number from " ++ grouped field.range.1 ++ " to " ++ grouped field.range.2 ++
      ", or -1 for the default"

def checkValue (entry : String × Json) : Except PolicyInvalid Unit :=
  match wireNamed entry.1 with
  | none => .error ⟨entry.1, entry.1 ++ " is not a residency setting"⟩
  | some wire =>
    match entry.2 with
    | .null => .ok ()
    | value =>
      if isInherit value || accepts wire value then .ok ()
      else .error ⟨entry.1, refusal wire⟩

def named (values : Dict String Json) (field : Whole) : Bool :=
  (Wire.whole field).name ∈ values.keys

def validate (readInt : String → Option ℤ) (env : Environment) (values : Dict String Json)
    (saved : Saved) : Except PolicyInvalid Unit := do
  values.forM checkValue
  let after := single readInt env (merged saved values)
  let standard := after.whole .standardIdleSecs
  let coldline := after.whole .coldlineIdleSecs
  if standard < coldline ∧ (named values .standardIdleSecs ∨ named values .coldlineIdleSecs) then
    throw ⟨if named values .coldlineIdleSecs then "coldlineIdleSecs" else "standardIdleSecs",
      "the Coldline idle time (" ++ grouped coldline ++
        " s) may not be longer than the Standard idle time (" ++ grouped standard ++ " s)"⟩
  let high := after.whole .highWaterPct
  let low := after.whole .lowWaterPct
  if high - 5 < low ∧ (named values .highWaterPct ∨ named values .lowWaterPct) then
    throw ⟨if named values .lowWaterPct then "lowWaterPct" else "highWaterPct",
      "the stop mark (" ++ toString low ++
        "%) must be at least 5 points under the start mark (" ++ toString high ++ "%)"⟩

end

end DataViz.Residency
