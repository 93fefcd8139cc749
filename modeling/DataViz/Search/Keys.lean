/-
# The order of a search, and its pages

`keys.py` and the cursor of `engine.py`. The last key of an order is the match's URN. The database
orders each unit of a session by its own comparison and returns the unit's first rows; Python merges
the units by its comparison, and keeps the first `k` rows; a page is cut from these. The next page
is cut from the same session, or from a session over the matches strictly after the last row, which
the database tells by a condition on the keys.

The database compares two integers by their 64-bit difference, which wraps, an integer with a float
as doubles, and text by its bytes.
-/

import DataViz.Data.FirstRows
import DataViz.Data.TextOrder

namespace DataViz.Search

inductive Double
  | negInf
  | finite (q : ℚ)
  | posInf
  deriving DecidableEq

def Double.value : Double → WithBot (WithTop ℚ)
  | .negInf => ⊥
  | .finite q => ((q : WithTop ℚ) : WithBot (WithTop ℚ))
  | .posInf => ((⊤ : WithTop ℚ) : WithBot (WithTop ℚ))

inductive Stored
  | missing
  | int (n : Int64)
  | float (x : Double)
  | nan
  | bool (b : Bool)
  | text (t : Text)
  | list (items : List Stored)

/-- A match: its URN, its properties and its score, which is a float. -/
structure Match where
  urn : Text
  property : String → Stored
  score : Double

/-- The database's functions on texts: `toLower`, `toStringOrNull` and `toJSON`. -/
structure TextFunctions where
  toLower : Text → Text
  toStringOrNull : Stored → Option Text
  toJson : Stored → Option Text

inductive KeyValue
  | int (n : Int64)
  | double (x : Double)
  | text (t : Text)
  deriving DecidableEq

structure SortKey where
  expr : Match → KeyValue
  descending : Bool

abbrev SortSpec := List SortKey

section

variable (functions : TextFunctions)

def textOf : Stored → Option Text
  | .float x => functions.toJson (.float x)
  | .nan => functions.toJson .nan
  | value => functions.toStringOrNull value

/-- The properties that may hold a display name, from `display_name_expr`. -/
def nameColumns (nameKey : Option String) : List String :=
  [nameKey.getD "", "name", "title", "label"].foldl
    (fun columns key => if key ≠ "" ∧ key ∉ columns then columns ++ [key] else columns)
    ["displayName"]

def textIfAny : Stored → Option Text
  | .text t => if t ≠ [] then some t else none
  | _ => none

def nameText (nameKey : Option String) (m : Match) : Text :=
  functions.toLower (((nameColumns nameKey).findSome? fun c => textIfAny (m.property c)).getD [])

def qualifiedNameText (m : Match) : Text :=
  functions.toLower ((functions.toStringOrNull (m.property "qualifiedName")).getD [])

/-- Whether a value sorts as a number: an integer, a boolean, or a float equal to itself. -/
def numeric : Stored → Bool
  | .int _ | .float _ | .bool _ => true
  | _ => false

/-- The kind: numbers, and booleans, before text. -/
def kindKey (value : Stored) : KeyValue :=
  .int (if numeric value then 0 else 1)

def signKey : Stored → KeyValue
  | .int n => .int (if (n - 0).toInt < 0 then 0 else 1)
  | .float x => .int (if x.value < Double.value (.finite 0) then 0 else 1)
  | _ => .int 1

def numberKey : Stored → KeyValue
  | .int n => .int n
  | .float x => .double x
  | .bool true => .int 1
  | _ => .int 0

def textKey (value : Stored) : KeyValue :=
  .text (if numeric value then [] else ((textOf functions value).map functions.toLower).getD [])

inductive SortBy
  | relevance
  | displayName
  | qualifiedName
  | depth
  | matchCount
  deriving DecidableEq

/-- The order that a query's options ask for, and whether the query has a text to score. -/
structure SortOptions where
  sort : SortBy
  descending : Bool
  sortProperty : Option String
  scored : Bool

def urnKey : SortKey :=
  ⟨fun m => .text m.urn, false⟩

def buildSortSpec (nameKey : Option String) (options : SortOptions) : SortSpec :=
  match options.sortProperty.filter (· ≠ "") with
  | some key =>
    [⟨fun m => kindKey (m.property key), options.descending⟩,
      ⟨fun m => signKey (m.property key), options.descending⟩,
      ⟨fun m => numberKey (m.property key), options.descending⟩,
      ⟨fun m => textKey functions (m.property key), options.descending⟩,
      urnKey]
  | none =>
    match options.sort with
    | .displayName =>
      [⟨fun m => .text (nameText functions nameKey m), options.descending⟩, urnKey]
    | .qualifiedName =>
      [⟨fun m => .text (qualifiedNameText functions m), options.descending⟩, urnKey]
    | .relevance =>
      let keys : SortSpec := [⟨fun m => .text (nameText functions nameKey m), false⟩, urnKey]
      if options.scored then ⟨fun m => .double m.score, true⟩ :: keys else keys
    | .depth | .matchCount => [urnKey]

end

def nearestDouble (n : Int64) : Double :=
  match Number.toDouble n.toInt with
  | some q => .finite q
  | none => if n.toInt < 0 then .negInf else .posInf

/-- How the database compares two values; no key holds two kinds of them. -/
def compareDatabase : KeyValue → KeyValue → Ordering
  | .int m, .int n => cmp (m - n).toInt 0
  | .int m, .double y => cmp (nearestDouble m).value y.value
  | .double x, .int n => cmp x.value (nearestDouble n).value
  | .double x, .double y => cmp x.value y.value
  | .text s, .text t => cmp (textBytes s) (textBytes t)
  | .text _, _ => .lt
  | _, .text _ => .gt

def KeyValue.number : KeyValue → WithBot (WithTop ℚ)
  | .int n => Double.value (.finite n.toInt)
  | .double x => x.value
  | .text _ => ⊥

/-- `x == y`, and `_less`, which tells a number from a text by the names of their types. -/
def comparePython : KeyValue → KeyValue → Ordering
  | .text s, .text t => cmp s t
  | .text _, _ => .gt
  | _, .text _ => .lt
  | x, y => cmp x.number y.number

/-- Rows compare by their first keys that differ, each in its direction. -/
def compareRows (compare : KeyValue → KeyValue → Ordering) :
    List Bool → List KeyValue → List KeyValue → Ordering
  | descending :: directions, x :: xs, y :: ys =>
    match compare x y with
    | .eq => compareRows compare directions xs ys
    | .lt => if descending then .gt else .lt
    | .gt => if descending then .lt else .gt
  | _, _, _ => .eq

namespace SortSpec

variable (spec : SortSpec)

def directions : List Bool :=
  spec.map SortKey.descending

structure Row where
  values : List KeyValue
  length_eq : values.length = spec.length
  deriving DecidableEq

def row (m : Match) : spec.Row where
  values := spec.map fun key => key.expr m
  length_eq := List.length_map _

def DatabaseLe (x y : spec.Row) : Prop :=
  compareRows compareDatabase spec.directions x.values y.values ≠ .gt

/-- `sort_key`. -/
def PythonLe (x y : spec.Row) : Prop :=
  compareRows comparePython spec.directions x.values y.values ≠ .gt

instance : DecidableRel spec.DatabaseLe :=
  fun _ _ => inferInstanceAs (Decidable (_ ≠ _))

instance : DecidableRel spec.PythonLe :=
  fun _ _ => inferInstanceAs (Decidable (_ ≠ _))

def afterKey (descending : Bool) (k a : KeyValue) : Bool :=
  if descending then compareDatabase k a = .lt else compareDatabase k a = .gt

def afterRow : List Bool → List KeyValue → List KeyValue → Bool
  | [descending], [k], [a] => afterKey descending k a
  | descending :: directions, k :: ks, a :: as =>
    afterKey descending k a || (compareDatabase k a = .eq && afterRow directions ks as)
  | _, _, _ => false

/-- Whether a session that starts after a row counts a row. -/
def isAfter (after : Option spec.Row) (row : spec.Row) : Bool :=
  after.all fun a => afterRow spec.directions row.values a.values

/-- The first rows of a unit, from `page_statements` and `after_statement`. -/
def unitRows (k : ℕ) (after : Option spec.Row) (unit : List Match) : List spec.Row :=
  firstRows spec.DatabaseLe k ((unit.map spec.row).filter (spec.isAfter after))

def merge (limit : ℕ) (rows more : List spec.Row) : List spec.Row :=
  firstRows spec.PythonLe limit (rows ++ more)

def sessionRows (k : ℕ) (after : Option spec.Row) (units : List (List Match)) : List spec.Row :=
  units.foldl (fun rows unit => spec.merge k rows (spec.unitRows k after unit)) []

/-- Where the next page is: whether its session holds it already, the place in it, and the last
row. -/
structure Cursor where
  sid : Bool
  pos : ℕ
  after : spec.Row

/-- `_answer`: a page of a complete session, and the cursor to the next. The first session knows
how many matches there are. -/
def answer (pageSize k : ℕ) (total : Option ℕ) (rows : List spec.Row) (pos : ℕ) :
    List spec.Row × Option spec.Cursor :=
  let page := (rows.drop pos).take pageSize
  let stop := pos + page.length
  match page.getLast? with
  | none => (page, none)
  | some last =>
    if (stop < rows.length ∨ k ≤ rows.length) ∧ ∀ t ∈ total, stop < t then
      (page, some ⟨decide (stop < rows.length), stop, last⟩)
    else (page, none)

/-- How the matches are split into units, for the session after a row. -/
abbrev Plans := Option spec.Row → List (List Match)

/-- The rows a session keeps: whole pages, at least `session_rows`. -/
def keptRows (pageSize sessionRows : ℕ) : ℕ :=
  pageSize * max 1 ((sessionRows + pageSize - 1) / pageSize)

/-- The pages that a client reads by following the cursors, in so many requests at most. A session
that holds the next page may be gone by then. -/
def follow (pageSize k : ℕ) (plans : spec.Plans) (keeps : ℕ → Bool) :
    ℕ → Option spec.Row → ℕ → Option (List (List spec.Row))
  | 0, _, _ => none
  | requests + 1, after, pos =>
    let units := plans after
    let total := if after.isNone then some (units.map List.length).sum else none
    let answered := spec.answer pageSize k total (spec.sessionRows k after units) pos
    match answered.2 with
    | none => some [answered.1]
    | some cursor =>
      (if cursor.sid && keeps requests then
          follow pageSize k plans keeps requests after cursor.pos
        else follow pageSize k plans keeps requests (some cursor.after) 0).map
        (answered.1 :: ·)

end SortSpec

end DataViz.Search
