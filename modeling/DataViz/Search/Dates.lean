/-
# Comparing stored dates

`search_semantics.py`, for comparisons of type `date`: `_date_values` widens the user's dates,
`_stored_date` cuts the key of a stored text at the grain of the comparison, and `_test` compares
keys as texts.

A user's date is what `_to_date` reads: a day, or a moment moved to UTC. A stored value is given by
its texts: an element that is no text has no key.
-/

import DataViz.Data.Stamps
import DataViz.Data.Text

namespace DataViz.Search.Dates

section

def daysInMonth (year month : ℕ) : ℕ :=
  if month = 2 then if year % 4 = 0 ∧ (year % 100 ≠ 0 ∨ year % 400 = 0) then 29 else 28
  else if month ∈ [4, 6, 9, 11] then 30 else 31

structure Day where
  year : ℕ
  month : ℕ
  day : ℕ
  year_le : year ≤ 9999
  month_le : 1 ≤ month ∧ month ≤ 12
  day_le : 1 ≤ day ∧ day ≤ daysInMonth year month
  deriving DecidableEq

/-- A moment to the second, `datetime` without an offset. -/
structure Moment where
  day : Day
  hour : ℕ
  minute : ℕ
  second : ℕ
  hour_lt : hour < 24
  minute_lt : minute < 60
  second_lt : second < 60
  deriving DecidableEq

def digit (d : Fin 10) : Char :=
  Char.ofNat (48 + d)

/-- `YYYY-MM-DD`. -/
def dayLayout : List (ℕ × Text) :=
  [(4, ['-']), (2, ['-']), (2, [])]

/-- `YYYY-MM-DDTHH:MM:SS`. -/
def momentLayout : List (ℕ × Text) :=
  [(4, ['-']), (2, ['-']), (2, ['T']), (2, [':']), (2, [':']), (2, [])]

def Day.fields (d : Day) : List ℕ :=
  [d.year, d.month, d.day]

def Moment.fields (m : Moment) : List ℕ :=
  m.day.fields ++ [m.hour, m.minute, m.second]

def Day.isoformat (d : Day) : Text :=
  stamp digit dayLayout d.fields

def Moment.isoformat (m : Moment) : Text :=
  stamp digit momentLayout m.fields

def stampOf (d : Day) (hour minute second : ℕ) : Text :=
  stamp digit momentLayout (d.fields ++ [hour, minute, second])

/-- The stamp of a day, an hour and a minute, up to where the seconds follow. -/
def minuteOf (d : Day) (hour minute : ℕ) : Text :=
  d.isoformat ++ 'T' :: written digit hour 2 ++ ':' :: written digit minute 2

/-- The time of a moment, as its key shows it after the day. -/
def Moment.clockText (m : Moment) : Text :=
  'T' :: written digit m.hour 2 ++ ':' :: written digit m.minute 2 ++
    ':' :: written digit m.second 2

end

section

inductive Grain
  | day
  | second
  deriving DecidableEq, Repr

/-- A user's date value, at the grain it was given. -/
inductive UserDate
  | day (day : Day)
  | second (moment : Moment)
  deriving DecidableEq

def UserDate.grain : UserDate → Grain
  | .day _ => .day
  | .second _ => .second

def UserDate.key : UserDate → Text
  | .day d => d.isoformat
  | .second m => m.isoformat

def isDigit (c : Char) : Bool :=
  '0' ≤ c ∧ c ≤ '9'

def number (digits : Text) : ℕ :=
  digits.foldl (fun n c => 10 * n + (c.toNat - 48)) 0

/-- The key of a bound at the second: a day is its first second, or its last where it is the upper
bound. -/
def secondKey (upper : Bool) (date : UserDate) : Text :=
  match date.grain with
  | .day => date.key ++ (if upper then "T23:59:59" else "T00:00:00").toList
  | .second => date.key

def grainOf (dates : List UserDate) : Grain :=
  if dates.all (·.grain = .day) then .day else .second

def dateValue (date : UserDate) : List Text × Grain :=
  match grainOf [date] with
  | .day => ([date.key], .day)
  | .second => ([secondKey false date], .second)

/-- The sort of `_date_values`, of two dates. -/
def sortedByKey (first second : UserDate) : UserDate × UserDate :=
  if second.key < first.key then (second, first) else (first, second)

def datePair (first second : UserDate) : List Text × Grain :=
  let bounds := sortedByKey first second
  match grainOf [bounds.1, bounds.2] with
  | .day => ([bounds.1.key, bounds.2.key], .day)
  | .second => ([secondKey false bounds.1, secondKey true bounds.2], .second)

end

section

inductive DateOp
  | eq | neq | gt | gte | lt | lte | between
  deriving DecidableEq, Repr

structure DateComparison where
  op : DateOp
  values : List Text
  grain : Grain
  includeMissing : Bool := false

def compareWith (op : DateOp) (date : UserDate) : DateComparison :=
  { op, values := (dateValue date).1, grain := (dateValue date).2 }

def compareBetween (first second : UserDate) : DateComparison :=
  { op := .between, values := (datePair first second).1, grain := (datePair first second).2 }

def isInt64Text (s : Text) : Bool :=
  let unsigned := if s.head? = some '-' then s.tail else s
  let value : ℤ := if s.head? = some '-' then -number unsigned else number unsigned
  (unsigned = ['0'] ∨ (unsigned.all isDigit ∧ unsigned ≠ [] ∧ unsigned.head? ≠ some '0')) ∧
    s ≠ ['-', '0'] ∧ -2 ^ 63 ≤ value ∧ value ≤ 2 ^ 63 - 1

def dateTemplate : Text :=
  "0000-00-00T00:00:00".toList

def storedDate (e : Text) (grain : Grain) : Option Text :=
  let digits := e.take 4 ++ (e.drop 5).take 2 ++ (e.drop 8).take 2
  if (e.drop 4).take 1 = ['-'] ∧ (e.drop 7).take 1 = ['-'] ∧ isInt64Text digits then
    match grain with
    | .day => some (e.take 10)
    | .second =>
      let t := (e.take 19).map fun c => if c = ' ' then 'T' else c
      some (t ++ dateTemplate.drop t.length)
  else none

def test (k : Text) (op : DateOp) (values : List Text) : Bool :=
  match op, values with
  | .eq, v :: _ => k = v
  | .gt, v :: _ => v < k
  | .gte, v :: _ => ¬k < v
  | .lt, v :: _ => k < v
  | .lte, v :: _ => ¬v < k
  | .between, lower :: upper :: _ => ¬k < lower ∧ ¬upper < k
  | _, _ => false

inductive Stored
  | missing
  | single (text : Option Text)
  | list (texts : List (Option Text))

def Stored.elements : Stored → List (Option Text)
  | .missing => [none]
  | .single text => [text]
  | .list texts => texts

def matches_ (stored : Stored) (op : DateOp) (cmp : DateComparison) : Bool :=
  (stored.elements.filterMap fun e => e.bind (storedDate · cmp.grain)).any (test · op cmp.values)

def evaluate (stored : Stored) (cmp : DateComparison) : Bool :=
  match cmp.op, stored with
  | .neq, .missing => cmp.includeMissing
  | .neq, _ => !matches_ stored .eq cmp
  | op, _ => matches_ stored op cmp

end

section

/-- `Z`, or an offset: hours, and minutes with or without a colon. -/
inductive Zone
  | utc
  | offset (west : Bool) (hours : ℕ) (minutes : Option (Bool × ℕ))

def Zone.text : Zone → Text
  | .utc => ['Z']
  | .offset west hours minutes =>
    (if west then '-' else '+') :: written digit hours 2 ++ match minutes with
      | none => []
      | some (colon, minutes) => (if colon then [':'] else []) ++ written digit minutes 2

/-- Seconds, with digits after a point or a comma. -/
structure Seconds where
  second : ℕ
  fraction : Option (Bool × List (Fin 10))
  second_le : second ≤ 60

def Seconds.text (s : Seconds) : Text :=
  ':' :: written digit s.second 2 ++ match s.fraction with
    | none => []
    | some (comma, digits) => (if comma then ',' else '.') :: digits.map digit

/-- A time of day to the minute or the second. -/
structure Clock where
  space : Bool
  hour : ℕ
  minute : ℕ
  seconds : Option Seconds
  zone : Option Zone
  hour_le : hour ≤ 24
  minute_lt : minute < 60

def Clock.text (c : Clock) : Text :=
  (if c.space then ' ' else 'T') :: written digit c.hour 2 ++ ':' :: written digit c.minute 2 ++
    (c.seconds.map Seconds.text).getD [] ++ (c.zone.map Zone.text).getD []

structure StoredText where
  day : Day
  clock : Option Clock
  recent : 1000 ≤ day.year

def StoredText.text (x : StoredText) : Text :=
  x.day.isoformat ++ (x.clock.map Clock.text).getD []

/-- The hour, the minute and the second a text shows. -/
def StoredText.time (x : StoredText) : List ℕ :=
  match x.clock with
  | none => [0, 0, 0]
  | some clock => [clock.hour, clock.minute, (clock.seconds.map (·.second)).getD 0]

def StoredText.fields (x : StoredText) : Grain → List ℕ
  | .day => x.day.fields
  | .second => x.day.fields ++ x.time

end

section

def UserDate.fields : UserDate → List ℕ
  | .day d => d.fields
  | .second m => m.fields

/-- A user's date as a lower bound to the second. -/
def UserDate.first : UserDate → List ℕ
  | .day d => d.fields ++ [0, 0, 0]
  | .second m => m.fields

/-- A user's date as an upper bound to the second. -/
def UserDate.last : UserDate → List ℕ
  | .day d => d.fields ++ [23, 59, 59]
  | .second m => m.fields

/-- The meaning of an operator on what two dates show. -/
def DateOp.Holds : DateOp → List ℕ → List ℕ → Prop
  | .eq, shown, asked => shown = asked
  | .neq, shown, asked => shown ≠ asked
  | .gt, shown, asked => asked < shown
  | .gte, shown, asked => asked ≤ shown
  | .lt, shown, asked => shown < asked
  | .lte, shown, asked => shown ≤ asked
  | .between, _, _ => False

/-- The earlier of two dates and the later; a day begins before every moment of it. -/
def inTime (first second : UserDate) : UserDate × UserDate :=
  if second.fields < first.fields then (second, first) else (first, second)

def Between (x : StoredText) (first second : UserDate) : Prop :=
  let bounds := inTime first second
  match grainOf [first, second] with
  | .day => bounds.1.fields ≤ x.fields .day ∧ x.fields .day ≤ bounds.2.fields
  | .second => bounds.1.first ≤ x.fields .second ∧ x.fields .second ≤ bounds.2.last

end

end DataViz.Search.Dates
