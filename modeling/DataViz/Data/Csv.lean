/-
# Delimited rows

A row of texts as one text, and back. The writer quotes a text that holds the delimiter, a
quote or a line break, doubling its quotes, and a row of one empty text. The reader is the machine
of the `csv` module's default dialect: a quote opens a quoted text only at its start, and a line
break outside one ends the row. A text longer than the module's limit is an error.
-/

import DataViz.Data.Text

namespace DataViz

open List

namespace Csv

section

variable (delim : Char)

/-- A character that is written within quotes only. -/
def isSpecial (c : Char) : Bool :=
  c = delim || c = '"' || c = '\n' || c = '\r'

def escaped (c : Char) : Text :=
  if c = '"' then ['"', '"'] else [c]

def quotedField (field : Text) : Text :=
  '"' :: field.flatMap escaped ++ ['"']

def writeField (field : Text) : Text :=
  if field.any (isSpecial delim) then quotedField field else field

def writeRest : List Text → Text
  | [] => []
  | field :: rest => delim :: writeField delim field ++ writeRest rest

def writeRow : List Text → Text
  | [] => []
  | [[]] => quotedField []
  | field :: rest => writeField delim field ++ writeRest delim rest

theorem writeRow_cons_cons (first next : Text) (rest : List Text) :
    writeRow delim (first :: next :: rest) =
      writeField delim first ++ writeRest delim (next :: rest) := by
  cases first <;> rfl

end

inductive Place where
  | startRow | startField | inField | inQuoted | quoteInQuoted | afterRow
  deriving DecidableEq

/-- The module's `field_size_limit()`, as it is unless a program sets it. -/
def fieldSizeLimit : ℕ :=
  131072

inductive RowError where
  | newLine | fieldLimit
  deriving DecidableEq

structure Reader where
  place : Place := .startRow
  field : Text := []
  fields : List Text := []

namespace Reader

variable (delim : Char) (s : Reader)

def save (place : Place) : Reader :=
  { place, field := [], fields := s.fields ++ [s.field] }

def add (place : Place) (c : Char) : Except RowError Reader :=
  if fieldSizeLimit ≤ s.field.length then .error .fieldLimit
  else .ok { s with place, field := s.field ++ [c] }

def start (c : Char) : Except RowError Reader :=
  if c = '\n' ∨ c = '\r' then .ok (s.save .afterRow)
  else if c = '"' then .ok { s with place := .inQuoted }
  else if c = delim then .ok (s.save .startField)
  else s.add .inField c

/-- One character. A row goes on after its line end in an error only. -/
def step (c : Char) : Except RowError Reader :=
  match s.place with
  | .startRow =>
    if c = '\n' ∨ c = '\r' then .ok { s with place := .afterRow } else s.start delim c
  | .startField => s.start delim c
  | .inField =>
    if c = '\n' ∨ c = '\r' then .ok (s.save .afterRow)
    else if c = delim then .ok (s.save .startField)
    else s.add .inField c
  | .inQuoted => if c = '"' then .ok { s with place := .quoteInQuoted } else s.add .inQuoted c
  | .quoteInQuoted =>
    if c = '"' then s.add .inQuoted c
    else if c = delim then .ok (s.save .startField)
    else if c = '\n' ∨ c = '\r' then .ok (s.save .afterRow)
    else s.add .inField c
  | .afterRow => if c = '\n' ∨ c = '\r' then .ok s else .error .newLine

/-- The texts of a row that ends here. A quoted text still open ends with it. -/
def finish : List Text :=
  match s.place with
  | .startRow | .afterRow => s.fields
  | _ => s.fields ++ [s.field]

end Reader

/-- `next(csv.reader([text]))`. -/
def readRow (delim : Char) (text : Text) : Except RowError (List Text) :=
  (text.foldlM (Reader.step delim) {}).map Reader.finish

section

variable {delim : Char} {c : Char} {s : Reader} {field : Text}

theorem Reader.add_of_lt (room : s.field.length < fieldSizeLimit) (place : Place) (c : Char) :
    s.add place c = .ok { s with place, field := s.field ++ [c] } :=
  if_neg (Nat.not_le.mpr room)

/-- Reading a text that needs no quotes adds it, where there is room. -/
theorem foldlM_plain (plain : field.any (isSpecial delim) = false) (text : Text)
    (inside : s.place = .inField) (room : s.field.length + field.length ≤ fieldSizeLimit) :
    (field ++ text).foldlM (Reader.step delim) s =
      text.foldlM (Reader.step delim) { s with field := s.field ++ field } := by
  induction field generalizing s with
  | nil => rw [nil_append, append_nil]
  | cons c rest ih =>
    rw [List.any_cons, Bool.or_eq_false_iff] at plain
    obtain ⟨special, plain⟩ := plain
    simp only [isSpecial, Bool.or_eq_false_iff, decide_eq_false_iff_not] at special
    obtain ⟨⟨⟨noDelim, -⟩, noFeed⟩, noReturn⟩ := special
    rw [length_cons] at room
    have step : Reader.step delim s c = .ok { s with field := s.field ++ [c] } := by
      rw [Reader.step, inside]
      simp only [noDelim, noFeed, noReturn, or_self, if_false]
      rw [Reader.add_of_lt (by omega)]
    have room' : (s.field ++ [c]).length + rest.length ≤ fieldSizeLimit := by
      rw [length_append, length_singleton]
      omega
    rw [cons_append, foldlM_cons, step]
    change (rest ++ text).foldlM (Reader.step delim) { s with field := s.field ++ [c] } = _
    rw [ih (s := { s with field := s.field ++ [c] }) plain inside room', append_assoc,
      singleton_append]

theorem foldlM_escaped (text : Text) (inside : s.place = .inQuoted)
    (room : s.field.length + field.length ≤ fieldSizeLimit) :
    (field.flatMap escaped ++ text).foldlM (Reader.step delim) s =
      text.foldlM (Reader.step delim) { s with field := s.field ++ field } := by
  induction field generalizing s with
  | nil => rw [flatMap_nil, nil_append, append_nil]
  | cons c rest ih =>
    rw [length_cons] at room
    have add (place : Place) : ({ s with place } : Reader).add .inQuoted c =
        .ok { s with place := .inQuoted, field := s.field ++ [c] } :=
      Reader.add_of_lt (s := { s with place }) (show s.field.length < _ by omega) .inQuoted c
    have added : (escaped c ++ (rest.flatMap escaped ++ text)).foldlM (Reader.step delim) s =
        (rest.flatMap escaped ++ text).foldlM (Reader.step delim)
          { s with place := .inQuoted, field := s.field ++ [c] } := by
      rw [escaped]
      by_cases quote : c = '"'
      · subst quote
        have first : Reader.step delim s '"' = .ok { s with place := .quoteInQuoted } := by
          rw [Reader.step, inside]
          rfl
        have second : Reader.step delim { s with place := .quoteInQuoted } '"' =
            .ok { s with place := .inQuoted, field := s.field ++ ['"'] } := by
          rw [Reader.step]
          exact (if_pos rfl).trans (add .quoteInQuoted)
        rw [if_pos rfl, cons_append, foldlM_cons, first]
        change (('"' :: (rest.flatMap escaped ++ text)).foldlM (Reader.step delim) _) = _
        rw [foldlM_cons, second]
        rfl
      · have first : Reader.step delim s c =
            .ok { s with place := .inQuoted, field := s.field ++ [c] } := by
          rw [Reader.step, inside]
          simp only [quote, if_false]
          exact add s.place
        rw [if_neg quote, singleton_append, foldlM_cons, first]
        rfl
    have room' : (s.field ++ [c]).length + rest.length ≤ fieldSizeLimit := by
      rw [length_append, length_singleton]
      omega
    rw [flatMap_cons, append_assoc, added, ih rfl room', append_assoc, singleton_append, ← inside]

structure Delimits (delim : Char) : Prop where
  noQuote : delim ≠ '"'
  noFeed : delim ≠ '\n'
  noReturn : delim ≠ '\r'

structure Reader.Starts (s : Reader) : Prop where
  place : s.place = .startRow ∨ s.place = .startField
  field : s.field = []

theorem Reader.Starts.quote (starts : s.Starts) :
    s.step delim '"' = .ok { s with place := .inQuoted } := by
  rcases starts.place with start | start
  · rw [Reader.step, start]
    rfl
  · rw [Reader.step, start]
    rfl

theorem Reader.Starts.ends (starts : s.Starts) (delimits : Delimits delim) :
    s.step delim delim = .ok { place := .startField, fields := s.fields ++ [[]] } := by
  have ends : s.start delim delim = .ok { place := .startField, fields := s.fields ++ [[]] } := by
    rw [Reader.start, if_neg (not_or.mpr ⟨delimits.noFeed, delimits.noReturn⟩),
      if_neg delimits.noQuote, if_pos rfl, Reader.save, starts.field]
  rcases starts.place with start | start
  · rw [Reader.step, start]
    rw [if_neg (not_or.mpr ⟨delimits.noFeed, delimits.noReturn⟩), ends]
  · rw [Reader.step, start]
    rw [ends]

theorem Reader.Starts.plain (starts : s.Starts) (plain : isSpecial delim c = false) :
    s.step delim c = .ok { s with place := .inField, field := [c] } := by
  simp only [isSpecial, Bool.or_eq_false_iff, decide_eq_false_iff_not] at plain
  obtain ⟨⟨⟨noDelim, noQuote⟩, noFeed⟩, noReturn⟩ := plain
  have adds : s.start delim c = .ok { s with place := .inField, field := [c] } := by
    simp only [Reader.start, noDelim, noQuote, noFeed, noReturn, or_self, if_false]
    rw [Reader.add_of_lt (by rw [starts.field]; decide), starts.field, nil_append]
  rcases starts.place with start | start
  · rw [Reader.step, start]
    simp only [noFeed, noReturn, or_self, if_false, adds]
  · rw [Reader.step, start]
    simp only [adds]

theorem foldlM_quotedField (starts : s.Starts) (fits : field.length ≤ fieldSizeLimit)
    (text : Text) :
    (quotedField field ++ text).foldlM (Reader.step delim) s =
      text.foldlM (Reader.step delim) { s with place := .quoteInQuoted, field := field } := by
  have split : quotedField field ++ text = '"' :: (field.flatMap escaped ++ '"' :: text) := by
    rw [quotedField, cons_append, cons_append, append_assoc, singleton_append]
  rw [split, foldlM_cons, starts.quote]
  change (field.flatMap escaped ++ '"' :: text).foldlM (Reader.step delim) _ = _
  rw [foldlM_escaped _ rfl (by rw [starts.field, length_nil, Nat.zero_add]; exact fits),
    foldlM_cons, starts.field, nil_append]
  rfl

/-- Reading a text of a row and the delimiter after it. -/
theorem foldlM_writeField (delimits : Delimits delim) (starts : s.Starts)
    (fits : field.length ≤ fieldSizeLimit) (text : Text) :
    (writeField delim field ++ delim :: text).foldlM (Reader.step delim) s =
      text.foldlM (Reader.step delim) { place := .startField, fields := s.fields ++ [field] } := by
  rw [writeField]
  split
  · rw [foldlM_quotedField starts fits, foldlM_cons]
    have ends : Reader.step delim { s with place := .quoteInQuoted, field := field } delim =
        .ok { place := .startField, fields := s.fields ++ [field] } := by
      simp only [Reader.step, delimits.noQuote, if_false, if_true, Reader.save]
    rw [ends]
    rfl
  · next plain =>
      rw [Bool.not_eq_true] at plain
      cases field with
      | nil =>
        rw [nil_append, foldlM_cons, starts.ends delimits]
        rfl
      | cons c rest =>
        have first := plain
        rw [List.any_cons, Bool.or_eq_false_iff] at first
        rw [cons_append, foldlM_cons, starts.plain first.1]
        change (rest ++ delim :: text).foldlM (Reader.step delim)
          { s with place := .inField, field := [c] } = _
        rw [foldlM_plain first.2 _ rfl (by rw [Nat.add_comm]; exact fits), foldlM_cons]
        have ends : Reader.step delim { s with place := .inField, field := [c] ++ rest } delim =
              .ok { place := .startField, fields := s.fields ++ [c :: rest] } := by
          simp only [Reader.step, delimits.noFeed, delimits.noReturn, or_self, if_false, if_true,
            Reader.save, singleton_append]
        rw [ends]
        rfl

/-- Reading the last text of a row. -/
theorem finish_writeField (starts : s.Starts) (some' : s.place = .startRow → field ≠ [])
    (fits : field.length ≤ fieldSizeLimit) :
    ((writeField delim field).foldlM (Reader.step delim) s).map Reader.finish =
      .ok (s.fields ++ [field]) := by
  rw [writeField]
  split
  · have quoted := @foldlM_quotedField delim s field starts fits []
    rw [append_nil] at quoted
    rw [quoted]
    rfl
  · next plain =>
      rw [Bool.not_eq_true] at plain
      cases field with
      | nil =>
        have start := starts.place.resolve_left fun row => some' row rfl
        change Except.ok s.finish = _
        rw [Reader.finish, start, starts.field]
      | cons c rest =>
        rw [List.any_cons, Bool.or_eq_false_iff] at plain
        have all := foldlM_plain plain.2 [] (s := { s with place := .inField, field := [c] }) rfl
          (by rw [Nat.add_comm]; exact fits)
        rw [append_nil] at all
        rw [foldlM_cons, starts.plain plain.1]
        change (rest.foldlM (Reader.step delim)
          { s with place := .inField, field := [c] }).map Reader.finish = _
        rw [all]
        rfl

theorem finish_writeRest (delimits : Delimits delim) {rest : List Text} (more : rest ≠ [])
    (starts : s.Starts) (fits : ∀ text ∈ field :: rest, text.length ≤ fieldSizeLimit) :
    ((writeField delim field ++ writeRest delim rest).foldlM (Reader.step delim) s).map
      Reader.finish = .ok (s.fields ++ field :: rest) := by
  induction rest generalizing s field with
  | nil => exact absurd rfl more
  | cons next rest ih =>
    obtain ⟨first, fits⟩ := forall_mem_cons.mp fits
    rw [writeRest, cons_append, foldlM_writeField delimits starts first]
    cases rest with
    | nil =>
      have last : Reader.Starts { place := .startField, fields := s.fields ++ [field] } :=
        ⟨Or.inr rfl, rfl⟩
      rw [writeRest, append_nil, finish_writeField last (fun row => by cases row)
        (fits next mem_cons_self)]
      simp
    | cons other rest =>
      rw [ih (cons_ne_nil _ _) ⟨Or.inr rfl, rfl⟩ fits]
      simp

/-- A row without a text past the limit is read back. -/
theorem readRow_writeRow (delimits : Delimits delim) {row : List Text}
    (fits : ∀ text ∈ row, text.length ≤ fieldSizeLimit) :
    readRow delim (writeRow delim row) = .ok row := by
  have starts : Reader.Starts {} := ⟨Or.inl rfl, rfl⟩
  match row with
  | [] => rfl
  | [[]] => rfl
  | [c :: field] =>
    have single : writeRow delim [c :: field] = writeField delim (c :: field) :=
      append_nil _
    rw [readRow, single, finish_writeField starts (fun _ => cons_ne_nil _ _) (fits _ mem_cons_self)]
    rfl
  | first :: next :: rest =>
    rw [readRow, writeRow_cons_cons, finish_writeRest delimits (cons_ne_nil _ _) starts fits]
    rfl

end

end Csv

end DataViz
