/-
# Records as delimited files

An export is written as CSV or TSV, a row for each record, and read back a chunk of bytes at a
time: bytes are gathered into lines, lines into rows while a quoted cell is open, and a row's
cells into a record by the names of the first row. Reading fails where a line or a quoted
row is too long, or where the reader of rows does.

How Python writes lists and objects as texts, and what it reads from a text as JSON, is a
parameter. Paging is only where the writer stops to hand over its bytes.
-/

import Mathlib.Data.List.DropRight
import DataViz.Data.Csv
import DataViz.Data.Utf8
import DataViz.Data.Json

namespace DataViz.Transfer

abbrev Record := Dict String Json

structure JsonText where
  /-- `json.dumps` of a list, with `ensure_ascii=False`. -/
  dumps : List Json → Text
  /-- `json.loads`, where the text is JSON. -/
  loads : Text → Option Json
  /-- `str` of a dictionary. -/
  repr : List (String × Json) → Text

def strip (text : Text) : Text :=
  Number.strip (String.ofList text)

def propPrefix : String :=
  "prop."

def isProp (column : String) : Bool :=
  propPrefix.toList.isPrefixOf column.toList

def isScalar : Json → Bool
  | .scalar _ => true
  | _ => false

section

variable (json : JsonText)

def cellText : Option Json → Text
  | none | some .null => []
  | some (.arr items) => json.dumps items
  | some (.obj fields) => json.repr fields
  | some (.scalar (.str text)) => text.toList
  | some (.scalar (.bool b)) => (if b then "True" else "False").toList
  | some (.scalar (.int n)) => (toString n).toList
  | some (.scalar (.float text _)) => text.toList

def listIn (text : Text) : Option (List Json) :=
  let stripped := strip text
  if stripped.head? = some '[' ∧ stripped.getLast? = some ']' then
    match json.loads stripped with
    | some (.arr items) => if items.all isScalar then some items else none
    | _ => none
  else none

def readCell (column : String) (text : Text) : Json :=
  match if isProp column then listIn json text else none with
  | some items => .arr items
  | none => .str (String.ofList text)

end

def firsts (columns : List String) : List String :=
  columns.foldl (fun seen column => if column ∈ seen then seen else seen ++ [column]) []

def nodeColOrder : List String :=
  ["entity_id", "urn", "entityType", "displayName", "qualifiedName", "description",
    "sourceSystem", "layerAssignment", "tags", "baseVersion"]

def edgeColOrder : List String :=
  ["entity_id", "edgeType", "sourceQualifiedName", "targetQualifiedName", "sourceUrn",
    "targetUrn", "source_entity_id", "target_entity_id", "confidence", "baseVersion"]

/-- `column_order`: `node` and `edge` are the properties the ontology defines. -/
def columnOrder (records : List Record) (node edge : List String) : List String :=
  let hasEdge := records.any fun record => record.get? "kind" = some (.str "edge")
  let cols := "kind" :: nodeColOrder
  let cols := if hasEdge then cols ++ edgeColOrder.filter (· ∉ cols) else cols
  let props := (records.flatMap Dict.keys).filter isProp ++ node.map (propPrefix ++ ·) ++
    if hasEdge then edge.map (propPrefix ++ ·) else []
  let cols := cols ++ Dict.sortedKeys props
  let cols := if records.any fun record => (record.get? "properties_json").isSome then
    cols ++ ["properties_json"] else cols
  firsts (cols ++ ["_op"])

def byteOrderMark : Char :=
  Char.ofNat 0xfeff

/-- The columns of a file. The first begins with neither a blank nor a byte order mark. -/
structure Columns where
  names : List String
  nodup : names.Nodup
  named : ∃ c rest more, names = String.ofList (c :: rest) :: more ∧
    Number.isSpace c = false ∧ c ≠ byteOrderMark

inductive Failure where
  | tooLong (line : ℕ) (quote : Bool)
  | badRow (error : Csv.RowError)
  deriving DecidableEq

def maxRecordBytes : ℕ :=
  16 * 1024 * 1024

structure Stream (α : Type) where
  items : List α
  failure : Option Failure := none

def Stream.after {α : Type} (stream : Stream α) (item : α) : Stream α :=
  { stream with items := item :: stream.items }

def Failure.message : Failure → String
  | .tooLong line true => "Line " ++ toString line ++ " of the file opens a quoted cell that " ++
      "doesn't close within 16 MB, so nothing was imported. Check that every quote the file " ++
      "opens is closed."
  | .tooLong line false => "Line " ++ toString line ++ " of the file has no line break within " ++
      "16 MB, so nothing was imported. Is the file saved with CR-only line endings, or with no " ++
      "line breaks at all? Save it with one record per line (LF or CRLF line endings)."
  | .badRow .newLine => "new-line character seen in unquoted field - do you need to open the " ++
      "file with newline=''?"
  | .badRow .fieldLimit => "field larger than field limit (" ++ toString Csv.fieldSizeLimit ++ ")"

/-- The bytes 0x80 to 0x9f in Windows-1252. Those it leaves undefined are replaced. -/
def cp1252High : List ℕ :=
  [0x20ac, 0xfffd, 0x201a, 0x0192, 0x201e, 0x2026, 0x2020, 0x2021, 0x02c6, 0x2030, 0x0160, 0x2039,
    0x0152, 0xfffd, 0x017d, 0xfffd, 0xfffd, 0x2018, 0x2019, 0x201c, 0x201d, 0x2022, 0x2013, 0x2014,
    0x02dc, 0x2122, 0x0161, 0x203a, 0x0153, 0xfffd, 0x017e, 0x0178]

def cp1252 (byte : UInt8) : Char :=
  Char.ofNat (if 0x80 ≤ byte.toNat ∧ byte.toNat < 0xa0 then cp1252High.getD (byte.toNat - 0x80) 0
    else byte.toNat)

def decodeNoBom (raw : List UInt8) : Text :=
  (ofUtf8 raw).getD (raw.map cp1252)

def decodeBytes (raw : List UInt8) : Text :=
  decodeNoBom (if [0xef, 0xbb, 0xbf].isPrefixOf raw then raw.drop 3 else raw)

def decodeLine (raw : List UInt8) (first : Bool) : Text :=
  (if first then decodeBytes raw else decodeNoBom raw).rdropWhile (· = '\r')

structure Lines where
  tail : List UInt8 := []
  lines : List Text := []

namespace Lines

def decoded (s : Lines) : Text :=
  decodeLine s.tail s.lines.isEmpty

def byte (s : Lines) (b : UInt8) : Lines :=
  if b = lineFeed then { lines := s.lines ++ [s.decoded] } else { s with tail := s.tail ++ [b] }

end Lines

/-- A byte that `bytes.strip` drops. -/
def isBlankByte (b : UInt8) : Bool :=
  b = 32 || (9 ≤ b && b ≤ 13)

/-- `_lines`, from what is read so far. What a chunk leaves unfinished may not be too long. -/
def Lines.read (s : Lines) : List (List UInt8) → Stream Text
  | [] => { items := if s.tail.all isBlankByte then s.lines else s.lines ++ [s.decoded] }
  | bytes :: rest =>
    let s := bytes.foldl byte s
    if maxRecordBytes < s.tail.length then
      { items := s.lines, failure := some (.tooLong (s.lines.length + 1) false) }
    else s.read rest

/-- Whether a quoted cell is open after a line, given whether one was before it. `prev` is the
character before. -/
def scanQuotes (delim : Char) : Option Char → Bool → Text → Bool
  | _, quoted, [] => quoted
  | _, true, '"' :: '"' :: rest => scanQuotes delim (some '"') true rest
  | prev, quoted, c :: rest =>
    if c = '"' then
      scanQuotes delim (some c) (!quoted && (prev = none || prev = some delim)) rest
    else scanQuotes delim (some c) quoted rest

def joinLines (record : List Text) : Text :=
  ['\n'].intercalate record

/-- `_csv_records` after `number` lines, the last of them of an open row. Its lines end with
`failure`. -/
def csvRecords (delim : Char) (failure : Option Failure) (number : ℕ) (record : List Text)
    (quoted : Bool) : List Text → Stream Text
  | [] =>
    { items := if failure.isSome ∨ record = [] then [] else [joinLines record], failure }
  | line :: rest =>
    if line = [] ∧ record = [] then csvRecords delim failure (number + 1) [] quoted rest
    else
      let record := record ++ [line]
      if maxRecordBytes < (record.map (·.length + 1)).sum then
        { items := [], failure := some (.tooLong (number + 1 - record.length + 1) true) }
      else if scanQuotes delim none quoted line then
        csvRecords delim failure (number + 1) record true rest
      else (csvRecords delim failure (number + 1) [] false rest).after (joinLines record)

inductive Format where
  | csv | tsv
  deriving DecidableEq

def Format.delim : Format → Char
  | .csv => ','
  | .tsv => '\t'

def Format.rows (format : Format) (rows : List (List Text)) : List UInt8 :=
  utf8 (rows.flatMap fun row => Csv.writeRow format.delim row ++ ['\n'])

def rowOf (json : JsonText) (columns : List String) (record : Record) : List Text :=
  columns.map fun column => cellText json (record.get? column)

def Format.writePages (format : Format) (json : JsonText) (columns : List String)
    (pages : List (List Record)) : List (List UInt8) :=
  format.rows [columns.map String.toList] ::
    pages.map fun page => format.rows (page.map (rowOf json columns))

def recordOf (json : JsonText) (header : List String) (row : List Text) : Record :=
  let cells : Dict String Text :=
    (header.zip row).foldl (fun cells cell => cells.set cell.1 cell.2) []
  cells.map fun cell => (cell.1, readCell json cell.1 cell.2)

/-- The records of rows, the first of which is the header. A blank row is passed over. -/
def Format.parseRows (format : Format) (json : JsonText) (failure : Option Failure)
    (header : Option (List String)) : List Text → Stream Record
  | [] => { items := [], failure }
  | text :: rest =>
    match Csv.readRow format.delim text with
    | .error error => { items := [], failure := some (.badRow error) }
    | .ok row =>
      if row.all fun cell => (strip cell).isEmpty then
        format.parseRows json failure header rest
      else
        match header with
        | none => format.parseRows json failure (some (row.map String.ofList)) rest
        | some names =>
          (format.parseRows json failure header rest).after (recordOf json names row)

def Format.parse (format : Format) (json : JsonText) (chunks : List (List UInt8)) : Stream Record :=
  let lines := Lines.read {} chunks
  let rows := csvRecords format.delim lines.failure 0 [] false lines.items
  format.parseRows json rows.failure none rows.items

end DataViz.Transfer
