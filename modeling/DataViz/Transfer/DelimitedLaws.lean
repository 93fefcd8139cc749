/-
# Delimited files read back as written

The rows of a file are found again wherever its bytes are cut: a byte of a line feed is a line's end
(`Lines.read_lines`), and a quoted cell is open after a line exactly where the writer left it open
(`Closed`). So a file reads as the cells that were written, but for a line end within a cell that is
written with a carriage return, and a text that is itself a list of scalars as JSON.
-/

import Mathlib.Data.List.Chain
import DataViz.Transfer.Delimited

namespace DataViz.Transfer

open List Option

variable {delim : Char} {last : Option Char} {text : Text}

theorem foldl_firsts (columns : List String) {seen : List String} (nodup : seen.Nodup) :
    ∃ more, (columns.foldl (fun seen column => if column ∈ seen then seen else seen ++ [column])
      seen) = seen ++ more ∧ (seen ++ more).Nodup := by
  induction columns generalizing seen with
  | nil => exact ⟨[], (append_nil _).symm, (append_nil seen).symm ▸ nodup⟩
  | cons column rest ih =>
    rw [foldl_cons]
    split
    · exact ih nodup
    · next new =>
        have longer : (seen ++ [column]).Nodup := by
          rw [← concat_eq_append]
          exact nodup.concat new
        obtain ⟨more, grown, distinct⟩ := ih longer
        rw [append_assoc] at grown distinct
        exact ⟨_, grown, distinct⟩

theorem nodup_firsts (columns : List String) : (firsts columns).Nodup := by
  obtain ⟨more, grown, distinct⟩ := foldl_firsts columns nodup_nil
  rw [firsts, grown]
  exact distinct

theorem firsts_cons (column : String) (rest : List String) :
    ∃ more, firsts (column :: rest) = column :: more := by
  obtain ⟨more, grown, -⟩ := foldl_firsts rest (nodup_singleton column)
  exact ⟨more, grown⟩

theorem columnOrder_eq (records : List Record) (node edge : List String) :
    ∃ more, columnOrder records node edge = "kind" :: more := by
  unfold columnOrder
  dsimp only
  split <;> split <;> exact firsts_cons _ _

/-- An export's columns are read back: the first is the kind. -/
def exportColumns (records : List Record) (node edge : List String) : Columns where
  names := columnOrder records node edge
  nodup := nodup_firsts _
  named := by
    obtain ⟨more, names⟩ := columnOrder_eq records node edge
    exact ⟨'k', ['i', 'n', 'd'], more, names, by decide, by decide⟩

def rstrip (line : Text) : Text :=
  line.rdropWhile (· = '\r')

theorem rstrip_eq_self {line : Text} (plain : line.getLast? ≠ some '\r') : rstrip line = line := by
  rw [rstrip, rdropWhile_eq_self_iff]
  intro some' last
  rw [decide_eq_true_eq] at last
  exact plain (last ▸ getLast?_eq_some_getLast some')

theorem decodeLine_utf8 {line : Text} (first : Bool)
    (unmarked : first = true → line.head? ≠ some byteOrderMark) :
    decodeLine (utf8 line) first = rstrip line := by
  have noBom : decodeNoBom (utf8 line) = line := by
    rw [decodeNoBom, ofUtf8_utf8, getD_some]
  rw [decodeLine]
  cases first with
  | false => rw [if_neg Bool.false_ne_true, noBom, rstrip]
  | true =>
    have unmarked := unmarked rfl
    have start : isPrefixOf [0xef, 0xbb, 0xbf] (utf8 line) = false := by
      rw [Bool.eq_false_iff, ne_eq, isPrefixOf_iff_prefix]
      rintro ⟨rest, begins⟩
      have whole : utf8Encode [byteOrderMark] ++ rest.toByteArray = line.utf8Encode := by
        rw [utf8Encode, ← toByteArray_append]
        exact congrArg toByteArray begins
      obtain ⟨more, rfl⟩ := isPrefix_of_utf8Encode_append_eq_utf8Encode _ whole
      exact unmarked rfl
    rw [if_pos rfl, decodeBytes, start, if_neg Bool.false_ne_true, noBom, rstrip]

namespace Lines

theorem foldl_byte_gather {bytes : List UInt8} (line : lineFeed ∉ bytes) (s : Lines) :
    bytes.foldl byte s = { s with tail := s.tail ++ bytes } := by
  induction bytes generalizing s with
  | nil => rw [foldl_nil, append_nil]
  | cons b rest ih =>
    rw [mem_cons, not_or] at line
    rw [foldl_cons, byte, if_neg (Ne.symm line.1), ih line.2, append_assoc, singleton_append]

variable {s : Lines}

theorem foldl_byte_line {line : Text} (whole : '\n' ∉ line) (fresh : s.tail = [])
    (unmarked : s.lines = [] → line.head? ≠ some byteOrderMark) :
    (utf8 (line ++ ['\n'])).foldl byte s = { lines := s.lines ++ [rstrip line] } := by
  rw [utf8_append, foldl_append, foldl_byte_gather (notMem_utf8 whole), utf8_lineFeed,
    foldl_cons, foldl_nil, byte, if_pos rfl, decoded, fresh, nil_append,
    decodeLine_utf8 _ fun first => unmarked (isEmpty_iff.mp first)]

variable {lines : List Text}

theorem foldl_byte_lines (whole : ∀ line ∈ lines, '\n' ∉ line) (fresh : s.tail = [])
    (unmarked : s.lines = [] → ∀ line ∈ lines.head?, line.head? ≠ some byteOrderMark) :
    (utf8 (lines.flatMap (· ++ ['\n']))).foldl byte s =
      { lines := s.lines ++ lines.map rstrip } := by
  induction lines generalizing s with
  | nil => rw [flatMap_nil, map_nil, append_nil, utf8_nil, foldl_nil, ← fresh]
  | cons line rest ih =>
    rw [flatMap_cons, utf8_append, foldl_append,
      foldl_byte_line (whole line mem_cons_self) fresh fun none => unmarked none line rfl,
      ih (fun other mem => whole other (mem_cons_of_mem _ mem)) rfl]
    · rw [append_assoc, singleton_append, map_cons]
    · intro none
      exact absurd none (append_ne_nil_of_right_ne_nil _ (cons_ne_nil _ _))

/-- Within a file, the unfinished line is a part of one. -/
theorem length_tail_le {limit : ℕ} (whole : ∀ line ∈ lines, '\n' ∉ line)
    (short : ∀ line ∈ lines, (utf8 line).length ≤ limit) (fresh : s.tail = [])
    {front back : List UInt8} (split : front ++ back = utf8 (lines.flatMap (· ++ ['\n']))) :
    (front.foldl byte s).tail.length ≤ limit := by
  induction lines generalizing s front with
  | nil =>
    rw [flatMap_nil, utf8_nil, append_eq_nil_iff] at split
    rw [split.1, foldl_nil, fresh]
    exact Nat.zero_le _
  | cons line rest ih =>
    have clean := notMem_utf8 (whole line mem_cons_self)
    rw [flatMap_cons, utf8_append, utf8_append, utf8_lineFeed, append_assoc,
      append_eq_append_iff] at split
    rcases split with ⟨more, same, -⟩ | ⟨more, rfl, same⟩
    · have within : lineFeed ∉ front := by
        intro mem
        exact clean (same ▸ mem_append_left _ mem)
      rw [foldl_byte_gather within, fresh]
      have sub := short line mem_cons_self
      rw [same, length_append] at sub
      exact Nat.le_of_add_right_le sub
    · cases more with
      | nil =>
        rw [append_nil, foldl_byte_gather clean, fresh]
        exact short line mem_cons_self
      | cons b more =>
        rw [singleton_append, cons_append, cons.injEq] at same
        obtain ⟨rfl, same⟩ := same
        rw [foldl_append, foldl_cons]
        exact ih (fun other mem => whole other (mem_cons_of_mem _ mem))
          (fun other mem => short other (mem_cons_of_mem _ mem)) rfl same.symm

/-- Where no unfinished line is too long, a file is read as if it came at once. -/
theorem read_eq {chunks : List (List UInt8)} (short : ∀ front back, front ++ back = chunks.flatten →
      (front.foldl byte s).tail.length ≤ maxRecordBytes) :
    s.read chunks = (chunks.flatten.foldl byte s).read [] := by
  induction chunks generalizing s with
  | nil => rfl
  | cons bytes rest ih =>
    have here := short bytes rest.flatten (flatten_cons).symm
    have step : s.read (bytes :: rest) = (bytes.foldl byte s).read rest := by
      rw [read, if_neg (Nat.not_lt.mpr here)]
    rw [flatten_cons, foldl_append, step]
    apply ih
    intro front back split
    rw [← foldl_append]
    apply short (bytes ++ front) back
    rw [append_assoc, split, flatten_cons]

theorem read_lines (whole : ∀ line ∈ lines, '\n' ∉ line)
    (short : ∀ line ∈ lines, (utf8 line).length ≤ maxRecordBytes)
    (unmarked : ∀ line ∈ lines.head?, line.head? ≠ some byteOrderMark)
    {chunks : List (List UInt8)} (cut : chunks.flatten = utf8 (lines.flatMap (· ++ ['\n']))) :
    read {} chunks = { items := lines.map rstrip } := by
  have all : chunks.flatten.foldl byte {} = { lines := lines.map rstrip } := by
    rw [cut, foldl_byte_lines whole rfl fun _ => unmarked]
    rfl
  rw [read_eq]
  · rw [all]
    rfl
  · intro front back split
    exact length_tail_le whole short rfl (split.trans cut)

end Lines

theorem joinLines_append (record : List Text) (line : Text) :
    joinLines (record ++ [line]) = record.flatMap (· ++ ['\n']) ++ line := by
  induction record with
  | nil => simp [joinLines]
  | cons first rest ih =>
    cases rest with
    | nil => simp [joinLines]
    | cons second rest =>
      rw [flatMap_cons, append_assoc, ← ih]
      simp [joinLines]

theorem flatMap_splitOn (text : Text) :
    (text.splitOn '\n').flatMap (· ++ ['\n']) = text ++ ['\n'] := by
  obtain ⟨init, last, split⟩ :=
    (eq_nil_or_concat (text.splitOn '\n')).resolve_left (splitOn_ne_nil _ _)
  rw [concat_eq_append] at split
  have joined : ['\n'].intercalate (text.splitOn '\n') = text := intercalate_splitOn '\n'
  rw [split] at joined ⊢
  change joinLines (init ++ [last]) = text at joined
  rw [joinLines_append] at joined
  rw [flatMap_append, flatMap_singleton, ← append_assoc, joined]

theorem sum_length (record : List Text) (line : Text) :
    ((record ++ [line]).map (·.length + 1)).sum = (joinLines (record ++ [line])).length + 1 := by
  rw [joinLines_append, map_append, sum_append, length_append]
  have each : (record.flatMap (· ++ ['\n'])).length = (record.map (·.length + 1)).sum := by
    rw [length_flatMap]
    congr 1
    apply map_congr_left
    intro line _
    rw [length_append, length_singleton]
  rw [each]
  simp [Nat.add_assoc]

section

/-- A text that ends a row, after a character and a cell open or not: its lines, with those before
them, are gathered to one row. -/
def Closed (delim : Char) (last : Option Char) (quoted : Bool) (text : Text) : Prop :=
  ∀ (failure : Option Failure) (number : ℕ) (record : List Text) (before : Bool) (front : Text)
    (more : List Text),
    '\n' ∉ front → front.getLast? = last →
    (∀ rest, scanQuotes delim none before (front ++ rest) = scanQuotes delim last quoted rest) →
    (quoted = true → record ≠ [] ∨ front ≠ []) → (record ≠ [] ∨ front ++ text ≠ []) →
    (joinLines (record ++ [front ++ text])).length + 1 ≤ maxRecordBytes →
      ∃ number', csvRecords delim failure number record before
        (((front ++ text).splitOn '\n').map rstrip ++ more) =
          (csvRecords delim failure number' [] false more).after
            (joinLines (record ++ [front ++ text]))

theorem Closed.ends {quoted : Bool} {part : Text} (line : '\n' ∉ part)
    (plain : part.getLast?.or last ≠ some '\r')
    (scan : scanQuotes delim last quoted part = false) : Closed delim last quoted part := by
  intro failure number record before front more whole ends scans _ some' short
  have lineWhole : '\n' ∉ front ++ part := by
    rw [mem_append, not_or]
    exact ⟨whole, line⟩
  have linePlain : (front ++ part).getLast? ≠ some '\r' := by
    rw [getLast?_append, ends]
    exact plain
  rw [splitOn_eq_singleton lineWhole, map_singleton, singleton_append,
    rstrip_eq_self linePlain, csvRecords, if_neg fun empty => some'.elim
      (fun row => row empty.2) fun line => line empty.1]
  dsimp only
  rw [sum_length, if_neg (Nat.not_lt.mpr short), scans, scan]
  exact ⟨_, rfl⟩

theorem Closed.extend {quoted quoted' : Bool} {part : Text} {c : Char} (line : '\n' ∉ part)
    (ends' : part.getLast? = some c)
    (step : ∀ rest, scanQuotes delim last quoted (part ++ rest) =
      scanQuotes delim (some c) quoted' rest)
    (closed : Closed delim (some c) quoted' text) : Closed delim last quoted (part ++ text) := by
  intro failure number record before front more whole ends scans _ some' short
  have someLine : front ++ part ≠ [] := by
    intro none
    rw [(append_eq_nil_iff.mp none).2] at ends'
    cases ends'
  rw [← append_assoc] at some' short ⊢
  apply closed failure number record before (front ++ part) more _ _ _ _ some' short
  · rw [mem_append, not_or]
    exact ⟨whole, line⟩
  · rw [getLast?_append, ends', some_or]
  · intro rest
    rw [append_assoc, scans, step]
  · exact fun _ => Or.inr someLine

/-- A line break in an open cell. -/
theorem Closed.feed (plain : last ≠ some '\r') (closed : Closed delim none true text) :
    Closed delim last true ('\n' :: text) := by
  intro failure number record before front more whole ends scans opened _ short
  have row : joinLines (record ++ [front ++ '\n' :: text]) =
      joinLines ((record ++ [front]) ++ [[] ++ text]) := by
    rw [joinLines_append, joinLines_append]
    simp
  have scan := scans []
  rw [append_nil, scanQuotes] at scan
  rw [row] at short ⊢
  have some' : record ++ [front] ≠ [] :=
    append_ne_nil_of_right_ne_nil _ (cons_ne_nil _ _)
  obtain ⟨number', gathered⟩ := closed failure (number + 1) (record ++ [front]) true [] more
    (not_mem_nil) rfl (fun _ => rfl) (fun _ => Or.inl some') (Or.inl some') short
  refine ⟨number', ?_⟩
  have part : ((record ++ [front]).map (·.length + 1)).sum ≤ maxRecordBytes := by
    rw [joinLines_append, length_append, length_flatMap] at short
    have each : ((record ++ [front]).map fun line => (line ++ ['\n']).length) =
        (record ++ [front]).map (·.length + 1) := by
      apply map_congr_left
      intro line _
      rw [length_append, length_singleton]
    rw [each] at short
    omega
  rw [← gathered, splitOn_append_cons_self_of_not_mem whole, map_cons, cons_append,
    rstrip_eq_self (ends.symm ▸ plain), csvRecords, nil_append,
    if_neg fun empty => (opened rfl).elim (fun row => row empty.2) fun line => line empty.1,
    if_neg (Nat.not_lt.mpr part), if_pos scan]

end

section

theorem scanQuotes_other {quoted : Bool} {c : Char} (noQuote : c ≠ '"') (rest : Text) :
    scanQuotes delim last quoted (c :: rest) = scanQuotes delim (some c) quoted rest := by
  rw [scanQuotes, if_neg noQuote]
  intro _ _ quote
  exact absurd quote noQuote

theorem scanQuotes_open (start : last = none ∨ last = some delim) (rest : Text) :
    scanQuotes delim last false ('"' :: rest) = scanQuotes delim (some '"') true rest := by
  rw [scanQuotes]
  · rcases start with rfl | rfl
    · rfl
    · simp
  · intro _ never
    cases never

theorem scanQuotes_close {rest : Text} (ends : rest.head? ≠ some '"') :
    scanQuotes delim last true ('"' :: rest) = scanQuotes delim (some '"') false rest := by
  rw [scanQuotes]
  · rfl
  · rintro more - - rfl
    exact ends rfl

/-- No carriage return stands before a line feed. -/
def Plain (text : Text) : Prop :=
  text.IsChain fun c next => ¬ (c = '\r' ∧ next = '\n')

variable {field : Text}

/-- The characters of a quoted cell. -/
theorem Closed.escaped {c : Char} (plain : Plain (c :: field)) (start : last = none ∨ last = some c)
    (closed : ∀ last, Closed delim last true text) :
    Closed delim last true (field.flatMap Csv.escaped ++ text) := by
  induction field generalizing c last with
  | nil => exact closed last
  | cons next rest ih =>
    obtain ⟨pair, plain⟩ := isChain_cons_cons.mp plain
    rw [flatMap_cons, append_assoc]
    by_cases feed : next = '\n'
    · subst feed
      have noReturn : last ≠ some '\r' := by
        rintro rfl
        rcases start with none | same
        · cases none
        · cases same
          exact pair ⟨rfl, rfl⟩
      exact Closed.feed noReturn (ih plain (Or.inl rfl))
    · rw [Csv.escaped]
      by_cases quote : next = '"'
      · subst quote
        exact Closed.extend (by decide) rfl (fun _ => rfl) (ih plain (Or.inr rfl))
      · rw [if_neg quote]
        refine Closed.extend ?_ rfl (fun rest => scanQuotes_other quote rest)
          (ih plain (Or.inr rfl))
        rw [mem_singleton]
        exact Ne.symm feed

/-- A cell that needs no quotes holds no quote and no line break. -/
theorem plain_of_any (plain : field.any (Csv.isSpecial delim) = false) {c : Char}
    (mem : c ∈ field) : c ≠ '"' ∧ c ≠ '\n' ∧ c ≠ '\r' := by
  have special := any_eq_false.mp plain c mem
  simp only [Csv.isSpecial, Bool.or_eq_true, decide_eq_true_eq, not_or] at special
  exact ⟨special.1.1.2, special.1.2, special.2⟩

theorem scanQuotes_plain (plain : ∀ c ∈ field, c ≠ '"') (rest : Text) :
    scanQuotes delim last false (field ++ rest) =
      scanQuotes delim (field.getLast?.or last) false rest := by
  induction field generalizing last with
  | nil => rfl
  | cons c field ih =>
    rw [cons_append, scanQuotes_other (plain c mem_cons_self),
      ih fun other mem => plain other (mem_cons_of_mem _ mem)]
    congr 1
    cases field with
    | nil => rfl
    | cons d field => rw [getLast?_cons_cons]; cases h : (d :: field).getLast? with
      | none => cases getLast?_eq_none_iff.mp h
      | some last => rfl

theorem Plain.quote (plain : Plain field) : Plain ('"' :: field) := by
  cases field with
  | nil => exact isChain_singleton _
  | cons c field => exact isChain_cons_cons.mpr ⟨fun pair => (by cases pair.1), plain⟩

theorem Closed.quotedField (plain : Plain field) (start : last = none ∨ last = some delim)
    (closed : ∀ last, Closed delim last true ('"' :: text)) :
    Closed delim last false (Csv.quotedField field ++ text) := by
  have whole : Csv.quotedField field ++ text =
      ['"'] ++ (field.flatMap Csv.escaped ++ '"' :: text) := by
    rw [Csv.quotedField, cons_append, cons_append, append_assoc]
    rfl
  rw [whole]
  exact Closed.extend (by decide) rfl (fun rest => scanQuotes_open start rest)
    (Closed.escaped plain.quote (Or.inr rfl) closed)

/-- A cell and the delimiter after it. -/
theorem Closed.writeField (delimits : Csv.Delimits delim) (plain : Plain field)
    (start : last = none ∨ last = some delim) (closed : Closed delim (some delim) false text) :
    Closed delim last false (Csv.writeField delim field ++ delim :: text) := by
  rw [Csv.writeField]
  split
  · apply Closed.quotedField plain start
    intro last
    have line : '\n' ∉ ['"', delim] := by
      rw [mem_cons, mem_singleton, not_or]
      exact ⟨by decide, Ne.symm delimits.noFeed⟩
    refine Closed.extend line rfl (fun rest => ?_) closed
    have ends : (delim :: rest).head? ≠ some '"' :=
      fun quote => delimits.noQuote (some.inj quote)
    exact (scanQuotes_close ends).trans (scanQuotes_other delimits.noQuote rest)
  · next unquoted =>
      rw [Bool.not_eq_true] at unquoted
      have moved (rest : Text) : field ++ delim :: rest = (field ++ [delim]) ++ rest := by
        rw [append_assoc, singleton_append]
      rw [moved]
      refine Closed.extend ?_ (getLast?_concat ..) (fun rest => ?_) closed
      · rw [mem_append, mem_singleton, not_or]
        exact ⟨fun feed => (plain_of_any unquoted feed).2.1 rfl, Ne.symm delimits.noFeed⟩
      · rw [← moved, scanQuotes_plain fun c mem => (plain_of_any unquoted mem).1,
          scanQuotes_other delimits.noQuote]

/-- The last cell of a row. -/
theorem Closed.lastField (delimits : Csv.Delimits delim) (plain : Plain field)
    (start : last = none ∨ last = some delim) :
    Closed delim last false (Csv.writeField delim field) := by
  rw [Csv.writeField]
  split
  · rw [← append_nil (Csv.quotedField field)]
    apply Closed.quotedField plain start
    intro last
    exact Closed.ends (by decide) (by rintro ⟨⟩) rfl
  · next unquoted =>
      rw [Bool.not_eq_true] at unquoted
      refine Closed.ends (fun feed => (plain_of_any unquoted feed).2.1 rfl) ?_ ?_
      · cases ends : field.getLast? with
        | some c =>
          rintro same
          cases same
          exact (plain_of_any unquoted (mem_of_getLast? ends)).2.2 rfl
        | none =>
          rintro rfl
          rcases start with none | same
          · cases none
          · exact delimits.noReturn (some.inj same).symm
      · have scan := @scanQuotes_plain delim last field
          (fun c mem => (plain_of_any unquoted mem).1) []
        rw [append_nil] at scan
        rw [scan]
        rfl

theorem Closed.writeRest (delimits : Csv.Delimits delim) {rest : List Text}
    (plain : ∀ cell ∈ field :: rest, Plain cell) (start : last = none ∨ last = some delim) :
    Closed delim last false (Csv.writeField delim field ++ Csv.writeRest delim rest) := by
  induction rest generalizing last field with
  | nil =>
    rw [Csv.writeRest, append_nil]
    exact Closed.lastField delimits (plain field mem_cons_self) start
  | cons next rest ih =>
    exact Closed.writeField delimits (plain field mem_cons_self) start
      (ih (fun cell mem => plain cell (mem_cons_of_mem _ mem)) (Or.inr rfl))

theorem Closed.writeRow (delimits : Csv.Delimits delim) {row : List Text} (cells : row ≠ [])
    (plain : ∀ cell ∈ row, Plain cell) : Closed delim none false (Csv.writeRow delim row) := by
  match row, cells with
  | [[]], _ =>
    exact Closed.quotedField isChain_nil (Or.inl rfl) fun last =>
      Closed.ends (by decide) (fun same => nomatch same) rfl
  | [c :: field], _ => exact Closed.writeRest delimits plain (Or.inl rfl)
  | first :: second :: rest, _ =>
    rw [Csv.writeRow_cons_cons]
    exact Closed.writeRest delimits plain (Or.inl rfl)

theorem writeRow_ne_nil {row : List Text} (cells : row ≠ []) : Csv.writeRow delim row ≠ [] := by
  rcases row with _ | ⟨_ | ⟨c, field⟩, _ | ⟨second, rest⟩⟩
  · exact absurd rfl cells
  · exact cons_ne_nil _ _
  · exact append_ne_nil_of_right_ne_nil _ (cons_ne_nil _ _)
  · rw [Csv.writeRow, Csv.writeField]
    · split <;> exact cons_ne_nil _ _
    · rintro ⟨⟩
  · exact append_ne_nil_of_right_ne_nil _ (cons_ne_nil _ _)

end

theorem Format.delimits (format : Format) : Csv.Delimits format.delim := by
  cases format
  · exact ⟨by decide, by decide, by decide⟩
  · exact ⟨by decide, by decide, by decide⟩

theorem length_le_utf8 (text : Text) : text.length ≤ (utf8 text).length := by
  induction text with
  | nil => exact Nat.le_refl _
  | cons c rest ih =>
    have some' := length_pos_iff.mpr (String.utf8EncodeChar_ne_nil (c := c))
    rw [utf8_cons, length_append, length_cons]
    omega

theorem notMem_of_mem_splitOn {text line : Text} (mem : line ∈ text.splitOn '\n') :
    '\n' ∉ line := by
  induction text generalizing line with
  | nil =>
    rw [splitOn_nil, mem_singleton] at mem
    rw [mem]
    exact not_mem_nil
  | cons c rest ih =>
    rw [splitOn_cons_eq_if_modifyHead] at mem
    split at mem
    · rcases mem_cons.mp mem with rfl | mem
      · exact not_mem_nil
      · exact ih mem
    · next other =>
        obtain ⟨first, more, split⟩ :=
          exists_cons_of_ne_nil (splitOn_ne_nil '\n' rest)
        rw [split] at mem
        rw [split] at ih
        rcases mem_cons.mp mem with rfl | mem
        · rw [mem_cons, not_or]
          refine ⟨fun same => other ?_, ih mem_cons_self⟩
          rw [← same]
          rfl
        · exact ih (mem_cons_of_mem _ mem)

theorem length_of_mem_splitOn {text line : Text} (mem : line ∈ text.splitOn '\n') :
    (utf8 line).length ≤ (utf8 text).length := by
  obtain ⟨front, back, split⟩ := append_of_mem mem
  have whole := congrArg (fun text => (utf8 text).length) (flatMap_splitOn text)
  rw [split, flatMap_append, flatMap_cons] at whole
  simp only [utf8_append, length_append] at whole
  omega

/-- The rows of a file, from their lines. -/
theorem csvRecords_rows {delim : Char} (delimits : Csv.Delimits delim) {rows : List (List Text)}
    (cells : ∀ row ∈ rows, row ≠ []) (plain : ∀ row ∈ rows, ∀ cell ∈ row, Plain cell)
    (short : ∀ row ∈ rows, (Csv.writeRow delim row).length + 1 ≤ maxRecordBytes)
    (number : ℕ) :
    csvRecords delim none number [] false
      (rows.flatMap fun row => ((Csv.writeRow delim row).splitOn '\n').map rstrip) =
        { items := rows.map (Csv.writeRow delim) } := by
  induction rows generalizing number with
  | nil => rfl
  | cons row rest ih =>
    have closed := Closed.writeRow delimits (cells row mem_cons_self) (plain row mem_cons_self)
    obtain ⟨number', gathered⟩ := closed none number [] false []
      (rest.flatMap fun row => ((Csv.writeRow delim row).splitOn '\n').map rstrip)
      not_mem_nil rfl (fun _ => rfl) (fun open' => by cases open')
      (Or.inr (writeRow_ne_nil (cells row mem_cons_self)))
      (by
        rw [joinLines_append]
        exact short row mem_cons_self)
    rw [nil_append] at gathered
    rw [flatMap_cons, gathered, ih (fun other mem => cells other (mem_cons_of_mem _ mem))
      (fun other mem => plain other (mem_cons_of_mem _ mem))
      (fun other mem => short other (mem_cons_of_mem _ mem)), joinLines_append]
    rfl

theorem head?_splitOn {text line : Text} {c : Char} (starts : text.head? = some c)
    (noFeed : c ≠ '\n') (first : line ∈ (text.splitOn '\n').head?) : line.head? = some c := by
  cases text with
  | nil => cases starts
  | cons d rest =>
    cases starts
    obtain ⟨head, more, split⟩ := exists_cons_of_ne_nil (splitOn_ne_nil '\n' rest)
    have other : (c == '\n') = false := beq_eq_false_iff_ne.mpr noFeed
    rw [splitOn_cons_eq_if_modifyHead, other, if_neg Bool.false_ne_true, split,
      modifyHead_cons, head?_cons, mem_some_iff] at first
    rw [← first]
    rfl

theorem head?_writeRow {delim : Char} {first : Text} {cells : List Text} {c : Char}
    (starts : first.head? = some c) :
    (Csv.writeRow delim (first :: cells)).head? = some '"' ∨
      (Csv.writeRow delim (first :: cells)).head? = some c := by
  cases first with
  | nil => cases starts
  | cons d rest =>
    cases starts
    have whole : Csv.writeRow delim ((c :: rest) :: cells) =
        Csv.writeField delim (c :: rest) ++ Csv.writeRest delim cells := by
      cases cells <;> rfl
    rw [whole, Csv.writeField]
    split
    · exact Or.inl rfl
    · exact Or.inr rfl

theorem Format.read_rows (format : Format) {first : Text} {cells : List Text}
    {rows : List (List Text)} {c : Char} (starts : first.head? = some c)
    (noSpace : Number.isSpace c = false) (noMark : c ≠ byteOrderMark)
    (some' : ∀ row ∈ rows, row ≠ [])
    (plain : ∀ row ∈ (first :: cells) :: rows, ∀ cell ∈ row, Plain cell)
    (short : ∀ row ∈ (first :: cells) :: rows, (format.rows [row]).length ≤ maxRecordBytes)
    {chunks : List (List UInt8)} (cut : chunks.flatten = format.rows ((first :: cells) :: rows))
    (json : JsonText) :
    format.parse json chunks = format.parseRows json none none
      (((first :: cells) :: rows).map (Csv.writeRow format.delim)) := by
  have delimits := format.delimits
  have length (row : List Text) : (format.rows [row]).length =
      (utf8 (Csv.writeRow format.delim row)).length + 1 := by
    rw [Format.rows, flatMap_singleton, utf8_append, length_append]
    rfl
  have file : format.rows ((first :: cells) :: rows) =
      utf8 ((((first :: cells) :: rows).flatMap fun row =>
        (Csv.writeRow format.delim row).splitOn '\n').flatMap (· ++ ['\n'])) := by
    rw [Format.rows, flatMap_assoc]
    congr 1
    apply flatMap_congr
    intro row _
    exact (flatMap_splitOn _).symm
  have noFeed : c ≠ '\n' := by
    rintro rfl
    cases noSpace
  have head : ∀ line ∈ (((first :: cells) :: rows).flatMap fun row =>
      (Csv.writeRow format.delim row).splitOn '\n').head?, line.head? ≠ some byteOrderMark := by
    intro line mem
    obtain ⟨line', more, split⟩ := exists_cons_of_ne_nil
      (splitOn_ne_nil '\n' (Csv.writeRow format.delim (first :: cells)))
    rw [flatMap_cons, split, cons_append, head?_cons, mem_some_iff] at mem
    have mem' : line ∈ ((Csv.writeRow format.delim (first :: cells)).splitOn '\n').head? := by
      rw [split, head?_cons, mem_some_iff, mem]
    rcases @head?_writeRow format.delim first cells c starts with quoted | unquoted
    · rw [head?_splitOn quoted (by decide) mem']
      decide
    · rw [head?_splitOn unquoted noFeed mem']
      exact fun same => noMark (some.inj same)
  have whole : ∀ line ∈ ((first :: cells) :: rows).flatMap fun row =>
      (Csv.writeRow format.delim row).splitOn '\n', '\n' ∉ line := by
    intro line mem
    obtain ⟨row, -, mem⟩ := mem_flatMap.mp mem
    exact notMem_of_mem_splitOn mem
  have fits : ∀ line ∈ ((first :: cells) :: rows).flatMap fun row =>
      (Csv.writeRow format.delim row).splitOn '\n', (utf8 line).length ≤ maxRecordBytes := by
    intro line mem
    obtain ⟨row, listed, mem⟩ := mem_flatMap.mp mem
    have fits := short row listed
    rw [length] at fits
    exact (length_of_mem_splitOn mem).trans (Nat.le_of_succ_le fits)
  rw [parse, Lines.read_lines whole fits head (cut.trans file), map_flatMap]
  rw [csvRecords_rows delimits _ plain]
  · intro row listed
    have fits := short row listed
    rw [length] at fits
    exact (Nat.succ_le_succ (length_le_utf8 _)).trans fits
  · intro row listed
    rcases mem_cons.mp listed with rfl | listed
    · exact cons_ne_nil _ _
    · exact some' row listed

section

variable {json : JsonText} {names : List String}

theorem recordOf_rowOf (nodup : names.Nodup) (record : Record) :
    recordOf json names (rowOf json names record) = names.map fun column =>
      (column, readCell json column (cellText json (record.get? column))) := by
  have zipped : names.zip (rowOf json names record) =
      names.map fun column => (column, cellText json (record.get? column)) := by
    have zipped : (names.map id).zip (rowOf json names record) = _ := zip_map'
    rw [List.map_id] at zipped
    exact zipped
  have cells : (names.map fun column => (column, cellText json (record.get? column))).foldl
      (fun cells cell => Dict.set cells cell.1 cell.2) [] =
        names.map fun column => (column, cellText json (record.get? column)) := by
    have keys : (names.map fun column => (column, cellText json (record.get? column))).map
        Prod.fst = names := by
      rw [List.map_map]
      exact map_id names
    have appended := Dict.foldl_set_of_nodup Prod.fst Prod.snd
      (names.map fun column => (column, cellText json (record.get? column)))
      (keys.symm ▸ nodup) [] (fun _ _ => not_mem_nil)
    rw [appended]
    exact map_id _
  rw [recordOf, zipped, cells, List.map_map]
  rfl

def filled (json : JsonText) (names : List String) (record : Record) : Bool :=
  !((rowOf json names record).all fun cell => (strip cell).isEmpty)

theorem parseRows_rows (format : Format) (nodup : names.Nodup) {records : List Record}
    (narrow : ∀ record ∈ records, ∀ cell ∈ rowOf json names record,
      cell.length ≤ Csv.fieldSizeLimit) :
    format.parseRows json none (some names)
      (records.map fun record => Csv.writeRow format.delim (rowOf json names record)) =
        { items := (records.filter (filled json names)).map fun record =>
            names.map fun column =>
              (column, readCell json column (cellText json (record.get? column))) } := by
  induction records with
  | nil => rfl
  | cons record rest ih =>
    obtain ⟨first, narrow⟩ := forall_mem_cons.mp narrow
    have ih := ih narrow
    rw [map_cons, Format.parseRows, Csv.readRow_writeRow format.delimits first]
    dsimp only
    cases blank : (rowOf json names record).all fun cell => (strip cell).isEmpty with
    | true =>
      rw [if_pos rfl, ih, filter_cons_of_neg]
      rw [filled, blank]
      exact Bool.false_ne_true
    | false =>
      have some' : filled json names record = true := by
        rw [filled, blank]
        rfl
      rw [ih, filter_cons_of_pos some', recordOf_rowOf nodup]
      rfl

end

/-- What a cell of an export is read as: a list of scalars of a property as itself, anything else as
its text. -/
def cellOf (json : JsonText) (column : String) : Option Json → Json
  | some (.arr items) =>
    if isProp column && items.all isScalar then .arr items
    else .str (String.ofList (json.dumps items))
  | value => .str (String.ofList (cellText json value))

/-- What `json` does with the lists of some records: what it writes for one is in brackets, and is
read as that list. -/
structure JsonText.Reads (json : JsonText) (records : List Record) : Prop where
  loads : ∀ record ∈ records, ∀ column items, record.get? column = some (.arr items) →
    json.loads (json.dumps items) = some (.arr items)
  brackets : ∀ record ∈ records, ∀ column items, record.get? column = some (.arr items) →
    (json.dumps items).head? = some '[' ∧ (json.dumps items).getLast? = some ']'

/-- An export without a carriage return before a line feed, without a row past the limit, and
without a cell past that of the reader of rows. -/
structure Fits (format : Format) (json : JsonText) (columns : Columns)
    (records : List Record) : Prop where
  headers : ∀ column ∈ columns.names, Plain column.toList
  cells : ∀ record ∈ records, ∀ cell ∈ rowOf json columns.names record, Plain cell
  header_short : (format.rows [columns.names.map String.toList]).length ≤ maxRecordBytes
  short : ∀ record ∈ records,
    (format.rows [rowOf json columns.names record]).length ≤ maxRecordBytes
  narrow : ∀ row ∈ columns.names.map String.toList :: records.map (rowOf json columns.names),
    ∀ cell ∈ row, cell.length ≤ Csv.fieldSizeLimit

/-- No text of a property is itself a list of scalars as JSON. -/
def NoLists (json : JsonText) (columns : Columns) (records : List Record) : Prop :=
  ∀ record ∈ records, ∀ column ∈ columns.names, isProp column = true →
    (∀ items, record.get? column ≠ some (.arr items)) →
      listIn json (cellText json (record.get? column)) = none

theorem strip_of_brackets {text : Text} (opens : text.head? = some '[')
    (closes : text.getLast? = some ']') : strip text = text := by
  have stays {text : Text} {c : Char} (starts : text.head? = some c)
      (noSpace : Number.isSpace c = false) : text.dropWhile Number.isSpace = text := by
    cases text with
    | nil => rfl
    | cons d rest =>
      cases starts
      exact dropWhile_cons_of_neg (by rw [noSpace]; exact Bool.false_ne_true)
  have ends : text.reverse.head? = some ']' := by
    rw [head?_reverse, closes]
  rw [strip, Number.strip, String.toList_ofList, stays opens (by decide), stays ends (by decide),
    reverse_reverse]

/-- A list that `json` reads back is found in its cell. -/
theorem listIn_dumps {json : JsonText} {items : List Json}
    (loads : json.loads (json.dumps items) = some (.arr items))
    (opens : (json.dumps items).head? = some '[')
    (closes : (json.dumps items).getLast? = some ']') :
    listIn json (json.dumps items) = if items.all isScalar then some items else none := by
  unfold listIn
  rw [strip_of_brackets opens closes]
  rw [if_pos ⟨opens, closes⟩, loads]

theorem readCell_eq {json : JsonText} {records : List Record} (reads : json.Reads records)
    {record : Record} (mem : record ∈ records) {column : String}
    (texts : isProp column = true → (∀ items, record.get? column ≠ some (.arr items)) →
      listIn json (cellText json (record.get? column)) = none) :
    readCell json column (cellText json (record.get? column)) =
      cellOf json column (record.get? column) := by
  by_cases list : ∃ items, record.get? column = some (.arr items)
  · obtain ⟨items, list⟩ := list
    obtain ⟨opens, closes⟩ := reads.brackets record mem column items list
    rw [list, cellOf, cellText, readCell]
    cases isProp column with
    | false => rfl
    | true =>
      rw [listIn_dumps (reads.loads record mem column items list) opens closes]
      cases items.all isScalar <;> rfl
  · rw [not_exists] at list
    have text : cellOf json column (record.get? column) =
        .str (String.ofList (cellText json (record.get? column))) := by
      unfold cellOf
      split
      · next items is => exact absurd is (list items)
      · rfl
    rw [text, readCell]
    cases prop : isProp column with
    | false => rfl
    | true => rw [if_pos rfl, texts prop list]

theorem strip_ne_nil {text : Text} {c : Char} (starts : text.head? = some c)
    (noSpace : Number.isSpace c = false) : strip text ≠ [] := by
  cases text with
  | nil => cases starts
  | cons d rest =>
    cases starts
    have whole : (c :: rest).dropWhile Number.isSpace = c :: rest :=
      dropWhile_cons_of_neg (by rw [noSpace]; exact Bool.false_ne_true)
    rw [strip, Number.strip, String.toList_ofList, whole, ne_eq, reverse_eq_nil_iff,
      dropWhile_eq_nil_iff]
    intro spaces
    rw [spaces c (by simp)] at noSpace
    cases noSpace

/-- The pages of an export are one file. -/
theorem flatten_writePages (format : Format) (json : JsonText) (names : List String)
    (pages : List (List Record)) : (format.writePages json names pages).flatten =
      format.rows (names.map String.toList :: pages.flatten.map (rowOf json names)) := by
  have rows (pages : List (List Record)) :
      (pages.map fun page => format.rows (page.map (rowOf json names))).flatten =
        format.rows (pages.flatten.map (rowOf json names)) := by
    induction pages with
    | nil => rfl
    | cons page rest ih =>
      rw [map_cons, flatten_cons, ih, flatten_cons, map_append, Format.rows,
        Format.rows, Format.rows, flatMap_append, utf8_append]
  rw [Format.writePages, flatten_cons, rows, Format.rows, Format.rows, Format.rows,
    flatMap_cons, flatMap_nil, append_nil, flatMap_cons, ← utf8_append]

/-- A delimited file is read as the texts of its cells, wherever its bytes are cut. -/
theorem Format.parse_eq (format : Format) (json : JsonText) (columns : Columns)
    (pages : List (List Record)) (chunks : List (List UInt8))
    (cut : chunks.flatten = (format.writePages json columns.names pages).flatten)
    (fits : Fits format json columns pages.flatten) :
    format.parse json chunks =
      { items := (pages.flatten.filter (filled json columns.names)).map fun record =>
          columns.names.map fun column =>
            (column, readCell json column (cellText json (record.get? column))) } := by
  obtain ⟨c, rest, more, names, noSpace, noMark⟩ := columns.named
  have header : columns.names.map String.toList = (c :: rest) :: more.map String.toList := by
    rw [names, map_cons, String.toList_ofList]
  have some' : ∀ row ∈ pages.flatten.map (rowOf json columns.names), row ≠ [] := by
    intro row mem none
    obtain ⟨record, -, rfl⟩ := mem_map.mp mem
    rw [names] at none
    cases none
  rw [flatten_writePages, header] at cut
  have short := fits.header_short
  obtain ⟨named, narrow⟩ := forall_mem_cons.mp fits.narrow
  rw [header] at short named
  rw [format.read_rows rfl noSpace noMark some' ?_ ?_ cut, map_cons,
    Format.parseRows, Csv.readRow_writeRow format.delimits named]
  · have filledHeader : (((c :: rest) :: more.map String.toList).all fun cell =>
        (strip cell).isEmpty) = false := by
      rw [all_cons, Bool.and_eq_false_iff]
      left
      rw [Bool.eq_false_iff, ne_eq, List.isEmpty_iff]
      exact strip_ne_nil rfl noSpace
    dsimp only
    rw [filledHeader, ← header, List.map_map, List.map_map]
    have same : columns.names.map (String.ofList ∘ String.toList) = columns.names := by
      have inverse : String.ofList ∘ String.toList = id := funext fun _ => String.ofList_toList
      rw [inverse, List.map_id]
    rw [same]
    exact parseRows_rows format columns.nodup fun record exported =>
      narrow _ (mem_map_of_mem exported)
  · intro row mem
    rcases mem_cons.mp mem with rfl | mem
    · rw [← header]
      intro cell listed
      obtain ⟨column, inNames, rfl⟩ := mem_map.mp listed
      exact fits.headers column inNames
    · obtain ⟨record, exported, rfl⟩ := mem_map.mp mem
      exact fits.cells record exported
  · intro row mem
    rcases mem_cons.mp mem with rfl | mem
    · exact short
    · obtain ⟨record, exported, rfl⟩ := mem_map.mp mem
      exact fits.short record exported

/-- A delimited file reads back as it was written, wherever its bytes are cut: of each record that
is not blank, every cell. -/
theorem Format.parse_writePages (format : Format) (json : JsonText) (columns : Columns)
    (pages : List (List Record)) (chunks : List (List UInt8))
    (cut : chunks.flatten = (format.writePages json columns.names pages).flatten)
    (reads : json.Reads pages.flatten) (fits : Fits format json columns pages.flatten)
    (noLists : NoLists json columns pages.flatten) :
    format.parse json chunks =
      { items := (pages.flatten.filter (filled json columns.names)).map fun record =>
          columns.names.map fun column => (column, cellOf json column (record.get? column)) } := by
  rw [format.parse_eq json columns pages chunks cut fits]
  congr 1
  apply map_congr_left
  intro record mem
  apply map_congr_left
  intro column listed
  have exported := (mem_filter.mp mem).1
  rw [readCell_eq reads exported (noLists record exported column listed)]

def emptyLists : JsonText where
  dumps _ := "[]".toList
  loads text := if text = "[]".toList then some (.arr []) else none
  repr _ := "{}".toList

def noteColumns : Columns where
  names := ["kind", "prop.note"]
  nodup := by decide
  named := ⟨'k', ['i', 'n', 'd'], ["prop.note"], rfl, by decide, by decide⟩

def noted (note : String) : Record :=
  [("kind", .str "node"), ("prop.note", .str note)]

theorem noted_get? (note column : String) (items : List Json) :
    (noted note).get? column ≠ some (.arr items) := by
  intro list
  have mem := Dict.mem_of_get? list
  rw [noted, mem_cons, mem_singleton] at mem
  rcases mem with same | same <;> cases same

theorem reads_noted (note : String) : emptyLists.Reads [noted note] where
  loads record mem column items list := by
    rw [mem_singleton.mp mem] at list
    exact absurd list (noted_get? note column items)
  brackets record mem column items list := by
    rw [mem_singleton.mp mem] at list
    exact absurd list (noted_get? note column items)

/-- A note of two lines is read back. -/
theorem parse_noted : Format.csv.parse emptyLists
      (Format.csv.writePages emptyLists noteColumns.names [[noted "one,\n\"two\""]]) =
        { items := [noted "one,\n\"two\""] } := by
  have fits : Fits .csv emptyLists noteColumns [noted "one,\n\"two\""] :=
    { headers := by unfold Plain; decide +kernel
      cells := by unfold Plain; decide +kernel
      header_short := by decide +kernel
      short := by decide +kernel
      narrow := by decide +kernel }
  have noLists : NoLists emptyLists noteColumns [noted "one,\n\"two\""] := by
    have none : ∀ column ∈ noteColumns.names, isProp column = true → listIn emptyLists
        (cellText emptyLists ((noted "one,\n\"two\"").get? column)) = none := by
      decide +kernel
    intro record mem column listed prop _
    rw [mem_singleton.mp mem]
    exact none column listed prop
  rw [Format.parse_writePages .csv emptyLists noteColumns [[noted "one,\n\"two\""]] _ rfl
    (reads_noted _) fits noLists, Stream.mk.injEq]
  decide +kernel

/-- A note that is a list as JSON is read as that list. -/
theorem not_parse_noted : ¬ ∀ (format : Format) (json : JsonText) (columns : Columns)
    (pages : List (List Record)) (chunks : List (List UInt8)),
    chunks.flatten = (format.writePages json columns.names pages).flatten →
      json.Reads pages.flatten → format.parse json chunks =
          { items := pages.flatten.map fun record =>
              columns.names.map fun column =>
                (column, cellOf json column (record.get? column)) } := by
  intro same
  have fits : Fits .csv emptyLists noteColumns [noted "[]"] :=
    { headers := by unfold Plain; decide +kernel
      cells := by unfold Plain; decide +kernel
      header_short := by decide +kernel
      short := by decide +kernel
      narrow := by decide +kernel }
  have read := same .csv emptyLists noteColumns [[noted "[]"]] _ rfl (reads_noted _)
  rw [Format.parse_eq .csv emptyLists noteColumns [[noted "[]"]] _ rfl fits,
    Stream.mk.injEq] at read
  revert read
  decide +kernel

end DataViz.Transfer
