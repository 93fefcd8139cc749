/-
# Where an integer may stand in quotes

The reader of `JSON.parse`, going through a text, may come to an integer beyond the safe range where
none may stand, and its digits in quotes may: for a key, with a leading zero, or right after a
backslash in a string, whose end the second quote then is. A text in which it comes to no such
integer is read as it should be.
-/

import DataViz.Canvas.LosslessJsonLaws

namespace DataViz.Canvas.LosslessJson

open List Option

open JsonReader

variable {ν : Type} {number : List Char → ν} {text rest token : List Char} {c : Char}
  {stack : Stack ν} {state state' : State ν} {most : ℕ} {part : Part}

def Piece.source : Piece → List Char
  | .str body => '"' :: body ++ ['"']
  | .num token => token
  | .char c => [c]

/-- Where an integer's digits may stand in quotes and the integer may not: for a key, right after a
backslash, or with a leading zero. -/
def unfit (mode : Mode ν) (token : List Char) : Bool :=
  match mode with
  | .value | .first => zeroLed token
  | .key | .firstKey | .str _ _ .escaped => true
  | _ => false

def Piece.misplaced (mode : Mode ν) : Piece → Bool
  | .num token => isUnsafe token && unfit mode token
  | _ => false

/-- As far as a reader goes, it comes to no misplaced integer. -/
def placedFrom (read : List Char → Value ν) (state : State ν) : List Piece → Bool
  | [] => true
  | first :: rest =>
    !first.misplaced state.mode &&
      (run read state first.source).all fun next => placedFrom read next rest

/-- `JSON.parse` comes to no misplaced integer. -/
def placed (number : List Char → ν) (text : List Char) : Bool :=
  placedFrom (rounded number) {} (pieces text)

theorem misplaced_shape (mode : Mode ν) (first : Piece) :
    first.misplaced mode.shape = first.misplaced mode := by
  cases first with
  | num token =>
    have fits : unfit mode.shape token = unfit mode token := by
      cases mode with
      | str isKey body escape => cases escape <;> rfl
      | _ => rfl
    exact congrArg (isUnsafe token && ·) fits
  | _ => rfl

/-- Where a reader comes to does not depend on how its numbers are read. -/
theorem placedFrom_congr {read read' : List Char → Value ν} (same : state.shape = state'.shape)
    (items : List Piece) : placedFrom read state items = placedFrom read' state' items := by
  induction items generalizing state state' with
  | nil => rfl
  | cons first rest ih =>
    have modes : first.misplaced state.mode = first.misplaced state'.mode := by
      rw [← misplaced_shape, ← misplaced_shape state'.mode]
      exact congrArg first.misplaced (congrArg State.mode same)
    have shapes := @shape_run ν read state first.source ν read' state' same
    rw [placedFrom, placedFrom, modes]
    cases one : run read state first.source with
    | none =>
      rw [one] at shapes
      rw [map_eq_none_iff.mp shapes.symm]
      rfl
    | some next =>
      rw [one] at shapes
      obtain ⟨next', other, same'⟩ := map_eq_some_iff.mp shapes.symm
      rw [other]
      exact congrArg _ (ih same'.symm)

def lenientFrom (number : List Char → ν) (most : ℕ) (state : State ν) (text : List Char) :
    Option (Value ν) :=
  ((piecesUpTo most text).foldlM (feed number) state).bind (finish (rounded number))

theorem lenientFrom_nil (state : State ν) :
    lenientFrom number most state [] = finish (rounded number) state := by
  cases most <;> rfl

variable {first : Piece}

theorem lenientFrom_cut (cut : piece text = some (first, rest)) :
    lenientFrom number (most + 1) state text =
      (feed number state first).bind (lenientFrom number most · rest) := by
  rw [lenientFrom, piecesUpTo, cut]
  rw [foldlM_cons]
  cases feed number state first <;> rfl

theorem placedFrom_cut {read : List Char → Value ν} (cut : piece text = some (first, rest))
    (placed : placedFrom read state (piecesUpTo (most + 1) text) = true) :
    first.misplaced state.mode = false ∧ ∀ next, run read state first.source = some next →
        placedFrom read next (piecesUpTo most rest) = true := by
  rw [piecesUpTo, cut] at placed
  rw [placedFrom, Bool.and_eq_true, Bool.not_eq_true'] at placed
  refine ⟨placed.1, fun next goes => ?_⟩
  have placed := placed.2
  rwa [goes] at placed

theorem head_of_scanNumber (scan : scanNumber (c :: text) = some (token, rest)) :
    (isDigit c = true ∨ c = '-') ∧ ∃ more, token = c :: more ∧ more ++ rest = text := by
  obtain ⟨whole, ⟨d, head, digit⟩, -⟩ := run_scanNumber scan
  obtain ⟨more, rfl⟩ := head?_eq_some_iff.mp (mem_def.mp head)
  cases whole
  exact ⟨digit, more, rfl, rfl⟩

theorem source_of_piece (cut : piece (c :: text) = some (first, rest)) :
    first.source ++ rest = c :: text ∧ rest.length ≤ text.length := by
  by_cases quote : c = '"'
  · subst quote
    rw [piece_quote] at cut
    split at cut
    · next body after scan =>
        cases cut
        rw [scanString_append scan]
        simp only [Piece.source, cons_append, append_assoc, nil_append, length_append, length_cons,
          true_and]
        omega
    · cases cut
      exact ⟨rfl, le_rfl⟩
  · rw [piece_cons quote] at cut
    split at cut
    · next token after scan =>
        cases cut
        exact ⟨(run_scanNumber scan).1, length_of_scanNumber scan⟩
    · cases cut
      exact ⟨rfl, le_rfl⟩

/-- A character that is not taken, be it for itself or first in a piece. -/
theorem lenientFrom_stops (stops : step (rounded number) state c = none)
    (unquoted : ∀ token, integer state token = none) :
    lenientFrom number (most + 1) state (c :: text) = none := by
  have runs (more : List Char) : run (rounded number) state (c :: more) = none := by
    rw [run_cons, stops]
    rfl
  by_cases quote : c = '"'
  · subst quote
    cases scan : scanString text with
    | none =>
      rw [lenientFrom_cut (piece_quote.trans (by rw [scan])), feed, stops]
      rfl
    | some found =>
      rw [lenientFrom_cut (piece_quote.trans (by rw [scan])), feed, cons_append, runs]
      rfl
  · cases scan : scanNumber (c :: text) with
    | none =>
      rw [lenientFrom_cut ((piece_cons quote).trans (by rw [scan])), feed, stops]
      rfl
    | some found =>
      obtain ⟨more, is, -⟩ := (head_of_scanNumber scan).2
      rw [lenientFrom_cut ((piece_cons quote).trans (by rw [scan])), feed, is, runs, unquoted,
        ite_self]
      rfl

/-- A number that is not complete, and that no character continues. -/
theorem lenientFrom_incomplete (small : text.length ≤ most) (incomplete : part.complete = false)
    (stuck : ∀ c ∈ text.head?, part.next c = none) :
    lenientFrom number most ⟨stack, .num token part⟩ text = none := by
  cases text with
  | nil =>
    rw [lenientFrom_nil]
    exact fails_of_head incomplete stuck ν (rounded number) stack token
  | cons c rest =>
    obtain ⟨more, rfl⟩ := Nat.exists_eq_succ_of_ne_zero (Nat.ne_zero_of_lt small)
    refine lenientFrom_stops ?_ fun _ => rfl
    rw [step]
    simp only [stuck c rfl, incomplete]
    rfl

theorem lenientFrom_exponent (small : text.length ≤ most) (bare : Bare text) :
    lenientFrom number most ⟨stack, .num token .e⟩ text = none := by
  cases text with
  | nil => exact lenientFrom_incomplete small rfl nofun
  | cons c rest =>
    obtain ⟨digit, signed⟩ := bare c rfl
    by_cases sign : c = '+' ∨ c = '-'
    · obtain ⟨more, rfl⟩ : ∃ more, most = more + 1 :=
        Nat.exists_eq_succ_of_ne_zero (Nat.ne_zero_of_lt small)
      have quote : c ≠ '"' := by
        rcases sign with rfl | rfl <;> decide
      have scan : scanNumber (c :: rest) = none := by
        rcases sign with rfl | rfl
        · rfl
        · have digitless : ∀ d ∈ rest.head?, isDigit d = false := signed (.inr rfl)
          rw [scanNumber, scanUnsigned_eq_none.mpr digitless]
          rfl
      have next : Part.next .e c = some .esign := if_pos sign
      rw [lenientFrom_cut ((piece_cons quote).trans (by rw [scan])), feed, step_num next]
      refine lenientFrom_incomplete (Nat.le_of_succ_le_succ small) rfl fun d first => if_neg ?_
      rw [signed sign d first]
      exact Bool.false_ne_true
    · refine lenientFrom_incomplete small rfl fun d first => ?_
      cases first
      rw [Part.next, if_neg sign, if_neg (Bool.eq_false_iff.mp digit)]

/-- A character that neither ends a string nor escapes what follows. -/
def Plain (c : Char) : Prop :=
  c ≠ '"' ∧ c ≠ '\\'

theorem plain_of_scanDigits (mem : c ∈ (scanDigits text).1) : Plain c :=
  ⟨isDigit_ne (isDigit_of_scanDigits mem) _ rfl, isDigit_ne (isDigit_of_scanDigits mem) _ rfl⟩

theorem plain_of_scanFraction (mem : c ∈ (scanFraction text).1) : Plain c := by
  fun_cases scanFraction text <;> grind [scanFraction, plain_of_scanDigits, Plain]

theorem plain_of_scanSign (mem : c ∈ (scanSign text).1) : Plain c := by
  fun_cases scanSign text <;> grind [scanSign, Plain]

theorem plain_of_scanExponent (mem : c ∈ (scanExponent text).1) : Plain c := by
  fun_cases scanExponent text <;>
    grind [scanExponent, isExponent, plain_of_scanDigits, plain_of_scanSign, Plain]

theorem plain_of_scanUnsigned (scan : scanUnsigned text = some (token, rest)) :
    ∀ c ∈ token, Plain c := by
  grind [scanUnsigned, plain_of_scanDigits, plain_of_scanFraction, plain_of_scanExponent]

theorem plain_of_scanNumber (scan : scanNumber text = some (token, rest)) :
    ∀ c ∈ token, Plain c := by
  fun_cases scanNumber text <;>
    grind [scanNumber, plain_of_scanUnsigned, map_eq_some_iff, Plain]

theorem scanString_plain (plain : ∀ c ∈ token, Plain c) :
    scanString (token ++ rest) = (scanString rest).map fun (body, after) =>
      (token ++ body, after) := by
  induction token with
  | nil => exact map_id'.symm
  | cons c more ih =>
    obtain ⟨quote, backslash⟩ := plain c mem_cons_self
    rw [cons_append, scanString_cons quote backslash,
      ih fun d mem => plain d (mem_cons_of_mem _ mem), Option.map_map]
    rfl

/-- Within a string, such characters are taken as they are, or fail. -/
theorem run_plain (plain : ∀ c ∈ token, Plain c) (isKey : Bool) (before : List Char)
    {escape : Escape} (free : escape.Free) :
    (∀ read, run read ⟨stack, .str isKey before escape⟩ token = none) ∨
      ∃ escape' : Escape, escape'.Free ∧ ∀ read, run read ⟨stack, .str isKey before escape⟩ token =
        some ⟨stack, .str isKey (before ++ token) escape'⟩ := by
  induction token generalizing before escape with
  | nil => exact .inr ⟨escape, free, fun read => by rw [append_nil]; rfl⟩
  | cons c more ih =>
    obtain ⟨quote, backslash⟩ := plain c mem_cons_self
    have steps (read : List Char → Value ν) :
        run read ⟨stack, .str isKey before escape⟩ (c :: more) =
          (stepStr stack isKey before escape c).bind (run read · more) := run_cons
    rcases stepStr_plain stack isKey before free quote backslash with fails | ⟨escape', free', goes⟩
    · left
      intro read
      rw [steps, fails]
      rfl
    · simp only [steps, goes, bind_some]
      rcases ih (fun d mem => plain d (mem_cons_of_mem _ mem)) (before ++ [c]) free'
        with fails | ⟨last, free, runs⟩
      · exact .inl fails
      · rw [append_assoc] at runs
        exact .inr ⟨last, free, runs⟩

theorem step_escaped (isKey : Bool) (before : List Char)
    (letter : ¬((escapeOf c).isSome ∨ c = 'u')) (read : List Char → Value ν) :
    step read ⟨stack, .str isKey before .escaped⟩ c = none := by
  rw [not_or, not_isSome_iff_eq_none] at letter
  change (if c = 'u' then _ else (escapeOf c).map _) = _
  rw [if_neg letter.2, letter.1]
  rfl

theorem not_letter_of_number (number : isDigit c = true ∨ c = '-') :
    ¬((escapeOf c).isSome ∨ c = 'u') := by
  rcases number with digit | rfl
  · rintro (letter | rfl)
    · unfold escapeOf at letter
      split at letter <;> first | cases digit | cases letter
    · cases digit
  · decide

/-- A string of at most so many characters that no quote closes is no value by its pieces. -/
def Unread (number : List Char → ν) (most : ℕ) : Prop :=
  ∀ (stack : Stack ν) (isKey : Bool) (before : List Char) (escape : Escape) (text : List Char),
    text.length ≤ most → escape.Free → scanString text = none →
    placedFrom (exact number) ⟨stack, .str isKey before escape⟩ (piecesUpTo most text) = true →
    lenientFrom number most ⟨stack, .str isKey before escape⟩ text = none

/-- Past a backslash an integer in quotes could end the string, but it is misplaced there. -/
theorem lenientFrom_escaped (ih : ∀ fewer < most, Unread number fewer) (isKey : Bool)
    (before : List Char) (small : text.length ≤ most) (scan : scanString ('\\' :: text) = none)
    (placed : placedFrom (exact number) ⟨stack, .str isKey before .escaped⟩ (piecesUpTo most text) =
      true) : lenientFrom number most ⟨stack, .str isKey before .escaped⟩ text = none := by
  cases text with
  | nil =>
    rw [lenientFrom_nil]
    cases stack <;> rfl
  | cons c rest =>
    obtain ⟨most, rfl⟩ := Nat.exists_eq_succ_of_ne_zero (Nat.ne_zero_of_lt small)
    replace small : rest.length ≤ most := Nat.le_of_succ_le_succ small
    cases tokens : scanNumber (c :: rest) with
    | some found =>
      obtain ⟨token, after⟩ := found
      have quote : c ≠ '"' := by
        rintro rfl
        cases tokens
      have cut : piece (c :: rest) = some (.num token, after) :=
        (piece_cons quote).trans (by rw [tokens])
      obtain ⟨digit, more, rfl, -⟩ := head_of_scanNumber tokens
      have safe : isUnsafe (c :: more) = false :=
        (Bool.and_true _).symm.trans (placedFrom_cut cut placed).1
      rw [lenientFrom_cut cut, feed, if_neg (Bool.eq_false_iff.mp safe), run_cons,
        step_escaped isKey before (not_letter_of_number digit)]
      rfl
    | none =>
      by_cases letter : (escapeOf c).isSome ∨ c = 'u'
      · have goes : ¬isLineTerminator c = true :=
          fun ends => not_letter_of_isLineTerminator ends letter
        rw [scanString, if_neg goes, map_eq_none_iff] at scan
        have cut : piece (c :: rest) = some (.char c, rest) := by
          by_cases quote : c = '"'
          · subst quote
            exact piece_quote.trans (by rw [scan])
          · exact (piece_cons quote).trans (by rw [tokens])
        obtain ⟨escape, free, steps⟩ : ∃ escape : Escape, escape.Free ∧
            ∀ read, step read ⟨stack, .str isKey before .escaped⟩ c =
              some ⟨stack, .str isKey (before ++ [c]) escape⟩ := by
          by_cases unicode : c = 'u'
          · exact ⟨.hex 3, trivial, fun read => if_pos unicode⟩
          · obtain ⟨unit, is⟩ := isSome_iff_exists.mp (letter.resolve_right unicode)
            refine ⟨.none, trivial, fun read => ?_⟩
            change (if c = 'u' then _ else (escapeOf c).map _) = _
            rw [if_neg unicode, is]
            rfl
        rw [lenientFrom_cut cut, feed, steps]
        exact ih most most.lt_succ_self _ _ _ _ _ small free scan
          ((placedFrom_cut cut placed).2 _ (run_singleton.trans (steps _)))
      · have quote : c ≠ '"' := by
          rintro rfl
          exact letter (.inl rfl)
        have cut : piece (c :: rest) = some (.char c, rest) :=
          (piece_cons quote).trans (by rw [tokens])
        rw [lenientFrom_cut cut, feed, step_escaped isKey before letter]
        rfl

theorem unread (number : List Char → ν) (most : ℕ) : Unread number most := by
  induction most using Nat.strong_induction_on with
  | _ most ih =>
  intro stack isKey before escape text small free scan placed
  cases text with
  | nil =>
    rw [lenientFrom_nil]
    cases stack <;> rfl
  | cons c rest =>
    obtain ⟨most, rfl⟩ := Nat.exists_eq_succ_of_ne_zero (Nat.ne_zero_of_lt small)
    replace small : rest.length ≤ most := Nat.le_of_succ_le_succ small
    by_cases backslash : c = '\\'
    · subst backslash
      have cut : piece ('\\' :: rest) = some (.char '\\', rest) := rfl
      cases escape with
      | escaped => exact absurd free id
      | hex left => rfl
      | none =>
        exact lenientFrom_escaped (fun fewer less => ih fewer (less.trans most.lt_succ_self))
          isKey (before ++ ['\\']) small scan ((placedFrom_cut cut placed).2 _ rfl)
    have quote : c ≠ '"' := by
      rintro rfl
      cases scan
    rw [scanString_cons quote backslash, map_eq_none_iff] at scan
    cases tokens : scanNumber (c :: rest) with
    | some found =>
      obtain ⟨token, after⟩ := found
      have cut : piece (c :: rest) = some (.num token, after) :=
        (piece_cons quote).trans (by rw [tokens])
      obtain ⟨-, more, rfl, rfl⟩ := head_of_scanNumber tokens
      have plain := plain_of_scanNumber tokens
      rw [lenientFrom_cut cut, feed]
      split
      · cases escape with
        | escaped => exact absurd free id
        | _ => rfl
      · rcases run_plain plain isKey before free with fails | ⟨escape', free', runs⟩
        · rw [fails]
          rfl
        · rw [runs]
          refine ih most most.lt_succ_self _ _ _ _ _
            ((length_of_scanNumber tokens).trans small) free' ?_
            ((placedFrom_cut cut placed).2 _ (runs _))
          rw [scanString_plain fun d mem => plain d (mem_cons_of_mem _ mem),
            map_eq_none_iff] at scan
          exact scan
    | none =>
      have cut : piece (c :: rest) = some (.char c, rest) :=
        (piece_cons quote).trans (by rw [tokens])
      have steps (read : List Char → Value ν) : step read ⟨stack, .str isKey before escape⟩ c =
            stepStr stack isKey before escape c := rfl
      rw [lenientFrom_cut cut, feed, steps]
      rcases stepStr_plain stack isKey before free quote backslash
        with fails | ⟨escape', free', goes⟩
      · rw [fails]
        rfl
      · rw [goes]
        exact ih most most.lt_succ_self _ _ _ _ _ small free' scan
          ((placedFrom_cut cut placed).2 _ (run_singleton.trans goes))

/-- `JSON.parse` fails on an integer with a leading zero. -/
theorem run_zeroLed (scan : scanNumber text = some (token, rest)) (beyond : isUnsafe token = true)
    (led : zeroLed token = true) {mode : Mode ν} (starts : mode = .value ∨ mode = .first)
    (read : List Char → Value ν) : run read ⟨stack, mode⟩ token = none := by
  obtain ⟨sign, digits, rfl, signs, long, isDigits⟩ := digits_of_unsafe scan beyond
  match digits with
  | d :: e :: others =>
    have digit : isDigit e = true := isDigits e (by simp)
    have zero : d = '0' := by
      rcases signs with rfl | rfl
      · have unsigned : d ≠ '-' := by
          rintro rfl
          cases isDigits '-' mem_cons_self
        simpa [zeroLed, unsigned] using led
      · exact of_decide_eq_true led
    subst zero
    have fails (token : List Char) :
        run read ⟨stack, .num token .sign⟩ ('0' :: e :: others) = none := run_zero digit read
    rcases signs with rfl | rfl <;> rcases starts with rfl | rfl
    · exact fails []
    · exact fails []
    · exact fails ['-']
    · exact fails ['-']

/-- `JSON.parse` fails on a misplaced integer. -/
theorem run_misplaced (scan : scanNumber text = some (token, rest))
    (misplaced : (Piece.num token).misplaced state.mode = true) (read : List Char → Value ν) :
    run read state token = none := by
  rw [Piece.misplaced, Bool.and_eq_true] at misplaced
  obtain ⟨beyond, unfits⟩ := misplaced
  obtain ⟨-, ⟨c, head, digit⟩, -⟩ := run_scanNumber scan
  obtain ⟨more, is⟩ := head?_eq_some_iff.mp (mem_def.mp head)
  have stops (stays : step read state c = none) : run read state token = none := by
    rw [is, run_cons, stays]
    rfl
  have noValue (between : state.mode.Between) (value : state.mode ≠ .value)
      (first : state.mode ≠ .first) : run read state token = none :=
    stops (by_contra fun moves => (value_of_run_number between digit moves).elim value first)
  obtain ⟨stack, mode⟩ := state
  cases mode with
  | value => exact run_zeroLed scan beyond unfits (.inl rfl) read
  | first => exact run_zeroLed scan beyond unfits (.inr rfl) read
  | key => exact noValue trivial nofun nofun
  | firstKey => exact noValue trivial nofun nofun
  | str isKey before escape =>
    cases escape with
    | escaped => exact stops (step_escaped isKey before (not_letter_of_number digit) read)
    | _ => cases unfits
  | _ => cases unfits

theorem placedFrom_of_run {read : List Char → Value ν} (reads : run read state text ≠ none) :
    placedFrom read state (piecesUpTo most text) = true := by
  induction most generalizing text state with
  | zero => rfl
  | succ most ih =>
    cases cut : piece text with
    | none => simp only [piecesUpTo, cut, placedFrom]
    | some found =>
      obtain ⟨first, rest⟩ := found
      have items : piecesUpTo (most + 1) text = first :: piecesUpTo most rest := by
        rw [piecesUpTo, cut]
      obtain ⟨c, others, rfl⟩ : ∃ c others, text = c :: others := by
        cases text with
        | nil => cases cut
        | cons c others => exact ⟨c, others, rfl⟩
      rw [← (source_of_piece cut).1, run_append] at reads
      have fits : first.misplaced state.mode = false := by
        cases first with
        | num token =>
          obtain ⟨_, _, scan⟩ := scanNumber_of_mem (items ▸ mem_cons_self)
          by_contra misplaced
          refine reads ?_
          rw [Piece.source, run_misplaced scan (Bool.not_eq_false _ ▸ misplaced)]
          rfl
        | _ => rfl
      rw [items, placedFrom, fits]
      cases goes : run read state first.source with
      | none => rfl
      | some next =>
        rw [goes] at reads
        exact ih reads

/-- In JSON no integer is misplaced. -/
theorem placed_of_jsonParse (reads : jsonParse number text ≠ none) : placed number text = true := by
  refine placedFrom_of_run fun stops => reads ?_
  rw [jsonParse, parse, stops]
  rfl

theorem follow_of_mark {value : Value ν} (mark : c = '.' ∨ isExponent c = true) :
    follow stack value c = none := by
  rw [isExponent, Bool.or_eq_true, decide_eq_true_eq, decide_eq_true_eq] at mark
  rcases mark with rfl | rfl | rfl <;>
  · unfold follow
    rw [if_neg (by decide)]
    split <;> rfl

/-- A text as it should be read, from a state on. -/
def exactFrom (number : List Char → ν) (state : State ν) (text : List Char) : Option (Value ν) :=
  (run (exact number) state text).bind (finish (exact number))

theorem exactFrom_append (front back : List Char) : exactFrom number state (front ++ back) =
    (run (exact number) state front).bind (exactFrom number · back) := by
  rw [exactFrom, run_append, bind_assoc]
  rfl

def Follows (number : List Char → ν) (most : ℕ) : Prop :=
  ∀ (text : List Char) (state state' : State ν), text.length ≤ most → Alike text state state' →
    placedFrom (exact number) state (piecesUpTo most text) = true →
    lenientFrom number most state' text = exactFrom number state text

/-- A piece that both readers take, or neither. -/
theorem Follows.cut (follows : Follows number most)
    (cut : piece (c :: text) = some (first, rest)) (small : text.length ≤ most)
    (placed : placedFrom (exact number) state (piecesUpTo (most + 1) (c :: text)) = true)
    (alike : feed number state' first = none ∧ run (exact number) state first.source = none ∨
      ∃ next next', feed number state' first = some next' ∧
        run (exact number) state first.source = some next ∧ Alike rest next next') :
    lenientFrom number (most + 1) state' (c :: text) = exactFrom number state (c :: text) := by
  obtain ⟨whole, drops⟩ := source_of_piece cut
  rw [lenientFrom_cut cut, ← whole, exactFrom_append]
  rcases alike with ⟨stops, stops'⟩ | ⟨next, next', feeds, runs, alike⟩
  · rw [stops, stops']
    rfl
  · rw [feeds, runs]
    exact follows _ _ _ (drops.trans small) alike ((placedFrom_cut cut placed).2 next runs)

/-- A string is read to its closing quote, or is no value. -/
theorem Follows.atQuote (follows : Follows number most) (between : state.mode.Between)
    (small : text.length ≤ most)
    (placed : placedFrom (exact number) state (piecesUpTo (most + 1) ('"' :: text)) = true) :
    lenientFrom number (most + 1) state ('"' :: text) = exactFrom number state ('"' :: text) := by
  have same : step (exact number) state '"' = step (rounded number) state '"' :=
    step_congr between.settled
  have opens := step_quote between (rounded number)
  cases scan : scanString text with
  | none =>
    have cut : piece ('"' :: text) = some (.char '"', text) := piece_quote.trans (by rw [scan])
    rw [lenientFrom_cut cut, exactFrom, run_cons, feed, same]
    rcases opens with stops | ⟨-, isKey, goes⟩
    · rw [stops]
      rfl
    · have free : Escape.Free .none := trivial
      rw [goes, bind_some, bind_some, run_unclosed scan state.stack isKey [] free]
      exact unread number most _ _ _ _ _ small free scan
        ((placedFrom_cut cut placed).2 _ (run_singleton.trans (same.trans goes)))
  | some found =>
    obtain ⟨body, rest⟩ := found
    have cut : piece ('"' :: text) = some (.str body, rest) := piece_quote.trans (by rw [scan])
    refine follows.cut cut small placed ?_
    rw [feed, Piece.source, cons_append, run_cons, run_cons, same]
    rcases opens with stops | ⟨-, isKey, goes⟩
    · rw [stops]
      exact .inl ⟨rfl, rfl⟩
    · rw [goes]
      rcases (@run_scanString ν _ _ _ scan).2 state.stack isKey [] .none trivial with fails | closes
      · exact .inl ⟨fails _, fails _⟩
      · exact .inr ⟨_, _, closes _, closes _, .between (close_between _ _ _)⟩

/-- A number stands where a value starts, or no reader takes it. -/
theorem Follows.atNumber (follows : Follows number most) (between : state.mode.Between)
    (small : text.length ≤ most) (scan : scanNumber (c :: text) = some (token, rest))
    (quote : c ≠ '"')
    (placed : placedFrom (exact number) state (piecesUpTo (most + 1) (c :: text)) = true) :
    lenientFrom number (most + 1) state (c :: text) = exactFrom number state (c :: text) := by
  have cut : piece (c :: text) = some (.num token, rest) := (piece_cons quote).trans (by rw [scan])
  have fits (beyond : isUnsafe token = true) : unfit state.mode token = false := by
    have misplaced := (placedFrom_cut cut placed).1
    rwa [Piece.misplaced, beyond] at misplaced
  obtain ⟨-, -, runs⟩ := run_scanNumber scan
  obtain ⟨digit, more, is, -⟩ := head_of_scanNumber scan
  refine follows.cut cut small placed ?_
  rw [feed]
  obtain ⟨stack, mode⟩ := state
  by_cases starts : mode = .value ∨ mode = .first
  · rcases runs with ⟨zero, fails⟩ | ⟨part, ends, takes⟩
    · refine .inl ⟨?_, fails ν _ stack mode starts⟩
      split
      · next beyond =>
          rcases starts with rfl | rfl <;> exact absurd zero (Bool.eq_false_iff.mp (fits beyond))
      · exact fails ν _ stack mode starts
    · refine .inr ⟨_, _, ?_, takes ν _ stack mode starts, .numeral ends⟩
      split
      · rcases starts with rfl | rfl <;> rfl
      · exact takes ν _ stack mode starts
  · have stops (read : List Char → Value ν) : run read ⟨stack, mode⟩ token = none := by
      have stays : step read ⟨stack, mode⟩ c = none := by
        by_contra moves
        exact starts (value_of_run_number between digit moves)
      rw [is, run_cons, stays]
      rfl
    refine .inl ⟨?_, stops _⟩
    split
    · next beyond =>
        cases mode with
        | value => exact absurd (.inl rfl) starts
        | first => exact absurd (.inr rfl) starts
        | key => cases fits beyond
        | firstKey => cases fits beyond
        | str => exact absurd between id
        | _ => rfl
    · exact stops _

/-- Any other character is taken alike, or starts a number without digits. -/
theorem Follows.atChar (follows : Follows number most) (between : state.mode.Between)
    (small : text.length ≤ most) (scan : scanNumber (c :: text) = none) (quote : c ≠ '"')
    (placed : placedFrom (exact number) state (piecesUpTo (most + 1) (c :: text)) = true) :
    lenientFrom number (most + 1) state (c :: text) = exactFrom number state (c :: text) := by
  have cut : piece (c :: text) = some (.char c, text) := (piece_cons quote).trans (by rw [scan])
  have same : run (exact number) state [c] = step (rounded number) state c :=
    run_singleton.trans (step_congr between.settled)
  cases steps : step (rounded number) state c with
  | none => exact follows.cut cut small placed (.inl ⟨steps, same.trans steps⟩)
  | some next =>
    rcases step_cases between steps with ⟨is, -⟩ | between' | ⟨rfl, rfl⟩ | ⟨part, starts, -⟩
    · exact absurd is quote
    · exact follows.cut cut small placed (.inr ⟨_, _, steps, same.trans steps, .between between'⟩)
    · have stuck : ∀ d ∈ text.head?, Part.next .sign d = none :=
        fun d head => next_sign (minus_of_scanNumber scan d head)
      rw [lenientFrom_cut cut, feed, steps, bind_some, lenientFrom_incomplete small rfl stuck,
        exactFrom, ← singleton_append, run_append, same, steps, bind_some,
        fails_of_head rfl stuck]
    · rw [next_sign (digitless_of_scanNumber scan)] at starts
      cases starts

/-- After a number, what is taken ends it. -/
theorem Follows.afterNumber (follows : Follows number most) (ends : Ends part (c :: text))
    (small : text.length ≤ most)
    (placed : placedFrom (exact number) ⟨stack, .num token part⟩
      (piecesUpTo (most + 1) (c :: text)) = true) :
    lenientFrom number (most + 1) (if isUnsafe token then
        ⟨stack, .after (.str (token.map Char.toNat))⟩ else ⟨stack, .num token part⟩) (c :: text) =
      exactFrom number ⟨stack, .num token part⟩ (c :: text) := by
  cases next : part.next c with
  | some part' =>
    have mark : c = '.' ∨ isExponent c = true := (ends.continues next).imp And.left And.left
    have cut : piece (c :: text) = some (.char c, text) := by
      rw [isExponent, Bool.or_eq_true, decide_eq_true_eq, decide_eq_true_eq] at mark
      rcases mark with rfl | rfl | rfl <;> rfl
    have fails : Fails part' text ∧
        lenientFrom number most ⟨stack, .num (token ++ [c]) part'⟩ text = none := by
      rcases ends.continues next with ⟨-, rfl, digitless⟩ | ⟨-, rfl, bare⟩
      · have stuck : ∀ d ∈ text.head?, Part.next .dot d = none := fun d head =>
          if_neg (Bool.eq_false_iff.mp (digitless d head))
        exact ⟨fails_of_head rfl stuck, lenientFrom_incomplete small rfl stuck⟩
      · exact ⟨fails_exponent bare, lenientFrom_exponent small bare⟩
    rw [exactFrom, run_cons, step_num next, bind_some, fails.1]
    split
    · exact lenientFrom_stops (follow_of_mark mark) fun _ => rfl
    · rw [lenientFrom_cut cut, feed, step_num next, bind_some, fails.2]
  | none =>
    have steps (read : List Char → Value ν) :
        step read ⟨stack, .num token part⟩ c = follow stack (read token) c := by
      unfold step
      dsimp only
      rw [next]
      exact if_pos ends.complete
    have steps' : step (rounded number) (if isUnsafe token then
        ⟨stack, .after (.str (token.map Char.toNat))⟩ else ⟨stack, .num token part⟩) c =
          follow stack (exact number token) c := by
      rw [exact]
      split
      · rfl
      · exact steps (rounded number)
    cases goes : follow stack (exact number token) c with
    | none =>
      rw [exactFrom, run_cons, steps, goes]
      refine lenientFrom_stops (steps'.trans goes) fun other => ?_
      split <;> rfl
    | some after =>
      have quote : c ≠ '"' := by
        rintro rfl
        rw [follow_quote] at goes
        cases goes
      have scan : scanNumber (c :: text) = none := by
        by_contra found
        obtain ⟨⟨other, rest⟩, scan⟩ := ne_none_iff_exists'.mp found
        rcases (head_of_scanNumber scan).1 with digit | rfl
        · rw [follow_of_digit digit] at goes
          cases goes
        · rw [follow_minus] at goes
          cases goes
      have cut : piece (c :: text) = some (.char c, text) :=
        (piece_cons quote).trans (by rw [scan])
      exact follows.cut cut small placed (.inr ⟨_, _, steps'.trans goes,
        run_singleton.trans ((steps _).trans goes), .between (follow_between goes)⟩)

theorem follows_all (number : List Char → ν) (most : ℕ) : Follows number most := by
  have ended {most : ℕ} {state state' : State ν} (alike : Alike [] state state') :
      lenientFrom number most state' [] = exactFrom number state [] :=
    (lenientFrom_nil state').trans alike.finish.symm
  induction most with
  | zero =>
    intro text state state' small alike placed
    obtain rfl := length_eq_zero_iff.mp (Nat.le_zero.mp small)
    exact ended alike
  | succ most ih =>
    intro text state state' small alike placed
    cases text with
    | nil => exact ended alike
    | cons c text =>
      replace small : text.length ≤ most := Nat.le_of_succ_le_succ small
      cases alike with
      | numeral ends => exact ih.afterNumber ends small placed
      | between between =>
        by_cases quote : c = '"'
        · subst quote
          exact ih.atQuote between small placed
        cases scan : scanNumber (c :: text) with
        | none => exact ih.atChar between small scan quote placed
        | some found => exact ih.atNumber between small scan quote placed

/-- A text in which the reader of `JSON.parse` comes to no misplaced integer is read as it should
be. -/
theorem readExactly_of_placed (number : List Char → ν) (text : List Char)
    (free : placed number text = true) : ReadExactly number text := by
  have between : ({} : State ν).mode.Between := trivial
  have shape : ({} : State ν).shape = ({} : State ν).shape := rfl
  have same : parseJsonLossless number text = parse (exact number) text :=
    (parseJsonLossless_eq number text).trans
      (follows_all number text.length text {} {} le_rfl (.between between)
        ((placedFrom_congr shape _).trans free))
  exact ⟨(congrArg isSome same).trans (isSome_run shape), fun value is => same ▸ is⟩

/-- Integers as values, in a string that a backslash and a quote are in, and in an open string. -/
theorem readExactly_of_placed_nested : ReadExactly (fun _ => ())
        "[\x7b\"a\\\"\\\\\":-12345678901234567\x7d,98765432109876543210]".toList ∧
      ReadExactly (fun _ => ()) "[12345678901234567,\"12345678901234567".toList :=
  ⟨readExactly_of_placed _ _ (by decide +kernel), readExactly_of_placed _ _ (by decide +kernel)⟩

end DataViz.Canvas.LosslessJson
