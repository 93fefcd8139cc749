/-
# What is read without rounding

The rewritten text is read as JSON in which an integer beyond the safe range stands for the string
of its digits: for a value, for a key, or, right after a backslash, for the end of a string. A text
is read as it should be where such integers are values, and those of `JSON.parse`.
-/

import DataViz.Canvas.LosslessScan

namespace DataViz.Canvas.LosslessJson

open List Option

open JsonReader

variable {ν : Type} {number : List Char → ν} {text rest body token digits : List Char}
  {c : Char} {stack : Stack ν} {state : State ν}

/-- An integer that stands for the string of its digits: for a value, for a key, or for the end of a
string after a backslash. -/
def integer (state : State ν) (token : List Char) : Option (State ν) :=
  match state.mode with
  | .value | .first => some ⟨state.stack, .after (.str (token.map Char.toNat))⟩
  | .key | .firstKey => some ⟨state.stack, .colon (token.map Char.toNat)⟩
  | .str isKey body .escaped => some (close state.stack isKey (body ++ '"' :: token))
  | _ => none

/-- A piece is read, an integer beyond the safe range as such a string. -/
def feed (number : List Char → ν) (state : State ν) : Piece → Option (State ν)
  | .str body => run (rounded number) state ('"' :: body ++ ['"'])
  | .num token =>
    if isUnsafe token then integer state token else run (rounded number) state token
  | .char c => step (rounded number) state c

/-- JSON in which integers beyond the safe range may stand for strings. -/
def lenient (number : List Char → ν) (text : List Char) : Option (Value ν) :=
  ((pieces text).foldlM (feed number) {}).bind (finish (rounded number))

/-- Readers of a text and of its pieces between two of them: the same, or after a number. -/
inductive Alike (rest : List Char) : State ν → State ν → Prop
  | between {state : State ν} (between : state.mode.Between) : Alike rest state state
  | numeral {stack : Stack ν} {token : List Char} {part : Part} (ends : Ends part rest) :
      Alike rest ⟨stack, .num token part⟩
        (if isUnsafe token then ⟨stack, .after (.str (token.map Char.toNat))⟩
          else ⟨stack, .num token part⟩)

variable {state' : State ν}

theorem Alike.finish (alike : Alike [] state state') :
    finish (exact number) state = finish (rounded number) state' := by
  cases alike with
  | between between => exact finish_congr between.settled
  | @numeral stack token part ends =>
    cases stack with
    | cons frame below => split <;> rfl
    | nil =>
      change (if part.complete = true then some (exact number token) else none) = _
      rw [if_pos ends.complete, exact]
      split
      · rfl
      · exact (if_pos ends.complete).symm

theorem piece_quote : piece ('"' :: text) = match scanString text with
    | some (body, rest) => some (.str body, rest)
    | none => some (.char '"', text) := rfl

theorem piece_cons (quote : c ≠ '"') : piece (c :: text) = match scanNumber (c :: text) with
    | some (token, rest) => some (.num token, rest)
    | none => some (.char c, text) :=
  piece.eq_3 c text quote

theorem length_of_scanNumber (scan : scanNumber (c :: text) = some (token, rest)) :
    rest.length ≤ text.length := by
  obtain ⟨whole, ⟨d, head, -⟩, -⟩ := run_scanNumber scan
  have long := congrArg List.length whole
  cases token with
  | nil => cases head
  | cons d' more =>
    rw [length_append, length_cons, length_cons] at long
    omega

theorem scanFraction_of_plain (plain : isPlain (scanFraction text).1 = true) :
    (scanFraction text).1 = [] := by
  by_cases dotted : ∃ rest, text = '.' :: rest
  · obtain ⟨rest, rfl⟩ := dotted
    rw [scanFraction] at plain ⊢
    by_cases bare : (scanDigits rest).1 = []
    · rw [if_pos bare]
    · rw [if_neg bare] at plain
      cases plain
  · rw [scanFraction]
    exact fun rest is => dotted ⟨rest, is⟩

theorem scanExponent_of_plain (plain : isPlain (scanExponent text).1 = true) :
    (scanExponent text).1 = [] := by
  cases text with
  | nil => rfl
  | cons c rest =>
    rw [scanExponent] at plain ⊢
    by_cases letter : isExponent c = true
    · rw [if_pos letter] at plain ⊢
      by_cases bare : (scanDigits (scanSign rest).2).1 = []
      · rw [if_pos bare]
      · rw [if_neg bare, isPlain, cons_append, List.all_cons, letter, Bool.not_true,
          Bool.and_false, Bool.false_and] at plain
        cases plain
    · rw [if_neg letter]

/-- A token without fraction and exponent is an integer's digits with its sign. -/
theorem digits_of_plain (scan : scanNumber text = some (token, rest))
    (plain : isPlain token = true) : ∃ sign digits, token = sign ++ digits ∧
      (sign = [] ∨ sign = ['-']) ∧ digits ≠ [] ∧ ∀ c ∈ digits, isDigit c = true := by
  have unsigned {text token : List Char} (scan : scanUnsigned text = some (token, rest))
      (plain : isPlain token = true) : token ≠ [] ∧ ∀ c ∈ token, isDigit c = true := by
    rw [scanUnsigned] at scan
    dsimp only at scan
    split at scan
    · cases scan
    · next some' =>
        cases scan
        rw [isPlain, all_append, all_append, Bool.and_eq_true, Bool.and_eq_true] at plain
        obtain ⟨⟨-, plain⟩, plain'⟩ := plain
        rw [scanFraction_of_plain plain, scanExponent_of_plain plain', append_nil, append_nil]
        exact ⟨some', fun c mem => isDigit_of_scanDigits mem⟩
  by_cases signed : ∃ others, text = '-' :: others
  · obtain ⟨others, rfl⟩ := signed
    rw [scanNumber, map_eq_some_iff] at scan
    obtain ⟨⟨token', rest'⟩, scan, same⟩ := scan
    cases same
    obtain ⟨some', isDigits⟩ := unsigned scan plain
    exact ⟨['-'], token', rfl, .inr rfl, some', isDigits⟩
  · have same : scanNumber text = scanUnsigned text := by
      rw [scanNumber]
      exact fun others is => signed ⟨others, is⟩
    rw [same] at scan
    obtain ⟨some', isDigits⟩ := unsigned scan plain
    exact ⟨[], token, rfl, .inl rfl, some', isDigits⟩

theorem toNat_of_digit (digit : isDigit c = true) : c.toNat ≤ 57 := by
  rw [isDigit, Bool.and_eq_true, decide_eq_true_eq, decide_eq_true_eq] at digit
  exact digit.2

/-- Digits denote less than the power of ten of their count. -/
theorem natOf_lt (isDigits : ∀ c ∈ digits, isDigit c = true) :
    natOf digits < 10 ^ digits.length := by
  have bound (n : ℕ) : digits.foldl (fun n c => 10 * n + (c.toNat - 48)) n <
      (n + 1) * 10 ^ digits.length := by
    induction digits generalizing n with
    | nil => simp
    | cons c rest ih =>
      have small := toNat_of_digit (isDigits c mem_cons_self)
      refine (ih (fun d mem => isDigits d (mem_cons_of_mem _ mem)) _).trans_le ?_
      change (10 * n + (c.toNat - 48) + 1) * _ ≤ _
      rw [length_cons, Nat.pow_succ', ← Nat.mul_assoc]
      exact Nat.mul_le_mul_right _ (by omega)
  have whole := bound 0
  rwa [Nat.one_mul] at whole

/-- An integer beyond the safe range has sixteen digits. -/
theorem digits_of_unsafe (scan : scanNumber text = some (token, rest))
    (beyond : isUnsafe token = true) : ∃ sign digits, token = sign ++ digits ∧
      (sign = [] ∨ sign = ['-']) ∧ 16 ≤ digits.length ∧ ∀ c ∈ digits, isDigit c = true := by
  rw [isUnsafe, Bool.and_eq_true, Bool.not_eq_true', isSafeInteger, decide_eq_false_iff_not,
    not_lt] at beyond
  obtain ⟨plain, big⟩ := beyond
  obtain ⟨sign, digits, rfl, signs, some', isDigits⟩ := digits_of_plain scan plain
  refine ⟨sign, digits, rfl, signs, ?_, isDigits⟩
  have value : (intOf (sign ++ digits)).natAbs = natOf digits := by
    rcases signs with rfl | rfl
    · rw [intOf]
      · rfl
      · rintro more rfl
        cases isDigits '-' mem_cons_self
    · change (-(natOf digits : ℤ)).natAbs = _
      rw [Int.natAbs_neg]
      rfl
  by_contra few
  have less : natOf digits < 10 ^ 15 :=
    (natOf_lt isDigits).trans_le (Nat.pow_le_pow_right (by decide) (by omega))
  omega

theorem quoteIfUnsafe_of_unsafe (scan : scanNumber text = some (token, rest))
    (beyond : isUnsafe token = true) : quoteIfUnsafe (.num token) = '"' :: token ++ ['"'] := by
  obtain ⟨sign, digits, rfl, -, long, -⟩ := digits_of_unsafe scan beyond
  rw [isUnsafe, Bool.and_eq_true, Bool.not_eq_true'] at beyond
  have short : ¬(sign ++ digits).length < 16 := by
    rw [length_append]
    omega
  rw [quoteIfUnsafe, beyond.1, beyond.2, decide_eq_false short]
  rfl

theorem quoteIfUnsafe_of_safe (within : isUnsafe token = false) :
    quoteIfUnsafe (.num token) = token := by
  rw [quoteIfUnsafe]
  split
  · rfl
  split
  · rfl
  · next plain beyond =>
      rw [Bool.not_eq_true] at beyond
      rw [Bool.not_eq_true, Bool.or_eq_false_iff, Bool.not_eq_false'] at plain
      rw [isUnsafe, plain.2, beyond] at within
      cases within

/-- Characters that stand for themselves in a string. -/
def Literal (c : Char) : Prop :=
  c ≠ '"' ∧ c ≠ '\\' ∧ ¬c < ' ' ∧ c.toNat < 0x10000

theorem literal_of_digit (digit : isDigit c = true ∨ c = '-') : Literal c := by
  rcases digit with digit | rfl
  · have small := toNat_of_digit digit
    have large : 48 ≤ c.toNat := by
      rw [isDigit, Bool.and_eq_true, decide_eq_true_eq] at digit
      exact digit.1
    refine ⟨isDigit_ne digit _ rfl, isDigit_ne digit _ rfl, fun control => ?_, by omega⟩
    have control : c.toNat < 32 := control
    omega
  · exact ⟨by decide, by decide, by decide, by decide⟩

theorem run_literal (literal : ∀ c ∈ token, Literal c) {read : List Char → Value ν} {isKey : Bool}
    {before : List Char} : run read ⟨stack, .str isKey before .none⟩ (token ++ ['"']) =
      some (close stack isKey (before ++ token)) := by
  induction token generalizing before with
  | nil =>
    rw [append_nil]
    rfl
  | cons c rest ih =>
    obtain ⟨quote, backslash, control, -⟩ := literal c mem_cons_self
    have steps : step read ⟨stack, .str isKey before .none⟩ c =
        some ⟨stack, .str isKey (before ++ [c]) .none⟩ := by
      change stepStr stack isKey before .none c = _
      rw [stepStr, if_neg quote, if_neg backslash, if_neg control]
    rw [cons_append, run_cons, steps, bind_some,
      ih fun d mem => literal d (mem_cons_of_mem _ mem), append_assoc,
      singleton_append]

theorem unescape_literal (literal : ∀ c ∈ token, Literal c) :
    unescape token = token.map Char.toNat := by
  induction token with
  | nil => rfl
  | cons c rest ih =>
    obtain ⟨-, backslash, -, small⟩ := literal c mem_cons_self
    rw [unescape, unitsOf, if_pos small, ih fun d mem => literal d (mem_cons_of_mem _ mem)]
    · rfl
    · exact fun _ _ _ _ _ is => absurd is backslash
    · exact fun _ _ is => absurd is backslash

theorem run_quoted (sound : state.mode.Sound) (literal : ∀ c ∈ token, Literal c)
    (first : ∃ c ∈ token.head?, isDigit c = true ∨ c = '-') (read : List Char → Value ν) :
    run read state ('"' :: token ++ ['"']) = integer state token := by
  obtain ⟨d, head, digit⟩ := first
  obtain ⟨more, rfl⟩ : ∃ more, token = d :: more := by
    cases token with
    | nil => cases head
    | cons d' more =>
      cases head
      exact ⟨more, rfl⟩
  have opened (isKey : Bool) (stack : Stack ν) :
      run read ⟨stack, .str isKey [] .none⟩ (d :: more ++ ['"']) =
        some (if isKey then ⟨stack, .colon ((d :: more).map Char.toNat)⟩
          else ⟨stack, .after (.str ((d :: more).map Char.toNat))⟩) := by
    rw [run_literal literal, nil_append, close, unescape_literal literal]
  obtain ⟨stack, mode⟩ := state
  rw [cons_append, run_cons]
  cases mode with
  | value => exact opened false stack
  | first => exact opened false stack
  | key => exact opened true stack
  | firstKey => exact opened true stack
  | str isKey body escape =>
    cases escape with
    | none =>
      change run read (close stack isKey body) (d :: more ++ ['"']) = none
      rw [cons_append, run_cons]
      have stops : step read (close stack isKey body) d = none := by
        by_contra goes
        have starts := value_of_run_number (close_between stack isKey body) digit goes
        rcases starts with is | is <;> cases isKey <;> cases is
      rw [stops]
      rfl
    | escaped =>
      change run read ⟨stack, .str isKey (body ++ ['"']) .none⟩ (d :: more ++ ['"']) =
        some (close stack isKey (body ++ '"' :: d :: more))
      rw [run_literal literal, append_assoc]
      rfl
    | hex left => rfl
  | num token part =>
    have stops : step read ⟨stack, .num token part⟩ '"' = none := by
      cases part <;> first | rfl | exact follow_quote
    rw [stops]
    rfl
  | colon name =>
    have between : (⟨stack, .colon name⟩ : State ν).mode.Between := trivial
    rcases step_quote between read with stops | ⟨starts, -⟩
    · rw [stops]
      rfl
    · rcases starts with is | is | is | is <;> cases is
  | after value =>
    have between : (⟨stack, .after value⟩ : State ν).mode.Between := trivial
    rcases step_quote between read with stops | ⟨starts, -⟩
    · rw [stops]
      rfl
    · rcases starts with is | is | is | is <;> cases is
  | word left value =>
    have between : (⟨stack, .word left value⟩ : State ν).mode.Between := sound
    rcases step_quote between read with stops | ⟨starts, -⟩
    · rw [stops]
      rfl
    · rcases starts with is | is | is | is <;> cases is

theorem scanNumber_of_mem {most : ℕ} (mem : .num token ∈ piecesUpTo most text) :
    ∃ text rest, scanNumber text = some (token, rest) := by
  induction most generalizing text with
  | zero => cases mem
  | succ most ih =>
    rw [piecesUpTo] at mem
    split at mem
    · next first rest cut =>
        rcases mem_cons.mp mem with rfl | mem
        · cases text with
          | nil => cases cut
          | cons c text =>
            by_cases quote : c = '"'
            · subst quote
              rw [piece_quote] at cut
              split at cut <;> cases cut
            · rw [piece_cons quote] at cut
              split at cut
              · next token' rest' scan =>
                  cases cut
                  exact ⟨_, _, scan⟩
              · cases cut
        · exact ih mem
    · cases mem

theorem literal_of_scanNumber (scan : scanNumber text = some (token, rest))
    (beyond : isUnsafe token = true) : ∀ c ∈ token, Literal c := by
  obtain ⟨sign, digits, rfl, signs, -, isDigits⟩ := digits_of_unsafe scan beyond
  intro c mem
  rcases mem_append.mp mem with mem | mem
  · rcases signs with rfl | rfl
    · cases mem
    · exact literal_of_digit (.inr (mem_singleton.mp mem))
  · exact literal_of_digit (.inl (isDigits c mem))

theorem run_rewritten {items : List Piece}
    (cut : ∀ token, .num token ∈ items → ∃ text rest, scanNumber text = some (token, rest))
    (sound : state.mode.Sound) :
    run (rounded number) state (items.flatMap quoteIfUnsafe) =
      items.foldlM (feed number) state := by
  induction items generalizing state with
  | nil => rfl
  | cons item rest ih =>
    have first : run (rounded number) state (quoteIfUnsafe item) = feed number state item := by
      cases item with
      | str body => rfl
      | char c => exact run_singleton
      | num token =>
        obtain ⟨text, after, scan⟩ := cut token mem_cons_self
        rw [feed]
        by_cases beyond : isUnsafe token = true
        · rw [if_pos beyond, quoteIfUnsafe_of_unsafe scan beyond]
          exact run_quoted sound (literal_of_scanNumber scan beyond) (run_scanNumber scan).2.1 _
        · rw [if_neg beyond, quoteIfUnsafe_of_safe (Bool.eq_false_of_not_eq_true beyond)]
    rw [flatMap_cons, run_append, first, foldlM_cons]
    cases feeds : feed number state item with
    | none => rfl
    | some next =>
      exact ih (fun token mem => cut token (mem_cons_of_mem _ mem))
        (run_sound sound (first.trans feeds))

theorem jsonParse_rewritten (number : List Char → ν) (text : List Char) :
    jsonParse number ((pieces text).flatMap quoteIfUnsafe) = lenient number text := by
  have sound : ({} : State ν).mode.Sound := trivial
  have same : run (rounded number) {} ((pieces text).flatMap quoteIfUnsafe) =
      (pieces text).foldlM (feed number) {} :=
    run_rewritten (fun token mem => scanNumber_of_mem mem) sound
  rw [jsonParse, parse, same, lenient]

theorem mayHold_append {before : ℕ} (front : List Char)
    (never : mayHoldUnsafeInteger before (front ++ text) = false) :
    ∃ before', mayHoldUnsafeInteger before' text = false := by
  induction front generalizing before with
  | nil => exact ⟨before, never⟩
  | cons c rest ih =>
    rw [cons_append, mayHoldUnsafeInteger] at never
    split at never
    · exact ih (Bool.or_eq_false_iff.mp never).2
    · exact ih never

theorem mayHold_of_digits {before : ℕ} (isDigits : ∀ c ∈ digits, isDigit c = true)
    (some' : digits ≠ []) (long : 16 ≤ before + digits.length) :
    mayHoldUnsafeInteger before (digits ++ text) = true := by
  induction digits generalizing before with
  | nil => exact absurd rfl some'
  | cons c rest ih =>
    rw [cons_append, mayHoldUnsafeInteger, if_pos (isDigits c mem_cons_self)]
    rw [length_cons] at long
    cases rest with
    | nil =>
      have enough : 16 ≤ before + 1 := long
      rw [decide_eq_true enough, Bool.true_or]
    | cons d more =>
      rw [ih (fun d mem => isDigits d (mem_cons_of_mem _ mem)) (cons_ne_nil _ _)
        (by omega), Bool.or_true]

theorem quoteIfUnsafe_of_never {before : ℕ} (scan : scanNumber text = some (token, rest))
    (never : mayHoldUnsafeInteger before text = false) : quoteIfUnsafe (.num token) = token := by
  apply quoteIfUnsafe_of_safe
  by_contra beyond
  rw [Bool.not_eq_false] at beyond
  obtain ⟨sign, digits, rfl, -, long, isDigits⟩ := digits_of_unsafe scan beyond
  rw [← (run_scanNumber scan).1, append_assoc] at never
  obtain ⟨before', never⟩ := mayHold_append sign never
  have some' : digits ≠ [] := ne_nil_of_length_pos (by omega)
  rw [mayHold_of_digits isDigits some' (by omega)] at never
  cases never

theorem rewritten_self {most : ℕ} (small : text.length ≤ most) {before : ℕ}
    (never : mayHoldUnsafeInteger before text = false) :
    (piecesUpTo most text).flatMap quoteIfUnsafe = text := by
  induction most generalizing text before with
  | zero => exact (length_eq_zero_iff.mp (Nat.le_zero.mp small)).symm
  | succ most ih =>
    cases text with
    | nil => rfl
    | cons c text =>
      have shorter {rest : List Char} (drops : rest.length ≤ text.length) : rest.length ≤ most :=
        drops.trans (Nat.le_of_succ_le_succ small)
      rw [piecesUpTo]
      by_cases quote : c = '"'
      · subst quote
        rw [piece_quote]
        cases scan : scanString text with
        | none =>
          obtain ⟨before', never⟩ := mayHold_append ['"'] never
          rw [flatMap_cons, ih (shorter le_rfl) never]
          rfl
        | some found =>
          obtain ⟨body, rest⟩ := found
          obtain rfl := scanString_append scan
          have whole : '"' :: (body ++ '"' :: rest) = quoteIfUnsafe (.str body) ++ rest := by
            simp [quoteIfUnsafe]
          rw [whole] at never ⊢
          obtain ⟨before', never⟩ := mayHold_append (quoteIfUnsafe (.str body)) never
          have drops : rest.length ≤ (body ++ '"' :: rest).length := by
            rw [length_append, length_cons]
            omega
          rw [flatMap_cons, ih (shorter drops) never]
      · rw [piece_cons quote]
        cases scan : scanNumber (c :: text) with
        | none =>
          obtain ⟨before', never⟩ := mayHold_append [c] never
          rw [flatMap_cons, ih (shorter le_rfl) never]
          rfl
        | some found =>
          obtain ⟨token, rest⟩ := found
          have same := quoteIfUnsafe_of_never scan never
          obtain ⟨whole, -⟩ := run_scanNumber scan
          have drops := length_of_scanNumber scan
          rw [← whole] at never
          obtain ⟨before', never⟩ := mayHold_append token never
          rw [flatMap_cons, ih (shorter drops) never, same, whole]

theorem parseJsonLossless_eq (number : List Char → ν) (text : List Char) :
    parseJsonLossless number text = lenient number text := by
  rw [parseJsonLossless, ← jsonParse_rewritten]
  split
  · next never =>
      rw [Bool.not_eq_true'] at never
      rw [pieces, rewritten_self le_rfl never]
  · rfl

/-- A text is read exactly as it should be: it is none of `JSON.parse` or one of both, and then its
integers beyond the safe range are the strings of their digits. -/
def ReadExactly (number : List Char → ν) (text : List Char) : Prop :=
  (parseJsonLossless number text).isSome = (jsonParse number text).isSome ∧
    ∀ value, parseJsonLossless number text = some value → parse (exact number) text = some value

/-- An integer beyond the safe range as a key. -/
theorem integerKey_not_readExactly : ¬ ∀ text : List Char, ReadExactly (fun _ => ()) text := by
  intro exactly
  have same := (exactly "{12345678901234567:1}".toList).1
  revert same
  decide +kernel

end DataViz.Canvas.LosslessJson
