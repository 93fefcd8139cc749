/-
# How the expression cuts a text

A string that the expression matches is one that `JSON.parse` reads to the same quote, or fails on;
a quote that it matches no string from is never closed. A number that it matches is one that
`JSON.parse` reads as far, or fails on there or right after.
-/

import DataViz.Canvas.LosslessJson
import DataViz.Data.JsonReaderLaws
import Mathlib.Data.List.TakeWhile

namespace DataViz.Canvas.LosslessJson

open List Option

open JsonReader

variable {ν : Type} {text rest body token : List Char} {c : Char} {stack : Stack ν}

theorem scanString_cons (quote : c ≠ '"') (backslash : c ≠ '\\') :
    scanString (c :: text) = (scanString text).map fun (body, rest) => (c :: body, rest) := by
  rw [scanString]
  · rw [if_neg backslash]
  · exact quote
  · exact fun _ _ is => absurd is backslash

theorem not_letter_of_isLineTerminator (ends : isLineTerminator c = true) :
    ¬((escapeOf c).isSome ∨ c = 'u') := by
  simp only [isLineTerminator, Bool.or_eq_true, decide_eq_true_eq] at ends
  rcases ends with ((rfl | rfl) | rfl) | rfl <;> decide

/-- The expression takes a string to its closing quote, and so does `JSON.parse`. -/
theorem run_scanString (scan : scanString text = some (body, rest)) : text = body ++ '"' :: rest ∧
      ∀ (stack : Stack ν) (isKey : Bool) (before : List Char) (escape : Escape), escape.Free →
          (∀ read, run read ⟨stack, .str isKey before escape⟩ (body ++ ['"']) = none) ∨
            ∀ read, run read ⟨stack, .str isKey before escape⟩ (body ++ ['"']) =
              some (close stack isKey (before ++ body)) := by
  induction text using scanString.induct generalizing body rest with
  | case1 => cases scan
  | case2 after =>
    cases scan
    refine ⟨rfl, fun stack isKey before escape free => ?_⟩
    cases escape with
    | escaped => exact absurd free id
    | none =>
      right
      intro read
      rw [append_nil]
      rfl
    | hex left => exact .inl fun read => rfl
  | case3 c after ends =>
    rw [scanString, if_pos ends] at scan
    cases scan
  | case4 c after goes ih =>
    rw [scanString, if_neg goes, map_eq_some_iff] at scan
    obtain ⟨⟨body', rest'⟩, scan, same⟩ := scan
    cases same
    obtain ⟨rfl, runs⟩ := ih scan
    refine ⟨rfl, fun stack isKey before escape free => ?_⟩
    rcases run_escape stack isKey before free c (body' ++ ['"'])
      with fails | ⟨-, escape', free', goes⟩
    · exact .inl fails
    · rcases runs stack isKey (before ++ ['\\', c]) escape' free' with fails | closes
      · exact .inl fun read => (goes read).trans (fails read)
      · right
        intro read
        rw [append_assoc] at closes
        exact (goes read).trans (closes read)
  | case5 after notQuote notPair =>
    cases after with
    | nil => cases scan
    | cons c more => exact absurd rfl (notPair c more rfl)
  | case6 c after notQuote notPair plain ih =>
    rw [scanString_cons notQuote plain, map_eq_some_iff] at scan
    obtain ⟨⟨body', rest'⟩, scan, same⟩ := scan
    cases same
    obtain ⟨rfl, runs⟩ := ih scan
    refine ⟨rfl, fun stack isKey before escape free => ?_⟩
    have steps (read : List Char → Value ν) :
        run read ⟨stack, .str isKey before escape⟩ (c :: body' ++ ['"']) =
          (stepStr stack isKey before escape c).bind (run read · (body' ++ ['"'])) := run_cons
    rcases stepStr_plain stack isKey before free notQuote plain with fails | ⟨escape', free', goes⟩
    · left
      intro read
      rw [steps, fails]
      rfl
    · simp only [steps, goes, bind_some]
      rcases runs stack isKey (before ++ [c]) escape' free' with fails | closes
      · exact .inl fails
      · rw [append_assoc] at closes
        exact .inr closes

theorem scanString_append (scan : scanString text = some (body, rest)) :
    text = body ++ '"' :: rest :=
  (@run_scanString Unit _ _ _ scan).1

/-- A string that no quote closes is no value. -/
theorem run_unclosed (scan : scanString text = none) (stack : Stack ν) (isKey : Bool)
    (before : List Char) {escape : Escape} (free : escape.Free) (read : List Char → Value ν) :
    (run read ⟨stack, .str isKey before escape⟩ text).bind (finish read) = none := by
  have unfinished (stack : Stack ν) (before : List Char) (escape : Escape) :
      finish read ⟨stack, .str isKey before escape⟩ = none := by
    cases stack <;> rfl
  induction text using scanString.induct generalizing before escape with
  | case1 => exact unfinished stack before escape
  | case2 after => cases scan
  | case3 c after ends =>
    rcases run_escape stack isKey before free c after with fails | ⟨letter, -⟩
    · rw [fails]
      rfl
    · exact absurd letter (not_letter_of_isLineTerminator ends)
  | case4 c after goes ih =>
    rw [scanString, if_neg goes, map_eq_none_iff] at scan
    rcases run_escape stack isKey before free c after with fails | ⟨-, escape', free', goes⟩
    · rw [fails]
      rfl
    · rw [goes]
      exact ih scan _ free'
  | case5 after notQuote notPair =>
    cases after with
    | nil =>
      cases escape with
      | escaped => exact absurd free id
      | hex left => rfl
      | none => exact unfinished stack _ _
    | cons c more => exact absurd rfl (notPair c more rfl)
  | case6 c after notQuote notPair plain ih =>
    rw [scanString_cons notQuote plain, map_eq_none_iff] at scan
    change ((stepStr stack isKey before escape c).bind _).bind _ = none
    rcases stepStr_plain stack isKey before free notQuote plain with fails | ⟨escape', free', goes⟩
    · rw [fails]
      rfl
    · rw [goes]
      exact ih scan _ free'

theorem scanDigits_append (text : List Char) : (scanDigits text).1 ++ (scanDigits text).2 = text :=
  takeWhile_append_dropWhile

theorem isDigit_of_scanDigits (mem : c ∈ (scanDigits text).1) : isDigit c = true :=
  mem_takeWhile_imp mem

theorem head_scanDigits (text : List Char) (head : c ∈ (scanDigits text).2.head?) :
    isDigit c = false := by
  have stops := head?_dropWhile_not isDigit text
  change c ∈ (text.dropWhile isDigit).head? at head
  rw [mem_def.mp head] at stops
  exact stops

theorem head_of_scanDigits_eq_nil (bare : (scanDigits text).1 = []) :
    ∀ c ∈ text.head?, isDigit c = false := by
  intro c head
  apply head_scanDigits text
  have whole := scanDigits_append text
  rw [bare, nil_append] at whole
  rw [whole]
  exact head

/-- Where the expression's number ends, the number of `JSON.parse` ends too or fails. -/
structure Ends (part : Part) (rest : List Char) : Prop where
  complete : part.complete = true
  digit : ∀ c ∈ rest.head?, isDigit c = false
  dot : ∀ more, rest = '.' :: more → part.next '.' = none ∨ ∀ c ∈ more.head?, isDigit c = false
  exponent : ∀ c more, rest = c :: more → isExponent c = true → part.next c = none ∨ Bare more

variable {part : Part}

/-- The parts in which a number goes on with digits. -/
theorem next_of_digit (goes : part = .int ∨ part = .frac ∨ part = .exp) :
    ∀ c, isDigit c = true → part.next c = some part := by
  intro c digit
  rcases goes with rfl | rfl | rfl
  · exact if_pos digit
  · exact if_pos digit
  · exact if_pos digit

/-- Digits, of which there is one, lead to a part that goes on with them. -/
theorem takes_scanDigits {part part' : Part} (goes : part' = .int ∨ part' = .frac ∨ part' = .exp)
    (first : ∀ c, isDigit c = true → part.next c = some part')
    (some' : (scanDigits text).1 ≠ []) : Takes part (scanDigits text).1 part' := by
  obtain ⟨c, more, digits⟩ := exists_cons_of_ne_nil some'
  have isDigits : ∀ d ∈ c :: more, isDigit d = true := by
    intro d mem
    rw [← digits] at mem
    exact isDigit_of_scanDigits mem
  rw [digits]
  exact .cons (first c (isDigits c mem_cons_self))
    (.digits (next_of_digit goes) fun d mem => isDigits d (mem_cons_of_mem _ mem))

/-- The fraction of a number. -/
theorem takes_scanFraction (whole : part = .zero ∨ part = .int)
    (head : ∀ c ∈ text.head?, isDigit c = false) :
    (scanFraction text).1 ++ (scanFraction text).2 = text ∧
      ∃ part', (part' = .zero ∨ part' = .int ∨ part' = .frac) ∧
        Takes part (scanFraction text).1 part' ∧
        (∀ c ∈ (scanFraction text).2.head?, isDigit c = false) ∧
        ∀ more, (scanFraction text).2 = '.' :: more →
          part'.next '.' = none ∨ ∀ c ∈ more.head?, isDigit c = false := by
  have same : part = .zero ∨ part = .int ∨ part = .frac := whole.imp_right .inl
  by_cases dotted : ∃ rest, text = '.' :: rest
  · obtain ⟨rest, rfl⟩ := dotted
    rw [scanFraction]
    by_cases bare : (scanDigits rest).1 = []
    · rw [if_pos bare]
      refine ⟨rfl, part, same, .nil part, head, ?_⟩
      rintro more ⟨⟩
      exact .inr (head_of_scanDigits_eq_nil bare)
    · rw [if_neg bare]
      refine ⟨?_, .frac, .inr (.inr rfl), ?_, fun c first => head_scanDigits _ first,
        fun _ _ => .inl rfl⟩
      · rw [cons_append, scanDigits_append]
      · have point : part.next '.' = some .dot := by
          rcases whole with rfl | rfl <;> decide
        exact .cons point (takes_scanDigits (.inr (.inl rfl)) (fun c digit => if_pos digit) bare)
  · have none' : scanFraction text = ([], text) := by
      rw [scanFraction]
      intro rest is
      exact dotted ⟨rest, is⟩
    rw [none']
    exact ⟨rfl, part, same, .nil part, head, fun more is => absurd ⟨more, is⟩ dotted⟩

theorem isDigit_of_sign (sign : (c = '+' || c = '-') = true) : isDigit c = false := by
  rw [Bool.or_eq_true, decide_eq_true_eq, decide_eq_true_eq] at sign
  rcases sign with rfl | rfl <;> decide

/-- The exponent of a number. -/
theorem takes_scanExponent (whole : part = .zero ∨ part = .int ∨ part = .frac)
    (head : ∀ c ∈ text.head?, isDigit c = false)
    (dot : ∀ more, text = '.' :: more →
      part.next '.' = none ∨ ∀ c ∈ more.head?, isDigit c = false) :
    (scanExponent text).1 ++ (scanExponent text).2 = text ∧
      ∃ part', Takes part (scanExponent text).1 part' ∧ Ends part' (scanExponent text).2 := by
  have complete : part.complete = true := by
    rcases whole with rfl | rfl | rfl <;> rfl
  cases text with
  | nil => exact ⟨rfl, part, .nil part, complete, nofun, nofun, nofun⟩
  | cons c rest =>
    rw [scanExponent]
    by_cases letter : isExponent c = true
    · rw [if_pos letter]
      by_cases bare : (scanDigits (scanSign rest).2).1 = []
      · rw [if_pos bare]
        refine ⟨rfl, part, .nil part, complete, head, dot, ?_⟩
        rintro c' more ⟨⟩ -
        refine .inr fun d first => ?_
        obtain ⟨others, rfl⟩ : ∃ others, rest = d :: others := by
          cases rest with
          | nil => cases first
          | cons d' others =>
            cases first
            exact ⟨others, rfl⟩
        rw [scanSign] at bare
        by_cases sign : (d = '+' || d = '-') = true
        · rw [if_pos sign] at bare
          exact ⟨isDigit_of_sign sign, fun _ => head_of_scanDigits_eq_nil bare⟩
        · rw [if_neg sign] at bare
          refine ⟨head_of_scanDigits_eq_nil bare d rfl, fun is => absurd ?_ sign⟩
          rw [Bool.or_eq_true, decide_eq_true_eq, decide_eq_true_eq]
          exact is
      · rw [if_neg bare]
        have signed : (scanSign rest).1 ++ (scanSign rest).2 = rest := by
          cases rest with
          | nil => rfl
          | cons d others =>
            rw [scanSign]
            split <;> rfl
        have first : part.next c = some .e := by
          have dotless : c ≠ '.' := by
            rintro rfl
            cases letter
          have digitless : ¬isDigit c = true := by
            rw [head c rfl]
            exact Bool.false_ne_true
          rcases whole with rfl | rfl | rfl
          · rw [Part.next, if_neg dotless, if_pos letter]
          · rw [Part.next, if_neg digitless, if_neg dotless, if_pos letter]
          · rw [Part.next, if_neg digitless, if_pos letter]
        refine ⟨?_, .exp, ?_, rfl, fun d stops => head_scanDigits _ stops, fun _ _ => .inl rfl, ?_⟩
        · rw [append_assoc, cons_append, scanDigits_append, signed]
        · refine .cons first ?_
          cases rest with
          | nil => exact absurd rfl bare
          | cons d others =>
            rw [scanSign] at bare ⊢
            by_cases sign : (d = '+' || d = '-') = true
            · rw [if_pos sign] at bare ⊢
              have next : Part.next .e d = some .esign := by
                rw [Bool.or_eq_true, decide_eq_true_eq, decide_eq_true_eq] at sign
                exact if_pos sign
              exact .cons next
                (takes_scanDigits (.inr (.inr rfl)) (fun c digit => if_pos digit) bare)
            · rw [if_neg sign] at bare ⊢
              refine takes_scanDigits (.inr (.inr rfl)) (fun c digit => ?_) bare
              have unsigned : ¬(c = '+' ∨ c = '-') := by
                rintro (rfl | rfl) <;> cases digit
              rw [Part.next, if_neg unsigned, if_pos digit]
        · intro d more is exponent
          left
          refine if_neg ?_
          rw [head_scanDigits (scanSign rest).2 (is ▸ rfl)]
          exact Bool.false_ne_true
    · rw [if_neg letter]
      refine ⟨rfl, part, .nil part, complete, head, dot, ?_⟩
      rintro d more ⟨⟩ exponent
      exact absurd exponent letter

/-- What comes after a number's digits. -/
theorem takes_tail (whole : part = .zero ∨ part = .int)
    (head : ∀ c ∈ text.head?, isDigit c = false) :
    (scanFraction text).1 ++ (scanExponent (scanFraction text).2).1 ++
        (scanExponent (scanFraction text).2).2 = text ∧
      ∃ part', Takes part ((scanFraction text).1 ++ (scanExponent (scanFraction text).2).1) part' ∧
        Ends part' (scanExponent (scanFraction text).2).2 := by
  obtain ⟨fraction, middle, kind, takes, head', dot⟩ := takes_scanFraction whole head
  obtain ⟨exponent, last, takes', ends⟩ := takes_scanExponent kind head' dot
  refine ⟨?_, last, takes.append takes', ends⟩
  rw [append_assoc, exponent, fraction]

/-- A zero comes first, past the sign. -/
def zeroLed : List Char → Bool
  | '-' :: c :: _ | c :: _ => c = '0'
  | [] => false

/-- No digit follows a leading zero. -/
theorem run_zero (digit : isDigit c = true) (read : List Char → Value ν) :
    run read ⟨stack, .num token .sign⟩ ('0' :: c :: text) = none := by
  have stops : Part.next .zero c = none := by
    rw [Part.next, if_neg (isDigit_ne digit '.' rfl),
      if_neg (Bool.eq_false_iff.mp (isExponent_of_digit digit))]
  have second : step read ⟨stack, .num (token ++ ['0']) .zero⟩ c = none := by
    rw [step]
    simp only [stops]
    exact follow_of_digit digit
  have first : step read ⟨stack, .num token .sign⟩ '0' =
      some ⟨stack, .num (token ++ ['0']) .zero⟩ := rfl
  rw [run_cons, first, bind_some, run_cons, second]
  rfl

/-- The digits of a number, without a leading zero. -/
theorem takes_digits (some' : (scanDigits text).1 ≠ []) : ((scanDigits text).1.head? = some '0' ∧
      ∀ (ν : Type) (read : List Char → Value ν) (stack : Stack ν) (before : List Char),
        run read ⟨stack, .num before .sign⟩ (scanDigits text).1 = none) ∨
      ∃ part, (part = .zero ∨ part = .int) ∧ Takes .sign (scanDigits text).1 part := by
  obtain ⟨c, more, digits⟩ := exists_cons_of_ne_nil some'
  have isDigits : ∀ d ∈ c :: more, isDigit d = true := by
    intro d mem
    rw [← digits] at mem
    exact isDigit_of_scanDigits mem
  rw [digits]
  by_cases zero : c = '0'
  · subst zero
    cases more with
    | nil => exact .inr ⟨.zero, .inl rfl, .cons rfl (.nil _)⟩
    | cons d others =>
      have digit : isDigit d = true := isDigits d (mem_cons_of_mem _ mem_cons_self)
      exact .inl ⟨rfl, fun ν read stack before => run_zero digit read⟩
  · right
    refine ⟨.int, .inr rfl, .cons ?_ (.digits (next_of_digit (.inl rfl)) ?_)⟩
    · rw [Part.next, if_neg zero, if_pos (isDigits c mem_cons_self)]
    · exact fun d mem => isDigits d (mem_cons_of_mem _ mem)

/-- A number past its sign: `JSON.parse` fails on it, or takes it as far as the expression. -/
theorem takes_scanUnsigned (scan : scanUnsigned text = some (token, rest)) :
    token ++ rest = text ∧ (∃ c ∈ token.head?, isDigit c = true) ∧ ((token.head? = some '0' ∧
        ∀ (ν : Type) (read : List Char → Value ν) (stack : Stack ν) (before : List Char),
          run read ⟨stack, .num before .sign⟩ token = none) ∨
        ∃ part, Takes .sign token part ∧ Ends part rest) := by
  rw [scanUnsigned] at scan
  dsimp only at scan
  split at scan
  · cases scan
  · next some' =>
      cases scan
      have head : ∀ c ∈ (scanDigits text).2.head?, isDigit c = false :=
        fun c first => head_scanDigits text first
      refine ⟨?_, ?_, ?_⟩
      · rw [append_assoc, append_assoc, ← append_assoc (scanFraction _).1,
          (takes_tail (.inl rfl) head).1, scanDigits_append]
      · obtain ⟨c, more, digits⟩ := exists_cons_of_ne_nil some'
        refine ⟨c, ?_, isDigit_of_scanDigits (digits ▸ mem_cons_self)⟩
        rw [digits]
        rfl
      · rw [append_assoc]
        rcases takes_digits some' with ⟨zero, fails⟩ | ⟨part, whole, takes⟩
        · refine .inl ⟨?_, fun ν read stack before => ?_⟩
          · rw [head?_append, zero]
            rfl
          · rw [run_append, fails]
            rfl
        · obtain ⟨-, part', takes', ends⟩ := takes_tail whole head
          exact .inr ⟨part', takes.append takes', ends⟩

/-- A value starts with a number, or no reader takes the number there. -/
theorem run_scanNumber (scan : scanNumber text = some (token, rest)) :
    token ++ rest = text ∧ (∃ c ∈ token.head?, isDigit c = true ∨ c = '-') ∧
      ((zeroLed token = true ∧
        ∀ (ν : Type) (read : List Char → Value ν) (stack : Stack ν) (mode : Mode ν),
          mode = .value ∨ mode = .first → run read ⟨stack, mode⟩ token = none) ∨
        ∃ part, Ends part rest ∧
          ∀ (ν : Type) (read : List Char → Value ν) (stack : Stack ν) (mode : Mode ν),
            mode = .value ∨ mode = .first →
              run read ⟨stack, mode⟩ token = some ⟨stack, .num token part⟩) := by
  by_cases signed : ∃ others, text = '-' :: others
  · obtain ⟨others, rfl⟩ := signed
    rw [scanNumber, map_eq_some_iff] at scan
    obtain ⟨⟨token', rest'⟩, scan, same⟩ := scan
    cases same
    obtain ⟨whole, -, takes⟩ := takes_scanUnsigned scan
    have first {ν : Type} (read : List Char → Value ν) (stack : Stack ν) (mode : Mode ν)
        (starts : mode = .value ∨ mode = .first) :
        step read ⟨stack, mode⟩ '-' = some ⟨stack, .num ['-'] .sign⟩ := by
      rcases starts with rfl | rfl <;> rfl
    refine ⟨by rw [cons_append, whole], ⟨'-', rfl, .inr rfl⟩, ?_⟩
    rcases takes with ⟨zero, fails⟩ | ⟨part, takes, ends⟩
    · refine .inl ⟨?_, fun ν read stack mode starts => ?_⟩
      · obtain ⟨more, rfl⟩ := head?_eq_some_iff.mp zero
        rfl
      · rw [run_cons, first read stack mode starts, bind_some, fails]
    · refine .inr ⟨part, ends, fun ν read stack mode starts => ?_⟩
      rw [run_cons, first read stack mode starts, bind_some, takes]
      rfl
  · have unsigned : scanNumber text = scanUnsigned text := by
      rw [scanNumber]
      exact fun others is => signed ⟨others, is⟩
    rw [unsigned] at scan
    obtain ⟨whole, ⟨c, head, digit⟩, takes⟩ := takes_scanUnsigned scan
    obtain ⟨more, rfl⟩ : ∃ more, token = c :: more := by
      cases token with
      | nil => cases head
      | cons c' more =>
        cases head
        exact ⟨more, rfl⟩
    have first {ν : Type} (read : List Char → Value ν) (stack : Stack ν) (mode : Mode ν)
        (starts : mode = .value ∨ mode = .first) :
        step read ⟨stack, mode⟩ c = step read ⟨stack, .num [] .sign⟩ c := by
      have ne := isDigit_ne digit
      have begins : start stack c = (Part.sign.next c).map fun part => ⟨stack, .num [c] part⟩ := by
        simp only [start, ne '"' rfl, ne '[' rfl, ne '{' rfl, ne 't' rfl, ne 'f' rfl, ne 'n' rfl,
          ne '-' rfl, if_false]
      have space : isSpace c = false := by
        simp [isSpace, ne ' ' rfl, ne '\t' rfl, ne '\n' rfl, ne '\r' rfl]
      have goes : step read ⟨stack, mode⟩ c = start stack c := by
        rcases starts with rfl | rfl
        · simp [step, space]
        · simp [step, space, ne ']' rfl]
      rw [goes, begins, step]
      dsimp only
      cases Part.sign.next c <;> rfl
    refine ⟨whole, ⟨c, rfl, .inl digit⟩, ?_⟩
    rcases takes with ⟨zero, fails⟩ | ⟨part, takes, ends⟩
    · refine .inl ⟨?_, fun ν read stack mode starts => ?_⟩
      · cases zero
        rfl
      · rw [run_cons, first read stack mode starts, ← run_cons, fails]
    · refine .inr ⟨part, ends, fun ν read stack mode starts => ?_⟩
      rw [run_cons, first read stack mode starts, ← run_cons, takes, nil_append]

/-- A character continues a number only with a dot or an exponent that no digits follow. -/
theorem Ends.continues {part' : Part} (ends : Ends part (c :: rest))
    (next : part.next c = some part') :
    (c = '.' ∧ part' = .dot ∧ ∀ d ∈ rest.head?, isDigit d = false) ∨
      (isExponent c = true ∧ part' = .e ∧ Bare rest) := by
  have kind : (c = '.' ∧ part' = .dot) ∨ (isExponent c = true ∧ part' = .e) := by
    have complete := ends.complete
    have digitless : ¬isDigit c = true := by
      rw [ends.digit c rfl]
      exact Bool.false_ne_true
    cases part with
    | zero =>
      rw [Part.next] at next
      split at next
      · next dot => exact .inl ⟨dot, (Option.some.inj next).symm⟩
      split at next
      · next letter => exact .inr ⟨letter, (Option.some.inj next).symm⟩
      · cases next
    | int =>
      rw [Part.next, if_neg digitless] at next
      split at next
      · next dot => exact .inl ⟨dot, (Option.some.inj next).symm⟩
      split at next
      · next letter => exact .inr ⟨letter, (Option.some.inj next).symm⟩
      · cases next
    | frac =>
      rw [Part.next, if_neg digitless] at next
      split at next
      · next letter => exact .inr ⟨letter, (Option.some.inj next).symm⟩
      · cases next
    | exp =>
      rw [Part.next, if_neg digitless] at next
      cases next
    | _ => cases complete
  rcases kind with ⟨rfl, rfl⟩ | ⟨letter, rfl⟩
  · exact .inl ⟨rfl, rfl, (ends.dot rest rfl).resolve_left
      (by rw [next]; exact Option.some_ne_none _)⟩
  · exact .inr ⟨letter, rfl, (ends.exponent c rest rfl letter).resolve_left
      (by rw [next]; exact Option.some_ne_none _)⟩

theorem step_num {part' : Part} (next : part.next c = some part') (read : List Char → Value ν) :
    step read ⟨stack, .num token part⟩ c = some ⟨stack, .num (token ++ [c]) part'⟩ := by
  rw [step]
  simp only [next]

theorem next_sign (digitless : isDigit c = false) : Part.next .sign c = none := by
  rw [Part.next, if_neg, if_neg]
  · rw [digitless]
    exact Bool.false_ne_true
  · rintro rfl
    cases digitless

theorem scanUnsigned_eq_none : scanUnsigned text = none ↔ ∀ c ∈ text.head?, isDigit c = false := by
  refine ite_eq_left_iff.trans ⟨fun bare => ?_, fun digitless some' => ?_⟩
  · by_contra digit
    refine absurd (bare fun none' => digit (head_of_scanDigits_eq_nil none')) nofun
  · refine absurd ?_ some'
    cases text with
    | nil => rfl
    | cons c rest =>
      refine takeWhile_cons_of_neg ?_
      rw [digitless c rfl]
      exact Bool.false_ne_true

theorem digitless_of_scanNumber (scan : scanNumber (c :: text) = none) : isDigit c = false := by
  by_cases minus : c = '-'
  · rw [minus]
    rfl
  · rw [scanNumber] at scan
    · exact scanUnsigned_eq_none.mp scan c rfl
    · rintro others ⟨⟩
      exact minus rfl

theorem minus_of_scanNumber (scan : scanNumber ('-' :: text) = none) :
    ∀ c ∈ text.head?, isDigit c = false := by
  rw [scanNumber, map_eq_none_iff] at scan
  exact scanUnsigned_eq_none.mp scan

end DataViz.Canvas.LosslessJson
