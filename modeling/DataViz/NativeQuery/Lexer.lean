/-
# The Cypher tokenizer

`tokenize` reads a text lexeme by lexeme: blanks and comments, literals, names,
parameters, numbers, brackets and operators, each token with its offsets and with
how deep in brackets it sits. Nothing about a lexeme depends on what was emitted
before it, but for one thing: a dot before a digit starts a number unless the
token emitted last is a name or a number.
-/

import DataViz.Data.Text

namespace DataViz.NativeQuery

open List

inductive Kind where
  | word | backtick | string | number | param | punct | op | comment | space
  deriving DecidableEq, Repr

/-- `Token`, with the offsets of its text and the brackets open around it. -/
structure Token where
  kind : Kind
  text : Text
  start : ℕ
  stop : ℕ
  depth : ℕ
  deriving DecidableEq, Repr

def Kind.isTrivia : Kind → Bool
  | .space | .comment => true
  | _ => false

structure LexError where
  message : String
  position : ℕ
  deriving DecidableEq, Repr

/-- `_OPENERS`: what closes a bracket. -/
def closerOf : Char → Option Char
  | '(' => some ')'
  | '[' => some ']'
  | '{' => some '}'
  | _ => none

def isCloser (c : Char) : Bool :=
  c = ')' || c = ']' || c = '}'

def ops : List Text :=
  ["=~", "<>", "<=", ">=", "!=", "->", "<-", "..", "+="].map String.toList

def singleOps : Text :=
  "=<>+-*/%^!".toList

def puncts : Text :=
  ['(', ')', '[', ']', '{', '}', ',', ';', ':', '.', '|']

section

variable (letters : Letters)

def isWordChar (c : Char) : Bool :=
  letters.isAlnum c || c = '_'

def isDigitChar (c : Char) : Bool :=
  isDigit c || c = '_'

/-- `_string_end` past the opening quote: how many characters up to the closing
one, it included. A backslash takes the next character with it. -/
def stringEnd (quote : Char) : Text → Option ℕ
  | [] => none
  | '\\' :: [] => none
  | '\\' :: _ :: rest => (stringEnd quote rest).map (· + 2)
  | c :: rest => if c = quote then some 1 else (stringEnd quote rest).map (· + 1)

/-- `_backtick_end` past the opening backtick. Two backticks are an escaped one. -/
def backtickEnd : Text → Option ℕ
  | [] => none
  | '`' :: '`' :: rest => (backtickEnd rest).map (· + 2)
  | c :: rest => if c = '`' then some 1 else (backtickEnd rest).map (· + 1)

/-- The fraction of a number, never the start of a range. -/
def fractionEnd : Text → ℕ
  | '.' :: d :: rest => if isDigit d then 1 + runLength isDigitChar (d :: rest) else 0
  | _ => 0

/-- The exponent of a number, when digits follow the letter and the sign. -/
def exponentEnd : Text → ℕ
  | c :: rest =>
    if c = 'e' ∨ c = 'E' then
      let sign := if rest.head? = some '+' ∨ rest.head? = some '-' then 1 else 0
      let digits := runLength isDigit (rest.drop sign)
      if digits = 0 then 0 else 1 + sign + digits
    else 0
  | [] => 0

def dotDigit : Text → Bool
  | '.' :: d :: _ => isDigit d
  | _ => false

/-- Whether a number is written in hexadecimal or octal. -/
def isRadix : Text → Bool
  | '0' :: c :: _ => c = 'x' || c = 'X' || c = 'o' || c = 'O'
  | _ => false

def mantissaEnd (text : Text) : ℕ :=
  runLength isDigitChar text + fractionEnd (text.drop (runLength isDigitChar text))

def numberEnd (text : Text) : ℕ :=
  if isRadix text then 2 + runLength (isWordChar letters) (text.drop 2)
  else mantissaEnd text + exponentEnd (text.drop (mantissaEnd text))

variable {text : Text}

theorem stringEnd_le {quote : Char} {n : ℕ} (found : stringEnd quote text = some n) :
    n ≤ text.length := by
  fun_induction stringEnd quote text generalizing n with
  | case1 => cases found
  | case2 => cases found
  | case3 _ _ ih =>
    obtain ⟨m, hm, rfl⟩ := Option.map_eq_some_iff.mp found
    simpa using ih hm
  | case4 =>
    cases found
    simp
  | case5 _ _ _ _ _ ih =>
    obtain ⟨m, hm, rfl⟩ := Option.map_eq_some_iff.mp found
    simpa using ih hm

theorem backtickEnd_le {n : ℕ} (found : backtickEnd text = some n) : n ≤ text.length := by
  fun_induction backtickEnd text generalizing n with
  | case1 => cases found
  | case2 _ ih =>
    obtain ⟨m, hm, rfl⟩ := Option.map_eq_some_iff.mp found
    simpa using ih hm
  | case3 =>
    cases found
    simp
  | case4 _ _ _ _ ih =>
    obtain ⟨m, hm, rfl⟩ := Option.map_eq_some_iff.mp found
    simpa using ih hm

theorem fractionEnd_le (text : Text) : fractionEnd text ≤ text.length := by
  fun_cases fractionEnd text with
  | case1 d rest =>
    have run := runLength_le isDigitChar (d :: rest)
    simp only [length_cons] at run ⊢
    omega
  | case2 => exact Nat.zero_le _
  | case3 => exact Nat.zero_le _

theorem exponentEnd_le (text : Text) : exponentEnd text ≤ text.length := by
  fun_cases exponentEnd text with
  | case1 => exact Nat.zero_le _
  | case2 c rest _ sign digits positive =>
    have run := runLength_le isDigit (rest.drop sign)
    simp only [length_drop, length_cons] at run ⊢
    omega
  | case3 => exact Nat.zero_le _
  | case4 => exact Nat.zero_le _

theorem mantissaEnd_le (text : Text) : mantissaEnd text ≤ text.length := by
  have digits := runLength_le isDigitChar text
  have fraction := fractionEnd_le (text.drop (runLength isDigitChar text))
  rw [length_drop] at fraction
  unfold mantissaEnd
  omega

theorem two_le_of_isRadix (radix : isRadix text = true) : 2 ≤ text.length := by
  fun_cases isRadix text with
  | case1 => simp
  | case2 other => simp [isRadix] at radix

theorem numberEnd_le (text : Text) : numberEnd letters text ≤ text.length := by
  unfold numberEnd
  split
  · next radix =>
      have two := two_le_of_isRadix radix
      have run := runLength_le (isWordChar letters) (text.drop 2)
      rw [length_drop] at run
      omega
  · have mantissa := mantissaEnd_le text
    have exponent := exponentEnd_le (text.drop (mantissaEnd text))
    rw [length_drop] at exponent
    omega

theorem exists_of_dotDigit (dotted : dotDigit text = true) :
    ∃ d rest, text = '.' :: d :: rest ∧ isDigit d = true := by
  fun_cases dotDigit text with
  | case1 d rest => exact ⟨d, rest, rfl, by simpa [dotDigit] using dotted⟩
  | case2 other => simp [dotDigit] at dotted

theorem numberEnd_pos {c : Char} {rest : Text}
    (starts : isDigit c = true ∨ dotDigit (c :: rest) = true) :
    0 < numberEnd letters (c :: rest) := by
  have mantissa : 0 < mantissaEnd (c :: rest) := by
    unfold mantissaEnd
    by_cases digit : isDigitChar c = true
    · have run : 0 < runLength isDigitChar (c :: rest) := runLength_pos digit
      omega
    · have blank : runLength isDigitChar (c :: rest) = 0 := by simp [runLength_cons, digit]
      cases starts with
      | inl plain => simp [isDigitChar, plain] at digit
      | inr dotted =>
        obtain ⟨d, more, split, plain⟩ := exists_of_dotDigit dotted
        rw [blank, drop_zero, split]
        simp only [fractionEnd, plain, if_true]
        omega
  unfold numberEnd
  split <;> omega

end

/-- What starts at a place of the text: a token of a kind and a length, or a bracket. -/
inductive Lexeme where
  | token (kind : Kind) (length : ℕ)
  | opens (closer : Char)
  | closes
  deriving DecidableEq, Repr

/-- The loop of `tokenize` between two lexemes: the text from `i` on, the brackets
open with what each wants and where it stands, and what was emitted. -/
structure Scan where
  rest : Text
  i : ℕ
  stack : List (Char × ℕ)
  out : List Token
  deriving DecidableEq, Repr

/-- `not (out and out[-1].kind in (WORD, BACKTICK, NUMBER))`. -/
def leadingDot (out : List Token) : Bool :=
  match out.getLast? with
  | some token => !(token.kind = .word || token.kind = .backtick || token.kind = .number)
  | none => true

variable (letters : Letters)

/-- The lexeme that starts with `c` at `i`. `numberDot` is whether a dot may start a
number here. -/
def lexeme (numberDot : Bool) (stack : List (Char × ℕ)) (i : ℕ) (c : Char) (rest : Text) :
    Except LexError Lexeme :=
  if Number.isSpace c then .ok (.token .space (runLength Number.isSpace (c :: rest)))
  else if ['/', '/'].isPrefixOf (c :: rest) then
    .ok (.token .comment (runLength (· ≠ '\n') (c :: rest)))
  else if ['/', '*'].isPrefixOf (c :: rest) then
    match findEnd ['*', '/'] (rest.drop 1) with
    | some n => .ok (.token .comment (2 + n))
    | none => .error ⟨"a /* comment is never closed", i⟩
  else if c = '\'' ∨ c = '"' then
    match stringEnd c rest with
    | some n => .ok (.token .string (1 + n))
    | none => .error ⟨"a string is never closed", i⟩
  else if c = '`' then
    match backtickEnd rest with
    | some n => .ok (.token .backtick (1 + n))
    | none => .error ⟨"a `name` is never closed", i⟩
  else if c = '$' then
    if rest.head? = some '`' then
      match backtickEnd (rest.drop 1) with
      | some n => .ok (.token .param (2 + n))
      | none => .error ⟨"a `name` is never closed", i + 1⟩
    else if runLength (isWordChar letters) rest = 0 then
      .error ⟨"a $ with no parameter name", i⟩
    else .ok (.token .param (1 + runLength (isWordChar letters) rest))
  else if isDigit c || (dotDigit (c :: rest) && numberDot) then
    .ok (.token .number (numberEnd letters (c :: rest)))
  else if letters.isAlpha c || c = '_' then
    .ok (.token .word (runLength (isWordChar letters) (c :: rest)))
  else
    match closerOf c with
    | some closer => .ok (.opens closer)
    | none =>
      if isCloser c then
        if stack.head?.map Prod.fst = some c then .ok .closes
        else .error ⟨s!"a {c} with nothing to close", i⟩
      else
        match ops.find? (·.isPrefixOf (c :: rest)) with
        | some op => .ok (.token .op op.length)
        | none =>
          if c ∈ singleOps then .ok (.token .op 1)
          else if c ∈ puncts then .ok (.token .punct 1)
          else .error ⟨letters.repr c ++ " isn't part of Cypher", i⟩

def Lexeme.length : Lexeme → ℕ
  | .token _ length => length
  | _ => 1

/-- What a lexeme read at `c` says of the text and of the brackets open there. -/
def Lexeme.Fits (stack : List (Char × ℕ)) (c : Char) (rest : Text) : Lexeme → Prop
  | .token kind length =>
    0 < length ∧ length ≤ rest.length + 1 ∧
      (kind = .punct → length = 1 ∧ closerOf c = none ∧ isCloser c = false)
  | .opens closer => closerOf c = some closer
  | .closes => isCloser c = true ∧ stack.head?.map Prod.fst = some c

variable {c : Char} {rest : Text}

theorem Lexeme.Fits.of_kind {stack : List (Char × ℕ)} {kind : Kind} {length : ℕ}
    (other : kind ≠ .punct) (positive : 0 < length) (within : length ≤ rest.length + 1) :
    (Lexeme.token kind length).Fits stack c rest :=
  ⟨positive, within, fun same => absurd same other⟩

theorem ops_fits {text op : Text} (found : ops.find? (·.isPrefixOf text) = some op) :
    0 < op.length ∧ op.length ≤ text.length := by
  have starts := find?_some found
  have nonempty : ∀ o ∈ ops, 0 < o.length := by decide
  exact ⟨nonempty op (mem_of_find?_eq_some found), ( isPrefixOf_iff_prefix.mp starts).length_le⟩

theorem one_le_length_of_head? (head : rest.head? = some c) : 1 ≤ rest.length :=
  length_pos_of_mem (mem_of_mem_head? head)

theorem lexeme_fits {numberDot : Bool} {stack : List (Char × ℕ)} {i : ℕ} {lx : Lexeme}
    (read : lexeme letters numberDot stack i c rest = .ok lx) : lx.Fits stack c rest := by
  revert read
  fun_cases lexeme letters numberDot stack i c rest <;> intro read <;> cases read
  case case1 blank => exact .of_kind nofun (runLength_pos blank) (runLength_le _ _)
  case case2 slashes =>
      have slash : c = '/' := by
        have prefixed := isPrefixOf_iff_prefix.mp slashes
        exact (cons_prefix_cons.mp prefixed).1.symm
      exact .of_kind nofun (runLength_pos (by simp [slash])) (runLength_le _ _)
  case case3 opening n found =>
      have within := findEnd_le found
      have star : 1 ≤ rest.length := by
        have prefixed := isPrefixOf_iff_prefix.mp opening
        exact (cons_prefix_cons.mp prefixed).2.length_le
      rw [length_drop] at within
      exact .of_kind nofun (by omega) (by omega)
  case case5 n found =>
      have within := stringEnd_le found
      exact .of_kind nofun (by omega) (by omega)
  case case7 n found =>
      have within := backtickEnd_le found
      exact .of_kind nofun (by omega) (by omega)
  case case9 ticked n found =>
      have within := backtickEnd_le found
      have tick := one_le_length_of_head? ticked
      rw [length_drop] at within
      exact .of_kind nofun (by omega) (by omega)
  case case12 =>
      have within := runLength_le (isWordChar letters) rest
      exact .of_kind nofun (by omega) (by omega)
  case case13 starts =>
      simp only [Bool.or_eq_true, Bool.and_eq_true] at starts
      exact .of_kind nofun (numberEnd_pos letters (starts.imp_right And.left))
        (numberEnd_le letters _)
  case case14 starts =>
      have wordChar : isWordChar letters c = true := by
        simp only [Bool.or_eq_true, decide_eq_true_eq] at starts
        cases starts with
        | inl alpha => simp [isWordChar, letters.isAlnum_of_isAlpha alpha]
        | inr underscore => simp [isWordChar, underscore]
      exact .of_kind nofun (runLength_pos wordChar) (runLength_le _ _)
  case case15 opening => exact opening
  case case16 closing wanted => exact ⟨closing, wanted⟩
  case case18 op found => exact .of_kind nofun (ops_fits found).1 (ops_fits found).2
  case case19 => exact .of_kind nofun Nat.one_pos (Nat.le_add_left 1 _)
  case case20 opener closing _ _ _ =>
      exact ⟨Nat.one_pos, Nat.le_add_left 1 _, fun _ => ⟨rfl, opener, by simpa using closing⟩⟩

def Scan.skip (s : Scan) (length : ℕ) : Scan :=
  { s with rest := s.rest.drop length, i := s.i + length }

/-- The token of the next `length` characters. -/
def Scan.token (s : Scan) (kind : Kind) (length depth : ℕ) : Token :=
  ⟨kind, s.rest.take length, s.i, s.i + length, depth⟩

/-- What a lexeme does to the scan. A bracket counts as outside itself. -/
def Scan.read (trivia : Bool) (s : Scan) : Lexeme → Scan
  | .token kind length =>
    if kind.isTrivia && !trivia then s.skip length
    else { s.skip length with out := s.out ++ [s.token kind length s.stack.length] }
  | .opens closer =>
    { s.skip 1 with
      stack := (closer, s.i) :: s.stack
      out := s.out ++ [s.token .punct 1 s.stack.length] }
  | .closes =>
    { s.skip 1 with
      stack := s.stack.tail
      out := s.out ++ [s.token .punct 1 s.stack.tail.length] }

def Scan.step (trivia : Bool) (s : Scan) : Except LexError Scan :=
  match s.rest with
  | [] => .ok s
  | c :: rest => (lexeme letters (leadingDot s.out) s.stack s.i c rest).map (s.read trivia)

@[simp]
theorem Scan.read_rest (trivia : Bool) (s : Scan) (lx : Lexeme) :
    (s.read trivia lx).rest = s.rest.drop lx.length := by
  cases lx with
  | token kind length => simp only [Scan.read, Lexeme.length, Scan.skip]; split <;> rfl
  | opens closer => rfl
  | closes => rfl

@[simp]
theorem Scan.read_i (trivia : Bool) (s : Scan) (lx : Lexeme) :
    (s.read trivia lx).i = s.i + lx.length := by
  cases lx with
  | token kind length => simp only [Scan.read, Lexeme.length, Scan.skip]; split <;> rfl
  | opens closer => rfl
  | closes => rfl

theorem Scan.step_cases {trivia : Bool} {s s' : Scan} (unread : s.rest ≠ [])
    (stepped : s.step letters trivia = .ok s') :
    ∃ c rest lx, s.rest = c :: rest ∧
      lexeme letters (leadingDot s.out) s.stack s.i c rest = .ok lx ∧ s' = s.read trivia lx := by
  cases split : s.rest with
  | nil => exact absurd split unread
  | cons c rest =>
    simp only [Scan.step, split] at stepped
    cases read : lexeme letters (leadingDot s.out) s.stack s.i c rest with
    | error e => simp [read, Except.map] at stepped
    | ok lx =>
      simp only [read, Except.map, Except.ok.injEq] at stepped
      exact ⟨c, rest, lx, rfl, read, stepped.symm⟩

theorem Scan.step_shorter {trivia : Bool} {s s' : Scan} (unread : s.rest ≠ [])
    (stepped : s.step letters trivia = .ok s') : s'.rest.length < s.rest.length := by
  obtain ⟨c, rest, lx, split, read, rfl⟩ := Scan.step_cases letters unread stepped
  have fits := lexeme_fits letters read
  rw [Scan.read_rest, length_drop, split, length_cons]
  cases lx with
  | token kind length =>
    have positive : 0 < length := fits.1
    simp only [Lexeme.length]
    omega
  | opens closer => simp [Lexeme.length]
  | closes => simp [Lexeme.length]

def Scan.run (trivia : Bool) (s : Scan) : Except LexError Scan :=
  if _ : s.rest ≠ [] then
    match _ : s.step letters trivia with
    | .error e => .error e
    | .ok s' => Scan.run trivia s'
  else .ok s
termination_by s.rest.length
decreasing_by exact Scan.step_shorter letters ‹_› ‹_›

def Scan.start (text : Text) : Scan :=
  ⟨text, 0, [], []⟩

def tokenize (trivia : Bool) (text : Text) : Except LexError (List Token) :=
  match (Scan.start text).run letters trivia with
  | .error e => .error e
  | .ok s =>
    match s.stack with
    | [] => .ok s.out
    | (closer, opened) :: _ =>
      .error ⟨s!"a bracket is never closed — it wants a {closer}", opened⟩

end DataViz.NativeQuery
