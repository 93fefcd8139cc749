/-
# What the tokens of a text are

The tokens kept with their trivia are the text cut up: they join back to it, their offsets meet, and
their depths are those of well nested brackets. Whether trivia is kept never decides whether a text
is refused, nor with what error. It can decide how a number is read: a dot before a digit looks at
the token emitted last, which may be trivia.
-/

import DataViz.NativeQuery.Lexer

namespace DataViz.NativeQuery

open List

variable (letters : Letters)

variable {s last : Scan} {trivia : Bool}

/-- What every turn of the loop keeps holds at its end. -/
theorem Scan.run_keeps {P : Scan → Prop}
    (keeps : ∀ s s', P s → s.rest ≠ [] → s.step letters trivia = .ok s' → P s')
    (ran : s.run letters trivia = .ok last) (first : P s) : P last ∧ last.rest = [] := by
  fun_induction Scan.run letters trivia s with
  | case1 => cases ran
  | case2 s unread s' stepped ih => exact ih ran (keeps s s' first unread stepped)
  | case3 s read =>
    cases ran
    exact ⟨first, not_not.mp read⟩

/-- Each token starts where the one before it stops, and is as long as its text. -/
def Contiguous : ℕ → List Token → ℕ → Prop
  | start, [], stop => start = stop
  | start, token :: tokens, stop =>
    token.start = start ∧ token.stop = start + token.text.length ∧ Contiguous token.stop tokens stop

theorem Contiguous.append {start mid stop : ℕ} {first second : List Token}
    (left : Contiguous start first mid) (right : Contiguous mid second stop) :
    Contiguous start (first ++ second) stop := by
  induction first generalizing start with
  | nil =>
    cases left
    exact right
  | cons token tokens ih =>
    obtain ⟨starts, stops, more⟩ := left
    exact ⟨starts, stops, ih more⟩

variable {tokens : List Token}

theorem Contiguous.length {start stop : ℕ} (contiguous : Contiguous start tokens stop) :
    stop = start + (tokens.flatMap Token.text).length := by
  induction tokens generalizing start with
  | nil => exact contiguous.symm
  | cons token tokens ih =>
    obtain ⟨_, stops, more⟩ := contiguous
    rw [ih more, stops, flatMap_cons, length_append, Nat.add_assoc]

structure Covers (text : Text) (s : Scan) : Prop where
  joins : s.out.flatMap Token.text ++ s.rest = text
  contiguous : Contiguous 0 s.out s.i

variable {s : Scan} {text : Text}

theorem Covers.emit (covers : Covers text s) (kind : Kind) {length : ℕ}
    (within : length ≤ s.rest.length) (depth : ℕ) (stack : List (Char × ℕ)) : Covers text
      ⟨s.rest.drop length, s.i + length, stack, s.out ++ [s.token kind length depth]⟩ := by
  refine ⟨?_, covers.contiguous.append ⟨rfl, ?_, rfl⟩⟩
  · rw [← covers.joins]
    simp [Scan.token]
  · simp [Scan.token, within]

theorem Covers.step {s s' : Scan} (covers : Covers text s) (unread : s.rest ≠ [])
    (stepped : s.step letters true = .ok s') : Covers text s' := by
  obtain ⟨c, rest, lx, split, read, rfl⟩ := Scan.step_cases letters unread stepped
  have fits := lexeme_fits letters read
  have one : 1 ≤ s.rest.length := by simp [split]
  cases lx with
  | token kind length =>
    have within : length ≤ s.rest.length := by
      rw [split]
      exact fits.2.1
    simp only [Scan.read, Bool.not_true, Bool.and_false, Bool.false_eq_true, if_false]
    exact covers.emit kind within _ _
  | opens closer => exact covers.emit .punct one _ _
  | closes => exact covers.emit .punct one _ _

def Token.opens (token : Token) : Option Char :=
  match token.kind, token.text with
  | .punct, [c] => closerOf c
  | _, _ => none

def Token.closes (token : Token) : Option Char :=
  match token.kind, token.text with
  | .punct, [c] => if isCloser c then some c else none
  | _, _ => none

/-- Tokens whose brackets pair off, each token as deep as the brackets around it. -/
inductive Balanced : ℕ → List Token → Prop
  | nil (depth : ℕ) : Balanced depth []
  | plain {depth : ℕ} {token : Token} {tokens : List Token} :
      token.opens = none → token.closes = none → token.depth = depth →
      Balanced depth tokens → Balanced depth (token :: tokens)
  | group {depth : ℕ} {opener closer : Token} {bracket : Char} {inner tokens : List Token} :
      opener.opens = some bracket → closer.closes = some bracket →
      opener.depth = depth → closer.depth = depth →
      Balanced (depth + 1) inner → Balanced depth tokens →
      Balanced depth (opener :: (inner ++ closer :: tokens))

theorem Balanced.append {depth : ℕ} {first second : List Token} (left : Balanced depth first)
    (right : Balanced depth second) : Balanced depth (first ++ second) := by
  induction left with
  | nil => exact right
  | plain opens closes deep _ ih => exact .plain opens closes deep (ih right)
  | group opens closes openDeep closeDeep inner _ _ ih =>
    have more := Balanced.group opens closes openDeep closeDeep inner (ih right)
    simpa using more

/-- Tokens with brackets still open: the stack says what each wants. -/
inductive Pending : List (Char × ℕ) → List Token → Prop
  | whole {tokens : List Token} : Balanced 0 tokens → Pending [] tokens
  | opened {stack : List (Char × ℕ)} {tokens inner : List Token} {opener : Token}
      {wanted : Char × ℕ} :
      Pending stack tokens → opener.opens = some wanted.1 → opener.depth = stack.length →
      Balanced (stack.length + 1) inner →
      Pending (wanted :: stack) (tokens ++ opener :: inner)

theorem Pending.append {stack : List (Char × ℕ)} {tokens more : List Token}
    (pending : Pending stack tokens) (balanced : Balanced stack.length more) :
    Pending stack (tokens ++ more) := by
  cases pending with
  | whole before => exact .whole (before.append balanced)
  | opened before opens deep inner =>
    rw [append_assoc]
    exact .opened before opens deep (inner.append balanced)

theorem Pending.closed {stack : List (Char × ℕ)} {wanted : Char × ℕ} {closer : Token}
    (pending : Pending (wanted :: stack) tokens) (closes : closer.closes = some wanted.1)
    (deep : closer.depth = stack.length) : Pending stack (tokens ++ [closer]) := by
  cases pending with
  | opened before opens openDeep inner =>
    rw [append_assoc]
    exact before.append (.group opens closes openDeep deep inner (.nil _))

variable {c : Char}

variable {rest : Text}

theorem Pending.read {lx : Lexeme} (pending : Pending s.stack s.out)
    (split : s.rest = c :: rest) (fits : lx.Fits s.stack c rest) :
    Pending (s.read trivia lx).stack (s.read trivia lx).out := by
  cases lx with
  | token kind length =>
    by_cases dropped : (kind.isTrivia && !trivia) = true
    · simpa only [Scan.read, dropped, if_true, Scan.skip] using pending
    · simp only [Scan.read, dropped, Bool.false_eq_true, if_false]
      have plain : (s.token kind length s.stack.length).opens = none ∧
          (s.token kind length s.stack.length).closes = none := by
        cases kind with
        | punct =>
          obtain ⟨rfl, opens, closes⟩ := fits.2.2 rfl
          simp [Scan.token, Token.opens, Token.closes, split, opens, closes]
        | _ => exact ⟨rfl, rfl⟩
      exact pending.append (.plain plain.1 plain.2 rfl (.nil _))
  | opens closer =>
    have opens : closerOf c = some closer := fits
    refine Pending.opened pending ?_ rfl (.nil _)
    simp [Scan.token, Token.opens, split, opens]
  | closes =>
    obtain ⟨closes, wanted⟩ := fits
    obtain ⟨top, head, rfl⟩ := Option.map_eq_some_iff.mp wanted
    obtain ⟨stack, stacked⟩ := head?_eq_some_iff.mp head
    rw [stacked] at pending
    simp only [Scan.read, stacked, tail_cons]
    refine pending.closed ?_ rfl
    simp [Scan.token, Token.closes, split, closes]

theorem Pending.step {s s' : Scan} (pending : Pending s.stack s.out) (unread : s.rest ≠ [])
    (stepped : s.step letters trivia = .ok s') : Pending s'.stack s'.out := by
  obtain ⟨c, rest, lx, split, read, rfl⟩ := Scan.step_cases letters unread stepped
  exact pending.read split (lexeme_fits letters read)

def IsBlankCode (code : ℕ) : Prop :=
  (9 ≤ code ∧ code ≤ 13) ∨ (28 ≤ code ∧ code ≤ 32) ∨ (0x2000 ≤ code ∧ code ≤ 0x200a) ∨
    code ∈ [0x85, 0xa0, 0x1680, 0x2028, 0x2029, 0x202f, 0x205f, 0x3000]

instance (code : ℕ) : Decidable (IsBlankCode code) :=
  inferInstanceAs (Decidable (_ ∨ _))

theorem not_isBlankCode_of_run {r : ℕ × ℕ} {code : ℕ}
    (apart : ∀ k < r.2 + 1 - r.1, ¬ IsBlankCode (r.1 + k))
    (within : r.1 ≤ code ∧ code ≤ r.2) : ¬ IsBlankCode code := by
  have blank := apart (code - r.1) (by omega)
  rwa [Nat.add_sub_cancel' within.1] at blank

theorem isSpace_eq_false_of_isDigit (digit : isDigit c = true) : Number.isSpace c = false := by
  have blank : ¬ IsBlankCode c.toNat := by
    rw [isDigit, Bool.or_eq_true] at digit
    cases digit with
    | inl decimal =>
      rw [isDecimal, Number.digitValue, Option.isSome_map, find?_isSome] at decimal
      obtain ⟨start, member, within⟩ := decimal
      have apart : ∀ start ∈ Number.decimalZeros,
          ∀ k < start + 9 + 1 - start, ¬ IsBlankCode (start + k) := by decide +kernel
      simp only [decide_eq_true_eq] at within
      exact not_isBlankCode_of_run (r := (start, start + 9)) (apart start member)
        ⟨within.1, by omega⟩
    | inr other =>
      obtain ⟨run, member, within⟩ := List.any_eq_true.mp other
      have apart : ∀ run ∈ otherDigits,
          ∀ k < run.2 + 1 - run.1, ¬ IsBlankCode (run.1 + k) := by decide +kernel
      exact not_isBlankCode_of_run (apart run member) (by simpa using within)
  simpa [Number.isSpace, IsBlankCode] using blank

theorem lexeme_digit {d : Char} (digit : isDigit d = true) (numberDot : Bool)
    (stack : List (Char × ℕ)) (i : ℕ) (rest : Text) :
    lexeme letters numberDot stack i d rest =
      .ok (.token .number (numberEnd letters (d :: rest))) := by
  have other : ∀ c, isDigit c = false → d ≠ c := fun c none same => by
    rw [← same, digit] at none
    cases none
  have slash := other '/' (by decide)
  rw [lexeme, if_neg (by simp [isSpace_eq_false_of_isDigit digit]),
    if_neg (by simp [slash.symm]), if_neg (by simp [slash.symm]),
    if_neg (by simp [other '\'' (by decide), other '"' (by decide)]),
    if_neg (other '`' (by decide)), if_neg (other '$' (by decide)), if_pos (by simp [digit])]

theorem isAlpha_radix (radix : c = 'x' ∨ c = 'X' ∨ c = 'o' ∨ c = 'O') :
    letters.isAlpha c = true := by
  rcases radix with rfl | rfl | rfl | rfl <;> rw [letters.isAlpha_ascii _ (by decide)] <;> decide

theorem lexeme_radix (radix : c = 'x' ∨ c = 'X' ∨ c = 'o' ∨ c = 'O') (numberDot : Bool)
    (stack : List (Char × ℕ)) (i : ℕ) (rest : Text) : lexeme letters numberDot stack i c rest =
      .ok (.token .word (runLength (isWordChar letters) (c :: rest))) := by
  have alpha := isAlpha_radix letters radix
  have space : Number.isSpace c = false := by rcases radix with rfl | rfl | rfl | rfl <;> decide
  have digit : isDigit c = false := by rcases radix with rfl | rfl | rfl | rfl <;> decide +kernel
  have other : ∀ k, k ∈ ['/', '\'', '"', '`', '$', '.'] → c ≠ k := by
    intro k member same
    subst same
    revert member
    rcases radix with rfl | rfl | rfl | rfl <;> decide
  have dotted : dotDigit (c :: rest) = false := by
    refine Bool.eq_false_iff.mpr fun starts => ?_
    obtain ⟨_, _, same, _⟩ := exists_of_dotDigit starts
    exact other '.' (by decide) (List.cons.inj same).1
  rw [lexeme, if_neg (by simp [space]), if_neg (by simp [(other '/' (by decide)).symm]),
    if_neg (by simp [(other '/' (by decide)).symm]),
    if_neg (by simp [other '\'' (by decide), other '"' (by decide)]),
    if_neg (other '`' (by decide)), if_neg (other '$' (by decide)),
    if_neg (by simp [digit, dotted]), if_pos (by simp [alpha])]

theorem lexeme_dot {d : Char} (digit : isDigit d = true) (numberDot : Bool)
    (stack : List (Char × ℕ)) (i : ℕ) (rest : Text) :
    lexeme letters numberDot stack i '.' (d :: rest) =
      .ok (if numberDot then .token .number (numberEnd letters ('.' :: d :: rest))
        else .token .punct 1) := by
  have alpha : letters.isAlpha '.' = false := by
    rw [letters.isAlpha_ascii _ (by decide)]
    decide
  have apart : d ≠ '.' := fun same => by
    rw [same] at digit
    revert digit
    decide
  have op : ops.find? (·.isPrefixOf ('.' :: d :: rest)) = none := by
    simp [ops, apart.symm]
  have dotted : dotDigit ('.' :: d :: rest) = true := digit
  have plain : isDigit '.' = false := by decide +kernel
  have space : ¬ Number.isSpace '.' = true := by decide
  have quote : ¬ ('.' = '\'' ∨ '.' = '"') := by decide
  have tick : ¬ '.' = '`' := by decide
  have dollar : ¬ '.' = '$' := by decide
  rw [lexeme, if_neg space, if_neg (by simp), if_neg (by simp), if_neg quote, if_neg tick,
    if_neg dollar]
  cases numberDot with
  | true =>
    have starts : (isDigit '.' || (dotDigit ('.' :: d :: rest) && true)) = true := by
      rw [dotted, Bool.and_true, Bool.or_true]
    rw [if_pos starts, if_pos rfl]
  | false =>
    have starts : (isDigit '.' || (dotDigit ('.' :: d :: rest) && false)) = false := by
      rw [Bool.and_false]
      exact plain
    have word : (letters.isAlpha '.' || decide ('.' = '_')) = false := by
      rw [alpha]
      rfl
    rw [if_neg (Bool.eq_false_iff.mp starts), if_neg (Bool.eq_false_iff.mp word),
      if_neg Bool.false_ne_true]
    have opener : closerOf '.' = none := rfl
    have closer : ¬ isCloser '.' = true := by decide
    have single : '.' ∉ singleOps := by decide
    have punct : '.' ∈ puncts := by decide
    simp only [opener, op, if_neg closer, if_neg single, if_pos punct]

theorem lexeme_numberDot (plain : dotDigit (c :: rest) = false) (first second : Bool)
    (stack : List (Char × ℕ)) (i : ℕ) :
    lexeme letters first stack i c rest = lexeme letters second stack i c rest := by
  simp only [lexeme, plain, Bool.false_and]

/-- What a scan comes to: the brackets open at the end, or the error. -/
def Scan.fate (trivia : Bool) (s : Scan) : Except LexError (List (Char × ℕ)) :=
  (s.run letters trivia).map Scan.stack

theorem Scan.run_of_unread (unread : s.rest ≠ []) :
    s.run letters trivia = (s.step letters trivia).bind (Scan.run letters trivia) := by
  rw [Scan.run, dif_pos unread]
  split <;> next stepped => simp only [stepped, Except.bind]

theorem Scan.run_of_read (read : s.rest = []) : s.run letters trivia = .ok s := by
  rw [Scan.run, dif_neg (not_not.mpr read)]

theorem Scan.fate_of_read (read : s.rest = []) : s.fate letters trivia = .ok s.stack := by
  rw [Scan.fate, Scan.run_of_read letters read]
  rfl

theorem Scan.fate_cons (split : s.rest = c :: rest) :
    s.fate letters trivia = (lexeme letters (leadingDot s.out) s.stack s.i c rest).bind
      fun lx => (s.read trivia lx).fate letters trivia := by
  have stepped : s.step letters trivia =
      (lexeme letters (leadingDot s.out) s.stack s.i c rest).map (s.read trivia) := by
    simp only [Scan.step, split]
  rw [Scan.fate, Scan.run_of_unread letters (by simp [split]), stepped]
  cases lexeme letters (leadingDot s.out) s.stack s.i c rest <;> rfl

/-- Two scans at one place of the text, whatever they emitted. -/
structure SamePlace (s₁ s₂ : Scan) : Prop where
  rest : s₁.rest = s₂.rest
  i : s₁.i = s₂.i
  stack : s₁.stack = s₂.stack

variable {s₁ s₂ : Scan}

theorem Scan.read_stack (t₁ t₂ : Bool) (same : SamePlace s₁ s₂) (lx : Lexeme) :
    (s₁.read t₁ lx).stack = (s₂.read t₂ lx).stack := by
  cases lx with
  | token kind length =>
    simp only [Scan.read, Scan.skip]
    split <;> split <;> exact same.stack
  | opens closer => simp [Scan.read, Scan.skip, same.stack, same.i]
  | closes => simp [Scan.read, Scan.skip, same.stack]

theorem SamePlace.read (t₁ t₂ : Bool) (same : SamePlace s₁ s₂) (lx : Lexeme) :
    SamePlace (s₁.read t₁ lx) (s₂.read t₂ lx) where
  rest := by rw [Scan.read_rest, Scan.read_rest, same.rest]
  i := by rw [Scan.read_i, Scan.read_i, same.i]
  stack := Scan.read_stack t₁ t₂ same lx

def digitsEnd (text : Text) : ℕ :=
  runLength isDigitChar text + exponentEnd (text.drop (runLength isDigitChar text))

/-- One scan is about to read a number, the other has read its digits as a fraction. -/
structure Astride (s₁ s₂ : Scan) : Prop where
  digit : ∃ d rest, s₁.rest = d :: rest ∧ isDigit d = true
  place : SamePlace (s₁.skip (digitsEnd s₁.rest)) s₂
  number : leadingDot s₂.out = false

theorem leadingDot_append (out : List Token) (token : Token) : leadingDot (out ++ [token]) =
      !(token.kind = .word || token.kind = .backtick || token.kind = .number) := by
  simp [leadingDot]

theorem numberEnd_fraction {text rest : Text} {d : Char} (radix : isRadix text = false)
    (dotted : text.drop (runLength isDigitChar text) = '.' :: d :: rest)
    (digit : isDigit d = true) :
    numberEnd letters text = runLength isDigitChar text + 1 + digitsEnd (d :: rest) := by
  have after : text.drop (runLength isDigitChar text + 1) = d :: rest := by
    rw [← drop_drop, dotted, drop_one, tail_cons]
  have mantissa : mantissaEnd text =
      runLength isDigitChar text + 1 + runLength isDigitChar (d :: rest) := by
    simp only [mantissaEnd, dotted, fractionEnd, digit, if_true]
    omega
  rw [numberEnd, radix, if_neg Bool.false_ne_true, mantissa, digitsEnd, ← drop_drop, after,
    Nat.add_assoc _ (runLength isDigitChar (d :: rest))]

theorem fractionEnd_eq_zero (whole : dotDigit text = false) : fractionEnd text = 0 := by
  fun_cases fractionEnd text with
  | case1 d rest digit => simp [dotDigit, digit] at whole
  | case2 => rfl
  | case3 => rfl

theorem numberEnd_whole (radix : isRadix text = false)
    (whole : dotDigit (text.drop (runLength isDigitChar text)) = false) :
    numberEnd letters text = digitsEnd text := by
  have fraction := fractionEnd_eq_zero whole
  rw [numberEnd, radix, if_neg Bool.false_ne_true, mantissaEnd, fraction, Nat.add_zero, digitsEnd]

theorem exists_of_isRadix (radix : isRadix text = true) :
    ∃ c rest, text = '0' :: c :: rest ∧ (c = 'x' ∨ c = 'X' ∨ c = 'o' ∨ c = 'O') := by
  fun_cases isRadix text with
  | case1 c rest => exact ⟨c, rest, rfl, by simpa [isRadix, or_assoc] using radix⟩
  | case2 other => simp [isRadix] at radix

/-- The digits of a hexadecimal or octal number, read as decimal ones, are its zero. -/
theorem digitsEnd_radix (radix : c = 'x' ∨ c = 'X' ∨ c = 'o' ∨ c = 'O') (rest : Text) :
    digitsEnd ('0' :: c :: rest) = 1 := by
  have other : isDigitChar c = false := by
    rcases radix with rfl | rfl | rfl | rfl <;> decide +kernel
  have zero : isDigitChar '0' = true := by decide +kernel
  have letter : ¬ (c = 'e' ∨ c = 'E') := by rcases radix with rfl | rfl | rfl | rfl <;> decide
  simp [digitsEnd, runLength_cons, zero, other, exponentEnd, letter]

theorem Scan.read_token (s : Scan) {kind : Kind} (kept : kind.isTrivia = false) (length : ℕ) :
    s.read trivia (.token kind length) = ⟨s.rest.drop length, s.i + length, s.stack,
        s.out ++ [s.token kind length s.stack.length]⟩ := by
  simp [Scan.read, Scan.skip, kept]

theorem fate_read {t : Bool} {kind : Kind} {length : ℕ} (split : s.rest = c :: rest)
    (kept : kind.isTrivia = false)
    (read : lexeme letters (leadingDot s.out) s.stack s.i c rest = .ok (.token kind length)) :
    s.fate letters t = Scan.fate letters t ⟨s.rest.drop length, s.i + length, s.stack,
        s.out ++ [s.token kind length s.stack.length]⟩ := by
  rw [Scan.fate_cons letters split, read, ← Scan.read_token s kept]
  rfl

section

variable {n : ℕ}
  (same : ∀ t₁ t₂ s₁ s₂, s₁.rest.length ≤ n → SamePlace s₁ s₂ →
    Scan.fate letters t₁ s₁ = Scan.fate letters t₂ s₂)
  (astride : ∀ t₁ t₂ s₁ s₂, s₁.rest.length ≤ n → Astride s₁ s₂ →
    Scan.fate letters t₁ s₁ = Scan.fate letters t₂ s₂)

include same astride

variable {t₁ t₂ : Bool} {s₁ s₂ : Scan}

/-- A scan about to read a number catches up with one that has read its digits, or
the other way round a fraction later. -/
theorem fate_astride_step (short : s₁.rest.length ≤ n + 1)
    (apart : Astride s₁ s₂) : Scan.fate letters t₁ s₁ = Scan.fate letters t₂ s₂ := by
  obtain ⟨d, rest, split, digit⟩ := apart.digit
  have place := apart.place
  have positive : 0 < numberEnd letters s₁.rest := by
    rw [split]
    exact numberEnd_pos letters (.inl digit)
  have nearer : (s₁.rest.drop (numberEnd letters s₁.rest)).length ≤ n := by
    rw [length_drop]
    omega
  have left := fate_read letters (t := t₁) split rfl
    (lexeme_digit letters digit (leadingDot s₁.out) s₁.stack s₁.i rest)
  rw [← split] at left
  rw [left]
  cases radix : isRadix s₁.rest with
  | true =>
    obtain ⟨c, more, zero, letter⟩ := exists_of_isRadix radix
    have wordChar : isWordChar letters c = true := by
      rw [isWordChar, letters.isAlnum_of_isAlpha (isAlpha_radix letters letter), Bool.true_or]
    have behind : s₂.rest = c :: more := by
      rw [← place.rest, Scan.skip, zero, digitsEnd_radix letter]
      rfl
    have here : s₂.i = s₁.i + 1 := by
      rw [← place.i, Scan.skip, zero, digitsEnd_radix letter]
    have right := fate_read letters (t := t₂) behind rfl
      (lexeme_radix letters letter (leadingDot s₂.out) s₂.stack s₂.i more)
    have number : numberEnd letters s₁.rest = 1 + runLength (isWordChar letters) (c :: more) := by
      rw [numberEnd, radix, if_pos rfl, zero, runLength_cons, wordChar, if_pos rfl]
      simp only [drop_succ_cons, drop_zero]
      omega
    rw [right]
    refine same _ _ _ _ nearer ⟨?_, ?_, place.stack⟩
    · rw [number, behind, zero, Nat.add_comm 1, drop_succ_cons]
    · simp only [number, here]
      omega
  | false =>
    cases dotted : dotDigit (s₁.rest.drop (runLength isDigitChar s₁.rest)) with
    | false =>
      refine same _ _ _ _ nearer ⟨?_, ?_, place.stack⟩
      · rw [numberEnd_whole letters radix dotted]
        exact place.rest
      · rw [numberEnd_whole letters radix dotted]
        exact place.i
    | true =>
      obtain ⟨e, more, dot, fraction⟩ := exists_of_dotDigit dotted
      have number := numberEnd_fraction letters radix dot fraction
      have digits : digitsEnd s₁.rest = runLength isDigitChar s₁.rest := by
        simp [digitsEnd, dot, exponentEnd]
      have behind : s₂.rest = '.' :: e :: more := by
        rw [← place.rest, Scan.skip, digits, dot]
      have here : s₂.i = s₁.i + runLength isDigitChar s₁.rest := by
        rw [← place.i, Scan.skip, digits]
      have dotRead := lexeme_dot letters fraction (leadingDot s₂.out) s₂.stack s₂.i more
      rw [apart.number, if_neg Bool.false_ne_true, ← apart.number] at dotRead
      have right := fate_read letters (t := t₂) behind rfl dotRead
      rw [right]
      have after : s₁.rest.drop (runLength isDigitChar s₁.rest + 1) = e :: more := by
        rw [← drop_drop, dot, drop_one, tail_cons]
      have next : s₂.rest.drop 1 = e :: more := by
        rw [behind, drop_one, tail_cons]
      refine Eq.symm (astride t₂ t₁ _ _ ?_ ?_)
      · rw [next, ← after, length_drop]
        omega
      refine ⟨⟨e, more, next, fraction⟩, ⟨?_, ?_, place.stack.symm⟩, ?_⟩
      · simp only [Scan.skip]
        rw [next, number, ← after, drop_drop]
      · simp only [Scan.skip]
        rw [next]
        omega
      · exact leadingDot_append _ _

omit same in
theorem fate_dot_step (short : s₁.rest.length ≤ n + 1)
    (place : SamePlace s₁ s₂) (dotted : dotDigit s₁.rest = true)
    (number : leadingDot s₁.out = true) (plain : leadingDot s₂.out = false) :
    Scan.fate letters t₁ s₁ = Scan.fate letters t₂ s₂ := by
  obtain ⟨d, rest, split, digit⟩ := exists_of_dotDigit dotted
  have split' : s₂.rest = '.' :: d :: rest := place.rest ▸ split
  have numberRead := lexeme_dot letters digit (leadingDot s₁.out) s₁.stack s₁.i rest
  have dotRead := lexeme_dot letters digit (leadingDot s₂.out) s₂.stack s₂.i rest
  rw [number, if_pos rfl, ← number] at numberRead
  rw [plain, if_neg Bool.false_ne_true, ← plain] at dotRead
  have left := fate_read letters (t := t₁) split rfl numberRead
  have right := fate_read letters (t := t₂) split' rfl dotRead
  have blank : runLength isDigitChar ('.' :: d :: rest) = 0 := rfl
  have ends := @numberEnd_fraction letters ('.' :: d :: rest) _ _ rfl
    (by rw [blank, drop_zero]) digit
  have next : s₂.rest.drop 1 = d :: rest := by rw [split', drop_one, tail_cons]
  rw [left, right]
  refine Eq.symm (astride t₂ t₁ _ _ ?_ ?_)
  · have length : s₂.rest.length = s₁.rest.length := by rw [place.rest]
    rw [length_drop]
    omega
  refine ⟨⟨d, rest, next, digit⟩, ⟨?_, ?_, place.stack.symm⟩, leadingDot_append _ _⟩
  · simp only [Scan.skip]
    rw [next, ends, blank, split, Nat.add_comm, drop_succ_cons]
  · simp only [Scan.skip]
    rw [next, place.i]
    omega

theorem fate_same_step (short : s₁.rest.length ≤ n + 1)
    (place : SamePlace s₁ s₂) : Scan.fate letters t₁ s₁ = Scan.fate letters t₂ s₂ := by
  cases split : s₁.rest with
  | nil =>
    rw [Scan.fate_of_read letters split, Scan.fate_of_read letters (place.rest ▸ split),
      place.stack]
  | cons c rest =>
    have split' : s₂.rest = c :: rest := place.rest ▸ split
    by_cases agree : lexeme letters (leadingDot s₁.out) s₁.stack s₁.i c rest =
        lexeme letters (leadingDot s₂.out) s₂.stack s₂.i c rest
    · rw [Scan.fate_cons letters split, Scan.fate_cons letters split', agree]
      cases read : lexeme letters (leadingDot s₂.out) s₂.stack s₂.i c rest with
      | error e => rfl
      | ok lx =>
        have positive : 0 < lx.length := by
          have fits := lexeme_fits letters read
          cases lx with
          | token kind length => exact fits.1
          | _ => exact Nat.one_pos
        refine same _ _ _ _ ?_ (place.read t₁ t₂ lx)
        rw [Scan.read_rest, length_drop]
        omega
    · have dotted : dotDigit (c :: rest) = true := by
        refine Bool.eq_true_of_not_eq_false fun plain => agree ?_
        rw [place.stack, place.i]
        exact lexeme_numberDot letters plain _ _ _ _
      rw [← split] at dotted
      cases first : leadingDot s₁.out with
      | true =>
        cases second : leadingDot s₂.out with
        | true => exact absurd (by rw [first, second, place.stack, place.i]) agree
        | false => exact fate_dot_step letters astride short place dotted first second
      | false =>
        cases second : leadingDot s₂.out with
        | false => exact absurd (by rw [first, second, place.stack, place.i]) agree
        | true =>
          have back : SamePlace s₂ s₁ := ⟨place.rest.symm, place.i.symm, place.stack.symm⟩
          rw [place.rest] at dotted short
          exact (fate_dot_step letters astride short back dotted second first).symm

end

theorem fate_same_of_length (n : ℕ) : (∀ t₁ t₂ s₁ s₂, s₁.rest.length ≤ n → SamePlace s₁ s₂ →
      Scan.fate letters t₁ s₁ = Scan.fate letters t₂ s₂) ∧
    (∀ t₁ t₂ s₁ s₂, s₁.rest.length ≤ n → Astride s₁ s₂ →
      Scan.fate letters t₁ s₁ = Scan.fate letters t₂ s₂) := by
  induction n with
  | zero =>
    refine ⟨fun t₁ t₂ s₁ s₂ short place => ?_, fun t₁ t₂ s₁ s₂ short apart => ?_⟩
    · have read : s₁.rest = [] := eq_nil_of_length_eq_zero (Nat.le_zero.mp short)
      rw [Scan.fate_of_read letters read, Scan.fate_of_read letters (place.rest ▸ read),
        place.stack]
    · obtain ⟨d, rest, split, _⟩ := apart.digit
      rw [split] at short
      exact absurd short (Nat.not_succ_le_zero _)
  | succ n ih =>
    obtain ⟨same, astride⟩ := ih
    exact ⟨fun _ _ _ _ short place => fate_same_step letters same astride short place,
      fun _ _ _ _ short apart => fate_astride_step letters same astride short apart⟩

theorem SamePlace.fate (place : SamePlace s₁ s₂) (t₁ t₂ : Bool) :
    Scan.fate letters t₁ s₁ = Scan.fate letters t₂ s₂ :=
  (fate_same_of_length letters s₁.rest.length).1 t₁ t₂ s₁ s₂ (Nat.le_refl _) place

theorem tokenize_error (t₁ t₂ : Bool) (text : Text) (e : LexError) :
    tokenize letters t₁ text = .error e ↔ tokenize letters t₂ text = .error e := by
  have place : SamePlace (Scan.start text) (Scan.start text) := ⟨rfl, rfl, rfl⟩
  have fates := place.fate letters t₁ t₂
  simp only [Scan.fate] at fates
  unfold tokenize
  cases first : (Scan.start text).run letters t₁ with
  | error e₁ =>
    cases second : (Scan.start text).run letters t₂ with
    | error e₂ =>
      rw [first, second] at fates
      cases fates
      rfl
    | ok s₂ =>
      rw [first, second] at fates
      cases fates
  | ok s₁ =>
    cases second : (Scan.start text).run letters t₂ with
    | error e₂ =>
      rw [first, second] at fates
      cases fates
    | ok s₂ =>
      rw [first, second] at fates
      have same : s₁.stack = s₂.stack := Except.ok.inj fates
      simp only [same]
      cases s₂.stack with
      | nil => simp
      | cons wanted stack => rfl

def withoutTrivia (tokens : List Token) : List Token :=
  tokens.filter fun token => !token.kind.isTrivia

theorem withoutTrivia_append (first second : List Token) :
    withoutTrivia (first ++ second) = withoutTrivia first ++ withoutTrivia second :=
  filter_append ..

/-- A number with no digit before its dot stands past a space or a comment that follows
a name or a number. -/
def Scan.SplitsDecimal (s : Scan) : Prop :=
  dotDigit s.rest = true ∧ leadingDot s.out = true ∧ leadingDot (withoutTrivia s.out) = false

/-- The places of the text that the scan keeping trivia comes to from one of them. -/
inductive Scan.Reaches : Scan → Scan → Prop
  | here (s : Scan) : Scan.Reaches s s
  | step {s s' last : Scan} : s.rest ≠ [] → s.step letters true = .ok s' →
      Scan.Reaches s' last → Scan.Reaches s last

def Scan.plain (s : Scan) : Scan :=
  { s with out := withoutTrivia s.out }

theorem Scan.read_plain (s : Scan) (lx : Lexeme) :
    s.plain.read false lx = (s.read true lx).plain := by
  cases lx with
  | token kind length =>
    cases kept : kind.isTrivia <;>
      simp [Scan.read, Scan.plain, Scan.skip, withoutTrivia, Scan.token, kept]
  | opens closer =>
    simp [Scan.read, Scan.plain, Scan.skip, withoutTrivia, Scan.token, Kind.isTrivia]
  | closes =>
    simp [Scan.read, Scan.plain, Scan.skip, withoutTrivia, Scan.token, Kind.isTrivia]

/-- What the last token kept says is said with trivia dropped too. -/
theorem leadingDot_withoutTrivia {out : List Token} (number : leadingDot out = false) :
    leadingDot (withoutTrivia out) = false := by
  cases emitted : out.getLast? with
  | none => simp [leadingDot, emitted] at number
  | some token =>
    obtain ⟨before, rfl⟩ := getLast?_eq_some_iff.mp emitted
    rw [leadingDot_append] at number
    have kept : token.kind.isTrivia = false := by
      cases kind : token.kind <;> simp [kind] at number <;> rfl
    have last : withoutTrivia [token] = [token] := by simp [withoutTrivia, kept]
    rw [withoutTrivia_append, last, leadingDot_append, number]

theorem Scan.step_plain (whole : ¬ s.SplitsDecimal) :
    s.plain.step letters false = (s.step letters true).map Scan.plain := by
  cases split : s.rest with
  | nil => simp [Scan.step, Scan.plain, split, Except.map]
  | cons c rest =>
    have agree : lexeme letters (leadingDot (withoutTrivia s.out)) s.stack s.i c rest =
        lexeme letters (leadingDot s.out) s.stack s.i c rest := by
      cases dotted : dotDigit (c :: rest) with
      | false => exact lexeme_numberDot letters dotted _ _ _ _
      | true =>
        cases number : leadingDot s.out with
        | false => rw [leadingDot_withoutTrivia number]
        | true =>
          have kept : leadingDot (withoutTrivia s.out) = true := by
            refine Bool.eq_true_of_not_eq_false fun plain => whole ⟨?_, number, plain⟩
            rw [split, dotted]
          rw [kept]
    have stepped : s.step letters true =
        (lexeme letters (leadingDot s.out) s.stack s.i c rest).map (s.read true) := by
      simp only [Scan.step, split]
    have plainStepped : s.plain.step letters false =
        (lexeme letters (leadingDot s.out) s.stack s.i c rest).map (s.plain.read false) := by
      simp only [Scan.step, Scan.plain, split, agree]
    rw [stepped, plainStepped]
    cases lexeme letters (leadingDot s.out) s.stack s.i c rest with
    | error e => rfl
    | ok lx => exact congrArg Except.ok (s.read_plain lx)

/-- Up to a split number, the two scans emit the same tokens but for trivia. -/
theorem Scan.run_plain (whole : ∀ s', s.Reaches letters s' → ¬ s'.SplitsDecimal) :
    s.plain.run letters false = (s.run letters true).map Scan.plain := by
  have stepped := Scan.step_plain letters (whole s (.here s))
  fun_induction Scan.run letters true s with
  | case1 s unread e failed =>
    have unread' : s.plain.rest ≠ [] := unread
    rw [Scan.run_of_unread letters unread', stepped, failed]
    rfl
  | case2 s unread s' next ih =>
    have unread' : s.plain.rest ≠ [] := unread
    have whole' : ∀ s'', s'.Reaches letters s'' → ¬ s''.SplitsDecimal :=
      fun s'' reached => whole s'' (.step unread next reached)
    rw [Scan.run_of_unread letters unread', stepped, next]
    exact ih whole' (Scan.step_plain letters (whole' s' (.here s')))
  | case3 s read =>
    have read' : s.plain.rest = [] := not_not.mp read
    rw [Scan.run_of_read letters read']
    rfl

theorem Scan.run_prefix (ran : s.run letters trivia = .ok last) : s.out <+: last.out := by
  refine (Scan.run_keeps letters (P := fun s' => s.out <+: s'.out) ?_ ran (prefix_refl s.out)).1
  intro s₁ s₂ before unread stepped
  obtain ⟨c, rest, lx, _, _, rfl⟩ := Scan.step_cases letters unread stepped
  refine before.trans ?_
  cases lx with
  | token kind length =>
    simp only [Scan.read, Scan.skip]
    split
    · exact prefix_refl _
    · exact prefix_append _ _
  | opens closer => exact prefix_append _ _
  | closes => exact prefix_append _ _

theorem Scan.out_prefix_of_read {lx : Lexeme} (split : s.rest = c :: rest)
    (read : lexeme letters (leadingDot s.out) s.stack s.i c rest = .ok lx)
    (ran : s.run letters trivia = .ok last) : (s.read trivia lx).out <+: last.out := by
  have stepped : s.step letters trivia = .ok (s.read trivia lx) := by
    simp only [Scan.step, split, read, Except.map]
  rw [Scan.run_of_unread letters (by simp [split]), stepped] at ran
  exact Scan.run_prefix letters ran

theorem Scan.SplitsDecimal.differ {s f g : Scan} (splits : s.SplitsDecimal)
    (kept : s.run letters true = .ok f) (dropped : s.plain.run letters false = .ok g) :
    g.out ≠ withoutTrivia f.out := by
  obtain ⟨dotted, number, plain⟩ := splits
  obtain ⟨d, rest, split, digit⟩ := exists_of_dotDigit dotted
  have numberRead := lexeme_dot letters digit (leadingDot s.out) s.stack s.i rest
  have dotRead := lexeme_dot letters digit (leadingDot s.plain.out) s.plain.stack s.plain.i rest
  have plain' : leadingDot s.plain.out = false := plain
  rw [number, if_pos rfl, ← number] at numberRead
  rw [plain', if_neg Bool.false_ne_true, ← plain'] at dotRead
  have left := Scan.out_prefix_of_read letters split numberRead kept
  have right := Scan.out_prefix_of_read letters (s := s.plain) split dotRead dropped
  rw [Scan.read_token _ rfl] at left right
  obtain ⟨more, left⟩ := left
  obtain ⟨more', right⟩ := right
  intro same
  rw [← left, ← right, withoutTrivia_append, withoutTrivia_append, append_assoc,
    append_assoc] at same
  have heads := append_cancel_left same
  have kinds := congrArg Token.kind (List.cons.inj heads).1
  cases kinds

theorem Scan.whole_of_run {s s' f g : Scan} (reached : s.Reaches letters s')
    (kept : s.run letters true = .ok f) (dropped : s.plain.run letters false = .ok g)
    (same : g.out = withoutTrivia f.out) : ¬ s'.SplitsDecimal := by
  induction reached with
  | here s => exact fun splits => splits.differ letters kept dropped same
  | @step s next last unread stepped _ ih =>
    have whole : ¬ s.SplitsDecimal := fun splits => splits.differ letters kept dropped same
    have unread' : s.plain.rest ≠ [] := unread
    rw [Scan.run_of_unread letters unread', Scan.step_plain letters whole, stepped] at dropped
    rw [Scan.run_of_unread letters unread, stepped] at kept
    exact ih kept dropped

structure IsCut (text : Text) (tokens : List Token) : Prop where
  joins : tokens.flatMap Token.text = text
  contiguous : Contiguous 0 tokens text.length
  balanced : Balanced 0 tokens

/-- How a run that succeeds ends. -/
theorem tokenize_ok (read : tokenize letters trivia text = .ok tokens) :
    ∃ last, (Scan.start text).run letters trivia = .ok last ∧ last.stack = [] ∧
      last.out = tokens := by
  unfold tokenize at read
  cases ran : (Scan.start text).run letters trivia with
  | error e => simp [ran] at read
  | ok last =>
    cases stacked : last.stack with
    | cons wanted stack => simp [ran, stacked] at read
    | nil =>
      simp only [ran, stacked, Except.ok.injEq] at read
      exact ⟨last, rfl, stacked, read⟩

theorem tokenize_balanced (read : tokenize letters trivia text = .ok tokens) :
    Balanced 0 tokens := by
  obtain ⟨last, ran, closed, rfl⟩ := tokenize_ok letters read
  have pending := (Scan.run_keeps letters (P := fun s => Pending s.stack s.out)
    (fun _ _ before unread stepped => before.step letters unread stepped) ran
    (.whole (.nil 0))).1
  rw [closed] at pending
  cases pending with
  | whole balanced => exact balanced

theorem tokenize_isCut (read : tokenize letters true text = .ok tokens) : IsCut text tokens := by
  have balanced := tokenize_balanced letters read
  obtain ⟨last, ran, _, rfl⟩ := tokenize_ok letters read
  obtain ⟨covers, finished⟩ := Scan.run_keeps letters (P := Covers text)
    (fun _ _ before unread stepped => before.step letters unread stepped) ran ⟨rfl, rfl⟩
  have joins : last.out.flatMap Token.text = text := by
    rw [← covers.joins, finished, append_nil]
  refine ⟨joins, ?_, balanced⟩
  have length : last.i = text.length := by
    rw [covers.contiguous.length, joins, Nat.zero_add]
  rw [← length]
  exact covers.contiguous

/-- Every text is refused with one error, trivia kept or not, or is cut up into its
tokens. The tokens without trivia are then those of the other scan exactly when no
number that starts with its dot stands past a gap after a name or a number. -/
theorem tokenize_oneReading (text : Text) : match tokenize letters true text with
    | .error e => tokenize letters false text = .error e
    | .ok tokens => IsCut text tokens ∧ (tokenize letters false text = .ok (withoutTrivia tokens) ↔
          ∀ s, (Scan.start text).Reaches letters s → ¬ s.SplitsDecimal) := by
  cases kept : tokenize letters true text with
  | error e => exact (tokenize_error letters true false text e).mp kept
  | ok tokens =>
    refine ⟨tokenize_isCut letters kept, ?_, ?_⟩
    · intro dropped s reached
      obtain ⟨f, keptRun, _, rfl⟩ := tokenize_ok letters kept
      obtain ⟨g, droppedRun, _, same⟩ := tokenize_ok letters dropped
      exact Scan.whole_of_run letters reached keptRun droppedRun same
    · intro whole
      obtain ⟨f, keptRun, closed, rfl⟩ := tokenize_ok letters kept
      have droppedRun := Scan.run_plain letters whole
      rw [keptRun] at droppedRun
      have ran : (Scan.start text).run letters false = .ok f.plain := droppedRun
      simp only [tokenize, ran, Scan.plain, closed]

/-- `RETURN .5`: with trivia kept a number, without it a dot and a number. -/
theorem tokenize_splits_decimal : ∃ tokens, tokenize .ascii true "RETURN .5".toList = .ok tokens ∧
      tokenize .ascii false "RETURN .5".toList ≠ .ok (withoutTrivia tokens) := by
  refine ⟨[⟨.word, "RETURN".toList, 0, 6, 0⟩, ⟨.space, " ".toList, 6, 7, 0⟩,
    ⟨.number, ".5".toList, 7, 9, 0⟩], ?_, ?_⟩
  · decide +kernel
  · decide +kernel

end DataViz.NativeQuery
