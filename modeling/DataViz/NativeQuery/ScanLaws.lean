/-
# Texts as words and blanks

A text that is words with blanks between, each word what the scan finds at its place. A word stays
what it is when a blank or a bracket is put behind the text, so such texts can be put together.
-/

import DataViz.NativeQuery.Conditions

namespace DataViz.NativeQuery

open List

def IsBlank (text : Text) : Prop :=
  ∀ c ∈ text, Number.isSpace c = true

variable (letters : Letters)

def StartsWith : Text → Text → Prop
  | [], _ => False
  | c :: more, rest =>
    Number.isSpace c = false ∧ ['/', '/'].isPrefixOf (c :: (more ++ rest)) = false ∧
      ['/', '*'].isPrefixOf (c :: (more ++ rest)) = false ∧
      tokenLength letters c (more ++ rest) = more.length + 1

/-- A text is blanks and words, and the scan finds every word at its place. -/
inductive Spells : Text → List Text → Prop
  | blank {blanks : Text} (blank : IsBlank blanks) : Spells blanks []
  | word {blanks word rest : Text} {words : List Text} (blank : IsBlank blanks)
      (starts : StartsWith letters word rest) (more : Spells rest words) :
      Spells (blanks ++ (word ++ rest)) (word :: words)

variable {blanks : Text}

theorem nextToken_blank (blank : IsBlank blanks) (text : Text) :
    nextToken (blanks ++ text) = nextToken text := by
  induction blanks with
  | nil => rfl
  | cons c blanks ih =>
    rw [cons_append, nextToken, if_pos (blank c mem_cons_self)]
    exact ih fun d mem => blank d (mem_cons_of_mem _ mem)

variable {c : Char}

theorem nextToken_ink {rest : Text} (ink : Number.isSpace c = false)
    (line : ['/', '/'].isPrefixOf (c :: rest) = false)
    (block : ['/', '*'].isPrefixOf (c :: rest) = false) :
    nextToken (c :: rest) = some (c :: rest) := by
  rw [nextToken, if_neg (by simp [ink]), if_neg (by simp [line]), if_neg (by simp [block])]

variable {text : Text}

theorem scanTokens_of_none (next : nextToken text = none) : scanTokens letters text = [] := by
  rw [scanTokens.eq_def]
  split
  · rfl
  · rfl
  · next found => simp [next] at found

theorem scanTokens_of_some {text rest : Text} (next : nextToken text = some (c :: rest)) :
    scanTokens letters text = (c :: rest).take (tokenLength letters c rest) ::
        scanTokens letters (rest.drop (tokenLength letters c rest - 1)) := by
  rw [scanTokens.eq_def]
  split
  · next found => simp [next] at found
  · next found => simp [next] at found
  · next found =>
      rw [next] at found
      cases found
      rfl

theorem scanTokens_blank (blank : IsBlank blanks) (text : Text) :
    scanTokens letters (blanks ++ text) = scanTokens letters text := by
  rw [scanTokens.eq_def, scanTokens.eq_def letters text, nextToken_blank blank]

variable {word rest : Text}

theorem scanTokens_word (starts : StartsWith letters word rest) :
    scanTokens letters (word ++ rest) = word :: scanTokens letters rest := by
  cases word with
  | nil => exact starts.elim
  | cons c more =>
    obtain ⟨ink, line, block, long⟩ := starts
    rw [cons_append, scanTokens_of_some letters (nextToken_ink ink line block), long,
      Nat.add_sub_cancel, take_succ_cons, take_left, drop_left]

variable {words : List Text}

/-- The scan finds the words of a text. -/
theorem scanTokens_spells (spells : Spells letters text words) :
    scanTokens letters text = words := by
  induction spells with
  | @blank blanks blank =>
    have empty := scanTokens_blank letters blank []
    rw [append_nil] at empty
    exact empty.trans (scanTokens_of_none letters (by rw [nextToken]))
  | word blank starts _ ih =>
    rw [scanTokens_blank letters blank, scanTokens_word letters starts, ih]

/-- A character that ends whatever word is before it. -/
def Delimiter (c : Char) : Prop :=
  c = ' ' ∨ c = ')'

variable {letters}

theorem not_backslash (last : c = '\\' → text = [] → False)
    (long : ∀ head rest, c = '\\' → text = head :: rest → False) : c ≠ '\\' := by
  intro same
  cases text with
  | nil => exact last same rfl
  | cons head rest => exact long head rest same rfl

theorem openString_of_stringEnd {quote : Char} {n : ℕ} (closed : stringEnd quote text = some n)
    (rest : Text) : openString quote (text ++ rest) = some n := by
  fun_induction stringEnd quote text generalizing n with
  | case1 => cases closed
  | case2 => cases closed
  | case3 c text ih =>
    obtain ⟨m, found, rfl⟩ := Option.map_eq_some_iff.mp closed
    rw [cons_append, cons_append, openString, ih found]
    rfl
  | case4 text last long =>
    cases closed
    have plain := not_backslash last long
    rw [cons_append, openString, if_pos rfl]
    · exact fun same => absurd same plain
    · exact fun _ _ same => absurd same plain
  | case5 c text last long other ih =>
    obtain ⟨m, found, rfl⟩ := Option.map_eq_some_iff.mp closed
    have plain := not_backslash last long
    rw [cons_append, openString, if_neg other, ih found]
    · rfl
    · exact fun same => absurd same plain
    · exact fun _ _ same => absurd same plain

variable {d : Char}

/-- A quoted name that is closed ends where it did, whatever is put behind the text. -/
theorem openBacktick_closed (closed : backtickEnd text = some text.length) {rest : Text}
    (long : openBacktick (text ++ rest) = text.length) (tick : d ≠ '`') (more : Text) :
    openBacktick (text ++ rest ++ d :: more) = text.length := by
  fun_induction backtickEnd text with
  | case1 => cases closed
  | case2 text ih =>
    simp only [cons_append, openBacktick, length_cons] at long ⊢
    have inner : backtickEnd text = some text.length := by
      obtain ⟨m, found, same⟩ := Option.map_eq_some_iff.mp closed
      rw [found, show m = text.length by simpa using same]
    rw [ih inner (by omega)]
  | case3 text single =>
    have alone : text = [] := by simpa using closed
    subst alone
    cases rest with
    | nil =>
      simp only [singleton_append, append_nil]
      rw [openBacktick]
      · rfl
      · intro _ _ same
        cases same
        exact tick rfl
    | cons c rest =>
      have apart : c ≠ '`' := by
        rintro rfl
        simp [openBacktick] at long
      simp only [cons_append, nil_append]
      rw [openBacktick]
      · rfl
      · intro _ _ same
        cases same
        exact apart rfl
  | case4 c text single other ih =>
    have inner : backtickEnd text = some text.length := by
      obtain ⟨m, found, same⟩ := Option.map_eq_some_iff.mp closed
      rw [found, show m = text.length by simpa using same]
    have first : ∀ rest : Text, openBacktick (c :: rest) = openBacktick rest + 1 := by
      intro rest
      rw [openBacktick, if_neg other]
      exact fun _ same => absurd same other
    rw [cons_append, first, length_cons] at long
    rw [cons_append, cons_append, first, ih inner (by omega), length_cons]

theorem runLength_append {p : Char → Bool} (stops : p d = false) (text more : Text) :
    runLength p (text ++ d :: more) = runLength p text := by
  induction text with
  | nil => simp [runLength, stops]
  | cons c text ih => rw [cons_append, runLength_cons, runLength_cons, ih]

theorem Delimiter.wordChar (delimits : Delimiter d) : isWordChar letters d = false := by
  rcases delimits with rfl | rfl
  · rw [isWordChar, Letters.isAlnum, letters.isAlpha_ascii ' ' (by decide),
      letters.isNumeric_ascii ' ' (by decide)]
    decide
  · rw [isWordChar, Letters.isAlnum, letters.isAlpha_ascii ')' (by decide),
      letters.isNumeric_ascii ')' (by decide)]
    decide

theorem Delimiter.decimal (delimits : Delimiter d) : isDecimal d = false := by
  rcases delimits with rfl | rfl <;> decide

def fractionTail : Text → ℕ
  | '.' :: d :: rest => if isDecimal d then 1 + runLength isDecimal (d :: rest) else 0
  | _ => 0

/-- `(?:[eE][+-]?\d+)?` of a number. -/
def exponentTail : Text → ℕ
  | c :: rest =>
    if c = 'e' ∨ c = 'E' then
      let sign := if rest.head? = some '+' ∨ rest.head? = some '-' then 1 else 0
      let digits := runLength isDecimal (rest.drop sign)
      if digits = 0 then 0 else 1 + sign + digits
    else 0
  | [] => 0

theorem numberTail_eq (text : Text) : numberTail letters text =
      fractionTail text + exponentTail (text.drop (fractionTail text)) +
        runLength (isWordChar letters)
          (text.drop (fractionTail text + exponentTail (text.drop (fractionTail text)))) :=
  rfl

theorem fractionTail_append (delimits : Delimiter d) (text more : Text) :
    fractionTail (text ++ d :: more) = fractionTail text := by
  have dot : d ≠ '.' := by rcases delimits with rfl | rfl <;> decide
  match text with
  | [] =>
    rw [fractionTail]
    · rfl
    · intro _ _ same
      cases same
      exact dot rfl
  | [c] =>
    rw [fractionTail.eq_def]
    split
    · next e rest same =>
        cases same
        rw [delimits.decimal]
        rfl
    · simp [fractionTail]
  | c :: e :: rest =>
    rw [cons_append, cons_append]
    by_cases starts : c = '.'
    · subst starts
      rw [fractionTail, fractionTail, ← cons_append, runLength_append delimits.decimal]
    · rw [fractionTail, fractionTail]
      · exact fun _ _ same => starts (List.cons.inj same).1
      · exact fun _ _ same => starts (List.cons.inj same).1

theorem fractionTail_le (text : Text) : fractionTail text ≤ text.length := by
  fun_cases fractionTail text with
  | case1 d rest =>
    have run := runLength_le isDecimal (d :: rest)
    simp only [length_cons] at run ⊢
    omega
  | case2 => exact Nat.zero_le _
  | case3 => exact Nat.zero_le _

theorem exponentTail_append (delimits : Delimiter d) (text more : Text) :
    exponentTail (text ++ d :: more) = exponentTail text := by
  cases text with
  | nil =>
    have plain : ¬ (d = 'e' ∨ d = 'E') := by rcases delimits with rfl | rfl <;> decide
    rw [nil_append, exponentTail, if_neg plain, exponentTail]
  | cons c rest =>
    have unsigned : ¬ (d = '+' ∨ d = '-') := by rcases delimits with rfl | rfl <;> decide
    rw [cons_append, exponentTail, exponentTail]
    split
    · cases rest with
      | nil =>
        simp [runLength, unsigned, delimits.decimal]
      | cons e rest =>
        have sign : (if (e :: rest).head? = some '+' ∨ (e :: rest).head? = some '-' then 1
            else 0) ≤ (e :: rest).length := by
          split <;> simp
        rw [cons_append, head?_cons, head?_cons, ← cons_append] at *
        simp only [drop_append_of_le_length sign, runLength_append delimits.decimal]
    · rfl

theorem exponentTail_le (text : Text) : exponentTail text ≤ text.length := by
  fun_cases exponentTail text with
  | case1 => exact Nat.zero_le _
  | case2 c rest _ sign digits positive =>
    have run := runLength_le isDecimal (rest.drop sign)
    simp only [length_drop, length_cons] at run ⊢
    omega
  | case3 => exact Nat.zero_le _
  | case4 => exact Nat.zero_le _

theorem numberTail_append (delimits : Delimiter d) (text more : Text) :
    numberTail letters (text ++ d :: more) = numberTail letters text := by
  have fraction := fractionTail_le text
  have exponent := exponentTail_le (text.drop (fractionTail text))
  rw [length_drop] at exponent
  rw [numberTail_eq, numberTail_eq, fractionTail_append delimits,
    drop_append_of_le_length fraction, exponentTail_append delimits,
    drop_append_of_le_length (by omega), runLength_append delimits.wordChar]

theorem find?_ops_append {c d : Char} (delimits : Delimiter d) (text more : Text) :
    ops.find? (·.isPrefixOf (c :: (text ++ d :: more))) = ops.find? (·.isPrefixOf (c :: text)) := by
  cases text with
  | nil => rcases delimits with rfl | rfl <;> simp [ops, List.isPrefixOf]
  | cons e text =>
    have two : ∀ (a b : Char) (rest : Text),
        [a, b].isPrefixOf (c :: e :: rest) = (a == c && (b == e && true)) := fun _ _ _ => rfl
    simp [ops, find?_cons, two]

theorem head?_append_tick (tick : d ≠ '`') (text more : Text) :
    (text ++ d :: more).head? = some '`' ↔ text.head? = some '`' := by
  cases text with
  | nil => simp [tick]
  | cons => rfl

/-- A word that is closed ends where it did when something that is no part of a word is put behind
the text. -/
theorem tokenLength_append {c d : Char} {more rest : Text} (closed_ : closed (c :: more) = true)
    (long : tokenLength letters c (more ++ rest) = more.length + 1) (delimits : Delimiter d)
    (behind : Text) :
    tokenLength letters c (more ++ rest ++ d :: behind) = more.length + 1 := by
  have tick : d ≠ '`' := by rcases delimits with rfl | rfl <;> decide
  rw [closed] at closed_
  by_cases quote : c = '\'' ∨ c = '"'
  · rw [if_pos quote, decide_eq_true_eq] at closed_
    rw [tokenLength, if_pos quote, append_assoc, openString_of_stringEnd closed_]
    exact Nat.add_comm 1 _
  rw [if_neg quote] at closed_
  rw [tokenLength, if_neg quote] at long ⊢
  dsimp only at long ⊢
  by_cases ticked : c = '`'
  · rw [if_pos ticked] at closed_ long ⊢
    rw [decide_eq_true_eq] at closed_
    rw [openBacktick_closed closed_ (by omega) tick, Nat.add_comm]
  rw [if_neg ticked] at closed_ long ⊢
  by_cases param : c = '$'
  · rw [if_pos param] at long ⊢
    simp only [head?_append_tick tick]
    by_cases named : (more ++ rest).head? = some '`'
    · rw [if_pos named] at long ⊢
      cases more with
      | nil =>
        rw [length_nil] at long
        omega
      | cons e more =>
        cases named
        rw [if_pos ⟨param, rfl⟩, decide_eq_true_eq] at closed_
        simp only [cons_append, drop_succ_cons, drop_zero, length_cons] at *
        rw [openBacktick_closed closed_ (by omega) tick, Nat.add_comm]
    · rw [if_neg named] at long ⊢
      rw [runLength_append delimits.wordChar, long]
  rw [if_neg param] at long ⊢
  by_cases decimal : isDecimal c = true
  · rw [if_pos decimal] at long ⊢
    rw [← cons_append, runLength_append delimits.decimal,
      drop_append_of_le_length (runLength_le _ _), numberTail_append delimits, long]
  rw [if_neg decimal] at long ⊢
  have point : ((more ++ rest ++ d :: behind).head?.map isDecimal).getD false =
      ((more ++ rest).head?.map isDecimal).getD false := by
    cases more ++ rest with
    | nil => exact delimits.decimal
    | cons => rfl
  rw [point]
  by_cases fraction : c = '.' ∧ ((more ++ rest).head?.map isDecimal).getD false = true
  · rw [if_pos fraction] at long ⊢
    rw [← long]
    cases whole : more ++ rest with
    | nil => simp [whole] at fraction
    | cons e whole =>
      rw [cons_append, drop_succ_cons, drop_zero, drop_succ_cons,
        drop_zero, runLength_append delimits.wordChar]
  rw [if_neg fraction] at long ⊢
  rw [← long, ← cons_append, runLength_append delimits.wordChar, cons_append,
    find?_ops_append delimits]

theorem StartsWith.append (starts : StartsWith letters word rest) (closed_ : closed word = true)
    (delimits : Delimiter d) (behind : Text) : StartsWith letters word (rest ++ d :: behind) := by
  cases word with
  | nil => exact starts.elim
  | cons c more =>
    obtain ⟨ink, line, block, long⟩ := starts
    have slash : d ≠ '/' ∧ d ≠ '*' := by rcases delimits with rfl | rfl <;> decide
    have two : ∀ (a b e : Char) (text : Text),
        [a, b].isPrefixOf (c :: e :: text) = (a == c && (b == e && true)) :=
      fun _ _ _ _ => rfl
    rw [StartsWith, ← append_assoc]
    refine ⟨ink, ?_, ?_, tokenLength_append closed_ long delimits behind⟩
    · cases whole : more ++ rest with
      | nil => simp [two, slash.1.symm]
      | cons e whole' =>
        rw [whole] at line
        exact line
    · cases whole : more ++ rest with
      | nil => simp [two, slash.2.symm]
      | cons e whole' =>
        rw [whole] at block
        exact block

theorem Spells.indent (spells : Spells letters text words) (blank : IsBlank blanks) :
    Spells letters (blanks ++ text) words := by
  have both : ∀ {more : Text}, IsBlank more → IsBlank (blanks ++ more) :=
    fun blank' c mem => (mem_append.mp mem).elim (blank c) (blank' c)
  cases spells with
  | blank blank' => exact .blank (both blank')
  | word blank' starts more =>
    rw [← append_assoc]
    exact .word (both blank') starts more

theorem Spells.cons (starts : StartsWith letters word rest) (more : Spells letters rest words) :
    Spells letters (word ++ rest) (word :: words) := by
  have none_ : IsBlank [] := nofun
  exact .word none_ starts more

/-- A text whose words are closed stays what it is before a delimiter, and goes on with the words
behind it. -/
theorem Spells.append {first second : Text} {words more : List Text}
    (left : Spells letters first words) (closed_ : ∀ w ∈ words, closed w = true)
    (delimits : Delimiter d) (right : Spells letters (d :: second) more) :
    Spells letters (first ++ d :: second) (words ++ more) := by
  induction left with
  | blank blank => exact right.indent blank
  | word blank starts _ ih =>
    rw [append_assoc, append_assoc]
    exact .word blank (starts.append (closed_ _ mem_cons_self) delimits second)
      (ih fun w mem => closed_ w (mem_cons_of_mem _ mem))

end DataViz.NativeQuery
