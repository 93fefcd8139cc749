/-
# Rewriting keeps the meaning

`operand` and `grouped` mean what they are given, `negated` its negation, each also where it is put
in brackets under a NOT or beside AND, OR or XOR; unless a CASE leads the scan astray, and as long
as the words of the text are its words in upper case too.
-/

import DataViz.NativeQuery.OperandLaws
import Mathlib.Data.List.TakeWhile

namespace DataViz.NativeQuery

open List Option

variable {α : Type*} {letters : Letters}

section

theorem isWordChar_mark {c : Char} (mark : c = '(' ∨ c = ')' ∨ c = '=') :
    isWordChar letters c = false := by
  rcases mark with rfl | rfl | rfl <;>
    · rw [isWordChar, Letters.isAlnum, letters.isAlpha_ascii _ (by decide),
        letters.isNumeric_ascii _ (by decide)]
      decide

theorem startsWith_mark {c : Char} (mark : c = '(' ∨ c = ')' ∨ c = '=') {rest : Text}
    (single : ops.find? (·.isPrefixOf (c :: rest)) = none) : StartsWith letters [c] rest := by
  have word : isWordChar letters c = false := isWordChar_mark mark
  have plain : c ≠ '\'' ∧ c ≠ '"' ∧ c ≠ '`' ∧ c ≠ '$' ∧ c ≠ '.' ∧ c ≠ '/' ∧
      isDecimal c = false ∧ Number.isSpace c = false := by
    rcases mark with rfl | rfl | rfl <;> decide
  obtain ⟨single_, double, tick, param, dot, slash, decimal, ink⟩ := plain
  refine ⟨ink, ?_, ?_, ?_⟩
  · simp [isPrefixOf, slash.symm]
  · simp [isPrefixOf, slash.symm]
  · simp [tokenLength, single_, double, tick, param, dot, decimal, word, single]

theorem startsWith_opening (rest : Text) : StartsWith letters (kw "(") rest := by
  exact startsWith_mark (.inl rfl) (by simp [ops, isPrefixOf])

theorem startsWith_closing (rest : Text) : StartsWith letters (kw ")") rest := by
  exact startsWith_mark (.inr (.inl rfl)) (by simp [ops, isPrefixOf])

theorem startsWith_equals (rest : Text) : StartsWith letters (kw "=") (' ' :: rest) := by
  exact startsWith_mark (.inr (.inr rfl)) (by simp [ops, isPrefixOf])

def IsLetters (w : Text) : Prop :=
  w ≠ [] ∧ ∀ c ∈ w, c.toNat < 128 ∧ c.isAlpha = true ∧ isDecimal c = false ∧
    Number.isSpace c = false

instance (w : Text) : Decidable (IsLetters w) :=
  have : Decidable (∀ c ∈ w, c.toNat < 128 ∧ c.isAlpha = true ∧ isDecimal c = false ∧
      Number.isSpace c = false) := List.decidableBAll _ _
  inferInstanceAs (Decidable (_ ∧ _))

theorem startsWith_letters {w rest : Text} (plain : IsLetters w)
    (stops : rest = [] ∨ ∃ d more, rest = d :: more ∧ Delimiter d) :
    StartsWith letters w rest := by
  obtain ⟨some_, each⟩ := plain
  have wordChars : ∀ c ∈ w, isWordChar letters c = true := by
    intro c mem
    obtain ⟨ascii, alpha, -⟩ := each c mem
    rw [isWordChar, Letters.isAlnum_of_isAlpha letters
      ((letters.isAlpha_ascii c ascii).trans alpha), Bool.true_or]
  have run : runLength (isWordChar letters) (w ++ rest) = w.length := by
    rw [runLength, takeWhile_append_of_pos wordChars, length_append]
    rcases stops with rfl | ⟨d, more, rfl, delimits⟩
    · rfl
    · rw [takeWhile_cons, delimits.wordChar]
      rfl
  cases w with
  | nil => exact absurd rfl some_
  | cons c more =>
    obtain ⟨-, alpha, decimal, ink⟩ := each c mem_cons_self
    have other : ∀ {d : Char}, d.isAlpha = false → c ≠ d := by
      rintro d not rfl
      rw [alpha] at not
      cases not
    have quote : ¬ (c = '\'' ∨ c = '"') := by simp [other]
    refine ⟨ink, ?_, ?_, ?_⟩
    · simp [isPrefixOf, Ne.symm (other (d := '/') (by decide))]
    · simp [isPrefixOf, Ne.symm (other (d := '/') (by decide))]
    · rw [tokenLength, if_neg quote]
      rw [if_neg (other (by decide)), if_neg (other (by decide)), if_neg (by simp [decimal]),
        if_neg (fun dot => other (by decide) dot.1),
        if_pos (wordChars c mem_cons_self)]
      exact run

end

inductive Connective
  | and
  | or
  | xor

def Connective.word : Connective → Text
  | .and => kw "AND"
  | .or => kw "OR"
  | .xor => kw "XOR"

def Connective.join : Connective → Truth → Truth → Truth
  | .and => Truth.and
  | .or => Truth.or
  | .xor => unlike

/-- Where a condition is put: by itself, or in brackets under a NOT or beside another condition. -/
inductive Setting (α : Type*)
  | bare
  | underNot
  | before (connective : Connective) (other : Text) (n : Meaning α)
  | behind (connective : Connective) (other : Text) (n : Meaning α)

def Setting.write : Setting α → Text → Text
  | .bare, text => text
  | .underNot, text => kw "NOT (" ++ text ++ kw ")"
  | .before c other _, text => kw "(" ++ text ++ kw ") " ++ c.word ++ kw " (" ++ other ++ kw ")"
  | .behind c other _, text => kw "(" ++ other ++ kw ") " ++ c.word ++ kw " (" ++ text ++ kw ")"

def Setting.meaning : Setting α → Meaning α → Meaning α
  | .bare, m => m
  | .underNot, m => m.not
  | .before c _ n, m => .connect c.join m n
  | .behind c _ n, m => .connect c.join n m

def Setting.Fits (letters : Letters) : Setting α → Prop
  | .bare => True
  | .underNot => True
  | .before _ other n => (∃ words, Spells letters other words) ∧ conditionOf letters other = some n
  | .behind _ other n => (∃ words, Spells letters other words) ∧ conditionOf letters other = some n

/-- Wherever a text is put, it is worth what a condition is worth that is true, false or null. -/
def Denotes (letters : Letters) (text : Text) (m : Meaning α) : Prop :=
  ∀ setting : Setting α, setting.Fits letters →
    ∃ m', conditionOf letters (setting.write text) = some m' ∧
      ∀ env v, m env = some (.truth v) → m' env = setting.meaning m env

/-- One condition is worth what another is wherever that is true, false or null. -/
def Agrees (m m' : Meaning α) : Prop :=
  ∀ env v, m env = some (.truth v) → m' env = some (.truth v)

structure Reads (letters : Letters) (text : Text) (words : List Text) (items : List (Item α))
    (m : Meaning α) : Prop where
  spells : Spells letters text words
  flat : flatten letters words = some items
  means : disjunction items = some m

theorem Reads.conditionOf {text : Text} {words : List Text} {items : List (Item α)}
    {m : Meaning α} (reads : Reads letters text words items m) :
    conditionOf letters text = some m := by
  rw [NativeQuery.conditionOf, scanTokens_spells letters reads.spells, reads.flat,
    bind_some, reads.means]

theorem reads_of_conditionOf {text : Text} {words : List Text} {m : Meaning α}
    (spells : Spells letters text words) (means : NativeQuery.conditionOf letters text = some m) :
    ∃ items, Reads letters text words items m := by
  rw [NativeQuery.conditionOf, scanTokens_spells letters spells] at means
  obtain ⟨items, flat, means⟩ := bind_eq_some_iff.mp means
  exact ⟨items, spells, flat, means⟩

theorem Reads.closed {text : Text} {words : List Text} {items : List (Item α)} {m : Meaning α}
    (reads : Reads letters text words items m) : ∀ w ∈ words, closed w = true :=
  closed_of_readWords (flatten_iff.mp reads.flat)

/-- An operator and a truth value behind one item. -/
theorem Reads.equals {text : Text} {words : List Text} {item : Item α} {m : Meaning α}
    (reads : Reads letters text words [item] m) (b : Bool) :
    Reads letters (text ++ if b then kw " = true" else kw " = false")
      (words ++ [kw "=", if b then kw "true" else kw "false"])
      [item, .word (kw "="), .word (if b then kw "TRUE" else kw "FALSE")]
      (.compare (kw "=") m (.truth (some b))) := by
  obtain ⟨inert, meant⟩ := Item.inert_of_disjunction reads.means
  have value : Spells letters (if b then kw "true" else kw "false")
      [if b then kw "true" else kw "false"] := by
    have starts : StartsWith letters (if b then kw "true" else kw "false") [] :=
      startsWith_letters (by cases b <;> decide) (.inl rfl)
    have end_ : Spells letters [] [] := .blank nofun
    have spelled := end_.cons starts
    rwa [append_nil] at spelled
  have blank : IsBlank [' '] := by simp [IsBlank]; decide
  have behind : Spells letters (' ' :: (kw "=" ++ ' ' :: if b then kw "true" else kw "false"))
      [kw "=", if b then kw "true" else kw "false"] :=
    (Spells.cons (startsWith_equals _) (value.indent blank)).indent blank
  refine ⟨?_, ?_, disjunction_equals inert meant b⟩
  · have joined := reads.spells.append reads.closed (.inl rfl) behind
    cases b <;> exact joined
  · have equals : Lone letters (kw "=") (.word (kw "=") : Item α) :=
      lone_reserved (by decide) (by decide) (by decide)
    have truth : Lone letters (if b then kw "true" else kw "false")
        (.word (if b then kw "TRUE" else kw "FALSE") : Item α) := by
      cases b with
      | true => exact lone_reserved (w := kw "true") (by decide) (by decide) (by decide)
      | false => exact lone_reserved (w := kw "false") (by decide) (by decide) (by decide)
    rw [append_cons]
    exact flatten_append (flatten_append reads.flat equals) truth

theorem Reads.bracketed {text : Text} {words : List Text} {items : List (Item α)}
    {m : Meaning α} (reads : Reads letters text words items m) :
    Reads letters (kw "(" ++ text ++ kw ")") (kw "(" :: (words ++ [kw ")"])) [.operand m] m := by
  refine ⟨?_, ?_, rfl⟩
  · have closing : Spells letters (kw ")") [kw ")"] :=
      Spells.cons (startsWith_closing []) (.blank nofun)
    exact Spells.cons (startsWith_opening _) (reads.spells.append reads.closed (.inr rfl) closing)
  · exact flatten_iff.mpr (readWords_bracketed reads.flat reads.means rfl rfl [])

/-- NOT before what nothing joins. -/
theorem Reads.not {text : Text} {words : List Text} {items : List (Item α)} {m : Meaning α}
    (reads : Reads letters text words items m)
    (free : ∀ item ∈ items, ∀ j ∈ joiners, item ≠ .word j) :
    Reads letters (kw "NOT " ++ text) (kw "NOT" :: words) (.word (kw "NOT") :: items) m.not := by
  have blank : IsBlank [' '] := by simp [IsBlank]; decide
  refine ⟨?_, ?_, ?_⟩
  · exact Spells.cons (startsWith_letters (w := kw "NOT") (by decide)
      (.inr ⟨' ', text, rfl, .inl rfl⟩))
      (reads.spells.indent blank)
  · exact (flatten_not (by decide) (by decide)).mpr ⟨items, reads.flat, rfl⟩
  · rw [disjunction_not free, reads.means]
    rfl

theorem not_joiner_operand (m : Meaning α) :
    ∀ item ∈ [Item.operand m], ∀ j ∈ joiners, item ≠ .word j := by
  rintro item mem j - rfl
  simp at mem

/-- Two conditions in brackets about AND, OR or XOR. -/
theorem Reads.connected {first second : Text} {words more : List Text}
    {items others : List (Item α)} {m n : Meaning α} (left : Reads letters first words items m)
    (right : Reads letters second more others n) (c : Connective) :
    ∃ all items, Reads letters
      (kw "(" ++ first ++ kw ") " ++ c.word ++ kw " (" ++ second ++ kw ")") all items
      (.connect c.join m n) := by
  have blank : IsBlank [' '] := by simp [IsBlank]; decide
  have bracketed := right.bracketed
  have spells : Spells letters
      (kw "(" ++ first ++ kw ")" ++ ' ' :: (c.word ++ ' ' :: (kw "(" ++ second ++ kw ")")))
      (kw "(" :: (words ++ [kw ")"]) ++ c.word :: kw "(" :: (more ++ [kw ")"])) := by
    refine left.bracketed.spells.append left.bracketed.closed (.inl rfl)
      (Spells.indent (Spells.cons ?_ (bracketed.spells.indent blank)) blank)
    exact startsWith_letters (by cases c <;> decide) (.inr ⟨' ', _, rfl, .inl rfl⟩)
  have joiner : Lone letters c.word (.word c.word : Item α) := by
    cases c with
    | and => exact lone_reserved (w := kw "AND") (by decide) (by decide) (by decide)
    | or => exact lone_reserved (w := kw "OR") (by decide) (by decide) (by decide)
    | xor => exact lone_reserved (w := kw "XOR") (by decide) (by decide) (by decide)
  have same : kw "(" ++ first ++ kw ") " ++ c.word ++ kw " (" ++ second ++ kw ")" =
      kw "(" ++ first ++ kw ")" ++ ' ' :: (c.word ++ ' ' :: (kw "(" ++ second ++ kw ")")) := by
    rw [show kw ") " = kw ")" ++ [' '] from rfl, show kw " (" = ' ' :: kw "(" from rfl]
    simp only [append_assoc, cons_append, nil_append]
  rw [same]
  refine ⟨kw "(" :: (words ++ [kw ")"]) ++ c.word :: kw "(" :: (more ++ [kw ")"]),
    [.operand m, .word c.word, .operand n], spells, ?_, ?_⟩
  · rw [flatten_iff, readWords_append, flatten_iff.mp left.bracketed.flat, bind_some,
      readWords_cons, joiner.read rfl, bind_some,
      readWords_bracketed right.flat right.means rfl rfl]
    rfl
  · cases c <;> rfl

theorem Reads.denotes {text : Text} {words : List Text} {items : List (Item α)}
    {m m' : Meaning α} (reads : Reads letters text words items m')
    (agrees : Agrees m m') :
    Denotes letters text m := by
  intro setting fits
  cases setting with
  | bare => exact ⟨m', reads.conditionOf, fun env v truth => (agrees env v truth).trans truth.symm⟩
  | underNot =>
    refine ⟨m'.not, ?_, ?_⟩
    · exact (reads.bracketed.not (not_joiner_operand m')).conditionOf
    · intro env v truth
      rw [Setting.meaning, Meaning.not, Meaning.not, agrees env v truth, truth]
  | before c other n =>
    obtain ⟨⟨_, spells⟩, means⟩ := fits
    obtain ⟨_, right⟩ := reads_of_conditionOf spells means
    obtain ⟨_, _, written⟩ := reads.connected right c
    refine ⟨_, written.conditionOf, ?_⟩
    intro env v truth
    rw [Setting.meaning, Meaning.connect, Meaning.connect, agrees env v truth, truth]
  | behind c other n =>
    obtain ⟨⟨_, spells⟩, means⟩ := fits
    obtain ⟨_, left⟩ := reads_of_conditionOf spells means
    obtain ⟨_, _, written⟩ := left.connected reads c
    refine ⟨_, written.conditionOf, ?_⟩
    intro env v truth
    rw [Setting.meaning, Meaning.connect, Meaning.connect, agrees env v truth, truth]

theorem agrees_equals (m : Meaning α) : Agrees m (.compare (kw "=") m (.truth (some true))) := by
  intro env v truth
  rw [Meaning.compare, truth]
  cases v with
  | none => rfl
  | some b => cases b <;> rfl

theorem truth_of_not {m : Meaning α} {env : Env α} {v : Truth}
    (truth : m.not env = some (.truth v)) : ∃ u, m env = some (.truth u) ∧ v = u.not := by
  rw [Meaning.not] at truth
  split at truth
  · next u known =>
      cases truth
      exact ⟨u, known, rfl⟩
  · cases truth

theorem agrees_not (m : Meaning α) : Agrees m.not (.compare (kw "=") m (.truth (some false))) := by
  intro env v truth
  obtain ⟨u, known, rfl⟩ := truth_of_not truth
  rw [Meaning.compare, known]
  cases u with
  | none => rfl
  | some b => cases b <;> rfl

theorem agrees_not_not (m : Meaning α) : Agrees m.not.not m := by
  intro env v truth
  obtain ⟨u, known, rfl⟩ := truth_of_not truth
  obtain ⟨w, first, rfl⟩ := truth_of_not known
  rw [first]
  cases w with
  | none => rfl
  | some b => cases b <;> rfl

theorem Agrees.trans {m n k : Meaning α} (first : Agrees m n) (second : Agrees n k) : Agrees m k :=
  fun env v truth => second env v (first env v truth)

theorem Spells.stripped {text : Text} {words : List Text} (spells : Spells letters text words) :
    Spells letters (text.dropWhile Number.isSpace) words := by
  cases spells with
  | blank blank =>
    rw [dropWhile_eq_nil_iff.mpr blank]
    exact .blank nofun
  | @word blanks word rest words blank starts more =>
    cases word with
    | nil => exact starts.elim
    | cons c tail =>
      rw [dropWhile_append_of_pos blank, cons_append,
        dropWhile_cons_of_neg (by simp [starts.1]), ← cons_append]
      exact more.cons starts

theorem blanks_unique {c : Char} (ink : Number.isSpace c = false) {b b' x y : Text}
    (blank : IsBlank b) (blank' : IsBlank b') (same : b ++ c :: x = b' ++ c :: y) :
    b = b' ∧ x = y := by
  have cut {b x : Text} (blank : IsBlank b) : (b ++ c :: x).takeWhile Number.isSpace = b := by
    rw [takeWhile_append_of_pos blank, takeWhile_cons_of_neg (by simp [ink]), append_nil]
  have first : b = b' := by rw [← cut blank, same, cut blank']
  subst first
  exact ⟨rfl, (cons.inj (append_cancel_left same)).2⟩

theorem Spells.rest {blanks word text : Text} {words : List Text} (blank : IsBlank blanks)
    (spells : Spells letters (blanks ++ (word ++ text)) (word :: words)) :
    StartsWith letters word text ∧ Spells letters text words := by
  generalize whole : blanks ++ (word ++ text) = all at spells
  cases spells with
  | @word blanks' _ rest _ blank' starts more =>
    cases word with
    | nil => exact starts.elim
    | cons c tail =>
      obtain ⟨-, same⟩ := blanks_unique starts.1 blank blank' whole
      rw [append_cancel_left same]
      exact ⟨starts, more⟩

theorem findEnd_not {blanks : Text} (blank : IsBlank blanks) (text : Text) :
    findEnd (kw "NOT") (blanks ++ (kw "NOT" ++ text)) = some (blanks.length + 3) := by
  induction blanks with
  | nil =>
    rfl
  | cons c blanks ih =>
    have other : c ≠ 'N' := by
      rintro rfl
      exact absurd (blank 'N' mem_cons_self) (by decide)
    have apart : ¬ (kw "NOT").isPrefixOf (c :: (blanks ++ (kw "NOT" ++ text))) = true := by
      show ¬ ['N', 'O', 'T'].isPrefixOf (c :: (blanks ++ (kw "NOT" ++ text))) = true
      simp [isPrefixOf, other.symm]
    rw [cons_append, findEnd, if_neg apart,
      ih fun d mem => blank d (mem_cons_of_mem _ mem), length_cons]
    exact congrArg some (Nat.add_right_comm _ 3 1)

/-- A condition that the scan reads as it is, and judges right. -/
structure Given (letters : Letters) (text : Text) (words : List Text) (items : List (Item α))
    (m : Meaning α) : Prop extends Reads letters text words items m where
  shouted : Spells letters (letters.upperText text) (words.map letters.upperText)
  judged : ¬ Misjudged letters α words

theorem Given.scan {text : Text} {words : List Text} {items : List (Item α)} {m : Meaning α}
    (given : Given letters text words items m) :
    scan letters text = words.map letters.upperText :=
  scanTokens_spells letters given.shouted

theorem upperText_append (first second : Text) :
    letters.upperText (first ++ second) = letters.upperText first ++ letters.upperText second :=
  flatMap_append

theorem UpperCase.blanks (upper : UpperCase letters) {blanks : Text} (blank : IsBlank blanks) :
    letters.upperText blanks = blanks := by
  induction blanks with
  | nil => rfl
  | cons c blanks ih =>
    rw [Letters.upperText, flatMap_cons, upper.blank c (blank c mem_cons_self)]
    exact congrArg (c :: ·) (ih fun d mem => blank d (mem_cons_of_mem _ mem))

theorem Spells.shouted (upper : UpperCase letters) {text : Text} {words : List Text}
    (spells : Spells letters text words)
    (shouted : Spells letters (letters.upperText text) (words.map letters.upperText)) :
    Spells letters (letters.upperText (text.dropWhile Number.isSpace))
      (words.map letters.upperText) := by
  cases spells with
  | blank blank =>
    rw [dropWhile_eq_nil_iff.mpr blank]
    exact .blank nofun
  | @word blanks word rest words blank starts more =>
    cases word with
    | nil => exact starts.elim
    | cons c tail =>
      rw [upperText_append, upperText_append, upper.blanks blank] at shouted
      obtain ⟨starts', more'⟩ := shouted.rest blank
      rw [dropWhile_append_of_pos blank, cons_append,
        dropWhile_cons_of_neg (by simp [starts.1]), ← cons_append,
        upperText_append, map_cons]
      exact more'.cons starts'

theorem Nested.plains {tokens : List Text}
    (plain : ∀ token ∈ tokens, token ∉ opensTokens ++ closesTokens) : Nested tokens := by
  induction tokens with
  | nil => exact .nil
  | cons token tokens ih =>
    have first := plain token mem_cons_self
    rw [mem_append, not_or] at first
    exact .plain first.1 first.2 (ih fun other mem => plain other (mem_cons_of_mem _ mem))

/-- Where nothing joins what is behind a NOT, that is not misjudged either. -/
theorem not_misjudged_rest {w : Text} {words : List Text} (not : shout w = kw "NOT")
    (judged : ¬ Misjudged letters α (w :: words))
    (unjoined : ¬ Joined (words.map letters.upperText)) : ¬ Misjudged letters α words := by
  rintro ⟨astray, -⟩
  have same : (w :: words).dropWhile (fun w => shout w = kw "NOT") =
      words.dropWhile fun w => shout w = kw "NOT" :=
    dropWhile_cons_of_pos (by simpa using not)
  refine judged ⟨by rw [same]; exact astray, .inr ?_⟩
  rw [same]
  rintro ⟨first, joiner, rest, split, nested, mem⟩
  refine unjoined ⟨(words.takeWhile fun w => shout w = kw "NOT").map letters.upperText ++ first,
    joiner, rest, ?_, ?_, mem⟩
  · rw [append_assoc, ← split, ← map_append, takeWhile_append_dropWhile]
  · refine Nested.append (.plains ?_) nested
    intro token mem
    obtain ⟨v, taken, rfl⟩ := mem_map.mp mem
    have shouted : shout v = kw "NOT" := by simpa using mem_takeWhile_imp taken
    rw [upperText_of_shout shouted (by decide)]
    decide

theorem Given.behind (upper : UpperCase letters) {text : Text} {words : List Text}
    {items : List (Item α)} {m : Meaning α} (given : Given letters text words items m)
    (head : (words.map letters.upperText).head? = some (kw "NOT"))
    (alone_ : alone letters (words.map letters.upperText) = some true) :
    ∃ rest words' items' n, behindNot letters text = some rest ∧
      Given letters rest words' items' n ∧ m = n.not := by
  obtain ⟨⟨spells, flat, means⟩, shouted, judged⟩ := given
  have closed_ := closed_of_readWords (flatten_iff.mp flat)
  cases spells with
  | blank => cases head
  | @word blanks w rest words blank starts more =>
    have upper_ : letters.upperText w = kw "NOT" := by simpa using head
    have not : shout w = kw "NOT" :=
      (upper.own w (by rw [upper_]; exact mem_cons_self)).trans upper_
    have long : w.length = 3 := by
      have lengths := congrArg length not
      rwa [shout, length_map] at lengths
    obtain ⟨items', n, flat', means', rfl, unjoined⟩ :=
      behind_of_alone upper flat means not (closed_ w mem_cons_self) alone_
    refine ⟨rest.dropWhile Number.isSpace, words, items', n, ?_, ?_, rfl⟩
    · rw [behindNot, upperText_append, upperText_append, upper.blanks blank, upper_,
        findEnd_not blank, map_some, ← append_assoc,
        drop_left' (by rw [length_append, long])]
    · rw [upperText_append, upperText_append, upper.blanks blank] at shouted
      exact ⟨⟨more.stripped, flat', means'⟩, more.shouted upper (shouted.rest blank).2,
        not_misjudged_rest not judged unjoined⟩

theorem operand_short {text : Text} (short : (scan letters text).length < 2) :
    operand letters text = some text := by
  rw [operand.eq_def]
  exact if_pos short

theorem operand_joined {text : Text} (joined : alone letters (scan letters text) = some false) :
    operand letters text = some text := by
  rw [operand.eq_def]
  dsimp only
  split
  · rfl
  · rw [joined]

theorem operand_not {text rest : Text} (long : ¬ (scan letters text).length < 2)
    (alone_ : alone letters (scan letters text) = some true)
    (head : (scan letters text).head? = some (kw "NOT"))
    (behind : behindNot letters text = some rest) :
    operand letters text = negated letters rest := by
  rw [operand.eq_def]
  rw [if_neg long, alone_]
  dsimp only
  rw [if_pos head]
  split
  · next none_ =>
      rw [behind] at none_
      cases none_
  · next found =>
      rw [behind] at found
      cases found
      rfl

theorem operand_alone {text : Text} (long : ¬ (scan letters text).length < 2)
    (alone_ : alone letters (scan letters text) = some true)
    (head : (scan letters text).head? ≠ some (kw "NOT")) :
    operand letters text = some (text ++ kw " = true") := by
  rw [operand.eq_def]
  rw [if_neg long, alone_]
  exact if_neg head

theorem negated_short {text : Text} (short : (scan letters text).length = 1) :
    negated letters text = some (kw "NOT " ++ text) := by
  rw [negated.eq_def]
  exact if_pos short

theorem negated_joined {text : Text} (long : (scan letters text).length ≠ 1)
    (joined : alone letters (scan letters text) = some false) :
    negated letters text = some (kw "(" ++ text ++ kw ") = false") := by
  rw [negated.eq_def]
  rw [if_neg long, joined]

theorem negated_not {text rest : Text} (long : (scan letters text).length ≠ 1)
    (alone_ : alone letters (scan letters text) = some true)
    (head : (scan letters text).head? = some (kw "NOT"))
    (behind : behindNot letters text = some rest) :
    negated letters text = operand letters rest := by
  rw [negated.eq_def]
  rw [if_neg long, alone_]
  dsimp only
  rw [if_pos head]
  split
  · next none_ =>
      rw [behind] at none_
      cases none_
  · next found =>
      rw [behind] at found
      cases found
      rfl

theorem negated_alone {text : Text} (long : (scan letters text).length ≠ 1)
    (alone_ : alone letters (scan letters text) = some true)
    (head : (scan letters text).head? ≠ some (kw "NOT")) :
    negated letters text = some (text ++ kw " = false") := by
  rw [negated.eq_def]
  rw [if_neg long, alone_]
  exact if_neg head

def ReadsAs (letters : Letters) (text : Text) (m : Meaning α) : Prop :=
  ∃ words items m', Reads letters text words items m' ∧ Agrees m m'

theorem Given.not_astray {text : Text} {words : List Text} {items : List (Item α)}
    {m : Meaning α} (given : Given letters text words items m)
    (head : (words.map letters.upperText).head? ≠ some (kw "NOT")) :
    ¬ Astray letters α words := by
  intro astray
  refine given.judged ?_
  have same : words.dropWhile (fun w => shout w = kw "NOT") = words := by
    cases words with
    | nil => rfl
    | cons w words =>
      refine dropWhile_cons_of_neg ?_
      simp only [decide_eq_true_eq]
      intro not
      exact head (congrArg some (upperText_of_shout not (by decide)))
  exact ⟨by rw [same]; exact astray, .inl same⟩

theorem single_of_flatten {w : Text} {items : List (Item α)}
    (flat : flatten letters [w] = some items) : ∃ item, items = [item] := by
  rw [flatten_iff] at flat
  obtain ⟨next, step, same⟩ := bind_eq_some_iff.mp flat
  cases same
  obtain ⟨-, step⟩ := readWord_iff.mp step
  generalize made : items.reverse = newest at step
  have back : items = newest.reverse := by rw [← made, reverse_reverse]
  cases step with
  | item => exact ⟨_, back⟩

theorem Given.some_word {text : Text} {words : List Text} {items : List (Item α)}
    {m : Meaning α} (given : Given letters text words items m) : words ≠ [] := by
  rintro rfl
  have flat := given.flat
  cases flat
  have means := given.means
  have none_ : disjunction ([] : List (Item α)) = none := leftToRight_nil exclusion_nil
  cases none_.symm.trans means

theorem alone_cons (first : Text) (rest : List Text) :
    ∃ standing, alone letters (first :: rest) = some standing :=
  ⟨_, rfl⟩

theorem Given.negated_word {text : Text} {words : List Text} {items : List (Item α)}
    {m : Meaning α} (given : Given letters text words items m) (single : words.length = 1) :
    ∃ t, negated letters text = some t ∧ ReadsAs letters t m.not := by
  have short : (NativeQuery.scan letters text).length = 1 := by
    rw [given.scan, length_map, single]
  obtain ⟨w, rfl⟩ := length_eq_one_iff.mp single
  obtain ⟨item, rfl⟩ := single_of_flatten given.flat
  obtain ⟨inert, -⟩ := Item.inert_of_disjunction given.means
  exact ⟨_, negated_short short, _, _, _,
    given.toReads.not (by simpa using inert.free), fun _ _ truth => truth⟩

theorem Given.rewritten (upper : UpperCase letters) {text : Text} {words : List Text}
    {items : List (Item α)} {m : Meaning α} (given : Given letters text words items m) :
    (∃ t, operand letters text = some t ∧ ReadsAs letters t m) ∧
      ∃ t, negated letters text = some t ∧ ReadsAs letters t m.not := by
  have whole : ReadsAs letters text m := ⟨words, items, m, given.toReads, fun _ _ truth => truth⟩
  have count : (NativeQuery.scan letters text).length = words.length := by
    rw [given.scan, length_map]
  have some_ : 0 < words.length := length_pos_iff.mpr given.some_word
  obtain ⟨standing, found⟩ : ∃ standing, alone letters (NativeQuery.scan letters text) =
      some standing := by
    rw [given.scan]
    obtain ⟨w, rest, rfl⟩ := exists_cons_of_ne_nil given.some_word
    exact alone_cons _ _
  by_cases single : words.length = 1
  · exact ⟨⟨text, operand_short (by omega), whole⟩, given.negated_word single⟩
  have long : ¬ (NativeQuery.scan letters text).length < 2 := by omega
  have several : (NativeQuery.scan letters text).length ≠ 1 := by omega
  cases standing with
  | false =>
    refine ⟨⟨text, operand_joined found, whole⟩, _, negated_joined several found, ?_⟩
    have written := given.toReads.bracketed.equals false
    rw [append_assoc] at written
    exact ⟨_, _, _, written, agrees_not m⟩
  | true =>
    by_cases head : (NativeQuery.scan letters text).head? = some (kw "NOT")
    · obtain ⟨rest, words', items', n, behind, given', rfl⟩ :=
        given.behind upper (by rw [← given.scan, head]) (by rw [← given.scan, found])
      have shorter := behindNot_shorter letters behind
      obtain ⟨⟨t, wrote, reads⟩, ⟨u, wroteNot, readsNot⟩⟩ := given'.rewritten upper
      refine ⟨⟨u, ?_, readsNot⟩, ⟨t, ?_, ?_⟩⟩
      · rw [operand_not long found head behind, wroteNot]
      · rw [negated_not several found head behind, wrote]
      · obtain ⟨_, _, m', reads, agrees⟩ := reads
        exact ⟨_, _, m', reads, (agrees_not_not n).trans agrees⟩
    · rw [given.scan] at head
      obtain ⟨item, rfl⟩ := single_of_alone upper given.flat given.means (by omega)
        (by rw [← given.scan, found]) head (given.not_astray head)
      rw [← given.scan] at head
      exact ⟨⟨_, operand_alone long found head, _, _, _, given.toReads.equals true,
          agrees_equals m⟩,
        ⟨_, negated_alone several found head, _, _, _, given.toReads.equals false, agrees_not m⟩⟩
termination_by text.length

theorem Given.grouped {text : Text} {words : List Text} {items : List (Item α)}
    {m : Meaning α} (given : Given letters text words items m) :
    ReadsAs letters (NativeQuery.grouped letters text) m := by
  rw [NativeQuery.grouped]
  split
  · exact ⟨_, _, m, given.toReads, fun _ _ truth => truth⟩
  · exact ⟨_, _, m, given.toReads.bracketed, fun _ _ truth => truth⟩

theorem ReadsAs.denotes {text : Text} {m : Meaning α} (reads : ReadsAs letters text m) :
    Denotes letters text m := by
  obtain ⟨_, _, _, reads, agrees⟩ := reads
  exact reads.denotes agrees

/-- `operand` and `grouped` keep what a condition means, and `negated` negates it. -/
def KeepsMeaning (letters : Letters) (text : Text) (m : Meaning α) : Prop :=
  (∃ t, operand letters text = some t ∧ Denotes letters t m) ∧
    Denotes letters (grouped letters text) m ∧
    ∃ t, negated letters text = some t ∧ Denotes letters t m.not

/-- A condition keeps its meaning that is the same words in upper case, unless the scan misjudges a
CASE in it. -/
theorem rewriting_keeps_meaning (upper : UpperCase letters) {text : Text} {words : List Text}
    {m : Meaning α} (spells : Spells letters text words) (means : conditionOf letters text = some m)
    (shouted : Spells letters (letters.upperText text) (words.map letters.upperText))
    (judged : ¬ Misjudged letters α words) : KeepsMeaning letters text m := by
  obtain ⟨items, reads⟩ := reads_of_conditionOf spells means
  have given : Given letters text words items m := ⟨reads, shouted, judged⟩
  obtain ⟨⟨t, wrote, reads⟩, ⟨u, wroteNot, readsNot⟩⟩ := given.rewritten upper
  exact ⟨⟨t, wrote, reads.denotes⟩, given.grouped.denotes, ⟨u, wroteNot, readsNot.denotes⟩⟩

instance (word rest : Text) : Decidable (StartsWith letters word rest) :=
  match word with
  | [] => .isFalse id
  | _ :: _ => inferInstanceAs (Decidable (_ ∧ _))

def spelled (letters : Letters) : Text → List Text → Bool
  | text, [] => text.all Number.isSpace
  | text, w :: words =>
    let ink := text.dropWhile Number.isSpace
    w.isPrefixOf ink && decide (StartsWith letters w (ink.drop w.length)) &&
      spelled letters (ink.drop w.length) words

theorem spells_of_spelled {text : Text} {words : List Text}
    (spelled_ : spelled letters text words = true) : Spells letters text words := by
  induction words generalizing text with
  | nil => exact .blank (all_eq_true.mp spelled_)
  | cons w words ih =>
    simp only [spelled, Bool.and_eq_true, decide_eq_true_eq, isPrefixOf_iff_prefix] at spelled_
    obtain ⟨⟨⟨rest, whole⟩, starts⟩, more⟩ := spelled_
    rw [← whole, drop_left] at starts more
    rw [← takeWhile_append_dropWhile (p := Number.isSpace) (l := text), ← whole]
    exact .word (fun _ mem => mem_takeWhile_imp mem) starts (ih more)

theorem rewriting_keeps_meaning_case : ∃ m : Meaning ℕ,
      conditionOf Letters.ascii (kw "NOT CASE WHEN n.case THEN a ELSE b END") = some m ∧
        KeepsMeaning Letters.ascii (kw "NOT CASE WHEN n.case THEN a ELSE b END") m := by
  have spells : Spells Letters.ascii (kw "NOT CASE WHEN n.case THEN a ELSE b END")
      (["NOT", "CASE", "WHEN", "n", ".", "case", "THEN", "a", "ELSE", "b", "END"].map kw) :=
    spells_of_spelled (by decide)
  obtain ⟨m, means⟩ : ∃ m : Meaning ℕ,
      conditionOf Letters.ascii (kw "NOT CASE WHEN n.case THEN a ELSE b END") = some m := by
    rw [conditionOf, scanTokens_spells _ spells]
    exact ⟨_, rfl⟩
  refine ⟨m, means, rewriting_keeps_meaning .ascii spells means (spells_of_spelled (by decide)) ?_⟩
  rintro ⟨astray, -⟩
  exact astray.goesOn _ rfl

def falseRow : Env ℕ where
  lookup _ := .truth (some false)
  property _ _ := some (.truth (some true))
  call _ _ := none
  compare _ _ _ := none

/-- A property named case keeps the count of CASE and END from coming out even, and the AND behind
the END is not seen. -/
theorem rewriting_flips_meaning :
    ¬ ∀ {letters : Letters} {text : Text} {words : List Text} {m : Meaning ℕ},
      UpperCase letters → Spells letters text words → conditionOf letters text = some m →
        Spells letters (letters.upperText text) (words.map letters.upperText) →
          KeepsMeaning letters text m := by
  intro keeps
  have spells : Spells Letters.ascii (kw "CASE WHEN n.case THEN a END AND c")
      (["CASE", "WHEN", "n", ".", "case", "THEN", "a", "END", "AND", "c"].map kw) :=
    spells_of_spelled (by decide)
  have shouted : Spells Letters.ascii
      (Letters.ascii.upperText (kw "CASE WHEN n.case THEN a END AND c"))
      ((["CASE", "WHEN", "n", ".", "case", "THEN", "a", "END", "AND", "c"].map kw).map
        Letters.ascii.upperText) :=
    spells_of_spelled (by decide)
  have spells' : Spells Letters.ascii (kw "CASE WHEN n.case THEN a END AND c" ++ kw " = false")
      (["CASE", "WHEN", "n", ".", "case", "THEN", "a", "END", "AND", "c", "=", "false"].map kw) :=
    spells_of_spelled (by decide)
  obtain ⟨m, means, worth⟩ : ∃ m : Meaning ℕ,
      conditionOf Letters.ascii (kw "CASE WHEN n.case THEN a END AND c") = some m ∧
        m falseRow = some (.truth (some false)) := by
    rw [conditionOf, scanTokens_spells _ spells]
    exact ⟨_, rfl, rfl⟩
  obtain ⟨m', means', worth'⟩ : ∃ m : Meaning ℕ,
      conditionOf Letters.ascii (kw "CASE WHEN n.case THEN a END AND c" ++ kw " = false") = some m ∧
        m falseRow = some (.truth (some false)) := by
    rw [conditionOf, scanTokens_spells _ spells']
    exact ⟨_, rfl, rfl⟩
  have scanned := scanTokens_spells Letters.ascii shouted
  have wrote : negated Letters.ascii (kw "CASE WHEN n.case THEN a END AND c") =
      some (kw "CASE WHEN n.case THEN a END AND c" ++ kw " = false") := by
    refine negated_alone ?_ ?_ ?_ <;> rw [scan, scanned] <;> decide +kernel
  obtain ⟨-, -, t, wrote', denotes⟩ := keeps .ascii spells means shouted
  cases wrote.symm.trans wrote'
  obtain ⟨n, reads, agrees⟩ := denotes .bare trivial
  cases means'.symm.trans reads
  have truth : m.not falseRow = some (.truth (some true)) := by
    rw [Meaning.not, worth]
    rfl
  have same := agrees falseRow (some true) truth
  rw [worth', Setting.meaning, truth] at same
  cases same

end DataViz.NativeQuery
