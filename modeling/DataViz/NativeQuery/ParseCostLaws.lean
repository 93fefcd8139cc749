/-
# What the cost of a query depends on

The reader asks of a token which word or sign it is and whether it is a name, so what
a literal or a name in backticks says does not count. Remembered costs are exact for
texts whose keys agree only when they scan alike up to that. The key does not see to
it: it is taken by an expression that knows no comments and takes a literal, a
parameter and a name for the same.
-/

import DataViz.NativeQuery.ParseCost

namespace DataViz.NativeQuery

open List

variable (letters : Letters)

/-- A token without what it says: of literals and parameters that they are one, of
names in backticks that they are names. -/
def blanked : Text → Text
  | c :: rest =>
    if c = '\'' ∨ c = '"' ∨ c = '$' then ['\'']
    else if c = '`' then ['`']
    else c :: rest
  | [] => []

/-- What `blanked` leaves alone. -/
def Plain : Text → Prop
  | c :: _ => c ≠ '\'' ∧ c ≠ '"' ∧ c ≠ '$' ∧ c ≠ '`'
  | [] => True

instance (word : Text) : Decidable (Plain word) := by
  cases word <;> unfold Plain <;> infer_instance

theorem blanked_eq_iff {word : Text} (plain : Plain word) (token : Text) :
    blanked token = word ↔ token = word := by
  cases token with
  | nil => exact Iff.rfl
  | cons c rest =>
    simp only [blanked]
    split
    · next literal =>
        constructor
        · intro same
          exact absurd rfl (same ▸ plain).1
        · intro same
          obtain ⟨single, double, dollar, _⟩ := (same ▸ plain : Plain (c :: rest))
          exact absurd literal (by simp [single, double, dollar])
    · split
      · next tick =>
          constructor
          · intro same
            exact absurd rfl (same ▸ plain).2.2.2
          · intro same
            exact absurd tick (same ▸ plain : Plain (c :: rest)).2.2.2
      · exact Iff.rfl

theorem blanked_mem_iff {words : List Text} (plain : ∀ word ∈ words, Plain word)
    (token : Text) : blanked token ∈ words ↔ token ∈ words := by
  constructor
  · intro member
    have same := (blanked_eq_iff (plain _ member) token).mp rfl
    rwa [same]
  · intro member
    have same := (blanked_eq_iff (plain _ member) token).mpr rfl
    rwa [same]

theorem infixRank_blanked (token : Text) :
    Dict.get? infixRank (blanked token) = Dict.get? infixRank token := by
  have plain : ∀ entry ∈ infixRank, Plain entry.1 := by decide
  generalize infixRank = ranks at plain
  induction ranks with
  | nil => rfl
  | cons entry ranks ih =>
    obtain ⟨here, rest⟩ := forall_mem_cons.mp plain
    rw [Dict.get?_cons, Dict.get?_cons, ih rest]
    have same := blanked_eq_iff here token
    simp only [eq_comm (a := entry.1), same]

theorem isName_blanked (token : Text) : isName letters (blanked token) = isName letters token := by
  cases token with
  | nil => rfl
  | cons c rest =>
    simp only [blanked]
    split
    · next literal =>
        have alpha : ∀ q, q = '\'' ∨ q = '"' ∨ q = '$' → letters.isAlpha q = false := by
          rintro q (rfl | rfl | rfl) <;> rw [letters.isAlpha_ascii _ (by decide)] <;> decide
        rw [isName, isName, alpha c literal, alpha '\'' (.inl rfl)]
        rcases literal with rfl | rfl | rfl <;> decide
    · split
      · next tick => rw [tick]; rfl
      · rfl

theorem tokenAt_blanked (t : List Text) (j : ℕ) :
    tokenAt (t.map blanked) j = blanked (tokenAt t j) := by
  rw [tokenAt, tokenAt, getElem?_map]
  cases t[j]? <;> rfl

theorem closingsFrom_blanked (t : List Text) (i : ℕ) (opened : List ℕ) :
    closingsFrom i opened (t.map blanked) = closingsFrom i opened t := by
  have opens : ∀ word ∈ opensTokens, Plain word := by decide
  have closes : ∀ word ∈ closesTokens, Plain word := by decide
  induction t generalizing i opened with
  | nil => rfl
  | cons token t ih =>
    cases opened with
    | nil => simp only [map_cons, closingsFrom, blanked_mem_iff opens, ih]
    | cons opening opened =>
      simp only [map_cons, closingsFrom, blanked_mem_iff opens, blanked_mem_iff closes, ih]

theorem closings_blanked (t : List Text) : closings (t.map blanked) = closings t :=
  closingsFrom_blanked t 0 []

theorem past_blanked (t : List Text) (opening i : ℕ) :
    past (t.map blanked) opening i = past t opening i := by
  simp only [past, closings_blanked, length_map]

section

variable (t : List Text) (run : Methods)

theorem itemsLoop_blanked (turns i : ℕ) :
    itemsLoop (t.map blanked) run turns i = itemsLoop t run turns i := by
  have order : ∀ word ∈ orderWords, Plain word := by decide
  induction turns generalizing i with
  | zero => rfl
  | succ turns ih =>
    simp (disch := decide) only [itemsLoop, tokenAt_blanked, length_map, ne_eq,
      blanked_eq_iff, blanked_mem_iff order, ih]

theorem patternsLoop_blanked (turns i : ℕ) :
    patternsLoop letters (t.map blanked) run turns i = patternsLoop letters t run turns i := by
  induction turns generalizing i with
  | zero => rfl
  | succ turns ih =>
    simp (disch := decide) only [patternsLoop, tokenAt_blanked, length_map, ne_eq,
      blanked_eq_iff, isName_blanked, ih]

theorem patternLoop_blanked (turns i : ℕ) :
    patternLoop (t.map blanked) run turns i = patternLoop t run turns i := by
  have arrow : ∀ word ∈ arrows, Plain word := by decide
  induction turns generalizing i with
  | zero => rfl
  | succ turns ih =>
    simp (disch := decide) only [patternLoop, tokenAt_blanked, length_map,
      blanked_eq_iff, blanked_mem_iff arrow, ih]

theorem patternPartLoop_blanked (stop turns i : ℕ) :
    patternPartLoop (t.map blanked) run stop turns i = patternPartLoop t run stop turns i := by
  induction turns generalizing i with
  | zero => rfl
  | succ turns ih =>
    simp (disch := decide) only [patternPartLoop, tokenAt_blanked, blanked_eq_iff, ih]

theorem continuations_blanked (context turns : ℕ) (continued : Bool) (i : ℕ) :
    continuations (t.map blanked) run context turns continued i =
      continuations t run context turns continued i := by
  have right : ∀ word ∈ rightAssoc, Plain word := by decide
  induction turns generalizing continued i with
  | zero => rfl
  | succ turns ih =>
    simp (disch := decide) only [continuations, tokenAt_blanked, length_map, ne_eq,
      blanked_eq_iff, blanked_mem_iff right, infixRank_blanked, ih]

theorem namespaces_blanked (turns j : ℕ) :
    namespaces (t.map blanked) turns j = namespaces t turns j := by
  induction turns generalizing j with
  | zero => rfl
  | succ turns ih =>
    simp (disch := decide) only [namespaces, tokenAt_blanked, ne_eq, blanked_eq_iff, ih]

theorem elementsLoop_blanked (turns i : ℕ) :
    elementsLoop (t.map blanked) run turns i = elementsLoop t run turns i := by
  induction turns generalizing i with
  | zero => rfl
  | succ turns ih =>
    simp (disch := decide) only [elementsLoop, tokenAt_blanked, length_map, ne_eq,
      blanked_eq_iff, ih]

theorem clause_blanked {word : String} (plain : Plain (kw word)) (i : ℕ) :
    clause (t.map blanked) run word i = clause t run word i := by
  simp only [clause, tokenAt_blanked, blanked_eq_iff plain]

theorem comprehensionTail_blanked (opening i : ℕ) :
    comprehensionTail (t.map blanked) run opening i = comprehensionTail t run opening i := by
  simp (disch := decide) only [comprehensionTail, clause_blanked, past_blanked]

theorem argumentsLoop_blanked (turns i : ℕ) :
    argumentsLoop (t.map blanked) run turns i = argumentsLoop t run turns i := by
  induction turns generalizing i with
  | zero => rfl
  | succ turns ih =>
    simp (disch := decide) only [argumentsLoop, tokenAt_blanked, length_map, ne_eq,
      blanked_eq_iff, ih]

theorem whenLoop_blanked (turns i : ℕ) :
    whenLoop (t.map blanked) run turns i = whenLoop t run turns i := by
  induction turns generalizing i with
  | zero => rfl
  | succ turns ih =>
    simp (disch := decide) only [whenLoop, tokenAt_blanked, blanked_eq_iff, clause_blanked, ih]

theorem entriesLoop_blanked (turns i : ℕ) :
    entriesLoop (t.map blanked) run turns i = entriesLoop t run turns i := by
  induction turns generalizing i with
  | zero => rfl
  | succ turns ih =>
    simp (disch := decide) only [entriesLoop, tokenAt_blanked, length_map, ne_eq,
      blanked_eq_iff, clause_blanked, ih]

/-- No method tells a token from what `blanked` leaves of it. -/
theorem methods_blanked : methods letters (t.map blanked) run = methods letters t run := by
  have stops : ∀ word ∈ ends, Plain word := by decide
  have calls : ∀ word ∈ predicates, Plain word := by decide
  have items : items (t.map blanked) run = items t run := by
    funext i
    simp (disch := decide) only [items, itemsLoop_blanked, tokenAt_blanked, length_map,
      blanked_eq_iff]
  have patterns : patterns letters (t.map blanked) run = patterns letters t run := by
    funext i
    simp only [patterns, patternsLoop_blanked, length_map]
  have patternPart : patternPart (t.map blanked) run = patternPart t run := by
    funext i
    simp only [patternPart, patternPartLoop_blanked, past_blanked, closings_blanked, length_map]
  have pattern : pattern (t.map blanked) run = pattern t run := by
    funext i
    simp only [pattern, patternLoop_blanked, length_map]
  have expression : expression (t.map blanked) run = expression t run := by
    funext context i
    simp only [expression, continuations_blanked, tokenAt_blanked, blanked_mem_iff stops,
      length_map]
  have prefixed : prefixed (t.map blanked) run = prefixed t run := by
    funext i
    simp (disch := decide) only [prefixed, tokenAt_blanked, blanked_eq_iff]
  have atom : atom letters (t.map blanked) run = atom letters t run := by
    funext i
    simp (disch := decide) only [atom, namespaces_blanked, tokenAt_blanked, blanked_eq_iff,
      blanked_mem_iff calls, isName_blanked, length_map]
  have parenthesized : parenthesized (t.map blanked) run = parenthesized t run := by
    funext i
    have after : ∀ x, (blanked x = kw "-" ∨ blanked x = kw "<-" ∨ blanked x = kw "->") ↔
        (x = kw "-" ∨ x = kw "<-" ∨ x = kw "->") := fun x => by
      simp (disch := decide) only [blanked_eq_iff]
    simp only [parenthesized, closings_blanked, length_map, tokenAt_blanked, past_blanked]
    exact if_congr (after _) rfl rfl
  have bracketedList : bracketedList letters (t.map blanked) run = bracketedList letters t run := by
    funext i
    simp (disch := decide) only [bracketedList, elementsLoop_blanked, comprehensionTail_blanked,
      past_blanked, tokenAt_blanked, blanked_eq_iff, blanked_mem_iff stops, isName_blanked,
      length_map]
  have comprehensionBody : comprehensionBody (t.map blanked) run = comprehensionBody t run := by
    funext i
    simp (disch := decide) only [comprehensionBody, comprehensionTail_blanked, tokenAt_blanked,
      blanked_eq_iff]
  have call : call (t.map blanked) run = call t run := by
    funext i
    simp (disch := decide) only [call, argumentsLoop_blanked, past_blanked, tokenAt_blanked,
      blanked_eq_iff, length_map]
  have caseExpression : caseExpression (t.map blanked) run = caseExpression t run := by
    funext i
    simp (disch := decide) only [caseExpression, whenLoop_blanked, clause_blanked,
      tokenAt_blanked, ne_eq, blanked_eq_iff, length_map]
  have subscript : subscript (t.map blanked) run = subscript t run := by
    funext i
    simp (disch := decide) only [subscript, past_blanked, tokenAt_blanked, blanked_eq_iff]
  have mapLiteral : mapLiteral (t.map blanked) run = mapLiteral t run := by
    funext i
    simp only [mapLiteral, entriesLoop_blanked, past_blanked, length_map]
  rw [methods, methods, items, patterns, patternPart, pattern, expression, prefixed, atom,
    parenthesized, bracketedList, comprehensionBody, call, caseExpression, subscript, mapLiteral]

theorem nested_blanked (frames : ℕ) :
    nested letters (t.map blanked) frames = nested letters t frames := by
  induction frames with
  | zero => rfl
  | succ frames ih => rw [nested, nested, ih, methods_blanked]

theorem statementLoop_blanked (turns i : ℕ) :
    statementLoop (t.map blanked) run turns i = statementLoop t run turns i := by
  have conditions : ∀ word ∈ ["WHERE", "SKIP", "LIMIT", "UNWIND"].map kw, Plain word := by decide
  have projections : ∀ word ∈ ["WITH", "RETURN", "BY", "YIELD"].map kw, Plain word := by decide
  have matches_ : ∀ word ∈ ["MATCH", "MERGE", "CREATE"].map kw, Plain word := by decide
  induction turns generalizing i with
  | zero => rfl
  | succ turns ih =>
    simp only [statementLoop, tokenAt_blanked, length_map, blanked_mem_iff conditions,
      blanked_mem_iff projections, blanked_mem_iff matches_, ih]

/-- What literals and names in backticks say does not count. -/
theorem readerCost_blanked (frames : ℕ) :
    readerCost letters frames (t.map blanked) = readerCost letters frames t := by
  rw [readerCost, readerCost, nested_blanked, statementLoop_blanked, length_map]

end

section

variable (hash : Text → ℤ) (frames : ℕ)

def Remembers (asked : List Text) (costs : Dict ℤ ℕ) : Prop :=
  ∀ entry ∈ costs, ∃ text ∈ asked,
    entry = (hash (eraseLiterals letters text), readCost letters frames text)

variable {letters hash frames} {asked : List Text} {costs : Dict ℤ ℕ}

theorem Remembers.of_subset {kept : Dict ℤ ℕ}
    (remembers : Remembers letters hash frames asked costs) (subset : kept ⊆ costs) :
    Remembers letters hash frames asked kept :=
  fun entry member => remembers entry (subset member)

/-- What scans alike costs the same. -/
theorem readCost_congr {a b : Text}
    (alike : (scan letters a).map blanked = (scan letters b).map blanked) :
    readCost letters frames a = readCost letters frames b := by
  rw [readCost, readCost, ← readerCost_blanked, ← readerCost_blanked letters (scan letters b),
    alike]

/-- Asking about a text answers with its cost and remembers it, when the texts asked
about whose keys agree with its own scan alike. -/
theorem Remembers.ask (remembers : Remembers letters hash frames asked costs) {text : Text}
    (alike : ∀ other ∈ asked,
      hash (eraseLiterals letters other) = hash (eraseLiterals letters text) →
        (scan letters other).map blanked = (scan letters text).map blanked) :
    (parseCost letters hash frames costs text).1 = readCost letters frames text ∧
      Remembers letters hash frames (text :: asked)
        (parseCost letters hash frames costs text).2 := by
  have before : Remembers letters hash frames (text :: asked) costs := fun entry member => by
    obtain ⟨other, among, same⟩ := remembers entry member
    exact ⟨other, mem_cons_of_mem _ among, same⟩
  cases found : costs.get? (hash (eraseLiterals letters text)) with
  | some cost =>
    obtain ⟨other, among, same⟩ := remembers _ (Dict.mem_of_get? found)
    obtain ⟨key, rfl⟩ := Prod.mk.inj same
    have same : readCost letters frames other = readCost letters frames text :=
      readCost_congr (alike other among key.symm)
    simp only [parseCost, found]
    refine ⟨same, fun entry member => ?_⟩
    cases mem_append.mp member with
    | inl kept => exact before entry (mem_of_mem_filter kept)
    | inr last =>
      rw [mem_singleton.mp last, same]
      exact ⟨text, mem_cons_self, rfl⟩
  | none =>
    simp only [parseCost, found]
    have set : Remembers letters hash frames (text :: asked)
        (costs.set (hash (eraseLiterals letters text)) (readCost letters frames text)) := by
      intro entry member
      cases Dict.eq_or_mem_of_mem_set member with
      | inl new => exact ⟨text, mem_cons_self, new⟩
      | inr old => exact before entry old
    refine ⟨trivial, ?_⟩
    split
    · exact set.of_subset (tail_suffix _).subset
    · exact set

/-- Remembered costs are exact for texts that scan alike, up to what literals and names
in backticks say, wherever their keys agree. -/
theorem parseCosts_exact {texts : List Text} (apart : ∀ a ∈ texts, ∀ b ∈ texts,
      hash (eraseLiterals letters a) = hash (eraseLiterals letters b) →
        eraseLiterals letters a = eraseLiterals letters b)
    (alike : ∀ a ∈ texts, ∀ b ∈ texts, eraseLiterals letters a = eraseLiterals letters b →
      (scan letters a).map blanked = (scan letters b).map blanked) :
    parseCosts letters hash frames [] texts = texts.map (readCost letters frames) := by
  have step : ∀ rest costs asked, asked ⊆ texts → rest ⊆ texts →
      Remembers letters hash frames asked costs →
      parseCosts letters hash frames costs rest = rest.map (readCost letters frames) := by
    intro rest
    induction rest with
    | nil => intros; rfl
    | cons text rest ih =>
      intro costs asked before ahead remembers
      obtain ⟨here, later⟩ := cons_subset.mp ahead
      have answer := remembers.ask fun other among same =>
        alike other (before among) text here (apart other (before among) text here same)
      rw [parseCosts, map_cons, answer.1,
        ih _ (text :: asked) (cons_subset.mpr ⟨here, before⟩) later answer.2]
  exact step texts [] [] (nil_subset _) (Subset.refl _) nofun

/-- Statements that differ in what a literal says share an answer. -/
theorem parseCosts_exact_shared : parseCosts Letters.ascii (fun key => key.length) 100 []
        [kw "RETURN 'a'", kw "RETURN 'b'"] =
      [kw "RETURN 'a'", kw "RETURN 'b'"].map (readCost Letters.ascii 100) :=
  parseCosts_exact (by decide +kernel) (by decide +kernel)

/-- A comment with an apostrophe hides code from the key: the second text costs more
than twelve times the first and is answered with the first one's cost. -/
theorem parseCosts_hides_code :
    let cheap := kw "RETURN 1 // '\n+ 1 // '"
    let costly := kw "RETURN 1 // '\n+ NOT (NOT (1)) // '"
    let hash : Text → ℤ := fun key => key.foldl (fun n c => n * 1114112 + c.toNat) 1
    eraseLiterals Letters.ascii cheap = eraseLiterals Letters.ascii costly ∧
      readCost Letters.ascii 100 cheap = 6 ∧ readCost Letters.ascii 100 costly = 86 ∧
      parseCosts Letters.ascii hash 100 [] [cheap, costly] = [6, 6] := by
  decide +kernel

end

end DataViz.NativeQuery
