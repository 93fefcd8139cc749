/-
# What a query costs to parse

`parse_cost` estimates the token reads of a parser that reads an operand with no
operator after it twice. It scans with one regular expression, which backtracks: a
comment nothing follows is given back and its end is read as tokens. Answers are
remembered by the text with its literals erased, and another regular expression
finds those.

How deep Python may nest calls is a parameter; a text that nests deeper is past
every budget.
-/

import DataViz.Data.Dict
import DataViz.NativeQuery.Lexer

namespace DataViz.NativeQuery

def kw (text : String) : Text :=
  text.toList

def maxParseCost : ℕ :=
  1000000

section

variable (letters : Letters)

/-- `'(?:[^'\\]|\\.)*(?:'|\Z)` past the opening quote. -/
def openString (quote : Char) : Text → Option ℕ
  | [] => some 0
  | '\\' :: [] => none
  | '\\' :: _ :: rest => (openString quote rest).map (· + 2)
  | c :: rest => if c = quote then some 1 else (openString quote rest).map (· + 1)

def openBacktick : Text → ℕ
  | [] => 0
  | '`' :: '`' :: rest => openBacktick rest + 2
  | c :: rest => if c = '`' then 1 else openBacktick rest + 1

/-- `\d+(?:\.\d+)?(?:[eE][+-]?\d+)?\w*` past the whole digits. -/
def numberTail (text : Text) : ℕ :=
  let fraction := match text with
    | '.' :: d :: rest => if isDecimal d then 1 + runLength isDecimal (d :: rest) else 0
    | _ => 0
  let exponent := match text.drop fraction with
    | c :: rest =>
      if c = 'e' ∨ c = 'E' then
        let sign := if rest.head? = some '+' ∨ rest.head? = some '-' then 1 else 0
        let digits := runLength isDecimal (rest.drop sign)
        if digits = 0 then 0 else 1 + sign + digits
      else 0
    | [] => 0
  fraction + exponent + runLength (isWordChar letters) (text.drop (fraction + exponent))

/-- How long the token is that starts with `c`: the group of `_TOKEN`. -/
def tokenLength (c : Char) (rest : Text) : ℕ :=
  match if c = '\'' ∨ c = '"' then openString c rest else none with
  | some n => 1 + n
  | none =>
    if c = '`' then 1 + openBacktick rest
    else if c = '$' then
      if rest.head? = some '`' then 2 + openBacktick (rest.drop 1)
      else 1 + runLength (isWordChar letters) rest
    else if isDecimal c then
      runLength isDecimal (c :: rest) +
        numberTail letters ((c :: rest).drop (runLength isDecimal (c :: rest)))
    else if c = '.' ∧ (rest.head?.map isDecimal).getD false then
      2 + runLength (isWordChar letters) (rest.drop 1)
    else if isWordChar letters c then runLength (isWordChar letters) (c :: rest)
    else
      match ops.find? (·.isPrefixOf (c :: rest)) with
      | some op => op.length
      | none => 1

/-- Whether anything but blanks is left. -/
def anyInk (text : Text) : Bool :=
  text.any fun c => !Number.isSpace c

/-- The last place of a text with something but blanks from there on. -/
def lastInk : Text → Option Text
  | [] => none
  | c :: rest =>
    match lastInk rest with
    | some found => some found
    | none => if Number.isSpace c then none else some (c :: rest)

theorem length_lastInk {text found : Text} (last : lastInk text = some found) :
    found.length ≤ text.length := by
  induction text with
  | nil => cases last
  | cons c rest ih =>
    simp only [lastInk] at last
    cases inner : lastInk rest with
    | some deeper =>
      rw [inner] at last
      cases last
      exact Nat.le_succ_of_le (ih inner)
    | none =>
      rw [inner] at last
      dsimp only at last
      split at last
      · cases last
      · cases last
        exact Nat.le_refl _

/-- Where the next token starts, past blanks and comments. A comment with only blanks
behind it is given back: of a `//` comment its last character is read as a token, or
its slashes when it says nothing, and a block comment is read as tokens from its
slash on. -/
def nextToken : Text → Option Text
  | [] => none
  | c :: rest =>
    if Number.isSpace c then nextToken rest
    else if ['/', '/'].isPrefixOf (c :: rest) then
      let line := runLength (· ≠ '\n') (c :: rest)
      if anyInk ((c :: rest).drop line) then nextToken ((c :: rest).drop (line + 1))
      else (lastInk (rest.drop 1)).getD (c :: rest)
    else if ['/', '*'].isPrefixOf (c :: rest) then
      match findEnd ['*', '/'] (rest.drop 1) with
      | some n =>
        if anyInk (rest.drop (1 + n)) then nextToken (rest.drop (1 + n)) else c :: rest
      | none => c :: rest
    else c :: rest
termination_by text => text.length
decreasing_by all_goals simp only [List.length_drop, List.length_cons]; omega

theorem length_nextToken {text found : Text} (next : nextToken text = some found) :
    found.length ≤ text.length := by
  fun_induction nextToken text with
  | case1 => cases next
  | case2 c rest _ ih => exact Nat.le_succ_of_le (ih next)
  | case3 c rest _ _ line _ ih =>
    have shorter := ih next
    rw [List.length_drop] at shorter
    omega
  | case4 c rest =>
    cases last : lastInk (rest.drop 1) with
    | none =>
      rw [last] at next
      cases next
      exact Nat.le_refl _
    | some inner =>
      rw [last] at next
      cases next
      have shorter := length_lastInk last
      rw [List.length_drop] at shorter
      rw [Option.getD_some, List.length_cons]
      omega
  | case5 c rest _ _ _ n _ _ ih =>
    have shorter := ih next
    rw [List.length_drop] at shorter
    simp only [List.length_cons]
    omega
  | case6 => cases next; exact Nat.le_refl _
  | case7 => cases next; exact Nat.le_refl _
  | case8 => cases next; exact Nat.le_refl _

def scanTokens (text : Text) : List Text :=
  match _ : nextToken text with
  | none => []
  | some [] => []
  | some (c :: rest) =>
    (c :: rest).take (tokenLength letters c rest) ::
      scanTokens (rest.drop (tokenLength letters c rest - 1))
termination_by text.length
decreasing_by
  have shorter := length_nextToken ‹_›
  rw [List.length_cons] at shorter
  rw [List.length_drop]
  omega

def scan (text : Text) : List Text :=
  scanTokens letters (letters.upperText text)

end

def infixRank : List (Text × ℕ) :=
  [(kw "OR", 1), (kw "XOR", 2), (kw "AND", 3), (kw "=", 5), (kw "<>", 5), (kw "!=", 5),
    (kw "<", 6), (kw ">", 6), (kw "<=", 6), (kw ">=", 6), (kw "+", 7), (kw "-", 7), (kw "*", 8),
    (kw "/", 8), (kw "%", 8), (kw "^", 9), (kw "=~", 11), (kw "IN", 11), (kw "CONTAINS", 11),
    (kw "STARTS", 11), (kw "ENDS", 11)]

def rightAssoc : List Text :=
  [kw "^"]

def ends : List Text :=
  ["AS", "WHERE", "WHEN", "THEN", "ELSE", "END", "ASC", "ASCENDING", "DESC", "DESCENDING",
    "ORDER", "SKIP", "LIMIT", "UNION", "MATCH", "OPTIONAL", "WITH", "RETURN", "UNWIND", "CALL",
    "YIELD", "CREATE", "MERGE", "SET", "DELETE", "DETACH", "REMOVE", "FOREACH", "ON", "BY",
    "DISTINCT", ",", ")", "]", "\x7d", "|", ";", ".."].map kw

def predicates : List Text :=
  ["ANY", "ALL", "NONE", "SINGLE", "FILTER", "EXTRACT", "REDUCE"].map kw

def opensTokens : List Text :=
  [['('], ['['], ['{']]

def closesTokens : List Text :=
  [[')'], [']'], ['}']]

def arrows : List Text :=
  ["-", "->", "<-", "<", ">"].map kw

def orderWords : List Text :=
  ["ASC", "ASCENDING", "DESC", "DESCENDING"].map kw

def isName (letters : Letters) : Text → Bool
  | c :: _ => letters.isAlpha c || c = '_' || c = '`'
  | [] => false

/-- `_closings` from the token numbered `i` on, with the brackets open before it. -/
def closingsFrom : ℕ → List ℕ → List Text → Dict ℕ ℕ
  | _, _, [] => []
  | i, opened, token :: tokens =>
    if token ∈ opensTokens then closingsFrom (i + 1) (i :: opened) tokens
    else
      match opened with
      | opening :: rest =>
        if token ∈ closesTokens then
          (closingsFrom (i + 1) rest tokens).set opening i
        else closingsFrom (i + 1) opened tokens
      | [] => closingsFrom (i + 1) opened tokens

def closings (tokens : List Text) : Dict ℕ ℕ :=
  closingsFrom 0 [] tokens

/-- A cost and the position it was read up to. A reading past Python's recursion
limit has none. -/
abbrev Reading := Option (ℕ × ℕ)

/-- The methods of `_Reader` that call each other, from a position. -/
structure Methods where
  items : ℕ → Reading
  patterns : ℕ → Reading
  patternPart : ℕ → Reading
  pattern : ℕ → Reading
  expression : ℕ → ℕ → Reading
  prefixed : ℕ → Reading
  atom : ℕ → Reading
  parenthesized : ℕ → Reading
  bracketedList : ℕ → Reading
  comprehensionBody : ℕ → Reading
  call : ℕ → Reading
  case : ℕ → Reading
  subscript : ℕ → Reading
  mapLiteral : ℕ → Reading

def Methods.none : Methods where
  items _ := Option.none
  patterns _ := Option.none
  patternPart _ := Option.none
  pattern _ := Option.none
  expression _ _ := Option.none
  prefixed _ := Option.none
  atom _ := Option.none
  parenthesized _ := Option.none
  bracketedList _ := Option.none
  comprehensionBody _ := Option.none
  call _ := Option.none
  case _ := Option.none
  subscript _ := Option.none
  mapLiteral _ := Option.none

section

variable (letters : Letters) (t : List Text)

/-- `_Reader.at`: the token at a place, empty past the end. -/
def tokenAt (j : ℕ) : Text :=
  t[j]?.getD []

def past (opening i : ℕ) : ℕ × ℕ :=
  let stop := ((closings t).get? opening).getD (t.length - 1) + 1
  (stop - i, max i stop)

variable (run : Methods)

/-! A loop takes at most one turn for each token, and one more: a turn that is not the
last one moves on. The number of turns left stands first. -/

def itemsLoop : ℕ → ℕ → Reading
  | 0, i => some (0, i)
  | turns + 1, i =>
    if i < t.length then do
      let (item, i) ← if tokenAt t i = kw "*" then some (1, i + 1) else run.expression 0 i
      let (named, i) := if tokenAt t i = kw "AS" then (2, i + 2) else (0, i)
      let (order, i) := if tokenAt t i ∈ orderWords then (1, i + 1) else (0, i)
      if tokenAt t i ≠ kw "," then
        some (item + named + order, i)
      else
        let (more, i) ← itemsLoop turns (i + 1)
        some (item + named + order + 1 + more, i)
    else some (0, i)

def items (i : ℕ) : Reading := do
  let (cost, i) := if tokenAt t i = kw "DISTINCT" then (1, i + 1) else (0, i)
  let (more, i) ← itemsLoop t run (t.length + 1) i
  some (cost + more, i)

def patternsLoop : ℕ → ℕ → Reading
  | 0, i => some (0, i)
  | turns + 1, i =>
    if i < t.length then do
      let (named, i) :=
        if tokenAt t (i + 1) = kw "=" ∧ isName letters (tokenAt t i) then (2, i + 2) else (0, i)
      let (part, i) ← run.pattern i
      if tokenAt t i ≠ kw "," then
        some (named + part, i)
      else
        let (more, i) ← patternsLoop turns (i + 1)
        some (named + part + 1 + more, i)
    else some (0, i)

def patterns (i : ℕ) : Reading :=
  patternsLoop letters t run (t.length + 1) i

def patternLoop : ℕ → ℕ → Reading
  | 0, i => some (0, i)
  | turns + 1, i =>
    if i < t.length then
      if tokenAt t i = kw "(" ∨ tokenAt t i = kw "[" then do
        let (part, i) ← run.patternPart i
        let (more, i) ← patternLoop turns i
        some (part + more, i)
      else if tokenAt t i ∈ arrows then do
        let (more, i) ← patternLoop turns (i + 1)
        some (1 + more, i)
      else if (tokenAt t i = kw "SHORTESTPATH" ∨ tokenAt t i = kw "ALLSHORTESTPATHS") ∧
          tokenAt t (i + 1) = kw "(" then do
        let (part, i) ← run.patternPart (i + 1)
        let (more, i) ← patternLoop turns i
        some (1 + part + more, i)
      else some (0, i)
    else some (0, i)

def pattern (i : ℕ) : Reading :=
  patternLoop t run (t.length + 1) i

def patternPartLoop (stop : ℕ) : ℕ → ℕ → Reading
  | 0, i => some (0, i)
  | turns + 1, i =>
    if i < stop then
      if tokenAt t i = ['{'] then do
        let (map, i) ← run.mapLiteral i
        let (more, i) ← patternPartLoop stop turns i
        some (map + more, i)
      else if tokenAt t i = kw "(" ∨ tokenAt t i = kw "[" then do
        let (part, i) ← run.patternPart i
        let (more, i) ← patternPartLoop stop turns i
        some (part + more, i)
      else do
        let (more, i) ← patternPartLoop stop turns (i + 1)
        some (1 + more, i)
    else some (0, i)

def patternPart (opening : ℕ) : Reading := do
  let stop := ((closings t).get? opening).getD (t.length - 1)
  let (parts, i) ← patternPartLoop t run stop (t.length + 1) (opening + 1)
  let (closing, i) := past t opening i
  some (1 + parts + closing, i)

/-- The loop of `expression`: the cost of the continuations, and whether there is one. -/
def continuations (context : ℕ) : ℕ → Bool → ℕ → Option (ℕ × Bool × ℕ)
  | 0, continued, i => some (0, continued, i)
  | turns + 1, continued, i =>
    if i < t.length then
      if tokenAt t i = kw "." ∧ context ≤ 13 then do
        let (more, continued, i) ← continuations context turns true (i + 2)
        some (2 + more, continued, i)
      else if tokenAt t i = kw ":" ∧ context ≤ 13 ∧ tokenAt t (i + 1) ≠ kw ":" then do
        let (more, continued, i) ← continuations context turns true (i + 2)
        some (2 + more, continued, i)
      else if tokenAt t i = kw "[" ∧ context ≤ 12 then do
        let (index, i) ← run.subscript i
        let (more, continued, i) ← continuations context turns true i
        some (index + more, continued, i)
      else if tokenAt t i = kw "IS" ∧ context ≤ 11 then do
        let i := if tokenAt t (i + 1) = kw "NOT" then i + 3 else i + 2
        let (more, continued, i) ← continuations context turns true i
        some (3 + more, continued, i)
      else
        match Dict.get? infixRank (tokenAt t i) with
        | none => some (0, continued, i)
        | some rank =>
          if rank < context then some (0, continued, i)
          else do
            let after :=
              if tokenAt t i = kw "STARTS" ∨ tokenAt t i = kw "ENDS" then i + 2 else i + 1
            let inner := if tokenAt t i ∈ rightAssoc then rank else rank + 1
            let (right, i) ← run.expression inner after
            let (more, continued, i) ← continuations context turns true i
            some (1 + right + more, continued, i)
    else some (0, continued, i)

/-- `_Reader.expression`: with no continuation, the atom is read a second time. -/
def expression (context i : ℕ) : Reading :=
  if t.length ≤ i ∨ tokenAt t i ∈ ends then some (0, i)
  else do
    let (atom, i) ← run.prefixed i
    let (extra, continued, i) ← continuations t run context (t.length + 1) false i
    some (if continued then atom + extra else 2 * atom + extra, i)

def prefixed (i : ℕ) : Reading :=
  if tokenAt t i = kw "NOT" then do
    let (inner, i) ← run.expression 4 (i + 1)
    some (1 + inner, i)
  else if tokenAt t i = kw "-" ∨ tokenAt t i = kw "+" then do
    let (inner, i) ← run.expression 10 (i + 1)
    some (1 + inner, i)
  else run.atom i

/-- How far the names of a namespaced function reach past the first one. -/
def namespaces : ℕ → ℕ → ℕ
  | 0, j => j
  | turns + 1, j =>
    if tokenAt t (j + 1) = kw "." ∧ tokenAt t (j + 2) ≠ [] then namespaces turns (j + 2) else j

def atom (i : ℕ) : Reading :=
  if tokenAt t i = kw "(" then run.parenthesized i
  else if tokenAt t i = kw "[" then run.bracketedList i
  else if tokenAt t i = ['{'] then run.mapLiteral i
  else if tokenAt t i = kw "CASE" then run.case i
  else if tokenAt t i ∈ predicates ∧ tokenAt t (i + 1) = kw "(" then do
    let (body, i) ← run.comprehensionBody (i + 1)
    some (1 + body, i)
  else if isName letters (tokenAt t i) ∧
      tokenAt t (namespaces t (t.length + 1) i + 1) = kw "(" then do
    let last := namespaces t (t.length + 1) i
    let (arguments, j) ← run.call (last + 1)
    some (last - i + 1 + arguments, j)
  else some (1, i + 1)

def parenthesized (opening : ℕ) : Reading :=
  let after := tokenAt t (((closings t).get? opening).getD t.length + 1)
  if after = kw "-" ∨ after = kw "<-" ∨ after = kw "->" then run.pattern opening
  else do
    let (inner, i) ← run.expression 0 (opening + 1)
    let (closing, i) := past t opening i
    some (1 + inner + closing, i)

/-- The loop of `bracketed_list` over a list's elements. -/
def elementsLoop : ℕ → ℕ → Reading
  | 0, i => some (0, i)
  | turns + 1, i =>
    if i < t.length then do
      let (element, i) ← run.expression 0 i
      if tokenAt t i ≠ kw "," then
        some (element, i)
      else
        let (more, i) ← elementsLoop turns (i + 1)
        some (element + 1 + more, i)
    else some (0, i)

/-- What follows a word such as `WHERE`, when it is there. -/
def clause (word : String) (i : ℕ) : Reading :=
  if tokenAt t i = kw word then do
    let (inner, i) ← run.expression 0 (i + 1)
    some (1 + inner, i)
  else some (0, i)

/-- The tail comprehensions share: `WHERE`, `|` and the closing bracket. -/
def comprehensionTail (opening i : ℕ) : Reading := do
  let (filter, i) ← clause t run "WHERE" i
  let (value, i) ← clause t run "|" i
  let (closing, i) := past t opening i
  some (filter + value + closing, i)

def bracketedList (opening : ℕ) : Reading :=
  let i := opening + 1
  let named := tokenAt t (i + 1) = kw "=" ∧ isName letters (tokenAt t i)
  if tokenAt t (i + 1) = kw "IN" ∧ tokenAt t i ∉ ends then do
    let (list, i) ← run.expression 0 (i + 2)
    let (tail, i) ← comprehensionTail t run opening i
    some (1 + 2 + list + tail, i)
  else if named ∨ tokenAt t i = kw "(" then do
    let (name, i) := if named then (2, i + 2) else (0, i)
    let (path, i) ← run.pattern i
    let (tail, i) ← comprehensionTail t run opening i
    some (1 + name + path + tail, i)
  else do
    let (elements, i) ← elementsLoop t run (t.length + 1) i
    let (closing, i) := past t opening i
    some (1 + elements + closing, i)

def comprehensionBody (opening : ℕ) : Reading := do
  let i := opening + 1
  let (start, i) ← if tokenAt t (i + 1) = kw "=" then do
      let (initial, i) ← run.expression 0 (i + 2)
      if tokenAt t i = kw "," then some (2 + initial + 1, i + 1) else some (2 + initial, i)
    else some (0, i)
  let (list, i) ← if tokenAt t (i + 1) = kw "IN" then do
      let (list, i) ← run.expression 0 (i + 2)
      some (2 + list, i)
    else some (0, i)
  let (tail, i) ← comprehensionTail t run opening i
  some (1 + start + list + tail, i)

def argumentsLoop : ℕ → ℕ → Reading
  | 0, i => some (0, i)
  | turns + 1, i =>
    if i < t.length ∧ tokenAt t i ≠ kw ")" then do
      let (argument, i) ← if tokenAt t i = kw "*" then some (1, i + 1) else run.expression 0 i
      if tokenAt t i ≠ kw "," then
        some (argument, i)
      else
        let (more, i) ← argumentsLoop turns (i + 1)
        some (argument + 1 + more, i)
    else some (0, i)

def call (opening : ℕ) : Reading := do
  let i := opening + 1
  let (distinct, i) := if tokenAt t i = kw "DISTINCT" then (1, i + 1) else (0, i)
  let (arguments, i) ← argumentsLoop t run (t.length + 1) i
  let (closing, i) := past t opening i
  some (1 + distinct + arguments + closing, i)

def whenLoop : ℕ → ℕ → Reading
  | 0, i => some (0, i)
  | turns + 1, i =>
    if tokenAt t i = kw "WHEN" then do
      let (test, i) ← run.expression 0 (i + 1)
      let (value, i) ← clause t run "THEN" i
      let (more, i) ← whenLoop turns i
      some (1 + test + value + more, i)
    else some (0, i)

def caseExpression (i : ℕ) : Reading := do
  let i := i + 1
  let (subject, i) ← if tokenAt t i ≠ kw "WHEN" then run.expression 0 i else some (0, i)
  let (branches, i) ← whenLoop t run (t.length + 1) i
  let (otherwise, i) ← clause t run "ELSE" i
  let (closing, i) := if tokenAt t i = kw "END" then (1, i + 1) else (0, i)
  some (1 + subject + branches + otherwise + closing, i)

def subscript (opening : ℕ) : Reading := do
  let (start, i) ← run.expression 0 (opening + 1)
  let (slice, i) ← if tokenAt t i = kw ".." then do
      let (stop, i) ← run.expression 0 (i + 1)
      some (start + 1 + stop, i)
    else some (0, i)
  let (closing, i) := past t opening i
  some (1 + start + slice + closing, i)

/-- The loop of `map_literal`. -/
def entriesLoop : ℕ → ℕ → Reading
  | 0, i => some (0, i)
  | turns + 1, i =>
    if i < t.length ∧ tokenAt t i ≠ ['}'] then do
      let (value, i) ← clause t run ":" (i + 1)
      if tokenAt t i ≠ kw "," then
        some (1 + value, i)
      else
        let (more, i) ← entriesLoop turns (i + 1)
        some (1 + value + 1 + more, i)
    else some (0, i)

def mapLiteral (opening : ℕ) : Reading := do
  let (entries, i) ← entriesLoop t run (t.length + 1) (opening + 1)
  let (closing, i) := past t opening i
  some (1 + entries + closing, i)

/-- The methods whose calls are those of `run`. -/
def methods : Methods where
  items := items t run
  patterns := patterns letters t run
  patternPart := patternPart t run
  pattern := pattern t run
  expression := expression t run
  prefixed := prefixed t run
  atom := atom letters t run
  parenthesized := parenthesized t run
  bracketedList := bracketedList letters t run
  comprehensionBody := comprehensionBody t run
  call := call t run
  case := caseExpression t run
  subscript := subscript t run
  mapLiteral := mapLiteral t run

def nested : ℕ → Methods
  | 0 => Methods.none
  | frames + 1 => methods letters t (nested frames)

def statementLoop : ℕ → ℕ → Reading
  | 0, i => some (0, i)
  | turns + 1, i =>
    if i < t.length then do
      let (part, i) ← if tokenAt t i ∈ ["WHERE", "SKIP", "LIMIT", "UNWIND"].map kw then do
          let (inner, i) ← run.expression 0 (i + 1)
          some (1 + inner, i)
        else if tokenAt t i ∈ ["WITH", "RETURN", "BY", "YIELD"].map kw then do
          let (inner, i) ← run.items (i + 1)
          some (1 + inner, i)
        else if tokenAt t i ∈ ["MATCH", "MERGE", "CREATE"].map kw then do
          let (inner, i) ← run.patterns (i + 1)
          some (1 + inner, i)
        else some (1, i + 1)
      let (more, i) ← statementLoop turns i
      some (part + more, i)
    else some (0, i)

end

/-- `_Reader(tokens).statement()`, with so many nested calls left for the methods. -/
def readerCost (letters : Letters) (frames : ℕ) (tokens : List Text) : Option ℕ :=
  (statementLoop tokens (nested letters tokens frames) (tokens.length + 1) 0).map Prod.fst

section

variable (letters : Letters)

/-- `` `(?:[^`]|``)*` `` past the opening backtick: when the last pair of backticks
leaves nothing to close with, its first one closes. -/
def closedBacktick : Text → Option ℕ
  | [] => none
  | '`' :: '`' :: rest => some <| match closedBacktick rest with
      | some n => n + 2
      | none => 1
  | c :: rest => if c = '`' then some 1 else (closedBacktick rest).map (· + 1)

/-- `'(?:[^'\\]|\\.)*'` past the opening quote. A backslash takes no line break with it. -/
def closedString (quote : Char) : Text → Option ℕ
  | [] => none
  | '\\' :: [] => none
  | '\\' :: c :: rest => if c = '\n' then none else (closedString quote rest).map (· + 2)
  | c :: rest => if c = quote then some 1 else (closedString quote rest).map (· + 1)

/-- How long the literal is that `_LITERALS` finds at `c`. -/
def literalLength (c : Char) (rest : Text) : Option ℕ :=
  if c = '`' then (closedBacktick rest).map (1 + ·)
  else if c = '\'' ∨ c = '"' then (closedString c rest).map (1 + ·)
  else if c = '$' then
    let name := runLength (isWordChar letters) rest
    if name = 0 then none else some (1 + name)
  else none

def eraseLiterals : Text → Text
  | [] => []
  | c :: rest =>
    match literalLength letters c rest with
    | some n => '_' :: eraseLiterals (rest.drop (n - 1))
    | none => c :: eraseLiterals rest
termination_by text => text.length
decreasing_by all_goals simp only [List.length_drop, List.length_cons]; omega

/-- What `_Reader` computes for a text, past every budget when it nests too deep. -/
def readCost (frames : ℕ) (text : Text) : ℕ :=
  (readerCost letters frames (scan letters text)).getD (maxParseCost + 1)

/-- `parse_cost`, with `_COSTS` before and after it, the oldest entry first. -/
def parseCost (hash : Text → ℤ) (frames : ℕ) (costs : Dict ℤ ℕ) (text : Text) : ℕ × Dict ℤ ℕ :=
  let key := hash (eraseLiterals letters text)
  match costs.get? key with
  | some cost => (cost, costs.pop key ++ [(key, cost)])
  | none =>
    let cost := readCost letters frames text
    let kept := costs.set key cost
    (cost, if 4096 < kept.length then kept.tail else kept)

def parseCosts (hash : Text → ℤ) (frames : ℕ) : Dict ℤ ℕ → List Text → List ℕ
  | _, [] => []
  | costs, text :: texts =>
    (parseCost letters hash frames costs text).1 ::
      parseCosts hash frames (parseCost letters hash frames costs text).2 texts

end

end DataViz.NativeQuery
