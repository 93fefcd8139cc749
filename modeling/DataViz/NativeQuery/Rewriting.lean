/-
# Writing conditions that are parsed once

The parser that `parse_cost` counts for reads an operand with no operator behind it twice, so
`operand` and `negated` put one there: `= true`, or `= false` in place of NOT. Whether an operator
already follows is decided on the tokens of the scan, which are in upper case, names among them.
-/

import DataViz.NativeQuery.ParseCost

namespace DataViz.NativeQuery

/-- What `_alone` looks for behind a NOT. -/
def joiners : List Text :=
  [kw "AND", kw "OR", kw "XOR"]

/-- The loop of `_alone` behind a NOT, which steps over brackets: one closes behind the place that
opened it. -/
def nothingJoins (closes : Dict ℕ ℕ) (tokens : List Text) (i : ℕ) : Bool :=
  if i < tokens.length then
    if tokenAt tokens i ∈ joiners then false
    else nothingJoins closes tokens (max i ((closes.get? i).getD i) + 1)
  else true
termination_by tokens.length - i

/-- How much deeper in CASEs a token leads. -/
def caseDepth (token : Text) : ℤ :=
  (if token = kw "CASE" then 1 else 0) - (if token = kw "END" then 1 else 0)

/-- The loop of `_alone` over a CASE: whether it stops at the last token. -/
def stopsLast (depth : ℤ) : List Text → Bool
  | [] => true
  | token :: tokens =>
    if depth + caseDepth token = 0 then tokens.isEmpty
    else stopsLast (depth + caseDepth token) tokens

variable (letters : Letters)

def alone : List Text → Option Bool
  | [] => none
  | first :: rest =>
    let tokens := first :: rest
    some <| if first = kw "NOT" then nothingJoins (closings tokens) tokens 1
      else if first = kw "CASE" then stopsLast 0 tokens
      else if isName letters first then
        if rest.head? = some (kw "(") then (closings tokens).get? 1 = some (tokens.length - 1)
        else rest.isEmpty
      else if first ∈ opensTokens then (closings tokens).get? 0 = some (tokens.length - 1)
      else rest.isEmpty

/-- `expr[expr.upper().index("NOT") + 3:].lstrip()`. -/
def behindNot (expr : Text) : Option Text :=
  (findEnd (kw "NOT") (letters.upperText expr)).map fun stop =>
    (expr.drop stop).dropWhile Number.isSpace

theorem findEnd_pos {c : Char} {sought text : Text} {n : ℕ}
    (found : findEnd (c :: sought) text = some n) : 0 < n := by
  induction text generalizing n with
  | nil => cases found
  | cons d text ih =>
    simp only [findEnd] at found
    split at found
    · cases found
      simp
    · obtain ⟨m, -, rfl⟩ := Option.map_eq_some_iff.mp found
      omega

theorem behindNot_shorter {expr rest : Text} (behind : behindNot letters expr = some rest) :
    rest.length < expr.length := by
  obtain ⟨stop, found, rfl⟩ := Option.map_eq_some_iff.mp behind
  have positive : 0 < stop := findEnd_pos found
  have ink : expr ≠ [] := by
    rintro rfl
    cases found
  have blanks : ((expr.drop stop).dropWhile Number.isSpace).length ≤ (expr.drop stop).length :=
    (List.dropWhile_suffix _).length_le
  have some_ : 0 < expr.length := List.length_pos_iff.mpr ink
  rw [List.length_drop] at blanks
  omega

mutual

def operand (expr : Text) : Option Text :=
  let tokens := scan letters expr
  if tokens.length < 2 then some expr
  else
    match alone letters tokens with
    | none => none
    | some false => some expr
    | some true =>
      if tokens.head? = some (kw "NOT") then
        match _ : behindNot letters expr with
        | none => none
        | some rest => negated rest
      else some (expr ++ kw " = true")
termination_by expr.length
decreasing_by exact behindNot_shorter letters ‹_›

def negated (expr : Text) : Option Text :=
  let tokens := scan letters expr
  if tokens.length = 1 then some (kw "NOT " ++ expr)
  else
    match alone letters tokens with
    | none => none
    | some false => some (kw "(" ++ expr ++ kw ") = false")
    | some true =>
      if tokens.head? = some (kw "NOT") then
        match _ : behindNot letters expr with
        | none => none
        | some rest => operand rest
      else some (expr ++ kw " = false")
termination_by expr.length
decreasing_by exact behindNot_shorter letters ‹_›

end

def grouped (expr : Text) : Text :=
  let tokens := scan letters expr
  if tokens.head? = some (kw "(") ∧ (closings tokens).get? 0 = some (tokens.length - 1) then expr
  else kw "(" ++ expr ++ kw ")"

end DataViz.NativeQuery
