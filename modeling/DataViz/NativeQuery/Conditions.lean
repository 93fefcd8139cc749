/-
# What a condition means

A condition of Cypher says of a row that it holds, that it does not, or neither. Its words are read
one by one on a stack: a bracket and a CASE open a frame that their end closes into one operand, and
behind a dot any name is a property, a keyword too. What is left in a frame is flat, and is taken
apart by precedence: OR, XOR, AND, NOT, then the comparisons. Variables, properties, calls and what
other values compare to are the row's.
-/

import DataViz.Data.Truth
import DataViz.NativeQuery.ParseCost

namespace DataViz.NativeQuery

/-- A value of a row: a truth value, null among them, or anything else. -/
inductive Value (α : Type*)
  | truth (t : Truth)
  | other (a : α)

/-- What the words of a condition stand for in a row. -/
structure Env (α : Type*) where
  /-- A variable, a parameter or a literal, by its spelling. -/
  lookup : Text → Value α
  property : Value α → Text → Option (Value α)
  call : List Text → List (Value α) → Option (Value α)
  /-- A comparison, but for that of two truth values by `=`. -/
  compare : Text → Value α → Value α → Option (Value α)

/-- What an expression is worth in each row; nothing where it fails. -/
abbrev Meaning (α : Type*) := Env α → Option (Value α)

local instance lawfulText : LawfulBEq Text := inferInstance

variable {α : Type*}

/-- Both truth values known and different. -/
def unlike : Truth → Truth → Truth
  | some a, some b => some (a != b)
  | _, _ => none

def alike (a b : Truth) : Truth :=
  (unlike a b).not

namespace Meaning

def truth (t : Truth) : Meaning α :=
  fun _ => some (.truth t)

def not (m : Meaning α) : Meaning α := fun env =>
  match m env with
  | some (.truth t) => some (.truth t.not)
  | _ => none

def connect (f : Truth → Truth → Truth) (m n : Meaning α) : Meaning α := fun env =>
  match m env, n env with
  | some (.truth a), some (.truth b) => some (.truth (f a b))
  | _, _ => none

def comparison (op : Text) (env : Env α) : Value α → Value α → Option (Value α)
  | .truth a, .truth b =>
    if op = kw "=" then some (.truth (alike a b)) else env.compare op (.truth a) (.truth b)
  | a, b => env.compare op a b

def compare (op : Text) (m n : Meaning α) : Meaning α := fun env => do
  comparison op env (← m env) (← n env)

def null (expected : Bool) (m : Meaning α) : Meaning α := fun env => do
  match ← m env with
  | .truth none => some (.truth (some expected))
  | _ => some (.truth (some !expected))

def property (name : Text) (m : Meaning α) : Meaning α := fun env => do
  env.property (← m env) name

def call (path : List Text) (args : List (Meaning α)) : Meaning α := fun env => do
  env.call path (← args.mapM fun m => m env)

/-- CASE: the first branch whose condition holds or, with a subject, whose value equals it. -/
def case (subject : Option (Meaning α)) (branches : List (Meaning α × Meaning α))
    (default_ : Meaning α) : Meaning α :=
  branches.foldr (fun branch otherwise env => do
      match ← subject.elim branch.1 (fun m => compare (kw "=") m branch.1) env with
      | .truth (some true) => branch.2 env
      | _ => otherwise env)
    default_

end Meaning

/-- What a frame holds: operands that are done, names, what is read of the item before, and the
other words in upper case. -/
inductive Item (α : Type*)
  | operand (m : Meaning α)
  | name (w : Text)
  | property (w : Text)
  | word (w : Text)

def Item.meaning? : Item α → Option (Meaning α)
  | .operand m => some m
  | .name w => some fun env => some (env.lookup w)
  | .property _ => none
  | .word w =>
    if w = kw "TRUE" then some (.truth (some true))
    else if w = kw "FALSE" then some (.truth (some false))
    else if w = kw "NULL" then some (.truth none)
    else none

def Item.reads? : Item α → Option (Meaning α → Meaning α)
  | .property w => some (.property w)
  | _ => none

def segments {ι κ : Type*} (separator : ι → Option κ) : List ι → List ι × List (κ × List ι)
  | [] => ([], [])
  | item :: items =>
    match separator item with
    | some k => ([], (k, (segments separator items).1) :: (segments separator items).2)
    | none => (item :: (segments separator items).1, (segments separator items).2)

/-- What an operator makes of what is before it, given the items up to the next operator. -/
abbrev Operator (α : Type*) := Item α → Option (List (Item α) → Option (Meaning α → Meaning α))

def leftToRight (operator : Operator α) (next : List (Item α) → Option (Meaning α))
    (items : List (Item α)) : Option (Meaning α) := do
  let first ← next (segments operator items).1
  (segments operator items).2.foldlM (fun left part => (part.1 part.2).map fun f => f left) first

def connective (w : Text) (f : Truth → Truth → Truth)
    (next : List (Item α) → Option (Meaning α)) : Operator α
  | .word v => if v = w then some fun right => (next right).map fun n m => .connect f m n else none
  | _ => none

def comparisons (ops : List Text) (next : List (Item α) → Option (Meaning α)) : Operator α
  | .word v =>
    if v ∈ ops then some fun right => (next right).map fun n m => .compare v m n else none
  | _ => none

def primary : List (Item α) → Option (Meaning α)
  | [] => none
  | head :: reads => do
    reads.foldlM (fun m read => read.reads?.map fun f => f m) (← head.meaning?)

def nullTest : List (Item α) → Option (Meaning α → Meaning α)
  | [.word w] => if w = kw "NULL" then some (.null true) else none
  | [.word v, .word w] => if v = kw "NOT" ∧ w = kw "NULL" then some (.null false) else none
  | _ => none

/-- What stands behind STARTS and ENDS. -/
def withTest (op : Text) : List (Item α) → Option (Meaning α → Meaning α)
  | .word w :: right =>
    if w = kw "WITH" then (primary right).map fun n m => .compare op m n else none
  | _ => none

def tightest : Operator α
  | .word v =>
    if v ∈ [kw "=~", kw "IN", kw "CONTAINS"] then
      some fun right => (primary right).map fun n m => .compare v m n
    else if v ∈ [kw "STARTS", kw "ENDS"] then some (withTest v)
    else if v = kw "IS" then some nullTest
    else none
  | _ => none

/-- Rank 11 of `_INFIX`. -/
def matched : List (Item α) → Option (Meaning α) :=
  leftToRight tightest primary

/-- Rank 6 of `_INFIX`. -/
def related : List (Item α) → Option (Meaning α) :=
  leftToRight (comparisons [kw "<", kw ">", kw "<=", kw ">="] matched) matched

/-- Rank 5 of `_INFIX`. -/
def equated : List (Item α) → Option (Meaning α) :=
  leftToRight (comparisons [kw "=", kw "<>", kw "!="] related) related

/-- NOT, before anything that binds tighter. -/
def negation : List (Item α) → Option (Meaning α)
  | .word w :: items =>
    if w = kw "NOT" then (negation items).map .not else equated (.word w :: items)
  | items => equated items

/-- Rank 3 of `_INFIX`. -/
def conjunction : List (Item α) → Option (Meaning α) :=
  leftToRight (connective (kw "AND") Truth.and negation) negation

/-- Rank 2 of `_INFIX`. -/
def exclusion : List (Item α) → Option (Meaning α) :=
  leftToRight (connective (kw "XOR") unlike conjunction) conjunction

/-- A flat expression; rank 1 of `_INFIX` comes last. -/
def disjunction : List (Item α) → Option (Meaning α) :=
  leftToRight (connective (kw "OR") Truth.or exclusion) exclusion

def isWord (words : List Text) : Item α → Option Text
  | .word w => if w ∈ words then some w else none
  | _ => none

def arguments : List (Item α) → Option (List (Meaning α))
  | [] => some []
  | items =>
    ((segments (isWord [kw ","]) items).1 ::
      (segments (isWord [kw ","]) items).2.map Prod.snd).mapM disjunction

/-- The branches of a CASE and what stands behind its ELSE. -/
def branches : List (Text × List (Item α)) → Option (List (Meaning α × Meaning α) × Meaning α)
  | [] => some ([], .truth none)
  | [(w, items)] => if w = kw "ELSE" then (disjunction items).map fun m => ([], m) else none
  | (v, condition) :: (w, result) :: rest =>
    if v = kw "WHEN" ∧ w = kw "THEN" then do
      let test ← disjunction condition
      let value ← disjunction result
      (branches rest).map fun parts => ((test, value) :: parts.1, parts.2)
    else none

def caseOf (items : List (Item α)) : Option (Meaning α) := do
  let parts := segments (isWord [kw "WHEN", kw "THEN", kw "ELSE"]) items
  let subject ← match parts.1 with
    | [] => some none
    | subject => (disjunction subject).map some
  let (tests, default_) ← branches parts.2
  if tests = [] then none else some (.case subject tests default_)

/-- The name of a function, read before its bracket, newest item first. -/
def callee : List (Item α) → Option (List Text × List (Item α))
  | .name f :: items => some ([f], items)
  | .property p :: items => (callee items).map fun found => (found.1 ++ [p], found.2)
  | _ => none

/-- A word in upper case, as Cypher compares keywords. -/
def shout (w : Text) : Text :=
  w.map Char.toUpper

/-- The words with a meaning of their own, as no name can be spelled. -/
def reserved : List Text :=
  ["AND", "OR", "XOR", "NOT", "CASE", "WHEN", "THEN", "ELSE", "END", "TRUE", "FALSE", "NULL", "IN",
    "IS", "CONTAINS", "STARTS", "ENDS", "WITH", "=", "<>", "!=", "<", ">", "<=", ">=", "=~",
    ","].map kw

/-- A literal or a quoted name that ends in its closing quote; any other word. -/
def closed : Text → Bool
  | [] => true
  | c :: rest =>
    if c = '\'' ∨ c = '"' then stringEnd c rest = some rest.length
    else if c = '`' then backtickEnd rest = some rest.length
    else if c = '$' ∧ rest.head? = some '`' then
      backtickEnd (rest.drop 1) = some (rest.drop 1).length
    else true

def isLiteral : Text → Bool
  | [] => false
  | c :: rest =>
    c = '\'' || c = '"' || isDecimal c || (c = '$' && rest ≠ []) ||
      (c = '.' && (rest.head?.map isDecimal).getD false)

variable (letters : Letters)

def itemOf (w : Text) : Option (Item α) :=
  if shout w ∈ reserved then some (.word (shout w))
  else if isName letters w then some (.name w)
  else if isLiteral w then some (.operand fun env => some (env.lookup w))
  else none

inductive Opener
  | text
  | bracket
  | case
  deriving DecidableEq

/-- What is open around the word that is read, with its items, newest first. A dot waits for the
name of a property. -/
structure Frame (α : Type*) where
  opener : Opener
  items : List (Item α)
  dotted : Bool

def Frame.start (opener : Opener) : Frame α :=
  ⟨opener, [], false⟩

/-- A closing bracket makes a call of what it holds when a function's name stands before it. -/
def Frame.bracketed (outer : Frame α) (items : List (Item α)) : Option (Frame α) :=
  match callee outer.items with
  | some (path, rest) => (arguments items).map fun args =>
    { outer with items := .operand (.call path args) :: rest }
  | none => (disjunction items).map fun m => { outer with items := .operand m :: outer.items }

/-- END makes an operand of what stands behind its CASE. -/
def Frame.cased (outer : Frame α) (items : List (Item α)) : Option (Frame α) :=
  (caseOf items).map fun m => { outer with items := .operand m :: outer.items }

def readWord (w : Text) : List (Frame α) → Option (List (Frame α))
  | [] => none
  | frame :: below =>
    if closed w = false then none
    else if frame.dotted then
      if isName letters w then
        some ({ frame with items := .property w :: frame.items, dotted := false } :: below)
      else none
    else if w = kw "." then some ({ frame with dotted := true } :: below)
    else if w = kw "(" then some (.start .bracket :: frame :: below)
    else if shout w = kw "CASE" then some (.start .case :: frame :: below)
    else if w = kw ")" then
      match frame.opener, below with
      | .bracket, outer :: rest => (outer.bracketed frame.items.reverse).map (· :: rest)
      | _, _ => none
    else if shout w = kw "END" then
      match frame.opener, below with
      | .case, outer :: rest => (outer.cased frame.items.reverse).map (· :: rest)
      | _, _ => none
    else (itemOf letters w).map fun item => { frame with items := item :: frame.items } :: below

def readWords (stack : List (Frame α)) (words : List Text) : Option (List (Frame α)) :=
  words.foldlM (fun stack w => readWord letters w stack) stack

def flatten (words : List Text) : Option (List (Item α)) :=
  match readWords letters [.start .text] words with
  | some [frame] => if frame.dotted then none else some frame.items.reverse
  | _ => none

/-- What a text means as a condition. Its words are those `_TOKEN` finds in it. -/
def conditionOf (text : Text) : Option (Meaning α) :=
  (flatten letters (scanTokens letters text)).bind disjunction

end DataViz.NativeQuery
