/-
# Reading JSON

A JSON text is read one character at a time: a stack of the arrays and objects that are open, and
what may come next. How a number's text is read is left open. An object's later entries replace
those before under the same key. Texts are lists of characters, and strings their UTF-16 code units.
-/

import DataViz.Data.Dict

namespace DataViz.JsonReader

inductive Value (ν : Type)
  | null
  | bool (b : Bool)
  | num (n : ν)
  | str (units : List ℕ)
  | arr (items : List (Value ν))
  | obj (fields : List (List ℕ × Value ν))

/-- An array or object that is open: an object may await the value of an entry. -/
inductive Frame (ν : Type)
  | arr (items : List (Value ν))
  | obj (fields : Dict (List ℕ) (Value ν))
  | entry (fields : Dict (List ℕ) (Value ν)) (name : List ℕ)

abbrev Stack (ν : Type) := List (Frame ν)

inductive Part
  | sign | zero | int | dot | frac | e | esign | exp
  deriving DecidableEq

/-- Where in a string: after a backslash, or before so many hexadecimal digits. -/
inductive Escape
  | none
  | escaped
  | hex (left : ℕ)

inductive Mode (ν : Type)
  | value
  | first
  | key
  | firstKey
  | colon (name : List ℕ)
  | after (value : Value ν)
  | str (isKey : Bool) (body : List Char) (escape : Escape)
  | num (token : List Char) (part : Part)
  | word (left : List Char) (value : Value ν)

/-- A reader between two characters. -/
structure State (ν : Type) where
  stack : List (Frame ν) := []
  mode : Mode ν := .value

def isDigit (c : Char) : Bool :=
  '0' ≤ c && c ≤ '9'

def isHex (c : Char) : Bool :=
  isDigit c || ('a' ≤ c && c ≤ 'f') || ('A' ≤ c && c ≤ 'F')

def isSpace (c : Char) : Bool :=
  c = ' ' || c = '\t' || c = '\n' || c = '\r'

def isExponent (c : Char) : Bool :=
  c = 'e' || c = 'E'

def hexValue (c : Char) : ℕ :=
  if isDigit c then c.toNat - 48
  else if 'a' ≤ c && c ≤ 'f' then c.toNat - 87
  else c.toNat - 55

def unitsOf (c : Char) : List ℕ :=
  if c.toNat < 0x10000 then [c.toNat]
  else [0xD800 + (c.toNat - 0x10000) / 0x400, 0xDC00 + (c.toNat - 0x10000) % 0x400]

/-- The code unit that a letter after a backslash stands for. -/
def escapeOf : Char → Option ℕ
  | '"' => some 34
  | '\\' => some 92
  | '/' => some 47
  | 'b' => some 8
  | 'f' => some 12
  | 'n' => some 10
  | 'r' => some 13
  | 't' => some 9
  | _ => none

/-- The string that a text between quotes stands for. -/
def unescape : List Char → List ℕ
  | '\\' :: 'u' :: a :: b :: c :: d :: rest =>
    (((hexValue a * 16 + hexValue b) * 16 + hexValue c) * 16 + hexValue d) :: unescape rest
  | '\\' :: c :: rest => (escapeOf c).toList ++ unescape rest
  | c :: rest => unitsOf c ++ unescape rest
  | [] => []

/-- The part of a number that a character continues it with. -/
def Part.next : Part → Char → Option Part
  | .sign, c => if c = '0' then some .zero else if isDigit c then some .int else none
  | .zero, c => if c = '.' then some .dot else if isExponent c then some .e else none
  | .int, c =>
    if isDigit c then some .int
    else if c = '.' then some .dot
    else if isExponent c then some .e
    else none
  | .dot, c => if isDigit c then some .frac else none
  | .frac, c => if isDigit c then some .frac else if isExponent c then some .e else none
  | .e, c => if c = '+' ∨ c = '-' then some .esign else if isDigit c then some .exp else none
  | .esign, c => if isDigit c then some .exp else none
  | .exp, c => if isDigit c then some .exp else none

def Part.complete : Part → Bool
  | .zero | .int | .frac | .exp => true
  | _ => false

variable {ν : Type}

def start (stack : List (Frame ν)) (c : Char) : Option (State ν) :=
  if c = '"' then some ⟨stack, .str false [] .none⟩
  else if c = '[' then some ⟨.arr [] :: stack, .first⟩
  else if c = '{' then some ⟨.obj [] :: stack, .firstKey⟩
  else if c = 't' then some ⟨stack, .word ['r', 'u', 'e'] (.bool true)⟩
  else if c = 'f' then some ⟨stack, .word ['a', 'l', 's', 'e'] (.bool false)⟩
  else if c = 'n' then some ⟨stack, .word ['u', 'l', 'l'] .null⟩
  else if c = '-' then some ⟨stack, .num ['-'] .sign⟩
  else (Part.sign.next c).map fun part => ⟨stack, .num [c] part⟩

def follow (stack : List (Frame ν)) (value : Value ν) (c : Char) : Option (State ν) :=
  if isSpace c then some ⟨stack, .after value⟩
  else
    match stack with
    | .arr items :: below =>
      if c = ',' then some ⟨.arr (items ++ [value]) :: below, .value⟩
      else if c = ']' then some ⟨below, .after (.arr (items ++ [value]))⟩
      else none
    | .entry fields name :: below =>
      if c = ',' then some ⟨.obj (fields.set name value) :: below, .key⟩
      else if c = '}' then some ⟨below, .after (.obj (fields.set name value))⟩
      else none
    | _ => none

/-- With so many hexadecimal digits left. -/
def Escape.afterHex : ℕ → Escape
  | 0 => .none
  | more + 1 => .hex more

def close (stack : List (Frame ν)) (isKey : Bool) (body : List Char) : State ν :=
  if isKey then ⟨stack, .colon (unescape body)⟩ else ⟨stack, .after (.str (unescape body))⟩

def stepStr (stack : List (Frame ν)) (isKey : Bool) (body : List Char) :
    Escape → Char → Option (State ν)
  | .none, c =>
    if c = '"' then some (close stack isKey body)
    else if c = '\\' then some ⟨stack, .str isKey (body ++ [c]) .escaped⟩
    else if c < ' ' then none
    else some ⟨stack, .str isKey (body ++ [c]) .none⟩
  | .escaped, c =>
    if c = 'u' then some ⟨stack, .str isKey (body ++ [c]) (.hex 3)⟩
    else (escapeOf c).map fun _ => ⟨stack, .str isKey (body ++ [c]) .none⟩
  | .hex left, c =>
    if isHex c then
      some ⟨stack, .str isKey (body ++ [c]) (.afterHex left)⟩
    else none

variable (read : List Char → Value ν)

def step (state : State ν) (c : Char) : Option (State ν) :=
  match state.mode with
  | .value => if isSpace c then some state else start state.stack c
  | .first =>
    if isSpace c then some state
    else if c = ']' then some ⟨state.stack.tail, .after (.arr [])⟩
    else start state.stack c
  | .key =>
    if isSpace c then some state
    else if c = '"' then some ⟨state.stack, .str true [] .none⟩
    else none
  | .firstKey =>
    if isSpace c then some state
    else if c = '}' then some ⟨state.stack.tail, .after (.obj [])⟩
    else if c = '"' then some ⟨state.stack, .str true [] .none⟩
    else none
  | .colon name =>
    if isSpace c then some state
    else
      match state.stack with
      | .obj fields :: below =>
        if c = ':' then some ⟨.entry fields name :: below, .value⟩ else none
      | _ => none
  | .after value => follow state.stack value c
  | .str isKey body escape => stepStr state.stack isKey body escape c
  | .num token part =>
    match part.next c with
    | some part => some ⟨state.stack, .num (token ++ [c]) part⟩
    | none => if part.complete then follow state.stack (read token) c else none
  | .word left value =>
    match left with
    | [] => none
    | l :: more =>
      if c = l then
        some ⟨state.stack, if more = [] then .after value else .word more value⟩
      else none

def run (state : State ν) (text : List Char) : Option (State ν) :=
  text.foldlM (step read) state

def finish (state : State ν) : Option (Value ν) :=
  match state.stack, state.mode with
  | [], .after value => some value
  | [], .num token part => if part.complete then some (read token) else none
  | _, _ => none

def parse (text : List Char) : Option (Value ν) :=
  (run read {} text).bind (finish read)

end DataViz.JsonReader
