/-
# Reading JSON without rounding integers

`JSON.parse` makes a double of every number. Here the text is first rewritten: an expression cuts it
into strings, numbers and single characters, and an integer beyond the safe range is put in quotes,
so that it is read as the string of its digits. A text without a long run of digits is read as it
is.

Reading a number as a double is left open; it keeps the order, and every integer up to 2^53 is a
double, so an integer's double is safe when the integer is.
-/

import Mathlib.Algebra.Order.Ring.Nat
import DataViz.Data.JsonReader

namespace DataViz.Canvas.LosslessJson

open JsonReader

/-- What a dot of the expression does not match. -/
def isLineTerminator (c : Char) : Bool :=
  c = '\n' || c = '\r' || c = '\u2028' || c = '\u2029'

/-- `"(?:[^"\\]|\\.)*"`, past the opening quote: what is between the quotes, and the rest. -/
def scanString : List Char → Option (List Char × List Char)
  | [] => none
  | '"' :: rest => some ([], rest)
  | '\\' :: c :: rest =>
    if isLineTerminator c then none
    else (scanString rest).map fun (body, rest) => ('\\' :: c :: body, rest)
  | c :: rest =>
    if c = '\\' then none else (scanString rest).map fun (body, rest) => (c :: body, rest)

def scanDigits (text : List Char) : List Char × List Char :=
  (text.takeWhile isDigit, text.dropWhile isDigit)

def scanFraction : List Char → List Char × List Char
  | '.' :: rest =>
    if (scanDigits rest).1 = [] then ([], '.' :: rest)
    else ('.' :: (scanDigits rest).1, (scanDigits rest).2)
  | text => ([], text)

def scanSign : List Char → List Char × List Char
  | c :: rest => if c = '+' || c = '-' then ([c], rest) else ([], c :: rest)
  | [] => ([], [])

/-- `(?:[eE][+-]?\d+)?`. -/
def scanExponent : List Char → List Char × List Char
  | c :: rest =>
    if isExponent c then
      if (scanDigits (scanSign rest).2).1 = [] then ([], c :: rest)
      else (c :: (scanSign rest).1 ++ (scanDigits (scanSign rest).2).1,
        (scanDigits (scanSign rest).2).2)
    else ([], c :: rest)
  | [] => ([], [])

/-- `\d+(?:\.\d+)?(?:[eE][+-]?\d+)?`. -/
def scanUnsigned (text : List Char) : Option (List Char × List Char) :=
  let (digits, rest) := scanDigits text
  let (fraction, rest) := scanFraction rest
  let (exponent, rest) := scanExponent rest
  if digits = [] then none else some (digits ++ fraction ++ exponent, rest)

/-- `-?\d+(?:\.\d+)?(?:[eE][+-]?\d+)?`. -/
def scanNumber : List Char → Option (List Char × List Char)
  | '-' :: rest => (scanUnsigned rest).map fun (token, rest) => ('-' :: token, rest)
  | text => scanUnsigned text

/-- A match of `STRING_OR_NUMBER`, or a character that is in none. -/
inductive Piece
  | str (body : List Char)
  | num (token : List Char)
  | char (c : Char)

def piece : List Char → Option (Piece × List Char)
  | [] => none
  | '"' :: rest =>
    match scanString rest with
    | some (body, rest) => some (.str body, rest)
    | none => some (.char '"', rest)
  | c :: rest =>
    match scanNumber (c :: rest) with
    | some (token, rest) => some (.num token, rest)
    | none => some (.char c, rest)

def piecesUpTo : ℕ → List Char → List Piece
  | 0, _ => []
  | most + 1, text =>
    match piece text with
    | some (first, rest) => first :: piecesUpTo most rest
    | none => []

def pieces (text : List Char) : List Piece :=
  piecesUpTo text.length text

def isPlain (token : List Char) : Bool :=
  token.all fun c => c ≠ '.' && !isExponent c

def natOf (digits : List Char) : ℕ :=
  digits.foldl (fun n c => 10 * n + (c.toNat - 48)) 0

/-- The integer of a token without fraction and exponent. -/
def intOf : List Char → ℤ
  | '-' :: digits => -natOf digits
  | digits => natOf digits

def isSafeInteger (token : List Char) : Bool :=
  (intOf token).natAbs < 2 ^ 53

def isUnsafe (token : List Char) : Bool :=
  isPlain token && !isSafeInteger token

def quoteIfUnsafe : Piece → List Char
  | .str body => '"' :: body ++ ['"']
  | .num token =>
    if token.length < 16 || !isPlain token then token
    else if isSafeInteger token then token
    else '"' :: token ++ ['"']
  | .char c => [c]

def mayHoldUnsafeInteger : ℕ → List Char → Bool
  | _, [] => false
  | run, c :: rest =>
    if isDigit c then 16 ≤ run + 1 || mayHoldUnsafeInteger (run + 1) rest
    else mayHoldUnsafeInteger 0 rest

variable {ν : Type} (number : List Char → ν)

def rounded (token : List Char) : Value ν :=
  .num (number token)

def jsonParse (text : List Char) : Option (Value ν) :=
  parse (rounded number) text

def parseJsonLossless (text : List Char) : Option (Value ν) :=
  if !mayHoldUnsafeInteger 0 text then jsonParse number text
  else jsonParse number ((pieces text).flatMap quoteIfUnsafe)

/-- A token as it should be read: an integer beyond the safe range is the string of its digits and
sign. -/
def exact (token : List Char) : Value ν :=
  if isUnsafe token then .str (token.map Char.toNat) else .num (number token)

end DataViz.Canvas.LosslessJson
