/-
# Numbers as Python reads them

`float` of an integer or a text is the nearest double, ties to even, held as the
rational it denotes. `none` stands for no finite double: an infinity, a nan, or an
integer past the doubles. A text that is no number is no double at all.
-/

import Mathlib.Data.Rat.Floor
import Mathlib.Data.String.Basic

namespace DataViz

namespace Number

def roundHalfEven (q : ℚ) : ℤ :=
  let low := ⌊q⌋
  let rest := q - low
  if rest < 1 / 2 then low
  else if 1 / 2 < rest then low + 1
  else if low % 2 = 0 then low
  else low + 1

/-- The exponent of the largest power of two that a positive rational reaches. -/
def binaryExponent (q : ℚ) : ℤ :=
  let exponent := (q.num.natAbs.log2 : ℤ) - q.den.log2
  if (2 : ℚ) ^ exponent ≤ q then exponent else exponent - 1

def toDouble (q : ℚ) : Option ℚ :=
  if q = 0 then some 0
  else
    let ulp : ℚ := 2 ^ max (binaryExponent |q| - 52) (-1074)
    let rounded := roundHalfEven (q / ulp) * ulp
    if |rounded| < 2 ^ 1024 then some rounded else none

def isSpace (c : Char) : Bool :=
  let code := c.toNat
  (9 ≤ code ∧ code ≤ 13) ∨ (28 ≤ code ∧ code ≤ 32) ∨ (0x2000 ≤ code ∧ code ≤ 0x200a) ∨
    code ∈ [0x85, 0xa0, 0x1680, 0x2028, 0x2029, 0x202f, 0x205f, 0x3000]

def strip (text : String) : List Char :=
  ((text.toList.dropWhile isSpace).reverse.dropWhile isSpace).reverse

def decimalZeros : List ℕ :=
  [0x30, 0x660, 0x6f0, 0x7c0, 0x966, 0x9e6, 0xa66, 0xae6, 0xb66, 0xbe6, 0xc66, 0xce6, 0xd66,
    0xde6, 0xe50, 0xed0, 0xf20, 0x1040, 0x1090, 0x17e0, 0x1810, 0x1946, 0x19d0, 0x1a80, 0x1a90,
    0x1b50, 0x1bb0, 0x1c40, 0x1c50, 0xa620, 0xa8d0, 0xa900, 0xa9d0, 0xa9f0, 0xaa50, 0xabf0,
    0xff10, 0x104a0, 0x10d30, 0x11066, 0x110f0, 0x11136, 0x111d0, 0x112f0, 0x11450, 0x114d0,
    0x11650, 0x116c0, 0x11730, 0x118e0, 0x11950, 0x11c50, 0x11d50, 0x11da0, 0x16a60, 0x16ac0,
    0x16b50, 0x1d7ce, 0x1d7d8, 0x1d7e2, 0x1d7ec, 0x1d7f6, 0x1e140, 0x1e2f0, 0x1e950, 0x1fbf0]

def digitValue (c : Char) : Option ℕ :=
  (decimalZeros.find? fun start => start ≤ c.toNat ∧ c.toNat < start + 10).map fun start =>
    c.toNat - start

/-- The digits a text starts with, and what follows them. A single underscore may stand
between two digits when `grouped`, which it is after a digit. -/
def digits : Bool → List Char → List ℕ × List Char
  | true, '_' :: c :: rest =>
    match digitValue c with
    | some d => (d :: (digits true rest).1, (digits true rest).2)
    | none => ([], '_' :: c :: rest)
  | _, c :: rest =>
    match digitValue c with
    | some d => (d :: (digits true rest).1, (digits true rest).2)
    | none => ([], c :: rest)
  | _, [] => ([], [])

def ofDigits (ds : List ℕ) : ℕ :=
  ds.foldl (fun n d => 10 * n + d) 0

def signed : List Char → ℤ × List Char
  | '-' :: rest => (-1, rest)
  | '+' :: rest => (1, rest)
  | rest => (1, rest)

/-- The exponent that ends a float's text, zero when there is none. -/
def exponent : List Char → Option ℤ
  | [] => some 0
  | c :: rest =>
    if c = 'e' ∨ c = 'E' then
      let (sign, rest) := signed rest
      match digits false rest with
      | (d :: ds, []) => some (sign * ofDigits (d :: ds))
      | _ => none
    else none

/-- The names `float` reads besides numbers, in any case. -/
def nonFinite : List String :=
  ["inf", "infinity", "nan"]

/-- `float(text)`, none where it raises `ValueError`. -/
def readFloat (text : String) : Option (Option ℚ) :=
  let (sign, rest) := signed (strip text)
  if String.ofList (rest.map Char.toLower) ∈ nonFinite then some none
  else
    let (whole, rest) := digits false rest
    let (fraction, rest) :=
      match rest with
      | '.' :: rest => digits false rest
      | _ => ([], rest)
    if whole = [] ∧ fraction = [] then none
    else
      (exponent rest).map fun power : ℤ =>
        toDouble (sign * ofDigits (whole ++ fraction) * 10 ^ (power - fraction.length))

/-- The sign and the digits of a text matching `-?\d+`. -/
def intParts (text : String) : Option (ℤ × List ℕ) :=
  let (sign, rest) :=
    match strip text with
    | '-' :: rest => ((-1 : ℤ), rest)
    | rest => (1, rest)
  match rest.mapM digitValue with
  | some (d :: ds) => some (sign, d :: ds)
  | _ => none

/-- The digits of the longest text that `int` reads. -/
def maxStrDigits : ℕ := 4300

end Number

end DataViz
