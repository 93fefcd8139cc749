/-
# Texts as Python reads them

A `str` is a list of code points. Blanks and digits are as Unicode has them; which
characters are letters, and what their upper case is, is the Unicode database of
the interpreter, so it is a parameter that agrees with ASCII where ASCII speaks.
-/

import DataViz.Data.Number

namespace DataViz

abbrev Text := List Char

open Number

def otherDigits : List (ℕ × ℕ) :=
  [(0xb2, 0xb3), (0xb9, 0xb9), (0x1369, 0x1371), (0x19da, 0x19da), (0x2070, 0x2070),
    (0x2074, 0x2079), (0x2080, 0x2089), (0x2460, 0x2468), (0x2474, 0x247c), (0x2488, 0x2490),
    (0x24ea, 0x24ea), (0x24f5, 0x24fd), (0x24ff, 0x24ff), (0x2776, 0x277e), (0x2780, 0x2788),
    (0x278a, 0x2792), (0x10a40, 0x10a43), (0x10e60, 0x10e68), (0x11052, 0x1105a),
    (0x1f100, 0x1f10a)]

def isDecimal (c : Char) : Bool :=
  (digitValue c).isSome

def isDigit (c : Char) : Bool :=
  isDecimal c || otherDigits.any fun run => run.1 ≤ c.toNat ∧ c.toNat ≤ run.2

/-- What the Unicode database says of letters. -/
structure Letters where
  /-- `str.isalpha` of one character. -/
  isAlpha : Char → Bool
  /-- `str.isnumeric` of one character. -/
  isNumeric : Char → Bool
  /-- `str.upper` of one character: several characters for some. -/
  upper : Char → Text
  /-- `str.lower` of one character. -/
  lower : Char → Text
  /-- `repr` of a text of one character. -/
  repr : Char → String
  isAlpha_ascii : ∀ c, c.toNat < 128 → isAlpha c = c.isAlpha
  isNumeric_ascii : ∀ c, c.toNat < 128 → isNumeric c = c.isDigit
  upper_ascii : ∀ c, c.toNat < 128 → upper c = [c.toUpper]
  lower_ascii : ∀ c, c.toNat < 128 → lower c = [c.toLower]

def Letters.ascii : Letters where
  isAlpha := Char.isAlpha
  isNumeric := Char.isDigit
  upper c := [c.toUpper]
  lower c := [c.toLower]
  repr c := "'" ++ c.toString ++ "'"
  isAlpha_ascii _ _ := rfl
  isNumeric_ascii _ _ := rfl
  upper_ascii _ _ := rfl
  lower_ascii _ _ := rfl

variable (letters : Letters)

def Letters.isAlnum (c : Char) : Bool :=
  letters.isAlpha c || isDecimal c || isDigit c || letters.isNumeric c

def Letters.upperText (text : Text) : Text :=
  text.flatMap letters.upper

theorem Letters.isAlnum_of_isAlpha {c : Char} (alpha : letters.isAlpha c = true) :
    letters.isAlnum c = true := by
  simp [Letters.isAlnum, alpha]

/-- How many characters a text starts with that satisfy `p`. -/
def runLength (p : Char → Bool) (text : Text) : ℕ :=
  (text.takeWhile p).length

theorem runLength_le (p : Char → Bool) (text : Text) : runLength p text ≤ text.length :=
  (List.takeWhile_prefix p).length_le

theorem runLength_cons (p : Char → Bool) (c : Char) (text : Text) :
    runLength p (c :: text) = if p c then runLength p text + 1 else 0 := by
  by_cases holds : p c = true
  · simp [runLength, holds]
  · simp [runLength, holds]

theorem runLength_pos {p : Char → Bool} {c : Char} {text : Text} (holds : p c = true) :
    0 < runLength p (c :: text) := by
  simp [runLength_cons, holds]

/-- The index just past the first place where `sought` starts, from `str.find`. -/
def findEnd (sought : Text) : Text → Option ℕ
  | [] => if sought = [] then some 0 else none
  | c :: text =>
    if sought.isPrefixOf (c :: text) then some sought.length
    else (findEnd sought text).map (· + 1)

theorem findEnd_le {sought text : Text} {n : ℕ} (found : findEnd sought text = some n) :
    n ≤ text.length := by
  induction text generalizing n with
  | nil =>
    simp only [findEnd] at found
    split at found
    · cases found
      exact Nat.le_refl 0
    · cases found
  | cons c text ih =>
    simp only [findEnd] at found
    split at found
    · next starts =>
        cases found
        exact (List.isPrefixOf_iff_prefix.mp starts).length_le
    · obtain ⟨m, hm, rfl⟩ := Option.map_eq_some_iff.mp found
      exact Nat.succ_le_succ (ih hm)

end DataViz
