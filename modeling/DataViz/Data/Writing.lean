/-
# Writing that can be read back

A writer puts a value down as characters. It tells where, given what may follow, the characters
determine both the value and what follows. Quoted texts tell whatever follows, as long as each
character's escape does; a number tells where no character of a number follows.
-/

import Mathlib.Algebra.Order.Ring.Nat
import Mathlib.Data.List.TakeWhile

namespace DataViz.Writing

open List

universe u

variable {α : Type u}

/-- What is written determines the value and what follows it. -/
def Tells (write : α → List Char) (ends : List Char → Prop) : Prop :=
  ∀ a b s t, ends s → ends t → write a ++ s = write b ++ t → a = b ∧ s = t

def Anything (_ : List Char) : Prop :=
  True

/-- A number in so many hexadecimal digits. -/
def hex : ℕ → ℕ → List Char
  | 0, _ => []
  | width + 1, n => Nat.digitChar (n / 16 ^ width % 16) :: hex width n

def hexValue (c : Char) : ℕ :=
  if c.toNat < 58 then c.toNat - 48 else c.toNat - 87

/-- The number in so many hexadecimal digits, and what follows. -/
def unhex : ℕ → ℕ → List Char → Option (ℕ × List Char)
  | 0, n, rest => some (n, rest)
  | width + 1, n, c :: rest => unhex width (16 * n + hexValue c) rest
  | _ + 1, _, [] => none

theorem hexValue_digitChar {n : ℕ} (small : n < 16) : hexValue (Nat.digitChar n) = n := by
  have all : ∀ n : Fin 16, hexValue (Nat.digitChar n) = n := by decide
  exact all ⟨n, small⟩

theorem unhex_hex (width n before : ℕ) (s : List Char) :
    unhex width before (hex width n ++ s) = some (16 ^ width * before + n % 16 ^ width, s) := by
  induction width generalizing before with
  | zero => simp [unhex, hex, Nat.mod_one]
  | succ width ih =>
    rw [hex, cons_append, unhex, ih, hexValue_digitChar (Nat.mod_lt _ (by decide))]
    have split := Nat.mod_mul (x := n) (a := 16 ^ width) (b := 16)
    rw [← Nat.pow_succ] at split
    rw [split, Option.some_inj, Prod.mk.injEq, Nat.mul_add, Nat.pow_succ, Nat.mul_assoc]
    exact ⟨by omega, rfl⟩

def isNumberChar (c : Char) : Bool :=
  c.isDigit || c ∈ ['-', '+', '.', 'e']

def isFloatChar (c : Char) : Bool :=
  c ∈ ['.', 'e']

/-- A finite float, by its shortest text, which names no integer. -/
structure FloatText where
  text : List Char
  shaped : text.all isNumberChar = true ∧ text.any isFloatChar = true
  deriving DecidableEq

/-- An `int` or a finite `float`. -/
inductive Number
  | int (n : ℤ)
  | float (x : FloatText)
  deriving DecidableEq

def writeInt : ℤ → List Char
  | .ofNat n => Nat.toDigits 10 n
  | .negSucc n => '-' :: Nat.toDigits 10 (n + 1)

def Number.write : Number → List Char
  | .int n => writeInt n
  | .float x => x.text

def NumberEnds (s : List Char) : Prop :=
  ∀ c ∈ s.head?, isNumberChar c = false

theorem isDigit_of_mem_toDigits {n : ℕ} {c : Char} (mem : c ∈ Nat.toDigits 10 n) :
    c.isDigit = true :=
  Nat.isDigit_of_mem_toDigits (by decide) (by decide) mem

theorem isNumberChar_of_mem_writeInt {n : ℤ} {c : Char} (mem : c ∈ writeInt n) :
    isNumberChar c = true ∧ isFloatChar c = false := by
  have digit (c : Char) (is : c.isDigit = true) :
      isNumberChar c = true ∧ isFloatChar c = false := by
    refine ⟨by simp [isNumberChar, is], ?_⟩
    have ne (d : Char) (other : d.isDigit = false) : c ≠ d :=
      fun same => by simp [same, other] at is
    simp [isFloatChar, ne '.' (by decide), ne 'e' (by decide)]
  cases n with
  | ofNat n => exact digit c (isDigit_of_mem_toDigits mem)
  | negSucc n =>
    cases mem with
    | head => decide
    | tail _ mem => exact digit c (isDigit_of_mem_toDigits mem)

theorem toDigits_inj {n m : ℕ} (same : Nat.toDigits 10 n = Nat.toDigits 10 m) : n = m := by
  have back := congrArg (Nat.ofDigitChars 10 · 0) same
  simpa [Nat.ofDigitChars_toDigits] using back

theorem writeInt_inj {n m : ℤ} (same : writeInt n = writeInt m) : n = m := by
  have unsigned (n m : ℕ) : Nat.toDigits 10 n ≠ '-' :: Nat.toDigits 10 m := fun same => by
    have digit : '-'.isDigit = true :=
      isDigit_of_mem_toDigits (same ▸ mem_cons_self : '-' ∈ Nat.toDigits 10 n)
    exact absurd digit (by decide)
  cases n with
  | ofNat n =>
    cases m with
    | ofNat m => rw [toDigits_inj same]
    | negSucc m => exact absurd same (unsigned n _)
  | negSucc n =>
    cases m with
    | ofNat m => exact absurd same.symm (unsigned m _)
    | negSucc m => rw [Nat.succ_injective (toDigits_inj (List.cons.inj same).2)]

theorem Number.isNumberChar_of_mem {n : Number} {c : Char} (mem : c ∈ n.write) :
    isNumberChar c = true := by
  cases n with
  | int n => exact (isNumberChar_of_mem_writeInt mem).1
  | float x => exact List.all_eq_true.mp x.shaped.1 c mem

theorem Number.write_inj {n m : Number} (same : n.write = m.write) : n = m := by
  have apart (n : ℤ) (x : FloatText) : writeInt n ≠ x.text := fun same => by
    obtain ⟨c, mem, float⟩ := List.any_eq_true.mp x.shaped.2
    rw [← same] at mem
    exact Bool.false_ne_true ((isNumberChar_of_mem_writeInt mem).2.symm.trans float)
  cases n with
  | int n =>
    cases m with
    | int m => rw [writeInt_inj same]
    | float x => exact absurd same (apart n x)
  | float x =>
    cases m with
    | int m => exact absurd same.symm (apart m x)
    | float y =>
      obtain ⟨text, shaped⟩ := x
      cases same
      rfl

/-- What is written up to a character that it has not. -/
theorem append_inj_of_stops {p : Char → Bool} {a b s t : List Char} (ha : ∀ c ∈ a, p c = true)
    (hb : ∀ c ∈ b, p c = true) (hs : ∀ c ∈ s.head?, p c = false) (ht : ∀ c ∈ t.head?, p c = false)
    (same : a ++ s = b ++ t) : a = b ∧ s = t := by
  have stop (s : List Char) (hs : ∀ c ∈ s.head?, p c = false) : s.takeWhile p = [] := by
    cases s with
    | nil => rfl
    | cons c s => rw [takeWhile_cons_of_neg (by simp [hs c rfl])]
  have front : a = b := by
    have taken := congrArg (List.takeWhile p) same
    rwa [takeWhile_append_of_pos ha, takeWhile_append_of_pos hb, stop s hs, stop t ht,
      append_nil, append_nil] at taken
  subst front
  exact ⟨rfl, append_cancel_left same⟩

theorem tells_number : Tells Number.write NumberEnds := by
  intro n m s t hs ht same
  obtain ⟨text, rest⟩ := append_inj_of_stops (fun _ => Number.isNumberChar_of_mem)
    (fun _ => Number.isNumberChar_of_mem) hs ht same
  exact ⟨Number.write_inj text, rest⟩

/-- The character an escape stands for can be read off it, and it does not look like the end. -/
structure Escapes (quote : Char) (escape : Char → List Char) (unescape : List Char → Option Char) :
    Prop where
  reads : ∀ c s, unescape (escape c ++ s) = some c
  inside : ∀ c, ∃ d rest, escape c = d :: rest ∧ d ≠ quote

variable {quote : Char} {escape : Char → List Char} {unescape : List Char → Option Char}

def quoted (quote : Char) (escape : Char → List Char) (text : List Char) : List Char :=
  quote :: (text.flatMap escape ++ [quote])

theorem Escapes.flatMap_inj (escapes : Escapes quote escape unescape) {a b s t : List Char}
    (same : a.flatMap escape ++ quote :: s = b.flatMap escape ++ quote :: t) : a = b ∧ s = t := by
  induction a generalizing b with
  | nil =>
    cases b with
    | nil => exact ⟨rfl, (List.cons.inj same).2⟩
    | cons c b =>
      obtain ⟨d, rest, is, ne⟩ := escapes.inside c
      rw [flatMap_cons, is] at same
      exact absurd (List.cons.inj same).1.symm ne
  | cons c a ih =>
    cases b with
    | nil =>
      obtain ⟨d, rest, is, ne⟩ := escapes.inside c
      rw [flatMap_cons, is] at same
      exact absurd (List.cons.inj same).1 ne
    | cons d b =>
      rw [flatMap_cons, flatMap_cons, append_assoc, append_assoc] at same
      have first := congrArg unescape same
      rw [escapes.reads, escapes.reads, Option.some_inj] at first
      subst first
      obtain ⟨rfl, rest⟩ := ih (append_cancel_left same)
      exact ⟨rfl, rest⟩

theorem Escapes.tells (escapes : Escapes quote escape unescape) :
    Tells (quoted quote escape) Anything := by
  intro a b s t _ _ same
  rw [quoted, quoted, cons_append, cons_append, append_assoc, append_assoc] at same
  exact escapes.flatMap_inj (List.cons.inj same).2

end DataViz.Writing
