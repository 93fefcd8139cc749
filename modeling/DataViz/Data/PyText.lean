/-
# Python's texts of values

`json.dumps` writes texts, numbers and lists in ASCII, and `repr` writes a text between the quotes
it needs. Both tell: what is written determines the value. Which characters `repr` shows as they are
is the Unicode database's, a parameter.
-/

import Mathlib.Data.String.Basic
import DataViz.Data.Dict
import DataViz.Data.Writing

namespace DataViz.PyText

open List Option

open Writing

/-- Escapes of one letter after the backslash. -/
abbrev Shorts := Dict Char Char

def Shorts.stands (shorts : Shorts) (letter : Char) : Option Char :=
  (shorts.find? (·.2 = letter)).map Prod.fst

/-- Each letter stands for one character, and none says that digits follow. -/
def Shorts.Plain (shorts : Shorts) (digits : List Char) : Prop :=
  ∀ entry ∈ shorts, entry.2 ∉ digits ∧ shorts.stands entry.2 = some entry.1

instance (shorts : Shorts) (digits : List Char) : Decidable (shorts.Plain digits) :=
  inferInstanceAs (Decidable (∀ _ ∈ _, _))

theorem not_surrogate (c : Char) : ¬ (0xd800 ≤ c.toNat ∧ c.toNat < 0xe000) := by
  obtain valid | valid := c.valid
  all_goals
    simp only [Char.toNat] at *
    omega

theorem toNat_lt (c : Char) : c.toNat < 0x110000 := by
  obtain valid | valid := c.valid
  all_goals
    simp only [Char.toNat] at *
    omega

/-- A character by its code. -/
theorem ofNat_unhex {width : ℕ} {c : Char} (fits : c.toNat < 16 ^ width) (s : List Char) :
    (unhex width 0 (hex width c.toNat ++ s)).map (fun read => Char.ofNat read.1) = some c := by
  rw [unhex_hex, Nat.mod_eq_of_lt fits, map_some, Nat.mul_zero, Nat.zero_add,
    Char.ofNat_toNat]

/-- `ESCAPE_DCT`. -/
def jsonShorts : Shorts :=
  [('\\', '\\'), ('"', '"'), ('\x08', 'b'), ('\x0c', 'f'), ('\n', 'n'), ('\r', 'r'), ('\t', 't')]

/-- A character in a JSON text, `ensure_ascii`. -/
def jsonEscape (c : Char) : List Char :=
  match jsonShorts.get? c with
  | some letter => ['\\', letter]
  | none =>
    if ' ' ≤ c ∧ c ≤ '~' then [c]
    else if c.toNat < 0x10000 then '\\' :: 'u' :: hex 4 c.toNat
    else
      -- Beyond the basic plane: a surrogate pair.
      '\\' :: 'u' :: (hex 4 (0xd800 + (c.toNat - 0x10000) / 0x400) ++
        '\\' :: 'u' :: hex 4 (0xdc00 + (c.toNat - 0x10000) % 0x400))

def jsonUnescape : List Char → Option Char
  | '\\' :: 'u' :: s =>
    (unhex 4 0 s).bind fun (u, s) =>
      if 0xd800 ≤ u ∧ u < 0xe000 then
        (unhex 4 0 (s.drop 2)).map fun (v, _) =>
          Char.ofNat (0x10000 + (u - 0xd800) * 0x400 + (v - 0xdc00))
      else some (Char.ofNat u)
  | '\\' :: letter :: _ => jsonShorts.stands letter
  | c :: _ => some c
  | [] => none

theorem jsonUnescape_escape (c : Char) (s : List Char) :
    jsonUnescape (jsonEscape c ++ s) = some c := by
  rw [jsonEscape]
  cases short : jsonShorts.get? c with
  | some letter =>
    have plain : jsonShorts.Plain ['u'] := by decide
    obtain ⟨other, stands⟩ := plain _ (Dict.mem_of_get? short)
    have ne : letter ≠ 'u' := fun same => other (mem_singleton.mpr same)
    show jsonUnescape ('\\' :: letter :: s) = some c
    rw [jsonUnescape, stands]
    exact ne
  | none =>
    dsimp only
    split
    next =>
      have ne : c ≠ '\\' := fun same => by
        rw [same] at short
        exact absurd short (by decide)
      show jsonUnescape (c :: s) = some c
      rw [jsonUnescape]
      · exact fun _ same => absurd same ne
      · exact fun _ _ same => absurd same ne
    split
    next small =>
      have fits : c.toNat < 16 ^ 4 := small
      rw [cons_append, cons_append, jsonUnescape, unhex_hex, Nat.mod_eq_of_lt fits]
      simp [not_surrogate]
    next large =>
      have bound := toNat_lt c
      rw [cons_append, cons_append, jsonUnescape, append_assoc, unhex_hex, bind_some]
      simp only [cons_append, drop_succ_cons, drop_zero]
      rw [unhex_hex, Nat.mod_eq_of_lt (by omega), Nat.mod_eq_of_lt (by omega), if_pos (by omega),
        map_some]
      have back : 0x10000 + (16 ^ 4 * 0 + (0xd800 + (c.toNat - 0x10000) / 0x400) - 0xd800) * 0x400
          + (16 ^ 4 * 0 + (0xdc00 + (c.toNat - 0x10000) % 0x400) - 0xdc00) = c.toNat := by omega
      rw [back, Char.ofNat_toNat]

theorem json_escapes : Escapes '"' jsonEscape jsonUnescape where
  reads := jsonUnescape_escape
  inside c := by
    rw [jsonEscape]
    cases short : jsonShorts.get? c with
    | some letter => exact ⟨'\\', _, rfl, by decide⟩
    | none =>
      dsimp only
      split
      next =>
        refine ⟨c, [], rfl, fun same => ?_⟩
        rw [same] at short
        exact absurd short (by decide)
      split
      next => exact ⟨'\\', _, rfl, by decide⟩
      next => exact ⟨'\\', _, rfl, by decide⟩

/-- The values written: what `json.dumps` is given, dictionaries aside. -/
inductive Canon
  | null
  | bool (b : Bool)
  | number (n : Number)
  | str (text : String)
  | list (items : List Canon)

mutual

/-- `json.dumps` with `separators=(",", ":")`. -/
def dumps : Canon → List Char
  | .null => ['n', 'u', 'l', 'l']
  | .bool b => if b then ['t', 'r', 'u', 'e'] else ['f', 'a', 'l', 's', 'e']
  | .number n => n.write
  | .str text => quoted '"' jsonEscape text.toList
  | .list items => '[' :: dumpsItems items

def dumpsItems : List Canon → List Char
  | [] => [']']
  | item :: items => dumps item ++ dumpsMore items

/-- `dumpsItems` after an item. -/
def dumpsMore : List Canon → List Char
  | [] => [']']
  | item :: items => ',' :: (dumps item ++ dumpsMore items)

end

inductive Start
  | null | bool | quote | bracket | number | other
  deriving DecidableEq

def startOf (c : Char) : Start :=
  if c = 'n' then .null
  else if c = 't' ∨ c = 'f' then .bool
  else if c = '"' then .quote
  else if c = '[' then .bracket
  else if isNumberChar c then .number
  else .other

def Canon.start : Canon → Start
  | .null => .null
  | .bool _ => .bool
  | .number _ => .number
  | .str _ => .quote
  | .list _ => .bracket

theorem startOf_isNumberChar {c : Char} (is : isNumberChar c = true) : startOf c = .number := by
  have ne (d : Char) (other : isNumberChar d = false) : c ≠ d :=
    fun same => Bool.false_ne_true ((same ▸ other : isNumberChar c = false).symm.trans is)
  simp [startOf, ne 'n' (by decide), ne 't' (by decide), ne 'f' (by decide), ne '"' (by decide),
    ne '[' (by decide), is]

theorem Number.write_ne_nil (n : Number) : n.write ≠ [] := by
  cases n with
  | int n => cases n <;> simp [Number.write, writeInt]
  | float x =>
    intro nil
    obtain ⟨c, mem, -⟩ := any_eq_true.mp x.shaped.2
    rw [show x.text = [] from nil] at mem
    cases mem

theorem dumps_start (value : Canon) :
    ∃ c rest, dumps value = c :: rest ∧ startOf c = value.start := by
  cases value with
  | null => exact ⟨'n', _, by rw [dumps], rfl⟩
  | bool b => cases b <;> exact ⟨_, _, by rw [dumps]; rfl, by decide⟩
  | number n =>
    rw [dumps]
    cases written : n.write with
    | nil => exact absurd written (Number.write_ne_nil n)
    | cons c rest =>
      refine ⟨c, rest, rfl, startOf_isNumberChar (Number.isNumberChar_of_mem (n := n) ?_)⟩
      exact written ▸ mem_cons_self
  | str text => exact ⟨'"', _, by rw [dumps, quoted], rfl⟩
  | list items => exact ⟨'[', _, by rw [dumps], rfl⟩

variable {s t : List Char}

theorem start_eq_of_dumps {a b : Canon} (same : dumps a ++ s = dumps b ++ t) :
    a.start = b.start := by
  obtain ⟨c, rest, is, start⟩ := dumps_start a
  obtain ⟨d, rest', is', start'⟩ := dumps_start b
  rw [is, is'] at same
  rw [← start, ← start', (cons.inj same).1]

theorem dumps_ne_close {a : Canon} : dumps a ++ s ≠ ']' :: t := by
  intro same
  obtain ⟨c, rest, is, start⟩ := dumps_start a
  rw [is] at same
  obtain rfl : c = ']' := (cons.inj same).1
  cases a <;> exact nomatch start

theorem numberEnds_more (items : List Canon) (s : List Char) :
    NumberEnds (dumpsMore items ++ s) := by
  cases items with
  | nil =>
    exact fun c mem => by cases mem; decide
  | cons item items =>
    exact fun c mem => by cases mem; decide

mutual

theorem tells_dumps : ∀ (a b : Canon) (s t : List Char), NumberEnds s → NumberEnds t →
    dumps a ++ s = dumps b ++ t → a = b ∧ s = t
  | .null, b, s, t, _, _, same => by
    have start := start_eq_of_dumps same
    cases b <;> cases start
    exact ⟨rfl, append_cancel_left same⟩
  | .bool x, b, s, t, _, _, same => by
    have start := start_eq_of_dumps same
    cases b <;> cases start
    next y =>
      rw [dumps, dumps] at same
      cases x <;> cases y
      · exact ⟨rfl, append_cancel_left same⟩
      · exact absurd (cons.inj same).1 (by decide)
      · exact absurd (cons.inj same).1 (by decide)
      · exact ⟨rfl, append_cancel_left same⟩
  | .number n, b, s, t, hs, ht, same => by
    have start := start_eq_of_dumps same
    cases b <;> cases start
    rw [dumps, dumps] at same
    obtain ⟨rfl, rest⟩ := tells_number _ _ s t hs ht same
    exact ⟨rfl, rest⟩
  | .str text, b, s, t, _, _, same => by
    have start := start_eq_of_dumps same
    cases b <;> cases start
    rw [dumps, dumps] at same
    obtain ⟨text, rest⟩ := json_escapes.tells _ _ s t trivial trivial same
    exact ⟨congrArg Canon.str (String.toList_inj.mp text), rest⟩
  | .list items, b, s, t, _, _, same => by
    have start := start_eq_of_dumps same
    cases b <;> cases start
    rw [dumps, dumps] at same
    obtain ⟨rfl, rest⟩ := tells_dumpsItems items _ s t (cons.inj same).2
    exact ⟨rfl, rest⟩

theorem tells_dumpsItems : ∀ (xs ys : List Canon) (s t : List Char),
    dumpsItems xs ++ s = dumpsItems ys ++ t → xs = ys ∧ s = t
  | [], [], s, t, same => ⟨rfl, append_cancel_left same⟩
  | [], y :: ys, s, t, same => by
    rw [dumpsItems, dumpsItems, append_assoc] at same
    exact absurd same.symm dumps_ne_close
  | x :: xs, [], s, t, same => by
    rw [dumpsItems, dumpsItems, append_assoc] at same
    exact absurd same dumps_ne_close
  | x :: xs, y :: ys, s, t, same => by
    rw [dumpsItems, dumpsItems, append_assoc, append_assoc] at same
    obtain ⟨rfl, more⟩ :=
      tells_dumps x y _ _ (numberEnds_more xs s) (numberEnds_more ys t) same
    obtain ⟨rfl, rest⟩ := tells_dumpsMore xs ys s t more
    exact ⟨rfl, rest⟩

theorem tells_dumpsMore : ∀ (xs ys : List Canon) (s t : List Char),
    dumpsMore xs ++ s = dumpsMore ys ++ t → xs = ys ∧ s = t
  | [], [], s, t, same => ⟨rfl, append_cancel_left same⟩
  | [], y :: ys, s, t, same => by
    rw [dumpsMore, dumpsMore] at same
    exact absurd (cons.inj same).1 (by decide)
  | x :: xs, [], s, t, same => by
    rw [dumpsMore, dumpsMore] at same
    exact absurd (cons.inj same).1 (by decide)
  | x :: xs, y :: ys, s, t, same => by
    rw [dumpsMore, dumpsMore, cons_append, cons_append, append_assoc, append_assoc] at same
    obtain ⟨rfl, more⟩ := tells_dumps x y _ _ (numberEnds_more xs s) (numberEnds_more ys t)
      (cons.inj same).2
    obtain ⟨rfl, rest⟩ := tells_dumpsMore xs ys s t more
    exact ⟨rfl, rest⟩

end

/-- The members of an object after the first, and its closing brace. -/
def dumpsMembers : Dict String Canon → List Char
  | [] => ['}']
  | (key, value) :: members =>
    ',' :: (quoted '"' jsonEscape key.toList ++ ':' :: (dumps value ++ dumpsMembers members))

/-- `json.dumps` of a dictionary with text keys, `sort_keys=True`. -/
def dumpsObject (fields : Dict String Canon) : List Char :=
  match fields.sorted with
  | [] => ['{', '}']
  | (key, value) :: members =>
    '{' :: (quoted '"' jsonEscape key.toList ++ ':' :: (dumps value ++ dumpsMembers members))

theorem numberEnds_members (members : Dict String Canon) (s : List Char) :
    NumberEnds (dumpsMembers members ++ s) := by
  cases members with
  | nil => exact fun c mem => by cases mem; decide
  | cons member members => exact fun c mem => by cases mem; decide

theorem member_inj {key key' : String} {value value' : Canon}
    (hs : NumberEnds s) (ht : NumberEnds t)
    (same : quoted '"' jsonEscape key.toList ++ ':' :: (dumps value ++ s) =
      quoted '"' jsonEscape key'.toList ++ ':' :: (dumps value' ++ t)) :
    (key, value) = (key', value') ∧ s = t := by
  obtain ⟨name, after⟩ := json_escapes.tells _ _ _ _ trivial trivial same
  obtain ⟨rfl, rest⟩ := tells_dumps value value' s t hs ht (cons.inj after).2
  exact ⟨congrArg (·, value) (String.toList_inj.mp name), rest⟩

theorem dumpsMembers_inj {members members' : Dict String Canon}
    (same : dumpsMembers members ++ s = dumpsMembers members' ++ t) :
    members = members' ∧ s = t := by
  induction members generalizing members' with
  | nil =>
    cases members' with
    | nil => exact ⟨rfl, append_cancel_left same⟩
    | cons member members => exact absurd (cons.inj same).1 (by decide)
  | cons member members ih =>
    cases members' with
    | nil => exact absurd (cons.inj same).1 (by decide)
    | cons member' members' =>
      rw [dumpsMembers, dumpsMembers, cons_append, cons_append, append_assoc,
        append_assoc, cons_append, cons_append, append_assoc,
        append_assoc] at same
      obtain ⟨first, more⟩ := member_inj (numberEnds_members members s)
        (numberEnds_members members' t) (cons.inj same).2
      obtain ⟨rfl, rest⟩ := ih more
      exact ⟨congrArg (· :: members) first, rest⟩

/-- Dictionaries are written alike only where they hold the same. -/
theorem get?_eq_of_dumpsObject {fields fields' : Dict String Canon}
    (same : dumpsObject fields = dumpsObject fields') (key : String) :
    fields.get? key = fields'.get? key := by
  suffices sorted : fields.sorted = fields'.sorted from Dict.sorted_eq_iff.mp sorted key
  have closed (key : String) (s : List Char) : quoted '"' jsonEscape key.toList ++ s ≠ ['}'] :=
    fun same => absurd (cons.inj same).1 (by decide)
  unfold dumpsObject at same
  split at same
  · next nil =>
      split at same
      · next nil' => rw [nil, nil']
      · exact absurd (cons.inj same).2.symm (closed _ _)
  · next is =>
      split at same
      · exact absurd (cons.inj same).2 (closed _ _)
      · next is' =>
          rw [is, is']
          have rest := (cons.inj same).2
          obtain ⟨first, more⟩ := member_inj
            (by simpa using numberEnds_members _ []) (by simpa using numberEnds_members _ []) rest
          obtain ⟨rfl, -⟩ := dumpsMembers_inj (congrArg (· ++ []) more)
          rw [first]

section

/-- The escapes of one letter in a text's `repr`: the quote it stands in is one. -/
def reprShorts (quote : Char) : Shorts :=
  [(quote, quote), ('\\', '\\'), ('\t', 't'), ('\n', 'n'), ('\r', 'r')]

/-- The quote a text is shown in: the single one, unless the text has it and no double one. -/
def quoteOf (text : List Char) : Char :=
  if '\'' ∈ text ∧ '"' ∉ text then '"' else '\''

variable (printable : Char → Bool)

def reprEscape (quote c : Char) : List Char :=
  match (reprShorts quote).get? c with
  | some letter => ['\\', letter]
  | none =>
    if c < ' ' ∨ c = '\x7f' then '\\' :: 'x' :: hex 2 c.toNat
    else if c < '\x7f' ∨ printable c then [c]
    else if c.toNat < 0x100 then '\\' :: 'x' :: hex 2 c.toNat
    else if c.toNat < 0x10000 then '\\' :: 'u' :: hex 4 c.toNat
    else '\\' :: 'U' :: hex 8 c.toNat

def reprStr (text : String) : List Char :=
  quoted (quoteOf text.toList) (reprEscape printable (quoteOf text.toList)) text.toList

def reprUnescape (quote : Char) : List Char → Option Char
  | '\\' :: 'x' :: s => (unhex 2 0 s).map fun read => Char.ofNat read.1
  | '\\' :: 'u' :: s => (unhex 4 0 s).map fun read => Char.ofNat read.1
  | '\\' :: 'U' :: s => (unhex 8 0 s).map fun read => Char.ofNat read.1
  | '\\' :: letter :: _ => (reprShorts quote).stands letter
  | c :: _ => some c
  | [] => none

/-- A value's `repr`: a `bool`, a number or a text. -/
inductive Atom
  | bool (b : Bool)
  | number (n : Number)
  | str (text : String)
  deriving DecidableEq

def reprBool (b : Bool) : List Char :=
  if b then ['T', 'r', 'u', 'e'] else ['F', 'a', 'l', 's', 'e']

def reprOption : Option String → List Char
  | none => ['N', 'o', 'n', 'e']
  | some text => reprStr printable text

def reprAtom : Atom → List Char
  | .bool b => reprBool b
  | .number n => n.write
  | .str text => reprStr printable text

def reprMore : List Atom → List Char
  | [] => [')']
  | item :: items => ',' :: ' ' :: (reprAtom printable item ++ reprMore items)

/-- What follows the first item of a tuple: a comma, where it is the only one. -/
def reprRest : List Atom → List Char
  | [] => [',', ')']
  | items => reprMore printable items

def reprTuple : List Atom → List Char
  | [] => ['(', ')']
  | item :: items => '(' :: (reprAtom printable item ++ reprRest printable items)

variable {printable} {quote : Char}

theorem quoteOf_cases (text : List Char) : quoteOf text = '\'' ∨ quoteOf text = '"' := by
  rw [quoteOf]
  split
  · exact .inr rfl
  · exact .inl rfl

theorem reprUnescape_escape (is : quote = '\'' ∨ quote = '"') (c : Char) (s : List Char) :
    reprUnescape quote (reprEscape printable quote c ++ s) = some c := by
  have plain : (reprShorts quote).Plain ['x', 'u', 'U'] := by
    obtain rfl | rfl := is <;> decide
  rw [reprEscape]
  cases short : (reprShorts quote).get? c with
  | some letter =>
    obtain ⟨other, stands⟩ := plain _ (Dict.mem_of_get? short)
    simp only [mem_cons, not_mem_nil, or_false, not_or] at other
    show reprUnescape quote ('\\' :: letter :: s) = some c
    rw [reprUnescape, stands]
    · exact other.1
    · exact other.2.1
    · exact other.2.2
  | none =>
    have ne : c ≠ '\\' := fun same => by
      rw [same] at short
      obtain rfl | rfl := is <;> exact absurd short (by decide)
    have small : c < ' ' ∨ c = '\x7f' → c.toNat < 16 ^ 2 := by
      rintro (control | rfl)
      · exact Nat.lt_trans (show c.toNat < ' '.toNat from control) (by decide)
      · decide
    dsimp only
    split
    next control =>
      exact ofNat_unhex (small control) s
    split
    next =>
      show reprUnescape quote (c :: s) = some c
      rw [reprUnescape]
      · exact fun _ same => absurd same ne
      · exact fun _ same => absurd same ne
      · exact fun _ same => absurd same ne
      · exact fun _ _ same => absurd same ne
    split
    next few =>
      rw [cons_append, cons_append, reprUnescape]
      exact ofNat_unhex few s
    split
    next few =>
      rw [cons_append, cons_append, reprUnescape]
      exact ofNat_unhex few s
    next =>
      rw [cons_append, cons_append, reprUnescape]
      exact ofNat_unhex (Nat.lt_trans (toNat_lt c) (by decide)) s

theorem repr_escapes (is : quote = '\'' ∨ quote = '"') :
    Escapes quote (reprEscape printable quote) (reprUnescape quote) where
  reads := reprUnescape_escape is
  inside c := by
    have backslash (rest : List Char) : ∃ d s, '\\' :: rest = d :: s ∧ d ≠ quote := by
      refine ⟨'\\', rest, rfl, ?_⟩
      obtain rfl | rfl := is <;> decide
    rw [reprEscape]
    cases short : (reprShorts quote).get? c with
    | some letter => exact backslash _
    | none =>
      dsimp only
      split
      next => exact backslash _
      split
      next =>
        refine ⟨c, [], rfl, fun same => ?_⟩
        rw [same, reprShorts, Dict.get?_cons_self] at short
        cases short
      split
      next => exact backslash _
      split
      next => exact backslash _
      next => exact backslash _

theorem tells_reprStr : Tells (reprStr printable) Anything := by
  intro a b s t _ _ same
  have quote : quoteOf a.toList = quoteOf b.toList := (cons.inj same).1
  have escapes : Escapes (quoteOf b.toList) (reprEscape printable (quoteOf b.toList)) _ :=
    repr_escapes (quoteOf_cases b.toList)
  rw [reprStr, quote] at same
  obtain ⟨text, rest⟩ := escapes.tells _ _ s t trivial trivial same
  exact ⟨String.toList_inj.mp text, rest⟩

theorem tells_reprBool : Tells reprBool Anything := by
  intro a b s t _ _ same
  cases a <;> cases b
  · exact ⟨rfl, append_cancel_left same⟩
  · exact absurd (cons.inj same).1 (by decide)
  · exact absurd (cons.inj same).1 (by decide)
  · exact ⟨rfl, append_cancel_left same⟩

theorem reprStr_start (text : String) :
    ∃ c rest, reprStr printable text = c :: rest ∧ (c = '\'' ∨ c = '"') :=
  ⟨_, _, rfl, quoteOf_cases text.toList⟩

theorem tells_reprOption : Tells (reprOption printable) Anything := by
  have apart (text : String) (s t : List Char) :
      ['N', 'o', 'n', 'e'] ++ s ≠ reprStr printable text ++ t := by
    intro same
    obtain ⟨c, rest, is, quote⟩ := @reprStr_start printable text
    rw [is] at same
    obtain rfl : 'N' = c := (cons.inj same).1
    exact absurd quote (by decide)
  intro a b s t hs ht same
  cases a with
  | none =>
    cases b with
    | none => exact ⟨rfl, append_cancel_left same⟩
    | some b => exact absurd same (apart b s t)
  | some a =>
    cases b with
    | none => exact absurd same.symm (apart a t s)
    | some b =>
      obtain ⟨rfl, rest⟩ := tells_reprStr a b s t hs ht same
      exact ⟨rfl, rest⟩

def Atom.start : Atom → Start
  | .bool _ => .bool
  | .number _ => .number
  | .str _ => .quote

def reprStartOf (c : Char) : Start :=
  if c = 'T' ∨ c = 'F' then .bool
  else if c = '\'' ∨ c = '"' then .quote
  else if isNumberChar c then .number
  else .other

theorem reprStartOf_isNumberChar {c : Char} (is : isNumberChar c = true) :
    reprStartOf c = .number := by
  have ne (d : Char) (other : isNumberChar d = false) : c ≠ d :=
    fun same => Bool.false_ne_true ((same ▸ other : isNumberChar c = false).symm.trans is)
  simp [reprStartOf, ne 'T' (by decide), ne 'F' (by decide), ne '"' (by decide),
    ne '\'' (by decide), is]

theorem reprAtom_start (value : Atom) :
    ∃ c rest, reprAtom printable value = c :: rest ∧ reprStartOf c = value.start := by
  cases value with
  | bool b => cases b <;> exact ⟨_, _, rfl, by decide⟩
  | number n =>
    rw [reprAtom]
    cases written : n.write with
    | nil => exact absurd written (Number.write_ne_nil n)
    | cons c rest =>
      refine ⟨c, rest, rfl, reprStartOf_isNumberChar (Number.isNumberChar_of_mem (n := n) ?_)⟩
      exact written ▸ mem_cons_self
  | str text =>
    obtain ⟨c, rest, is, quote⟩ := @reprStr_start printable text
    refine ⟨c, rest, is, ?_⟩
    obtain rfl | rfl := quote <;> rfl

theorem tells_reprAtom : Tells (reprAtom printable) NumberEnds := by
  intro a b s t hs ht same
  have start : a.start = b.start := by
    obtain ⟨c, rest, is, start⟩ := @reprAtom_start printable a
    obtain ⟨d, rest', is', start'⟩ := @reprAtom_start printable b
    rw [is, is'] at same
    rw [← start, ← start', (cons.inj same).1]
  cases a with
  | bool x =>
    cases b <;> cases start
    obtain ⟨rfl, rest⟩ := tells_reprBool _ _ s t trivial trivial same
    exact ⟨rfl, rest⟩
  | number n =>
    cases b <;> cases start
    obtain ⟨rfl, rest⟩ := tells_number _ _ s t hs ht same
    exact ⟨rfl, rest⟩
  | str text =>
    cases b <;> cases start
    obtain ⟨rfl, rest⟩ := tells_reprStr _ _ s t trivial trivial same
    exact ⟨rfl, rest⟩

theorem numberEnds_reprMore (items : List Atom) (s : List Char) :
    NumberEnds (reprMore printable items ++ s) := by
  cases items with
  | nil => exact fun c mem => by cases mem; decide
  | cons item items => exact fun c mem => by cases mem; decide

theorem numberEnds_reprRest (items : List Atom) (s : List Char) :
    NumberEnds (reprRest printable items ++ s) := by
  cases items with
  | nil => exact fun c mem => by cases mem; decide
  | cons item items => exact numberEnds_reprMore (item :: items) s

theorem tells_reprMore : Tells (reprMore printable) Anything := by
  intro xs ys s t _ _ same
  induction xs generalizing ys with
  | nil =>
    cases ys with
    | nil => exact ⟨rfl, append_cancel_left same⟩
    | cons y ys => exact absurd (cons.inj same).1 (by decide)
  | cons x xs ih =>
    cases ys with
    | nil => exact absurd (cons.inj same).1 (by decide)
    | cons y ys =>
      rw [reprMore, reprMore, cons_append, cons_append, cons_append,
        cons_append, append_assoc, append_assoc] at same
      obtain ⟨rfl, more⟩ := tells_reprAtom x y _ _ (numberEnds_reprMore xs s)
        (numberEnds_reprMore ys t) (cons.inj (cons.inj same).2).2
      obtain ⟨rfl, rest⟩ := ih ys more
      exact ⟨rfl, rest⟩

theorem tells_reprRest : Tells (reprRest printable) Anything := by
  have apart (y : Atom) (ys : List Atom) (s t : List Char) :
      reprRest printable [] ++ s ≠ reprRest printable (y :: ys) ++ t :=
    fun same => absurd (cons.inj (cons.inj same).2).1 (by decide)
  intro xs ys s t _ _ same
  cases xs with
  | nil =>
    cases ys with
    | nil => exact ⟨rfl, append_cancel_left same⟩
    | cons y ys => exact absurd same (apart y ys s t)
  | cons x xs =>
    cases ys with
    | nil => exact absurd same.symm (apart x xs t s)
    | cons y ys => exact tells_reprMore (x :: xs) (y :: ys) s t trivial trivial same

theorem tells_reprTuple : Tells (reprTuple printable) Anything := by
  have apart (item : Atom) (items : List Atom) (s t : List Char) :
      reprTuple printable [] ++ s ≠ reprTuple printable (item :: items) ++ t := by
    intro same
    obtain ⟨c, rest, is, start⟩ := @reprAtom_start printable item
    rw [reprTuple, reprTuple, is] at same
    obtain rfl : ')' = c := (cons.inj (cons.inj same).2).1
    cases item <;> exact nomatch start
  intro xs ys s t _ _ same
  cases xs with
  | nil =>
    cases ys with
    | nil => exact ⟨rfl, append_cancel_left same⟩
    | cons y ys => exact absurd same (apart y ys s t)
  | cons x xs =>
    cases ys with
    | nil => exact absurd same.symm (apart x xs t s)
    | cons y ys =>
      rw [reprTuple, reprTuple, cons_append, cons_append, append_assoc, append_assoc] at same
      obtain ⟨rfl, more⟩ := tells_reprAtom x y _ _ (numberEnds_reprRest xs s)
        (numberEnds_reprRest ys t) (cons.inj same).2
      obtain ⟨rfl, rest⟩ := tells_reprRest xs ys s t trivial trivial more
      exact ⟨rfl, rest⟩

end

end DataViz.PyText
