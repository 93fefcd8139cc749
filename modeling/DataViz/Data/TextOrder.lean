/-
# Texts in order

UTF-8 keeps the order of characters: texts compare as their bytes (`cmp_textBytes`). Two characters
part at the first byte in which they differ, and neither is written as the beginning of the other.
-/

import DataViz.Data.Utf8

namespace DataViz

open List

/-- Two lists part: after what they share, the first goes on with a smaller item. -/
def Parts (first second : List ℕ) : Prop :=
  ∃ shared x y rest rest', first = shared ++ x :: rest ∧ second = shared ++ y :: rest' ∧ x < y

theorem Parts.head {x y : ℕ} {rest rest' : List ℕ} (lt : x < y) : Parts (x :: rest) (y :: rest') :=
  ⟨[], x, y, rest, rest', rfl, rfl, lt⟩

theorem Parts.cons {x : ℕ} {first second : List ℕ} (parts : Parts first second) :
    Parts (x :: first) (x :: second) := by
  obtain ⟨shared, y, z, rest, rest', rfl, rfl, lt⟩ := parts
  exact ⟨x :: shared, y, z, rest, rest', rfl, rfl, lt⟩

theorem Parts.append {first second : List ℕ} (parts : Parts first second) (more more' : List ℕ) :
    first ++ more < second ++ more' := by
  obtain ⟨shared, x, y, rest, rest', rfl, rfl, lt⟩ := parts
  induction shared with
  | nil => exact List.Lex.rel lt
  | cons z shared ih => exact List.Lex.cons ih

def charBytes (c : Char) : List ℕ :=
  (String.utf8EncodeChar c).map UInt8.toNat

theorem toNat_lt (c : Char) : c.toNat < 0x110000 := by
  have valid : c.toNat < 0xd800 ∨ 0xdfff < c.toNat ∧ c.toNat < 0x110000 := c.valid
  omega

theorem charBytes_eq (c : Char) : charBytes c = if c.toNat ≤ 0x7f then [c.toNat]
    else if c.toNat ≤ 0x7ff then [c.toNat / 64 + 192, c.toNat % 64 + 128]
    else if c.toNat ≤ 0xffff then
      [c.toNat / 4096 + 224, c.toNat / 64 % 64 + 128, c.toNat % 64 + 128]
    else [c.toNat / 262144 + 240, c.toNat / 4096 % 64 + 128, c.toNat / 64 % 64 + 128,
      c.toNat % 64 + 128] := by
  have bound := toNat_lt c
  have byte (n m : ℕ) (same : n = m) (small : m < 256) : (UInt8.ofNat n).toNat = m := by
    rw [same, UInt8.toNat_ofNat_of_lt' small]
  unfold charBytes String.utf8EncodeChar
  unfold Char.toNat at bound ⊢
  generalize c.val.toNat = v at bound ⊢
  dsimp only
  split
  · rw [map_singleton, byte v v rfl (by omega)]
  split
  · simp only [map_cons, map_nil]
    rw [byte _ (v / 64 + 192) _ (by omega), byte _ (v % 64 + 128) rfl (by omega)]
    omega
  split
  · simp only [map_cons, map_nil]
    rw [byte _ (v / 4096 + 224) _ (by omega), byte _ (v / 64 % 64 + 128) rfl (by omega),
      byte _ (v % 64 + 128) rfl (by omega)]
    omega
  · simp only [map_cons, map_nil]
    rw [byte _ (v / 262144 + 240) _ (by omega), byte _ (v / 4096 % 64 + 128) rfl (by omega),
      byte _ (v / 64 % 64 + 128) rfl (by omega), byte _ (v % 64 + 128) rfl (by omega)]
    omega

/-- Two numbers written in the same way part where they first differ. -/
theorem parts_cons {x y : ℕ} {rest rest' : List ℕ} (le : x ≤ y)
    (same : x = y → Parts rest rest') : Parts (x :: rest) (y :: rest') := by
  obtain lt | rfl := Nat.lt_or_eq_of_le le
  · exact .head lt
  · exact (same rfl).cons

theorem charBytes_parts {c d : Char} (lt : c < d) : Parts (charBytes c) (charBytes d) := by
  have lt : c.toNat < d.toNat := lt
  have bound := toNat_lt d
  rw [charBytes_eq, charBytes_eq]
  generalize c.toNat = m at lt ⊢
  generalize d.toNat = n at lt bound ⊢
  by_cases one : m ≤ 0x7f
  · rw [if_pos one]
    split
    · exact .head lt
    split
    · exact .head (by omega)
    split
    · exact .head (by omega)
    · exact .head (by omega)
  rw [if_neg one, if_neg (by omega : ¬ n ≤ 0x7f)]
  by_cases two : m ≤ 0x7ff
  · rw [if_pos two]
    split
    · refine parts_cons (by omega) fun same => .head ?_
      omega
    split
    · exact .head (by omega)
    · exact .head (by omega)
  rw [if_neg two, if_neg (by omega : ¬ n ≤ 0x7ff)]
  by_cases three : m ≤ 0xffff
  · rw [if_pos three]
    split
    · refine parts_cons (by omega) fun same => parts_cons (by omega) fun same' => .head ?_
      omega
    · exact .head (by omega)
  rw [if_neg three, if_neg (by omega : ¬ n ≤ 0xffff)]
  refine parts_cons (by omega) fun same => parts_cons (by omega) fun same' =>
    parts_cons (by omega) fun same'' => .head ?_
  omega

theorem charBytes_ne_nil (c : Char) : charBytes c ≠ [] := by
  rw [charBytes_eq]
  split
  · exact cons_ne_nil _ _
  split
  · exact cons_ne_nil _ _
  split
  · exact cons_ne_nil _ _
  · exact cons_ne_nil _ _

def textBytes (text : Text) : List ℕ :=
  (utf8 text).map UInt8.toNat

theorem textBytes_cons (c : Char) (text : Text) :
    textBytes (c :: text) = charBytes c ++ textBytes text :=
  map_append

/-- Bytes are ordered as the characters they encode. -/
theorem textBytes_lt {first second : Text} (lt : first < second) :
    textBytes first < textBytes second := by
  induction first generalizing second with
  | nil =>
    cases second with
    | nil => exact absurd lt (lt_irrefl _)
    | cons d rest =>
      rw [textBytes_cons]
      cases bytes : charBytes d with
      | nil => exact absurd bytes (charBytes_ne_nil d)
      | cons x more => exact List.Lex.nil
  | cons c first ih =>
    cases second with
    | nil => cases lt
    | cons d second =>
      rw [textBytes_cons, textBytes_cons]
      cases lt with
      | rel lt => exact (charBytes_parts lt).append _ _
      | cons lt => exact append_left_lt (ih lt)

theorem textBytes_lt_iff {first second : Text} :
    textBytes first < textBytes second ↔ first < second := by
  refine ⟨fun lt => ?_, textBytes_lt⟩
  obtain less | rfl | greater := lt_trichotomy first second
  · exact less
  · exact absurd lt (lt_irrefl _)
  · exact absurd lt (lt_asymm (textBytes_lt greater))

theorem cmp_textBytes (first second : Text) :
    cmp (textBytes first) (textBytes second) = cmp first second := by
  unfold cmp cmpUsing
  simp only [textBytes_lt_iff]

end DataViz
