/-
# Texts as bytes

UTF-8 as the files hold it. A line feed is a byte of its own: no other character has it among its
bytes, so a file is cut into lines before it is decoded.
-/

import DataViz.Data.Text

namespace DataViz

open List Option

def utf8 (text : Text) : List UInt8 :=
  text.flatMap String.utf8EncodeChar

def ofUtf8 (bytes : List UInt8) : Option Text :=
  bytes.toByteArray.utf8Decode?.map Array.toList

@[simp]
theorem utf8_nil : utf8 [] = [] :=
  rfl

theorem utf8_cons (c : Char) (text : Text) :
    utf8 (c :: text) = String.utf8EncodeChar c ++ utf8 text :=
  rfl

@[simp]
theorem utf8_append (first second : Text) : utf8 (first ++ second) = utf8 first ++ utf8 second :=
  flatMap_append

theorem ofUtf8_utf8 (text : Text) : ofUtf8 (utf8 text) = some text := by
  have decoded : (utf8Encode text).utf8Decode? = some text.toArray :=
    utf8Decode?_utf8Encode
  change (utf8Encode text).utf8Decode?.map Array.toList = some text
  rw [decoded, map_some]

def lineFeed : UInt8 :=
  10

theorem utf8_lineFeed : utf8 ['\n'] = [lineFeed] :=
  rfl

/-- A byte of a character that is no ASCII character is none of theirs. -/
theorem notMem_utf8EncodeChar {c : Char} (other : c ≠ '\n') :
    lineFeed ∉ String.utf8EncodeChar c := by
  have ne : c.val.toNat ≠ 10 := by
    intro same
    apply other
    apply Char.ext
    apply UInt32.toNat_inj.mp
    rw [same]
    rfl
  have small (n : ℕ) (low : n ≠ 10) (lt : n < 256) : lineFeed ≠ UInt8.ofNat n := by
    intro same
    have toNat := congrArg UInt8.toNat same
    rw [UInt8.toNat_ofNat_of_lt' lt] at toNat
    exact low toNat.symm
  unfold String.utf8EncodeChar
  dsimp only
  split
  · rw [mem_singleton]
    exact small _ ne (by omega)
  · split
    · simp only [mem_cons, not_mem_nil, or_false, not_or]
      exact ⟨small _ (by omega) (by omega), small _ (by omega) (by omega)⟩
    · split
      · simp only [mem_cons, not_mem_nil, or_false, not_or]
        exact ⟨small _ (by omega) (by omega), small _ (by omega) (by omega),
          small _ (by omega) (by omega)⟩
      · simp only [mem_cons, not_mem_nil, or_false, not_or]
        exact ⟨small _ (by omega) (by omega), small _ (by omega) (by omega),
          small _ (by omega) (by omega), small _ (by omega) (by omega)⟩

theorem notMem_utf8 {text : Text} (line : '\n' ∉ text) : lineFeed ∉ utf8 text := by
  rw [utf8, mem_flatMap]
  rintro ⟨c, mem, feed⟩
  exact notMem_utf8EncodeChar (ne_of_mem_of_not_mem mem line) feed

end DataViz
