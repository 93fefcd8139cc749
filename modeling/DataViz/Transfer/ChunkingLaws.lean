/-
# Lines do not depend on the chunks

Between chunks only the unfinished line is kept, as bytes, so characters and line ends that
straddle chunks are put together again. The limit on a line is only tested on what a chunk leaves
unfinished: a line that is too long passes if its line feed comes in the chunk that makes it so.
-/

import DataViz.Transfer.DelimitedLaws

namespace DataViz.Transfer.Lines

open List

def finished (bytes : List UInt8) : List (List UInt8) :=
  (bytes.splitOn lineFeed).dropLast

def unfinished (bytes : List UInt8) : List UInt8 :=
  (bytes.splitOn lineFeed).getLast (List.splitOn_ne_nil _ _)

/-- The lines of what is still to read, the first of which may have begun. -/
def ahead (s : Lines) (bytes : List UInt8) : List (List UInt8) :=
  (bytes.splitOn lineFeed).modifyHead (s.tail ++ ·)

variable {s : Lines} {bytes : List UInt8}

theorem ahead_nil : s.ahead [] = [s.tail] := by
  rw [ahead, splitOn_nil, modifyHead_cons, append_nil]

theorem ahead_fresh (bytes : List UInt8) : ahead {} bytes = bytes.splitOn lineFeed := by
  rw [ahead]
  cases bytes.splitOn lineFeed <;> rfl

theorem ahead_ne_nil : s.ahead bytes ≠ [] := by
  rw [ahead, ne_eq, modifyHead_eq_nil_iff]
  exact splitOn_ne_nil _ _

theorem ahead_cons (b : UInt8) (rest : List UInt8) : s.ahead (b :: rest) =
    if b = lineFeed then s.tail :: (s.byte b).ahead rest else (s.byte b).ahead rest := by
  rw [ahead, ahead, byte, splitOn_cons_eq_if_modifyHead]
  by_cases ends : b = lineFeed
  · rw [if_pos (beq_iff_eq.mpr ends), if_pos ends, if_pos ends, modifyHead_cons, append_nil]
    cases rest.splitOn lineFeed <;> rfl
  · rw [if_neg (mt beq_iff_eq.mp ends), if_neg ends, if_neg ends, modifyHead_modifyHead]
    congr 1
    funext line
    exact (append_assoc s.tail [b] line).symm

theorem ahead_append {front : List UInt8} (clean : lineFeed ∉ front) (back : List UInt8) :
    s.ahead (front ++ back) = (front.foldl byte s).ahead back := by
  induction front generalizing s with
  | nil => rfl
  | cons b rest ih =>
    rw [mem_cons, not_or] at clean
    rw [cons_append, ahead_cons, if_neg (Ne.symm clean.1), ih clean.2, foldl_cons]

theorem splitOn_line {line : List UInt8} (clean : lineFeed ∉ line) :
    (line ++ [lineFeed]).splitOn lineFeed = [line, []] := by
  rw [← ahead_fresh, ahead_append clean, foldl_byte_gather clean, ahead_cons]
  rfl

/-- What is left unfinished is the last line. -/
theorem tail_foldl_byte (bytes : List UInt8) (s : Lines) :
    (bytes.foldl byte s).tail = (s.ahead bytes).getLast ahead_ne_nil := by
  induction bytes generalizing s with
  | nil => simp only [foldl_nil, ahead_nil, getLast_singleton]
  | cons b rest ih =>
    rw [foldl_cons, ih]
    by_cases ends : b = lineFeed
    · simp only [ahead_cons, if_pos ends, getLast_cons ahead_ne_nil]
    · simp only [ahead_cons, if_neg ends]

/-- What is unfinished anywhere is the start of a line. -/
theorem length_tail_le_of_ahead {limit : ℕ} {front back : List UInt8}
    (short : ∀ line ∈ s.ahead (front ++ back), line.length ≤ limit) :
    (front.foldl byte s).tail.length ≤ limit := by
  induction front generalizing s with
  | nil =>
    have some' : s.ahead back ≠ [] := ahead_ne_nil
    obtain ⟨line, rest, lines⟩ := exists_cons_of_ne_nil some'
    have starts : line.length = s.tail.length + (line.length - s.tail.length) := by
      rw [ahead] at lines
      cases cut : back.splitOn lineFeed with
      | nil => exact absurd cut (splitOn_ne_nil _ _)
      | cons first more =>
        rw [cut] at lines
        rw [← (List.cons.inj lines).1, length_append]
        omega
    have sub := short line (lines ▸ mem_cons_self)
    rw [foldl_nil]
    omega
  | cons b rest ih =>
    apply ih
    intro line mem
    apply short line
    rw [cons_append, ahead_cons]
    split
    · exact mem_cons_of_mem _ mem
    · exact mem

/-- Where no line is too long, a file is read as if it came at once. -/
theorem read_of_short {chunks : List (List UInt8)}
    (short : ∀ line ∈ s.ahead chunks.flatten, line.length ≤ maxRecordBytes) :
    s.read chunks = (chunks.flatten.foldl byte s).read [] := by
  apply read_eq
  intro front back split
  apply length_tail_le_of_ahead
  rwa [split]

theorem refuses_of_unfinished {chunks : List (List UInt8)} (fits : s.tail.length ≤ maxRecordBytes)
    (long : maxRecordBytes < (chunks.flatten.foldl byte s).tail.length) :
    (s.read chunks).failure.isSome := by
  induction chunks generalizing s with
  | nil =>
    exact absurd long (Nat.not_lt.mpr fits)
  | cons bytes rest ih =>
    rw [flatten_cons, foldl_append] at long
    rw [read]
    split
    · rfl
    · next here => exact ih (Nat.not_lt.mp here) long

theorem reads_at_once (ends : (unfinished bytes).length ≤ maxRecordBytes) :
    (read {} [bytes]).failure = none := by
  have tail : (bytes.foldl byte {}).tail = unfinished bytes := by
    rw [tail_foldl_byte]
    simp only [ahead_fresh]
    rfl
  rw [read, tail, if_neg (Nat.not_lt.mpr ends)]
  rfl

/-- Two readings yield the same lines, or both refuse the file. -/
def Alike (first second : Stream Text) : Prop :=
  (first.failure.isSome ∧ second.failure.isSome) ∨
    (first.failure = none ∧ second.failure = none ∧ first.items = second.items)

/-- How a file is read does not depend on how it was chunked, and a line that is too long is
refused however it was. -/
structure ReadsAlike (bytes : List UInt8) : Prop where
  alike : ∀ chunks chunks', chunks.flatten = bytes → chunks'.flatten = bytes →
    Alike (read {} chunks) (read {} chunks')
  refused : ∀ line ∈ bytes.splitOn lineFeed, maxRecordBytes < line.length →
    ∀ chunks, chunks.flatten = bytes → (read {} chunks).failure.isSome

theorem not_readsAlike {line : List UInt8} (mem : line ∈ bytes.splitOn lineFeed)
    (long : maxRecordBytes < line.length) (ends : (unfinished bytes).length ≤ maxRecordBytes) :
    ¬ ReadsAlike bytes := by
  intro reads
  have refused := reads.refused line mem long [bytes] (flatten_singleton)
  rw [reads_at_once ends] at refused
  cases refused

/-- Every chunking of a file reads alike just when none of its finished lines is too long, or what
follows them is. -/
theorem readsAlike_iff (bytes : List UInt8) : ReadsAlike bytes ↔
    (∀ line ∈ finished bytes, line.length ≤ maxRecordBytes) ∨
      maxRecordBytes < (unfinished bytes).length := by
  have lines : bytes.splitOn lineFeed = finished bytes ++ [unfinished bytes] :=
    (dropLast_append_getLast _).symm
  constructor
  · intro reads
    by_cases ends : maxRecordBytes < (unfinished bytes).length
    · exact .inr ends
    · left
      intro line mem
      by_contra long
      refine not_readsAlike ?_ (Nat.not_le.mp long) (Nat.not_lt.mp ends) reads
      rw [lines]
      exact mem_append_left _ mem
  · intro condition
    by_cases ends : maxRecordBytes < (unfinished bytes).length
    · have refused (chunks : List (List UInt8)) (cut : chunks.flatten = bytes) :
          (read {} chunks).failure.isSome := by
        refine refuses_of_unfinished (Nat.zero_le _) ?_
        rw [tail_foldl_byte]
        simp only [ahead_fresh, cut]
        exact ends
      exact {
        alike := fun chunks chunks' cut cut' => .inl ⟨refused chunks cut, refused chunks' cut'⟩
        refused := fun _ _ _ chunks cut => refused chunks cut }
    · have short : ∀ line ∈ bytes.splitOn lineFeed, line.length ≤ maxRecordBytes := by
        intro line mem
        rw [lines, mem_append, mem_singleton] at mem
        rcases mem with mem | rfl
        · exact condition.resolve_right ends line mem
        · exact Nat.not_lt.mp ends
      have whole (chunks : List (List UInt8)) (cut : chunks.flatten = bytes) :
          read {} chunks = (bytes.foldl byte {}).read [] := by
        rw [read_of_short]
        · rw [cut]
        · rw [cut, ahead_fresh]
          exact short
      exact {
        alike := by
          intro chunks chunks' cut cut'
          rw [whole chunks cut, whole chunks' cut']
          exact .inr ⟨rfl, rfl, rfl⟩
        refused := fun line mem long => absurd (short line mem) (Nat.not_le.mpr long) }

def longLine : List UInt8 :=
  List.replicate (maxRecordBytes + 1) 97 ++ [lineFeed]

theorem longLine_not_readsAlike : ¬ ReadsAlike longLine := by
  have clean : lineFeed ∉ List.replicate (maxRecordBytes + 1) (97 : UInt8) := by
    intro mem
    exact absurd (eq_of_mem_replicate mem) (by decide)
  have lines := splitOn_line clean
  have mem : List.replicate (maxRecordBytes + 1) 97 ∈ longLine.splitOn lineFeed := by
    rw [longLine, lines]
    exact mem_cons_self
  have ends : unfinished longLine = [] := by
    simp only [unfinished, longLine, lines]
    rfl
  apply not_readsAlike mem
  · rw [length_replicate]
    exact Nat.lt_succ_self _
  · rw [ends]
    exact Nat.zero_le _

end DataViz.Transfer.Lines
