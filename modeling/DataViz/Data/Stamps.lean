/-
# Numbers at fixed widths

A stamp writes numbers one after another, each at a width of its own and followed by a mark of its
own. Stamps of one layout are ordered as their numbers are, from the left.
-/

import DataViz.Data.Series

namespace DataViz

section

variable {α : Type*} {base : ℕ} [NeZero base] {letter : Fin base → α}

/-- Numbers, each with the width it is written at and the mark after it. -/
def stamp (letter : Fin base → α) : List (ℕ × List α) → List ℕ → List α
  | (width, mark) :: layout, value :: values =>
    written letter value width ++ mark ++ stamp letter layout values
  | _, _ => []

def Fits (base : ℕ) : List (ℕ × List α) → List ℕ → Prop :=
  List.Forall₂ fun part value => value < base ^ part.1

variable {layout : List (ℕ × List α)} {values values' : List ℕ}

theorem length_stamp_eq (fits : Fits base layout values) (fits' : Fits base layout values') :
    (stamp letter layout values).length = (stamp letter layout values').length := by
  induction fits generalizing values' with
  | nil =>
    cases fits'
    rfl
  | cons _ _ ih =>
    cases fits' with
    | cons _ rest => simp only [stamp, List.length_append, length_written, ih rest]

theorem stamp_inj (apart : Function.Injective letter) (fits : Fits base layout values)
    (fits' : Fits base layout values') :
    stamp letter layout values = stamp letter layout values' ↔ values = values' := by
  induction fits generalizing values' with
  | nil =>
    cases fits'
    exact ⟨fun _ => rfl, fun _ => rfl⟩
  | cons small _ ih =>
    cases fits' with
    | cons small' rest =>
      rw [stamp, stamp, List.append_assoc, List.append_assoc, List.cons.injEq,
        ← written_inj apart small small', ← ih rest]
      constructor
      · intro same
        obtain ⟨front, back⟩ := List.append_inj same (by simp)
        exact ⟨front, List.append_cancel_left back⟩
      · rintro ⟨front, back⟩
        rw [front, back]

theorem stamp_append_lt_iff [LinearOrder α] (rising : StrictMono letter)
    (fits : Fits base layout values) (fits' : Fits base layout values') (more more' : List α) :
    (stamp letter layout values ++ more < stamp letter layout values' ++ more' ↔
      values < values' ∨ values = values' ∧ more < more') := by
  rw [append_lt_append_iff (length_stamp_eq fits fits'), stamp_inj rising.injective fits fits']
  refine or_congr_left ?_
  induction fits generalizing values' with
  | nil =>
    cases fits'
    simp [stamp]
  | cons small _ ih =>
    cases fits' with
    | cons small' rest =>
      rw [stamp, stamp, List.append_assoc, List.append_assoc,
        append_lt_append_iff (by simp), written_lt_iff rising small small',
        written_inj rising.injective small small', List.cons_lt_cons_iff,
        append_lt_append_iff rfl, ih rest]
      simp

end

end DataViz
