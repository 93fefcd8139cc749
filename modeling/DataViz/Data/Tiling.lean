/-
# Ranges that tile a range

Ranges end to end, the first from where the whole begins and the last to where it ends. What is read
of the tiles, one after another, is what is read of the whole.
-/

import Mathlib.Data.List.Basic

namespace DataViz

section

/-- The ranges stand end to end from `lo` to `hi`. -/
def Tiles : ℕ → List (ℕ × ℕ) → ℕ → Prop
  | lo, [], hi => lo = hi
  | lo, tile :: tiles, hi => tile.1 = lo ∧ tile.1 ≤ tile.2 ∧ Tiles tile.2 tiles hi

variable {lo mid hi : ℕ} {tiles more : List (ℕ × ℕ)}

theorem Tiles.single (le : lo ≤ hi) : Tiles lo [(lo, hi)] hi :=
  ⟨rfl, le, rfl⟩

theorem Tiles.le (tiling : Tiles lo tiles hi) : lo ≤ hi := by
  induction tiles generalizing lo with
  | nil => exact Nat.le_of_eq tiling
  | cons tile tiles ih =>
    obtain ⟨rfl, wide, rest⟩ := tiling
    exact Nat.le_trans wide (ih rest)

theorem Tiles.append (first : Tiles lo tiles mid) (second : Tiles mid more hi) :
    Tiles lo (tiles ++ more) hi := by
  induction tiles generalizing lo with
  | nil => exact first ▸ second
  | cons tile tiles ih =>
    obtain ⟨same, wide, rest⟩ := first
    exact ⟨same, wide, ih rest⟩

end

end DataViz
