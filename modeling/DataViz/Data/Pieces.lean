/-
# Cutting work into pieces

Work is held in pieces, and a piece may be replaced by the parts it is cut into, any number of
times. A weight that every cut shares out among its parts is that of the whole work however it is
cut (`Cuts.sum_eq`). Where a piece of weight two or more can always be cut into smaller ones, the
work can be cut until no piece weighs more than one (`exists_cuts_light`). So a count that is at
most the weight and sees every weight is right of all cuts exactly where the weight is right of
the work at first (`sum_counts_iff`).
-/

import Mathlib.Algebra.Order.BigOperators.Group.List
import Mathlib.Algebra.Order.Ring.Nat

namespace DataViz.Pieces

open List

variable {α : Type*} {cut : α → List α → Prop}

/-- Pieces, and those left when some are replaced by the parts of a cut, one after another. -/
inductive Cuts (cut : α → List α → Prop) (pieces : List α) : List α → Prop where
  | refl : Cuts cut pieces pieces
  | step {before after parts : List α} {piece : α}
      (cuts : Cuts cut pieces (before ++ piece :: after)) (parted : cut piece parts) :
      Cuts cut pieces (before ++ parts ++ after)

theorem Cuts.trans {first second third : List α} (start : Cuts cut first second)
    (more : Cuts cut second third) : Cuts cut first third := by
  induction more with
  | refl => exact start
  | step _ parted ih => exact ih.step parted

theorem Cuts.around {pieces after : List α} (left right : List α) (cuts : Cuts cut pieces after) :
    Cuts cut (left ++ pieces ++ right) (left ++ after ++ right) := by
  induction cuts with
  | refl => exact .refl
  | @step before behind parts piece _ parted ih =>
    have whole : left ++ (before ++ piece :: behind) ++ right =
        (left ++ before) ++ piece :: (behind ++ right) := by
      simp only [append_assoc, cons_append]
    rw [whole] at ih
    have done := ih.step parted
    simp only [append_assoc] at done ⊢
    exact done

section

variable {weight : α → ℕ}
  (shared : ∀ piece parts, cut piece parts → (parts.map weight).sum = weight piece)

include shared

/-- A weight that cuts share out is that of the whole. -/
theorem Cuts.sum_eq {pieces after : List α} (cuts : Cuts cut pieces after) :
    (after.map weight).sum = (pieces.map weight).sum := by
  induction cuts with
  | refl => rfl
  | step _ parted ih =>
    rw [← ih, map_append, map_append, sum_append, sum_append,
      shared _ _ parted, map_append, map_cons, sum_append, sum_cons,
      Nat.add_assoc]

omit shared

theorem cuts_light_of_each {pieces : List α}
    (each : ∀ piece ∈ pieces, ∃ light, Cuts cut [piece] light ∧ ∀ part ∈ light, weight part ≤ 1) :
    ∃ light, Cuts cut pieces light ∧ ∀ part ∈ light, weight part ≤ 1 := by
  induction pieces with
  | nil => exact ⟨[], .refl, fun _ mem => absurd mem not_mem_nil⟩
  | cons piece rest ih =>
    obtain ⟨first, firstCuts, firstLight⟩ := each piece mem_cons_self
    obtain ⟨others, otherCuts, otherLight⟩ :=
      ih fun other mem => each other (mem_cons_of_mem _ mem)
    have start := firstCuts.around [] rest
    have finish := otherCuts.around first []
    rw [append_nil, append_nil] at finish
    refine ⟨first ++ others, start.trans finish, fun part mem => ?_⟩
    rcases mem_append.mp mem with mem | mem
    · exact firstLight part mem
    · exact otherLight part mem

theorem exists_cuts_light (size : α → ℕ) (smaller : ∀ piece, 2 ≤ weight piece →
      ∃ parts, cut piece parts ∧ ∀ part ∈ parts, size part < size piece)
    (pieces : List α) : ∃ light, Cuts cut pieces light ∧ ∀ part ∈ light, weight part ≤ 1 := by
  -- By induction on the size: the parts of a heavy piece are smaller.
  have single (n : ℕ) : ∀ piece, size piece = n →
      ∃ light, Cuts cut [piece] light ∧ ∀ part ∈ light, weight part ≤ 1 := by
    induction n using Nat.strong_induction_on with
    | _ n ih =>
      intro piece bound
      by_cases heavy : 2 ≤ weight piece
      · obtain ⟨parts, parted, less⟩ := smaller piece heavy
        have each : ∀ part ∈ parts,
            ∃ light, Cuts cut [part] light ∧ ∀ part ∈ light, weight part ≤ 1 :=
          fun part mem => ih (size part) (bound ▸ less part mem) part rfl
        obtain ⟨light, cuts, isLight⟩ := cuts_light_of_each each
        have start : Cuts cut ([] ++ piece :: []) ([] ++ parts ++ []) := Cuts.refl.step parted
        rw [append_nil] at start
        exact ⟨light, start.trans cuts, isLight⟩
      · refine ⟨[piece], .refl, fun part mem => ?_⟩
        rw [mem_singleton.mp mem]
        omega
  exact cuts_light_of_each fun piece _ => single (size piece) piece rfl

include shared

theorem sum_counts_iff (size : α → ℕ) (smaller : ∀ piece, 2 ≤ weight piece →
      ∃ parts, cut piece parts ∧ ∀ part ∈ parts, size part < size piece)
    {count : α → ℕ} (le : ∀ piece, count piece ≤ weight piece)
    (sees : ∀ piece, 0 < weight piece → 0 < count piece) {pieces : List α} {total : ℕ}
    (single : total ≤ 1) :
    (∀ after, Cuts cut pieces after → (after.map count).sum = total) ↔
      (pieces.map weight).sum = total := by
  constructor
  · intro all
    obtain ⟨light, cuts, isLight⟩ := exists_cuts_light size smaller pieces
    have same : light.map count = light.map weight := by
      apply map_congr_left
      intro part mem
      have within := le part
      have most := isLight part mem
      have least := sees part
      omega
    rw [← cuts.sum_eq shared, ← same]
    exact all light cuts
  · intro first after cuts
    have whole := cuts.sum_eq shared
    have most : (after.map count).sum ≤ (after.map weight).sum :=
      sum_le_sum fun part _ => le part
    rcases Nat.eq_zero_or_pos total with rfl | some'
    · omega
    · have least : 0 < (after.map count).sum := by
        have heavy : (after.map weight).sum ≠ 0 := by omega
        rw [ne_eq, sum_eq_zero_iff, not_forall] at heavy
        obtain ⟨amount, heavy⟩ := heavy
        rw [Classical.not_imp] at heavy
        obtain ⟨part, mem, rfl⟩ := mem_map.mp heavy.1
        exact (sees part (Nat.pos_of_ne_zero heavy.2)).trans_le
          (single_le_sum (fun _ _ => Nat.zero_le _) _ (mem_map_of_mem mem))
      omega

end

end DataViz.Pieces
