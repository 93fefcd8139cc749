/-
# Routes of a query

A pattern of so many steps is matched by the routes that do not go on from a node they have passed;
one may end on such a node. What a walk of any kind reaches, such a route reaches in no more steps.
-/

import Mathlib.Data.Nat.Find

namespace DataViz

namespace Routes

variable {α : Type*} {next back : α → List α}

def Walk (next : α → List α) : ℕ → α → α → Prop
  | 0, a, b => a = b
  | k + 1, a, b => ∃ c ∈ next a, Walk next k c b

variable {k : ℕ}

theorem Walk.snoc {a b c : α} (walk : Walk next k a b) (step : c ∈ next b) :
    Walk next (k + 1) a c := by
  induction k generalizing a with
  | zero =>
    cases show a = b from walk
    exact ⟨c, step, rfl⟩
  | succ k ih =>
    obtain ⟨d, first, rest⟩ := walk
    exact ⟨d, first, ih rest⟩

variable {a b : α}

theorem Walk.reverse (edges : ∀ a b, b ∈ next a → a ∈ back b) (walk : Walk next k a b) :
    Walk back k b a := by
  induction k generalizing a with
  | zero => exact (show a = b from walk).symm
  | succ k ih =>
    obtain ⟨c, first, rest⟩ := walk
    exact (ih rest).snoc (edges a c first)

variable [DecidableEq α]

/-- What the routes of so many steps end on, with what is passed before. -/
def ends (next : α → List α) : ℕ → List α → α → List α
  | 0, _, a => [a]
  | k + 1, passed, a => if a ∈ passed then [] else (next a).flatMap (ends next k (a :: passed))

theorem walk_of_mem_ends {passed : List α} (reached : b ∈ ends next k passed a) :
    Walk next k a b := by
  induction k generalizing passed a with
  | zero => exact (List.mem_singleton.mp reached).symm
  | succ k ih =>
    rw [ends] at reached
    split at reached
    · cases reached
    · obtain ⟨c, first, rest⟩ := List.mem_flatMap.mp reached
      exact ⟨c, first, ih rest⟩

theorem mem_ends_of_shortest {passed : List α} (walk : Walk next k a b)
    (shortest : ∀ j < k, ¬ Walk next j a b) (apart : ∀ c ∈ passed, ∀ j ≤ k, ¬ Walk next j c b) :
    b ∈ ends next k passed a := by
  induction k generalizing passed a with
  | zero => exact List.mem_singleton.mpr (show a = b from walk).symm
  | succ k ih =>
    have new : a ∉ passed := fun old => apart a old (k + 1) le_rfl walk
    obtain ⟨c, first, rest⟩ := walk
    rw [ends, if_neg new]
    refine List.mem_flatMap.mpr ⟨c, first, ih rest ?_ ?_⟩
    · exact fun j less walk => shortest (j + 1) (Nat.succ_lt_succ less) ⟨c, first, walk⟩
    · intro d passed' j least
      obtain rfl | old := List.mem_cons.mp passed'
      · exact shortest j (Nat.lt_succ_of_le least)
      · exact apart d old j (Nat.le_succ_of_le least)

/-- What a walk reaches, a route reaches in no more steps. -/
theorem exists_mem_ends (walk : Walk next k a b) : ∃ j ≤ k, b ∈ ends next j [] a := by
  classical
  have some : ∃ j, Walk next j a b := ⟨k, walk⟩
  refine ⟨Nat.find some, Nat.find_min' some walk, ?_⟩
  exact mem_ends_of_shortest (Nat.find_spec some) (fun j less => Nat.find_min some less) nofun

/-- What the routes of `least` to `most` steps end on. -/
def reached (next : α → List α) (least most : ℕ) (a : α) : List α :=
  (List.range' least (most + 1 - least)).flatMap fun k => ends next k [] a

theorem mem_reached {least most : ℕ} : b ∈ reached next least most a ↔
    ∃ k, least ≤ k ∧ k ≤ most ∧ b ∈ ends next k [] a := by
  rw [reached, List.mem_flatMap]
  constructor
  · rintro ⟨k, inside, found⟩
    obtain ⟨from_, upTo⟩ := List.mem_range'_1.mp inside
    exact ⟨k, from_, by omega, found⟩
  · rintro ⟨k, from_, upTo, found⟩
    exact ⟨k, List.mem_range'_1.mpr ⟨from_, by omega⟩, found⟩

/-- What a walk leads to is led from, both by routes of no more steps, back to where it began. -/
theorem mem_reached_back (edges : ∀ a b, b ∈ next a → a ∈ back b) {k most : ℕ}
    (walk : Walk next k a b) (short : k ≤ most) : a ∈ reached back 0 most b := by
  obtain ⟨j, least, found⟩ := exists_mem_ends (walk.reverse edges)
  exact mem_reached.mpr ⟨j, Nat.zero_le j, Nat.le_trans least short, found⟩

end Routes

end DataViz
