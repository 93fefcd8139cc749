/-
# The first rows of several lists

To keep the first rows of what has come so far is enough to know the first rows of everything:
sorting and cutting a part first changes nothing, as long as no fewer rows are kept
(`firstRows_append_firstRows`). The order is a total preorder; what it does not tell apart must not
both be there.
-/

import Mathlib.Data.List.Sort
import Mathlib.Data.List.Perm.Basic

namespace DataViz

open List

universe u

variable {ρ : Type u} (r : ρ → ρ → Prop) [DecidableRel r]

def firstRows (k : ℕ) (rows : List ρ) : List ρ :=
  (rows.insertionSort r).take k

/-- No two rows come both before each other. -/
def TellsApart (rows : List ρ) : Prop :=
  ∀ x ∈ rows, ∀ y ∈ rows, r x y → r y x → x = y

variable {r} {rows some more : List ρ} {k m : ℕ}

theorem firstRows_subset : firstRows r k rows ⊆ rows :=
  fun _ mem => (mem_insertionSort r).mp (mem_of_mem_take mem)

theorem length_firstRows : (firstRows r k rows).length = min k rows.length := by
  rw [firstRows, length_take, length_insertionSort]

omit [DecidableRel r] in
theorem TellsApart.mono (apart : TellsApart r rows) (sub : some ⊆ rows) : TellsApart r some :=
  fun x memX y memY => apart x (sub memX) y (sub memY)

section

variable [Std.Total r] [IsTrans ρ r]

/-- Rows of equal elements sort alike. -/
theorem insertionSort_eq_of_perm (apart : TellsApart r rows) (perm : rows.Perm some) :
    rows.insertionSort r = some.insertionSort r := by
  have perms : (rows.insertionSort r).Perm (some.insertionSort r) :=
    (perm_insertionSort r rows).trans (perm.trans (perm_insertionSort r some).symm)
  refine perms.eq_of_pairwise ?_ (pairwise_insertionSort r rows) (pairwise_insertionSort r some)
  intro x y memX memY
  exact apart x ((mem_insertionSort r).mp memX) y (perm.mem_iff.mpr ((mem_insertionSort r).mp memY))

theorem firstRows_of_perm (apart : TellsApart r rows) (perm : rows.Perm some) :
    firstRows r k rows = firstRows r k some := by
  rw [firstRows, insertionSort_eq_of_perm apart perm, firstRows]

theorem firstRows_eq {first rest : List ρ} (apart : TellsApart r rows)
    (perm : rows.Perm (first ++ rest)) (sorted : first.Pairwise r)
    (before : ∀ x ∈ first, ∀ y ∈ rest, r x y) (length : first.length = min k rows.length) :
    firstRows r k rows = first := by
  have whole : rows.insertionSort r = first ++ rest.insertionSort r := by
    have perms : (rows.insertionSort r).Perm (first ++ rest.insertionSort r) :=
      (perm_insertionSort r rows).trans
        (perm.trans ((perm_insertionSort r rest).symm.append_left first))
    refine perms.eq_of_pairwise ?_ (pairwise_insertionSort r rows) ?_
    · intro x y memX memY
      refine apart x ((mem_insertionSort r).mp memX) y ?_
      exact (mem_insertionSort r).mp (perms.mem_iff.mpr memY)
    · refine pairwise_append.mpr ⟨sorted, pairwise_insertionSort r rest, ?_⟩
      exact fun x memX y memY => before x memX y ((mem_insertionSort r).mp memY)
  rw [firstRows, whole, take_append]
  have total : rows.length = first.length + rest.length := by
    rw [perm.length_eq, length_append]
  obtain full | short := Nat.lt_or_ge first.length k |>.symm
  · have exact : first.length = k := by omega
    rw [exact, Nat.sub_self, take_zero, append_nil, ← exact, take_length]
  · have none : rest = [] := by
      apply eq_nil_of_length_eq_zero
      omega
    rw [none, insertionSort_nil, take_nil, append_nil, take_of_length_le (Nat.le_of_lt short)]

theorem firstRows_pairwise : (firstRows r k rows).Pairwise r :=
  (pairwise_insertionSort r rows).sublist (take_sublist k _)

theorem exists_firstRows : ∃ rest, rows.Perm (firstRows r k rows ++ rest) ∧
    ∀ x ∈ firstRows r k rows, ∀ y ∈ rest, r x y := by
  refine ⟨(rows.insertionSort r).drop k, ?_, ?_⟩
  · rw [firstRows, take_append_drop]
    exact (perm_insertionSort r rows).symm
  · have sorted := pairwise_insertionSort r rows
    rw [← take_append_drop k (rows.insertionSort r)] at sorted
    exact (pairwise_append.mp sorted).2.2

/-- Cutting a part first changes nothing, if no fewer rows are kept of it. -/
theorem firstRows_append_firstRows (apart : TellsApart r (rows ++ more)) (le : k ≤ m) :
    firstRows r k (firstRows r m rows ++ more) = firstRows r k (rows ++ more) := by
  classical
  have splitCut : ∃ rest, rows.Perm (firstRows r m rows ++ rest) ∧ _ := exists_firstRows
  have split : ∃ rest, (firstRows r m rows ++ more).Perm
      (firstRows r k (firstRows r m rows ++ more) ++ rest) ∧ _ := exists_firstRows
  obtain ⟨cut, permCut, afterCut⟩ := splitCut
  obtain ⟨rest, permRest, afterRest⟩ := split
  have lengthCut : (firstRows r m rows).length = min m rows.length := length_firstRows
  have lengthFirst : (firstRows r k (firstRows r m rows ++ more)).length = min k _ :=
    length_firstRows
  rw [length_append] at lengthFirst
  have total := permCut.length_eq
  rw [length_append] at total
  generalize firstRows r m rows = part at *
  generalize firstKept : firstRows r k (part ++ more) = first at *
  have perm : (rows ++ more).Perm (first ++ (rest ++ cut)) := by
    have moved : (part ++ cut ++ more).Perm (part ++ more ++ cut) := by
      rw [append_assoc, append_assoc]
      exact perm_append_comm.append_left part
    refine ((permCut.append_right more).trans moved).trans ?_
    rw [← append_assoc]
    exact permRest.append_right cut
  have sorted : first.Pairwise r := firstKept ▸ firstRows_pairwise
  refine (firstRows_eq apart perm sorted ?_ ?_).symm
  · intro x memX y memY
    obtain inRest | inCut := mem_append.mp memY
    · exact afterRest x memX y inRest
    · by_cases late : ∃ a ∈ part, r x a
      · obtain ⟨a, here, there⟩ := late
        exact IsTrans.trans x a y there (afterCut a here y inCut)
      · -- All of what was kept comes before `x`, which is one row more than are asked for.
        exfalso
        have fresh : x ∉ part := fun mem => late ⟨x, mem, (Std.Total.total x x).elim id id⟩
        have inside : part.Subperm first := by
          refine subperm_ext_iff.mpr ?_
          intro a mem
          have none : rest.count a = 0 :=
            count_eq_zero.mpr fun there => late ⟨a, mem, afterRest x memX a there⟩
          have counts := permRest.count_eq a
          rw [count_append, count_append] at counts
          omega
        have longer := (cons_subperm_of_not_mem_of_mem fresh memX inside).length_le
        have some := length_pos_of_mem inCut
        rw [length_cons] at longer
        omega
  · rw [length_append]
    obtain none | some := Nat.eq_zero_or_pos cut.length
    · omega
    · omega

/-- The first rows of two parts are enough to know the first rows of both. -/
theorem firstRows_append (apart : TellsApart r (rows ++ more)) :
    firstRows r k (firstRows r k rows ++ firstRows r k more) = firstRows r k (rows ++ more) := by
  have sub : firstRows r k rows ++ more ⊆ rows ++ more :=
    append_subset.mpr ⟨subset_append_of_subset_left more firstRows_subset,
      subset_append_right rows more⟩
  have flip : (more ++ firstRows r k rows).Perm (firstRows r k rows ++ more) :=
    perm_append_comm
  have apartPart : TellsApart r (more ++ firstRows r k rows) :=
    apart.mono (Subset.trans flip.subset sub)
  have apartBoth : TellsApart r (firstRows r k rows ++ firstRows r k more) :=
    apart.mono (append_subset.mpr ⟨subset_append_of_subset_left more firstRows_subset,
      subset_append_of_subset_right rows firstRows_subset⟩)
  calc firstRows r k (firstRows r k rows ++ firstRows r k more)
      = firstRows r k (firstRows r k more ++ firstRows r k rows) :=
        firstRows_of_perm apartBoth perm_append_comm
    _ = firstRows r k (more ++ firstRows r k rows) :=
        firstRows_append_firstRows apartPart le_rfl
    _ = firstRows r k (firstRows r k rows ++ more) := firstRows_of_perm apartPart flip
    _ = firstRows r k (rows ++ more) := firstRows_append_firstRows apart le_rfl

end

end DataViz
