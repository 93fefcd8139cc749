/-
# The sorted merge of two streams of rows

`_merge` of `reconcile.py` reads two ascending streams with one row of each under a
cursor. It pairs every key of both, yields every key of one on its own side, and
ends with both streams read to their ends.
-/

import Mathlib.Data.Nat.Basic
import Mathlib.Order.Lattice

namespace DataViz.Versioning

variable {α β κ : Type*}

/-- What the merge yields: a row of Postgres only, one of FalkorDB only, or the rows
of an id that both have. -/
inductive MergeItem (α β : Type*)
  | missing (pg : α)
  | extra (fk : β)
  | both (pg : α) (fk : β)

/-- The id a row or a pair of rows is found under. -/
def MergeItem.key (pgKey : α → κ) (fkKey : β → κ) : MergeItem α β → κ
  | .missing pg => pgKey pg
  | .extra fk => fkKey fk
  | .both pg _ => pgKey pg

/-- The rows under the cursors, where `none` is `_SENTINEL`, and the streams behind
them. -/
structure SortedMerge (α β : Type*) where
  pg : Option α
  pgIter : List α
  fk : Option β
  fkIter : List β

namespace SortedMerge

section

variable [LinearOrder κ] (pgKey : α → κ) (fkKey : β → κ)

/-- The first row of each stream is read before the loop. -/
def start (pgIter : List α) (fkIter : List β) : SortedMerge α β :=
  ⟨pgIter.head?, pgIter.tail, fkIter.head?, fkIter.tail⟩

def nextPg (merge : SortedMerge α β) : SortedMerge α β :=
  { merge with pg := merge.pgIter.head?, pgIter := merge.pgIter.tail }

def nextFk (merge : SortedMerge α β) : SortedMerge α β :=
  { merge with fk := merge.fkIter.head?, fkIter := merge.fkIter.tail }

/-- One turn of the loops: what is yielded, and the rows read after it. -/
def step (merge : SortedMerge α β) : Option (MergeItem α β × SortedMerge α β) :=
  match merge.pg, merge.fk with
  | some pg, some fk =>
    if pgKey pg = fkKey fk then some (.both pg fk, merge.nextPg.nextFk)
    else if pgKey pg < fkKey fk then some (.missing pg, merge.nextPg)
    else some (.extra fk, merge.nextFk)
  | some pg, none => some (.missing pg, merge.nextPg)
  | none, some fk => some (.extra fk, merge.nextFk)
  | none, none => none

def left (merge : SortedMerge α β) : ℕ :=
  merge.pg.toList.length + merge.pgIter.length + (merge.fk.toList.length + merge.fkIter.length)

theorem length_read {γ : Type*} (rows : List γ) :
    rows.head?.toList.length + rows.tail.length = rows.length := by
  cases rows with
  | nil => rfl
  | cons row rest => exact Nat.add_comm _ _

theorem left_nextPg {merge : SortedMerge α β} {pg : α} (some' : merge.pg = some pg) :
    merge.nextPg.left < merge.left := by
  have read := length_read merge.pgIter
  simp only [left, nextPg, some', Option.toList_some, List.length_singleton]
  omega

theorem left_nextFk {merge : SortedMerge α β} {fk : β} (some' : merge.fk = some fk) :
    merge.nextFk.left < merge.left := by
  have read := length_read merge.fkIter
  simp only [left, nextFk, some', Option.toList_some, List.length_singleton]
  omega

theorem left_step {merge next : SortedMerge α β} {item : MergeItem α β}
    (yields : merge.step pgKey fkKey = some (item, next)) : next.left < merge.left := by
  unfold step at yields
  split at yields
  next pg fk hpg hfk =>
    have second : merge.nextPg.nextFk.left < merge.nextPg.left := left_nextFk hfk
    have both : merge.nextPg.nextFk.left < merge.left := second.trans (left_nextPg hpg)
    split at yields
    · cases yields
      exact both
    split at yields
    · cases yields
      exact left_nextPg hpg
    · cases yields
      exact left_nextFk hfk
  next pg hpg hfk =>
    cases yields
    exact left_nextPg hpg
  next fk hpg hfk =>
    cases yields
    exact left_nextFk hfk
  next => cases yields

def run (merge : SortedMerge α β) : List (MergeItem α β) × SortedMerge α β :=
  match _yields : merge.step pgKey fkKey with
  | some (item, next) => (item :: (run next).1, (run next).2)
  | none => ([], merge)
termination_by merge.left
decreasing_by all_goals exact left_step pgKey fkKey (by assumption)

variable {pgKey fkKey} {pg : α} {fk : β} {pgIter : List α} {fkIter : List β}

theorem run_of_step {merge next : SortedMerge α β} {item : MergeItem α β}
    (yields : merge.step pgKey fkKey = some (item, next)) :
    merge.run pgKey fkKey = (item :: (next.run pgKey fkKey).1, (next.run pgKey fkKey).2) := by
  rw [run]
  split
  next item' next' yields' =>
    rw [yields] at yields'
    cases yields'
    rfl
  next ended =>
    rw [yields] at ended
    cases ended

theorem run_start_nil : (start [] [] : SortedMerge α β).run pgKey fkKey = ([], start [] []) := by
  rw [run]
  rfl

/-- The items of a merge of two streams: each key of both is paired, each key of one
is yielded on its side, and keys ascend, so that none is yielded twice. -/
structure PairsExactly (pgKey : α → κ) (fkKey : β → κ) (pgIter : List α) (fkIter : List β)
    (items : List (MergeItem α β)) : Prop where
  ascending : items.Pairwise fun first second => first.key pgKey fkKey < second.key pgKey fkKey
  both : ∀ pg fk, .both pg fk ∈ items ↔ pg ∈ pgIter ∧ fk ∈ fkIter ∧ pgKey pg = fkKey fk
  missing : ∀ pg, .missing pg ∈ items ↔ pg ∈ pgIter ∧ ∀ fk ∈ fkIter, fkKey fk ≠ pgKey pg
  extra : ∀ fk, .extra fk ∈ items ↔ fk ∈ fkIter ∧ ∀ pg ∈ pgIter, pgKey pg ≠ fkKey fk

namespace PairsExactly

variable {items : List (MergeItem α β)}

theorem key_gt (exactly : PairsExactly pgKey fkKey pgIter fkIter items) {key : κ}
    (pgs : ∀ pg ∈ pgIter, key < pgKey pg) (fks : ∀ fk ∈ fkIter, key < fkKey fk) :
    ∀ item ∈ items, key < item.key pgKey fkKey := by
  intro item mem
  cases item with
  | missing pg => exact pgs pg ((exactly.missing pg).mp mem).1
  | extra fk => exact fks fk ((exactly.extra fk).mp mem).1
  | both pg fk => exact pgs pg ((exactly.both pg fk).mp mem).1

theorem cons_both (exactly : PairsExactly pgKey fkKey pgIter fkIter items)
    (same : pgKey pg = fkKey fk) (pgs : ∀ other ∈ pgIter, pgKey pg < pgKey other)
    (fks : ∀ other ∈ fkIter, pgKey pg < fkKey other) :
    PairsExactly pgKey fkKey (pg :: pgIter) (fk :: fkIter) (.both pg fk :: items) where
  ascending := List.pairwise_cons.mpr ⟨exactly.key_gt pgs fks, exactly.ascending⟩
  both pg' fk' := by grind [exactly.both pg' fk']
  missing pg' := by grind [exactly.missing pg']
  extra fk' := by grind [exactly.extra fk']

theorem cons_missing (exactly : PairsExactly pgKey fkKey pgIter fkIter items)
    (pgs : ∀ other ∈ pgIter, pgKey pg < pgKey other)
    (fks : ∀ other ∈ fkIter, pgKey pg < fkKey other) :
    PairsExactly pgKey fkKey (pg :: pgIter) fkIter (.missing pg :: items) where
  ascending := List.pairwise_cons.mpr ⟨exactly.key_gt pgs fks, exactly.ascending⟩
  both pg' fk' := by grind [exactly.both pg' fk']
  missing pg' := by grind [exactly.missing pg']
  extra fk' := by grind [exactly.extra fk']

theorem cons_extra (exactly : PairsExactly pgKey fkKey pgIter fkIter items)
    (pgs : ∀ other ∈ pgIter, fkKey fk < pgKey other)
    (fks : ∀ other ∈ fkIter, fkKey fk < fkKey other) :
    PairsExactly pgKey fkKey pgIter (fk :: fkIter) (.extra fk :: items) where
  ascending := List.pairwise_cons.mpr ⟨exactly.key_gt pgs fks, exactly.ascending⟩
  both pg' fk' := by grind [exactly.both pg' fk']
  missing pg' := by grind [exactly.missing pg']
  extra fk' := by grind [exactly.extra fk']

end PairsExactly

/-- For two strictly ascending streams, the merge pairs the keys of both, yields each
other row once on its own side, in ascending order, and reads both to their ends. -/
theorem run_pairsExactly (pgIter : List α) (fkIter : List β)
    (pgs : pgIter.Pairwise fun first second => pgKey first < pgKey second)
    (fks : fkIter.Pairwise fun first second => fkKey first < fkKey second) :
    PairsExactly pgKey fkKey pgIter fkIter ((start pgIter fkIter).run pgKey fkKey).1 ∧
      ((start pgIter fkIter).run pgKey fkKey).2 = ⟨none, [], none, []⟩ := by
  induction pgIter generalizing fkIter with
  | nil =>
    induction fkIter with
    | nil =>
      rw [run_start_nil]
      exact ⟨⟨.nil, by simp, by simp, by simp⟩, rfl⟩
    | cons fk fkIter ih =>
      obtain ⟨least, fks⟩ := List.pairwise_cons.mp fks
      obtain ⟨exactly, ended⟩ := ih fks
      have yields : (start [] (fk :: fkIter)).step pgKey fkKey =
          some (.extra fk, start [] fkIter) := rfl
      rw [run_of_step yields]
      exact ⟨exactly.cons_extra nofun least, ended⟩
  | cons pg pgIter ihPg =>
    obtain ⟨leastPg, pgs'⟩ := List.pairwise_cons.mp pgs
    induction fkIter with
    | nil =>
      obtain ⟨exactly, ended⟩ := ihPg [] pgs' .nil
      have yields : (start (pg :: pgIter) []).step pgKey fkKey =
          some (.missing pg, start pgIter []) := rfl
      rw [run_of_step yields]
      exact ⟨exactly.cons_missing leastPg nofun, ended⟩
    | cons fk fkIter ihFk =>
      obtain ⟨leastFk, fks'⟩ := List.pairwise_cons.mp fks
      rcases lt_trichotomy (pgKey pg) (fkKey fk) with lower | same | higher
      · obtain ⟨exactly, ended⟩ := ihPg (fk :: fkIter) pgs' fks
        have yields : (start (pg :: pgIter) (fk :: fkIter)).step pgKey fkKey =
            some (.missing pg, start pgIter (fk :: fkIter)) :=
          (if_neg (ne_of_lt lower)).trans (if_pos lower)
        rw [run_of_step yields]
        refine ⟨exactly.cons_missing leastPg fun other mem => ?_, ended⟩
        rcases List.mem_cons.mp mem with rfl | later
        · exact lower
        · exact lt_trans lower (leastFk other later)
      · obtain ⟨exactly, ended⟩ := ihPg fkIter pgs' fks'
        have yields : (start (pg :: pgIter) (fk :: fkIter)).step pgKey fkKey =
            some (.both pg fk, start pgIter fkIter) := if_pos same
        rw [run_of_step yields]
        exact ⟨exactly.cons_both same leastPg fun other mem => same ▸ leastFk other mem, ended⟩
      · obtain ⟨exactly, ended⟩ := ihFk fks'
        have yields : (start (pg :: pgIter) (fk :: fkIter)).step pgKey fkKey =
            some (.extra fk, start (pg :: pgIter) fkIter) :=
          (if_neg (ne_of_gt higher)).trans (if_neg (not_lt_of_gt higher))
        rw [run_of_step yields]
        refine ⟨exactly.cons_extra (fun other mem => ?_) leastFk, ended⟩
        rcases List.mem_cons.mp mem with rfl | later
        · exact higher
        · exact lt_trans higher (leastPg other later)

/-- Ids of both, of one and of the other. -/
theorem run_pairsExactly_three :
    ([1, 3, 4] : List ℕ).Pairwise (fun first second => id first < id second) ∧
      PairsExactly (id : ℕ → ℕ) id [1, 3, 4] [2, 3] ((start [1, 3, 4] [2, 3]).run id id).1 :=
  ⟨by decide, (run_pairsExactly [1, 3, 4] [2, 3] (by decide) (by decide)).1⟩

end
end SortedMerge
end DataViz.Versioning
