/-
# Hash tries of a fixed depth

A trie over digit paths whose full-depth leaves carry a hash and whose interior nodes hash their
children in digit order. A node with nothing below it has the hash `empty`. The hash function is a
parameter; what a collision would break is stated as a hypothesis about the child lists that are
really hashed.

A table of node hashes that is right away from some touched leaves is made right everywhere by
rehashing the ancestors of those leaves, the deepest level first.
-/

import Mathlib.Data.List.Dedup
import Mathlib.Data.Set.Function

namespace DataViz.HashTrie

open List

universe u v

variable {ι : Type u} {H : Type v}

section

variable [DecidableEq H] (digits : List ι) (empty : H) (nodeHash : List H → H)

def parentHash (children : List H) : H :=
  if ∀ h ∈ children, h = empty then empty else nodeHash children

/-- The hash of the node at a path with the given number of levels below it. -/
def treeHash (leaf : List ι → H) : ℕ → List ι → H
  | 0, path => leaf path
  | levels + 1, path =>
    parentHash empty nodeHash (digits.map fun digit => treeHash leaf levels (path ++ [digit]))

def childHashes (leaf : List ι → H) (levels : ℕ) (path : List ι) : List H :=
  digits.map fun digit => treeHash digits empty nodeHash leaf levels (path ++ [digit])

variable {digits empty nodeHash}

theorem treeHash_succ (leaf : List ι → H) (levels : ℕ) (path : List ι) :
    treeHash digits empty nodeHash leaf (levels + 1) path =
      parentHash empty nodeHash (childHashes digits empty nodeHash leaf levels path) := rfl

variable {first second : List ι → H} {path : List ι}

theorem treeHash_congr {levels : ℕ}
    (h : ∀ rest, rest.length = levels → first (path ++ rest) = second (path ++ rest)) :
    treeHash digits empty nodeHash first levels path =
      treeHash digits empty nodeHash second levels path := by
  induction levels generalizing path with
  | zero => simpa [treeHash] using h [] rfl
  | succ levels ih =>
    have hchild : ∀ digit, treeHash digits empty nodeHash first levels (path ++ [digit]) =
        treeHash digits empty nodeHash second levels (path ++ [digit]) := by
      intro digit
      refine ih fun rest hrest => ?_
      simpa using h (digit :: rest) (by simp [hrest])
    simp only [treeHash, hchild]

theorem treeHash_eq_empty {leaf : List ι → H} {levels : ℕ}
    (h : ∀ rest, rest.length = levels → leaf (path ++ rest) = empty) :
    treeHash digits empty nodeHash leaf levels path = empty := by
  induction levels generalizing path with
  | zero => simpa [treeHash] using h [] rfl
  | succ levels ih =>
    rw [treeHash, parentHash, if_pos]
    intro hash hmem
    obtain ⟨digit, -, rfl⟩ := mem_map.mp hmem
    refine ih fun rest hrest => ?_
    simpa using h (digit :: rest) (by simp [hrest])

/-- The node hash tells the given child lists apart and is never `empty` on
them. -/
structure Separates (empty : H) (nodeHash : List H → H) (used : Set (List H)) : Prop where
  injOn : Set.InjOn nodeHash used
  ne_empty : ∀ children ∈ used, nodeHash children ≠ empty

/-- Every nonempty node of the trie, at or below a path, has its child list
among those in use. -/
def Covers (digits : List ι) (empty : H) (nodeHash : List H → H) (used : Set (List H))
    (leaf : List ι → H) (depth : ℕ) : Prop :=
  ∀ (path : List ι) (levels : ℕ), path.length + (levels + 1) = depth →
    (∃ hash ∈ childHashes digits empty nodeHash leaf levels path, hash ≠ empty) →
    childHashes digits empty nodeHash leaf levels path ∈ used

theorem childHashes_eq_of_treeHash_eq {used : Set (List H)} {depth levels : ℕ}
    (hsep : Separates empty nodeHash used) (hfirst : Covers digits empty nodeHash used first depth)
    (hsecond : Covers digits empty nodeHash used second depth)
    (hlength : path.length + (levels + 1) = depth)
    (h : treeHash digits empty nodeHash first (levels + 1) path =
      treeHash digits empty nodeHash second (levels + 1) path) :
    childHashes digits empty nodeHash first levels path =
      childHashes digits empty nodeHash second levels path := by
  rw [treeHash_succ, treeHash_succ, parentHash, parentHash] at h
  split at h <;> rename_i hfirstEmpty <;> split at h <;> rename_i hsecondEmpty
  · apply map_congr_left
    intro digit hdigit
    rw [hfirstEmpty _ (mem_map_of_mem hdigit), hsecondEmpty _ (mem_map_of_mem hdigit)]
  · push Not at hsecondEmpty
    exact absurd h.symm (hsep.ne_empty _ (hsecond path levels hlength hsecondEmpty))
  · push Not at hfirstEmpty
    exact absurd h (hsep.ne_empty _ (hfirst path levels hlength hfirstEmpty))
  · push Not at hfirstEmpty hsecondEmpty
    exact hsep.injOn (hfirst path levels hlength hfirstEmpty)
      (hsecond path levels hlength hsecondEmpty) h

theorem leaf_eq_of_treeHash_eq {used : Set (List H)} {depth levels : ℕ}
    (hsep : Separates empty nodeHash used) (hfirst : Covers digits empty nodeHash used first depth)
    (hsecond : Covers digits empty nodeHash used second depth)
    (hlength : path.length + levels = depth)
    (h : treeHash digits empty nodeHash first levels path =
      treeHash digits empty nodeHash second levels path)
    {rest : List ι} (hrest : rest.length = levels) (hdigits : ∀ digit ∈ rest, digit ∈ digits) :
    first (path ++ rest) = second (path ++ rest) := by
  induction levels generalizing path rest with
  | zero =>
    obtain rfl : rest = [] := length_eq_zero_iff.mp hrest
    simpa [treeHash] using h
  | succ levels ih =>
    cases rest with
    | nil => simp at hrest
    | cons digit rest =>
      have hchildren := childHashes_eq_of_treeHash_eq hsep hfirst hsecond hlength h
      have hchild : treeHash digits empty nodeHash first levels (path ++ [digit]) =
          treeHash digits empty nodeHash second levels (path ++ [digit]) :=
        map_inj_left.mp hchildren digit (hdigits digit (by simp))
      have hbelow : first (path ++ [digit] ++ rest) = second (path ++ [digit] ++ rest) :=
        ih (by simpa [Nat.add_comm, Nat.add_left_comm] using hlength) hchild
          (by simpa using hrest) fun d hd => hdigits d (by simp [hd])
      simpa using hbelow

end

section

variable [DecidableEq ι] [DecidableEq H] (digits : List ι) (empty : H) (nodeHash : List H → H)

/-- Recompute one node of a table of hashes from its children. -/
def rehashAt (table : List ι → H) (path : List ι) : List ι → H :=
  Function.update table path
    (parentHash empty nodeHash (digits.map fun digit => table (path ++ [digit])))

variable {digits empty nodeHash}

theorem rehashAt_of_ne {table : List ι → H} {path other : List ι} (h : other ≠ path) :
    rehashAt digits empty nodeHash table path other = table other := by
  simp [rehashAt, h]

theorem rehashAt_self (table : List ι → H) (path : List ι) :
    rehashAt digits empty nodeHash table path path =
      parentHash empty nodeHash (digits.map fun digit => table (path ++ [digit])) := by
  simp [rehashAt]

theorem foldl_rehashAt {level : ℕ} {paths : List (List ι)}
    (hpaths : ∀ path ∈ paths, path.length = level) (table : List ι → H) (other : List ι) :
    paths.foldl (rehashAt digits empty nodeHash) table other = if other ∈ paths then
        parentHash empty nodeHash (digits.map fun digit => table (other ++ [digit]))
      else table other := by
  induction paths generalizing table with
  | nil => simp
  | cons path rest ih =>
    have hpath : path.length = level := hpaths path (by simp)
    rw [foldl_cons, ih fun p hp => hpaths p (by simp [hp])]
    have hchild : ∀ digit, other ∈ path :: rest →
        rehashAt digits empty nodeHash table path (other ++ [digit])
          = table (other ++ [digit]) := by
      intro digit hmem
      refine rehashAt_of_ne fun heq => ?_
      have hother : other.length = level := hpaths other hmem
      have hlength := congrArg length heq
      simp at hlength
      omega
    by_cases hmem : other ∈ rest
    · have hmem' : other ∈ path :: rest := mem_cons_of_mem _ hmem
      rw [if_pos hmem, if_pos hmem']
      simp only [hchild _ hmem']
    · rw [if_neg hmem]
      by_cases heq : other = path
      · subst heq
        rw [if_pos (by simp), rehashAt_self]
      · rw [if_neg (by simp [heq, hmem]), rehashAt_of_ne heq]

/-- The table after rehashing every dirty path, level `levels - 1` first. -/
def rebuild (digits : List ι) (empty : H) (nodeHash : List H → H) (dirty : ℕ → List (List ι)) :
    ℕ → (List ι → H) → List ι → H
  | 0, table => table
  | levels + 1, table =>
    rebuild digits empty nodeHash dirty levels
      ((dirty levels).foldl (rehashAt digits empty nodeHash) table)

def DirtyOf (dirty : ℕ → List (List ι)) (touched : List (List ι)) (depth : ℕ) : Prop :=
  ∀ level < depth, ∀ path, path ∈ dirty level ↔
    path.length = level ∧ ∃ leaf ∈ touched, path <+: leaf

/-- A table that is right at and below `levels`, and right above it away from
the touched leaves, is right everywhere after the levels above are rehashed. -/
theorem rebuild_eq_treeHash {leaf : List ι → H} {dirty : ℕ → List (List ι)}
    {touched : List (List ι)} {depth levels : ℕ} (hdirty : DirtyOf dirty touched depth)
    (hlevels : levels ≤ depth) {table : List ι → H}
    (htable : ∀ path, path.length ≤ depth → (levels ≤ path.length ∨ ∀ l ∈ touched, ¬ path <+: l) →
      table path = treeHash digits empty nodeHash leaf (depth - path.length) path)
    {path : List ι} (hpath : path.length ≤ depth) :
    rebuild digits empty nodeHash dirty levels table path =
      treeHash digits empty nodeHash leaf (depth - path.length) path := by
  induction levels generalizing table with
  | zero => exact htable path hpath (.inl (Nat.zero_le _))
  | succ levels ih =>
    have hlevel : levels < depth := hlevels
    have hlengths : ∀ p ∈ dirty levels, p.length = levels :=
      fun p hp => ((hdirty levels hlevel p).mp hp).1
    refine ih (Nat.le_of_lt hlevel) fun p hp hcase => ?_
    rw [foldl_rehashAt hlengths]
    by_cases hmem : p ∈ dirty levels
    · -- A dirty node: its children are one level down, where the table is right.
      have hplen : p.length = levels := hlengths p hmem
      have hstep : depth - p.length = (depth - (levels + 1)) + 1 := by omega
      rw [if_pos hmem, hstep]
      congr 1
      apply map_congr_left
      intro digit _
      have hchild := htable (p ++ [digit]) (by simp; omega) (.inl (by simp; omega))
      simpa [hplen] using hchild
    · rw [if_neg hmem]
      refine htable p hp ?_
      rcases hcase with hle | haway
      · rcases Nat.eq_or_lt_of_le hle with heq | hlt
        · refine .inr fun l hl hprefix => hmem ?_
          exact (hdirty levels hlevel p).mpr ⟨heq.symm, l, hl, hprefix⟩
        · exact .inl hlt
      · exact .inr haway

end

section

variable [DecidableEq H] (digits : List ι)

/-- The full-depth paths reached from a path by descending only through nodes
on which the two tables differ. -/
def differingLeaves (first second : List ι → H) : ℕ → List ι → List (List ι)
  | levels, path =>
    if first path = second path then []
    else match levels with
      | 0 => [path]
      | levels + 1 => digits.flatMap fun digit =>
        differingLeaves first second levels (path ++ [digit])

variable {digits}

/-- The descent reaches a leaf exactly when the tables differ all the way down
to it. -/
theorem mem_differingLeaves {first second : List ι → H} {levels : ℕ} {path found : List ι} :
    found ∈ differingLeaves digits first second levels path ↔
      ∃ rest, found = path ++ rest ∧ rest.length = levels ∧ (∀ digit ∈ rest, digit ∈ digits) ∧
        ∀ n ≤ levels, first (path ++ rest.take n) ≠ second (path ++ rest.take n) := by
  induction levels generalizing path with
  | zero =>
    rw [differingLeaves]
    by_cases heq : first path = second path
    · rw [if_pos heq]
      refine iff_of_false not_mem_nil ?_
      rintro ⟨rest, -, -, -, hdiff⟩
      exact hdiff 0 le_rfl (by simpa using heq)
    · rw [if_neg heq, mem_singleton]
      constructor
      · rintro rfl
        exact ⟨[], by simp, rfl, by simp, by simpa using heq⟩
      · rintro ⟨rest, rfl, hrest, -⟩
        rw [length_eq_zero_iff.mp hrest, append_nil]
  | succ levels ih =>
    rw [differingLeaves]
    by_cases heq : first path = second path
    · rw [if_pos heq]
      refine iff_of_false not_mem_nil ?_
      rintro ⟨rest, -, -, -, hdiff⟩
      exact hdiff 0 (Nat.zero_le _) (by simpa using heq)
    · rw [if_neg heq, mem_flatMap]
      constructor
      · rintro ⟨digit, hdigit, hfound⟩
        obtain ⟨rest, rfl, hrest, hmem, hdiff⟩ := ih.mp hfound
        refine ⟨digit :: rest, by simp, by simp [hrest], ?_, fun n hn => ?_⟩
        · intro d hd
          rcases mem_cons.mp hd with rfl | hd
          · exact hdigit
          · exact hmem d hd
        · cases n with
          | zero => simpa using heq
          | succ n => simpa using hdiff n (by omega)
      · rintro ⟨rest, rfl, hrest, hmem, hdiff⟩
        cases rest with
        | nil => simp at hrest
        | cons digit rest =>
          refine ⟨digit, hmem digit (by simp), ih.mpr ⟨rest, by simp, by simpa using hrest,
            fun d hd => hmem d (by simp [hd]), fun n hn => ?_⟩⟩
          simpa using hdiff (n + 1) (by omega)

end

end DataViz.HashTrie
