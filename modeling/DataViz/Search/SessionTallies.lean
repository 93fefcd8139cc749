/-
# What units add to a session

An ancestor's tally counts its matches, and those of each type. A commit adds the tallies of its
own units to those in the store (`counted_save`), and a unit that is folded adds what it tells to
the session and to the request that folds it.
-/

import DataViz.Search.Session
import Mathlib.Algebra.Group.Pi.Basic
import Mathlib.Algebra.Group.Prod
import Mathlib.Algebra.Order.Group.Multiset

namespace DataViz.Search

open Dict

def Tally.counts (tally : Tally) : Option String → ℕ
  | none => tally.held
  | some type => tally.types.amount type

theorem Tally.counts_add (held entry : Tally) (type : Option String) :
    (held.add entry).counts type = held.counts type + entry.counts type := by
  cases type with
  | none => rfl
  | some type =>
    show (held.types.addAll entry.types).amount type = _
    rw [amount_addAll, sumAt_eq_amount entry.once]
    rfl

/-- How many matches an ancestor holds. -/
def counted (tallies : Dict String Tally) (urn : String) (type : Option String) : ℕ :=
  ((tallies.get? urn).map (·.counts type)).getD 0

theorem get?_addTally (tallies : Dict String Tally) (urn other : String) (entry : Tally) :
    (addTally tallies urn entry).get? other = if urn = other then
      some (((tallies.get? urn).map (·.add entry)).getD entry) else tallies.get? other := by
  unfold addTally
  split
  · next none => rw [get?_set, none]; rfl
  · next held found => rw [get?_set, found]; rfl

theorem counted_addTally (tallies : Dict String Tally) (urn other : String) (entry : Tally)
    (type : Option String) : counted (addTally tallies urn entry) other type =
      counted tallies other type + if urn = other then entry.counts type else 0 := by
  rw [counted, get?_addTally]
  split
  · next same =>
      subst same
      rw [counted]
      cases tallies.get? urn with
      | none => exact (Nat.zero_add _).symm
      | some held => exact held.counts_add entry type
  · rfl

theorem nodup_addTally {tallies : Dict String Tally} (once : tallies.keys.Nodup) (urn : String)
    (entry : Tally) : (addTally tallies urn entry).keys.Nodup := by
  unfold addTally
  split <;> exact nodup_keys_set once _ _

theorem mem_keys_addTally {tallies : Dict String Tally} {urn other : String} {entry : Tally} :
    other ∈ (addTally tallies urn entry).keys ↔ other = urn ∨ other ∈ tallies.keys := by
  rw [mem_keys_iff, mem_keys_iff, get?_addTally]
  by_cases same : urn = other
  · simp [same]
  · simp [same, Ne.symm same]

section

variable {stored own : Dict String Tally}

/-- An ancestor's tally in the store, and its own after it. -/
def mergeEntry (stored merged : Dict String Tally) (entry : String × Tally) : Dict String Tally :=
  addTally (match stored.get? entry.1 with
    | some raw => addTally merged entry.1 raw
    | none => merged) entry.1 entry.2

theorem counted_mergeEntry (stored merged : Dict String Tally) (entry : String × Tally)
    (urn : String) (type : Option String) : counted (mergeEntry stored merged entry) urn type =
      counted merged urn type +
        if entry.1 = urn then counted stored urn type + entry.2.counts type else 0 := by
  rw [mergeEntry, counted_addTally]
  cases found : stored.get? entry.1 with
  | none =>
    dsimp only
    split
    · next same =>
        subst same
        rw [counted.eq_def stored, found, Option.map_none, Option.getD_none, Nat.zero_add]
    · rfl
  | some raw =>
    rw [counted_addTally]
    split
    · next same =>
        subst same
        rw [counted.eq_def stored, found, Option.map_some, Option.getD_some, Nat.add_assoc]
    · rfl

theorem mem_keys_mergeEntry {merged : Dict String Tally} {entry : String × Tally} {urn : String} :
    urn ∈ (mergeEntry stored merged entry).keys ↔ urn = entry.1 ∨ urn ∈ merged.keys := by
  rw [mergeEntry, mem_keys_addTally]
  split
  · rw [mem_keys_addTally, ← or_assoc, or_self]
  · rfl

theorem foldl_mergeEntry (once : own.keys.Nodup) (merged : Dict String Tally) (urn : String)
    (type : Option String) : counted (own.foldl (mergeEntry stored) merged) urn type =
      counted merged urn type +
        if urn ∈ own.keys then counted stored urn type + counted own urn type else 0 := by
  induction own generalizing merged with
  | nil => rfl
  | cons entry own ih =>
    obtain ⟨other, tally⟩ := entry
    obtain ⟨fresh, rest⟩ := List.nodup_cons.mp once
    rw [List.foldl_cons, ih rest, counted_mergeEntry, counted.eq_def ((other, tally) :: own),
      get?_cons]
    by_cases same : other = urn
    · subst same
      have here : other ∈ Dict.keys ((other, tally) :: own) := List.mem_cons_self
      have absent : other ∉ Dict.keys own := fresh
      rw [if_pos rfl, if_neg absent, if_pos here, if_pos rfl, Nat.add_zero, Option.map_some,
        Option.getD_some]
    · rw [if_neg same, if_neg same, Nat.add_zero]
      by_cases mem : urn ∈ Dict.keys own
      · have later : urn ∈ Dict.keys ((other, tally) :: own) := List.mem_cons_of_mem other mem
        rw [if_pos mem, if_pos later, counted.eq_def own]
      · have later : urn ∉ Dict.keys ((other, tally) :: own) :=
          List.not_mem_cons_of_ne_of_not_mem (Ne.symm same) mem
        rw [if_neg mem, if_neg later]

theorem mem_keys_foldl_mergeEntry (merged : Dict String Tally) (urn : String) :
    urn ∈ (own.foldl (mergeEntry stored) merged).keys ↔ urn ∈ own.keys ∨ urn ∈ merged.keys := by
  induction own generalizing merged with
  | nil => simp [Dict.keys]
  | cons entry own ih =>
    have keys : Dict.keys (entry :: own) = entry.1 :: Dict.keys own := rfl
    rw [List.foldl_cons, ih, mem_keys_mergeEntry, keys, List.mem_cons]
    tauto

theorem counted_update (once : own.keys.Nodup) (urn : String) (type : Option String) :
    counted (stored.update (mergeTallies stored own)) urn type =
      counted stored urn type + counted own urn type := by
  have sum : counted (own.foldl (mergeEntry stored) []) urn type = _ :=
    foldl_mergeEntry once [] urn type
  have keys : urn ∈ (own.foldl (mergeEntry stored) []).keys ↔ _ :=
    mem_keys_foldl_mergeEntry [] urn
  change counted (mergeTallies stored own) urn type = _ at sum
  change urn ∈ (mergeTallies stored own).keys ↔ _ at keys
  rw [counted, get?_update]
  by_cases mem : urn ∈ own.keys
  · obtain ⟨tally, found⟩ := Option.isSome_iff_exists.mp (mem_keys_iff.mp (keys.mpr (.inl mem)))
    rw [if_pos mem, counted, found] at sum
    rw [found, Option.some_or, sum]
    exact Nat.zero_add _
  · have none : (mergeTallies stored own).get? urn = none := by
      refine get?_eq_none_iff.mpr fun there => ?_
      obtain here | here := keys.mp there
      · exact mem here
      · cases here
    have own' : own.get? urn = Option.none := get?_eq_none_iff.mpr mem
    rw [none, Option.none_or, counted.eq_def own, own', Option.map_none, Option.getD_none,
      Nat.add_zero, counted]

end

namespace Told

variable {ρ : Type} (told : Told ρ)

/-- How many matches or edges a unit holds. -/
def count : ℕ :=
  match told with
  | .found count _ _ => count
  | .linked typed => (typed.map fun entry => entry.2.1).sum

def rows : List ρ :=
  match told with
  | .found _ rows _ => rows
  | .linked typed => typed.flatMap fun entry => entry.2.2

/-- How many matches of a type, or of any, an ancestor holds by a unit. -/
def tallied (urn : String) (type : Option String) : ℕ :=
  match told with
  | .found _ _ tallied =>
    ((tallied.filter fun row => row.urn ≠ "").map fun row =>
      if row.urn = urn then row.tally.counts type else 0).sum
  | .linked _ => 0

/-- How many edges of a type a unit holds. -/
def typed (type : String) : ℕ :=
  match told with
  | .found _ _ _ => 0
  | .linked typed => Dict.sumAt (typed.map fun entry => (entry.1, entry.2.1)) type

end Told

/-- What units tell, summed: how many, which rows, by ancestor, and by type. -/
abbrev Amount (ρ : Type) :=
  ℕ × Multiset ρ × (String → Option String → ℕ) × (String → ℕ)

def Told.amount {ρ : Type} (told : Told ρ) : Amount ρ :=
  (told.count, ↑told.rows, told.tallied, told.typed)

namespace Scan

variable {ρ : Type} (scan : Scan ρ)

def total (units : List PlanUnit) : Amount ρ :=
  (units.map fun unit => (scan.tell unit).amount).sum

theorem total_nil : scan.total [] = 0 :=
  rfl

theorem total_cons (unit : PlanUnit) (units : List PlanUnit) :
    scan.total (unit :: units) = (scan.tell unit).amount + scan.total units := by
  rw [total, List.map_cons, List.sum_cons, total]

theorem total_append (first second : List PlanUnit) :
    scan.total (first ++ second) = scan.total first + scan.total second := by
  rw [total, List.map_append, List.sum_append, total, total]

theorem total_perm {first second : List PlanUnit} (perm : first.Perm second) :
    scan.total first = scan.total second :=
  (perm.map _).sum_eq

def Pieces (unit : PlanUnit) (parts : List PlanUnit) : Prop :=
  scan.total parts = (scan.tell unit).amount

theorem pieces_singleton (unit : PlanUnit) : scan.Pieces unit [unit] := by
  rw [Pieces, total_cons, total_nil, add_zero]

theorem total_eq (units : List PlanUnit) : scan.total units =
    ((units.map fun unit => (scan.tell unit).count).sum,
      ↑(units.flatMap fun unit => (scan.tell unit).rows),
      fun urn type => (units.map fun unit => (scan.tell unit).tallied urn type).sum,
      fun type => (units.map fun unit => (scan.tell unit).typed type).sum) := by
  induction units with
  | nil => rfl
  | cons unit units ih =>
    rw [total_cons, ih]
    rfl

end Scan

end DataViz.Search
