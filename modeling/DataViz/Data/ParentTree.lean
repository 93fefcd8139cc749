/-
# Trees given by parent pointers

Every element has at most one parent, but nothing says that walking up ends: the
pointers may run in a circle. `ancestor` is the walk, `Cyclic` an element the
walk comes back to and `Rooted` one whose walk ends. Going down from an element
that is not on a circle visits every element below it once and needs no more
levels than there are elements.
-/

import Mathlib.Algebra.BigOperators.Group.List.Basic
import Mathlib.Data.Finset.Card

namespace DataViz.ParentTree

open List Option

universe u v

variable {α : Type u}

section

variable (parent : α → Option α)

def ancestor : ℕ → α → Option α
  | 0, z => some z
  | n + 1, z => (ancestor n z).bind parent

/-- Walking up from the element comes back to it. -/
def Cyclic (x : α) : Prop :=
  ∃ n, ancestor parent (n + 1) x = some x

def Rooted (z : α) : Prop :=
  ∃ n, ancestor parent n z = none

/-- Pointers of elements that pass a test to elements that pass it. -/
def restrict (keep : α → Bool) (z : α) : Option α :=
  if keep z then (parent z).filter keep else none

variable {parent}

@[simp]
theorem ancestor_zero (z : α) : ancestor parent 0 z = some z := rfl

theorem ancestor_succ (n : ℕ) (z : α) :
    ancestor parent (n + 1) z = (ancestor parent n z).bind parent := rfl

theorem ancestor_add (m n : ℕ) (z : α) :
    ancestor parent (m + n) z = (ancestor parent m z).bind (ancestor parent n) := by
  induction n with
  | zero => cases ancestor parent m z <;> rfl
  | succ n ih =>
    rw [← Nat.add_assoc, ancestor_succ, ih, bind_assoc]
    rfl

theorem ancestor_succ' (n : ℕ) (z : α) :
    ancestor parent (n + 1) z = (parent z).bind (ancestor parent n) := by
  rw [Nat.add_comm, ancestor_add, ancestor_succ, ancestor_zero, bind_some]

variable {m n : ℕ}

/-- Once the walk has ended it stays ended. -/
theorem ancestor_none_of_le {z : α} (hle : m ≤ n) (h : ancestor parent m z = none) :
    ancestor parent n z = none := by
  obtain ⟨k, rfl⟩ := Nat.exists_eq_add_of_le hle
  rw [ancestor_add, h, bind_none]

variable {x z : α}

/-- The walk passes through every earlier step. -/
theorem exists_ancestor_of_le (hle : m ≤ n) (h : ancestor parent n z = some x) :
    ∃ y, ancestor parent m z = some y ∧ ancestor parent (n - m) y = some x := by
  obtain ⟨k, rfl⟩ := Nat.exists_eq_add_of_le hle
  rw [ancestor_add] at h
  obtain ⟨y, hy, hx⟩ := bind_eq_some_iff.mp h
  exact ⟨y, hy, by simpa using hx⟩

/-- The parent of an element on a circle is on it too. -/
theorem Cyclic.of_parent {x y : α} (hparent : parent y = some x) (h : Cyclic parent y) :
    Cyclic parent x := by
  obtain ⟨n, hn⟩ := h
  refine ⟨n, ?_⟩
  rw [ancestor_succ', hparent, bind_some] at hn
  rw [ancestor_succ, hn, bind_some, hparent]

theorem Cyclic.exists_child {x : α} (h : Cyclic parent x) :
    ∃ y, parent y = some x ∧ Cyclic parent y := by
  obtain ⟨n, hn⟩ := h
  obtain ⟨y, hy, hparent⟩ := bind_eq_some_iff.mp (ancestor_succ n x ▸ hn)
  refine ⟨y, hparent, n, ?_⟩
  rw [ancestor_succ', hparent, bind_some, hy]

/-- A walk that meets an element twice has met a circle. -/
theorem cyclic_of_two (hlt : m < n) (hm : ancestor parent m z = some x)
    (hn : ancestor parent n z = some x) : Cyclic parent x := by
  obtain ⟨y, hy, hx⟩ := exists_ancestor_of_le hlt.le hn
  obtain rfl : x = y := some.inj (hm.symm.trans hy)
  obtain ⟨k, hk⟩ := Nat.exists_eq_add_of_lt hlt
  refine ⟨k, ?_⟩
  rwa [show n - m = k + 1 by omega] at hx

variable {n : ℕ}

/-- Everything above an element on a circle is on it. -/
theorem Cyclic.ancestor (h : Cyclic parent z) (hn : ancestor parent n z = some x) :
    Cyclic parent x := by
  induction n generalizing x with
  | zero =>
    obtain rfl := some.inj hn
    exact h
  | succ n ih =>
    obtain ⟨y, hy, hparent⟩ := bind_eq_some_iff.mp (ancestor_succ n z ▸ hn)
    exact (ih hy).of_parent hparent

/-- An element without a parent is on no circle. -/
theorem not_cyclic_of_parent_none {x : α} (h : parent x = none) : ¬ Cyclic parent x := by
  rintro ⟨n, hn⟩
  rw [ancestor_succ', h] at hn
  cases hn

/-- A walk that ends has a last element. -/
theorem Rooted.exists_root {z : α} (h : Rooted parent z) :
    ∃ n r, ancestor parent n z = some r ∧ parent r = none := by
  obtain ⟨n, hn⟩ := h
  induction n with
  | zero => cases hn
  | succ n ih =>
    cases hprev : ParentTree.ancestor parent n z with
    | none => exact ih hprev
    | some r => exact ⟨n, r, hprev, by simpa [ancestor_succ, hprev] using hn⟩

theorem rooted_of_root {r z : α} (hn : ancestor parent n z = some r) (hr : parent r = none) :
    Rooted parent z :=
  ⟨n + 1, by rw [ancestor_succ, hn, bind_some, hr]⟩

/-- Two elements without a parent above the same element are the same. -/
theorem root_unique {r s z : α} (hm : ancestor parent m z = some r) (hr : parent r = none)
    (hn : ancestor parent n z = some s) (hs : parent s = none) : r = s := by
  wlog hle : m ≤ n generalizing m n r s
  · exact (this hn hs hm hr (Nat.le_of_not_le hle)).symm
  obtain ⟨y, hy, hx⟩ := exists_ancestor_of_le hle hn
  obtain rfl : r = y := some.inj (hm.symm.trans hy)
  cases hk : n - m with
  | zero => simpa [hk] using hx
  | succ k =>
    rw [hk, ancestor_succ', hr] at hx
    cases hx

/-- A walk that comes back to an earlier step meets nothing new. -/
theorem exists_ancestor_of_repeat {m k n : ℕ} {c x z : α} (hm : 1 ≤ m) (hle : m ≤ k)
    (hearly : ancestor parent m z = some c) (hlate : ancestor parent (k + 1) z = some c)
    (hn : 1 ≤ n) (hx : ancestor parent n z = some x) :
    ∃ n', 1 ≤ n' ∧ n' ≤ k ∧ ancestor parent n' z = some x := by
  induction n using Nat.strong_induction_on with
  | _ n ih =>
    by_cases hshort : n ≤ k
    · exact ⟨n, hn, hshort, hx⟩
    · obtain ⟨j, rfl⟩ := Nat.exists_eq_add_of_le (Nat.lt_of_not_le hshort)
      have hback : ancestor parent (m + j) z = some x := by
        rw [ancestor_add, hearly, ← hlate, ← ancestor_add]
        exact hx
      exact ih (m + j) (by omega) (by omega) hback

variable {keep : α → Bool}

theorem restrict_eq_some_iff :
    restrict parent keep z = some x ↔ keep z ∧ parent z = some x ∧ keep x := by
  by_cases hz : keep z <;> simp [restrict, hz, filter_eq_some_iff]

/-- A walk among the elements that pass a test is a walk. -/
theorem ancestor_of_restrict (h : ancestor (restrict parent keep) n z = some x) :
    ancestor parent n z = some x := by
  induction n generalizing x with
  | zero => exact h
  | succ n ih =>
    obtain ⟨y, hy, hrestrict⟩ := bind_eq_some_iff.mp (ancestor_succ n z ▸ h)
    rw [ancestor_succ, ih hy, bind_some, (restrict_eq_some_iff.mp hrestrict).2.1]

/-- A walk is one among the elements that pass a test when each of its steps does. -/
theorem ancestor_restrict (h : ancestor parent n z = some x)
    (hkeep : ∀ m ≤ n, ∀ y, ancestor parent m z = some y → keep y) :
    ancestor (restrict parent keep) n z = some x := by
  induction n generalizing x with
  | zero => exact h
  | succ n ih =>
    obtain ⟨y, hy, hparent⟩ := bind_eq_some_iff.mp (ancestor_succ n z ▸ h)
    rw [ancestor_succ, ih hy fun m hm => hkeep m (Nat.le_succ_of_le hm)]
    exact restrict_eq_some_iff.mpr ⟨hkeep n (Nat.le_succ n) y hy, hparent, hkeep (n + 1) le_rfl x h⟩

/-- A walk longer than the number of elements meets a circle. -/
theorem cyclic_of_long {nodes : List α} (hnodes : ∀ z x, parent z = some x → z ∈ nodes ∧ x ∈ nodes)
    (h : ancestor parent (nodes.length + 1) z = some x) : Cyclic parent x := by
  have hall : ∀ n ≤ nodes.length, ∃ y ∈ nodes, ancestor parent n z = some y := by
    intro n hn
    obtain ⟨y, hy, -⟩ := exists_ancestor_of_le (Nat.succ_le_succ hn) h
    obtain ⟨w, hw, hparent⟩ := bind_eq_some_iff.mp (ancestor_succ n z ▸ hy)
    exact ⟨w, (hnodes w y hparent).1, hw⟩
  classical
  have : Nonempty α := ⟨z⟩
  choose! at_ hmem hat using hall
  have hcard : nodes.toFinset.card < (Finset.range (nodes.length + 1)).card := by
    rw [Finset.card_range]
    exact Nat.lt_succ_of_le (toFinset_card_le nodes)
  obtain ⟨i, hi, j, hj, hne, heq⟩ := Finset.exists_ne_map_eq_of_card_lt_of_maps_to hcard
    (f := at_) fun n hn => mem_toFinset.mpr
      (hmem n (Nat.le_of_lt_succ (Finset.mem_range.mp hn)))
  wlog hlt : i < j generalizing i j
  · exact this j hj i hi hne.symm heq.symm (by omega)
  have hi' := hat i (Nat.le_of_lt_succ (Finset.mem_range.mp hi))
  have hj' := hat j (Nat.le_of_lt_succ (Finset.mem_range.mp hj))
  have hcyclic : Cyclic parent (at_ j) := cyclic_of_two hlt (heq ▸ hi') hj'
  obtain ⟨y, hy, hx⟩ := exists_ancestor_of_le (Nat.le_of_lt (Finset.mem_range.mp hj)) h
  obtain rfl : at_ j = y := some.inj (hj'.symm.trans hy)
  exact hcyclic.ancestor hx

end

section

variable {β : Type v} {f : α → Option β}

/-- A traversal that returns has returned at every element. -/
theorem mapM_eq_some_iff {xs : List α} {ys : List β} :
    xs.mapM f = some ys ↔ xs.map f = ys.map some := by
  induction xs generalizing ys with
  | nil => cases ys <;> simp
  | cons x xs ih =>
    rw [mapM_cons, map_cons]
    constructor
    · intro h
      obtain ⟨y, hy, hrest⟩ := bind_eq_some_iff.mp h
      obtain ⟨tail, htail, hys⟩ := bind_eq_some_iff.mp hrest
      obtain rfl : y :: tail = ys := some.inj hys
      rw [map_cons, hy, ih.mp htail]
    · intro h
      cases ys with
      | nil => cases h
      | cons y tail =>
        obtain ⟨hy, htail⟩ := cons.inj h
        rw [hy, ih.mpr htail]
        rfl

/-- A traversal returns exactly when every element has a value. -/
theorem isSome_mapM_iff {xs : List α} : (xs.mapM f).isSome ↔ ∀ x ∈ xs, (f x).isSome := by
  induction xs with
  | nil => simp
  | cons x xs ih =>
    rw [mapM_cons, forall_mem_cons, ← ih]
    cases f x with
    | none => simp
    | some y => cases xs.mapM f <;> simp

end

section

variable (children : α → List α)

/-- The elements below an element, itself first, down to a number of levels. -/
def subtree : ℕ → α → List α
  | 0, _ => []
  | fuel + 1, x => x :: (children x).flatMap (subtree fuel)

/-- An element's own value plus those below it; `none` when the levels run out. -/
def rollup {β : Type v} [AddCommMonoid β] (own : α → β) : ℕ → α → Option β
  | 0, _ => none
  | fuel + 1, x => ((children x).mapM (rollup own fuel)).map fun below => own x + below.sum

/-- The elements are listed once below their parent. -/
structure Lists (parent : α → Option α) : Prop where
  nodup : ∀ x, (children x).Nodup
  mem_iff : ∀ x z, z ∈ children x ↔ parent z = some x

variable {children} {parent : α → Option α} (lists : Lists children parent)

include lists

variable {fuel : ℕ}

theorem mem_subtree {x z : α} :
    z ∈ subtree children fuel x ↔ ∃ n < fuel, ancestor parent n z = some x := by
  induction fuel generalizing x with
  | zero => simp [subtree]
  | succ fuel ih =>
    rw [subtree, mem_cons, mem_flatMap]
    constructor
    · rintro (rfl | ⟨y, hy, hz⟩)
      · exact ⟨0, Nat.succ_pos fuel, rfl⟩
      · obtain ⟨n, hn, hy'⟩ := ih.mp hz
        refine ⟨n + 1, Nat.succ_lt_succ hn, ?_⟩
        rw [ancestor_succ, hy', bind_some, (lists.mem_iff x y).mp hy]
    · rintro ⟨n, hn, hx⟩
      cases n with
      | zero => exact .inl (some.inj hx)
      | succ n =>
        obtain ⟨y, hy, hparent⟩ := bind_eq_some_iff.mp (ancestor_succ n z ▸ hx)
        exact .inr ⟨y, (lists.mem_iff x y).mpr hparent, ih.mpr ⟨n, Nat.lt_of_succ_lt_succ hn, hy⟩⟩

/-- Off the circles the way down meets everything below. -/
theorem mem_subtree_of_not_cyclic {nodes : List α}
    (hnodes : ∀ z x, parent z = some x → z ∈ nodes ∧ x ∈ nodes) {x z : α}
    (hx : ¬ Cyclic parent x) :
    z ∈ subtree children (nodes.length + 1) x ↔ ∃ n, ancestor parent n z = some x := by
  rw [mem_subtree lists]
  constructor
  · rintro ⟨n, -, hn⟩
    exact ⟨n, hn⟩
  · rintro ⟨n, hn⟩
    refine ⟨n, ?_, hn⟩
    by_contra hlong
    obtain ⟨k, hk⟩ := Nat.exists_eq_add_of_le' (Nat.le_of_not_lt hlong)
    rw [hk, ParentTree.ancestor_add] at hn
    obtain ⟨y, -, hy⟩ := bind_eq_some_iff.mp hn
    exact hx (cyclic_of_long hnodes hy)

variable {x : α}

/-- Off the circles an element is met once on the way down. -/
theorem nodup_subtree (hx : ¬ Cyclic parent x) : (subtree children fuel x).Nodup := by
  induction fuel generalizing x with
  | zero => exact nodup_nil
  | succ fuel ih =>
    have hparent : ∀ y ∈ children x, parent y = some x := fun y hy =>
      (lists.mem_iff x y).mp hy
    rw [subtree, nodup_cons, mem_flatMap, nodup_flatMap]
    refine ⟨?_, fun y hy => ih fun hcyclic => hx (hcyclic.of_parent (hparent y hy)), ?_⟩
    · rintro ⟨y, hy, hmem⟩
      obtain ⟨n, -, hn⟩ := (mem_subtree lists).mp hmem
      exact hx ⟨n, by rw [ancestor_succ, hn, bind_some, hparent y hy]⟩
    · refine (lists.nodup x).pairwise_of_forall_ne fun y hy w hw hne z hzy hzw => hne ?_
      -- Two children above the same element would put their parent on a circle.
      obtain ⟨m, -, hm⟩ := (mem_subtree lists).mp hzy
      obtain ⟨n, -, hn⟩ := (mem_subtree lists).mp hzw
      have hm' : ancestor parent (m + 1) z = some x := by
        rw [ancestor_succ, hm, bind_some, hparent y hy]
      have hn' : ancestor parent (n + 1) z = some x := by
        rw [ancestor_succ, hn, bind_some, hparent w hw]
      rcases Nat.lt_trichotomy m n with hlt | rfl | hlt
      · exact absurd (cyclic_of_two (Nat.succ_lt_succ hlt) hm' hn') hx
      · exact some.inj (hm.symm.trans hn)
      · exact absurd (cyclic_of_two (Nat.succ_lt_succ hlt) hn' hm') hx

variable {β : Type v} [AddCommMonoid β] {own : α → β}

omit lists in
/-- A rollup that returns adds up the elements below. -/
theorem rollup_eq_sum {total : β} (h : rollup children own fuel x = some total) :
    total = ((subtree children fuel x).map own).sum := by
  induction fuel generalizing x total with
  | zero => cases h
  | succ fuel ih =>
    obtain ⟨below, hbelow, rfl⟩ := map_eq_some_iff.mp h
    have hsum : below = (children x).map fun y => ((subtree children fuel y).map own).sum := by
      clear h
      rw [mapM_eq_some_iff] at hbelow
      generalize children x = ys at hbelow ⊢
      induction ys generalizing below with
      | nil => simpa using hbelow
      | cons y ys ihys =>
        cases below with
        | nil => cases hbelow
        | cons c below =>
          obtain ⟨hc, hrest⟩ := cons.inj hbelow
          rw [map_cons, ← ih hc, ← ihys below hrest]
    rw [subtree, map_cons, sum_cons, map_flatMap, flatMap_def, sum_flatten, List.map_map, hsum]
    rfl

/-- A rollup returns when nothing is as many levels down as it may go. -/
theorem isSome_rollup_iff :
    (rollup children own fuel x).isSome ↔ ∀ z, ancestor parent fuel z ≠ some x := by
  induction fuel generalizing x with
  | zero => simp [rollup]
  | succ fuel ih =>
    rw [rollup, isSome_map, isSome_mapM_iff]
    simp only [ih]
    constructor
    · intro h z hz
      obtain ⟨y, hy, hparent⟩ := bind_eq_some_iff.mp (ancestor_succ fuel z ▸ hz)
      exact h y ((lists.mem_iff x y).mpr hparent) z hy
    · intro h y hy z hz
      exact h z (by rw [ancestor_succ, hz, bind_some, (lists.mem_iff x y).mp hy])

/-- On a circle no number of levels is enough. -/
theorem rollup_cyclic (hx : Cyclic parent x) (fuel : ℕ) : rollup children own fuel x = none := by
  rw [← not_isSome_iff_eq_none, isSome_rollup_iff lists]
  intro h
  induction fuel generalizing x with
  | zero => exact h x rfl
  | succ fuel ih =>
    obtain ⟨y, hy, hcyclic⟩ := hx.exists_child
    exact ih hcyclic fun z hz => h z (by rw [ancestor_succ, hz, bind_some, hy])

/-- Off the circles one level more than there are elements is enough. -/
theorem isSome_rollup_of_not_cyclic {nodes : List α}
    (hnodes : ∀ z x, parent z = some x → z ∈ nodes ∧ x ∈ nodes) (hx : ¬ Cyclic parent x) :
    (rollup children own (nodes.length + 1) x).isSome :=
  (isSome_rollup_iff lists).mpr fun _ hz => hx (cyclic_of_long hnodes hz)

end

end DataViz.ParentTree
