/-
# Orders that take the least ready item

Items need others before them. An order that always takes the least item whose needs
are met is the only one of its kind, and on well-founded needs it leaves nothing out.
-/

import Mathlib.Data.List.Induction
import Mathlib.Data.List.Nodup
import Mathlib.Order.Lattice

namespace DataViz

open List

namespace GreedyOrder

variable {α : Type*} (items : α → Prop) (needs : α → α → Prop)

def Ready (taken : List α) (u : α) : Prop :=
  items u ∧ u ∉ taken ∧ ∀ p, needs u p → p ∈ taken

variable [LinearOrder α]

/-- Orders that take the least ready item each time. -/
inductive Greedy : List α → Prop
  | nil : Greedy []
  | snoc {order : List α} {u : α} : Greedy order → Ready items needs order u →
      (∀ v, Ready items needs order v → u ≤ v) → Greedy (order ++ [u])

variable {items needs} {order : List α} {u : α}

theorem Greedy.last (greedy : Greedy items needs (order ++ [u])) :
    Greedy items needs order ∧ Ready items needs order u ∧
      ∀ v, Ready items needs order v → u ≤ v := by
  generalize whole : order ++ [u] = all at greedy
  cases greedy with
  | nil => simp at whole
  | snoc before ready least =>
    obtain ⟨rfl, same⟩ := append_inj' whole rfl
    cases same
    exact ⟨before, ready, least⟩

theorem Greedy.of_prefix {more : List α} (greedy : Greedy items needs (order ++ more)) :
    Greedy items needs order := by
  induction more using List.reverseRecOn with
  | nil => simpa using greedy
  | append_singleton more u ih =>
    rw [← append_assoc] at greedy
    exact ih greedy.last.1

theorem Greedy.needs_before {after : List α} (greedy : Greedy items needs (order ++ u :: after))
    {p : α} (need : needs u p) : p ∈ order := by
  rw [append_cons] at greedy
  exact greedy.of_prefix.last.2.1.2.2 p need

theorem Greedy.items_of_mem (greedy : Greedy items needs order) : ∀ v ∈ order, items v := by
  induction greedy with
  | nil => exact nofun
  | snoc _ ready _ ih =>
    intro v member
    cases mem_append.mp member with
    | inl before => exact ih v before
    | inr last => exact mem_singleton.mp last ▸ ready.1

theorem Greedy.nodup (greedy : Greedy items needs order) : order.Nodup := by
  induction greedy with
  | nil => exact nodup_nil
  | snoc _ ready _ ih =>
    refine nodup_append.mpr ⟨ih, nodup_singleton _, fun a ha b hb same => ?_⟩
    exact ready.2.1 (mem_singleton.mp hb ▸ same ▸ ha)

theorem Greedy.prefix_of_length_le {first second : List α} (left : Greedy items needs first)
    (right : Greedy items needs second) (shorter : first.length ≤ second.length) :
    first <+: second := by
  induction left with
  | nil => exact nil_prefix
  | @snoc before u _ ready least ih =>
    rw [length_append] at shorter
    obtain ⟨rest, rfl⟩ := ih (Nat.le_of_succ_le shorter)
    cases rest with
    | nil =>
      rw [append_nil] at shorter
      exact absurd shorter (Nat.not_succ_le_self _)
    | cons v rest =>
      rw [append_cons] at right
      obtain ⟨_, ready', least'⟩ := right.of_prefix.last
      have same : u = v := le_antisymm (least v ready') (least' u ready)
      exact ⟨rest, by rw [same, ← append_cons]⟩

/-- There is one greedy order with nothing left to take. -/
theorem Greedy.unique {first second : List α} (left : Greedy items needs first)
    (right : Greedy items needs second) (done : ∀ v, ¬ Ready items needs first v)
    (done' : ∀ v, ¬ Ready items needs second v) : first = second := by
  have stuck : ∀ {a b : List α}, Greedy items needs b → (∀ v, ¬ Ready items needs a v) →
      a <+: b → a = b := by
    intro a b greedy ended start
    obtain ⟨rest, rfl⟩ := start
    cases rest with
    | nil => rw [append_nil]
    | cons v rest =>
      rw [append_cons] at greedy
      exact absurd greedy.of_prefix.last.2.1 (ended v)
  cases Nat.le_total first.length second.length with
  | inl shorter => exact stuck right done (left.prefix_of_length_le right shorter)
  | inr shorter => exact (stuck left done' (right.prefix_of_length_le left shorter)).symm

omit [LinearOrder α] in
theorem mem_of_not_ready (founded : WellFounded fun p u => needs u p)
    (within : ∀ u p, items u → needs u p → items p)
    (done : ∀ v, ¬ Ready items needs order v) : items u → u ∈ order := by
  induction u using founded.induction with
  | _ u ih =>
    intro item
    by_contra out
    exact done u ⟨item, out, fun p need => ih p need (within u p item need)⟩

end GreedyOrder

end DataViz
