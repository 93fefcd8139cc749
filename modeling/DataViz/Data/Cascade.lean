/-
# Falling with all of one's parents

In a graph where a node may have several parents, a set of roots brings down every node that has a
parent and all of whose parents come down. This is a least fixpoint, counted in synchronous rounds.

A walk computes it frontier by frontier: each round looks at the children of the nodes that fell
last and lets those fall whose parents have all fallen by then. The invariant that carries every
variant is `Progress`: what is still to fall next has a parent in the frontier.
-/

import Mathlib.Data.Finset.Card

namespace DataViz.Cascade

open List

universe u

variable {α : Type u}

def Orphaned (parents : α → List α) (fallen : α → Prop) (x : α) : Prop :=
  parents x ≠ [] ∧ ∀ p ∈ parents x, fallen p

inductive Fallen (parents : α → List α) (roots : α → Prop) : α → Prop
  | root {x : α} (h : roots x) : Fallen parents roots x
  | orphan {x : α} (hparent : parents x ≠ []) (hall : ∀ p ∈ parents x, Fallen parents roots p) :
      Fallen parents roots x

/-- What the roots bring down within a number of synchronous rounds. -/
def FallenWithin (parents : α → List α) (roots : α → Prop) : ℕ → α → Prop
  | 0, x => roots x
  | n + 1, x => FallenWithin parents roots n x ∨ Orphaned parents (FallenWithin parents roots n) x

variable {parents : α → List α} {roots : α → Prop}

instance decidableFallenWithin (parents : α → List α) (roots : α → Prop) [DecidablePred roots] :
    ∀ n, DecidablePred (FallenWithin parents roots n)
  | 0, x => inferInstanceAs (Decidable (roots x))
  | n + 1, x =>
    have : DecidablePred (FallenWithin parents roots n) := decidableFallenWithin parents roots n
    inferInstanceAs (Decidable (FallenWithin parents roots n x ∨
      parents x ≠ [] ∧ ∀ p ∈ parents x, FallenWithin parents roots n p))

variable {x : α}

theorem fallen_of_orphaned (h : Orphaned parents (Fallen parents roots) x) :
    Fallen parents roots x :=
  .orphan h.1 h.2

theorem fallen_least {closed : α → Prop} (hroots : ∀ x, roots x → closed x)
    (hclosed : ∀ x, Orphaned parents closed x → closed x) (h : Fallen parents roots x) :
    closed x := by
  induction h with
  | root h => exact hroots _ h
  | orphan hparent _ ih => exact hclosed _ ⟨hparent, ih⟩

theorem fallenWithin_fallen {n : ℕ} (h : FallenWithin parents roots n x) :
    Fallen parents roots x := by
  induction n generalizing x with
  | zero => exact .root h
  | succ n ih =>
    rcases h with h | ⟨hparent, hall⟩
    · exact ih h
    · exact .orphan hparent fun p hp => ih (hall p hp)

theorem fallenWithin_mono {m n : ℕ} (hmn : m ≤ n) (h : FallenWithin parents roots m x) :
    FallenWithin parents roots n x := by
  induction hmn with
  | refl => exact h
  | step _ ih => exact .inl ih

section

variable [DecidableEq α]

/-- One round over a list of candidates: a candidate falls when it has a parent,
all its parents have fallen by now, and there is room for it. The result lists
the nodes that fell in this round. -/
def sweep (parents : α → List α) (room : ℕ → Bool) : List α → List α → List α
  | [], _ => []
  | c :: rest, fallen =>
    if c ∉ fallen ∧ parents c ≠ [] ∧ (∀ p ∈ parents c, p ∈ fallen) ∧ room fallen.length then
      c :: sweep parents room rest (fallen ++ [c])
    else sweep parents room rest fallen

variable {room : ℕ → Bool} {candidates fallen : List α}

theorem mem_of_mem_sweep {x : α} (h : x ∈ sweep parents room candidates fallen) :
    x ∈ candidates := by
  induction candidates generalizing fallen with
  | nil => simp [sweep] at h
  | cons c rest ih =>
    rw [sweep] at h
    split at h
    · rcases mem_cons.mp h with rfl | h
      · exact mem_cons_self
      · exact mem_cons_of_mem _ (ih h)
    · exact mem_cons_of_mem _ (ih h)

theorem nodup_append_sweep (hnodup : fallen.Nodup) :
    (fallen ++ sweep parents room candidates fallen).Nodup := by
  induction candidates generalizing fallen with
  | nil => simpa [sweep] using hnodup
  | cons c rest ih =>
    rw [sweep]
    split
    · rename_i hfalls
      have hstep : (fallen ++ [c]).Nodup := by
        rw [nodup_append]
        exact ⟨hnodup, nodup_singleton c, fun a ha b hb => by
          obtain rfl := mem_singleton.mp hb
          exact fun heq => hfalls.1 (heq ▸ ha)⟩
      simpa using ih hstep
    · exact ih hnodup

theorem sweep_congr (room : ℕ → Bool) {parents' : α → List α} {candidates : List α}
    (h : ∀ c ∈ candidates, ∀ p, p ∈ parents c ↔ p ∈ parents' c) (fallen : List α) :
    sweep parents room candidates fallen = sweep parents' room candidates fallen := by
  induction candidates generalizing fallen with
  | nil => rfl
  | cons c rest ih =>
    have hc := h c (by simp)
    have hnil : parents c = [] ↔ parents' c = [] := by
      simp only [eq_nil_iff_forall_not_mem, hc]
    have hall : (∀ p ∈ parents c, p ∈ fallen) ↔ ∀ p ∈ parents' c, p ∈ fallen := by
      simp only [hc]
    have hrest := ih fun x hx => h x (by simp [hx])
    simp only [sweep, ne_eq, hnil, hall, hrest]

/-- A round never takes more than there is room for. -/
theorem length_append_sweep_le {cap : ℕ} (candidates fallen : List α) :
    sweep parents (fun n => decide (n < cap)) candidates fallen = [] ∨
      (fallen ++ sweep parents (fun n => decide (n < cap)) candidates fallen).length ≤ cap := by
  induction candidates generalizing fallen with
  | nil => exact .inl rfl
  | cons c rest ih =>
    rw [sweep]
    split
    · rename_i hfalls
      have hroom : fallen.length < cap := of_decide_eq_true hfalls.2.2.2
      right
      rcases ih (fallen ++ [c]) with hnone | hle
      · rw [hnone, length_append]
        exact hroom
      · simpa using hle
    · exact ih fallen

theorem fallen_of_mem_sweep (hfallen : ∀ x ∈ fallen, Fallen parents roots x) {x : α}
    (h : x ∈ sweep parents room candidates fallen) : Fallen parents roots x := by
  induction candidates generalizing fallen with
  | nil => simp [sweep] at h
  | cons c rest ih =>
    rw [sweep] at h
    split at h
    · rename_i hfalls
      have hc : Fallen parents roots c :=
        .orphan hfalls.2.1 fun p hp => hfallen p (hfalls.2.2.1 p hp)
      have hstep : ∀ y ∈ fallen ++ [c], Fallen parents roots y := by
        intro y hy
        rcases mem_append.mp hy with hy | hy
        · exact hfallen y hy
        · exact mem_singleton.mp hy ▸ hc
      rcases mem_cons.mp h with rfl | h
      · exact hc
      · exact ih hstep h
    · exact ih hfallen h

def RoomFor (parents : α → List α) (roots : α → Prop) (room : ℕ → Bool) : Prop :=
  ∀ fallen : List α, fallen.Nodup → (∀ x ∈ fallen, Fallen parents roots x) →
    (∃ x, Fallen parents roots x ∧ x ∉ fallen) → room fallen.length = true

theorem mem_sweep_of_orphaned (hroom : RoomFor parents roots room) (hnodup : fallen.Nodup)
    (hfallen : ∀ x ∈ fallen, Fallen parents roots x) {x : α} (hx : x ∈ candidates)
    (horphan : Orphaned parents (· ∈ fallen) x) :
    x ∈ fallen ∨ x ∈ sweep parents room candidates fallen := by
  induction candidates generalizing fallen with
  | nil => cases hx
  | cons c rest ih =>
    rw [sweep]
    by_cases hfalls : c ∉ fallen ∧ parents c ≠ [] ∧ (∀ p ∈ parents c, p ∈ fallen) ∧
        room fallen.length
    · rw [if_pos hfalls]
      rcases mem_cons.mp hx with rfl | hx
      · exact .inr mem_cons_self
      · have hc : Fallen parents roots c :=
          .orphan hfalls.2.1 fun p hp => hfallen p (hfalls.2.2.1 p hp)
        have hnodup' : (fallen ++ [c]).Nodup := by
          rw [nodup_append]
          exact ⟨hnodup, nodup_singleton c, fun a ha b hb => by
            obtain rfl := mem_singleton.mp hb
            exact fun heq => hfalls.1 (heq ▸ ha)⟩
        have hfallen' : ∀ y ∈ fallen ++ [c], Fallen parents roots y := by
          intro y hy
          rcases mem_append.mp hy with hy | hy
          · exact hfallen y hy
          · exact mem_singleton.mp hy ▸ hc
        have horphan' : Orphaned parents (· ∈ fallen ++ [c]) x :=
          ⟨horphan.1, fun p hp => mem_append_left _ (horphan.2 p hp)⟩
        rcases ih hnodup' hfallen' hx horphan' with hmem | hmem
        · rcases mem_append.mp hmem with hmem | hmem
          · exact .inl hmem
          · exact .inr (mem_singleton.mp hmem ▸ mem_cons_self)
        · exact .inr (mem_cons_of_mem _ hmem)
    · rw [if_neg hfalls]
      rcases mem_cons.mp hx with rfl | hx
      · by_cases hmem : x ∈ fallen
        · exact .inl hmem
        · have hfall : Fallen parents roots x :=
            .orphan horphan.1 fun p hp => hfallen p (horphan.2 p hp)
          exact absurd ⟨hmem, horphan.1, horphan.2, hroom fallen hnodup hfallen
            ⟨x, hfall, hmem⟩⟩ hfalls
      · exact ih hnodup hfallen hx horphan

/-- Candidates that cannot fall yet, taken first, change nothing. -/
theorem sweep_append_of_blocked {first second fallen : List α}
    (hfirst : ∀ x ∈ first, ¬ Orphaned parents (· ∈ fallen) x) :
    sweep parents room (first ++ second) fallen = sweep parents room second fallen := by
  induction first with
  | nil => rfl
  | cons c rest ih =>
    have hc : ¬ Orphaned parents (· ∈ fallen) c := hfirst c (by simp)
    rw [cons_append, sweep, if_neg fun hfalls => hc ⟨hfalls.2.1, hfalls.2.2.1⟩]
    exact ih fun x hx => hfirst x (by simp [hx])

end

/-- The state of a walk between two rounds: only fallen nodes have been taken,
and whoever is next to fall has a parent in the frontier. -/
structure Progress (parents : α → List α) (roots : α → Prop) (fallen frontier : List α) : Prop where
  nodup : fallen.Nodup
  sound : ∀ x ∈ fallen, Fallen parents roots x
  start : ∀ x, roots x → x ∈ fallen
  pending : ∀ x, x ∉ fallen → Orphaned parents (· ∈ fallen) x → ∃ p ∈ parents x, p ∈ frontier

theorem progress_start {start : List α} (hnodup : start.Nodup)
    (hroots : ∀ x, roots x ↔ x ∈ start) : Progress parents roots start start where
  nodup := hnodup
  sound x hx := .root ((hroots x).mpr hx)
  start x hx := (hroots x).mp hx
  pending x _ horphan := by
    obtain ⟨p, hp⟩ := exists_mem_of_ne_nil _ horphan.1
    exact ⟨p, hp, horphan.2 p hp⟩

/-- A walk with an empty frontier is done. -/
theorem Progress.mem_iff {fallen : List α} (h : Progress parents roots fallen []) :
    x ∈ fallen ↔ Fallen parents roots x := by
  refine ⟨h.sound x, fun hx => ?_⟩
  refine fallen_least h.start (fun y hy => ?_) hx
  by_contra hmem
  obtain ⟨p, -, hp⟩ := h.pending y hmem hy
  cases hp

section

variable [DecidableEq α] {room : ℕ → Bool} {fallen frontier candidates : List α}

theorem Progress.round (h : Progress parents roots fallen frontier)
    (hroom : RoomFor parents roots room)
    (hcandidates : ∀ p ∈ frontier, ∀ x, p ∈ parents x → x ∉ fallen → x ∈ candidates) :
    Progress parents roots (fallen ++ sweep parents room candidates fallen)
      (sweep parents room candidates fallen) where
  nodup := nodup_append_sweep h.nodup
  sound x hx := by
    rcases mem_append.mp hx with hx | hx
    · exact h.sound x hx
    · exact fallen_of_mem_sweep h.sound hx
  start x hx := mem_append_left _ (h.start x hx)
  pending x hx horphan := by
    by_contra hnone
    push Not at hnone
    -- All parents had fallen before the round, so one of them was in its frontier.
    have hbefore : Orphaned parents (· ∈ fallen) x := by
      refine ⟨horphan.1, fun p hp => ?_⟩
      rcases mem_append.mp (horphan.2 p hp) with hmem | hmem
      · exact hmem
      · exact absurd hmem (hnone p hp)
    have hfresh : x ∉ fallen := fun hmem => hx (mem_append_left _ hmem)
    obtain ⟨p, hp, hfrontier⟩ := h.pending x hfresh hbefore
    have hcandidate := hcandidates p hfrontier x hp hfresh
    rcases mem_sweep_of_orphaned hroom h.nodup h.sound hcandidate hbefore with hmem | hmem
    · exact hfresh hmem
    · exact hx (mem_append_right _ hmem)

/-- A round falls at least as far as a synchronous one. -/
theorem Progress.fallenWithin_succ (h : Progress parents roots fallen frontier)
    (hroom : RoomFor parents roots room)
    (hcandidates : ∀ p ∈ frontier, ∀ x, p ∈ parents x → x ∉ fallen → x ∈ candidates) {n : ℕ}
    (hn : ∀ x, FallenWithin parents roots n x → x ∈ fallen) {x : α}
    (hx : FallenWithin parents roots (n + 1) x) :
    x ∈ fallen ++ sweep parents room candidates fallen := by
  rcases hx with hx | ⟨hparent, hall⟩
  · exact mem_append_left _ (hn x hx)
  · have horphan : Orphaned parents (· ∈ fallen) x := ⟨hparent, fun p hp => hn p (hall p hp)⟩
    by_cases hmem : x ∈ fallen
    · exact mem_append_left _ hmem
    · obtain ⟨p, hp, hfrontier⟩ := h.pending x hmem horphan
      rcases mem_sweep_of_orphaned hroom h.nodup h.sound
        (hcandidates p hfrontier x hp hmem) horphan with hfell | hfell
      · exact absurd hfell hmem
      · exact mem_append_right _ hfell

/-- A round in which the candidates that cannot fall yet come first is a
synchronous one. -/
theorem fallenWithin_succ_of_mem_sweep {first second : List α} {n : ℕ}
    (hn : ∀ x ∈ fallen, FallenWithin parents roots n x)
    (hfirst : ∀ x ∈ first, ¬ Orphaned parents (FallenWithin parents roots n) x)
    (hsecond : ∀ x ∈ second, Orphaned parents (FallenWithin parents roots n) x) {x : α}
    (hx : x ∈ fallen ++ sweep parents room (first ++ second) fallen) :
    FallenWithin parents roots (n + 1) x := by
  have hblocked : ∀ y ∈ first, ¬ Orphaned parents (· ∈ fallen) y := by
    intro y hy horphan
    exact hfirst y hy ⟨horphan.1, fun p hp => hn p (horphan.2 p hp)⟩
  rcases mem_append.mp hx with hx | hx
  · exact .inl (hn x hx)
  · rw [sweep_append_of_blocked hblocked] at hx
    exact .inr (hsecond x (mem_of_mem_sweep hx))

end

end DataViz.Cascade
