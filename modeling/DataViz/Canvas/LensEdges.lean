/-
# The lens projects each hop once

`lens-subgraph.ts`: `projectLensEdges` draws each hop of the population between the nearest
visible nodes at or above its ends and bundles the hops of one pair. The nearest nodes are
remembered along the chains, which may be cyclic, and the bundles are filed under the two
urns joined by a space.
-/

import DataViz.Data.Dict
import Mathlib.Algebra.BigOperators.Group.List.Basic
import Mathlib.Algebra.Order.Ring.Int
import Mathlib.Tactic.Ring

namespace DataViz.Canvas.LensEdges

open List

structure LensEdge where
  sourceUrn : String
  targetUrn : String
  edgeType : Option String
  rollup : Bool
  weight : Option ℤ

def hopWeight (e : LensEdge) : ℤ :=
  if e.rollup then max 1 (e.weight.getD 1) else 1

structure ProjectedLensEdge where
  sourceUrn : String
  targetUrn : String
  weight : ℤ
  isLeafEdge : Bool
  edgeTypeNorm : String
  edgeTypes : List String
  coarse : Bool

abbrev ProjectedLensEdge.pair (line : ProjectedLensEdge) : String × String :=
  (line.sourceUrn, line.targetUrn)

def pairKey (pair : String × String) : String :=
  pair.1 ++ " " ++ pair.2

/-- A hop between two visible nodes, on the line of its text if there is one. -/
def bundle (existing : Option ProjectedLensEdge) (s t : String) (hop : LensEdge) :
    ProjectedLensEdge :=
  let hopType := hop.edgeType.getD ""
  match existing with
  | some line =>
    { line with
      weight := line.weight + hopWeight hop
      isLeafEdge := false
      coarse := line.coarse || hop.rollup
      edgeTypeNorm := if line.edgeTypeNorm ≠ hopType then "" else line.edgeTypeNorm
      edgeTypes := if hopType ≠ "" ∧ hopType ∉ line.edgeTypes then line.edgeTypes ++ [hopType]
        else line.edgeTypes }
  | none =>
    { sourceUrn := s
      targetUrn := t
      weight := hopWeight hop
      isLeafEdge := !hop.rollup && s = hop.sourceUrn && t = hop.targetUrn
      edgeTypeNorm := hopType
      edgeTypes := if hopType ≠ "" then [hopType] else []
      coarse := hop.rollup }

section

variable (nodes : Dict String (Option String)) (population visible : List String)

def parentOf (urn : String) : Option String :=
  (nodes.get? urn).join

/-- The loop of `nearestVisible`: the chain, which is its guard as well, and what is found. -/
def climb (landing : Dict String (Option String)) :
    ℕ → List String → Option String → List String × Option String
  | n + 1, chain, some cursor =>
    if cursor = "" ∨ cursor ∈ chain then (chain, none)
    else match landing.get? cursor with
      | some cached => (chain, cached)
      | none =>
        if cursor ∈ visible then (chain, some cursor)
        else climb landing n (chain ++ [cursor]) (parentOf nodes cursor)
  | _, chain, _ => (chain, none)

/-- Each step of a chain but the last is a node of its own. -/
def nearestVisible (landing : Dict String (Option String)) (urn : String) :
    Option String × Dict String (Option String) :=
  match landing.get? urn with
  | some hit => (hit, landing)
  | none =>
    let walk := climb nodes visible landing (nodes.length + 1) [] (some urn)
    (walk.2, (walk.1.foldl (fun landing step => landing.set step walk.2) landing).set urn walk.2)

def projectHop (state : Dict String (Option String) × Dict String ProjectedLensEdge)
    (hop : LensEdge) : Dict String (Option String) × Dict String ProjectedLensEdge :=
  if hop.sourceUrn ∉ population ∨ hop.targetUrn ∉ population then state
  else
    let source := nearestVisible nodes visible state.1 hop.sourceUrn
    let target := nearestVisible nodes visible source.2 hop.targetUrn
    match source.1, target.1 with
    | some s, some t =>
      if s = "" ∨ t = "" ∨ s = t then (target.2, state.2)
      else
        (target.2, state.2.set (pairKey (s, t)) (bundle (state.2.get? (pairKey (s, t))) s t hop))
    | _, _ => (target.2, state.2)

def projectLensEdges (hops : List LensEdge) : List ProjectedLensEdge :=
  (hops.foldl (projectHop nodes population visible) ([], [])).2.map Prod.snd

end

inductive Nearest (parent : String → Option String) (visible : String → Prop) :
    String → String → Prop
  | here {a : String} : visible a → Nearest parent visible a a
  | up {u p a : String} : ¬ visible u → parent u = some p → Nearest parent visible p a →
      Nearest parent visible u a

theorem Nearest.unique {parent : String → Option String} {visible : String → Prop}
    {u a b : String} (first : Nearest parent visible u a) (second : Nearest parent visible u b) :
    a = b := by
  induction first with
  | here seen =>
    cases second with
    | here => rfl
    | up hidden => exact absurd seen hidden
  | up hidden parent _ ih =>
    cases second with
    | here seen => exact absurd seen hidden
    | up _ parent' rest =>
      cases parent.symm.trans parent'
      exact ih rest

section

variable (nodes : Dict String (Option String)) (visible : List String)

/-- The nearest visible node, if the way to it meets no empty urn. -/
def Reached : String → String → Prop :=
  Nearest (fun u => if u = "" then none else parentOf nodes u) fun u => u ≠ "" ∧ u ∈ visible

/-- What is remembered of a node is its nearest visible node. -/
def Sound (landing : Dict String (Option String)) : Prop :=
  ∀ u found, landing.get? u = some found → ∀ a, found = some a ↔ Reached nodes visible u a

/-- A chain up to a node that is looked at next: all of it is hidden, and what is nearest to
that node is nearest to all. -/
structure Climbing (chain : List String) (cursor : Option String) : Prop where
  once : chain.Nodup
  hidden : ∀ c ∈ chain, c ≠ "" ∧ c ∉ visible
  same : ∀ c ∈ chain, ∀ a, Reached nodes visible c a ↔ ∃ q, cursor = some q ∧
    Reached nodes visible q a
  closed : ∀ c ∈ chain, (parentOf nodes c = none → cursor = none) ∧
    ∀ p, parentOf nodes c = some p → p ∈ chain ∨ cursor = some p

variable {nodes visible} {u a : String}

theorem Reached.nearest (reached : Reached nodes visible u a) :
    Nearest (parentOf nodes) (· ∈ visible) u a := by
  induction reached with
  | here seen => exact .here seen.2
  | up hidden parent _ ih =>
    split at parent
    · cases parent
    next named => exact .up (fun seen => hidden ⟨named, seen⟩) parent ih

theorem Reached.ne_empty (reached : Reached nodes visible u a) : a ≠ "" := by
  induction reached with
  | here seen => exact seen.1
  | up _ _ _ ih => exact ih

theorem not_reached_empty {a : String} : ¬ Reached nodes visible "" a := by
  intro reached
  cases reached with
  | here seen => exact seen.1 rfl
  | up _ parent => cases parent

theorem reached_visible (named : u ≠ "") (seen : u ∈ visible) : Reached nodes visible u a ↔ u = a :=
  ⟨fun reached => (Nearest.here ⟨named, seen⟩).unique reached,
    fun same => same ▸ .here ⟨named, seen⟩⟩

theorem reached_hidden (named : u ≠ "") (hidden : u ∉ visible) :
    Reached nodes visible u a ↔ ∃ p, parentOf nodes u = some p ∧ Reached nodes visible p a := by
  constructor
  · intro reached
    cases reached with
    | here seen => exact absurd seen.2 hidden
    | up _ parent rest =>
      rw [if_neg named] at parent
      exact ⟨_, parent, rest⟩
  · rintro ⟨p, parent, rest⟩
    exact .up (fun seen => hidden seen.2) ((if_neg named).trans parent) rest

variable {chain : List String}

/-- A chain that comes back to itself has no visible node. -/
theorem not_reached_of_closed (hidden : ∀ c ∈ chain, c ∉ visible)
    (closed : ∀ c ∈ chain, ∀ p, parentOf nodes c = some p → p ∈ chain) (mem : u ∈ chain) :
    ¬ Reached nodes visible u a := by
  intro reached
  induction reached with
  | here seen => exact hidden _ mem seen.2
  | up _ parent _ ih =>
    split at parent
    · cases parent
    · exact ih (closed _ mem _ parent)

theorem Climbing.ends {cursor : Option String} (climbing : Climbing nodes visible chain cursor)
    (found : Option String)
    (eq : ∀ a, found = some a ↔ ∃ q, cursor = some q ∧ Reached nodes visible q a) :
    chain ⊆ chain ∧ (∀ c ∈ chain, ∀ a, found = some a ↔ Reached nodes visible c a) ∧
      ∀ q, cursor = some q → ∀ a, found = some a ↔ Reached nodes visible q a := by
  refine ⟨Subset.refl _, fun c mem a => (eq a).trans (climbing.same c mem a).symm,
    fun q here a => ?_⟩
  simp [eq, here]

variable {landing : Dict String (Option String)}

theorem climb_sound (sound : Sound nodes visible landing) {n : ℕ} {cursor : Option String}
    (climbing : Climbing nodes visible chain cursor) (fuel : chain.length + n = nodes.length + 1) :
    let walk := climb nodes visible landing n chain cursor
    chain ⊆ walk.1 ∧ (∀ c ∈ walk.1, ∀ a, walk.2 = some a ↔ Reached nodes visible c a) ∧
      ∀ q, cursor = some q → ∀ a, walk.2 = some a ↔ Reached nodes visible q a := by
  induction n generalizing chain cursor with
  | zero =>
    cases cursor with
    | none => exact climbing.ends none (by simp)
    | some q =>
      -- All of the chain has a parent, and no more nodes do.
      have inside : chain ⊆ nodes.keys := fun c mem => by
        have parent : parentOf nodes c ≠ none := fun none =>
          nomatch (climbing.closed c mem).1 none
        refine Dict.mem_keys_iff.mpr (Option.isSome_iff_ne_none.mpr fun none => parent ?_)
        rw [parentOf, none]
        rfl
      have short := (subperm_of_subset climbing.once inside).length_le
      rw [Dict.keys, length_map] at short
      omega
  | succ n ih =>
    cases cursor with
    | none => exact climbing.ends none (by simp)
    | some q =>
      rw [climb]
      split
      next stops =>
        refine climbing.ends none fun a => ?_
        simp only [reduceCtorEq, false_iff]
        rintro ⟨_, ⟨⟩, reached⟩
        obtain rfl | again := stops
        · exact not_reached_empty reached
        · refine not_reached_of_closed (fun c mem => (climbing.hidden c mem).2)
            (fun c mem p parent => ?_) again reached
          obtain inside | next := (climbing.closed c mem).2 p parent
          · exact inside
          · cases next
            exact again
      next goes =>
        obtain ⟨named, fresh⟩ := not_or.mp goes
        split
        next cached here => exact climbing.ends cached fun a => by simp [sound q cached here a]
        next =>
          split
          next seen => exact climbing.ends (some q) fun a => by simp [reached_visible named seen]
          next hidden =>
            have up := @reached_hidden nodes visible q
            have next : Climbing nodes visible (chain ++ [q]) (parentOf nodes q) := by
              refine ⟨nodup_append.mpr ⟨climbing.once, by simp, fun c mem d same => ?_⟩,
                fun c mem => ?_, fun c mem a => ?_, fun c mem => ?_⟩
              · rw [mem_singleton.mp same]
                exact fun eq => fresh (eq ▸ mem)
              all_goals obtain old | new := mem_append.mp mem
              · exact climbing.hidden c old
              · rw [mem_singleton.mp new]
                exact ⟨named, hidden⟩
              · rw [climbing.same c old a]
                simp [up named hidden]
              · rw [mem_singleton.mp new]
                exact up named hidden
              · refine ⟨fun none => (nomatch (climbing.closed c old).1 none), fun p parent => ?_⟩
                obtain inside | here := (climbing.closed c old).2 p parent
                · exact .inl (mem_append_left _ inside)
                · cases here
                  exact .inl (by simp)
              · rw [mem_singleton.mp new]
                exact ⟨fun none => none, fun p parent => .inr parent⟩
            have rest := ih next (by rw [length_append, length_singleton]; omega)
            refine ⟨fun c mem => rest.1 (mem_append_left _ mem), rest.2.1, ?_⟩
            intro q' here
            cases here
            exact rest.2.1 q (rest.1 (by simp))

theorem Sound.set (sound : Sound nodes visible landing) {u : String} {found : Option String}
    (eq : ∀ a, found = some a ↔ Reached nodes visible u a) :
    Sound nodes visible (landing.set u found) := by
  intro u' found' here
  rw [Dict.get?_set] at here
  split at here
  next same =>
    cases here
    exact same ▸ eq
  next => exact sound u' found' here

theorem nearestVisible_sound (sound : Sound nodes visible landing) (u : String) :
    (∀ a, (nearestVisible nodes visible landing u).1 = some a ↔ Reached nodes visible u a) ∧
      Sound nodes visible (nearestVisible nodes visible landing u).2 := by
  rw [nearestVisible]
  split
  next hit here => exact ⟨sound u hit here, sound⟩
  next absent =>
    have start : Climbing nodes visible [] (some u) :=
      ⟨nodup_nil, nofun, nofun, nofun⟩
    obtain ⟨-, chain, here⟩ := climb_sound sound start (n := nodes.length + 1) (by simp)
    refine ⟨here u rfl, ?_⟩
    refine Sound.set ?_ (here u rfl)
    clear absent here
    generalize climb nodes visible landing (nodes.length + 1) [] (some u) = walk at chain
    obtain ⟨steps, found⟩ := walk
    induction steps generalizing landing with
    | nil => exact sound
    | cons c steps ih =>
      exact ih (sound.set (chain c mem_cons_self)) fun d mem =>
        chain d (mem_cons_of_mem _ mem)

end

theorem sum_single {α : Type*} [DecidableEq α] {list : List α} (once : list.Nodup) {a : α}
    (mem : a ∈ list) {f : α → ℤ} {n : ℤ} (here : f a = n)
    (rest : ∀ other, other ≠ a → f other = 0) : (list.map f).sum = n := by
  rw [sum_map_eq_nsmul_single a _ fun other apart _ => rest other apart,
    count_eq_one_of_mem once mem, one_nsmul, here]

section

open Classical

variable (nodes : Dict String (Option String)) (population visible : List String)

/-- The two ends of a hop of the population have two nearest visible nodes. -/
def Crosses (hop : LensEdge) (pair : String × String) : Prop :=
  hop.sourceUrn ∈ population ∧ hop.targetUrn ∈ population ∧
    Nearest (parentOf nodes) (· ∈ visible) hop.sourceUrn pair.1 ∧
    Nearest (parentOf nodes) (· ∈ visible) hop.targetUrn pair.2 ∧ pair.1 ≠ pair.2

/-- A hop that crosses with no empty urn on its ways. -/
def Drawn (hop : LensEdge) (pair : String × String) : Prop :=
  hop.sourceUrn ∈ population ∧ hop.targetUrn ∈ population ∧
    Reached nodes visible hop.sourceUrn pair.1 ∧ Reached nodes visible hop.targetUrn pair.2 ∧
    pair.1 ≠ pair.2

structure Tells (line : ProjectedLensEdge) (those : List LensEdge) : Prop where
  weight : line.weight = (those.map hopWeight).sum
  coarse : line.coarse = those.any (·.rollup)
  once : line.edgeTypes.Nodup
  types : ∀ type, type ∈ line.edgeTypes ↔ type ≠ "" ∧ ∃ hop ∈ those, hop.edgeType.getD "" = type

/-- Each two visible nodes with a hop across them have one line, which describes just these
hops; with the hops inside one node, the lines weigh what all hops do. -/
structure Conserves (hops : List LensEdge) (lines : List ProjectedLensEdge) : Prop where
  once : (lines.map (·.pair)).Nodup
  drawn : ∀ pair, pair ∈ lines.map (·.pair) ↔
    ∃ hop ∈ hops, Crosses nodes population visible hop pair
  tells : ∀ line ∈ lines, Tells line (hops.filter (Crosses nodes population visible · line.pair))
  total : (lines.map (·.weight)).sum + ((hops.filter fun hop =>
    ¬ ∃ pair, Crosses nodes population visible hop pair).map hopWeight).sum =
      (hops.map hopWeight).sum

/-- No hop meets an empty urn on the ways to its visible nodes, and no two pairs of visible
nodes with a hop are written alike. -/
structure Readable (hops : List LensEdge) : Prop where
  named : ∀ hop ∈ hops, ∀ pair, Crosses nodes population visible hop pair →
    Drawn nodes population visible hop pair
  apart : ∀ hop ∈ hops, ∀ pair, Crosses nodes population visible hop pair →
    ∀ hop' ∈ hops, ∀ pair', Crosses nodes population visible hop' pair' →
      pairKey pair = pairKey pair' → pair = pair'

structure Bundled (hops : List LensEdge) (bundles : Dict String ProjectedLensEdge) : Prop where
  once : bundles.keys.Nodup
  filed : ∀ key line, bundles.get? key = some line → key = pairKey line.pair ∧
    ∃ hop ∈ hops, Drawn nodes population visible hop line.pair
  held : ∀ hop ∈ hops, ∀ pair, Drawn nodes population visible hop pair →
    (bundles.get? (pairKey pair)).isSome
  tells : (∀ hop ∈ hops, ∀ pair, Drawn nodes population visible hop pair →
    ∀ hop' ∈ hops, ∀ pair', Drawn nodes population visible hop' pair' →
      pairKey pair = pairKey pair' → pair = pair') →
    ∀ key line, bundles.get? key = some line →
      Tells line (hops.filter (Drawn nodes population visible · line.pair))

variable {nodes population visible} {hop : LensEdge}

theorem Crosses.unique {p q : String × String} (first : Crosses nodes population visible hop p)
    (second : Crosses nodes population visible hop q) : p = q :=
  Prod.ext (first.2.2.1.unique second.2.2.1) (first.2.2.2.1.unique second.2.2.2.1)

theorem Drawn.crosses {pair : String × String} (drawn : Drawn nodes population visible hop pair) :
    Crosses nodes population visible hop pair :=
  ⟨drawn.1, drawn.2.1, drawn.2.2.1.nearest, drawn.2.2.2.1.nearest, drawn.2.2.2.2⟩

theorem Tells.first {s t : String} : Tells (bundle none s t hop) [hop] := by
  refine ⟨by simp [bundle], by simp [bundle], ?_, fun type => ?_⟩
  all_goals
    rw [bundle]
    split
  · exact nodup_singleton _
  · exact nodup_nil
  next filled => grind
  next empty => grind

theorem Tells.next {line : ProjectedLensEdge} {those : List LensEdge} (tells : Tells line those)
    {s t : String} : Tells (bundle (some line) s t hop) (those ++ [hop]) := by
  refine ⟨by simp [bundle, tells.weight], by simp [bundle, tells.coarse], ?_, fun type => ?_⟩
  all_goals
    rw [bundle]
    dsimp only
    split
  next new =>
    exact nodup_append.mpr ⟨tells.once, by simp, fun a mem b same => by
      rw [mem_singleton.mp same]
      exact fun eq => new.2 (eq ▸ mem)⟩
  next => exact tells.once
  next new =>
    have old := tells.types type
    grind
  next old =>
    have old := tells.types type
    grind

theorem projectHop_cases {state : Dict String (Option String) × Dict String ProjectedLensEdge}
    (sound : Sound nodes visible state.1) (hop : LensEdge) :
    Sound nodes visible (projectHop nodes population visible state hop).1 ∧
      (((projectHop nodes population visible state hop).2 = state.2 ∧
        ∀ pair, ¬ Drawn nodes population visible hop pair) ∨
      ∃ pair, Drawn nodes population visible hop pair ∧
        (projectHop nodes population visible state hop).2 = state.2.set (pairKey pair)
          (bundle (state.2.get? (pairKey pair)) pair.1 pair.2 hop)) := by
  rw [projectHop]
  split
  next outside => exact ⟨sound, .inl ⟨rfl, fun pair drawn => by grind [Drawn]⟩⟩
  next inside =>
    obtain ⟨source, sound⟩ := nearestVisible_sound sound hop.sourceUrn
    dsimp only
    generalize nearestVisible nodes visible state.1 hop.sourceUrn = first at source sound
    obtain ⟨target, sound⟩ := nearestVisible_sound sound hop.targetUrn
    generalize nearestVisible nodes visible first.2 hop.targetUrn = second at target sound
    split
    next s t here there =>
      have near := (source s).mp here
      have near' := (target t).mp there
      split
      next stops =>
        refine ⟨sound, .inl ⟨rfl, fun pair drawn => ?_⟩⟩
        rw [near.unique drawn.2.2.1, near'.unique drawn.2.2.2.1] at stops
        obtain empty | empty | same := stops
        · exact drawn.2.2.1.ne_empty empty
        · exact drawn.2.2.2.1.ne_empty empty
        · exact drawn.2.2.2.2 same
      next goes =>
        refine ⟨sound, .inr ⟨(s, t), ⟨?_, ?_, near, near', ?_⟩, rfl⟩⟩
        all_goals grind
    next none =>
      refine ⟨sound, .inl ⟨rfl, fun pair drawn => ?_⟩⟩
      exact none pair.1 pair.2 ((source _).mpr drawn.2.2.1) ((target _).mpr drawn.2.2.2.1)

theorem Bundled.skip {done : List LensEdge} {bundles : Dict String ProjectedLensEdge}
    (bundled : Bundled nodes population visible done bundles)
    (hidden : ∀ pair, ¬ Drawn nodes population visible hop pair) :
    Bundled nodes population visible (done ++ [hop]) bundles := by
  have old {hop' : LensEdge} (mem : hop' ∈ done ++ [hop]) {pair : String × String}
      (drawn : Drawn nodes population visible hop' pair) : hop' ∈ done := by
    refine (mem_append.mp mem).resolve_right fun new => hidden pair ?_
    rwa [mem_singleton.mp new] at drawn
  refine ⟨bundled.once, fun key line here => ?_, fun hop' mem pair drawn =>
    bundled.held hop' (old mem drawn) pair drawn, fun apart key line here => ?_⟩
  · obtain ⟨same, hop', mem, drawn⟩ := bundled.filed key line here
    exact ⟨same, hop', mem_append_left _ mem, drawn⟩
  · rw [filter_append, filter_cons_of_neg (by simpa using hidden _), filter_nil, append_nil]
    exact bundled.tells (fun hop' mem pair drawn hop'' mem' => apart hop'
      (mem_append_left _ mem) pair drawn hop'' (mem_append_left _ mem')) key line here

theorem Bundled.file {done : List LensEdge} {bundles : Dict String ProjectedLensEdge}
    (bundled : Bundled nodes population visible done bundles) {pair : String × String}
    (drawn : Drawn nodes population visible hop pair) :
    Bundled nodes population visible (done ++ [hop]) (bundles.set (pairKey pair)
      (bundle (bundles.get? (pairKey pair)) pair.1 pair.2 hop)) := by
  have here : hop ∈ done ++ [hop] := mem_append_right _ mem_cons_self
  have ends (line : Option ProjectedLensEdge) : (bundle line pair.1 pair.2 hop).pair =
      (line.map (·.pair)).getD pair := by
    cases line <;> rfl
  refine ⟨Dict.nodup_keys_set bundled.once _ _, fun key line found => ?_,
    fun hop' mem pair' drawn' => ?_, fun apart key line found => ?_⟩
  · rw [Dict.get?_set] at found
    split at found
    next same =>
      obtain rfl := Option.some.inj found
      rw [ends, ← same]
      cases old : bundles.get? (pairKey pair) with
      | none => exact ⟨rfl, hop, here, drawn⟩
      | some line =>
        obtain ⟨key, hop', mem, drawn'⟩ := bundled.filed _ line old
        exact ⟨key, hop', mem_append_left _ mem, drawn'⟩
    next =>
      obtain ⟨key, hop', mem, drawn'⟩ := bundled.filed key line found
      exact ⟨key, hop', mem_append_left _ mem, drawn'⟩
  · rw [Dict.get?_set]
    split
    next => rfl
    next other =>
      refine bundled.held hop' ((mem_append.mp mem).resolve_right fun new => other ?_) pair' drawn'
      rw [mem_singleton.mp new] at drawn'
      rw [drawn.crosses.unique drawn'.crosses]
  · have before := bundled.tells fun hop' mem pair drawn hop'' mem' => apart hop'
      (mem_append_left _ mem) pair drawn hop'' (mem_append_left _ mem')
    rw [filter_append]
    rw [Dict.get?_set] at found
    split at found
    next same =>
      obtain rfl := Option.some.inj found
      cases old : bundles.get? (pairKey pair) with
      | none =>
        have fresh : done.filter (Drawn nodes population visible · pair) = [] :=
          filter_eq_nil_iff.mpr fun hop' mem drawn' => by
            have held := bundled.held hop' mem pair (by simpa using drawn')
            rw [old] at held
            cases held
        have first : (bundle none pair.1 pair.2 hop).pair = pair := rfl
        rw [first, fresh, nil_append, filter_cons_of_pos (by simpa using drawn)]
        exact Tells.first
      | some line =>
        obtain ⟨key, hop', mem, drawn'⟩ := bundled.filed _ line old
        have same := apart hop here pair drawn hop' (mem_append_left _ mem) _ drawn' key
        have next : (bundle (some line) pair.1 pair.2 hop).pair = line.pair := rfl
        rw [next, filter_cons_of_pos (by simpa [← same] using drawn)]
        exact (before _ line old).next
    next other =>
      have apart : ¬ Drawn nodes population visible hop line.pair := fun drawn' => other <| by
        rw [drawn.crosses.unique drawn'.crosses, (bundled.filed key line found).1]
      rw [filter_cons_of_neg (by simpa using apart), filter_nil, append_nil]
      exact before key line found

theorem bundled_all (hops : List LensEdge) : Bundled nodes population visible hops
    (hops.foldl (projectHop nodes population visible) ([], [])).2 := by
  have run (later done : List LensEdge)
      (state : Dict String (Option String) × Dict String ProjectedLensEdge)
      (sound : Sound nodes visible state.1)
      (bundled : Bundled nodes population visible done state.2) :
      Bundled nodes population visible (done ++ later)
        (later.foldl (projectHop nodes population visible) state).2 := by
    induction later generalizing done state with
    | nil => rwa [append_nil]
    | cons hop later ih =>
      rw [append_cons]
      obtain ⟨sound, ⟨same, hidden⟩ | ⟨pair, drawn, filed⟩⟩ := projectHop_cases sound hop
      · exact ih _ _ sound (same ▸ bundled.skip hidden)
      · exact ih _ _ sound (filed ▸ bundled.file drawn)
  exact run hops [] ([], []) nofun ⟨nodup_nil, nofun, nofun, nofun⟩

theorem one_le_hopWeight (hop : LensEdge) : 1 ≤ hopWeight hop := by
  rw [hopWeight]
  split
  · exact le_max_left _ _
  · exact le_rfl

theorem sum_filter_le {p q : LensEdge → Prop} {hops : List LensEdge}
    (fewer : ∀ hop ∈ hops, p hop → q hop) :
    ((hops.filter (p ·)).map hopWeight).sum ≤ ((hops.filter (q ·)).map hopWeight).sum ∧
      (((hops.filter (p ·)).map hopWeight).sum = ((hops.filter (q ·)).map hopWeight).sum →
        ∀ hop ∈ hops, q hop → p hop) := by
  induction hops with
  | nil => exact ⟨le_rfl, nofun⟩
  | cons hop hops ih =>
    obtain ⟨less, equal⟩ := ih fun hop mem => fewer hop (mem_cons_of_mem _ mem)
    have here := fewer hop mem_cons_self
    have positive := one_le_hopWeight hop
    by_cases first : p hop <;> by_cases second : q hop <;>
      simp only [filter_cons, first, second, decide_true, decide_false, if_true,
        map_cons, sum_cons, Bool.false_eq_true, if_false, forall_mem_cons] at *
    all_goals grind

theorem sum_crosses {pairs : List (String × String)} (once : pairs.Nodup) {hops : List LensEdge}
    (listed : ∀ hop ∈ hops, ∀ pair, Crosses nodes population visible hop pair → pair ∈ pairs) :
    (pairs.map fun pair =>
      ((hops.filter (Crosses nodes population visible · pair)).map hopWeight).sum).sum +
        ((hops.filter fun hop => ¬ ∃ pair, Crosses nodes population visible hop pair).map
          hopWeight).sum = (hops.map hopWeight).sum := by
  induction hops with
  | nil => simp
  | cons hop hops ih =>
    have rest := ih fun hop mem => listed hop (mem_cons_of_mem _ mem)
    have split (pair : String × String) :
        (((hop :: hops).filter (Crosses nodes population visible · pair)).map hopWeight).sum =
          (if Crosses nodes population visible hop pair then hopWeight hop else 0) +
            ((hops.filter (Crosses nodes population visible · pair)).map hopWeight).sum := by
      by_cases here : Crosses nodes population visible hop pair <;>
        simp [here]
    have hidden : (((hop :: hops).filter fun hop =>
        ¬ ∃ pair, Crosses nodes population visible hop pair).map hopWeight).sum =
          (if ∃ pair, Crosses nodes population visible hop pair then 0 else hopWeight hop) +
            ((hops.filter fun hop => ¬ ∃ pair, Crosses nodes population visible hop pair).map
              hopWeight).sum := by
      by_cases here : ∃ pair, Crosses nodes population visible hop pair
      · rw [filter_cons_of_neg (by simpa using here), if_pos here, zero_add]
      · rw [filter_cons_of_pos (by simpa using here), if_neg here, map_cons, sum_cons]
    have one : (pairs.map fun pair =>
        if Crosses nodes population visible hop pair then hopWeight hop else 0).sum =
          if ∃ pair, Crosses nodes population visible hop pair then hopWeight hop else 0 := by
      split
      next here =>
        obtain ⟨pair, crosses⟩ := here
        exact sum_single once (listed hop mem_cons_self pair crosses) (if_pos crosses)
          fun other apart => if_neg fun here => apart (here.unique crosses)
      next none =>
        refine sum_eq_zero fun n mem => ?_
        obtain ⟨pair, -, rfl⟩ := mem_map.mp mem
        exact if_neg fun crosses => none ⟨pair, crosses⟩
    simp only [split, hidden, sum_map_add, one, map_cons, sum_cons, ← rest]
    split_ifs <;> ring

/-- For every graph of nodes, cyclic or not, population, visible nodes and hops, the lines
conserve the hops just when no hop meets an empty urn and no two pairs are written alike. -/
theorem conserves_iff (hops : List LensEdge) : Conserves nodes population visible hops
    (projectLensEdges nodes population visible hops) ↔ Readable nodes population visible hops := by
  have bundled : Bundled nodes population visible hops _ := bundled_all hops
  rw [projectLensEdges]
  generalize (hops.foldl (projectHop nodes population visible) ([], [])).2 = bundles at bundled
  have get {line : ProjectedLensEdge} (mem : line ∈ bundles.map Prod.snd) :
      bundles.get? (pairKey line.pair) = some line := by
    obtain ⟨⟨key, line⟩, listed, rfl⟩ := mem_map.mp mem
    have found := Dict.get?_of_mem bundled.once listed
    rwa [(bundled.filed key line found).1] at found
  have drawn {hop : LensEdge} (mem : hop ∈ hops) {pair : String × String}
      (drawn : Drawn nodes population visible hop pair) :
      ∃ line ∈ bundles.map Prod.snd, pairKey pair = pairKey line.pair := by
    obtain ⟨line, found⟩ := Option.isSome_iff_exists.mp (bundled.held hop mem pair drawn)
    exact ⟨line, mem_map_of_mem (Dict.mem_of_get? found), (bundled.filed _ line found).1⟩
  constructor
  · intro conserves
    have apart : ∀ hop ∈ hops, ∀ pair, Crosses nodes population visible hop pair →
        ∀ hop' ∈ hops, ∀ pair', Crosses nodes population visible hop' pair' →
          pairKey pair = pairKey pair' → pair = pair' := by
      intro hop mem pair crosses hop' mem' pair' crosses' same
      obtain ⟨line, listed, rfl⟩ := mem_map.mp ((conserves.drawn pair).mpr ⟨hop, mem, crosses⟩)
      obtain ⟨line', listed', rfl⟩ :=
        mem_map.mp ((conserves.drawn pair').mpr ⟨hop', mem', crosses'⟩)
      have here := get listed
      rw [same, get listed'] at here
      rw [Option.some.inj here]
    refine ⟨fun hop mem pair crosses => ?_, apart⟩
    obtain ⟨line, listed, rfl⟩ := mem_map.mp ((conserves.drawn pair).mpr ⟨hop, mem, crosses⟩)
    have told := bundled.tells (fun hop mem pair drawn hop' mem' pair' drawn' =>
      apart hop mem pair drawn.crosses hop' mem' pair' drawn'.crosses) _ line (get listed)
    have weights := told.weight.symm.trans (conserves.tells line listed).weight
    exact (sum_filter_le fun hop _ drawn => drawn.crosses).2 weights hop mem crosses
  · intro readable
    have tells := bundled.tells fun hop mem pair drawn hop' mem' pair' drawn' =>
      readable.apart hop mem pair drawn.crosses hop' mem' pair' drawn'.crosses
    have told : ∀ line ∈ bundles.map Prod.snd,
        Tells line (hops.filter (Crosses nodes population visible · line.pair)) := by
      intro line listed
      have same := filter_congr (p := (Drawn nodes population visible · line.pair))
        (q := (Crosses nodes population visible · line.pair)) fun hop mem => by
          simpa using ⟨Drawn.crosses, readable.named hop mem line.pair⟩
      exact same ▸ tells _ line (get listed)
    have once : ((bundles.map Prod.snd).map (·.pair)).Nodup := by
      refine Nodup.of_map pairKey ?_
      have keys : ((bundles.map Prod.snd).map (·.pair)).map pairKey = bundles.keys := by
        rw [map_map, map_map]
        refine map_congr_left fun entry mem => ?_
        exact (bundled.filed _ _ (Dict.get?_of_mem bundled.once mem)).1.symm
      exact keys ▸ bundled.once
    have lines : ∀ pair, pair ∈ (bundles.map Prod.snd).map (·.pair) ↔
        ∃ hop ∈ hops, Crosses nodes population visible hop pair := by
      intro pair
      constructor
      · intro mem
        obtain ⟨line, listed, rfl⟩ := mem_map.mp mem
        obtain ⟨-, hop, mem, drawn⟩ := bundled.filed _ line (get listed)
        exact ⟨hop, mem, drawn.crosses⟩
      · rintro ⟨hop, mem, crosses⟩
        obtain ⟨line, listed, same⟩ := drawn mem (readable.named hop mem pair crosses)
        obtain ⟨-, hop', mem', drawn'⟩ := bundled.filed _ line (get listed)
        have eq := readable.apart hop mem pair crosses hop' mem' _ drawn'.crosses same
        exact eq ▸ mem_map_of_mem listed
    refine ⟨once, lines, told, ?_⟩
    rw [← sum_crosses once fun hop mem pair crosses => (lines pair).mpr ⟨hop, mem, crosses⟩]
    congr 2
    refine (map_congr_left fun line listed => (told line listed).weight).trans ?_
    simp only [map_map]
    rfl

/-- Two hops between four nodes that are written alike: the second pair has no line. -/
theorem spaced_not_conserves : ¬ ∀ (nodes : Dict String (Option String))
    (population visible : List String) (hops : List LensEdge),
    Conserves nodes population visible hops (projectLensEdges nodes population visible hops) := by
  intro all
  have lines := (all [] ["a b", "c", "a", "b c"] ["a b", "c", "a", "b c"]
    [⟨"a b", "c", none, false, none⟩, ⟨"a", "b c", none, false, none⟩]).drawn ("a", "b c")
  refine absurd (lines.mpr ⟨⟨"a", "b c", none, false, none⟩, by simp, by simp, by simp,
    .here (by simp), .here (by simp), by decide⟩) ?_
  decide +kernel

end
end DataViz.Canvas.LensEdges
