/-
# Walking a graph depth first

A node is free of cycles when no cycle can be reached from it; in a graph of finitely many nodes
these are the nodes below which every walk ends, so they have a depth: the length of a longest path.

A depth-first walk keeps the nodes on its way, each with those of its edges it has yet to look at.
What remains to be done falls whenever it looks at an edge, finds a node or goes back
(`remaining_found`), so every such walk ends.
-/

import Mathlib.Algebra.Ring.Nat
import Mathlib.Data.Set.Finite.List
import DataViz.Data.Digraph

namespace DataViz.Digraph

open List

variable {α : Type*} {targets : α → List α}

section

def CycleFree (targets : α → List α) (a : α) : Prop :=
  ∀ b, Reach targets a b → ¬Relation.TransGen (fun x y => y ∈ targets x) b b

def Ends (targets : α → List α) : α → Prop :=
  Acc fun b a => b ∈ targets a

theorem CycleFree.of_reach {a b : α} (free : CycleFree targets a) (path : Reach targets a b) :
    CycleFree targets b :=
  fun c later => free c (path.trans later)

variable {a : α}

theorem cycleFree_iff : CycleFree targets a ↔ ∀ b ∈ targets a, CycleFree targets b := by
  refine ⟨fun free b edge => free.of_reach (.of_mem edge), fun each c path cycle => ?_⟩
  rcases Relation.ReflTransGen.cases_head path with rfl | ⟨b, edge, later⟩
  · obtain ⟨b, edge, back⟩ := Relation.TransGen.head'_iff.1 cycle
    exact each b edge b (.refl b) (Relation.TransGen.tail'_iff.2 ⟨a, back, edge⟩)
  · exact each b edge c later cycle

theorem Ends.cycleFree (ends : Ends targets a) : CycleFree targets a := by
  induction ends with
  | intro a _ ih => exact cycleFree_iff.2 ih

/-- Walks end where they did with more edges. -/
theorem Ends.mono {fewer : α → List α} (sub : ∀ a, fewer a ⊆ targets a) (ends : Ends targets a) :
    Ends fewer a :=
  Subrelation.accessible (fun {_ b} edge => sub b edge) ends

theorem CycleFree.ends {nodes : List α} (finite : ∀ a, targets a ⊆ nodes)
    (free : CycleFree targets a) : Ends targets a := by
  have few : Finite {b // Reach targets a b} := by
    refine Set.Finite.to_subtype ((finite_toSet (a :: nodes)).subset fun b path => ?_)
    rcases Relation.ReflTransGen.cases_tail path with rfl | ⟨c, -, edge⟩
    · exact mem_cons_self
    · exact mem_cons_of_mem _ (finite c edge)
  let beyond (b c : {b // Reach targets a b}) : Prop :=
    Relation.TransGen (fun x y => y ∈ targets x) c.1 b.1
  have irrefl : Std.Irrefl beyond := ⟨fun b cycle => free b.1 b.2 cycle⟩
  have wellFounded := Finite.wellFounded_of_trans_of_irrefl beyond
  have below : ∀ b : {b // Reach targets a b}, Ends targets b.1 := fun b => by
    induction b using wellFounded.induction with
    | _ b ih =>
      refine Acc.intro _ fun c edge => ?_
      exact ih ⟨c, b.2.trans (.of_mem edge)⟩ (.single edge)
  exact below ⟨a, .refl a⟩

open Classical in
/-- A value of a node that is made of the values above it, where walks from it end. -/
noncomputable def climb {β : Type*} [Inhabited β] (value : List β → β) (targets : α → List α)
    (a : α) : β :=
  if ends : Ends targets a then
    Acc.rec (fun a _ valueOf => value ((targets a).attach.map fun b => valueOf b.1 b.2)) ends
  else default

theorem climb_eq {β : Type*} [Inhabited β] (value : List β → β) (ends : Ends targets a) :
    climb value targets a = value ((targets a).map (climb value targets)) := by
  rw [climb, dif_pos ends]
  cases ends with
  | intro _ each =>
    conv_rhs => rw [← attach_map_subtype_val (targets a), map_map]
    refine congrArg value (map_congr_left fun b _ => ?_)
    have below : Ends targets b.1 := each b.1 b.2
    rw [Function.comp_apply, climb, dif_pos below]

/-- The length of a longest path from a node, where walks from it end. -/
noncomputable def depth : (α → List α) → α → ℕ :=
  climb fun depths => (depths.map (· + 1)).foldr max 0

theorem depth_eq (ends : Ends targets a) :
    depth targets a = ((targets a).map fun b => depth targets b + 1).foldr max 0 := by
  rw [depth, climb_eq _ ends, map_map]
  rfl

end

section

theorem reach_of_chain {cur : α} {below : List α}
    (way : (cur :: below).IsChain fun upper lower => upper ∈ targets lower) :
    ∀ a ∈ cur :: below, Reach targets a cur := by
  induction below generalizing cur with
  | nil =>
    intro a mem
    rw [mem_singleton] at mem
    exact mem ▸ .refl _
  | cons lower below ih =>
    intro a mem
    obtain ⟨edge, rest⟩ := isChain_cons_cons.1 way
    rcases mem_cons.1 mem with rfl | mem
    · exact .refl _
    · exact (ih rest a mem).trans (.of_mem edge)

/-- The edges of the nodes on the way that are to be looked at, and what the nodes that are not
found yet will cost. -/
def remaining (targets : α → List α) (nodes : List α) (found : α → Bool)
    (way : List (α × List α)) : ℕ :=
  (way.map fun frame => frame.2.length + 1).sum +
    ((nodes.filter (!found ·)).map fun a => (targets a).length + 2).sum

variable {nodes : List α} {found found' : α → Bool}

theorem sum_unfound_le (nodes : List α) (weight : α → ℕ)
    (more : ∀ a, found a = true → found' a = true) :
    ((nodes.filter (!found' ·)).map weight).sum ≤ ((nodes.filter (!found ·)).map weight).sum := by
  induction nodes with
  | nil => exact le_refl _
  | cons a nodes ih =>
    cases here : found a <;> cases there : found' a <;> simp_all
    omega

theorem sum_unfound_add_le (weight : α → ℕ) {b : α} (node : b ∈ nodes) (fresh : found b = false)
    (here : found' b = true) (more : ∀ a, found a = true → found' a = true) :
    ((nodes.filter (!found' ·)).map weight).sum + weight b ≤
      ((nodes.filter (!found ·)).map weight).sum := by
  induction nodes with
  | nil => cases node
  | cons a nodes ih =>
    rcases mem_cons.1 node with rfl | later
    · have rest := sum_unfound_le nodes weight more
      simp only [filter_cons, fresh, here, Bool.not_true, Bool.not_false, if_true,
        Bool.false_eq_true, if_false, map_cons, sum_cons]
      omega
    · cases old : found a <;> cases new : found' a <;> simp_all
      all_goals omega

variable {way : List (α × List α)}

/-- Finding a node leaves less to do. -/
theorem remaining_found {a b : α} {rest : List α} (node : b ∈ nodes) (fresh : found b = false)
    (here : found' b = true) (more : ∀ a, found a = true → found' a = true) {edges : List α}
    (few : edges.length ≤ (targets b).length) :
    remaining targets nodes found' ((b, edges) :: (a, rest) :: way) <
      remaining targets nodes found ((a, b :: rest) :: way) := by
  have less := sum_unfound_add_le (fun a => (targets a).length + 2) node fresh here more
  simp only [remaining, map_cons, sum_cons, length_cons]
  omega

theorem remaining_looked {a b : α} {rest : List α} (more : ∀ a, found a = true → found' a = true) :
    remaining targets nodes found' ((a, rest) :: way) <
      remaining targets nodes found ((a, b :: rest) :: way) := by
  have less := sum_unfound_le nodes (fun a => (targets a).length + 2) more
  simp only [remaining, map_cons, sum_cons, length_cons]
  omega

theorem remaining_back {frame : α × List α} (more : ∀ a, found a = true → found' a = true) :
    remaining targets nodes found' way < remaining targets nodes found (frame :: way) := by
  have less := sum_unfound_le nodes (fun a => (targets a).length + 2) more
  simp only [remaining, map_cons, sum_cons]
  omega

end

end DataViz.Digraph
