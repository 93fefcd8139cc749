/-
# What the review tree shows

The tree shows every change once exactly when no changed node's containers run in a circle inside
the tree and no changed relationship is itself a container of one.

The argument is a double count. A row counts some of the changes it shows (`counts_total`), so when
every change is shown by one row the rows add up to the number of changes only if each row counts
all it shows.
-/

import Mathlib.Algebra.BigOperators.Fin
import Mathlib.Algebra.Order.BigOperators.Group.Finset
import Mathlib.Data.Set.Card
import DataViz.Versioning.DiffHierarchy

namespace DataViz.Versioning

open List Option

open ParentTree (ancestor Cyclic Rooted)

variable {η : Type} {eid : EntityId} {index : DiffIndex}

namespace DiffIndex

def Below (index : DiffIndex) : EntityId → EntityId → Prop :=
  Relation.ReflTransGen fun container child =>
    child ∈ (index.childrenOf.get? container).getD []

/-- The entities a row stands for before anything is opened. -/
def starts (index : DiffIndex) (g : Row) : List EntityId :=
  if g.kind = .bucket then (index.buckets.get? g.key).getD [] else [g.key]

def Shows (index : DiffIndex) (g : Row) (eid : EntityId) : Prop :=
  ∃ m ∈ index.starts g, index.Below m eid

end DiffIndex

section

variable [DecidableEq η]
variable (upper lower : String → String) (contentHash : Option Payload → η) (order : SetOrder)
variable (merged theirs : State) (containmentEdgeTypes : List String)

def Changed (eid : EntityId) : Prop :=
  (deltaOf contentHash eid (theirs.get? eid).join (merged.get? eid).join).isSome

def ChangedNode (eid : EntityId) : Prop :=
  Changed contentHash merged theirs eid ∧ isEdgePayload (payloadOf merged theirs eid) = false

def ChangedRelationship (eid : EntityId) : Prop :=
  Changed contentHash merged theirs eid ∧ isEdgePayload (payloadOf merged theirs eid) = true ∧
    upper (edgeType (payloadOf merged theirs eid)) ∉ containmentEdgeTypes.map upper

/-- The parent a state's containment edges give an entity, the draft's edges over
the target's and a later one over an earlier. -/
def containmentParent (eid : EntityId) : Option EntityId :=
  ((containmentLinks upper (containmentEdgeTypes.map upper) theirs ++
    containmentLinks upper (containmentEdgeTypes.map upper) merged).reverse.find? fun link =>
      link.2 = eid).map Prod.fst

def InTree (eid : EntityId) : Prop :=
  ∃ z n, ChangedNode contentHash merged theirs z ∧ n ≤ 64 ∧
    ancestor (containmentParent upper merged theirs containmentEdgeTypes) n z = some eid

/-- No changed node's containers run in a circle, and no changed relationship is a
container. -/
structure Forested : Prop where
  leaves : ∀ z, ChangedNode contentHash merged theirs z → ∃ n, ∀ x,
    ancestor (containmentParent upper merged theirs containmentEdgeTypes) n z = some x →
      ¬ InTree upper contentHash merged theirs containmentEdgeTypes x
  relationships : ∀ e, ChangedRelationship upper contentHash merged theirs containmentEdgeTypes e →
    ¬ InTree upper contentHash merged theirs containmentEdgeTypes e

/-- The tree is built, every changed node and relationship is under one row of its
top level, and the counts of those rows add up to the number of changes. -/
def ShowsEveryChangeOnce : Prop :=
  ∃ index, buildDiffHierarchy upper lower contentHash order merged theirs containmentEdgeTypes =
      some index ∧
    (∀ eid, ChangedNode contentHash merged theirs eid ∨
        ChangedRelationship upper contentHash merged theirs containmentEdgeTypes eid →
      ∃! i : Fin index.top.length, index.Shows (index.top.get i) eid) ∧
    (index.top.map fun g => g.counts.total).sum =
      Set.ncard {eid | ChangedNode contentHash merged theirs eid ∨
        ChangedRelationship upper contentHash merged theirs containmentEdgeTypes eid}

end

namespace Counts

@[simp]
theorem total_zero : (0 : Counts).total = 0 := rfl

@[simp]
theorem total_add (a b : Counts) : (a + b).total = a.total + b.total := by
  simp only [total, add_def]
  omega

@[simp]
theorem total_ofOp (op : Op) : (ofOp op).total = 1 := by
  cases op <;> rfl

theorem total_sum (cs : List Counts) : cs.sum.total = (cs.map total).sum := by
  induction cs with
  | nil => rfl
  | cons c cs ih => simp [ih]

end Counts

namespace DiffTree

variable {upper lower : String → String} {t : DiffTree η}

/-- The pointer from a node of the tree to its container in the tree. -/
def parent (t : DiffTree η) : EntityId → Option EntityId :=
  ParentTree.restrict t.parentOf.get? (· ∈ t.relevant)

variable {x z : EntityId}

theorem parent_eq_some_iff : t.parent z = some x ↔ z ∈ t.relevant ∧ t.container z = some x := by
  simp [parent, ParentTree.restrict_eq_some_iff, container, filter_eq_some_iff]

/-- What `diffTree` establishes: every node of the tree is a changed node or above
one. -/
structure WellBuilt (t : DiffTree η) : Prop where
  nodup : t.relevant.Nodup
  deltas : (t.deltas.map Delta.entityId).Nodup
  changed : ∀ z ∈ t.changedNodes, z ∈ t.relevant
  above : ∀ x ∈ t.relevant, ∃ z ∈ t.changedNodes, ∃ n, ancestor t.parent n z = some x

theorem mem_relevant_of_parent (h : t.parent z = some x) : z ∈ t.relevant ∧ x ∈ t.relevant := by
  obtain ⟨hz, hcontainer⟩ := parent_eq_some_iff.mp h
  exact ⟨hz, by simpa using (filter_eq_some_iff.mp hcontainer).2⟩

/-- A walk of at least one step stays in the tree. -/
theorem mem_relevant_of_ancestor {n : ℕ} (h : ancestor t.parent (n + 1) z = some x) :
    z ∈ t.relevant ∧ x ∈ t.relevant := by
  obtain ⟨y, -, hx⟩ := bind_eq_some_iff.mp (ParentTree.ancestor_succ n z ▸ h)
  obtain ⟨w, hw, -⟩ := bind_eq_some_iff.mp (ParentTree.ancestor_succ' n z ▸ h)
  exact ⟨(mem_relevant_of_parent hw).1, (mem_relevant_of_parent hx).2⟩

theorem children_eq (x : EntityId) :
    t.children x = t.relevant.filter fun z => t.container z = some x := by
  rw [children, childrenOf, Dict.get?_group]
  induction t.relevant with
  | nil => rfl
  | cons z rest ih =>
    cases hz : t.container z with
    | none => simpa [hz] using ih
    | some par => by_cases hpar : par = x <;> simpa [hz, hpar] using ih

theorem mem_children : z ∈ t.children x ↔ t.parent z = some x := by
  rw [children_eq, parent_eq_some_iff]
  simp

theorem reflTransGen_iff :
    Relation.ReflTransGen (fun container child => child ∈ t.children container) x z ↔
      ∃ n, ancestor t.parent n z = some x := by
  constructor
  · intro h
    induction h with
    | refl => exact ⟨0, rfl⟩
    | @tail y w _ hw ih =>
      obtain ⟨n, hn⟩ := ih
      exact ⟨n + 1, by rw [ParentTree.ancestor_succ', mem_children.mp hw, bind_some, hn]⟩
  · rintro ⟨n, hn⟩
    induction n generalizing z with
    | zero =>
      obtain rfl := some.inj hn
      exact Relation.ReflTransGen.refl
    | succ n ih =>
      obtain ⟨y, hy, hx⟩ := bind_eq_some_iff.mp (ParentTree.ancestor_succ' n z ▸ hn)
      exact (ih hx).tail (mem_children.mpr hy)

section

variable (ht : t.WellBuilt)

include ht

theorem lists : ParentTree.Lists t.children t.parent where
  nodup x := by
    rw [children_eq]
    exact ht.nodup.filter _
  mem_iff _ _ := mem_children

variable {x : EntityId}

/-- A node of the tree with nothing below it is a changed node. -/
theorem changed_of_leaf (hx : x ∈ t.relevant) (hleaf : t.children x = []) : x ∈ t.changedNodes := by
  obtain ⟨z, hz, n, hn⟩ := ht.above x hx
  cases n with
  | zero => exact some.inj hn ▸ hz
  | succ n =>
    obtain ⟨y, -, hy⟩ := bind_eq_some_iff.mp (ParentTree.ancestor_succ n z ▸ hn)
    have hmem := mem_children.mpr hy
    rw [hleaf] at hmem
    cases hmem

theorem rollup_eq {c : Counts} (h : t.rollup x = some c) : ¬ Cyclic t.parent x ∧
      c = ((ParentTree.subtree t.children (t.relevant.length + 1) x).map t.own).sum := by
  refine ⟨fun hcyclic => ?_, ParentTree.rollup_eq_sum h⟩
  rw [rollup, ParentTree.rollup_cyclic (lists ht) hcyclic] at h
  cases h

/-- A rollup returns exactly off the circles, so the bound on its depth is none. -/
theorem isSome_rollup_iff : (t.rollup x).isSome ↔ ¬ Cyclic t.parent x := by
  constructor
  · intro h
    obtain ⟨c, hc⟩ := isSome_iff_exists.mp h
    exact (rollup_eq ht hc).1
  · exact ParentTree.isSome_rollup_of_not_cyclic (lists ht) fun _ _ => mem_relevant_of_parent

end

theorem mem_changedNodes : eid ∈ t.changedNodes ↔ (t.delta eid).isSome ∧ t.isEdge eid = false := by
  simp [changedNodes, delta, find?_isSome]

theorem mem_changedRelationships : eid ∈ t.changedRelationships upper ↔
      (t.delta eid).isSome ∧ t.isEdge eid = true ∧ t.isContainmentEdge upper eid = false := by
  simp [changedRelationships, delta, find?_isSome]

theorem total_single (h : (t.delta eid).isSome) : (t.single eid).total = 1 := by
  obtain ⟨d, hd⟩ := isSome_iff_exists.mp h
  simp [single, hd]

theorem total_own (eid : EntityId) : (t.own eid).total = if eid ∈ t.changedNodes then 1 else 0 := by
  cases hd : t.delta eid with
  | none => simp [own, hd, mem_changedNodes]
  | some d => cases hedge : t.isEdge eid <;> simp [own, hd, hedge, mem_changedNodes]

theorem nodup_changedRelationships (ht : t.WellBuilt) : (t.changedRelationships upper).Nodup :=
  ht.deltas.filter _

def changes (upper : String → String) (t : DiffTree η) : Finset EntityId :=
  (t.changedNodes ++ t.changedRelationships upper).toFinset

theorem mem_changes :
    eid ∈ t.changes upper ↔ eid ∈ t.changedNodes ∨ eid ∈ t.changedRelationships upper := by
  simp [changes]

theorem not_mem_changedNodes (h : eid ∈ t.changedRelationships upper) : eid ∉ t.changedNodes := by
  intro hnode
  have hedge := (mem_changedRelationships.mp h).2.1
  rw [(mem_changedNodes.mp hnode).2] at hedge
  cases hedge

variable {r : EntityId}

theorem parent_eq_none_iff (hr : r ∈ t.relevant) : t.parent r = none ↔ t.container r = none := by
  simp only [eq_none_iff_forall_ne_some, ne_eq, parent_eq_some_iff, hr, true_and]

theorem mem_topContainers :
    r ∈ t.topContainers ↔ r ∈ t.relevant ∧ t.parent r = none ∧ t.children r ≠ [] := by
  rw [topContainers, mem_filter, decide_eq_true_iff]
  exact and_congr_right fun hr => and_congr_left fun _ => (parent_eq_none_iff hr).symm

theorem mem_topLeaves :
    r ∈ t.topLeaves ↔ r ∈ t.relevant ∧ t.parent r = none ∧ t.children r = [] := by
  rw [topLeaves, mem_filter, decide_eq_true_iff]
  exact and_congr_right fun hr => and_congr_left fun _ => (parent_eq_none_iff hr).symm

/-- Buckets taken apart hold what the buckets held. -/
theorem perm_onlyMember (buckets : Dict String (List EntityId)) :
    (buckets.filterMap (fun bucket => onlyMember bucket.2) ++
      (buckets.filter fun bucket => (onlyMember bucket.2).isNone).flatMap Prod.snd).Perm
      (buckets.flatMap Prod.snd) := by
  induction buckets with
  | nil => exact Perm.refl _
  | cons bucket rest ih =>
    obtain ⟨key, members⟩ := bucket
    cases honly : onlyMember members with
    | some eid =>
      obtain rfl : members = [eid] := by
        match members, honly with
        | [_], h => rw [onlyMember, some.injEq] at h; rw [h]
      simpa [onlyMember] using ih
    | none =>
      simp only [filterMap_cons, honly, filter_cons, isNone_none, if_true, flatMap_cons]
      rw [← append_assoc]
      exact (perm_append_comm.append_right _).trans
        (by simpa [append_assoc] using ih.append_left members)

theorem perm_allBuckets : ((t.allBuckets upper).flatMap Prod.snd).Perm
    (t.topLeaves ++ t.changedRelationships upper) := by
  refine (Dict.perm_flatMap_group _).trans (Perm.of_eq ?_)
  simp [Function.comp_def]

theorem nodeView_eq {g : Row} (h : t.nodeView r = some g) :
    g.key = r ∧ g.kind = (if t.children r = [] then .leaf else .container) ∧
      (if t.children r = [] then some (t.single r) else t.rollup r) = some g.counts := by
  obtain ⟨counts, hcounts, rfl⟩ := map_eq_some_iff.mp h
  exact ⟨rfl, rfl, hcounts⟩

section

theorem starts_nodeView {r : EntityId} {g : Row} (h : t.nodeView r = some g) :
    index.starts g = [r] := by
  obtain ⟨hkey, hkind, -⟩ := nodeView_eq h
  rw [DiffIndex.starts, if_neg (by rw [hkind]; split <;> decide), hkey]

theorem flatMap_starts {roots : List EntityId} {rootViews : List Row}
    (h : roots.map t.nodeView = rootViews.map some) : rootViews.flatMap index.starts = roots := by
  induction roots generalizing rootViews with
  | nil =>
    obtain rfl : rootViews = [] := by simpa using h.symm
    rfl
  | cons r roots ih =>
    cases rootViews with
    | nil => cases h
    | cons g rest =>
      obtain ⟨hg, hrest⟩ := cons.inj h
      rw [flatMap_cons, starts_nodeView hg, ih hrest, singleton_append]

variable (hindex : t.index upper lower = some index)

include hindex

theorem index_eq : index.childrenOf = t.childrenOf ∧ index.buckets = t.buckets upper ∧
    t.top upper lower = some index.top := by
  obtain ⟨top, htop, rfl⟩ := map_eq_some_iff.mp hindex
  exact ⟨rfl, rfl, htop⟩

theorem below_iff {x z : EntityId} : index.Below x z ↔ ∃ n, ancestor t.parent n z = some x := by
  rw [← reflTransGen_iff, DiffIndex.Below, (index_eq hindex).1]
  rfl

theorem exists_rootViews : ∃ rootViews, (t.roots upper).map t.nodeView = rootViews.map some ∧
    index.top.Perm (rootViews ++ (t.buckets upper).map t.bucketView) := by
  obtain ⟨rootViews, hviews, htop⟩ := map_eq_some_iff.mp (index_eq hindex).2.2
  refine ⟨rootViews, ParentTree.mapM_eq_some_iff.mp hviews, ?_⟩
  rw [← htop]
  exact (perm_insertionSort _ _).append (perm_insertionSort _ _)

theorem mem_top {g : Row} (hg : g ∈ index.top) : (∃ r ∈ t.roots upper, t.nodeView r = some g) ∨
      ∃ bucket ∈ t.buckets upper, t.bucketView bucket = g := by
  obtain ⟨rootViews, hviews, hperm⟩ := exists_rootViews hindex
  rcases mem_append.mp (hperm.mem_iff.mp hg) with hroot | hbucket
  · left
    have hmem : some g ∈ (t.roots upper).map t.nodeView := by
      rw [hviews]
      exact mem_map_of_mem hroot
    simpa using mem_map.mp hmem
  · exact .inr (mem_map.mp hbucket)

theorem starts_bucketView {bucket : String × List EntityId} (h : bucket ∈ t.buckets upper) :
    index.starts (t.bucketView bucket) = bucket.2 := by
  have hnodup : (t.buckets upper).keys.Nodup :=
    (Dict.nodup_keys_group _).sublist (filter_sublist.map _)
  have hkind : (t.bucketView bucket).kind = .bucket := rfl
  have hkey : (t.bucketView bucket).key = bucket.1 := rfl
  rw [DiffIndex.starts, if_pos hkind, hkey, (index_eq hindex).2.1,
    Dict.get?_of_mem hnodup h, getD_some]

theorem perm_starts : (index.top.flatMap index.starts).Perm
    (t.topContainers ++ (t.topLeaves ++ t.changedRelationships upper)) := by
  obtain ⟨rootViews, hviews, hperm⟩ := exists_rootViews hindex
  have hbuckets : ((t.buckets upper).map t.bucketView).flatMap index.starts =
      (t.buckets upper).flatMap Prod.snd := by
    rw [flatMap_map]
    exact flatMap_congr fun bucket hbucket => starts_bucketView hindex hbucket
  refine (hperm.flatMap_right _).trans ?_
  rw [flatMap_append, flatMap_starts hviews, hbuckets, roots, append_assoc]
  exact ((perm_onlyMember _).trans perm_allBuckets).append_left _

theorem mem_starts {g : Row} (hg : g ∈ index.top) {m : EntityId} (hm : m ∈ index.starts g) :
    m ∈ t.topContainers ∨ m ∈ t.topLeaves ∨ m ∈ t.changedRelationships upper := by
  simpa using (perm_starts hindex).mem_iff.mp (mem_flatMap.mpr ⟨g, hg, hm⟩)

end

/-- A row counts an entity: a container the changed nodes below it, any other row
the entities it stands for. -/
def IsCounted (t : DiffTree η) (index : DiffIndex) (g : Row) (z : EntityId) : Prop :=
  (g.kind = .container ∧ z ∈ t.changedNodes ∧ index.Below g.key z) ∨
    (g.kind ≠ .container ∧ z ∈ index.starts g)

theorem shows_of_isCounted {index : DiffIndex} {g : Row} {z : EntityId}
    (h : t.IsCounted index g z) : index.Shows g z := by
  rcases h with ⟨hkind, -, hbelow⟩ | ⟨-, hz⟩
  · refine ⟨g.key, ?_, hbelow⟩
    rw [DiffIndex.starts, if_neg (by rw [hkind]; decide)]
    exact mem_singleton_self _
  · exact ⟨z, hz, Relation.ReflTransGen.refl⟩

section

variable (ht : t.WellBuilt) (hindex : t.index upper lower = some index)

include ht

theorem mem_changes_of_leaf {r : EntityId}
    (hr : r ∈ t.topLeaves ++ t.changedRelationships upper) : r ∈ t.changes upper := by
  rcases mem_append.mp hr with hleaf | hedge
  · obtain ⟨hmem, -, hchildren⟩ := mem_topLeaves.mp hleaf
    exact mem_changes.mpr (.inl (changed_of_leaf ht hmem hchildren))
  · exact mem_changes.mpr (.inr hedge)

theorem nodup_leaves : (t.topLeaves ++ t.changedRelationships upper).Nodup := by
  refine nodup_append.mpr ⟨ht.nodup.filter _, nodup_changedRelationships ht, fun r hr e he => ?_⟩
  rintro rfl
  obtain ⟨hmem, -, hchildren⟩ := mem_topLeaves.mp hr
  exact not_mem_changedNodes he (changed_of_leaf ht hmem hchildren)

theorem mem_subtree_iff {x z : EntityId} (hx : ¬ Cyclic t.parent x) :
    z ∈ ParentTree.subtree t.children (t.relevant.length + 1) x ↔
      ∃ n, ancestor t.parent n z = some x :=
  ParentTree.mem_subtree_of_not_cyclic (lists ht) (fun _ _ => mem_relevant_of_parent) hx

theorem total_rollup {x : EntityId} {c : Counts} (h : t.rollup x = some c) :
    c.total = (((ParentTree.subtree t.children (t.relevant.length + 1) x).filter
      (· ∈ t.changedNodes)).toFinset).card := by
  obtain ⟨hcyclic, rfl⟩ := rollup_eq ht h
  rw [toFinset_card_of_nodup ((ParentTree.nodup_subtree (lists ht) hcyclic).filter _),
    Counts.total_sum, List.map_map]
  generalize ParentTree.subtree t.children (t.relevant.length + 1) x = below
  induction below with
  | nil => rfl
  | cons z below ih =>
    by_cases hz : z ∈ t.changedNodes <;> simp [total_own, hz, ih, Nat.add_comm]

include hindex

theorem counts_of_not_container {g : Row} (hg : g ∈ index.top) (hkind : g.kind ≠ .container) :
    g.counts.total = (index.starts g).length ∧ (index.starts g).Nodup ∧
      ∀ m ∈ index.starts g, m ∈ t.topLeaves ++ t.changedRelationships upper := by
  rcases mem_top hindex hg with ⟨r, hr, hview⟩ | ⟨bucket, hbucket, rfl⟩
  · obtain ⟨-, hrow, hcounts⟩ := nodeView_eq hview
    have hchildren : t.children r = [] := by
      by_contra hne
      exact hkind (by rw [hrow, if_neg hne])
    have hleaf : r ∈ t.topLeaves ++ t.changedRelationships upper := by
      rcases mem_append.mp hr with htop | honly
      · exact absurd hchildren (mem_topContainers.mp htop).2.2
      · exact (perm_onlyMember _ |>.trans perm_allBuckets).mem_iff.mp (mem_append_left _ honly)
    rw [if_pos hchildren, some.injEq] at hcounts
    have hdelta : (t.delta r).isSome := by
      rcases mem_changes.mp (mem_changes_of_leaf ht hleaf) with hnode | hedge
      · exact (mem_changedNodes.mp hnode).1
      · exact (mem_changedRelationships.mp hedge).1
    rw [starts_nodeView hview, ← hcounts, total_single hdelta]
    exact ⟨rfl, nodup_singleton r, by simpa using hleaf⟩
  · have hsub : bucket ∈ t.allBuckets upper := (mem_filter.mp hbucket).1
    have hmem : ∀ m ∈ bucket.2, m ∈ t.topLeaves ++ t.changedRelationships upper := fun m hm =>
      perm_allBuckets.mem_iff.mp (mem_flatMap.mpr ⟨bucket, hsub, hm⟩)
    have hnodup : bucket.2.Nodup := (nodup_flatMap.mp
      (perm_allBuckets.nodup_iff.mpr (nodup_leaves ht))).1 bucket hsub
    have hcounts : (t.bucketView bucket).counts = (bucket.2.map t.single).sum := rfl
    rw [starts_bucketView hindex hbucket, hcounts, Counts.total_sum, List.map_map]
    refine ⟨?_, hnodup, hmem⟩
    have hone : bucket.2.map (Counts.total ∘ t.single) = bucket.2.map fun _ => 1 := by
      refine map_congr_left fun m hm => total_single ?_
      rcases mem_changes.mp (mem_changes_of_leaf ht (hmem m hm)) with hnode | hedge
      · exact (mem_changedNodes.mp hnode).1
      · exact (mem_changedRelationships.mp hedge).1
    rw [hone]
    simp

open Classical in
theorem counts_total {g : Row} (hg : g ∈ index.top) :
    g.counts.total = ((t.changes upper).filter (t.IsCounted index g)).card := by
  by_cases hkind : g.kind = .container
  · obtain ⟨r, hr, hview⟩ : ∃ r ∈ t.roots upper, t.nodeView r = some g := by
      rcases mem_top hindex hg with hroot | ⟨bucket, -, rfl⟩
      · exact hroot
      · cases hkind
    obtain ⟨hkey, hrow, hcounts⟩ := nodeView_eq hview
    have hchildren : t.children r ≠ [] := by
      intro hnil
      rw [hrow, if_pos hnil] at hkind
      cases hkind
    rw [if_neg hchildren] at hcounts
    rw [total_rollup ht hcounts]
    congr 1
    ext z
    rw [List.mem_toFinset, mem_filter, mem_subtree_iff ht (rollup_eq ht hcounts).1,
      Finset.mem_filter, mem_changes, IsCounted, hkey, below_iff hindex]
    simp only [decide_eq_true_eq, hkind, true_and, not_true_eq_false, ne_eq, false_and, or_false]
    tauto
  · obtain ⟨htotal, hnodup, hmem⟩ := counts_of_not_container ht hindex hg hkind
    rw [htotal, ← toFinset_card_of_nodup hnodup]
    congr 1
    ext z
    rw [List.mem_toFinset, Finset.mem_filter, IsCounted]
    simp only [hkind, false_and, not_false_eq_true, ne_eq, true_and, false_or]
    exact ⟨fun hz => ⟨mem_changes_of_leaf ht (hmem z hz), hz⟩, fun hz => hz.2⟩

end

/-- No changed node is above a circle, and no changed relationship is in the tree. -/
structure IsForest (upper : String → String) (t : DiffTree η) : Prop where
  rooted : ∀ z ∈ t.changedNodes, Rooted t.parent z
  relationships : ∀ e ∈ t.changedRelationships upper, e ∉ t.relevant

def ShownOnce (upper : String → String) (t : DiffTree η) (index : DiffIndex) : Prop :=
  ∀ z ∈ t.changes upper, ∃! i : Fin index.top.length, index.Shows (index.top.get i) z

open Classical in
/-- Things that each belong to one of finitely many groups are counted group by
group. -/
theorem sum_card_of_existsUnique {ι α : Type} [Fintype ι] {R : ι → α → Prop} {s : Finset α}
    (h : ∀ z ∈ s, ∃! i, R i z) : ∑ i, (s.filter (R i)).card = s.card := by
  simp only [Finset.card_filter]
  rw [Finset.sum_comm, Finset.card_eq_sum_ones]
  refine Finset.sum_congr rfl fun z hz => ?_
  obtain ⟨i, hi, hunique⟩ := h z hz
  rw [Finset.sum_eq_single i (fun j _ hne => if_neg fun hj => hne (hunique j hj))
    (fun hi' => absurd (Finset.mem_univ i) hi'), if_pos hi]

section

variable (ht : t.WellBuilt) (hindex : t.index upper lower = some index)

include ht hindex

open Classical in
theorem sum_total_iff (honce : t.ShownOnce upper index) :
    (index.top.map fun g => g.counts.total).sum = (t.changes upper).card ↔
      ∀ g ∈ index.top, ∀ z ∈ t.changes upper, index.Shows g z → t.IsCounted index g z := by
  have hsum : (index.top.map fun g => g.counts.total).sum = ∑ i : Fin index.top.length,
      ((t.changes upper).filter (t.IsCounted index (index.top.get i))).card := by
    rw [← Fin.sum_univ_fun_getElem]
    exact Finset.sum_congr rfl fun i _ => counts_total ht hindex (getElem_mem i.2)
  have hsubset : ∀ i : Fin index.top.length,
      (t.changes upper).filter (t.IsCounted index (index.top.get i)) ⊆
        (t.changes upper).filter (index.Shows (index.top.get i)) := fun i z hz => by
    obtain ⟨hmem, hcounted⟩ := Finset.mem_filter.mp hz
    exact Finset.mem_filter.mpr ⟨hmem, shows_of_isCounted hcounted⟩
  rw [hsum, ← sum_card_of_existsUnique honce,
    Finset.sum_eq_sum_iff_of_le fun i _ => Finset.card_le_card (hsubset i)]
  constructor
  · intro heq g hg z hz hshows
    obtain ⟨i, rfl⟩ := get_of_mem hg
    have hsame := Finset.eq_of_subset_of_card_le (hsubset i) (heq i (Finset.mem_univ i)).ge
    have hmem : z ∈ (t.changes upper).filter (index.Shows (index.top.get i)) :=
      Finset.mem_filter.mpr ⟨hz, hshows⟩
    rw [← hsame] at hmem
    exact (Finset.mem_filter.mp hmem).2
  · intro h i _
    congr 1
    ext z
    rw [Finset.mem_filter, Finset.mem_filter]
    exact and_congr_right fun hz =>
      ⟨shows_of_isCounted, h (index.top.get i) (get_mem _ _) z hz⟩

theorem not_mem_relevant_of_counted
    (hcounted : ∀ g ∈ index.top, ∀ z ∈ t.changes upper, index.Shows g z → t.IsCounted index g z)
    {e : EntityId} (he : e ∈ t.changedRelationships upper) : e ∉ t.relevant := by
  intro hrelevant
  obtain ⟨x, hx, n, hn⟩ := ht.above e hrelevant
  have hne : e ≠ x := by
    rintro rfl
    exact not_mem_changedNodes he hx
  obtain ⟨g, hg, hstart⟩ : ∃ g ∈ index.top, e ∈ index.starts g :=
    mem_flatMap.mp ((perm_starts hindex).mem_iff.mpr (by simp [he]))
  have hkind : g.kind ≠ .container := by
    rcases hcounted g hg e (mem_changes.mpr (.inr he)) ⟨e, hstart, .refl⟩ with
      ⟨-, hnode, -⟩ | ⟨hkind, -⟩
    · exact absurd hnode (not_mem_changedNodes he)
    · exact hkind
  have hxstart : x ∈ index.starts g := by
    have hshows : index.Shows g x := ⟨e, hstart, (below_iff hindex).mpr ⟨n, hn⟩⟩
    rcases hcounted g hg x (mem_changes.mpr (.inl hx)) hshows with ⟨hcontainer, -⟩ | ⟨-, hmem⟩
    · exact absurd hcontainer hkind
    · exact hmem
  -- A changed node the row stands for has no container, but `x` is below `e`.
  have hroot : t.parent x = none := by
    rcases mem_starts hindex hg hxstart with htop | hleaf | hedge
    · exact (mem_topContainers.mp htop).2.1
    · exact (mem_topLeaves.mp hleaf).2.1
    · exact absurd hx (not_mem_changedNodes hedge)
  cases n with
  | zero => exact hne (some.inj hn).symm
  | succ n =>
    rw [ParentTree.ancestor_succ', hroot] at hn
    cases hn

theorem isForest_of_shownOnce (honce : t.ShownOnce upper index)
    (hsum : (index.top.map fun g => g.counts.total).sum = (t.changes upper).card) :
    t.IsForest upper := by
  have hcounted := (sum_total_iff ht hindex honce).mp hsum
  have hedges : ∀ e ∈ t.changedRelationships upper, e ∉ t.relevant := fun _ =>
    not_mem_relevant_of_counted ht hindex hcounted
  refine ⟨fun z hz => ?_, hedges⟩
  obtain ⟨i, ⟨m, hm, hbelow⟩, -⟩ := honce z (mem_changes.mpr (.inl hz))
  obtain ⟨n, hn⟩ := (below_iff hindex).mp hbelow
  rcases mem_starts hindex (get_mem _ _) hm with htop | hleaf | hedge
  · exact ParentTree.rooted_of_root hn (mem_topContainers.mp htop).2.1
  · exact ParentTree.rooted_of_root hn (mem_topLeaves.mp hleaf).2.1
  · exfalso
    cases n with
    | zero => exact not_mem_changedNodes hedge (some.inj hn ▸ hz)
    | succ n => exact hedges m hedge (mem_relevant_of_ancestor hn).2

theorem isCounted_of_shows (hforest : t.IsForest upper) {g : Row} (hg : g ∈ index.top)
    {z : EntityId} (hz : z ∈ t.changes upper) (h : index.Shows g z) : t.IsCounted index g z := by
  obtain ⟨m, hm, hbelow⟩ := h
  by_cases hkind : g.kind = .container
  · have hstarts : m = g.key := by
      rw [DiffIndex.starts, if_neg (by rw [hkind]; decide)] at hm
      exact mem_singleton.mp hm
    subst hstarts
    refine .inl ⟨hkind, ?_, hbelow⟩
    rcases mem_changes.mp hz with hnode | hedge
    · exact hnode
    · exfalso
      obtain ⟨n, hn⟩ := (below_iff hindex).mp hbelow
      cases n with
      | succ n => exact hforest.relationships z hedge (mem_relevant_of_ancestor hn).1
      | zero =>
        -- A container that is a changed relationship would be in the tree.
        obtain rfl := some.inj hn
        rcases mem_top hindex hg with ⟨r, -, hview⟩ | ⟨bucket, -, rfl⟩
        · obtain ⟨rfl, hrow, -⟩ := nodeView_eq hview
          have hchildren : t.children g.key ≠ [] := by
            intro hnil
            rw [hrow, if_pos hnil] at hkind
            cases hkind
          obtain ⟨child, hchild⟩ := exists_mem_of_ne_nil _ hchildren
          exact hforest.relationships _ hedge (mem_relevant_of_parent (mem_children.mp hchild)).2
        · cases hkind
  · obtain ⟨-, -, hleaves⟩ := counts_of_not_container ht hindex hg hkind
    have hchildren : ∀ y, t.parent y ≠ some m := by
      intro y hy
      rcases mem_append.mp (hleaves m hm) with hleaf | hedge
      · have hmem := mem_children.mpr hy
        rw [(mem_topLeaves.mp hleaf).2.2] at hmem
        cases hmem
      · exact hforest.relationships m hedge (mem_relevant_of_parent hy).2
    obtain ⟨n, hn⟩ := (below_iff hindex).mp hbelow
    cases n with
    | zero =>
      obtain rfl := some.inj hn
      exact .inr ⟨hkind, hm⟩
    | succ n =>
      obtain ⟨y, -, hy⟩ := bind_eq_some_iff.mp (ParentTree.ancestor_succ n z ▸ hn)
      exact absurd hy (hchildren y)

/-- A forest shows every change under one row. -/
theorem shownOnce_of_isForest (hforest : t.IsForest upper) : t.ShownOnce upper index := by
  have hnodup : (index.top.flatMap index.starts).Nodup := by
    rw [(perm_starts hindex).nodup_iff, nodup_append]
    refine ⟨ht.nodup.filter _, nodup_leaves ht, fun r hr m hm => ?_⟩
    rintro rfl
    obtain ⟨hmem, -, hchildren⟩ := mem_topContainers.mp hr
    rcases mem_append.mp hm with hleaf | hedge
    · exact hchildren (mem_topLeaves.mp hleaf).2.2
    · exact hforest.relationships r hedge hmem
  -- Every change is below one of the entities the top level stands for.
  have hstart : ∀ z ∈ t.changes upper, ∃! m, m ∈ index.top.flatMap index.starts ∧
      index.Below m z := by
    intro z hz
    simp only [(perm_starts hindex).mem_iff, below_iff hindex, mem_append]
    rcases mem_changes.mp hz with hnode | hedge
    · obtain ⟨n, r, hn, hr⟩ := (hforest.rooted z hnode).exists_root
      have hrelevant : r ∈ t.relevant := by
        cases n with
        | zero => exact some.inj hn ▸ ht.changed z hnode
        | succ n => exact (mem_relevant_of_ancestor hn).2
      refine ⟨r, ⟨?_, n, hn⟩, ?_⟩
      · by_cases hchildren : t.children r = []
        · exact .inr (.inl (mem_topLeaves.mpr ⟨hrelevant, hr, hchildren⟩))
        · exact .inl (mem_topContainers.mpr ⟨hrelevant, hr, hchildren⟩)
      · rintro m ⟨htop | hleaf | hedge, k, hk⟩
        · exact ParentTree.root_unique hk (mem_topContainers.mp htop).2.1 hn hr
        · exact ParentTree.root_unique hk (mem_topLeaves.mp hleaf).2.1 hn hr
        · exfalso
          cases k with
          | zero => exact not_mem_changedNodes hedge (some.inj hk ▸ hnode)
          | succ k => exact hforest.relationships m hedge (mem_relevant_of_ancestor hk).2
    · refine ⟨z, ⟨.inr (.inr hedge), 0, rfl⟩, ?_⟩
      rintro m ⟨-, k, hk⟩
      cases k with
      | zero => exact (some.inj hk).symm
      | succ k => exact absurd (mem_relevant_of_ancestor hk).1 (hforest.relationships z hedge)
  intro z hz
  obtain ⟨m, ⟨hm, hbelow⟩, hunique⟩ := hstart z hz
  obtain ⟨g, hg, hmg⟩ := mem_flatMap.mp hm
  obtain ⟨i, rfl⟩ := get_of_mem hg
  refine ⟨i, ⟨m, hmg, hbelow⟩, fun j hj => ?_⟩
  obtain ⟨m', hm', hbelow'⟩ := hj
  obtain rfl := hunique m' ⟨mem_flatMap.mpr ⟨_, get_mem _ j, hm'⟩, hbelow'⟩
  by_contra hne
  have hpair := pairwise_iff_get.mp (nodup_flatMap.mp hnodup).2
  rcases Ne.lt_or_gt hne with hlt | hlt
  · exact hpair j i hlt hm' hmg
  · exact hpair i j hlt hmg hm'

end

theorem exists_index (ht : t.WellBuilt) (hforest : t.IsForest upper) :
    ∃ index, t.index upper lower = some index := by
  rw [← isSome_iff_exists, index, isSome_map, top, isSome_map, ParentTree.isSome_mapM_iff]
  intro r hr
  rw [nodeView, isSome_map]
  split
  case isTrue => rfl
  case isFalse hchildren =>
    rw [isSome_rollup_iff ht]
    refine ParentTree.not_cyclic_of_parent_none ?_
    rcases mem_append.mp hr with htop | honly
    · exact (mem_topContainers.mp htop).2.1
    · rcases mem_append.mp ((perm_onlyMember _ |>.trans perm_allBuckets).mem_iff.mp
        (mem_append_left _ honly)) with hleaf | hedge
      · exact (mem_topLeaves.mp hleaf).2.1
      · obtain ⟨child, hchild⟩ := exists_mem_of_ne_nil _ hchildren
        exact absurd (mem_relevant_of_parent (mem_children.mp hchild)).2
          (hforest.relationships r hedge)

theorem shownOnce_iff_isForest (lower : String → String) (ht : t.WellBuilt) :
    (∃ index, t.index upper lower = some index ∧ t.ShownOnce upper index ∧
      (index.top.map fun g => g.counts.total).sum = (t.changes upper).card) ↔
      t.IsForest upper := by
  constructor
  · rintro ⟨index, hindex, honce, hsum⟩
    exact isForest_of_shownOnce ht hindex honce hsum
  · intro hforest
    obtain ⟨index, hindex⟩ := exists_index ht hforest
    have honce := shownOnce_of_isForest ht hindex hforest
    refine ⟨index, hindex, honce, (sum_total_iff ht hindex honce).mpr ?_⟩
    exact fun g hg z hz => isCounted_of_shows ht hindex hforest hg hz

end DiffTree

/-- The loop collects the parents a walk of the remaining length meets. -/
theorem mem_ancestorLoop {parentOf : Dict EntityId EntityId} {z x : EntityId} {k fuel : ℕ}
    {chain : List EntityId}
    (hchain : ∀ x, x ∈ chain ↔ ∃ n, 1 ≤ n ∧ n ≤ k ∧ ancestor parentOf.get? n z = some x) :
    x ∈ ancestorLoop parentOf fuel (ancestor parentOf.get? (k + 1) z) chain ↔
      ∃ n, 1 ≤ n ∧ n ≤ k + fuel ∧ ancestor parentOf.get? n z = some x := by
  induction fuel generalizing k chain with
  | zero => simpa [ancestorLoop] using hchain x
  | succ fuel ih =>
    cases hcur : ancestor parentOf.get? (k + 1) z with
    | none =>
      rw [ancestorLoop, hchain]
      · constructor
        · rintro ⟨n, hpos, hle, hn⟩
          exact ⟨n, hpos, by omega, hn⟩
        · rintro ⟨n, hpos, -, hn⟩
          refine ⟨n, hpos, ?_, hn⟩
          by_contra hlong
          rw [ParentTree.ancestor_none_of_le (Nat.lt_of_not_le hlong) hcur] at hn
          cases hn
      · exact Nat.succ_ne_zero fuel
    | some cur =>
      by_cases hmem : cur ∈ chain
      · rw [ancestorLoop, if_pos hmem, hchain]
        obtain ⟨m, hm, hle, hearly⟩ := (hchain cur).mp hmem
        constructor
        · rintro ⟨n, hpos, hn, hx⟩
          exact ⟨n, hpos, by omega, hx⟩
        · rintro ⟨n, hpos, -, hx⟩
          exact ParentTree.exists_ancestor_of_repeat hm hle hearly hcur hpos hx
      · have hnext : parentOf.get? cur = ancestor parentOf.get? (k + 1 + 1) z := by
          rw [ParentTree.ancestor_succ, hcur, bind_some]
        have hchain' : ∀ x, x ∈ chain ++ [cur] ↔
            ∃ n, 1 ≤ n ∧ n ≤ k + 1 ∧ ancestor parentOf.get? n z = some x := by
          intro x
          rw [mem_append, hchain, mem_singleton]
          constructor
          · rintro (⟨n, hpos, hle, hn⟩ | rfl)
            · exact ⟨n, hpos, by omega, hn⟩
            · exact ⟨k + 1, by omega, le_rfl, hcur⟩
          · rintro ⟨n, hpos, hle, hn⟩
            rcases Nat.le_succ_iff.mp hle with hle | rfl
            · exact .inl ⟨n, hpos, hle, hn⟩
            · exact .inr (some.inj (hn.symm.trans hcur))
        rw [ancestorLoop, if_neg hmem, hnext, ih hchain', Nat.add_assoc, Nat.add_comm 1 fuel]

theorem mem_ancestors {parentOf : Dict EntityId EntityId} {z x : EntityId} :
    x ∈ ancestors parentOf z ↔ ∃ n, 1 ≤ n ∧ n ≤ 64 ∧ ancestor parentOf.get? n z = some x := by
  have hstart : parentOf.get? z = ancestor parentOf.get? (0 + 1) z := by
    rw [ParentTree.ancestor_succ, ParentTree.ancestor_zero, bind_some]
  rw [ancestors, hstart, mem_ancestorLoop]
  intro x
  constructor
  · intro h
    cases h
  · rintro ⟨n, hpos, hle, -⟩
    omega

section

variable [DecidableEq η]
variable {upper lower : String → String} {contentHash : Option Payload → η} {order : SetOrder}
variable {merged theirs : State} {containmentEdgeTypes : List String}

theorem get?_parentMap (eid : EntityId) :
    (parentMap upper (containmentEdgeTypes.map upper) merged theirs).get? eid =
      containmentParent upper merged theirs containmentEdgeTypes eid := by
  rw [parentMap, Dict.get?_foldl_set_last Prod.snd Prod.fst, Dict.get?_nil, or_none]
  rfl

theorem mem_entityIds : eid ∈ (netDelta contentHash theirs merged).map Delta.entityId ↔
      Changed contentHash merged theirs eid := by
  rw [List.mem_map, Changed, isSome_iff_exists]
  constructor
  · rintro ⟨d, hd, rfl⟩
    exact ⟨d, mem_netDelta.mp hd⟩
  · rintro ⟨d, hd⟩
    have heid := entityId_deltaOf hd
    exact ⟨d, mem_netDelta.mpr (heid ▸ hd), heid⟩

theorem mem_changedNodes_iff :
    eid ∈ (diffTree upper contentHash order merged theirs containmentEdgeTypes).changedNodes ↔
      ChangedNode contentHash merged theirs eid := by
  rw [DiffTree.changedNodes, ChangedNode, ← mem_entityIds]
  simp [diffTree, DiffTree.isEdge, DiffTree.payload]

theorem mem_changedRelationships_iff : eid ∈ (diffTree upper contentHash order merged theirs
        containmentEdgeTypes).changedRelationships upper ↔
      ChangedRelationship upper contentHash merged theirs containmentEdgeTypes eid := by
  rw [DiffTree.changedRelationships, ChangedRelationship, ← mem_entityIds]
  simp [diffTree, DiffTree.isEdge, DiffTree.isContainmentEdge, DiffTree.payload]

theorem mem_relevant_iff :
    eid ∈ (diffTree upper contentHash order merged theirs containmentEdgeTypes).relevant ↔
      InTree upper contentHash merged theirs containmentEdgeTypes eid := by
  have hchanged : ∀ z, z ∈ (diffTree upper contentHash order merged theirs
      containmentEdgeTypes).changedNodes ↔ ChangedNode contentHash merged theirs z := fun _ =>
    mem_changedNodes_iff
  have hrelevant : eid ∈ (diffTree upper contentHash order merged theirs
      containmentEdgeTypes).relevant ↔
      ∃ z, ChangedNode contentHash merged theirs z ∧ (eid = z ∨
        eid ∈ ancestors (parentMap upper (containmentEdgeTypes.map upper) merged theirs) z) := by
    simp only [← hchanged]
    rw [diffTree, (order.perm _ _).mem_iff, mem_dedup, mem_append, mem_flatMap]
    constructor
    · rintro (h | ⟨z, hz, h⟩)
      · exact ⟨eid, h, .inl rfl⟩
      · exact ⟨z, hz, .inr h⟩
    · rintro ⟨z, hz, rfl | h⟩
      · exact .inl hz
      · exact .inr ⟨z, hz, h⟩
  have hparent : (parentMap upper (containmentEdgeTypes.map upper) merged theirs).get? =
      containmentParent upper merged theirs containmentEdgeTypes := funext get?_parentMap
  rw [hrelevant]
  constructor
  · rintro ⟨z, hz, rfl | h⟩
    · exact ⟨eid, 0, hz, by omega, rfl⟩
    · obtain ⟨n, -, hle, hn⟩ := mem_ancestors.mp h
      exact ⟨z, n, hz, hle, hparent ▸ hn⟩
  · rintro ⟨z, n, hz, hle, hn⟩
    refine ⟨z, hz, ?_⟩
    cases n with
    | zero => exact .inl (some.inj hn).symm
    | succ n => exact .inr (mem_ancestors.mpr ⟨n + 1, by omega, hle, hparent.symm ▸ hn⟩)

/-- Walks among the nodes of the tree. -/
theorem parent_diffTree :
    (diffTree upper contentHash order merged theirs containmentEdgeTypes).parent =
      ParentTree.restrict (containmentParent upper merged theirs containmentEdgeTypes)
        (· ∈ (diffTree upper contentHash order merged theirs containmentEdgeTypes).relevant) := by
  rw [DiffTree.parent]
  congr 1
  exact funext get?_parentMap

theorem wellBuilt_diffTree :
    (diffTree upper contentHash order merged theirs containmentEdgeTypes).WellBuilt where
  nodup := (order.perm _ _).nodup_iff.mpr (nodup_dedup _)
  deltas := nodup_netDelta _ _
  changed z hz := mem_relevant_iff.mpr ⟨z, 0, mem_changedNodes_iff.mp hz, by omega, rfl⟩
  above x hx := by
    obtain ⟨z, n, hz, hle, hn⟩ := mem_relevant_iff.mp hx
    refine ⟨z, mem_changedNodes_iff.mpr hz, n, ?_⟩
    rw [parent_diffTree]
    refine ParentTree.ancestor_restrict hn fun m hm y hy => decide_eq_true ?_
    exact mem_relevant_iff.mpr ⟨z, m, hz, by omega, hy⟩

/-- A walk among the nodes of the tree ends exactly when the walk leaves the tree. -/
theorem rooted_diffTree_iff {z : EntityId} (hz : ChangedNode contentHash merged theirs z) :
    Rooted (diffTree upper contentHash order merged theirs containmentEdgeTypes).parent z ↔
      ∃ n, ∀ x, ancestor (containmentParent upper merged theirs containmentEdgeTypes) n z =
        some x → ¬ InTree upper contentHash merged theirs containmentEdgeTypes x := by
  have hin : InTree upper contentHash merged theirs containmentEdgeTypes z :=
    ⟨z, 0, hz, by omega, rfl⟩
  rw [parent_diffTree]
  constructor
  · rintro ⟨n, hn⟩
    by_contra hstays
    push Not at hstays
    -- Every step up to `n` stays in the tree, so the walk among its nodes goes on.
    obtain ⟨x, hx, -⟩ := hstays n
    rw [ParentTree.ancestor_restrict hx fun m _ y hy => decide_eq_true ?_] at hn
    · cases hn
    · obtain ⟨w, hw, htree⟩ := hstays m
      obtain rfl : w = y := some.inj (hw.symm.trans hy)
      exact mem_relevant_iff.mpr htree
  · rintro ⟨n, hleaves⟩
    refine ⟨n, ?_⟩
    by_contra hsome
    obtain ⟨x, hx⟩ := ne_none_iff_exists'.mp hsome
    refine hleaves x (ParentTree.ancestor_of_restrict hx) ?_
    cases n with
    | zero => exact some.inj hx ▸ hin
    | succ n =>
      obtain ⟨y, -, hy⟩ := bind_eq_some_iff.mp (ParentTree.ancestor_succ n z ▸ hx)
      exact mem_relevant_iff.mp (of_decide_eq_true (ParentTree.restrict_eq_some_iff.mp hy).2.2)

theorem isForest_iff (order : SetOrder) :
    (diffTree upper contentHash order merged theirs containmentEdgeTypes).IsForest upper ↔
      Forested upper contentHash merged theirs containmentEdgeTypes := by
  constructor
  · rintro ⟨hrooted, hedges⟩
    refine ⟨fun z hz => (rooted_diffTree_iff hz).mp (hrooted z (mem_changedNodes_iff.mpr hz)),
      fun e he => ?_⟩
    rw [← mem_relevant_iff]
    exact hedges e (mem_changedRelationships_iff.mpr he)
  · rintro ⟨hleaves, hedges⟩
    refine ⟨fun z hz => ?_, fun e he => ?_⟩
    · have hnode := mem_changedNodes_iff.mp hz
      exact (rooted_diffTree_iff hnode).mpr (hleaves z hnode)
    · rw [mem_relevant_iff]
      exact hedges e (mem_changedRelationships_iff.mp he)

/-- The review tree shows every change once exactly when no changed node's
containers run in a circle and no changed relationship is a container. -/
theorem showsEveryChangeOnce_iff (upper lower : String → String)
    (contentHash : Option Payload → η) (order : SetOrder) (merged theirs : State)
    (containmentEdgeTypes : List String) :
    ShowsEveryChangeOnce upper lower contentHash order merged theirs containmentEdgeTypes ↔
      Forested upper contentHash merged theirs containmentEdgeTypes := by
  have hchanges : ∀ eid, eid ∈ (diffTree upper contentHash order merged theirs
      containmentEdgeTypes).changes upper ↔ ChangedNode contentHash merged theirs eid ∨
        ChangedRelationship upper contentHash merged theirs containmentEdgeTypes eid := by
    intro eid
    rw [DiffTree.mem_changes, mem_changedNodes_iff, mem_changedRelationships_iff]
  have hcard : Set.ncard {eid | ChangedNode contentHash merged theirs eid ∨
      ChangedRelationship upper contentHash merged theirs containmentEdgeTypes eid} =
      ((diffTree upper contentHash order merged theirs containmentEdgeTypes).changes
        upper).card := by
    rw [← Set.ncard_coe_finset]
    congr 1
    ext eid
    exact (hchanges eid).symm
  rw [← isForest_iff order, ← DiffTree.shownOnce_iff_isForest lower wellBuilt_diffTree,
    ShowsEveryChangeOnce, hcard]
  simp only [DiffTree.ShownOnce, hchanges]
  rfl

end

def namedNode (name : String) : Payload :=
  [("entityType", .str "domain"), ("displayName", .str name)]

def containsEdge (parent child : EntityId) : Payload :=
  [("sourceEntityId", .str parent), ("targetEntityId", .str child), ("edgeType", .str "CONTAINS")]

def beforeInversion : State :=
  [("A", some (namedNode "a")), ("B", some (namedNode "b")), ("e1", some (containsEdge "A" "B"))]

/-- `B` contains `A`, which has a new name. -/
def afterInversion : State :=
  [("A", some (namedNode "a2")), ("B", some (namedNode "b")), ("e1", none),
    ("e2", some (containsEdge "B" "A"))]

/-- A renamed container moved below its own child is in no row of the tree. -/
theorem showsEveryChangeOnce_inversion :
    ¬ ShowsEveryChangeOnce id id id insertionOrder afterInversion beforeInversion ["CONTAINS"] := by
  rintro ⟨index, hindex, honce, -⟩
  have htop : (buildDiffHierarchy id id id insertionOrder afterInversion beforeInversion
      ["CONTAINS"]).map DiffIndex.top = some [] := by decide +kernel
  have hchanged : ChangedNode id afterInversion beforeInversion "A" := by
    constructor
    · unfold Changed
      decide +kernel
    · decide +kernel
  obtain ⟨i, -, -⟩ := honce "A" (.inl hchanged)
  rw [hindex, map_some, some.injEq] at htop
  have hlen : index.top.length = 0 := length_eq_zero_iff.mpr htop
  have hlt := i.2
  omega

end DataViz.Versioning
