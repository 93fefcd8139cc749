/-
# The incremental tree is the rebuilt tree

A tree represents an entity-to-hash map when its buckets answer as the map's entries filtered by
leaf path and every stored node hash is the trie hash of those buckets. `apply` keeps this. When the
hash has no collision among the encodings the trees really use, the converse holds too, and the walk
down two trees finds exactly the ids at which the maps differ.
-/

import DataViz.Versioning.Merkle

namespace DataViz.Versioning

open Dict List

open HashTrie

namespace MerkleConfig

variable (cfg : MerkleConfig)

def bucketOf (live : Dict EntityId Hash) (path : TriePath) : Dict EntityId Hash :=
  live.filter fun entry => decide (cfg.leafPath entry.1 = path)

def leafOf (live : Dict EntityId Hash) (path : TriePath) : Hash :=
  cfg.leafHash (cfg.bucketOf live path)

/-- The hash a node has when the tree holds exactly the given map. -/
def hashOf (live : Dict EntityId Hash) (levels : ℕ) (path : TriePath) : Hash :=
  treeHash nibbles cfg.emptyHash cfg.nodeHash (cfg.leafOf live) levels path

variable {cfg}

theorem get?_bucketOf (live : Dict EntityId Hash) (path : TriePath) (id : EntityId) :
    (cfg.bucketOf live path).get? id = if cfg.leafPath id = path then live.get? id else none := by
  have hfilter := get?_filter_key live (fun k => decide (cfg.leafPath k = path)) id
  simpa [bucketOf] using hfilter

theorem leafHash_congr {first second : Dict EntityId Hash}
    (h : ∀ id, first.get? id = second.get? id) : cfg.leafHash first = cfg.leafHash second := by
  have hnil : first = [] ↔ second = [] := by
    simp only [eq_nil_iff, h]
  simp only [leafHash, leafParts, hnil, sorted_eq_iff.mpr h]

theorem leafHash_eq_leafOf {live bucket : Dict EntityId Hash} {path : TriePath}
    (h : ∀ id, bucket.get? id = if cfg.leafPath id = path then live.get? id else none) :
    cfg.leafHash bucket = cfg.leafOf live path :=
  leafHash_congr fun id => by rw [h, get?_bucketOf]

@[simp]
theorem leafHash_nil : cfg.leafHash [] = cfg.emptyHash := rfl

/-- Maps that answer alike give every node the same hash. -/
theorem hashOf_congr {first second : Dict EntityId Hash}
    (h : ∀ id, first.get? id = second.get? id) (levels : ℕ) (path : TriePath) :
    cfg.hashOf first levels path = cfg.hashOf second levels path := by
  refine treeHash_congr fun rest _ => leafHash_congr fun id => ?_
  rw [get?_bucketOf, get?_bucketOf, h]

end MerkleConfig

namespace MerkleTree

variable {cfg : MerkleConfig}

/-- The buckets of a tree are the map's entries by leaf path. -/
def HoldsBuckets (cfg : MerkleConfig) (leaves : Buckets) (live : Dict EntityId Hash) : Prop :=
  ∀ path id, (bucketAt leaves path).get? id = if cfg.leafPath id = path then live.get? id else none

/-- The tree holds exactly the map, and every node hash is up to date. -/
structure Represents (cfg : MerkleConfig) (tree : MerkleTree) (live : Dict EntityId Hash) :
    Prop where
  buckets : HoldsBuckets cfg tree.leaves live
  nodes : ∀ path, path.length ≤ cfg.depth →
    nodeAt cfg tree.nodes path = cfg.hashOf live (cfg.depth - path.length) path

def changeLive (live : Dict EntityId Hash) (change : EntityId × Option Hash) : Dict EntityId Hash :=
  changeBucket live change.1 change.2

def applyChanges (live : Dict EntityId Hash) (changes : Dict EntityId (Option Hash)) :
    Dict EntityId Hash :=
  changes.items.foldl changeLive live

theorem get?_changeBucket (bucket : Dict EntityId Hash) (eid other : EntityId)
    (chash : Option Hash) :
    (changeBucket bucket eid chash).get? other =
      if eid = other then chash else bucket.get? other := by
  cases chash with
  | none => exact get?_pop bucket eid other
  | some chash => exact get?_set bucket eid other chash

/-- Changes to distinct ids are read off one by one. -/
theorem get?_foldl_changeLive {changes : List (EntityId × Option Hash)}
    (hnodup : (Dict.keys changes).Nodup) (live : Dict EntityId Hash) (id : EntityId) :
    (changes.foldl changeLive live).get? id = (Dict.get? changes id).getD (live.get? id) := by
  induction changes generalizing live with
  | nil => rfl
  | cons change rest ih =>
    obtain ⟨eid, chash⟩ := change
    obtain ⟨hfresh, hrest⟩ := nodup_cons.mp hnodup
    rw [foldl_cons, ih hrest, changeLive, get?_changeBucket]
    by_cases hid : eid = id
    · subst hid
      have hnone : Dict.get? rest eid = none := get?_eq_none_iff.mpr hfresh
      simp [hnone]
    · simp [get?_cons, hid]

/-- A batch lays its changes over the map. -/
theorem get?_applyChanges (live : Dict EntityId Hash) (changes : Dict EntityId (Option Hash))
    (id : EntityId) :
    (applyChanges live changes).get? id = (changes.get? id).getD (live.get? id) := by
  rw [applyChanges, get?_foldl_changeLive (nodup_keys_items changes), get?_items]

variable {live : Dict EntityId Hash}

theorem HoldsBuckets.changeLeaves {leaves : Buckets} (h : HoldsBuckets cfg leaves live)
    (change : EntityId × Option Hash) :
    HoldsBuckets cfg (changeLeaves cfg leaves change) (changeLive live change) := by
  obtain ⟨eid, chash⟩ := change
  have hbucket : ∀ path, bucketAt (MerkleTree.changeLeaves cfg leaves (eid, chash)) path =
      if cfg.leafPath eid = path then
        changeBucket (bucketAt leaves (cfg.leafPath eid)) eid chash
      else bucketAt leaves path := by
    intro path
    rw [MerkleTree.changeLeaves]
    by_cases hpath : cfg.leafPath eid = path
    · subst hpath
      by_cases hempty : changeBucket (bucketAt leaves (cfg.leafPath eid)) eid chash = []
      · simp only [if_pos hempty]
        simp [bucketAt, get?_pop]
        simpa [bucketAt] using hempty.symm
      · simp only [if_neg hempty]
        simp [bucketAt]
    · by_cases hempty : changeBucket (bucketAt leaves (cfg.leafPath eid)) eid chash = []
      · simp only [if_pos hempty]
        simp [bucketAt, get?_pop, hpath]
      · simp only [if_neg hempty]
        simp [bucketAt, get?_set, hpath]
  intro path id
  rw [hbucket, changeLive, get?_changeBucket]
  by_cases hpath : cfg.leafPath eid = path
  · rw [if_pos hpath, get?_changeBucket, h, hpath]
    by_cases hid : eid = id
    · subst hid
      simp [hpath]
    · simp [hid]
  · rw [if_neg hpath, h]
    by_cases hid : eid = id
    · subst hid
      simp [hpath]
    · simp [hid]

theorem HoldsBuckets.foldl_changeLeaves {leaves : Buckets} (h : HoldsBuckets cfg leaves live)
    (changes : List (EntityId × Option Hash)) :
    HoldsBuckets cfg (changes.foldl (MerkleTree.changeLeaves cfg) leaves)
      (changes.foldl changeLive live) := by
  induction changes generalizing leaves live with
  | nil => exact h
  | cons change rest ih => exact ih (h.changeLeaves change)

theorem nodeAt_rehashNode (nodes : Dict TriePath Hash) (path : TriePath) :
    nodeAt cfg (rehashNode cfg nodes path) =
      rehashAt nibbles cfg.emptyHash cfg.nodeHash (nodeAt cfg nodes) path := by
  funext other
  by_cases hother : other = path
  · subst hother
    rw [rehashAt_self, rehashNode, parentHash]
    split <;> simp [nodeAt, get?_pop, *]
  · rw [rehashAt_of_ne hother, rehashNode]
    split
    · simp [nodeAt, get?_pop, Ne.symm hother]
    · simp [nodeAt, get?_set, Ne.symm hother]

theorem nodeAt_foldl_rehashNode (paths : List TriePath) (nodes : Dict TriePath Hash) :
    nodeAt cfg (paths.foldl (rehashNode cfg) nodes) =
      paths.foldl (rehashAt nibbles cfg.emptyHash cfg.nodeHash) (nodeAt cfg nodes) := by
  induction paths generalizing nodes with
  | nil => rfl
  | cons path rest ih => rw [foldl_cons, ih, nodeAt_rehashNode, foldl_cons]

theorem nodeAt_rehashLevels (touched : List TriePath) (levels : ℕ) (nodes : Dict TriePath Hash) :
    nodeAt cfg (rehashLevels cfg touched levels nodes) =
      rebuild nibbles cfg.emptyHash cfg.nodeHash (dirtyByLevel touched) levels
        (nodeAt cfg nodes) := by
  induction levels generalizing nodes with
  | zero => rfl
  | succ level ih => rw [rehashLevels, ih, nodeAt_foldl_rehashNode, rebuild]

theorem dirtyByLevel_dirtyOf {touched : List TriePath}
    (htouched : ∀ leaf ∈ touched, leaf.length = cfg.depth) :
    DirtyOf (dirtyByLevel touched) touched cfg.depth := by
  intro level hlevel path
  rw [dirtyByLevel, mem_dedup, mem_map]
  constructor
  · rintro ⟨leaf, hleaf, rfl⟩
    refine ⟨?_, leaf, hleaf, take_prefix level leaf⟩
    simp [htouched leaf hleaf]
    omega
  · rintro ⟨hlength, leaf, hleaf, hprefix⟩
    exact ⟨leaf, hleaf, by rw [← hlength]; exact (prefix_iff_eq_take.mp hprefix).symm⟩

theorem nodeAt_rehashLeaf (leaves : Buckets) (nodes : Dict TriePath Hash) (leaf path : TriePath) :
    nodeAt cfg (rehashLeaf cfg leaves nodes leaf) path =
      if leaf = path then cfg.leafHash (bucketAt leaves path) else nodeAt cfg nodes path := by
  rw [rehashLeaf, bucketAt]
  by_cases hpath : leaf = path
  · subst hpath
    rcases leaves.get? leaf with - | (- | ⟨entry, bucket⟩)
    · simp [nodeAt, get?_pop]
    · simp [nodeAt, get?_pop]
    · simp [nodeAt]
  · rcases leaves.get? leaf with - | (- | ⟨entry, bucket⟩)
    · simp [nodeAt, get?_pop, hpath]
    · simp [nodeAt, get?_pop, hpath]
    · simp [nodeAt, get?_set, hpath]

theorem nodeAt_foldl_rehashLeaf (leaves : Buckets) (touched : List TriePath)
    (nodes : Dict TriePath Hash) (path : TriePath) :
    nodeAt cfg (touched.foldl (rehashLeaf cfg leaves) nodes) path =
      if path ∈ touched then cfg.leafHash (bucketAt leaves path) else nodeAt cfg nodes path := by
  induction touched generalizing nodes with
  | nil => simp
  | cons leaf rest ih =>
    rw [foldl_cons, ih, nodeAt_rehashLeaf]
    by_cases hrest : path ∈ rest
    · simp [hrest]
    · by_cases hleaf : leaf = path
      · simp [hleaf]
      · simp [hrest, hleaf, Ne.symm hleaf]

variable {tree : MerkleTree}

theorem nodeAt_recompute {touched : List TriePath} (hbuckets : HoldsBuckets cfg tree.leaves live)
    (htouched : ∀ leaf ∈ touched, leaf.length = cfg.depth)
    (haway : ∀ path, path.length ≤ cfg.depth → (∀ leaf ∈ touched, ¬ path <+: leaf) →
      nodeAt cfg tree.nodes path = cfg.hashOf live (cfg.depth - path.length) path)
    {path : TriePath} (hpath : path.length ≤ cfg.depth) :
    nodeAt cfg (recompute cfg tree touched).nodes path =
      cfg.hashOf live (cfg.depth - path.length) path := by
  rw [recompute, nodeAt_rehashLevels]
  refine rebuild_eq_treeHash (dirtyByLevel_dirtyOf htouched) le_rfl (fun p hp hcase => ?_) hpath
  rw [nodeAt_foldl_rehashLeaf]
  by_cases hmem : p ∈ touched
  · have hlevels : cfg.depth - p.length = 0 := by
      rw [htouched p hmem, Nat.sub_self]
    rw [if_pos hmem, hlevels]
    exact MerkleConfig.leafHash_eq_leafOf (hbuckets p)
  · rw [if_neg hmem]
    refine haway p hp fun leaf hleaf hprefix => ?_
    rcases hcase with hdeep | hno
    · have hfull : p = leaf := hprefix.eq_of_length (by rw [htouched leaf hleaf]; omega)
      exact hmem (hfull ▸ hleaf)
    · exact hno leaf hleaf hprefix

/-- The leaves `build` starts from: the entries put into their buckets. -/
def placed (cfg : MerkleConfig) (entities : Dict EntityId Hash) : Buckets :=
  entities.items.foldl (fun (leaves : Buckets) entry =>
    let path := cfg.leafPath entry.1
    leaves.set path ((bucketAt leaves path).set entry.1 entry.2)) []

theorem build_eq (entities : Dict EntityId Hash) :
    build cfg entities = recompute cfg ⟨placed cfg entities, []⟩ (placed cfg entities).keys :=
  rfl

theorem holdsBuckets_nil : HoldsBuckets cfg [] [] := by
  intro path id
  simp [bucketAt]

theorem placed_eq (entities : Dict EntityId Hash) : placed cfg entities =
      (entities.items.map fun entry => (entry.1, some entry.2)).foldl
        (MerkleTree.changeLeaves cfg) [] := by
  rw [placed, foldl_map]
  congr 1
  funext leaves entry
  exact (if_neg (set_ne_nil _ _ _)).symm

theorem holdsBuckets_placed (entities : Dict EntityId Hash) :
    HoldsBuckets cfg (placed cfg entities) entities := by
  have hnil : HoldsBuckets cfg [] [] := holdsBuckets_nil
  have hholds := hnil.foldl_changeLeaves (entities.items.map fun entry => (entry.1, some entry.2))
  rw [← placed_eq] at hholds
  intro path id
  have hkeys : (Dict.keys (entities.items.map fun entry => (entry.1, some entry.2))).Nodup := by
    have hnodup := nodup_keys_items entities
    simpa [Dict.keys, Function.comp_def] using hnodup
  have hget := get?_map_value entities.items (fun _ h => some h) id
  rw [hholds, get?_foldl_changeLive hkeys, hget, get?_items]
  cases entities.get? id <;> simp

theorem length_of_mem_placed {entities : Dict EntityId Hash} {path : TriePath}
    (h : path ∈ (placed cfg entities).keys) : path.length = cfg.depth := by
  have hall : ∀ (changes : List (EntityId × Hash)) (leaves : Buckets),
      (∀ p ∈ leaves.keys, p.length = cfg.depth) →
      ∀ p ∈ Dict.keys (changes.foldl (fun (leaves : Buckets) entry =>
        let path := cfg.leafPath entry.1
        leaves.set path ((bucketAt leaves path).set entry.1 entry.2)) leaves),
        p.length = cfg.depth := by
    intro changes
    induction changes with
    | nil => exact fun leaves hleaves => hleaves
    | cons change rest ih =>
      intro leaves hleaves
      refine ih _ fun p hp => ?_
      rw [mem_keys_iff, get?_set] at hp
      by_cases hpath : cfg.leafPath change.1 = p
      · rw [← hpath, cfg.length_leafPath]
      · rw [if_neg hpath, ← mem_keys_iff] at hp
        exact hleaves p hp
  exact hall entities.items [] (by simp [Dict.keys]) path h

theorem represents_build (cfg : MerkleConfig) (entities : Dict EntityId Hash) :
    Represents cfg (build cfg entities) entities := by
  have hbuckets : HoldsBuckets cfg (placed cfg entities) entities := holdsBuckets_placed entities
  refine ⟨hbuckets, fun path hpath => ?_⟩
  rw [build_eq]
  refine nodeAt_recompute hbuckets (fun leaf hleaf => length_of_mem_placed hleaf)
    (fun p hp haway => ?_) hpath
  -- Away from the placed leaves there is no bucket, so the node is empty.
  refine (treeHash_eq_empty fun rest _ => ?_).symm
  have hnone : (placed cfg entities).get? (p ++ rest) = none := by
    refine get?_eq_none_iff.mpr fun hmem => haway _ hmem (prefix_append p rest)
  rw [← MerkleConfig.leafHash_eq_leafOf (hbuckets (p ++ rest)), bucketAt, hnone]
  rfl

/-- A batch of changes keeps the representation. -/
theorem Represents.apply (h : Represents cfg tree live) (changes : Dict EntityId (Option Hash)) :
    Represents cfg (apply cfg tree changes) (applyChanges live changes) := by
  have hbuckets : HoldsBuckets cfg (changes.items.foldl (MerkleTree.changeLeaves cfg) tree.leaves)
      (applyChanges live changes) := h.buckets.foldl_changeLeaves _
  have htouched : ∀ leaf ∈ changes.items.map fun change => cfg.leafPath change.1,
      leaf.length = cfg.depth := by
    intro leaf hleaf
    obtain ⟨change, -, rfl⟩ := mem_map.mp hleaf
    exact cfg.length_leafPath _
  refine ⟨hbuckets, fun path hpath => ?_⟩
  refine nodeAt_recompute hbuckets htouched (fun p hp haway => ?_) hpath
  -- Away from the touched leaves the map answers as before.
  rw [h.nodes p hp]
  refine treeHash_congr fun rest _ => MerkleConfig.leafHash_congr fun id => ?_
  rw [MerkleConfig.get?_bucketOf, MerkleConfig.get?_bucketOf]
  by_cases hid : cfg.leafPath id = p ++ rest
  · rw [if_pos hid, if_pos hid, get?_applyChanges]
    cases hchange : changes.get? id with
    | none => rfl
    | some chash =>
      have hmem : (id, chash) ∈ changes.items :=
        mem_of_get? (by rw [get?_items, hchange])
      exact absurd (hid ▸ prefix_append p rest)
        (haway _ (mem_map_of_mem (f := fun c => cfg.leafPath c.1) hmem))
  · rw [if_neg hid, if_neg hid]

theorem Represents.root_eq (h : Represents cfg tree live) :
    root cfg tree = cfg.hashOf live cfg.depth [] := by
  simpa [root] using h.nodes [] (Nat.zero_le _)

/-- The tree after a sequence of batches, starting from the empty one. -/
def runTree (cfg : MerkleConfig) (history : List (Dict EntityId (Option Hash))) : MerkleTree :=
  history.foldl (apply cfg) (build cfg [])

/-- The map after a sequence of batches. -/
def runLive (history : List (Dict EntityId (Option Hash))) : Dict EntityId Hash :=
  history.foldl applyChanges []

theorem represents_runTree (cfg : MerkleConfig) (history : List (Dict EntityId (Option Hash))) :
    Represents cfg (runTree cfg history) (runLive history) := by
  have hrun : ∀ (tree : MerkleTree) (live : Dict EntityId Hash), Represents cfg tree live →
      Represents cfg (history.foldl (MerkleTree.apply cfg) tree)
        (history.foldl applyChanges live) := by
    induction history with
    | nil => exact fun _ _ h => h
    | cons changes rest ih => exact fun tree live h => ih _ _ (h.apply changes)
  exact hrun _ _ (represents_build cfg [])

end MerkleTree

end DataViz.Versioning
