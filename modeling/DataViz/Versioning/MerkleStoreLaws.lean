/-
# The store refines the tree

For each branch the store keeps two facts about every sequence number: the hash it returns for a
path is the trie hash of the map then live, and the bucket it returns for a leaf path is that map's
bucket. A commit writes only rows of its own sequence number, so earlier reads stand; for later
reads a path either has a new row, or kept its hash, or lies above no touched leaf.
-/

import DataViz.Versioning.MerkleDiff
import DataViz.Versioning.MerkleStore

namespace DataViz.Versioning

open List Option Dict

open HashTrie
open MerkleTree (bucketAt changeBucket changeLive applyChanges runLive diffBuckets sampleConfig)

variable {path : TriePath} {graphId branchId : String}
  {history : List (Dict EntityId (Option Hash))} {table : List MerkleNodeRow}

/-! ## Path texts -/

theorem hexDigit_ne_slash (n : Nibble) : hexDigit n ≠ '/' := by
  revert n
  decide

theorem parseHex_hexDigit (n : Nibble) : parseHex [hexDigit n] = some n := by
  revert n
  decide

theorem mapM_parseHex (path : TriePath) :
    (path.map fun n => [hexDigit n]).mapM parseHex = some path := by
  induction path with
  | nil => rfl
  | cons n rest ih => simp [mapM_cons, parseHex_hexDigit, ih]

/-- Path texts read back. -/
theorem parsePath_pathStr (path : TriePath) : parsePath (pathStr path) = some path := by
  cases path with
  | nil => rfl
  | cons n rest =>
    have hnonempty : pathStr (n :: rest) ≠ "" := by
      intro h
      have hlist := congrArg String.toList h
      cases rest <;> simp [pathStr, intercalate] at hlist
    have hsplit : (pathStr (n :: rest)).toList.splitOn '/' =
        (n :: rest).map fun n => [hexDigit n] := by
      rw [pathStr, String.toList_ofList]
      refine splitOn_intercalate '/' (fun l hl => ?_) (by simp)
      obtain ⟨d, -, rfl⟩ := mem_map.mp hl
      simpa using (hexDigit_ne_slash d).symm
    rw [parsePath, if_neg hnonempty, hsplit, mapM_parseHex]

theorem pathStr_injective : Function.Injective pathStr := by
  intro first second h
  have hparse := congrArg parsePath h
  rw [parsePath_pathStr, parsePath_pathStr] at hparse
  exact some.inj hparse

/-! ## The newest row -/

theorem newest_eq_none_iff {rows : List MerkleNodeRow} : newest rows = none ↔ rows = [] := by
  cases rows with
  | nil => simp [newest]
  | cons row rest =>
    rw [newest]
    cases newest rest with
    | none => simp
    | some best => simp only [reduceCtorEq, iff_false]; split <;> simp

variable {row : MerkleNodeRow}

theorem mem_of_newest {rows : List MerkleNodeRow} (h : newest rows = some row) : row ∈ rows := by
  induction rows generalizing row with
  | nil => simp [newest] at h
  | cons head rest ih =>
    rw [newest] at h
    cases hrest : newest rest with
    | none =>
      rw [hrest] at h
      obtain rfl : head = row := by simpa using h
      simp
    | some best =>
      rw [hrest] at h
      dsimp only at h
      split at h
      · obtain rfl : head = row := by simpa using h
        simp
      · obtain rfl : best = row := by simpa using h
        exact mem_cons_of_mem _ (ih hrest)

/-- Later rows hide earlier ones. -/
theorem newest_append {table rows : List MerkleNodeRow}
    (h : ∀ row ∈ rows, ∀ old ∈ table, old.commitSeq < row.commitSeq) :
    newest (table ++ rows) = (newest rows).or (newest table) := by
  induction table with
  | nil => simp [newest]
  | cons old rest ih =>
    have hrest := ih fun row hrow o ho => h row hrow o (by simp [ho])
    rw [cons_append, newest, hrest]
    cases hrows : newest rows with
    | none => simp [newest]
    | some row =>
      have hlt := h row (mem_of_newest hrows) old (by simp)
      simp [Nat.not_le.mpr hlt]

/-! ## Reading one path -/

def rowAt (table : List MerkleNodeRow) (graphId branchId : String) (path : TriePath) (seq : ℕ) :
    Option MerkleNodeRow :=
  if seq < 1 then none else newest (rowsAsOf table graphId branchId (pathStr path) seq)

/-- The bucket a leaf path reads as of a sequence number. -/
def bucketAsOf (table : List MerkleNodeRow) (graphId branchId : String) (path : TriePath)
    (seq : ℕ) : Dict EntityId Hash :=
  ((rowAt table graphId branchId path seq).bind MerkleNodeRow.bucket).getD []

def hashAsOf (cfg : MerkleConfig) (table : List MerkleNodeRow) (graphId branchId : String)
    (path : TriePath) (seq : ℕ) : Hash :=
  ((rowAt table graphId branchId path seq).map MerkleNodeRow.hash).getD cfg.emptyHash

theorem mem_rowsAsOf {table : List MerkleNodeRow} {graphId branchId path : String} {seq : ℕ} :
    row ∈ rowsAsOf table graphId branchId path seq ↔
      row ∈ table ∧ row.graphId = graphId ∧ row.branchId = branchId ∧ row.path = path ∧
        row.commitSeq ≤ seq := by
  simp [rowsAsOf]

theorem path_of_newest {table : List MerkleNodeRow} {graphId branchId path : String} {seq : ℕ}
    (h : newest (rowsAsOf table graphId branchId path seq) = some row) : row.path = path :=
  (mem_rowsAsOf.mp (mem_of_newest h)).2.2.2.1

theorem asOfEntry_pathStr (table : List MerkleNodeRow) (graphId branchId : String) (seq : ℕ)
    (withBucket : Bool) (path : TriePath) :
    asOfEntry table graphId branchId seq withBucket (pathStr path) =
      (newest (rowsAsOf table graphId branchId (pathStr path) seq)).map fun row =>
        (path, ⟨row.hash, if withBucket then row.bucket else none⟩) := by
  rw [asOfEntry]
  cases hrow : newest (rowsAsOf table graphId branchId (pathStr path) seq) with
  | none => rfl
  | some row => simp [path_of_newest hrow, parsePath_pathStr]

theorem get?_asOfMany (table : List MerkleNodeRow) (graphId branchId : String)
    (paths : List TriePath) (seq : ℕ) (withBucket : Bool) (path : TriePath) :
    (asOfMany table graphId branchId paths seq withBucket).get? path = if path ∈ paths then
        (rowAt table graphId branchId path seq).map fun row =>
          ⟨row.hash, if withBucket then row.bucket else none⟩
      else none := by
  rw [asOfMany, rowAt]
  by_cases hseq : seq < 1
  · simp [hseq]
  · rw [if_neg hseq, if_neg hseq]
    have hmem : path ∈ paths ↔ pathStr path ∈ (paths.map pathStr).dedup := by
      rw [mem_dedup, List.mem_map]
      exact ⟨fun h => ⟨path, h, rfl⟩, fun ⟨p, hp, heq⟩ => pathStr_injective heq ▸ hp⟩
    have htexts : ∀ text ∈ (paths.map pathStr).dedup, ∃ p, text = pathStr p := by
      intro text htext
      obtain ⟨p, -, rfl⟩ := mem_map.mp (mem_dedup.mp htext)
      exact ⟨p, rfl⟩
    simp only [hmem]
    generalize (paths.map pathStr).dedup = texts at htexts
    induction texts with
    | nil => simp
    | cons text rest ih =>
      obtain ⟨p, rfl⟩ := htexts text (by simp)
      have ih := ih fun t ht => htexts t (by simp [ht])
      have hentry := asOfEntry_pathStr table graphId branchId seq withBucket p
      by_cases heq : p = path
      · subst heq
        cases hrow : newest (rowsAsOf table graphId branchId (pathStr p) seq) with
        | none =>
          rw [hrow] at hentry
          rw [filterMap_cons_none hentry, ih]
          simp [hrow]
        | some row =>
          rw [hrow] at hentry
          rw [filterMap_cons_some hentry]
          simp
      · have hne : ¬ pathStr path = pathStr p := fun h => heq (pathStr_injective h).symm
        have htail : Dict.get? (filterMap (asOfEntry table graphId branchId seq withBucket)
            (pathStr p :: rest)) path =
            Dict.get? (filterMap (asOfEntry table graphId branchId seq withBucket) rest)
              path := by
          cases hrow : newest (rowsAsOf table graphId branchId (pathStr p) seq) with
          | none =>
            rw [hrow] at hentry
            rw [filterMap_cons_none hentry]
          | some row =>
            rw [hrow] at hentry
            rw [filterMap_cons_some hentry, get?_cons_ne heq]
        rw [htail, ih]
        simp [hne]

namespace MerkleStore

variable {cfg : MerkleConfig}

/-! ## What a commit touches -/

def ChangesOf (cfg : MerkleConfig) (leaves : Dict TriePath (Dict EntityId (Option Hash)))
    (changes : Dict EntityId (Option Hash)) : Prop :=
  leaves.keys.Nodup ∧
  (∀ path id, ((leaves.get? path).getD []).get? id =
    if cfg.leafPath id = path then changes.get? id else none) ∧
  ∀ path ∈ leaves.keys, path.length = cfg.depth

theorem changesOf_byLeaf (cfg : MerkleConfig) (changes : Dict EntityId (Option Hash)) :
    ChangesOf cfg (byLeaf cfg changes) changes := by
  have hfold : ∀ (rest : List (EntityId × Option Hash))
      (leaves : Dict TriePath (Dict EntityId (Option Hash))) (done : Dict EntityId (Option Hash)),
      (Dict.keys rest).Nodup → ChangesOf cfg leaves done →
      (∀ id ∈ Dict.keys rest, done.get? id = none) →
      ∃ all : Dict EntityId (Option Hash), ChangesOf cfg (rest.foldl (fun byLeaf change =>
          let path := cfg.leafPath change.1
          byLeaf.set path (((byLeaf.get? path).getD []).set change.1 change.2)) leaves) all ∧
        ∀ id, all.get? id = (Dict.get? rest id).or (done.get? id) := by
    intro rest
    induction rest with
    | nil => exact fun leaves done _ hleaves _ => ⟨done, hleaves, fun id => rfl⟩
    | cons change rest ih =>
      obtain ⟨eid, chash⟩ := change
      intro leaves done hnodup hleaves hfresh
      obtain ⟨heid, hrest⟩ := nodup_cons.mp hnodup
      obtain ⟨hkeys, hget, hlengths⟩ := hleaves
      have hstep : ChangesOf cfg (leaves.set (cfg.leafPath eid)
          (((leaves.get? (cfg.leafPath eid)).getD []).set eid chash)) (done.set eid chash) := by
        refine ⟨nodup_keys_set hkeys _ _, fun path id => ?_, fun path hpath => ?_⟩
        · rw [get?_set, get?_set]
          by_cases hpath : cfg.leafPath eid = path
          · rw [if_pos hpath, getD_some, get?_set, hpath, hget]
            by_cases hid : eid = id
            · subst hid
              simp [hpath]
            · simp [hid]
          · rw [if_neg hpath, hget]
            by_cases hid : eid = id
            · subst hid
              simp [hpath]
            · simp [hid]
        · rw [mem_keys_iff, get?_set] at hpath
          by_cases heq : cfg.leafPath eid = path
          · rw [← heq, cfg.length_leafPath]
          · rw [if_neg heq, ← mem_keys_iff] at hpath
            exact hlengths path hpath
      obtain ⟨all, hall, hlookup⟩ := ih _ _ hrest hstep (by
        intro id hid
        rw [get?_set_ne (by rintro rfl; exact heid hid)]
        exact hfresh id (mem_cons_of_mem _ hid))
      refine ⟨all, hall, fun id => ?_⟩
      rw [hlookup, get?_set, get?_cons]
      by_cases hid : eid = id
      · subst hid
        have hnone : Dict.get? rest eid = none := get?_eq_none_iff.mpr heid
        simp [hnone]
      · simp [hid]
  have hempty : ChangesOf cfg [] [] :=
    ⟨nodup_nil, fun path id => by simp, fun path hpath => by simp [Dict.keys] at hpath⟩
  obtain ⟨all, ⟨hkeys, hget, hlengths⟩, hall⟩ := hfold changes.items [] []
    (nodup_keys_items changes) hempty fun id _ => rfl
  refine ⟨hkeys, fun path id => ?_, hlengths⟩
  have hid : all.get? id = changes.get? id := by
    rw [hall, get?_items, get?_nil, or_none]
  rw [byLeaf, hget, hid]

theorem leafPath_mem_byLeaf {changes : Dict EntityId (Option Hash)} {id : EntityId}
    (h : changes.get? id ≠ none) : cfg.leafPath id ∈ (byLeaf cfg changes).keys := by
  have hget := (changesOf_byLeaf cfg changes).2.1 (cfg.leafPath id) id
  rw [if_pos rfl] at hget
  rw [mem_keys_iff]
  cases hleaf : (byLeaf cfg changes).get? (cfg.leafPath id) with
  | none =>
    rw [hleaf] at hget
    exact absurd hget.symm h
  | some bucket => rfl

theorem mem_dirtyInternal {leaves : List TriePath} (hlengths : ∀ leaf ∈ leaves,
    leaf.length = cfg.depth) :
    path ∈ dirtyInternal cfg leaves ↔ path.length < cfg.depth ∧ ∃ leaf ∈ leaves, path <+: leaf := by
  simp only [dirtyInternal, mem_dedup, mem_flatMap, List.mem_map, mem_range]
  constructor
  · rintro ⟨leaf, hleaf, level, hlevel, rfl⟩
    refine ⟨?_, leaf, hleaf, take_prefix level leaf⟩
    simp [hlengths leaf hleaf, hlevel]
  · rintro ⟨hlength, leaf, hleaf, hprefix⟩
    exact ⟨leaf, hleaf, path.length, hlength, (prefix_iff_eq_take.mp hprefix).symm⟩

theorem dirtyInternal_dirtyOf {leaves : List TriePath}
    (hlengths : ∀ leaf ∈ leaves, leaf.length = cfg.depth) :
    DirtyOf (fun level => (dirtyInternal cfg leaves).filter fun p => p.length = level) leaves
      cfg.depth := by
  intro level hlevel path
  simp only [mem_filter, mem_dirtyInternal hlengths, decide_eq_true_eq]
  constructor
  · rintro ⟨⟨-, hleaf⟩, hlength⟩
    exact ⟨hlength, hleaf⟩
  · rintro ⟨hlength, hleaf⟩
    exact ⟨⟨hlength ▸ hlevel, hleaf⟩, hlength⟩

/-! ## The new hashes -/

/-- The hash a path would read after the rows so far: the new one, else the
stored one. -/
def tableDuring (stored : TriePath → Hash) (newHash : Dict TriePath Hash) (path : TriePath) :
    Hash :=
  (newHash.get? path).getD (stored path)

variable {newHash : Dict TriePath Hash} {parent : Dict TriePath AsOfRow}

theorem tableDuring_rehashPath {stored : TriePath → Hash}
    (hparent : ∀ idx, ((parent.get? (path ++ [idx])).map AsOfRow.hash).getD cfg.emptyHash =
      stored (path ++ [idx])) :
    tableDuring stored (rehashPath cfg parent newHash path) =
      rehashAt nibbles cfg.emptyHash cfg.nodeHash (tableDuring stored newHash) path := by
  have hchildren : (nibbles.map fun idx => hashDuring cfg parent newHash (path ++ [idx])) =
      nibbles.map fun idx => tableDuring stored newHash (path ++ [idx]) := by
    apply map_congr_left
    intro idx _
    rw [hashDuring, tableDuring, hparent]
    cases newHash.get? (path ++ [idx]) <;> rfl
  funext other
  by_cases hother : other = path
  · subst hother
    rw [rehashAt_self, rehashPath, hchildren, tableDuring, get?_set_self]
    rfl
  · rw [rehashAt_of_ne hother, rehashPath, tableDuring, get?_set_ne (Ne.symm hother)]
    rfl

theorem tableDuring_rehashLevels {stored : TriePath → Hash} {dirty : List TriePath}
    (hparent : ∀ path ∈ dirty, ∀ idx,
      ((parent.get? (path ++ [idx])).map AsOfRow.hash).getD cfg.emptyHash =
        stored (path ++ [idx])) (levels : ℕ) (newHash : Dict TriePath Hash) :
    tableDuring stored (rehashLevels cfg dirty parent levels newHash) =
      rebuild nibbles cfg.emptyHash cfg.nodeHash
        (fun level => dirty.filter fun p => p.length = level) levels
        (tableDuring stored newHash) := by
  have hfold : ∀ (paths : List TriePath), (∀ path ∈ paths, path ∈ dirty) →
      ∀ newHash, tableDuring stored (paths.foldl (rehashPath cfg parent) newHash) =
        paths.foldl (rehashAt nibbles cfg.emptyHash cfg.nodeHash) (tableDuring stored newHash) := by
    intro paths
    induction paths with
    | nil => exact fun _ newHash => rfl
    | cons path rest ih =>
      intro hpaths newHash
      rw [foldl_cons, ih fun p hp => hpaths p (by simp [hp]),
        tableDuring_rehashPath (hparent path (hpaths path (by simp))), foldl_cons]
  induction levels generalizing newHash with
  | zero => rfl
  | succ level ih =>
    rw [rehashLevels, ih, hfold _ (fun p hp => mem_of_mem_filter hp), rebuild]

/-- The paths with a new hash: the touched leaves and their ancestors. -/
theorem keys_rehashLevels (cfg : MerkleConfig) (dirty : List TriePath)
    (parent : Dict TriePath AsOfRow) (levels : ℕ) (hnodup : newHash.keys.Nodup) :
    (rehashLevels cfg dirty parent levels newHash).keys.Nodup ∧
    ∀ path, path ∈ (rehashLevels cfg dirty parent levels newHash).keys ↔
      path ∈ newHash.keys ∨ (path ∈ dirty ∧ path.length < levels) := by
  have hfold : ∀ (paths : List TriePath) (newHash : Dict TriePath Hash), newHash.keys.Nodup →
      (Dict.keys (paths.foldl (rehashPath cfg parent) newHash)).Nodup ∧
      ∀ path, path ∈ Dict.keys (paths.foldl (rehashPath cfg parent) newHash) ↔
        path ∈ newHash.keys ∨ path ∈ paths := by
    intro paths
    induction paths with
    | nil => exact fun newHash h => ⟨h, fun path => by simp⟩
    | cons p rest ih =>
      intro newHash h
      obtain ⟨hnodup, hmem⟩ := ih (rehashPath cfg parent newHash p) (nodup_keys_set h _ _)
      refine ⟨hnodup, fun path => ?_⟩
      rw [foldl_cons, hmem, rehashPath, mem_keys_iff, get?_set]
      by_cases hp : p = path
      · simp [hp]
      · rw [if_neg hp, ← mem_keys_iff]
        simp [Ne.symm hp]
  induction levels generalizing newHash with
  | zero => exact ⟨hnodup, fun path => by simp [rehashLevels]⟩
  | succ level ih =>
    obtain ⟨hnodup', hmem'⟩ := hfold (dirty.filter fun p => p.length = level) newHash hnodup
    obtain ⟨hnodup'', hmem''⟩ := ih hnodup'
    refine ⟨hnodup'', fun path => ?_⟩
    rw [rehashLevels, hmem'', hmem', mem_filter, decide_eq_true_eq, Nat.lt_succ_iff_lt_or_eq]
    tauto

/-! ## The rows a commit writes -/

theorem rowOf_eq_some {t : Touched} {keys : CommitKeys} {hash : Hash} {row : MerkleNodeRow}
    (h : rowOf cfg t parent keys path hash = some row) :
    row.graphId = keys.graphId ∧ row.branchId = keys.branchId ∧ row.commitSeq = keys.commitSeq ∧
      row.path = pathStr path ∧ row.hash = hash ∧
      row.bucket = if path.length = cfg.depth then (newBuckets t.byLeaf parent).get? path
        else none := by
  rw [rowOf] at h
  split at h
  · cases h
  · obtain rfl := some.inj h
    exact ⟨rfl, rfl, rfl, rfl, rfl, rfl⟩

theorem rowsAsOf_filterMap_rowOf (cfg : MerkleConfig) (t : Touched) (parent : Dict TriePath AsOfRow)
    (keys : CommitKeys) (hnodup : newHash.keys.Nodup) (path : TriePath) {seq : ℕ}
    (hseq : keys.commitSeq ≤ seq) :
    newest (rowsAsOf (newHash.filterMap fun entry => rowOf cfg t parent keys entry.1 entry.2)
        keys.graphId keys.branchId (pathStr path) seq) =
      (newHash.get? path).bind (rowOf cfg t parent keys path) := by
  induction newHash with
  | nil => rfl
  | cons entry rest ih =>
    obtain ⟨p, hash⟩ := entry
    obtain ⟨hp, hrest⟩ := nodup_cons.mp hnodup
    have ih := ih hrest
    by_cases heq : p = path
    · subst heq
      have hnone : Dict.get? rest p = none := get?_eq_none_iff.mpr hp
      rw [hnone, bind_none, newest_eq_none_iff] at ih
      rw [get?_cons_self, bind_some]
      cases hrow : rowOf cfg t parent keys p hash with
      | none =>
        simp only [filterMap_cons, hrow, ih]
        rfl
      | some row =>
        obtain ⟨hgraph, hbranch, hcommit, hpath, -, -⟩ := rowOf_eq_some hrow
        simp only [filterMap_cons, hrow]
        rw [rowsAsOf] at ih ⊢
        rw [filter_cons_of_pos (by simp [hgraph, hbranch, hcommit, hpath, hseq]), ih]
        rfl
    · rw [get?_cons_ne heq, ← ih]
      cases hrow : rowOf cfg t parent keys p hash with
      | none => simp only [filterMap_cons, hrow]
      | some row =>
        obtain ⟨-, -, -, hpath, -, -⟩ := rowOf_eq_some hrow
        have hne : row.path ≠ pathStr path := by
          rw [hpath]
          exact fun h => heq (pathStr_injective h)
        simp only [filterMap_cons, hrow]
        rw [rowsAsOf, rowsAsOf, filter_cons_of_neg (by simp [hne])]

theorem commitTree_rows (cfg : MerkleConfig) (table : List MerkleNodeRow) (keys : CommitKeys)
    (changes : Dict EntityId (Option Hash)) :
    ∃ rows, (commitTree cfg table keys changes).1 = table ++ rows ∧
      ∀ row ∈ rows, row.graphId = keys.graphId ∧ row.branchId = keys.branchId ∧
        row.commitSeq = keys.commitSeq := by
  rw [commitTree]
  split
  · exact ⟨[], by simp, by simp⟩
  · refine ⟨_, rfl, fun row hrow => ?_⟩
    obtain ⟨entry, -, hentry⟩ := mem_filterMap.mp hrow
    obtain ⟨hgraph, hbranch, hseq, -⟩ := rowOf_eq_some hentry
    exact ⟨hgraph, hbranch, hseq⟩

/-! ## What a branch's rows say -/

/-- Every sequence number of a branch reads as the tree of the map its history
had left by then. -/
structure Faithful (cfg : MerkleConfig) (table : List MerkleNodeRow) (graphId branchId : String)
    (history : List (Dict EntityId (Option Hash))) : Prop where
  bounded : ∀ row ∈ table, row.graphId = graphId → row.branchId = branchId →
    1 ≤ row.commitSeq ∧ row.commitSeq ≤ history.length
  hashes : ∀ seq path, path.length ≤ cfg.depth → hashAsOf cfg table graphId branchId path seq =
    cfg.hashOf (runLive (history.take seq)) (cfg.depth - path.length) path
  buckets : ∀ seq path, path.length = cfg.depth → ∀ id,
    (bucketAsOf table graphId branchId path seq).get? id =
      if cfg.leafPath id = path then (runLive (history.take seq)).get? id else none

theorem faithful_nil (graphId branchId : String) : Faithful cfg [] graphId branchId [] where
  bounded := by simp
  hashes seq path _ := by
    have hrow : rowAt [] graphId branchId path seq = none := by
      rw [rowAt]
      split <;> rfl
    rw [hashAsOf, hrow, take_nil]
    exact (treeHash_eq_empty fun rest _ => rfl).symm
  buckets seq path _ id := by
    have hrow : rowAt [] graphId branchId path seq = none := by
      rw [rowAt]
      split <;> rfl
    rw [bucketAsOf, hrow]
    simp [runLive]

theorem Faithful.append_foreign {table rows : List MerkleNodeRow}
    (h : Faithful cfg table graphId branchId history)
    (hrows : ∀ row ∈ rows, ¬ (row.graphId = graphId ∧ row.branchId = branchId)) :
    Faithful cfg (table ++ rows) graphId branchId history := by
  have hread : ∀ path seq, rowAt (table ++ rows) graphId branchId path seq =
      rowAt table graphId branchId path seq := by
    intro path seq
    have hnone : rowsAsOf rows graphId branchId (pathStr path) seq = [] := by
      refine eq_nil_iff_forall_not_mem.mpr fun row hrow => ?_
      obtain ⟨hmem, hgraph, hbranch, -⟩ := mem_rowsAsOf.mp hrow
      exact hrows row hmem ⟨hgraph, hbranch⟩
    have happend : rowsAsOf (table ++ rows) graphId branchId (pathStr path) seq =
        rowsAsOf table graphId branchId (pathStr path) seq := by
      rw [rowsAsOf, filter_append]
      exact (congrArg _ hnone).trans (append_nil _)
    rw [rowAt, rowAt, happend]
  refine ⟨fun row hrow hgraph hbranch => ?_, fun seq path hpath => ?_, fun seq path hpath => ?_⟩
  · rcases mem_append.mp hrow with hrow | hrow
    · exact h.bounded row hrow hgraph hbranch
    · exact absurd ⟨hgraph, hbranch⟩ (hrows row hrow)
  · rw [hashAsOf, hread]
    exact h.hashes seq path hpath
  · rw [bucketAsOf, hread]
    exact h.buckets seq path hpath

/-- A commit without changes writes nothing and leaves the map as it was. -/
theorem Faithful.append_empty (h : Faithful cfg table graphId branchId history) :
    Faithful cfg table graphId branchId (history ++ [[]]) := by
  have hlive : ∀ seq, runLive ((history ++ [[]]).take seq) = runLive (history.take seq) := by
    intro seq
    rw [take_append]
    rcases Nat.eq_zero_or_pos (seq - history.length) with hzero | hpos
    · rw [hzero, take_zero, append_nil]
    · rw [take_of_length_le (l := [[]]) (by simp; omega), runLive, foldl_append]
      rfl
  refine ⟨fun row hrow hgraph hbranch => ?_, fun seq path hpath => ?_, fun seq path hpath => ?_⟩
  · obtain ⟨hone, hle⟩ := h.bounded row hrow hgraph hbranch
    rw [length_append]
    exact ⟨hone, by omega⟩
  · rw [hlive]
    exact h.hashes seq path hpath
  · rw [hlive]
    exact h.buckets seq path hpath

/-! ## One commit -/

theorem hashOf_applyChanges_of_away {live : Dict EntityId Hash}
    {changes : Dict EntityId (Option Hash)}
    (haway : ∀ leaf ∈ (byLeaf cfg changes).keys, ¬ path <+: leaf) (levels : ℕ) :
    cfg.hashOf (applyChanges live changes) levels path = cfg.hashOf live levels path := by
  refine treeHash_congr fun rest _ => MerkleConfig.leafHash_congr fun id => ?_
  rw [MerkleConfig.get?_bucketOf, MerkleConfig.get?_bucketOf]
  by_cases hid : cfg.leafPath id = path ++ rest
  · have hnone : changes.get? id = none := by
      by_contra hne
      exact haway _ (leafPath_mem_byLeaf hne) (hid ▸ prefix_append path rest)
    rw [if_pos hid, if_pos hid, MerkleTree.get?_applyChanges, hnone, getD_none]
  · rw [if_neg hid, if_neg hid]

section

variable {keys : CommitKeys} {changes : Dict EntityId (Option Hash)}

def parentOf (cfg : MerkleConfig) (table : List MerkleNodeRow) (keys : CommitKeys)
    (changes : Dict EntityId (Option Hash)) : Dict TriePath AsOfRow :=
  asOfMany table keys.graphId keys.branchId (touched cfg changes).need (keys.commitSeq - 1)

theorem get?_parentOf (path : TriePath) : (parentOf cfg table keys changes).get? path =
      if path ∈ (touched cfg changes).need then
        (rowAt table keys.graphId keys.branchId path (keys.commitSeq - 1)).map fun row =>
          ⟨row.hash, row.bucket⟩
      else none := by
  rw [parentOf, get?_asOfMany]
  rfl

theorem mem_need_of_leaf (h : path ∈ (byLeaf cfg changes).keys) :
    path ∈ (touched cfg changes).need :=
  mem_append_left _ h

theorem mem_need_of_child (h : path ∈ (touched cfg changes).dirtyInternal) (idx : Nibble) :
    path ++ [idx] ∈ (touched cfg changes).need :=
  mem_append_right _ (mem_flatMap.mpr ⟨path, h, mem_map_of_mem (mem_nibbles idx)⟩)

theorem hash_parentOf (h : path ∈ (touched cfg changes).need) :
    (((parentOf cfg table keys changes).get? path).map AsOfRow.hash).getD cfg.emptyHash =
      hashAsOf cfg table keys.graphId keys.branchId path (keys.commitSeq - 1) := by
  rw [get?_parentOf, if_pos h, Option.map_map]
  rfl

theorem bucket_parentOf (h : path ∈ (touched cfg changes).need) :
    (((parentOf cfg table keys changes).get? path).bind AsOfRow.bucket).getD [] =
      bucketAsOf table keys.graphId keys.branchId path (keys.commitSeq - 1) := by
  rw [get?_parentOf, if_pos h, bucketAsOf]
  cases rowAt table keys.graphId keys.branchId path (keys.commitSeq - 1) <;> rfl

theorem get?_newBuckets (h : Faithful cfg table keys.graphId keys.branchId history)
    (hseq : keys.commitSeq = history.length + 1) (hpath : path ∈ (byLeaf cfg changes).keys) :
    ∃ bucket, (newBuckets (byLeaf cfg changes) (parentOf cfg table keys changes)).get? path =
        some bucket ∧
      ∀ id, bucket.get? id = if cfg.leafPath id = path then
        (applyChanges (runLive history) changes).get? id else none := by
  obtain ⟨-, hget, hlengths⟩ := changesOf_byLeaf cfg changes
  obtain ⟨leafChanges, hleaf⟩ := isSome_iff_exists.mp (mem_keys_iff.mp hpath)
  refine ⟨newBucket (parentOf cfg table keys changes) path leafChanges, ?_, fun id => ?_⟩
  · rw [newBuckets, get?_map_value (byLeaf cfg changes)
      (newBucket (parentOf cfg table keys changes)), hleaf, map_some]
  · have hchange := hget path id
    rw [hleaf, getD_some] at hchange
    have hprev : keys.commitSeq - 1 = history.length := by omega
    have hold := h.buckets history.length path (hlengths path hpath) id
    have hfold : newBucket (parentOf cfg table keys changes) path leafChanges =
        leafChanges.items.foldl changeLive
          (bucketAsOf table keys.graphId keys.branchId path history.length) := by
      rw [newBucket, bucket_parentOf (mem_need_of_leaf hpath), hprev]
      rfl
    rw [hfold, MerkleTree.get?_foldl_changeLive (nodup_keys_items leafChanges),
      get?_items, hchange, hold, MerkleTree.get?_applyChanges]
    by_cases hid : cfg.leafPath id = path <;> simp [hid]

theorem tableDuring_newHashes (changes : Dict EntityId (Option Hash))
    (h : Faithful cfg table keys.graphId keys.branchId history)
    (hseq : keys.commitSeq = history.length + 1) (hpath : path.length ≤ cfg.depth) :
    tableDuring (fun p => hashAsOf cfg table keys.graphId keys.branchId p (keys.commitSeq - 1))
        (newHashes cfg (touched cfg changes) (parentOf cfg table keys changes)) path =
      cfg.hashOf (applyChanges (runLive history) changes) (cfg.depth - path.length) path := by
  obtain ⟨-, -, hlengths⟩ := changesOf_byLeaf cfg changes
  rw [newHashes, tableDuring_rehashLevels fun p hp idx =>
    hash_parentOf (mem_need_of_child hp idx)]
  refine rebuild_eq_treeHash (dirtyInternal_dirtyOf hlengths) le_rfl (fun p hp hcase => ?_) hpath
  have hmap := get?_map_value (newBuckets (byLeaf cfg changes) (parentOf cfg table keys changes))
    (fun _ bucket => cfg.leafHash bucket) p
  by_cases hleaf : p ∈ (byLeaf cfg changes).keys
  · obtain ⟨bucket, hbucket, hlookup⟩ := get?_newBuckets h hseq hleaf
    rw [hbucket] at hmap
    have hlevels : cfg.depth - p.length = 0 := by rw [hlengths p hleaf, Nat.sub_self]
    rw [tableDuring, touched, hmap, hlevels]
    exact MerkleConfig.leafHash_eq_leafOf hlookup
  · have hnone : (newBuckets (byLeaf cfg changes) (parentOf cfg table keys changes)).get? p =
        none := by
      rw [newBuckets, get?_map_value (byLeaf cfg changes)
        (newBucket (parentOf cfg table keys changes)), get?_eq_none_iff.mpr hleaf]
      rfl
    have haway : ∀ leaf ∈ (byLeaf cfg changes).keys, ¬ p <+: leaf := by
      rcases hcase with hdeep | haway
      · intro leaf hmem hprefix
        have hfull : p = leaf := hprefix.eq_of_length (by rw [hlengths leaf hmem]; omega)
        exact hleaf (hfull ▸ hmem)
      · exact haway
    have hprev : keys.commitSeq - 1 = history.length := by omega
    have hold := h.hashes history.length p hp
    rw [take_length] at hold
    rw [hnone] at hmap
    rw [tableDuring, touched, hmap, hprev, hold]
    exact (hashOf_applyChanges_of_away haway _).symm

theorem keys_newHashes (cfg : MerkleConfig) (changes : Dict EntityId (Option Hash))
    (parent : Dict TriePath AsOfRow) :
    (newHashes cfg (touched cfg changes) parent).keys.Nodup ∧
    ∀ path, path ∈ (newHashes cfg (touched cfg changes) parent).keys ↔
      ∃ leaf ∈ (byLeaf cfg changes).keys, path <+: leaf := by
  obtain ⟨hnodup, -, hlengths⟩ := changesOf_byLeaf cfg changes
  have hkeys : Dict.keys ((newBuckets (byLeaf cfg changes) parent).map
      fun entry => (entry.1, cfg.leafHash entry.2)) = (byLeaf cfg changes).keys := by
    simp [newBuckets, Dict.keys, Function.comp_def]
  obtain ⟨hnodup', hmem⟩ := keys_rehashLevels cfg
    (dirtyInternal cfg (byLeaf cfg changes).keys) parent cfg.depth (hkeys.symm ▸ hnodup)
  refine ⟨hnodup', fun path => (hmem path).trans ?_⟩
  rw [hkeys, mem_dirtyInternal hlengths]
  constructor
  · rintro (hleaf | ⟨⟨-, hleaf⟩, -⟩)
    · exact ⟨path, hleaf, prefix_refl path⟩
    · exact hleaf
  · rintro ⟨leaf, hleaf, hprefix⟩
    rcases Nat.lt_or_ge path.length cfg.depth with hlt | hge
    · exact .inr ⟨⟨hlt, leaf, hleaf, hprefix⟩, hlt⟩
    · have hfull : path = leaf := hprefix.eq_of_length (by
        have hle := hprefix.length_le
        rw [hlengths leaf hleaf] at hle ⊢
        omega)
      exact .inl (hfull ▸ hleaf)

theorem rowAt_commitTree (h : Faithful cfg table keys.graphId keys.branchId history)
    (hseq : keys.commitSeq = history.length + 1) (hne : changes ≠ []) (path : TriePath)
    {seq : ℕ} (hlater : keys.commitSeq ≤ seq) :
    rowAt (commitTree cfg table keys changes).1 keys.graphId keys.branchId path seq =
      (((newHashes cfg (touched cfg changes) (parentOf cfg table keys changes)).get? path).bind
        (rowOf cfg (touched cfg changes) (parentOf cfg table keys changes) keys path)).or
      (rowAt table keys.graphId keys.branchId path (keys.commitSeq - 1)) := by
  have hnodup := (keys_newHashes cfg changes (parentOf cfg table keys changes)).1
  have hown := rowsAsOf_filterMap_rowOf cfg (touched cfg changes)
    (parentOf cfg table keys changes) keys
    hnodup path hlater
  have hold : rowAt table keys.graphId keys.branchId path (keys.commitSeq - 1) =
      newest (rowsAsOf table keys.graphId keys.branchId (pathStr path) seq) := by
    have hsame : rowsAsOf table keys.graphId keys.branchId (pathStr path) (keys.commitSeq - 1) =
        rowsAsOf table keys.graphId keys.branchId (pathStr path) seq := by
      refine filter_congr fun row hrow => ?_
      rw [decide_eq_decide]
      refine and_congr_right fun hgraph => and_congr_right fun hbranch =>
        and_congr_right fun _ => ?_
      obtain ⟨-, hle⟩ := h.bounded row hrow hgraph hbranch
      exact iff_of_true (by omega) (by omega)
    rw [rowAt, hsame]
    split
    · symm
      refine newest_eq_none_iff.mpr (eq_nil_iff_forall_not_mem.mpr fun row hrow => ?_)
      obtain ⟨hmem, hgraph, hbranch, -, -⟩ := mem_rowsAsOf.mp hrow
      obtain ⟨hone, hle⟩ := h.bounded row hmem hgraph hbranch
      omega
    · rfl
  rw [commitTree, if_neg hne, rowAt, if_neg (by omega), rowsAsOf, filter_append, hold]
  rw [← hown]
  refine newest_append fun row hrow old hmem => ?_
  obtain ⟨hrow, -⟩ := mem_filter.mp hrow
  obtain ⟨entry, -, hentry⟩ := mem_filterMap.mp hrow
  obtain ⟨-, -, hcommit, -⟩ := rowOf_eq_some hentry
  obtain ⟨hmem, hgraph, hbranch, -, -⟩ := mem_rowsAsOf.mp hmem
  obtain ⟨-, hle⟩ := h.bounded old hmem hgraph hbranch
  omega

/-- A read before the commit is not disturbed by it. -/
theorem rowAt_commitTree_of_lt (path : TriePath) {seq : ℕ} (hearlier : seq < keys.commitSeq) :
    rowAt (commitTree cfg table keys changes).1 keys.graphId keys.branchId path seq =
      rowAt table keys.graphId keys.branchId path seq := by
  obtain ⟨rows, hrows, hkeys⟩ := commitTree_rows cfg table keys changes
  have hnone : rowsAsOf rows keys.graphId keys.branchId (pathStr path) seq = [] := by
    refine eq_nil_iff_forall_not_mem.mpr fun row hrow => ?_
    obtain ⟨hmem, -, -, -, hle⟩ := mem_rowsAsOf.mp hrow
    obtain ⟨-, -, hcommit⟩ := hkeys row hmem
    omega
  have happend : rowsAsOf (table ++ rows) keys.graphId keys.branchId (pathStr path) seq =
      rowsAsOf table keys.graphId keys.branchId (pathStr path) seq := by
    rw [rowsAsOf, filter_append]
    exact (congrArg _ hnone).trans (append_nil _)
  rw [hrows, rowAt, rowAt, happend]

theorem Faithful.commitTree {used : Set (List Bytes)}
    (h : Faithful cfg table keys.graphId keys.branchId history)
    (hseq : keys.commitSeq = history.length + 1) (hne : changes ≠ [])
    (hused : cfg.CollisionFree used)
    (hlive : ∀ parts, cfg.Encodes (runLive history) parts → parts ∈ used)
    (hlive' : ∀ parts, cfg.Encodes (applyChanges (runLive history) changes) parts → parts ∈ used) :
    Faithful cfg (commitTree cfg table keys changes).1 keys.graphId keys.branchId
      (history ++ [changes]) := by
  obtain ⟨hnodup, hkeys⟩ := keys_newHashes cfg changes (parentOf cfg table keys changes)
  have hprev : keys.commitSeq - 1 = history.length := by omega
  have htake : ∀ {seq}, keys.commitSeq ≤ seq → runLive ((history ++ [changes]).take seq) =
      applyChanges (runLive history) changes := by
    intro seq hlater
    rw [take_of_length_le (by simp; omega), runLive, foldl_append]
    rfl
  have htake' : ∀ {seq}, seq < keys.commitSeq →
      (history ++ [changes]).take seq = history.take seq :=
    fun hearlier => take_append_of_le_length (by omega)
  have hashOld : ∀ path, path.length ≤ cfg.depth →
      hashAsOf cfg table keys.graphId keys.branchId path (keys.commitSeq - 1) =
        cfg.hashOf (runLive history) (cfg.depth - path.length) path := by
    intro path hpath
    rw [hprev, h.hashes _ _ hpath, take_length]
  -- Where the commit computed a new hash, it is the new tree's.
  have hashNew : ∀ path, path.length ≤ cfg.depth → ∀ hash,
      (newHashes cfg (touched cfg changes) (parentOf cfg table keys changes)).get? path =
        some hash →
      hash =
        cfg.hashOf (applyChanges (runLive history) changes) (cfg.depth - path.length) path := by
    intro path hpath hash hget
    have htable := tableDuring_newHashes changes h hseq hpath
    rw [tableDuring, hget] at htable
    exact htable
  have haway : ∀ path,
      (newHashes cfg (touched cfg changes) (parentOf cfg table keys changes)).get? path = none →
      ∀ leaf ∈ (byLeaf cfg changes).keys, ¬ path <+: leaf := fun path hget leaf hleaf hprefix =>
    get?_eq_none_iff.mp hget ((hkeys path).mpr ⟨leaf, hleaf, hprefix⟩)
  -- An inherited row already carries the new hash.
  have hinherit : ∀ path hash,
      rowOf cfg (touched cfg changes) (parentOf cfg table keys changes) keys path hash = none →
      hashAsOf cfg table keys.graphId keys.branchId path (keys.commitSeq - 1) = hash := by
    intro path hash hrow
    rw [rowOf] at hrow
    split at hrow
    · rename_i hsame
      have hneed : path ∈ (touched cfg changes).need := by
        by_contra hnot
        rw [get?_parentOf, if_neg hnot] at hsame
        simp at hsame
      rw [← hash_parentOf hneed, hsame, getD_some]
    · cases hrow
  refine ⟨fun row hrow hgraph hbranch => ?_, fun seq path hpath => ?_, fun seq path hpath id => ?_⟩
  · obtain ⟨rows, hrows, hown⟩ := commitTree_rows cfg table keys changes
    rw [hrows] at hrow
    rw [length_append, length_singleton]
    rcases mem_append.mp hrow with hrow | hrow
    · obtain ⟨hone, hle⟩ := h.bounded row hrow hgraph hbranch
      exact ⟨hone, by omega⟩
    · obtain ⟨-, -, hcommit⟩ := hown row hrow
      exact ⟨by omega, by omega⟩
  · rcases Nat.lt_or_ge seq keys.commitSeq with hearlier | hlater
    · rw [hashAsOf, rowAt_commitTree_of_lt path hearlier, htake' hearlier]
      exact h.hashes seq path hpath
    · rw [hashAsOf, rowAt_commitTree h hseq hne path hlater, htake hlater]
      cases hget : (newHashes cfg (touched cfg changes)
          (parentOf cfg table keys changes)).get? path with
      | none =>
        rw [hashOf_applyChanges_of_away (haway path hget)]
        exact hashOld path hpath
      | some hash =>
        rw [bind_some]
        cases hrow : rowOf cfg (touched cfg changes) (parentOf cfg table keys changes) keys path
            hash with
        | some row =>
          obtain ⟨-, -, -, -, hhash, -⟩ := rowOf_eq_some hrow
          rw [some_or, map_some, hhash]
          exact hashNew path hpath hash hget
        | none =>
          exact (hinherit path hash hrow).trans (hashNew path hpath hash hget)
  · have hbucketOld : ∀ id, (bucketAsOf table keys.graphId keys.branchId path
        (keys.commitSeq - 1)).get? id =
        if cfg.leafPath id = path then (runLive history).get? id else none := by
      intro id
      rw [hprev, h.buckets _ _ hpath, take_length]
    rcases Nat.lt_or_ge seq keys.commitSeq with hearlier | hlater
    · rw [bucketAsOf, rowAt_commitTree_of_lt path hearlier, htake' hearlier]
      exact h.buckets seq path hpath id
    · rw [bucketAsOf, rowAt_commitTree h hseq hne path hlater, htake hlater]
      cases hget : (newHashes cfg (touched cfg changes)
          (parentOf cfg table keys changes)).get? path with
      | none =>
        refine (hbucketOld id).trans ?_
        by_cases hid : cfg.leafPath id = path
        · have hunchanged : changes.get? id = none := by
            by_contra hchanged
            exact haway path hget _ (leafPath_mem_byLeaf hchanged) (hid ▸ prefix_refl _)
          rw [if_pos hid, if_pos hid, MerkleTree.get?_applyChanges, hunchanged, getD_none]
        · rw [if_neg hid, if_neg hid]
      | some hash =>
        rw [bind_some]
        cases hrow : rowOf cfg (touched cfg changes) (parentOf cfg table keys changes) keys path
            hash with
        | some row =>
          obtain ⟨-, -, -, -, -, hbucket⟩ := rowOf_eq_some hrow
          obtain ⟨leaf, hleaf, hprefix⟩ :=
            (hkeys path).mp (mem_keys_iff.mpr (by rw [hget]; rfl))
          have hfull : path = leaf := hprefix.eq_of_length (by
            rw [hpath, (changesOf_byLeaf cfg changes).2.2 leaf hleaf])
          obtain ⟨bucket, hnew, hlookup⟩ := get?_newBuckets h hseq (hfull ▸ hleaf)
          rw [if_pos hpath, touched, hnew] at hbucket
          rw [some_or, bind_some, hbucket]
          exact hlookup id
        | none =>
          -- The leaf kept its hash; without collisions it kept its bucket.
          have hlevels : cfg.depth - path.length = 0 := by omega
          have hsame : cfg.leafOf (runLive history) path =
              cfg.leafOf (applyChanges (runLive history) changes) path := by
            have hold := hashOld path hpath.le
            rw [hinherit path hash hrow, hashNew path hpath.le hash hget, hlevels] at hold
            exact hold.symm
          have hlookup := MerkleConfig.get?_eq_of_leafOf_eq hused hlive hlive' hpath hsame id
          rw [MerkleConfig.get?_bucketOf, MerkleConfig.get?_bucketOf] at hlookup
          exact (hbucketOld id).trans hlookup

end

/-! ## Runs -/

theorem historyOf_append (requests : List CommitRequest) (request : CommitRequest)
    (graphId branchId : String) :
    historyOf (requests ++ [request]) graphId branchId = historyOf requests graphId branchId ++
        if request.graphId = graphId ∧ request.branchId = branchId then [request.changes]
        else [] := by
  rw [historyOf, filter_append, map_append]
  congr 1
  by_cases hown : request.graphId = graphId ∧ request.branchId = branchId <;> simp [hown]

/-- The encodings of every tree a branch's history passes through. -/
def Encoded (cfg : MerkleConfig) (history : List (Dict EntityId (Option Hash))) :
    Set (List Bytes) :=
  {parts | ∃ seq, cfg.Encodes (runLive (history.take seq)) parts}

theorem encoded_mono (history more : List (Dict EntityId (Option Hash))) :
    Encoded cfg history ⊆ Encoded cfg (history ++ more) := by
  rintro parts ⟨seq, hencodes⟩
  rcases le_total seq history.length with hle | hle
  · refine ⟨seq, ?_⟩
    rw [take_append_of_le_length hle]
    exact hencodes
  · refine ⟨history.length, ?_⟩
    rw [take_append_of_le_length le_rfl, take_length]
    rw [take_of_length_le hle] at hencodes
    exact hencodes

/-- After any run of commits to any branches, every branch reads right at every
sequence number. -/
theorem faithful_run (requests : List CommitRequest) (graphId branchId : String)
    (hused : cfg.CollisionFree (Encoded cfg (historyOf requests graphId branchId))) :
    (StoreState.run cfg requests).head graphId branchId =
        (historyOf requests graphId branchId).length ∧
      Faithful cfg (StoreState.run cfg requests).table graphId branchId
        (historyOf requests graphId branchId) := by
  induction requests using reverseRecOn with
  | nil => exact ⟨rfl, faithful_nil graphId branchId⟩
  | append_singleton requests request ih =>
    rw [historyOf_append] at hused ⊢
    obtain ⟨hhead, hfaithful⟩ :=
      ih (hused.mono fun parts hparts => encoded_mono _ _ hparts)
    rw [StoreState.run, foldl_append, foldl_cons, ← StoreState.run, StoreState.commit]
    by_cases hown : request.graphId = graphId ∧ request.branchId = branchId
    · obtain ⟨rfl, rfl⟩ := hown
      rw [if_pos ⟨rfl, rfl⟩] at hused ⊢
      refine ⟨by simp [hhead], ?_⟩
      by_cases hempty : request.changes = []
      · rw [hempty]
        exact hfaithful.append_empty
      · have hkeys : ∀ keys : CommitKeys, keys.graphId = request.graphId →
            keys.branchId = request.branchId →
            keys.commitSeq = (historyOf requests request.graphId request.branchId).length + 1 →
            Faithful cfg (commitTree cfg (StoreState.run cfg requests).table keys
              request.changes).1 request.graphId request.branchId
              (historyOf requests request.graphId request.branchId ++ [request.changes]) := by
          rintro keys hgraph hbranch hseq
          rw [← hgraph, ← hbranch] at hfaithful hused hseq ⊢
          refine hfaithful.commitTree hseq hempty hused (fun parts hparts => ?_)
            fun parts hparts => ?_
          · refine encoded_mono _ _ ⟨(historyOf requests keys.graphId keys.branchId).length, ?_⟩
            rw [take_length]
            exact hparts
          · refine ⟨(historyOf requests keys.graphId keys.branchId).length + 1, ?_⟩
            rw [take_of_length_le (by simp), runLive, foldl_append]
            exact hparts
        exact hkeys _ rfl rfl (by rw [← hhead])
    · rw [if_neg hown, append_nil]
      have hother : ¬ (graphId = request.graphId ∧ branchId = request.branchId) :=
        fun h => hown ⟨h.1.symm, h.2.symm⟩
      refine ⟨by simp [hother, hhead], ?_⟩
      obtain ⟨rows, hrows, hkeys⟩ := commitTree_rows cfg (StoreState.run cfg requests).table
        ⟨request.graphId, request.branchId, request.commitId, _⟩ request.changes
      rw [hrows]
      refine hfaithful.append_foreign fun row hrow hmine => hown ?_
      obtain ⟨hgraph, hbranch, -⟩ := hkeys row hrow
      exact ⟨hgraph.symm.trans hmine.1, hbranch.symm.trans hmine.2⟩

/-! ## Roots and diffs -/

theorem length_hashParts (parts : List Bytes) : (cfg.hashParts parts).length = cfg.digestLength :=
  cfg.length_hexdigest _

theorem length_emptyHash : cfg.emptyHash.length = cfg.digestLength := by
  rw [MerkleConfig.emptyHash, length_hashParts]
  simp [String.length]

/-- A hash read from the store is never mistaken for a missing one. -/
theorem orEmpty_some {hash : Hash} (h : hash.length = cfg.digestLength) :
    orEmpty cfg (some hash) = hash := by
  rw [orEmpty]
  split
  · rename_i hempty
    -- Digests of length zero: the empty hash is the empty text as well.
    have hzero : cfg.digestLength = 0 := by rw [← h, hempty]; rfl
    have hlength : cfg.emptyHash.length = cfg.digestLength := length_emptyHash
    rw [hzero] at hlength
    rw [hempty]
    exact String.length_eq_zero_iff.mp hlength
  · rfl

theorem length_hashOf (live : Dict EntityId Hash) (levels : ℕ) (path : TriePath) :
    (cfg.hashOf live levels path).length = cfg.digestLength := by
  cases levels with
  | zero =>
    rw [MerkleConfig.hashOf, treeHash, MerkleConfig.leafOf, MerkleConfig.leafHash]
    split
    · exact length_emptyHash
    · exact length_hashParts _
  | succ levels =>
    rw [MerkleConfig.hashOf, treeHash_succ, parentHash]
    split
    · exact length_emptyHash
    · exact length_hashParts _

theorem Faithful.orEmpty_eq (h : Faithful cfg table graphId branchId history)
    (hpath : path.length ≤ cfg.depth) (seq : ℕ) :
    orEmpty cfg ((rowAt table graphId branchId path seq).map MerkleNodeRow.hash) =
      cfg.hashOf (runLive (history.take seq)) (cfg.depth - path.length) path := by
  have hhash := h.hashes seq path hpath
  rw [hashAsOf] at hhash
  cases hrow : rowAt table graphId branchId path seq with
  | none =>
    rw [hrow] at hhash
    exact hhash
  | some row =>
    rw [hrow, map_some, getD_some] at hhash
    rw [map_some, hhash]
    exact orEmpty_some (length_hashOf _ _ _)

/-- `root_at` returns the root of the map live at the sequence number. -/
theorem Faithful.rootAt_eq (h : Faithful cfg table graphId branchId history) (seq : ℕ) :
    rootAt cfg table graphId branchId seq =
      cfg.hashOf (runLive (history.take seq)) cfg.depth [] := by
  have hlength : ([] : TriePath).length ≤ cfg.depth := Nat.zero_le _
  have hroot := h.orEmpty_eq hlength seq
  rw [rowAt] at hroot
  rw [rootAt]
  split
  · rename_i hzero
    rw [if_pos hzero] at hroot
    exact hroot
  · rename_i hpos
    rw [if_neg hpos] at hroot
    exact hroot

section

theorem hash_asOfMany (h : Faithful cfg table graphId branchId history) {paths : List TriePath}
    (hmem : path ∈ paths) (hpath : path.length ≤ cfg.depth) (seq : ℕ) :
    orEmpty cfg (((asOfMany table graphId branchId paths seq false).get? path).map AsOfRow.hash) =
      cfg.hashOf (runLive (history.take seq)) (cfg.depth - path.length) path := by
  rw [get?_asOfMany, if_pos hmem, Option.map_map]
  exact h.orEmpty_eq hpath seq

theorem bucket_asOfMany (h : Faithful cfg table graphId branchId history) {paths : List TriePath}
    (hmem : path ∈ paths) (hpath : path.length = cfg.depth) (seq : ℕ) (id : EntityId) :
    Dict.get? ((((asOfMany table graphId branchId paths seq).get? path).bind
        AsOfRow.bucket).getD []) id =
      if cfg.leafPath id = path then (runLive (history.take seq)).get? id else none := by
  rw [get?_asOfMany, if_pos hmem, ← h.buckets seq path hpath id, bucketAsOf]
  cases rowAt table graphId branchId path seq <;> rfl

/-- The paths of a frontier on which the two sequence numbers differ. -/
def differing (cfg : MerkleConfig) (table : List MerkleNodeRow) (graphId branchId : String)
    (m n : ℕ) (frontier : List TriePath) : List TriePath :=
  frontier.filter fun p =>
    orEmpty cfg (((asOfMany table graphId branchId frontier m false).get? p).map AsOfRow.hash) ≠
      orEmpty cfg (((asOfMany table graphId branchId frontier n false).get? p).map AsOfRow.hash)

variable {frontier : List TriePath}

theorem mem_differing (h : Faithful cfg table graphId branchId history) {m n : ℕ}
    (hpath : path.length ≤ cfg.depth) : path ∈ differing cfg table graphId branchId m n frontier ↔
      path ∈ frontier ∧ cfg.hashOf (runLive (history.take m)) (cfg.depth - path.length) path ≠
          cfg.hashOf (runLive (history.take n)) (cfg.depth - path.length) path := by
  rw [differing, mem_filter, decide_eq_true_eq]
  refine and_congr_right fun hmem => ?_
  rw [hash_asOfMany h hmem hpath, hash_asOfMany h hmem hpath]

/-- What a round adds to the diff: the differing entries of the differing
leaves. -/
def roundOut (cfg : MerkleConfig) (table : List MerkleNodeRow) (graphId branchId : String)
    (m n : ℕ) (frontier : List TriePath) (out : Dict EntityId (Option Hash × Option Hash)) :
    Dict EntityId (Option Hash × Option Hash) :=
  let leaves := (differing cfg table graphId branchId m n frontier).filter fun p =>
    p.length = cfg.depth
  leaves.foldl (fun out p =>
    diffBuckets out
      ((((asOfMany table graphId branchId leaves m).get? p).bind AsOfRow.bucket).getD [])
      ((((asOfMany table graphId branchId leaves n).get? p).bind AsOfRow.bucket).getD [])) out

def nextFrontier (cfg : MerkleConfig) (table : List MerkleNodeRow) (graphId branchId : String)
    (m n : ℕ) (frontier : List TriePath) : List TriePath :=
  ((differing cfg table graphId branchId m n frontier).filter fun p =>
    p.length < cfg.depth).flatMap fun p => nibbles.map fun idx => p ++ [idx]

theorem walk_succ (m n rounds : ℕ) (hfrontier : frontier ≠ [])
    (out : Dict EntityId (Option Hash × Option Hash)) :
    walk cfg table graphId branchId m n (rounds + 1) frontier out =
      walk cfg table graphId branchId m n rounds
        (nextFrontier cfg table graphId branchId m n frontier)
        (roundOut cfg table graphId branchId m n frontier out) := by
  cases frontier with
  | nil => exact absurd rfl hfrontier
  | cons path rest => rfl

theorem get?_roundOut (h : Faithful cfg table graphId branchId history) (m n : ℕ)
    (frontier : List TriePath) (out : Dict EntityId (Option Hash × Option Hash))
    (id : EntityId) :
    (roundOut cfg table graphId branchId m n frontier out).get? id =
      if cfg.leafPath id ∈ differing cfg table graphId branchId m n frontier ∧
          (runLive (history.take m)).get? id ≠ (runLive (history.take n)).get? id then
        some ((runLive (history.take m)).get? id, (runLive (history.take n)).get? id)
      else out.get? id := by
  rw [roundOut, MerkleTree.get?_foldl_diffBuckets _
    (fun path hpath => bucket_asOfMany h hpath (by simpa using (mem_filter.mp hpath).2) m)
    (fun path hpath => bucket_asOfMany h hpath (by simpa using (mem_filter.mp hpath).2) n)]
  simp

theorem nodup_keys_roundOut (m n : ℕ) (frontier : List TriePath)
    {out : Dict EntityId (Option Hash × Option Hash)} (hout : out.keys.Nodup) :
    (roundOut cfg table graphId branchId m n frontier out).keys.Nodup := by
  rw [roundOut]
  generalize (differing cfg table graphId branchId m n frontier).filter
    (fun p => decide (p.length = cfg.depth)) = leaves
  have hfold : ∀ (paths : List TriePath) (out : Dict EntityId (Option Hash × Option Hash)),
      out.keys.Nodup → (Dict.keys (paths.foldl (fun out p =>
        diffBuckets out
          ((((asOfMany table graphId branchId leaves m).get? p).bind AsOfRow.bucket).getD [])
          ((((asOfMany table graphId branchId leaves n).get? p).bind AsOfRow.bucket).getD []))
        out)).Nodup := by
    intro paths
    induction paths with
    | nil => exact fun _ hnodup => hnodup
    | cons p rest ih => exact fun _ hnodup => ih _ (MerkleTree.nodup_keys_diffBuckets hnodup _ _)
  exact hfold leaves out hout

theorem below_frontier_iff (h : Faithful cfg table graphId branchId history)
    (hused : cfg.CollisionFree (Encoded cfg history)) {m n level : ℕ} (hlevel : level ≤ cfg.depth)
    (hfrontier : ∀ path ∈ frontier, path.length = level) {id : EntityId}
    (hid : (runLive (history.take m)).get? id ≠ (runLive (history.take n)).get? id) :
    (∃ path ∈ frontier, path <+: cfg.leafPath id) ↔
      (∃ path ∈ nextFrontier cfg table graphId branchId m n frontier, path <+: cfg.leafPath id) ∨
        cfg.leafPath id ∈ differing cfg table graphId branchId m n frontier := by
  have hsub : ∀ path ∈ differing cfg table graphId branchId m n frontier, path ∈ frontier :=
    fun path hpath => mem_of_mem_filter hpath
  constructor
  · rintro ⟨path, hpath, hprefix⟩
    have hlength : path.length = level := hfrontier path hpath
    have htake : path = (cfg.leafPath id).take level := by
      rw [← hlength]
      exact prefix_iff_eq_take.mp hprefix
    have hdiffer : path ∈ differing cfg table graphId branchId m n frontier := by
      refine (mem_differing h (by omega)).mpr ⟨hpath, ?_⟩
      rw [hlength, htake]
      exact MerkleConfig.hashOf_ne_of_get?_ne hused (fun _ hparts => ⟨m, hparts⟩)
        (fun _ hparts => ⟨n, hparts⟩) hid hlevel
    rcases Nat.lt_or_eq_of_le hlevel with hlt | heq
    · left
      have hbound : level < (cfg.leafPath id).length := by simpa using hlt
      refine ⟨path ++ [(cfg.leafPath id)[level]], ?_, ?_⟩
      · refine mem_flatMap.mpr ⟨path, ?_, mem_map_of_mem (mem_nibbles _)⟩
        exact mem_filter.mpr ⟨hdiffer, by simpa [hlength] using hlt⟩
      · rw [htake, take_append_getElem]
        exact take_prefix _ _
    · right
      have hfull : path = cfg.leafPath id := hprefix.eq_of_length (by simp [hlength, heq])
      exact hfull ▸ hdiffer
  · rintro (⟨child, hchild, hprefix⟩ | hleaf)
    · obtain ⟨path, hpath, hmem⟩ := mem_flatMap.mp hchild
      obtain ⟨idx, -, rfl⟩ := mem_map.mp hmem
      exact ⟨path, hsub path (mem_of_mem_filter hpath), (prefix_append path [idx]).trans hprefix⟩
    · exact ⟨_, hsub _ hleaf, prefix_refl _⟩

/-- The walk from a frontier of one level ends within the remaining levels and
lists the differing ids below the frontier, on top of what it had. -/
theorem walk_eq (h : Faithful cfg table graphId branchId history)
    (hused : cfg.CollisionFree (Encoded cfg history)) (m n : ℕ) {rounds level : ℕ}
    {out : Dict EntityId (Option Hash × Option Hash)} (hrounds : level + rounds = cfg.depth + 1)
    (hfrontier : ∀ path ∈ frontier, path.length = level) (hlast : rounds = 0 → frontier = [])
    (hout : out.keys.Nodup) :
    ∃ result, walk cfg table graphId branchId m n rounds frontier out = some result ∧
      result.keys.Nodup ∧
      ∀ id, result.get? id = if (∃ path ∈ frontier, path <+: cfg.leafPath id) ∧
            (runLive (history.take m)).get? id ≠ (runLive (history.take n)).get? id then
          some ((runLive (history.take m)).get? id, (runLive (history.take n)).get? id)
        else out.get? id := by
  induction rounds generalizing level frontier out with
  | zero =>
    obtain rfl := hlast rfl
    exact ⟨out, rfl, hout, fun id => by simp⟩
  | succ rounds ih =>
    by_cases hempty : frontier = []
    · subst hempty
      exact ⟨out, rfl, hout, fun id => by simp⟩
    · have hnext : ∀ path ∈ nextFrontier cfg table graphId branchId m n frontier,
          path.length = level + 1 ∧ level < cfg.depth := by
        intro child hchild
        obtain ⟨path, hpath, hmem⟩ := mem_flatMap.mp hchild
        obtain ⟨idx, -, rfl⟩ := mem_map.mp hmem
        obtain ⟨hdiffer, hlt⟩ := mem_filter.mp hpath
        have hlength := hfrontier path (mem_of_mem_filter hdiffer)
        rw [decide_eq_true_eq, hlength] at hlt
        exact ⟨by simp [hlength], hlt⟩
      have hstop : rounds = 0 → nextFrontier cfg table graphId branchId m n frontier = [] := by
        intro hzero
        refine eq_nil_iff_forall_not_mem.mpr fun child hchild => ?_
        have hlt := (hnext child hchild).2
        omega
      have hlevel : level + 1 + rounds = cfg.depth + 1 := by omega
      obtain ⟨result, hwalk, hnodup, hget⟩ := ih hlevel
        (fun path hpath => (hnext path hpath).1) hstop (nodup_keys_roundOut m n frontier hout)
      refine ⟨result, by rw [walk_succ m n rounds hempty, hwalk], hnodup, fun id => ?_⟩
      rw [hget, get?_roundOut h]
      by_cases hid : (runLive (history.take m)).get? id = (runLive (history.take n)).get? id
      · simp [hid]
      · have hbelow := below_frontier_iff h hused (m := m) (n := n) (by omega) hfrontier hid
        by_cases hmem : ∃ path ∈ nextFrontier cfg table graphId branchId m n frontier,
            path <+: cfg.leafPath id
        · rw [if_pos ⟨hmem, hid⟩, if_pos ⟨hbelow.mpr (.inl hmem), hid⟩]
        · rw [if_neg fun hboth => hmem hboth.1]
          by_cases hleaf : cfg.leafPath id ∈ differing cfg table graphId branchId m n frontier
          · rw [if_pos ⟨hleaf, hid⟩, if_pos ⟨hbelow.mpr (.inr hleaf), hid⟩]
          · rw [if_neg fun hboth => hleaf hboth.1, if_neg fun hboth =>
              (hbelow.mp hboth.1).elim hmem hleaf]

/-- The diff of two sequence numbers ends and lists exactly the ids whose
presence or hash differs, each once. -/
theorem diff_eq (h : Faithful cfg table graphId branchId history)
    (hused : cfg.CollisionFree (Encoded cfg history)) (m n : ℕ) :
    ∃ result, diff cfg table graphId branchId m n = some result ∧ result.keys.Nodup ∧
      ∀ id, result.get? id =
        if (runLive (history.take m)).get? id = (runLive (history.take n)).get? id then none
        else some ((runLive (history.take m)).get? id, (runLive (history.take n)).get? id) := by
  have hrounds : 0 + (cfg.depth + 1) = cfg.depth + 1 := Nat.zero_add _
  have hfrontier : ∀ path ∈ ([[]] : List TriePath), path.length = 0 := by simp
  have hout : (Dict.keys ([] : Dict EntityId (Option Hash × Option Hash))).Nodup := nodup_nil
  obtain ⟨result, hwalk, hnodup, hget⟩ := walk_eq h hused m n hrounds hfrontier (by simp) hout
  refine ⟨result, hwalk, hnodup, fun id => ?_⟩
  rw [hget]
  by_cases hid : (runLive (history.take m)).get? id = (runLive (history.take n)).get? id <;>
    simp [hid]

end

/-- For every sequence of commits to any branches, and a hash without collisions
among the encodings of the branch's trees: the root returned for a sequence
number is the root of the tree built at once from any dictionary of the entities
then live, and the diff of two sequence numbers lists exactly the entities whose
presence or hash differs, each once. -/
theorem store_refines_tree (cfg : MerkleConfig) (requests : List CommitRequest)
    (graphId branchId : String)
    (hused : cfg.CollisionFree (Encoded cfg (historyOf requests graphId branchId))) :
    (∀ (seq : ℕ) (live : Dict EntityId Hash), (∀ id, live.get? id =
        (runLive ((historyOf requests graphId branchId).take seq)).get? id) →
      rootAt cfg (StoreState.run cfg requests).table graphId branchId seq =
        MerkleTree.root cfg (MerkleTree.build cfg live)) ∧
    ∀ m n, ∃ result,
      diff cfg (StoreState.run cfg requests).table graphId branchId m n = some result ∧
      result.keys.Nodup ∧
      ∀ id, result.get? id = if (runLive ((historyOf requests graphId branchId).take m)).get? id =
            (runLive ((historyOf requests graphId branchId).take n)).get? id then none
        else some ((runLive ((historyOf requests graphId branchId).take m)).get? id,
          (runLive ((historyOf requests graphId branchId).take n)).get? id) := by
  obtain ⟨-, hfaithful⟩ := faithful_run requests graphId branchId hused
  refine ⟨fun seq live hlive => ?_, fun m n => diff_eq hfaithful hused m n⟩
  rw [hfaithful.rootAt_eq seq, (MerkleTree.represents_build cfg live).root_eq]
  exact (MerkleConfig.hashOf_congr hlive _ _).symm

/-- Two commits to one branch with a commit to another between them. -/
theorem store_refines_tree_interleaved : rootAt sampleConfig (StoreState.run sampleConfig
        [⟨"g", "main", "c1", [("a", some "1")]⟩, ⟨"g", "draft", "c2", [("a", none)]⟩,
          ⟨"g", "main", "c3", [("a", some "2")]⟩]).table "g" "main" 2 =
      MerkleTree.root sampleConfig (MerkleTree.build sampleConfig [("a", "2")]) := by
  have hhistory : historyOf
      [⟨"g", "main", "c1", [("a", some "1")]⟩, ⟨"g", "draft", "c2", [("a", none)]⟩,
        ⟨"g", "main", "c3", [("a", some "2")]⟩] "g" "main" =
      [[("a", some "1")], [("a", some "2")]] := by decide
  refine (store_refines_tree sampleConfig _ "g" "main" ?_).1 2 [("a", "2")] fun id => ?_
  · rw [hhistory]
    refine MerkleTree.collisionFree_sample.mono ?_
    rintro parts ⟨seq, hparts⟩
    rcases seq with - | - | seq
    · exact absurd hparts (MerkleConfig.not_encodes_nil parts)
    · exact .inl hparts
    · rw [take_of_length_le (by simp)] at hparts
      exact .inr hparts
  · rfl

/-- After any commits to any branches the integrity check passes for the entities that are live as
of the sequence number, and for no others. -/
theorem verify_iff (cfg : MerkleConfig) (requests : List CommitRequest)
    (graphId branchId : String) (seq : ℕ) (live : Dict EntityId Hash)
    (hused : cfg.CollisionFree {parts |
      parts ∈ Encoded cfg (historyOf requests graphId branchId) ∨ cfg.Encodes live parts}) :
    verify cfg (StoreState.run cfg requests).table graphId branchId seq live ↔ ∀ id, live.get? id =
        (runLive ((historyOf requests graphId branchId).take seq)).get? id := by
  obtain ⟨-, hfaithful⟩ := faithful_run requests graphId branchId (hused.mono fun _ => .inl)
  rw [verify, decide_eq_true_eq, hfaithful.rootAt_eq,
    (MerkleTree.represents_build cfg live).root_eq]
  refine ⟨fun same id => ?_, fun same => (MerkleConfig.hashOf_congr same _ _).symm⟩
  by_contra differs
  have hne := MerkleConfig.hashOf_ne_of_get?_ne hused (fun _ => .inr)
    (fun _ encodes => .inl ⟨seq, encodes⟩) differs (Nat.zero_le _)
  exact hne (by simpa using same.symm)

/-- A dictionary with another hash is told apart. -/
theorem verify_iff_other : ¬ verify sampleConfig
    (StoreState.run sampleConfig [⟨"g", "main", "c1", [("a", some "1")]⟩]).table "g" "main" 1
      [("a", "2")] := by
  have hhistory : historyOf [⟨"g", "main", "c1", [("a", some "1")]⟩] "g" "main" =
      [[("a", some "1")]] := by decide
  rw [verify_iff]
  · exact fun same => absurd (same "a") (by decide)
  · rw [hhistory]
    refine MerkleTree.collisionFree_sample.mono ?_
    rintro parts (⟨seq, hparts⟩ | hparts)
    · rcases seq with - | seq
      · exact absurd hparts (MerkleConfig.not_encodes_nil parts)
      · exact .inl (by rwa [take_of_length_le (by simp)] at hparts)
    · exact .inr hparts

end MerkleStore

end DataViz.Versioning
