/-
# The persisted Merkle store

`merkle_store.py`: a commit reads the rows of its touched paths as of the sequence number before it,
recomputes the touched buckets and their ancestors, and inserts a row for each path whose hash
changed. A read as of a sequence number takes, for each path, the newest row at or before it;
unchanged subtrees are inherited that way. `diff` walks two sequence numbers level by level.

The IN-list and the insert are chunked by the source under the driver's parameter cap; each path is
in one chunk, so the chunks are not modelled.
-/

import DataViz.Versioning.Merkle

namespace DataViz.Versioning

open MerkleTree (bucketAt changeBucket diffBuckets)

structure MerkleNodeRow where
  graphId : String
  branchId : String
  commitId : String
  commitSeq : ℕ
  path : String
  level : ℕ
  hash : Hash
  bucket : Option (Dict EntityId Hash)

def hexDigit (n : Nibble) : Char :=
  ['0', '1', '2', '3', '4', '5', '6', '7', '8', '9', 'a', 'b', 'c', 'd', 'e', 'f'].get n

def pathStr (path : TriePath) : String :=
  String.ofList (['/'].intercalate (path.map fun n => [hexDigit n]))

/-- `int(c, 16)` on one lower-case digit; `none` where Python raises. -/
def parseHex : List Char → Option Nibble
  | [c] => nibbles.find? fun n => hexDigit n = c
  | _ => none

def parsePath (s : String) : Option TriePath :=
  if s = "" then some [] else (s.toList.splitOn '/').mapM parseHex

/-- The first row with the greatest sequence number: `DISTINCT ON (path)` of the
rows ordered by sequence number, newest first. -/
def newest : List MerkleNodeRow → Option MerkleNodeRow
  | [] => none
  | row :: rest =>
    match newest rest with
    | none => some row
    | some best => if best.commitSeq ≤ row.commitSeq then some row else some best

structure AsOfRow where
  hash : Hash
  bucket : Option (Dict EntityId Hash)

/-- The rows of a path of one branch at or before a sequence number. -/
def rowsAsOf (table : List MerkleNodeRow) (graphId branchId path : String) (seq : ℕ) :
    List MerkleNodeRow :=
  table.filter fun row =>
    row.graphId = graphId ∧ row.branchId = branchId ∧ row.path = path ∧ row.commitSeq ≤ seq

/-- The entry of one path text in the result of `_as_of_many`. -/
def asOfEntry (table : List MerkleNodeRow) (graphId branchId : String) (seq : ℕ)
    (withBucket : Bool) (text : String) : Option (TriePath × AsOfRow) := do
  let row ← newest (rowsAsOf table graphId branchId text seq)
  let path ← parsePath row.path
  return (path, ⟨row.hash, if withBucket then row.bucket else none⟩)

def asOfMany (table : List MerkleNodeRow) (graphId branchId : String) (paths : List TriePath)
    (seq : ℕ) (withBucket : Bool := true) : Dict TriePath AsOfRow :=
  if seq < 1 then []
  else (paths.map pathStr).dedup.filterMap (asOfEntry table graphId branchId seq withBucket)

namespace MerkleStore

variable (cfg : MerkleConfig)

/-- `h or _EMPTY`: the empty text is falsy. -/
def orEmpty (hash : Option Hash) : Hash :=
  match hash with
  | none => cfg.emptyHash
  | some h => if h = "" then cfg.emptyHash else h

def rootAt (table : List MerkleNodeRow) (graphId branchId : String) (seq : ℕ) : Hash :=
  if seq < 1 then cfg.emptyHash
  else orEmpty cfg ((newest (rowsAsOf table graphId branchId "" seq)).map MerkleNodeRow.hash)

/-- `verify`, the integrity check of a stored root. -/
def verify (table : List MerkleNodeRow) (graphId branchId : String) (seq : ℕ)
    (live : Dict EntityId Hash) : Bool :=
  rootAt cfg table graphId branchId seq = MerkleTree.root cfg (MerkleTree.build cfg live)

structure Touched where
  byLeaf : Dict TriePath (Dict EntityId (Option Hash))
  dirtyInternal : List TriePath
  need : List TriePath

def byLeaf (changes : Dict EntityId (Option Hash)) : Dict TriePath (Dict EntityId (Option Hash)) :=
  changes.items.foldl (fun byLeaf change =>
    let path := cfg.leafPath change.1
    byLeaf.set path (((byLeaf.get? path).getD []).set change.1 change.2)) []

def dirtyInternal (touchedLeaves : List TriePath) : List TriePath :=
  (touchedLeaves.flatMap fun lp => (List.range cfg.depth).map fun lvl => lp.take lvl).dedup

def touched (changes : Dict EntityId (Option Hash)) : Touched :=
  let leaves := byLeaf cfg changes
  let dirty := dirtyInternal cfg leaves.keys
  { byLeaf := leaves
    dirtyInternal := dirty
    need := leaves.keys ++ dirty.flatMap fun p => nibbles.map fun idx => p ++ [idx] }

def newBucket (parent : Dict TriePath AsOfRow) (lp : TriePath)
    (changes : Dict EntityId (Option Hash)) : Dict EntityId Hash :=
  changes.items.foldl (fun bucket change => changeBucket bucket change.1 change.2)
    (((parent.get? lp).bind AsOfRow.bucket).getD [])

def newBuckets (leaves : Dict TriePath (Dict EntityId (Option Hash)))
    (parent : Dict TriePath AsOfRow) : Buckets :=
  leaves.map fun entry => (entry.1, newBucket parent entry.1 entry.2)

/-- A path's hash while the levels are rebuilt: the new one where there is one,
else the parent's. -/
def hashDuring (parent : Dict TriePath AsOfRow) (newHash : Dict TriePath Hash)
    (path : TriePath) : Hash :=
  match newHash.get? path with
  | some h => h
  | none => ((parent.get? path).map AsOfRow.hash).getD cfg.emptyHash

def rehashPath (parent : Dict TriePath AsOfRow) (newHash : Dict TriePath Hash)
    (path : TriePath) : Dict TriePath Hash :=
  let childHashes := nibbles.map fun idx => hashDuring cfg parent newHash (path ++ [idx])
  newHash.set path
    (if ∀ h ∈ childHashes, h = cfg.emptyHash then cfg.emptyHash else cfg.nodeHash childHashes)

/-- The loop over the levels below the given one, deepest first. -/
def rehashLevels (dirty : List TriePath) (parent : Dict TriePath AsOfRow) :
    ℕ → Dict TriePath Hash → Dict TriePath Hash
  | 0, newHash => newHash
  | level + 1, newHash =>
    rehashLevels dirty parent level
      ((dirty.filter fun p => p.length = level).foldl (rehashPath cfg parent) newHash)

def newHashes (t : Touched) (parent : Dict TriePath AsOfRow) : Dict TriePath Hash :=
  rehashLevels cfg t.dirtyInternal parent cfg.depth
    ((newBuckets t.byLeaf parent).map fun entry => (entry.1, cfg.leafHash entry.2))

structure CommitKeys where
  graphId : String
  branchId : String
  commitId : String
  commitSeq : ℕ

/-- The row of a path with its new hash, unless the parent's row has that hash:
an unchanged subtree is inherited. -/
def rowOf (t : Touched) (parent : Dict TriePath AsOfRow) (keys : CommitKeys) (path : TriePath)
    (hash : Hash) : Option MerkleNodeRow :=
  if (parent.get? path).map AsOfRow.hash = some hash then none
  else some {
    graphId := keys.graphId
    branchId := keys.branchId
    commitId := keys.commitId
    commitSeq := keys.commitSeq
    path := pathStr path
    level := path.length
    hash := hash
    bucket := if path.length = cfg.depth then (newBuckets t.byLeaf parent).get? path else none }

/-- `_rebuilt`: a row for every path whose hash changed, and the new root. -/
def rebuilt (t : Touched) (parent : Dict TriePath AsOfRow) (keys : CommitKeys) :
    List MerkleNodeRow × Hash :=
  let newHash := newHashes cfg t parent
  (newHash.filterMap fun entry => rowOf cfg t parent keys entry.1 entry.2,
    (newHash.get? []).getD cfg.emptyHash)

def commitTree (table : List MerkleNodeRow) (keys : CommitKeys)
    (changes : Dict EntityId (Option Hash)) : List MerkleNodeRow × Hash :=
  if changes = [] then (table, rootAt cfg table keys.graphId keys.branchId (keys.commitSeq - 1))
  else
    let t := touched cfg changes
    let parent := asOfMany table keys.graphId keys.branchId t.need (keys.commitSeq - 1)
    let (rows, root) := rebuilt cfg t parent keys
    (table ++ rows, root)

/-- `_walk`, with a bound on the number of rounds: `none` when it is used up. -/
def walk (table : List MerkleNodeRow) (graphId branchId : String) (m n : ℕ) :
    ℕ → List TriePath → Dict EntityId (Option Hash × Option Hash) →
      Option (Dict EntityId (Option Hash × Option Hash))
  | _, [], out => some out
  | 0, _ :: _, _ => none
  | rounds + 1, path :: rest, out =>
    let frontier := path :: rest
    let atM := asOfMany table graphId branchId frontier m false
    let atN := asOfMany table graphId branchId frontier n false
    let differing := frontier.filter fun p =>
      orEmpty cfg ((atM.get? p).map AsOfRow.hash) ≠ orEmpty cfg ((atN.get? p).map AsOfRow.hash)
    let leaves := differing.filter fun p => p.length = cfg.depth
    let bmAll := asOfMany table graphId branchId leaves m
    let bnAll := asOfMany table graphId branchId leaves n
    let out := leaves.foldl (fun out p =>
      diffBuckets out (((bmAll.get? p).bind AsOfRow.bucket).getD [])
        (((bnAll.get? p).bind AsOfRow.bucket).getD [])) out
    let next := (differing.filter fun p => p.length < cfg.depth).flatMap fun p =>
      nibbles.map fun idx => p ++ [idx]
    walk table graphId branchId m n rounds next out

/-- `diff`: the walk from the root; one round for each level suffices. -/
def diff (table : List MerkleNodeRow) (graphId branchId : String) (m n : ℕ) :
    Option (Dict EntityId (Option Hash × Option Hash)) :=
  walk cfg table graphId branchId m n (cfg.depth + 1) [[]] []

end MerkleStore

structure CommitRequest where
  graphId : String
  branchId : String
  commitId : String
  changes : Dict EntityId (Option Hash)

/-- The store with every branch's newest sequence number. -/
structure StoreState where
  table : List MerkleNodeRow
  head : String → String → ℕ

/-- One commit: the branch's next sequence number and the tree rows for it. -/
def StoreState.commit (cfg : MerkleConfig) (state : StoreState) (request : CommitRequest) :
    StoreState :=
  let seq := state.head request.graphId request.branchId + 1
  { table := (MerkleStore.commitTree cfg state.table
      ⟨request.graphId, request.branchId, request.commitId, seq⟩ request.changes).1
    head := fun graphId branchId =>
      if graphId = request.graphId ∧ branchId = request.branchId then seq
      else state.head graphId branchId }

/-- The store after any number of commits, to any branches in any order. -/
def StoreState.run (cfg : MerkleConfig) (requests : List CommitRequest) : StoreState :=
  requests.foldl (StoreState.commit cfg) ⟨[], fun _ _ => 0⟩

def historyOf (requests : List CommitRequest) (graphId branchId : String) :
    List (Dict EntityId (Option Hash)) :=
  (requests.filter fun r => r.graphId = graphId ∧ r.branchId = branchId).map CommitRequest.changes

end DataViz.Versioning
