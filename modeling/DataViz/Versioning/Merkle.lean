/-
# The in-memory Merkle tree

`merkle.py`: entities are spread over leaf buckets by the first hex digits of a digest of their id,
sixteen children to a node. `apply` rewrites the buckets of the changed entities and rehashes their
ancestors; `changed_entities` walks two trees down from the roots and skips equal subtrees.

The digest algorithms live outside the repository and are parameters: the integrity hash is a text
of fixed length, the bucketing digest has at least as many digits as the tree has levels.
-/

import DataViz.Data.HashTrie
import DataViz.Versioning.Basic

namespace DataViz.Versioning

open HashTrie

abbrev Hash := String

abbrev Nibble := Fin 16

abbrev TriePath := List Nibble

abbrev Bytes := List UInt8

abbrev Buckets := Dict TriePath (Dict EntityId Hash)

/-- `s.encode("utf-8")`; on a hex digest also `s.encode("ascii")`. -/
def encode (s : String) : Bytes :=
  s.toByteArray.data.toList

def bigEndian8 (n : ℕ) : Bytes :=
  (List.range 8).reverse.map fun i => UInt8.ofNat (n / 256 ^ i)

/-- The deployment's immutable choices: the integrity hash with its digest
length, the bucketing digest and the depth of the tree. -/
structure MerkleConfig where
  hexdigest : Bytes → Hash
  digestLength : ℕ
  length_hexdigest : ∀ bytes, (hexdigest bytes).length = digestLength
  bucketDigest : EntityId → List Nibble
  depth : ℕ
  depth_le : ∀ id, depth ≤ (bucketDigest id).length

namespace MerkleConfig

variable (cfg : MerkleConfig)

def hashParts (parts : List Bytes) : Hash :=
  cfg.hexdigest (parts.flatMap fun p => bigEndian8 p.length ++ p)

/-- `empty_hash`: as many zeros as a digest has digits. -/
def emptyHash : Hash :=
  String.ofList (List.replicate (cfg.hashParts [[]]).length '0')

def leafPath (id : EntityId) : TriePath :=
  (cfg.bucketDigest id).take cfg.depth

@[simp]
theorem length_leafPath (id : EntityId) : (cfg.leafPath id).length = cfg.depth := by
  simp [leafPath, cfg.depth_le id]

/-- What a leaf bucket feeds to the hash: its entries in key order. -/
def leafParts (bucket : Dict EntityId Hash) : List Bytes :=
  bucket.sorted.flatMap fun entry => [encode entry.1, encode entry.2]

def leafHash (bucket : Dict EntityId Hash) : Hash :=
  if bucket = [] then cfg.emptyHash else cfg.hashParts (leafParts bucket)

def nodeHash (children : List Hash) : Hash :=
  cfg.hashParts (children.map encode)

end MerkleConfig

/-- The sixteen digits, in the order children are hashed. -/
def nibbles : List Nibble :=
  List.finRange 16

theorem mem_nibbles (n : Nibble) : n ∈ nibbles :=
  List.mem_finRange n

/-- `MerkleTree`; its depth is the configuration's. -/
structure MerkleTree where
  leaves : Buckets
  nodes : Dict TriePath Hash

namespace MerkleTree

variable (cfg : MerkleConfig)

/-- `self.nodes.get(prefix, _EMPTY)`. -/
def nodeAt (nodes : Dict TriePath Hash) (path : TriePath) : Hash :=
  (nodes.get? path).getD cfg.emptyHash

def bucketAt (leaves : Buckets) (path : TriePath) : Dict EntityId Hash :=
  (leaves.get? path).getD []

/-- The first loop of `_recompute`: a touched leaf's own hash. -/
def rehashLeaf (leaves : Buckets) (nodes : Dict TriePath Hash) (leaf : TriePath) :
    Dict TriePath Hash :=
  match leaves.get? leaf with
  | some (entry :: bucket) => nodes.set leaf (cfg.leafHash (entry :: bucket))
  | _ => nodes.pop leaf

/-- The body of the second loop of `_recompute`: an interior node's hash. -/
def rehashNode (nodes : Dict TriePath Hash) (path : TriePath) : Dict TriePath Hash :=
  let childHashes := nibbles.map fun idx => nodeAt cfg nodes (path ++ [idx])
  if ∀ h ∈ childHashes, h = cfg.emptyHash then nodes.pop path
  else nodes.set path (cfg.nodeHash childHashes)

def dirtyByLevel (touched : List TriePath) (level : ℕ) : List TriePath :=
  (touched.map (List.take level)).dedup

/-- The second loop of `_recompute`: the levels below the given one, from the
deepest up to the root. -/
def rehashLevels (touched : List TriePath) : ℕ → Dict TriePath Hash → Dict TriePath Hash
  | 0, nodes => nodes
  | level + 1, nodes =>
    rehashLevels touched level ((dirtyByLevel touched level).foldl (rehashNode cfg) nodes)

def recompute (tree : MerkleTree) (touched : List TriePath) : MerkleTree :=
  { tree with
    nodes := rehashLevels cfg touched cfg.depth
      (touched.foldl (rehashLeaf cfg tree.leaves) tree.nodes) }

def build (entities : Dict EntityId Hash) : MerkleTree :=
  let leaves := entities.items.foldl (fun (leaves : Buckets) entry =>
    let path := cfg.leafPath entry.1
    leaves.set path ((bucketAt leaves path).set entry.1 entry.2)) []
  recompute cfg ⟨leaves, []⟩ leaves.keys

def root (tree : MerkleTree) : Hash :=
  nodeAt cfg tree.nodes []

def changeBucket (bucket : Dict EntityId Hash) (eid : EntityId) : Option Hash → Dict EntityId Hash
  | none => bucket.pop eid
  | some chash => bucket.set eid chash

/-- The loop body of `apply`: one change, in a copy of its bucket. -/
def changeLeaves (leaves : Buckets) (change : EntityId × Option Hash) : Buckets :=
  let path := cfg.leafPath change.1
  let bucket := changeBucket (bucketAt leaves path) change.1 change.2
  if bucket = [] then leaves.pop path else leaves.set path bucket

/-- `MerkleTree.apply`: `none` drops the entity. -/
def apply (tree : MerkleTree) (changes : Dict EntityId (Option Hash)) : MerkleTree :=
  recompute cfg ⟨changes.items.foldl (changeLeaves cfg) tree.leaves, tree.nodes⟩
    (changes.items.map fun change => cfg.leafPath change.1)

/-- `changed_leaf_paths`, with `_walk_diff`: the levels still to descend are
the depth less the length of the prefix. -/
def changedLeafPaths (tree other : MerkleTree) : List TriePath :=
  differingLeaves nibbles (nodeAt cfg tree.nodes) (nodeAt cfg other.nodes) cfg.depth []

/-- The inner loop of `changed_entities` and of the store's walk: the entries on
which two buckets differ. -/
def diffBuckets (diff : Dict EntityId (Option Hash × Option Hash)) (a b : Dict EntityId Hash) :
    Dict EntityId (Option Hash × Option Hash) :=
  (a.keys ++ b.keys).dedup.foldl (fun diff eid =>
    if a.get? eid ≠ b.get? eid then diff.set eid (a.get? eid, b.get? eid) else diff) diff

def changedEntities (tree other : MerkleTree) : Dict EntityId (Option Hash × Option Hash) :=
  (changedLeafPaths cfg tree other).foldl (fun diff path =>
    diffBuckets diff (bucketAt tree.leaves path) (bucketAt other.leaves path)) []

end MerkleTree

end DataViz.Versioning
