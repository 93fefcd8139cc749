/-
# What a root tells apart

Up to here nothing was assumed about the hash. If it is injective on the
encodings two trees really use, and never the empty digest on them, then equal
node hashes mean equal entries below. So different maps have different roots,
and a walk that skips equal subtrees misses nothing.
-/

import DataViz.Versioning.MerkleLaws

namespace DataViz.Versioning

open HashTrie

theorem encode_injective : Function.Injective encode := by
  intro first second h
  refine String.toByteArray_inj.mp ?_
  have hdata : first.toByteArray.data = second.toByteArray.data := Array.toList_inj.mp h
  exact ByteArray.ext hdata

namespace MerkleConfig

variable (cfg : MerkleConfig)

/-- The part lists the tree of a map feeds to the hash: one for each nonempty
bucket and one for each interior node with a nonempty child. -/
inductive Encodes (live : Dict EntityId Hash) : List Bytes → Prop
  | leaf (path : TriePath) (hlength : path.length = cfg.depth)
      (hbucket : cfg.bucketOf live path ≠ []) : Encodes live (leafParts (cfg.bucketOf live path))
  | node (path : TriePath) (levels : ℕ) (hlength : path.length + (levels + 1) = cfg.depth)
      (hchild : ∃ hash ∈
        childHashes nibbles cfg.emptyHash cfg.nodeHash (cfg.leafOf live) levels path,
        hash ≠ cfg.emptyHash) :
      Encodes live ((childHashes nibbles cfg.emptyHash cfg.nodeHash (cfg.leafOf live) levels
        path).map encode)

/-- The hash is injective on the given part lists and never the empty digest
on them. -/
structure CollisionFree (used : Set (List Bytes)) : Prop where
  injOn : Set.InjOn cfg.hashParts used
  ne_empty : ∀ parts ∈ used, cfg.hashParts parts ≠ cfg.emptyHash

variable {cfg}

theorem CollisionFree.mono {used wider : Set (List Bytes)} (h : cfg.CollisionFree wider)
    (hsub : ∀ parts ∈ used, parts ∈ wider) : cfg.CollisionFree used :=
  ⟨h.injOn.mono hsub, fun parts hparts => h.ne_empty parts (hsub parts hparts)⟩

variable {used : Set (List Bytes)}

/-- Child lists are told apart where their encodings are. -/
theorem CollisionFree.separates (h : cfg.CollisionFree used) :
    Separates cfg.emptyHash cfg.nodeHash {children | children.map encode ∈ used} where
  injOn := by
    intro first hfirst second hsecond heq
    exact encode_injective.list_map (h.injOn hfirst hsecond heq)
  ne_empty children hchildren := h.ne_empty _ hchildren

/-- The empty tree feeds nothing to the hash. -/
theorem not_encodes_nil (parts : List Bytes) : ¬ cfg.Encodes [] parts := by
  rintro (⟨path, -, hbucket⟩ | ⟨path, levels, -, hash, hmem, hne⟩)
  · exact hbucket rfl
  · obtain ⟨idx, -, rfl⟩ := List.mem_map.mp hmem
    exact hne (treeHash_eq_empty fun rest _ => rfl)

theorem covers_of_encodes {live : Dict EntityId Hash}
    (h : ∀ parts, cfg.Encodes live parts → parts ∈ used) :
    Covers nibbles cfg.emptyHash cfg.nodeHash {children | children.map encode ∈ used}
      (cfg.leafOf live) cfg.depth :=
  fun path levels hlength hchild => h _ (.node path levels hlength hchild)

variable {first second : Dict EntityId Hash}

/-- The entries of a bucket are recovered from what it feeds to the hash. -/
theorem sorted_eq_of_leafParts_eq (h : leafParts first = leafParts second) :
    first.sorted = second.sorted := by
  have hentries : ∀ a b : List (EntityId × Hash),
      (a.flatMap fun entry => [encode entry.1, encode entry.2]) =
        (b.flatMap fun entry => [encode entry.1, encode entry.2]) → a = b := by
    intro a
    induction a with
    | nil =>
      intro b hb
      cases b with
      | nil => rfl
      | cons => simp at hb
    | cons entry rest ih =>
      intro b hb
      cases b with
      | nil => simp at hb
      | cons entry' rest' =>
        obtain ⟨hid, hhash, hrest⟩ : encode entry.1 = encode entry'.1 ∧
            encode entry.2 = encode entry'.2 ∧ _ = _ := by simpa using hb
        rw [Prod.ext (encode_injective hid) (encode_injective hhash), ih rest' hrest]
  exact hentries _ _ h

theorem get?_eq_of_leafOf_eq (hused : cfg.CollisionFree used)
    (hfirst : ∀ parts, cfg.Encodes first parts → parts ∈ used)
    (hsecond : ∀ parts, cfg.Encodes second parts → parts ∈ used) {path : TriePath}
    (hlength : path.length = cfg.depth) (h : cfg.leafOf first path = cfg.leafOf second path)
    (id : EntityId) : (cfg.bucketOf first path).get? id = (cfg.bucketOf second path).get? id := by
  rw [leafOf, leafOf, leafHash, leafHash] at h
  split at h <;> rename_i hnil <;> split at h <;> rename_i hnil'
  · rw [hnil, hnil']
  · exact absurd h.symm (hused.ne_empty _ (hsecond _ (.leaf path hlength hnil')))
  · exact absurd h (hused.ne_empty _ (hfirst _ (.leaf path hlength hnil)))
  · have hparts := hused.injOn (hfirst _ (.leaf path hlength hnil))
      (hsecond _ (.leaf path hlength hnil')) h
    exact Dict.sorted_eq_iff.mp (sorted_eq_of_leafParts_eq hparts) id

theorem hashOf_ne_of_get?_ne (hused : cfg.CollisionFree used)
    (hfirst : ∀ parts, cfg.Encodes first parts → parts ∈ used)
    (hsecond : ∀ parts, cfg.Encodes second parts → parts ∈ used) {id : EntityId}
    (hid : first.get? id ≠ second.get? id) {n : ℕ} (hn : n ≤ cfg.depth) :
    cfg.hashOf first (cfg.depth - n) ((cfg.leafPath id).take n) ≠
      cfg.hashOf second (cfg.depth - n) ((cfg.leafPath id).take n) := by
  intro heq
  have hlength : ((cfg.leafPath id).take n).length = n := by simpa using hn
  have hrest : ((cfg.leafPath id).drop n).length = cfg.depth - n := by simp
  have hleaf := leaf_eq_of_treeHash_eq hused.separates (covers_of_encodes hfirst)
    (covers_of_encodes hsecond) (by omega) heq hrest fun digit _ => mem_nibbles digit
  rw [List.take_append_drop] at hleaf
  have hget := get?_eq_of_leafOf_eq hused hfirst hsecond (cfg.length_leafPath id) hleaf id
  rw [get?_bucketOf, get?_bucketOf, if_pos rfl, if_pos rfl] at hget
  exact hid hget

end MerkleConfig

namespace MerkleTree

variable {cfg : MerkleConfig}

theorem get?_diffBuckets (diff : Dict EntityId (Option Hash × Option Hash))
    (a b : Dict EntityId Hash) (id : EntityId) :
    (diffBuckets diff a b).get? id =
      if a.get? id ≠ b.get? id then some (a.get? id, b.get? id) else diff.get? id := by
  have hfold : ∀ (ids : List EntityId) (diff : Dict EntityId (Option Hash × Option Hash)),
      Dict.get? (ids.foldl (fun diff eid =>
        if a.get? eid ≠ b.get? eid then diff.set eid (a.get? eid, b.get? eid) else diff) diff) id =
      if id ∈ ids ∧ a.get? id ≠ b.get? id then some (a.get? id, b.get? id)
        else diff.get? id := by
    intro ids
    induction ids with
    | nil => simp
    | cons eid rest ih =>
      intro diff
      rw [List.foldl_cons, ih]
      by_cases heid : eid = id
      · subst heid
        by_cases hdiffer : a.get? eid ≠ b.get? eid <;> simp [hdiffer]
      · have hget : Dict.get? (if a.get? eid ≠ b.get? eid then
            diff.set eid (a.get? eid, b.get? eid) else diff) id = diff.get? id := by
          split
          · exact Dict.get?_set_ne heid _ _
          · rfl
        rw [hget]
        simp [Ne.symm heid]
  rw [diffBuckets, hfold]
  by_cases hdiffer : a.get? id ≠ b.get? id
  · have hmem : id ∈ (a.keys ++ b.keys).dedup := by
      rw [List.mem_dedup, List.mem_append, Dict.mem_keys_iff, Dict.mem_keys_iff]
      cases ha : a.get? id with
      | some => exact .inl rfl
      | none =>
        cases hb : b.get? id with
        | some => exact .inr rfl
        | none => simp [ha, hb] at hdiffer
    rw [if_pos ⟨hmem, hdiffer⟩, if_pos hdiffer]
  · rw [if_neg fun h => hdiffer h.2, if_neg hdiffer]

theorem nodup_keys_diffBuckets {diff : Dict EntityId (Option Hash × Option Hash)}
    (h : diff.keys.Nodup) (a b : Dict EntityId Hash) : (diffBuckets diff a b).keys.Nodup := by
  have hfold : ∀ (ids : List EntityId) (diff : Dict EntityId (Option Hash × Option Hash)),
      diff.keys.Nodup → (Dict.keys (ids.foldl (fun diff eid =>
        if a.get? eid ≠ b.get? eid then diff.set eid (a.get? eid, b.get? eid)
        else diff) diff)).Nodup := by
    intro ids
    induction ids with
    | nil => exact fun _ hdiff => hdiff
    | cons eid rest ih =>
      intro diff hdiff
      refine ih _ ?_
      dsimp only
      split
      · exact Dict.nodup_keys_set hdiff _ _
      · exact hdiff
  exact hfold _ _ h

theorem get?_foldl_diffBuckets {first second : Dict EntityId Hash}
    {buckets buckets' : TriePath → Dict EntityId Hash} (paths : List TriePath)
    (hfirst : ∀ path ∈ paths, ∀ id, (buckets path).get? id =
      if cfg.leafPath id = path then first.get? id else none)
    (hsecond : ∀ path ∈ paths, ∀ id, (buckets' path).get? id =
      if cfg.leafPath id = path then second.get? id else none)
    (diff : Dict EntityId (Option Hash × Option Hash)) (id : EntityId) :
    Dict.get? (paths.foldl (fun diff path => diffBuckets diff (buckets path) (buckets' path))
        diff) id =
      if cfg.leafPath id ∈ paths ∧ first.get? id ≠ second.get? id then
        some (first.get? id, second.get? id)
      else diff.get? id := by
  induction paths generalizing diff with
  | nil => simp
  | cons path rest ih =>
    rw [List.foldl_cons, ih (fun p hp => hfirst p (by simp [hp]))
      (fun p hp => hsecond p (by simp [hp])), get?_diffBuckets, hfirst path (by simp),
      hsecond path (by simp)]
    by_cases hpath : cfg.leafPath id = path
    · by_cases hdiffer : first.get? id = second.get? id <;> simp [hpath, hdiffer]
    · simp [hpath]

theorem leafPath_mem_changedLeafPaths {tree other : MerkleTree} {live live' : Dict EntityId Hash}
    (h : Represents cfg tree live) (h' : Represents cfg other live') {used : Set (List Bytes)}
    (hused : cfg.CollisionFree used) (hlive : ∀ parts, cfg.Encodes live parts → parts ∈ used)
    (hlive' : ∀ parts, cfg.Encodes live' parts → parts ∈ used) {id : EntityId}
    (hid : live.get? id ≠ live'.get? id) :
    cfg.leafPath id ∈ changedLeafPaths cfg tree other := by
  refine mem_differingLeaves.mpr ⟨cfg.leafPath id, rfl, cfg.length_leafPath id,
    fun digit _ => mem_nibbles digit, fun n hn => ?_⟩
  have hlength : ((cfg.leafPath id).take n).length = n := by simpa using hn
  have hne := MerkleConfig.hashOf_ne_of_get?_ne hused hlive hlive' hid hn
  rw [List.nil_append, h.nodes _ (by omega), h'.nodes _ (by omega), hlength]
  exact hne

/-- Two trees' diff lists exactly the ids their maps differ on. -/
theorem get?_changedEntities {tree other : MerkleTree} {live live' : Dict EntityId Hash}
    (h : Represents cfg tree live) (h' : Represents cfg other live') {used : Set (List Bytes)}
    (hused : cfg.CollisionFree used) (hlive : ∀ parts, cfg.Encodes live parts → parts ∈ used)
    (hlive' : ∀ parts, cfg.Encodes live' parts → parts ∈ used) (id : EntityId) :
    (changedEntities cfg tree other).get? id =
      if live.get? id = live'.get? id then none else some (live.get? id, live'.get? id) := by
  rw [changedEntities, get?_foldl_diffBuckets _ (fun path _ => h.buckets path)
    (fun path _ => h'.buckets path)]
  by_cases hid : live.get? id = live'.get? id
  · simp [hid]
  · have hmem := leafPath_mem_changedLeafPaths h h' hused hlive hlive' hid
    simp [hid, hmem]

/-- Every sequence of updates from the empty tree: the root is that of the tree
built at once from the resulting map; histories that leave the same map have the
same root; and where the hash has no collision among the encodings of the two
trees, different maps have different roots and the diff lists exactly the ids
at which they differ. -/
theorem incremental_eq_rebuilt (cfg : MerkleConfig)
    (history history' : List (Dict EntityId (Option Hash))) :
    root cfg (runTree cfg history) = root cfg (build cfg (runLive history)) ∧
    ((∀ id, (runLive history).get? id = (runLive history').get? id) →
      root cfg (runTree cfg history) = root cfg (runTree cfg history')) ∧
    (cfg.CollisionFree {parts | cfg.Encodes (runLive history) parts ∨
        cfg.Encodes (runLive history') parts} →
      ((∃ id, (runLive history).get? id ≠ (runLive history').get? id) →
        root cfg (runTree cfg history) ≠ root cfg (runTree cfg history')) ∧
      ∀ id, (changedEntities cfg (runTree cfg history) (runTree cfg history')).get? id =
        if (runLive history).get? id = (runLive history').get? id then none
        else some ((runLive history).get? id, (runLive history').get? id)) := by
  have h := represents_runTree cfg history
  have h' := represents_runTree cfg history'
  refine ⟨?_, fun hsame => ?_, fun hused => ⟨?_, fun id => ?_⟩⟩
  · rw [h.root_eq, (represents_build cfg _).root_eq]
  · rw [h.root_eq, h'.root_eq, MerkleConfig.hashOf_congr hsame]
  · rintro ⟨id, hid⟩
    rw [h.root_eq, h'.root_eq]
    have hne := MerkleConfig.hashOf_ne_of_get?_ne hused (fun _ => .inl) (fun _ => .inr) hid
      (Nat.zero_le _)
    simpa using hne
  · exact get?_changedEntities h h' hused (fun _ => .inl) (fun _ => .inr) id

/-- One level of buckets and the digests of the two trees that bind `"a"` to
`"1"` and to `"2"`, the leaves told apart by their last byte and the nodes by
the first digit of their third child. -/
def sampleConfig : MerkleConfig where
  hexdigest bytes :=
    if bytes.length = 18 then
      if bytes.getLast? = some 49 then
        "3f929a49758139636954e86baa4dfd18eda5c508e78016ce0e5115feec9c0b6d"
      else "8a48d878d650c3d2b351d3f328468e131db3f01883c1c754deb51f92d266489a"
    else if bytes[152]? = some 51 then
      "c79f5748f32ef4842787972541b1d73577e3da20de8b5a34d0ed54ab966d6e0f"
    else "466abc96784fec1b40194f6eaf1831cf0aa054499a260259e04ed7485a9e9fda"
  digestLength := 64
  length_hexdigest bytes := by split_ifs <;> decide +kernel
  bucketDigest id :=
    if id = "a" then
      [2, 7, 12, 3, 5, 14, 6, 14, 9, 3, 7, 3, 8, 7, 7, 15, 2, 9, 14, 5, 6, 2, 4, 6, 4, 14, 4, 6, 4,
        9,
        7, 14]
    else List.replicate 32 0
  depth := 1
  depth_le id := by split_ifs <;> simp

/-- The child digests of the root over the one bucket of `"a"`. -/
def sampleChildren (hash : Hash) : List Hash :=
  nibbles.map fun idx =>
    if idx = 2 then sampleConfig.hashParts [encode "a", encode hash] else sampleConfig.emptyHash

/-- What the tree that binds only `"a"` feeds to the hash. -/
theorem encodes_sample {hash : Hash} {parts : List Bytes}
    (h : sampleConfig.Encodes [("a", hash)] parts) :
    parts = [encode "a", encode hash] ∨ parts = (sampleChildren hash).map encode := by
  have hpath : sampleConfig.leafPath "a" = [2] := by decide
  have hbucket : ∀ path, sampleConfig.bucketOf [("a", hash)] path =
      if path = [2] then [("a", hash)] else [] := by
    intro path
    by_cases hp : path = [2]
    · simp [MerkleConfig.bucketOf, hpath, hp]
    · simp [MerkleConfig.bucketOf, hpath, hp, Ne.symm hp]
  have hsorted : Dict.sorted [("a", hash)] = [("a", hash)] := rfl
  cases h with
  | leaf path hlength hne =>
    rw [hbucket] at hne ⊢
    by_cases hp : path = [2]
    · rw [if_pos hp]
      exact .inl rfl
    · simp [hp] at hne
  | node path levels hlength hchild =>
    have hdepth : sampleConfig.depth = 1 := rfl
    obtain ⟨rfl, rfl⟩ : path = [] ∧ levels = 0 := by
      exact ⟨List.length_eq_zero_iff.mp (by omega), by omega⟩
    refine .inr (congrArg (List.map encode) (List.map_congr_left fun idx _ => ?_))
    rw [treeHash, MerkleConfig.leafOf, List.nil_append, hbucket]
    by_cases hidx : idx = 2
    · rw [if_pos (by rw [hidx]), if_pos hidx, MerkleConfig.leafHash, if_neg (by simp),
        MerkleConfig.leafParts, hsorted]
      rfl
    · rw [if_neg (by simpa using hidx), if_neg hidx]
      rfl

/-- The four part lists have four digests, none of them the empty one. -/
theorem collisionFree_sample : sampleConfig.CollisionFree
    {parts | sampleConfig.Encodes [("a", "1")] parts ∨
      sampleConfig.Encodes [("a", "2")] parts} := by
  have hleaf : sampleConfig.hashParts [encode "a", encode "1"] =
      "3f929a49758139636954e86baa4dfd18eda5c508e78016ce0e5115feec9c0b6d" := by decide +kernel
  have hleaf' : sampleConfig.hashParts [encode "a", encode "2"] =
      "8a48d878d650c3d2b351d3f328468e131db3f01883c1c754deb51f92d266489a" := by decide +kernel
  have hnode : sampleConfig.hashParts ((sampleChildren "1").map encode) =
      "c79f5748f32ef4842787972541b1d73577e3da20de8b5a34d0ed54ab966d6e0f" := by decide +kernel
  have hnode' : sampleConfig.hashParts ((sampleChildren "2").map encode) =
      "466abc96784fec1b40194f6eaf1831cf0aa054499a260259e04ed7485a9e9fda" := by decide +kernel
  have hempty : sampleConfig.emptyHash =
      "0000000000000000000000000000000000000000000000000000000000000000" := by decide +kernel
  constructor
  · intro first hfirst second hsecond heq
    rcases hfirst with hfirst | hfirst <;> rcases encodes_sample hfirst with rfl | rfl <;>
      rcases hsecond with hsecond | hsecond <;> rcases encodes_sample hsecond with rfl | rfl <;>
      first
      | rfl
      | simp [hleaf, hleaf', hnode, hnode'] at heq
  · intro parts hparts
    rcases hparts with hparts | hparts <;> rcases encodes_sample hparts with rfl | rfl <;>
      simp [hleaf, hleaf', hnode, hnode', hempty]

/-- Rebinding one id changes the root, and the diff shows both hashes. -/
theorem incremental_eq_rebuilt_rebound :
    root sampleConfig (runTree sampleConfig [[("a", some "1")]]) ≠
      root sampleConfig (runTree sampleConfig [[("a", some "1")], [("a", some "2")]]) ∧
    (changedEntities sampleConfig (runTree sampleConfig [[("a", some "1")]])
      (runTree sampleConfig [[("a", some "1")], [("a", some "2")]])).get? "a" =
        some (some "1", some "2") := by
  have hlive : runLive [[("a", some "1")]] = [("a", "1")] := by decide +kernel
  have hlive' : runLive [[("a", some "1")], [("a", some "2")]] = [("a", "2")] := by
    decide +kernel
  obtain ⟨-, -, hdiffer⟩ := incremental_eq_rebuilt sampleConfig [[("a", some "1")]]
    [[("a", some "1")], [("a", some "2")]]
  rw [hlive, hlive'] at hdiffer
  obtain ⟨hroot, hget⟩ := hdiffer collisionFree_sample
  refine ⟨hroot ⟨"a", by decide⟩, ?_⟩
  rw [hget]
  decide

end MerkleTree

end DataViz.Versioning
