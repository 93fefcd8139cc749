/-
# What the draft changed wins

The layers and placements of a promoted layout, key by key, and what promoting again does. A rule of
a layer that names an entity places it whenever the layout is read: promoting again places what such
a rule names and nothing else does, and changes nothing else.
-/

import DataViz.View.LayoutPromote
import DataViz.View.PortableLaws

namespace DataViz.View.Promote

open Dict

open List Option Dict

open Json

section

variable {f p d : Option Json}

theorem pick_self : pick f p f = p :=
  if_pos (EqBy?.refl f)

/-- What the draft left alone is the published value. -/
theorem pick_of_same (same : PyEq? d f) : pick f p d = p :=
  if_pos same

/-- What the draft changed is the draft's. -/
theorem pick_of_changed (changed : ¬PyEq? d f) : pick f p d = d :=
  if_neg changed

/-- A key that neither side has is gone. -/
theorem pick_none : pick f none none = none := by
  rw [pick, ite_self]

/-- Where nothing else was published, the draft stays. -/
theorem pyEq_pick_base : PyEq? (pick f f d) d := by
  by_cases same : PyEq? d f
  · rw [pick_of_same same]
    exact same.symm
  · rw [pick_of_changed same]

theorem pick_eq_or : pick f p d = p ∨ pick f p d = d := by
  by_cases same : PyEq? d f
  · exact .inl (pick_of_same same)
  · exact .inr (pick_of_changed same)

end

section

variable {layers f p d : List Json} {id : Scalar} {layer : Json}

theorem keyOf_of_get?_keyed (found : (keyed layers).get? id = some layer) :
    keyOf layer = some id ∧ layer ∈ layers := by
  obtain ⟨other, mem, same⟩ := mem_filterMap.mp (mem_of_get? found)
  obtain ⟨id', key, pair⟩ := map_eq_some_iff.mp same
  obtain ⟨rfl, rfl⟩ := Prod.mk.inj pair
  exact ⟨key, mem⟩

theorem keyOf_of_get?_layersById (found : (layersById layers).get? id = some layer) :
    keyOf layer = some id ∧ layer ∈ layers :=
  keyOf_of_get?_keyed (get?_firsts.symm.trans found)

theorem get?_emitted (merged : Scalar → Option Json) (layers : List Json) :
    (emitted merged layers).get? id = if id ∈ (keyed layers).keys then merged id else none := by
  have all : emitted merged layers = Dict.ofKeys (keyed layers).keys merged := by
    rw [Dict.ofKeys, Dict.keys, filterMap_map]
    rfl
  rw [all, get?_ofKeys]

theorem mergedLayer_eq_none (fresh : id ∉ (layersById d).keys) (other : id ∉ (layersById p).keys) :
    mergedLayer f p d id = none := by
  rw [mergedLayer, get?_eq_none_iff.mpr fresh, get?_eq_none_iff.mpr other, pick_none]

theorem keyOf_mergedLayer (found : mergedLayer f p d id = some layer) :
    keyOf layer = some id ∧ (layer ∈ p ∨ layer ∈ d) := by
  rcases pick_eq_or (f := (layersById f).get? id) (p := (layersById p).get? id)
    (d := (layersById d).get? id) with picked | picked
  · have own := keyOf_of_get?_layersById (picked.symm.trans found)
    exact ⟨own.1, .inl own.2⟩
  · have own := keyOf_of_get?_layersById (picked.symm.trans found)
    exact ⟨own.1, .inr own.2⟩

/-- The ids of the merged layers: those of the draft in its order, then those only published. -/
def promotedIds (f p d : List Json) : List Scalar :=
  let stays (id : Scalar) : Bool := (mergedLayer f p d id).isSome
  (layersById d).keys.filter stays ++
    ((layersById p).keys.filter stays).filter (· ∉ (layersById d).keys)

theorem mem_promotedIds : id ∈ promotedIds f p d ↔ (mergedLayer f p d id).isSome := by
  rw [promotedIds, mem_append, mem_filter, mem_filter, mem_filter]
  constructor
  · rintro (⟨-, stays⟩ | ⟨⟨-, stays⟩, -⟩) <;> exact stays
  · intro stays
    by_cases own : id ∈ (layersById d).keys
    · exact .inl ⟨own, stays⟩
    · by_cases other : id ∈ (layersById p).keys
      · exact .inr ⟨⟨other, stays⟩, decide_eq_true own⟩
      · rw [mergedLayer_eq_none own other] at stays
        cases stays

theorem nodup_promotedIds : (promotedIds f p d).Nodup := by
  refine (nodup_keys_firsts.filter _).append
    ((nodup_keys_firsts.filter _).filter _) fun id here later => ?_
  exact of_decide_eq_true (mem_filter.mp later).2 (mem_filter.mp here).1

/-- The merged layers are the layers of the promoted ids, in their order. -/
theorem mergeKeyed_eq : mergeKeyed f p d =
    (promotedIds f p d).map fun id => (mergedLayer f p d id).getD .null := by
  have stays (layers : List Json) : (Dict.firsts (emitted (mergedLayer f p d) layers)).keys =
      (layersById layers).keys.filter fun id => (mergedLayer f p d id).isSome :=
    keys_firsts_filterMap _ _
  have keys : (Dict.firsts (emitted (mergedLayer f p d) d ++ emitted (mergedLayer f p d) p ++
      emitted (mergedLayer f p d) f)).keys = promotedIds f p d := by
    rw [keys_firsts_append, keys_firsts_append, stays, stays, stays]
    have first : (layersById d).keys.filter (fun id => (mergedLayer f p d id).isSome) ++
        ((layersById p).keys.filter fun id => (mergedLayer f p d id).isSome).filter
          (· ∉ (layersById d).keys.filter fun id => (mergedLayer f p d id).isSome) =
        promotedIds f p d := by
      congr 1
      refine filter_congr fun id mem => ?_
      rw [mem_filter] at mem
      simp only [mem_filter, mem.2, and_true]
    rw [first]
    refine (congrArg _ (filter_eq_nil_iff.mpr fun id mem => ?_)).trans (append_nil _)
    rw [mem_filter] at mem
    simpa using mem_promotedIds.mpr mem.2
  rw [mergeKeyed, map_snd_eq nodup_keys_firsts .null, keys]
  refine map_congr_left fun id mem => ?_
  have found := mem_promotedIds.mp mem
  rw [get?_firsts, get?_append, get?_append, get?_emitted, get?_emitted]
  have listed : id ∈ (keyed d).keys ∨ id ∈ (keyed p).keys := by
    by_contra neither
    rw [not_or] at neither
    rw [mergedLayer_eq_none (mt mem_keys_firsts.mp neither.1)
      (mt mem_keys_firsts.mp neither.2)] at found
    cases found
  obtain ⟨layer, here⟩ := isSome_iff_exists.mp found
  rw [here]
  rcases listed with own | other
  · rw [if_pos own, some_or, some_or]
  · split
    · rw [some_or, some_or]
    · rw [none_or, some_or]

theorem mergeLayers_eq : mergeLayers f p d = (promotedIds f p d).mapIdx fun index id =>
    setOrder index ((mergedLayer f p d id).getD .null) := by
  rw [mergeLayers, mergeKeyed_eq]
  refine ext_getElem? fun index => ?_
  rw [getElem?_mapIdx, getElem?_mapIdx, getElem?_map, Option.map_map]
  rfl

theorem layerId_setOrder (index : ℕ) (layer : Json) :
    layerId (setOrder index layer) = layerId layer := by
  cases layer with
  | obj fields =>
    show ((Dict.set fields "order" _).get? "id").filter _ = (Dict.get? fields "id").filter _
    rw [get?_set_ne (by decide)]
  | _ => rfl

theorem keyOf_setOrder (index : ℕ) (layer : Json) : keyOf (setOrder index layer) = keyOf layer := by
  rw [keyOf, layerId_setOrder, keyOf]

theorem setOrder_setOrder (index : ℕ) (layer : Json) :
    setOrder index (setOrder index layer) = setOrder index layer := by
  cases layer with
  | obj fields => exact congrArg Json.obj (set_of_get? (get?_set_self _ _ _))
  | _ => rfl

theorem keys_mapIdx (ids : List Scalar) (value : ℕ → Scalar → Json) :
    Dict.keys (ids.mapIdx fun index id => (id, value index id)) = ids := by
  refine ext_getElem? fun index => ?_
  rw [Dict.keys, getElem?_map, getElem?_mapIdx, Option.map_map]
  exact map_id' ..

theorem keyed_mergeLayers : keyed (mergeLayers f p d) = (promotedIds f p d).mapIdx fun index id =>
      (id, setOrder index ((mergedLayer f p d id).getD .null)) := by
  rw [mergeLayers_eq, keyed]
  generalize ids : promotedIds f p d = some_
  have own : ∀ id ∈ some_, keyOf ((mergedLayer f p d id).getD .null) = some id := by
    intro id mem
    obtain ⟨layer, found⟩ := isSome_iff_exists.mp (mem_promotedIds.mp (ids ▸ mem))
    rw [found]
    exact (keyOf_mergedLayer found).1
  clear ids
  induction some_ using reverseRecOn with
  | nil => rfl
  | append_singleton front id ih =>
    rw [mapIdx_concat, mapIdx_concat, filterMap_append,
      ih fun id mem => own id (mem_append_left _ mem), filterMap_cons, keyOf_setOrder,
      own id (mem_append_right _ (mem_singleton_self id))]
    rfl

theorem layersById_mergeLayers : layersById (mergeLayers f p d) =
    (promotedIds f p d).mapIdx fun index id =>
      (id, setOrder index ((mergedLayer f p d id).getD .null)) := by
  rw [← keyed_mergeLayers]
  refine firsts_of_nodup ?_
  rw [keyed_mergeLayers, keys_mapIdx]
  exact nodup_promotedIds

theorem keys_layersById_mergeLayers :
    (layersById (mergeLayers f p d)).keys = promotedIds f p d := by
  rw [layersById_mergeLayers, keys_mapIdx]

theorem get?_layersById_mergeLayers {index : ℕ} (here : (promotedIds f p d)[index]? = some id) :
    (layersById (mergeLayers f p d)).get? id =
      some (setOrder index ((mergedLayer f p d id).getD .null)) := by
  refine get?_of_mem nodup_keys_firsts ?_
  rw [layersById_mergeLayers, mem_mapIdx]
  obtain ⟨bound, rfl⟩ := List.getElem?_eq_some_iff.mp here
  exact ⟨index, bound, rfl⟩

/-- Promoting the same draft again changes no layer. -/
theorem mergeLayers_again : mergeLayers f (mergeLayers f p d) d = mergeLayers f p d := by
  have stays (id : Scalar) : (mergedLayer f (mergeLayers f p d) d id).isSome =
      (mergedLayer f p d id).isSome := by
    by_cases same : PyEq? ((layersById d).get? id) ((layersById f).get? id)
    · rw [mergedLayer, pick_of_same same, Bool.eq_iff_iff, ← mem_keys_iff,
        keys_layersById_mergeLayers, mem_promotedIds]
    · rw [mergedLayer, pick_of_changed same, mergedLayer, pick_of_changed same]
  have ids : promotedIds f (mergeLayers f p d) d = promotedIds f p d := by
    rw [promotedIds]
    simp only [stays]
    rw [keys_layersById_mergeLayers, promotedIds]
    congr 1
    rw [filter_append, filter_append]
    refine (congrArg (· ++ _) (filter_eq_nil_iff.mpr fun id mem => ?_)).trans ?_
    · have own := mem_of_mem_filter (mem_of_mem_filter mem)
      simpa using own
    · rw [nil_append, List.filter_filter, List.filter_filter, List.filter_filter,
        List.filter_filter]
      refine filter_congr fun id _ => ?_
      cases (mergedLayer f p d id).isSome <;> simp
  refine mergeLayers_eq.trans (Eq.trans ?_ mergeLayers_eq.symm)
  rw [ids]
  refine ext_getElem? fun index => ?_
  rw [getElem?_mapIdx, getElem?_mapIdx]
  cases here : (promotedIds f p d)[index]? with
  | none => rfl
  | some id =>
    refine congrArg some ?_
    show setOrder index ((mergedLayer f (mergeLayers f p d) d id).getD .null) =
      setOrder index ((mergedLayer f p d id).getD .null)
    by_cases same : PyEq? ((layersById d).get? id) ((layersById f).get? id)
    · rw [mergedLayer, pick_of_same same, get?_layersById_mergeLayers here, getD_some,
        setOrder_setOrder]
    · rw [mergedLayer, pick_of_changed same, mergedLayer, pick_of_changed same]

end

section

variable {f p d : Dict String Entry} {urn : String}

/-- Assignments are merged urn by urn. -/
theorem get?_mergeAssignments : (mergeAssignments f p d).get? urn = mergedAssignment f p d urn := by
  rw [mergeAssignments, get?_ofKeys]
  split
  · rfl
  · next absent =>
      rw [mem_dedup, mem_append, mem_append, not_or, not_or,
        ← get?_eq_none_iff, ← get?_eq_none_iff, ← get?_eq_none_iff] at absent
      obtain ⟨⟨-, published⟩, draft⟩ := absent
      rw [mergedAssignment, published, draft]
      exact pick_none.symm

theorem all_mergeAssignments_iff (test : Json → Bool) :
    ((mergeAssignments f p d).all fun entry => test entry.2) = true ↔
      ∀ urn entry, mergedAssignment f p d urn = some entry → test entry = true := by
  have distinct : (mergeAssignments f p d).keys.Nodup :=
    (keys_ofKeys_sublist _ _).nodup (nodup_dedup _)
  rw [List.all_eq_true]
  constructor
  · intro all urn entry found
    exact all (urn, entry) (mem_of_get? (get?_mergeAssignments.trans found))
  · intro all entry mem
    exact all entry.1 entry.2 (get?_mergeAssignments.symm.trans (get?_of_mem distinct mem))

theorem placed_mergeLayers {f p d : List Json} (entry : Json) :
    placed (mergeLayers f p d) entry = (entryLayer entry).any (· ∈ promotedIds f p d) := by
  have listed (id : Scalar) : some id ∈ (mergeLayers f p d).map keyOf ↔ id ∈ promotedIds f p d := by
    rw [← keys_layersById_mergeLayers, layersById, mem_keys_firsts, Dict.keys, keyed,
      map_filterMap, mem_filterMap, List.mem_map]
    refine exists_congr fun layer => and_congr_right fun _ => ?_
    rw [Option.map_map]
    exact Iff.of_eq (congrArg (· = some id) (Option.map_id' ..).symm)
  rw [placed]
  simp only [listed]

end

section

variable {layer : Json} {urn : String} {entry : Entry}

structure Clean (layer : Json) : Prop where
  stripped : stripLayer layer = layer
  readable : layerReadable layer

theorem Clean.setOrder (clean : Clean layer) (index : ℕ) : Clean (setOrder index layer) where
  stripped := by
    cases layer with
    | obj fields =>
      refine congrArg Json.obj (filter_eq_self.mpr fun field mem => ?_)
      rcases eq_or_mem_of_mem_set mem with rfl | mem
      · exact decide_eq_true (by decide : "order" ≠ "entityAssignments")
      · exact filter_eq_self.mp (Json.obj.inj clean.stripped) field mem
    | _ => rfl
  readable := by
    have held := clean.readable
    cases layer with
    | obj fields =>
      have other (key : String) (ne : "order" ≠ key) :
          Dict.get? (Dict.set fields "order" (.int index)) key = Dict.get? fields key :=
        get?_set_ne ne _ _
      show layerReadable (.obj (Dict.set fields "order" (.int index)))
      rw [layerReadable] at held ⊢
      simp only [fieldsOf, other "entityAssignments" (by decide), other "rules" (by decide),
        other "logicalNodes" (by decide)] at held ⊢
      exact held
    | _ => exact held

theorem clean_of_readLayout {layout : Json} {read : ReferenceLayout}
    (here : readLayout layout = some read) (mem : layer ∈ read.layers) : Clean layer := by
  obtain ⟨raw, -, parsed⟩ := bind_eq_some_iff.mp here
  split at parsed
  · next readable =>
      obtain rfl := some.inj parsed
      obtain ⟨old, listed, rfl⟩ := mem_map.mp mem
      exact ⟨stripLayer_stripLayer old,
        layerReadable_stripLayer (all_eq_true.mp readable old listed)⟩
  · cases parsed

/-- Reading what is written back: its layers, and its placements before those that rules make. -/
theorem readLayout_toJson {layout : Layout} (clean : ∀ layer ∈ layout.layers, Clean layer) :
    ∃ read, readLayout layout.toJson = some read ∧ read.layers = layout.layers ∧
      ∀ urn, read.assignments.get? urn = ((layout.assignments.get? urn).bind fieldsOf).or
        (Dict.get? (layout.layers.flatMap layerRuleClaims) urn) := by
  let raw : Dict String Json :=
    [("layers", .arr layout.layers), ("assignments", .obj layout.assignments)]
  have layers : listOf (raw.get? "layers") = layout.layers := by
    rw [get?_cons_self]
    rfl
  have stored : raw.get? "assignments" = some (.obj layout.assignments) := by
    rw [get?_cons_ne (by decide), get?_cons_self]
  have read : readable raw := by
    rw [readable, layers, List.all_eq_true]
    exact fun layer mem => (clean layer mem).readable
  refine ⟨normalize raw, if_pos read, ?_, fun urn => ?_⟩
  · show (listOf (raw.get? "layers")).map stripLayer = _
    rw [layers]
    exact (map_congr_left fun layer mem => (clean layer mem).stripped).trans (map_id _)
  · rw [get?_normalize, placedBy, get?_storedAssignments stored, claimsOf, layers]
    congr 2
    refine flatMap_congr fun layer mem => ?_
    rw [layerClaims_eq, ← (clean layer mem).stripped, layerEntityClaims_stripLayer, nil_append]

theorem entryLayer_of_rule {id : Scalar} (key : keyOf layer = some id)
    (mem : (urn, entry) ∈ layerRuleClaims layer) : entryLayer (.obj entry) = some id := by
  have rule (layerId : Json) (node : Option Json) :
      getOrNull (ruleEntry layerId node) "layerId" = layerId := by
    cases node <;> simp [getOrNull, ruleEntry]
  obtain ⟨value, named, hashed'⟩ := bind_eq_some_iff.mp key
  cases layer with
  | obj fields =>
    have here : getOrNull fields "id" = value := by
      obtain ⟨found, -⟩ := filter_eq_some_iff.mp named
      rw [getOrNull, show Dict.get? fields "id" = some value from found, getD_some]
    have own (node : Option Json) :
        entryLayer (.obj (ruleEntry (getOrNull fields "id") node)) = some id := by
      show hashed (getOrNull (ruleEntry (getOrNull fields "id") node) "layerId") = some id
      rw [rule, here, hashed']
    rcases mem_append.mp mem with mem | mem
    · obtain ⟨_, -, same⟩ := mem_map.mp mem
      exact (Prod.mk.inj same).2 ▸ own none
    · obtain ⟨node, -, same⟩ := mem_map.mp mem
      exact (Prod.mk.inj same).2 ▸ own (some node.2)
  | _ => cases mem

end

section

variable {f p d : ReferenceLayout}

/-- What a promoted layout holds: under each id and urn what the draft has where it differs from the
fork, and what is published elsewhere; the draft's layers first, numbered; and of the placements
those in a layer that is there. -/
structure DraftWins (f p d : ReferenceLayout) (layout : Layout) : Prop where
  layers : layout.layers = (promotedIds f.layers p.layers d.layers).mapIdx fun index id =>
    setOrder index ((mergedLayer f.layers p.layers d.layers id).getD .null)
  ids : layout.layers.map keyOf = (promotedIds f.layers p.layers d.layers).map some
  distinct : (promotedIds f.layers p.layers d.layers).Nodup
  survives : ∀ id, id ∈ promotedIds f.layers p.layers d.layers ↔
    (mergedLayer f.layers p.layers d.layers id).isSome
  numbered : ∀ (index : ℕ) layer, layout.layers[index]? = some layer →
    (fieldsOf layer).bind (fun fields => fields.get? "order") = some (.int index)
  assignments : ∀ urn, layout.assignments.get? urn =
    (mergedAssignment f.assignments p.assignments d.assignments urn).filter fun entry =>
      (entryLayer entry).any (· ∈ promotedIds f.layers p.layers d.layers)

theorem get?_assignments_promote (urn : String) : (promote f p d).assignments.get? urn =
    (mergedAssignment f.assignments p.assignments d.assignments urn).filter fun entry =>
      (entryLayer entry).any (· ∈ promotedIds f.layers p.layers d.layers) := by
  rw [promote]
  rw [pruneOrphanAssignments, get?_filter_items, get?_mergeAssignments]
  exact congrArg (Option.filter · _) (funext placed_mergeLayers)

theorem exists_of_getElem?_mergeLayers {f p d : List Json} {index : ℕ} {layer : Json}
    (here : (mergeLayers f p d)[index]? = some layer) : ∃ id merged,
      (promotedIds f p d)[index]? = some id ∧ mergedLayer f p d id = some merged ∧
        layer = setOrder index merged := by
  rw [mergeLayers_eq, getElem?_mapIdx] at here
  obtain ⟨id, listed, rfl⟩ := map_eq_some_iff.mp here
  obtain ⟨merged, found⟩ :=
    isSome_iff_exists.mp (mem_promotedIds.mp (mem_of_getElem? listed))
  exact ⟨id, merged, listed, found, by rw [found, getD_some]⟩

/-- A promotion meets the draft-wins law, layer by layer and urn by urn. -/
theorem draftWins_promote : DraftWins f p d (promote f p d) where
  layers := mergeLayers_eq
  ids := by
    refine ext_getElem? fun index => ?_
    rw [getElem?_map, getElem?_map]
    show ((mergeLayers f.layers p.layers d.layers)[index]?).map keyOf = _
    rw [mergeLayers_eq, getElem?_mapIdx]
    cases here : (promotedIds f.layers p.layers d.layers)[index]? with
    | none => rfl
    | some id =>
      obtain ⟨merged, found⟩ :=
        isSome_iff_exists.mp (mem_promotedIds.mp (mem_of_getElem? here))
      refine congrArg some ?_
      show keyOf (setOrder index ((mergedLayer _ _ _ id).getD .null)) = some id
      rw [found, keyOf_setOrder]
      exact (keyOf_mergedLayer found).1
  distinct := nodup_promotedIds
  survives _ := mem_promotedIds
  numbered index layer here := by
    obtain ⟨id, merged, -, found, rfl⟩ := exists_of_getElem?_mergeLayers here
    cases merged with
    | obj fields => exact get?_set_self _ _ _
    | _ => cases (keyOf_mergedLayer found).1
  assignments := get?_assignments_promote

/-- The placement that promoting again adds: that of an entity that has none, that the draft left as
it was in the fork and that a rule of a merged layer names. -/
def reclaimed (f p d : ReferenceLayout) (urn : String) : Option Json :=
  if PyEq? ((d.assignments.get? urn).map .obj) ((f.assignments.get? urn).map .obj) then
    (Dict.get? ((promote f p d).layers.flatMap layerRuleClaims) urn).map .obj
  else none

/-- A promoted layout needs no further cleaning. -/
theorem clean_promote (cleanP : ∀ layer ∈ p.layers, Clean layer)
    (cleanD : ∀ layer ∈ d.layers, Clean layer) :
    ∀ layer ∈ (promote f p d).layers, Clean layer := by
  intro layer mem
  obtain ⟨index, here⟩ := mem_iff_getElem?.mp mem
  obtain ⟨id, merged, -, found, rfl⟩ := exists_of_getElem?_mergeLayers here
  rcases (keyOf_mergedLayer found).2 with own | own
  · exact (cleanP merged own).setOrder index
  · exact (cleanD merged own).setOrder index

theorem placed_of_rule {urn : String} {entry : Entry}
    (mem : (urn, entry) ∈ (promote f p d).layers.flatMap layerRuleClaims) :
    ∃ id ∈ promotedIds f.layers p.layers d.layers, entryLayer (.obj entry) = some id := by
  obtain ⟨layer, listed, claimed⟩ := mem_flatMap.mp mem
  obtain ⟨index, here⟩ := mem_iff_getElem?.mp listed
  obtain ⟨id, merged, there, found, rfl⟩ := exists_of_getElem?_mergeLayers here
  have key : keyOf (setOrder index merged) = some id := by
    rw [keyOf_setOrder, (keyOf_mergedLayer found).1]
  exact ⟨id, mem_of_getElem? there, entryLayer_of_rule key claimed⟩

/-- Promoting again keeps what was promoted and adds what rules place. -/
theorem get?_assignments_again {again : ReferenceLayout} {urn : String}
    (stored : ∀ urn, again.assignments.get? urn =
      (((promote f p d).assignments.get? urn).bind fieldsOf).or
        (Dict.get? ((promote f p d).layers.flatMap layerRuleClaims) urn)) :
    (mergedAssignment f.assignments again.assignments d.assignments urn).filter (fun entry =>
        (entryLayer entry).any (· ∈ promotedIds f.layers p.layers d.layers)) =
      ((promote f p d).assignments.get? urn).or (reclaimed f p d urn) := by
  have held := get?_assignments_promote (f := f) (p := p) (d := d) urn
  by_cases same : PyEq? ((d.assignments.get? urn).map .obj) ((f.assignments.get? urn).map .obj)
  · rw [mergedAssignment, pick_of_same same, stored, reclaimed, if_pos same]
    rw [mergedAssignment, pick_of_same same] at held
    cases here : (promote f p d).assignments.get? urn with
    | some entry =>
      rw [here] at held
      obtain ⟨found, own⟩ := filter_eq_some_iff.mp held.symm
      obtain ⟨fields, -, rfl⟩ := map_eq_some_iff.mp found
      exact filter_eq_some_iff.mpr ⟨rfl, own⟩
    | none =>
      cases claimed : Dict.get? ((promote f p d).layers.flatMap layerRuleClaims) urn with
      | none => rfl
      | some entry =>
        obtain ⟨id, mem, named⟩ := placed_of_rule (mem_of_get? claimed)
        refine filter_eq_some_iff.mpr ⟨rfl, ?_⟩
        rw [named]
        exact decide_eq_true mem
  · rw [mergedAssignment, pick_of_changed same, reclaimed, if_neg same, or_none, held,
      mergedAssignment, pick_of_changed same]

/-- What is promoted again can be hashed. -/
theorem mergeable_again {again : ReferenceLayout} (before : mergeable f p d)
    (layers : again.layers = (promote f p d).layers)
    (stored : ∀ urn, again.assignments.get? urn =
      (((promote f p d).assignments.get? urn).bind fieldsOf).or
        (Dict.get? ((promote f p d).layers.flatMap layerRuleClaims) urn)) :
    mergeable f again d := by
  let hashedLayer (entry : Json) : Bool := (entryLayer entry).isSome
  simp only [mergeable, Bool.and_eq_true] at before ⊢
  obtain ⟨⟨⟨fork, -⟩, draft⟩, entries⟩ := before
  refine ⟨⟨⟨fork, ?_⟩, draft⟩, (all_mergeAssignments_iff hashedLayer).mpr fun urn entry found => ?_⟩
  · rw [hashable, layers, List.all_eq_true]
    intro layer mem
    obtain ⟨index, here⟩ := mem_iff_getElem?.mp mem
    obtain ⟨id, merged, -, found, rfl⟩ := exists_of_getElem?_mergeLayers here
    obtain ⟨value, named, key⟩ := bind_eq_some_iff.mp (keyOf_mergedLayer found).1
    rw [layerId_setOrder, named, all_some, key]
    rfl
  · by_cases same : PyEq? ((d.assignments.get? urn).map .obj) ((f.assignments.get? urn).map .obj)
    · have held := get?_assignments_promote (f := f) (p := p) (d := d) urn
      rw [mergedAssignment, pick_of_same same, stored] at found
      rw [mergedAssignment, pick_of_same same] at held
      obtain ⟨fields, claimed, rfl⟩ := map_eq_some_iff.mp found
      cases here : (promote f p d).assignments.get? urn with
      | some kept =>
        rw [here] at held claimed
        obtain ⟨old, own⟩ := filter_eq_some_iff.mp held.symm
        obtain ⟨kept, -, rfl⟩ := map_eq_some_iff.mp old
        obtain rfl := some.inj claimed
        cases layer : entryLayer (.obj kept) with
        | none =>
          rw [layer] at own
          cases own
        | some id => exact congrArg isSome layer
      | none =>
        rw [here] at claimed
        obtain ⟨id, -, named⟩ := placed_of_rule (mem_of_get? claimed)
        exact congrArg isSome named
    · rw [mergedAssignment, pick_of_changed same] at found
      refine (all_mergeAssignments_iff hashedLayer).mp entries urn entry ?_
      rw [mergedAssignment, pick_of_changed same, found]

end

section

variable {F P D : Json} {layout : Layout}

theorem mergeLayout3way_eq_some : mergeLayout3way F P D = some layout ↔
    ∃ f p d, readLayout F = some f ∧ readLayout P = some p ∧ readLayout D = some d ∧
      mergeable f p d ∧ promote f p d = layout := by
  rw [mergeLayout3way]
  constructor
  · intro merged
    obtain ⟨f, fork, merged⟩ := bind_eq_some_iff.mp merged
    obtain ⟨p, published, merged⟩ := bind_eq_some_iff.mp merged
    obtain ⟨d, draft, merged⟩ := bind_eq_some_iff.mp merged
    split at merged
    · next can => exact ⟨f, p, d, fork, published, draft, can, some.inj merged⟩
    · cases merged
  · rintro ⟨f, p, d, fork, published, draft, can, rfl⟩
    rw [fork, bind_some, published, bind_some, draft, bind_some, if_pos can]

/-- A promoted layout obeys the draft-wins law; promoting it again adds the placements that rules of
its layers make and changes nothing else; promoting an unchanged draft gives what is published, and
into an unchanged layout what the draft has, but for numbers, repeated ids, the order of the
published layers and placements in layers that are not there. -/
theorem mergeLayout3way_draft_wins (F P D : Json) :
    (∀ layout, mergeLayout3way F P D = some layout → ∃ f p d,
      readLayout F = some f ∧ readLayout P = some p ∧ readLayout D = some d ∧
      DraftWins f p d layout ∧
      ∃ again, mergeLayout3way F layout.toJson D = some again ∧ again.layers = layout.layers ∧
        ∀ urn, again.assignments.get? urn =
          (layout.assignments.get? urn).or (reclaimed f p d urn)) ∧
    (∀ layout, mergeLayout3way F P F = some layout → ∃ p, ∃ ids : List Scalar,
      readLayout P = some p ∧ ids.Perm (layersById p.layers).keys ∧
      layout.layers = ids.mapIdx (fun index id =>
        setOrder index (((layersById p.layers).get? id).getD .null)) ∧
      ∀ urn, layout.assignments.get? urn = ((p.assignments.get? urn).map .obj).filter fun entry =>
          (entryLayer entry).any (· ∈ (layersById p.layers).keys)) ∧
    ∀ layout, mergeLayout3way F F D = some layout → ∃ d, ∃ merged : Scalar → Option Json,
      readLayout D = some d ∧
      (∀ id, PyEq? (merged id) ((layersById d.layers).get? id)) ∧
      layout.layers = (layersById d.layers).keys.mapIdx (fun index id =>
        setOrder index ((merged id).getD .null)) ∧
      ∀ urn, ∃ entry, PyEq? entry ((d.assignments.get? urn).map .obj) ∧
        layout.assignments.get? urn = entry.filter fun entry =>
          (entryLayer entry).any (· ∈ (layersById d.layers).keys) := by
  refine ⟨fun layout merged => ?_, fun layout merged => ?_, fun layout merged => ?_⟩
  · obtain ⟨f, p, d, fork, published, draft, can, rfl⟩ := mergeLayout3way_eq_some.mp merged
    obtain ⟨again, read, layers, stored⟩ := readLayout_toJson
      (clean_promote (f := f) (fun _ => clean_of_readLayout published)
        fun _ => clean_of_readLayout draft)
    have same : (promote f again d).layers = (promote f p d).layers := by
      show mergeLayers f.layers again.layers d.layers = mergeLayers f.layers p.layers d.layers
      rw [layers]
      exact mergeLayers_again
    have ids : promotedIds f.layers again.layers d.layers =
        promotedIds f.layers p.layers d.layers := by
      rw [← keys_layersById_mergeLayers, ← keys_layersById_mergeLayers]
      exact congrArg (fun layers => (layersById layers).keys) same
    refine ⟨f, p, d, fork, published, draft, draftWins_promote, promote f again d, ?_, same,
      fun urn => ?_⟩
    · exact mergeLayout3way_eq_some.mpr
        ⟨f, again, d, fork, read, draft, mergeable_again can layers stored, rfl⟩
    · rw [get?_assignments_promote, ids]
      exact get?_assignments_again stored
  · obtain ⟨f, p, d, fork, published, draft, -, rfl⟩ := mergeLayout3way_eq_some.mp merged
    obtain rfl := some.inj (fork.symm.trans draft)
    have chosen (id : Scalar) : mergedLayer f.layers p.layers f.layers id =
        (layersById p.layers).get? id := pick_self
    have listed (id : Scalar) : id ∈ promotedIds f.layers p.layers f.layers ↔
        id ∈ (layersById p.layers).keys := by
      rw [mem_promotedIds, chosen, Dict.mem_keys_iff]
    refine ⟨p, promotedIds f.layers p.layers f.layers, published, ?_, ?_, fun urn => ?_⟩
    · exact (perm_ext_iff_of_nodup nodup_promotedIds Dict.nodup_keys_firsts).mpr listed
    · refine draftWins_promote.layers.trans ?_
      simp only [chosen]
    · rw [get?_assignments_promote, mergedAssignment, pick_self]
      simp only [listed]
  · obtain ⟨f, p, d, fork, published, draft, -, rfl⟩ := mergeLayout3way_eq_some.mp merged
    obtain rfl := some.inj (fork.symm.trans published)
    have stays (id : Scalar) : (mergedLayer f.layers f.layers d.layers id).isSome =
        ((layersById d.layers).get? id).isSome := by
      have alike : PyEq? (mergedLayer f.layers f.layers d.layers id)
        ((layersById d.layers).get? id) := pyEq_pick_base
      rw [← isSome_map, alike, isSome_map]
    have ids : promotedIds f.layers f.layers d.layers = (layersById d.layers).keys := by
      rw [promotedIds]
      simp only [stays]
      rw [filter_eq_self.mpr fun id mem => Dict.mem_keys_iff.mp mem]
      refine (congrArg _ (filter_eq_nil_iff.mpr fun id mem => ?_)).trans (append_nil _)
      simpa using Dict.mem_keys_iff.mpr (mem_filter.mp mem).2
    refine ⟨d, mergedLayer f.layers f.layers d.layers, draft, fun id => pyEq_pick_base, ?_,
      fun urn => ⟨mergedAssignment f.assignments f.assignments d.assignments urn, pyEq_pick_base,
        ?_⟩⟩
    · rw [← ids]
      exact draftWins_promote.layers
    · rw [get?_assignments_promote, ids]

def layoutOf (layers : List (Dict String Json)) : Json :=
  .obj [("layers", .arr (layers.map .obj))]

/-- A layer whose rule names an entity. -/
def ruledLayer : Dict String Json :=
  [("id", .str "l"), ("rules", .arr [.obj [("urnPattern", .str "u")]])]

/-- The published layer lost its rule and the draft renamed its own: the entity has no placement,
and promoting again places it. Of layers of one id one is kept, and a layer of a list as id
raises. -/
theorem mergeLayout3way_not_idempotent : (∃ layout again,
      mergeLayout3way (layoutOf [ruledLayer]) (layoutOf [[("id", .str "l")]])
        (layoutOf [ruledLayer ++ [("name", .str "n")]]) = some layout ∧
      mergeLayout3way (layoutOf [ruledLayer]) layout.toJson
        (layoutOf [ruledLayer ++ [("name", .str "n")]]) = some again ∧
      layout.assignments.get? "u" = none ∧ (again.assignments.get? "u").isSome) ∧
    (mergeLayout3way (layoutOf []) (layoutOf [[("id", .str "l")], [("id", .str "l")]])
      (layoutOf [])).map (fun layout => layout.layers.length) = some 1 ∧
    (mergeLayout3way (layoutOf []) (layoutOf [[("id", .arr [])]]) (layoutOf [])).isNone := by
  refine ⟨⟨_, _, rfl, rfl, rfl, rfl⟩, by decide, by decide⟩

end

end DataViz.View.Promote
