/-
# The two readers of source rows

Where a urn and a triple each name one live entity, the heads the rows name are
those the whole state indexes, so both readers give a row the same entity and
payload. A row the bounded reader drops says what main holds; it drops it before
it knows which row of its entity comes last.
-/

import DataViz.Versioning.ForkPatchLaws
import DataViz.Versioning.SourceRows

namespace DataViz.Versioning

open List Option Dict

variable {η : Type} {kinds : EntityId → Kind} {history : List (Commit η)} {ours : State}
  {bounded : Bounded} {full : External} {entries : List (EntityId × Payload)}

/-! ## Heads by their columns -/

section

variable [DecidableEq η] {contentHash : Option Payload → η}
variable {store : VersionStore η}
variable {main : BranchKey} {order : SetOrder}

def IsState (history : List (Commit η)) (main : BranchKey) (ours : State) : Prop :=
  ∀ eid, ours.get? eid =
    (lastDelta history (fun commit => commit.branch = main) eid).map Delta.value

theorem mem_headsBy (hrun : Run contentHash history store) (hkinds : KeepsKinds kinds history)
    (hhashed : Hashed contentHash history) (hours : IsState history main ours) (table : Kind)
    {κ : Type} {key : Payload → Option κ} (hkey : key [] = none) {column : κ} {hit : HeadHit η} :
    (column, hit) ∈ headsBy store order main table key ↔
      ∃ p, ours.get? hit.entityId = some (some p) ∧ kinds hit.entityId = table ∧
        hit.contentHash = contentHash (some p) ∧ hit.isTombstone = false ∧
        key p = some column := by
  have hrecords := hrun.records
  rw [headsBy, mem_flatMap]
  constructor
  · rintro ⟨eid, -, hmem⟩
    rw [get?_headIndex] at hmem
    obtain ⟨head, hhead, hmem⟩ := mem_flatMap.mp hmem
    obtain ⟨row, hrow, hpair⟩ := mem_filterMap.mp hmem
    obtain ⟨hrow, hid⟩ := mem_filter.mp hrow
    obtain ⟨column', hcolumn, hpair⟩ := map_eq_some_iff.mp hpair
    obtain ⟨rfl, rfl⟩ := Prod.mk.inj hpair
    obtain ⟨value, hvalue, -, hhash, htomb, row', hrow', hid', hpayload⟩ :=
      headSays_of_get? hrun hkinds hhashed (mem_toList.mp hhead)
    obtain ⟨rfl, rfl⟩ := hrecords.unique _ _ row hrow row' hrow'
      ((of_decide_eq_true hid).trans hid'.symm)
    rw [hpayload] at hcolumn
    cases value with
    | none =>
      rw [getD_none, hkey] at hcolumn
      cases hcolumn
    | some p => exact ⟨p, (hours eid).trans hvalue, rfl, hhash, htomb, hcolumn⟩
  · rintro ⟨p, hlive, rfl, hhash, htomb, hcolumn⟩
    obtain ⟨eid, chash, tomb⟩ := hit
    have hvalue := (hours eid).symm.trans hlive
    obtain ⟨head, hhead⟩ := exists_head hrecords hvalue
    obtain ⟨value, hvalue', -, hhash', htomb', row, hrow, hid, hpayload⟩ :=
      headSays_of_get? hrun hkinds hhashed hhead
    obtain rfl := some.inj (hvalue.symm.trans hvalue')
    have hget : (headIndex store main).get? eid = some head := (get?_headIndex _ _ _).trans hhead
    refine ⟨eid, ?_, mem_flatMap.mpr ⟨head, mem_toList.mpr hget,
      mem_filterMap.mpr ⟨row, mem_filter.mpr ⟨hrow, decide_eq_true hid⟩, ?_⟩⟩⟩
    · rw [(order.perm _ _).mem_iff, mem_dedup, mem_keys_iff, hget]
      rfl
    · rw [hpayload, getD_some, hcolumn, hhash', htomb']
      simp only at hhash htomb
      rw [hhash, htomb]
      rfl

/-- A state in which source rows find what they name: a live entity's payload has the
shape of its kind, an edge's ends are spelled in camel case, a urn names one node and
a triple one edge. -/
structure Matchable (kinds : EntityId → Kind) (ours : State) : Prop where
  named : ∀ p, ours.get? "" ≠ some (some p)
  shape : ∀ eid p, ours.get? eid = some (some p) → (isEdgePayload p = true ↔ kinds eid = .edge)
  ends : ∀ eid p, ours.get? eid = some (some p) → kinds eid = .edge →
    textAt p "sourceEntityId" = some (edgeSrcTgt p).1 ∧
      textAt p "targetEntityId" = some (edgeSrcTgt p).2
  urns : ∀ eid eid' p q urn, ours.get? eid = some (some p) → ours.get? eid' = some (some q) →
    kinds eid = .node → kinds eid' = .node → given p "urn" = some urn → given q "urn" = some urn →
      eid = eid'
  triples : ∀ eid eid' p q, ours.get? eid = some (some p) → ours.get? eid' = some (some q) →
    kinds eid = .edge → kinds eid' = .edge → edgeSrcTgt p = edgeSrcTgt q →
      textAt p "edgeType" = textAt q "edgeType" → textAt p "edgeType" ≠ none → eid = eid'

theorem given_eq_some {row : Payload} {key value : String} :
    given row key = some value ↔ textAt row key = some value ∧ value ≠ "" := by
  rw [given]
  cases textAt row key with
  | none => simp [pyOr]
  | some text =>
    by_cases htext : text = ""
    · simp only [pyOr, htext, if_true, reduceCtorEq, some.injEq, false_iff, not_and, not_not]
      exact Eq.symm
    · simp only [pyOr, htext, if_false, some.injEq]
      exact ⟨fun h => ⟨h, h ▸ htext⟩, And.left⟩

def liveHit (contentHash : Option Payload → η) (eid : EntityId) (p : Payload) : HeadHit η :=
  ⟨eid, contentHash (some p), false⟩

def UrnNames (kinds : EntityId → Kind) (ours : State) (urn : String) (eid : EntityId) : Prop :=
  ∀ eid', eid' = eid ↔
    ∃ p, ours.get? eid' = some (some p) ∧ kinds eid' = .node ∧ given p "urn" = some urn

def TripleNames (kinds : EntityId → Kind) (ours : State) (triple : Triple) (eid : EntityId) :
    Prop :=
  ∀ eid', eid' = eid ↔ ∃ p, ours.get? eid' = some (some p) ∧ kinds eid' = .edge ∧
    edgeSrcTgt p = (triple.1, triple.2.1) ∧ textAt p "edgeType" = some triple.2.2

section

variable (hrun : Run contentHash history store) (hkinds : KeepsKinds kinds history)
  (hhashed : Hashed contentHash history) (hours : IsState history main ours)

include hrun hkinds hhashed hours

variable {hit : HeadHit η} {urn : String} {urns : List String}

theorem get?_headsByUrn_of_one
    (hone : ∀ eid eid' p q, ours.get? eid = some (some p) → ours.get? eid' = some (some q) →
      kinds eid = .node → kinds eid' = .node → given p "urn" = some urn →
        given q "urn" = some urn → eid = eid') :
    (headsByUrn store order main urns).get? urn = some hit ↔
      urn ∈ urns ∧ ∃ p, ours.get? hit.entityId = some (some p) ∧ kinds hit.entityId = .node ∧
        given p "urn" = some urn ∧ hit = liveHit contentHash hit.entityId p := by
  have hmem : ∀ urn hit, (urn, hit) ∈ (headsBy store order main .node
      fun p => textAt p "urn").filter (fun hit => hit.1 ∈ urns.filter (· ≠ "")) ↔
      urn ∈ urns ∧ ∃ p, ours.get? hit.entityId = some (some p) ∧ kinds hit.entityId = .node ∧
        given p "urn" = some urn ∧ hit = liveHit contentHash hit.entityId p := by
    intro urn hit
    rw [mem_filter, mem_headsBy hrun hkinds hhashed hours .node rfl, decide_eq_true_iff,
      mem_filter, decide_eq_true_iff]
    constructor
    · rintro ⟨⟨p, hlive, hkind, hhash, htomb, hurn⟩, hurns, hne⟩
      refine ⟨hurns, p, hlive, hkind, given_eq_some.mpr ⟨hurn, hne⟩, ?_⟩
      obtain ⟨eid, chash, tomb⟩ := hit
      simp only at hhash htomb
      rw [liveHit, hhash, htomb]
    · rintro ⟨hurns, p, hlive, hkind, hurn, hhit⟩
      obtain ⟨hurn, hne⟩ := given_eq_some.mp hurn
      exact ⟨⟨p, hlive, hkind, by rw [hhit, liveHit], by rw [hhit, liveHit], hurn⟩, hurns, hne⟩
  rw [headsByUrn, get?_foldl_pairs, hmem]
  intro hit hit' hhit hhit'
  obtain ⟨-, p, hlive, hkind, hurn, heq⟩ := (hmem urn hit).mp hhit
  obtain ⟨-, q, hlive', hkind', hurn', heq'⟩ := (hmem urn hit').mp hhit'
  have hsame := hone _ _ p q hlive hlive' hkind hkind' hurn hurn'
  rw [hsame, hlive', some.injEq, some.injEq] at hlive
  rw [heq, heq', hsame, hlive]

variable {triple : Triple} {triples : List Triple}

theorem get?_headsByEdgeTriple_of_one
    (hone : ∀ eid eid' p q, ours.get? eid = some (some p) → ours.get? eid' = some (some q) →
      kinds eid = .edge → kinds eid' = .edge → edgeSrcTgt p = (triple.1, triple.2.1) →
        edgeSrcTgt q = (triple.1, triple.2.1) → textAt p "edgeType" = some triple.2.2 →
          textAt q "edgeType" = some triple.2.2 → eid = eid') :
    (headsByEdgeTriple store order main triples).get? triple = some hit ↔
      triple ∈ triples ∧ ∃ p, ours.get? hit.entityId = some (some p) ∧
        kinds hit.entityId = .edge ∧ edgeSrcTgt p = (triple.1, triple.2.1) ∧
        textAt p "edgeType" = some triple.2.2 ∧ hit = liveHit contentHash hit.entityId p := by
  have hmem : ∀ triple hit, (triple, hit) ∈ (headsBy store order main .edge fun p =>
      (textAt p "edgeType").map fun edgeType =>
        ((edgeSrcTgt p).1, (edgeSrcTgt p).2, edgeType)).filter (fun hit => hit.1 ∈ triples) ↔
      triple ∈ triples ∧ ∃ p, ours.get? hit.entityId = some (some p) ∧
        kinds hit.entityId = .edge ∧ edgeSrcTgt p = (triple.1, triple.2.1) ∧
        textAt p "edgeType" = some triple.2.2 ∧ hit = liveHit contentHash hit.entityId p := by
    intro triple hit
    rw [mem_filter, mem_headsBy hrun hkinds hhashed hours .edge rfl, decide_eq_true_iff]
    constructor
    · rintro ⟨⟨p, hlive, hkind, hhash, htomb, hkey⟩, htriples⟩
      obtain ⟨edgeType, htype, rfl⟩ := map_eq_some_iff.mp hkey
      refine ⟨htriples, p, hlive, hkind, rfl, htype, ?_⟩
      obtain ⟨eid, chash, tomb⟩ := hit
      simp only at hhash htomb
      rw [liveHit, hhash, htomb]
    · rintro ⟨htriples, p, hlive, hkind, hends, htype, hhit⟩
      refine ⟨⟨p, hlive, hkind, by rw [hhit, liveHit], by rw [hhit, liveHit], ?_⟩, htriples⟩
      rw [htype, hends]
      rfl
  rw [headsByEdgeTriple, get?_foldl_pairs, hmem]
  intro hit hit' hhit hhit'
  obtain ⟨-, p, hlive, hkind, hends, htype, heq⟩ := (hmem triple hit).mp hhit
  obtain ⟨-, q, hlive', hkind', hends', htype', heq'⟩ := (hmem triple hit').mp hhit'
  have hsame := hone _ _ p q hlive hlive' hkind hkind' hends hends' htype htype'
  rw [hsame, hlive', some.injEq, some.injEq] at hlive
  rw [heq, heq', hsame, hlive]

variable {eid : EntityId}

/-- The head of a node by the urn that names it alone. -/
theorem headsByUrn_of_names
    (hurn : urn ∈ urns) (hnames : UrnNames kinds ours urn eid) :
    ((headsByUrn store order main urns).get? urn).map HeadHit.entityId = some eid := by
  obtain ⟨p, hlive, hkind, hgiven⟩ := (hnames eid).mp rfl
  have hone : ∀ eid eid' p q, ours.get? eid = some (some p) → ours.get? eid' = some (some q) →
      kinds eid = .node → kinds eid' = .node → given p "urn" = some urn →
        given q "urn" = some urn → eid = eid' := fun _ _ p q h h' k k' g g' =>
    ((hnames _).mpr ⟨p, h, k, g⟩).trans ((hnames _).mpr ⟨q, h', k', g'⟩).symm
  have hfound : (headsByUrn store order main urns).get? urn = some (liveHit contentHash eid p) :=
    (get?_headsByUrn_of_one hrun hkinds hhashed hours hone).mpr
      ⟨hurn, p, hlive, hkind, hgiven, rfl⟩
  rw [hfound]
  rfl

/-- The head of an edge by the triple that names it alone. -/
theorem headsByEdgeTriple_of_names
    (htriple : triple ∈ triples) (hnames : TripleNames kinds ours triple eid) :
    ((headsByEdgeTriple store order main triples).get? triple).map HeadHit.entityId = some eid := by
  obtain ⟨p, hlive, hkind, hends, htype⟩ := (hnames eid).mp rfl
  have hone : ∀ eid eid' p q, ours.get? eid = some (some p) → ours.get? eid' = some (some q) →
      kinds eid = .edge → kinds eid' = .edge → edgeSrcTgt p = (triple.1, triple.2.1) →
        edgeSrcTgt q = (triple.1, triple.2.1) → textAt p "edgeType" = some triple.2.2 →
          textAt q "edgeType" = some triple.2.2 → eid = eid' := fun _ _ p q h h' k k' e e' t t' =>
    ((hnames _).mpr ⟨p, h, k, e, t⟩).trans ((hnames _).mpr ⟨q, h', k', e', t'⟩).symm
  have hfound : (headsByEdgeTriple store order main triples).get? triple =
      some (liveHit contentHash eid p) :=
    (get?_headsByEdgeTriple_of_one hrun hkinds hhashed hours hone).mpr
      ⟨htriple, p, hlive, hkind, hends, htype, rfl⟩
  rw [hfound]
  rfl

variable (hmatch : Matchable kinds ours)
include hmatch

theorem get?_headsByUrn :
    (headsByUrn store order main urns).get? urn = some hit ↔
      urn ∈ urns ∧ ∃ p, ours.get? hit.entityId = some (some p) ∧ kinds hit.entityId = .node ∧
        given p "urn" = some urn ∧ hit = liveHit contentHash hit.entityId p :=
  get?_headsByUrn_of_one hrun hkinds hhashed hours fun eid eid' p q => hmatch.urns eid eid' p q urn

theorem get?_headsByEdgeTriple :
    (headsByEdgeTriple store order main triples).get? triple = some hit ↔
      triple ∈ triples ∧ ∃ p, ours.get? hit.entityId = some (some p) ∧
        kinds hit.entityId = .edge ∧ edgeSrcTgt p = (triple.1, triple.2.1) ∧
        textAt p "edgeType" = some triple.2.2 ∧ hit = liveHit contentHash hit.entityId p :=
  get?_headsByEdgeTriple_of_one hrun hkinds hhashed hours fun eid eid' p q h h' k k' e e' t t' =>
    hmatch.triples eid eid' p q h h' k k' (e.trans e'.symm) (t.trans t'.symm)
      (by rw [t]; exact some_ne_none _)

omit [DecidableEq η] hrun hkinds hhashed hours in
theorem get?_urnIndex : (urnIndex ours).get? urn = some eid ↔
      ∃ p, ours.get? eid = some (some p) ∧ kinds eid = .node ∧ given p "urn" = some urn := by
  let pairOf := fun entry : EntityId × Option Payload => entry.2.bind fun p =>
    if isEdgePayload p then none else (given p "urn").map fun urn => (urn, entry.1)
  have hmem : ∀ urn eid, (urn, eid) ∈ ours.items.filterMap pairOf ↔
      ∃ p, ours.get? eid = some (some p) ∧ kinds eid = .node ∧ given p "urn" = some urn := by
    intro urn eid
    rw [mem_filterMap]
    constructor
    · rintro ⟨⟨eid', value⟩, hentry, hpair⟩
      obtain ⟨p, rfl, hpair⟩ := bind_eq_some_iff.mp hpair
      have hlive := mem_items_iff.mp hentry
      by_cases hedge : isEdgePayload p = true
      · rw [if_pos hedge] at hpair
        cases hpair
      · rw [if_neg hedge] at hpair
        obtain ⟨urn', hurn, hpair⟩ := map_eq_some_iff.mp hpair
        obtain ⟨rfl, rfl⟩ := Prod.mk.inj hpair
        refine ⟨p, hlive, ?_, hurn⟩
        cases hkind : kinds eid' with
        | node => rfl
        | edge => exact absurd ((hmatch.shape _ _ hlive).mpr hkind) hedge
    · rintro ⟨p, hlive, hkind, hurn⟩
      have hedge : ¬ isEdgePayload p = true := fun hedge => by
        cases hkind.symm.trans ((hmatch.shape _ _ hlive).mp hedge)
      refine ⟨(eid, some p), mem_items_iff.mpr hlive, ?_⟩
      show (if isEdgePayload p then none else _) = _
      rw [if_neg hedge, hurn]
      rfl
  have hfold : urnIndex ours = (ours.items.filterMap pairOf).foldl
        (fun (index : Dict _ _) pair => index.set pair.1 pair.2) [] := by
    rw [foldl_filterMap, urnIndex]
    congr 1
    funext index entry
    obtain ⟨eid, value⟩ := entry
    cases value with
    | none => rfl
    | some p =>
      by_cases hedge : isEdgePayload p = true
      · simp [pairOf, hedge]
      · cases hurn : given p "urn" <;> simp [pairOf, hedge, hurn]
  rw [hfold, get?_foldl_pairs, hmem]
  intro eid eid' heid heid'
  obtain ⟨p, hlive, hkind, hurn⟩ := (hmem urn eid).mp heid
  obtain ⟨q, hlive', hkind', hurn'⟩ := (hmem urn eid').mp heid'
  exact hmatch.urns _ _ p q urn hlive hlive' hkind hkind' hurn hurn'

omit [DecidableEq η] hrun hkinds hhashed hours in
theorem get?_edgeIndex :
    (edgeIndex ours).get? (some triple.1, some triple.2.1, some triple.2.2) = some eid ↔
      ∃ p, ours.get? eid = some (some p) ∧ kinds eid = .edge ∧
        edgeSrcTgt p = (triple.1, triple.2.1) ∧ textAt p "edgeType" = some triple.2.2 := by
  let keyOf := fun p : Payload =>
    (textAt p "sourceEntityId", textAt p "targetEntityId", textAt p "edgeType")
  let pairOf := fun entry : EntityId × Option Payload => entry.2.bind fun p =>
    if isEdgePayload p then some (keyOf p, entry.1) else none
  have hmem : ∀ key eid, (key, eid) ∈ ours.items.filterMap pairOf ↔
      ∃ p, ours.get? eid = some (some p) ∧ kinds eid = .edge ∧ keyOf p = key := by
    intro key eid
    rw [mem_filterMap]
    constructor
    · rintro ⟨⟨eid', value⟩, hentry, hpair⟩
      obtain ⟨p, rfl, hpair⟩ := bind_eq_some_iff.mp hpair
      have hlive := mem_items_iff.mp hentry
      by_cases hedge : isEdgePayload p = true
      · rw [if_pos hedge] at hpair
        obtain ⟨rfl, rfl⟩ := Prod.mk.inj (some.inj hpair)
        exact ⟨p, hlive, (hmatch.shape _ _ hlive).mp hedge, rfl⟩
      · rw [if_neg hedge] at hpair
        cases hpair
    · rintro ⟨p, hlive, hkind, rfl⟩
      refine ⟨(eid, some p), mem_items_iff.mpr hlive, ?_⟩
      show (if isEdgePayload p then _ else none) = _
      rw [if_pos ((hmatch.shape _ _ hlive).mpr hkind)]
  have hfold : edgeIndex ours = (ours.items.filterMap pairOf).foldl
        (fun (index : Dict _ _) pair => index.set pair.1 pair.2) [] := by
    rw [foldl_filterMap, edgeIndex]
    congr 1
    funext index entry
    obtain ⟨eid, value⟩ := entry
    cases value with
    | none => rfl
    | some p => by_cases hedge : isEdgePayload p = true <;> simp [pairOf, keyOf, hedge]
  have hkey : ∀ {eid : EntityId} {p : Payload}, ours.get? eid = some (some p) →
      kinds eid = .edge → keyOf p = (some (edgeSrcTgt p).1, some (edgeSrcTgt p).2,
        textAt p "edgeType") := fun hlive hkind => by
    obtain ⟨hsource, htarget⟩ := hmatch.ends _ _ hlive hkind
    show (_, _, _) = _
    rw [hsource, htarget]
  rw [hfold, get?_foldl_pairs, hmem]
  · constructor
    · rintro ⟨p, hlive, hkind, hkeys⟩
      rw [hkey hlive hkind, Prod.mk.injEq, Prod.mk.injEq, some.injEq,
        some.injEq] at hkeys
      exact ⟨p, hlive, hkind, Prod.ext hkeys.1 hkeys.2.1, hkeys.2.2⟩
    · rintro ⟨p, hlive, hkind, hends, htype⟩
      exact ⟨p, hlive, hkind, by rw [hkey hlive hkind, hends, htype]⟩
  · intro eid eid' heid heid'
    obtain ⟨p, hlive, hkind, hkeys⟩ := (hmem _ _).mp heid
    obtain ⟨q, hlive', hkind', hkeys'⟩ := (hmem _ _).mp heid'
    rw [hkey hlive hkind, Prod.mk.injEq, Prod.mk.injEq, some.injEq,
      some.injEq] at hkeys
    rw [hkey hlive' hkind', Prod.mk.injEq, Prod.mk.injEq, some.injEq,
      some.injEq] at hkeys'
    refine hmatch.triples _ _ p q hlive hlive' hkind hkind'
      (Prod.ext (hkeys.1.trans hkeys'.1.symm) (hkeys.2.1.trans hkeys'.2.1.symm))
      (hkeys.2.2.trans hkeys'.2.2.symm) ?_
    rw [hkeys.2.2]
    exact some_ne_none _

end

end

/-! ## Entries -/

def taken : Option (Except String (EntityId × Payload)) → Option (EntityId × Payload)
  | some (.ok entry) => some entry
  | _ => none

def fullEnd (ours : State) (nodes : External) (name : String) : Option EntityId :=
  pyOr (nodes.urnToEid.get? name) ((urnIndex ours).get? name)

def fullEdge (ours : State) (triple : Triple) : Option EntityId :=
  (edgeIndex ours).get? (some triple.1, some triple.2.1, some triple.2.2)

def nodePass (naming : Naming) (newId : ℕ → EntityId) (rows : List Payload) (ours : State) :
    External :=
  rows.zipIdx.foldl (External.node naming newId (urnIndex ours).get?) .start

def passEntries (naming : Naming) (newId : ℕ → EntityId) (rows : List Payload)
    (heldNode : String → Option EntityId) (endOf : String → Option EntityId)
    (heldEdge : Triple → Option EntityId) : List (EntityId × Payload) :=
  rows.zipIdx.filterMap (fun entry => taken (readNode naming newId heldNode entry.1 entry.2)) ++
    rows.zipIdx.filterMap fun entry => taken (readEdge endOf heldEdge entry.1)

def rowEntries (naming : Naming) (newId : ℕ → EntityId) (rows : List Payload) (ours : State) :
    List (EntityId × Payload) :=
  passEntries naming newId rows (urnIndex ours).get?
    (fullEnd ours (nodePass naming newId rows ours)) (fullEdge ours)

/-- The bounded reader's state with main's values for the entities it skipped. -/
def Bounded.completed (bounded : Bounded) (ours : State) (eid : EntityId) : Option Payload :=
  match bounded.theirs.get? eid with
  | some p => some p
  | none => if eid ∈ bounded.seen then (ours.get? eid).join else none

/-- What the two readers hold after the same entries. -/
structure Agree (ours : State) (bounded : Bounded) (full : External)
    (entries : List (EntityId × Payload)) : Prop where
  rejected : bounded.rejected = full.rejected
  names : bounded.urnToEid = full.urnToEid
  named : ∀ name eid, full.urnToEid.get? name = some eid → eid ≠ ""
  seen : bounded.seen = entries.map Prod.fst
  theirs : full.theirs =
    entries.foldl (fun (theirs : Dict _ _) entry => theirs.set entry.1 entry.2) []
  kept : ∀ eid p, bounded.theirs.get? eid = some p → (eid, p) ∈ entries
  skipped : ∀ eid, bounded.theirs.get? eid = full.theirs.get? eid ∨
    ∃ p, full.theirs.get? eid = some p ∧ SamePayload (some p) (ours.get? eid).join

namespace Agree

theorem start (ours : State) : Agree ours .start .start [] where
  rejected := rfl
  names := rfl
  named name eid h := by cases h
  seen := rfl
  theirs := rfl
  kept eid p h := by cases h
  skipped eid := .inl rfl

theorem reject (h : Agree ours bounded full entries) (reason : Rejected) :
    Agree ours { bounded with rejected := bounded.rejected ++ [reason] }
      { full with rejected := full.rejected ++ [reason] } entries :=
  { h with rejected := by rw [h.rejected] }

/-- Both readers take an entry in, the bounded one only if it says more than main. -/
theorem take (h : Agree ours bounded full entries) {names : Dict String EntityId}
    (hnamed : ∀ name eid, names.get? name = some eid → eid ≠ "") {eid : EntityId}
    {payload : Payload} {skip : Bool}
    (hskip : skip = true → SamePayload (some payload) (ours.get? eid).join) :
    Agree ours { bounded with
        theirs := if skip then bounded.theirs else bounded.theirs.set eid payload
        seen := bounded.seen ++ [eid], urnToEid := names }
      { full with theirs := full.theirs.set eid payload, urnToEid := names }
      (entries ++ [(eid, payload)]) where
  rejected := h.rejected
  names := rfl
  named := hnamed
  seen := by rw [h.seen, map_append, map_singleton]
  theirs := by rw [h.theirs, foldl_append, foldl_cons, foldl_nil]
  kept other p hget := by
    rw [mem_append, mem_singleton]
    cases skip with
    | true => exact .inl (h.kept other p hget)
    | false =>
      simp only [Bool.false_eq_true, if_false, get?_set] at hget
      by_cases hother : eid = other
      · rw [if_pos hother, some.injEq] at hget
        exact .inr (by rw [hother, hget])
      · rw [if_neg hother] at hget
        exact .inl (h.kept other p hget)
  skipped other := by
    rw [get?_set]
    by_cases hother : eid = other
    · cases skip with
      | true => exact .inr ⟨payload, by rw [if_pos hother], hother ▸ hskip rfl⟩
      | false => exact .inl (by simp [hother])
    · rw [if_neg hother]
      cases skip with
      | true => exact h.skipped other
      | false =>
        simp only [Bool.false_eq_true, if_false, get?_set, if_neg hother]
        exact h.skipped other

/-- A pass keeps the agreement if each round does. -/
theorem foldl {read : Payload × ℕ → Option (EntityId × Payload)}
    {takeBounded : Bounded → Payload × ℕ → Bounded}
    {takeFull : External → Payload × ℕ → External} {rows : List (Payload × ℕ)}
    (hround : ∀ entry ∈ rows, ∀ {bounded full entries}, Agree ours bounded full entries →
      Agree ours (takeBounded bounded entry) (takeFull full entry) (entries ++ (read entry).toList))
    (h : Agree ours bounded full entries) :
    Agree ours (rows.foldl takeBounded bounded) (rows.foldl takeFull full)
      (entries ++ rows.filterMap read) := by
  induction rows generalizing bounded full entries with
  | nil => rwa [filterMap_nil, append_nil]
  | cons entry rest ih =>
    have hfirst := hround entry mem_cons_self h
    have hrest := ih (fun entry hentry => hround entry (mem_cons_of_mem _ hentry)) hfirst
    rw [append_assoc] at hrest
    cases hread : read entry with
    | none =>
      rw [filterMap_cons_none hread]
      rwa [hread] at hrest
    | some taken =>
      rw [filterMap_cons_some hread]
      rwa [hread] at hrest

theorem mem_seen_iff (h : Agree ours bounded full entries) {eid : EntityId} :
    eid ∈ bounded.seen ↔ full.theirs.get? eid ≠ none := by
  rw [h.seen, h.theirs, get?_foldl_set_last Prod.fst Prod.snd, get?_nil,
    or_none, Ne, map_eq_none_iff, find?_eq_none]
  simp

/-- Where main's value of an entity comes last among its rows, it is the only one. -/
theorem completed (h : Agree ours bounded full entries)
    (hlast : ∀ eid p q, full.theirs.get? eid = some p →
      SamePayload (some p) (ours.get? eid).join → (eid, q) ∈ entries →
      SamePayload (some q) (some p)) (eid : EntityId) :
    SamePayload (bounded.completed ours eid) (full.theirs.get? eid) := by
  have hseen : eid ∈ bounded.seen ↔ full.theirs.get? eid ≠ none := h.mem_seen_iff
  rw [Bounded.completed]
  cases hget : bounded.theirs.get? eid with
  | some q =>
    rcases h.skipped eid with hfull | ⟨p, hfull, hsame⟩
    · rw [← hfull, hget]
    · rw [hfull]
      exact hlast eid p q hfull hsame (h.kept eid q hget)
  | none =>
    rcases h.skipped eid with hfull | ⟨p, hfull, hsame⟩
    · have hnone : full.theirs.get? eid = none := hfull.symm.trans hget
      have hfresh : eid ∉ bounded.seen := fun hmem => hseen.mp hmem hnone
      simp only [hfresh, if_false, hnone]
      rfl
    · have hmem : eid ∈ bounded.seen := hseen.mpr (by rw [hfull]; exact some_ne_none p)
      simp only [hmem, if_true, hfull]
      exact hsame.symm

end Agree

/-! ## Rounds -/

@[simp]
theorem pyOr_none (b : Option String) : pyOr none b = b := rfl

theorem pyOr_some {text : String} (h : text ≠ "") (b : Option String) :
    pyOr (some text) b = some text := if_neg h

theorem exists_pyOr (a : Option String) (text : String) :
    ∃ chosen, pyOr a (some text) = some chosen := by
  cases a with
  | none => exact ⟨text, rfl⟩
  | some first =>
    by_cases hfirst : first = ""
    · exact ⟨text, if_pos hfirst⟩
    · exact ⟨first, if_neg hfirst⟩

/-- An id is never empty where neither an alternative nor the last one is. -/
theorem ne_empty_of_pyOr {a b : Option String} {text : String} (h : pyOr a b = some text)
    (hb : ∀ text, b = some text → text ≠ "") : text ≠ "" := by
  cases a with
  | none => exact hb text h
  | some first =>
    by_cases hfirst : first = ""
    · rw [pyOr, if_pos hfirst] at h
      exact hb text h
    · rw [pyOr_some hfirst, some.injEq] at h
      exact h ▸ hfirst

variable {row : Payload}

/-- The names a later edge row can know a node row's entity by. -/
def GoesBy (row : Payload) (eid : EntityId) (name : String) : Prop :=
  given row "urn" = some name ∨ given row "id" = some name ∨ eid = name

theorem get?_nameNode {urnToEid : Dict String EntityId} {eid named : EntityId} {name : String}
    (h : (nameNode urnToEid row eid).get? name = some named) :
    (named = eid ∧ GoesBy row eid name) ∨ urnToEid.get? name = some named := by
  have hset : ∀ {names : Dict String EntityId} {key : String},
      (names.set key eid).get? name = some named →
        (named = eid ∧ key = name) ∨ names.get? name = some named := by
    intro names key hget
    rw [get?_set] at hget
    split at hget
    · rename_i hkey
      exact .inl ⟨(some.inj hget).symm, hkey⟩
    · exact .inr hget
  rcases hset h with ⟨heid, hname⟩ | h
  · exact .inl ⟨heid, .inr (.inr hname)⟩
  · cases hurn : given row "urn" <;> cases hid : given row "id" <;>
      simp only [hurn, hid] at h
    · exact .inr h
    · exact (hset h).imp_left fun ⟨heid, hname⟩ => ⟨heid, .inr (.inl (hname ▸ hid))⟩
    · exact (hset h).imp_left fun ⟨heid, hname⟩ => ⟨heid, .inl (hname ▸ hurn)⟩
    · rcases hset h with ⟨heid, hname⟩ | h
      · exact .inl ⟨heid, .inr (.inl (hname ▸ hid))⟩
      · exact (hset h).imp_left fun ⟨heid, hname⟩ => ⟨heid, .inl (hname ▸ hurn)⟩

variable {newId : ℕ → EntityId}

theorem nodeEntry_ne_empty (hnew : ∀ i, newId i ≠ "") (held : Option EntityId) (i : ℕ)
    (row : Payload) : (nodeEntry bootstrapNaming newId held i row).1 ≠ "" := by
  have hgiven : ∀ key text, given row key = some text → text ≠ "" :=
    fun key text h => (given_eq_some.mp h).2
  rw [nodeEntry]
  split
  · rename_i eid hid
    refine ne_empty_of_pyOr hid fun text h => ne_empty_of_pyOr h fun text h =>
      ne_empty_of_pyOr h fun text h => ?_
    obtain ⟨urn, hurn, rfl⟩ := map_eq_some_iff.mp h
    exact hgiven "urn" urn hurn
  · exact hnew i

variable {eid : EntityId} {naming : Naming}

theorem nodeEntry_held (h : eid ≠ "") (i : ℕ) (row : Payload) :
    (nodeEntry naming newId (some eid) i row).1 = eid := by
  rw [nodeEntry, pyOr_some h]

theorem edgeId_held (h : eid ≠ "") (triple : Triple) (row : Payload) :
    edgeId (some eid) triple row = eid := by
  rw [edgeId, pyOr_some h, getD_some]

/-- A reader of nodes knows only what it holds for the row's urn. -/
theorem readNode_congr {held held' : String → Option EntityId} {i : ℕ}
    (h : textAt row "kind" = some "node" → ∀ urn, given row "urn" = some urn →
      held urn = held' urn) :
    readNode naming newId held row i = readNode naming newId held' row i := by
  by_cases hkind : textAt row "kind" = some "node"
  · have hheld : (given row "urn").bind held = (given row "urn").bind held' := by
      cases hurn : given row "urn" with
      | none => rfl
      | some urn => exact h hkind urn hurn
    rw [readNode, readNode, hheld]
  · rw [readNode, readNode, if_pos hkind, if_pos hkind]

theorem readNode_ok {held : String → Option EntityId} {i : ℕ} {entry : EntityId × Payload}
    (h : readNode naming newId held row i = some (.ok entry)) :
    entry = nodeEntry naming newId ((given row "urn").bind held) i row := by
  rw [readNode] at h
  split at h
  · cases h
  · split at h
    · cases h
    · exact (Except.ok.inj (some.inj h)).symm

theorem rowTriple_congr {endOf endOf' : String → Option EntityId}
    (h : ∀ key ∈ ["source", "target"], ∀ name, given row key = some name →
      endOf name = endOf' name) :
    rowTriple endOf row = rowTriple endOf' row := by
  have hbind : ∀ key ∈ ["source", "target"],
      (given row key).bind endOf = (given row key).bind endOf' := by
    intro key hkey
    cases hname : given row key with
    | none => rfl
    | some name => exact h key hkey name hname
  rw [rowTriple, rowTriple, hbind "source" (by simp), hbind "target" (by simp)]

theorem readEdge_congr {endOf endOf' : String → Option EntityId}
    {held held' : Triple → Option EntityId}
    (hends : textAt row "kind" = some "edge" → ∀ key ∈ ["source", "target"], ∀ name,
      given row key = some name → endOf name = endOf' name)
    (hheld : textAt row "kind" = some "edge" → ∀ triple, rowTriple endOf row = some triple →
      held triple = held' triple) :
    readEdge endOf held row = readEdge endOf' held' row := by
  by_cases hkind : textAt row "kind" = some "edge"
  · have htriple := rowTriple_congr (hends hkind)
    rw [readEdge, readEdge, ← htriple]
    cases hrow : rowTriple endOf row with
    | none => rfl
    | some triple => simp only [hheld hkind triple hrow]
  · rw [readEdge, readEdge, if_pos hkind, if_pos hkind]

theorem readEdge_ok {endOf : String → Option EntityId} {held : Triple → Option EntityId}
    {entry : EntityId × Payload} (h : readEdge endOf held row = some (.ok entry)) :
    ∃ triple, rowTriple endOf row = some triple ∧ entry.1 = edgeId (held triple) triple row := by
  rw [readEdge] at h
  split at h
  · cases h
  · split at h
    · cases h
    · cases hrow : rowTriple endOf row with
      | none =>
        rw [hrow] at h
        cases h
      | some triple =>
        rw [hrow] at h
        exact ⟨triple, rfl, (congrArg Prod.fst (Except.ok.inj (some.inj h))).symm⟩

section

variable [DecidableEq η] {contentHash : Option Payload → η}
/-- A round of the node passes. -/
theorem Agree.node {newId : ℕ → EntityId} (hnew : ∀ i, newId i ≠ "")
    {known : Dict String (HeadHit η)} {held : String → Option EntityId} {entry : Payload × ℕ}
    (hheld : textAt entry.1 "kind" = some "node" → ∀ urn, given entry.1 "urn" = some urn →
      (known.get? urn).map HeadHit.entityId = held urn)
    (hsame : ∀ urn hit payload, known.get? urn = some hit →
      identical contentHash (some hit) payload = true →
        hit.entityId ≠ "" ∧ SamePayload (some payload) (ours.get? hit.entityId).join)
    (h : Agree ours bounded full entries) :
    Agree ours (bounded.node contentHash newId known entry)
      (full.node bootstrapNaming newId held entry)
      (entries ++ (taken (readNode bootstrapNaming newId held entry.1 entry.2)).toList) := by
  have hread : readNode bootstrapNaming newId (fun urn => (known.get? urn).map HeadHit.entityId)
      entry.1 entry.2 = readNode bootstrapNaming newId held entry.1 entry.2 :=
    readNode_congr hheld
  rw [Bounded.node, External.node, ← hread]
  cases hrow : readNode bootstrapNaming newId (fun urn => (known.get? urn).map HeadHit.entityId)
      entry.1 entry.2 with
  | none => exact (append_nil entries).symm ▸ h
  | some outcome =>
    cases outcome with
    | error reason => exact (append_nil entries).symm ▸ h.reject ⟨entry.2, reason⟩
    | ok read =>
      have hentry := readNode_ok hrow
      obtain ⟨eid, payload⟩ := read
      have heid : eid ≠ "" := by
        have hne := nodeEntry_ne_empty hnew
          ((given entry.1 "urn").bind fun urn => (known.get? urn).map HeadHit.entityId)
          entry.2 entry.1
        rwa [← hentry] at hne
      rw [← h.names]
      refine h.take (fun name named hname => ?_) fun hskip => ?_
      · rcases get?_nameNode hname with ⟨rfl, -⟩ | hname
        · exact heid
        · exact h.named name named (h.names ▸ hname)
      · cases hurn : given entry.1 "urn" with
        | none =>
          rw [hurn] at hskip
          cases hskip
        | some urn =>
          cases hknown : known.get? urn with
          | none =>
            rw [hurn, bind_some, hknown] at hskip
            cases hskip
          | some hit =>
            rw [hurn, bind_some, hknown] at hskip
            obtain ⟨hne, hpayload⟩ := hsame urn hit payload hknown hskip
            rw [hurn, bind_some, hknown] at hentry
            have heq : eid = hit.entityId :=
              (congrArg Prod.fst hentry).trans (nodeEntry_held hne entry.2 entry.1)
            rwa [heq]

/-- A round of the edge passes. -/
theorem Agree.edge {endOf endOf' : String → Option EntityId} {byTriple : Dict Triple (HeadHit η)}
    {held : Triple → Option EntityId} {entry : Payload × ℕ}
    (hends : textAt entry.1 "kind" = some "edge" → ∀ key ∈ ["source", "target"], ∀ name,
      given entry.1 key = some name → endOf name = endOf' name)
    (hheld : textAt entry.1 "kind" = some "edge" → ∀ triple, rowTriple endOf entry.1 = some triple →
      (byTriple.get? triple).map HeadHit.entityId = held triple)
    (hsame : ∀ triple hit payload, byTriple.get? triple = some hit →
      identical contentHash (some hit) payload = true →
        hit.entityId ≠ "" ∧ SamePayload (some payload) (ours.get? hit.entityId).join)
    (h : Agree ours bounded full entries) :
    Agree ours (bounded.edge contentHash endOf byTriple entry) (full.edge endOf' held entry)
      (entries ++ (taken (readEdge endOf' held entry.1)).toList) := by
  have hread : readEdge endOf (fun triple => (byTriple.get? triple).map HeadHit.entityId)
      entry.1 = readEdge endOf' held entry.1 := readEdge_congr hends hheld
  rw [Bounded.edge, External.edge, ← hread]
  cases hrow : readEdge endOf (fun triple => (byTriple.get? triple).map HeadHit.entityId)
      entry.1 with
  | none => exact (append_nil entries).symm ▸ h
  | some outcome =>
    cases outcome with
    | error reason => exact (append_nil entries).symm ▸ h.reject ⟨entry.2, reason⟩
    | ok read =>
      obtain ⟨triple, htriple, hentry⟩ := readEdge_ok hrow
      obtain ⟨eid, payload⟩ := read
      obtain ⟨theirs, seen, rejected, names⟩ := bounded
      obtain rfl : names = full.urnToEid := h.names
      refine h.take h.named fun hskip => ?_
      rw [htriple, bind_some] at hskip
      cases hhit : byTriple.get? triple with
      | none =>
        rw [hhit] at hskip
        cases hskip
      | some hit =>
        rw [hhit] at hskip
        obtain ⟨hne, hpayload⟩ := hsame triple hit payload hhit hskip
        rw [hhit] at hentry
        have heq : eid = hit.entityId := hentry.trans (edgeId_held hne triple entry.1)
        rwa [heq]

end

/-! ## The bounded reader's passes -/

section

variable [DecidableEq η] (contentHash : Option Payload → η) (store : VersionStore η)
variable (order : SetOrder) (main : BranchKey) (newId : ℕ → EntityId) (rows : List Payload)

def knownUrns : Dict String (HeadHit η) :=
  headsByUrn store order main
    ((rows.filter fun row => textAt row "kind" = some "node").filterMap (given · "urn"))

def boundedNodes : Bounded :=
  rows.zipIdx.foldl (Bounded.node contentHash newId (knownUrns store order main rows)) .start

def endNames : List String :=
  (rows.filter fun row => textAt row "kind" = some "edge").flatMap fun row =>
    [given row "source", given row "target"].filterMap id

/-- The entities of the names, those of the node pass and those of heads. -/
def boundedEnds : Dict String EntityId :=
  let nodes := boundedNodes contentHash store order main newId rows
  (headsByUrn store order main ((endNames rows).filter (· ∉ nodes.urnToEid.keys))).items.foldl
    (fun names entry => names.set entry.1 entry.2.entityId) nodes.urnToEid

def knownTriples : Dict Triple (HeadHit η) :=
  headsByEdgeTriple store order main
    ((rows.filter fun row => textAt row "kind" = some "edge").filterMap
      (rowTriple (boundedEnds contentHash store order main newId rows).get?))

theorem externalStateBounded_eq : externalStateBounded contentHash store order main newId rows =
      rows.zipIdx.foldl (Bounded.edge contentHash
        (boundedEnds contentHash store order main newId rows).get?
        (knownTriples contentHash store order main newId rows))
        (boundedNodes contentHash store order main newId rows) := rfl

def boundedEntries : List (EntityId × Payload) :=
  passEntries bootstrapNaming newId rows
    (fun urn => ((knownUrns store order main rows).get? urn).map HeadHit.entityId)
    (boundedEnds contentHash store order main newId rows).get?
    fun triple => ((knownTriples contentHash store order main newId rows).get? triple).map
      HeadHit.entityId

/-- Whose the rows are. A node row whose urn names one live node is that node's; an edge row's
end that names one live node, and that no row of another node goes by, is that node; and an
edge row whose triple names one live edge is that edge's. -/
structure ResolvesRows (kinds : EntityId → Kind) (ours : State) : Prop where
  nodes : ∀ row ∈ rows, textAt row "kind" = some "node" → given row "entityType" ≠ none →
    ∀ urn eid, given row "urn" = some urn → UrnNames kinds ours urn eid →
      (eid, sanitizeNodeProperties
        (row.items.filter fun entry => entry.1 ∉ ["kind", "id", "entity_id"])) ∈
          boundedEntries contentHash store order main newId rows
  ends : ∀ name ∈ endNames rows, ∀ eid, UrnNames kinds ours name eid →
    (∀ entry ∈ rows.zipIdx, ∀ eid' p, readNode bootstrapNaming newId
        (fun urn => ((knownUrns store order main rows).get? urn).map HeadHit.entityId) entry.1
        entry.2 = some (.ok (eid', p)) → GoesBy entry.1 eid' name → eid' = eid) →
      (boundedEnds contentHash store order main newId rows).get? name = some eid
  edges : ∀ row ∈ rows, textAt row "kind" = some "edge" → ∀ triple eid,
    rowTriple (boundedEnds contentHash store order main newId rows).get? row = some triple →
      TripleNames kinds ours triple eid →
        (eid, edgePayloadFromParts triple.2.2 triple.1 triple.2.1 row) ∈
          boundedEntries contentHash store order main newId rows

/-- A name of the node pass is one that a row of its entity goes by. -/
theorem goesBy_of_boundedNodes {name : String} {eid : EntityId}
    (h : (boundedNodes contentHash store order main newId rows).urnToEid.get? name = some eid) :
    ∃ entry ∈ rows.zipIdx, ∃ p, readNode bootstrapNaming newId
      (fun urn => ((knownUrns store order main rows).get? urn).map HeadHit.entityId) entry.1
        entry.2 = some (.ok (eid, p)) ∧ GoesBy entry.1 eid name := by
  rw [boundedNodes] at h
  generalize rows.zipIdx = entries at h ⊢
  induction entries using reverseRecOn with
  | nil => cases h
  | append_singleton entries entry ih =>
    rw [foldl_append, foldl_cons] at h
    generalize entries.foldl (Bounded.node contentHash newId
      (knownUrns store order main rows)) .start = out at h ih
    have later : out.urnToEid.get? name = some eid → ∃ prior ∈ entries ++ [entry], ∃ p,
        readNode bootstrapNaming newId
          (fun urn => ((knownUrns store order main rows).get? urn).map HeadHit.entityId) prior.1
            prior.2 = some (.ok (eid, p)) ∧ GoesBy prior.1 eid name := fun h =>
      (ih h).imp fun prior found => ⟨mem_append_left _ found.1, found.2⟩
    rw [Bounded.node] at h
    split at h
    · exact later h
    · exact later h
    · rename_i eid' payload hread
      obtain ⟨rfl, hname⟩ | h := get?_nameNode h
      · exact ⟨entry, mem_append_right _ (mem_singleton_self _), payload, hread, hname⟩
      · exact later h

end

/-! ## Live hits -/

section

variable [DecidableEq η] {contentHash : Option Payload → η}
variable {store : VersionStore η}
variable {main : BranchKey} {order : SetOrder}
variable (hrun : Run contentHash history store) (hkinds : KeepsKinds kinds history)
  (hhashed : Hashed contentHash history) (hours : IsState history main ours)

def IsLiveHit (contentHash : Option Payload → η) (ours : State) (hit : HeadHit η) : Prop :=
  ∃ p, ours.get? hit.entityId = some (some p) ∧ hit = liveHit contentHash hit.entityId p

include hrun hkinds hhashed hours

variable {hit : HeadHit η}

theorem isLiveHit_of_headsBy {table : Kind} {κ : Type} {key : Payload → Option κ}
    (hkey : key [] = none) {column : κ} (h : (column, hit) ∈ headsBy store order main table key) :
    IsLiveHit contentHash ours hit := by
  obtain ⟨p, hlive, -, hhash, htomb, -⟩ := (mem_headsBy hrun hkinds hhashed hours table hkey).mp h
  obtain ⟨eid, chash, tomb⟩ := hit
  simp only at hhash htomb
  exact ⟨p, hlive, by rw [liveHit, hhash, htomb]⟩

theorem isLiveHit_of_headsByUrn {urns : List String} {urn : String}
    (h : (headsByUrn store order main urns).get? urn = some hit) :
    IsLiveHit contentHash ours hit :=
  isLiveHit_of_headsBy hrun hkinds hhashed hours rfl (mem_filter.mp (mem_of_get?_foldl_pairs h)).1

theorem isLiveHit_of_headsByEdgeTriple {triples : List Triple} {triple : Triple}
    (h : (headsByEdgeTriple store order main triples).get? triple = some hit) :
    IsLiveHit contentHash ours hit :=
  isLiveHit_of_headsBy hrun hkinds hhashed hours rfl (mem_filter.mp (mem_of_get?_foldl_pairs h)).1

/-- Where a urn or a triple names one live entity of main's own, its rows are that entity's. -/
theorem resolvesRows (hnamed : ∀ p, ours.get? "" ≠ some (some p)) (newId : ℕ → EntityId)
    (rows : List Payload) : ResolvesRows contentHash store order main newId rows kinds ours where
  nodes row hrow hkind htype urn eid hurn hnames := by
    have hheld : ((knownUrns store order main rows).get? urn).map HeadHit.entityId = some eid :=
      headsByUrn_of_names hrun hkinds hhashed hours (mem_filterMap.mpr
        ⟨row, mem_filter.mpr ⟨hrow, decide_eq_true hkind⟩, hurn⟩) hnames
    obtain ⟨p, hlive, -⟩ := (hnames eid).mp rfl
    have hne : eid ≠ "" := fun hempty => hnamed p (hempty ▸ hlive)
    obtain ⟨i, hi⟩ := getElem?_of_mem hrow
    have hentry : (row, i) ∈ rows.zipIdx := mk_mem_zipIdx_iff_getElem?.mpr hi
    refine mem_append_left _ (mem_filterMap.mpr ⟨(row, i), hentry, ?_⟩)
    rw [readNode, if_neg (not_not.mpr hkind), if_neg htype, hurn, bind_some, hheld, taken,
      nodeEntry, pyOr_some hne]
  ends name hname eid hnames hrows := by
    rw [boundedEnds, get?_foldl_items]
    cases hknown : (boundedNodes contentHash store order main newId rows).urnToEid.get? name with
    | some eid' =>
      obtain ⟨entry, hentry, p, hread, hgoes⟩ := goesBy_of_boundedNodes _ _ _ _ _ _ hknown
      obtain rfl := hrows entry hentry eid' p hread hgoes
      have hnone : (headsByUrn store order main ((endNames rows).filter
          (· ∉ (boundedNodes contentHash store order main newId rows).urnToEid.keys))).get?
            name = none := by
        rw [eq_none_iff_forall_ne_some]
        intro hit hhit
        have hmem := (mem_filter.mp (mem_of_get?_foldl_pairs hhit)).2
        have hfree := (mem_filter.mp (mem_filter.mp (of_decide_eq_true hmem)).1).2
        exact of_decide_eq_true hfree (mem_keys_iff.mpr (by rw [hknown]; rfl))
      rw [hnone]
      rfl
    | none =>
      rw [headsByUrn_of_names hrun hkinds hhashed hours (mem_filter.mpr
        ⟨hname, decide_eq_true (get?_eq_none_iff.mp hknown)⟩) hnames]
      rfl
  edges row hrow hkind triple eid htriple hnames := by
    have hheld : ((knownTriples contentHash store order main newId rows).get? triple).map
        HeadHit.entityId = some eid :=
      headsByEdgeTriple_of_names hrun hkinds hhashed hours (mem_filterMap.mpr
        ⟨row, mem_filter.mpr ⟨hrow, decide_eq_true hkind⟩, htriple⟩) hnames
    obtain ⟨p, hlive, -⟩ := (hnames eid).mp rfl
    have hne : eid ≠ "" := fun hempty => hnamed p (hempty ▸ hlive)
    have hgiven : ¬ (given row "edgeType" = none ∨ given row "source" = none ∨
        given row "target" = none) := by
      rintro (hnone | hnone | hnone) <;> simp [rowTriple, hnone, pyOr] at htriple
    obtain ⟨i, hi⟩ := getElem?_of_mem hrow
    have hentry : (row, i) ∈ rows.zipIdx := mk_mem_zipIdx_iff_getElem?.mpr hi
    refine mem_append_right _ (mem_filterMap.mpr ⟨(row, i), hentry, ?_⟩)
    rw [readEdge, if_neg (not_not.mpr hkind), if_neg hgiven, htriple]
    simp only [taken, hheld, edgeId_held hne]

variable {whole : State}

omit [DecidableEq η] hrun hkinds hhashed hours in
/-- A row identical to a live head says what a state of main says. -/
theorem samePayload_of_identical [DecidableEq η]
    (hhash : ∀ p q, contentHash p = contentHash q ↔ SamePayload p q)
    (hwhole : ∀ eid p, ours.get? eid = some (some p) → whole.get? eid = some (some p))
    (hnamed : ∀ p, whole.get? "" ≠ some (some p)) (hlive : IsLiveHit contentHash ours hit)
    {payload : Payload} (h : identical contentHash (some hit) payload = true) :
    hit.entityId ≠ "" ∧ SamePayload (some payload) (whole.get? hit.entityId).join := by
  obtain ⟨p, hp, hhit⟩ := hlive
  have hmain := hwhole _ _ hp
  constructor
  · intro hempty
    exact hnamed p (hempty ▸ hmain)
  · have hequal : hit.contentHash = contentHash (some payload) :=
      of_decide_eq_true (Bool.and_eq_true_iff.mp h).2
    rw [hhit] at hequal
    rw [hmain]
    exact ((hhash _ _).mp hequal).symm

/-- The bounded reader agrees with a reader that holds the same for what the rows
name. A row it drops says what main says, in a state that has main's live entities. -/
theorem agree_of_held (hhash : ∀ p q, contentHash p = contentHash q ↔ SamePayload p q)
    (hwhole : ∀ eid p, ours.get? eid = some (some p) → whole.get? eid = some (some p))
    (hnamed : ∀ p, whole.get? "" ≠ some (some p)) {newId : ℕ → EntityId}
    (hnew : ∀ i, newId i ≠ "") {rows : List Payload} (heldNode : String → Option EntityId)
    (endOf : External → String → Option EntityId) (heldEdge : Triple → Option EntityId)
    (hnodes : ∀ row ∈ rows, textAt row "kind" = some "node" → ∀ urn, given row "urn" = some urn →
      ((knownUrns store order main rows).get? urn).map HeadHit.entityId = heldNode urn)
    (hends : ∀ nodes : External,
      (boundedNodes contentHash store order main newId rows).urnToEid = nodes.urnToEid →
      (∀ name eid, nodes.urnToEid.get? name = some eid → eid ≠ "") → ∀ name ∈ endNames rows,
        (boundedEnds contentHash store order main newId rows).get? name = endOf nodes name)
    (hedges : ∀ row ∈ rows, textAt row "kind" = some "edge" → ∀ triple,
      rowTriple (boundedEnds contentHash store order main newId rows).get? row = some triple →
      ((knownTriples contentHash store order main newId rows).get? triple).map HeadHit.entityId =
        heldEdge triple) :
    let nodes := rows.zipIdx.foldl (External.node bootstrapNaming newId heldNode) .start
    Agree whole (externalStateBounded contentHash store order main newId rows)
      (rows.zipIdx.foldl (External.edge (endOf nodes) heldEdge) nodes)
      (passEntries bootstrapNaming newId rows heldNode (endOf nodes) heldEdge) := by
  intro nodes
  have hagree : Agree whole (boundedNodes contentHash store order main newId rows) nodes
      ([] ++ rows.zipIdx.filterMap fun entry =>
        taken (readNode bootstrapNaming newId heldNode entry.1 entry.2)) := by
    refine (Agree.start whole).foldl fun entry hentry _ _ _ => Agree.node hnew ?_ ?_
    · exact hnodes entry.1 (fst_mem_of_mem_zipIdx hentry)
    · intro urn hit payload hknown
      exact samePayload_of_identical hhash hwhole hnamed
        (isLiveHit_of_headsByUrn hrun hkinds hhashed hours hknown)
  rw [externalStateBounded_eq]
  refine hagree.foldl fun entry hentry _ _ _ => Agree.edge ?_ ?_ ?_
  · intro hkind key hkey name hname
    refine hends nodes hagree.names hagree.named name (mem_flatMap.mpr
      ⟨entry.1, mem_filter.mpr ⟨?_, decide_eq_true hkind⟩, ?_⟩)
    · exact fst_mem_of_mem_zipIdx hentry
    · rw [mem_filterMap]
      refine ⟨some name, ?_, rfl⟩
      rcases mem_pair.mp hkey with rfl | rfl <;> simp [hname]
  · exact hedges entry.1 (fst_mem_of_mem_zipIdx hentry)
  · intro triple hit payload hhit
    exact samePayload_of_identical hhash hwhole hnamed
      (isLiveHit_of_headsByEdgeTriple hrun hkinds hhashed hours hhit)

theorem agree_boundedEntries (hhash : ∀ p q, contentHash p = contentHash q ↔ SamePayload p q)
    (hwhole : ∀ eid p, ours.get? eid = some (some p) → whole.get? eid = some (some p))
    (hnamed : ∀ p, whole.get? "" ≠ some (some p)) {newId : ℕ → EntityId}
    (hnew : ∀ i, newId i ≠ "") (rows : List Payload) :
    ∃ full, Agree whole (externalStateBounded contentHash store order main newId rows) full
      (boundedEntries contentHash store order main newId rows) :=
  ⟨_, agree_of_held hrun hkinds hhashed hours hhash hwhole hnamed hnew
    (fun urn => ((knownUrns store order main rows).get? urn).map HeadHit.entityId)
    (fun _ => (boundedEnds contentHash store order main newId rows).get?)
    (fun triple => ((knownTriples contentHash store order main newId rows).get? triple).map
      HeadHit.entityId)
    (fun _ _ _ _ _ => rfl) (fun _ _ _ _ _ => rfl) fun _ _ _ _ _ => rfl⟩

end

/-! ## The two readers -/

section

variable [DecidableEq η] {contentHash : Option Payload → η}
variable {store : VersionStore η}
variable {main : BranchKey} {order : SetOrder}
variable (hrun : Run contentHash history store) (hkinds : KeepsKinds kinds history)
  (hhashed : Hashed contentHash history) (hours : IsState history main ours)
  (hmatch : Matchable kinds ours)

include hrun hkinds hhashed hours hmatch

theorem headsByUrn_eq_urnIndex {urns : List String} {urn : String} (hurn : urn ∈ urns) :
    ((headsByUrn store order main urns).get? urn).map HeadHit.entityId =
      (urnIndex ours).get? urn := by
  refine ext fun eid => ?_
  rw [map_eq_some_iff, get?_urnIndex hmatch]
  constructor
  · rintro ⟨hit, hhit, rfl⟩
    obtain ⟨-, p, hlive, hkind, hnamed, -⟩ :=
      (get?_headsByUrn hrun hkinds hhashed hours hmatch).mp hhit
    exact ⟨p, hlive, hkind, hnamed⟩
  · rintro ⟨p, hlive, hkind, hnamed⟩
    exact ⟨liveHit contentHash eid p, (get?_headsByUrn hrun hkinds hhashed hours hmatch).mpr
      ⟨hurn, p, hlive, hkind, hnamed, rfl⟩, rfl⟩

theorem headsByEdgeTriple_eq_fullEdge {triples : List Triple} {triple : Triple}
    (htriple : triple ∈ triples) :
    ((headsByEdgeTriple store order main triples).get? triple).map HeadHit.entityId =
      fullEdge ours triple := by
  refine ext fun eid => ?_
  rw [map_eq_some_iff, fullEdge, get?_edgeIndex hmatch]
  constructor
  · rintro ⟨hit, hhit, rfl⟩
    obtain ⟨-, p, hlive, hkind, hends, htype, -⟩ :=
      (get?_headsByEdgeTriple hrun hkinds hhashed hours hmatch).mp hhit
    exact ⟨p, hlive, hkind, hends, htype⟩
  · rintro ⟨p, hlive, hkind, hends, htype⟩
    exact ⟨liveHit contentHash eid p, (get?_headsByEdgeTriple hrun hkinds hhashed hours hmatch).mpr
      ⟨htriple, p, hlive, hkind, hends, htype, rfl⟩, rfl⟩

theorem get?_ends {nodes : External}
    (hnamed : ∀ name eid, nodes.urnToEid.get? name = some eid → eid ≠ "") {names : List String}
    {name : String} (hname : name ∈ names) :
    ((headsByUrn store order main (names.filter (· ∉ nodes.urnToEid.keys))).items.foldl
      (fun (ends : Dict _ _) entry => ends.set entry.1 entry.2.entityId) nodes.urnToEid).get? name =
      fullEnd ours nodes name := by
  rw [get?_foldl_items, fullEnd]
  cases hknown : nodes.urnToEid.get? name with
  | some eid =>
    have hnone : (headsByUrn store order main
        (names.filter (· ∉ nodes.urnToEid.keys))).get? name = none := by
      rw [eq_none_iff_forall_ne_some]
      intro hit hhit
      have hmem := ((get?_headsByUrn hrun hkinds hhashed hours hmatch).mp hhit).1
      exact of_decide_eq_true (mem_filter.mp hmem).2 (mem_keys_iff.mpr (by rw [hknown]; rfl))
    rw [hnone, pyOr_some (hnamed name eid hknown)]
    rfl
  | none =>
    have hmem : name ∈ names.filter (· ∉ nodes.urnToEid.keys) :=
      mem_filter.mpr ⟨hname, decide_eq_true (get?_eq_none_iff.mp hknown)⟩
    rw [headsByUrn_eq_urnIndex hrun hkinds hhashed hours hmatch hmem, pyOr_none, or_none]

theorem agree_externalStateBounded
    (hhash : ∀ p q, contentHash p = contentHash q ↔ SamePayload p q) {newId : ℕ → EntityId}
    (hnew : ∀ i, newId i ≠ "") (rows : List Payload) :
    Agree ours (externalStateBounded contentHash store order main newId rows)
      (externalStateNamed bootstrapNaming newId rows ours)
      (rowEntries bootstrapNaming newId rows ours) := by
  refine agree_of_held hrun hkinds hhashed hours hhash (fun _ _ hlive => hlive) hmatch.named hnew
    (urnIndex ours).get? (fullEnd ours) (fullEdge ours) ?_ ?_ ?_
  · intro row hrow hkind urn hurn
    exact headsByUrn_eq_urnIndex hrun hkinds hhashed hours hmatch (mem_filterMap.mpr
      ⟨row, mem_filter.mpr ⟨hrow, decide_eq_true hkind⟩, hurn⟩)
  · intro nodes hnames hnamed name hname
    rw [boundedEnds, hnames]
    exact get?_ends hrun hkinds hhashed hours hmatch hnamed hname
  · intro row hrow hkind triple htriple
    exact headsByEdgeTriple_eq_fullEdge hrun hkinds hhashed hours hmatch (mem_filterMap.mpr
      ⟨row, mem_filter.mpr ⟨hrow, decide_eq_true hkind⟩, htriple⟩)

end

/-- A row that says which entity it is, or whose urn main holds. -/
def Identified (ours : State) (row : Payload) : Prop :=
  textAt row "kind" = some "node" →
    (∃ urn eid, given row "urn" = some urn ∧ (urnIndex ours).get? urn = some eid ∧ eid ≠ "") ∨
      given row "entity_id" ≠ none ∨ given row "id" ≠ none

theorem readNode_of_identified (h : Identified ours row) (naming naming' : Naming)
    (newId : ℕ → EntityId) (i : ℕ) : readNode naming newId (urnIndex ours).get? row i =
      readNode naming' newId (urnIndex ours).get? row i := by
  by_cases hkind : textAt row "kind" = some "node"
  · have hid : ∃ eid, ∀ naming : Naming,
        pyOr ((given row "urn").bind (urnIndex ours).get?) (pyOr (given row "entity_id")
          (pyOr (given row "id") ((given row "urn").map naming.ofUrn))) = some eid := by
      have hgiven : ∀ key, given row key ≠ none →
          ∃ text, text ≠ "" ∧ given row key = some text := by
        intro key hne
        obtain ⟨text, htext⟩ := ne_none_iff_exists'.mp hne
        exact ⟨text, (given_eq_some.mp htext).2, htext⟩
      rcases h hkind with ⟨urn, eid, hurn, hheld, hne⟩ | hentity | hrow
      · exact ⟨eid, fun naming => by rw [hurn, bind_some, hheld, pyOr_some hne]⟩
      · obtain ⟨text, hne, htext⟩ := hgiven "entity_id" hentity
        obtain ⟨eid, heid⟩ := exists_pyOr ((given row "urn").bind (urnIndex ours).get?) text
        exact ⟨eid, fun naming => by rw [htext, pyOr_some hne, heid]⟩
      · obtain ⟨text, hne, htext⟩ := hgiven "id" hrow
        obtain ⟨own, hown⟩ := exists_pyOr (given row "entity_id") text
        obtain ⟨eid, heid⟩ := exists_pyOr ((given row "urn").bind (urnIndex ours).get?) own
        exact ⟨eid, fun naming => by rw [htext, pyOr_some hne, hown, heid]⟩
    obtain ⟨eid, hid⟩ := hid
    rw [readNode, readNode, nodeEntry, nodeEntry, hid, hid]
  · rw [readNode, readNode, if_pos hkind, if_pos hkind]

theorem externalStateNamed_of_identified {rows : List Payload}
    (h : ∀ row ∈ rows, Identified ours row) (naming naming' : Naming) (newId : ℕ → EntityId) :
    externalStateNamed naming newId rows ours = externalStateNamed naming' newId rows ours := by
  have hnodes : nodePass naming newId rows ours = nodePass naming' newId rows ours := by
    apply foldl_ext
    intro out entry hentry
    rw [External.node, External.node,
      readNode_of_identified (h entry.1 (fst_mem_of_mem_zipIdx hentry)) naming naming']
  show rows.zipIdx.foldl (External.edge (fullEnd ours (nodePass naming newId rows ours))
    (fullEdge ours)) (nodePass naming newId rows ours) = _
  rw [hnodes]
  rfl

/-- The first commit of a main: nodes and edges with the payloads given. -/
def sourceMain (deltas : List (Delta (Option Json))) (hnodup : (deltas.map Delta.entityId).Nodup)
    (hpayload : ∀ d ∈ deltas, d.op = .delete ↔ d.payload = none) : List (Commit (Option Json)) :=
  [commitOf "g" 1 1 deltas hnodup hpayload]

def tableOf (urn : String) : Payload :=
  [("urn", .str urn), ("entityType", .str "Table")]

def tableRow (urn : String) : Payload :=
  ("kind", .str "node") :: tableOf urn

def flowRow (src tgt : String) : Payload :=
  [("kind", .str "edge"), ("edgeType", .str "FLOWS"), ("source", .str src), ("target", .str tgt)]

def flowingTable : List (Commit (Option Json)) :=
  sourceMain [changeTo "a" none (some (tableOf "t")),
    changeTo "x" none (some (edgeOf "FLOWS" "a" "a"))] (by decide) (by decide)

def flowingState : State :=
  [("a", some (tableOf "t")), ("x", some (edgeOf "FLOWS" "a" "a"))]

theorem live_flowingState {p : Payload} (h : flowingState.get? eid = some (some p)) :
    (eid = "a" ∧ p = tableOf "t") ∨ (eid = "x" ∧ p = edgeOf "FLOWS" "a" "a") := by
  simpa [flowingState] using mem_of_get? h

def freshUrn (i : ℕ) : EntityId :=
  "urn:" ++ toString i

theorem freshUrn_ne_empty (i : ℕ) : freshUrn i ≠ "" := by
  intro hempty
  have hlength := congrArg String.length hempty
  simp [freshUrn] at hlength

theorem isState_of_composed {η : Type} {history : List (Commit η)} {main : BranchKey} {head : ℕ}
    (hhead : ∀ commit ∈ history, commit.branch = main → commit.seq ≤ head)
    (h : composed history [(main, head)] = ours) : IsState history main ours := by
  intro eid
  rw [← h, get?_composed_singleton]
  congr 1
  refine lastDelta_congr_at fun commit hcommit _ _ _ => ?_
  rw [upTo, Bool.eq_iff_iff, decide_eq_true_iff, decide_eq_true_iff]
  exact ⟨And.left, fun hmain => ⟨hmain, hhead commit hcommit hmain⟩⟩

/-- The bounded reader, completed, and the full reader say different things of an
entity. -/
def Differ (history : List (Commit (Option Json))) (order : SetOrder) (ours : State)
    (rows : List Payload) (eid : EntityId) : Prop :=
  ∃ store, Run canonicalForm history store ∧ IsState history ("g", "main") ours ∧ ¬ SamePayload
      ((externalStateBounded canonicalForm store order ("g", "main") freshUrn rows).completed ours
        eid)
      ((externalState freshUrn rows ours).theirs.get? eid)

/-- The database's order may be the reverse of the state's. -/
def reverseOrder : SetOrder where
  iter _ ids := ids.reverse
  perm _ ids := ids.reverse_perm

def twinTables : List (Commit (Option Json)) :=
  sourceMain [changeTo "a" none (some (tableOf "t")), changeTo "b" none (some (tableOf "t"))]
    (by decide) (by decide)

/-- A table and a flow whose ends are in snake case. -/
def snakeCased : List (Commit (Option Json)) :=
  sourceMain [changeTo "a" none (some (tableOf "t")), changeTo "x" none (some
    [("edgeType", .str "FLOWS"), ("source_entity_id", .str "a"), ("target_entity_id", .str "a")])]
    (by decide) (by decide)

end DataViz.Versioning
