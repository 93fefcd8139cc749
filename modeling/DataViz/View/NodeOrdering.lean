/-
# Cleaning the node ordering of a layout

`sanitize_node_ordering` of `layout_config.py` drops sort modes and order keys that are not valid
ones, and changes a copy of the layout alone. Whether a value is one of a set's texts cannot be
asked of a list or a dictionary: Python raises, which is `none` here.
-/

import DataViz.Data.Json
import DataViz.Data.Memory

namespace DataViz.View

open List Option

open Memory

def validNodeSortModes : List String :=
  ["alpha-asc", "alpha-desc", "type-asc", "count-desc", "custom"]

def validDefaultSortModes : List String :=
  validNodeSortModes.filter (· ≠ "custom")

def maxOrderKeyLen : ℕ :=
  256

/-- Whether Python can look a value up in a set. -/
def hashable : Json → Bool
  | .scalar _ => true
  | .arr _ | .obj _ => false

def oneOf (texts : List String) : Json → Bool
  | .str text => text ∈ texts
  | _ => false

def isIn (texts : List String) (value : Json) : Option Bool :=
  if hashable value then some (oneOf texts value) else none

/-- A text that is not empty, and not too long. -/
def isOrderKey : Json → Bool
  | .str key => key ≠ "" && key.length ≤ maxOrderKeyLen
  | _ => false

structure Cleaning where
  out : ℕ
  changed : Bool
  mem : Memory Json

def Cleaning.edit (s : Cleaning) (change : Dict String Json → Dict String Json) : Cleaning :=
  let s := if s.changed then s
    else { out := s.mem.length, changed := true, mem := s.mem.alloc (s.mem.object s.out) }
  { s with mem := s.mem.write s.out (change (s.mem.object s.out)) }

/-- Drop an invalid `defaultNodeSortMode`; `null` is none. -/
def cleanDefault (raw : ℕ) (s : Cleaning) : Option Cleaning :=
  match (s.mem.object raw).get? "defaultNodeSortMode" with
  | none | some .null => some s
  | some default => do
    if ← isIn validDefaultSortModes default then some s
    else some (s.edit (·.pop "defaultNodeSortMode"))

/-- A layer whose `nodeSortMode` is invalid. -/
def badLayer : Json → Option Bool
  | .obj layer =>
    match Dict.get? layer "nodeSortMode" with
    | none => some false
    | some mode => (isIn validNodeSortModes mode).map (!·)
  | _ => some false

/-- `any(… for l in layers)`: the layers after the first that is bad are not looked at. -/
def anyBad : List Json → Option Bool
  | [] => some false
  | layer :: layers => do if ← badLayer layer then some true else anyBad layers

def without (key : String) : Json → Json
  | .obj fields => .obj (Dict.pop fields key)
  | value => value

def goodLayers : List Json → Option (List Json)
  | [] => some []
  | layer :: layers => do
    let bad ← badLayer layer
    let rest ← goodLayers layers
    some ((if bad then without "nodeSortMode" layer else layer) :: rest)

def cleanLayers (raw : ℕ) (s : Cleaning) : Option Cleaning :=
  match (s.mem.object raw).get? "layers" with
  | some (.arr layers) => do
    if ← anyBad layers then
      let layers ← goodLayers layers
      some (s.edit (·.set "layers" (.arr layers)))
    else some s
  | _ => some s

def badKey : Json → Bool
  | .obj entry => (Dict.get? entry "orderKey").any (!isOrderKey ·)
  | _ => false

def cleanAssignments (raw : ℕ) (s : Cleaning) : Cleaning :=
  match (s.mem.object raw).get? "assignments" with
  | some (.obj entries) =>
    if entries.any fun entry => badKey entry.2 then
      s.edit (·.set "assignments" (.obj (entries.map fun entry =>
        (entry.1, if badKey entry.2 then without "orderKey" entry.2 else entry.2))))
    else s
  | _ => s

def sanitizeNodeOrdering (raw : ℕ) (mem : Memory Json) : Option (ℕ × Memory Json) := do
  let s ← cleanDefault raw { out := raw, changed := false, mem }
  let s ← cleanLayers raw s
  let s := cleanAssignments raw s
  some (s.out, s.mem)

/-- A dictionary without what is not good under one key, and anything else as it is. -/
def Drops (key : String) (good : Json → Bool) (before after : Json) : Prop :=
  match before with
  | .obj fields => ∃ fields', after = .obj fields' ∧ ∀ k, Dict.get? fields' k =
        if k = key then (Dict.get? fields k).filter good else Dict.get? fields k
  | _ => after = before

/-- The layout with invalid sort modes and order keys dropped, and all else as it was. -/
structure Sanitized (layout result : Dict String Json) : Prop where
  fields : ∀ key, key ≠ "defaultNodeSortMode" → key ≠ "layers" → key ≠ "assignments" →
    result.get? key = layout.get? key
  default : result.get? "defaultNodeSortMode" = (layout.get? "defaultNodeSortMode").filter
    fun value => value = .null || oneOf validDefaultSortModes value
  layers : match layout.get? "layers" with
    | some (.arr before) => ∃ after, result.get? "layers" = some (.arr after) ∧
        List.Forall₂ (Drops "nodeSortMode" (oneOf validNodeSortModes)) before after
    | other => result.get? "layers" = other
  assignments : match layout.get? "assignments" with
    | some (.obj before) => ∃ after, result.get? "assignments" = some (.obj after) ∧
        List.Forall₂ (fun entry entry' => entry'.1 = entry.1 ∧
          Drops "orderKey" isOrderKey entry.2 entry'.2) before after
    | other => result.get? "assignments" = other

/-- Sort modes that Python can look up. -/
structure Hashable (layout : Dict String Json) : Prop where
  default : ∀ value, layout.get? "defaultNodeSortMode" = some value → hashable value = true
  layers : ∀ layers, layout.get? "layers" = some (.arr layers) → ∀ layer, .obj layer ∈ layers →
    ∀ mode, Dict.get? layer "nodeSortMode" = some mode → hashable mode = true

/-- Cleaning returns, the result is the layout cleaned, cleaning that changes nothing, and no
dictionary there was is changed. -/
def Cleans (raw : ℕ) (mem : Memory Json) (layout : Dict String Json) : Prop :=
  ∃ out mem' result, sanitizeNodeOrdering raw mem = some (out, mem') ∧
    mem'[out]? = some result ∧ Sanitized layout result ∧
    sanitizeNodeOrdering out mem' = some (out, mem') ∧ Keeps mem.length mem mem'

def badAt (key : String) (good : Json → Bool) : Json → Bool
  | .obj fields => (Dict.get? fields key).any (!good ·)
  | _ => false

section

variable {key : String} {good : Json → Bool} {before after value : Json}

theorem drops_of_good (fine : badAt key good value = false) : Drops key good value value := by
  cases value with
  | scalar | arr => rfl
  | obj fields =>
    refine ⟨fields, rfl, fun k => ?_⟩
    split
    next same =>
      subst same
      rw [badAt] at fine
      cases held : Dict.get? fields k with
      | none => rfl
      | some v =>
        rw [held, any_some, Bool.not_eq_false'] at fine
        exact (filter_eq_some_iff.mpr ⟨rfl, fine⟩).symm
    next => rfl

theorem drops_of_bad (bad : badAt key good value = true) :
    Drops key good value (without key value) := by
  cases value with
  | scalar | arr => cases bad
  | obj fields =>
    refine ⟨Dict.pop fields key, rfl, fun k => ?_⟩
    rw [Dict.get?_pop]
    by_cases same : key = k
    · subst same
      rw [if_pos rfl, if_pos rfl]
      obtain ⟨v, held, isBad⟩ := (any_eq_true _ _).mp bad
      rw [held]
      refine (filter_eq_none_iff.mpr fun w here => ?_).symm
      obtain rfl := some.inj here
      rw [Bool.not_eq_true'] at isBad
      exact Bool.eq_false_iff.mp isBad
    · rw [if_neg same, if_neg (Ne.symm same)]

theorem drops_or_keeps (value : Json) :
    Drops key good value (if badAt key good value then without key value else value) := by
  split
  next bad => exact drops_of_bad bad
  next fine => exact drops_of_good (Bool.eq_false_iff.mpr fine)

theorem Drops.leaves_good (drops : Drops key good before after) : badAt key good after = false := by
  cases before with
  | scalar s =>
    obtain rfl := drops
    rfl
  | arr items =>
    obtain rfl := drops
    rfl
  | obj fields =>
    obtain ⟨fields', rfl, kept⟩ := drops
    rw [badAt, kept key, if_pos rfl]
    cases left : (Dict.get? fields key).filter good with
    | none => rfl
    | some v =>
      rw [any_some, (filter_eq_some_iff.mp left).2]
      rfl

end

theorem badLayer_eq (layer : Json) : badLayer layer = match layer with
    | .obj fields => if (Dict.get? fields "nodeSortMode").all hashable then
        some (badAt "nodeSortMode" (oneOf validNodeSortModes) layer) else none
    | _ => some false := by
  cases layer with
  | scalar | arr => rfl
  | obj fields =>
    rw [badLayer]
    dsimp only
    rw [badAt]
    cases Dict.get? fields "nodeSortMode" with
    | none => rfl
    | some mode =>
      dsimp only
      rw [isIn, all_some]
      split <;> rfl

def ModesReadable (layers : List Json) : Prop :=
  ∀ layer, .obj layer ∈ layers → ∀ mode, Dict.get? layer "nodeSortMode" = some mode →
    hashable mode = true

variable {layers : List Json}

theorem badLayer_of_modesReadable (readable : ModesReadable layers) {layer : Json}
    (mem : layer ∈ layers) :
    badLayer layer = some (badAt "nodeSortMode" (oneOf validNodeSortModes) layer) := by
  rw [badLayer_eq]
  cases layer with
  | scalar | arr => rfl
  | obj fields =>
    refine if_pos ((all_eq_true _ _).mpr fun mode here => ?_)
    exact readable fields mem mode here

theorem anyBad_of_modesReadable (readable : ModesReadable layers) :
    anyBad layers = some (layers.any (badAt "nodeSortMode" (oneOf validNodeSortModes))) := by
  induction layers with
  | nil => rfl
  | cons layer layers ih =>
    rw [anyBad, badLayer_of_modesReadable readable mem_cons_self, bind_eq_bind,
      bind_some, ih fun l mem => readable l (mem_cons_of_mem _ mem), any_cons]
    cases badAt "nodeSortMode" (oneOf validNodeSortModes) layer <;> rfl

theorem goodLayers_of_modesReadable (readable : ModesReadable layers) :
    goodLayers layers = some (layers.map fun layer =>
      if badAt "nodeSortMode" (oneOf validNodeSortModes) layer then without "nodeSortMode" layer
      else layer) := by
  induction layers with
  | nil => rfl
  | cons layer layers ih =>
    rw [goodLayers, badLayer_of_modesReadable readable mem_cons_self,
      ih fun l mem => readable l (mem_cons_of_mem _ mem)]
    rfl

/-- Where the layers are all gone through, every mode can be looked up. -/
theorem modesReadable_of_goodLayers {layers good : List Json}
    (ran : goodLayers layers = some good) : ModesReadable layers := by
  induction layers generalizing good with
  | nil => nofun
  | cons layer layers ih =>
    simp only [goodLayers, bind_eq_bind, bind_eq_some_iff] at ran
    obtain ⟨bad, here, rest, later, -⟩ := ran
    intro fields mem mode held
    cases mem with
    | head =>
      rw [badLayer_eq] at here
      exact (all_eq_true _ _).mp (ite_none_right_eq_some.mp here).1 mode held
    | tail _ mem => exact ih later fields mem mode held

theorem modesReadable_of_anyBad (none : anyBad layers = some false) : ModesReadable layers := by
  induction layers with
  | nil => nofun
  | cons layer layers ih =>
    simp only [anyBad, bind_eq_bind, bind_eq_some_iff] at none
    obtain ⟨bad, here, rest⟩ := none
    cases bad with
    | true => cases rest
    | false =>
      intro fields mem mode held
      cases mem with
      | head =>
        rw [badLayer_eq] at here
        exact (all_eq_true _ _).mp (ite_none_right_eq_some.mp here).1 mode held
      | tail _ mem => exact ih rest fields mem mode held

/-- The cleaning of a layout: where it is, what it holds, and that only a copy was changed. -/
structure At (raw : ℕ) (mem : Memory Json) (s : Cleaning) (current : Dict String Json) : Prop where
  keeps : Keeps mem.length mem s.mem
  here : s.mem[s.out]? = some current
  own : s.changed = true → mem.length ≤ s.out

section

variable {raw : ℕ} {mem : Memory Json} {s s' : Cleaning} {layout current : Dict String Json}

theorem At.edit (state : At raw mem s current) (change : Dict String Json → Dict String Json) :
    At raw mem (s.edit change) (change current) := by
  unfold Cleaning.edit
  cases copied : s.changed with
  | true =>
    dsimp only
    rw [if_pos rfl, object_of_getElem? state.here]
    exact {
      keeps := state.keeps.trans ⟨(keeps_write _ (state.own copied)).grows,
        (keeps_write _ (state.own copied)).same⟩
      here := getElem?_write (lt_length state.here) _
      own := state.own }
  | false =>
    dsimp only
    rw [if_neg Bool.false_ne_true, object_of_getElem? state.here,
      object_of_getElem? (getElem?_alloc current)]
    exact {
      keeps := (state.keeps.trans (keeps_alloc _ state.keeps.grows)).trans
        (keeps_write _ state.keeps.grows)
      here := getElem?_write (lt_length (getElem?_alloc current)) _
      own := fun _ => state.keeps.grows }

/-- The layout that is cleaned is there to read throughout. -/
theorem At.object_raw (state : At raw mem s current) (given : mem[raw]? = some layout) :
    s.mem.object raw = layout := by
  rw [state.keeps.object_eq (lt_length given), object_of_getElem? given]

/-- A default that stays: none, or `null`, or a valid one. -/
def goodDefault (layout : Dict String Json) : Bool :=
  ((layout.get? "defaultNodeSortMode").all fun value =>
    value = .null || oneOf validDefaultSortModes value)

theorem At.cleanDefault (state : At raw mem s current) (given : mem[raw]? = some layout)
    (readable : ∀ value, layout.get? "defaultNodeSortMode" = some value → hashable value = true) :
    ∃ s', cleanDefault raw s = some s' ∧ At raw mem s'
      (if goodDefault layout then current else current.pop "defaultNodeSortMode") := by
  unfold View.cleanDefault goodDefault
  rw [state.object_raw given]
  split
  next none =>
    rw [none]
    exact ⟨s, rfl, state⟩
  next null =>
    rw [null]
    exact ⟨s, rfl, state⟩
  next value notNull held =>
    have look : isIn validDefaultSortModes value = some (oneOf validDefaultSortModes value) :=
      if_pos (readable value held)
    have isNull : decide (value = .null) = false := decide_eq_false notNull
    rw [held, look, all_some, isNull, Bool.false_or, bind_eq_bind, bind_some]
    split
    next => exact ⟨s, rfl, state⟩
    next => exact ⟨_, rfl, state.edit _⟩

def keptLayers (layers : List Json) : List Json :=
  layers.map fun layer =>
    if badAt "nodeSortMode" (oneOf validNodeSortModes) layer then without "nodeSortMode" layer
    else layer

def withLayers (layout current : Dict String Json) : Dict String Json :=
  match layout.get? "layers" with
  | some (.arr layers) =>
    if layers.any (badAt "nodeSortMode" (oneOf validNodeSortModes)) then
      current.set "layers" (.arr (keptLayers layers))
    else current
  | _ => current

theorem At.cleanLayers (state : At raw mem s current) (given : mem[raw]? = some layout)
    (readable : ∀ layers, layout.get? "layers" = some (.arr layers) → ModesReadable layers) :
    ∃ s', cleanLayers raw s = some s' ∧ At raw mem s' (withLayers layout current) := by
  unfold View.cleanLayers withLayers
  rw [state.object_raw given]
  split
  next layers held =>
    rw [anyBad_of_modesReadable (readable layers held), bind_eq_bind, bind_some]
    split
    next =>
      rw [goodLayers_of_modesReadable (readable layers held)]
      exact ⟨_, rfl, state.edit _⟩
    next => exact ⟨s, rfl, state⟩
  next => exact ⟨s, rfl, state⟩

def keptEntries (entries : Dict String Json) : Dict String Json :=
  entries.map fun entry =>
    (entry.1, if badAt "orderKey" isOrderKey entry.2 then without "orderKey" entry.2 else entry.2)

def withAssignments (layout current : Dict String Json) : Dict String Json :=
  match layout.get? "assignments" with
  | some (.obj entries) =>
    if entries.any fun entry => badAt "orderKey" isOrderKey entry.2 then
      current.set "assignments" (.obj (keptEntries entries))
    else current
  | _ => current

theorem badKey_eq : badKey = badAt "orderKey" isOrderKey := by
  funext value
  cases value <;> rfl

theorem At.cleanAssignments (state : At raw mem s current) (given : mem[raw]? = some layout) :
    At raw mem (cleanAssignments raw s) (withAssignments layout current) := by
  unfold View.cleanAssignments withAssignments
  rw [state.object_raw given, badKey_eq]
  split
  next entries held =>
    by_cases bad : entries.any fun entry => badAt "orderKey" isOrderKey entry.2
    · rw [if_pos bad, if_pos bad]
      exact state.edit _
    · rw [if_neg bad, if_neg bad]
      exact state
  next => exact state

end

section

variable (layout : Dict String Json)

def cleaned : Dict String Json :=
  withAssignments layout (withLayers layout
    (if goodDefault layout then layout else layout.pop "defaultNodeSortMode"))

variable {layout} {current : Dict String Json} {key : String}

theorem get?_withLayers_ne (ne : key ≠ "layers") :
    (withLayers layout current).get? key = current.get? key := by
  unfold withLayers
  split
  next =>
    split
    next => exact Dict.get?_set_ne (Ne.symm ne) _ _
    next => rfl
  next => rfl

theorem get?_withAssignments_ne (ne : key ≠ "assignments") :
    (withAssignments layout current).get? key = current.get? key := by
  unfold withAssignments
  split
  next =>
    split
    next => exact Dict.get?_set_ne (Ne.symm ne) _ _
    next => rfl
  next => rfl

theorem get?_default : Dict.get? (if goodDefault layout then layout
      else layout.pop "defaultNodeSortMode") key =
    if key = "defaultNodeSortMode" then (layout.get? "defaultNodeSortMode").filter
        fun value => value = .null || oneOf validDefaultSortModes value
      else layout.get? key := by
  unfold goodDefault
  cases held : layout.get? "defaultNodeSortMode" with
  | none =>
    rw [all_none, if_pos rfl, filter_none]
    split
    next same => rw [same, held]
    next => rfl
  | some value =>
    rw [all_some]
    split
    next fine =>
      rw [filter_some]
      split
      next same => rw [same, held]
      next => rfl
    next bad =>
      rw [filter_some, if_neg bad, Dict.get?_pop]
      by_cases same : key = "defaultNodeSortMode"
      · rw [if_pos same, if_pos same.symm]
      · rw [if_neg same, if_neg (Ne.symm same)]

/-- No invalid mode or key is left, and all else is as it was. -/
theorem sanitized_cleaned (layout : Dict String Json) : Sanitized layout (cleaned layout) where
  fields key notDefault notLayers notAssignments := by
    rw [cleaned, get?_withAssignments_ne notAssignments, get?_withLayers_ne notLayers, get?_default,
      if_neg notDefault]
  default := by
    rw [cleaned, get?_withAssignments_ne (by decide), get?_withLayers_ne (by decide), get?_default,
      if_pos rfl]
  layers := by
    have before : Dict.get? (if goodDefault layout then layout
        else layout.pop "defaultNodeSortMode") "layers" = layout.get? "layers" := by
      rw [get?_default, if_neg (by decide)]
    rw [cleaned, get?_withAssignments_ne (by decide)]
    unfold withLayers
    split
    next layers held =>
      dsimp only
      split
      next =>
        refine ⟨keptLayers layers, Dict.get?_set_self _ _ _, ?_⟩
        rw [keptLayers, forall₂_map_right_iff]
        exact forall₂_same.mpr fun layer _ => drops_or_keeps layer
      next fine =>
        refine ⟨layers, before.trans held, forall₂_same.mpr fun layer mem => ?_⟩
        refine drops_of_good (Bool.eq_false_iff.mpr fun bad => fine ?_)
        exact any_eq_true.mpr ⟨layer, mem, bad⟩
    next other =>
      split
      next layers held => exact absurd held (other layers)
      next => exact before
  assignments := by
    have before : (withLayers layout (if goodDefault layout then layout
        else layout.pop "defaultNodeSortMode")).get? "assignments" = layout.get? "assignments" := by
      rw [get?_withLayers_ne (by decide), get?_default, if_neg (by decide)]
    rw [cleaned]
    unfold withAssignments
    split
    next entries held =>
      dsimp only
      split
      next =>
        refine ⟨keptEntries entries, Dict.get?_set_self _ _ _, ?_⟩
        rw [keptEntries, forall₂_map_right_iff]
        exact forall₂_same.mpr fun entry _ => ⟨rfl, drops_or_keeps entry.2⟩
      next fine =>
        refine ⟨entries, before.trans held, forall₂_same.mpr fun entry mem => ⟨rfl, ?_⟩⟩
        refine drops_of_good (Bool.eq_false_iff.mpr fun bad => fine ?_)
        exact any_eq_true.mpr ⟨entry, mem, bad⟩
    next other =>
      split
      next entries held => exact absurd held (other entries)
      next => exact before

theorem exists_related {α β : Type} {related : α → β → Prop} {as : List α} {bs : List β}
    (pairs : List.Forall₂ related as bs) {b : β} (mem : b ∈ bs) : ∃ a ∈ as, related a b := by
  induction pairs with
  | nil => cases mem
  | @cons a b' as bs pair pairs ih =>
    cases mem with
    | head => exact ⟨a, mem_cons_self, pair⟩
    | tail _ mem =>
      obtain ⟨a', mem', pair'⟩ := ih mem
      exact ⟨a', mem_cons_of_mem _ mem', pair'⟩

/-- A cleaned layout is itself what cleaning returns. -/
theorem sanitize_sanitized {result : Dict String Json} (sanitized : Sanitized layout result)
    {out : ℕ} {mem : Memory Json} (here : mem[out]? = some result) :
    sanitizeNodeOrdering out mem = some (out, mem) := by
  have object : mem.object out = result := object_of_getElem? here
  have default : cleanDefault out ⟨out, false, mem⟩ = some ⟨out, false, mem⟩ := by
    unfold cleanDefault
    rw [object, sanitized.default]
    split
    next => rfl
    next => rfl
    next value notNull held =>
      obtain ⟨-, fine⟩ := filter_eq_some_iff.mp held
      rw [Bool.or_eq_true, decide_eq_true_eq] at fine
      have valid := fine.resolve_left notNull
      have look : isIn validDefaultSortModes value = some true := by
        cases value with
        | scalar s => rw [isIn, hashable, if_pos rfl, valid]
        | arr | obj => cases valid
      rw [look]
      rfl
  have layers : cleanLayers out ⟨out, false, mem⟩ = some ⟨out, false, mem⟩ := by
    unfold cleanLayers
    rw [object]
    split
    next after held =>
      have drops : ∃ before, List.Forall₂ (Drops "nodeSortMode" (oneOf validNodeSortModes))
          before after := by
        have known := sanitized.layers
        split at known
        next before there =>
          obtain ⟨after', held', pairs⟩ := known
          rw [held] at held'
          cases held'
          exact ⟨before, pairs⟩
        next other => exact absurd (known.symm.trans held) (other after)
      obtain ⟨before, pairs⟩ := drops
      have good : ∀ layer ∈ after,
          badAt "nodeSortMode" (oneOf validNodeSortModes) layer = false := by
        intro layer mem
        obtain ⟨_, -, drops⟩ := exists_related pairs mem
        exact drops.leaves_good
      have readable : ModesReadable after := by
        intro fields mem mode atMode
        have fine := good _ mem
        rw [badAt, atMode] at fine
        cases mode with
        | scalar s => rfl
        | arr | obj => cases fine
      rw [anyBad_of_modesReadable readable, any_eq_false.mpr fun layer mem => by
        rw [good layer mem]; exact Bool.false_ne_true]
      rfl
    next => rfl
  have assignments : cleanAssignments out ⟨out, false, mem⟩ = ⟨out, false, mem⟩ := by
    unfold cleanAssignments
    rw [object]
    split
    next after held =>
      refine if_neg ?_
      rw [List.any_eq_true]
      rintro ⟨entry, mem, bad⟩
      have known := sanitized.assignments
      split at known
      next before there =>
        obtain ⟨after', held', pairs⟩ := known
        rw [held] at held'
        cases held'
        obtain ⟨_, -, -, drops⟩ := exists_related pairs mem
        exact Bool.false_ne_true (drops.leaves_good.symm.trans bad)
      next other => exact absurd (known.symm.trans held) (other after)
    next => rfl
  rw [sanitizeNodeOrdering, default, bind_eq_bind, bind_some, layers, bind_some, assignments]

end

/-- Cleaning drops and never rejects, and changes no dictionary that was there, exactly where every
sort mode is a value that Python can look up in a set. -/
theorem cleans_iff (raw : ℕ) (mem : Memory Json) (layout : Dict String Json)
    (given : mem[raw]? = some layout) : Cleans raw mem layout ↔ Hashable layout := by
  constructor
  · rintro ⟨out, mem', result, ran, -⟩
    simp only [sanitizeNodeOrdering, bind_eq_bind, bind_eq_some_iff] at ran
    obtain ⟨s, first, s', second, -⟩ := ran
    have start : At raw mem ⟨raw, false, mem⟩ layout := ⟨.refl _ _, given, nofun⟩
    have default : ∀ value, layout.get? "defaultNodeSortMode" = some value →
        hashable value = true := by
      intro value held
      unfold cleanDefault at first
      rw [start.object_raw given, held] at first
      cases value with
      | scalar s => rfl
      | arr | obj => cases first
    obtain ⟨s'', first', state⟩ := start.cleanDefault given default
    cases first.symm.trans first'
    refine ⟨default, fun layers held => ?_⟩
    unfold cleanLayers at second
    rw [state.object_raw given, held] at second
    simp only [bind_eq_bind, bind_eq_some_iff] at second
    obtain ⟨bad, any, rest⟩ := second
    cases bad with
    | false => exact modesReadable_of_anyBad any
    | true =>
      obtain ⟨good, ran, -⟩ := bind_eq_some_iff.mp rest
      exact modesReadable_of_goodLayers ran
  · rintro ⟨default, layers⟩
    have start : At raw mem ⟨raw, false, mem⟩ layout := ⟨.refl _ _, given, nofun⟩
    obtain ⟨s, first, state⟩ := start.cleanDefault given default
    obtain ⟨s', second, state'⟩ := state.cleanLayers given layers
    have final := state'.cleanAssignments given
    refine ⟨_, _, cleaned layout, ?_, final.here, sanitized_cleaned layout,
      sanitize_sanitized (sanitized_cleaned layout) final.here, final.keeps⟩
    rw [sanitizeNodeOrdering, first, bind_eq_bind, bind_some, second, bind_some]

/-- A default that only a layer may have, a mode that is a number and a key that is empty. -/
def jumbledLayout : Dict String Json :=
  [("defaultNodeSortMode", .str "custom"), ("layers", .arr [.obj [("nodeSortMode", .int 3)]]),
    ("assignments", .obj [("urn", .obj [("layerId", .str "a"), ("orderKey", .str "")])])]

theorem cleans_jumbled : Cleans 0 [jumbledLayout] jumbledLayout := by
  refine (cleans_iff 0 [jumbledLayout] jumbledLayout rfl).mpr ⟨?_, ?_⟩
  · intro value held
    obtain rfl : Json.str "custom" = value := some.inj held
    rfl
  · intro layers held layer mem mode atMode
    obtain rfl : [Json.obj [("nodeSortMode", .int 3)]] = layers := by
      simpa [jumbledLayout, Dict.get?] using held
    obtain rfl : layer = [("nodeSortMode", .int 3)] := by simpa using mem
    obtain rfl : Json.int 3 = mode := some.inj atMode
    rfl

/-- A mode that is a list or a dictionary is not dropped: Python raises on looking it up. -/
theorem not_cleans_unhashable :
    ¬ Cleans 0 [[("defaultNodeSortMode", .arr [])]] [("defaultNodeSortMode", .arr [])] ∧
      ¬ Cleans 0 [[("layers", .arr [.obj [("nodeSortMode", .obj [])]])]]
        [("layers", .arr [.obj [("nodeSortMode", .obj [])]])] := by
  have listed : sanitizeNodeOrdering 0 [[("defaultNodeSortMode", .arr [])]] = none := rfl
  have nested : sanitizeNodeOrdering 0
      [[("layers", .arr [.obj [("nodeSortMode", .obj [])]])]] = none := rfl
  constructor
  · rintro ⟨out, mem', result, ran, -⟩
    cases listed.symm.trans ran
  · rintro ⟨out, mem', result, ran, -⟩
    cases nested.symm.trans ran

end DataViz.View
