/-
# The server's entries through every write

A write keeps each of the server's entries, its cascade flag and a layer for it
(`Write.Keeps`), whatever the client sent. A move that was recorded is found again by the next
plan: where it put the entry is where the plan lists it, as long as the layer is there and
the record is still remembered (`Session.Remembers`). The empty text is no layer to the plan, and
as an order key or a group it counts as none.
-/

import DataViz.LiveView.Ownership
import DataViz.LiveView.PlanLaws

namespace DataViz.LiveView

open List Option Dict

open View (Entry fieldsOf isTrue)

section

variable {assignments : Dict String Json} {urn : String} {entry : Entry}

theorem get?_machineEntries (urn : String) :
    (machineEntries assignments).get? urn = machineEntry assignments urn := by
  rw [machineEntries, get?_ofKeys]
  split
  · rfl
  · next absent =>
      rw [mem_dedup] at absent
      rw [machineEntry, get?_eq_none_iff.mpr absent, bind_none, filter_none]

theorem nodup_machineEntries : (machineEntries assignments).keys.Nodup :=
  (nodup_dedup _).sublist (keys_ofKeys_sublist _ _)

theorem machineEntry_eq_some : machineEntry assignments urn = some entry ↔
    assignments.get? urn = some (.obj entry) ∧ isMachine entry = true := by
  rw [machineEntry, filter_eq_some_iff, bind_eq_some_iff]
  apply and_congr_left
  intro _
  constructor
  · rintro ⟨json, here, fields⟩
    cases json with
    | obj _ =>
      cases fields
      exact here
    | _ => cases fields
  · intro here
    exact ⟨_, here, rfl⟩

theorem isMachineEntry_obj : isMachineEntry (.obj entry) = isMachine entry :=
  rfl

theorem machineEntry_eq_none (others : ∀ json, assignments.get? urn = some json →
    isMachineEntry json = false) : machineEntry assignments urn = none := by
  rw [eq_none_iff_forall_ne_some]
  intro entry owned
  obtain ⟨here, machine⟩ := machineEntry_eq_some.mp owned
  have not := others _ here
  rw [isMachineEntry_obj, machine] at not
  cases not

end

namespace Ownership

variable {layerIds : List String} {fallback : Option String} {kept entry after : Entry}
  {lost : Bool} {key : String}

theorem get?_owned (other : key ≠ "assignedBy") (other' : key ≠ "inheritsChildren") :
    (owned kept entry).get? key = entry.get? key := by
  rw [owned, get?_set_ne (Ne.symm other'), get?_set_ne (Ne.symm other)]

theorem assignedBy_owned : (owned kept entry).get? "assignedBy" = some machineMark := by
  rw [owned, get?_set_ne (by decide), get?_set_self]

theorem inheritsChildren_owned : (owned kept entry).get? "inheritsChildren" =
    some (.bool (kept.get? "inheritsChildren" = some (.bool true))) := by
  rw [owned, get?_set_self]

/-- Where an entry ends up: it keeps its layer, or loses it and its place there. -/
theorem placed_cases (ran : placed layerIds fallback entry = some (after, lost)) :
    (after = entry ∧ ((valid layerIds (entry.get? "layerId")).isSome ∨ fallback = none)) ∨
      ∃ layer, fallback = some layer ∧
        after = ((entry.pop "orderKey").pop "logicalNodeId").set "layerId" (.str layer) := by
  unfold placed at ran
  by_cases isKey : hashable (entry.get? "layerId") = true
  · rw [if_pos isKey] at ran
    cases there : valid layerIds (entry.get? "layerId") with
    | some layer =>
      rw [there] at ran
      cases ran
      exact Or.inl ⟨rfl, Or.inl rfl⟩
    | none =>
      rw [there] at ran
      cases fallback with
      | none =>
        cases ran
        exact Or.inl ⟨rfl, Or.inr rfl⟩
      | some layer =>
        cases ran
        exact Or.inr ⟨layer, rfl, rfl⟩
  · rw [if_neg isKey] at ran
    cases ran

/-- What does not say where an entry sits is left as it was. -/
theorem get?_placed (ran : placed layerIds fallback entry = some (after, lost))
    (other : key ∉ placementKeys) : after.get? key = entry.get? key := by
  rcases placed_cases ran with ⟨rfl, -⟩ | ⟨layer, -, rfl⟩
  · rfl
  · rw [placementKeys, mem_cons, mem_cons, mem_singleton, not_or, not_or] at other
    rw [get?_set_ne (Ne.symm other.1), get?_pop, if_neg (Ne.symm other.2.2),
      get?_pop, if_neg (Ne.symm other.2.1)]

/-- Its order key and its group stay, or are gone with its layer. -/
theorem get?_placed_within (ran : placed layerIds fallback entry = some (after, lost))
    (within : key ∈ Inputs.placementKeys) :
    after.get? key = entry.get? key ∨ after.get? key = none := by
  rcases placed_cases ran with ⟨rfl, -⟩ | ⟨layer, -, rfl⟩
  · exact Or.inl rfl
  · right
    rw [Inputs.placementKeys, mem_cons, mem_singleton] at within
    rcases within with rfl | rfl
    · rw [get?_set_ne (by decide), get?_pop, if_neg (by decide), get?_pop, if_pos rfl]
    · rw [get?_set_ne (by decide), get?_pop, if_pos rfl]

theorem layerId_placed (ran : placed layerIds fallback entry = some (after, lost))
    (waits : ∃ layer ∈ layerIds, fallback = some layer) :
    ∃ layer ∈ layerIds, after.get? "layerId" = some (.str layer) := by
  obtain ⟨room, roomIn, waits⟩ := waits
  rcases placed_cases ran with ⟨rfl, there | none⟩ | ⟨layer, falls, rfl⟩
  · obtain ⟨layer, there⟩ := isSome_iff_exists.mp there
    unfold valid at there
    split at there
    · next id here =>
        split at there
        · next mem => exact ⟨id, mem, here⟩
        · cases there
    · cases there
  · rw [none] at waits
    cases waits
  · rw [falls] at waits
    cases waits
    exact ⟨room, roomIn, get?_set_self _ _ _⟩

theorem placed_of_layer {layer : String} (there : entry.get? "layerId" = some (.str layer))
    (mem : layer ∈ layerIds) : placed layerIds fallback entry = some (entry, false) := by
  have valid' : valid layerIds (some (.str layer)) = some layer := if_pos mem
  unfold placed
  rw [there, valid']
  rfl

theorem moved_self : moved entry entry = [] := by
  rw [moved, filterMap_eq_nil_iff]
  intro key _
  cases here : entry.get? key with
  | none => rfl
  | some value => exact if_pos rfl

theorem owned_self (marked : isMachine entry = true)
    {cascades : Bool} (flag : entry.get? "inheritsChildren" = some (.bool cascades)) :
    owned entry entry = entry := by
  rw [owned, set_of_get? (of_decide_eq_true marked), set_of_get?]
  rw [flag]
  cases cascades <;> rfl

end Ownership

open Ownership

namespace Write

variable {write : Write} {stored : Dict String Json} {done done' : Reconciled} {urn : String}
  {kept : Entry}

/-- Where a person puts one of the server's entries elsewhere. -/
def put (write : Write) (urn : String) (kept : Entry) : Option Entry :=
  if write.moves urn kept = [] then none else some (write.sits urn kept)

def recorded (write : Write) (urn : String) (kept : Entry) : Option Entry :=
  if write.recordOverrides then (write.put urn kept).map (record write.now) else none

/-- What one of the server's entries comes to. -/
theorem keep_eq_some {entry : String × Entry} (ran : write.keep done entry = some done') :
    ∃ after lost,
      placed write.layerIds write.fallback (owned entry.2 (write.sits entry.1 entry.2)) =
        some (after, lost) ∧
      done'.assignments = done.assignments.set entry.1 (.obj after) ∧
      ∀ urn, done'.overrides.get? urn =
        if entry.1 = urn then (write.recorded entry.1 entry.2).or (done.overrides.get? urn)
        else done.overrides.get? urn := by
  obtain ⟨⟨after, lost⟩, ends, made⟩ := map_eq_some_iff.mp ran
  cases made
  refine ⟨after, lost, ends, rfl, fun urn => ?_⟩
  rw [recorded, put]
  by_cases stays : write.moves entry.1 entry.2 = []
  · rw [if_neg (not_and.mpr fun moves => absurd stays moves), if_pos stays, map_none,
      ite_self, none_or, ite_self]
  · by_cases records : write.recordOverrides = true
    · rw [if_pos ⟨stays, records⟩, if_neg stays, if_pos records, map_some, some_or, get?_set]
    · rw [if_neg (not_and.mpr fun _ => records), if_neg records, none_or, ite_self]

theorem foldlM_keep {entries : Dict String Entry} (nodup : entries.keys.Nodup)
    (ran : entries.foldlM write.keep done = some done') :
    (∀ urn kept, entries.get? urn = some kept →
      ∃ after lost, placed write.layerIds write.fallback (owned kept (write.sits urn kept)) =
        some (after, lost) ∧ done'.assignments.get? urn = some (.obj after)) ∧
    (∀ urn, entries.get? urn = none → done'.assignments.get? urn = done.assignments.get? urn) ∧
    ∀ urn, done'.overrides.get? urn =
      ((entries.get? urn).bind (write.recorded urn)).or (done.overrides.get? urn) := by
  induction entries generalizing done with
  | nil =>
    cases ran
    refine ⟨fun urn kept listed => ?_, fun _ _ => rfl, fun _ => rfl⟩
    cases listed
  | cons entry rest ih =>
    rw [foldlM_cons, bind_eq_bind, bind_eq_some_iff] at ran
    obtain ⟨next, first, ran⟩ := ran
    obtain ⟨urn', kept'⟩ := entry
    obtain ⟨fresh, nodup⟩ := nodup_cons.mp nodup
    obtain ⟨machine, others, overrides⟩ := ih nodup ran
    obtain ⟨after, lost, ends, assignments, records⟩ := keep_eq_some first
    have unlisted : Dict.get? rest urn' = none := get?_eq_none_iff.mpr fresh
    refine ⟨fun urn kept listed => ?_, fun urn listed => ?_, fun urn => ?_⟩
    · rw [get?_cons] at listed
      split at listed
      · next same =>
          subst same
          cases listed
          exact ⟨after, lost, ends, by rw [others _ unlisted, assignments, get?_set_self]⟩
      · exact machine urn kept listed
    · rw [get?_cons] at listed
      split at listed
      · cases listed
      · next other => rw [others urn listed, assignments, get?_set_ne other]
    · rw [overrides, records, get?_cons]
      by_cases same : urn' = urn
      · subst same
        rw [if_pos rfl, if_pos rfl, unlisted, bind_none, none_or, bind_some]
      · rw [if_neg same, if_neg same]

theorem get?_others (urn : String) : (write.others stored).get? urn =
    if machineEntry stored urn = none then
      (write.incoming.get? urn).filter fun json => !isMachineEntry json
    else none := by
  have byKey := get?_filter_key (write.incoming.items.filter fun entry => !isMachineEntry entry.2)
    (fun urn => decide (urn ∉ (machineEntries stored).keys)) urn
  have owns : machineEntry stored urn = none ↔ urn ∉ (machineEntries stored).keys := by
    rw [← get?_machineEntries, get?_eq_none_iff]
  rw [others, ← List.filter_filter, byKey, get?_filter_items _ (!isMachineEntry ·)]
  simp only [owns, decide_eq_true_eq]

structure Reconciles (write : Write) (stored : Dict String Json) (done : Reconciled) : Prop where
  machine : ∀ urn kept, machineEntry stored urn = some kept →
    ∃ after lost, placed write.layerIds write.fallback (owned kept (write.sits urn kept)) =
      some (after, lost) ∧ done.assignments.get? urn = some (.obj after)
  others : ∀ urn, machineEntry stored urn = none → done.assignments.get? urn =
    (write.incoming.get? urn).filter fun json => !isMachineEntry json
  overrides : ∀ urn, done.overrides.get? urn = (machineEntry stored urn).bind (write.recorded urn)

theorem reconciles (ran : write.reconcileLayoutWrite stored = some done) :
    write.Reconciles stored done := by
  obtain ⟨machine, others, overrides⟩ := foldlM_keep nodup_machineEntries ran
  simp only [get?_machineEntries] at machine others overrides
  constructor
  · exact machine
  · intro urn free
    rw [others urn free, get?_others, if_pos free]
  · intro urn
    rw [overrides, get?_nil, or_none]

theorem foldlM_keep_isSome {entries : Dict String Entry}
    (each : ∀ entry ∈ entries, (placed write.layerIds write.fallback
      (owned entry.2 (write.sits entry.1 entry.2))).isSome) :
    ∃ done', entries.foldlM write.keep done = some done' := by
  induction entries generalizing done with
  | nil => exact ⟨done, rfl⟩
  | cons entry rest ih =>
    obtain ⟨ends, ran⟩ := isSome_iff_exists.mp (each entry mem_cons_self)
    rw [foldlM_cons, keep, ran]
    exact ih fun other mem => each other (mem_cons_of_mem _ mem)

theorem fallback_of_layers (layers : write.layerIds ≠ []) :
    ∃ layer ∈ write.layerIds, write.fallback = some layer := by
  rw [fallback]
  unfold valid
  split
  · next id _ =>
      split
      · next mem => exact ⟨id, mem, rfl⟩
      · exact ⟨_, head_mem layers, head?_eq_some_head layers⟩
  · exact ⟨_, head_mem layers, head?_eq_some_head layers⟩

/-- The server's entries of a stored layout say whether they cascade. -/
def Flagged (stored : Dict String Json) : Prop :=
  ∀ urn entry, machineEntry stored urn = some entry →
    ∃ cascades, entry.get? "inheritsChildren" = some (.bool cascades)

/-- What the server owns is kept, what the client placed is stored, and the result is stable. -/
structure Keeps (write : Write) (stored : Dict String Json) (done : Reconciled) : Prop where
  /-- The server's entries are those it had. -/
  machine : ∀ urn, (machineEntry done.assignments urn).isSome = (machineEntry stored urn).isSome
  /-- They cascade as they did. -/
  flags : ∀ urn, (machineEntry done.assignments urn).bind (·.get? "inheritsChildren") =
    (machineEntry stored urn).bind (·.get? "inheritsChildren")
  /-- Another entity has the entry that was sent, if that is not marked as the server's. -/
  others : ∀ urn, machineEntry stored urn = none → done.assignments.get? urn =
    (write.incoming.get? urn).filter fun json => !isMachineEntry json
  /-- The server's entries are in layers of the view. -/
  layers : ∀ urn entry, machineEntry done.assignments urn = some entry →
    ∃ layer ∈ write.layerIds, entry.get? "layerId" = some (.str layer)
  /-- Writing the result back changes nothing, and records nothing. -/
  again : ∀ recordOverrides now, ∃ done',
    reconcileLayoutWrite { write with incoming := done.assignments, recordOverrides, now }
      done.assignments = some done' ∧
    (∀ urn, done'.assignments.get? urn = done.assignments.get? urn) ∧ done'.overrides = []

theorem machineEntry_done (reconciles : write.Reconciles stored done) {after : Entry} :
    machineEntry done.assignments urn = some after ↔
      ∃ kept lost, machineEntry stored urn = some kept ∧
        placed write.layerIds write.fallback (owned kept (write.sits urn kept)) =
          some (after, lost) := by
  constructor
  · intro owns
    cases before : machineEntry stored urn with
    | none =>
      rw [machineEntry_eq_none] at owns
      · cases owns
      · intro json here
        rw [reconciles.others urn before, filter_eq_some_iff] at here
        exact Bool.not_eq_true' _ |>.mp here.2
    | some kept =>
      obtain ⟨after', lost, ends, here⟩ := reconciles.machine urn kept before
      have here' := (machineEntry_eq_some.mp owns).1
      rw [here] at here'
      cases here'
      exact ⟨kept, lost, rfl, ends⟩
  · rintro ⟨kept, lost, before, ends⟩
    obtain ⟨after', lost', ends', here⟩ := reconciles.machine urn kept before
    rw [ends] at ends'
    cases ends'
    refine machineEntry_eq_some.mpr ⟨here, decide_eq_true ?_⟩
    rw [get?_placed ends (by decide), assignedBy_owned]

theorem inheritsChildren_done {after : Entry} {lost : Bool}
    (ends : placed write.layerIds write.fallback (owned kept (write.sits urn kept)) =
      some (after, lost)) : after.get? "inheritsChildren" =
        some (.bool (kept.get? "inheritsChildren" = some (.bool true))) := by
  rw [get?_placed ends (by decide), inheritsChildren_owned]

/-- The cascade flags of the server's entries stay flags. -/
theorem Reconciles.flagged (reconciles : write.Reconciles stored done) :
    Flagged done.assignments := by
  intro urn entry owns
  obtain ⟨kept, lost, -, ends⟩ := (machineEntry_done reconciles).mp owns
  exact ⟨_, inheritsChildren_done ends⟩

theorem Reconciles.layers (reconciles : write.Reconciles stored done)
    (layers : write.layerIds ≠ []) {entry : Entry}
    (owns : machineEntry done.assignments urn = some entry) :
    ∃ layer ∈ write.layerIds, entry.get? "layerId" = some (.str layer) := by
  obtain ⟨kept, lost, -, ends⟩ := (machineEntry_done reconciles).mp owns
  exact layerId_placed ends (fallback_of_layers layers)

theorem reconcile_again (flagged : Flagged stored)
    (layers : ∀ urn entry, machineEntry stored urn = some entry →
      ∃ layer ∈ write.layerIds, entry.get? "layerId" = some (.str layer))
    (same : write.incoming = stored) :
    ∃ done, write.reconcileLayoutWrite stored = some done ∧
      (∀ urn, done.assignments.get? urn = stored.get? urn) ∧ done.overrides = [] := by
  have still (urn : String) (entry : Entry) (owns : machineEntry stored urn = some entry) :
      write.moves urn entry = [] := by
    rw [moves, same, (machineEntry_eq_some.mp owns).1]
    exact moved_self
  have stays (urn : String) (entry : Entry) (owns : machineEntry stored urn = some entry) :
      placed write.layerIds write.fallback (owned entry (write.sits urn entry)) =
        some (entry, false) := by
    obtain ⟨cascades, flag⟩ := flagged urn entry owns
    obtain ⟨layer, mem, there⟩ := layers urn entry owns
    rw [sits, still urn entry owns, foldl_nil, owned_self (machineEntry_eq_some.mp owns).2 flag]
    exact placed_of_layer there mem
  obtain ⟨done, ran⟩ : ∃ done, write.reconcileLayoutWrite stored = some done := by
    apply foldlM_keep_isSome
    rintro ⟨urn, entry⟩ mem
    have owns := get?_of_mem nodup_machineEntries mem
    rw [get?_machineEntries] at owns
    rw [stays urn entry owns, isSome_some]
  have reconciles := reconciles ran
  refine ⟨done, ran, fun urn => ?_, ?_⟩
  · cases owns : machineEntry stored urn with
    | some entry =>
      obtain ⟨after, lost, ends, here⟩ := reconciles.machine urn entry owns
      rw [stays urn entry owns] at ends
      cases ends
      rw [here, (machineEntry_eq_some.mp owns).1]
    | none =>
      rw [reconciles.others urn owns, same]
      cases here : stored.get? urn with
      | none => rfl
      | some json =>
        have unmarked : isMachineEntry json = false := by
          by_contra marked
          rw [Bool.not_eq_false] at marked
          cases json with
          | obj entry =>
            rw [machineEntry_eq_some.mpr ⟨here, marked⟩] at owns
            cases owns
          | _ => cases marked
        rw [filter_some, unmarked]
        rfl
  · rw [eq_nil_iff]
    intro urn
    rw [reconciles.overrides]
    cases owns : machineEntry stored urn with
    | none => rfl
    | some entry => rw [bind_some, recorded, put, if_pos (still urn entry owns), map_none, ite_self]

theorem Reconciles.keeps (reconciles : write.Reconciles stored done) (flagged : Flagged stored)
    (layers : write.layerIds ≠ []) : write.Keeps stored done where
  machine urn := by
    rw [Bool.eq_iff_iff, isSome_iff_exists, isSome_iff_exists]
    constructor
    · rintro ⟨after, owns⟩
      obtain ⟨kept, lost, before, -⟩ := (machineEntry_done reconciles).mp owns
      exact ⟨kept, before⟩
    · rintro ⟨kept, before⟩
      obtain ⟨after, lost, ends, -⟩ := reconciles.machine urn kept before
      exact ⟨after, (machineEntry_done reconciles).mpr ⟨kept, lost, before, ends⟩⟩
  flags urn := by
    cases before : machineEntry stored urn with
    | none =>
      cases owns : machineEntry done.assignments urn with
      | none => rfl
      | some after =>
        obtain ⟨kept, lost, owned, -⟩ := (machineEntry_done reconciles).mp owns
        rw [before] at owned
        cases owned
    | some kept =>
      obtain ⟨after, lost, ends, -⟩ := reconciles.machine urn kept before
      obtain ⟨cascades, flag⟩ := flagged urn kept before
      rw [(machineEntry_done reconciles).mpr ⟨kept, lost, before, ends⟩, bind_some,
        bind_some, inheritsChildren_done ends, flag]
      cases cascades <;> rfl
  others := reconciles.others
  layers urn entry owns := reconciles.layers layers owns
  again recordOverrides now :=
    reconcile_again reconciles.flagged (fun urn entry owns => reconciles.layers layers owns) rfl

end Write

theorem get?_remember {overrides new : Dict String Entry} {urn : String} {held : Entry}
    (remembered : (remember overrides new).get? urn = some held) :
    ((new.get? urn).or (overrides.get? urn)) = some held := by
  rw [← get?_update, ← get?_items]
  rw [remember] at remembered
  split at remembered
  · exact remembered
  · apply get?_of_mem (nodup_keys_items _)
    have mem := mem_of_mem_drop (mem_of_get? remembered)
    exact (mem_insertionSort _).mp mem

/-- A view, and where a person last put each of the server's entries, if that was recorded. -/
structure Session where
  stored : Stored
  put : String → Option Entry

namespace Session

def write (session : Session) (write : Write) : Session where
  stored := session.stored.write write
  put urn :=
    match write.reconcileLayoutWrite session.stored.assignments with
    | none => session.put urn
    | some _ =>
      match (machineEntry session.stored.assignments urn).bind (write.put urn) with
      | none => session.put urn
      | some entry => if write.recordOverrides then some entry else none

def run (stored : Stored) (writes : List Write) : Session :=
  writes.foldl write ⟨stored, fun _ => none⟩

/-- Each recorded place is in the record, if there still is one, and in the entry, unless it
lost its layer since. -/
structure Remembers (session : Session) : Prop where
  record : ∀ urn place held, session.put urn = some place →
    session.stored.overrides.get? urn = some held → ∃ now, held = record now place
  entry : ∀ urn place, session.put urn = some place →
    ∃ kept, machineEntry session.stored.assignments urn = some kept ∧
      ∀ key ∈ Inputs.placementKeys, kept.get? key = place.get? key ∨ kept.get? key = none

variable {session : Session} {write' : Write}

theorem Remembers.write (remembers : session.Remembers) : (session.write write').Remembers := by
  cases ran : write'.reconcileLayoutWrite session.stored.assignments with
  | none =>
    have same : session.write write' = session := by
      rw [Session.write, Stored.write, ran]
    rw [same]
    exact remembers
  | some done =>
    have reconciles := Write.reconciles ran
    have assignments : (session.write write').stored.assignments = done.assignments := by
      rw [Session.write, Stored.write, ran]
    have overrides {urn : String} {held : Entry}
        (here : (session.write write').stored.overrides.get? urn = some held) :
        ((done.overrides.get? urn).or (session.stored.overrides.get? urn)) = some held := by
      rw [Session.write, Stored.write, ran] at here
      dsimp only at here
      split at here
      · next none => rwa [none, get?_nil, none_or]
      · exact get?_remember here
    -- Where the entry is after the write, and how it was put there.
    have place (urn : String) (place : Entry) (put : (session.write write').put urn = some place) :
        ∃ kept, machineEntry session.stored.assignments urn = some kept ∧
          ((write'.put urn kept = some place ∧ write'.recordOverrides = true) ∨
            (write'.put urn kept = none ∧ session.put urn = some place)) := by
      rw [Session.write, ran] at put
      dsimp only at put
      cases owns : machineEntry session.stored.assignments urn with
      | none =>
        rw [owns] at put
        obtain ⟨kept, owns', -⟩ := remembers.entry urn place put
        rw [owns] at owns'
        cases owns'
      | some kept =>
        refine ⟨kept, rfl, ?_⟩
        rw [owns, bind_some] at put
        cases moves : write'.put urn kept with
        | none =>
          rw [moves] at put
          exact Or.inr ⟨rfl, put⟩
        | some entry =>
          rw [moves] at put
          dsimp only at put
          split at put
          · next records =>
              cases put
              exact Or.inl ⟨rfl, records⟩
          · cases put
    constructor
    · intro urn put held is here
      obtain ⟨kept, owns, ⟨moves, records⟩ | ⟨stays, before⟩⟩ := place urn put is
      · have held' := overrides here
        rw [reconciles.overrides, owns, bind_some, Write.recorded, if_pos records, moves,
          map_some, some_or, Option.some.injEq] at held'
        exact ⟨write'.now, held'.symm⟩
      · have held' := overrides here
        rw [reconciles.overrides, owns, bind_some, Write.recorded, stays,
          map_none, ite_self, none_or] at held'
        exact remembers.record urn put held before held'
    · intro urn put is
      obtain ⟨kept, owns, moves⟩ := place urn put is
      obtain ⟨after, lost, ends, here⟩ := reconciles.machine urn kept owns
      refine ⟨after, ?_, fun key within => ?_⟩
      · rw [assignments, Write.machineEntry_done reconciles]
        exact ⟨kept, lost, owns, ends⟩
      · have sits : (write'.sits urn kept).get? key = put.get? key ∨
            (write'.sits urn kept).get? key = none := by
          rcases moves with ⟨moves, -⟩ | ⟨stays, before⟩
          · rw [Write.put] at moves
            split at moves
            · cases moves
            · cases moves
              exact Or.inl rfl
          · have still : write'.moves urn kept = [] := by
              rw [Write.put] at stays
              split at stays
              · next still => exact still
              · cases stays
            obtain ⟨kept', owns', held⟩ := remembers.entry urn put before
            rw [owns] at owns'
            cases owns'
            rw [Write.sits, still]
            exact held key within
        have other : key ≠ "assignedBy" ∧ key ≠ "inheritsChildren" := by
          rw [Inputs.placementKeys, mem_cons, mem_singleton] at within
          rcases within with rfl | rfl <;> decide
        have ends' := get?_placed_within ends within
        rw [get?_owned other.1 other.2] at ends'
        rcases ends' with same | gone
        · rw [same]
          exact sits
        · exact Or.inr gone

theorem remembers_run (stored : Stored) (writes : List Write) : (run stored writes).Remembers := by
  refine List.foldlRecOn (motive := Remembers) _ _ ?_ ?_
  · constructor
    · intro urn place held put
      cases put
    · intro urn place put
      cases put
  · intro session remembers write _
    exact remembers.write

theorem flagged_run {stored : Stored} (flagged : Write.Flagged stored.assignments)
    (writes : List Write) : Write.Flagged (run stored writes).stored.assignments := by
  refine List.foldlRecOn (motive := fun session : Session =>
    Write.Flagged session.stored.assignments) _ _ flagged ?_
  intro session flagged write _
  rw [Session.write, Stored.write]
  cases ran : write.reconcileLayoutWrite session.stored.assignments with
  | none => exact flagged
  | some done => exact (Write.reconciles ran).flagged

/-- A plan is made from the view and its records. -/
structure Replays (session : Session) (inputs : Inputs) : Prop where
  overrides : inputs.overrides = session.stored.overrides
  assignments : ∀ urn, inputs.assignments.get? urn =
    (session.stored.assignments.get? urn).bind fieldsOf

theorem get?_record {now : String} {place : Entry} {key : String} (mem : key ∈ placementKeys) :
    (record now place).get? key = (place.get? key).filter isTrue := by
  have kept : (Dict.ofKeys placementKeys fun key => (place.get? key).filter isTrue).get? key =
      (place.get? key).filter isTrue := by
    rw [get?_ofKeys, if_pos mem]
  have stamp : Dict.get? [("at", Json.str now)] key = none := by
    rw [placementKeys, mem_cons, mem_cons, mem_singleton] at mem
    rcases mem with rfl | rfl | rfl <;> rfl
  have append := get?_append
    (Dict.ofKeys placementKeys fun key => (place.get? key).filter isTrue) [("at", .str now)] key
  rw [kept, stamp, or_none] at append
  exact append

theorem Remembers.replay {session : Session} (remembers : session.Remembers) {inputs : Inputs}
    (replays : session.Replays inputs) {urn layer : String} {place held entry : Entry}
    (put : session.put urn = some place)
    (remembered : session.stored.overrides.get? urn = some held)
    (there : place.get? "layerId" = some (.str layer)) (named : layer ≠ "")
    (inView : layer ∈ inputs.layerIds)
    (listed : (plan inputs).assignments.get? urn = some entry) :
    entry.get? "layerId" = some (.str layer) ∧ ∀ key ∈ Inputs.placementKeys,
        (entry.get? key).filter isTrue = (place.get? key).filter isTrue := by
  obtain ⟨now, rfl⟩ := remembers.record urn place held put remembered
  obtain ⟨kept, owns, within⟩ := remembers.entry urn place put
  obtain ⟨here, machine⟩ := machineEntry_eq_some.mp owns
  have stored : inputs.assignments.get? urn = some kept := by
    rw [replays.assignments, here]
    rfl
  have free : inputs.user.get? urn = none := by
    rw [Inputs.get?_user, stored, filter_some, machine]
    rfl
  have old : inputs.old.get? urn = some kept := by
    rw [Inputs.get?_old, stored, filter_some, if_pos machine]
  have override : inputs.override urn = Ownership.record now place := by
    rw [Inputs.override, replays.overrides, remembered, getD_some]
  rw [Inputs.get?_assignments, free, or_none] at listed
  have known : (inputs.cands.get? urn).isSome := by
    by_contra unknown
    rw [not_isSome_iff_eq_none] at unknown
    rw [Inputs.get?_planned_of_unknown unknown] at listed
    cases listed
  rw [Inputs.get?_planned known] at listed
  obtain ⟨c, layer', -, -, goes, -, rfl⟩ := Inputs.listing_eq_some listed
  have first : truthy (inputs.layerOf (inputs.override urn)) = some layer := by
    have text : View.isTrue (Json.str layer) = true := decide_eq_true named
    rw [override, Inputs.layerOf, get?_record (by decide), there, filter_some, if_pos text,
      Inputs.valid_str inView]
    exact filter_some_pos (decide_eq_true named)
  rw [Inputs.home, Inputs.ownLayer, Inputs.named, first] at goes
  cases goes
  refine ⟨Inputs.layerId_entryIn, fun key mem => ?_⟩
  have mem' : key ∈ placementKeys := mem_cons_of_mem _ mem
  rw [Inputs.get?_entryIn_placement mem, Inputs.given, override, get?_record mem',
    Option.filter_filter, old]
  simp only [Bool.and_self]
  cases given : (place.get? key).filter isTrue with
  | some value =>
    rw [some_or, filter_some, if_pos (mem_filter_iff.mp given).2]
  | none =>
    rw [eq_none_iff_forall_ne_some]
    intro value carries
    obtain ⟨carries, true'⟩ := mem_filter_iff.mp carries
    obtain ⟨kept', stays, carries⟩ := bind_eq_some_iff.mp carries
    obtain ⟨same, -⟩ := mem_filter_iff.mp stays
    cases same
    have carries := (mem_filter_iff.mp carries).1
    rcases within key mem with same | gone
    · rw [← same, carries, filter_some, if_pos true'] at given
      cases given
    · rw [gone] at carries
      cases carries

/-- Over every sequence of layout writes, each write that goes through keeps what the server owns;
and the next plan keeps where people put the server's entries. -/
theorem run_keepsEntries (stored : Stored) (flagged : Write.Flagged stored.assignments)
    (writes : List Write) (layers : ∀ write ∈ writes, write.layerIds ≠ []) :
    (∀ front write back, writes = front ++ write :: back → ∀ done,
      write.reconcileLayoutWrite (run stored front).stored.assignments = some done →
        write.Keeps (run stored front).stored.assignments done) ∧
    ∀ inputs, (run stored writes).Replays inputs →
      ∀ urn place, (run stored writes).put urn = some place →
        ((run stored writes).stored.overrides.get? urn).isSome →
        ∀ layer ∈ inputs.layerIds, layer ≠ "" → place.get? "layerId" = some (.str layer) →
          ∀ entry, (plan inputs).assignments.get? urn = some entry →
            entry.get? "layerId" = some (.str layer) ∧ ∀ key ∈ Inputs.placementKeys,
                (entry.get? key).filter isTrue = (place.get? key).filter isTrue := by
  constructor
  · rintro front write back rfl done ran
    exact (Write.reconciles ran).keeps (flagged_run flagged front)
      (layers write (mem_append_right _ mem_cons_self))
  · intro inputs replays urn place put remembered layer inView named there entry listed
    obtain ⟨held, remembered⟩ := isSome_iff_exists.mp remembered
    exact (remembers_run stored writes).replay replays put remembered there named inView listed

def listedIn (layerId : String) : Entry :=
  [("layerId", .str layerId), ("inheritsChildren", .bool false), ("assignedBy", machineMark)]

def moveTo (layerId : String) : Write where
  incoming := [("orders", .obj [("layerId", .str layerId), ("orderKey", .str "a1")])]
  layerIds := ["core", layerId]
  now := "t1"

def planAfter (layerId : String) : Inputs where
  cands := [("orders", { urn := "orders", member := true, sourceLayer := some "core" })]
  assignments := [("orders", (listedIn layerId).set "orderKey" (.str "a1"))]
  layerIds := ["core", layerId]
  overrides := (run ⟨[("orders", .obj (listedIn "core"))], []⟩ [moveTo layerId]).stored.overrides
  placer := fun _ => []
  fallbackLayerId := none
  limit := 100

theorem flagged_listedIn : Write.Flagged [("orders", .obj (listedIn "core"))] := by
  intro urn entry owns
  have mem := mem_of_get? (machineEntry_eq_some.mp owns).1
  rw [mem_singleton] at mem
  cases mem
  exact ⟨false, by decide⟩

theorem replays_planAfter {layerId : String}
    (stored : (run ⟨[("orders", .obj (listedIn "core"))], []⟩ [moveTo layerId]).stored.assignments =
      [("orders", .obj ((listedIn layerId).set "orderKey" (.str "a1")))]) :
    (run ⟨[("orders", .obj (listedIn "core"))], []⟩ [moveTo layerId]).Replays
      (planAfter layerId) where
  overrides := rfl
  assignments urn := by
    rw [stored, planAfter, get?_cons, get?_cons]
    split
    · rfl
    · rfl

/-- A move to another layer stays. -/
theorem planAfter_marts : ∃ entry, (plan (planAfter "marts")).assignments.get? "orders" =
    some entry ∧ entry.get? "layerId" = some (.str "marts") := by
  have listed : (plan (planAfter "marts")).assignments.get? "orders" =
      some (((plan (planAfter "marts")).assignments.get? "orders").getD []) := by
    decide +kernel
  refine ⟨_, listed, ?_⟩
  exact ((run_keepsEntries ⟨[("orders", .obj (listedIn "core"))], []⟩ flagged_listedIn
    [moveTo "marts"] (by decide)).2 (planAfter "marts") (replays_planAfter (by decide +kernel))
    "orders" ((listedIn "marts").set "orderKey" (.str "a1")) (by decide +kernel)
    (by decide +kernel) "marts" (by decide) (by decide) (by decide) _ listed).1

/-- A move to the layer whose id is the empty text does not. -/
theorem planAfter_unnamed : ¬ ∀ (stored : Stored) (writes : List Write) (inputs : Inputs),
    Write.Flagged stored.assignments → (∀ write ∈ writes, write.layerIds ≠ []) →
    (run stored writes).Replays inputs → ∀ urn place, (run stored writes).put urn = some place →
        ∀ layer ∈ inputs.layerIds, place.get? "layerId" = some (.str layer) →
          ∀ entry, (plan inputs).assignments.get? urn = some entry →
            entry.get? "layerId" = some (.str layer) ∧
              ∀ key ∈ Inputs.placementKeys, entry.get? key = place.get? key := by
  intro keeps
  have back := (keeps ⟨[("orders", .obj (listedIn "core"))], []⟩ [moveTo ""] (planAfter "")
    flagged_listedIn (by decide) (replays_planAfter (by decide +kernel)) "orders"
    ((listedIn "").set "orderKey" (.str "a1")) (by decide +kernel) "" (by decide) (by decide)
    (((plan (planAfter "")).assignments.get? "orders").getD []) (by decide +kernel)).1
  revert back
  decide +kernel

end Session

end DataViz.LiveView
