/-
# Merging is dual in its two sides

Exchange the two sides of a merge and the side that wins a disputed field, and the same entity
comes out, by Python's `==` and whatever the order of a set field's items; each conflict is
recorded at its path with the sides exchanged.
-/

import DataViz.Versioning.SetMergeLaws

namespace DataViz.Versioning

open Json

variable {setFields : List String}

/-- A conflict as the merge with exchanged sides records it. -/
def Conflict.exchanged (c : Conflict) : Conflict :=
  { c with ours := c.theirs, theirs := c.ours }

/-- Equal by `==`, but for the order of the items in the list of a set field. -/
inductive Alike (setFields : List String) : Bool → Option Json → Option Json → Prop
  | same {isSet : Bool} {first second : Option Json} (same : PyEq? first second) :
      Alike setFields isSet first second
  | items {first second : List Json}
      (perm : (first.map (canonBy Scalar.numeric)).Perm (second.map (canonBy Scalar.numeric))) :
      Alike setFields true (some (.arr first)) (some (.arr second))
  | fields {isSet : Bool} {first second : Payload}
      (each : ∀ key, Alike setFields (key ∈ setFields) (first.get? key) (second.get? key)) :
      Alike setFields isSet (some (.obj first)) (some (.obj second))

/-- Two runs both raise, or both return and what they return is related. -/
inductive BothReturn {α β : Type} (related : α → β → Prop) :
    Except PyError α → Except PyError β → Prop
  | raise (e e' : PyError) : BothReturn related (.error e) (.error e')
  | ok {a : α} {b : β} (returned : related a b) : BothReturn related (.ok a) (.ok b)

theorem BothReturn.map {α β γ δ : Type} {related : α → β → Prop} {related' : γ → δ → Prop}
    {f : α → γ} {g : β → δ} (step : ∀ a b, related a b → related' (f a) (g b))
    {run : Except PyError α} {run' : Except PyError β} (both : BothReturn related run run') :
    BothReturn related' (run.map f) (run'.map g) := by
  cases both with
  | raise e e' => exact .raise e e'
  | ok returned => exact .ok (step _ _ returned)

def DualValue (setFields : List String) (isSet : Bool)
    (first second : Option Json × List Conflict) : Prop :=
  Alike setFields isSet first.1 second.1 ∧ second.2 = first.2.map Conflict.exchanged

/-- What the two merges make of a dictionary. -/
def DualFields (setFields : List String) (first second : Payload × List Conflict) : Prop :=
  (∀ key, Alike setFields (key ∈ setFields) (first.1.get? key) (second.1.get? key)) ∧
    second.2 = first.2.map Conflict.exchanged

/-- Only a missing value is like a missing one. -/
theorem Alike.isSome_eq {isSet : Bool} {first second : Option Json}
    (alike : Alike setFields isSet first second) : first.isSome = second.isSome := by
  cases alike with
  | same same =>
    cases first with
    | none => rw [eqBy?_none_left.mp same]
    | some a =>
      cases second with
      | none => exact nomatch eqBy?_none_right.mp same
      | some b => rfl
  | items perm => rfl
  | fields each => rfl

theorem has_items_iff {items : List Json} {x : Json} : Has (some (.arr items)) x ↔
    canonBy Scalar.numeric x ∈ items.map (canonBy Scalar.numeric) := by
  rw [List.mem_map]
  constructor
  · rintro ⟨_, same, y, mem, eq⟩
    cases same
    exact ⟨y, mem, eq⟩
  · rintro ⟨y, mem, eq⟩
    exact ⟨items, rfl, y, mem, eq⟩

/-- Lists that hold the same items, each once, differ in their order alone. -/
theorem perm_of_distinct {first second : List Json} (distinct : Distinct (some (.arr first)))
    (distinct' : Distinct (some (.arr second)))
    (same : ∀ x, Has (some (.arr first)) x ↔ Has (some (.arr second)) x) :
    (first.map (canonBy Scalar.numeric)).Perm (second.map (canonBy Scalar.numeric)) := by
  rw [List.perm_ext_iff_of_nodup (pairwise_pyEq_iff.mp (distinct first rfl))
    (pairwise_pyEq_iff.mp (distinct' second rfl))]
  intro canon
  constructor
  · intro mem
    obtain ⟨x, here, rfl⟩ := List.mem_map.mp mem
    exact has_items_iff.mp ((same x).mp (has_items_iff.mpr (List.mem_map_of_mem here)))
  · intro mem
    obtain ⟨x, here, rfl⟩ := List.mem_map.mp mem
    exact has_items_iff.mp ((same x).mpr (has_items_iff.mpr (List.mem_map_of_mem here)))

/-- A set field is merged alike whichever side is ours: both merges raise where a list holds a list
or a dictionary. -/
theorem mergeSet_dual (bv ov tv : Option Json) :
    BothReturn (fun items items' => (items.map (canonBy Scalar.numeric)).Perm
      (items'.map (canonBy Scalar.numeric))) (mergeSet bv ov tv) (mergeSet bv tv ov) := by
  cases first : mergeSet bv ov tv with
  | error e =>
    cases second : mergeSet bv tv ov with
    | error e' => exact .raise e e'
    | ok items =>
      obtain ⟨-, -, base, theirs, ours⟩ := mergeSet_spec second
      obtain ⟨items', returned⟩ := mergeSet_isOk base ours theirs
      rw [first] at returned
      cases returned
  | ok items =>
    obtain ⟨held, distinct, base, ours, theirs⟩ := mergeSet_spec first
    obtain ⟨items', second⟩ := mergeSet_isOk base theirs ours
    obtain ⟨held', distinct', -⟩ := mergeSet_spec second
    rw [second]
    refine .ok (perm_of_distinct distinct distinct' fun x => ?_)
    rw [held, held', and_comm (a := Has ov x), or_comm (a := Has ov x)]

theorem mergeEntries_dual {merge merge' : String → Except PyError (Option Json × List Conflict)}
    (each : ∀ key, BothReturn (DualValue setFields (key ∈ setFields)) (merge key) (merge' key))
    (keys : List String) :
    BothReturn (DualFields setFields) (mergeEntries merge keys) (mergeEntries merge' keys) := by
  induction keys with
  | nil => exact .ok ⟨fun _ => .same (EqBy?.refl none), rfl⟩
  | cons head rest ih =>
    rw [mergeEntries, mergeEntries]
    have here := each head
    generalize merge head = run, merge' head = run' at here
    generalize mergeEntries merge rest = tail, mergeEntries merge' rest = tail' at ih
    cases here with
    | raise e e' => exact .raise e e'
    | @ok a b value =>
    cases ih with
    | raise e e' => exact .raise e e'
    | @ok c d fields =>
    obtain ⟨value₁, confs₁⟩ := a
    obtain ⟨value₂, confs₂⟩ := b
    obtain ⟨alike, confs⟩ := value
    obtain ⟨alikes, conflicts⟩ := fields
    have both : confs₂ ++ d.2 = (confs₁ ++ c.2).map Conflict.exchanged := by
      rw [List.map_append, ← conflicts, ← confs]
    have some := alike.isSome_eq
    cases value₁ with
    | none =>
      cases value₂ with
      | none => exact .ok ⟨alikes, both⟩
      | some w => cases some
    | some v =>
      cases value₂ with
      | none => cases some
      | some w =>
        refine .ok ⟨fun key => ?_, both⟩
        rw [Dict.get?_cons, Dict.get?_cons]
        by_cases same : head = key
        · subst same
          rw [if_pos rfl, if_pos rfl]
          exact alike
        · rw [if_neg same, if_neg same]
          exact alikes key

theorem mergeFields_dual {base ours theirs : Payload} {path : Path}
    (each : ∀ key, BothReturn (DualValue setFields (key ∈ setFields))
      (mergeValue setFields .theirs (base.get? key) (ours.get? key) (theirs.get? key)
        (key ∈ setFields) (path ++ [key]))
      (mergeValue setFields .ours (base.get? key) (theirs.get? key) (ours.get? key)
        (key ∈ setFields) (path ++ [key]))) :
    BothReturn (DualFields setFields) (mergeFields setFields .theirs base ours theirs path)
      (mergeFields setFields .ours base theirs ours path) := by
  have keys : mergeKeys base theirs ours = mergeKeys base ours theirs :=
    Dict.sortedKeys_congr fun key => by
      simp only [List.mem_append]
      exact or_right_comm
  rw [mergeFields, mergeFields, keys]
  exact mergeEntries_dual each _

theorem mergeValue_dual (bv ov tv : Option Json) (isSet : Bool) (path : Path) :
    BothReturn (DualValue setFields isSet) (mergeValue setFields .theirs bv ov tv isSet path)
      (mergeValue setFields .ours bv tv ov isSet path) := by
  induction size : sizeOf ov using Nat.strong_induction_on generalizing bv ov tv isSet path with
  | _ n ih =>
  have below {b o t : Payload} (ours : ov = some (.obj o)) : BothReturn (DualValue setFields isSet)
        ((mergeFields setFields .theirs b o t path).map fun r => (some (.obj r.1), r.2))
        ((mergeFields setFields .ours b t o path).map fun r => (some (.obj r.1), r.2)) := by
    subst ours
    have fields : BothReturn (DualFields setFields) (mergeFields setFields .theirs b o t path)
        (mergeFields setFields .ours b t o path) :=
      mergeFields_dual fun key => ih _ (size ▸ sizeOf_get?_lt o key) _ _ _ _ _ rfl
    exact fields.map fun _ _ dual => ⟨.fields dual.1, dual.2⟩
  rw [mergeValue.eq_def, mergeValue.eq_def _ _ _ tv]
  by_cases sides : PyEq? ov tv
  · rw [if_pos sides, if_pos sides.symm]
    exact .ok ⟨.same sides, rfl⟩
  rw [if_neg sides, if_neg fun same => sides (EqBy?.symm same)]
  by_cases ours : PyEq? ov bv
  · rw [if_pos ours, if_neg fun theirs => sides (ours.trans (EqBy?.symm theirs)), if_pos ours]
    exact .ok ⟨.same (EqBy?.refl tv), rfl⟩
  rw [if_neg ours]
  by_cases theirs : PyEq? tv bv
  · rw [if_pos theirs, if_pos theirs]
    exact .ok ⟨.same (EqBy?.refl ov), rfl⟩
  rw [if_neg theirs, if_neg theirs, if_neg ours]
  cases isSet with
  | true =>
    exact (mergeSet_dual bv ov tv).map fun _ _ perm => ⟨.items perm, rfl⟩
  | false =>
    -- Atomic values: the winner is theirs here and ours there, the same value.
    have conflict : BothReturn (DualValue setFields false)
        (.ok (tv, [⟨path, orNone bv, orNone ov, orNone tv, .field⟩]))
        (.ok (tv, [⟨path, orNone bv, orNone tv, orNone ov, .field⟩])) :=
      .ok ⟨.same (EqBy?.refl tv), rfl⟩
    rcases ov with - | (s | items | o) <;> rcases tv with - | (s' | items' | t) <;>
      rcases bv with - | (s'' | items'' | b) <;> first | exact conflict | exact below rfl

structure DualOutcome (setFields : List String) (first second : MergeOutcome) : Prop where
  merged : Alike setFields false (first.merged.map .obj) (second.merged.map .obj)
  conflicts : second.conflicts = first.conflicts.map Conflict.exchanged

/-- `three_way_merge` of two present sides: it returns where the set fields that both changed hold
scalars, and with theirs winning it does what it does with the sides exchanged and ours winning. -/
theorem threeWayMerge_dual (setFields : List String) (base : Option Payload)
    (ours theirs : Payload) :
    (ScalarSets setFields (held base) (held (some ours)) (held (some theirs)) →
      ∃ outcome, threeWayMerge base (some ours) (some theirs) setFields .theirs = .ok outcome) ∧
    BothReturn (DualOutcome setFields)
      (threeWayMerge base (some ours) (some theirs) setFields .theirs)
      (threeWayMerge base (some theirs) (some ours) setFields .ours) := by
  have fields : BothReturn (DualFields setFields)
      (mergeFields setFields .theirs (base.getD []) ours theirs [])
      (mergeFields setFields .ours (base.getD []) theirs ours []) :=
    mergeFields_dual fun key => mergeValue_dual _ _ _ _ _
  exact ⟨threeWayMerge_returns, fields.map fun _ _ dual => ⟨.fields dual.1, dual.2⟩⟩

/-- Two sides that both add an entity, with tags and a name of their own. -/
theorem threeWayMerge_dual_adds :
    ∃ outcome, threeWayMerge none (some [("name", .str "x"), ("tags", .arr [.str "a", .int 1])])
      (some [("name", .str "y"), ("tags", .arr [.bool true])]) ["tags"] .theirs = .ok outcome := by
  apply (threeWayMerge_dual _ _ _ _).1
  have tags (name : Scalar) (items : List Scalar) : HashableSets ["tags"]
      (some (.obj [("name", .scalar name), ("tags", .arr (items.map .scalar))])) := by
    refine hashableSets_obj fun entry mem => ?_
    obtain rfl | rfl : entry = ("name", .scalar name) ∨
        entry = ("tags", .arr (items.map .scalar)) := by simpa using mem
    · exact ⟨hashableSets_scalar _, fun absurd => by simp at absurd⟩
    · refine ⟨hashableSets_arr _, fun _ elems here x held => ?_⟩
      obtain rfl : items.map Json.scalar = elems := by simpa using here
      obtain ⟨s, -, rfl⟩ := List.mem_map.mp held
      exact ⟨s, rfl⟩
  intro p key mem _ _
  exact ⟨fun items here => hashableSets_none p key items mem here,
    fun items here => tags (.str "x") [.str "a", .int 1] p key items mem here,
    fun items here => tags (.str "y") [.bool true] p key items mem here⟩

/-- As JSON the two merges may differ: `1` and `true` are the same change, and each merge keeps its
own side's. An item that no set can hold makes both raise. -/
theorem threeWayMerge_dual_one_and_true :
    (threeWayMerge (some []) (some [("a", .int 1)]) (some [("a", .bool true)]) [] .theirs =
        .ok ⟨some [("a", .int 1)], []⟩ ∧
      threeWayMerge (some []) (some [("a", .bool true)]) (some [("a", .int 1)]) [] .ours =
        .ok ⟨some [("a", .bool true)], []⟩ ∧
      ¬ SamePayload (some [("a", .int 1)]) (some [("a", .bool true)])) ∧
    threeWayMerge none (some [("tags", .arr [.obj []])]) (some [("tags", .arr [])]) ["tags"]
        .theirs = .error (.typeError "unhashable type: 'dict'") ∧
      threeWayMerge none (some [("tags", .arr [])]) (some [("tags", .arr [.obj []])]) ["tags"]
        .ours = .error (.typeError "unhashable type: 'dict'") :=
  ⟨⟨by decide +kernel, by decide +kernel, by decide⟩, by decide +kernel, by decide +kernel⟩

end DataViz.Versioning
