/-
# An accepted change is what runs

A change that passes the checks is stored as it was asked for, and the policy in force has exactly
the values asked for: each lies in its range, and a mark that was changed stands in order with its
neighbour already, so that nothing is clamped. Whatever is stored, the marks in force are in order.
-/

import DataViz.Residency.Policy

namespace DataViz.Residency

open List Option

variable {readInt : String → Option ℤ} {env : Environment}

section

theorem wireNamed_name (wire : Wire) : wireNamed wire.name = some wire := by
  rcases wire with _ | _ | (_ | _ | _ | _ | _ | _ | _ | _) <;> decide

theorem name_of_wireNamed {name : String} {wire : Wire} (named_ : wireNamed name = some wire) :
    wire.name = name := by
  simpa using find?_some named_

end

section

/-- A value that `checkValue` lets through for a setting. -/
def Accepted (wire : Wire) (value : Json) : Prop :=
  value = .null ∨ isInherit value = true ∨ accepts wire value = true

theorem accepted_of_checkValue {entry : String × Json} (passes : checkValue entry = .ok ()) :
    ∃ wire, wireNamed entry.1 = some wire ∧ Accepted wire entry.2 := by
  rw [checkValue] at passes
  cases found : wireNamed entry.1 with
  | none =>
    rw [found] at passes
    cases passes
  | some wire =>
    refine ⟨wire, rfl, ?_⟩
    simp only [found] at passes
    split at passes
    case h_1 unset => exact .inl unset
    case h_2 =>
      split at passes
      case isTrue fine => exact .inr (by simpa using fine)
      case isFalse => cases passes

theorem checkValue_of_forM {values : Dict String Json}
    (passes : values.forM checkValue = .ok ()) : ∀ entry ∈ values, checkValue entry = .ok () := by
  induction values with
  | nil => exact fun _ mem => absurd mem not_mem_nil
  | cons first rest ih =>
    change (checkValue first >>= fun _ => rest.forM checkValue) = .ok () at passes
    cases checked : checkValue first with
    | error refused =>
      rw [checked] at passes
      cases passes
    | ok _ =>
      rw [checked] at passes
      exact forall_mem_cons.2 ⟨checked, ih passes⟩

/-- What `validate` lets through: every value is accepted for a setting, and each pair that the
change names is in order once in force. -/
structure Valid (readInt : String → Option ℤ) (env : Environment) (values : Dict String Json)
    (saved : Saved) : Prop where
  accepted : ∀ entry ∈ values, ∃ wire, wireNamed entry.1 = some wire ∧ Accepted wire entry.2
  idle : named values .standardIdleSecs = true ∨ named values .coldlineIdleSecs = true →
    (single readInt env (merged saved values)).whole .coldlineIdleSecs ≤
      (single readInt env (merged saved values)).whole .standardIdleSecs
  marks : named values .highWaterPct = true ∨ named values .lowWaterPct = true →
    (single readInt env (merged saved values)).whole .lowWaterPct ≤
      (single readInt env (merged saved values)).whole .highWaterPct - 5

theorem valid_of_validate {values : Dict String Json} {saved : Saved}
    (passes : validate readInt env values saved = .ok ()) : Valid readInt env values saved := by
  rw [validate] at passes
  cases checked : values.forM checkValue with
  | error refused =>
    rw [checked] at passes
    cases passes
  | ok _ =>
    rw [checked] at passes
    simp only [bind, Except.bind] at passes
    split at passes
    case isTrue => cases passes
    case isFalse idle =>
      split at passes
      case isTrue => cases passes
      case isFalse marks =>
        exact ⟨fun entry mem => accepted_of_checkValue (checkValue_of_forM checked entry mem),
          fun touched => not_lt.1 fun longer => idle ⟨longer, touched⟩,
          fun touched => not_lt.1 fun higher => marks ⟨higher, touched⟩⟩

end

section

variable {wire : Wire}

theorem merged_of_get? {values : Dict String Json} {asked : Json}
    (here : values.get? wire.name = some asked) (set : asked ≠ .null) (saved : Saved) :
    merged saved values wire = storedAs asked := by
  rw [merged, here]
  split
  case h_1 absent => cases absent
  case h_2 unset => exact absurd (some_inj.1 unset) set
  case h_3 same => rw [some_inj.1 same]

/-- The first setting of a change is stored, the others after it. -/
theorem merged_cons {name : String} {value : Json} {rest : Dict String Json}
    (named_ : wireNamed name = some wire) (fresh : name ∉ Dict.keys rest) (row : Saved) :
    merged row ((name, value) :: rest) = merged (merged row [(name, value)]) rest := by
  have same := name_of_wireNamed named_
  funext other
  by_cases here : name = other.name
  · have absent : rest.get? other.name = none := by
      rw [Dict.get?_eq_none_iff, ← here]
      exact fresh
    simp only [merged, Dict.get?_cons, here, if_true, absent]
  · simp only [merged, Dict.get?_cons, here, if_false, Dict.get?_nil]

theorem applyOne_eq {name : String} {value : Json} (named_ : wireNamed name = some wire)
    (row : Saved) : applyOne row (name, value) = some (merged row [(name, value)]) := by
  have same := name_of_wireNamed named_
  have apart : ∀ other : Wire, name = other.name ↔ other = wire := by
    intro other
    refine ⟨fun here => ?_, fun here => by rw [here, same]⟩
    rw [here, wireNamed_name] at named_
    exact some_inj.1 named_
  rw [applyOne]
  split
  case h_1 unset =>
    refine congrArg some (funext fun other => ?_)
    have unset : value = .null := unset
    by_cases here : name = other.name <;> simp [merged, Dict.get?_cons, here, unset]
  case h_2 set =>
    rw [named_]
    refine congrArg some (funext fun other => ?_)
    by_cases here : other = wire
    · show Function.update row wire (storedAs value) other = _
      rw [here, Function.update_self]
      refine (merged_of_get? ?_ set row).symm
      rw [Dict.get?_cons, if_pos same.symm]
    · have miss := mt (apart other).1 here
      simp [Function.update_of_ne here, merged, Dict.get?_cons, miss]

theorem apply_eq_merged {values : Dict String Json} (distinct : values.keys.Nodup)
    (names : ∀ entry ∈ values, ∃ wire, wireNamed entry.1 = some wire) (saved : Saved) :
    apply saved values = some (merged saved values) := by
  induction values generalizing saved with
  | nil => rfl
  | cons entry rest ih =>
    obtain ⟨name, value⟩ := entry
    obtain ⟨wire, named_⟩ := names _ mem_cons_self
    have fresh : name ∉ Dict.keys rest ∧ (Dict.keys rest).Nodup := nodup_cons.1 distinct
    have after := ih fresh.2 (fun entry mem => names entry (mem_cons_of_mem _ mem))
      (merged saved [(name, value)])
    rw [apply, foldlM_cons, applyOne_eq named_, merged_cons named_ fresh.1]
    exact after

end

section

theorem accepts_shipped (wire : Wire) :
    accepts wire ((ownDefault readInt .shipped).value wire) = true := by
  rcases wire with _ | _ | (_ | _ | _ | _ | _ | _ | _ | _) <;> rfl

theorem wholeInRange_of_mem {field : Whole} {n : ℤ} (fallback : ℤ)
    (low : field.range.1 ≤ n) (high : n ≤ field.range.2) :
    wholeInRange readInt field (.int n) fallback = n := by
  rw [wholeInRange, toInt]
  dsimp only
  rw [min_eq_right high, max_eq_right low]

variable {asked : Json} {wire : Wire}

/-- What `accepts` lets through, kind by kind. -/
theorem accepts_cases (fits : accepts wire asked = true) :
    (∃ b, wire = .evictionEnabled ∧ asked = .bool b) ∨
    (∃ s, wire = .defaultResidency ∧ asked = .str s ∧ s ∈ classes) ∨
    ∃ field n, wire = .whole field ∧ asked = .int n ∧ field.range.1 ≤ n ∧ n ≤ field.range.2 := by
  unfold accepts at fits
  split at fits
  case h_1 b => exact .inl ⟨b, rfl, rfl⟩
  case h_2 s => exact .inr (.inl ⟨s, rfl, rfl, by simpa using fits⟩)
  case h_3 field n => exact .inr (.inr ⟨field, n, rfl, rfl, by simpa using fits⟩)
  case h_4 => cases fits

/-- No range reaches down to `-1`. -/
theorem isInherit_of_accepts (fits : accepts wire asked = true) : isInherit asked = false := by
  rcases accepts_cases fits with ⟨b, -, rfl⟩ | ⟨s, -, rfl, -⟩ | ⟨field, n, -, rfl, low, -⟩
  · rfl
  · rfl
  · have whole : 0 ≤ field.range.1 := by cases field <;> decide
    exact decide_eq_false (by omega)

theorem single_value {saved : Saved} (set : asked ≠ .null) (accepted : Accepted wire asked)
    (stored : saved wire = storedAs asked) : (single readInt env saved).value wire =
      if isInherit asked then (ownDefault readInt env).value wire else asked := by
  rcases accepted with unset | inherit | fits
  · exact absurd unset set
  · rw [storedAs, if_pos inherit] at stored
    rw [if_pos inherit]
    cases wire <;> simp only [Values.value, single, stored, orDefault]
  · have plain := isInherit_of_accepts fits
    rw [storedAs, if_neg (by simp [plain])] at stored
    rw [if_neg (by simp [plain])]
    rcases accepts_cases fits with
      ⟨b, rfl, rfl⟩ | ⟨s, rfl, rfl, known⟩ | ⟨field, n, rfl, rfl, within⟩
    · simp only [Values.value, single, stored, orDefault, switchInRange]
    · simp only [Values.value, single, stored, orDefault, classInRange, if_pos known]
    · simp only [Values.value, single, stored, orDefault, wholeInRange_of_mem _ within.1 within.2]

/-- The marks in order: Coldline idles no longer than Standard, and the stop mark is five points
under the start mark. -/
structure Ordered (values : Values) : Prop where
  idle : values.whole .coldlineIdleSecs ≤ values.whole .standardIdleSecs
  marks : values.whole .lowWaterPct + 5 ≤ values.whole .highWaterPct

theorem ordered_effective (saved : Saved) : Ordered (effective readInt env saved) := by
  refine ⟨min_le_right _ _, ?_⟩
  have below : (effective readInt env saved).whole .lowWaterPct ≤
      (single readInt env saved).whole .highWaterPct - 5 := min_le_right _ _
  have same : (effective readInt env saved).whole .highWaterPct =
      (single readInt env saved).whole .highWaterPct := rfl
  omega

theorem named_of_get? {values : Dict String Json} {field : Whole}
    (here : values.get? (Wire.whole field).name = some asked) : named values field = true := by
  rw [named, decide_eq_true_eq, Dict.mem_keys_iff, here]
  rfl

/-- A setting the change names is in force as it is by itself. -/
theorem effective_value {values : Dict String Json} {saved : Saved}
    (valid : Valid readInt env values saved) (here : values.get? wire.name = some asked) :
    (effective readInt env (merged saved values)).value wire =
      (single readInt env (merged saved values)).value wire := by
  rcases wire with _ | _ | field
  · rfl
  · rfl
  · have touched := named_of_get? here
    refine congrArg Json.int ?_
    cases field
    case coldlineIdleSecs => exact min_eq_left (valid.idle (.inr touched))
    case lowWaterPct => exact min_eq_left (valid.marks (.inr touched))
    all_goals rfl

/-- A change that is accepted is stored, and each setting it changes is in force as it was asked
for, `-1` as the setting's default; and whatever is stored, the marks in force are in order. -/
theorem accepted_runs (readInt : String → Option ℤ) (env : Environment) :
    (∀ (saved : Saved) (values : Dict String Json), values.keys.Nodup →
      validate readInt env values saved = .ok () →
      ∃ stored, apply saved values = some stored ∧
        ∀ wire asked, values.get? wire.name = some asked → asked ≠ .null →
          (effective readInt env stored).value wire =
            if isInherit asked then (ownDefault readInt env).value wire else asked) ∧
    ∀ stored : Saved, Ordered (effective readInt env stored) := by
  refine ⟨fun saved values distinct passes => ?_, ordered_effective⟩
  have valid := valid_of_validate passes
  have names : ∀ entry ∈ values, ∃ wire, wireNamed entry.1 = some wire := fun entry mem =>
    (valid.accepted entry mem).imp fun _ found => found.1
  refine ⟨merged saved values, apply_eq_merged distinct names saved, fun wire asked here set => ?_⟩
  obtain ⟨wire', named_, accepted⟩ := valid.accepted _ (Dict.mem_of_get? here)
  rw [wireNamed_name, some_inj] at named_
  subst named_
  rw [effective_value valid here]
  exact single_value set accepted (merged_of_get? here set saved)

/-- The start mark lowered to 75 on a row with nothing saved, Coldline's idle time cleared. -/
theorem accepted_runs_case : ∃ stored,
    apply (fun _ => .null) [("highWaterPct", .int 75), ("coldlineIdleSecs", .int (-1))] =
      some stored ∧
    (effective (fun _ => none) .shipped stored).value (.whole .highWaterPct) = .int 75 := by
  obtain ⟨stored, kept, inForce⟩ := (accepted_runs (fun _ => none) .shipped).1 (fun _ => .null)
    [("highWaterPct", .int 75), ("coldlineIdleSecs", .int (-1))] (by decide) (by rfl)
  exact ⟨stored, kept, inForce (.whole .highWaterPct) (.int 75) (by decide) nofun⟩

end

end DataViz.Residency
