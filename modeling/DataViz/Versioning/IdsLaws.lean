/-
# When an id is greater than the one before it

The text of a `ulid` is ordered as its millisecond and its random part are, and so is the number of
a `uuid7`. A `ulid` therefore comes after the last one exactly when the clock is not behind the
millisecond kept, and a `uuid7` unless the millisecond it counts on to no longer fits 48 bits.
-/

import DataViz.Versioning.Ids
import Mathlib.Data.Nat.Bitwise
import Mathlib.Tactic.Ring

namespace DataViz.Versioning.Ids

section

theorem mask80_eq : mask80 = 2 ^ 80 - 1 := rfl

theorem mask74_eq : mask74 = 2 ^ 74 - 1 := rfl

def letter (digit : Fin 32) : Char :=
  crockford[digit]

theorem letter_rising : StrictMono letter := by
  intro digit digit' less
  revert less
  revert digit digit'
  decide

theorem lowBits_eq (value : ℕ) : lowBits value = Fin.ofNat 32 value := by
  refine Fin.ext ?_
  exact Nat.and_two_pow_sub_one_eq_mod value 5

theorem reverse_encodeLoop (value length : ℕ) :
    (encodeLoop value length).reverse = written letter value length := by
  induction length generalizing value with
  | zero => rfl
  | succ length ih =>
    change (_ :: encodeLoop _ length).reverse = _
    rw [List.reverse_cons, ih, Nat.shiftRight_eq_div_pow, written]
    show _ ++ [letter (lowBits value)] = _
    rw [lowBits_eq]

/-- The texts of two ids are ordered by the milliseconds, then by the random parts. -/
theorem encode_lt_iff {ts ts' rand rand' : ℕ} (ts_fits : ts < 2 ^ 50) (ts_fits' : ts' < 2 ^ 50)
    (rand_fits : rand < 2 ^ 80) (rand_fits' : rand' < 2 ^ 80) :
    encode ts 10 ++ encode rand 16 < encode ts' 10 ++ encode rand' 16 ↔
      ts < ts' ∨ ts = ts' ∧ rand < rand' := by
  rw [String.lt_iff_toList_lt]
  simp only [encode, String.toList_append, String.toList_ofList, reverse_encodeLoop]
  rw [append_lt_append_iff (by simp), written_lt_iff letter_rising ts_fits ts_fits',
    written_inj letter_rising.injective ts_fits ts_fits',
    written_lt_iff letter_rising rand_fits rand_fits']

end

section

/-- Two parts side by side make their sum. -/
theorem shiftLeft_or_eq {high low width : ℕ} (fits : low < 2 ^ width) :
    high <<< width ||| low = high * 2 ^ width + low := by
  rw [← Nat.shiftLeft_add_eq_or_of_lt fits, Nat.shiftLeft_eq]

theorem uuid7Value_eq {ts rand : ℕ} (fits : rand < 2 ^ 74) :
    uuid7Value ts rand = ts % 2 ^ 48 * 2 ^ 80 + 7 * 2 ^ 76 + rand / 2 ^ 62 * 2 ^ 64 + 2 * 2 ^ 62 +
      rand % 2 ^ 62 := by
  have low : rand % 2 ^ 62 < 2 ^ 62 := Nat.mod_lt _ (by decide)
  have variant_ : (2 : ℕ) <<< 62 ||| rand % 2 ^ 62 = 2 * 2 ^ 62 + rand % 2 ^ 62 :=
    shiftLeft_or_eq low
  have random : (rand / 2 ^ 62) <<< 64 ||| (2 * 2 ^ 62 + rand % 2 ^ 62) =
      rand / 2 ^ 62 * 2 ^ 64 + (2 * 2 ^ 62 + rand % 2 ^ 62) := shiftLeft_or_eq (by omega)
  have version : (7 : ℕ) <<< 76 ||| (rand / 2 ^ 62 * 2 ^ 64 + (2 * 2 ^ 62 + rand % 2 ^ 62)) =
      7 * 2 ^ 76 + (rand / 2 ^ 62 * 2 ^ 64 + (2 * 2 ^ 62 + rand % 2 ^ 62)) :=
    shiftLeft_or_eq (by omega)
  have time : (ts % 2 ^ 48) <<< 80 |||
      (7 * 2 ^ 76 + (rand / 2 ^ 62 * 2 ^ 64 + (2 * 2 ^ 62 + rand % 2 ^ 62))) =
      ts % 2 ^ 48 * 2 ^ 80 +
        (7 * 2 ^ 76 + (rand / 2 ^ 62 * 2 ^ 64 + (2 * 2 ^ 62 + rand % 2 ^ 62))) :=
    shiftLeft_or_eq (by omega)
  have mask48 : ts &&& ((1 <<< 48) - 1) = ts % 2 ^ 48 := Nat.and_two_pow_sub_one_eq_mod ts 48
  have mask62 : rand &&& ((1 <<< 62) - 1) = rand % 2 ^ 62 := Nat.and_two_pow_sub_one_eq_mod rand 62
  rw [uuid7Value, mask48, mask62, Nat.shiftRight_eq_div_pow, Nat.or_assoc, Nat.or_assoc,
    Nat.or_assoc, variant_, random, version, time]
  ring

/-- The numbers of two ids are ordered by the milliseconds as they are held, then by the random
parts. -/
theorem uuid7Value_lt_iff {ts ts' rand rand' : ℕ} (fits : rand < 2 ^ 74) (fits' : rand' < 2 ^ 74) :
    uuid7Value ts rand < uuid7Value ts' rand' ↔
      ts % 2 ^ 48 < ts' % 2 ^ 48 ∨ ts % 2 ^ 48 = ts' % 2 ^ 48 ∧ rand < rand' := by
  rw [uuid7Value_eq fits, uuid7Value_eq fits']
  omega

end

section

/-- The id a state remembers having given, as `ulid` writes it. -/
structure GaveUlid (last : Last) (id : String) : Prop where
  started : 0 ≤ last.ts
  timeFits : last.ts ≤ 2 ^ 48
  randFits : last.rand < 2 ^ 80
  given : id = encode last.ts.toNat 10 ++ encode last.rand 16

/-- The id a state remembers having given, as `uuid7` numbers it. -/
structure GaveUuid (last : Last) (id : ℕ) : Prop where
  started : 0 ≤ last.ts
  randFits : last.rand < 2 ^ 74
  given : id = uuid7Value last.ts.toNat last.rand

theorem counted {rand width : ℕ} (fits : rand < 2 ^ width) :
    (rand + 1) &&& (2 ^ width - 1) = if rand + 1 = 2 ^ width then 0 else rand + 1 := by
  rw [Nat.and_two_pow_sub_one_eq_mod]
  split
  case isTrue full => rw [full, Nat.mod_self]
  case isFalse room => exact Nat.mod_eq_of_lt (lt_of_le_of_ne fits room)

variable {last : Last}

/-- What a call to `ulid` keeps, by the clock and by whether the random part ran out. -/
theorem ulidNext_cases (call : Call) (fits : last.rand < 2 ^ 80) :
    (call.now = last.ts ∧ last.rand + 1 < 2 ^ 80 ∧ ulidNext last call = ⟨last.ts, last.rand + 1⟩) ∨
    (call.now = last.ts ∧ ulidNext last call = ⟨last.ts + 1, call.drawn.toNat⟩) ∨
    ((call.now : ℤ) ≠ last.ts ∧ ulidNext last call = ⟨call.now, call.drawn.toNat⟩) := by
  by_cases same : (call.now : ℤ) = last.ts
  · rw [ulidNext, if_pos same, mask80_eq, counted fits]
    by_cases full : last.rand + 1 = 2 ^ 80
    · exact .inr (.inl ⟨same, by rw [if_pos full, if_pos rfl, same]⟩)
    · exact .inl ⟨same, lt_of_le_of_ne fits full, by
        rw [if_neg full, if_neg (Nat.succ_ne_zero _)]⟩
  · exact .inr (.inr ⟨same, by rw [ulidNext, if_neg same]⟩)

/-- What a call to `uuid7` keeps, by the clock and by whether the random part ran out. -/
theorem uuid7Next_cases (call : Call) (fits : last.rand < 2 ^ 74) :
    (call.now ≤ last.ts ∧ last.rand + 1 < 2 ^ 74 ∧ uuid7Next last call = ⟨last.ts, last.rand + 1⟩) ∨
    (call.now ≤ last.ts ∧ last.rand + 1 = 2 ^ 74 ∧
      uuid7Next last call = ⟨last.ts + 1, call.drawn.toNat % 2 ^ 74⟩) ∨
    (last.ts < call.now ∧ uuid7Next last call = ⟨call.now, call.drawn.toNat % 2 ^ 74⟩) := by
  have masked : call.drawn.toNat &&& mask74 = call.drawn.toNat % 2 ^ 74 :=
    Nat.and_two_pow_sub_one_eq_mod _ 74
  by_cases behind : (call.now : ℤ) ≤ last.ts
  · rw [uuid7Next, if_pos behind, masked, mask74_eq, counted fits]
    by_cases full : last.rand + 1 = 2 ^ 74
    · exact .inr (.inl ⟨behind, full, by rw [if_pos full, if_pos rfl]⟩)
    · exact .inl ⟨behind, lt_of_le_of_ne fits full, by
        rw [if_neg full, if_neg (Nat.succ_ne_zero _)]⟩
  · exact .inr (.inr ⟨lt_of_not_ge behind, by rw [uuid7Next, if_neg behind, masked]⟩)

theorem gaveUlid (call : Call) (time : last.ts ≤ 2 ^ 48) (fits : last.rand < 2 ^ 80) :
    GaveUlid (ulid last call).1 (ulid last call).2 := by
  have range := call.inRange
  have next := ulidNext_cases call fits
  refine ⟨?_, ?_, ?_, rfl⟩ <;>
    rcases next with ⟨same, room, kept⟩ | ⟨same, kept⟩ | ⟨differs, kept⟩ <;>
    simp only [ulid, kept] <;> omega

theorem gaveUuid (call : Call) (fits : last.rand < 2 ^ 74) :
    GaveUuid (uuid7 last call).1 (uuid7 last call).2 := by
  have next := uuid7Next_cases call fits
  refine ⟨?_, ?_, rfl⟩ <;>
    rcases next with ⟨behind, room, kept⟩ | ⟨behind, full, kept⟩ | ⟨ahead, kept⟩ <;>
    simp only [uuid7, kept] <;> omega

theorem lt_ulid_iff {id : String} (gave : GaveUlid last id) (call : Call) :
    id < (ulid last call).2 ↔ last.ts ≤ call.now := by
  have next := gaveUlid call gave.timeFits gave.randFits
  have time : last.ts.toNat < 2 ^ 50 := by
    have := gave.timeFits
    omega
  have time' : (ulid last call).1.ts.toNat < 2 ^ 50 := by
    have := next.timeFits
    omega
  rw [gave.given, next.given, encode_lt_iff time time' gave.randFits next.randFits]
  have started := gave.started
  rcases ulidNext_cases call gave.randFits with ⟨same, room, kept⟩ | ⟨same, kept⟩ | ⟨differs, kept⟩
    <;> simp only [ulid, kept, true_and] <;> omega

/-- The call takes a millisecond that the 48 bits of an id hold as 0: the clock is not ahead of the
state, the random part is at its end, and so is the millisecond. -/
def Wraps (last : Last) (call : Call) : Prop :=
  (call.now : ℤ) ≤ last.ts ∧ last.rand = mask74 ∧ (last.ts + 1) % 2 ^ 48 = 0

theorem lt_uuid7_iff {id : ℕ} (gave : GaveUuid last id) (call : Call) :
    id < (uuid7 last call).2 ↔ ¬Wraps last call := by
  have next := gaveUuid call gave.randFits
  rw [gave.given, next.given, uuid7Value_lt_iff gave.randFits next.randFits, Wraps, mask74_eq]
  have started := gave.started
  have range := call.inRange
  rcases uuid7Next_cases call gave.randFits with
    ⟨behind, room, kept⟩ | ⟨behind, full, kept⟩ | ⟨ahead, kept⟩ <;>
    simp only [uuid7, kept, true_and] <;> omega

end

section

/-- Each id a process gives is greater than the one before it. -/
def Rising {ι : Type} [LT ι] (ids : List ι) : Prop :=
  ids.IsChain (· < ·)

/-- Over every run of a process, the UUIDs rise exactly when no call wraps, and the ULIDs exactly
when no call finds the clock behind the state. -/
theorem ids_rise (calls : List Call) : (Rising (series uuid7 Last.fresh calls) ↔
      Throughout uuid7 (fun last call => ¬Wraps last call) Last.fresh calls) ∧
    (Rising (series ulid Last.fresh calls) ↔
      Throughout ulid (fun last call => last.ts ≤ call.now) Last.fresh calls) := by
  constructor
  · have made : ∀ last id call, GaveUuid last id →
        GaveUuid (uuid7 last call).1 (uuid7 last call).2 :=
      fun _ _ call gave => gaveUuid call gave.randFits
    have next : ∀ last id call, GaveUuid last id → (id < (uuid7 last call).2 ↔ ¬Wraps last call) :=
      fun _ _ call gave => lt_uuid7_iff gave call
    refine isChain_series_iff made next (fun call => ⟨gaveUuid call (by decide), ?_⟩) calls
    exact fun wraps => absurd wraps.1 (by simp only [Last.fresh]; omega)
  · have made : ∀ last id call, GaveUlid last id → GaveUlid (ulid last call).1 (ulid last call).2 :=
      fun _ _ call gave => gaveUlid call gave.timeFits gave.randFits
    have next : ∀ last id call, GaveUlid last id → (id < (ulid last call).2 ↔ last.ts ≤ call.now) :=
      fun _ _ call gave => lt_ulid_iff gave call
    refine isChain_series_iff made next
      (fun call => ⟨gaveUlid call (by decide) (by decide), ?_⟩) calls
    simp only [Last.fresh]
    omega

/-- Three calls within one millisecond, the first of which draws the last random part. -/
def stalled : List Call :=
  [⟨5, -1, by decide⟩, ⟨5, 7, by decide⟩, ⟨5, 7, by decide⟩]

/-- A count that runs out within one millisecond leaves the state ahead of the clock, and the next
id of that millisecond is smaller. -/
theorem ulid_falls_back : stalled.Pairwise (fun earlier later => earlier.now ≤ later.now) ∧
    ¬Rising (series ulid Last.fresh stalled) := by
  refine ⟨by decide, fun rising => ?_⟩
  have back := (List.isChain_cons_cons.1 (List.isChain_cons_cons.1 rising).2).1
  exact absurd back (by decide +kernel)

end

end DataViz.Versioning.Ids
