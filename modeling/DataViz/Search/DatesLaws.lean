/-
# Stored dates compare as the time they show

The key of a stored text is a stamp of what it shows, so keys are ordered as times. The one text
that misses is a time to the minute with its `Z` or offset right after: the suffix is cut into the
key where the seconds should be.
-/

import DataViz.Search.Dates

namespace DataViz.Search.Dates

open List Option

section

theorem digit_strictMono : StrictMono digit := by
  intro a b
  revert a b
  decide

theorem isDigit_digit (d : Fin 10) : isDigit (digit d) = true := by
  revert d
  decide

theorem digit_ne_space (d : Fin 10) : digit d ≠ ' ' := by
  revert d
  decide

theorem digit_eq_zero {d : Fin 10} (zero : digit d = '0') : d = 0 := by
  revert d
  decide

theorem number_lt {s : Text} (digits : s.all isDigit = true) : number s < 10 ^ s.length := by
  have grows : ∀ (s : Text) (n : ℕ), s.all isDigit = true →
      s.foldl (fun n c => 10 * n + (c.toNat - 48)) n < (n + 1) * 10 ^ s.length := by
    intro s
    induction s with
    | nil => simp
    | cons c s ih =>
      intro n digits
      rw [all_cons, Bool.and_eq_true] at digits
      have small : c.toNat - 48 < 10 := by
        have upper : c ≤ '9' := (of_decide_eq_true digits.1).2
        have : c.toNat ≤ 57 := upper
        omega
      refine (ih _ digits.2).trans_le ?_
      rw [length_cons, Nat.pow_succ']
      calc (10 * n + (c.toNat - 48) + 1) * 10 ^ s.length
          ≤ (10 * (n + 1)) * 10 ^ s.length := Nat.mul_le_mul_right _ (by omega)
        _ = (n + 1) * (10 * 10 ^ s.length) := by ring
  simpa [number] using grows s 0 digits

/-- Digits of a number that does not start with a zero spell an integer. -/
theorem isInt64Text_digits {s : Text} (digits : s.all isDigit = true) {c : Char}
    (first : s.head? = some c) (nonzero : c ≠ '0') (short : s.length ≤ 18) :
    isInt64Text s = true := by
  have small := number_lt digits
  have bound : number s < 10 ^ 18 := small.trans_le (Nat.pow_le_pow_right (by decide) short)
  have own : isDigit c = true := all_eq_true.1 digits c (mem_of_mem_head? first)
  have unsigned : s.head? ≠ some '-' := by
    rw [first]
    rintro same
    rw [some.inj same] at own
    exact absurd own (by decide)
  have some_ : s ≠ [] := by
    rintro rfl
    cases first
  rw [isInt64Text]
  simp only [if_neg unsigned, decide_eq_true_eq]
  refine ⟨.inr ⟨digits, some_, ?_⟩, ?_, ?_, ?_⟩
  · rw [first]
    exact fun same => nonzero (some.inj same)
  · rintro rfl
    exact unsigned rfl
  · omega
  · omega

end

section

theorem written_two (n : ℕ) :
    written digit n 2 = [digit (Fin.ofNat 10 (n / 10)), digit (Fin.ofNat 10 n)] := rfl

theorem isoformat_eq (d : Day) : d.isoformat =
    [digit (Fin.ofNat 10 (d.year / 10 / 10 / 10)), digit (Fin.ofNat 10 (d.year / 10 / 10)),
      digit (Fin.ofNat 10 (d.year / 10)), digit (Fin.ofNat 10 d.year), '-',
      digit (Fin.ofNat 10 (d.month / 10)), digit (Fin.ofNat 10 d.month), '-',
      digit (Fin.ofNat 10 (d.day / 10)), digit (Fin.ofNat 10 d.day)] := rfl

theorem storedDate_append {d : Day} (recent : 1000 ≤ d.year) (rest : Text) (grain : Grain) :
    storedDate (d.isoformat ++ rest) grain = some (match grain with
      | .day => d.isoformat
      | .second =>
        let t := d.isoformat ++ (rest.take 9).map fun c => if c = ' ' then 'T' else c
        t ++ dateTemplate.drop t.length) := by
  have thousands : digit (Fin.ofNat 10 (d.year / 10 / 10 / 10)) ≠ '0' := by
    intro zero
    have zero : d.year / 10 / 10 / 10 % 10 = 0 := congrArg Fin.val (digit_eq_zero zero)
    have small := d.year_le
    omega
  have spelled : isInt64Text
      [digit (Fin.ofNat 10 (d.year / 10 / 10 / 10)), digit (Fin.ofNat 10 (d.year / 10 / 10)),
        digit (Fin.ofNat 10 (d.year / 10)), digit (Fin.ofNat 10 d.year),
        digit (Fin.ofNat 10 (d.month / 10)), digit (Fin.ofNat 10 d.month),
        digit (Fin.ofNat 10 (d.day / 10)), digit (Fin.ofNat 10 d.day)] = true :=
    isInt64Text_digits (by simp [isDigit_digit]) rfl thousands (by simp)
  rw [isoformat_eq]
  refine Eq.trans (if_pos ⟨rfl, rfl, spelled⟩) ?_
  cases grain with
  | day => rfl
  | second =>
    simp only [cons_append, nil_append, take_succ_cons, map_cons,
      digit_ne_space, if_false, show ('-' = ' ') = False by simp]

variable {x : StoredText}

theorem storedDate_day (x : StoredText) : storedDate x.text .day = some x.day.isoformat :=
  storedDate_append x.recent _ .day

theorem stampOf_eq (d : Day) (hour minute second : ℕ) :
    stampOf d hour minute second = minuteOf d hour minute ++ ':' :: written digit second 2 := rfl

theorem length_minuteOf (d : Day) (hour minute : ℕ) : (minuteOf d hour minute).length = 16 := rfl

/-- What follows the minute is cut to three characters and padded from the template. -/
theorem storedDate_minute {d : Day} (recent : 1000 ≤ d.year) (space : Bool) (hour minute : ℕ)
    (tail : Text) :
    storedDate (d.isoformat ++ ((if space then ' ' else 'T') :: written digit hour 2 ++
        ':' :: written digit minute 2 ++ tail)) .second =
      some (minuteOf d hour minute ++
        let t := (tail.take 3).map fun c => if c = ' ' then 'T' else c
        t ++ [':', '0', '0'].drop t.length) := by
  rw [storedDate_append recent]
  have front : d.isoformat ++ ((((if space then ' ' else 'T') :: written digit hour 2 ++
      ':' :: written digit minute 2 ++ tail)).take 9).map (fun c => if c = ' ' then 'T' else c) =
      minuteOf d hour minute ++ (tail.take 3).map fun c => if c = ' ' then 'T' else c := by
    have mark : (if (if space then ' ' else 'T') = ' ' then 'T' else if space then ' ' else 'T') =
        'T' := by
      cases space <;> rfl
    have colon : (if ':' = ' ' then 'T' else ':') = ':' := rfl
    simp only [minuteOf, written_two, cons_append, nil_append, append_assoc,
      take_succ_cons, map_cons, mark, colon, digit_ne_space, if_false]
  dsimp only
  rw [front, append_assoc, length_append, length_minuteOf, ← drop_drop]
  rfl

/-- Where no suffix follows the minute, the key is the stamp of what the text shows. -/
theorem storedDate_second (x : StoredText)
    (plain : ∀ clock, x.clock = some clock → clock.seconds = none → clock.zone = none) :
    storedDate x.text .second = some (stamp digit momentLayout (x.fields .second)) := by
  obtain ⟨d, clock, recent⟩ := x
  cases clock with
  | none => exact (storedDate_append recent _ .second).trans rfl
  | some clock =>
    obtain ⟨space, hour, minute, seconds, zone, hourLe, minuteLt⟩ := clock
    cases seconds with
    | none =>
      cases plain _ rfl rfl
      have key := storedDate_minute recent space hour minute []
      refine (Eq.trans (congrArg (storedDate · .second) ?_) key).trans (congrArg some ?_)
      · simp only [StoredText.text, Clock.text, map_some, map_none,
          getD_some, getD_none, append_nil]
      · show minuteOf d hour minute ++ [':', '0', '0'] = stampOf d hour minute 0
        rw [stampOf_eq]
        rfl
    | some seconds =>
      let tail := seconds.text ++ (zone.map Zone.text).getD []
      have key := storedDate_minute recent space hour minute tail
      have cut : (tail.take 3).map (fun c => if c = ' ' then 'T' else c) =
          ':' :: written digit seconds.second 2 := by
        have colon : (if ':' = ' ' then 'T' else ':') = ':' := rfl
        simp only [tail, Seconds.text, written_two, cons_append, nil_append,
          take_succ_cons, take_zero, map_cons, map_nil, colon,
          digit_ne_space, if_false]
      rw [cut] at key
      refine (Eq.trans (congrArg (storedDate · .second) ?_) key).trans (congrArg some ?_)
      · simp only [tail, StoredText.text, Clock.text, map_some, getD_some, append_assoc]
      · show minuteOf d hour minute ++ ':' :: written digit seconds.second 2 =
          stampOf d hour minute seconds.second
        rw [stampOf_eq]

/-- A suffix right after the minute is cut into the key, and no colon stands where the seconds
should be. -/
theorem storedDate_suffix {d : Day} (recent : 1000 ≤ d.year) (space : Bool) (hour minute : ℕ)
    (zone : Zone) : ∃ c rest, c ≠ ':' ∧
      storedDate (d.isoformat ++ ((if space then ' ' else 'T') :: written digit hour 2 ++
        ':' :: written digit minute 2 ++ zone.text)) .second =
      some (minuteOf d hour minute ++ c :: rest) := by
  have starts : ∃ c more, zone.text = c :: more ∧ c ≠ ':' ∧ c ≠ ' ' := by
    cases zone with
    | utc => exact ⟨'Z', [], rfl, by decide, by decide⟩
    | offset west hours minutes =>
      refine ⟨_, _, rfl, ?_⟩
      cases west <;> decide
  obtain ⟨c, more, text, colon, space_⟩ := starts
  have key := storedDate_minute recent space hour minute (c :: more)
  simp only [take_succ_cons, map_cons, if_neg space_, cons_append] at key
  rw [text]
  exact ⟨c, _, colon, key⟩

end

section

/-- A key stands to a user's key as what it shows stands to what is asked. -/
structure Agrees (k : Text) (shown : List ℕ) (v : Text) (asked : List ℕ) : Prop where
  lt : k < v ↔ shown < asked
  gt : v < k ↔ asked < shown
  eq : k = v ↔ shown = asked

theorem agrees_stamp {layout : List (ℕ × Text)} {shown asked : List ℕ}
    (fits : Fits 10 layout shown) (fits' : Fits 10 layout asked) :
    Agrees (stamp digit layout shown) shown (stamp digit layout asked) asked where
  lt := by
    have order := stamp_append_lt_iff digit_strictMono fits fits' [] []
    simpa using order
  gt := by
    have order := stamp_append_lt_iff digit_strictMono fits' fits [] []
    simpa using order
  eq := stamp_inj digit_strictMono.injective fits fits'

theorem daysInMonth_le (year month : ℕ) : daysInMonth year month ≤ 31 := by
  rw [daysInMonth]
  split
  · split <;> omega
  · split <;> omega

theorem Day.fits (d : Day) : Fits 10 dayLayout d.fields := by
  have year := d.year_le
  have month := d.month_le.2
  have day := d.day_le.2.trans (daysInMonth_le _ _)
  refine .cons ?_ (.cons ?_ (.cons ?_ .nil)) <;> dsimp only <;> omega

theorem fits_moment (d : Day) {hour minute second : ℕ} (hourLt : hour < 100)
    (minuteLt : minute < 100) (secondLt : second < 100) :
    Fits 10 momentLayout (d.fields ++ [hour, minute, second]) := by
  have year := d.year_le
  have month := d.month_le.2
  have day := d.day_le.2.trans (daysInMonth_le _ _)
  refine .cons ?_ (.cons ?_ (.cons ?_ (.cons ?_ (.cons ?_ (.cons ?_ .nil))))) <;> dsimp only <;>
    omega

theorem Moment.fits (m : Moment) : Fits 10 momentLayout m.fields :=
  fits_moment m.day (m.hour_lt.trans (by decide)) (m.minute_lt.trans (by decide))
    (m.second_lt.trans (by decide))

theorem StoredText.fits (x : StoredText) : Fits 10 momentLayout (x.fields .second) := by
  obtain ⟨d, clock, recent⟩ := x
  cases clock with
  | none => exact fits_moment d (by decide) (by decide) (by decide)
  | some clock =>
    have hour := clock.hour_le
    have minute := clock.minute_lt
    refine fits_moment d (by omega) (by omega) ?_
    cases held : clock.seconds with
    | none => exact Nat.zero_lt_of_lt (by decide : 0 < 100)
    | some seconds =>
      have second := seconds.second_le
      show seconds.second < 100
      omega

theorem Moment.isoformat_eq (m : Moment) : m.isoformat = m.day.isoformat ++ m.clockText :=
  stampOf_eq m.day m.hour m.minute m.second

theorem key_lt_key_iff (first second : UserDate) :
    second.key < first.key ↔ second.fields < first.fields := by
  have order : ∀ (d e : Day) (more more' : Text), d.isoformat ++ more < e.isoformat ++ more' ↔
        d.fields < e.fields ∨ d.fields = e.fields ∧ more < more' := fun d e =>
    stamp_append_lt_iff digit_strictMono d.fits e.fits
  have times : ∀ (d e : Day) (more more' : List ℕ), d.fields ++ more < e.fields ++ more' ↔
      d.fields < e.fields ∨ d.fields = e.fields ∧ more < more' := fun d e =>
    append_lt_append_iff rfl
  cases first with
  | day d =>
    cases second with
    | day e => exact (agrees_stamp e.fits d.fits).lt
    | second m =>
      have keys := order m.day d m.clockText []
      have fields := times m.day d [m.hour, m.minute, m.second] []
      rw [append_nil] at keys fields
      simp only [UserDate.key, UserDate.fields, Moment.isoformat_eq, Moment.fields, keys,
        fields, not_lt_nil, and_false]
  | second m =>
    cases second with
    | day e =>
      have keys := order e m.day [] m.clockText
      have fields := times e m.day [] [m.hour, m.minute, m.second]
      rw [append_nil] at keys fields
      have begins : ([] : Text) < m.clockText := nil_lt_cons _ _
      simp only [UserDate.key, UserDate.fields, Moment.isoformat_eq, Moment.fields, keys,
        fields, begins, nil_lt_cons]
    | second n => exact (agrees_stamp n.fits m.fits).lt

def UserDate.firstMoment : UserDate → Moment
  | .day d => ⟨d, 0, 0, 0, by decide, by decide, by decide⟩
  | .second m => m

def UserDate.lastMoment : UserDate → Moment
  | .day d => ⟨d, 23, 59, 59, by decide, by decide, by decide⟩
  | .second m => m

theorem secondKey_false (u : UserDate) : secondKey false u = u.firstMoment.isoformat := by
  cases u with
  | day d => exact (stampOf_eq d 0 0 0).symm
  | second m => rfl

theorem secondKey_true (u : UserDate) : secondKey true u = u.lastMoment.isoformat := by
  cases u with
  | day d => exact (stampOf_eq d 23 59 59).symm
  | second m => rfl

theorem first_eq (u : UserDate) : u.first = u.firstMoment.fields := by
  cases u <;> rfl

theorem last_eq (u : UserDate) : u.last = u.lastMoment.fields := by
  cases u <;> rfl

end

section

variable {k : Text} {shown : List ℕ}

def answer (op : DateOp) (k : Text) (values : List Text) : Bool :=
  match op with
  | .neq => !test k .eq values
  | op => test k op values

theorem answer_iff {v : Text} {asked : List ℕ} (agrees : Agrees k shown v asked) (op : DateOp) :
    answer op k [v] = true ↔ op.Holds shown asked := by
  cases op with
  | eq => simpa [answer, test, DateOp.Holds] using agrees.eq
  | neq => simpa [answer, test, DateOp.Holds] using not_congr agrees.eq
  | gt => simpa [answer, test, DateOp.Holds] using agrees.gt
  | gte => simpa [answer, test, DateOp.Holds] using not_congr agrees.lt
  | lt => simpa [answer, test, DateOp.Holds] using agrees.lt
  | lte => simpa [answer, test, DateOp.Holds] using not_congr agrees.gt
  | between => simp [answer, test, DateOp.Holds]

theorem answer_between_iff {lower upper : Text} {low high : List ℕ}
    (below : Agrees k shown lower low) (above : Agrees k shown upper high) :
    answer .between k [lower, upper] = true ↔ low ≤ shown ∧ shown ≤ high := by
  have first := not_congr below.lt
  have second := not_congr above.gt
  simp only [answer, test, decide_eq_true_eq, first, second, not_lt]

theorem evaluate_single {text : Text} {cmp : DateComparison}
    (key : storedDate text cmp.grain = some k) :
    evaluate (.single (some text)) cmp = answer cmp.op k cmp.values := by
  have single : ∀ op, matches_ (.single (some text)) op cmp = test k op cmp.values := by
    intro op
    simp only [matches_, Stored.elements, filterMap_cons, filterMap_nil,
      bind_some, key, any_cons, any_nil, Bool.or_false]
  obtain ⟨op, values, grain, includeMissing⟩ := cmp
  cases op with
  | neq => exact congrArg (!·) (single .eq)
  | eq => exact single .eq
  | gt => exact single .gt
  | gte => exact single .gte
  | lt => exact single .lt
  | lte => exact single .lte
  | between => exact single .between

/-- The answers about a text are those about what it shows. -/
def Truthful (x : StoredText) (grain : Grain) : Prop :=
  (∀ op u, u.grain = grain → (evaluate (.single (some x.text)) (compareWith op u) = true ↔
      op.Holds (x.fields grain) u.fields)) ∧
  ∀ u v, grainOf [u, v] = grain →
    (evaluate (.single (some x.text)) (compareBetween u v) = true ↔ Between x u v)

theorem sortedByKey_eq (u v : UserDate) : sortedByKey u v = inTime u v :=
  if_congr (key_lt_key_iff u v) rfl rfl

theorem grainOf_inTime (u v : UserDate) :
    grainOf [(inTime u v).1, (inTime u v).2] = grainOf [u, v] := by
  rw [inTime]
  split
  · cases u <;> cases v <;> rfl
  · rfl

theorem grainOf_comm (u v : UserDate) : grainOf [u, v] = grainOf [v, u] := by
  cases u <;> cases v <;> rfl

theorem compareBetween_eq (u v : UserDate) : compareBetween u v =
    { op := .between
      values := match grainOf [u, v] with
        | .day => [(inTime u v).1.key, (inTime u v).2.key]
        | .second => [(inTime u v).1.firstMoment.isoformat, (inTime u v).2.lastMoment.isoformat]
      grain := grainOf [u, v] } := by
  simp only [compareBetween, datePair, sortedByKey_eq, grainOf_inTime, secondKey_false,
    secondKey_true]
  cases grainOf [u, v] <;> rfl

theorem truthful_day {x : StoredText} (key : storedDate x.text .day = some k)
    (agrees : ∀ d : Day, Agrees k (x.fields .day) d.isoformat d.fields) : Truthful x .day := by
  have each : ∀ u : UserDate, u.grain = .day → Agrees k (x.fields .day) u.key u.fields := by
    intro u day
    cases u with
    | second m => cases day
    | day d => exact agrees d
  refine ⟨fun op u day => ?_, fun u v day => ?_⟩
  · cases u with
    | second m => cases day
    | day d =>
      have here : storedDate x.text (compareWith op (.day d)).grain = some k := key
      rw [evaluate_single here]
      exact answer_iff (agrees d) op
  · have here : storedDate x.text (compareBetween u v).grain = some k := by
      rw [compareBetween_eq, day, key]
    have days : ((inTime u v).1.grain = .day) ∧ (inTime u v).2.grain = .day := by
      have both := grainOf_inTime u v
      rw [day] at both
      simpa [grainOf] using both
    rw [evaluate_single here, compareBetween_eq, Between]
    simp only [day]
    exact answer_between_iff (each _ days.1) (each _ days.2)

theorem truthful_second {x : StoredText} (key : storedDate x.text .second = some k)
    (agrees : ∀ m : Moment, Agrees k (x.fields .second) m.isoformat m.fields) :
    Truthful x .second := by
  refine ⟨fun op u second => ?_, fun u v second => ?_⟩
  · cases u with
    | day d => cases second
    | second m =>
      have here : storedDate x.text (compareWith op (.second m)).grain = some k := key
      rw [evaluate_single here]
      exact answer_iff (agrees m) op
  · have here : storedDate x.text (compareBetween u v).grain = some k := by
      rw [compareBetween_eq, second, key]
    rw [evaluate_single here, compareBetween_eq, Between]
    simp only [second, first_eq, last_eq]
    exact answer_between_iff (agrees _) (agrees _)

end

section

/-- A suffix follows the minute, of an hour that a moment can have. -/
def SuffixAtMinute (x : StoredText) : Prop :=
  ∃ clock, x.clock = some clock ∧ clock.seconds = none ∧ clock.zone ≠ none ∧ clock.hour < 24

/-- `YYYY-MM-DDTHH:`. -/
def hourLayout : List (ℕ × Text) :=
  [(4, ['-']), (2, ['-']), (2, ['T']), (2, [':'])]

theorem agrees_hour (d : Day) (minute : ℕ) (more : Text) (m : Moment) :
    Agrees (minuteOf d 24 minute ++ more) (d.fields ++ [24, minute, 0]) m.isoformat m.fields := by
  have fits : ∀ (d : Day) {hour : ℕ}, hour < 100 → Fits 10 hourLayout (d.fields ++ [hour]) := by
    intro d hour hourLt
    obtain _ | ⟨year, _ | ⟨month, _ | ⟨day, -⟩⟩⟩ := d.fits
    exact .cons year (.cons month (.cons day (.cons hourLt .nil)))
  have own := fits d (by decide : 24 < 100)
  have asked := fits m.day (m.hour_lt.trans (by decide))
  have key : minuteOf d 24 minute ++ more =
      stamp digit hourLayout (d.fields ++ [24]) ++ (written digit minute 2 ++ more) := rfl
  have userKey : m.isoformat = stamp digit hourLayout (m.day.fields ++ [m.hour]) ++
      (written digit m.minute 2 ++ ':' :: written digit m.second 2) := rfl
  have shown : d.fields ++ [24, minute, 0] = (d.fields ++ [24]) ++ [minute, 0] := rfl
  have userFields : m.fields = (m.day.fields ++ [m.hour]) ++ [m.minute, m.second] := rfl
  have same : (d.fields ++ [24]).length = (m.day.fields ++ [m.hour]).length := rfl
  have apart : d.fields ++ [24] ≠ m.day.fields ++ [m.hour] := by
    intro same
    have hour := singleton_inj.1 (append_inj same rfl).2
    exact absurd m.hour_lt (by omega)
  rw [key, userKey, shown, userFields]
  constructor
  case lt =>
    rw [stamp_append_lt_iff digit_strictMono own asked, append_lt_append_iff same]
    simp only [apart, false_and, or_false]
  case gt =>
    rw [stamp_append_lt_iff digit_strictMono asked own, append_lt_append_iff same.symm]
    simp only [apart.symm, false_and, or_false]
  case eq =>
    have keys : stamp digit hourLayout (d.fields ++ [24]) ≠
        stamp digit hourLayout (m.day.fields ++ [m.hour]) := fun same =>
      apart ((stamp_inj digit_strictMono.injective own asked).1 same)
    refine iff_of_false (fun same => keys ?_) fun same => apart (append_inj same rfl).1
    exact (append_inj same (length_stamp_eq own asked)).1

/-- A text compares as the time it shows, to the day always, and to the second unless its `Z` or
offset follows the minute. -/
theorem truthful_iff (x : StoredText) (grain : Grain) :
    Truthful x grain ↔ (grain = .second → ¬SuffixAtMinute x) := by
  cases grain with
  | day =>
    refine ⟨nofun, fun _ => truthful_day (storedDate_day x) fun d => ?_⟩
    exact agrees_stamp x.day.fits d.fits
  | second =>
    constructor
    · rintro truthful - ⟨clock, timed, minute, suffix, hourLt⟩
      obtain ⟨d, _, recent⟩ := x
      obtain ⟨space, hour, minute, seconds, zone, hourLe, minuteLt⟩ := clock
      subst timed minute
      obtain ⟨zone, rfl⟩ := ne_none_iff_exists'.1 suffix
      let m : Moment := ⟨d, hour, minute, 0, hourLt, minuteLt, by decide⟩
      obtain ⟨c, rest, colon, key⟩ := storedDate_suffix recent space hour minute zone
      have equal := (truthful.1 .eq (.second m) rfl).2 rfl
      let clock : Clock := ⟨space, hour, minute, none, some zone, hourLe, minuteLt⟩
      have here : storedDate (StoredText.text ⟨d, some clock, recent⟩)
          (compareWith .eq (.second m)).grain = some (minuteOf d hour minute ++ c :: rest) := by
        refine Eq.trans (congrArg (storedDate · .second) ?_) key
        simp only [clock, StoredText.text, Clock.text, map_some, map_none,
          getD_some, getD_none, append_nil]
      rw [evaluate_single here] at equal
      have same : minuteOf d hour minute ++ c :: rest =
          minuteOf d hour minute ++ ':' :: written digit 0 2 := of_decide_eq_true equal
      exact colon (cons.inj (append_cancel_left same)).1
    · intro plain
      by_cases bare : ∀ clock, x.clock = some clock → clock.seconds = none → clock.zone = none
      · exact truthful_second (storedDate_second x bare) fun m => agrees_stamp x.fits m.fits
      · push Not at bare
        obtain ⟨clock, timed, minute, suffix⟩ := bare
        have late : clock.hour = 24 := by
          by_contra other
          have bound := clock.hour_le
          exact plain rfl ⟨clock, timed, minute, suffix, by omega⟩
        obtain ⟨d, _, recent⟩ := x
        obtain ⟨space, hour, minute, seconds, zone, hourLe, minuteLt⟩ := clock
        subst timed minute late
        obtain ⟨zone, rfl⟩ := ne_none_iff_exists'.1 suffix
        obtain ⟨c, rest, -, key⟩ := storedDate_suffix recent space 24 minute zone
        refine truthful_second (k := minuteOf d 24 minute ++ c :: rest) ?_ fun m =>
          agrees_hour d minute (c :: rest) m
        refine Eq.trans (congrArg (storedDate · .second) ?_) key
        simp only [StoredText.text, Clock.text, map_some, map_none,
          getD_some, getD_none, append_nil]

theorem secondKey_congr {u v : UserDate} (same : u.key = v.key) (upper : Bool) :
    secondKey upper u = secondKey upper v := by
  cases u with
  | day d =>
    cases v with
    | day e => exact congrArg (· ++ _) same
    | second m => cases congrArg length same
  | second m =>
    cases v with
    | day e => cases congrArg length same
    | second n => exact same

/-- The sort of a pair forgets which bound came first. -/
theorem datePair_comm (u v : UserDate) : datePair u v = datePair v u := by
  by_cases less : u.key < v.key
  · have other : ¬v.key < u.key := not_lt_of_gt less
    rw [datePair, datePair, sortedByKey, sortedByKey, if_neg other, if_pos less]
  · by_cases more : v.key < u.key
    · rw [datePair, datePair, sortedByKey, sortedByKey, if_pos more, if_neg less]
    · have same : u.key = v.key := le_antisymm (not_lt.1 more) (not_lt.1 less)
      rw [datePair, datePair, sortedByKey, sortedByKey, if_neg more, if_neg less]
      simp only [grainOf_comm u v, same, secondKey_congr same]

/-- Every stored text compares as the time it shows, except to the second where a `Z` or an offset
follows its minute; and the bounds of `between` may be exchanged. -/
theorem stored_dates_compare (x : StoredText) (grain : Grain) :
    (Truthful x grain ↔ (grain = .second → ¬SuffixAtMinute x)) ∧
      ∀ stored u v, evaluate stored (compareBetween u v) =
        evaluate stored (compareBetween v u) := by
  refine ⟨truthful_iff x grain, fun stored u v => congrArg (evaluate stored) ?_⟩
  rw [compareBetween, compareBetween, datePair_comm]

def halfPast : StoredText where
  day := ⟨2024, 5, 1, by decide, by decide, by decide⟩
  clock := some ⟨false, 12, 30, none, some .utc, by decide, by decide⟩
  recent := by decide

/-- It does not equal half past twelve to the second. -/
theorem halfPast_not_truthful :
    halfPast.text = "2024-05-01T12:30Z".toList ∧ ¬Truthful halfPast .second := by
  refine ⟨by decide, fun truthful => ?_⟩
  let m : Moment := ⟨halfPast.day, 12, 30, 0, by decide, by decide, by decide⟩
  have equal := (truthful.1 .eq (.second m) rfl).2 rfl
  revert equal
  decide

end

end DataViz.Search.Dates
