/-
# Two patches in turn and as one

A composed patch leaves what its two patches leave in turn, but for the properties that more than
one of them names: their values are compared with each other in a different order. Of three
values a scalar comes out alike or not by which of the others is taken for which, and lists and
objects member by member. Where values are compared at all the comparison may raise, and neither
way then leaves anything.
-/

import DataViz.Versioning.PropertyPatchLaws

namespace DataViz.Versioning

open List Option Dict

/-- What two values must share to be compared member by member. -/
def shape : Json → Option (Option ℕ)
  | .scalar _ => none
  | .arr items => some (some items.length)
  | .obj _ => some none

theorem sameScalar_of_shape {s : Scalar} {incoming : Json} (members : shape incoming ≠ none) :
    sameScalar s incoming = .ok false := by
  cases incoming with
  | scalar t => exact absurd rfl members
  | arr items => cases s <;> rfl
  | obj fields => cases s <;> rfl

theorem preserveStoredType_of_shape_ne {stored incoming : Json}
    (other : shape stored ≠ shape incoming) :
    preserveStoredType stored incoming = .ok incoming := by
  cases stored with
  | scalar s =>
    rw [preserveStoredType_scalar, sameScalar_of_shape (Ne.symm other)]
    rfl
  | arr olds =>
    cases incoming with
    | arr news =>
      exact preserveStoredType_arr_of_ne fun same => other (by rw [shape, shape, same])
    | scalar t => rfl
    | obj fields => rfl
  | obj before =>
    cases incoming with
    | obj after => exact absurd rfl other
    | scalar t => rfl
    | arr items => rfl

/-- Whether a value is taken for a stored scalar. -/
def takes : Json → Json → Bool
  | .scalar s, incoming => sameScalar s incoming = .ok true
  | _, _ => false

section

variable {stored incoming : Json} {s : Scalar}

theorem kept_of_takes (taken : takes stored incoming = true) :
    Returns stored incoming ∧ kept stored incoming = stored ∧ shape stored = shape incoming := by
  cases stored with
  | scalar s =>
    have same : sameScalar s incoming = .ok true := of_decide_eq_true taken
    refine ⟨returns_scalar_iff.mpr ⟨true, same⟩, by rw [kept_scalar, if_pos same], ?_⟩
    by_contra other
    rw [sameScalar_of_shape (Ne.symm other)] at same
    cases same
  | arr items => cases taken
  | obj fields => cases taken

theorem kept_scalar_of_not (taken : takes (.scalar s) incoming = false) :
    kept (.scalar s) incoming = incoming := by
  rw [kept_scalar, if_neg (of_decide_eq_false taken)]

/-- A scalar is not taken for itself: it is stored as it is sent. -/
theorem sameScalar_self (s : Scalar) : sameScalar s (.scalar s) = .ok false := by
  cases s <;> rfl

theorem shape_kept (stored incoming : Json) : shape (kept stored incoming) = shape incoming := by
  by_cases other : shape stored = shape incoming
  · cases stored with
    | scalar s =>
      rw [kept_scalar]
      split
      · exact other
      · rfl
    | arr olds =>
      cases incoming with
      | scalar t => cases other
      | obj fields => cases other
      | arr news =>
        by_cases returns : Returns (.arr olds) (.arr news)
        · have long : olds.length = news.length := some.inj (some.inj other)
          rw [kept_arr long returns, shape, shape, length_zipWith, long, Nat.min_self]
        · rw [kept_of_not_returns returns]
    | obj before =>
      cases incoming with
      | scalar t => cases other
      | arr items => cases other
      | obj after =>
        by_cases returns : Returns (.obj before) (.obj after)
        · obtain ⟨fields, same, -⟩ := exists_kept_obj returns
          rw [same]
          rfl
        · rw [kept_of_not_returns returns]
  · rw [(kept_of_eq (preserveStoredType_of_shape_ne other)).2]

end

/-- The value sent goes over the stored one as it is: it is not taken for it, nor any member of
it for a stored one. -/
def Replaces (stored incoming : Json) : Prop :=
  Returns stored incoming ∧ Json.Same (kept stored incoming) incoming

instance (stored incoming : Json) : Decidable (Replaces stored incoming) :=
  inferInstanceAs (Decidable (_ ∧ _))

theorem replaces_of_shape_ne {stored incoming : Json} (other : shape stored ≠ shape incoming) :
    Replaces stored incoming := by
  obtain ⟨returns, same⟩ := kept_of_eq (preserveStoredType_of_shape_ne other)
  exact ⟨returns, by rw [same]; rfl⟩

def chainsScalar (v : Scalar) (x y : Json) : Bool :=
  if takes (.scalar v) x then
    if takes x y then takes (.scalar v) y || y = .scalar v else Returns (.scalar v) y
  else takes x y || Replaces (.scalar v) y

mutual

/-- Whether `x` and then `y` over a stored `v` leave what they leave as one, by which of them is
taken for which. -/
def chains : Json → Json → Json → Bool
  | .scalar v, x, y => chainsScalar v x y
  | .arr vs, .arr xs, .arr ys =>
    if vs.length = xs.length ∧ vs.length = ys.length then chainsItems vs xs ys
    else Replaces (.arr vs) (.arr ys)
  | .obj vs, .obj xs, .obj ys => chainsFields vs xs [] ys
  | v, _, y => Replaces v y
termination_by structural _ _ y => y

def chainsItems : List Json → List Json → List Json → Bool
  | v :: vs, x :: xs, y :: ys => chains v x y && chainsItems vs xs ys
  | _, _, _ => true
termination_by structural _ _ ys => ys

def chainsFields (vs xs : Dict String Json) (seen : List String) : List (String × Json) → Bool
  | [] => true
  | (key, y) :: rest =>
    (key ∈ seen || match vs.get? key, xs.get? key with
      | some v, some x => chains v x y
      | some v, none => Replaces v y
      | none, _ => true) && chainsFields vs xs (key :: seen) rest
termination_by structural ys => ys

end

/-- Two values in turn and as one: both ways return, and they leave the same. -/
def Chain (v x y : Json) : Prop :=
  Returns (kept v x) y ∧ Returns v (kept x y) ∧ Json.Same (kept (kept v x) y) (kept v (kept x y))

section

variable {v x y : Json}

theorem replaces_scalar_iff {s : Scalar} : Replaces (.scalar s) y ↔ sameScalar s y = .ok false := by
  rw [Replaces, returns_scalar_iff, kept_scalar]
  constructor
  · rintro ⟨⟨same, result⟩, alike⟩
    cases same with
    | false => exact result
    | true =>
      rw [if_pos result] at alike
      rw [same_scalar_iff.mp alike, sameScalar_self] at result
      cases result
  · intro result
    refine ⟨⟨false, result⟩, ?_⟩
    rw [if_neg (by rw [result]; simp)]
    rfl

/-- Where the two values sent are not taken for each other, the stored one meets the second. -/
theorem kept_of_not_takes (taken : takes x y = false) (members : shape y = none) :
    kept x y = y := by
  cases x with
  | scalar t => exact kept_scalar_of_not taken
  | arr items =>
    exact (kept_of_eq (preserveStoredType_of_shape_ne (by rw [members]; simp [shape]))).2
  | obj fields =>
    exact (kept_of_eq (preserveStoredType_of_shape_ne (by rw [members]; simp [shape]))).2

theorem chain_scalar_iff {s : Scalar} (first : Returns (.scalar s) x) (second : Returns x y) :
    Chain (.scalar s) x y ↔ chainsScalar s x y = true := by
  unfold Chain chainsScalar
  by_cases taken : takes (.scalar s) x = true
  · obtain ⟨-, keep, -⟩ := kept_of_takes taken
    rw [if_pos taken, keep]
    by_cases again : takes x y = true
    · obtain ⟨-, keep', -⟩ := kept_of_takes again
      rw [if_pos again, keep', keep, Bool.or_eq_true, decide_eq_true_iff]
      constructor
      · rintro ⟨-, -, alike⟩
        by_cases last : takes (.scalar s) y = true
        · exact .inl last
        · rw [kept_scalar_of_not (Bool.eq_false_of_not_eq_true last)] at alike
          exact .inr (same_scalar_iff.mp alike.symm)
      · rintro (last | rfl)
        · obtain ⟨returns, keep'', -⟩ := kept_of_takes last
          exact ⟨returns, first, by rw [keep'']; rfl⟩
        · obtain ⟨returns, alike⟩ := replaces_scalar_iff.mpr (sameScalar_self s)
          exact ⟨returns, first, alike⟩
    · have sent : kept x y = y := by
        cases x with
        | scalar t => exact kept_scalar_of_not (Bool.eq_false_of_not_eq_true again)
        | arr items => cases s <;> cases taken
        | obj fields => cases s <;> cases taken
      rw [if_neg again, sent, decide_eq_true_iff]
      exact ⟨fun both => both.1, fun returns => ⟨returns, returns, rfl⟩⟩
  · rw [if_neg taken, kept_scalar_of_not (Bool.eq_false_of_not_eq_true taken), Bool.or_eq_true,
      decide_eq_true_iff, and_iff_right second]
    by_cases again : takes x y = true
    · obtain ⟨-, keep', -⟩ := kept_of_takes again
      rw [keep', kept_scalar_of_not (Bool.eq_false_of_not_eq_true taken)]
      exact iff_of_true ⟨first, rfl⟩ (.inl again)
    · rw [or_iff_right again]
      by_cases members : shape y = none
      · rw [kept_of_not_takes (Bool.eq_false_of_not_eq_true again) members]
        exact and_congr_right fun _ => ⟨Eq.symm, Eq.symm⟩
      · have other : shape (.scalar s) ≠ shape (kept x y) := by
          rw [shape_kept]
          exact Ne.symm members
        obtain ⟨returns, alike⟩ := replaces_of_shape_ne other
        exact iff_of_true ⟨returns, alike.symm⟩ (replaces_of_shape_ne (Ne.symm members))

/-- Where a patch's value is of another shape than the stored one, the stored one is met by the
other patch's as if by it alone. -/
theorem chain_iff_of_shape_ne (second : Returns x y)
    (other : shape v ≠ shape x ∨ shape v ≠ shape y) : Chain v x y ↔ Replaces v y := by
  unfold Chain
  by_cases one : shape v = shape x
  · have two : shape v ≠ shape y := other.resolve_left (not_not.mpr one)
    have three : shape (kept v x) ≠ shape y := by rwa [shape_kept, ← one]
    obtain ⟨returns, keep⟩ := kept_of_eq (preserveStoredType_of_shape_ne two)
    obtain ⟨returns', keep'⟩ := kept_of_eq (preserveStoredType_of_shape_ne three)
    obtain ⟨-, keep''⟩ := kept_of_eq (preserveStoredType_of_shape_ne (one ▸ two))
    rw [keep', keep'', keep]
    exact iff_of_true ⟨returns', returns, rfl⟩ (replaces_of_shape_ne two)
  · rw [(kept_of_eq (preserveStoredType_of_shape_ne one)).2, and_iff_right second]
    by_cases two : shape v = shape y
    · rw [(kept_of_eq (preserveStoredType_of_shape_ne fun same => one (two.trans same.symm))).2]
      exact and_congr_right fun _ => ⟨Eq.symm, Eq.symm⟩
    · have other : shape v ≠ shape (kept x y) := by rwa [shape_kept]
      obtain ⟨returns, alike⟩ := replaces_of_shape_ne other
      exact iff_of_true ⟨returns, alike.symm⟩ (replaces_of_shape_ne two)

end

/-- `chains` where the stored value or the first sent may be absent. -/
def chainsOver : Option Json → Option Json → Json → Bool
  | some v, some x, y => chains v x y
  | some v, none, y => Replaces v y
  | none, _, _ => true

theorem chainsFields_iff (vs xs ys : Dict String Json) (seen : List String) :
    chainsFields vs xs seen ys = true ↔ ∀ key ∉ seen, ∀ y, ys.get? key = some y →
        chainsOver (vs.get? key) (xs.get? key) y = true := by
  induction ys generalizing seen with
  | nil => exact iff_of_true rfl fun _ _ _ absurd => nomatch absurd
  | cons entry rest ih =>
    obtain ⟨name, y⟩ := entry
    have step : chainsFields vs xs seen ((name, y) :: rest) =
        ((name ∈ seen || chainsOver (vs.get? name) (xs.get? name) y) &&
          chainsFields vs xs (name :: seen) rest) := by
      rw [chainsFields]
      cases vs.get? name <;> cases xs.get? name <;> rfl
    rw [step, Bool.and_eq_true, Bool.or_eq_true, decide_eq_true_iff, ih]
    constructor
    · rintro ⟨here, later⟩ key fresh sent found
      by_cases same : name = key
      · subst same
        rw [get?_cons_self] at found
        cases found
        exact here.resolve_left fresh
      · rw [get?_cons_ne same] at found
        exact later key (by simp [Ne.symm same, fresh]) sent found
    · intro each
      refine ⟨?_, fun key fresh sent found => ?_⟩
      · by_cases old : name ∈ seen
        · exact .inl old
        · exact .inr (each name old y (get?_cons_self _ _ _))
      · rw [mem_cons, not_or] at fresh
        exact each key fresh.2 sent (by rw [get?_cons_ne (Ne.symm fresh.1), found])

theorem chainsItems_iff {vs xs ys : List Json}
    (each : ∀ y ∈ ys, ∀ v x, Returns v x → Returns x y → (Chain v x y ↔ chains v x y = true))
    (first : Forall₂ Returns vs xs) (second : Forall₂ Returns xs ys) :
    (Forall₂ Returns (zipWith kept vs xs) ys ∧ Forall₂ Returns vs (zipWith kept xs ys) ∧
        Forall₂ Json.Same (zipWith kept (zipWith kept vs xs) ys)
          (zipWith kept vs (zipWith kept xs ys))) ↔
      chainsItems vs xs ys = true := by
  induction first generalizing ys with
  | nil =>
    cases second
    simp [chainsItems]
  | @cons v x vs xs here _ ih =>
    obtain ⟨y, ys, there, later, rfl⟩ := forall₂_cons_left_iff.mp second
    have members := ih (fun y mem => each y (mem_cons_of_mem _ mem)) later
    have head := each y mem_cons_self v x here there
    simp only [zipWith_cons_cons, forall₂_cons, chainsItems, Bool.and_eq_true, ← members,
      ← head, Chain]
    tauto

/-- What a key keeps in turn and as one, by what is stored and sent for it. -/
theorem chainOver_iff {v? x? : Option Json} {y : Json}
    (each : ∀ v x, Returns v x → Returns x y → (Chain v x y ↔ chains v x y = true))
    (first : ∀ x, x? = some x → ReturnsOver v? x) (second : ReturnsOver x? y) :
    (ReturnsOver (x?.map (keptOver v?)) y ∧ ReturnsOver v? (keptOver x? y) ∧
        Json.Same (keptOver (x?.map (keptOver v?)) y) (keptOver v? (keptOver x? y))) ↔
      chainsOver v? x? y = true := by
  cases v? with
  | none =>
    have same : x?.map (keptOver none) = x? := by cases x? <;> rfl
    rw [same]
    exact iff_of_true ⟨second, fun _ absurd => (nomatch absurd), rfl⟩ rfl
  | some v =>
    cases x? with
    | none =>
      rw [chainsOver, decide_eq_true_iff]
      refine ⟨fun both => ⟨both.2.1 v rfl, both.2.2.symm⟩, fun both => ?_⟩
      exact ⟨fun _ absurd => (nomatch absurd), fun _ here => some.inj here ▸ both.1,
        both.2.symm⟩
    | some x =>
      rw [chainsOver, ← each v x (first x rfl v rfl) (second x rfl)]
      simp [ReturnsOver, keptOver, Chain]

section

variable {v x y : Json}

theorem eq_arr_of_shape {vs : List Json} (same : shape (.arr vs) = shape x) :
    ∃ xs, x = .arr xs ∧ vs.length = xs.length := by
  cases x with
  | scalar t => cases same
  | arr xs => exact ⟨xs, rfl, some.inj (some.inj same)⟩
  | obj xs => cases same

theorem eq_obj_of_shape {vs : Dict String Json} (same : shape (.obj vs) = shape x) :
    ∃ xs : Dict String Json, x = .obj xs := by
  cases x with
  | scalar t => cases same
  | arr xs => cases same
  | obj xs => exact ⟨xs, rfl⟩

theorem chains_of_shape_ne (members : shape v ≠ none)
    (other : shape v ≠ shape x ∨ shape v ≠ shape y) : chains v x y = decide (Replaces v y) := by
  cases v with
  | scalar s => exact absurd rfl members
  | arr vs =>
    cases x with
    | scalar t => simp [chains]
    | obj xs => simp [chains]
    | arr xs =>
      cases y with
      | scalar t => simp [chains]
      | obj ys => simp [chains]
      | arr ys =>
        have apart : ¬ (vs.length = xs.length ∧ vs.length = ys.length) := by
          simpa [shape, ← not_and_or] using other
        rw [chains, if_neg apart]
  | obj vs =>
    cases x with
    | scalar t => simp [chains]
    | arr xs => simp [chains]
    | obj xs =>
      cases y with
      | scalar t => simp [chains]
      | arr ys => simp [chains]
      | obj ys => simp [shape] at other

end

/-- The tests tell whether two values come out alike in turn and as one. -/
theorem chain_iff (y : Json) : ∀ v x, Returns v x → Returns x y →
    (Chain v x y ↔ chains v x y = true) := by
  induction size : sizeOf y using Nat.strong_induction_on generalizing y with
  | _ n ih =>
  intro v x first second
  by_cases members : shape v = none
  · cases v with
    | scalar s =>
      rw [chain_scalar_iff first second]
      simp [chains]
    | arr vs => cases members
    | obj vs => cases members
  by_cases other : shape v ≠ shape x ∨ shape v ≠ shape y
  · rw [chain_iff_of_shape_ne second other, chains_of_shape_ne members other, decide_eq_true_iff]
  rw [not_or, not_not, not_not] at other
  cases v with
  | scalar s => exact absurd rfl members
  | arr vs =>
    obtain ⟨xs, rfl, long⟩ := eq_arr_of_shape other.1
    obtain ⟨ys, rfl, long'⟩ := eq_arr_of_shape other.2
    have each : ∀ y ∈ ys, ∀ v x, Returns v x → Returns x y →
        (Chain v x y ↔ chains v x y = true) := fun y mem =>
      ih _ (by have := sizeOf_lt_of_mem mem; simp at size; omega) y rfl
    have items := chainsItems_iff each ((returns_arr_iff long).mp first)
      ((returns_arr_iff (long.symm.trans long')).mp second)
    have long₁ : (zipWith kept vs xs).length = ys.length := by simp [long', ← long]
    have long₂ : vs.length = (zipWith kept xs ys).length := by simp [← long', ← long]
    rw [chains, if_pos ⟨long, long'⟩, ← items, Chain, kept_arr long first,
      kept_arr (long.symm.trans long') second, returns_arr_iff long₁, returns_arr_iff long₂]
    refine and_congr_right fun one => and_congr_right fun two => ?_
    rw [kept_arr long₁ ((returns_arr_iff long₁).mpr one),
      kept_arr long₂ ((returns_arr_iff long₂).mpr two)]
    exact eqBy_arr_iff
  | obj vs =>
    obtain ⟨xs, rfl⟩ := eq_obj_of_shape other.1
    obtain ⟨ys, rfl⟩ := eq_obj_of_shape other.2
    obtain ⟨us, left, views⟩ := exists_kept_obj first
    obtain ⟨ms, right, views'⟩ := exists_kept_obj second
    have each : ∀ key y, Dict.get? ys key = some y → ((ReturnsOver (us.get? key) y ∧
            ReturnsOver (Dict.get? vs key) (keptOver (Dict.get? xs key) y) ∧
            Json.Same (keptOver (us.get? key) y)
              (keptOver (Dict.get? vs key) (keptOver (Dict.get? xs key) y))) ↔
          chainsOver (Dict.get? vs key) (Dict.get? xs key) y = true) := by
      intro key y sent
      rw [views]
      exact chainOver_iff (ih _ (size ▸ sizeOf_lt_of_get? sent) y rfl)
        (fun x here => returns_obj_iff.mp first key x here) (returns_obj_iff.mp second key y sent)
    have fields := chainsFields_iff vs xs ys []
    simp only [not_mem_nil, not_false_eq_true, true_implies] at fields
    rw [chains, fields, Chain, left, right]
    have mid : Returns (.obj vs) (.obj ms) ↔ ∀ key y, Dict.get? ys key = some y →
        ReturnsOver (Dict.get? vs key) (keptOver (Dict.get? xs key) y) := by
      simp only [returns_obj_iff, views', map_eq_some_iff]
      exact ⟨fun all key y sent => all key _ ⟨y, sent, rfl⟩,
        fun all key _ ⟨y, sent, same⟩ => same ▸ all key y sent⟩
    constructor
    · rintro ⟨one, two, alike⟩ key y sent
      obtain ⟨ws, leftmost, ends⟩ := exists_kept_obj one
      obtain ⟨ws', rightmost, ends'⟩ := exists_kept_obj two
      rw [leftmost, rightmost] at alike
      have here := Json.eqBy_obj_iff.mp alike key
      rw [ends, ends', views', sent] at here
      exact (each key y sent).mp ⟨returns_obj_iff.mp one key y sent, mid.mp two key y sent,
        Json.eqBy?_some.mp here⟩
    · intro all
      have one : Returns (.obj us) (.obj ys) :=
        returns_obj_iff.mpr fun key y sent => ((each key y sent).mpr (all key y sent)).1
      have two := mid.mpr fun key y sent => ((each key y sent).mpr (all key y sent)).2.1
      obtain ⟨ws, leftmost, ends⟩ := exists_kept_obj one
      obtain ⟨ws', rightmost, ends'⟩ := exists_kept_obj two
      refine ⟨one, two, ?_⟩
      rw [leftmost, rightmost]
      refine Json.eqBy_obj_iff.mpr fun key => ?_
      rw [ends, ends', views']
      cases sent : Dict.get? ys key with
      | none => rfl
      | some y => exact Json.eqBy?_some.mpr ((each key y sent).mpr (all key y sent)).2.2

/-- What a property meets where it comes out alike, by what is stored of it and what two patches
send for it: no comparison raises, and where all three name it the tests tell so. -/
def ComesAlike (stored first second : Option Json) : Prop :=
  (∀ x, first = some x → ReturnsOver stored x) ∧ ∀ y, second = some y → ReturnsOver first y ∧
      match stored, first with
      | some v, some x => chains v x y = true
      | some v, none => Returns v y
      | none, _ => True

theorem isDelete_of_same {first second : Json} (same : Json.Same first second)
    (marker : first = propDelete) : second = propDelete := by
  subst marker
  exact same_scalar_iff.mp same

theorem same_dropMarker_iff (first second : Json) :
    Json.Same? (dropMarker (some first)) (dropMarker (some second)) ↔ Json.Same first second := by
  by_cases one : first = propDelete
  · subst one
    by_cases two : second = propDelete
    · subst two
      exact iff_of_true rfl rfl
    · rw [dropMarker_propDelete, dropMarker_of_ne two]
      exact iff_of_false (fun same => nomatch same) fun same => two (isDelete_of_same same rfl)
  · by_cases two : second = propDelete
    · subst two
      rw [dropMarker_propDelete, dropMarker_of_ne one]
      exact iff_of_false (fun same => nomatch same) fun same =>
        one (isDelete_of_same (Eq.symm same) rfl)
    · rw [dropMarker_of_ne one, dropMarker_of_ne two]
      exact Json.eqBy?_some

theorem keptOver_dropMarker (before : Option Json) (y : Json) :
    keptOver (dropMarker before) y = keptOver before y ∧
      (ReturnsOver (dropMarker before) y ↔ ReturnsOver before y) := by
  cases before with
  | none => exact ⟨rfl, Iff.rfl⟩
  | some value =>
    by_cases marker : value = propDelete
    · subst marker
      simp [keptOver, ReturnsOver]
    · rw [dropMarker_of_ne marker]
      exact ⟨rfl, Iff.rfl⟩

theorem dropMarker_mergeProp_dropMarker (before value : Option Json) :
    dropMarker (mergeProp (dropMarker before) value) = dropMarker (mergeProp before value) := by
  cases value with
  | none =>
    rw [mergeProp_none_right, mergeProp_none_right, dropMarker, dropMarker]
    simp
  | some y => rw [mergeProp_some, mergeProp_some, (keptOver_dropMarker before y).1]

theorem comesAlike_iff (stored first second : Option Json) :
    ((∀ x, first = some x → ReturnsOver stored x) ∧
        (∀ y, second = some y → ReturnsOver (dropMarker (mergeProp stored first)) y) ∧
        (∀ y, second = some y → ReturnsOver first y) ∧
        (∀ m, mergeProp first second = some m → ReturnsOver stored m) ∧
        Json.Same? (dropMarker (mergeProp (dropMarker (mergeProp stored first)) second))
          (dropMarker (mergeProp stored (mergeProp first second)))) ↔
      ComesAlike stored first second := by
  rw [dropMarker_mergeProp_dropMarker]
  refine and_congr_right fun returns => ?_
  cases second with
  | none =>
    refine iff_of_true ⟨fun _ absurd => (nomatch absurd), fun _ absurd => (nomatch absurd),
      returns, rfl⟩ fun _ absurd => nomatch absurd
  | some y =>
    simp only [some.injEq, forall_eq', mergeProp_some, (keptOver_dropMarker _ y).2,
      same_dropMarker_iff]
    rw [and_left_comm]
    refine and_congr_right fun sent => ?_
    cases first with
    | none =>
      cases stored with
      | none => exact iff_of_true ⟨nofun, nofun, rfl⟩ trivial
      | some v => simp [ReturnsOver, keptOver, Json.EqBy]
    | some x =>
      have chained := chainOver_iff (chain_iff y) returns sent
      rw [map_some] at chained
      rw [mergeProp_some, chained]
      cases stored with
      | none => exact iff_of_true rfl trivial
      | some v => rfl

theorem properProperties_patched (base patch : Payload) : ProperProperties (patched base patch) :=
  properProperties_overlay _ _ _

theorem patched_composed_iff (base first second : Payload) :
    SamePayload (some (patched (patched base first) second))
        (some (patched base (joined first second))) ↔
      ∀ key, Json.Same? (dropMarker (mergeProp (dropMarker (mergeProp ((propertiesOf base).get? key)
          ((propertiesOf first).get? key))) ((propertiesOf second).get? key)))
        (dropMarker (mergeProp ((propertiesOf base).get? key)
          (mergeProp ((propertiesOf first).get? key) ((propertiesOf second).get? key)))) := by
  rw [samePayload_iff (properProperties_patched _ _) (properProperties_patched _ _)]
  simp only [get?_propertiesOf_patched, get?_propertiesOf_composed]
  constructor
  · exact fun views => views.2.2.2
  · intro alike
    refine ⟨fun field other => ?_, ?_, ?_, alike⟩
    · simp only [patched, joined, get?_overlay _ _ _ other, Option.or_assoc]
      rfl
    · simp only [patched, joined, hasProperties_overlay, Bool.or_assoc]
    · simp only [patched, joined, isSome_overlay, Bool.or_assoc]

def inTurn (base first second : Payload) : Except CompareError Payload := do
  let after ← applyPatch (some base) first
  applyPatch (some after) second

def asOne (base first second : Payload) : Except CompareError Payload := do
  let patch ← composePatches first second
  applyPatch (some base) patch

theorem inTurn_eq_ok {base first second after : Payload} : inTurn base first second = .ok after ↔
      (PropsMerge base first ∧ PropsMerge (patched base first) second) ∧
        after = patched (patched base first) second := by
  simp only [inTurn, bind_eq_ok, applyPatch_eq_ok, getD_some]
  constructor
  · rintro ⟨mid, ⟨one, rfl⟩, two, rfl⟩
    exact ⟨⟨one, two⟩, rfl⟩
  · rintro ⟨⟨one, two⟩, rfl⟩
    exact ⟨_, ⟨one, rfl⟩, two, rfl⟩

theorem asOne_eq_ok {base first second after : Payload} : asOne base first second = .ok after ↔
      (PropsMerge first second ∧ PropsMerge base (joined first second)) ∧
        after = patched base (joined first second) := by
  simp only [asOne, bind_eq_ok, applyPatch_eq_ok, composePatches_eq_ok, getD_some]
  constructor
  · rintro ⟨patch, ⟨one, rfl⟩, two, rfl⟩
    exact ⟨⟨one, two⟩, rfl⟩
  · rintro ⟨⟨one, two⟩, rfl⟩
    exact ⟨_, ⟨one, rfl⟩, two, rfl⟩

/-- Where every property comes out alike both ways return and leave the same, and nowhere else. -/
theorem comeAlike_iff (base first second : Payload) :
    (PropsMerge base first ∧ PropsMerge (patched base first) second ∧ PropsMerge first second ∧
        PropsMerge base (joined first second) ∧
        SamePayload (some (patched (patched base first) second))
          (some (patched base (joined first second)))) ↔
      ∀ key, ComesAlike ((propertiesOf base).get? key) ((propertiesOf first).get? key)
        ((propertiesOf second).get? key) := by
  simp only [← comesAlike_iff, forall_and, patched_composed_iff, PropsMerge,
    get?_propertiesOf_patched, get?_propertiesOf_composed]

/-- A composed patch leaves what its patches leave in turn exactly where each property comes out
alike. -/
theorem applyPatch_composePatches_iff (base first second : Payload) :
    (∃ turn one, inTurn base first second = .ok turn ∧ asOne base first second = .ok one ∧
        SamePayload (some turn) (some one)) ↔
      ∀ key, ComesAlike ((propertiesOf base).get? key) ((propertiesOf first).get? key)
        ((propertiesOf second).get? key) := by
  rw [← comeAlike_iff]
  simp only [inTurn_eq_ok, asOne_eq_ok]
  constructor
  · rintro ⟨_, _, ⟨⟨one, two⟩, rfl⟩, ⟨⟨three, four⟩, rfl⟩, alike⟩
    exact ⟨one, two, three, four, alike⟩
  · rintro ⟨one, two, three, four, alike⟩
    exact ⟨_, _, ⟨⟨one, two⟩, rfl⟩, ⟨⟨three, four⟩, rfl⟩, alike⟩

def rows (value : Json) : Payload := [("properties", .obj [("rows", value)])]

/-- A value that is changed and then sent back as text is text, and by the composed patch is the
number it was. -/
theorem applyPatch_composePatches_sentBack :
    inTurn (rows (.int 1)) (rows (.int 2)) (rows (.str "1")) = .ok (rows (.str "1")) ∧
      asOne (rows (.int 1)) (rows (.int 2)) (rows (.str "1")) = .ok (rows (.int 1)) ∧
      ¬ ∀ base first second : Payload, ∃ turn one, inTurn base first second = .ok turn ∧
        asOne base first second = .ok one ∧ SamePayload (some turn) (some one) := by
  have left : inTurn (rows (.int 1)) (rows (.int 2)) (rows (.str "1")) =
      .ok (rows (.str "1")) := by decide +kernel
  have right : asOne (rows (.int 1)) (rows (.int 2)) (rows (.str "1")) =
      .ok (rows (.int 1)) := by decide +kernel
  refine ⟨left, right, fun all => ?_⟩
  obtain ⟨turn, one, here, there, alike⟩ := all (rows (.int 1)) (rows (.int 2)) (rows (.str "1"))
  rw [left] at here
  rw [right] at there
  cases here
  cases there
  revert alike
  decide +kernel

end DataViz.Versioning
