/-
# What becomes of set fields

A set field that both sides changed is merged by a formula on sets: what was there and neither side
removed, and what either side added (`mergeSet_spec`). A value that is no list counts as the empty
set there, and no conflict says so.

Merging comes to a field where nothing above it is in conflict (`Met`). There a field is one side's,
or merged by the formula (`field_outcome`). `threeWayMerge_keepsSets_iff` says when every set field,
at any depth, is merged as a set or reported.
-/

import DataViz.Versioning.MergeLaws

namespace DataViz.Versioning

open List

open Json (EqBy EqBy? PyEq PyEq? pyEq_arr_iff valueAt valueAt_nil)

section

variable {x : Scalar} {a b o t : List Scalar}

def DistinctScalars (s : List Scalar) : Prop :=
  s.Pairwise fun x y => x.numeric ≠ y.numeric

theorem setMem_iff : setMem a x = true ↔ ∃ y ∈ a, y.numeric = x.numeric := by
  simp [setMem]

theorem setMem_congr {y : Scalar} (same : x.numeric = y.numeric) : setMem a x = setMem a y := by
  unfold setMem
  rw [same]

theorem setMem_cons {y : Scalar} :
    setMem (y :: a) x = (decide (y.numeric = x.numeric) || setMem a x) := rfl

theorem setMem_setDiff : setMem (setDiff a b) x = (setMem a x && !setMem b x) := by
  rw [Bool.eq_iff_iff, Bool.and_eq_true, Bool.not_eq_true', setMem_iff, setMem_iff]
  constructor
  · rintro ⟨y, mem, same⟩
    obtain ⟨here, out⟩ := mem_filter.mp mem
    rw [← setMem_congr same]
    exact ⟨⟨y, here, same⟩, by simpa using out⟩
  · rintro ⟨⟨y, here, same⟩, out⟩
    refine ⟨y, mem_filter.mpr ⟨here, ?_⟩, same⟩
    rw [setMem_congr same, out]
    rfl

theorem setMem_append : setMem (a ++ b) x = (setMem a x || setMem b x) :=
  any_append

theorem setMem_setUnion : setMem (setUnion a b) x = (setMem a x || setMem b x) := by
  rw [setUnion, setMem_append, setMem_setDiff]
  cases setMem a x <;> simp

theorem DistinctScalars.setDiff (distinct : DistinctScalars a) : DistinctScalars (setDiff a b) :=
  Pairwise.filter _ distinct

theorem DistinctScalars.setUnion (first : DistinctScalars a) (second : DistinctScalars b) :
    DistinctScalars (setUnion a b) := by
  refine pairwise_append.mpr ⟨first, second.setDiff, fun x here y there same => ?_⟩
  have out := (mem_filter.mp there).2
  rw [setMem_iff.mpr ⟨x, here, same⟩] at out
  cases out

/-- What was there and neither side removed, and what either side added. -/
theorem setMem_mergeElements : setMem (mergeElements b o t) x = true ↔
    (setMem b x = true ∧ setMem o x = true ∧ setMem t x = true) ∨
      (setMem b x = false ∧ (setMem o x = true ∨ setMem t x = true)) := by
  have sorted (s : List Scalar) :
      setMem (s.insertionSort fun x y => setKey x ≤ setKey y) x = setMem s x := by
    rw [Bool.eq_iff_iff, setMem_iff, setMem_iff]
    simp only [(perm_insertionSort _ s).mem_iff]
  unfold mergeElements
  rw [sorted, setMem_setDiff, setMem_setUnion, setMem_setUnion, setMem_setUnion]
  simp only [setMem_setDiff]
  cases setMem b x <;> cases setMem o x <;> cases setMem t x <;> simp

theorem distinctScalars_mergeElements (base : DistinctScalars b) (ours : DistinctScalars o)
    (theirs : DistinctScalars t) : DistinctScalars (mergeElements b o t) := by
  have all : DistinctScalars (setDiff (setUnion b (setUnion (setDiff o b) (setDiff t b)))
      (setUnion (setDiff b o) (setDiff b t))) :=
    (base.setUnion (ours.setDiff.setUnion theirs.setDiff)).setDiff
  refine Pairwise.perm all (perm_insertionSort _ _).symm ?_
  exact fun ne same => ne same.symm

end

def IsList (value : Option Json) : Prop :=
  ∃ items, value = some (.arr items)

/-- A list that holds an item, by Python's `==`. -/
def Has (value : Option Json) (x : Json) : Prop :=
  ∃ items, value = some (.arr items) ∧ ∃ y ∈ items, PyEq y x

def Distinct (value : Option Json) : Prop :=
  ∀ items, value = some (.arr items) → items.Pairwise fun x y => ¬ PyEq x y

section

variable {value other : Option Json} {x : Json}

theorem exists_arr_of_pyEq {items : List Json} (same : PyEq? (some (.arr items)) value) :
    ∃ items', value = some (.arr items') ∧ PyEq (.arr items) (.arr items') := by
  cases value with
  | none => cases Json.eqBy?_none_right.mp same
  | some value =>
    have eq := Json.eqBy?_some.mp same
    cases value with
    | arr items' => exact ⟨items', rfl, eq⟩
    | scalar s => cases eq
    | obj fields => cases eq

theorem IsList.congr (same : PyEq? value other) (list : IsList value) : IsList other := by
  obtain ⟨items, rfl⟩ := list
  obtain ⟨items', rfl, -⟩ := exists_arr_of_pyEq same
  exact ⟨items', rfl⟩

theorem Has.congr (same : PyEq? value other) (has : Has value x) : Has other x := by
  obtain ⟨items, rfl, y, mem, eq⟩ := has
  obtain ⟨items', rfl, lists⟩ := exists_arr_of_pyEq same
  have there := mem_map_of_mem (f := Json.canonBy Scalar.numeric) mem
  rw [pyEq_arr_iff.mp lists, mem_map] at there
  obtain ⟨y', mem', eq'⟩ := there
  exact ⟨items', rfl, y', mem', eq'.trans eq⟩

theorem has_congr (same : PyEq? value other) : Has value x ↔ Has other x :=
  ⟨Has.congr same, Has.congr same.symm⟩

theorem pairwise_pyEq_iff {items : List Json} : items.Pairwise (fun x y => ¬ PyEq x y) ↔
    (items.map (Json.canonBy Scalar.numeric)).Nodup := by
  rw [nodup_iff_pairwise_ne, pairwise_map]
  rfl

theorem Distinct.congr (same : PyEq? value other) (distinct : Distinct value) : Distinct other := by
  rintro items rfl
  obtain ⟨items', rfl, lists⟩ := exists_arr_of_pyEq same.symm
  rw [pairwise_pyEq_iff, pyEq_arr_iff.mp lists, ← pairwise_pyEq_iff]
  exact distinct items' rfl

theorem not_has_of_not_isList (other : ¬ IsList value) : ¬ Has value x := by
  rintro ⟨items, rfl, -⟩
  exact other ⟨items, rfl⟩

end

section

theorem pyEq_scalar_iff {scalar : Scalar} {x : Json} :
    PyEq (.scalar scalar) x ↔ ∃ other, x = .scalar other ∧ scalar.numeric = other.numeric := by
  cases x with
  | scalar other => simp [EqBy, Json.canonBy]
  | arr items => exact iff_of_false (by rintro ⟨⟩) (by rintro ⟨_, ⟨⟩, _⟩)
  | obj fields => exact iff_of_false (by rintro ⟨⟩) (by rintro ⟨_, ⟨⟩, _⟩)

theorem toSet_spec {items : List Json} {s : List Scalar} (ok : toSet items = .ok s) :
    (∀ x, (∃ y ∈ items, PyEq y x) ↔ ∃ scalar, x = .scalar scalar ∧ setMem s scalar = true) ∧
      DistinctScalars s ∧ ∀ x ∈ items, ∃ scalar, x = .scalar scalar := by
  induction items generalizing s with
  | nil =>
    cases ok
    refine ⟨fun x => ?_, Pairwise.nil, fun _ absurd => nomatch absurd⟩
    simp [setMem]
  | cons item rest ih =>
    cases item with
    | arr inner => cases ok
    | obj fields => cases ok
    | scalar first =>
      cases tail : toSet rest with
      | error e =>
        rw [toSet, tail] at ok
        cases ok
      | ok others =>
        rw [toSet, tail] at ok
        cases ok
        obtain ⟨members, distinct, scalars⟩ := ih tail
        refine ⟨fun x => ?_, ?_, ?_⟩
        · rw [exists_mem_cons_iff, members, pyEq_scalar_iff, ← exists_or]
          apply exists_congr
          intro scalar
          rw [← and_or_left, setMem_cons, setMem_setDiff]
          apply and_congr_right
          rintro -
          by_cases same : first.numeric = scalar.numeric <;> simp [same, setMem]
        · refine pairwise_cons.mpr ⟨fun other mem same => ?_, distinct.setDiff⟩
          have out := (mem_filter.mp mem).2
          rw [setMem_iff.mpr ⟨first, mem_singleton_self first, same⟩] at out
          cases out
        · intro x mem
          cases mem with
          | head => exact ⟨first, rfl⟩
          | tail _ later => exact scalars x later

theorem elements_spec {value : Option Json} {s : List Scalar} (ok : elements value = .ok s) :
    (∀ x, Has value x ↔ ∃ scalar, x = .scalar scalar ∧ setMem s scalar = true) ∧
      DistinctScalars s ∧ ScalarItems value := by
  by_cases list : IsList value
  · obtain ⟨items, rfl⟩ := list
    obtain ⟨members, distinct, scalars⟩ := toSet_spec ok
    refine ⟨fun x => ?_, distinct, fun items' same => ?_⟩
    · rw [← members]
      exact ⟨fun ⟨_, same, y, mem⟩ => by cases same; exact ⟨y, mem⟩, fun held => ⟨items, rfl, held⟩⟩
    · cases same
      exact scalars
  · have none : elements value = .ok [] := by
      unfold elements
      split
      next items => exact absurd ⟨items, rfl⟩ list
      next => rfl
    cases none.symm.trans ok
    refine ⟨fun x => iff_of_false (not_has_of_not_isList list) ?_, Pairwise.nil,
      fun items same => absurd ⟨items, same⟩ list⟩
    rintro ⟨scalar, -, absurd⟩
    cases absurd

theorem has_scalars {s : List Scalar} {x : Json} : Has (some (.arr (s.map .scalar))) x ↔
      ∃ scalar, x = .scalar scalar ∧ setMem s scalar = true := by
  simp only [setMem_iff]
  constructor
  · rintro ⟨items, same, y, mem, eq⟩
    cases same
    obtain ⟨held, here, rfl⟩ := mem_map.mp mem
    obtain ⟨scalar, rfl, same⟩ := pyEq_scalar_iff.mp eq
    exact ⟨scalar, rfl, held, here, same⟩
  · rintro ⟨scalar, rfl, held, here, same⟩
    exact ⟨_, rfl, .scalar held, mem_map_of_mem here, pyEq_scalar_iff.mpr ⟨scalar, rfl, same⟩⟩

/-- A merged set holds what was there and neither side removed, and what either side added, each
once. -/
theorem mergeSet_spec {bv ov tv : Option Json} {items : List Json}
    (ok : mergeSet bv ov tv = .ok items) :
    (∀ x, Has (some (.arr items)) x ↔ (Has bv x ∧ Has ov x ∧ Has tv x) ∨
        (¬ Has bv x ∧ (Has ov x ∨ Has tv x))) ∧
      Distinct (some (.arr items)) ∧ ScalarItems bv ∧ ScalarItems ov ∧ ScalarItems tv := by
  unfold mergeSet at ok
  cases base : elements bv with
  | error e =>
    rw [base] at ok
    cases ok
  | ok b =>
  cases ours : elements ov with
  | error e =>
    rw [base, ours] at ok
    cases ok
  | ok o =>
  cases theirs : elements tv with
  | error e =>
    rw [base, ours, theirs] at ok
    cases ok
  | ok t =>
  rw [base, ours, theirs] at ok
  cases ok
  obtain ⟨inBase, distinctBase, scalarsBase⟩ := elements_spec base
  obtain ⟨inOurs, distinctOurs, scalarsOurs⟩ := elements_spec ours
  obtain ⟨inTheirs, distinctTheirs, scalarsTheirs⟩ := elements_spec theirs
  refine ⟨fun x => ?_, ?_, scalarsBase, scalarsOurs, scalarsTheirs⟩
  · rw [has_scalars, inBase, inOurs, inTheirs]
    cases x with
    | scalar scalar =>
      simp only [Json.scalar.injEq, exists_eq_left', setMem_mergeElements, Bool.not_eq_true]
    | _ => simp
  · intro items same
    cases same
    rw [pairwise_map]
    apply Pairwise.imp _ (distinctScalars_mergeElements distinctBase distinctOurs distinctTheirs)
    intro first second ne same
    obtain ⟨other, eq, numeric⟩ := pyEq_scalar_iff.mp same
    cases eq
    exact ne numeric

end

variable {setFields : List String} {onConflict : OnConflict}

/-- A field is one side's, or merged as a set. -/
inductive SetOutcome (bv ov tv : Option Json) : Option Json → Prop
  | agree (same : PyEq? ov tv) : SetOutcome bv ov tv ov
  | onlyTheirs (same : PyEq? ov bv) : SetOutcome bv ov tv tv
  | onlyOurs (same : PyEq? tv bv) : SetOutcome bv ov tv ov
  | set (diverge : Diverge Scalar.numeric bv ov tv) {items : List Json}
      (ok : mergeSet bv ov tv = .ok items) : SetOutcome bv ov tv (some (.arr items))

def DivergeAt (base ours theirs : Option Json) (p : Path) : Prop :=
  Diverge Scalar.numeric (valueAt base p) (valueAt ours p) (valueAt theirs p)

/-- Three values at a path that are merged key by key. -/
def MergeableAt (base ours theirs : Option Json) (p : Path) : Prop :=
  Mergeable (valueAt base p) (valueAt ours p) (valueAt theirs p)

/-- Where all three differ along a path, they are merged key by key, and not as a set. -/
def Descends (setFields : List String) (base ours theirs : Option Json) (p : Path) : Prop :=
  ∀ q key, q ++ [key] <+: p → DivergeAt base ours theirs (q ++ [key]) →
    MergeableAt base ours theirs (q ++ [key]) ∧ key ∉ setFields

theorem valueAt_concat_baseFields {bv : Option Json} {b : Payload} (start : baseFields bv = some b)
    (q : Path) (key : String) :
    valueAt (some (.obj b)) (q ++ [key]) = valueAt bv (q ++ [key]) := by
  cases q with
  | nil => exact valueAt_baseFields start key []
  | cons head q => exact valueAt_baseFields start head (q ++ [key])

theorem field_outcome {key : String} (mem : key ∈ setFields) (p : Path) :
    ∀ {base ours theirs result : Payload} {path : Path} {confs : List Conflict},
      mergeFields setFields onConflict base ours theirs path = .ok (result, confs) →
      Descends setFields (some (.obj base)) (some (.obj ours)) (some (.obj theirs)) p →
      SetOutcome (valueAt (some (.obj base)) (p ++ [key]))
        (valueAt (some (.obj ours)) (p ++ [key])) (valueAt (some (.obj theirs)) (p ++ [key]))
        (valueAt (some (.obj result)) (p ++ [key])) := by
  induction p with
  | nil =>
    intro base ours theirs result path confs ok _
    obtain ⟨cs, merged, -⟩ := (mergeFields_ok ok).1 key
    simp only [nil_append, Json.valueAt_obj_cons, valueAt_nil]
    generalize result.get? key = value at merged ⊢
    cases mergeValue_outcome merged with
    | agree same => exact .agree same
    | onlyTheirs same => exact .onlyTheirs same
    | onlyOurs same => exact .onlyOurs same
    | set diverge _ items => exact .set diverge items
    | fields _ isSet => exact absurd mem (of_decide_eq_false isSet)
    | conflict _ isSet => exact absurd mem (of_decide_eq_false isSet)
  | cons head p ih =>
    intro base ours theirs result path confs ok descends
    obtain ⟨cs, merged, -⟩ := (mergeFields_ok ok).1 head
    have here := descends [] head (prefix_append [head] p)
    simp only [DivergeAt, MergeableAt, nil_append, Json.valueAt_obj_cons, valueAt_nil] at here
    have below := fun q k (within : q ++ [k] <+: p) =>
      descends (head :: q) k (cons_prefix_cons.mpr ⟨rfl, within⟩)
    simp only [DivergeAt, MergeableAt, cons_append, Json.valueAt_obj_cons] at below
    simp only [cons_append, Json.valueAt_obj_cons]
    generalize result.get? head = value at merged ⊢
    generalize base.get? head = bv at merged here below ⊢
    generalize ours.get? head = ov at merged here below ⊢
    generalize theirs.get? head = tv at merged here below ⊢
    cases mergeValue_outcome merged with
    | agree same => exact .agree (same.valueAt _)
    | onlyTheirs same => exact .onlyTheirs (same.valueAt _)
    | onlyOurs same => exact .onlyOurs (same.valueAt _)
    | set diverge isSet => exact absurd (of_decide_eq_true isSet) (here diverge).2
    | conflict diverge _ atomic => exact absurd (here diverge).1 atomic
    | fields diverge _ start oursHere theirsHere fields =>
      subst oursHere theirsHere
      rw [← valueAt_concat_baseFields start]
      apply ih fields
      intro q k within
      simp only [DivergeAt, MergeableAt, valueAt_concat_baseFields start]
      exact below q k within

theorem avoids_nil : Avoids setFields [] :=
  fun _ absurd => nomatch absurd

theorem avoids_cons {key : String} {p : Path} (out : key ∉ setFields)
    (avoids : Avoids setFields p) : Avoids setFields (key :: p) :=
  forall_mem_cons.mpr ⟨out, avoids⟩

theorem mergeValue_undecided {bv ov tv value : Option Json} {isSet : Bool} {path : Path}
    {confs : List Conflict}
    (ok : mergeValue setFields onConflict bv ov tv isSet path = .ok (value, confs))
    {c : Conflict} (mem : c ∈ confs) :
    isSet = false ∧ ∃ p, c.path = path ++ p ∧ Avoids setFields p ∧ DivergeAt bv ov tv p ∧
      ¬ MergeableAt bv ov tv p := by
  induction size : sizeOf ov using Nat.strong_induction_on
    generalizing bv ov tv value isSet path confs with
  | _ n ih =>
    cases mergeValue_outcome ok with
    | agree => cases mem
    | onlyTheirs => cases mem
    | onlyOurs => cases mem
    | set => cases mem
    | conflict diverge isSet atomic =>
      obtain rfl := mem_singleton.mp mem
      refine ⟨isSet, [], (append_nil path).symm, avoids_nil, ?_, ?_⟩
      · simpa only [DivergeAt, valueAt_nil] using diverge
      · simpa only [MergeableAt, valueAt_nil] using atomic
    | fields diverge isSet start oursHere theirsHere fields =>
      obtain ⟨-, known⟩ := mergeFields_ok fields
      obtain ⟨key, v, cs, merged, there⟩ := known c mem
      subst oursHere theirsHere
      obtain ⟨noSet, p, same, avoids, undecided⟩ :=
        ih _ (size ▸ Json.sizeOf_get?_lt _ key) merged there rfl
      refine ⟨isSet, key :: p, by rw [same, append_assoc]; rfl, ?_, ?_⟩
      · exact avoids_cons (of_decide_eq_false noSet) avoids
      · simp only [DivergeAt, MergeableAt, ← valueAt_baseFields start]
        exact undecided

/-- Merging reaches the field: above it, what all three hold differently is merged key by key. -/
def Met (base ours theirs : Option Json) (p : Path) : Prop :=
  ∀ q, q <+: p → DivergeAt base ours theirs q → MergeableAt base ours theirs q

/-- Python can put in sets what both sides changed where merging reaches a set field. -/
def ScalarSets (setFields : List String) (base ours theirs : Option Json) : Prop :=
  ∀ p, ∀ key ∈ setFields, Met base ours theirs p → DivergeAt base ours theirs (p ++ [key]) →
    ScalarItems (valueAt base (p ++ [key])) ∧ ScalarItems (valueAt ours (p ++ [key])) ∧
      ScalarItems (valueAt theirs (p ++ [key]))

theorem ScalarSets.get? {bv : Option Json} {b o t : Payload} (start : baseFields bv = some b)
    (scalars : ScalarSets setFields bv (some (.obj o)) (some (.obj t))) (key : String) :
    ScalarSets setFields (b.get? key) (o.get? key) (t.get? key) := by
  intro p name mem met diverge
  have here := scalars (key :: p) name mem
  simp only [DivergeAt, cons_append, ← valueAt_baseFields start] at here
  refine here ?_ diverge
  intro q within differ
  cases q with
  | nil => exact ⟨b, o, t, by rw [valueAt_nil]; exact start, valueAt_nil _, valueAt_nil _⟩
  | cons head q =>
    obtain ⟨rfl, inner⟩ := cons_prefix_cons.mp within
    simp only [DivergeAt, MergeableAt, ← valueAt_baseFields start] at differ ⊢
    exact met q inner differ

theorem mergeValue_returns {bv ov tv : Option Json} {isSet : Bool} {path : Path}
    (scalars : ScalarSets setFields bv ov tv)
    (here : isSet = true → Diverge Scalar.numeric bv ov tv →
      ScalarItems bv ∧ ScalarItems ov ∧ ScalarItems tv) :
    ∃ result, mergeValue setFields onConflict bv ov tv isSet path = .ok result := by
  induction size : sizeOf ov using Nat.strong_induction_on generalizing bv ov tv isSet path with
  | _ n ih =>
    have descend {b o t : Payload} (start : baseFields bv = some b)
        (oursHere : ov = some (.obj o)) (theirsHere : tv = some (.obj t)) :
        ∃ result, mergeFields setFields onConflict b o t path = .ok result := by
      subst oursHere theirsHere
      apply mergeFields_isOk
      intro key
      have fields : Mergeable bv (some (.obj o)) (some (.obj t)) := ⟨b, o, t, start, rfl, rfl⟩
      refine ih _ (size ▸ Json.sizeOf_get?_lt o key) (scalars.get? start key) ?_ rfl
      intro isSet diverge
      have atKey := scalars [] key (of_decide_eq_true isSet)
      simp only [DivergeAt, nil_append, ← valueAt_baseFields start,
        Json.valueAt_obj_cons, valueAt_nil] at atKey
      refine atKey ?_ diverge
      intro q within _
      rw [prefix_nil.mp within]
      simpa only [MergeableAt, valueAt_nil] using fields
    rw [mergeValue.eq_def]
    split
    · exact ⟨_, rfl⟩
    next sides =>
    split
    · exact ⟨_, rfl⟩
    next ours =>
    split
    · exact ⟨_, rfl⟩
    next theirs =>
    split
    · next isSet =>
        obtain ⟨scalarBase, scalarOurs, scalarTheirs⟩ := here isSet ⟨sides, ours, theirs⟩
        obtain ⟨items, ok⟩ := mergeSet_isOk scalarBase scalarOurs scalarTheirs
        exact ⟨(some (.arr items), []), by rw [ok]; rfl⟩
    split
    · obtain ⟨r, ok⟩ := descend rfl rfl rfl
      exact ⟨(some (.obj r.1), r.2), by rw [ok]; rfl⟩
    · obtain ⟨r, ok⟩ := descend rfl rfl rfl
      exact ⟨(some (.obj r.1), r.2), by rw [ok]; rfl⟩
    · exact ⟨_, rfl⟩

section

variable {base ours theirs : Option Payload} {outcome : MergeOutcome}

abbrev held (entity : Option Payload) : Option Json :=
  entity.map .obj

theorem baseFields_held (base : Option Payload) : baseFields (held base) = some (base.getD []) := by
  cases base <;> rfl

/-- An entity is merged field by field, is one side's, or is in conflict as a whole. -/
inductive EntityOutcome (setFields : List String) (onConflict : OnConflict)
    (base ours theirs : Option Payload) : MergeOutcome → Prop
  | fields {o t merged : Payload} {conflicts : List Conflict} (oursHere : ours = some o)
      (theirsHere : theirs = some t)
      (ok : mergeFields setFields onConflict (base.getD []) o t [] = .ok (merged, conflicts)) :
      EntityOutcome setFields onConflict base ours theirs ⟨some merged, conflicts⟩
  | agree (same : PyEq? (held ours) (held theirs)) :
      EntityOutcome setFields onConflict base ours theirs ⟨ours, []⟩
  | onlyTheirs (same : PyEq? (held ours) (held base)) :
      EntityOutcome setFields onConflict base ours theirs ⟨theirs, []⟩
  | onlyOurs (same : PyEq? (held theirs) (held base)) :
      EntityOutcome setFields onConflict base ours theirs ⟨ours, []⟩
  | deleteModify (diverge : Diverge Scalar.numeric (held base) (held ours) (held theirs))
      (atomic : ¬ Mergeable (held base) (held ours) (held theirs)) {merged : Option Payload}
      {c : Conflict} (whole : c.path = []) :
      EntityOutcome setFields onConflict base ours theirs ⟨merged, [c]⟩

theorem entityOutcome_dropped {present : Payload}
    (ok : threeWayMerge base ours theirs setFields onConflict = .ok outcome)
    (sides : (ours = none ∧ theirs = some present) ∨ (ours = some present ∧ theirs = none)) :
    EntityOutcome setFields onConflict base ours theirs outcome := by
  cases base with
  | none =>
    obtain ⟨rfl, rfl⟩ | ⟨rfl, rfl⟩ := sides
    · cases ok
      exact .onlyTheirs (.refl _)
    · cases ok
      exact .onlyOurs (.refl _)
  | some b =>
    obtain ⟨rfl, rfl⟩ | ⟨rfl, rfl⟩ := sides
    · unfold threeWayMerge at ok
      dsimp only at ok
      split at ok
      next same =>
        cases ok
        exact .onlyOurs (Json.eqBy?_some.mpr same)
      next changed =>
        have diverge : Diverge Scalar.numeric (held (some b)) (held none) (held (some present)) :=
          ⟨by simp, by simp, fun same => changed (Json.eqBy?_some.mp same)⟩
        have atomic : ¬ Mergeable (held (some b)) (held none) (held (some present)) :=
          fun ⟨_, _, _, _, absurd, _⟩ => nomatch absurd
        cases onConflict <;> cases ok <;> exact .deleteModify diverge atomic rfl
    · unfold threeWayMerge at ok
      dsimp only at ok
      split at ok
      next same =>
        cases ok
        exact .onlyTheirs (Json.eqBy?_some.mpr same)
      next changed =>
        have diverge : Diverge Scalar.numeric (held (some b)) (held (some present)) (held none) :=
          ⟨by simp, fun same => changed (Json.eqBy?_some.mp same), by simp⟩
        have atomic : ¬ Mergeable (held (some b)) (held (some present)) (held none) :=
          fun ⟨_, _, _, _, _, absurd⟩ => nomatch absurd
        cases onConflict <;> cases ok <;> exact .deleteModify diverge atomic rfl

theorem threeWayMerge_outcome
    (ok : threeWayMerge base ours theirs setFields onConflict = .ok outcome) :
    EntityOutcome setFields onConflict base ours theirs outcome := by
  cases ours with
  | none =>
    cases theirs with
    | none =>
      cases ok
      exact .agree (.refl _)
    | some t => exact entityOutcome_dropped ok (.inl ⟨rfl, rfl⟩)
  | some o =>
    cases theirs with
    | none => exact entityOutcome_dropped ok (.inr ⟨rfl, rfl⟩)
    | some t =>
      unfold threeWayMerge at ok
      dsimp only at ok
      cases fields : mergeFields setFields onConflict (base.getD []) o t [] with
      | error e =>
        rw [fields] at ok
        cases ok
      | ok result =>
        rw [fields] at ok
        cases ok
        exact .fields rfl rfl fields

/-- With scalars in the sets that both sides changed, an entity is merged. -/
theorem threeWayMerge_returns
    (scalars : ScalarSets setFields (held base) (held ours) (held theirs)) :
    ∃ outcome, threeWayMerge base ours theirs setFields onConflict = .ok outcome := by
  cases ours with
  | none =>
    cases theirs with
    | none => exact ⟨_, rfl⟩
    | some t =>
      cases base with
      | none => exact ⟨_, rfl⟩
      | some b =>
        simp only [threeWayMerge]
        split
        · exact ⟨_, rfl⟩
        · cases onConflict <;> exact ⟨_, rfl⟩
  | some o =>
    cases theirs with
    | none =>
      cases base with
      | none => exact ⟨_, rfl⟩
      | some b =>
        simp only [threeWayMerge]
        split
        · exact ⟨_, rfl⟩
        · cases onConflict <;> exact ⟨_, rfl⟩
    | some t =>
      have start := baseFields_held base
      have fields : ∃ result,
          mergeFields setFields onConflict (base.getD []) o t [] = .ok result := by
        apply mergeFields_isOk
        intro key
        apply mergeValue_returns (scalars.get? start key)
        intro isSet diverge
        have atKey := scalars [] key (of_decide_eq_true isSet)
        simp only [DivergeAt, nil_append, ← valueAt_baseFields start, Option.map_some,
          Json.valueAt_obj_cons, valueAt_nil] at atKey
        refine atKey ?_ diverge
        intro q within _
        rw [prefix_nil.mp within]
        exact ⟨base.getD [], o, t, start, rfl, rfl⟩
      obtain ⟨result, ok⟩ := fields
      refine ⟨⟨some result.1, result.2⟩, ?_⟩
      unfold threeWayMerge
      dsimp only
      rw [ok]
      rfl

theorem threeWayMerge_undecided
    (ok : threeWayMerge base ours theirs setFields onConflict = .ok outcome) {c : Conflict}
    (mem : c ∈ outcome.conflicts) :
    Avoids setFields c.path ∧ DivergeAt (held base) (held ours) (held theirs) c.path ∧
      ¬ MergeableAt (held base) (held ours) (held theirs) c.path := by
  cases threeWayMerge_outcome ok with
  | agree => cases mem
  | onlyTheirs => cases mem
  | onlyOurs => cases mem
  | deleteModify diverge atomic whole =>
    obtain rfl := mem_singleton.mp mem
    rw [whole]
    refine ⟨avoids_nil, ?_, ?_⟩
    · simpa only [DivergeAt, valueAt_nil] using diverge
    · simpa only [MergeableAt, valueAt_nil] using atomic
  | fields oursHere theirsHere merged =>
    subst oursHere theirsHere
    obtain ⟨key, value, cs, atKey, there⟩ := (mergeFields_ok merged).2 c mem
    obtain ⟨noSet, p, same, avoids, undecided⟩ := mergeValue_undecided atKey there
    rw [same, nil_append]
    refine ⟨?_, ?_⟩
    · exact avoids_cons (of_decide_eq_false noSet) avoids
    · simp only [DivergeAt, MergeableAt, singleton_append,
        ← valueAt_baseFields (baseFields_held base)]
      exact undecided

theorem threeWayMerge_field (ok : threeWayMerge base ours theirs setFields onConflict = .ok outcome)
    (top : DivergeAt (held base) (held ours) (held theirs) [] →
      MergeableAt (held base) (held ours) (held theirs) [])
    {key : String} (mem : key ∈ setFields) {p : Path}
    (descends : Descends setFields (held base) (held ours) (held theirs) p) :
    SetOutcome (valueAt (held base) (p ++ [key])) (valueAt (held ours) (p ++ [key]))
      (valueAt (held theirs) (p ++ [key])) (valueAt (held outcome.merged) (p ++ [key])) := by
  cases threeWayMerge_outcome ok with
  | agree same => exact .agree (same.valueAt _)
  | onlyTheirs same => exact .onlyTheirs (same.valueAt _)
  | onlyOurs same => exact .onlyOurs (same.valueAt _)
  | deleteModify diverge atomic =>
    exact absurd (top diverge) atomic
  | fields oursHere theirsHere merged =>
    subst oursHere theirsHere
    rw [← valueAt_concat_baseFields (baseFields_held base)]
    apply field_outcome mem p merged
    intro q k within
    simp only [DivergeAt, MergeableAt, valueAt_concat_baseFields (baseFields_held base)]
    exact descends q k within

theorem threeWayMerge_none (ok : threeWayMerge base ours theirs setFields onConflict = .ok outcome)
    (top : DivergeAt (held base) (held ours) (held theirs) [] →
      MergeableAt (held base) (held ours) (held theirs) []) {key : String} {p : Path}
    (oursNone : valueAt (held ours) (p ++ [key]) = none)
    (theirsNone : valueAt (held theirs) (p ++ [key]) = none) :
    valueAt (held outcome.merged) (p ++ [key]) = none := by
  cases threeWayMerge_outcome ok with
  | agree => exact oursNone
  | onlyTheirs => exact theirsNone
  | onlyOurs => exact oursNone
  | deleteModify diverge atomic =>
    exact absurd (top diverge) atomic
  | fields oursHere theirsHere merged =>
    subst oursHere theirsHere
    by_contra some
    cases p with
    | nil =>
      obtain ⟨cs, atKey, -⟩ := (mergeFields_ok merged).1 key
      obtain here | here := mergeValue_not_invented atKey [] some
      · exact here oursNone
      · exact here theirsNone
    | cons head p =>
      obtain ⟨cs, atKey, -⟩ := (mergeFields_ok merged).1 head
      obtain here | here := mergeValue_not_invented atKey (p ++ [key]) some
      · exact here oursNone
      · exact here theirsNone

end

/-- What is asked of a set field, by the values it has in the three payloads and the merged one. -/
structure SetLaw (bv ov tv merged : Option Json) : Prop where
  lists : (¬ PyEq? ov bv ∨ ¬ PyEq? tv bv) → (¬ PyEq? ov bv → IsList ov) →
    (¬ PyEq? tv bv → IsList tv) →
    IsList merged ∧ Distinct merged ∧
      ∀ x, Has merged x ↔ (Has bv x ∧ Has ov x ∧ Has tv x) ∨ (¬ Has bv x ∧ (Has ov x ∨ Has tv x))
  conflicting : ¬ PyEq? ov bv → ¬ PyEq? tv bv → ¬ (IsList ov ∧ IsList tv) →
    PyEq? ov tv ∧ PyEq? merged ov

/-- Every set field is merged as a set, or a conflict names it or what holds it. -/
def KeepsSets (setFields : List String) (base ours theirs : Option Payload)
    (outcome : MergeOutcome) : Prop :=
  ∀ p, ∀ key ∈ setFields, (∃ c ∈ outcome.conflicts, c.path <+: p ++ [key]) ∨
    SetLaw (valueAt (held base) (p ++ [key])) (valueAt (held ours) (p ++ [key]))
      (valueAt (held theirs) (p ++ [key])) (valueAt (held outcome.merged) (p ++ [key]))

/-- What the formula can merge: where both sides changed a set field differently, lists of scalars;
where they did not, lists without repetitions. -/
structure Mendable (bv ov tv : Option Json) : Prop where
  diverged : Diverge Scalar.numeric bv ov tv →
    (IsList ov ∧ IsList tv) ∧ ScalarItems bv ∧ ScalarItems ov ∧ ScalarItems tv
  onOneSide : ¬ Diverge Scalar.numeric bv ov tv →
    (¬ PyEq? ov bv → Distinct ov) ∧ (¬ PyEq? tv bv → Distinct tv)

section

variable {bv ov tv merged : Option Json}

theorem SetLaw.of_outcome (out : SetOutcome bv ov tv merged) (mendable : Mendable bv ov tv) :
    SetLaw bv ov tv merged := by
  cases out with
  | agree same =>
    have once := mendable.onOneSide fun diverge => diverge.sides same
    refine ⟨fun changed oursList theirsList => ?_, fun _ _ _ => ⟨same, .refl _⟩⟩
    have oursChanged : ¬ PyEq? ov bv := by
      obtain ours | theirs := changed
      · exact ours
      · exact fun eq => theirs (same.symm.trans eq)
    refine ⟨oursList oursChanged, once.1 oursChanged, fun x => ?_⟩
    rw [← has_congr same]
    tauto
  | onlyTheirs same =>
    have once := mendable.onOneSide fun diverge => diverge.ours same
    refine ⟨fun changed _ theirsList => ?_, fun oursChanged => absurd same oursChanged⟩
    have theirsChanged := changed.resolve_left (not_not_intro same)
    refine ⟨theirsList theirsChanged, once.2 theirsChanged, fun x => ?_⟩
    rw [has_congr same]
    tauto
  | onlyOurs same =>
    have once := mendable.onOneSide fun diverge => diverge.theirs same
    refine ⟨fun changed oursList _ => ?_, fun _ theirsChanged => absurd same theirsChanged⟩
    have oursChanged := changed.resolve_right (not_not_intro same)
    refine ⟨oursList oursChanged, once.1 oursChanged, fun x => ?_⟩
    rw [has_congr same]
    tauto
  | @set diverge items ok =>
    obtain ⟨members, distinct, -⟩ := mergeSet_spec ok
    exact ⟨fun _ _ _ => ⟨⟨items, rfl⟩, distinct, members⟩,
      fun _ _ scalars => absurd (mendable.diverged diverge).1 scalars⟩

theorem Mendable.of_outcome (out : SetOutcome bv ov tv merged) (law : SetLaw bv ov tv merged) :
    Mendable bv ov tv := by
  refine ⟨fun diverge => ?_, fun agreed => ?_⟩
  · have lists : IsList ov ∧ IsList tv := by
      by_contra scalars
      exact diverge.sides (law.conflicting diverge.ours diverge.theirs scalars).1
    refine ⟨lists, ?_⟩
    cases out with
    | agree same => exact absurd same diverge.sides
    | onlyTheirs same => exact absurd same diverge.ours
    | onlyOurs same => exact absurd same diverge.theirs
    | set _ ok => exact (mergeSet_spec ok).2.2
  · -- A changed side that is a list is what was merged.
    cases out with
    | set diverge => exact absurd diverge agreed
    | agree same =>
      have once (changed : ¬ PyEq? ov bv) (list : IsList ov) : Distinct ov :=
        (law.lists (.inl changed) (fun _ => list) fun _ => list.congr same).2.1
      refine ⟨fun changed items held => once changed ⟨items, held⟩ items held, ?_⟩
      intro changed
      have oursChanged : ¬ PyEq? ov bv := fun eq => changed (same.symm.trans eq)
      intro items held
      have list : IsList ov := IsList.congr same.symm ⟨items, held⟩
      exact (once oursChanged list).congr same items held
    | onlyTheirs same =>
      refine ⟨fun changed => absurd same changed, fun changed items held => ?_⟩
      exact (law.lists (.inr changed) (fun oursChanged => absurd same oursChanged)
        fun _ => ⟨items, held⟩).2.1 items held
    | onlyOurs same =>
      refine ⟨fun changed items held => ?_, fun changed => absurd same changed⟩
      exact (law.lists (.inl changed) (fun _ => ⟨items, held⟩)
        fun theirsChanged => absurd same theirsChanged).2.1 items held

/-- A field that neither side holds is lost to nobody. -/
theorem SetLaw.of_none : SetLaw bv none none none where
  lists changed oursList theirsList := by
    obtain ours | theirs := changed
    · obtain ⟨items, absurd⟩ := oursList ours
      cases absurd
    · obtain ⟨items, absurd⟩ := theirsList theirs
      cases absurd
  conflicting _ _ _ := ⟨.refl _, .refl _⟩

end

section

variable {base ours theirs : Option Json}

/-- A path leads on from where its beginning led. -/
theorem valueAt_append (value : Option Json) (p q : Path) :
    valueAt value (p ++ q) = valueAt (valueAt value p) q := by
  induction p generalizing value with
  | nil => rw [nil_append, valueAt_nil]
  | cons key p ih =>
    rcases value with - | (s | items | fields)
    · simp
    · simp
    · simp
    · rw [cons_append, Json.valueAt_obj_cons, Json.valueAt_obj_cons, ih]

theorem valueAt_below_list {value : Option Json} {p : Path} (list : IsList (valueAt value p))
    {q : Path} (below : q ≠ []) : valueAt value (p ++ q) = none := by
  obtain ⟨items, held⟩ := list
  cases q with
  | nil => exact absurd rfl below
  | cons key q => rw [valueAt_append, held, Json.valueAt_arr_cons]

theorem DivergeAt.above {p q : Path} (diverge : DivergeAt base ours theirs (p ++ q)) :
    DivergeAt base ours theirs p := by
  unfold DivergeAt at diverge ⊢
  rw [valueAt_append, valueAt_append, valueAt_append] at diverge
  exact ⟨fun same => diverge.sides (same.valueAt q), fun same => diverge.ours (same.valueAt q),
    fun same => diverge.theirs (same.valueAt q)⟩

/-- Above a difference that merging reaches there is no set field. -/
theorem Descends.avoids {p q : Path} (descends : Descends setFields base ours theirs p)
    (diverge : DivergeAt base ours theirs (p ++ q)) : Avoids setFields p := by
  intro key mem isSet
  obtain ⟨before, after, rfl⟩ := append_of_mem mem
  have split : before ++ key :: after = before ++ [key] ++ after := by simp
  rw [split] at descends diverge
  rw [append_assoc] at diverge
  exact (descends before key (prefix_append _ _) diverge.above).2 isSet

theorem descends_or_stops (p : Path) : Descends setFields base ours theirs p ∨
    ∃ q key, q ++ [key] <+: p ∧ Descends setFields base ours theirs q ∧
      DivergeAt base ours theirs (q ++ [key]) ∧
      (MergeableAt base ours theirs (q ++ [key]) → key ∈ setFields) := by
  induction p using List.reverseRecOn with
  | nil =>
    refine .inl fun q key within => ?_
    have absurd := prefix_nil.mp within
    simp at absurd
  | append_singleton p last ih =>
    obtain descends | ⟨q, key, within, stops⟩ := ih
    · by_cases stop : DivergeAt base ours theirs (p ++ [last]) ∧
          (MergeableAt base ours theirs (p ++ [last]) → last ∈ setFields)
      · exact .inr ⟨p, last, prefix_refl _, descends, stop⟩
      · refine .inl fun q key within diverge => ?_
        obtain same | shorter := prefix_concat_iff.mp within
        · obtain ⟨rfl, last⟩ := append_inj' same rfl
          obtain rfl := singleton_inj.mp last
          by_contra not
          exact stop ⟨diverge, fun mergeable => by_contra fun out => not ⟨mergeable, out⟩⟩
        · exact descends q key shorter diverge
    · exact .inr ⟨q, key, within.trans (prefix_append _ _), stops⟩

theorem Descends.met {p : Path} (descends : Descends setFields base ours theirs p)
    (top : DivergeAt base ours theirs [] → MergeableAt base ours theirs []) :
    Met base ours theirs p := by
  intro q within diverge
  cases q using List.reverseRecOn with
  | nil => exact top diverge
  | append_singleton q key => exact (descends q key within diverge).1

end

section

variable {base ours theirs : Option Payload}

/-- Every set field that merging reaches can be merged by the formula. -/
def SetsMendable (setFields : List String) (base ours theirs : Option Payload) : Prop :=
  ∀ p, ∀ key ∈ setFields, Met (held base) (held ours) (held theirs) p →
    Mendable (valueAt (held base) (p ++ [key])) (valueAt (held ours) (p ++ [key]))
      (valueAt (held theirs) (p ++ [key]))

theorem SetsMendable.keepsSets {outcome : MergeOutcome}
    (mendable : SetsMendable setFields base ours theirs)
    (ok : threeWayMerge base ours theirs setFields onConflict = .ok outcome) :
    KeepsSets setFields base ours theirs outcome := by
  intro p key mem
  have law := (threeWayMerge_mergesTo ok).law
  by_cases top : DivergeAt (held base) (held ours) (held theirs) [] →
      MergeableAt (held base) (held ours) (held theirs) []
  swap
  · -- The entities themselves are in conflict.
    have root : ¬ BelowConflict outcome.conflicts [] :=
      fun ⟨_, _, within, ne⟩ => ne (prefix_nil.mp within)
    obtain ⟨c, recorded, whole⟩ :=
      (law [] avoids_nil root).conflicting.mpr (Classical.not_imp.mp top)
    exact .inl ⟨c, recorded, whole ▸ nil_prefix⟩
  have along : Descends setFields (held base) (held ours) (held theirs) p ∨ _ :=
    descends_or_stops p
  obtain descends | ⟨q, last, within, descends, diverge, stops⟩ := along
  · exact .inr (.of_outcome (threeWayMerge_field ok top mem descends)
      (mendable p key mem (descends.met top)))
  · have inField : q ++ [last] <+: p ++ [key] := within.trans (prefix_append _ _)
    by_cases isSet : last ∈ setFields
    · -- Both sides hold a list on the way, so neither has the field.
      obtain ⟨lists, -⟩ := (mendable q last isSet (descends.met top)).diverged diverge
      obtain ⟨rest, rfl⟩ := within
      have below : rest ++ [key] ≠ [] := append_ne_nil_of_right_ne_nil _ (by simp)
      have oursNone := valueAt_below_list lists.1 below
      have theirsNone := valueAt_below_list lists.2 below
      rw [← append_assoc] at oursNone theirsNone
      rw [oursNone, theirsNone, threeWayMerge_none ok top oursNone theirsNone]
      exact .inr .of_none
    · have avoids : Avoids setFields (q ++ [last]) := by
        intro k inPath
        obtain inside | here := mem_append.mp inPath
        · exact descends.avoids diverge k inside
        · rw [mem_singleton.mp here]
          exact isSet
      by_cases below : BelowConflict outcome.conflicts (q ++ [last])
      · obtain ⟨c, recorded, above, -⟩ := below
        exact .inl ⟨c, recorded, above.trans inField⟩
      · obtain ⟨c, recorded, here⟩ := (law _ avoids below).conflicting.mpr
          ⟨diverge, fun mergeable => isSet (stops mergeable)⟩
        exact .inl ⟨c, recorded, here ▸ inField⟩

/-- What merging keeps it could mend. -/
theorem KeepsSets.setsMendable {outcome : MergeOutcome}
    (ok : threeWayMerge base ours theirs setFields onConflict = .ok outcome)
    (keeps : KeepsSets setFields base ours theirs outcome) :
    SetsMendable setFields base ours theirs := by
  have reported (p : Path) (key : String) (mem : key ∈ setFields)
      (met : Met (held base) (held ours) (held theirs) p) :=
    (keeps p key mem).resolve_left (by
      rintro ⟨c, recorded, within⟩
      obtain ⟨avoids, diverge, atomic⟩ := threeWayMerge_undecided ok recorded
      obtain here | above := prefix_concat_iff.mp within
      · rw [here] at avoids
        exact avoids key (mem_append_right _ (mem_singleton_self key)) mem
      · exact atomic (met c.path above diverge))
  intro p key mem met
  have descends : Descends setFields (held base) (held ours) (held theirs) p := by
    intro q k within diverge
    have mergeable := met (q ++ [k]) within diverge
    refine ⟨mergeable, fun isSet => ?_⟩
    have law := reported q k isSet fun above inside =>
      met above (inside.trans ((prefix_append q [k]).trans within))
    -- Two dictionaries in a set field are no lists.
    apply diverge.sides
    refine (law.conflicting diverge.ours diverge.theirs fun lists => ?_).1
    obtain ⟨_, o, _, _, fields, _⟩ := mergeable
    obtain ⟨items, list⟩ := lists.1
    cases fields.symm.trans list
  have top := met [] nil_prefix
  exact .of_outcome (threeWayMerge_field ok top mem descends) (reported p key mem met)

/-- Merging returns, and every set field is merged as a set or reported, exactly when wherever
merging comes to a set field that both sides changed differently both hold lists, and scalars, and
a list that one side changed repeats nothing. -/
theorem threeWayMerge_keepsSets_iff (setFields : List String) (onConflict : OnConflict)
    (base ours theirs : Option Payload) :
    (∃ outcome, threeWayMerge base ours theirs setFields onConflict = .ok outcome ∧
      KeepsSets setFields base ours theirs outcome) ↔
    SetsMendable setFields base ours theirs := by
  constructor
  · rintro ⟨outcome, ok, keeps⟩
    exact keeps.setsMendable ok
  · intro mendable
    have scalars : ScalarSets setFields (held base) (held ours) (held theirs) :=
      fun p key mem met diverge => ((mendable p key mem met).diverged diverge).2
    have returns : ∃ outcome, threeWayMerge base ours theirs setFields onConflict = .ok outcome :=
      threeWayMerge_returns scalars
    obtain ⟨outcome, ok⟩ := returns
    exact ⟨outcome, ok, mendable.keepsSets ok⟩

end

/-- We made the tags a text, and they added a tag: the text is gone, and so is the tag that was
there, and nothing is reported. -/
theorem threeWayMerge_keepsSets_text :
    threeWayMerge (some [("tags", .arr [.str "a"])]) (some [("tags", .str "a,b")])
        (some [("tags", .arr [.str "a", .str "c"])]) ["tags"] =
      .ok ⟨some [("tags", .arr [.str "c"])], []⟩ ∧
    ¬ KeepsSets ["tags"] (some [("tags", .arr [.str "a"])]) (some [("tags", .str "a,b")])
      (some [("tags", .arr [.str "a", .str "c"])]) ⟨some [("tags", .arr [.str "c"])], []⟩ := by
  refine ⟨by decide +kernel, fun keeps => ?_⟩
  obtain ⟨c, absurd, -⟩ | law := keeps [] "tags" (mem_singleton_self _)
  · cases absurd
  · have lists : ¬ (IsList (some (.str "a,b")) ∧ IsList (some (.arr [.str "a", .str "c"]))) :=
      fun ⟨⟨_, absurd⟩, _⟩ => nomatch absurd
    have same := (law.conflicting (by decide) (by decide) lists).1
    revert same
    decide

end DataViz.Versioning
