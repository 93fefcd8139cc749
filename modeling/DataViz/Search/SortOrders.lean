/-
# The orders that `build_sort_spec` writes

The keys hold texts, floats, and integers that meet only integers of their own sign, and on these
the database and Python agree. One key may hold integers and floats, the number of a sorted
property: there an integer and a float that are one double come in the order of their URNs in the
database, and of their values in Python. The pages are right if and only if these orders are one.
-/

import DataViz.Search.KeysLaws

namespace DataViz.Search

open List

def turned (descending : Bool) (order : Ordering) : Ordering :=
  if descending then order.swap else order

theorem compareRows_cons (compare : KeyValue → KeyValue → Ordering) (descending : Bool)
    (directions : List Bool) (x y : KeyValue) (xs ys : List KeyValue) :
    compareRows compare (descending :: directions) (x :: xs) (y :: ys) =
      (turned descending (compare x y)).then (compareRows compare directions xs ys) := by
  rw [compareRows]
  cases compare x y <;> cases descending <;> rfl

theorem turned_false (order : Ordering) : turned false order = order :=
  rfl

theorem turned_swap (descending : Bool) (order : Ordering) :
    turned descending order.swap = (turned descending order).swap := by
  cases descending <;> rfl

def Alike (x y : KeyValue) : Prop :=
  compareDatabase x y = comparePython x y

theorem alike_text (s t : Text) : Alike (.text s) (.text t) :=
  cmp_textBytes s t

theorem alike_double (x y : Double) : Alike (.double x) (.double y) :=
  rfl

theorem value_finite (q : ℚ) : (Double.finite q).value = ((q : WithTop ℚ) : WithBot (WithTop ℚ)) :=
  rfl

theorem cmp_int (m n : ℤ) : cmp (Double.finite m).value (Double.finite n).value = cmp m n := by
  rw [value_finite, value_finite]
  unfold cmp cmpUsing
  simp only [WithBot.coe_lt_coe, WithTop.coe_lt_coe, Int.cast_lt]

/-- The difference of two integers of one sign does not wrap. -/
theorem alike_int {m n : Int64} (sign : m.toInt < 0 ↔ n.toInt < 0) : Alike (.int m) (.int n) := by
  have lowM := m.le_toInt
  have lowN := n.le_toInt
  have highM := m.toInt_lt
  have highN := n.toInt_lt
  have difference : (m - n).toInt = m.toInt - n.toInt := by
    rw [Int64.toInt_sub]
    exact Int.bmod_eq_of_le (by omega) (by omega)
  have python : comparePython (.int m) (.int n) = cmp m.toInt n.toInt := cmp_int _ _
  rw [Alike, python, compareDatabase, difference]
  unfold cmp cmpUsing
  simp only [sub_neg, sub_pos]

theorem nearestDouble_zero : nearestDouble 0 = .finite 0 := by decide +kernel

theorem nearestDouble_one : nearestDouble 1 = .finite 1 := by decide +kernel

/-- Booleans are exact as doubles. -/
theorem alike_small {n : Int64} (small : n = 0 ∨ n = 1) (x : Double) :
    Alike (.int n) (.double x) := by
  have exact : nearestDouble n = .finite n.toInt := by
    obtain rfl | rfl := small
    · rw [nearestDouble_zero]
      rfl
    · rw [nearestDouble_one]
      rfl
  show cmp (nearestDouble n).value x.value = cmp (Double.finite n.toInt).value x.value
  rw [exact]

theorem alike_float_int {n : Int64} {x : Double} (alike : Alike (.int n) (.double x)) :
    Alike (.double x) (.int n) := by
  show cmp x.value (nearestDouble n).value = cmp x.value (Double.finite n.toInt).value
  have same : cmp (nearestDouble n).value x.value = cmp (Double.finite n.toInt).value x.value :=
    alike
  rw [← cmp_swap, same, cmp_swap]

theorem comparePython_self (x : KeyValue) : comparePython x x = .eq :=
  comparePython_eq_iff.mpr rfl

theorem compareDatabase_self (x : KeyValue) : compareDatabase x x = .eq := by
  cases x with
  | int n =>
    rw [compareDatabase, Int64.sub_self]
    rfl
  | double x => exact cmp_self_eq_eq x.value
  | text t => exact (alike_text t t).trans (comparePython_self _)

section

variable (functions : TextFunctions)

def propertyKeys (key : String) (descending : Bool) : SortSpec :=
  [⟨fun m => kindKey (m.property key), descending⟩, ⟨fun m => signKey (m.property key), descending⟩,
    ⟨fun m => numberKey (m.property key), descending⟩,
    ⟨fun m => textKey functions (m.property key), descending⟩, urnKey]

variable {functions} {key : String} {descending : Bool} {a b : Match}

theorem compareRows_property (compare : KeyValue → KeyValue → Ordering) :
    compareRows compare (propertyKeys functions key descending).directions
        ((propertyKeys functions key descending).row a).values
        ((propertyKeys functions key descending).row b).values =
      (turned descending (compare (kindKey (a.property key)) (kindKey (b.property key)))).then
      ((turned descending (compare (signKey (a.property key)) (signKey (b.property key)))).then
      ((turned descending (compare (numberKey (a.property key)) (numberKey (b.property key)))).then
      ((turned descending (compare (textKey functions (a.property key))
        (textKey functions (b.property key)))).then
      (compare (.text a.urn) (.text b.urn))))) := by
  have values (m : Match) : ((propertyKeys functions key descending).row m).values =
      [kindKey (m.property key), signKey (m.property key), numberKey (m.property key),
        textKey functions (m.property key), .text m.urn] := rfl
  have directions : (propertyKeys functions key descending).directions =
      [descending, descending, descending, descending, false] := rfl
  rw [values, values, directions]
  simp only [compareRows_cons]
  have last : compareRows compare [] [] [] = .eq := rfl
  rw [last, turned_false, Ordering.then_eq]

variable {compare : KeyValue → KeyValue → Ordering}

theorem compareRows_self (self : ∀ x, compare x x = .eq) (directions : List Bool)
    (xs : List KeyValue) : compareRows compare directions xs xs = .eq := by
  induction directions generalizing xs with
  | nil => rfl
  | cons descending directions ih =>
    cases xs with
    | nil => rfl
    | cons x xs => rw [compareRows, self, ih]

theorem kindKey_eq (value : Stored) : kindKey value = .int 0 ∨ kindKey value = .int 1 := by
  rw [kindKey]
  split
  · exact .inl rfl
  · exact .inr rfl

theorem signKey_eq (value : Stored) : signKey value = .int 0 ∨ signKey value = .int 1 := by
  cases value <;> simp only [signKey]
  case int n => split <;> simp
  case float x => split <;> simp
  all_goals exact .inr trivial

theorem numberKey_cases (value : Stored) : (∃ x, value = .float x) ∨
    ∃ n, numberKey value = .int n ∧ signKey value = .int (if n.toInt < 0 then 0 else 1) ∧
      (value = .int n ∨ n = 0 ∨ n = 1) := by
  cases value with
  | int n => exact .inr ⟨n, rfl, by rw [signKey, Int64.sub_zero], .inl rfl⟩
  | float x => exact .inl ⟨x, rfl⟩
  | bool flag =>
    cases flag
    · exact .inr ⟨0, rfl, rfl, .inr (.inl rfl)⟩
    · exact .inr ⟨1, rfl, rfl, .inr (.inr rfl)⟩
  | missing => exact .inr ⟨0, rfl, rfl, .inr (.inl rfl)⟩
  | nan => exact .inr ⟨0, rfl, rfl, .inr (.inl rfl)⟩
  | text t => exact .inr ⟨0, rfl, rfl, .inr (.inl rfl)⟩
  | list items => exact .inr ⟨0, rfl, rfl, .inr (.inl rfl)⟩

theorem alike_zero_or_one {x y : KeyValue} (first : x = .int 0 ∨ x = .int 1)
    (second : y = .int 0 ∨ y = .int 1) : Alike x y := by
  obtain rfl | rfl := first <;> obtain rfl | rfl := second <;> exact alike_int (by decide)

theorem signKey_float (x : Double) :
    signKey (.float x) = .int (if x.value < (Double.finite 0).value then 0 else 1) :=
  rfl

/-- An integer and a float of one sign come in the same order as doubles as by their values, with
their URNs to decide a tie. -/
def InOrderAsDoubles (descending : Bool) (n : Int64) (x : Double) (a b : Match) : Prop :=
  (n.toInt < 0 ↔ x.value < (Double.finite 0).value) →
    (turned descending (cmp (nearestDouble n).value x.value)).then (cmp a.urn b.urn) =
      (turned descending (cmp (Double.finite n.toInt).value x.value)).then (cmp a.urn b.urn)

def DoublesInOrder (key : String) (descending : Bool) (listed : List Match) : Prop :=
  ∀ a ∈ listed, ∀ b ∈ listed, ∀ n x, a.property key = .int n → b.property key = .float x →
    InOrderAsDoubles descending n x a b

theorem then_congr {first second second' : Ordering} (same : first = .eq → second = second') :
    first.then second = first.then second' := by
  cases first with
  | eq => exact same rfl
  | lt => rfl
  | gt => rfl

theorem turned_eq_iff {order : Ordering} : turned descending order = .eq ↔ order = .eq := by
  cases descending <;> cases order <;> simp [turned]

theorem eq_of_comparePython {x y : KeyValue} (first : x = .int 0 ∨ x = .int 1)
    (second : y = .int 0 ∨ y = .int 1) (same : comparePython x y = .eq) : x = y := by
  obtain rfl | rfl := first <;> obtain rfl | rfl := second
  · rfl
  · exact absurd same (by decide)
  · exact absurd same (by decide)
  · rfl

theorem then_numeric (self : ∀ x, compare x x = .eq) (order : Ordering)
    (numericA : numeric (a.property key) = true) (numericB : numeric (b.property key) = true) :
    (turned descending (compare (textKey functions (a.property key))
        (textKey functions (b.property key)))).then order = order := by
  rw [textKey, textKey, numericA, numericB, if_pos rfl, if_pos rfl, self, turned_eq_iff.mpr rfl]
  rfl

theorem iff_of_sign {p q : Prop} [Decidable p] [Decidable q]
    (same : KeyValue.int (if p then 0 else 1) = .int (if q then 0 else 1)) : p ↔ q := by
  by_cases first : p <;> by_cases second : q <;> simp_all

theorem compareRows_numeric (self : ∀ x, compare x x = .eq)
    (numericA : numeric (a.property key) = true) (numericB : numeric (b.property key) = true)
    (signs : signKey (a.property key) = signKey (b.property key)) :
    compareRows compare (propertyKeys functions key descending).directions
        ((propertyKeys functions key descending).row a).values
        ((propertyKeys functions key descending).row b).values =
      (turned descending (compare (numberKey (a.property key)) (numberKey (b.property key)))).then
        (compare (.text a.urn) (.text b.urn)) := by
  rw [compareRows_property, then_numeric self _ numericA numericB, signs, self, kindKey, kindKey,
    numericA, numericB, self, turned_eq_iff.mpr rfl]
  rfl

/-- The database and Python put two matches alike. -/
theorem compareRows_agree (inOrder : ∀ n x, a.property key = .int n → b.property key = .float x →
    InOrderAsDoubles descending n x a b)
    (inOrder' : ∀ n x, b.property key = .int n → a.property key = .float x →
      InOrderAsDoubles descending n x b a) :
    compareRows compareDatabase (propertyKeys functions key descending).directions
        ((propertyKeys functions key descending).row a).values
        ((propertyKeys functions key descending).row b).values =
      compareRows comparePython (propertyKeys functions key descending).directions
        ((propertyKeys functions key descending).row a).values
        ((propertyKeys functions key descending).row b).values := by
  have texts (s t : Text) :
      compareDatabase (.text s) (.text t) = comparePython (.text s) (.text t) := alike_text s t
  have kinds := alike_zero_or_one (kindKey_eq (a.property key)) (kindKey_eq (b.property key))
  have signs := alike_zero_or_one (signKey_eq (a.property key)) (signKey_eq (b.property key))
  rw [compareRows_property, compareRows_property, kinds, signs]
  refine then_congr fun _ => then_congr fun sameSign => ?_
  have same := eq_of_comparePython (signKey_eq _) (signKey_eq _) (turned_eq_iff.mp sameSign)
  have textsAlike : Alike (textKey functions (a.property key))
    (textKey functions (b.property key)) := alike_text _ _
  have agree (number : Alike (numberKey (a.property key)) (numberKey (b.property key))) :
      (turned descending (compareDatabase (numberKey (a.property key))
        (numberKey (b.property key)))).then
          ((turned descending (compareDatabase (textKey functions (a.property key))
            (textKey functions (b.property key)))).then
            (compareDatabase (.text a.urn) (.text b.urn))) =
        (turned descending (comparePython (numberKey (a.property key))
        (numberKey (b.property key)))).then
          ((turned descending (comparePython (textKey functions (a.property key))
            (textKey functions (b.property key)))).then
            (comparePython (.text a.urn) (.text b.urn))) := by
    rw [number, textsAlike, texts]
  obtain ⟨x, floatA⟩ | ⟨m, numberA, signA, kindA⟩ := numberKey_cases (a.property key)
  · have numericA : numeric (a.property key) = true := by rw [floatA]; rfl
    obtain ⟨y, floatB⟩ | ⟨n, numberB, signB, kindB⟩ := numberKey_cases (b.property key)
    · exact agree (by rw [floatA, floatB]; rfl)
    · obtain int | small := kindB
      · have numericB : numeric (b.property key) = true := by rw [int]; rfl
        rw [signB, floatA] at same
        have swapped := congrArg Ordering.swap (inOrder' n x int floatA (iff_of_sign same.symm))
        rw [Ordering.swap_then, Ordering.swap_then, cmp_swap, ← turned_swap, ← turned_swap,
          cmp_swap, cmp_swap] at swapped
        rw [then_numeric compareDatabase_self _ numericA numericB,
          then_numeric comparePython_self _ numericA numericB, texts, floatA, int]
        exact swapped
      · refine agree ?_
        rw [numberB, floatA]
        exact alike_float_int (alike_small small x)
  · obtain ⟨y, floatB⟩ | ⟨n, numberB, signB, kindB⟩ := numberKey_cases (b.property key)
    · obtain int | small := kindA
      · have numericA : numeric (a.property key) = true := by rw [int]; rfl
        have numericB : numeric (b.property key) = true := by rw [floatB]; rfl
        rw [signA, floatB] at same
        rw [then_numeric compareDatabase_self _ numericA numericB,
          then_numeric comparePython_self _ numericA numericB, texts, int, floatB]
        exact inOrder m y int floatB (iff_of_sign same)
      · refine agree ?_
        rw [numberA, floatB]
        exact alike_small small y
    · refine agree ?_
      rw [numberA, numberB]
      rw [signA, signB] at same
      exact alike_int (iff_of_sign same)

theorem doublesInOrder_of_listsOnce {listed : List Match} (distinct : (listed.map Match.urn).Nodup)
    (lists : (propertyKeys functions key descending).ListsOnce listed) :
    DoublesInOrder key descending listed := by
  intro a memA b memB n x int float sign
  have urn : urnKey ∈ propertyKeys functions key descending := by simp [propertyKeys]
  have refl (row : (propertyKeys functions key descending).Row) :
      (propertyKeys functions key descending).DatabaseLe row row := by
    rw [SortSpec.DatabaseLe, compareRows_self compareDatabase_self]
    decide
  have first := lists.databaseLe urn distinct refl memA memB
  have second := lists.databaseLe urn distinct refl memB memA
  have numericA : numeric (a.property key) = true := by rw [int]; rfl
  have numericB : numeric (b.property key) = true := by rw [float]; rfl
  have signs : signKey (a.property key) = signKey (b.property key) := by
    rw [int, float, signKey_float, signKey, Int64.sub_zero]
    simp only [sign]
  have numbers {compare : KeyValue → KeyValue → Ordering} :
      compare (numberKey (a.property key)) (numberKey (b.property key)) =
        compare (.int n) (.double x) ∧
      compare (numberKey (b.property key)) (numberKey (a.property key)) =
        compare (.double x) (.int n) := by
    rw [int, float]
    exact ⟨rfl, rfl⟩
  have database : compareDatabase (.double x) (.int n) =
      (compareDatabase (.int n) (.double x)).swap := (cmp_swap _ _).symm
  have python : comparePython (.double x) (.int n) =
      (comparePython (.int n) (.double x)).swap := (cmp_swap _ _).symm
  let byUrn (a b : Match) := comparePython (.text a.urn) (.text b.urn)
  have urns : byUrn b a = (byUrn a b).swap := (cmp_swap _ _).symm
  have texts (a b : Match) : compareDatabase (.text a.urn) (.text b.urn) = byUrn a b :=
    alike_text a.urn b.urn
  have texts' (a b : Match) : comparePython (.text a.urn) (.text b.urn) = byUrn a b := rfl
  have different : byUrn a b ≠ .eq := by
    intro alike
    have one : a = b := inj_on_of_nodup_map distinct memA memB
      (Sum.inr_injective (toLex.injective (comparePython_eq_iff.mp alike)))
    rw [one, float] at int
    cases int
  simp only [SortSpec.DatabaseLe, SortSpec.PythonLe,
    compareRows_numeric compareDatabase_self numericA numericB signs,
    compareRows_numeric compareDatabase_self numericB numericA signs.symm,
    compareRows_numeric comparePython_self numericA numericB signs,
    compareRows_numeric comparePython_self numericB numericA signs.symm, numbers.1, numbers.2,
    database, python, texts, texts', urns, turned_swap, ← Ordering.swap_then] at first second
  show (turned descending (compareDatabase (.int n) (.double x))).then (byUrn a b) =
    (turned descending (comparePython (.int n) (.double x))).then (byUrn a b)
  have untied (order : Ordering) : order.then (byUrn a b) ≠ .eq :=
    fun tie => different (Ordering.then_eq_eq.mp tie).2
  have untied' := untied (turned descending (compareDatabase (.int n) (.double x)))
  generalize (turned descending (compareDatabase (.int n) (.double x))).then (byUrn a b) =
    inDatabase at *
  generalize (turned descending (comparePython (.int n) (.double x))).then (byUrn a b) =
    inPython at *
  cases inDatabase <;> cases inPython <;> simp_all

end

theorem compareRows_congr {spec : SortSpec} {a b : Match}
    (alike : ∀ key ∈ spec, Alike (key.expr a) (key.expr b)) :
    compareRows compareDatabase spec.directions (spec.row a).values (spec.row b).values =
      compareRows comparePython spec.directions (spec.row a).values (spec.row b).values := by
  show compareRows compareDatabase (spec.map _) (spec.map _) (spec.map _) =
    compareRows comparePython (spec.map _) (spec.map _) (spec.map _)
  induction spec with
  | nil => rfl
  | cons key spec ih =>
    rw [map_cons, map_cons, map_cons, compareRows_cons, compareRows_cons, alike key mem_cons_self,
      ih fun other mem => alike other (mem_cons_of_mem key mem)]

theorem agrees_of_compareRows {spec : SortSpec} {listed : List Match}
    (agree : ∀ a ∈ listed, ∀ b ∈ listed,
      compareRows compareDatabase spec.directions (spec.row a).values (spec.row b).values =
        compareRows comparePython spec.directions (spec.row a).values (spec.row b).values) :
    spec.Agrees listed := by
  intro a memA b memB
  rw [SortSpec.DatabaseLe, SortSpec.PythonLe, agree a memA b memB]

theorem urnKey_mem_buildSortSpec (functions : TextFunctions) (nameKey : Option String)
    (options : SortOptions) : urnKey ∈ buildSortSpec functions nameKey options := by
  unfold buildSortSpec
  split
  · simp
  · split
    · simp
    · simp
    · split <;> simp
    · simp
    · simp

theorem alike_buildSortSpec {functions : TextFunctions} {nameKey : Option String}
    {options : SortOptions} (other : options.sortProperty.filter (· ≠ "") = none)
    {key : SortKey} (mem : key ∈ buildSortSpec functions nameKey options) (a b : Match) :
    Alike (key.expr a) (key.expr b) := by
  unfold buildSortSpec at mem
  rw [other] at mem
  have urn : Alike (urnKey.expr a) (urnKey.expr b) := alike_text _ _
  cases sort : options.sort with
  | relevance =>
    cases scored : options.scored with
    | true =>
      simp only [sort, scored, if_true, mem_cons, not_mem_nil, or_false] at mem
      obtain rfl | rfl | rfl := mem
      · exact alike_double _ _
      · exact alike_text _ _
      · exact urn
    | false =>
      simp only [sort, scored, Bool.false_eq_true, if_false, mem_cons, not_mem_nil, or_false] at mem
      obtain rfl | rfl := mem
      · exact alike_text _ _
      · exact urn
  | displayName =>
    simp only [sort, mem_cons, not_mem_nil, or_false] at mem
    obtain rfl | rfl := mem
    · exact alike_text _ _
    · exact urn
  | qualifiedName =>
    simp only [sort, mem_cons, not_mem_nil, or_false] at mem
    obtain rfl | rfl := mem
    · exact alike_text _ _
    · exact urn
  | depth =>
    simp only [sort, mem_singleton] at mem
    exact mem ▸ urn
  | matchCount =>
    simp only [sort, mem_singleton] at mem
    exact mem ▸ urn

/-- The pages of an order list every match once, whatever the units, the page size and the sessions
that are still there, if and only if no integer and float of a sorted property are put in one
order as doubles and in the other by their values. -/
theorem buildSortSpec_listsOnce_iff (functions : TextFunctions) (nameKey : Option String)
    (options : SortOptions) {listed : List Match} (distinct : (listed.map Match.urn).Nodup) :
    (buildSortSpec functions nameKey options).ListsOnce listed ↔
      ∀ key, options.sortProperty = some key → key ≠ "" →
        DoublesInOrder key options.descending listed := by
  have urn := urnKey_mem_buildSortSpec functions nameKey options
  cases found : options.sortProperty.filter (· ≠ "") with
  | none =>
    refine iff_of_true ?_ ?_
    · refine SortSpec.listsOnce_of_agrees urn distinct (agrees_of_compareRows ?_)
      exact fun a _ b _ => compareRows_congr fun key mem => alike_buildSortSpec found mem a b
    · intro key sorted some
      rw [sorted, Option.filter_some, if_pos (decide_eq_true some)] at found
      cases found
  | some key =>
    have keys : buildSortSpec functions nameKey options =
        propertyKeys functions key options.descending := by
      unfold buildSortSpec
      rw [found]
      rfl
    obtain ⟨sorted, some⟩ := Option.filter_eq_some_iff.mp found
    rw [keys] at urn ⊢
    constructor
    · intro lists other sorted' _
      obtain rfl := Option.some.inj (sorted.symm.trans sorted')
      exact doublesInOrder_of_listsOnce distinct lists
    · intro inOrder
      have ordered := inOrder key sorted (of_decide_eq_true some)
      refine SortSpec.listsOnce_of_agrees urn distinct (agrees_of_compareRows ?_)
      intro a memA b memB
      exact compareRows_agree (ordered a memA b memB) (ordered b memB a memA)

def plainTexts : TextFunctions where
  toLower text := text.map Char.toLower
  toStringOrNull
    | .text t => some t
    | _ => none
  toJson _ := none

def holding (urn : String) (key : String) (value : Stored) : Match where
  urn := urn.toList
  property name := if name = key then value else .missing
  score := .finite 0

def byProperty (key : String) : SortOptions where
  sort := .relevance
  descending := false
  sortProperty := some key
  scored := false

theorem buildSortSpec_listsOnce_iff_halves :
    (buildSortSpec plainTexts none (byProperty "rows")).ListsOnce
      [holding "a" "rows" (.int 3), holding "b" "rows" (.float (.finite (5 / 2))),
        holding "c" "rows" .missing] := by
  refine (buildSortSpec_listsOnce_iff plainTexts none (byProperty "rows") (by decide)).mpr ?_
  intro key sorted _
  obtain rfl := Option.some.inj sorted
  intro a memA b memB n x int float _
  simp only [mem_cons, not_mem_nil, or_false] at memA memB
  obtain rfl | rfl | rfl := memA <;> cases int
  obtain rfl | rfl | rfl := memB <;> cases float
  decide +kernel

/-- One more than the last power of two below which all integers are doubles. -/
theorem buildSortSpec_listsOnce_odd :
    ¬ (buildSortSpec plainTexts none (byProperty "rows")).ListsOnce
      [holding "a" "rows" (.int (2 ^ 53 + 1)), holding "b" "rows" (.float (.finite (2 ^ 53)))] := by
  intro lists
  have inOrder := doublesInOrder_of_listsOnce (by decide) lists _ mem_cons_self _
    (mem_cons_of_mem _ mem_cons_self) _ _ rfl rfl
  revert inOrder
  unfold InOrderAsDoubles
  decide +kernel

/-- The second of the two is on no page, when each is a unit of its own. -/
example :
    let spec := buildSortSpec plainTexts none (byProperty "rows")
    let listed := [holding "a" "rows" (.int (2 ^ 53 + 1)),
      holding "b" "rows" (.float (.finite (2 ^ 53)))]
    spec.follow 1 1 (spec.singly listed) (fun _ => true) 3 none 0 =
      some [[spec.row (holding "b" "rows" (.float (.finite (2 ^ 53))))], []] := by
  decide +kernel

end DataViz.Search
