/-
# Pages list every match once, in order

Python's comparison of rows is a total order on matches of different URNs. A session keeps the first
rows in that order of the matches after the row it starts from, and the pages cut from one session
after another list every match once, as long as the database tells of two rows what Python does.
-/

import DataViz.Search.Keys
import Mathlib.Data.Sum.Order

namespace DataViz.Search

open List

section

variable {compare : KeyValue → KeyValue → Ordering} {directions : List Bool}
  {xs ys zs : List KeyValue}

def place : KeyValue → WithBot (WithTop ℚ) ⊕ₗ Text
  | .text t => Sum.inrₗ t
  | x => Sum.inlₗ x.number

theorem comparePython_eq (x y : KeyValue) : comparePython x y = cmp (place x) (place y) := by
  unfold comparePython cmp cmpUsing
  cases x <;> cases y <;> simp [place]

variable {x y : KeyValue}

theorem comparePython_lt : comparePython x y = .lt ↔ place x < place y := by
  rw [comparePython_eq, cmp_eq_lt_iff]

theorem comparePython_eq_iff : comparePython x y = .eq ↔ place x = place y := by
  rw [comparePython_eq, cmp_eq_eq_iff]

theorem comparePython_gt : comparePython x y = .gt ↔ place y < place x := by
  rw [comparePython_eq, cmp_eq_gt_iff]

/-- Of two rows one comes first, unless all their keys are alike. -/
theorem compareRows_total (directions : List Bool) (xs ys : List KeyValue) :
    compareRows comparePython directions xs ys ≠ .gt ∨
      compareRows comparePython directions ys xs ≠ .gt := by
  induction directions generalizing xs ys with
  | nil => exact .inl nofun
  | cons descending directions ih =>
    cases xs with
    | nil => exact .inl nofun
    | cons x xs =>
      cases ys with
      | nil => exact .inl nofun
      | cons y ys =>
        simp only [compareRows]
        obtain lt | eq | gt := lt_trichotomy (place x) (place y)
        · rw [comparePython_lt.mpr lt, comparePython_gt.mpr lt]
          cases descending <;> simp
        · rw [comparePython_eq_iff.mpr eq, comparePython_eq_iff.mpr eq.symm]
          exact ih xs ys
        · rw [comparePython_gt.mpr gt, comparePython_lt.mpr gt]
          cases descending <;> simp

theorem compareRows_trans {directions : List Bool} {xs ys zs : List KeyValue}
    (lengthX : xs.length = directions.length) (lengthY : ys.length = directions.length)
    (lengthZ : zs.length = directions.length)
    (first : compareRows comparePython directions xs ys ≠ .gt)
    (second : compareRows comparePython directions ys zs ≠ .gt) :
    compareRows comparePython directions xs zs ≠ .gt := by
  induction directions generalizing xs ys zs with
  | nil => exact nofun
  | cons descending directions ih =>
    obtain ⟨x, xs, rfl⟩ := exists_cons_of_length_eq_add_one lengthX
    obtain ⟨y, ys, rfl⟩ := exists_cons_of_length_eq_add_one lengthY
    obtain ⟨z, zs, rfl⟩ := exists_cons_of_length_eq_add_one lengthZ
    simp only [length_cons, Nat.add_right_cancel_iff] at lengthX lengthY lengthZ
    simp only [compareRows] at first second ⊢
    obtain lt | eq | gt := lt_trichotomy (place x) (place y)
    · rw [comparePython_lt.mpr lt] at first
      obtain lt' | eq' | gt' := lt_trichotomy (place y) (place z)
      · rw [comparePython_lt.mpr (lt.trans lt')]
        exact first
      · rw [comparePython_lt.mpr (lt.trans_eq eq')]
        exact first
      · rw [comparePython_gt.mpr gt'] at second
        cases descending <;> simp_all
    · rw [comparePython_eq_iff.mpr eq] at first
      obtain lt' | eq' | gt' := lt_trichotomy (place y) (place z)
      · rw [comparePython_lt.mpr lt'] at second
        rw [comparePython_lt.mpr (eq.trans_lt lt')]
        exact second
      · rw [comparePython_eq_iff.mpr eq'] at second
        rw [comparePython_eq_iff.mpr (eq.trans eq')]
        exact ih lengthX lengthY lengthZ first second
      · rw [comparePython_gt.mpr gt'] at second
        rw [comparePython_gt.mpr (gt'.trans_eq eq.symm)]
        exact second
    · rw [comparePython_gt.mpr gt] at first
      obtain lt' | eq' | gt' := lt_trichotomy (place y) (place z)
      · rw [comparePython_lt.mpr lt'] at second
        cases descending <;> simp_all
      · rw [comparePython_gt.mpr (eq'.symm.trans_lt gt)]
        exact first
      · rw [comparePython_gt.mpr (gt'.trans gt)]
        exact first

theorem forall₂_of_compareRows {directions : List Bool} {xs ys : List KeyValue}
    (lengthX : xs.length = directions.length) (lengthY : ys.length = directions.length)
    (first : compareRows comparePython directions xs ys ≠ .gt)
    (second : compareRows comparePython directions ys xs ≠ .gt) :
    List.Forall₂ (fun x y => place x = place y) xs ys := by
  induction directions generalizing xs ys with
  | nil =>
    obtain rfl := eq_nil_of_length_eq_zero lengthX
    obtain rfl := eq_nil_of_length_eq_zero lengthY
    exact .nil
  | cons descending directions ih =>
    obtain ⟨x, xs, rfl⟩ := exists_cons_of_length_eq_add_one lengthX
    obtain ⟨y, ys, rfl⟩ := exists_cons_of_length_eq_add_one lengthY
    simp only [length_cons, Nat.add_right_cancel_iff] at lengthX lengthY
    simp only [compareRows] at first second
    obtain lt | eq | gt := lt_trichotomy (place x) (place y)
    · rw [comparePython_lt.mpr lt] at first
      rw [comparePython_gt.mpr lt] at second
      cases descending <;> simp_all
    · rw [comparePython_eq_iff.mpr eq] at first
      rw [comparePython_eq_iff.mpr eq.symm] at second
      exact .cons eq (ih lengthX lengthY first second)
    · rw [comparePython_gt.mpr gt] at first
      rw [comparePython_lt.mpr gt] at second
      cases descending <;> simp_all

end

namespace SortSpec

variable {spec : SortSpec}

instance : Std.Total spec.PythonLe where
  total x y := compareRows_total spec.directions x.values y.values

theorem Row.length_directions (x : spec.Row) : x.values.length = spec.directions.length := by
  rw [x.length_eq, directions, length_map]

instance : IsTrans spec.Row spec.PythonLe where
  trans x y z := compareRows_trans x.length_directions y.length_directions z.length_directions

theorem afterRow_cons (descending : Bool) (directions : List Bool) (k a : KeyValue)
    (ks as : List KeyValue) : afterRow (descending :: directions) (k :: ks) (a :: as) =
      (afterKey descending k a || (compareDatabase k a = .eq && afterRow directions ks as)) := by
  cases directions <;> cases ks <;> cases as <;> simp [afterRow]

/-- The condition of a later page is the order of the rows, by the database's comparison. -/
theorem afterRow_iff {directions : List Bool} {ks as : List KeyValue} :
    afterRow directions ks as = true ↔ compareRows compareDatabase directions ks as = .gt := by
  induction directions generalizing ks as with
  | nil => simp [afterRow, compareRows]
  | cons descending directions ih =>
    cases ks with
    | nil => cases directions <;> simp [afterRow, compareRows]
    | cons k ks =>
      cases as with
      | nil => cases directions <;> cases ks <;> simp [afterRow, compareRows]
      | cons a as =>
        rw [afterRow_cons, Bool.or_eq_true, Bool.and_eq_true, ih, afterKey, compareRows]
        cases compareDatabase k a <;> cases descending <;> simp

theorem isAfter_iff {row a : spec.Row} :
    spec.isAfter (some a) row = true ↔ ¬ spec.DatabaseLe row a := by
  rw [isAfter, Option.all_some, afterRow_iff, DatabaseLe, not_not]

section

variable {listed : List Match} {a b : Match}

theorem urn_eq_of_le (urn : urnKey ∈ spec) (first : spec.PythonLe (spec.row a) (spec.row b))
    (second : spec.PythonLe (spec.row b) (spec.row a)) : a.urn = b.urn := by
  have alike := forall₂_of_compareRows (spec.row a).length_directions
    (spec.row b).length_directions first second
  rw [row, row, forall₂_map_left_iff, forall₂_map_right_iff, forall₂_same] at alike
  have same : Sum.inrₗ a.urn = Sum.inrₗ b.urn := alike urnKey urn
  exact Sum.inr_injective (toLex.injective same)

theorem row_injOn (urn : urnKey ∈ spec) (distinct : (listed.map Match.urn).Nodup)
    (memA : a ∈ listed) (memB : b ∈ listed) (same : spec.row a = spec.row b) : a = b := by
  have refl : spec.PythonLe (spec.row b) (spec.row b) := (Std.Total.total _ _).elim id id
  exact inj_on_of_nodup_map distinct memA memB (urn_eq_of_le urn (same ▸ refl) (same ▸ refl))

theorem nodup_rows (urn : urnKey ∈ spec) (distinct : (listed.map Match.urn).Nodup) :
    (listed.map spec.row).Nodup := by
  refine (nodup_map_iff_inj_on distinct.of_map).mpr ?_
  exact fun a memA b memB => row_injOn urn distinct memA memB

theorem tellsApart_rows (urn : urnKey ∈ spec) (distinct : (listed.map Match.urn).Nodup) :
    TellsApart spec.PythonLe (listed.map spec.row) := by
  intro x memX y memY first second
  obtain ⟨a, memA, rfl⟩ := mem_map.mp memX
  obtain ⟨b, memB, rfl⟩ := mem_map.mp memY
  rw [inj_on_of_nodup_map distinct memA memB (urn_eq_of_le urn first second)]

/-- A unit's rows are its first ones in Python's order. -/
def Ranked (spec : SortSpec) (k : ℕ) (after : Option spec.Row) (unit : List Match) : Prop :=
  spec.unitRows k after unit =
    firstRows spec.PythonLe k ((unit.map spec.row).filter (spec.isAfter after))

variable {after : Option spec.Row}

theorem foldl_merge {k : ℕ} {units : List (List Match)}
    (ranked : ∀ unit ∈ units, spec.Ranked k after unit) (done : List spec.Row)
    (apart : TellsApart spec.PythonLe
      (done ++ (units.flatten.map spec.row).filter (spec.isAfter after))) :
    units.foldl (fun rows unit => spec.merge k rows (spec.unitRows k after unit))
        (firstRows spec.PythonLe k done) =
      firstRows spec.PythonLe k
        (done ++ (units.flatten.map spec.row).filter (spec.isAfter after)) := by
  induction units generalizing done with
  | nil => simp
  | cons unit units ih =>
    have here := ranked unit mem_cons_self
    have later := fun other mem => ranked other (mem_cons_of_mem unit mem)
    rw [flatten_cons, map_append, filter_append, ← append_assoc] at apart ⊢
    rw [foldl_cons, merge, here, firstRows_append (apart.mono (subset_append_left _ _)),
      ih later _ apart]

theorem sessionRows_eq {k : ℕ} {units : List (List Match)} (urn : urnKey ∈ spec)
    (distinct : (listed.map Match.urn).Nodup) (perm : units.flatten.Perm listed)
    (ranked : ∀ unit ∈ units, spec.Ranked k after unit) : spec.sessionRows k after units =
      firstRows spec.PythonLe k ((listed.map spec.row).filter (spec.isAfter after)) := by
  have distinct' : (units.flatten.map Match.urn).Nodup :=
    (perm.map Match.urn).nodup_iff.mpr distinct
  have apart : TellsApart spec.PythonLe
      ((units.flatten.map spec.row).filter (spec.isAfter after)) :=
    (tellsApart_rows urn distinct').mono filter_sublist.subset
  have merged := foldl_merge ranked [] apart
  rw [firstRows, insertionSort_nil, take_nil] at merged
  rw [sessionRows, merged]
  exact firstRows_of_perm apart ((perm.map spec.row).filter _)

def ordered (spec : SortSpec) (listed : List Match) : List spec.Row :=
  (listed.map spec.row).insertionSort spec.PythonLe

def Agrees (spec : SortSpec) (listed : List Match) : Prop :=
  ∀ a ∈ listed, ∀ b ∈ listed, spec.DatabaseLe (spec.row a) (spec.row b) ↔
    spec.PythonLe (spec.row a) (spec.row b)

/-- What is left in order after a row is what the database counts after it. -/
theorem filter_isAfter (urn : urnKey ∈ spec) (distinct : (listed.map Match.urn).Nodup)
    (agrees : spec.Agrees listed) {init rest : List spec.Row} {last : spec.Row}
    (perm : (init ++ last :: rest).Perm (listed.map spec.row))
    (sorted : (init ++ last :: rest).Pairwise spec.PythonLe) :
    (init ++ last :: rest).filter (spec.isAfter (some last)) = rest := by
  have nodup := perm.nodup_iff.mpr (nodup_rows urn distinct)
  have memLast : last ∈ init ++ last :: rest := mem_append_right init mem_cons_self
  have tell {x : spec.Row} (mem : x ∈ init ++ last :: rest) :
      spec.isAfter (some last) x = true ↔ ¬ spec.PythonLe x last := by
    obtain ⟨a, memA, rfl⟩ := mem_map.mp (perm.mem_iff.mp mem)
    obtain ⟨b, memB, same⟩ := mem_map.mp (perm.mem_iff.mp memLast)
    rw [isAfter_iff, ← same, agrees a memA b memB]
  obtain ⟨-, sortedLast, before⟩ := pairwise_append.mp sorted
  have first : init.filter (spec.isAfter (some last)) = [] := by
    refine filter_eq_nil_iff.mpr ?_
    intro x mem
    rw [tell (mem_append_left _ mem), not_not]
    exact before x mem last mem_cons_self
  have here : ¬ spec.isAfter (some last) last = true := by
    rw [tell memLast, not_not]
    exact (Std.Total.total last last).elim id id
  have later : rest.filter (spec.isAfter (some last)) = rest := by
    refine filter_eq_self.mpr ?_
    intro x mem
    have memX : x ∈ init ++ last :: rest :=
      mem_append_right init (mem_cons_of_mem last mem)
    rw [tell memX]
    intro le
    have same := tellsApart_rows urn distinct x (perm.mem_iff.mp memX) last
      (perm.mem_iff.mp memLast) le (rel_of_pairwise_cons sortedLast mem)
    exact (nodup_cons.mp (nodup_append.mp nodup).2.1).1 (same ▸ mem)
  rw [filter_append, first, nil_append, filter_cons_of_neg here, later]

/-- A session that starts after the rows listed so far counts the rest. -/
theorem insertionSort_isAfter (urn : urnKey ∈ spec) (distinct : (listed.map Match.urn).Nodup)
    (agrees : spec.Agrees listed) {done rest : List spec.Row}
    (split : spec.ordered listed = done ++ rest) :
    ((listed.map spec.row).filter (spec.isAfter done.getLast?)).insertionSort spec.PythonLe =
      rest := by
  have perm : (done ++ rest).Perm (listed.map spec.row) :=
    split ▸ perm_insertionSort spec.PythonLe (listed.map spec.row)
  have sorted : (done ++ rest).Pairwise spec.PythonLe :=
    split ▸ pairwise_insertionSort spec.PythonLe (listed.map spec.row)
  have kept : (done ++ rest).filter (spec.isAfter done.getLast?) = rest := by
    obtain rfl | ⟨init, last, rfl⟩ := eq_nil_or_concat' done
    · exact filter_eq_self.mpr fun _ _ => rfl
    · rw [append_assoc] at perm sorted ⊢
      rw [getLast?_concat]
      exact filter_isAfter urn distinct agrees perm sorted
  have perms : ((listed.map spec.row).filter (spec.isAfter done.getLast?)).Perm rest := by
    rw [← kept]
    exact perm.symm.filter (spec.isAfter done.getLast?)
  rw [insertionSort_eq_of_perm ((tellsApart_rows urn distinct).mono filter_sublist.subset) perms]
  exact (pairwise_append.mp sorted).2.1.insertionSort_eq

theorem ranked_of_agrees (agrees : spec.Agrees listed) {unit : List Match} (sub : unit ⊆ listed)
    (k : ℕ) (after : Option spec.Row) : spec.Ranked k after unit := by
  have same := map_insertionSort spec.DatabaseLe spec.PythonLe id
    ((unit.map spec.row).filter (spec.isAfter after)) fun x memX y memY => by
      obtain ⟨a, memA, rfl⟩ := mem_map.mp (mem_of_mem_filter memX)
      obtain ⟨b, memB, rfl⟩ := mem_map.mp (mem_of_mem_filter memY)
      exact agrees a (sub memA) b (sub memB)
  rw [map_id, map_id] at same
  rw [Ranked, unitRows, firstRows, firstRows, same]

theorem take_append_drop_length {α : Type} (n : ℕ) (xs : List α) :
    xs.take n ++ xs.drop (xs.take n).length = xs := by
  rw [length_take]
  obtain le | le := Nat.le_total n xs.length
  · rw [Nat.min_eq_left le, take_append_drop]
  · rw [Nat.min_eq_right le, take_of_length_le le, drop_length, append_nil]

/-- A page is cut from what is left, and either nothing is left after it or there is a cursor. -/
theorem answer_cases {pageSize k pos : ℕ} {total : Option ℕ} {rest : List spec.Row}
    (size : 0 < pageSize) (fits : pos + pageSize ≤ k) (known : ∀ t ∈ total, t = rest.length) :
    (spec.answer pageSize k total (rest.take k) pos = ((rest.drop pos).take pageSize, none) ∧
      rest.length ≤ pos + pageSize) ∨
      ∃ last, ((rest.drop pos).take pageSize).getLast? = some last ∧
        spec.answer pageSize k total (rest.take k) pos = ((rest.drop pos).take pageSize,
          some ⟨decide (pos + ((rest.drop pos).take pageSize).length < min k rest.length),
            pos + ((rest.drop pos).take pageSize).length, last⟩) := by
  have page : ((rest.take k).drop pos).take pageSize = (rest.drop pos).take pageSize := by
    rw [drop_take, take_take, Nat.min_eq_left (by omega)]
  have length : ((rest.drop pos).take pageSize).length = min pageSize (rest.length - pos) := by
    rw [length_take, length_drop]
  have total' : (rest.take k).length = min k rest.length := length_take
  rw [answer, page]
  cases last : ((rest.drop pos).take pageSize).getLast? with
  | none =>
    rw [getLast?_eq_none_iff] at last
    rw [last, length_nil] at length
    exact .inl ⟨by rw [last], by omega⟩
  | some row =>
    dsimp only
    split
    · exact .inr ⟨row, rfl, by rw [total']⟩
    · rename_i ends
      refine .inl ⟨rfl, ?_⟩
      by_contra more
      refine ends ⟨by omega, ?_⟩
      intro t mem
      rw [known t mem]
      omega

theorem follow_eq (urn : urnKey ∈ spec) (distinct : (listed.map Match.urn).Nodup)
    (agrees : spec.Agrees listed) {pageSize pages : ℕ} (size : 0 < pageSize) (kept : 0 < pages)
    {plans : spec.Plans} (split : ∀ after, (plans after).flatten.Perm listed) (keeps : ℕ → Bool)
    {requests pos : ℕ} {done rest : List spec.Row} (whole : spec.ordered listed = done ++ rest)
    (start : pageSize ∣ pos) (here : pos < pageSize * pages)
    (enough : (rest.drop pos).length < requests) :
    ∃ read, spec.follow pageSize (pageSize * pages) plans keeps requests done.getLast? pos =
      some read ∧ read.flatten = rest.drop pos := by
  induction requests generalizing done rest pos with
  | zero => exact absurd enough (Nat.not_lt_zero _)
  | succ requests ih =>
    have ranked : ∀ unit ∈ plans done.getLast?,
        spec.Ranked (pageSize * pages) done.getLast? unit := by
      intro unit mem
      refine ranked_of_agrees agrees ?_ _ _
      exact fun m memM => (split _).subset (mem_flatten_of_mem mem memM)
    have rows : spec.sessionRows (pageSize * pages) done.getLast? (plans done.getLast?) =
        rest.take (pageSize * pages) := by
      rw [sessionRows_eq urn distinct (split _) ranked, firstRows,
        insertionSort_isAfter urn distinct agrees whole]
    have fits : pos + pageSize ≤ pageSize * pages := by
      obtain ⟨number, rfl⟩ := start
      exact Nat.mul_le_mul_left pageSize (Nat.lt_of_mul_lt_mul_left here)
    have known : ∀ t ∈ (if done.getLast?.isNone then
        some ((plans done.getLast?).map List.length).sum else none), t = rest.length := by
      intro t mem
      split at mem
      · rename_i first
        rw [Option.isNone_iff_eq_none, getLast?_eq_none_iff] at first
        rw [first, nil_append] at whole
        rw [← Option.mem_some_iff.mp mem, ← length_flatten, (split _).length_eq, ← whole,
          ordered, length_insertionSort, length_map]
      · cases mem
    rw [follow, rows]
    obtain ⟨answered, none⟩ | ⟨last, getLast, answered⟩ :=
      answer_cases (k := pageSize * pages) size fits known
    · rw [answered]
      refine ⟨_, rfl, ?_⟩
      rw [flatten_singleton]
      exact take_of_length_le (by rw [length_drop]; omega)
    · rw [answered]
      have length : ((rest.drop pos).take pageSize).length = min pageSize (rest.length - pos) := by
        rw [length_take, length_drop]
      have cut := take_append_drop_length pageSize (rest.drop pos)
      rw [drop_drop] at cut
      generalize (rest.drop pos).take pageSize = page at *
      have nonempty : 0 < page.length := length_pos_of_mem (mem_of_getLast? getLast)
      rw [← cut, length_append] at enough
      dsimp only
      split
      · rename_i goes
        rw [Bool.and_eq_true, decide_eq_true_eq] at goes
        have full : page.length = pageSize := by omega
        obtain ⟨read, eq, flat⟩ := ih whole
          (show pageSize ∣ pos + page.length from Nat.dvd_add start (full ▸ Nat.dvd_refl _))
          (by omega) (by omega)
        rw [eq]
        exact ⟨_, rfl, by rw [flatten_cons, flat, cut]⟩
      · have next : spec.ordered listed =
            done ++ (rest.take pos ++ page) ++ rest.drop (pos + page.length) := by
          rw [whole, append_assoc, append_assoc, cut, take_append_drop]
        have lastNext : (done ++ (rest.take pos ++ page)).getLast? = some last := by
          rw [getLast?_append, getLast?_append, getLast]
          rfl
        obtain ⟨read, eq, flat⟩ := ih next (Nat.dvd_zero pageSize) (Nat.mul_pos size kept)
          (by rw [drop_zero]; omega)
        rw [lastNext] at eq
        rw [eq]
        exact ⟨_, rfl, by rw [flatten_cons, flat, drop_zero, cut]⟩

/-- Whatever the page size, the split into units and the sessions that are still there, the pages
list every match once, in one order. -/
def ListsOnce (spec : SortSpec) (listed : List Match) : Prop :=
  ∃ sorted : List Match, sorted.Perm listed ∧ (sorted.map spec.row).Pairwise spec.PythonLe ∧
    ∀ pageSize sessionRows : ℕ, 0 < pageSize → ∀ plans : spec.Plans,
      (∀ after, (plans after).flatten.Perm listed) → ∀ keeps : ℕ → Bool, ∃ requests pages,
        spec.follow pageSize (keptRows pageSize sessionRows) plans keeps requests none 0 =
          some pages ∧ pages.flatten = sorted.map spec.row

theorem listsOnce_of_agrees (urn : urnKey ∈ spec) (distinct : (listed.map Match.urn).Nodup)
    (agrees : spec.Agrees listed) : spec.ListsOnce listed := by
  have rows : (listed.insertionSort fun a b => spec.PythonLe (spec.row a) (spec.row b)).map
      spec.row = spec.ordered listed :=
    map_insertionSort (fun a b => spec.PythonLe (spec.row a) (spec.row b)) spec.PythonLe
      spec.row listed fun _ _ _ _ => Iff.rfl
  refine ⟨listed.insertionSort fun a b => spec.PythonLe (spec.row a) (spec.row b),
    perm_insertionSort _ listed, ?_, ?_⟩
  · rw [rows]
    exact pairwise_insertionSort spec.PythonLe _
  · intro pageSize sessionRows size plans split keeps
    have kept : 0 < max 1 ((sessionRows + pageSize - 1) / pageSize) :=
      Nat.lt_of_lt_of_le Nat.one_pos (Nat.le_max_left 1 _)
    obtain ⟨read, eq, flat⟩ := follow_eq urn distinct agrees size kept split keeps
      (nil_append (spec.ordered listed)).symm (Nat.dvd_zero pageSize) (Nat.mul_pos size kept)
      (Nat.lt_succ_self _)
    refine ⟨_, read, eq, ?_⟩
    rw [flat, rows, drop_zero]

theorem ranked_singleton (k : ℕ) (after : Option spec.Row) (m : Match) :
    spec.Ranked k after [m] := by
  rw [Ranked, unitRows, map_singleton, filter_singleton]
  cases spec.isAfter after (spec.row m) <;> rfl

def singly (spec : SortSpec) (listed : List Match) : spec.Plans :=
  fun _ => listed.map ([·])

theorem flatten_singly (after : Option spec.Row) : (spec.singly listed after).flatten = listed := by
  rw [singly, ← flatMap_def, flatMap_singleton']

def next (spec : SortSpec) (listed : List Match) (after : Option spec.Row) : List spec.Row :=
  firstRows spec.PythonLe 1 ((listed.map spec.row).filter (spec.isAfter after))

theorem follow_singly (urn : urnKey ∈ spec) (distinct : (listed.map Match.urn).Nodup)
    {requests : ℕ} {pages : List (List spec.Row)}
    (read : spec.follow 1 1 (spec.singly listed) (fun _ => false) requests after 0 = some pages) :
    pages.flatten = [] ∧ spec.next listed after = [] ∨
      ∃ r rest, pages.flatten = r :: rest ∧ spec.next listed after = [r] ∧
        (rest = [] ∧ listed.length = 1 ∨ ∃ requests' pages',
          spec.follow 1 1 (spec.singly listed) (fun _ => false) requests' (some r) 0 =
            some pages' ∧ pages'.flatten = rest) := by
  cases requests with
  | zero => cases read
  | succ requests =>
    have rows : spec.sessionRows 1 after (spec.singly listed after) = spec.next listed after := by
      refine sessionRows_eq urn distinct (flatten_singly after ▸ Perm.refl _) ?_
      intro unit mem
      obtain ⟨m, -, rfl⟩ := mem_map.mp mem
      exact ranked_singleton 1 after m
    have short : (spec.next listed after).length ≤ 1 := by
      rw [next, length_firstRows]
      exact Nat.min_le_left 1 _
    have count : ((spec.singly listed after).map List.length).sum = listed.length := by
      rw [← length_flatten, flatten_singly]
    rw [follow, rows, count] at read
    match found : spec.next listed after, short with
    | [], _ =>
      rw [found] at read
      obtain rfl := Option.some.inj read
      exact .inl ⟨rfl, rfl⟩
    | [r], _ =>
      rw [found] at read
      have memR : r ∈ spec.next listed after := found ▸ mem_cons_self
      have nonempty : 0 < listed.length := by
        have pos := length_pos_of_mem (mem_of_mem_filter (firstRows_subset memR))
        rwa [length_map] at pos
      by_cases goes : ∀ t ∈ (if after.isNone then some listed.length else none), 1 < t
      · have answered : spec.answer 1 1 (if after.isNone then some listed.length else none)
            [r] 0 = ([r], some ⟨false, 1, r⟩) := if_pos ⟨.inr le_rfl, goes⟩
        rw [answered] at read
        obtain ⟨pages', later, rfl⟩ := Option.map_eq_some_iff.mp read
        exact .inr ⟨r, pages'.flatten, rfl, rfl, .inr ⟨requests, pages', later, rfl⟩⟩
      · have answered : spec.answer 1 1 (if after.isNone then some listed.length else none)
            [r] 0 = ([r], none) := if_neg fun both => goes both.2
        rw [answered] at read
        obtain rfl := Option.some.inj read
        refine .inr ⟨r, [], rfl, rfl, .inl ⟨rfl, ?_⟩⟩
        by_contra several
        refine goes fun t mem => ?_
        split at mem
        · rw [← Option.mem_some_iff.mp mem]
          omega
        · cases mem

/-- What comes after a row by the database's comparison is listed after it. -/
theorem mem_of_follow_singly (urn : urnKey ∈ spec) (distinct : (listed.map Match.urn).Nodup)
    {requests : ℕ} {pages : List (List spec.Row)}
    (read : spec.follow 1 1 (spec.singly listed) (fun _ => false) requests after 0 = some pages)
    {done later : List spec.Row} {r : spec.Row} (split : pages.flatten = done ++ r :: later) :
    later = [] ∧ listed.length = 1 ∨ spec.next listed (some r) = later.take 1 := by
  induction done generalizing requests after pages with
  | nil =>
    obtain ⟨none, -⟩ | ⟨s, rest, flat, -, goes⟩ := follow_singly urn distinct read
    · rw [none] at split
      cases split
    · rw [flat] at split
      obtain ⟨rfl, rfl⟩ := cons_eq_cons.mp split
      obtain last | ⟨requests', pages', read', rfl⟩ := goes
      · exact .inl last
      · obtain ⟨flat', none⟩ | ⟨t, rest, flat', found, -⟩ := follow_singly urn distinct read'
        · exact .inr (by rw [flat', none, take_nil])
        · exact .inr (by rw [flat', found, take_succ_cons, take_zero])
  | cons x done ih =>
    obtain ⟨none, -⟩ | ⟨s, rest, flat, -, goes⟩ := follow_singly urn distinct read
    · rw [none] at split
      cases split
    · rw [flat] at split
      obtain ⟨rfl, rfl⟩ := cons_eq_cons.mp split
      obtain ⟨none, -⟩ | ⟨requests', pages', read', flat'⟩ := goes
      · cases done <;> cases none
      · exact ih read' flat'

theorem exists_next {x : spec.Row} (found : x ∈ (listed.map spec.row).filter (spec.isAfter after)) :
    ∃ s, spec.next listed after = [s] ∧ spec.PythonLe s x := by
  have split : ∃ rest, List.Perm ((listed.map spec.row).filter (spec.isAfter after))
      (spec.next listed after ++ rest) ∧
      ∀ s ∈ spec.next listed after, ∀ y ∈ rest, spec.PythonLe s y := exists_firstRows
  have length : (spec.next listed after).length = min 1 _ := length_firstRows
  have nonempty := length_pos_of_mem found
  obtain ⟨rest, perm, before⟩ := split
  obtain ⟨s, one⟩ := List.length_eq_one_iff.mp (show (spec.next listed after).length = 1 by omega)
  rw [one] at perm before
  refine ⟨s, one, ?_⟩
  obtain rfl | there := mem_cons.mp (perm.mem_iff.mp found)
  · exact (Std.Total.total x x).elim id id
  · exact before s mem_cons_self x there

theorem ListsOnce.databaseLe (urn : urnKey ∈ spec) (distinct : (listed.map Match.urn).Nodup)
    (refl : ∀ x : spec.Row, spec.DatabaseLe x x) (lists : spec.ListsOnce listed) (memA : a ∈ listed)
    (memB : b ∈ listed) (le : spec.PythonLe (spec.row a) (spec.row b)) :
    spec.DatabaseLe (spec.row a) (spec.row b) := by
  obtain ⟨sorted, perm, order, lists⟩ := lists
  obtain ⟨requests, pages, read, flat⟩ := lists 1 1 Nat.one_pos (spec.singly listed)
    (fun after => flatten_singly after ▸ Perm.refl _) fun _ => false
  have rows : (sorted.map spec.row).Perm (listed.map spec.row) := perm.map spec.row
  rw [← flat] at order rows
  obtain ⟨done, later, split⟩ := append_of_mem (rows.mem_iff.mpr (mem_map_of_mem memB))
  rw [split] at order
  by_contra after
  have alike (same : spec.row a = spec.row b) : False := after (same ▸ refl _)
  obtain ⟨-, one⟩ | next := mem_of_follow_singly urn distinct read split
  · obtain ⟨m, rfl⟩ := List.length_eq_one_iff.mp one
    exact alike (by rw [mem_singleton.mp memA, mem_singleton.mp memB])
  · -- The next row after `b` is no later than whatever the database has after `b`, such as `a`.
    have found : spec.row a ∈ (listed.map spec.row).filter (spec.isAfter (some (spec.row b))) :=
      mem_filter.mpr ⟨mem_map_of_mem memA, isAfter_iff.mpr after⟩
    obtain ⟨s, here, first⟩ := exists_next found
    rw [next] at here
    have memS : s ∈ later := mem_of_mem_take (here ▸ mem_cons_self)
    have second : spec.PythonLe (spec.row b) s :=
      rel_of_pairwise_cons (pairwise_append.mp order).2.1 memS
    exact alike (tellsApart_rows urn distinct _ (mem_map_of_mem memA) _
      (mem_map_of_mem memB) le (IsTrans.trans _ s _ second first))

end

end SortSpec

end DataViz.Search
