/-
# Counts, views and pages of a change list agree

Every count of the builder is a count of the entries it was given, so a view that a filter by kind,
statuses and type keeps is as long as the counts for it add up to. A change without a type is
counted as one, but no filter asks for it alone; an index that is only counted serves empty views.
-/

import DataViz.Versioning.ChangeIndex

namespace DataViz.Versioning.ChangeList

open List Option

theorem Counts.of_bump (counts : Counts) (status s : Status) :
    (counts.bump status).of s = counts.of s + if status = s then 1 else 0 := by
  cases status <;> cases s <;> rfl

theorem foldl_count_of (counter : Builder → Counts) (counted : ChangeEntry → Bool)
    (step : ∀ b e, counter (b.count e) = if counted e then (counter b).bump e.status else counter b)
    (es : List ChangeEntry) (b : Builder) (s : Status) :
    (counter (es.foldl Builder.count b)).of s =
      (counter b).of s + es.countP fun e => counted e && e.status = s := by
  induction es generalizing b with
  | nil => rfl
  | cons e rest ih =>
    rw [foldl_cons, ih, step, countP_cons]
    cases counted e with
    | false =>
      rw [if_neg Bool.false_ne_true, Bool.false_and, if_neg Bool.false_ne_true, Nat.add_zero]
    | true =>
      rw [if_pos rfl, Counts.of_bump, Bool.true_and]
      simp only [decide_eq_true_eq]
      omega

theorem foldl_count_entries (es : List ChangeEntry) (b : Builder) :
    (es.foldl Builder.count b).keep = b.keep ∧
      (es.foldl Builder.count b).entries = if b.keep then b.entries ++ es else b.entries := by
  induction es generalizing b with
  | nil =>
    refine ⟨rfl, ?_⟩
    rw [append_nil, ite_self]
    rfl
  | cons e rest ih =>
    rw [foldl_cons]
    obtain ⟨kept, entries⟩ := ih (b.count e)
    refine ⟨kept, ?_⟩
    rw [entries]
    change (if b.keep then (if b.keep then b.entries ++ [e] else b.entries) ++ rest
      else if b.keep then b.entries ++ [e] else b.entries) = _
    cases b.keep
    · rfl
    · exact append_assoc _ _ _

theorem foldl_count_impact (es : List ChangeEntry) (b : Builder) (t : String) :
    ((es.foldl Builder.count b).impact.get? t).getD 0 = (b.impact.get? t).getD 0 +
      es.countP fun e => e.kind = .node && impactType e.type = t := by
  induction es generalizing b with
  | nil => rfl
  | cons e rest ih =>
    have step : ((b.count e).impact.get? t).getD 0 = (b.impact.get? t).getD 0 +
        if e.kind = .node ∧ impactType e.type = t then 1 else 0 := by
      rw [Builder.count]
      dsimp only
      by_cases node : e.kind = .node
      · rw [if_pos node, Dict.get?_set]
        by_cases same : impactType e.type = t
        · rw [if_pos same, if_pos ⟨node, same⟩, same, getD_some]
        · rw [if_neg same, if_neg fun both => same both.2, Nat.add_zero]
      · rw [if_neg node, if_neg fun both => node both.1, Nat.add_zero]
    rw [foldl_cons, ih, countP_cons]
    simp only [Bool.and_eq_true, decide_eq_true_eq]
    omega

theorem count_byType (key : Bucket × Option String) (b : Builder) (e : ChangeEntry) :
    ((b.count e).byType.get? key).getD {} =
      if decide ((e.bucket, e.type) = key) then ((b.byType.get? key).getD {}).bump e.status
      else (b.byType.get? key).getD {} := by
  rw [Builder.count]
  rw [Dict.get?_set]
  by_cases same : (e.bucket, e.type) = key
  · rw [if_pos same, if_pos (decide_eq_true same), getD_some, same]
  · rw [if_neg same, if_neg (by simpa using same)]

theorem nodup_keys_byType (es : List ChangeEntry) (b : Builder) (distinct : b.byType.keys.Nodup) :
    (es.foldl Builder.count b).byType.keys.Nodup := by
  induction es generalizing b with
  | nil => exact distinct
  | cons e rest ih => exact ih _ (Dict.nodup_keys_set distinct _ _)

section

variable (upper casefold : String → String) (containment : List String) (pairs : List Pair)

def changesOf : List ChangeEntry :=
  pairs.filterMap (changeOf upper containment)

theorem entries_perm : (indexOf upper casefold containment true pairs).entries.Perm
      (changesOf upper containment pairs) := by
  obtain ⟨kept, entries⟩ := foldl_count_entries (changesOf upper containment pairs) { keep := true }
  rw [indexOf, Builder.finish, Builder.addPairs]
  rw [← changesOf, kept, entries]
  exact mergeSort_perm _ _

def ChangeIndex.reported (index : ChangeIndex) (kind : Option Bucket) (type : Option String)
    (s : Status) : ℕ :=
  let row (b : Bucket) (t : String) : ℕ := ((index.byType.get? (b, some t)).getD {}).of s
  match kind, type with
  | none, none => index.counts.of s
  | some .node, none => index.entityCounts.of s
  | some .edge, none => index.edgeCounts.of s
  | some .structural, none => index.structureCounts.of s
  | some b, some t => row b t
  | none, some t => row .node t + row .edge t + row .structural t

variable {upper casefold containment pairs} {keep : Bool}

theorem get?_byType (key : Bucket × Option String) :
    (indexOf upper casefold containment keep pairs).byType.get? key =
      (Builder.addPairs upper containment keep pairs).byType.get? key := by
  have distinct : (Builder.addPairs upper containment keep pairs).byType.keys.Nodup :=
    nodup_keys_byType _ _ nodup_nil
  have same := mergeSort_perm (Builder.addPairs upper containment keep pairs).byType
    fun row row' => rowKey casefold row ≤ rowKey casefold row'
  ext counts
  constructor
  · intro found
    exact Dict.get?_of_mem distinct (same.mem_iff.mp (Dict.mem_of_get? found))
  · intro found
    exact Dict.get?_of_mem ((same.map Prod.fst).nodup_iff.mpr distinct)
      (same.mem_iff.mpr (Dict.mem_of_get? found))

theorem byType_eq (b : Bucket) (t : Option String) (s : Status) :
    (((indexOf upper casefold containment keep pairs).byType.get? (b, t)).getD {}).of s =
      (changesOf upper containment pairs).countP fun e =>
        (e.bucket = b && e.type = t) && e.status = s := by
  rw [get?_byType]
  have counted := foldl_count_of (fun b' => (b'.byType.get? (b, t)).getD {})
    (fun e => decide ((e.bucket, e.type) = (b, t))) (count_byType (b, t))
    (changesOf upper containment pairs) { keep } s
  refine counted.trans ?_
  rw [show ((({ keep } : Builder).byType.get? (b, t)).getD {}).of s = 0 by cases s <;> rfl,
    Nat.zero_add]
  congr 1
  funext e
  simp only [Prod.mk.injEq, Bool.decide_and]

theorem impact_eq (t : String) :
    ((indexOf upper casefold containment keep pairs).impact.get? t).getD 0 =
      (changesOf upper containment pairs).countP fun e =>
        e.kind = .node && impactType e.type = t := by
  have counted := foldl_count_impact (changesOf upper containment pairs) { keep } t
  exact counted.trans (Nat.zero_add _)

def ofKind (kind : Option Bucket) (type : Option String) (e : ChangeEntry) : Bool :=
  kind.all (e.bucket = ·) && type.all (e.type = some ·)

/-- The changes of a type, by their kinds. -/
theorem countP_buckets (es : List ChangeEntry) (p : ChangeEntry → Bool) :
    es.countP p = es.countP (fun e => e.bucket = .node && p e) +
      es.countP (fun e => e.bucket = .edge && p e) +
      es.countP (fun e => e.bucket = .structural && p e) := by
  induction es with
  | nil => rfl
  | cons e rest ih =>
    rw [countP_cons, countP_cons, countP_cons, countP_cons]
    cases e.bucket <;> simp <;> omega

theorem counter_eq (counter : Builder → Counts) (b : Bucket) (step : ∀ b' e, counter (b'.count e) =
      if e.bucket = b then (counter b').bump e.status else counter b')
    (fresh : counter { keep } = {}) (s : Status) :
    (counter (Builder.addPairs upper containment keep pairs)).of s =
      (changesOf upper containment pairs).countP fun e =>
        ofKind (some b) none e && e.status = s := by
  have counted := foldl_count_of counter (fun e => e.bucket = b)
    (fun b' e => by simp only [step, decide_eq_true_eq]) (changesOf upper containment pairs)
    { keep } s
  refine counted.trans ?_
  rw [fresh, show ({} : Counts).of s = 0 by cases s <;> rfl]
  simp [ofKind]

theorem reported_eq (kind : Option Bucket) (type : Option String) (s : Status) :
    (indexOf upper casefold containment keep pairs).reported kind type s =
      (changesOf upper containment pairs).countP fun e =>
        ofKind kind type e && e.status = s := by
  cases type with
  | some t =>
    have row (b : Bucket) :
        (((indexOf upper casefold containment keep pairs).byType.get? (b, some t)).getD {}).of s =
          _ := byType_eq b (some t) s
    cases kind with
    | some b =>
      have whole := row b
      cases b <;> simpa [ChangeIndex.reported, ofKind] using whole
    | none =>
      rw [countP_buckets]
      simp only [ChangeIndex.reported, row, ofKind, all_none, all_some,
        Bool.true_and, Bool.and_assoc]
  | none =>
    cases kind with
    | some b =>
      cases b
      · exact counter_eq Builder.nodes .node (fun _ _ => rfl) rfl s
      · exact counter_eq Builder.edges .edge (fun _ _ => rfl) rfl s
      · exact counter_eq Builder.structures .structural (fun _ _ => rfl) rfl s
    | none =>
      have counted := foldl_count_of Builder.counts (fun _ => true) (fun _ _ => rfl)
        (changesOf upper containment pairs) { keep } s
      refine counted.trans ?_
      rw [show ({ keep } : Builder).counts.of s = 0 by cases s <;> rfl, Nat.zero_add]
      rfl

/-- Where a list passes a test, in order. -/
theorem filterMap_filter_range {α : Type} (l : List α) (p : α → Bool) :
    ((List.range l.length).filter fun i => l[i]?.any p).filterMap (l[·]?) = l.filter p := by
  induction l using reverseRecOn with
  | nil => rfl
  | append_singleton front x ih =>
    have before (i : ℕ) (mem : i ∈ range front.length) : (front ++ [x])[i]? = front[i]? :=
      getElem?_append_left (mem_range.mp mem)
    have last : (front ++ [x])[front.length]? = some x := by simp
    rw [length_append, length_singleton, range_succ, filter_append,
      filterMap_append, filter_append, ← ih]
    congr 1
    · rw [filter_congr fun i mem => congrArg (·.any p) (before i mem)]
      exact filterMap_congr fun i mem => before i (mem_filter.mp mem).1
    · rw [filter_singleton, last, any_some, filter_singleton]
      cases p x
      · rfl
      · simp

/-- A view holds a position of each entry the filter keeps. -/
theorem length_filter_range {α : Type} (l : List α) (p : α → Bool) :
    ((List.range l.length).filter fun i => l[i]?.any p).length = l.countP p := by
  have all : ∀ i ∈ (range l.length).filter fun i => l[i]?.any p, l[i]?.isSome := by
    intro i mem
    have passes := (mem_filter.mp mem).2
    cases here : l[i]? with
    | none =>
      rw [here] at passes
      cases passes
    | some _ => rfl
  rw [countP_eq_length_filter, ← filterMap_filter_range l p, length_filterMap_eq_countP]
  exact (countP_eq_length.mpr all).symm

theorem positions_eq (index : ChangeIndex) (f : Filter) : index.positions casefold f =
    (List.range index.entries.length).filter fun i =>
      index.entries[i]?.any (f.matches casefold) := by
  rw [ChangeIndex.positions]
  split
  · next all =>
      symm
      rw [filter_eq_self]
      intro i mem
      rw [getElem?_eq_getElem (mem_range.mp mem), all]
      rfl
  · rfl

theorem filterMap_positions (index : ChangeIndex) (f : Filter) :
    (index.positions casefold f).filterMap (index.entries[·]?) =
      index.entries.filter (f.matches casefold) := by
  rw [positions_eq, filterMap_filter_range]

theorem countP_or {es : List ChangeEntry} {p q : ChangeEntry → Bool}
    (apart : ∀ e, p e = true → q e = false) :
    es.countP (fun e => p e || q e) = es.countP p + es.countP q := by
  induction es with
  | nil => rfl
  | cons e rest ih =>
    rw [countP_cons, countP_cons, countP_cons]
    cases here : p e with
    | false =>
      simp only [Bool.false_or, Bool.false_eq_true, if_false]
      omega
    | true =>
      rw [apart e here]
      simp only [Bool.or_false, Bool.false_eq_true, if_false, if_true]
      omega

theorem countP_statuses (es : List ChangeEntry) (p : ChangeEntry → Bool) {statuses : List Status}
    (distinct : statuses.Nodup) :
    es.countP (fun e => p e && e.status ∈ statuses) =
      (statuses.map fun s => es.countP fun e => p e && e.status = s).sum := by
  induction statuses with
  | nil => simp
  | cons s rest ih =>
    obtain ⟨fresh, others⟩ := nodup_cons.mp distinct
    rw [map_cons, sum_cons, ← ih others, ← countP_or]
    · congr 1
      funext e
      simp only [mem_cons, Bool.decide_or, Bool.and_or_distrib_left]
    · intro e here
      rw [Bool.and_eq_true, decide_eq_true_eq] at here
      rw [here.2, decide_eq_false fresh, Bool.and_false]

variable (casefold) in
def Query.asked (query : Query) : List Status :=
  if (query.filter casefold).statuses = [] then allStatuses else (query.filter casefold).statuses

theorem nodup_asked (query : Query) : (query.asked casefold).Nodup := by
  have all : allStatuses.Nodup := by decide
  rw [Query.asked]
  split
  · exact all
  · change (allStatuses.filter fun s => decide (s ∈ query.statuses)).Nodup
    exact all.filter _

theorem matches_eq {query : Query} (plain : (query.filter casefold).needle = none)
    (e : ChangeEntry) : (query.filter casefold).matches casefold e =
      (ofKind query.kind query.type e && e.status ∈ query.asked casefold) := by
  rw [Filter.matches, plain, all_none, Bool.and_true, Query.asked]
  by_cases none : (query.filter casefold).statuses = []
  · have all : e.status ∈ allStatuses := by
      cases e.status <;> decide
    rw [if_pos none, none, decide_eq_true all, isEmpty_nil, Bool.true_or, Bool.and_true,
      Bool.and_true]
    rfl
  · have some' : (query.filter casefold).statuses.isEmpty = false := by
      rw [Bool.eq_false_iff, ne_eq, List.isEmpty_iff]
      exact none
    rw [if_neg none, some', Bool.and_right_comm]
    rfl

/-- A view by kind, statuses and type is as long as the counts for it add up to. -/
theorem length_positions {query : Query} (plain : (query.filter casefold).needle = none) :
    ((indexOf upper casefold containment true pairs).positions casefold
        (query.filter casefold)).length =
      ((query.asked casefold).map fun s =>
        (indexOf upper casefold containment true pairs).reported query.kind query.type s).sum := by
  rw [positions_eq, length_filter_range, (entries_perm upper casefold containment pairs).countP_eq]
  rw [funext (matches_eq plain), countP_statuses _ _ (nodup_asked query)]
  simp only [reported_eq]

theorem flatMap_drop_take {α : Type} (l : List α) (limit n : ℕ) :
    ((List.range n).flatMap fun i => (l.drop (i * limit)).take limit) = l.take (n * limit) := by
  induction n with
  | zero => simp
  | succ n ih =>
    rw [range_succ, flatMap_append, ih, flatMap_singleton, Nat.succ_mul, take_add]

/-- The pages of a view are its entries, in order. -/
theorem flatMap_page (index : ChangeIndex) (f : Filter) {limit n : ℕ}
    (enough : (index.positions casefold f).length ≤ n * limit) :
    ((List.range n).flatMap fun i =>
        index.page (index.positions casefold f) (i * limit) limit) =
      index.entries.filter (f.matches casefold) := by
  have cut := flatMap_drop_take (index.positions casefold f) limit n
  rw [take_of_length_le enough] at cut
  rw [← filterMap_positions]
  conv_rhs => rw [← cut, filterMap_flatMap]
  rfl

theorem ChangeIndex.Reach.right {index : ChangeIndex} {views : Views}
    (reach : index.Reach casefold views) :
    (∀ entry ∈ views, entry.2 = index.positions casefold entry.1) ∧ views.length ≤ viewsKept := by
  induction reach with
  | empty => exact ⟨nofun, Nat.zero_le _⟩
  | hit _ served ih =>
    obtain ⟨right, few⟩ := ih
    obtain ⟨positions, here, pair⟩ := map_eq_some_iff.mp served
    obtain ⟨-, rfl⟩ := Prod.mk.inj pair
    have fewer := SizedCache.length_pop_lt here
    refine ⟨fun entry mem => ?_, ?_⟩
    · rcases mem_append.mp mem with mem | mem
      · exact right entry (mem_filter.mp mem).1
      · rw [mem_singleton] at mem
        rw [mem]
        exact right _ (Dict.mem_of_get? here)
    · rw [length_append, length_singleton]
      omega
  | keep f _ ih =>
    refine ⟨fun entry mem => ?_, ?_⟩
    · rcases Dict.eq_or_mem_of_mem_set (mem_of_mem_drop mem) with rfl | mem
      · rfl
      · exact ih.1 entry mem
    · rw [Views.keep, length_drop]
      omega

/-- The counts of an index are the sizes of its views: of those by kind, statuses and type. -/
def Agrees (casefold : String → String) (index : ChangeIndex) : Prop :=
  ∀ query : Query, (query.filter casefold).needle = none →
    (index.positions casefold (query.filter casefold)).length =
      ((query.asked casefold).map fun s => index.reported query.kind query.type s).sum

/-- An index that keeps its entries reports the sizes of the views it serves, whichever of them are
kept, and its pages are the views cut in order. The changes without a type have a row of their own,
and with no type or an empty one count as other. An index that is only counted serves no entry. A
cache of indexes holds what it says it holds. -/
theorem changeIndex_agrees (upper casefold : String → String) (containment : List String)
    (pairs : List Pair) :
    Agrees casefold (indexOf upper casefold containment true pairs) ∧ (∀ b s,
        (((indexOf upper casefold containment true pairs).byType.get? (b, none)).getD {}).of s =
          (indexOf upper casefold containment true pairs).entries.countP fun e =>
            (e.bucket = b && e.type = none) && e.status = s) ∧
      (∀ t, ((indexOf upper casefold containment true pairs).impact.get? t).getD 0 =
        (indexOf upper casefold containment true pairs).entries.countP fun e =>
          e.kind = .node && impactType e.type = t) ∧
      (indexOf upper casefold containment false pairs).entries = [] ∧
      (∀ (index : ChangeIndex) (views views' : Views) (f : Filter) (positions : List ℕ),
        index.Reach casefold views → views.hit f = some (positions, views') →
          positions = index.positions casefold f) ∧
      (∀ (index : ChangeIndex) (f : Filter) (limit n : ℕ),
        (index.positions casefold f).length ≤ n * limit → ((List.range n).flatMap fun i =>
              index.page (index.positions casefold f) (i * limit) limit) =
            index.entries.filter (f.matches casefold)) ∧
      ∀ (cache : SizedCache String ChangeIndex) (limit : ℤ),
        SizedCache.Reach ChangeIndex.size cache limit →
          SizedCache.Kept ChangeIndex.size cache limit := by
  refine ⟨fun query plain => length_positions plain, fun b s => ?_, fun t => ?_, ?_, ?_, ?_, ?_⟩
  · rw [byType_eq, (entries_perm upper casefold containment pairs).countP_eq]
  · rw [impact_eq, (entries_perm upper casefold containment pairs).countP_eq]
  · rw [indexOf, Builder.finish, Builder.addPairs, (foldl_count_entries _ _).1]
    rfl
  · intro index views views' f positions reach served
    obtain ⟨held, here, pair⟩ := map_eq_some_iff.mp served
    obtain ⟨rfl, -⟩ := Prod.mk.inj pair
    exact reach.right.1 (f, held) (Dict.mem_of_get? here)
  · exact fun index f limit n enough => flatMap_page index f enough
  · exact fun cache limit reach => reach.kept

/-- An index that is only counted reports what it does not list. -/
theorem counted_not_agrees : ¬ ∀ (keep : Bool) (pairs : List Pair),
    Agrees id (indexOf id id [] keep pairs) := by
  intro agrees
  have one := agrees false [("a", none, some { contentHash := "h", kind := .node })] {} rfl
  revert one
  decide

end

end DataViz.Versioning.ChangeList
