/-
# Aggregated edges across failures

Booking an id tells whether it is new, and only a new id has its pair's edge written. Where every
failing attempt had written the edges of the pairs whose bookkeeping it changed, the edges tell the
live leaf edges after every operation.
-/

import DataViz.Rollup.Aggregation

namespace DataViz.Rollup

open List

/-- What the edge of a pair should carry while some id is booked for it. -/
def Backends.aggregate (s : Backends) (pair : PairKey) : Aggregate :=
  ⟨(s.contributors pair).card, (s.contributors pair).image (s.typeOf pair)⟩

def Backends.summary (s : Backends) (pair : PairKey) : Option Aggregate :=
  if s.contributors pair = ∅ then none else some (s.aggregate pair)

theorem Backends.summary_of_mem {s : Backends} {pair : PairKey} {id : String}
    (booked : id ∈ s.contributors pair) : s.summary pair = some (s.aggregate pair) := by
  have some := Finset.ne_empty_of_mem booked
  rw [summary, if_neg some]

/-- On the way from one set of ids a pair to another: each pair has the ids of one of
the two, and each edge not pending tells the ids its pair has. -/
structure Midway (before after : PairKey → Finset String) (s : Backends) (log : List Change) :
    Prop where
  booked : ∀ pair, s.contributors pair = before pair ∨ s.contributors pair = after pair
  written : ∀ pair, pair ∉ pending log → s.edges pair = s.summary pair

variable {before after : PairKey → Finset String} {s : Backends} {log : List Change}

/-- With nothing pending, the next attempt starts where this one ended. -/
theorem Midway.settle (midway : Midway before after s log) (settled : pending log = []) :
    Midway before after s [] where
  booked := midway.booked
  written pair _ := midway.written pair (settled ▸ not_mem_nil)

section

theorem mem_pending_written {pair p : PairKey} {aggregate : Aggregate} :
    p ∈ pending (.written pair aggregate :: log) ↔ p ∈ pending log ∧ p ≠ pair := by
  simp [pending]

theorem summary_written (pair p : PairKey) (aggregate : Aggregate) :
    (s.apply (.written pair aggregate)).summary p = s.summary p :=
  rfl

/-- Writing a pair's edge as it should be keeps what holds midway. -/
theorem Midway.write (midway : Midway before after s log) {pair : PairKey}
    {aggregate : Aggregate} (right : s.summary pair = some aggregate) :
    Midway before after (s.apply (.written pair aggregate)) (.written pair aggregate :: log) where
  booked := midway.booked
  written p off := by
    rw [summary_written]
    by_cases same : p = pair
    · subst same
      simp [Backends.apply, right]
    · have off' : p ∉ pending log := fun member => off (mem_pending_written.mpr ⟨member, same⟩)
      simp [Backends.apply, same, midway.written p off']

def Current (s : Backends) (entries : List (PairKey × Aggregate)) : Prop :=
  ∀ entry ∈ entries, s.summary entry.1 = some entry.2

theorem Midway.writeAll (midway : Midway before after s log)
    {entries : List (PairKey × Aggregate)} (current : Current s entries) :
    let changes := entries.map fun entry => Change.written entry.1 entry.2
    let t := changes.foldl Backends.apply s
    Midway before after t (changes.reverse ++ log) ∧ t.contributors = s.contributors ∧
      t.typeOf = s.typeOf ∧ ∀ p, p ∈ pending (changes.reverse ++ log) ↔
        p ∈ pending log ∧ p ∉ entries.map Prod.fst := by
  induction entries generalizing s log with
  | nil => exact ⟨midway, rfl, rfl, fun p => by simp⟩
  | cons entry entries ih =>
    have first := midway.write (current entry mem_cons_self)
    have current' : Current (s.apply (.written entry.1 entry.2)) entries := fun e member => by
      exact current e (mem_cons_of_mem _ member)
    obtain ⟨midway', ids, types, left⟩ := ih first current'
    simp only [map_cons, foldl_cons, reverse_cons, append_assoc, singleton_append]
    refine ⟨midway', ids, types, fun p => ?_⟩
    rw [left, mem_pending_written, mem_cons, not_or, and_assoc]

theorem summary_congr {s t : Backends} {p : PairKey}
    (ids : t.contributors p = s.contributors p) (types : t.typeOf p = s.typeOf p) :
    t.summary p = s.summary p := by
  rw [Backends.summary, Backends.summary, Backends.aggregate, Backends.aggregate, ids, types]

/-- The pairs an id is new to are collected with what their edges should be. -/
structure Booking (before after : PairKey → Finset String) (id : String) (done : List PairKey)
    (newPairs : List (PairKey × Aggregate)) (s : Backends) (log : List Change) : Prop where
  midway : Midway before after s log
  done : ∀ pair ∈ done, id ∈ s.contributors pair
  listed : ∀ pair ∈ pending log, pair ∈ newPairs.map Prod.fst
  booked : ∀ entry ∈ newPairs, id ∈ s.contributors entry.1
  current : Current s newPairs

variable {id edgeType : String} {done : List PairKey} {newPairs : List (PairKey × Aggregate)}

theorem Booking.skip (booking : Booking before after id done newPairs s log) {pair : PairKey}
    (had : id ∈ s.contributors pair) : Booking before after id (pair :: done) newPairs s log :=
  { booking with done := forall_mem_cons.mpr ⟨had, booking.done⟩ }

/-- The set an id is booked into holds it and what it held. -/
theorem mem_contributors_added {pair p : PairKey} {k : String} :
    k ∈ (s.apply (.added pair id edgeType)).contributors p ↔
      p = pair ∧ k = id ∨ k ∈ s.contributors p := by
  by_cases same : p = pair
  · subst same
    simp [Backends.apply]
  · simp [Backends.apply, same]

theorem Booking.add (booking : Booking before after id done newPairs s log) {pair : PairKey}
    (fresh : id ∉ s.contributors pair) (grows : after pair = insert id (before pair)) :
    let t := s.apply (.added pair id edgeType)
    Booking before after id (pair :: done) (newPairs ++ [(pair, t.aggregate pair)]) t
      (.added pair id edgeType :: log) := by
  intro t
  have here : id ∈ t.contributors pair := mem_contributors_added.mpr (.inl ⟨rfl, rfl⟩)
  have kept : ∀ p, p ≠ pair → t.contributors p = s.contributors p ∧ t.typeOf p = s.typeOf p :=
    fun p other => by simp [t, Backends.apply, other]
  have from_before : s.contributors pair = before pair :=
    (booking.midway.booked pair).resolve_right fun same =>
      fresh (same ▸ grows ▸ Finset.mem_insert_self id _)
  refine ⟨⟨fun p => ?_, fun p off => ?_⟩, fun p member => ?_, fun p member => ?_,
    fun entry member => ?_, fun entry member => ?_⟩
  · by_cases same : p = pair
    · subst same
      refine Or.inr ?_
      simp [t, Backends.apply, from_before, grows]
    · rw [(kept p same).1]
      exact booking.midway.booked p
  · obtain ⟨other, off⟩ := ne_and_not_mem_of_not_mem_cons off
    rw [summary_congr (kept p other).1 (kept p other).2]
    exact booking.midway.written p off
  · cases mem_cons.mp member with
    | inl same => exact same ▸ here
    | inr member => exact mem_contributors_added.mpr (.inr (booking.done p member))
  · rw [map_append, mem_append]
    cases mem_cons.mp member with
    | inl same => exact .inr (by simp [same])
    | inr member => exact .inl (booking.listed p member)
  · cases mem_append.mp member with
    | inl member => exact mem_contributors_added.mpr (.inr (booking.booked entry member))
    | inr last => exact mem_singleton.mp last ▸ here
  · cases mem_append.mp member with
    | inl member =>
      have other : entry.1 ≠ pair := fun same =>
        fresh (same ▸ booking.booked entry member)
      rw [summary_congr (kept _ other).1 (kept _ other).2]
      exact booking.current entry member
    | inr last =>
      rw [mem_singleton.mp last]
      exact Backends.summary_of_mem here

theorem bookPairs_holds (pairs : List PairKey)
    (grows : ∀ pair ∈ pairs, after pair = insert id (before pair)) :
    Attempt.Holds (Booking before after id done newPairs) (bookPairs id edgeType pairs newPairs)
      (fun entries => Booking before after id (pairs ++ done) entries) (Midway before after) := by
  induction pairs generalizing done newPairs with
  | nil => exact .pure fun _ _ booking => booking
  | cons pair pairs ih =>
    have grows' := (forall_mem_cons.mp grows).2
    have order : ∀ entries s log, Booking before after id (pairs ++ pair :: done) entries s log →
        Booking before after id (pair :: pairs ++ done) entries s log :=
      fun entries s log booking => { booking with
        done := fun p member => booking.done p (by
          simpa [or_comm, or_left_comm] using member) }
    refine .bind (.call _ (Q := fun wasNew s log => if wasNew = true
        then Booking before after id (pair :: done) (newPairs ++ [(pair, s.aggregate pair)]) s log
        else Booking before after id (pair :: done) newPairs s log)
      (fun s log booking => ?_) fun s log landed booking => ?_) fun wasNew => ?_
    · by_cases had : id ∈ s.contributors pair
      · simpa [had] using booking.skip had
      · simpa [had] using booking.add had (grows pair mem_cons_self)
    · by_cases had : id ∈ s.contributors pair
      · simpa [had] using booking.midway
      · cases kept : landed (.added pair id edgeType) with
        | false => simpa [had, kept] using booking.midway
        | true =>
          simpa [had, kept] using (booking.add had (grows pair mem_cons_self)).midway
    · cases wasNew with
      | false => exact ((ih grows').returns (order · · ·)).weaken fun _ _ booking => booking
      | true =>
        refine .bind (.read _ fun _ _ booking => booking.midway) fun weight => ?_
        refine .bind (.read _ fun _ _ booking => booking.2.midway) fun types => ?_
        refine ((ih grows').returns (order · · ·)).weaken fun s log found => ?_
        obtain ⟨rfl, rfl, booking⟩ := found
        exact booking

/-- Every id booked, and the pending pairs all among the entries still to be written. -/
structure Writing (before after : PairKey → Finset String) (newPairs : List (PairKey × Aggregate))
    (s : Backends) (log : List Change) : Prop where
  midway : Midway before after s log
  booked : ∀ pair, s.contributors pair = after pair
  listed : ∀ pair ∈ pending log, pair ∈ newPairs.map Prod.fst
  current : Current s newPairs

theorem Current.filter {entries : List (PairKey × Aggregate)} (current : Current s entries)
    (keep : PairKey × Aggregate → Bool) : Current s (entries.filter keep) :=
  fun entry member => current entry (mem_filter.mp member).1

/-- The loop that writes the collected pairs' edges either fails midway or leaves
nothing pending. -/
theorem upsertChunks_holds (batches : List (List (PairKey × Aggregate))) :
    Attempt.Holds (Writing before after batches.flatten) (upsertChunks batches)
      (fun _ => Writing before after []) (Midway before after) := by
  induction batches with
  | nil => exact .pure fun _ _ writing => writing
  | cons batch batches ih =>
    refine .bind (.call _ (Q := fun _ => Writing before after batches.flatten)
      (fun s log writing => ?_) fun s log landed writing => ?_) fun _ => ih
    · have split : (batch :: batches).flatten = batch ++ batches.flatten := rfl
      have ahead : Current s batch := fun entry member =>
        writing.current entry (split ▸ mem_append_left _ member)
      obtain ⟨midway, ids, types, left⟩ := writing.midway.writeAll ahead
      refine ⟨midway, fun pair => ids ▸ writing.booked pair, fun pair member => ?_,
        fun entry member => ?_⟩
      · obtain ⟨was, off⟩ := (left pair).mp member
        have listed := writing.listed pair was
        rw [split, map_append, mem_append] at listed
        exact listed.resolve_left off
      · rw [summary_congr (congrFun ids _) (congrFun types _)]
        exact writing.current entry (split ▸ mem_append_right _ member)
    · have ahead : Current s batch := fun entry member =>
        writing.current entry (mem_append_left _ member)
      rw [filter_map]
      exact (writing.midway.writeAll (ahead.filter _)).1

theorem take_flatten_chunks {α : Type} (items : List α) (size n : ℕ) :
    ((List.range n).map fun i => (items.drop (i * size)).take size).flatten =
      items.take (n * size) := by
  induction n with
  | zero => simp
  | succ n ih =>
    rw [range_succ, map_append, List.flatten_append, ih, map_singleton,
      flatten_singleton, Nat.succ_mul, take_add]

/-- The batches make up the list. -/
theorem flatten_chunks {α : Type} (items : List α) {size : ℕ} (positive : 0 < size) :
    (chunks items size).flatten = items := by
  have enough : items.length ≤ (items.length + size - 1) / size * size := by
    have rounded := Nat.lt_div_mul_add (a := items.length + size - 1) positive
    omega
  rw [chunks, take_flatten_chunks, take_of_length_le enough]

/-- Every pair has the ids `ids` says, and its edge tells them. -/
def Told (ids : PairKey → Finset String) (s : Backends) : Prop :=
  ∀ pair, s.contributors pair = ids pair ∧ s.edges pair = s.summary pair

theorem Writing.told (writing : Writing before after [] s log) : Told after s := fun pair =>
  ⟨writing.booked pair, writing.midway.written pair fun member =>
    not_mem_nil (writing.listed pair member)⟩

theorem Booking.writing {pairs : List PairKey}
    (booking : Booking before after id (pairs ++ []) newPairs s log)
    (grows : ∀ pair, after pair = if pair ∈ pairs then insert id (before pair) else before pair) :
    Writing before after newPairs s log where
  midway := booking.midway
  booked pair := by
    cases booking.midway.booked pair with
    | inr new => exact new
    | inl old =>
      rw [old, grows]
      split
      · next member =>
          have here := booking.done pair (mem_append_left _ member)
          exact (Finset.insert_eq_self.mpr (old ▸ here)).symm
      · rfl
  listed := booking.listed
  current := booking.current

theorem materializeLineageEdge_holds (m : Materializer) (edge : LeafEdge)
    (grows : ∀ pair, after pair =
      if pair ∈ m.pairs edge then insert edge.id (before pair) else before pair) :
    Attempt.Holds (fun s log => Midway before after s [] ∧ log = [])
      (materializeLineageEdge m edge.sourceUrn edge.targetUrn edge.id edgeType)
      (fun _ s _ => Told after s) (Midway before after) := by
  have midway : ∀ s log, Midway before after s [] ∧ log = [] → Midway before after s log :=
    fun s log start => start.2 ▸ start.1
  refine .bind (.read _ midway) fun sChain => .bind (.read _ fun s log start =>
    midway s log start.2) fun tChain => ?_
  by_cases told : sChain = m.chains edge.sourceUrn ∧ tChain = m.chains edge.targetUrn
  · obtain ⟨rfl, rfl⟩ := told
    have begin : ∀ s log, Midway before after s log → log = [] →
        Booking before after edge.id [] [] s log := by
      rintro s log midway rfl
      exact ⟨midway, nofun, nofun, nofun, nofun⟩
    show Attempt.Holds _ (if m.pairs edge = [] then pure () else _) _ _
    split
    · next none =>
        refine .pure fun s log found => ?_
        have booking : Booking before after edge.id (m.pairs edge ++ []) [] s log := by
          rw [none]
          exact begin s log (midway s log found.2.2) found.2.2.2
        exact (booking.writing grows).told
    · refine .bind ((bookPairs_holds (m.pairs edge) fun pair member => ?_).weaken
        fun s log found => begin s log (midway s log found.2.2) found.2.2.2) fun newPairs => ?_
      · rw [grows, if_pos member]
      · split
        · next none => exact .pure fun s log booking => (none ▸ booking.writing grows).told
        · have batches : Attempt.Holds (Writing before after _) _
              (fun _ => Writing before after []) (Midway before after) :=
            upsertChunks_holds (chunks newPairs m.config.batchSize)
          rw [flatten_chunks _ m.config.positive] at batches
          exact (batches.returns fun _ _ _ writing => writing.told).weaken
            fun _ _ booking => booking.writing grows
  · exact fun w found => absurd ⟨found.2.1, found.1⟩ told

end

section

theorem Midway.remove {id : String} (midway : Midway before after s log) {pair : PairKey}
    (had : id ∈ s.contributors pair) (settled : pending log = [])
    (shrinks : after pair = (before pair).erase id) :
    let t := s.apply (.removed pair id)
    Midway before after t (.removed pair id :: log) ∧ (t.edges pair).isSome ∧
      id ∉ t.contributors pair := by
  intro t
  have kept : ∀ p, p ≠ pair → t.contributors p = s.contributors p := fun p other => by
    simp [t, Backends.apply, other]
  have from_before : s.contributors pair = before pair :=
    (midway.booked pair).resolve_right fun same => by
      rw [same, shrinks] at had
      exact Finset.notMem_erase id _ had
  have edge : s.edges pair = some (s.aggregate pair) := by
    rw [midway.written pair (settled ▸ not_mem_nil), Backends.summary_of_mem had]
  refine ⟨⟨fun p => ?_, fun p off => ?_⟩, ?_, ?_⟩
  · by_cases same : p = pair
    · subst same
      refine Or.inr ?_
      simp [t, Backends.apply, from_before, shrinks]
    · rw [kept p same]
      exact midway.booked p
  · obtain ⟨other, off⟩ := ne_and_not_mem_of_not_mem_cons off
    rw [summary_congr (kept p other) rfl]
    exact midway.written p off
  · show (s.edges pair).isSome
    rw [edge]
    rfl
  · simp [t, Backends.apply]

/-- Nothing pending, and the id gone from every pair in `done`. -/
structure Unbooking (before after : PairKey → Finset String) (id : String) (done : List PairKey)
    (s : Backends) (log : List Change) : Prop where
  midway : Midway before after s log
  settled : pending log = []
  done : ∀ pair ∈ done, id ∉ s.contributors pair

/-- The id just gone from `pair`, whose edge is still to be written. -/
structure Unwritten (before after : PairKey → Finset String) (id : String) (done : List PairKey)
    (pair : PairKey) (s : Backends) (log : List Change) : Prop where
  midway : Midway before after s log
  pending : pending log = [pair]
  edge : (s.edges pair).isSome
  done : ∀ p ∈ pair :: done, id ∉ s.contributors p

variable {id : String} {done : List PairKey} {pair : PairKey}

/-- Writing or deleting the pair's edge as it should be leaves nothing pending. -/
theorem Unwritten.write {edge : Option Aggregate} {change : Change}
    (unwritten : Unwritten before after id done pair s log)
    (changes : s.apply change = { s with edges := Function.update s.edges pair edge })
    (writes : Rollup.pending (change :: log) = (Rollup.pending log).filter (· ≠ pair))
    (right : s.summary pair = edge) :
    Unbooking before after id (pair :: done) (s.apply change) (change :: log) := by
  rw [changes]
  have settled : Rollup.pending (change :: log) = [] := by
    rw [writes, unwritten.pending]
    simp
  refine ⟨⟨unwritten.midway.booked, fun p off => ?_⟩, settled, unwritten.done⟩
  by_cases same : p = pair
  · subst same
    show Function.update s.edges p edge p = s.summary p
    rw [Function.update_self, right]
  · show Function.update s.edges pair edge p = s.summary p
    rw [Function.update_of_ne same]
    refine unwritten.midway.written p fun member => same ?_
    rwa [unwritten.pending, mem_singleton] at member

/-- One turn of the loop that removes an id. -/
theorem unbookPair_holds (shrinks : after pair = (before pair).erase id) :
    Attempt.Holds (Unbooking before after id done) (unbookPair id pair)
      (fun _ => Unbooking before after id (pair :: done)) (Midway before after) := by
  refine .bind (.call _ (Q := fun removed s log => if removed = true
      then Unwritten before after id done pair s log
      else Unbooking before after id (pair :: done) s log)
    (fun s log unbooking => ?_) fun s log landed unbooking => ?_) fun removed => ?_
  · by_cases had : id ∈ s.contributors pair
    · obtain ⟨midway, edge, gone⟩ := unbooking.midway.remove had unbooking.settled shrinks
      have pended : pending (.removed pair id :: log) = [pair] := by
        rw [pending, unbooking.settled]
      have gone' : ∀ p ∈ pair :: done, id ∉ (s.apply (.removed pair id)).contributors p := by
        intro p member
        by_cases same : p = pair
        · exact same ▸ gone
        · have kept : (s.apply (.removed pair id)).contributors p = s.contributors p := by
            simp [Backends.apply, same]
          rw [kept]
          exact unbooking.done p ((mem_cons.mp member).resolve_left same)
      simpa [had] using (⟨midway, pended, edge, gone'⟩ : Unwritten before after id done pair _ _)
    · simpa [had] using ({ unbooking with
        done := forall_mem_cons.mpr ⟨had, unbooking.done⟩ } :
          Unbooking before after id (pair :: done) s log)
  · by_cases had : id ∈ s.contributors pair
    · cases kept : landed (.removed pair id) with
      | false => simpa [had, kept] using unbooking.midway
      | true =>
        simpa [had, kept] using (unbooking.midway.remove had unbooking.settled shrinks).1
    · simpa [had] using unbooking.midway
  · cases removed with
    | false => exact .pure fun _ _ unbooking => unbooking
    | true =>
      have begin : ∀ s log, (if true = true then Unwritten before after id done pair s log
          else Unbooking before after id (pair :: done) s log) →
          Unwritten before after id done pair s log := fun _ _ unwritten => unwritten
      refine Attempt.Holds.weaken (.bind (.read _ fun _ _ unwritten => unwritten.midway)
        fun remaining => ?_) begin
      split
      · next none =>
          have deleted : ∀ s log, remaining = (s.contributors pair).card ∧
              Unwritten before after id done pair s log →
              Unbooking before after id (pair :: done) (s.apply (.deleted pair))
                (.deleted pair :: log) := by
            rintro s log ⟨rfl, unwritten⟩
            have empty : s.contributors pair = ∅ := Finset.card_eq_zero.mp (Nat.le_zero.mp none)
            exact unwritten.write rfl rfl (if_pos empty)
          refine .call _ deleted fun s log landed found => ?_
          cases kept : landed (.deleted pair) with
          | false => simpa [kept] using found.2.midway
          | true => simpa [kept] using (deleted s log found).midway
      · next some =>
          refine .bind (.read _ fun _ _ found => found.2.midway) fun types => ?_
          have updated : ∀ s log, types = (s.contributors pair).image (s.typeOf pair) ∧
              remaining = (s.contributors pair).card ∧
              Unwritten before after id done pair s log →
              Unbooking before after id (pair :: done) (s.apply (.written pair ⟨remaining, types⟩))
                (.written pair ⟨remaining, types⟩ :: log) := by
            rintro s log ⟨rfl, rfl, unwritten⟩
            have booked : s.contributors pair ≠ ∅ := fun empty => some (by simp [empty])
            exact unwritten.write rfl rfl (if_neg booked)
          refine .call _ (fun s log found => ?_) fun s log landed found => ?_
          · simpa [found.2.2.edge] using updated s log found
          · cases kept : landed (.written pair ⟨remaining, types⟩) with
            | false => simpa [found.2.2.edge, kept] using found.2.2.midway
            | true => simpa [found.2.2.edge, kept] using (updated s log found).midway

theorem unbookPairs_holds (pairs : List PairKey)
    (shrinks : ∀ pair ∈ pairs, after pair = (before pair).erase id) :
    Attempt.Holds (Unbooking before after id done) (unbookPairs id pairs)
      (fun _ => Unbooking before after id (pairs ++ done)) (Midway before after) := by
  induction pairs generalizing done with
  | nil => exact .pure fun _ _ unbooking => unbooking
  | cons pair pairs ih =>
    obtain ⟨here, rest⟩ := forall_mem_cons.mp shrinks
    refine .bind (unbookPair_holds here) fun _ => (ih rest).returns fun _ s log unbooking => ?_
    exact { unbooking with
      done := fun p member => unbooking.done p (by
        simpa [or_comm, or_left_comm] using member) }

theorem removeLineageEdge_holds (m : Materializer) (edge : LeafEdge) (shrinks : ∀ pair, after pair =
      if pair ∈ m.pairs edge then (before pair).erase edge.id else before pair) :
    Attempt.Holds (fun s log => Midway before after s [] ∧ log = [])
      (removeLineageEdge m edge.sourceUrn edge.targetUrn edge.id)
      (fun _ s _ => Told after s) (Midway before after) := by
  have midway : ∀ s log, Midway before after s [] ∧ log = [] → Midway before after s log :=
    fun s log start => start.2 ▸ start.1
  refine .bind (.read _ midway) fun sChain => .bind (.read _ fun s log start =>
    midway s log start.2) fun tChain => ?_
  by_cases told : sChain = m.chains edge.sourceUrn ∧ tChain = m.chains edge.targetUrn
  · obtain ⟨rfl, rfl⟩ := told
    have shrinks' : ∀ pair ∈ m.pairs edge, after pair = (before pair).erase edge.id :=
      fun pair member => by rw [shrinks, if_pos member]
    refine ((unbookPairs_holds (m.pairs edge) shrinks').returns
      fun _ s log unbooking pair => ?_).weaken fun s log found =>
        (⟨midway s log found.2.2, found.2.2.2 ▸ rfl, nofun⟩ :
          Unbooking before after edge.id [] s log)
    have written := unbooking.midway.written pair (unbooking.settled ▸ not_mem_nil)
    refine ⟨(unbooking.midway.booked pair).elim (fun old => ?_) fun new => new, written⟩
    rw [old, shrinks]
    split
    · next member =>
        have gone := unbooking.done pair (mem_append_left _ member)
        exact (Finset.erase_eq_of_notMem (old ▸ gone)).symm
    · rfl
  · exact fun w found => absurd ⟨found.2.1, found.1⟩ told

end

section

variable {m : Materializer} {live : Finset LeafEdge}

theorem contributing_insert (edge : LeafEdge) (pair : PairKey) :
    contributing m (insert edge live) pair =
      if pair ∈ m.pairs edge then insert edge.id (contributing m live pair)
      else contributing m live pair := by
  rw [contributing, Finset.filter_insert]
  split
  · rw [Finset.image_insert, contributing]
  · rfl

theorem contributing_erase (edge : LeafEdge)
    (names : ∀ other ∈ live, other.id = edge.id → other = edge) (pair : PairKey) :
    contributing m (live.erase edge) pair =
      if pair ∈ m.pairs edge then (contributing m live pair).erase edge.id
      else contributing m live pair := by
  ext id
  split
  · next member =>
      simp only [contributing, Finset.mem_image, Finset.mem_filter, Finset.mem_erase]
      constructor
      · rintro ⟨other, ⟨⟨apart, isLive⟩, into⟩, rfl⟩
        exact ⟨fun same => apart (names other isLive same), other, ⟨isLive, into⟩, rfl⟩
      · rintro ⟨apart, other, ⟨isLive, into⟩, rfl⟩
        exact ⟨other, ⟨⟨fun same => apart (same ▸ rfl), isLive⟩, into⟩, rfl⟩
  · next member =>
      simp only [contributing, Finset.mem_image, Finset.mem_filter, Finset.mem_erase]
      constructor
      · rintro ⟨other, ⟨⟨_, isLive⟩, into⟩, rfl⟩
        exact ⟨other, ⟨isLive, into⟩, rfl⟩
      · rintro ⟨other, ⟨isLive, into⟩, rfl⟩
        exact ⟨other, ⟨⟨fun same => member (same ▸ into), isLive⟩, into⟩, rfl⟩

/-- An attempt whose failures leave nothing pending carries the ids from those of the
leaf edges live before it to those of the leaf edges live after it. -/
theorem LeafOp.attempt_holds (op : LeafOp)
    (names : ∀ edge ∈ live, edge.id = op.edge.id → edge = op.edge) :
    Attempt.Holds
      (fun s log => Midway (contributing m live) (contributing m (op.live live)) s [] ∧ log = [])
      (op.attempt m) (fun _ s _ => Told (contributing m (op.live live)) s)
      (Midway (contributing m live) (contributing m (op.live live))) := by
  cases op with
  | write edge edgeType =>
    exact materializeLineageEdge_holds m edge (contributing_insert edge)
  | remove edge => exact removeLineageEdge_holds m edge (contributing_erase edge names)

/-- The bookkeeping after every operation, and the edges with it. -/
theorem Run.told (run : Run m (fun _ log => pending log = []) live s) :
    Told (contributing m live) s := by
  induction run with
  | start => exact fun pair => ⟨by simp [contributing, Backends.empty], rfl⟩
  | @op live s t op _ names done ih =>
    have first : Midway (contributing m live) (contributing m (op.live live)) s [] :=
      ⟨fun pair => .inl (ih pair).1, fun pair _ => (ih pair).2⟩
    exact done.reaches ((op.attempt_holds names).fails fun _ _ midway settled =>
      midway.settle settled) first

theorem Told.summarises (told : Told (contributing m live) s) : Summarises m live s where
  exists_iff pair := by
    rw [(told pair).2, Backends.summary, (told pair).1, Finset.nonempty_iff_ne_empty]
    split <;> simp_all
  weight_eq pair aggregate edge := by
    rw [(told pair).2, Backends.summary] at edge
    split at edge
    · cases edge
    · cases edge
      rw [Backends.aggregate, (told pair).1]

/-- Where every failing attempt had written the edges of the pairs whose bookkeeping it
changed, the edges tell the live leaf edges after every operation. -/
theorem run_summarises (run : Run m (fun _ log => pending log = []) live s) : Summarises m live s :=
  run.told.summarises

def flatMaterializer : Materializer where
  config := ⟨1000, by decide⟩
  chains urn := [urn]

/-- A write that fails once it has read the chains, and then succeeds. -/
theorem run_summarises_retried :
    ∃ s, Run flatMaterializer (fun _ log => pending log = []) {⟨"e", "a", "b"⟩} s ∧
      Summarises flatMaterializer {⟨"e", "a", "b"⟩} s := by
  let op : LeafOp := .write ⟨"e", "a", "b"⟩ "FLOWS_TO"
  let script : List (Outcome Change) := [.completes, .completes, .fails fun _ => false]
  have failed : op.attempt flatMaterializer ⟨.empty, [], script⟩ = .error () ⟨.empty, [], []⟩ := rfl
  have run : Run flatMaterializer (fun _ log => pending log = []) (op.live ∅) _ :=
    .op op .start (fun _ absent => absurd absent (Finset.notMem_empty _))
      (.fails failed rfl (@Attempt.Repeated.succeeds _ _ _ _ _ Backends.empty [] () _ rfl))
  exact ⟨_, run, run_summarises run⟩

/-- A write that fails between booking its id and writing the edge, and then succeeds:
the id is no longer new, and the edge is never written. -/
theorem run_loses_edge : ∃ s, Run flatMaterializer (fun _ _ => True) {⟨"e", "a", "b"⟩} s ∧
      s.edges ("a", "b") = none ∧ ¬ Summarises flatMaterializer {⟨"e", "a", "b"⟩} s := by
  let op : LeafOp := .write ⟨"e", "a", "b"⟩ "FLOWS_TO"
  let script : List (Outcome Change) :=
    [.completes, .completes, .completes, .fails fun _ => false]
  let booked : Backends := Backends.empty.apply (.added ("a", "b") "e" "FLOWS_TO")
  have failed : op.attempt flatMaterializer ⟨.empty, [], script⟩ =
      .error () ⟨booked, [.added ("a", "b") "e" "FLOWS_TO"], []⟩ := rfl
  have retried : op.attempt flatMaterializer ⟨booked, [], []⟩ = .ok () ⟨booked, [], []⟩ := rfl
  have run : Run flatMaterializer (fun _ _ => True) (op.live ∅) booked :=
    .op op .start (fun _ absent => absurd absent (Finset.notMem_empty _))
      (.fails failed trivial (.succeeds retried))
  refine ⟨booked, run, rfl, fun summarises => ?_⟩
  have contributes : (contributing flatMaterializer {⟨"e", "a", "b"⟩} ("a", "b")).Nonempty :=
    ⟨"e", by decide⟩
  have there : (booked.edges ("a", "b")).isSome := (summarises.exists_iff _).mpr contributes
  cases there

end

end DataViz.Rollup
