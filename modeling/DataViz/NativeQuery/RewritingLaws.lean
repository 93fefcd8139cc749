/-
# What the scan of a condition says of it

The loops that decide whether an operator follows, over tokens whose brackets are closed: where a
bracket closes, what a loop that steps over brackets meets, and when a count of CASE and END comes
out even.
-/

import DataViz.NativeQuery.Rewriting

namespace DataViz.NativeQuery

open List

/-- Tokens whose brackets are all closed, of whatever kind. -/
inductive Nested : List Text → Prop
  | nil : Nested []
  | plain {token : Text} {tokens : List Text} (opens : token ∉ opensTokens)
      (closes : token ∉ closesTokens) (rest : Nested tokens) : Nested (token :: tokens)
  | group {opening closing : Text} {inner tokens : List Text} (opens : opening ∈ opensTokens)
      (closes : closing ∈ closesTokens) (inside : Nested inner) (rest : Nested tokens) :
      Nested (opening :: inner ++ closing :: tokens)

theorem Nested.append {first second : List Text} (left : Nested first) (right : Nested second) :
    Nested (first ++ second) := by
  induction left with
  | nil => exact right
  | plain opens closes _ ih => exact .plain opens closes ih
  | group opens closes inside _ _ ih =>
    rw [append_assoc]
    exact .group opens closes inside ih

variable {token : Text}

theorem not_opens_of_closes (closes : token ∈ closesTokens) : token ∉ opensTokens := by
  intro opens
  simp only [closesTokens, opensTokens, mem_cons, not_mem_nil, or_false] at closes opens
  rcases closes with rfl | rfl | rfl <;> simp at opens

theorem closingsFrom_opens (opens : token ∈ opensTokens) (i : ℕ) (opened : List ℕ)
    (tokens : List Text) :
    closingsFrom i opened (token :: tokens) = closingsFrom (i + 1) (i :: opened) tokens := by
  rw [closingsFrom.eq_def]
  simp only [opens, if_true]

theorem closingsFrom_closes (closes : token ∈ closesTokens) (i opening : ℕ) (opened : List ℕ)
    (tokens : List Text) : closingsFrom i (opening :: opened) (token :: tokens) =
      (closingsFrom (i + 1) opened tokens).set opening i := by
  rw [closingsFrom.eq_def]
  simp only [not_opens_of_closes closes, closes, if_true, if_false]

theorem closingsFrom_plain (opens : token ∉ opensTokens) (closes : token ∉ closesTokens) (i : ℕ)
    (opened : List ℕ) (tokens : List Text) :
    closingsFrom i opened (token :: tokens) = closingsFrom (i + 1) opened tokens := by
  rw [closingsFrom.eq_def]
  cases opened with
  | nil => simp only [opens, if_false]
  | cons opening opened => simp only [opens, closes, if_false]

variable {inner : List Text}

/-- What brackets inside a text close says nothing of a bracket opened before it. -/
theorem get?_closingsFrom_nested (nested : Nested inner) {p : ℕ} :
    ∀ {i : ℕ} (opened : List ℕ) (tokens : List Text), p < i →
      (closingsFrom i opened (inner ++ tokens)).get? p =
        (closingsFrom (i + inner.length) opened tokens).get? p := by
  induction nested with
  | nil => exact fun _ _ _ => rfl
  | plain opens closes _ ih =>
    intro i opened tokens before
    rw [cons_append, closingsFrom_plain opens closes, ih opened tokens (by omega),
      length_cons, Nat.add_right_comm, Nat.add_assoc]
  | @group opening closing inner rest opens closes _ _ ihInner ihRest =>
    intro i opened tokens before
    have apart : i ≠ p := by omega
    rw [append_assoc, cons_append, cons_append, closingsFrom_opens opens,
      ihInner (i :: opened) (closing :: (rest ++ tokens)) (by omega),
      closingsFrom_closes closes, Dict.get?_set_ne apart,
      ihRest opened tokens (by omega)]
    congr 2
    simp only [length_append, length_cons]
    omega

theorem get?_closingsFrom_append (first : List Text) {p : ℕ} (rest : List Text) :
    ∀ {i : ℕ} (opened : List ℕ), (∀ q ∈ opened, q < p) → p = i + first.length →
      ∃ opened', (∀ q ∈ opened', q < p) ∧
        (closingsFrom i opened (first ++ rest)).get? p = (closingsFrom p opened' rest).get? p := by
  induction first with
  | nil =>
    intro i opened before here
    cases here
    exact ⟨opened, before, rfl⟩
  | cons token first ih =>
    intro i opened before here
    rw [length_cons] at here
    rw [cons_append]
    by_cases opens : token ∈ opensTokens
    · rw [closingsFrom_opens opens]
      refine ih (i :: opened) ?_ (by omega)
      intro q mem
      rcases mem_cons.mp mem with rfl | mem
      · omega
      · exact before q mem
    · by_cases closes : token ∈ closesTokens
      · cases opened with
        | nil =>
          rw [closingsFrom.eq_def]
          simp only [opens, if_false]
          exact ih [] nofun (by omega)
        | cons opening opened =>
          have earlier : opening < p := before opening mem_cons_self
          rw [closingsFrom_closes closes, Dict.get?_set_ne (by omega)]
          exact ih opened (fun q mem => before q (mem_cons_of_mem _ mem)) (by omega)
      · rw [closingsFrom_plain opens closes]
        exact ih opened before (by omega)

/-- Where a bracket closes that holds only closed ones. -/
theorem get?_closings (first : List Text) {opening closing : Text} (opens : opening ∈ opensTokens)
    (closes : closing ∈ closesTokens) (nested : Nested inner) (rest : List Text) :
    (closings (first ++ opening :: inner ++ closing :: rest)).get? first.length =
      some (first.length + inner.length + 1) := by
  obtain ⟨opened, -, found⟩ := get?_closingsFrom_append first
    (opening :: inner ++ closing :: rest) (i := 0) (p := first.length) [] nofun (by omega)
  rw [closings, append_assoc, found, cons_append, closingsFrom_opens opens,
    get?_closingsFrom_nested nested _ _ (Nat.lt_succ_self _), closingsFrom_closes closes,
    Dict.get?_set_self]
  congr 1
  omega

theorem get?_closingsFrom_eq_none (tokens : List Text) {p : ℕ} :
    ∀ {i : ℕ} (opened : List ℕ), (∀ q ∈ opened, q ≠ p) → p < i →
      (closingsFrom i opened tokens).get? p = none := by
  induction tokens with
  | nil => exact fun _ _ _ => rfl
  | cons token tokens ih =>
    intro i opened apart before
    by_cases opens : token ∈ opensTokens
    · rw [closingsFrom_opens opens]
      refine ih (i :: opened) ?_ (by omega)
      intro q mem
      rcases mem_cons.mp mem with rfl | mem
      · omega
      · exact apart q mem
    · by_cases closes : token ∈ closesTokens
      · cases opened with
        | nil =>
          rw [closingsFrom.eq_def]
          simp only [opens, if_false]
          exact ih [] nofun (by omega)
        | cons opening opened =>
          rw [closingsFrom_closes closes, Dict.get?_set_ne (apart opening mem_cons_self)]
          exact ih opened (fun q mem => apart q (mem_cons_of_mem _ mem)) (by omega)
      · rw [closingsFrom_plain opens closes]
        exact ih opened apart (by omega)

/-- Only brackets close. -/
theorem get?_closings_plain (first : List Text) (opens : token ∉ opensTokens)
    (closes : token ∉ closesTokens) (rest : List Text) :
    (closings (first ++ token :: rest)).get? first.length = none := by
  obtain ⟨opened, before, found⟩ := get?_closingsFrom_append first
    (token :: rest) (i := 0) (p := first.length) [] nofun (by omega)
  rw [closings, found, closingsFrom_plain opens closes]
  exact get?_closingsFrom_eq_none rest opened (fun q mem => Nat.ne_of_lt (before q mem))
    (Nat.lt_succ_self _)

/-- AND, OR or XOR outside all brackets, a name of that spelling among them. -/
def Joined (tokens : List Text) : Prop :=
  ∃ first joiner rest, tokens = first ++ joiner :: rest ∧ Nested first ∧ joiner ∈ joiners

theorem tokenAt_append (first : List Text) (token : Text) (rest : List Text) :
    tokenAt (first ++ token :: rest) first.length = token := by
  rw [tokenAt, getElem?_append_right (Nat.le_refl _), Nat.sub_self]
  rfl

/-- The loop comes by whatever stands behind closed brackets. -/
theorem nothingJoins_nested (nested : Nested inner) : ∀ (first rest : List Text),
      nothingJoins (closings (first ++ inner ++ rest)) (first ++ inner ++ rest) first.length =
        true →
      nothingJoins (closings (first ++ inner ++ rest)) (first ++ inner ++ rest)
        (first ++ inner).length = true := by
  induction nested with
  | nil =>
    intro first rest joins
    simpa using joins
  | @plain token tokens opens closes nested ih =>
    intro first rest joins
    have next := ih (first ++ [token]) rest
    simp only [append_assoc, cons_append] at next joins ⊢
    refine next ?_
    rw [nothingJoins, get?_closings_plain first opens closes] at joins
    split at joins
    · split at joins
      · cases joins
      · simpa using joins
    · next past => exact absurd (by simp) past
  | @group opening closing inner tokens opens closes inside nested _ ih =>
    intro first rest joins
    have next := ih (first ++ opening :: inner ++ [closing]) rest
    have there := get?_closings first opens closes inside (tokens ++ rest)
    simp only [append_assoc, cons_append] at next joins there ⊢
    refine next ?_
    rw [nothingJoins, there] at joins
    split at joins
    · split at joins
      · cases joins
      · rw [Option.getD_some, max_eq_right (by omega)] at joins
        rw [show (first ++ opening :: (inner ++ [closing])).length =
          first.length + inner.length + 1 + 1 by simp; omega]
        exact joins
    · next past => exact absurd (by simp) past

theorem not_joined_of_alone {tokens : List Text}
    (joins : nothingJoins (closings (token :: tokens)) (token :: tokens) 1 = true) :
    ¬ Joined tokens := by
  rintro ⟨first, joiner, rest, rfl, nested, mem⟩
  have met := nothingJoins_nested nested [token] (joiner :: rest) (by simpa using joins)
  rw [nothingJoins, tokenAt_append] at met
  split at met
  · cases met
  · next past => exact past (by simp)

theorem stopsLast_uneven {tokens : List Text} :
    ∀ {depth : ℤ}, stopsLast depth tokens = true → ∀ k, 0 < k → k < tokens.length →
      depth + ((tokens.take k).map caseDepth).sum ≠ 0 := by
  induction tokens with
  | nil => exact fun _ k _ short => absurd short (Nat.not_lt_zero k)
  | cons token tokens ih =>
    intro depth stops k positive short
    obtain ⟨k, rfl⟩ := Nat.exists_eq_succ_of_ne_zero (Nat.pos_iff_ne_zero.mp positive)
    rw [take_succ_cons, map_cons, sum_cons, ← add_assoc]
    rw [length_cons] at short
    rw [stopsLast] at stops
    split at stops
    · rw [List.isEmpty_iff.mp stops, length_nil] at short
      omega
    · next uneven =>
        cases k with
        | zero => simpa using uneven
        | succ k => exact ih stops (k + 1) (Nat.succ_pos k) (by omega)

end DataViz.NativeQuery
