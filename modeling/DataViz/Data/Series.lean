/-
# What a source gives, call after call

A source keeps a state and answers each call from it. `series` is what a run of calls gives, and
`Throughout` says a condition of every call of the run, read in the state the call meets. When one
answer stands in a relation to the one before it exactly under the condition, the whole series is a
chain of that relation exactly when the condition holds throughout.

Numbers written at one width are in the order of their texts.
-/

import Mathlib.Data.List.Chain
import Mathlib.Order.Fin.Basic
import Mathlib.Algebra.Order.Ring.Nat

namespace DataViz

section

variable {σ γ ι : Type*}

/-- The answers to a run of calls, in order. -/
def series (step : σ → γ → σ × ι) : σ → List γ → List ι
  | _, [] => []
  | s, call :: calls => (step s call).2 :: series step (step s call).1 calls

/-- `holds` is true of every call of a run, in the state the call meets. -/
def Throughout (step : σ → γ → σ × ι) (holds : σ → γ → Prop) : σ → List γ → Prop
  | _, [] => True
  | s, call :: calls => holds s call ∧ Throughout step holds (step s call).1 calls

variable {step : σ → γ → σ × ι} {holds : σ → γ → Prop} {rel : ι → ι → Prop}
  {Made : σ → ι → Prop}

/-- After an answer the state remembers, the answers to come form a chain with it
exactly when the condition holds throughout. -/
theorem isChain_cons_series_iff
    (made : ∀ s last call, Made s last → Made (step s call).1 (step s call).2)
    (next : ∀ s last call, Made s last → (rel last (step s call).2 ↔ holds s call)) :
    ∀ (calls : List γ) (s : σ) (last : ι), Made s last →
      ((last :: series step s calls).IsChain rel ↔ Throughout step holds s calls)
  | [], _, _, _ => by simp [series, Throughout]
  | call :: calls, s, last, remembered => by
    have rest := isChain_cons_series_iff made next calls _ _ (made s last call remembered)
    rw [series, List.isChain_cons_cons, Throughout, next s last call remembered, rest]

/-- A run from a state that remembers no answer yet. -/
theorem isChain_series_iff
    (made : ∀ s last call, Made s last → Made (step s call).1 (step s call).2)
    (next : ∀ s last call, Made s last → (rel last (step s call).2 ↔ holds s call))
    {s : σ} (first : ∀ call, Made (step s call).1 (step s call).2 ∧ holds s call)
    (calls : List γ) :
    (series step s calls).IsChain rel ↔ Throughout step holds s calls := by
  cases calls with
  | nil => simp [series, Throughout]
  | cons call calls =>
    have rest := isChain_cons_series_iff made next calls _ _ (first call).1
    rw [series, rest]
    exact ⟨fun later => ⟨(first call).2, later⟩, fun all => all.2⟩

end

section

variable {α : Type*}

/-- Two texts that start with parts of one length are ordered by those parts, and
by what follows when the parts are equal. -/
theorem append_lt_append_iff [LinearOrder α] :
    ∀ {left left' : List α}, left.length = left'.length → ∀ right right' : List α,
      (left ++ right < left' ++ right' ↔ left < left' ∨ left = left' ∧ right < right')
  | [], [], _, _, _ => by simp
  | a :: left, b :: left', same, right, right' => by
    have rest := append_lt_append_iff (Nat.succ_injective same) right right'
    simp only [List.cons_append, List.cons_lt_cons_iff, rest, List.cons.injEq]
    grind

variable {base : ℕ} [NeZero base] {letter : Fin base → α}

/-- `value` in `width` letters, the last one its remainder. -/
def written (letter : Fin base → α) : ℕ → ℕ → List α
  | _, 0 => []
  | value, width + 1 => written letter (value / base) width ++ [letter (Fin.ofNat base value)]

@[simp] theorem length_written (letter : Fin base → α) (value width : ℕ) :
    (written letter value width).length = width := by
  induction width generalizing value with
  | zero => rfl
  | succ width ih => simp [written, ih]

omit [NeZero base] in
theorem div_lt_of_lt_pow_succ {value width : ℕ} (fits : value < base ^ (width + 1)) :
    value / base < base ^ width :=
  Nat.div_lt_of_lt_mul (by rwa [pow_succ'] at fits)

theorem written_inj (apart : Function.Injective letter) {width : ℕ} :
    ∀ {value value' : ℕ}, value < base ^ width → value' < base ^ width →
      (written letter value width = written letter value' width ↔ value = value') := by
  induction width with
  | zero =>
    intro value value' fits fits'
    rw [pow_zero, Nat.lt_one_iff] at fits fits'
    simp [written, fits, fits']
  | succ width ih =>
    intro value value' fits fits'
    refine ⟨fun same => ?_, fun same => by rw [same]⟩
    obtain ⟨front, back⟩ := List.append_inj' same rfl
    have quotient := (ih (div_lt_of_lt_pow_succ fits) (div_lt_of_lt_pow_succ fits')).1 front
    have remainder : value % base = value' % base := by
      simpa [Fin.ofNat] using apart (List.singleton_inj.1 back)
    rw [← Nat.div_add_mod value base, ← Nat.div_add_mod value' base, quotient, remainder]

theorem written_lt_iff [LinearOrder α] (rising : StrictMono letter) {width : ℕ} :
    ∀ {value value' : ℕ}, value < base ^ width → value' < base ^ width →
      (written letter value width < written letter value' width ↔ value < value') := by
  induction width with
  | zero =>
    intro value value' fits fits'
    rw [pow_zero, Nat.lt_one_iff] at fits fits'
    simp [written, fits, fits']
  | succ width ih =>
    intro value value' fits fits'
    have quotient := div_lt_of_lt_pow_succ fits
    have quotient' := div_lt_of_lt_pow_succ fits'
    rw [written, written, append_lt_append_iff (by simp), ih quotient quotient',
      written_inj rising.injective quotient quotient', List.cons_lt_cons_iff,
      rising.lt_iff_lt]
    have positive : 0 < base := Nat.pos_of_neZero base
    have whole := Nat.div_add_mod value base
    have whole' := Nat.div_add_mod value' base
    have below := Nat.mod_lt value positive
    have below' := Nat.mod_lt value' positive
    simp only [Fin.lt_def, Fin.ofNat, List.not_lt_nil, and_false, or_false]
    constructor
    · rintro (less | ⟨same, less⟩)
      · exact lt_of_not_ge fun notLess => absurd (Nat.div_le_div_right notLess) (not_le.2 less)
      · rw [same] at whole
        omega
    · intro less
      rcases (Nat.div_le_div_right (c := base) less.le).lt_or_eq with fewer | same
      · exact Or.inl fewer
      · rw [same] at whole
        exact Or.inr ⟨same, by omega⟩

end

end DataViz
