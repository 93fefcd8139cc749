/-
# Keys that expire

A store of values with an expiry each, and the conditional commands that make leases of it: set a
key that is free, and extend, replace or delete a key that still holds a given value. A command is
atomic, and it sees an entry until the entry's expiry.

An entry that has not expired survives all of them but those that name its value.
-/

import Mathlib.Data.Int.Notation
import Mathlib.Data.Nat.Notation
import Mathlib.Logic.Function.Basic

namespace DataViz

universe u v

structure Expiring (ν : Type v) where
  value : ν
  expiry : ℕ
  deriving DecidableEq

abbrev ExpiringKeys (κ : Type u) (ν : Type v) := κ → Option (Expiring ν)

namespace ExpiringKeys

variable {κ : Type u} {ν : Type v} (keys : ExpiringKeys κ ν) (now : ℕ)

def live (key : κ) : Option ν :=
  match keys key with
  | some entry => if now < entry.expiry then some entry.value else none
  | none => none

/-- How long a key has to live, and less than zero if it is free. -/
def remaining (key : κ) : ℤ :=
  match keys key with
  | some entry => if now < entry.expiry then entry.expiry - now else -2
  | none => -2

section

variable {keys now} {key : κ} {value : ν} {entry : Expiring ν}

theorem live_of_entry (holds : keys key = some entry) (young : now < entry.expiry) :
    keys.live now key = some entry.value := by
  unfold live
  rw [holds]
  exact if_pos young

theorem entry_of_live (holds : keys.live now key = some value) :
    ∃ entry, keys key = some entry ∧ entry.value = value ∧ now < entry.expiry := by
  unfold live at holds
  split at holds
  next entry here =>
    split at holds
    next young => exact ⟨entry, here, Option.some.inj holds, young⟩
    next => cases holds
  next => cases holds

end

variable [DecidableEq κ]

def setNx (key : κ) (value : ν) (life : ℕ) : ExpiringKeys κ ν × Bool :=
  match keys.live now key with
  | none => (Function.update keys key (some ⟨value, now + life⟩), true)
  | some _ => (keys, false)

variable [DecidableEq ν]

def replaceIf (key : κ) (expected value : ν) (life : ℕ) : ExpiringKeys κ ν × Bool :=
  if keys.live now key = some expected then
    (Function.update keys key (some ⟨value, now + life⟩), true)
  else (keys, false)

def extendIf (key : κ) (expected : ν) (life : ℕ) : ExpiringKeys κ ν × Bool :=
  keys.replaceIf now key expected expected life

def deleteIf (key : κ) (expected : ν) : ExpiringKeys κ ν × Bool :=
  if keys.live now key = some expected then (Function.update keys key none, true)
  else (keys, false)

section

variable {keys now} {key other : κ} {value expected : ν} {life : ℕ} {entry : Expiring ν}

omit [DecidableEq ν] in
theorem setNx_keeps (holds : keys key = some entry) (young : now < entry.expiry) :
    (keys.setNx now other value life).1 key = some entry := by
  unfold setNx
  split
  next free =>
    have apart : key ≠ other := by
      rintro rfl
      rw [live_of_entry holds young] at free
      cases free
    exact (Function.update_of_ne apart _ _).trans holds
  next => exact holds

theorem replaceIf_keeps (holds : keys key = some entry) (ne : entry.value ≠ expected) :
    (keys.replaceIf now other expected value life).1 key = some entry := by
  unfold replaceIf
  split
  next same =>
    have apart : key ≠ other := by
      rintro rfl
      obtain ⟨found, here, value, -⟩ := entry_of_live same
      rw [holds] at here
      cases here
      exact ne value
    exact (Function.update_of_ne apart _ _).trans holds
  next => exact holds

theorem replaceIf_refused (refused : (keys.replaceIf now key expected value life).2 = false) :
    (keys.replaceIf now key expected value life).1 = keys := by
  unfold replaceIf at refused ⊢
  split at refused
  next => cases refused
  next other => rw [if_neg other]

theorem deleteIf_refused (refused : (keys.deleteIf now key expected).2 = false) :
    (keys.deleteIf now key expected).1 = keys := by
  unfold deleteIf at refused ⊢
  split at refused
  next => cases refused
  next other => rw [if_neg other]

theorem deleteIf_keeps (holds : keys key = some entry) (ne : entry.value ≠ expected) :
    (keys.deleteIf now other expected).1 key = some entry := by
  unfold deleteIf
  split
  next same =>
    have apart : key ≠ other := by
      rintro rfl
      obtain ⟨found, here, value, -⟩ := entry_of_live same
      rw [holds] at here
      cases here
      exact ne value
    exact (Function.update_of_ne apart _ _).trans holds
  next => exact holds

/-- To extend a value changes no value, and no entry expires earlier for it, if no entry was to
live longer than a new one. -/
theorem extendIf_keeps (holds : keys key = some entry) :
    (keys.extendIf now other expected life).1 key = some entry ∨ (now < entry.expiry ∧
        (keys.extendIf now other expected life).1 key = some ⟨entry.value, now + life⟩) := by
  unfold extendIf replaceIf
  split
  next same =>
    by_cases apart : key = other
    · subst apart
      obtain ⟨found, here, rfl, young⟩ := entry_of_live same
      rw [holds] at here
      cases here
      exact .inr ⟨young, Function.update_self _ _ _⟩
    · exact .inl ((Function.update_of_ne apart _ _).trans holds)
  next => exact .inl holds

omit [DecidableEq ν] in
theorem setNx_set (set : (keys.setNx now key value life).2 = true) : keys.live now key = none ∧
      (keys.setNx now key value life).1 key = some ⟨value, now + life⟩ := by
  unfold setNx at set ⊢
  split at set
  next free => exact ⟨free, Function.update_self _ _ _⟩
  next => cases set

theorem replaceIf_replaced (replaced : (keys.replaceIf now key expected value life).2 = true) :
    keys.live now key = some expected ∧
      (keys.replaceIf now key expected value life).1 key = some ⟨value, now + life⟩ := by
  unfold replaceIf at replaced ⊢
  split at replaced
  next same =>
    rw [if_pos same]
    exact ⟨same, Function.update_self _ _ _⟩
  next => cases replaced

end

end ExpiringKeys

end DataViz
