/-
# Computations whose calls can fail

A computation that works on a store through calls sees each of them complete, or
fail with some of its changes landed and the rest lost. A failure ends the attempt
and leaves the store as it stands, so the next attempt starts from there.
-/

import Mathlib.Data.List.Basic

namespace DataViz

/-- How a call goes: it completes, or it fails with only some of its changes landed. -/
inductive Outcome (δ : Type)
  | completes
  | fails (landed : δ → Bool)

/-- The store, the changes that landed on it since the attempt began, newest first,
and how the coming calls go. A call past the script's end completes. -/
structure World (σ : Type) (δ : Type) where
  store : σ
  changes : List δ
  script : List (Outcome δ)

/-- A computation over a store that a failing call ends. -/
abbrev Attempt (σ : Type) (δ : Type) := EStateM Unit (World σ δ)

variable {σ δ α β : Type} (apply : σ → δ → σ)

def World.land (w : World σ δ) (changes : List δ) : World σ δ :=
  { w with
    store := changes.foldl apply w.store
    changes := changes.reverse ++ w.changes }

namespace Attempt

/-- A call: what it changes and what it answers are told by the store it meets. -/
def call (changes : σ → List δ) (reply : σ → α) : Attempt σ δ α := fun w =>
  let next := { w with script := w.script.tail }
  match w.script.headD .completes with
  | .completes => .ok (reply w.store) (next.land apply (changes w.store))
  | .fails landed => .error () (next.land apply ((changes w.store).filter landed))

/-- An attempt begun again, on the store its last failure left, until it succeeds;
`spared` is what the failures are like. -/
inductive Repeated (m : Attempt σ δ α) (spared : σ → List δ → Prop) : σ → σ → Prop
  | succeeds {s : σ} {script : List (Outcome δ)} {a : α} {w : World σ δ}
      (ran : m ⟨s, [], script⟩ = .ok a w) : Repeated m spared s w.store
  | fails {s t : σ} {script : List (Outcome δ)} {w : World σ δ}
      (ran : m ⟨s, [], script⟩ = .error () w) (allowed : spared w.store w.changes)
      (again : Repeated m spared w.store t) : Repeated m spared s t

/-- From `P`, the attempt returns in `Q` or fails in `E`, each told by the store and
by what landed on it. -/
def Holds (P : σ → List δ → Prop) (m : Attempt σ δ α) (Q : α → σ → List δ → Prop)
    (E : σ → List δ → Prop) : Prop :=
  ∀ w, P w.store w.changes → match m w with
    | .ok a w' => Q a w'.store w'.changes
    | .error _ w' => E w'.store w'.changes

variable {P E : σ → List δ → Prop} {Q : α → σ → List δ → Prop}

theorem Holds.pure {a : α} (holds : ∀ s log, P s log → Q a s log) : Holds P (pure a) Q E :=
  fun w before => holds w.store w.changes before

variable {m : Attempt σ δ α}

theorem Holds.bind {f : α → Attempt σ δ β} {R : β → σ → List δ → Prop} (first : Holds P m Q E)
    (rest : ∀ a, Holds (Q a) (f a) R E) : Holds P (m >>= f) R E := by
  intro w before
  have between := first w before
  show match EStateM.bind m f w with
    | .ok b w' => R b w'.store w'.changes
    | .error _ w' => E w'.store w'.changes
  unfold EStateM.bind
  cases ran : m w with
  | ok a w' =>
    rw [ran] at between
    exact rest a w' between
  | error e w' =>
    rw [ran] at between
    exact between

theorem Holds.weaken {P' : σ → List δ → Prop} (holds : Holds P m Q E)
    (stronger : ∀ s log, P' s log → P s log) : Holds P' m Q E :=
  fun w before => holds w (stronger w.store w.changes before)

theorem Holds.returns {Q' : α → σ → List δ → Prop} (holds : Holds P m Q E)
    (weaker : ∀ a s log, Q a s log → Q' a s log) : Holds P m Q' E := by
  intro w before
  have after := holds w before
  cases ran : m w with
  | ok a w' =>
    rw [ran] at after
    exact weaker a w'.store w'.changes after
  | error e w' =>
    rw [ran] at after
    exact after

theorem Holds.fails {E' : σ → List δ → Prop} (holds : Holds P m Q E)
    (weaker : ∀ s log, E s log → E' s log) : Holds P m Q E' := by
  intro w before
  have after := holds w before
  cases ran : m w with
  | ok a w' =>
    rw [ran] at after
    exact after
  | error e w' =>
    rw [ran] at after
    exact weaker w'.store w'.changes after

theorem Holds.call {changes : σ → List δ} {reply : σ → α} (completes : ∀ s log, P s log →
      Q (reply s) ((changes s).foldl apply s) ((changes s).reverse ++ log))
    (fails : ∀ s log landed, P s log → E (((changes s).filter landed).foldl apply s)
        (((changes s).filter landed).reverse ++ log)) :
    Holds P (call apply changes reply) Q E := by
  intro w before
  unfold Attempt.call
  cases w.script.headD .completes with
  | completes => exact completes w.store w.changes before
  | fails landed => exact fails w.store w.changes landed before

/-- A call that changes nothing answers from the store it meets. -/
theorem Holds.read {reply : σ → α} (fails : ∀ s log, P s log → E s log) :
    Holds P (Attempt.call apply (fun _ => []) reply) (fun a s log => a = reply s ∧ P s log) E :=
  .call apply (fun _ _ before => ⟨rfl, before⟩) fun s log _ before => fails s log before

/-- What failures keep and a success turns into `goal` holds once the repetition ends. -/
theorem Repeated.reaches {spared : σ → List δ → Prop} {kept goal : σ → Prop}
    (holds : Holds (fun s log => kept s ∧ log = []) m (fun _ s _ => goal s)
      fun s log => spared s log → kept s)
    {s t : σ} (run : Repeated m spared s t) (first : kept s) : goal t := by
  induction run with
  | @succeeds s script a w ran =>
    have reached := holds ⟨s, [], script⟩ ⟨first, rfl⟩
    rwa [ran] at reached
  | @fails s t script w ran allowed _ ih =>
    have reached := holds ⟨s, [], script⟩ ⟨first, rfl⟩
    rw [ran] at reached
    exact ih (reached allowed)

end Attempt

end DataViz
