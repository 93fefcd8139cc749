/-
# Counted slots of a node

A slot is a member of a sorted set, scored by the time it was taken. An attempt prunes
the members older than the stale period and takes a slot if fewer than the limit are
left. The key also has a life of its own, which only a taken slot renews: when it ends
every holder is forgotten, old or young.
-/

import DataViz.Data.Dict
import Mathlib.Data.List.Perm.Subperm
import Mathlib.Tactic.Linarith

namespace DataViz.Service

open List

variable {μ : Type*} [DecidableEq μ]

def slotKeyLife : ℚ := 600

structure SlotKey (μ : Type*) where
  holders : Dict μ ℚ := []
  expiry : ℚ := 0

namespace SlotKey

/-- The members there are: none once the key has expired. -/
def live (key : SlotKey μ) (now : ℚ) : Dict μ ℚ :=
  if now < key.expiry then key.holders else []

/-- `ZREMRANGEBYSCORE key 0 (now - stale)`. -/
def prune (holders : Dict μ ℚ) (now stale : ℚ) : Dict μ ℚ :=
  holders.filter fun holder => ¬(0 ≤ holder.2 ∧ holder.2 ≤ now - stale)

def takeSlotOnce (key : SlotKey μ) (limit : ℕ) (stale now : ℚ) (member : μ) : Bool × SlotKey μ :=
  let kept := prune (key.live now) now stale
  if kept.length < limit then (true, ⟨kept.set member now, now + slotKeyLife⟩)
  else (false, ⟨kept, key.expiry⟩)

def dropSlot (key : SlotKey μ) (member : μ) : SlotKey μ :=
  { key with holders := key.holders.pop member }

end SlotKey

inductive SlotCall (μ : Type*)
  | take (member : μ)
  | drop (member : μ)

/-- The key, and when each member took the slot that it has not dropped. -/
structure Slots (μ : Type*) where
  key : SlotKey μ := {}
  held : μ → Option ℚ := fun _ => none

namespace Slots

variable (limit : ℕ) (stale : ℚ)

def call (slots : Slots μ) (now : ℚ) : SlotCall μ → Slots μ
  | .take member =>
    let taken := slots.key.takeSlotOnce limit stale now member
    ⟨taken.2, if taken.1 then Function.update slots.held member (some now) else slots.held⟩
  | .drop member => ⟨slots.key.dropSlot member, Function.update slots.held member none⟩

/-- The slots after calls of any members at the times of one clock, each of which meets a
condition, and the time of the last. -/
inductive Run (meets : Slots μ → ℚ → SlotCall μ → Prop) : ℚ → Slots μ → Prop
  | start (now : ℚ) : Run meets now {}
  | call {last now : ℚ} {slots : Slots μ} (run : Run meets last slots) (later : last ≤ now)
      (made : SlotCall μ) (met : meets slots now made) :
      Run meets now (slots.call limit stale now made)

/-- A member holds a slot that it took less than the stale period ago. -/
def Young (slots : Slots μ) (now : ℚ) (member : μ) : Prop :=
  ∃ taken, slots.held member = some taken ∧ now < taken + stale

/-- Where the key's own life has ended, no other member holds a young slot. -/
def Lives (slots : Slots μ) (now : ℚ) : SlotCall μ → Prop
  | .take member => now < slots.key.expiry ∨ ∀ other, other ≠ member → ¬slots.Young stale now other
  | .drop _ => True

/-- Never more members than the limit hold a young slot, and a member's young slot stays
in the set when another attempts to take one. -/
structure Admits (slots : Slots μ) (last : ℚ) : Prop where
  within : ∀ now, last ≤ now → ∀ members : List μ, members.Nodup →
    (∀ member ∈ members, slots.Young stale now member) → members.length ≤ limit
  keeps : ∀ now, last ≤ now → ∀ member, slots.Lives stale now (.take member) →
    ∀ other, other ≠ member → slots.Young stale now other →
      ((slots.key.takeSlotOnce limit stale now member).2.holders.get? other) = slots.held other

variable {limit stale} {slots : Slots μ} {key : SlotKey μ} {now last : ℚ} {member : μ}

/-- The set is no larger than the limit, and holds every young slot. -/
structure Sound (limit : ℕ) (stale : ℚ) (slots : Slots μ) (last : ℚ) : Prop where
  nodup : slots.key.holders.keys.Nodup
  size : slots.key.holders.length ≤ limit
  placed : ∀ member taken, slots.held member = some taken → last < taken + stale →
    slots.key.holders.get? member = some taken

omit [DecidableEq μ] in
theorem nodup_prune {holders : Dict μ ℚ} (nodup : holders.keys.Nodup) :
    (SlotKey.prune holders now stale).keys.Nodup :=
  nodup.sublist ((filter_sublist).map _)

theorem get?_prune {holders : Dict μ ℚ} {taken : ℚ} (nodup : holders.keys.Nodup)
    (holds : holders.get? member = some taken) (young : now < taken + stale) :
    (SlotKey.prune holders now stale).get? member = some taken := by
  apply Dict.get?_of_mem (nodup_prune nodup)
  apply mem_filter.mpr ⟨Dict.mem_of_get? holds, _⟩
  have : ¬ taken ≤ now - stale := by linarith
  simp [this]

theorem length_set_le (holders : Dict μ ℚ) :
    (holders.set member now).length ≤ holders.length + 1 := by
  induction holders with
  | nil => simp [Dict.set]
  | cons holder rest ih =>
    rw [Dict.set]
    split <;> simp [ih]

namespace Sound

theorem kept (sound : Sound limit stale slots last) (later : last ≤ now) {taken : ℚ}
    (holds : slots.held member = some taken) (young : now < taken + stale)
    (alive : now < slots.key.expiry) :
    (SlotKey.prune (slots.key.live now) now stale).get? member = some taken := by
  rw [SlotKey.live, if_pos alive]
  exact get?_prune sound.nodup (sound.placed _ _ holds (by linarith)) young

theorem live_length (sound : Sound limit stale slots last) :
    (SlotKey.prune (slots.key.live now) now stale).length ≤ limit := by
  apply (length_filter_le _ _).trans
  rw [SlotKey.live]
  split
  · exact sound.size
  · exact Nat.zero_le _

theorem live_nodup (sound : Sound limit stale slots last) :
    (SlotKey.prune (slots.key.live now) now stale).keys.Nodup := by
  apply nodup_prune
  rw [SlotKey.live]
  split
  · exact sound.nodup
  · exact nodup_nil

theorem keeps (sound : Sound limit stale slots last) (later : last ≤ now)
    (lives : slots.Lives stale now (.take member)) {other : μ} (ne : other ≠ member) {taken : ℚ}
    (holds : slots.held other = some taken) (young : now < taken + stale) :
    (slots.key.takeSlotOnce limit stale now member).2.holders.get? other = some taken := by
  have alive : now < slots.key.expiry :=
    lives.resolve_right fun none => none other ne ⟨taken, holds, young⟩
  have placed := sound.kept later holds young alive
  rw [SlotKey.takeSlotOnce]
  split
  · exact (Dict.get?_set_ne ne.symm _ _).trans placed
  · exact placed

theorem take (sound : Sound limit stale slots last) (later : last ≤ now)
    (lives : slots.Lives stale now (.take member)) :
    Sound limit stale (slots.call limit stale now (.take member)) now := by
  have others := fun other (ne : other ≠ member) taken (holds : slots.held other = some taken) =>
    sound.keeps later lives ne holds
  rw [call]
  rw [SlotKey.takeSlotOnce] at others ⊢
  split at others
  next free =>
    rw [if_pos free]
    refine ⟨Dict.nodup_keys_set sound.live_nodup _ _, (length_set_le _).trans free, ?_⟩
    intro other taken holds young
    by_cases same : other = member
    · subst same
      change Function.update slots.held other (some now) other = some taken at holds
      rw [Function.update_self] at holds
      exact (Dict.get?_set_self _ _ _).trans holds
    · change Function.update slots.held member (some now) other = some taken at holds
      rw [Function.update_of_ne same] at holds
      exact others other same taken holds young
  next full =>
    rw [if_neg full]
    refine ⟨sound.live_nodup, sound.live_length, ?_⟩
    intro other taken holds young
    by_cases same : other = member
    · -- The slot of a member that asks again and is refused: the set is full, so it is there.
      have placed := sound.placed _ _ holds (by linarith)
      by_cases alive : now < slots.key.expiry
      · exact sound.kept later holds young alive
      · rw [SlotKey.live, if_neg alive] at full
        have none := eq_nil_of_length_eq_zero
          (Nat.le_zero.mp (sound.size.trans (Nat.not_lt.mp full)))
        rw [none] at placed
        cases placed
    · exact others other same taken holds young

theorem drop (sound : Sound limit stale slots last) (later : last ≤ now) :
    Sound limit stale (slots.call limit stale now (.drop member)) now where
  nodup := sound.nodup.sublist ((List.filter_sublist).map _)
  size := (List.length_filter_le _ _).trans sound.size
  placed other taken holds young := by
    change Function.update slots.held member none other = some taken at holds
    by_cases same : other = member
    · rw [same, Function.update_self] at holds
      cases holds
    · rw [Function.update_of_ne same] at holds
      change (slots.key.holders.pop member).get? other = some taken
      rw [Dict.get?_pop, if_neg (Ne.symm same)]
      exact sound.placed _ _ holds (by linarith)

theorem of_run (run : Run limit stale (Lives stale) last slots) : Sound limit stale slots last := by
  induction run with
  | start => exact ⟨nodup_nil, Nat.zero_le _, nofun⟩
  | call run later made met sound =>
    cases made with
    | take member => exact sound.take later met
    | drop member => exact sound.drop later

end Sound

/-- In every run whose attempts find no young slot of another in a key whose own life has
ended, at most the limit of members hold a young slot at any moment, and an attempt
leaves the young slots of the others in the set. -/
theorem run_admits (run : Run limit stale (Lives stale) last slots) :
    slots.Admits limit stale last := by
  have sound := Sound.of_run run
  constructor
  · intro now later members nodup young
    have inside : members ⊆ slots.key.holders.keys := fun member mem => by
      obtain ⟨taken, holds, late⟩ := young member mem
      exact mem_map_of_mem (Dict.mem_of_get? (sound.placed _ _ holds (by linarith)))
    have fewer := (subperm_of_subset nodup inside).length_le
    exact (fewer.trans_eq (length_map _)).trans sound.size
  · intro now later member lives other ne young
    obtain ⟨taken, holds, late⟩ := young
    exact (sound.keeps later lives ne holds late).trans holds.symm

/-- One slot, taken by the first member and refused to the second. -/
def oneRefused (stale : ℚ) : Slots String :=
  (({} : Slots String).call 1 stale 0 (.take "a")).call 1 stale 100 (.take "b")

theorem run_admits_one : (oneRefused 660).held "b" = none ∧ (oneRefused 660).Admits 1 660 100 :=
  ⟨by decide +kernel, run_admits (.call (.call (.start 0) le_rfl (.take "a") (.inr nofun))
    (by norm_num) (.take "b") (.inl (by decide +kernel)))⟩

/-- A slot is forgotten with the key after 600 seconds, and at 630 one more member is admitted,
while it is young for 30 more. -/
theorem expired_not_admits : ¬ ∀ (limit : ℕ) (stale last : ℚ) (slots : Slots String),
    Run limit stale (fun _ _ _ => True) last slots → slots.Admits limit stale last := by
  intro all
  have run : Run 1 660 (fun _ _ _ => True) 630
      ((({} : Slots String).call 1 660 0 (.take "a")).call 1 660 630 (.take "b")) :=
    .call (.call (.start 0) le_rfl (.take "a") trivial) (by norm_num) (.take "b") trivial
  have two := (all 1 660 630 _ run).within 630 le_rfl ["a", "b"] (by decide) fun member mem => by
    simp only [mem_cons, not_mem_nil, or_false] at mem
    rcases mem with rfl | rfl
    · exact ⟨0, by decide +kernel, by norm_num⟩
    · exact ⟨630, by decide +kernel, by norm_num⟩
  exact absurd two (by decide)

theorem Run.score_le {meets : Slots μ → ℚ → SlotCall μ → Prop}
    (run : Run limit stale meets last slots) :
    ∀ holder ∈ slots.key.holders, holder.2 + slotKeyLife ≤ slots.key.expiry ∧ holder.2 ≤ last := by
  induction run with
  | start => exact nofun
  | @call last now slots run later made met ih =>
    cases made with
    | take member =>
      have kept : ∀ holder ∈ SlotKey.prune (slots.key.live now) now stale,
          holder.2 + slotKeyLife ≤ slots.key.expiry ∧ holder.2 ≤ now := by
        intro holder mem
        have mem := mem_of_mem_filter mem
        rw [SlotKey.live] at mem
        split at mem
        · exact ⟨(ih holder mem).1, (ih holder mem).2.trans later⟩
        · cases mem
      intro holder mem
      change holder ∈ (slots.key.takeSlotOnce limit stale now member).2.holders at mem
      change _ ≤ (slots.key.takeSlotOnce limit stale now member).2.expiry ∧ _
      rw [SlotKey.takeSlotOnce] at mem ⊢
      split at mem
      next free =>
        rw [if_pos free]
        rcases Dict.eq_or_mem_of_mem_set mem with rfl | old
        · exact ⟨le_rfl, le_rfl⟩
        · exact ⟨add_le_add_left (kept holder old).2 _, (kept holder old).2⟩
      next full =>
        rw [if_neg full]
        exact kept holder mem
    | drop member =>
      intro holder mem
      have old := ih holder (mem_of_mem_filter mem)
      exact ⟨old.1, old.2.trans later⟩

theorem Run.lives_of_stale_le {meets : Slots μ → ℚ → SlotCall μ → Prop}
    (short : stale ≤ slotKeyLife) (run : Run limit stale meets last slots) :
    Run limit stale (Lives stale) last slots := by
  induction run with
  | start now => exact .start now
  | @call last now slots run later made met ih =>
    refine .call ih later made ?_
    cases made with
    | take member =>
      by_cases alone : ∀ other, other ≠ member → ¬slots.Young stale now other
      · exact .inr alone
      · left
        push Not at alone
        obtain ⟨other, -, taken, holds, young⟩ := alone
        have placed := (Sound.of_run ih).placed other taken holds (by linarith)
        have score := (run.score_le _ (Dict.mem_of_get? placed)).1
        linarith
    | drop member => trivial

/-- Where the stale period is no longer than the key's life, nobody's young slot is ever lost,
whatever calls are made when: at any moment the set holds it, and no more members than the
limit. -/
theorem young_live {meets : Slots μ → ℚ → SlotCall μ → Prop} (short : stale ≤ slotKeyLife)
    (run : Run limit stale meets last slots) (later : last ≤ now) :
    (slots.key.live now).length ≤ limit ∧ ∀ member, slots.Young stale now member →
        (slots.key.live now).get? member = slots.held member := by
  have sound := Sound.of_run (run.lives_of_stale_le short)
  constructor
  · rw [SlotKey.live]
    split
    · exact sound.size
    · exact Nat.zero_le _
  · rintro member ⟨taken, holds, young⟩
    have placed := sound.placed member taken holds (by linarith)
    have score := (run.score_le _ (Dict.mem_of_get? placed)).1
    rw [SlotKey.live, if_pos (by linarith), placed, holds]

/-- A member's slot of 600 seconds, 599 seconds later, after another member was refused. -/
theorem young_live_one : (oneRefused 600).held "b" = none ∧
    ((oneRefused 600).key.live 599).get? "a" = some 0 :=
  have run : Run 1 600 (fun _ _ _ => True) 100 (oneRefused 600) :=
    .call (.call (.start 0) le_rfl (.take "a") trivial) (by norm_num) (.take "b") trivial
  have young : Young 600 _ 599 "a" := ⟨0, by decide +kernel, by norm_num⟩
  ⟨by decide +kernel, ((young_live le_rfl run (by norm_num)).2 "a" young).trans (by decide +kernel)⟩

end Slots
end DataViz.Service
