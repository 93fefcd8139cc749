/-
# What the queue of tasks keeps

As many tasks run as the queue counts, and no more than its limit; they start in the order of their
submission, and while some wait the limit is reached. A promise is registered only after its task
may have started: a task that throws at once leaves its key registered, and one that submits its own
key starts a second task. Without such steps a key is registered exactly as long as its task is not
done.
-/

import DataViz.Canvas.BoundedQueue

namespace DataViz.Canvas

open List Option

variable {queue : BoundedQueue} {state : QueueState} {entry task : QueueEntry} {key : String}
  {rest : List QueueEntry} {held : List QueueEntry} {stack : List Frame}
  {registers : Option QueueEntry}

namespace BoundedQueue

/-- The count of a queue is that of its tasks, and submissions are in order. -/
structure Counts (queue : BoundedQueue) : Prop where
  limit : 1 ≤ queue.limit
  active : queue.active = queue.running.length
  within : queue.active ≤ queue.limit
  order : (queue.started ++ queue.pending).Pairwise fun first second => first.id < second.id
  fresh : ∀ entry ∈ queue.started ++ queue.pending, entry.id < queue.submitted
  began : ∀ entry ∈ queue.running, entry ∈ queue.started
  once : queue.running.Nodup

/-- Entries wait only where the limit is reached. -/
def Tight (queue : BoundedQueue) : Prop :=
  queue.pending = [] ∨ queue.active = queue.limit

/-- Once the next entry has started, entries wait only where the limit is reached. -/
def NearlyTight (queue : BoundedQueue) : Prop :=
  ∀ task rest, queue.next? = some (task, rest) → rest = [] ∨ queue.active + 1 = queue.limit

theorem next?_eq_some : queue.next? = some (task, rest) ↔
    queue.pending = task :: rest ∧ queue.active < queue.limit := by
  unfold next?
  split
  · next entry others pending =>
      rw [pending]
      by_cases room : queue.active < queue.limit
      · simp [room]
      · simp [room]
  · next pending => simp [pending]

theorem Tight.next? (tight : queue.Tight) : queue.next? = none := by
  rw [eq_none_iff_forall_ne_some]
  rintro ⟨task, rest⟩ next
  obtain ⟨pending, room⟩ := next?_eq_some.mp next
  rcases tight with idle | full
  · rw [idle] at pending
    cases pending
  · omega

theorem Counts.tight (counts : queue.Counts) (idle : queue.next? = none) : queue.Tight := by
  cases pending : queue.pending with
  | nil => exact .inl pending
  | cons task rest =>
    right
    by_contra room
    have less : queue.active < queue.limit := lt_of_le_of_ne counts.within room
    rw [next?_eq_some.mpr ⟨pending, less⟩] at idle
    cases idle

theorem Counts.new (limit : ℤ) : (new limit).Counts where
  limit := le_max_left 1 limit
  active := rfl
  within := le_trans zero_le_one (le_max_left 1 limit)
  order := .nil
  fresh := nofun
  began := nofun
  once := .nil

theorem Counts.notMem_started (counts : queue.Counts) (waits : entry ∈ queue.pending) :
    entry ∉ queue.started := by
  intro began
  have before := (pairwise_append.mp counts.order).2.2 entry began entry waits
  omega

theorem Counts.enqueue (counts : queue.Counts) (key : String) : (queue.enqueue key).Counts where
  limit := counts.limit
  active := counts.active
  within := counts.within
  order := by
    change (queue.started ++ (queue.pending ++ [queue.entryOf key])).Pairwise _
    rw [← append_assoc, pairwise_append]
    refine ⟨counts.order, pairwise_singleton _ _, fun entry mem other mem' => ?_⟩
    rw [mem_singleton.mp mem']
    exact counts.fresh entry mem
  fresh := by
    intro entry mem
    change entry ∈ queue.started ++ (queue.pending ++ [queue.entryOf key]) at mem
    rw [← append_assoc, mem_append, mem_singleton] at mem
    rcases mem with mem | rfl
    · exact (counts.fresh entry mem).trans (Nat.lt_succ_self _)
    · exact Nat.lt_succ_self _
  began := counts.began
  once := counts.once

theorem Counts.start (counts : queue.Counts) (next : queue.next? = some (task, rest)) :
    (queue.start task rest).Counts := by
  obtain ⟨pending, room⟩ := next?_eq_some.mp next
  have fresh : task ∉ queue.started :=
    counts.notMem_started (pending ▸ mem_cons_self)
  have all : queue.started ++ [task] ++ rest = queue.started ++ queue.pending := by
    rw [pending, append_assoc, singleton_append]
  constructor
  · exact counts.limit
  · change queue.active + 1 = ((task :: queue.running).length : ℤ)
    rw [counts.active]
    rfl
  · change queue.active + 1 ≤ queue.limit
    omega
  · change (queue.started ++ [task] ++ rest).Pairwise _
    rw [all]
    exact counts.order
  · change ∀ entry ∈ queue.started ++ [task] ++ rest, _
    rw [all]
    exact counts.fresh
  · intro entry runs
    rcases mem_cons.mp runs with rfl | runs
    · exact mem_append_right _ mem_cons_self
    · exact mem_append_left _ (counts.began entry runs)
  · exact nodup_cons.mpr ⟨fun runs => fresh (counts.began task runs), counts.once⟩

theorem Counts.settle (counts : queue.Counts) (runs : entry ∈ queue.running) :
    (queue.settle entry).Counts where
  limit := counts.limit
  active := by
    change queue.active - 1 = ((queue.running.erase entry).length : ℤ)
    have pos := length_pos_of_mem runs
    rw [length_erase_of_mem runs, counts.active]
    omega
  within := by
    change queue.active - 1 ≤ queue.limit
    have within := counts.within
    omega
  order := counts.order
  fresh := counts.fresh
  began other runs := counts.began other (mem_of_mem_erase runs)
  once := counts.once.erase entry

/-- After a task has ended one entry may start. -/
theorem Tight.settle (tight : queue.Tight) (entry : QueueEntry) :
    (queue.settle entry).NearlyTight := by
  intro task rest next
  obtain ⟨pending, -⟩ := next?_eq_some.mp next
  change queue.pending = task :: rest at pending
  right
  change queue.active - 1 + 1 = queue.limit
  rcases tight with idle | full
  · rw [idle] at pending
    cases pending
  · omega

/-- A submission is the only entry that may start with it. -/
theorem Tight.enqueue (tight : queue.Tight) (next : (queue.enqueue key).next? = some (task, rest)) :
    task = queue.entryOf key ∧ rest = [] := by
  obtain ⟨pending, room⟩ := next?_eq_some.mp next
  change queue.pending ++ [queue.entryOf key] = task :: rest at pending
  change queue.active < queue.limit at room
  rcases tight with idle | full
  · rw [idle] at pending
    cases pending
    exact ⟨rfl, rfl⟩
  · omega

structure Cancels (queue after : BoundedQueue) : Prop where
  limit : after.limit = queue.limit
  active : after.active = queue.active
  submitted : after.submitted = queue.submitted
  started : after.started = queue.started
  running : after.running = queue.running
  pending : after.pending.Sublist queue.pending

theorem Cancels.refl (queue : BoundedQueue) : queue.Cancels queue :=
  ⟨rfl, rfl, rfl, rfl, rfl, .refl _⟩

theorem cancels_cancel (queue : BoundedQueue) (key : String) :
    queue.Cancels (queue.cancel key) := by
  unfold cancel
  split
  · exact .refl queue
  · next entry _ =>
      by_cases began : entry ∈ queue.started
      · rw [if_pos began]
        exact ⟨rfl, rfl, rfl, rfl, rfl, .refl _⟩
      · rw [if_neg began]
        exact ⟨rfl, rfl, rfl, rfl, rfl, erase_sublist⟩

theorem Cancels.counts {after : BoundedQueue} (cancels : queue.Cancels after)
    (counts : queue.Counts) : after.Counts := by
  have fewer : (after.started ++ after.pending).Sublist (queue.started ++ queue.pending) := by
    rw [cancels.started]
    exact cancels.pending.append_left _
  constructor
  · rw [cancels.limit]
    exact counts.limit
  · rw [cancels.active, cancels.running]
    exact counts.active
  · rw [cancels.active, cancels.limit]
    exact counts.within
  · exact counts.order.sublist fewer
  · intro entry mem
    rw [cancels.submitted]
    exact counts.fresh entry (fewer.subset mem)
  · rw [cancels.running, cancels.started]
    exact counts.began
  · rw [cancels.running]
    exact counts.once

theorem Cancels.tight {after : BoundedQueue} (cancels : queue.Cancels after)
    (tight : queue.Tight) : after.Tight := by
  rw [Tight, cancels.active, cancels.limit]
  apply tight.imp_left
  intro idle
  have fewer := cancels.pending
  rw [idle] at fewer
  exact sublist_nil.mp fewer

theorem Cancels.trans {after later : BoundedQueue} (first : queue.Cancels after)
    (second : after.Cancels later) : queue.Cancels later where
  limit := second.limit.trans first.limit
  active := second.active.trans first.active
  submitted := second.submitted.trans first.submitted
  started := second.started.trans first.started
  running := second.running.trans first.running
  pending := second.pending.trans first.pending

theorem cancels_foldl (keys : List String) (queue : BoundedQueue) :
    queue.Cancels (keys.foldl cancel queue) := by
  induction keys generalizing queue with
  | nil => exact .refl queue
  | cons key rest ih => exact (cancels_cancel queue key).trans (ih _)

/-- An entry is found by its key as long as it is not done, and its promise is registered, unless
its submission is under way. -/
structure Keyed (queue : BoundedQueue) (held : List QueueEntry) : Prop where
  keys : (queue.unfinished.map QueueEntry.key).Nodup
  entries : ∀ key entry, queue.entries.get? key = some entry ↔
    entry ∈ queue.unfinished ∧ entry.key = key
  inflight : ∀ key, queue.inflight.get? key =
    ((queue.entries.get? key).filter (· ∉ held)).map QueueEntry.id

theorem Keyed.new (limit : ℤ) : (new limit).Keyed [] where
  keys := .nil
  entries _ _ := ⟨nofun, nofun⟩
  inflight _ := rfl

/-- Entries of one key that are not done are one. -/
theorem Keyed.eq_of_key (keyed : queue.Keyed held) {other : QueueEntry}
    (mem : entry ∈ queue.unfinished) (mem' : other ∈ queue.unfinished)
    (same : entry.key = other.key) : entry = other :=
  inj_on_of_nodup_map keyed.keys mem mem' same

theorem Keyed.get?_eq_none (keyed : queue.Keyed held) :
    queue.entries.get? key = none ↔ ∀ entry ∈ queue.unfinished, entry.key ≠ key := by
  rw [eq_none_iff_forall_ne_some]
  constructor
  · intro none entry mem same
    exact none entry ((keyed.entries key entry).mpr ⟨mem, same⟩)
  · intro others entry found
    obtain ⟨mem, same⟩ := (keyed.entries key entry).mp found
    exact others entry mem same

theorem Keyed.enqueue (keyed : queue.Keyed held)
    (free : ∀ entry ∈ queue.unfinished, entry.key ≠ key) :
    (queue.enqueue key).Keyed (queue.entryOf key :: held) := by
  have all : (queue.enqueue key).unfinished = queue.unfinished ++ [queue.entryOf key] :=
    (append_assoc _ _ _).symm
  have unfound : queue.entries.get? key = none := keyed.get?_eq_none.mpr free
  constructor
  · rw [all, map_append, nodup_append]
    refine ⟨keyed.keys, nodup_singleton _, ?_⟩
    intro other named own named'
    obtain ⟨entry, mem, rfl⟩ := List.mem_map.mp named
    rw [mem_singleton.mp named']
    exact free entry mem
  · intro other entry
    change (queue.entries.set key (queue.entryOf key)).get? other = some entry ↔ _
    rw [Dict.get?_set, all, mem_append, mem_singleton]
    by_cases same : key = other
    · subst same
      rw [if_pos rfl]
      constructor
      · intro is
        cases is
        exact ⟨.inr rfl, rfl⟩
      · rintro ⟨mem | rfl, same⟩
        · exact absurd same (free entry mem)
        · rfl
    · rw [if_neg same, keyed.entries]
      constructor
      · rintro ⟨mem, is⟩
        exact ⟨.inl mem, is⟩
      · rintro ⟨mem | rfl, is⟩
        · exact ⟨mem, is⟩
        · exact absurd is same
  · intro other
    change queue.inflight.get? other =
      (((queue.entries.set key (queue.entryOf key)).get? other).filter _).map _
    rw [Dict.get?_set, keyed.inflight]
    by_cases same : key = other
    · subst same
      rw [if_pos rfl, unfound, filter_some, if_neg]
      · rfl
      · simp
    · rw [if_neg same]
      cases found : queue.entries.get? other with
      | none => rfl
      | some entry =>
        have different : entry ≠ queue.entryOf key := by
          rintro rfl
          exact same ((keyed.entries _ _).mp found).2
        simp only [filter_some, mem_cons, different, false_or]

theorem Keyed.register (keyed : queue.Keyed (entry :: held)) (mem : entry ∈ queue.unfinished)
    (other : entry ∉ held) : (queue.register entry).Keyed held where
  keys := keyed.keys
  entries := keyed.entries
  inflight key := by
    change (queue.inflight.set entry.key entry.id).get? key =
      ((queue.entries.get? key).filter _).map _
    rw [Dict.get?_set, keyed.inflight]
    by_cases same : entry.key = key
    · rw [if_pos same, (keyed.entries key entry).mpr ⟨mem, same⟩, filter_some,
        if_pos (decide_eq_true other)]
      rfl
    · rw [if_neg same]
      cases found : queue.entries.get? key with
      | none => rfl
      | some waits =>
        have different : waits ≠ entry := by
          rintro rfl
          exact same ((keyed.entries _ _).mp found).2
        simp only [filter_some, mem_cons, different, false_or]

theorem Keyed.start (keyed : queue.Keyed held) (next : queue.next? = some (task, rest)) :
    (queue.start task rest).Keyed held := by
  obtain ⟨pending, -⟩ := next?_eq_some.mp next
  have all : (queue.start task rest).unfinished.Perm queue.unfinished := by
    change (task :: (queue.running ++ rest)).Perm (queue.running ++ queue.pending)
    rw [pending]
    exact perm_middle.symm
  constructor
  · exact (all.map _).nodup_iff.mpr keyed.keys
  · intro key entry
    rw [all.mem_iff]
    exact keyed.entries key entry
  · exact keyed.inflight

/-- An entry that is done is not found, nor its promise. -/
theorem Keyed.remove (keyed : queue.Keyed held) {after : BoundedQueue}
    (mem : entry ∈ queue.unfinished) (all : after.unfinished.Perm (queue.unfinished.erase entry))
    (entries : after.entries = queue.entries.pop entry.key)
    (inflight : after.inflight = queue.inflight.pop entry.key) : after.Keyed held := by
  have once : queue.unfinished.Nodup := keyed.keys.of_map
  constructor
  · apply ((all.map QueueEntry.key).nodup_iff).mpr
    exact (erase_sublist.map QueueEntry.key).nodup keyed.keys
  · intro key other
    rw [all.mem_iff, once.mem_erase_iff, entries, Dict.get?_pop]
    by_cases same : entry.key = key
    · rw [if_pos same]
      constructor
      · nofun
      · rintro ⟨⟨different, mem'⟩, is⟩
        exact absurd (keyed.eq_of_key mem' mem (is.trans same.symm)) different
    · rw [if_neg same, keyed.entries]
      constructor
      · rintro ⟨mem', is⟩
        refine ⟨⟨?_, mem'⟩, is⟩
        rintro rfl
        exact same is
      · rintro ⟨⟨-, mem'⟩, is⟩
        exact ⟨mem', is⟩
  · intro key
    rw [entries, inflight, Dict.get?_pop, Dict.get?_pop, keyed.inflight]
    by_cases same : entry.key = key
    · rw [if_pos same, if_pos same]
      rfl
    · rw [if_neg same, if_neg same]

theorem Keyed.settle (keyed : queue.Keyed held) (runs : entry ∈ queue.running) :
    (queue.settle entry).Keyed held := by
  apply keyed.remove (mem_append_left _ runs) _ rfl rfl
  change (queue.running.erase entry ++ queue.pending).Perm _
  rw [unfinished, erase_append_left _ runs]

theorem Keyed.cancel (keyed : queue.Keyed held) (counts : queue.Counts) (key : String) :
    (queue.cancel key).Keyed held := by
  unfold BoundedQueue.cancel
  split
  · exact keyed
  · next entry found =>
      by_cases began : entry ∈ queue.started
      · rw [if_pos began]
        exact ⟨keyed.keys, keyed.entries, keyed.inflight⟩
      · rw [if_neg began]
        obtain ⟨mem, -⟩ := (keyed.entries key entry).mp found
        apply keyed.remove mem _ rfl rfl
        change (queue.running ++ queue.pending.erase entry).Perm _
        rw [unfinished, erase_append_right]
        exact fun runs => began (counts.began entry runs)

theorem Keyed.foldl_cancel (keys : List String) (keyed : queue.Keyed held)
    (counts : queue.Counts) : (keys.foldl BoundedQueue.cancel queue).Keyed held := by
  induction keys generalizing queue with
  | nil => exact keyed
  | cons key rest ih =>
    exact ih (keyed.cancel counts key) ((cancels_cancel queue key).counts counts)

end BoundedQueue

namespace QueueState

/-- Under a submission there is the task that called it; it has not ended. -/
def Calls (running : List QueueEntry) : Bool → List Frame → Prop
  | _, [] => True
  | submits, frame :: below =>
    (submits = true → frame.task ∈ running) ∧ Calls running frame.registers.isSome below

theorem Calls.mono {running more : List QueueEntry} (sub : running ⊆ more) {submits : Bool}
    (calls : Calls running submits stack) : Calls more submits stack := by
  induction stack generalizing submits with
  | nil => trivial
  | cons frame below ih => exact ⟨fun is => sub (calls.1 is), ih calls.2⟩

theorem Calls.erase {running : List QueueEntry} {submits : Bool}
    (calls : Calls running submits stack) (other : entry ∉ stack.map Frame.task) :
    Calls (running.erase entry) submits stack := by
  induction stack generalizing submits with
  | nil => trivial
  | cons frame below ih =>
    rw [map_cons, mem_cons, not_or] at other
    exact ⟨fun is => (mem_erase_of_ne (Ne.symm other.1)).mpr (calls.1 is), ih calls.2 other.2⟩

/-- What holds of a state when its next event is awaited. -/
structure Sound (state : QueueState) : Prop where
  counts : state.queue.Counts
  tight : state.queue.Tight
  calls : Calls state.queue.running true state.stack
  tasks : (state.stack.map Frame.task).Nodup
  began : ∀ frame ∈ state.stack, frame.task ∈ state.queue.started

theorem Sound.new (limit : ℤ) : Sound { queue := BoundedQueue.new limit } where
  counts := .new limit
  tight := .inl rfl
  calls := trivial
  tasks := .nil
  began := nofun

/-- Draining comes to such a state. -/
theorem sound_drain (counts : queue.Counts) (nearly : queue.NearlyTight)
    (calls : Calls queue.running registers.isSome stack) (tasks : (stack.map Frame.task).Nodup)
    (began : ∀ frame ∈ stack, frame.task ∈ queue.started) :
    Sound (drain queue registers stack) := by
  cases next : queue.next? with
  | some first =>
    obtain ⟨task, rest⟩ := first
    obtain ⟨pending, -⟩ := BoundedQueue.next?_eq_some.mp next
    have fresh : task ∉ queue.started :=
      counts.notMem_started (pending ▸ mem_cons_self)
    unfold drain
    rw [next]
    constructor
    · exact counts.start next
    · exact nearly task rest next
    · exact ⟨fun _ => mem_cons_self, calls.mono (subset_cons_self _ _)⟩
    · apply nodup_cons.mpr
      refine ⟨fun mem => ?_, tasks⟩
      obtain ⟨frame, mem, same⟩ := List.mem_map.mp mem
      rw [← show frame.task = task from same] at fresh
      exact fresh (began frame mem)
    · intro frame mem
      rcases mem_cons.mp mem with rfl | mem
      · exact mem_append_right _ mem_cons_self
      · exact mem_append_left _ (began frame mem)
  | none =>
    have tight := counts.tight next
    induction stack generalizing registers with
    | nil =>
      unfold drain
      rw [next]
      cases registers with
      | some entry =>
        exact ⟨⟨counts.1, counts.2, counts.3, counts.4, counts.5, counts.6, counts.7⟩,
          tight, trivial, .nil, nofun⟩
      | none => exact ⟨counts, tight, trivial, .nil, nofun⟩
    | cons frame below ih =>
      unfold drain
      rw [next]
      cases registers with
      | some entry =>
        exact ⟨⟨counts.1, counts.2, counts.3, counts.4, counts.5, counts.6, counts.7⟩,
          tight, calls, tasks, began⟩
      | none =>
        exact ih calls.2 (nodup_cons.mp tasks).2
          fun frame mem => began frame (mem_cons_of_mem _ mem)

theorem Sound.step (sound : state.Sound) {event : QueueEvent} {next : QueueState}
    (steps : state.step event = some next) : next.Sound := by
  obtain ⟨queue, stack⟩ := state
  obtain ⟨counts, tight, calls, tasks, began⟩ := sound
  have cancelled {after : BoundedQueue} (cancels : queue.Cancels after) :
      Sound { queue := after, stack := stack } := by
    refine ⟨cancels.counts counts, cancels.tight tight, ?_, tasks, ?_⟩
    · rw [cancels.running]
      exact calls
    · rw [cancels.started]
      exact began
  have nearly : queue.NearlyTight := by
    intro task rest next
    rw [tight.next?] at next
    cases next
  cases event with
  | submit key =>
    cases steps
    rw [submit]
    split
    · exact ⟨counts, tight, calls, tasks, began⟩
    · refine sound_drain (counts.enqueue key) ?_ ?_ tasks began
      · intro task rest next
        exact .inl (tight.enqueue next).2
      · exact calls
  | cancel key =>
    cases steps
    exact cancelled (BoundedQueue.cancels_cancel queue key)
  | cancelAll =>
    cases steps
    exact cancelled (BoundedQueue.cancels_foldl _ queue)
  | waits =>
    cases stack with
    | nil => cases steps
    | cons frame below =>
      cases steps
      exact sound_drain counts nearly calls.2 (nodup_cons.mp tasks).2
        fun frame mem => began frame (mem_cons_of_mem _ mem)
  | throws =>
    cases stack with
    | nil => cases steps
    | cons frame below =>
      cases steps
      apply sound_drain (counts.settle (calls.1 rfl)) (tight.settle frame.task) _ tasks began
      exact ⟨by rintro ⟨⟩, Calls.erase calls.2 (nodup_cons.mp tasks).1⟩
  | ends entry =>
    cases stack with
    | cons frame below => cases steps
    | nil =>
      obtain ⟨runs, drained⟩ := ite_none_right_eq_some.mp steps
      cases drained
      exact sound_drain (counts.settle runs) (tight.settle entry) trivial .nil (forall_mem_nil _)

theorem Reach.sound {allowed : QueueState → QueueEvent → Prop} {limit : ℤ}
    (reach : Reach allowed limit state) : state.Sound := by
  induction reach with
  | new => exact .new limit
  | step _ _ steps ih => exact ih.step steps

def submitting (stack : List Frame) : List QueueEntry :=
  stack.filterMap Frame.registers

/-- No task throws in the submission that starts it, and none is submitted under a key whose
submission is under way. -/
def Regular (state : QueueState) : QueueEvent → Prop
  | .submit key => ∀ entry ∈ submitting state.stack, entry.key ≠ key
  | .throws => ∀ frame ∈ state.stack.head?, frame.registers = none
  | _ => True

/-- What holds besides where each step is regular. -/
structure Named (state : QueueState) : Prop where
  keyed : state.queue.Keyed (submitting state.stack)
  own : ∀ frame ∈ state.stack, ∀ entry ∈ frame.registers, frame.task = entry
  runs : ∀ entry ∈ submitting state.stack, entry ∈ state.queue.running

theorem Named.new (limit : ℤ) : Named { queue := BoundedQueue.new limit } where
  keyed := .new limit
  own := nofun
  runs := nofun

theorem mem_tasks_of_submitting
    (own : ∀ frame ∈ stack, ∀ entry ∈ frame.registers, frame.task = entry)
    (mem : entry ∈ submitting stack) : entry ∈ stack.map Frame.task := by
  obtain ⟨frame, mem, registers⟩ := mem_filterMap.mp mem
  exact List.mem_map.mpr ⟨frame, mem, own frame mem entry registers⟩

theorem submitting_cons (frame : Frame) (below : List Frame) :
    submitting (frame :: below) = frame.registers.toList ++ submitting below := by
  rw [submitting, filterMap_cons]
  cases frame.registers <;> rfl

/-- The submission that the last call returns to is not done, and no other one. -/
theorem submitted_of_cons {frame : Frame} {below : List Frame}
    (own : ∀ other ∈ frame :: below, ∀ entry ∈ other.registers, other.task = entry)
    (runs : ∀ entry ∈ submitting (frame :: below), entry ∈ queue.running)
    (tasks : ((frame :: below).map Frame.task).Nodup) :
    ∀ entry ∈ frame.registers, entry ∈ queue.unfinished ∧ entry ∉ submitting below := by
  intro entry registers
  constructor
  · apply mem_append_left
    apply runs
    rw [submitting_cons]
    exact mem_append_left _ (mem_toList.mpr registers)
  · intro mem
    apply (nodup_cons.mp tasks).1
    rw [own frame mem_cons_self entry registers]
    exact mem_tasks_of_submitting (fun other mem => own other (mem_cons_of_mem _ mem)) mem

/-- Draining keeps this, if what it may start is the submission that drains. -/
theorem named_drain (keyed : queue.Keyed (registers.toList ++ submitting stack))
    (own : ∀ frame ∈ stack, ∀ entry ∈ frame.registers, frame.task = entry)
    (runs : ∀ entry ∈ submitting stack, entry ∈ queue.running)
    (tasks : (stack.map Frame.task).Nodup)
    (submitted : ∀ entry ∈ registers, entry ∈ queue.unfinished ∧ entry ∉ submitting stack)
    (first : ∀ task rest, queue.next? = some (task, rest) → ∀ entry ∈ registers, task = entry) :
    Named (drain queue registers stack) := by
  cases next : queue.next? with
  | some turn =>
    obtain ⟨task, rest⟩ := turn
    have own' : ∀ entry ∈ registers, task = entry := first task rest next
    unfold drain
    rw [next]
    constructor
    · rw [submitting_cons]
      exact keyed.start next
    · intro frame mem
      rcases mem_cons.mp mem with rfl | mem
      · exact own'
      · exact own frame mem
    · rw [submitting_cons]
      intro entry mem
      rcases mem_append.mp mem with mine | mem
      · rw [← own' entry (mem_toList.mp mine)]
        exact mem_cons_self
      · exact mem_cons_of_mem _ (runs entry mem)
  | none =>
    induction stack generalizing registers with
    | nil =>
      unfold drain
      rw [next]
      cases registers with
      | some entry =>
        obtain ⟨mem, other⟩ := submitted entry rfl
        exact ⟨keyed.register mem other, nofun, nofun⟩
      | none => exact ⟨keyed, nofun, nofun⟩
    | cons frame below ih =>
      unfold drain
      rw [next]
      cases registers with
      | some entry =>
        obtain ⟨mem, other⟩ := submitted entry rfl
        exact ⟨keyed.register mem other, own, runs⟩
      | none =>
        have submitted' := submitted_of_cons own runs tasks
        rw [submitting_cons] at keyed runs
        apply ih keyed (fun other mem => own other (mem_cons_of_mem _ mem))
          (fun entry mem => runs entry (mem_append_right _ mem))
          (nodup_cons.mp tasks).2 submitted'
        intro task rest starts
        rw [next] at starts
        cases starts

theorem Named.step (named : state.Named) (sound : state.Sound) {event : QueueEvent}
    {next : QueueState} (regular : state.Regular event) (steps : state.step event = some next) :
    next.Named := by
  obtain ⟨queue, stack⟩ := state
  obtain ⟨counts, tight, calls, tasks, began⟩ := sound
  obtain ⟨keyed, own, runs⟩ := named
  cases event with
  | submit key =>
    cases steps
    rw [submit]
    split
    · exact ⟨keyed, own, runs⟩
    · next unregistered =>
        have free : ∀ entry ∈ queue.unfinished, entry.key ≠ key := by
          intro entry mem same
          have other : entry ∉ submitting stack := fun mem => regular entry mem same
          apply unregistered
          rw [keyed.inflight, (keyed.entries key entry).mpr ⟨mem, same⟩, filter_some,
            if_pos (decide_eq_true other)]
          rfl
        refine named_drain (keyed.enqueue free) own ?_ tasks ?_ ?_
        · exact runs
        · rintro entry ⟨⟩
          refine ⟨mem_append_right _ (mem_append_right _ mem_cons_self), ?_⟩
          intro mem
          have before := counts.fresh _ (mem_append_left _ (counts.began _ (runs _ mem)))
          exact absurd before (Nat.lt_irrefl _)
        · rintro task rest next entry ⟨⟩
          exact (tight.enqueue next).1
  | cancel key =>
    cases steps
    refine ⟨keyed.cancel counts key, own, ?_⟩
    rw [(BoundedQueue.cancels_cancel queue key).running]
    exact runs
  | cancelAll =>
    cases steps
    refine ⟨keyed.foldl_cancel _ counts, own, ?_⟩
    change ∀ entry ∈ submitting stack, entry ∈ (queue.entries.keys.foldl _ queue).running
    rw [(BoundedQueue.cancels_foldl _ queue).running]
    exact runs
  | waits =>
    cases stack with
    | nil => cases steps
    | cons frame below =>
      cases steps
      have submitted := submitted_of_cons own runs tasks
      rw [submitting_cons] at keyed runs
      apply named_drain keyed (fun other mem => own other (mem_cons_of_mem _ mem))
        (fun entry mem => runs entry (mem_append_right _ mem))
        (nodup_cons.mp tasks).2 submitted
      intro task rest starts
      rw [tight.next?] at starts
      cases starts
  | throws =>
    cases stack with
    | nil => cases steps
    | cons frame below =>
      cases steps
      have unregistering : frame.registers = none := regular frame rfl
      refine named_drain (keyed.settle (calls.1 rfl)) own ?_ tasks (by rintro _ ⟨⟩)
        (by rintro _ _ _ _ ⟨⟩)
      intro entry mem
      apply (mem_erase_of_ne _).mpr (runs entry mem)
      rintro rfl
      rw [submitting_cons, unregistering] at mem
      exact (nodup_cons.mp tasks).1 (mem_tasks_of_submitting
        (fun other mem => own other (mem_cons_of_mem _ mem)) mem)
  | ends entry =>
    cases stack with
    | cons frame below => cases steps
    | nil =>
      obtain ⟨runs, drained⟩ := ite_none_right_eq_some.mp steps
      cases drained
      exact named_drain (keyed.settle runs) (forall_mem_nil _) (forall_mem_nil _) .nil
        (by rintro _ ⟨⟩) (by rintro _ _ _ _ ⟨⟩)

theorem Reach.named {limit : ℤ} (reach : Reach Regular limit state) : state.Named := by
  induction reach with
  | new => exact .new limit
  | step reach regular steps ih => exact ih.step reach.sound regular steps

structure Accounts (state : QueueState) : Prop where
  active : state.queue.active = state.queue.running.length
  within : state.queue.active ≤ state.queue.limit
  full : state.stack = [] → state.queue.pending ≠ [] →
    (state.queue.running.length : ℤ) = state.queue.limit
  order : (state.queue.started ++ state.queue.pending).Pairwise fun first second =>
    first.id < second.id

structure Registers (state : QueueState) : Prop where
  /-- No two tasks of a key are there at once. -/
  once : (state.queue.unfinished.map QueueEntry.key).Nodup
  /-- A key that is submitted again, and whose task is not done, starts nothing. -/
  again : ∀ entry ∈ state.queue.unfinished, state.Regular (.submit entry.key) →
    state.step (.submit entry.key) = some state
  /-- A key whose task is done is registered nowhere. -/
  left : ∀ key, (∀ entry ∈ state.queue.unfinished, entry.key ≠ key) →
    state.queue.entries.get? key = none ∧ state.queue.inflight.get? key = none
  /-- When all tasks are done, any key that is submitted runs. -/
  runs : state.queue.unfinished = [] → ∀ key, ∃ next, state.step (.submit key) = some next ∧
    state.queue.entryOf key ∈ next.queue.running

theorem Sound.accounts (sound : state.Sound) : state.Accounts where
  active := sound.counts.active
  within := sound.counts.within
  full _ waits := by
    rw [← sound.counts.active]
    exact sound.tight.resolve_left waits
  order := sound.counts.order

theorem Named.registered (named : state.Named) (sound : state.Sound) : state.Registers where
  once := named.keyed.keys
  again entry mem regular := by
    have other : entry ∉ submitting state.stack := fun mem => regular entry mem rfl
    rw [QueueState.step, submit, named.keyed.inflight,
      (named.keyed.entries _ entry).mpr ⟨mem, rfl⟩, filter_some,
      if_pos (decide_eq_true other)]
    rfl
  left key free := by
    have unfound := named.keyed.get?_eq_none.mpr free
    refine ⟨unfound, ?_⟩
    rw [named.keyed.inflight, unfound]
    rfl
  runs idle key := by
    obtain ⟨still, nothing⟩ := append_eq_nil_iff.mp idle
    have room : (state.queue.enqueue key).next? = some (state.queue.entryOf key, []) := by
      apply BoundedQueue.next?_eq_some.mpr
      constructor
      · change state.queue.pending ++ _ = _
        rw [nothing]
        rfl
      · change state.queue.active < state.queue.limit
        rw [sound.counts.active, still]
        exact Int.lt_of_lt_of_le zero_lt_one sound.counts.limit
    have unregistered : state.queue.inflight.get? key = none := by
      have unfound : state.queue.entries.get? key = none := by
        apply named.keyed.get?_eq_none.mpr
        rw [idle]
        nofun
      rw [named.keyed.inflight, unfound]
      rfl
    refine ⟨_, rfl, ?_⟩
    rw [submit, unregistered]
    unfold drain
    rw [room]
    exact mem_cons_self

/-- In every run the numbers of the queue are right. Where no task throws in the submission that
starts it, and none is submitted under a key whose submission is under way, the keys are right. -/
theorem reach_accounts (limit : ℤ) : (∀ allowed state, Reach allowed limit state → state.Accounts) ∧
      ∀ state, Reach Regular limit state → state.Registers :=
  ⟨fun _ _ reach => reach.sound.accounts, fun _ reach => reach.named.registered reach.sound⟩

/-- A task that throws at once leaves its key registered, and no other task runs under it. -/
theorem throws_not_registers : ¬ ∀ (limit : ℤ) (state : QueueState),
    Reach (fun _ _ => True) limit state → state.Registers := by
  intro keeps
  have submits : step { queue := BoundedQueue.new 2 } (.submit "a") = some _ := rfl
  have started : Reach (fun _ _ => True) 2 _ := .step .new trivial submits
  have throws : step (submit { queue := BoundedQueue.new 2 } "a") .throws = some _ := rfl
  have reach := Reach.step started trivial throws
  have left := ((keeps 2 _ reach).left "a" nofun).2
  revert left
  decide

end QueueState

end DataViz.Canvas
