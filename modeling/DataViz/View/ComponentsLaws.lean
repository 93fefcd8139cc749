/-
# The components found are the strongly connected ones

Between two turns of its loop, what Tarjan's algorithm holds is an invariant of the nodes on the
stack: their numbers fall from the top down, the nodes at work are among them and reach everything
above, and `low` is the number of a node on the stack that a node reaches.
-/

import DataViz.Data.Digraph
import DataViz.View.Components

namespace DataViz.View

open Dict

open DataViz.Digraph

variable {α : Type} [DecidableEq α]

def targets (graph : Dict α (List α)) (v : α) : List α :=
  (graph.get? v).getD []

namespace Tarjan

variable {graph : Dict α (List α)} {s : Tarjan α}

def idx (s : Tarjan α) (v : α) : ℕ :=
  (s.index.get? v).getD 0

/-- The least number a node is known to reach. -/
def least (s : Tarjan α) (v : α) : ℕ :=
  (s.low.get? v).getD 0

def Found (s : Tarjan α) (v : α) : Prop :=
  (s.index.get? v).isSome = true

def Settled (s : Tarjan α) (v : α) : Prop :=
  (s.component.get? v).isSome = true

/-- Some edges of the node may still be to be looked at. -/
def AtWork (s : Tarjan α) (v : α) : Prop :=
  v ∈ s.work.map Prod.fst

def Examined (graph : Dict α (List α)) (s : Tarjan α) (v w : α) : Prop :=
  w ∈ targets graph v ∧ ∀ entry ∈ s.work, entry.1 = v → w ∉ entry.2

/-- The last node at work at or below another on the stack. -/
def Nearest (s : Tarjan α) (p x : α) : Prop :=
  s.AtWork p ∧ s.idx p ≤ s.idx x ∧ ∀ q, s.AtWork q → s.idx q ≤ s.idx x → s.idx q ≤ s.idx p

/-- The invariant of the loop. `pending` is an edge taken off the work whose end is not
dealt with yet. -/
structure Inv (graph : Dict α (List α)) (pending : Option (α × α)) (s : Tarjan α) : Prop where
  found : ∀ x, s.Found x ↔ x ∈ s.stack ∨ s.Settled x
  unsettled : ∀ x ∈ s.stack, ¬ s.Settled x
  numbered : ∀ x, s.Found x → s.idx x < s.index.length
  falling : s.stack.Pairwise fun a b => s.idx b < s.idx a
  working : (s.work.map Prod.fst).Sublist s.stack
  known : ∀ x ∈ s.stack, (s.low.get? x).isSome = true
  edges : ∀ entry ∈ s.work, entry.2 ⊆ targets graph entry.1
  seen : ∀ x ∈ s.stack, ∀ w, s.Examined graph x w → pending ≠ some (x, w) →
    s.Found w ∧ (w ∈ s.stack → s.least x ≤ s.idx w)
  least_le : ∀ x ∈ s.stack, s.least x ≤ s.idx x
  least_reach : ∀ x ∈ s.stack, ∃ y ∈ s.stack, s.idx y = s.least x ∧ Reach (targets graph) x y
  least_lt : ∀ x ∈ s.stack, ¬ s.AtWork x → s.least x < s.idx x
  above : ∀ p, s.AtWork p → ∀ x ∈ s.stack, s.idx p ≤ s.idx x → Reach (targets graph) p x
  told : ∀ x ∈ s.stack, ¬ s.AtWork x → ∀ p, s.Nearest p x → s.least p ≤ s.least x
  rooted : ∀ x ∈ s.stack, ∃ p, s.AtWork p ∧ s.idx p ≤ s.idx x
  closed : ∀ x, s.Settled x → ∀ w ∈ targets graph x, s.Settled w
  connected : ∀ x root, s.component.get? x = some root → Connected (targets graph) x root
  whole : ∀ x y, s.Settled x → s.Settled y → Connected (targets graph) x y →
    s.component.get? x = s.component.get? y

theorem length_set_of_fresh {d : Dict α ℕ} {k : α} (fresh : d.get? k = none) (n : ℕ) :
    (d.set k n).length = d.length + 1 := by
  induction d with
  | nil => rfl
  | cons entry d ih =>
    obtain ⟨k', v⟩ := entry
    by_cases same : k' = k
    · simp [same] at fresh
    · rw [get?_cons_ne same] at fresh
      simp [Dict.set, same, ih fresh]

section

variable (s) (w : α) (edges : List α) (x : α)

theorem idx_visit : (s.visit w edges).idx x = if w = x then s.index.length else s.idx x := by
  simp only [idx, visit, get?_set]
  split <;> rfl

theorem least_visit : (s.visit w edges).least x = if w = x then s.index.length else s.least x := by
  simp only [least, visit, get?_set]
  split <;> rfl

theorem found_visit : (s.visit w edges).Found x ↔ x = w ∨ s.Found x := by
  simp only [Found, visit, get?_set]
  by_cases same : w = x
  · simp [same]
  · simp [same, Ne.symm same]

theorem atWork_visit : (s.visit w edges).AtWork x ↔ x = w ∨ s.AtWork x := by
  simp [AtWork, visit]

end

namespace Inv

variable {pending : Option (α × α)}

theorem atWork_mem (inv : Inv graph pending s) {p : α} (working : s.AtWork p) : p ∈ s.stack :=
  inv.working.subset working

/-- No two vertices of the stack have one index. -/
theorem idx_inj (inv : Inv graph pending s) {x y : α} (hx : x ∈ s.stack) (hy : y ∈ s.stack)
    (same : s.idx x = s.idx y) : x = y := by
  have differ : (s.stack.map s.idx).Nodup :=
    List.Pairwise.map s.idx (fun _ _ less => Nat.ne_of_gt less) inv.falling
  exact List.inj_on_of_nodup_map differ hx hy same

theorem idx_lt_length (inv : Inv graph pending s) {x : α} (hx : x ∈ s.stack) :
    s.idx x < s.index.length :=
  inv.numbered x ((inv.found x).mpr (.inl hx))

/-- The work falls like the stack. -/
theorem work_falling (inv : Inv graph pending s) :
    (s.work.map Prod.fst).Pairwise fun a b => s.idx b < s.idx a :=
  inv.falling.sublist inv.working

/-- An edge whose end is found, with its number heeded, is dealt with. -/
theorem settle {v w : α} (inv : Inv graph (some (v, w)) s) (found : s.Found w)
    (heeded : w ∈ s.stack → s.least v ≤ s.idx w) : Inv graph none s :=
  { inv with
    seen := fun x hx y examined _ => by
      by_cases same : (v, w) = (x, y)
      · cases same
        exact ⟨found, heeded⟩
      · exact inv.seen x hx y examined fun eq => same (Option.some.inj eq) }

variable {work : List (α × List α)}

/-- Taking an edge off the work leaves it pending. -/
theorem advance (inv : Inv graph none s) {v w : α} {edges : List α}
    (working : s.work = (v, w :: edges) :: work) :
    Inv graph (some (v, w)) { s with work := (v, edges) :: work } := by
  have same : ∀ p, Tarjan.AtWork { s with work := (v, edges) :: work } p ↔ s.AtWork p := by
    intro p
    simp [AtWork, working]
  have near : ∀ p x, Tarjan.Nearest { s with work := (v, edges) :: work } p x ↔ s.Nearest p x := by
    intro p x
    simp only [Nearest, same]
    rfl
  refine
    { found := inv.found, unsettled := inv.unsettled, numbered := inv.numbered
      falling := inv.falling, working := ?_, known := inv.known, edges := ?_, seen := ?_
      least_le := inv.least_le, least_reach := inv.least_reach, least_lt := ?_, above := ?_
      told := ?_, rooted := ?_, closed := inv.closed, connected := inv.connected
      whole := inv.whole }
  · simpa [working] using inv.working
  · intro entry member
    have before := inv.edges
    rw [working] at before
    cases List.mem_cons.mp member with
    | inl top =>
      subst top
      exact fun x hx => before (v, w :: edges) (by simp) (List.mem_cons_of_mem _ hx)
    | inr rest => exact before entry (by simp [rest])
  · intro x hx y examined other
    refine inv.seen x hx y ⟨examined.1, ?_⟩ (by simp)
    intro entry member here
    rw [working] at member
    cases List.mem_cons.mp member with
    | inl top =>
      subst top
      cases here
      exact List.not_mem_cons_of_ne_of_not_mem (fun eq => other (by rw [eq]))
        (examined.2 (v, edges) (by simp) rfl)
    | inr rest => exact examined.2 entry (by simp [rest]) here
  · exact fun x hx off => inv.least_lt x hx fun on => off ((same x).mpr on)
  · exact fun p on => inv.above p ((same p).mp on)
  · exact fun x hx off p nearest =>
      inv.told x hx (fun on => off ((same x).mpr on)) p ((near p x).mp nearest)
  · intro x hx
    obtain ⟨p, on, under⟩ := inv.rooted x hx
    exact ⟨p, (same p).mpr on, under⟩

/-- A node that is found goes on top of the stack and of the work. -/
theorem visit (inv : Inv graph pending s) {w : α} (fresh : s.index.get? w = none)
    (reached : ∀ p, s.AtWork p → Reach (targets graph) p w)
    (waiting : ∀ edge, pending = some edge → edge.2 = w) :
    Inv graph none (s.visit w (targets graph w)) := by
  have unfound : ¬ s.Found w := by simp [Found, fresh]
  have off : w ∉ s.stack := fun member => unfound ((inv.found w).mpr (.inl member))
  have other : ∀ {x}, x ∈ s.stack → w ≠ x := fun member same => off (same ▸ member)
  have number : ∀ {x}, x ∈ s.stack → (s.visit w (targets graph w)).idx x = s.idx x :=
    fun member => by rw [idx_visit, if_neg (other member)]
  have low : ∀ {x}, x ∈ s.stack → (s.visit w (targets graph w)).least x = s.least x :=
    fun member => by rw [least_visit, if_neg (other member)]
  have top : (s.visit w (targets graph w)).idx w = s.index.length := by
    rw [idx_visit, if_pos rfl]
  refine
    { found := ?_, unsettled := ?_, numbered := ?_, falling := ?_, working := ?_, known := ?_
      edges := ?_, seen := ?_, least_le := ?_, least_reach := ?_, least_lt := ?_, above := ?_
      told := ?_, rooted := ?_, closed := inv.closed, connected := inv.connected
      whole := inv.whole }
  · intro x
    rw [found_visit, inv.found x]
    exact (or_assoc.symm.trans (or_congr List.mem_cons.symm Iff.rfl))
  · intro x hx settled
    cases List.mem_cons.mp hx with
    | inl same => exact unfound ((inv.found w).mpr (.inr (same ▸ settled)))
    | inr member => exact inv.unsettled x member settled
  · intro x found
    have longer : (s.visit w (targets graph w)).index.length = s.index.length + 1 :=
      length_set_of_fresh fresh _
    rw [longer, idx_visit]
    split
    · exact Nat.lt_succ_self _
    · next apart =>
        have before := (found_visit s w _ x).mp found
        exact Nat.lt_succ_of_lt (inv.numbered x (before.resolve_left (Ne.symm apart)))
  · refine List.pairwise_cons.mpr ⟨fun b member => ?_, ?_⟩
    · rw [top, number member]
      exact inv.idx_lt_length member
    · refine inv.falling.imp_of_mem fun {a b} ha hb less => ?_
      rw [number ha, number hb]
      exact less
  · exact inv.working.cons_cons w
  · intro x hx
    by_cases same : w = x
    · simp [Tarjan.visit, same]
    · have member : x ∈ s.stack := (List.mem_cons.mp hx).resolve_left (Ne.symm same)
      simpa [Tarjan.visit, get?_set, same] using inv.known x member
  · intro entry member
    cases List.mem_cons.mp member with
    | inl same =>
      subst same
      exact List.Subset.refl _
    | inr before => exact inv.edges entry before
  · intro x hx y examined _
    cases List.mem_cons.mp hx with
    | inl same =>
      subst same
      exact absurd examined.1 (examined.2 (x, targets graph x) List.mem_cons_self rfl)
    | inr member =>
      rw [low member]
      by_cases same : y = w
      · subst same
        have below : s.least x < s.index.length :=
          Nat.lt_of_le_of_lt (inv.least_le x member) (inv.idx_lt_length member)
        exact ⟨(found_visit s y _ y).mpr (.inl rfl), fun _ => top ▸ Nat.le_of_lt below⟩
      · have before : s.Examined graph x y :=
          ⟨examined.1, fun entry hentry => examined.2 entry (List.mem_cons_of_mem _ hentry)⟩
        obtain ⟨found, heeded⟩ := inv.seen x member y before fun eq => same (waiting _ eq)
        refine ⟨(found_visit s w _ y).mpr (.inr found), fun hy => ?_⟩
        have old : y ∈ s.stack := (List.mem_cons.mp hy).resolve_left same
        rw [number old]
        exact heeded old
  · intro x hx
    cases List.mem_cons.mp hx with
    | inl same => rw [same, top, least_visit, if_pos rfl]
    | inr member =>
      rw [low member, number member]
      exact inv.least_le x member
  · intro x hx
    cases List.mem_cons.mp hx with
    | inl same => exact ⟨x, hx, by rw [same, top, least_visit, if_pos rfl], .refl x⟩
    | inr member =>
      obtain ⟨y, hy, reaches, path⟩ := inv.least_reach x member
      exact ⟨y, List.mem_cons_of_mem _ hy, by rw [number hy, low member, reaches], path⟩
  · intro x hx off
    cases List.mem_cons.mp hx with
    | inl same => exact absurd ((atWork_visit s w _ x).mpr (.inl same)) off
    | inr member =>
      rw [low member, number member]
      exact inv.least_lt x member fun on => off ((atWork_visit s w _ x).mpr (.inr on))
  · intro p on x hx under
    cases (atWork_visit s w _ p).mp on with
    | inl same =>
      subst same
      cases List.mem_cons.mp hx with
      | inl here => exact here ▸ .refl x
      | inr member =>
        rw [top, number member] at under
        exact absurd (inv.idx_lt_length member) (Nat.not_lt.mpr under)
    | inr before =>
      cases List.mem_cons.mp hx with
      | inl here => exact here ▸ reached p before
      | inr member =>
        rw [number (inv.atWork_mem before), number member] at under
        exact inv.above p before x member under
  · intro x hx off p nearest
    have member : x ∈ s.stack := by
      refine (List.mem_cons.mp hx).resolve_left fun same => off ?_
      exact (atWork_visit s w _ x).mpr (.inl same)
    obtain ⟨on, under, best⟩ := nearest
    have old : s.AtWork p := by
      refine ((atWork_visit s w _ p).mp on).resolve_left fun same => ?_
      rw [same, top, number member] at under
      exact absurd (inv.idx_lt_length member) (Nat.not_lt.mpr under)
    have hp := inv.atWork_mem old
    rw [low hp, low member]
    refine inv.told x member (fun before => off ((atWork_visit s w _ x).mpr (.inr before))) p
      ⟨old, ?_, fun q before qunder => ?_⟩
    · rwa [number hp, number member] at under
    · have hq := inv.atWork_mem before
      have less := best q ((atWork_visit s w _ q).mpr (.inr before))
      rw [number hq, number member, number hp] at less
      exact less qunder
  · intro x hx
    cases List.mem_cons.mp hx with
    | inl same => exact ⟨x, (atWork_visit s w _ x).mpr (.inl same), Nat.le_refl _⟩
    | inr member =>
      obtain ⟨p, on, under⟩ := inv.rooted x member
      refine ⟨p, (atWork_visit s w _ p).mpr (.inr on), ?_⟩
      rwa [number (inv.atWork_mem on), number member]

/-- A node at work learns of a node on the stack that it reaches. -/
theorem lowered (inv : Inv graph pending s) {p y : α} {l : ℕ} (on : s.AtWork p)
    (listed : s.low.get? p = some l) (hy : y ∈ s.stack) (path : Reach (targets graph) p y) :
    Inv graph pending { s with low := s.low.set p (min l (s.idx y)) } := by
  have low : ∀ x, Tarjan.least { s with low := s.low.set p (min l (s.idx y)) } x =
      if p = x then min (s.least p) (s.idx y) else s.least x := by
    intro x
    simp only [least, get?_set, listed, Option.getD_some]
    split <;> rfl
  have down : ∀ x, Tarjan.least { s with low := s.low.set p (min l (s.idx y)) } x ≤ s.least x := by
    intro x
    rw [low]
    split
    · next same => exact same ▸ Nat.min_le_left _ _
    · exact Nat.le_refl _
  refine
    { found := inv.found, unsettled := inv.unsettled, numbered := inv.numbered
      falling := inv.falling, working := inv.working, known := ?_, edges := inv.edges, seen := ?_
      least_le := fun x hx => Nat.le_trans (down x) (inv.least_le x hx), least_reach := ?_
      least_lt := fun x hx off => Nat.lt_of_le_of_lt (down x) (inv.least_lt x hx off)
      above := inv.above, told := ?_, rooted := inv.rooted, closed := inv.closed
      connected := inv.connected, whole := inv.whole }
  · intro x hx
    by_cases same : p = x
    · simp [same]
    · simpa [get?_set, same] using inv.known x hx
  · intro x hx w examined other
    obtain ⟨found, heeded⟩ := inv.seen x hx w examined other
    exact ⟨found, fun hw => Nat.le_trans (down x) (heeded hw)⟩
  · intro x hx
    rw [low]
    split
    · next same =>
        subst same
        obtain ⟨z, hz, reaches, way⟩ := inv.least_reach p hx
        cases Nat.le_total (s.least p) (s.idx y) with
        | inl less => exact ⟨z, hz, by rw [Nat.min_eq_left less]; exact reaches, way⟩
        | inr less => exact ⟨y, hy, by rw [Nat.min_eq_right less]; rfl, path⟩
    · exact inv.least_reach x hx
  · intro x hx off q nearest
    have apart : p ≠ x := fun same => off (same ▸ on)
    rw [low x, if_neg apart]
    exact Nat.le_trans (down q) (inv.told x hx off q nearest)

theorem lt_of_mem_work (inv : Inv graph pending s) {v p : α} (working : s.work = (v, []) :: work)
    (member : p ∈ work.map Prod.fst) : s.idx p < s.idx v := by
  have falls := inv.work_falling
  rw [working] at falls
  exact (List.pairwise_cons.mp falls).1 p member

variable {v : α}

/-- An edge looked at by a node with no edges left is one of those looked at before. -/
theorem examined_of_finished (working : s.work = (v, []) :: work) {x y : α}
    (examined : Tarjan.Examined graph { s with work } x y) : s.Examined graph x y := by
  refine ⟨examined.1, fun entry member here => ?_⟩
  rw [working] at member
  cases List.mem_cons.mp member with
  | inl same => simp [same]
  | inr rest => exact examined.2 entry rest here

/-- A node that reaches something found before it leaves the work, its parent told. -/
theorem keep (inv : Inv graph none s) (working : s.work = (v, []) :: work)
    (parent : ∀ entry, work.head? = some entry → s.least entry.1 ≤ s.least v)
    (lower : s.least v ≠ s.idx v) : Inv graph none { s with work } := by
  have split : ∀ p, s.AtWork p ↔ p = v ∨ p ∈ work.map Prod.fst := by
    intro p
    simp [AtWork, working]
  have hv : v ∈ s.stack := inv.atWork_mem ((split v).mpr (.inl rfl))
  have less : s.least v < s.idx v := Nat.lt_of_le_of_ne (inv.least_le v hv) lower
  have kept : ∀ p, p ∈ work.map Prod.fst → s.AtWork p := fun p member => (split p).mpr (.inr member)
  refine
    { found := inv.found, unsettled := inv.unsettled, numbered := inv.numbered
      falling := inv.falling, working := ?_, known := inv.known, edges := ?_
      seen := fun x hx y examined other =>
        inv.seen x hx y (examined_of_finished working examined) other
      least_le := inv.least_le, least_reach := inv.least_reach, least_lt := ?_
      above := fun p on => inv.above p (kept p on), told := ?_, rooted := ?_
      closed := inv.closed, connected := inv.connected, whole := inv.whole }
  · have before := inv.working
    rw [working] at before
    exact (List.sublist_cons_self v _).trans before
  · intro entry member
    exact inv.edges entry (by rw [working]; exact List.mem_cons_of_mem _ member)
  · intro x hx off
    by_cases same : x = v
    · exact same ▸ less
    · exact inv.least_lt x hx fun on => off (((split x).mp on).resolve_left same)
  · intro x hx off p nearest
    obtain ⟨on, under, best⟩ := nearest
    by_cases past : s.idx v ≤ s.idx x
    · -- Nothing at work is left at or above `v`, so the nearest node is its parent.
      have told : s.least v ≤ s.least x := by
        by_cases same : x = v
        · exact same ▸ Nat.le_refl _
        · refine inv.told x hx (fun work => off (((split x).mp work).resolve_left same)) v
            ⟨(split v).mpr (.inl rfl), past, fun q hq _ => ?_⟩
          cases (split q).mp hq with
          | inl eq => exact eq ▸ Nat.le_refl _
          | inr rest => exact Nat.le_of_lt (inv.lt_of_mem_work working rest)
      match work, on, best, parent, inv.work_falling, working with
      | head :: rest, on, best, parent, falls, working =>
        have first : s.idx head.1 < s.idx v := inv.lt_of_mem_work working (by simp)
        have top : s.idx head.1 ≤ s.idx p :=
          best head.1 (by simp [AtWork]) (Nat.le_of_lt (Nat.lt_of_lt_of_le first past))
        have same : p = head.1 := by
          cases List.mem_cons.mp on with
          | inl same => exact same
          | inr deeper =>
            rw [working] at falls
            have under := (List.pairwise_cons.mp (List.pairwise_cons.mp falls).2).1 p deeper
            exact absurd top (Nat.not_le.mpr under)
        rw [same]
        exact Nat.le_trans (parent head rfl) told
    · have apart : x ≠ v := fun same => past (same ▸ Nat.le_refl _)
      refine inv.told x hx (fun work => off (((split x).mp work).resolve_left apart)) p
        ⟨kept p on, under, fun q hq qunder => ?_⟩
      cases (split q).mp hq with
      | inl eq => exact absurd (eq ▸ qunder) past
      | inr rest => exact best q rest qunder
  · intro x hx
    obtain ⟨p, on, under⟩ := inv.rooted x hx
    cases (split p).mp on with
    | inr rest => exact ⟨p, rest, under⟩
    | inl same =>
      subst same
      match work, working with
      | [], working =>
        -- With `p` alone at work, nothing on the stack is below it.
        obtain ⟨y, hy, reaches, _⟩ := inv.least_reach p hv
        obtain ⟨q, hq, qunder⟩ := inv.rooted y hy
        have alone : q = p := by simpa using (split q).mp hq
        rw [alone, reaches] at qunder
        exact absurd qunder (Nat.not_le.mpr less)
      | head :: rest, working =>
        refine ⟨head.1, by simp [AtWork], ?_⟩
        have first : s.idx head.1 < s.idx p := inv.lt_of_mem_work working (by simp)
        exact Nat.le_trans (Nat.le_of_lt first) under

section

variable {v : α} {work : List (α × List α)} {above below : List α} {x : α}

/-- On the stack, the nodes down to `v` are those numbered from `v` on. -/
theorem top_iff (inv : Inv graph none s) (stacked : s.stack = above ++ v :: below)
    (hx : x ∈ s.stack) : x ∈ above ∨ x = v ↔ s.idx v ≤ s.idx x := by
  have falls := inv.falling
  rw [stacked, List.pairwise_append, List.pairwise_cons] at falls
  obtain ⟨_, ⟨under, _⟩, higher⟩ := falls
  constructor
  · rintro (up | rfl)
    · exact Nat.le_of_lt (higher x up v List.mem_cons_self)
    · exact Nat.le_refl _
  · intro past
    rw [stacked, List.mem_append, List.mem_cons] at hx
    rcases hx with up | same | down
    · exact .inl up
    · exact .inr same
    · exact absurd (under x down) (Nat.not_lt.mpr past)

/-- What a finished vertex left on the stack above itself reaches it. -/
theorem nearest_top (inv : Inv graph none s) (working : s.work = (v, []) :: work)
    (past : s.idx v ≤ s.idx x) : s.Nearest v x := by
  refine ⟨by simp [AtWork, working], past, fun q hq _ => ?_⟩
  have member : q = v ∨ q ∈ work.map Prod.fst := by simpa [AtWork, working] using hq
  cases member with
  | inl same => exact same ▸ Nat.le_refl _
  | inr rest => exact Nat.le_of_lt (inv.lt_of_mem_work working rest)

theorem off_work (inv : Inv graph none s) (working : s.work = (v, []) :: work)
    (past : s.idx v < s.idx x) : ¬ s.AtWork x := by
  intro on
  have member : x = v ∨ x ∈ work.map Prod.fst := by simpa [AtWork, working] using on
  cases member with
  | inl same => exact Nat.lt_irrefl _ (same ▸ past)
  | inr rest => exact Nat.lt_asymm past (inv.lt_of_mem_work working rest)

/-- Nothing from `v` on reaches a number below that of `v`. -/
theorem le_least (inv : Inv graph none s) (working : s.work = (v, []) :: work)
    (root : s.least v = s.idx v) (hx : x ∈ s.stack) (past : s.idx v ≤ s.idx x) :
    s.idx v ≤ s.least x := by
  cases Nat.eq_or_lt_of_le past with
  | inl same =>
    have hv : v ∈ s.stack := inv.atWork_mem (by simp [AtWork, working])
    rw [← inv.idx_inj hv hx same, root]
  | inr less =>
    exact root ▸ inv.told x hx (inv.off_work working less) v (inv.nearest_top working past)

/-- The edges from `v` on lead to nodes from `v` on, or to closed components. -/
theorem edge_top (inv : Inv graph none s) (working : s.work = (v, []) :: work)
    (root : s.least v = s.idx v) {x w : α} (hx : x ∈ s.stack) (past : s.idx v ≤ s.idx x)
    (edge : w ∈ targets graph x) : (w ∈ s.stack ∧ s.idx v ≤ s.idx w) ∨ s.Settled w := by
  have examined : s.Examined graph x w := by
    refine ⟨edge, fun entry member here => ?_⟩
    rw [working] at member
    cases List.mem_cons.mp member with
    | inl same => simp [same]
    | inr rest =>
      have less := inv.lt_of_mem_work working (List.mem_map_of_mem rest)
      rw [here] at less
      exact absurd past (Nat.not_le.mpr less)
  obtain ⟨found, heeded⟩ := inv.seen x hx w examined nofun
  refine ((inv.found w).mp found).imp_left fun hw => ⟨hw, ?_⟩
  exact Nat.le_trans (inv.le_least working root hx past) (heeded hw)

/-- The nodes from `v` on reach `v`. -/
theorem reach_root (inv : Inv graph none s) (working : s.work = (v, []) :: work)
    (root : s.least v = s.idx v) (hx : x ∈ s.stack) (past : s.idx v ≤ s.idx x) :
    Reach (targets graph) x v := by
  induction number : s.idx x using Nat.strong_induction_on generalizing x with
  | _ n ih =>
    cases Nat.eq_or_lt_of_le past with
    | inl same =>
      have hv : v ∈ s.stack := inv.atWork_mem (by simp [AtWork, working])
      exact inv.idx_inj hv hx same ▸ .refl v
    | inr less =>
      obtain ⟨y, hy, reaches, path⟩ := inv.least_reach x hx
      have lower := inv.least_lt x hx (inv.off_work working less)
      have above := inv.le_least working root hx past
      exact path.trans (ih (s.idx y) (by omega) hy (by omega) rfl)

omit [DecidableEq α] in
theorem sublist_below {rest : List α} (off : v ∉ above)
    (sub : (v :: rest).Sublist (above ++ v :: below)) : rest.Sublist below := by
  induction above with
  | nil => exact List.cons_sublist_cons.mp sub
  | cons a above ih =>
    obtain ⟨apart, off⟩ := List.ne_and_not_mem_of_not_mem_cons off
    cases sub with
    | cons _ rest => exact ih off rest
    | cons_cons => exact absurd rfl apart

/-- A node that reaches nothing found before it closes its component. -/
theorem close (inv : Inv graph none s) (working : s.work = (v, []) :: work)
    (stacked : s.stack = above ++ v :: below) (root : s.least v = s.idx v)
    {component : Dict α α}
    (popped : ∀ x, component.get? x = if x ∈ above ∨ x = v then some v else s.component.get? x) :
    Inv graph none { s with stack := below, component, work } := by
  have down : ∀ x ∈ below, x ∈ s.stack := fun x hx => by simp [stacked, hx]
  have under : ∀ x ∈ below, s.idx x < s.idx v := by
    have falls := inv.falling
    rw [stacked, List.pairwise_append, List.pairwise_cons] at falls
    exact falls.2.1.1
  have off : v ∉ above := by
    intro member
    have falls := inv.falling
    rw [stacked, List.pairwise_append] at falls
    exact Nat.lt_irrefl _ (falls.2.2 v member v List.mem_cons_self)
  have stays : ∀ x, x ∈ s.stack ↔ (x ∈ above ∨ x = v) ∨ x ∈ below := fun x => by
    simp [stacked, or_assoc]
  have settled : ∀ x, Tarjan.Settled { s with stack := below, component, work } x ↔
      (x ∈ above ∨ x = v) ∨ s.Settled x := by
    intro x
    simp only [Settled, popped]
    split
    · next top => simp [top]
    · next top => simp [top]
  have kept : ∀ p, p ∈ work.map Prod.fst → s.AtWork p := fun p member => by
    rw [AtWork, working]
    exact List.mem_cons_of_mem _ member
  have on : ∀ p x, s.AtWork p → s.idx p ≤ s.idx x → s.idx x < s.idx v → p ∈ work.map Prod.fst := by
    intro p x onwork le less
    have member : p = v ∨ p ∈ work.map Prod.fst := by simpa [AtWork, working] using onwork
    refine member.resolve_left fun same => ?_
    rw [same] at le
    exact absurd less (Nat.not_lt.mpr le)
  have past : ∀ x, x ∈ above ∨ x = v → x ∈ s.stack ∧ s.idx v ≤ s.idx x := fun x top =>
    have hx : x ∈ s.stack := (stays x).mpr (.inl top)
    ⟨hx, (inv.top_iff stacked hx).mp top⟩
  have root_of_top : ∀ x, x ∈ above ∨ x = v → Connected (targets graph) x v := fun x top =>
    have ⟨hx, le⟩ := past x top
    ⟨inv.reach_root working root hx le, inv.above v (by simp [AtWork, working]) x hx le⟩
  have apart : ∀ x y, x ∈ above ∨ x = v → s.Settled y → ¬ Connected (targets graph) x y := by
    intro x y top done pair
    exact inv.unsettled x (past x top).1 (pair.2.stays inv.closed done)
  refine
    { found := ?_, unsettled := ?_, numbered := inv.numbered, falling := ?_, working := ?_
      known := fun x hx => inv.known x (down x hx), edges := ?_, seen := ?_
      least_le := fun x hx => inv.least_le x (down x hx), least_reach := ?_, least_lt := ?_
      above := fun p onwork x hx => inv.above p (kept p onwork) x (down x hx), told := ?_
      rooted := ?_, closed := ?_, connected := ?_, whole := ?_ }
  · intro x
    rw [settled, ← or_assoc, or_comm (a := x ∈ below), ← stays]
    exact inv.found x
  · intro x hx done
    cases (settled x).mp done with
    | inl top => exact absurd (under x hx) (Nat.not_lt.mpr (past x top).2)
    | inr done => exact inv.unsettled x (down x hx) done
  · have falls := inv.falling
    rw [stacked, List.pairwise_append, List.pairwise_cons] at falls
    exact falls.2.1.2
  · have before := inv.working
    rw [working, stacked] at before
    exact sublist_below off before
  · intro entry member
    exact inv.edges entry (by rw [working]; exact List.mem_cons_of_mem _ member)
  · intro x hx y examined other
    have before : s.Examined graph x y := examined_of_finished working examined
    obtain ⟨found, heeded⟩ := inv.seen x (down x hx) y before other
    exact ⟨found, fun hy => heeded (down y hy)⟩
  · intro x hx
    obtain ⟨y, hy, reaches, path⟩ := inv.least_reach x (down x hx)
    have less : s.idx y < s.idx v :=
      reaches ▸ Nat.lt_of_le_of_lt (inv.least_le x (down x hx)) (under x hx)
    refine ⟨y, ((stays y).mp hy).resolve_left fun top => ?_, reaches, path⟩
    exact absurd less (Nat.not_lt.mpr (past y top).2)
  · intro x hx idle
    exact inv.least_lt x (down x hx) fun onwork =>
      idle (on x x onwork (Nat.le_refl _) (under x hx))
  · intro x hx idle p nearest
    obtain ⟨onwork, le, best⟩ := nearest
    exact inv.told x (down x hx) (fun busy => idle (on x x busy (Nat.le_refl _) (under x hx))) p
      ⟨kept p onwork, le, fun q hq qunder => best q (on q x hq qunder (under x hx)) qunder⟩
  · intro x hx
    obtain ⟨p, onwork, le⟩ := inv.rooted x (down x hx)
    exact ⟨p, on p x onwork le (under x hx), le⟩
  · intro x done w edge
    rw [settled]
    cases (settled x).mp done with
    | inl top =>
      have ⟨hx, le⟩ := past x top
      exact (inv.edge_top working root hx le edge).imp_left fun ⟨hw, leW⟩ =>
        (inv.top_iff stacked hw).mpr leW
    | inr done => exact .inr (inv.closed x done w edge)
  · intro x r listed
    rw [popped] at listed
    split at listed
    · next top =>
        cases listed
        exact root_of_top x top
    · exact inv.connected x r listed
  · intro x y hx hy pair
    rw [popped, popped]
    split
    · next top =>
        split
        · rfl
        · next low => exact absurd pair (apart x y top (((settled y).mp hy).resolve_left low))
    · next low =>
        split
        · next top =>
            exact absurd pair.symm (apart y x top (((settled x).mp hx).resolve_left low))
        · next low' =>
            exact inv.whole x y (((settled x).mp hx).resolve_left low)
              (((settled y).mp hy).resolve_left low') pair

end

/-- Handing the low link to the vertex below keeps the invariant. -/
theorem tellParent_keeps (inv : Inv graph none s) (working : s.work = (v, []) :: work) :
    ∃ low, tellParent s.low v work = some low ∧ Inv graph none { s with low } ∧
      ∀ entry, work.head? = some entry →
        Tarjan.least { s with low } entry.1 ≤ Tarjan.least { s with low } v := by
  have hv : v ∈ s.stack := inv.atWork_mem (by simp [AtWork, working])
  match work, working with
  | [], working => exact ⟨s.low, rfl, inv, nofun⟩
  | (p, rest) :: work, working =>
    have on : s.AtWork p := by simp [AtWork, working]
    have less : s.idx p < s.idx v := inv.lt_of_mem_work working (by simp)
    obtain ⟨lp, hlp⟩ := Option.isSome_iff_exists.mp (inv.known p (inv.atWork_mem on))
    obtain ⟨lv, hlv⟩ := Option.isSome_iff_exists.mp (inv.known v hv)
    obtain ⟨y, hy, reaches, path⟩ := inv.least_reach v hv
    have value : s.idx y = lv := by rw [reaches, least, hlv, Option.getD_some]
    have way := (inv.above p on v hv (Nat.le_of_lt less)).trans path
    have told := inv.lowered on hlp hy way
    rw [value] at told
    refine ⟨s.low.set p (min lp lv), by simp [tellParent, lower, hlv, hlp], told, ?_⟩
    intro entry head
    cases head
    have apart : p ≠ v := fun same => Nat.lt_irrefl _ (same ▸ less)
    simp [least, apart, hlv, get?_set]

/-- Popping takes the vertices above `v` and `v` itself into its component. -/
theorem popUntil_eq {above : List α} (below : List α) (off : v ∉ above) (component : Dict α α) :
    ∃ popped, popUntil v (above ++ v :: below) component = some (below, popped) ∧
      ∀ x, popped.get? x = if x ∈ above ∨ x = v then some v else component.get? x := by
  induction above generalizing component with
  | nil =>
    refine ⟨component.set v v, by simp [popUntil], fun x => ?_⟩
    simp [get?_set, eq_comm]
  | cons a above ih =>
    obtain ⟨apart, off⟩ := List.ne_and_not_mem_of_not_mem_cons off
    obtain ⟨popped, ran, value⟩ := ih off (component.set a v)
    refine ⟨popped, by simp [popUntil, Ne.symm apart, ran], fun x => ?_⟩
    rw [value, get?_set]
    by_cases same : a = x
    · subst same
      simp
    · simp [same, Ne.symm same]

/-- Leaving a vertex keeps the invariant, whether or not it closes a component. -/
theorem finish_keeps (inv : Inv graph none s) (working : s.work = (v, []) :: work) :
    ∃ s', s.finish v work = some s' ∧ Inv graph none s' ∧ s'.index = s.index := by
  obtain ⟨low, told, inv', parent⟩ := inv.tellParent_keeps working
  have hv : v ∈ s.stack := inv.atWork_mem (by simp [AtWork, working])
  obtain ⟨l, hl⟩ := Option.isSome_iff_exists.mp (inv'.known v hv)
  obtain ⟨n, hn⟩ := Option.isSome_iff_exists.mp ((inv.found v).mpr (.inl hv))
  have least_eq : Tarjan.least { s with low } v = l := by
    rw [least, hl, Option.getD_some]
  have idx_eq : Tarjan.idx { s with low } v = n := by
    rw [idx, hn, Option.getD_some]
  by_cases root : l = n
  · obtain ⟨above, below, stacked⟩ := List.append_of_mem hv
    have off : v ∉ above := by
      intro member
      have falls := inv.falling
      rw [stacked, List.pairwise_append] at falls
      exact Nat.lt_irrefl _ (falls.2.2 v member v List.mem_cons_self)
    obtain ⟨popped, ran, value⟩ := popUntil_eq below off s.component
    refine ⟨{ s with low, stack := below, component := popped, work }, ?_,
      inv'.close working stacked (by rw [least_eq, idx_eq, root]) value, rfl⟩
    simp [finish, told, hl, hn, root, stacked, ran]
  · refine ⟨{ s with low, work }, by simp [finish, told, hl, hn, root],
      inv'.keep working parent (by rw [least_eq, idx_eq]; exact root), rfl⟩

/-- Every turn of the loop succeeds and keeps the invariant. -/
theorem step_keeps (inv : Inv graph none s) (busy : s.work ≠ [])
    (closed : ∀ v, ∀ w ∈ targets graph v, (graph.get? w).isSome = true) :
    ∃ s', s.step graph = some s' ∧ Inv graph none s' ∧ ∀ x, s.Found x → s'.Found x := by
  match working : s.work with
  | [] => exact absurd working busy
  | (v, []) :: work =>
    obtain ⟨s', ran, inv', index⟩ := inv.finish_keeps working
    refine ⟨s', by simp only [step, working, ran], inv', fun x found => ?_⟩
    rwa [Found, index]
  | (v, w :: edges) :: work =>
    have on : s.AtWork v := by simp [AtWork, working]
    have hv := inv.atWork_mem on
    have edge : w ∈ targets graph v :=
      inv.edges (v, w :: edges) (by simp [working]) List.mem_cons_self
    have pending := inv.advance working
    cases known : s.index.get? w with
    | none =>
      obtain ⟨ends, listed⟩ := Option.isSome_iff_exists.mp (closed v w edge)
      have ends_eq : targets graph w = ends := by rw [targets, listed, Option.getD_some]
      have visited := pending.visit known (fun p hp => ?_) (fun _ same => by cases same; rfl)
      · rw [ends_eq] at visited
        refine ⟨_, by simp only [step, working, known, listed, Option.map_some], visited, ?_⟩
        exact fun x found => (found_visit _ w ends x).mpr (.inr found)
      · have hp' : s.AtWork p := by simpa [AtWork, working] using hp
        have le : s.idx p ≤ s.idx v := by
          have member : p = v ∨ p ∈ work.map Prod.fst := by
            simpa [AtWork, working] using hp'
          cases member with
          | inl same => exact same ▸ Nat.le_refl _
          | inr rest =>
            have falls := inv.work_falling
            rw [working] at falls
            exact Nat.le_of_lt ((List.pairwise_cons.mp falls).1 p rest)
        exact (inv.above p hp' v hv le).trans (.of_mem edge)
    | some n =>
      have found : s.Found w := by simp [Found, known]
      by_cases waiting : w ∈ s.stack
      · obtain ⟨l, hl⟩ := Option.isSome_iff_exists.mp (inv.known v hv)
        have on' : Tarjan.AtWork { s with work := (v, edges) :: work } v := by simp [AtWork]
        have number : s.idx w = n := by rw [idx, known, Option.getD_some]
        have told := pending.lowered on' hl waiting (.of_mem edge)
        refine ⟨{ s with work := (v, edges) :: work, low := s.low.set v (min l n) }, ?_, ?_,
          fun x hx => hx⟩
        · simp [step, working, known, waiting, lower, hl]
        · rw [← number]
          refine told.settle found fun _ => ?_
          simp [least, idx]
      · refine ⟨{ s with work := (v, edges) :: work }, ?_,
          pending.settle found fun here => absurd here waiting, fun x hx => hx⟩
        simp [step, working, known, waiting]

end Inv

section

variable (closed : ∀ v, ∀ w ∈ targets graph v, (graph.get? w).isSome = true)

include closed

/-- A run ends, with the work done and nothing lost. -/
theorem run_keeps (inv : Inv graph none s) :
    ∃ s', s.run graph = some s' ∧ Inv graph none s' ∧ s'.work = [] ∧
      ∀ x, s.Found x → s'.Found x := by
  induction left : s.remaining graph using Nat.strong_induction_on generalizing s with
  | _ n ih =>
    by_cases busy : s.work ≠ []
    · obtain ⟨s', stepped, inv', grows⟩ := inv.step_keeps busy closed
      have less := remaining_step busy stepped
      obtain ⟨last, ran, inv'', idle, grows'⟩ := ih (s'.remaining graph) (left ▸ less) inv' rfl
      refine ⟨last, ?_, inv'', idle, fun x found => grows' x (grows x found)⟩
      rw [run, dif_pos busy]
      split
      · next failed => rw [stepped] at failed; cases failed
      · next s'' again =>
          rw [stepped] at again
          cases again
          exact ran
    · exact ⟨s, by rw [run, dif_neg busy], inv, not_not.mp busy, fun _ found => found⟩

/-- The runs from the roots find every root. -/
theorem fromRoots_keeps {roots : List α} (inv : Inv graph none s) (idle : s.work = [])
    (listed : ∀ root ∈ roots, (graph.get? root).isSome = true) :
    ∃ s', s.fromRoots graph roots = some s' ∧ Inv graph none s' ∧ s'.work = [] ∧
      (∀ x, s.Found x → s'.Found x) ∧ ∀ root ∈ roots, s'.Found root := by
  induction roots generalizing s with
  | nil => exact ⟨s, rfl, inv, idle, fun _ found => found, nofun⟩
  | cons root roots ih =>
    have rest : ∀ r ∈ roots, (graph.get? r).isSome = true :=
      fun r member => listed r (List.mem_cons_of_mem _ member)
    cases known : s.index.get? root with
    | some n =>
      have found : s.Found root := by simp [Found, known]
      obtain ⟨last, ran, inv', idle', grows, all⟩ := ih inv idle rest
      refine ⟨last, by simp [fromRoots, known, ran], inv', idle', grows, ?_⟩
      exact List.forall_mem_cons.mpr ⟨grows root found, all⟩
    | none =>
      obtain ⟨edges, here⟩ := Option.isSome_iff_exists.mp (listed root List.mem_cons_self)
      have ends : targets graph root = edges := by rw [targets, here, Option.getD_some]
      have visited := inv.visit known (fun p on => by simp [AtWork, idle] at on) nofun
      rw [ends] at visited
      obtain ⟨next, ran, inv', idle', grows⟩ := run_keeps closed visited
      obtain ⟨last, more, inv'', idle'', grows', all⟩ := ih inv' idle' rest
      refine ⟨last, by simp [fromRoots, known, here, ran, more], inv'', idle'', ?_, ?_⟩
      · exact fun x found => grows' x (grows x ((found_visit s root edges x).mpr (.inr found)))
      · exact List.forall_mem_cons.mpr
          ⟨grows' root (grows root ((found_visit s root edges root).mpr (.inl rfl))), all⟩

end

/-- The state before the first root. -/
theorem Inv.start : Inv graph none ⟨[], [], [], [], []⟩ where
  found x := by simp [Found, Settled, Dict.get?]
  unsettled := nofun
  numbered x found := by simp [Found, Dict.get?] at found
  falling := .nil
  working := .slnil
  known := nofun
  edges := nofun
  seen := nofun
  least_le := nofun
  least_reach := nofun
  least_lt := nofun
  above := nofun
  told := nofun
  rooted := nofun
  closed x done := by simp [Settled, Dict.get?] at done
  connected x root listed := by simp [Dict.get?] at listed
  whole x y done := by simp [Settled, Dict.get?] at done

end Tarjan

/-- `_components` succeeds on a graph whose edges lead to its nodes, and gives two nodes
one root exactly when they are connected. -/
theorem components_connected {graph : Dict α (List α)}
    (closed : ∀ v, ∀ w ∈ targets graph v, w ∈ graph.keys) :
    ∃ component, components graph = some component ∧
      (∀ v ∈ graph.keys, (component.get? v).isSome = true) ∧
      ∀ u ∈ graph.keys, ∀ v ∈ graph.keys,
        (component.get? u = component.get? v ↔ Connected (targets graph) u v) := by
  have listed : ∀ v, ∀ w ∈ targets graph v, (graph.get? w).isSome = true :=
    fun v w edge => mem_keys_iff.mp (closed v w edge)
  have rooted : ∀ root ∈ graph.keys, (graph.get? root).isSome = true :=
    fun root member => mem_keys_iff.mp member
  obtain ⟨last, ran, inv, idle, _, all⟩ :=
    Tarjan.fromRoots_keeps listed Tarjan.Inv.start rfl rooted
  have settled : ∀ v ∈ graph.keys, last.Settled v := by
    intro v member
    refine ((inv.found v).mp (all v member)).resolve_left fun hv => ?_
    obtain ⟨p, on, _⟩ := inv.rooted v hv
    simp [Tarjan.AtWork, idle] at on
  refine ⟨last.component, by rw [components, ran]; rfl, settled, fun u hu v hv => ?_⟩
  constructor
  · intro same
    obtain ⟨root, hroot⟩ := Option.isSome_iff_exists.mp (settled u hu)
    exact (inv.connected u root hroot).trans (inv.connected v root (same ▸ hroot)).symm
  · exact inv.whole u v (settled u hu) (settled v hv)

end DataViz.View
