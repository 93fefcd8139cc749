/-
# Closures are exact, whatever the memo holds

A call of `ancestor_closure` binds exactly the nodes that can be reached upward, and those that no
cycle can be reached from to their depths. The walk keeps that what is not tainted is complete and
free of cycles, so the memo never holds a closure computed under a cut, whichever calls came before.
-/

import DataViz.Rollup.ClosureWalk

namespace DataViz.Rollup

open Dict

open DataViz.Digraph

variable {α : Type*} [DecidableEq α]

section

variable {closure : Dict α ℕ} {depth : α → ℕ} {good : α → Prop}

/-- A closure binds each good node it holds to its depth, and each node once. -/
structure Reads (depth : α → ℕ) (good : α → Prop) (closure : Dict α ℕ) : Prop where
  nodup : closure.keys.Nodup
  depths : ∀ entry ∈ closure, good entry.1 → entry.2 = depth entry.1

theorem mem_keys_mergeEntry (closure : Dict α ℕ) (entry : α × ℕ) (node : α) :
    node ∈ (mergeEntry closure entry).keys ↔ node = entry.1 ∨ node ∈ closure.keys := by
  rw [mergeEntry]
  cases held : closure.get? entry.1 with
  | none => exact mem_keys_set
  | some d =>
    have old : entry.1 ∈ closure.keys := by
      rw [mem_keys_iff, held]
      rfl
    dsimp only
    split
    · exact mem_keys_set
    · exact ⟨.inr, fun either => either.elim (fun same => same ▸ old) id⟩

theorem Reads.mergeEntry (reads : Reads depth good closure) {entry : α × ℕ}
    (own : good entry.1 → entry.2 = depth entry.1) :
    Reads depth good (mergeEntry closure entry) := by
  have set : Reads depth good (closure.set entry.1 entry.2) :=
    ⟨nodup_keys_set reads.nodup _ _, fun other mem good' => by
      rcases eq_or_mem_of_mem_set mem with rfl | old
      · exact own good'
      · exact reads.depths other old good'⟩
  rw [Rollup.mergeEntry]
  split
  · split
    · exact set
    · exact reads
  · exact set

theorem mem_keys_mergeEntries (entries closure : Dict α ℕ) (node : α) :
    node ∈ (entries.foldl mergeEntry closure).keys ↔ node ∈ closure.keys ∨ node ∈ entries.keys := by
  induction entries generalizing closure with
  | nil => simp [Dict.keys]
  | cons entry rest ih =>
    have keys : Dict.keys (entry :: rest) = entry.1 :: Dict.keys rest := rfl
    rw [List.foldl_cons, ih, mem_keys_mergeEntry, keys, List.mem_cons]
    tauto

theorem Reads.mergeEntries (reads : Reads depth good closure) {entries : Dict α ℕ}
    (own : ∀ entry ∈ entries, good entry.1 → entry.2 = depth entry.1) :
    Reads depth good (entries.foldl Rollup.mergeEntry closure) := by
  induction entries generalizing closure with
  | nil => exact reads
  | cons entry rest ih =>
    exact ih (reads.mergeEntry (own entry List.mem_cons_self)) fun later mem =>
      own later (List.mem_cons_of_mem _ mem)

variable {node : α} {parents : List (α × Dict α ℕ)}

theorem mem_keys_mergeClosures (parents : List (α × Dict α ℕ)) (closure : Dict α ℕ) (b : α) :
    b ∈ (parents.foldl (fun closure parent => parent.2.foldl mergeEntry closure) closure).keys ↔
      b ∈ closure.keys ∨ ∃ parent ∈ parents, b ∈ parent.2.keys := by
  induction parents generalizing closure with
  | nil => simp
  | cons parent rest ih =>
    rw [List.foldl_cons, ih, mem_keys_mergeEntries]
    simp [or_assoc]

/-- Reading the parents' depths finds one more than the largest. -/
theorem foldl_depthBelow {depth : α → ℕ} {parents : List (α × Dict α ℕ)}
    (own : ∀ parent ∈ parents, parent.2.get? parent.1 = some (depth parent.1)) (start : ℕ) :
    parents.foldl depthBelow start =
      (parents.map fun parent => depth parent.1 + 1).foldl max start := by
  induction parents generalizing start with
  | nil => rfl
  | cons parent rest ih =>
    rw [List.foldl_cons, ih fun later member => own later (List.mem_cons_of_mem _ member),
      List.map_cons, List.foldl_cons]
    congr 1
    simp only [depthBelow, own parent List.mem_cons_self]
    split <;> omega

theorem mem_keys_joinClosures {b : α} :
    b ∈ (joinClosures node parents).keys ↔ b = node ∨ ∃ parent ∈ parents, b ∈ parent.2.keys := by
  rw [joinClosures, mem_keys_set, mem_keys_mergeClosures]
  simp [Dict.keys]

theorem Reads.joinClosures (each : ∀ parent ∈ parents, Reads depth good parent.2)
    (own : good node → parents.foldl depthBelow 0 = depth node) :
    Reads depth good (joinClosures node parents) := by
  have merged : Reads depth good
      (parents.foldl (fun closure parent => parent.2.foldl Rollup.mergeEntry closure) []) := by
    refine List.foldlRecOn (motive := Reads depth good) _ _ ⟨List.nodup_nil, nofun⟩ ?_
    exact fun closure reads parent mem => reads.mergeEntries (each parent mem).depths
  refine ⟨nodup_keys_set merged.nodup _ _, fun entry mem good' => ?_⟩
  rcases eq_or_mem_of_mem_set mem with rfl | old
  · exact own good'
  · exact merged.depths entry old good'

end

section

def ups (parents : Dict α (List α)) (node : α) : List α :=
  (parentsOf parents node).filter (· ≠ node)

variable {parents : Dict α (List α)}

theorem mem_ups {node p : α} : p ∈ ups parents node ↔ p ∈ parentsOf parents node ∧ p ≠ node := by
  rw [ups, List.mem_filter, decide_eq_true_eq]

theorem parentsOf_subset (node : α) : parentsOf parents node ⊆ nodesOf parents := by
  intro p mem
  rw [parentsOf] at mem
  cases held : parents.get? node with
  | none => simp [held] at mem
  | some ps =>
    rw [held] at mem
    exact List.mem_append_right _ (List.mem_flatMap.2 ⟨(node, ps), mem_of_get? held, mem⟩)

variable {node : α}

theorem ends_of_cycleFree (free : CycleFree (ups parents) node) : Ends (ups parents) node := by
  have within : ∀ node, ups parents node ⊆ nodesOf parents := fun node _ mem =>
    parentsOf_subset node (mem_ups.1 mem).1
  exact free.ends within

theorem reach_iff {node b : α} :
    Reach (ups parents) node b ↔ b = node ∨ ∃ p ∈ ups parents node, Reach (ups parents) p b := by
  constructor
  · intro path
    rcases Relation.ReflTransGen.cases_head path with same | ⟨p, edge, later⟩
    · exact .inl same.symm
    · exact .inr ⟨p, edge, later⟩
  · rintro (rfl | ⟨p, edge, later⟩)
    · exact .refl _
    · exact (Reach.of_mem edge).trans later

/-- A link of a node to itself leads nowhere else. -/
theorem reach_ups {node b : α} : Reach (ups parents) node b ↔ Reach (parentsOf parents) node b := by
  constructor
  · exact fun path => path.mono fun _ _ edge => (mem_ups.1 edge).1
  · intro path
    induction path with
    | refl => exact .refl _
    | @tail c d _ edge ih =>
      by_cases same : d = c
      · exact same ▸ ih
      · exact ih.trans (.of_mem (mem_ups.2 ⟨edge, same⟩))

/-- A closure of a node: it holds the node, nothing that cannot be reached upward, and the depths of
the nodes that no cycle can be reached from. -/
structure Sound (parents : Dict α (List α)) (node : α) (closure : Dict α ℕ) : Prop where
  reads : Reads (depth (ups parents)) (CycleFree (ups parents)) closure
  self : node ∈ closure.keys
  reached : ∀ b ∈ closure.keys, Reach (ups parents) node b

/-- A closure that holds all that can be reached upward. -/
structure Exact (parents : Dict α (List α)) (node : α) (closure : Dict α ℕ) : Prop
    extends Sound parents node closure where
  all : ∀ b, Reach (ups parents) node b → b ∈ closure.keys

theorem Sound.get?_self {closure : Dict α ℕ} (sound : Sound parents node closure)
    (free : CycleFree (ups parents) node) :
    closure.get? node = some (depth (ups parents) node) := by
  obtain ⟨d, held⟩ := Option.isSome_iff_exists.1 (mem_keys_iff.1 sound.self)
  rw [held]
  exact congrArg some (sound.reads.depths (node, d) (mem_of_get? held) free)

theorem Sound.join {known : List (α × Dict α ℕ)}
    (each : ∀ p ∈ known, p.1 ∈ ups parents node ∧ Sound parents p.1 p.2)
    (all : CycleFree (ups parents) node → known.map Prod.fst = ups parents node) :
    Sound parents node (joinClosures node known) where
  reads := by
    refine Reads.joinClosures (fun p mem => (each p mem).2.reads) fun free => ?_
    have own : ∀ p ∈ known, p.2.get? p.1 = some (depth (ups parents) p.1) := fun p mem =>
      (each p mem).2.get?_self (free.of_reach (.of_mem (each p mem).1))
    have same : (known.map fun p => depth (ups parents) p.1 + 1) =
        (ups parents node).map fun p => depth (ups parents) p + 1 := by
      rw [← all free, List.map_map]
      rfl
    rw [foldl_depthBelow own, same, depth_eq (ends_of_cycleFree free), List.foldr_eq_foldl]
  self := mem_keys_joinClosures.2 (.inl rfl)
  reached b mem := by
    rcases mem_keys_joinClosures.1 mem with rfl | ⟨p, known, inside⟩
    · exact .refl b
    · exact (Reach.of_mem (each p known).1).trans ((each p known).2.reached b inside)

end

namespace ClosureWalk

section

variable {parents : Dict α (List α)} {start : α} {walk : ClosureWalk α}

/-- The parents a node on the way has looked at are known, or cut, or the node above it. -/
def Looked (parents : Dict α (List α)) (walk : ClosureWalk α) : Option α → List (α × List α) → Prop
  | _, [] => True
  | above, (cur, rest) :: below =>
    (∀ p ∈ ups parents cur, p ∈ rest ∨ (walk.closureOf p).isSome = true ∨
      (cur ∈ walk.tainted ∧ p ∈ walk.onStack) ∨ above = some p) ∧
    Looked parents walk (some cur) below

def Within (closure other : Dict α ℕ) : Prop :=
  ∀ b ∈ closure.keys, b ∈ other.keys

/-- What holds of a memo: each closure in it is complete, of a node free of cycles. -/
def GoodMemo (parents : Dict α (List α)) (memo : Dict α (Dict α ℕ)) : Prop :=
  ∀ a closure, memo.get? a = some closure → Exact parents a closure ∧ CycleFree (ups parents) a

structure Inv (parents : Dict α (List α)) (start : α) (walk : ClosureWalk α) : Prop where
  /-- The nodes on the way lead up from `start`, each once, and none is done. -/
  way : walk.onStack.IsChain fun upper lower => upper ∈ ups parents lower
  bottom : (walk.onStack = [] ∧ (walk.local_.get? start).isSome = true) ∨
    ∃ front, walk.onStack = front ++ [start]
  nodup : walk.onStack.Nodup
  fresh : ∀ a ∈ walk.onStack, walk.closureOf a = none
  rests : ∀ frame ∈ walk.stack, frame.2 ⊆ parentsOf parents frame.1
  looked : Looked parents walk none walk.stack
  /-- What is tainted can reach a cycle; what is not is complete. -/
  tainted : ∀ a ∈ walk.tainted, ¬CycleFree (ups parents) a
  memo : GoodMemo parents walk.memo
  sound : ∀ a closure, walk.local_.get? a = some closure → Sound parents a closure
  clean : ∀ a closure, walk.local_.get? a = some closure → a ∉ walk.tainted →
    Exact parents a closure ∧ CycleFree (ups parents) a
  /-- The parents of a done node are on the way, done, or in the memo and in its closure. -/
  edges : ∀ a closure, walk.local_.get? a = some closure → ∀ p ∈ ups parents a,
    p ∈ walk.onStack ∨ (walk.local_.get? p).isSome = true ∨
      ∃ above, walk.memo.get? p = some above ∧ Within above closure
  /-- Each closure is part of that of a done parent of a node on the way, or of `start`'s. -/
  covered : ∀ a closure, walk.local_.get? a = some closure →
    (∃ c ∈ walk.onStack, ∃ p ∈ ups parents c, ∃ above, walk.local_.get? p = some above ∧
      Within closure above) ∨
    walk.onStack = [] ∧ ∃ whole, walk.local_.get? start = some whole ∧ Within closure whole

variable {closure : Dict α ℕ}

theorem Inv.closureOf_sound (inv : Inv parents start walk) {a : α}
    (known : walk.closureOf a = some closure) : Sound parents a closure := by
  rw [closureOf, Option.or_eq_some_iff] at known
  rcases known with done | ⟨-, kept⟩
  · exact inv.sound a closure done
  · exact (inv.memo a closure kept).1.toSound

theorem Inv.closureOf_exact (inv : Inv parents start walk) {a : α}
    (known : walk.closureOf a = some closure) (clean : a ∉ walk.tainted) :
    Exact parents a closure ∧ CycleFree (ups parents) a := by
  rw [closureOf, Option.or_eq_some_iff] at known
  rcases known with done | ⟨-, kept⟩
  · exact inv.clean a closure done clean
  · exact inv.memo a closure kept

theorem Looked.mono {other : ClosureWalk α} (known : ∀ a, (walk.closureOf a).isSome = true →
      (other.closureOf a).isSome = true) (tainted : walk.tainted ⊆ other.tainted)
    (onStack : walk.onStack ⊆ other.onStack) {above : Option α} {stack : List (α × List α)}
    (looked : Looked parents walk above stack) : Looked parents other above stack := by
  induction stack generalizing above with
  | nil => trivial
  | cons frame below ih =>
    refine ⟨fun p mem => ?_, ih looked.2⟩
    rcases looked.1 p mem with rest | done | ⟨taint, on⟩ | here
    · exact .inl rest
    · exact .inr (.inl (known p done))
    · exact .inr (.inr (.inl ⟨tainted taint, onStack on⟩))
    · exact .inr (.inr (.inr here))

variable {below : List (α × List α)} {cur p : α} {rest : List α}

/-- The node on top has looked at a parent that needs no walk: its closure is known, or the link is
cut and the node tainted. -/
theorem Inv.advance (inv : Inv parents start walk) (top : walk.stack = (cur, p :: rest) :: below)
    {tainted : List α} (more : walk.tainted ⊆ tainted)
    (cycle : ∀ a ∈ tainted, a ∈ walk.tainted ∨ ¬CycleFree (ups parents) a)
    (handled : p ∈ ups parents cur →
      (walk.closureOf p).isSome = true ∨ (cur ∈ tainted ∧ p ∈ walk.onStack)) :
    Inv parents start { walk with stack := (cur, rest) :: below, tainted } := by
  let next : ClosureWalk α := { walk with stack := (cur, rest) :: below, tainted }
  have same : next.onStack = walk.onStack := by
    simp only [onStack, top, next, List.map_cons]
  have known : ∀ a, (walk.closureOf a).isSome = true → (next.closureOf a).isSome = true :=
    fun _ done => done
  have own : p :: rest ⊆ parentsOf parents cur :=
    inv.rests (cur, p :: rest) (top ▸ List.mem_cons_self)
  have looked := inv.looked
  rw [top] at looked
  refine ⟨same ▸ inv.way, same ▸ inv.bottom, same ▸ inv.nodup, same ▸ inv.fresh, ?_, ?_, ?_,
    inv.memo, inv.sound, ?_, same ▸ inv.edges, same ▸ inv.covered⟩
  · intro frame mem
    rcases List.mem_cons.1 mem with rfl | mem
    · exact fun q here => own (List.mem_cons_of_mem _ here)
    · exact inv.rests frame (top ▸ List.mem_cons_of_mem _ mem)
  · refine ⟨fun q mem => ?_, looked.2.mono known more (same ▸ List.Subset.refl _)⟩
    rcases looked.1 q mem with listed | done | ⟨taint, on⟩ | here
    · rcases List.mem_cons.1 listed with rfl | listed
      · exact (handled mem).elim (fun done => .inr (.inl done))
          fun cut => .inr (.inr (.inl ⟨cut.1, same ▸ cut.2⟩))
      · exact .inl listed
    · exact .inr (.inl done)
    · exact .inr (.inr (.inl ⟨more taint, same ▸ on⟩))
    · cases here
  · exact fun a mem => (cycle a mem).elim (inv.tainted a) id
  · exact fun a closure done clean => inv.clean a closure done fun taint => clean (more taint)

theorem Inv.push (inv : Inv parents start walk) (top : walk.stack = (cur, p :: rest) :: below)
    (other : p ≠ cur) (off : p ∉ walk.onStack) (new : walk.closureOf p = none) :
    Inv parents start { walk with stack := (p, parentsOf parents p) :: (cur, rest) :: below } := by
  let next : ClosureWalk α :=
    { walk with stack := (p, parentsOf parents p) :: (cur, rest) :: below }
  have whole : walk.onStack = cur :: below.map Prod.fst := by
    simp only [onStack, top, List.map_cons]
  have longer : next.onStack = p :: walk.onStack := by
    rw [whole]
    rfl
  have grows : walk.onStack ⊆ next.onStack := longer ▸ List.subset_cons_self _ _
  have own : p :: rest ⊆ parentsOf parents cur :=
    inv.rests (cur, p :: rest) (top ▸ List.mem_cons_self)
  have looked := inv.looked
  rw [top] at looked
  have known : ∀ a, (walk.closureOf a).isSome = true → (next.closureOf a).isSome = true :=
    fun _ done => done
  have later : Looked parents next (some cur) below :=
    looked.2.mono known (List.Subset.refl _) grows
  constructor
  case way =>
    exact List.isChain_cons_cons.2 ⟨mem_ups.2 ⟨own List.mem_cons_self, other⟩, whole ▸ inv.way⟩
  case bottom =>
    refine .inr ?_
    rcases inv.bottom with ⟨none, -⟩ | ⟨front, split⟩
    · rw [whole] at none
      cases none
    · exact ⟨p :: front, by rw [longer, split, List.cons_append]⟩
  case nodup => exact longer ▸ List.nodup_cons.2 ⟨off, inv.nodup⟩
  case fresh =>
    intro a mem
    rw [longer] at mem
    rcases List.mem_cons.1 mem with rfl | mem
    · exact new
    · exact inv.fresh a mem
  case rests =>
    intro frame mem
    rcases List.mem_cons.1 mem with rfl | mem
    · exact List.Subset.refl _
    · rcases List.mem_cons.1 mem with rfl | mem
      · exact fun q here => own (List.mem_cons_of_mem _ here)
      · exact inv.rests frame (top ▸ List.mem_cons_of_mem _ mem)
  case looked =>
    refine ⟨fun q mem => .inl (mem_ups.1 mem).1, fun q mem => ?_, later⟩
    rcases looked.1 q mem with listed | done | ⟨taint, on⟩ | here
    · rcases List.mem_cons.1 listed with rfl | listed
      · exact .inr (.inr (.inr rfl))
      · exact .inl listed
    · exact .inr (.inl done)
    · exact .inr (.inr (.inl ⟨taint, grows on⟩))
    · cases here
  case tainted => exact inv.tainted
  case memo => exact inv.memo
  case sound => exact inv.sound
  case clean => exact inv.clean
  case edges =>
    intro a closure done q mem
    exact (inv.edges a closure done q mem).imp_left fun on => grows on
  case covered =>
    intro a closure done
    rcases inv.covered a closure done with ⟨c, on, covers⟩ | ⟨none, -⟩
    · exact .inl ⟨c, grows on, covers⟩
    · rw [whole] at none
      cases none

variable {cur : α}

theorem mem_known {entry : α × Dict α ℕ} : entry ∈ walk.known parents cur ↔
      entry.1 ∈ ups parents cur ∧ walk.closureOf entry.1 = some entry.2 := by
  rw [known, List.mem_filterMap, mem_ups]
  constructor
  · rintro ⟨p, mem, made⟩
    split at made
    case isTrue => cases made
    case isFalse other =>
      obtain ⟨closure, here, rfl⟩ := Option.map_eq_some_iff.1 made
      exact ⟨⟨mem, other⟩, here⟩
  · rintro ⟨⟨mem, other⟩, here⟩
    exact ⟨entry.1, mem, by rw [if_neg other, here]; rfl⟩

/-- Where all its parents are known, none is left out. -/
theorem map_fst_known (all : ∀ p ∈ ups parents cur, (walk.closureOf p).isSome = true) :
    (walk.known parents cur).map Prod.fst = ups parents cur := by
  rw [known, ups]
  rw [ups] at all
  generalize parentsOf parents cur = listed at all ⊢
  induction listed with
  | nil => rfl
  | cons p rest ih =>
    rw [List.filter_cons] at all
    by_cases same : p = cur
    · rw [if_neg (by simp [same])] at all
      rw [List.filter_cons, if_neg (by simp [same]), List.filterMap_cons, if_pos same]
      exact ih all
    · rw [if_pos (by simp [same])] at all
      rw [List.filter_cons, if_pos (by simp [same])]
      obtain ⟨here, later⟩ := List.forall_mem_cons.1 all
      obtain ⟨closure, held⟩ := Option.isSome_iff_exists.1 here
      rw [List.filterMap_cons, if_neg same, held]
      exact congrArg (p :: ·) (ih later)

/-- The frames below a node that is done. -/
theorem Looked.pop {other : ClosureWalk α}
    (known : ∀ a, (walk.closureOf a).isSome = true → (other.closureOf a).isSome = true)
    (done : (other.closureOf cur).isSome = true) (tainted : walk.tainted ⊆ other.tainted)
    (onStack : ∀ a ∈ walk.onStack, a = cur ∨ a ∈ other.onStack) :
    ∀ {above above' : Option α} {stack : List (α × List α)}, (above = some cur ∨ above = above') →
      Looked parents walk above stack → Looked parents other above' stack
  | _, _, [], _, _ => trivial
  | _, _, frame :: below, from_, looked => by
    refine ⟨fun p mem => ?_, Looked.pop known done tainted onStack (.inr rfl) looked.2⟩
    rcases looked.1 p mem with rest | there | ⟨taint, on⟩ | here
    · exact .inl rest
    · exact .inr (.inl (known p there))
    · rcases onStack p on with rfl | on
      · exact .inr (.inl done)
      · exact .inr (.inr (.inl ⟨tainted taint, on⟩))
    · rcases from_ with top | same
      · rw [top, Option.some_inj] at here
        exact .inr (.inl (here ▸ done))
      · exact .inr (.inr (.inr (same ▸ here)))

section

variable (parents) (walk) (cur : α) (below : List (α × List α))

/-- The closure a node that is done gets. -/
def joined : Dict α ℕ :=
  joinClosures cur (walk.known parents cur)

theorem get?_local_close (a : α) : (walk.close parents cur below).local_.get? a =
    if cur = a then some (walk.joined parents cur) else walk.local_.get? a :=
  get?_set _ _ _ _

theorem get?_memo_close {a : α} (other : a ≠ cur) :
    (walk.close parents cur below).memo.get? a = walk.memo.get? a := by
  have kept : (walk.close parents cur below).memo = walk.memo ∨
      (walk.close parents cur below).memo = walk.memo.set cur (walk.joined parents cur) := by
    simp only [close]
    split
    · split
      · exact .inl rfl
      · exact .inr rfl
    · split
      · exact .inl rfl
      · exact .inr rfl
  rcases kept with same | set
  · rw [same]
  · rw [set, get?_set_ne (Ne.symm other)]

/-- What the memo holds of the node, if anything. -/
theorem get?_memo_close_self : (walk.close parents cur below).memo.get? cur = walk.memo.get? cur ∨
    ((walk.close parents cur below).memo.get? cur = some (walk.joined parents cur) ∧
      cur ∉ (walk.close parents cur below).tainted) := by
  by_cases taint : cur ∈ (walk.close parents cur below).tainted
  · left
    have kept : (walk.close parents cur below).memo = walk.memo := if_pos taint
    rw [kept]
  · right
    have set : (walk.close parents cur below).memo =
        walk.memo.set cur (walk.joined parents cur) := if_neg taint
    exact ⟨by rw [set, get?_set_self], taint⟩

theorem tainted_subset_close : walk.tainted ⊆ (walk.close parents cur below).tainted := by
  simp only [close]
  split
  · exact List.subset_cons_self _ _
  · exact List.Subset.refl _

theorem mem_tainted_close {a : α} (mem : a ∈ (walk.close parents cur below).tainted) :
    a ∈ walk.tainted ∨ (a = cur ∧ ∃ p ∈ walk.known parents cur, p.1 ∈ walk.tainted) := by
  simp only [close] at mem
  split at mem
  case isTrue found => exact (List.mem_cons.1 mem).elim (fun same => .inr ⟨same, found⟩) .inl
  case isFalse => exact .inl mem

theorem clean_close (clean : cur ∉ (walk.close parents cur below).tainted) :
    ∀ p ∈ walk.known parents cur, p.1 ∉ walk.tainted := by
  intro p mem taint
  refine clean ?_
  simp only [close]
  rw [if_pos ⟨p, mem, taint⟩]
  exact List.mem_cons_self

theorem isSome_closureOf_close {a : α} (known : (walk.closureOf a).isSome = true) :
    ((walk.close parents cur below).closureOf a).isSome = true := by
  rw [closureOf, get?_local_close]
  by_cases same : cur = a
  · rw [if_pos same]
    rfl
  · rw [if_neg same, get?_memo_close _ _ _ _ (Ne.symm same)]
    exact known

end

theorem Inv.close (inv : Inv parents start walk) (top : walk.stack = (cur, []) :: below) :
    Inv parents start (walk.close parents cur below) := by
  have whole : walk.onStack = cur :: below.map Prod.fst := by
    simp only [onStack, top, List.map_cons]
  have unique := inv.nodup
  rw [whole, List.nodup_cons] at unique
  have new : walk.closureOf cur = none := inv.fresh cur (whole ▸ List.mem_cons_self)
  have newHere : walk.local_.get? cur = none ∧ walk.memo.get? cur = none := by
    rwa [closureOf, Option.or_eq_none_iff] at new
  have seen : ∀ p ∈ ups parents cur,
      (walk.closureOf p).isSome = true ∨ (cur ∈ walk.tainted ∧ p ∈ walk.onStack) := by
    intro p mem
    have looked := inv.looked
    rw [top] at looked
    rcases looked.1 p mem with listed | done | cut | here
    · cases listed
    · exact .inl done
    · exact .inr cut
    · cases here
  have each : ∀ p ∈ walk.known parents cur, p.1 ∈ ups parents cur ∧ Sound parents p.1 p.2 :=
    fun p mem => ⟨(mem_known.1 mem).1, inv.closureOf_sound (mem_known.1 mem).2⟩
  have sound : Sound parents cur (walk.joined parents cur) := by
    refine Sound.join each fun free => map_fst_known fun p mem => ?_
    exact (seen p mem).elim id fun cut => absurd free (inv.tainted cur cut.1)
  have cycle : ∀ a ∈ (walk.close parents cur below).tainted, ¬CycleFree (ups parents) a := by
    intro a mem free
    rcases mem_tainted_close _ _ _ _ mem with old | ⟨rfl, p, known, taint⟩
    · exact inv.tainted a old free
    · exact inv.tainted p.1 taint (free.of_reach (.of_mem (each p known).1))
  have clean : cur ∉ (walk.close parents cur below).tainted →
      Exact parents cur (walk.joined parents cur) ∧ CycleFree (ups parents) cur := by
    intro off
    have untainted := clean_close parents walk cur below off
    have exact_ : ∀ p ∈ ups parents cur, ∃ closure, (p, closure) ∈ walk.known parents cur ∧
        Exact parents p closure ∧ CycleFree (ups parents) p := by
      intro p mem
      rcases seen p mem with done | ⟨taint, -⟩
      · obtain ⟨closure, held⟩ := Option.isSome_iff_exists.1 done
        have known : (p, closure) ∈ walk.known parents cur := mem_known.2 ⟨mem, held⟩
        exact ⟨closure, known, inv.closureOf_exact held (untainted _ known)⟩
      · exact absurd (tainted_subset_close parents walk cur below taint) off
    refine ⟨⟨sound, fun b path => ?_⟩, cycleFree_iff.2 fun p mem => ?_⟩
    · refine mem_keys_joinClosures.2 ((reach_iff.1 path).imp id fun ⟨p, mem, later⟩ => ?_)
      obtain ⟨closure, known, complete, -⟩ := exact_ p mem
      exact ⟨(p, closure), known, complete.all b later⟩
    · obtain ⟨closure, -, -, free⟩ := exact_ p mem
      exact free
  have within : ∀ {p : α} {above : Dict α ℕ}, p ∈ ups parents cur →
      walk.closureOf p = some above → Within above (walk.joined parents cur) :=
    fun {p above} mem held b inside =>
      mem_keys_joinClosures.2 (.inr ⟨(p, above), mem_known.2 ⟨mem, held⟩, inside⟩)
  have done : ((walk.close parents cur below).local_.get? cur) =
      some (walk.joined parents cur) := by
    rw [get?_local_close, if_pos rfl]
  have old : ∀ {a : α} {closure : Dict α ℕ}, walk.local_.get? a = some closure →
      (walk.close parents cur below).local_.get? a = some closure := by
    intro a closure held
    rw [get?_local_close, if_neg, held]
    rintro rfl
    rw [newHere.1] at held
    cases held
  have split : ∀ {a : α} {closure : Dict α ℕ},
      (walk.close parents cur below).local_.get? a = some closure →
      (a = cur ∧ closure = walk.joined parents cur) ∨
        (a ≠ cur ∧ walk.local_.get? a = some closure) := by
    intro a closure held
    rw [get?_local_close] at held
    by_cases same : cur = a
    · rw [if_pos same, Option.some_inj] at held
      exact .inl ⟨same.symm, held.symm⟩
    · rw [if_neg same] at held
      exact .inr ⟨Ne.symm same, held⟩
  have stays : ∀ a ∈ walk.onStack, a = cur ∨ a ∈ below.map Prod.fst := by
    intro a mem
    rwa [whole, List.mem_cons] at mem
  -- What is part of the new closure is part of a done parent's of the node below, or of `start`'s.
  have covers : ∀ closure, Within closure (walk.joined parents cur) →
      (∃ c ∈ below.map Prod.fst, ∃ p ∈ ups parents c, ∃ above,
        (walk.close parents cur below).local_.get? p = some above ∧ Within closure above) ∨
      below.map Prod.fst = [] ∧ ∃ whole, (walk.close parents cur below).local_.get? start =
        some whole ∧ Within closure whole := by
    intro closure part
    have way := inv.way
    rw [whole] at way
    cases lower : below.map Prod.fst with
    | nil =>
      right
      refine ⟨rfl, _, ?_, part⟩
      rcases inv.bottom with ⟨none, -⟩ | ⟨front, ends⟩
      · rw [whole] at none
        cases none
      · rw [whole, lower] at ends
        cases front with
        | nil => exact (List.singleton_inj.1 ends) ▸ done
        | cons b front => simp at ends
    | cons c rest =>
      left
      rw [lower] at way
      exact ⟨c, List.mem_cons_self, cur, (List.isChain_cons_cons.1 way).1, _, done, part⟩
  constructor
  case way =>
    have way := inv.way
    rw [whole] at way
    exact way.tail
  case bottom =>
    rcases inv.bottom with ⟨none, -⟩ | ⟨front, ends⟩
    · rw [whole] at none
      cases none
    · rw [whole] at ends
      cases front with
      | nil =>
        obtain ⟨same, none⟩ := List.cons.inj ends
        exact .inl ⟨none, by rw [← same, done]; rfl⟩
      | cons b front => exact .inr ⟨front, (List.cons.inj ends).2⟩
  case nodup => exact unique.2
  case fresh =>
    intro a mem
    have other : a ≠ cur := fun same => unique.1 (same ▸ mem)
    have before := inv.fresh a (whole ▸ List.mem_cons_of_mem _ mem)
    rw [closureOf, get?_local_close, if_neg (Ne.symm other), get?_memo_close _ _ _ _ other]
    exact before
  case rests => exact fun frame mem => inv.rests frame (top ▸ List.mem_cons_of_mem _ mem)
  case looked =>
    have looked := inv.looked
    rw [top] at looked
    refine Looked.pop (fun a => isSome_closureOf_close parents walk cur below) ?_
      (tainted_subset_close parents walk cur below) stays (.inl rfl) looked.2
    rw [closureOf, done]
    rfl
  case tainted => exact cycle
  case memo =>
    intro a closure held
    by_cases same : a = cur
    · subst same
      rcases get?_memo_close_self parents walk a below with kept | ⟨set, off⟩
      · rw [kept, newHere.2] at held
        cases held
      · rw [set, Option.some_inj] at held
        exact held ▸ clean off
    · rw [get?_memo_close _ _ _ _ same] at held
      exact inv.memo a closure held
  case sound =>
    intro a closure held
    rcases split held with ⟨rfl, rfl⟩ | ⟨-, before⟩
    · exact sound
    · exact inv.sound a closure before
  case clean =>
    intro a closure held off
    rcases split held with ⟨rfl, rfl⟩ | ⟨-, before⟩
    · exact clean off
    · exact inv.clean a closure before fun taint =>
        off (tainted_subset_close parents walk cur below taint)
  case edges =>
    intro a closure held p mem
    rcases split held with ⟨rfl, rfl⟩ | ⟨-, before⟩
    · have other : p ≠ a := (mem_ups.1 mem).2
      rcases seen p mem with known | ⟨-, on⟩
      · obtain ⟨above, held⟩ := Option.isSome_iff_exists.1 known
        have part := within mem held
        rw [closureOf, Option.or_eq_some_iff] at held
        rcases held with here | ⟨-, kept⟩
        · exact .inr (.inl (by rw [old here]; rfl))
        · exact .inr (.inr ⟨above, by rw [get?_memo_close _ _ _ _ other, kept], part⟩)
      · exact .inl ((stays p on).resolve_left other)
    · rcases inv.edges a closure before p mem with on | here | ⟨above, kept, part⟩
      · rcases stays p on with rfl | on
        · exact .inr (.inl (by rw [done]; rfl))
        · exact .inl on
      · obtain ⟨above, here⟩ := Option.isSome_iff_exists.1 here
        exact .inr (.inl (by rw [old here]; rfl))
      · have other : p ≠ cur := by
          rintro rfl
          rw [newHere.2] at kept
          cases kept
        exact .inr (.inr ⟨above, by rw [get?_memo_close _ _ _ _ other, kept], part⟩)
  case covered =>
    intro a closure held
    rcases split held with ⟨rfl, rfl⟩ | ⟨-, before⟩
    · exact covers _ fun b mem => mem
    · rcases inv.covered a closure before with ⟨c, on, p, mem, above, here, part⟩ | ⟨none, -⟩
      · rcases stays c on with rfl | on
        · have known : walk.closureOf p = some above := by rw [closureOf, here, Option.some_or]
          exact covers closure fun b inside => within mem known b (part b inside)
        · exact .inl ⟨c, on, p, mem, above, old here, part⟩
      · rw [whole] at none
        cases none

theorem Inv.not_cycleFree (inv : Inv parents start walk) (top : walk.stack = (cur, rest) :: below)
    (parent : p ∈ ups parents cur) (on : p ∈ walk.onStack) : ¬CycleFree (ups parents) cur := by
  have whole : walk.onStack = cur :: below.map Prod.fst := by
    simp only [onStack, top, List.map_cons]
  have way := inv.way
  rw [whole] at way on
  intro free
  exact free cur (.refl cur) (Relation.TransGen.head'_iff.2 ⟨p, parent, reach_of_chain way p on⟩)

/-- A turn keeps what holds of a walk. -/
theorem Inv.step (inv : Inv parents start walk) : Inv parents start (walk.step parents) := by
  rw [ClosureWalk.step]
  split
  case h_1 => exact inv
  case h_2 cur below top => exact inv.close top
  case h_3 cur p rest below top =>
    have keep : ∀ a ∈ walk.tainted, a ∈ walk.tainted ∨ ¬CycleFree (ups parents) a :=
      fun a mem => .inl mem
    have own : p ∈ parentsOf parents cur :=
      inv.rests (cur, p :: rest) (top ▸ List.mem_cons_self) List.mem_cons_self
    rw [look]
    split
    case isTrue same =>
      exact inv.advance top (List.Subset.refl _) keep fun mem => absurd same (mem_ups.1 mem).2
    case isFalse other =>
      split
      case isTrue on =>
        have cycle := inv.not_cycleFree top (mem_ups.2 ⟨own, other⟩) on
        refine inv.advance top (List.subset_cons_self _ _) (fun a mem => ?_) fun _ =>
          .inr ⟨List.mem_cons_self, on⟩
        rcases List.mem_cons.1 mem with rfl | old
        · exact .inr cycle
        · exact .inl old
      case isFalse off =>
        split
        case isTrue known =>
          exact inv.advance top (List.Subset.refl _) keep fun _ => .inl known
        case isFalse new =>
          exact inv.push top other off (Option.not_isSome_iff_eq_none.1 new)

/-- Each turn leaves less to do. -/
theorem Inv.step_remaining (inv : Inv parents start walk) (more : walk.stack ≠ []) :
    remaining (parentsOf parents) (nodesOf parents) (walk.step parents).found
        (walk.step parents).stack <
      remaining (parentsOf parents) (nodesOf parents) walk.found walk.stack := by
  rw [ClosureWalk.step]
  split
  case h_1 none => exact absurd none more
  case h_2 cur below top =>
    rw [top]
    refine remaining_back fun a here => ?_
    simp only [found, Bool.or_eq_true, decide_eq_true_eq] at here ⊢
    change a ∈ below.map Prod.fst ∨ a ∈ (walk.local_.set cur (walk.joined parents cur)).keys
    rw [mem_keys_set]
    rcases here with on | done
    · rw [onStack, top, List.map_cons, List.mem_cons] at on
      exact on.elim (fun same => .inr (.inl same)) .inl
    · exact .inr (.inr done)
  case h_3 cur p rest below top =>
    have same : ∀ tainted a, walk.found a = true →
        ({ walk with stack := (cur, rest) :: below, tainted } : ClosureWalk α).found a = true := by
      intro tainted a here
      rw [found, onStack, top] at here
      exact here
    rw [look, top]
    split
    case isTrue => exact remaining_looked (same walk.tainted)
    case isFalse other =>
      split
      case isTrue => exact remaining_looked (same (cur :: walk.tainted))
      case isFalse off =>
        split
        case isTrue => exact remaining_looked (same walk.tainted)
        case isFalse new =>
          have own : p ∈ parentsOf parents cur :=
            inv.rests (cur, p :: rest) (top ▸ List.mem_cons_self) List.mem_cons_self
          have undone : walk.local_.get? p = none := by
            have unknown := Option.not_isSome_iff_eq_none.1 new
            rw [closureOf, Option.or_eq_none_iff] at unknown
            exact unknown.1
          refine remaining_found (parentsOf_subset cur own) ?_ ?_ ?_ (le_refl _)
          · rw [found, Bool.or_eq_false_iff, decide_eq_false_iff_not, decide_eq_false_iff_not,
              mem_keys_iff, undone]
            exact ⟨off, by simp⟩
          · rw [found, Bool.or_eq_true, decide_eq_true_eq]
            exact .inl List.mem_cons_self
          · intro a here
            simp only [found, Bool.or_eq_true, decide_eq_true_eq] at here ⊢
            refine here.imp_left fun on => ?_
            rw [onStack, top] at on
            exact List.mem_cons_of_mem _ on

theorem Inv.run (inv : Inv parents start walk) {turns : ℕ}
    (enough : remaining (parentsOf parents) (nodesOf parents) walk.found walk.stack < turns) :
    ∃ last, walk.run parents turns = some last ∧ Inv parents start last ∧ last.stack = [] := by
  induction turns generalizing walk with
  | zero => exact absurd enough (Nat.not_lt_zero _)
  | succ turns ih =>
    rw [ClosureWalk.run]
    by_cases none : walk.stack = []
    · exact ⟨walk, if_pos none, inv, none⟩
    · rw [if_neg none]
      have less := inv.step_remaining none
      exact ih inv.step (by omega)

/-- A call begins with what its memo holds. -/
theorem Inv.of_start {memo : Dict α (Dict α ℕ)} (good : GoodMemo parents memo)
    (new : memo.get? start = none) : Inv parents start (ClosureWalk.start parents start memo) where
  way := List.isChain_singleton _
  bottom := .inr ⟨[], rfl⟩
  nodup := List.nodup_singleton _
  fresh a mem := by
    have same : a = start := List.mem_singleton.1 mem
    rw [same]
    exact new
  rests frame mem := by
    rw [List.mem_singleton.1 mem]
    exact List.Subset.refl _
  looked := ⟨fun p mem => .inl (mem_ups.1 mem).1, trivial⟩
  tainted := nofun
  memo := good
  sound := nofun
  clean := nofun
  edges := nofun
  covered := nofun

theorem Inv.isSome_of_nil (inv : Inv parents start walk) (done : walk.stack = []) :
    (walk.local_.get? start).isSome = true := by
  rcases inv.bottom with ⟨-, here⟩ | ⟨front, split⟩
  · exact here
  · rw [onStack, done] at split
    exact absurd split.symm (List.append_ne_nil_of_right_ne_nil _ (List.cons_ne_nil _ _))

theorem Inv.exact_of_nil (inv : Inv parents start walk) (done : walk.stack = [])
    (held : walk.local_.get? start = some closure) : Exact parents start closure := by
  have off : walk.onStack = [] := by rw [onStack, done, List.map_nil]
  have part : ∀ a other, walk.local_.get? a = some other → Within other closure := by
    intro a other here
    rcases inv.covered a other here with ⟨c, on, -⟩ | ⟨-, whole, there, part⟩
    · rw [off] at on
      cases on
    · rw [held, Option.some_inj] at there
      exact there ▸ part
  refine ⟨inv.sound start closure held, fun b path => ?_⟩
  -- Along the path, a node is done in this call until the memo has the rest.
  have along : ∀ a, Reach (ups parents) start a → (walk.local_.get? a).isSome = true ∨
      ∀ b, Reach (ups parents) a b → b ∈ closure.keys := by
    intro a path
    induction path with
    | refl => exact .inl (by rw [held]; rfl)
    | @tail a p _ edge ih =>
      rcases ih with here | rest
      · obtain ⟨other, here⟩ := Option.isSome_iff_exists.1 here
        rcases inv.edges a other here p edge with on | done | ⟨above, kept, within⟩
        · rw [off] at on
          cases on
        · exact .inl done
        · refine .inr fun b later => part a other here b (within b ?_)
          exact (inv.memo p above kept).1.all b later
      · exact .inr fun b later => rest b ((Reach.of_mem edge).trans later)
  rcases along b path with here | rest
  · obtain ⟨other, here⟩ := Option.isSome_iff_exists.1 here
    exact part b other here b (inv.sound b other here).self
  · exact rest b (.refl b)

end

end ClosureWalk

section

open ClosureWalk

variable {parents : Dict α (List α)}

/-- A call ends, its closure is complete, and so is all that the memo holds then. -/
theorem ancestorClosureOf_exact {memo : Dict α (Dict α ℕ)} (good : GoodMemo parents memo)
    (node : α) : ∃ closure memo', ancestorClosureOf parents node memo = some (closure, memo') ∧
      Exact parents node closure ∧ GoodMemo parents memo' := by
  rw [ancestorClosureOf]
  cases held : memo.get? node with
  | some hit => exact ⟨hit, memo, rfl, (good node hit held).1, good⟩
  | none =>
    obtain ⟨last, ran, inv, done⟩ := (Inv.of_start good held).run (Nat.lt_succ_self _)
    obtain ⟨closure, here⟩ := Option.isSome_iff_exists.1 (inv.isSome_of_nil done)
    refine ⟨closure, last.memo, ?_, inv.exact_of_nil done here, inv.memo⟩
    simp only [turns, ran, here, Option.bind_eq_bind, Option.bind_some]

/-- The calls of a sequence are exact, and bind nodes free of cycles to depths that neither depend
on the calls before nor on the memo they left. -/
theorem ancestorClosures_exact {memo : Dict α (Dict α ℕ)} (good : GoodMemo parents memo)
    (nodes : List α) : ∃ closures memo',
      ancestorClosures parents nodes memo = some (closures, memo') ∧
      List.Forall₂ (Exact parents) nodes closures ∧ GoodMemo parents memo' := by
  induction nodes generalizing memo with
  | nil => exact ⟨[], memo, rfl, .nil, good⟩
  | cons node nodes ih =>
    obtain ⟨closure, memo₁, called, exact_, good₁⟩ := ancestorClosureOf_exact good node
    obtain ⟨closures, memo₂, rest, each, good₂⟩ := ih good₁
    refine ⟨closure :: closures, memo₂, ?_, .cons exact_ each, good₂⟩
    simp only [ancestorClosures, called, rest, Option.bind_eq_bind, Option.bind_some]

/-- What a closure of a node binds: each node that can be reached upward, once, and those that no
cycle can be reached from to their depths. -/
def Closes (parents : Dict α (List α)) (depth : α → ℕ) (node : α) (closure : Dict α ℕ) : Prop :=
  closure.keys.Nodup ∧ (∀ b, b ∈ closure.keys ↔ Reach (parentsOf parents) node b) ∧
    ∀ b d, closure.get? b = some d → CycleFree (ups parents) b → d = depth b

theorem Exact.closes {node : α} {closure : Dict α ℕ} (exact_ : Exact parents node closure) :
    Closes parents (depth (ups parents)) node closure :=
  ⟨exact_.reads.nodup, fun b => ⟨fun inside => reach_ups.1 (exact_.reached b inside),
      fun path => exact_.all b (reach_ups.2 path)⟩,
    fun b d held => exact_.reads.depths (b, d) (mem_of_get? held)⟩

/-- Whatever calls share a memo, each closure is exact, with depths that are the same for all, and
the memo holds no other closure. -/
theorem ancestorClosures_closes (parents : Dict α (List α)) : ∃ depth : α → ℕ,
    (∀ n, CycleFree (ups parents) n →
      depth n = ((ups parents n).map fun p => depth p + 1).foldr max 0) ∧
    ∀ calls, ∃ closures memo, ancestorClosures parents calls [] = some (closures, memo) ∧
      List.Forall₂ (Closes parents depth) calls closures ∧
      ∀ n closure, memo.get? n = some closure → Closes parents depth n closure := by
  refine ⟨depth (ups parents), fun n free => depth_eq (ends_of_cycleFree free), fun calls => ?_⟩
  have empty : GoodMemo parents [] := nofun
  obtain ⟨closures, memo, ran, each, good⟩ := ancestorClosures_exact empty calls
  refine ⟨closures, memo, ran, each.imp fun node closure => Exact.closes, ?_⟩
  exact fun n closure held => (good n closure held).1.closes

end

end DataViz.Rollup
