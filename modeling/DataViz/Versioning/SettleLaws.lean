/-
# Settling touches only the conflicts

The overlay in memory computes the change at a path of what the payload stands for, and writes only
to dictionaries it has made itself. A merge's conflicts do not meet, so it does not matter in which
order they are settled.
-/

import DataViz.Versioning.MergeLaws
import DataViz.Versioning.Settle

namespace DataViz.Versioning

open List

open Json
open Memory (Value Holds? HoldsFields Stays Keeps)

variable {setFields : List String} {onConflict : OnConflict}

section

theorem mergeValue_conflicts_meet {bv ov tv value : Option Json} {isSet : Bool} {path : Path}
    {confs : List Conflict}
    (h : mergeValue setFields onConflict bv ov tv isSet path = .ok (value, confs))
    {c c' : Conflict} (hc : c ∈ confs) (hc' : c' ∈ confs) (below : c.path <+: c'.path) :
    c.path = c'.path := by
  induction hsize : sizeOf ov using Nat.strong_induction_on
    generalizing bv ov tv value isSet path confs with
  | _ n ih =>
    cases mergeValue_outcome h with
    | agree => cases hc
    | onlyTheirs => cases hc
    | onlyOurs => cases hc
    | set => cases hc
    | conflict => rw [mem_singleton.mp hc, mem_singleton.mp hc']
    | fields _ _ _ ho _ hfields =>
      obtain ⟨-, hconfs⟩ := mergeFields_ok hfields
      obtain ⟨key, v, cs, hkey, hmem⟩ := hconfs c hc
      subst ho
      -- What is below a conflict of a key is of that key.
      have under := (mergeValue_path_extends hkey hmem).trans below
      have hmem' := (mergeFields_conflict_iff hfields hkey).mpr ⟨hc', under⟩
      exact ih _ (hsize ▸ Json.sizeOf_get?_lt _ key) hkey hmem hmem' rfl

theorem threeWayMerge_conflicts {base ours theirs : Option Payload} {outcome : MergeOutcome}
    (merge : threeWayMerge base ours theirs setFields onConflict = .ok outcome) :
    (∀ c ∈ outcome.conflicts, c.path = []) ∨ ∃ o t r,
      mergeFields setFields onConflict (base.getD []) o t [] = .ok r ∧
        outcome = ⟨some r.1, r.2⟩ := by
  unfold threeWayMerge at merge
  split at merge
  · obtain rfl := Except.ok.inj merge
    exact .inl nofun
  · rename_i o t
    cases fields : mergeFields setFields onConflict (base.getD []) o t [] with
    | error e =>
      rw [fields] at merge
      cases merge
    | ok r =>
      rw [fields] at merge
      exact .inr ⟨o, t, r, fields, (Except.ok.inj merge).symm⟩
  · left
    split at merge
    · obtain rfl := Except.ok.inj merge
      exact nofun
    · split at merge
      all_goals
        dsimp only at merge
        split at merge
        · obtain rfl := Except.ok.inj merge
          exact nofun
        · obtain rfl := Except.ok.inj merge
          intro c mem
          rw [mem_singleton.mp mem]

theorem threeWayMerge_conflicts_apart {base ours theirs : Option Payload} {outcome : MergeOutcome}
    (merge : threeWayMerge base ours theirs setFields onConflict = .ok outcome) :
    ∀ c ∈ outcome.conflicts, ∀ c' ∈ outcome.conflicts, c.path = c'.path ∨ Apart c.path c'.path := by
  have meet : ∀ c ∈ outcome.conflicts, ∀ c' ∈ outcome.conflicts, c.path <+: c'.path →
      c.path = c'.path := by
    intro c hc c' hc' below
    obtain whole | ⟨o, t, r, fields, rfl⟩ := threeWayMerge_conflicts merge
    · rw [whole c hc, whole c' hc']
    · obtain ⟨-, confs⟩ := mergeFields_ok fields
      obtain ⟨key, v, cs, merged, mem⟩ := confs c hc
      have under := (mergeValue_path_extends merged mem).trans below
      have mem' := (mergeFields_conflict_iff fields merged).mpr ⟨hc', under⟩
      exact mergeValue_conflicts_meet merged mem mem' below
  intro c hc c' hc'
  by_cases same : c.path = c'.path
  · exact .inl same
  · exact .inr ⟨fun below => same (meet c hc c' hc' below),
      fun below => same (meet c' hc' c hc below).symm⟩

end

variable {mem mem' : Memory Value} {within : ℕ → Prop} {node : ℕ} {cells : Dict String Value}
  {fields : Dict String Json} {sv : Option Value} {new : Option Json}

theorem sourceAt_holds {source : Value} {value : Json} (held : Memory.Holds mem within source value)
    (path : Path) : Holds? mem within (sourceAt mem source path) (valueAt (some value) path) := by
  induction path generalizing source value with
  | nil =>
    exact .some held
  | cons k path ih =>
    cases source with
    | leaf v =>
      cases held with
      | leaf plain =>
        rcases value with s | items | fields
        · exact .none
        · exact .none
        · exact absurd rfl (plain fields)
    | ref addr =>
      obtain ⟨fields, rfl, -, held⟩ := held.object
      rw [sourceAt, valueAt_obj_cons]
      have found := held.get? k
      generalize (mem.object addr).get? k = cell at found ⊢
      generalize Dict.get? fields k = value at found ⊢
      cases found with
      | some found => exact ih found
      | none =>
        rw [valueAt_none]
        exact .none

theorem copyOf_holds {child : Option Value} {value : Option Json}
    (held : Holds? mem within child value) :
    HoldsFields mem within (copyOf mem child) (fieldsOf value) := by
  cases held with
  | none => exact .nil
  | @some cell v held =>
    cases cell with
    | leaf w =>
      cases held with
      | leaf plain =>
        rcases v with s | items | fields
        · exact .nil
        · exact .nil
        · exact absurd rfl (plain fields)
    | ref addr =>
      obtain ⟨fields, rfl, -, held⟩ := held.object
      exact held

/-- A memory in which the dictionary at `node` was changed, and new ones made for it. -/
structure Overlaid (mem mem' : Memory Value) (within : ℕ → Prop) (node : ℕ)
    (fields : Dict String Json) : Prop where
  grows : mem.length ≤ mem'.length
  frame : ∀ addr < mem.length, addr ≠ node → mem'[addr]? = mem[addr]?
  holds : ∃ cells, mem'[node]? = some cells ∧
    HoldsFields mem' (fun addr => within addr ∨ mem.length ≤ addr) cells fields

/-- The overlay changes what the target stands for at the path. -/
theorem overlayValue_overlaid (here : mem[node]? = some cells)
    (held : HoldsFields mem within cells fields)
    (free : ∀ addr, within addr → addr ≠ node ∧ addr < mem.length)
    (value : Holds? mem within sv new) (k : String) (path : Path) :
    ∃ mem', overlayValue node sv (k :: path) mem = some mem' ∧
      Overlaid mem mem' within node (change fields k (putAt new (fields.get? k) path)) := by
  induction path generalizing mem node cells fields k with
  | nil =>
    have there := Memory.lt_length here
    have overlaid (cells' : Dict String Value) (fields' : Dict String Json)
        (held : HoldsFields mem within cells' fields') :
        Overlaid mem (mem.write node cells') within node fields' := {
      grows := by rw [Memory.write, length_set]
      frame := fun addr _ ne => Memory.getElem?_write_ne ne cells'
      holds := by
        refine ⟨cells', Memory.getElem?_write there cells', held.mono ?_⟩
        intro addr old inside at_
        exact ⟨.inl inside, (Memory.getElem?_write_ne (free addr inside).1 cells').trans at_⟩ }
    cases value with
    | none =>
      refine ⟨_, rfl, ?_⟩
      rw [Memory.object_of_getElem? here]
      exact overlaid _ _ (held.pop k)
    | @some cell v value =>
      refine ⟨_, rfl, ?_⟩
      rw [Memory.object_of_getElem? here]
      exact overlaid _ _ (held.set k value)
  | cons k' path ih =>
    have there := Memory.lt_length here
    have apart : node ≠ mem.length := Nat.ne_of_lt there
    -- The copy of the child, and the memory in which the node refers to it.
    let copy := copyOf mem ((mem.object node).get? k)
    let made :=
      (mem.alloc copy).write node (((mem.alloc copy).object node).set k (.ref mem.length))
    have length : made.length = mem.length + 1 := by
      show ((mem ++ [copy]).set node _).length = _
      rw [length_set, length_append, length_singleton]
    have old (addr : ℕ) (lt : addr < mem.length) (ne : addr ≠ node) : made[addr]? = mem[addr]? := by
      rw [Memory.getElem?_write_ne ne]
      exact (Memory.keeps_alloc copy (Nat.le_refl mem.length)).same addr lt
    have child : made[mem.length]? = some copy := by
      rw [Memory.getElem?_write_ne (Ne.symm apart)]
      exact Memory.getElem?_alloc copy
    have referring : made[node]? = some (cells.set k (.ref mem.length)) := by
      have alloc : (mem.alloc copy)[node]? = some cells :=
        ((Memory.keeps_alloc copy (Nat.le_refl mem.length)).same node there).trans here
      rw [Memory.getElem?_write (Memory.lt_length alloc), Memory.object_of_getElem? alloc]
    have stays : Stays mem made within within := by
      intro addr old' inside at_
      exact ⟨inside, (old addr (free addr inside).2 (free addr inside).1).trans at_⟩
    have copied : HoldsFields made within copy (fieldsOf (fields.get? k)) := by
      have found := held.get? k
      rw [← Memory.object_of_getElem? here] at found
      exact (copyOf_holds found).mono stays
    obtain ⟨mem', ran, overlaid⟩ := ih child copied
      (fun addr inside => ⟨Nat.ne_of_lt (free addr inside).2, by
        have := (free addr inside).2
        omega⟩)
      (value.mono stays) k'
    obtain ⟨inner, at_, inside⟩ := overlaid.holds
    have kept (addr : ℕ) (lt : addr < mem.length) : mem'[addr]? = made[addr]? :=
      overlaid.frame addr (by omega) (Nat.ne_of_lt lt)
    refine ⟨mem', ran, ?_⟩
    exact {
      grows := by
        have := overlaid.grows
        omega
      frame := fun addr lt ne => (kept addr lt).trans (old addr lt ne)
      holds := by
        refine ⟨cells.set k (.ref mem.length), (kept node there).trans referring, ?_⟩
        refine HoldsFields.set (held.mono ?_) k (.ref at_ (.inr (Nat.le_refl _)) (inside.mono ?_))
        · intro addr old' within at_
          have bound := free addr within
          exact ⟨.inl within, ((kept addr bound.2).trans (old addr bound.2 bound.1)).trans at_⟩
        · intro addr old' within at_
          exact ⟨within.imp_right fun le => by omega, at_⟩ }

/-- A payload being settled: its own dictionary is not one it is made of. -/
structure Settling (start mem : Memory Value) (fields : Dict String Json) : Prop where
  keeps : Keeps start.length start mem
  holds : ∃ cells, mem[start.length]? = some cells ∧
    HoldsFields mem (fun addr => addr ≠ start.length ∧ addr < mem.length) cells fields

variable {start : Memory Value} {resolution : ℕ} {chosen : Dict String Json}

theorem Settling.overlayAtPath (settling : Settling start mem fields)
    (source : Memory.Holds start (fun _ => True) (.ref resolution) (.obj chosen)) {path : Path}
    (below : path ≠ []) :
    ∃ mem' fields', overlayAtPath start.length (.ref resolution) path mem = some mem' ∧
      Settling start mem' fields' ∧ some (.obj fields') =
        putAt (valueAt (some (.obj chosen)) path) (some (.obj fields)) path := by
  obtain ⟨cells, here, held⟩ := settling.holds
  have grown := settling.keeps.grows
  have stays : Stays start mem (fun _ => True)
      (fun addr => addr ≠ start.length ∧ addr < mem.length) := by
    intro addr old _ at_
    have bound := Memory.lt_length at_
    exact ⟨⟨by omega, by omega⟩, (settling.keeps.same addr bound).trans at_⟩
  have value := sourceAt_holds (source.mono stays) path
  match path, below with
  | k :: path, _ =>
    obtain ⟨mem', ran, overlaid⟩ :=
      overlayValue_overlaid here held (fun addr inside => inside) value k path
    refine ⟨mem', _, ran, ⟨⟨?_, fun addr lt => ?_⟩, ?_⟩, rfl⟩
    · exact grown.trans overlaid.grows
    · exact (overlaid.frame addr (by omega) (Nat.ne_of_lt lt)).trans (settling.keeps.same addr lt)
    · obtain ⟨cells', there, held'⟩ := overlaid.holds
      refine ⟨cells', there, held'.mono fun addr old inside at_ => ?_⟩
      refine ⟨⟨?_, Memory.lt_length at_⟩, at_⟩
      have bound := Memory.lt_length here
      cases inside with
      | inl inside => exact inside.1
      | inr later => omega

theorem Settling.foldlM (settling : Settling start mem fields)
    (source : Memory.Holds start (fun _ => True) (.ref resolution) (.obj chosen))
    {conflicts : List Conflict} (below : ∀ c ∈ conflicts, c.path ≠ []) :
    ∃ mem' fields', conflicts.foldlM
        (fun mem c => Versioning.overlayAtPath start.length (.ref resolution) c.path mem) mem =
          some mem' ∧
      Settling start mem' fields' ∧ some (.obj fields') =
        putAll (valueAt (some (.obj chosen))) (some (.obj fields)) (conflicts.map (·.path)) := by
  induction conflicts generalizing mem fields with
  | nil => exact ⟨mem, fields, rfl, settling, rfl⟩
  | cons c conflicts ih =>
    obtain ⟨mem₁, fields₁, ran, settling₁, eq⟩ :=
      settling.overlayAtPath source (below c mem_cons_self)
    obtain ⟨mem₂, fields₂, rest, settling₂, eq'⟩ :=
      ih settling₁ fun other mem => below other (mem_cons_of_mem c mem)
    refine ⟨mem₂, fields₂, ?_, settling₂, ?_⟩
    · rw [foldlM_cons, ran]
      exact rest
    · rw [eq', eq]
      rfl

/-- The conflicts below the entity are settled on a copy of the automatic merge. -/
theorem settleConflicts_below {autoMerged : ℕ} {merged : Payload}
    (auto : Memory.Holds start (fun _ => True) (.ref autoMerged) (.obj merged))
    (source : Memory.Holds start (fun _ => True) (.ref resolution) (.obj chosen))
    {conflicts : List Conflict} (below : ∀ c ∈ conflicts, c.path ≠ []) :
    ∃ mem' settled, settleConflicts (some autoMerged) (some resolution) conflicts start =
        some (some start.length, mem') ∧
      HoldsPayload mem' (some start.length) (some settled) ∧ Keeps start.length start mem' ∧
      some (.obj settled) =
        putAll (valueAt (some (.obj chosen))) (some (.obj merged)) (conflicts.map (·.path)) := by
  have settling : Settling start (start.alloc (start.object autoMerged)) merged := by
    have keeps := Memory.keeps_alloc (start.object autoMerged) (Nat.le_refl start.length)
    obtain ⟨fields, same, -, held⟩ := auto.object
    cases same
    refine ⟨keeps, _, Memory.getElem?_alloc _, held.mono fun addr old _ at_ => ?_⟩
    have there := Memory.lt_length at_
    refine ⟨⟨Nat.ne_of_lt there, ?_⟩, (keeps.same addr there).trans at_⟩
    exact Nat.lt_of_lt_of_le there keeps.grows
  obtain ⟨mem', settled, ran, done, eq⟩ := settling.foldlM source below
  obtain ⟨cells, here, held⟩ := done.holds
  refine ⟨mem', settled, ?_, ?_, done.keeps, eq⟩
  · have none : (conflicts.any fun c => c.path = []) = false := by
      refine List.any_eq_false.mpr fun c mem => ?_
      exact fun whole => below c mem (of_decide_eq_true whole)
    rw [settleConflicts, none]
    show Option.map _ (List.foldlM _ _ _) = _
    rw [ran]
    rfl
  · exact .some (.ref here trivial (held.mono fun addr old _ at_ => ⟨trivial, at_⟩))

section

variable {base ours theirs : Option Payload} {outcome : MergeOutcome} {autoMerged : Option ℕ}

theorem settled_whole {c : Conflict} (mem : c ∈ outcome.conflicts) (whole : c.path = [])
    (r : Payload) (nothing : outcome.merged ≠ none) : Settled outcome (some r) (some r) where
  deleted := nofun
  present := id
  chosen _ _ _ := rfl
  kept _ _ apart _ := absurd (whole ▸ nil_prefix) (apart c mem).1
  restored none := absurd none nothing

/-- Where nothing is left of the entity, the resolution is what becomes of it. -/
theorem settled_restored (merge : threeWayMerge base ours theirs setFields onConflict = .ok outcome)
    (nothing : outcome.merged = none) (r : Payload) : Settled outcome (some r) (some r) where
  deleted := nofun
  present := id
  chosen _ _ _ := rfl
  kept _ p apart some := by
    obtain whole | ⟨o, t, r, fields, rfl⟩ := threeWayMerge_conflicts merge
    · have conflict := exists_mem_of_ne_nil _ (some.resolve_left (absurd nothing))
      obtain ⟨c, mem⟩ := conflict
      exact absurd (whole c mem ▸ nil_prefix) (apart c mem).1
    · cases nothing
  restored _ := rfl

theorem paths_meet (merge : threeWayMerge base ours theirs setFields onConflict = .ok outcome)
    {conflicts : List Conflict} (order : conflicts.Perm outcome.conflicts) :
    ∀ p ∈ conflicts.map (·.path), ∀ q ∈ conflicts.map (·.path), p = q ∨ Apart p q := by
  intro p hp q hq
  obtain ⟨first, hfirst, rfl⟩ := mem_map.mp hp
  obtain ⟨second, hsecond, rfl⟩ := mem_map.mp hq
  exact threeWayMerge_conflicts_apart merge first (order.mem_iff.mp hfirst) second
    (order.mem_iff.mp hsecond)

theorem settled_putAll (merge : threeWayMerge base ours theirs setFields onConflict = .ok outcome)
    {r a settled : Payload} (merged : outcome.merged = some a) {conflicts : List Conflict}
    (order : conflicts.Perm outcome.conflicts)
    (eq : some (.obj settled) =
      putAll (valueAt (some (.obj r))) (some (.obj a)) (conflicts.map (·.path))) :
    Settled outcome (some r) (some settled) where
  deleted := nofun
  present _ := nofun
  chosen _ c mem := by
    rw [Option.map_some, eq]
    exact valueAt_putAll (paths_meet merge order) (mem_map_of_mem (order.mem_iff.mpr mem))
  kept _ p apart _ := by
    rw [Option.map_some, eq, merged]
    refine valueAt_putAll_apart fun q hq => ?_
    obtain ⟨c, mem, rfl⟩ := mem_map.mp hq
    exact apart c (order.mem_iff.mp mem)
  restored none := by
    rw [merged] at none
    cases none

/-- What settling comes to, in any order of the conflicts. -/
def Settles? (outcome : MergeOutcome) (mem : Memory Value) (autoMerged resolution : Option ℕ)
    (payload settled : Option Payload) : Prop :=
  ∀ conflicts : List Conflict, conflicts.Perm outcome.conflicts → ∃ addr mem' result,
      settleConflicts autoMerged resolution conflicts mem = some (addr, mem') ∧
      HoldsPayload mem' addr result ∧ SamePayload result settled ∧
      Settled outcome payload result ∧ Keeps mem.length mem mem'

theorem settles_payloads {mem : Memory Value} {autoMerged resolution : ℕ} {r a : Payload}
    (merge : threeWayMerge base ours theirs setFields onConflict = .ok outcome)
    (merged : outcome.merged = some a)
    (auto : Memory.Holds mem (fun _ => True) (.ref autoMerged) (.obj a))
    (choice : Memory.Holds mem (fun _ => True) (.ref resolution) (.obj r)) :
    ∃ settled, Settled outcome (some r) settled ∧
      Settles? outcome mem (some autoMerged) (some resolution) (some r) settled := by
  by_cases whole : ∃ c ∈ outcome.conflicts, c.path = []
  · obtain ⟨c, mem_c, path⟩ := whole
    have settled := settled_whole mem_c path r (merged ▸ nofun)
    refine ⟨some r, settled, fun conflicts order => ?_⟩
    refine ⟨some resolution, mem, some r, ?_, .some choice, .refl _, settled, .refl _ mem⟩
    have any : (conflicts.any fun c => c.path = []) = true :=
      List.any_eq_true.mpr ⟨c, order.mem_iff.mpr mem_c, decide_eq_true path⟩
    rw [settleConflicts, any, if_pos rfl]
  · have below (conflicts : List Conflict) (order : conflicts.Perm outcome.conflicts) :
        ∀ c ∈ conflicts, c.path ≠ [] :=
      fun c mem path => whole ⟨c, order.mem_iff.mp mem, path⟩
    obtain ⟨-, settled, -, -, -, eq⟩ :=
      settleConflicts_below auto choice (below _ (.refl _))
    refine ⟨some settled, settled_putAll merge merged (.refl _) eq, fun conflicts order => ?_⟩
    obtain ⟨mem', result, ran, holds, keeps, eq'⟩ :=
      settleConflicts_below auto choice (below conflicts order)
    have same : SamePayload (some result) (some settled) := by
      show Same? (some (.obj result)) (some (.obj settled))
      rw [eq, eq']
      exact putAll_perm (order.map _) (paths_meet merge order)
    exact ⟨_, mem', some result, ran, holds, same, settled_putAll merge merged order eq', keeps⟩

/-- Settling a merge's conflicts, in any order, touches only the conflicts, comes to the same
payload, and changes no dictionary there was. -/
theorem settleConflicts_settled {mem : Memory Value} {autoMerged resolution : Option ℕ}
    {payload : Option Payload}
    (merge : threeWayMerge base ours theirs setFields onConflict = .ok outcome)
    (auto : HoldsPayload mem autoMerged outcome.merged)
    (choice : HoldsPayload mem resolution payload) :
    ∃ settled, Settled outcome payload settled ∧
      Settles? outcome mem autoMerged resolution payload settled := by
  cases payload with
  | none =>
    cases resolution with
    | some addr => cases choice
    | none =>
      have settled : Settled outcome none none :=
        { deleted := fun _ => rfl
          present := id
          chosen := fun given => absurd rfl given
          kept := fun given => absurd rfl given
          restored := fun _ => rfl }
      exact ⟨none, settled, fun conflicts _ =>
        ⟨none, mem, none, rfl, .none, .refl _, settled, .refl _ mem⟩⟩
  | some r =>
    cases resolution with
    | none => cases choice
    | some resolution =>
      cases merged : outcome.merged with
      | none =>
        rw [merged] at auto
        cases autoMerged with
        | some addr => cases auto
        | none =>
          have settled := settled_restored merge merged r
          exact ⟨some r, settled, fun conflicts _ =>
            ⟨some resolution, mem, some r, rfl, choice, .refl _, settled, .refl _ mem⟩⟩
      | some a =>
        rw [merged] at auto
        cases autoMerged with
        | none => cases auto
        | some autoMerged =>
          cases auto with
          | some auto =>
            cases choice with
            | some choice => exact settles_payloads merge merged auto choice

/-- Two conflicts under one key: one value is chosen, the other removed, and what only the other
side changed stays. -/
theorem settleConflicts_settled_siblings : ∃ addr mem' result, settleConflicts (some 0) (some 2)
          [⟨["p", "b"], .int 0, .int 1, .int 2, .field⟩,
            ⟨["p", "a"], .int 0, .int 1, .int 2, .field⟩]
          [[("p", .ref 1)], [("a", .leaf (.int 1)), ("b", .leaf (.int 1)), ("c", .leaf (.int 9))],
            [("p", .ref 3)], [("a", .leaf (.int 2))]] = some (addr, mem') ∧
      HoldsPayload mem' addr result ∧
      valueAt (result.map .obj) ["p", "a"] = some (.int 2) ∧
      valueAt (result.map .obj) ["p", "b"] = none ∧
      valueAt (result.map .obj) ["p", "c"] = some (.int 9) := by
  let fields (a b c : ℤ) : Payload := [("p", .obj [("a", .int a), ("b", .int b), ("c", .int c)])]
  let outcome : MergeOutcome := ⟨some (fields 1 1 9),
    [⟨["p", "a"], .int 0, .int 1, .int 2, .field⟩, ⟨["p", "b"], .int 0, .int 1, .int 2, .field⟩]⟩
  have merge : threeWayMerge (some (fields 0 0 0)) (some (fields 1 1 0)) (some (fields 2 2 9)) [] =
      .ok outcome := by decide +kernel
  let mem : Memory Value :=
    [[("p", .ref 1)], [("a", .leaf (.int 1)), ("b", .leaf (.int 1)), ("c", .leaf (.int 9))],
      [("p", .ref 3)], [("a", .leaf (.int 2))]]
  have auto : HoldsPayload mem (some 0) outcome.merged :=
    .some (.ref rfl trivial (.cons (.ref rfl trivial (.cons (.leaf nofun) (.cons (.leaf nofun)
      (.cons (.leaf nofun) .nil)))) .nil))
  have choice : HoldsPayload mem (some 2) (some [("p", .obj [("a", .int 2)])]) :=
    .some (.ref rfl trivial (.cons (.ref rfl trivial (.cons (.leaf nofun) .nil)) .nil))
  obtain ⟨_, _, settles⟩ := settleConflicts_settled merge auto choice
  obtain ⟨addr, mem', result, ran, holds, -, settled, -⟩ := settles _ (.swap _ _ _)
  have chosen := settled.chosen nofun
  refine ⟨addr, mem', result, ran, holds, chosen _ mem_cons_self,
    chosen _ (mem_cons_of_mem _ mem_cons_self), ?_⟩
  exact settled.kept nofun ["p", "c"] (by decide) (.inl nofun)

/-- A resolution that is the entity's deletion settles the whole entity: what no conflict meets
goes too. -/
theorem settleConflicts_deletes :
    ¬ ∀ (mem : Memory Value) (base ours theirs : Option Payload) (outcome : MergeOutcome)
      (autoMerged resolution : Option ℕ) (payload : Option Payload),
      threeWayMerge base ours theirs [] = .ok outcome →
      HoldsPayload mem autoMerged outcome.merged → HoldsPayload mem resolution payload →
      ∃ addr mem' result,
        settleConflicts autoMerged resolution outcome.conflicts mem = some (addr, mem') ∧
        HoldsPayload mem' addr result ∧ ∀ p, (∀ c ∈ outcome.conflicts, Apart c.path p) →
          valueAt (result.map .obj) p = valueAt (outcome.merged.map .obj) p := by
  intro claim
  let fields (a : ℤ) : Payload := [("a", .int a), ("b", .int 0)]
  let outcome : MergeOutcome :=
    ⟨some (fields 1), [⟨["a"], .int 0, .int 1, .int 2, .field⟩]⟩
  have merge : threeWayMerge (some (fields 0)) (some (fields 1)) (some (fields 2)) [] =
      .ok outcome := by decide +kernel
  obtain ⟨addr, mem', result, ran, holds, kept⟩ := claim
    [[("a", .leaf (.int 1)), ("b", .leaf (.int 0))]] _ _ _ outcome (some 0) none none merge
    (.some (.ref rfl trivial (.cons (.leaf nofun) (.cons (.leaf nofun) .nil)))) .none
  cases ran
  cases result with
  | some result => cases holds
  | none =>
    have lost := kept ["b"] (by decide)
    exact absurd lost (by decide)

end

end DataViz.Versioning
