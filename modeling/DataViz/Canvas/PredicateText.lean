/-
# Where a condition is written

`predicateDsl.ts`: `formatExpr` writes a predicate as text, and `spanOf` finds where in it a
condition or a group stands, by the lengths of what is written before it. The text of one condition
is a parameter; positions count the code units of a text.
-/

import Mathlib.Data.List.Basic

namespace DataViz.Canvas

open List

/-- A text as the browser holds it: UTF-16 code units. -/
abbrev Units := List UInt16

def units (text : String) : Units :=
  text.toList.map fun c => UInt16.ofNat c.toNat

inductive GroupOp
  | and
  | or
  | not
  deriving DecidableEq

/-- A predicate. Each node is an object of its own, known by a number. -/
inductive Predicate (κ : Type)
  | condition (object : ℕ) (c : κ)
  | group (object : ℕ) (op : Option GroupOp) (children : List (Predicate κ))

structure Span where
  start : ℕ
  stop : ℕ
  deriving DecidableEq

def Span.slice (span : Span) (text : Units) : Units :=
  (text.drop span.start).take (span.stop - span.start)

namespace Predicate

variable {κ : Type}

def object : Predicate κ → ℕ
  | .condition object _ => object
  | .group object _ _ => object

def separator (op : Option GroupOp) : Units :=
  if op = some .or then units " OR " else units " AND "

def bracket (top : Bool) (mark : String) : Units :=
  if top then [] else units mark

variable (formatAtom : κ → Units)

mutual

def formatExpr : Predicate κ → Bool → Units
  | .condition _ c, _ => formatAtom c
  | .group _ (some .not) [], _ => units "NOT ()"
  | .group _ (some .not) (inner :: _), _ => units "NOT " ++ formatExpr inner false
  | .group _ _ [], _ => []
  | .group _ op children, top =>
    bracket top "(" ++ (separator op).intercalate ((formatParts children).filter (· ≠ [])) ++
      bracket top ")"

def formatParts : List (Predicate κ) → List Units
  | [] => []
  | child :: children => formatExpr child false :: formatParts children

end

mutual

def locate (target : ℕ) : Predicate κ → Bool → ℕ → Option Span
  | .condition object c, top, pos =>
    if object = target then
      some ⟨pos, pos + (formatExpr formatAtom (.condition object c) top).length⟩
    else none
  | .group object op children, top, pos =>
    if object = target then
      some ⟨pos, pos + (formatExpr formatAtom (.group object op children) top).length⟩
    else if op = some .not then
      match children with
      | [] => none
      | inner :: _ => locate target inner false (pos + (units "NOT ").length)
    else locateIn target (separator op) children (if top then pos else pos + 1)

def locateIn (target : ℕ) (sep : Units) : List (Predicate κ) → ℕ → Option Span
  | [], _ => none
  | child :: children, pos =>
    let text := formatExpr formatAtom child false
    if text = [] then locateIn target sep children pos
    else
      match locate target child false pos with
      | some found => some found
      | none => locateIn target sep children (pos + (text.length + sep.length))

end

def stringify (p : Option (Predicate κ)) : Units :=
  p.elim [] fun p => p.formatExpr formatAtom true

def spanOf (p : Option (Predicate κ)) (target : ℕ) : Option Span :=
  p.bind fun p => p.locate formatAtom target true 0

/-- The members of a group that are written, each followed by the separator. -/
def ahead (sep : Units) (members : List (Predicate κ)) : Units :=
  ((formatParts formatAtom members).filter (· ≠ [])).flatMap (· ++ sep)

/-- The members of a group that are written, each after the separator. -/
def behind (sep : Units) (members : List (Predicate κ)) : Units :=
  ((formatParts formatAtom members).filter (· ≠ [])).flatMap (sep ++ ·)

/-- A node is written in a predicate, at the top or below it, between two texts. Only the first
child of a NOT is written, and of another group the children whose text is not empty. -/
inductive Written : Predicate κ → Bool → Predicate κ → Bool → Units → Units → Prop
  | here (p : Predicate κ) (top : Bool) : Written p top p top [] []
  | negated {object : ℕ} {inner node : Predicate κ} {rest : List (Predicate κ)} {top at_ : Bool}
      {before after : Units} (inside : Written inner false node at_ before after) :
      Written (.group object (some .not) (inner :: rest)) top node at_ (units "NOT " ++ before)
        after
  | member {object : ℕ} {op : Option GroupOp} {front back : List (Predicate κ)}
      {child node : Predicate κ} {top at_ : Bool} {before after : Units} (joins : op ≠ some .not)
      (text : child.formatExpr formatAtom false ≠ [])
      (inside : Written child false node at_ before after) :
      Written (.group object op (front ++ child :: back)) top node at_
        (bracket top "(" ++ ahead formatAtom (separator op) front ++ before)
        (after ++ behind formatAtom (separator op) back ++ bracket top ")")

theorem formatParts_append (front back : List (Predicate κ)) :
    formatParts formatAtom (front ++ back) =
      formatParts formatAtom front ++ formatParts formatAtom back := by
  induction front with
  | nil => rfl
  | cons child front ih => rw [cons_append, formatParts, formatParts, ih, cons_append]

variable {children : List (Predicate κ)}

theorem formatExpr_group {object : ℕ} {op : Option GroupOp} (joins : op ≠ some .not)
    (some : children ≠ []) (top : Bool) :
    (Predicate.group object op children).formatExpr formatAtom top =
      bracket top "(" ++ (separator op).intercalate
        ((formatParts formatAtom children).filter (· ≠ [])) ++ bracket top ")" := by
  rw [formatExpr]
  · exact fun same => absurd same joins
  · exact fun _ _ same => absurd same joins
  · exact fun none => absurd none some

/-- A part of a joined text, between what stands before it and what stands after. -/
theorem intercalate_around (sep part : Units) (front back : List Units) :
    sep.intercalate (front ++ part :: back) =
      front.flatMap (· ++ sep) ++ part ++ back.flatMap (sep ++ ·) := by
  induction front with
  | nil =>
    rw [nil_append, flatMap_nil, nil_append]
    induction back generalizing part with
    | nil => rw [intercalate_singleton, flatMap_nil, append_nil]
    | cons next back ih =>
      rw [intercalate_cons_cons, ih, flatMap_cons]
      simp only [append_assoc]
  | cons first front ih =>
    rw [cons_append, intercalate_cons_of_ne_nil (by simp), ih, flatMap_cons]
    simp only [append_assoc]

theorem Written.text {p node : Predicate κ} {top at_ : Bool} {before after : Units}
    (written : Written formatAtom p top node at_ before after) :
    p.formatExpr formatAtom top = before ++ node.formatExpr formatAtom at_ ++ after := by
  induction written with
  | here p top => rw [nil_append, append_nil]
  | negated inside ih =>
    rw [formatExpr, ih]
    simp only [append_assoc]
  | @member object op front back child node top at_ before after joins text inside ih =>
    rw [formatExpr_group formatAtom joins (by simp), formatParts_append, formatParts,
      filter_append, filter_cons_of_pos (by simpa using text), intercalate_around, ih,
      ahead, behind]
    simp only [append_assoc]

theorem Written.of_group {object : ℕ} {op : Option GroupOp} {node : Predicate κ} {top at_ : Bool}
    {before after : Units}
    (written : Written formatAtom (.group object op children) top node at_ before after) :
    node = .group object op children ∨
      (op = some .not ∧ ∃ inner rest before', children = inner :: rest ∧
        Written formatAtom inner false node at_ before' after) ∨
      (op ≠ some .not ∧ ∃ child ∈ children, child.formatExpr formatAtom false ≠ [] ∧
        ∃ before' after', Written formatAtom child false node at_ before' after') := by
  generalize whole : Predicate.group object op children = p at written
  cases written with
  | here => exact .inl rfl
  | negated inside =>
    cases whole
    exact .inr (.inl ⟨rfl, _, _, _, rfl, inside⟩)
  | member joins text inside =>
    cases whole
    exact .inr (.inr ⟨joins, _, by simp, text, _, _, inside⟩)

def Points (p : Predicate κ) (top : Bool) (pos target : ℕ) (span : Span) : Prop :=
  ∃ node at_ before after, Written formatAtom p top node at_ before after ∧
    node.object = target ∧ span.start = pos + before.length ∧
    span.stop = span.start + (node.formatExpr formatAtom at_).length

/-- A search finds where the target is written, and finds nothing only where it is not. -/
def Finds (p : Predicate κ) (target : ℕ) : Prop :=
  ∀ top pos, (∀ span, p.locate formatAtom target top pos = some span →
      Points formatAtom p top pos target span) ∧
    (p.locate formatAtom target top pos = none →
      ∀ node at_ before after, Written formatAtom p top node at_ before after →
        node.object ≠ target)

variable {formatAtom} {target : ℕ}

theorem ahead_cons (sep : Units) (child : Predicate κ) (front : List (Predicate κ)) :
    ahead formatAtom sep (child :: front) = (if child.formatExpr formatAtom false = [] then []
        else child.formatExpr formatAtom false ++ sep) ++ ahead formatAtom sep front := by
  rw [ahead, formatParts, filter_cons]
  by_cases empty : child.formatExpr formatAtom false = []
  · rw [if_neg (by simp [empty]), if_pos empty, nil_append, ahead]
  · rw [if_pos (decide_eq_true empty), if_neg empty, flatMap_cons, ahead]

variable {pos : ℕ}

/-- Among the members of a group, the target is looked for where each of them is written. -/
theorem locateIn_some {sep : Units} (each : ∀ child ∈ children, Finds formatAtom child target)
    {span : Span} (found : locateIn formatAtom target sep children pos = some span) :
    ∃ front child back, children = front ++ child :: back ∧ child.formatExpr formatAtom false ≠ [] ∧
      Points formatAtom child false (pos + (ahead formatAtom sep front).length) target span := by
  induction children generalizing pos with
  | nil => cases found
  | cons child children ih =>
    have later := fun other mem => each other (mem_cons_of_mem child mem)
    rw [locateIn] at found
    split at found
    next empty =>
      obtain ⟨front, other, back, rfl, text, points⟩ := ih later found
      refine ⟨child :: front, other, back, rfl, text, ?_⟩
      rwa [ahead_cons, if_pos empty]
    next text =>
      split at found
      next here =>
        obtain rfl := Option.some.inj found
        refine ⟨[], child, children, rfl, text, ?_⟩
        exact (each child mem_cons_self false pos).1 _ here
      next =>
        obtain ⟨front, other, back, rfl, text', points⟩ := ih later found
        refine ⟨child :: front, other, back, rfl, text', ?_⟩
        rw [ahead_cons, if_neg text, length_append, length_append, ← Nat.add_assoc]
        exact points

theorem locateIn_none {sep : Units} (each : ∀ child ∈ children, Finds formatAtom child target)
    (missed : locateIn formatAtom target sep children pos = none) :
    ∀ child ∈ children, child.formatExpr formatAtom false ≠ [] →
      ∀ node at_ before after, Written formatAtom child false node at_ before after →
        node.object ≠ target := by
  induction children generalizing pos with
  | nil => nofun
  | cons child children ih =>
    have later := fun other mem => each other (mem_cons_of_mem child mem)
    rw [locateIn] at missed
    split at missed
    next empty =>
      exact forall_mem_cons.mpr ⟨fun text => absurd empty text, ih later missed⟩
    next text =>
      split at missed
      next => cases missed
      next nothing =>
        refine forall_mem_cons.mpr ⟨fun _ => ?_, ih later missed⟩
        exact (each child mem_cons_self false pos).2 nothing

theorem ind {motive : Predicate κ → Prop} (condition : ∀ object c, motive (.condition object c))
    (group : ∀ object op children, (∀ child ∈ children, motive child) →
      motive (.group object op children)) (p : Predicate κ) : motive p :=
  @Predicate.rec κ motive (fun children => ∀ child ∈ children, motive child) condition group nofun
    (fun _ _ first rest => forall_mem_cons.mpr ⟨first, rest⟩) p

theorem points_here {p : Predicate κ} {top : Bool} {span : Span}
    (whole : some (Span.mk pos (pos + (p.formatExpr formatAtom top).length)) = some span) :
    Points formatAtom p top pos p.object span := by
  obtain rfl := Option.some.inj whole
  exact ⟨p, top, [], [], .here p top, rfl, rfl, rfl⟩

theorem finds (p : Predicate κ) (target : ℕ) : Finds formatAtom p target := by
  induction p using ind with
  | condition object c =>
    intro top pos
    rw [locate]
    by_cases same : object = target
    · subst same
      rw [if_pos rfl]
      exact ⟨fun span found => points_here found, nofun⟩
    · rw [if_neg same]
      refine ⟨nofun, fun _ node at_ before after written => ?_⟩
      cases written
      exact same
  | group object op children ih =>
    intro top pos
    rw [locate.eq_def]
    dsimp only
    by_cases same : object = target
    · subst same
      rw [if_pos rfl]
      exact ⟨fun span found => points_here found, nofun⟩
    rw [if_neg same]
    by_cases negates : op = some .not
    · subst negates
      cases children with
      | nil =>
        refine ⟨nofun, fun _ node at_ before after written => ?_⟩
        obtain rfl | ⟨-, _, _, _, none, -⟩ | ⟨joins, -⟩ := written.of_group
        · exact same
        · cases none
        · exact absurd rfl joins
      | cons inner rest =>
        obtain ⟨hit, miss⟩ := ih inner mem_cons_self false (pos + (units "NOT ").length)
        refine ⟨fun span found => ?_, fun nothing node at_ before after written => ?_⟩
        · obtain ⟨node, at_, before, after, written, is, start, stop⟩ := hit span found
          refine ⟨node, at_, _, after, .negated written, is, ?_, stop⟩
          rw [length_append, ← Nat.add_assoc]
          exact start
        · obtain rfl | ⟨-, _, _, _, first, inside⟩ | ⟨joins, -⟩ := written.of_group
          · exact same
          · cases first
            exact miss nothing node at_ _ _ inside
          · exact absurd rfl joins
    · rw [if_neg negates]
      refine ⟨fun span found => ?_, fun nothing node at_ before after written => ?_⟩
      · obtain ⟨front, child, back, rfl, text, points⟩ := locateIn_some ih found
        obtain ⟨node, at_, before, after, written, is, start, stop⟩ := points
        refine ⟨node, at_, _, _, .member negates text written, is, ?_, stop⟩
        rw [start]
        cases top <;> simp [bracket, units] <;> omega
      · obtain rfl | ⟨is, -⟩ | ⟨-, child, mem, text, _, _, inside⟩ := written.of_group
        · exact same
        · exact absurd is negates
        · exact locateIn_none ih nothing child mem text node at_ _ _ inside

theorem slice_around (before part after : Units) :
    Span.slice ⟨before.length, before.length + part.length⟩ (before ++ part ++ after) = part := by
  rw [Span.slice, append_assoc, drop_left, Nat.add_sub_cancel_left, take_left]

/-- `spanOf` points at what is written: it finds nothing only where the target is written nowhere,
and what it finds is the place, and the very text, of an occurrence of the target. -/
theorem spanOf_points (formatAtom : κ → Units) (p : Predicate κ) (target : ℕ) :
    (spanOf formatAtom (some p) target = none ↔
      ∀ node at_ before after, Written formatAtom p true node at_ before after →
        node.object ≠ target) ∧
    ∀ span, spanOf formatAtom (some p) target = some span →
      ∃ node at_ before after, Written formatAtom p true node at_ before after ∧
        node.object = target ∧ span.start = before.length ∧
        span.slice (stringify formatAtom (some p)) = node.formatExpr formatAtom at_ := by
  have found : Finds formatAtom p target := finds p target
  obtain ⟨hit, miss⟩ := found true 0
  have points (span : Span) (found : spanOf formatAtom (some p) target = some span) :=
    hit span found
  refine ⟨⟨miss, fun nowhere => ?_⟩, fun span found => ?_⟩
  · rw [Option.eq_none_iff_forall_not_mem]
    intro span found
    obtain ⟨node, at_, before, after, written, is, -⟩ := points span found
    exact nowhere node at_ before after written is
  · obtain ⟨node, at_, before, after, written, is, start, stop⟩ := points span found
    rw [Nat.zero_add] at start
    refine ⟨node, at_, before, after, written, is, start, ?_⟩
    obtain ⟨first, last⟩ := span
    obtain rfl : first = before.length := start
    obtain rfl : last = before.length + _ := stop
    rw [stringify, Option.elim_some, written.text, slice_around]

/-- In `a OR (b)`, past a group that is not written. -/
example : spanOf units (some (.group 0 (some .or) [.group 1 none [], .condition 2 "a",
    .group 3 (some .and) [.condition 4 "b"]])) 4 = some ⟨6, 7⟩ := by decide

end Predicate

end DataViz.Canvas
