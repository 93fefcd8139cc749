/-
# How a condition is read

Words are read alike wherever they stand: whatever is open around them, whatever was read before
them in their frame. So a bracket around words that are read to their end makes one operand of them,
and of words that are read behind a NOT the rest is read by itself.
-/

import DataViz.NativeQuery.RewritingLaws
import DataViz.NativeQuery.ScanLaws

namespace DataViz.NativeQuery

open List Option

variable {letters : Letters} {α : Type*}

section

theorem segments_of_none {ι κ : Type*} {separator : ι → Option κ} {items : List ι}
    (none_ : ∀ item ∈ items, separator item = none) : segments separator items = (items, []) := by
  induction items with
  | nil => rfl
  | cons item items ih =>
    simp only [segments, none_ item mem_cons_self,
      ih fun other mem => none_ other (mem_cons_of_mem _ mem)]

variable {items : List (Item α)} {next : List (Item α) → Option (Meaning α)} {operator : Operator α}

theorem leftToRight_of_none (none_ : ∀ item ∈ items, operator item = none) :
    leftToRight operator next items = next items := by
  rw [leftToRight, segments_of_none none_]
  cases next items <;> rfl

variable {item : Item α} {m : Meaning α}

/-- An operator needs something before it. -/
theorem leftToRight_head (empty : next [] = none)
    (reads : leftToRight operator next (item :: items) = some m) : operator item = none := by
  cases found : operator item with
  | none => rfl
  | some f =>
    rw [leftToRight, segments, found, empty] at reads
    cases reads

theorem leftToRight_nil (empty : next [] = none) : leftToRight operator next [] = none := by
  rw [leftToRight, segments, empty]
  rfl

structure Item.Inert (item : Item α) : Prop where
  free : ∀ j ∈ joiners, item ≠ .word j
  not : item ≠ .word (kw "NOT")
  equals : comparisons [kw "=", kw "<>", kw "!="] related item = none
  less : comparisons [kw "<", kw ">", kw "<=", kw ">="] matched item = none
  tight : tightest item = none

theorem matched_nil : matched ([] : List (Item α)) = none :=
  leftToRight_nil rfl

theorem related_nil : related ([] : List (Item α)) = none :=
  leftToRight_nil matched_nil

theorem equated_nil : equated ([] : List (Item α)) = none :=
  leftToRight_nil related_nil

theorem negation_nil : negation ([] : List (Item α)) = none :=
  equated_nil

theorem conjunction_nil : conjunction ([] : List (Item α)) = none :=
  leftToRight_nil negation_nil

theorem exclusion_nil : exclusion ([] : List (Item α)) = none :=
  leftToRight_nil conjunction_nil

theorem negation_of_ne (other : item ≠ .word (kw "NOT")) (items : List (Item α)) :
    negation (item :: items) = equated (item :: items) := by
  cases item with
  | word w =>
    rw [negation, if_neg]
    rintro rfl
    exact other rfl
  | _ => rfl

/-- What is worth something by itself is no operator. -/
theorem Item.inert_of_disjunction (reads : disjunction [item] = some m) :
    item.Inert ∧ item.meaning? = some m := by
  have single {operator : Operator α} {next : List (Item α) → Option (Meaning α)}
      (empty : next [] = none) (reads : leftToRight operator next [item] = some m) :
      operator item = none ∧ next [item] = some m := by
    have none_ := leftToRight_head empty reads
    rw [leftToRight_of_none (by simpa using none_)] at reads
    exact ⟨none_, reads⟩
  obtain ⟨or, reads⟩ := single exclusion_nil reads
  obtain ⟨xor, reads⟩ := single conjunction_nil reads
  obtain ⟨and, reads⟩ := single negation_nil reads
  have not : item ≠ .word (kw "NOT") := by
    rintro rfl
    cases reads
  rw [negation_of_ne not] at reads
  obtain ⟨equals, reads⟩ := single related_nil reads
  obtain ⟨less, reads⟩ := single matched_nil reads
  obtain ⟨tight, reads⟩ := single rfl reads
  have free : ∀ j ∈ joiners, item ≠ .word j := by
    rintro j joiner rfl
    simp only [joiners, mem_cons, not_mem_nil, or_false] at joiner
    rcases joiner with rfl | rfl | rfl
    · simp [connective] at and
    · simp [connective] at or
    · simp [connective] at xor
  refine ⟨⟨free, not, equals, less, tight⟩, ?_⟩
  rw [primary] at reads
  cases meant : item.meaning? with
  | none => simp [meant] at reads
  | some n => simpa [meant] using reads

theorem connective_eq_none (free : ∀ j ∈ joiners, item ≠ .word j) {w : Text} (joiner : w ∈ joiners)
    (f : Truth → Truth → Truth) (next : List (Item α) → Option (Meaning α)) :
    connective w f next item = none := by
  cases item with
  | word v =>
    rw [connective, if_neg]
    rintro rfl
    exact free v joiner rfl
  | _ => rfl

/-- Items that nothing joins are read behind their NOTs. -/
theorem disjunction_of_free (free : ∀ item ∈ items, ∀ j ∈ joiners, item ≠ .word j) :
    disjunction items = negation items := by
  have none_ {w : Text} (joiner : w ∈ joiners) (f : Truth → Truth → Truth)
      (next : List (Item α) → Option (Meaning α)) :
      ∀ item ∈ items, connective w f next item = none :=
    fun item mem => connective_eq_none (free item mem) joiner f next
  rw [disjunction, leftToRight_of_none (none_ (by simp [joiners]) _ _), exclusion,
    leftToRight_of_none (none_ (by simp [joiners]) _ _), conjunction,
    leftToRight_of_none (none_ (by simp [joiners]) _ _)]

theorem disjunction_not (free : ∀ item ∈ items, ∀ j ∈ joiners, item ≠ .word j) :
    disjunction (.word (kw "NOT") :: items) = (disjunction items).map .not := by
  have first : ∀ j ∈ joiners, Item.word (kw "NOT") ≠ (.word j : Item α) := by
    simp [joiners, kw]
  rw [disjunction_of_free free, disjunction_of_free, negation, if_pos rfl]
  intro item mem
  rcases mem_cons.mp mem with rfl | mem
  · exact first
  · exact free item mem

/-- One item before a comparison with a truth value. -/
theorem disjunction_equals (inert : item.Inert) (meant : item.meaning? = some m) (b : Bool) :
    disjunction [item, .word (kw "="), .word (if b then kw "TRUE" else kw "FALSE")] =
      some (.compare (kw "=") m (.truth (some b))) := by
  have first : related [item] = some m := by
    rw [related, leftToRight_of_none (by simpa using inert.less), matched,
      leftToRight_of_none (by simpa using inert.tight), primary, meant]
    rfl
  have second : related [.word (if b then kw "TRUE" else kw "FALSE")] =
      some (Meaning.truth (α := α) (some b)) := by
    cases b <;> rfl
  have free : ∀ other ∈ [item, .word (kw "="), .word (if b then kw "TRUE" else kw "FALSE")],
      ∀ j ∈ joiners, other ≠ .word j := by
    intro other mem j joiner
    simp only [mem_cons, not_mem_nil, or_false] at mem
    rcases mem with rfl | rfl | rfl
    · exact inert.free j joiner
    · simp only [joiners, mem_cons, not_mem_nil, or_false] at joiner
      rcases joiner with rfl | rfl | rfl <;> simp [kw]
    · simp only [joiners, mem_cons, not_mem_nil, or_false] at joiner
      rcases joiner with rfl | rfl | rfl <;> cases b <;> simp [kw]
  have equals : segments (comparisons [kw "=", kw "<>", kw "!="] related)
      [item, .word (kw "="), .word (if b then kw "TRUE" else kw "FALSE")] =
      ([item], [(fun right => (related right).map fun n m => .compare (kw "=") m n,
        [.word (if b then kw "TRUE" else kw "FALSE")])]) := by
    rw [segments, inert.equals]
    cases b <;> rfl
  rw [disjunction_of_free free, negation_of_ne inert.not, equated, leftToRight, equals]
  simp only [first, second, foldlM_cons, foldlM_nil, map_some]
  rfl

/-- Nothing but a NOT stands right before an operand. -/
theorem eq_not_of_disjunction {m n : Meaning α} (reads : disjunction [item, .operand m] = some n) :
    item = .word (kw "NOT") := by
  have both {operator : Operator α} {next : List (Item α) → Option (Meaning α)}
      (empty : next [] = none) (operand : operator (.operand m) = none)
      (reads : leftToRight operator next [item, .operand m] = some n) :
      next [item, .operand m] = some n := by
    have none_ := leftToRight_head empty reads
    rwa [leftToRight_of_none (by simp [none_, operand])] at reads
  by_contra other
  have reads := both negation_nil rfl (both conjunction_nil rfl (both exclusion_nil rfl reads))
  rw [negation_of_ne other] at reads
  have reads := both rfl rfl (both matched_nil rfl (both related_nil rfl reads))
  rw [primary] at reads
  cases meant : item.meaning? with
  | none => simp [meant] at reads
  | some n => simp [meant, Item.reads?] at reads

end

section

theorem readWords_append (stack : List (Frame α)) (first second : List Text) :
    readWords letters stack (first ++ second) =
      (readWords letters stack first).bind fun stack => readWords letters stack second :=
  foldlM_append ..

theorem readWords_cons (stack : List (Frame α)) (w : Text) (words : List Text) :
    readWords letters stack (w :: words) =
      (readWord letters w stack).bind fun stack => readWords letters stack words :=
  rfl

inductive WordRead (letters : Letters) (w : Text) : List (Frame α) → List (Frame α) → Prop
  | property {items : List (Item α)} {opener : Opener} {below : List (Frame α)}
      (name : isName letters w = true) :
      WordRead letters w (⟨opener, items, true⟩ :: below)
        (⟨opener, .property w :: items, false⟩ :: below)
  | dot {items : List (Item α)} {opener : Opener} {below : List (Frame α)} (same : w = kw ".") :
      WordRead letters w (⟨opener, items, false⟩ :: below) (⟨opener, items, true⟩ :: below)
  | opens {items : List (Item α)} {opener : Opener} {below : List (Frame α)} (same : w = kw "(") :
      WordRead letters w (⟨opener, items, false⟩ :: below)
        (.start .bracket :: ⟨opener, items, false⟩ :: below)
  | case {items : List (Item α)} {opener : Opener} {below : List (Frame α)}
      (same : shout w = kw "CASE") :
      WordRead letters w (⟨opener, items, false⟩ :: below)
        (.start .case :: ⟨opener, items, false⟩ :: below)
  | closes {items : List (Item α)} {outer outer' : Frame α} {below : List (Frame α)}
      (same : w = kw ")") (made : outer.bracketed items.reverse = some outer') :
      WordRead letters w (⟨.bracket, items, false⟩ :: outer :: below) (outer' :: below)
  | ends {items : List (Item α)} {outer outer' : Frame α} {below : List (Frame α)}
      (same : shout w = kw "END") (made : outer.cased items.reverse = some outer') :
      WordRead letters w (⟨.case, items, false⟩ :: outer :: below) (outer' :: below)
  | item {items : List (Item α)} {opener : Opener} {below : List (Frame α)} {item : Item α}
      (found : itemOf letters w = some item)
      (other : w ∉ [kw ".", kw "(", kw ")"] ∧ shout w ∉ [kw "CASE", kw "END"]) :
      WordRead letters w (⟨opener, items, false⟩ :: below) (⟨opener, item :: items, false⟩ :: below)

theorem shout_dot : shout (kw ".") = kw "." := by
  decide

theorem shout_opening : shout (kw "(") = kw "(" := by
  decide

theorem shout_closing : shout (kw ")") = kw ")" := by
  decide

variable {stack stack' : List (Frame α)} {w : Text}

theorem readWord_iff : readWord letters w stack = some stack' ↔
      closed w = true ∧ WordRead letters w stack stack' := by
  constructor
  · intro read
    match stack with
    | [] => cases read
    | ⟨opener, items, dotted⟩ :: below =>
      rw [readWord.eq_def] at read
      dsimp only at read
      split at read
      · cases read
      next open_ =>
      have closed_ : closed w = true := by simpa using open_
      refine ⟨closed_, ?_⟩
      split at read
      · next dots =>
          cases dots
          split at read
          · next name =>
              cases read
              exact .property name
          · cases read
      next undotted =>
      cases dotted with
      | true => exact absurd rfl undotted
      | false =>
      split at read
      · next same =>
          cases read
          exact .dot same
      next dot =>
      split at read
      · next same =>
          cases read
          exact .opens same
      next opening =>
      split at read
      · next same =>
          cases read
          exact .case same
      next case =>
      split at read
      · next same =>
          split at read
          · next _ _ outer rest =>
              obtain ⟨outer', made, rfl⟩ := map_eq_some_iff.mp read
              exact .closes same made
          · cases read
      next closing =>
      split at read
      · next same =>
          split at read
          · next _ _ outer rest =>
              obtain ⟨outer', made, rfl⟩ := map_eq_some_iff.mp read
              exact .ends same made
          · cases read
      next end_ =>
      obtain ⟨item, found, rfl⟩ := map_eq_some_iff.mp read
      exact .item found ⟨by simp [dot, opening, closing], by simp [case, end_]⟩
  · rintro ⟨closed_, step⟩
    have apart : ∀ {v : Text}, w = v → shout v = v → ∀ {u : Text}, v ≠ u → shout w ≠ u := by
      rintro v rfl same u other rfl
      exact other same.symm
    have apart' : ∀ {u : Text}, shout w = u → ∀ {v : Text}, shout v = v → v ≠ u → w ≠ v := by
      rintro u rfl v same other rfl
      exact other same.symm
    rw [readWord.eq_def]
    cases step with
    | property name => simp [closed_, name]
    | dot same =>
      dsimp only
      rw [if_neg (by simp [closed_]), if_neg nofun, if_pos same]
    | opens same =>
      dsimp only
      rw [if_neg (by simp [closed_]), if_neg nofun, if_neg (by simp [same, kw]), if_pos same]
    | case same =>
      dsimp only
      rw [if_neg (by simp [closed_]), if_neg nofun, if_neg (apart' same shout_dot (by decide)),
        if_neg (apart' same shout_opening (by decide)), if_pos same]
    | closes same made =>
      dsimp only
      rw [if_neg (by simp [closed_]), if_neg nofun, if_neg (by simp [same, kw]),
        if_neg (by simp [same, kw]), if_neg (apart same shout_closing (by decide)),
        if_pos same, made]
      rfl
    | ends same made =>
      dsimp only
      rw [if_neg (by simp [closed_]), if_neg nofun, if_neg (apart' same shout_dot (by decide)),
        if_neg (apart' same shout_opening (by decide)),
        if_neg (by rw [same]; decide), if_neg (apart' same shout_closing (by decide)),
        if_pos same, made]
      rfl
    | item found other =>
      obtain ⟨marks, words⟩ := other
      simp only [mem_cons, not_mem_nil, or_false, not_or] at marks words
      dsimp only
      rw [if_neg (by simp [closed_]), if_neg nofun, if_neg marks.1, if_neg marks.2.1,
        if_neg words.1, if_neg marks.2.2, if_neg words.2, found]
      rfl

theorem closed_of_readWord (read : readWord letters w stack = some stack') : closed w = true :=
  (readWord_iff.mp read).1

variable {words : List Text}

theorem closed_of_readWords (read : readWords letters stack words = some stack') :
    ∀ w ∈ words, closed w = true := by
  induction words generalizing stack with
  | nil => exact nofun
  | cons w words ih =>
    obtain ⟨next, first, rest⟩ := bind_eq_some_iff.mp read
    intro v mem
    rcases mem_cons.mp mem with rfl | mem
    · exact closed_of_readWord first
    · exact ih rest v mem

/-- Words are read the same whatever is open below. -/
theorem readWord_below (base : List (Frame α)) (read : readWord letters w stack = some stack') :
    readWord letters w (stack ++ base) = some (stack' ++ base) := by
  obtain ⟨closed_, step⟩ := readWord_iff.mp read
  refine readWord_iff.mpr ⟨closed_, ?_⟩
  cases step with
  | property name => exact .property name
  | dot same => exact .dot same
  | opens same => exact .opens same
  | case same => exact .case same
  | closes same made => exact .closes same made
  | ends same made => exact .ends same made
  | item found other => exact .item found other

theorem readWords_below (base : List (Frame α))
    (read : readWords letters stack words = some stack') :
    readWords letters (stack ++ base) words = some (stack' ++ base) := by
  induction words generalizing stack with
  | nil =>
    cases read
    rfl
  | cons w words ih =>
    rw [readWords_cons] at read ⊢
    obtain ⟨next, first, rest⟩ := bind_eq_some_iff.mp read
    rw [readWord_below base first]
    exact ih rest

/-- What a word does above a base: to its own stack only, or it closes the last frame of that. -/
theorem readWord_above {stack stack' base : List (Frame α)} (some_ : stack ≠ [])
    (read : readWord letters w (stack ++ base) = some stack') :
    (∃ own, own ≠ [] ∧ readWord letters w stack = some own ∧ stack' = own ++ base) ∨
      ∃ frame, stack = [frame] ∧ frame.dotted = false ∧ stack'.length = base.length ∧
        (frame.opener = .bracket ∧ w = kw ")" ∨ frame.opener = .case ∧ shout w = kw "END") := by
  obtain ⟨closed_, step⟩ := readWord_iff.mp read
  cases stack with
  | nil => exact absurd rfl some_
  | cons frame below =>
    rw [cons_append] at step
    generalize whole : below ++ base = under at step
    have own {made : List (Frame α)} {top : Frame α}
        (step : WordRead letters w (frame :: below) (top :: made)) :
        ∃ own, own ≠ [] ∧ readWord letters w (frame :: below) = some own ∧
          top :: (made ++ base) = own ++ base :=
      ⟨top :: made, cons_ne_nil _ _, readWord_iff.mpr ⟨closed_, step⟩, rfl⟩
    cases step with
    | property name =>
      subst whole
      exact .inl (own (.property name))
    | dot same =>
      subst whole
      exact .inl (own (.dot same))
    | opens same =>
      subst whole
      exact .inl (own (.opens same))
    | case same =>
      subst whole
      exact .inl (own (.case same))
    | item found other =>
      subst whole
      exact .inl (own (.item found other))
    | @closes items outer outer' rest same made =>
      cases below with
      | nil =>
        refine .inr ⟨_, rfl, rfl, ?_, .inl ⟨rfl, same⟩⟩
        rw [nil_append] at whole
        rw [whole, length_cons, length_cons]
      | cons next below =>
        cases whole
        exact .inl (own (.closes same made))
    | @ends items outer outer' rest same made =>
      cases below with
      | nil =>
        refine .inr ⟨_, rfl, rfl, ?_, .inr ⟨rfl, same⟩⟩
        rw [nil_append] at whole
        rw [whole, length_cons, length_cons]
      | cons next below =>
        cases whole
        exact .inl (own (.ends same made))

def Frame.behind (opener : Opener) (before : List (Item α)) (frame : Frame α) : Frame α :=
  ⟨opener, frame.items ++ before, frame.dotted⟩

/-- The last frame under another opener, with items read before its own. -/
def overBottom (opener : Opener) (before : List (Item α)) : List (Frame α) → List (Frame α)
  | [] => []
  | [frame] => [frame.behind opener before]
  | frame :: next :: below => frame :: overBottom opener before (next :: below)

def Neutral (before : List (Item α)) : Prop :=
  ∀ items, callee (items ++ before) = (callee items).map fun found => (found.1, found.2 ++ before)

theorem neutral_nil : Neutral ([] : List (Item α)) := by
  intro items
  cases found : callee items with
  | none => simp [found]
  | some path => simp [found]

theorem neutral_word (w : Text) : Neutral ([.word w] : List (Item α)) := by
  intro items
  induction items with
  | nil => rfl
  | cons item items ih =>
    cases item with
    | property p =>
      rw [cons_append, callee, callee, ih]
      cases callee items <;> rfl
    | _ => rfl

variable {opener : Opener} {before : List (Item α)}

theorem bracketed_behind (neutral : Neutral before) (outer : Frame α) (items : List (Item α)) :
    (outer.behind opener before).bracketed items =
      (outer.bracketed items).map (Frame.behind opener before) := by
  rw [Frame.bracketed, Frame.bracketed, Frame.behind, neutral]
  cases callee outer.items with
  | none =>
    cases disjunction items <;> rfl
  | some found =>
    cases arguments items <;> rfl

theorem cased_behind (outer : Frame α) (items : List (Item α)) :
    (outer.behind opener before).cased items =
      (outer.cased items).map (Frame.behind opener before) := by
  rw [Frame.cased, Frame.cased]
  cases caseOf items <;> rfl

theorem overBottom_cons_cons (frame next : Frame α) (below : List (Frame α)) :
    overBottom opener before (frame :: next :: below) =
      frame :: overBottom opener before (next :: below) :=
  rfl

/-- Words are read the same behind what names no function, and in whatever frame. -/
theorem readWord_overBottom (neutral : Neutral before)
    (read : readWord letters w stack = some stack') :
    readWord letters w (overBottom opener before stack) =
      some (overBottom opener before stack') := by
  obtain ⟨closed_, step⟩ := readWord_iff.mp read
  refine readWord_iff.mpr ⟨closed_, ?_⟩
  cases step with
  | @property _ _ below name => cases below <;> exact .property name
  | @dot _ _ below same => cases below <;> exact .dot same
  | @opens _ _ below same => cases below <;> exact .opens same
  | @case _ _ below same => cases below <;> exact .case same
  | @closes items outer outer' below same made =>
    cases below with
    | nil => exact .closes same (by rw [bracketed_behind neutral, made]; rfl)
    | cons next below => exact .closes same made
  | @ends items outer outer' below same made =>
    cases below with
    | nil => exact .ends same (by rw [cased_behind, made]; rfl)
    | cons next below => exact .ends same made
  | @item _ _ below _ found other => cases below <;> exact .item found other

/-- What is read behind it is read by itself. -/
theorem readWord_of_overBottom (neutral : Neutral before) {stack made : List (Frame α)}
    (read : readWord letters w (overBottom opener before stack) = some made) :
    ∃ stack', readWord letters w stack = some stack' ∧ made = overBottom opener before stack' := by
  obtain ⟨closed_, step⟩ := readWord_iff.mp read
  have back {stack' : List (Frame α)} (step : WordRead letters w stack stack') :
      readWord letters w stack = some stack' :=
    readWord_iff.mpr ⟨closed_, step⟩
  match stack with
  | [] => cases read
  | [⟨opener', items, dotted⟩] =>
    rw [overBottom, Frame.behind] at step
    generalize whole : items ++ before = all at step
    cases step with
    | property name => exact ⟨_, back (.property name), by rw [← whole]; rfl⟩
    | dot same => exact ⟨_, back (.dot same), by rw [← whole]; rfl⟩
    | opens same => exact ⟨_, back (.opens same), by rw [← whole]; rfl⟩
    | case same => exact ⟨_, back (.case same), by rw [← whole]; rfl⟩
    | item found other => exact ⟨_, back (.item found other), by rw [← whole]; rfl⟩
  | ⟨opener', items, dotted⟩ :: next :: below =>
    rw [overBottom_cons_cons] at step
    generalize whole : overBottom opener before (next :: below) = under at step
    cases step with
    | property name => exact ⟨_, back (.property name), by rw [← whole]; rfl⟩
    | dot same => exact ⟨_, back (.dot same), by rw [← whole]; rfl⟩
    | opens same => exact ⟨_, back (.opens same), by rw [← whole]; rfl⟩
    | case same => exact ⟨_, back (.case same), by rw [← whole]; rfl⟩
    | item found other => exact ⟨_, back (.item found other), by rw [← whole]; rfl⟩
    | closes same made =>
      cases below with
      | nil =>
        cases whole
        rw [bracketed_behind neutral] at made
        obtain ⟨outer, inner, rfl⟩ := map_eq_some_iff.mp made
        exact ⟨_, back (.closes same inner), rfl⟩
      | cons further below =>
        cases whole
        exact ⟨_, back (.closes same made), rfl⟩
    | ends same made =>
      cases below with
      | nil =>
        cases whole
        rw [cased_behind] at made
        obtain ⟨outer, inner, rfl⟩ := map_eq_some_iff.mp made
        exact ⟨_, back (.ends same inner), rfl⟩
      | cons further below =>
        cases whole
        exact ⟨_, back (.ends same made), rfl⟩

theorem readWords_overBottom (neutral : Neutral before)
    (read : readWords letters stack words = some stack') :
    readWords letters (overBottom opener before stack) words =
      some (overBottom opener before stack') := by
  induction words generalizing stack with
  | nil =>
    cases read
    rfl
  | cons w words ih =>
    rw [readWords_cons] at read ⊢
    obtain ⟨next, first, rest⟩ := bind_eq_some_iff.mp read
    rw [readWord_overBottom neutral first]
    exact ih rest

theorem readWords_of_overBottom (neutral : Neutral before) {stack made : List (Frame α)}
    (read : readWords letters (overBottom opener before stack) words = some made) :
    ∃ stack', readWords letters stack words = some stack' ∧
      made = overBottom opener before stack' := by
  induction words generalizing stack with
  | nil =>
    cases read
    exact ⟨stack, rfl, rfl⟩
  | cons w words ih =>
    obtain ⟨next, first, rest⟩ := bind_eq_some_iff.mp read
    obtain ⟨stack₁, own, rfl⟩ := readWord_of_overBottom neutral first
    obtain ⟨stack', last, rfl⟩ := ih rest
    exact ⟨stack', by rw [readWords_cons, own]; exact last, rfl⟩

end

section

/-- What the Unicode database says of upper case: blanks have none, and the words the scan takes for
NOT or for brackets are spelled so in ASCII. -/
structure UpperCase (letters : Letters) : Prop where
  blank : ∀ c, Number.isSpace c = true → letters.upper c = [c]
  own : ∀ w, letters.upperText w ∈ kw "NOT" :: (opensTokens ++ closesTokens) →
    shout w = letters.upperText w

theorem toUpper_cases (c : Char) :
    c.toUpper = c ∨ 97 ≤ c.toNat ∧ c.toNat ≤ 122 ∧ c.toUpper.toNat = c.toNat - 32 := by
  unfold Char.toUpper
  split
  · next lower =>
      have low : 97 ≤ c.val.toNat := UInt32.le_iff_toNat_le.mp lower.1
      have high : c.val.toNat ≤ 122 := UInt32.le_iff_toNat_le.mp lower.2
      have gap : ('A'.val - 'a'.val).toNat = 2 ^ 32 - 32 := rfl
      refine .inr ⟨low, high, ?_⟩
      rw [Char.toNat, Char.toNat, UInt32.toNat_add]
      omega
  · exact .inl rfl

theorem eq_of_toUpper {c d : Char} (same : c.toUpper = d) (mark : d.toNat < 65 ∨ 90 < d.toNat) :
    c = d := by
  rcases toUpper_cases c with plain | ⟨low, high, code⟩
  · exact plain.symm.trans same
  · rw [same] at code
    omega

theorem ascii_of_toUpper {c : Char} (ascii : c.toUpper.toNat < 128) : c.toNat < 128 := by
  rcases toUpper_cases c with plain | ⟨low, high, code⟩
  · rwa [plain] at ascii
  · omega

def isAscii (w : Text) : Bool :=
  w.all (·.toNat < 128)

/-- A word that is ASCII in upper case has the same upper case to the scan. -/
theorem upperText_of_shout {w v : Text} (same : shout w = v) (ascii : isAscii v = true) :
    letters.upperText w = v := by
  induction w generalizing v with
  | nil => exact same
  | cons c w ih =>
    rw [shout, map_cons] at same
    subst same
    rw [isAscii, all_cons, Bool.and_eq_true, decide_eq_true_eq] at ascii
    have first : c.toNat < 128 := ascii_of_toUpper ascii.1
    rw [Letters.upperText, flatMap_cons, letters.upper_ascii c first]
    exact congrArg (c.toUpper :: ·) (ih rfl ascii.2)

theorem eq_of_shout {w : Text} {d : Char} (same : shout w = [d])
    (mark : d.toNat < 65 ∨ 90 < d.toNat) : w = [d] := by
  cases w with
  | nil => cases same
  | cons c w =>
    obtain ⟨first, rest⟩ := cons.inj same
    rw [eq_of_toUpper first mark, map_eq_nil_iff.mp rest]

/-- What the scan takes for a bracket is one. -/
theorem UpperCase.bracket (upper : UpperCase letters) {w : Text}
    (bracket : letters.upperText w ∈ opensTokens ++ closesTokens) : w = letters.upperText w := by
  have same := upper.own w (mem_cons_of_mem _ bracket)
  generalize letters.upperText w = v at bracket same
  simp only [opensTokens, closesTokens, cons_append, nil_append, mem_cons,
    not_mem_nil, or_false] at bracket
  rcases bracket with rfl | rfl | rfl | rfl | rfl | rfl <;> exact eq_of_shout same (by decide)

theorem upperText_ascii (w : Text) : Letters.ascii.upperText w = shout w := by
  induction w with
  | nil => rfl
  | cons c w ih => exact congrArg (c.toUpper :: ·) ih

theorem UpperCase.ascii : UpperCase Letters.ascii where
  blank c blank := by
    have plain : c.toUpper = c := by
      rcases toUpper_cases c with plain | ⟨low, high, -⟩
      · exact plain
      · simp only [Number.isSpace, Bool.decide_or, Bool.or_eq_true, decide_eq_true_eq,
          mem_cons, not_mem_nil, or_false] at blank
        omega
    exact congrArg ([·]) plain
  own w _ := (upperText_ascii w).symm

end

end DataViz.NativeQuery
