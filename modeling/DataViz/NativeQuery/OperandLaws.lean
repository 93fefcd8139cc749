/-
# What a rewritten condition means

The scan's brackets are those of the reading, so a bracket the scan finds closing at the last token
makes one operand of the text, and an AND, OR or XOR that joins what stands behind a NOT is met.
Only a CASE is taken for one operand where it is not: when the words CASE and END, names among them,
never come out even.
-/

import DataViz.NativeQuery.ConditionsLaws

namespace DataViz.NativeQuery

open List Option

variable {α : Type*} {letters : Letters}

inductive Unclosed : ℕ → List Text → Prop
  | nested {tokens : List Text} (nested : Nested tokens) : Unclosed 0 tokens
  | opened {depth : ℕ} {tokens inner : List Text} {opening : Text}
      (before : Unclosed depth tokens) (opens : opening ∈ opensTokens) (inside : Nested inner) :
      Unclosed (depth + 1) (tokens ++ opening :: inner)

variable {depth : ℕ}

theorem Unclosed.append {tokens more : List Text} (unclosed : Unclosed depth tokens)
    (nested : Nested more) : Unclosed depth (tokens ++ more) := by
  cases unclosed with
  | nested first => exact .nested (first.append nested)
  | opened before opens inside =>
    rw [append_assoc]
    exact .opened before opens (inside.append nested)

variable {tokens : List Text}

theorem Unclosed.plain (unclosed : Unclosed depth tokens) {token : Text}
    (plain : token ∉ opensTokens ++ closesTokens) : Unclosed depth (tokens ++ [token]) := by
  rw [mem_append, not_or] at plain
  exact unclosed.append (.plain plain.1 plain.2 .nil)

theorem Unclosed.close (unclosed : Unclosed (depth + 1) tokens) {closing : Text}
    (closes : closing ∈ closesTokens) : Unclosed depth (tokens ++ [closing]) := by
  cases unclosed with
  | opened before opens inside =>
    rw [append_assoc]
    exact before.append (.group opens closes inside .nil)

def openBrackets : List (Frame α) → ℕ
  | [] => 0
  | [_] => 0
  | frame :: next :: below =>
    (if frame.opener = .bracket then 1 else 0) + openBrackets (next :: below)

variable {w : Text}

theorem isName_mark (mark : w ∈ opensTokens ++ closesTokens) : isName letters w = false := by
  simp only [opensTokens, closesTokens, cons_append, nil_append, mem_cons,
    not_mem_nil, or_false] at mark
  rcases mark with rfl | rfl | rfl | rfl | rfl | rfl <;>
    · rw [isName, letters.isAlpha_ascii _ (by decide)]
      decide

theorem itemOf_mark (mark : w ∈ opensTokens ++ closesTokens) :
    itemOf letters w = (none : Option (Item α)) := by
  have name : isName letters w = false := isName_mark mark
  simp only [opensTokens, closesTokens, cons_append, nil_append, mem_cons,
    not_mem_nil, or_false] at mark
  rw [itemOf, name]
  rcases mark with rfl | rfl | rfl | rfl | rfl | rfl <;>
    rw [if_neg (by decide), if_neg (by decide), if_neg (by decide)]

theorem openBrackets_cons {frame other : Frame α} (same : frame.opener = other.opener)
    (below : List (Frame α)) : openBrackets (frame :: below) = openBrackets (other :: below) := by
  cases below with
  | nil => rfl
  | cons next below => rw [openBrackets, openBrackets, same]

variable {items : List (Item α)} {outer outer' : Frame α}

theorem Frame.bracketed_opener (made : outer.bracketed items = some outer') :
    outer'.opener = outer.opener := by
  rw [Frame.bracketed] at made
  split at made <;>
    · obtain ⟨_, -, rfl⟩ := map_eq_some_iff.mp made
      rfl

theorem Frame.cased_opener (made : outer.cased items = some outer') :
    outer'.opener = outer.opener := by
  obtain ⟨_, -, rfl⟩ := map_eq_some_iff.mp made
  rfl

variable {stack stack' : List (Frame α)}

/-- The brackets the scan sees open are those of the stack. -/
theorem Unclosed.read (upper : UpperCase letters) (read : readWord letters w stack = some stack')
    (unclosed : Unclosed (openBrackets stack) tokens) :
    Unclosed (openBrackets stack') (tokens ++ [letters.upperText w]) := by
  have plain (other : w ∉ opensTokens ++ closesTokens) :
      letters.upperText w ∉ opensTokens ++ closesTokens := by
    intro mark
    exact other (upper.bracket mark ▸ mark)
  have swap {frame other : Frame α} {below : List (Frame α)} {tokens : List Text}
      (same : frame.opener = other.opener)
      (unclosed : Unclosed (openBrackets (frame :: below)) tokens) :
      Unclosed (openBrackets (other :: below)) tokens := by
    rwa [← openBrackets_cons same]
  obtain ⟨-, step⟩ := readWord_iff.mp read
  cases step with
  | property name =>
    refine swap (by rfl) (unclosed.plain (plain fun mark => ?_))
    rw [isName_mark mark] at name
    cases name
  | dot same =>
    subst same
    exact swap (by rfl) (unclosed.plain (plain (by decide)))
  | opens same =>
    subst same
    rw [upperText_of_shout shout_opening (by decide), openBrackets,
      if_pos (show (Frame.start (α := α) .bracket).opener = .bracket from rfl), Nat.add_comm]
    exact .opened unclosed (by decide) .nil
  | case same =>
    rw [openBrackets, if_neg nofun, Nat.zero_add]
    refine unclosed.plain ?_
    rw [upperText_of_shout same (by decide)]
    decide
  | closes same made =>
    subst same
    rw [openBrackets, Nat.add_comm] at unclosed
    rw [upperText_of_shout shout_closing (by decide),
      openBrackets_cons (Frame.bracketed_opener made)]
    exact unclosed.close (by decide)
  | ends same made =>
    rw [openBrackets, if_neg nofun, Nat.zero_add] at unclosed
    rw [openBrackets_cons (Frame.cased_opener made)]
    refine unclosed.plain ?_
    rw [upperText_of_shout same (by decide)]
    decide
  | item found other =>
    refine swap (by rfl) (unclosed.plain (plain fun mark => ?_))
    rw [itemOf_mark mark] at found
    cases found

variable {words : List Text}

theorem Unclosed.readWords (upper : UpperCase letters)
    (read : readWords letters stack words = some stack')
    (unclosed : Unclosed (openBrackets stack) tokens) :
    Unclosed (openBrackets stack') (tokens ++ words.map letters.upperText) := by
  induction words generalizing stack tokens with
  | nil =>
    cases read
    simpa using unclosed
  | cons w words ih =>
    obtain ⟨next, first, rest⟩ := bind_eq_some_iff.mp read
    rw [map_cons, append_cons]
    exact ih rest (unclosed.read upper first)

/-- Words that leave one frame where there was one have their brackets closed. -/
theorem nested_of_readWords (upper : UpperCase letters) {frame frame' : Frame α}
    (read : readWords letters [frame] words = some [frame']) :
    Nested (words.map letters.upperText) := by
  have unclosed := Unclosed.readWords upper read (.nested .nil)
  cases unclosed with
  | nested nested => exact nested

/-- Words above a base that end no higher than it close their last frame on the way. -/
theorem readWords_above {base made : List (Frame α)} : ∀ {stack : List (Frame α)}, stack ≠ [] →
      readWords letters (stack ++ base) words = some made → made.length ≤ base.length →
      ∃ first w rest frame, words = first ++ w :: rest ∧
        readWords letters stack first = some [frame] ∧ frame.dotted = false ∧
        (frame.opener = .bracket ∧ w = kw ")" ∨ frame.opener = .case ∧ shout w = kw "END") := by
  induction words with
  | nil =>
    intro stack some_ read short
    cases read
    rw [length_append] at short
    have positive : 0 < stack.length := length_pos_iff.mpr some_
    omega
  | cons w words ih =>
    intro stack some_ read short
    obtain ⟨next, step, rest⟩ := bind_eq_some_iff.mp read
    rcases readWord_above some_ step with
      ⟨own, some_', step', rfl⟩ | ⟨frame, rfl, undotted, -, end_⟩
    · obtain ⟨first, v, last, frame, rfl, read', undotted, end_⟩ := ih some_' rest short
      refine ⟨w :: first, v, last, frame, rfl, ?_, undotted, end_⟩
      rw [readWords_cons, step']
      exact read'
    · exact ⟨[], w, words, frame, rfl, rfl, undotted, end_⟩

theorem opener_of_readWord (read : readWord letters w stack = some stack') :
    stack'.getLast?.map Frame.opener = stack.getLast?.map Frame.opener := by
  obtain ⟨-, step⟩ := readWord_iff.mp read
  cases step with
  | @property _ _ below => cases below <;> rfl
  | @dot _ _ below => cases below <;> rfl
  | @opens _ _ below => cases below <;> rfl
  | @case _ _ below => cases below <;> rfl
  | @item _ _ below => cases below <;> rfl
  | @closes _ _ _ below same made =>
    cases below with
    | nil => exact congrArg some (Frame.bracketed_opener made)
    | cons => rfl
  | @ends _ _ _ below same made =>
    cases below with
    | nil => exact congrArg some (Frame.cased_opener made)
    | cons => rfl

/-- The last frame keeps its opener. -/
theorem opener_of_readWords (read : readWords letters stack words = some stack') :
    stack'.getLast?.map Frame.opener = stack.getLast?.map Frame.opener := by
  induction words generalizing stack with
  | nil =>
    cases read
    rfl
  | cons w words ih =>
    obtain ⟨next, first, rest⟩ := bind_eq_some_iff.mp read
    rw [ih rest, opener_of_readWord first]

/-- A bracket that is closed in the end is closed by a bracket. -/
theorem readWords_bracket (upper : UpperCase letters) {outer made : Frame α}
    (read : readWords letters [.start .bracket, outer] words = some [made]) :
    ∃ inner rest, ∃ items : List (Item α), words = inner ++ kw ")" :: rest ∧
      Nested (inner.map letters.upperText) ∧
      readWords letters [.start .bracket] inner = some [⟨.bracket, items, false⟩] := by
  have above : readWords letters ([.start .bracket] ++ [outer]) words = some [made] := read
  obtain ⟨inner, w, rest, frame, rfl, read, undotted, end_⟩ :=
    readWords_above (cons_ne_nil _ _) above (Nat.le_refl _)
  have opener : frame.opener = .bracket := by
    simpa [Frame.start] using opener_of_readWords read
  obtain ⟨-, rfl⟩ | ⟨other, -⟩ := end_
  · obtain ⟨_, items, _⟩ := frame
    cases opener
    cases undotted
    exact ⟨inner, rest, items, rfl, nested_of_readWords upper read, read⟩
  · rw [opener] at other
    cases other

theorem word_of_itemOf {w v : Text} (found : itemOf letters w = some (.word v : Item α)) :
    shout w = v := by
  rw [itemOf] at found
  split at found
  · cases found
    rfl
  · split at found
    · cases found
    · split at found <;> cases found

theorem callee_subset {items rest : List (Item α)} {path : List Text}
    (found : callee items = some (path, rest)) : rest ⊆ items := by
  induction items generalizing path with
  | nil => cases found
  | cons item items ih =>
    cases item with
    | name f =>
      cases found
      exact subset_cons_self _ _
    | property p =>
      obtain ⟨⟨_, _⟩, inner, same⟩ := map_eq_some_iff.mp found
      cases same
      exact subset_cons_of_subset _ (ih inner)
    | operand => cases found
    | word => cases found

variable {j : Text}

theorem word_of_bracketed (made : outer.bracketed items = some outer')
    (mem : .word j ∈ outer'.items) : .word j ∈ outer.items := by
  rw [Frame.bracketed] at made
  split at made
  · next path rest found =>
      obtain ⟨_, -, rfl⟩ := map_eq_some_iff.mp made
      rcases mem_cons.mp mem with same | mem
      · cases same
      · exact callee_subset found mem
  · obtain ⟨_, -, rfl⟩ := map_eq_some_iff.mp made
    rcases mem_cons.mp mem with same | mem
    · cases same
    · exact mem

theorem word_of_cased (made : outer.cased items = some outer') (mem : .word j ∈ outer'.items) :
    .word j ∈ outer.items := by
  obtain ⟨_, -, rfl⟩ := map_eq_some_iff.mp made
  rcases mem_cons.mp mem with same | mem
  · cases same
  · exact mem

def HoldsWord (j : Text) (stack : List (Frame α)) : Prop :=
  ∃ bottom, stack.getLast? = some bottom ∧ .word j ∈ bottom.items

theorem HoldsWord.read {w j : Text} (read : readWord letters w stack = some stack')
    (holds : HoldsWord j stack') : HoldsWord j stack ∨ ∃ frame, stack = [frame] ∧ shout w = j := by
  obtain ⟨bottom, last, mem⟩ := holds
  obtain ⟨-, step⟩ := readWord_iff.mp read
  cases step with
  | @property items opener below name =>
    cases below with
    | nil =>
      cases last
      rcases mem_cons.mp mem with same | mem
      · cases same
      · exact .inl ⟨_, rfl, mem⟩
    | cons next below => exact .inl ⟨bottom, last, mem⟩
  | @dot items opener below same =>
    cases below with
    | nil =>
      cases last
      exact .inl ⟨_, rfl, mem⟩
    | cons next below => exact .inl ⟨bottom, last, mem⟩
  | opens => exact .inl ⟨bottom, last, mem⟩
  | case => exact .inl ⟨bottom, last, mem⟩
  | @closes items outer outer' below same made =>
    cases below with
    | nil =>
      cases last
      exact .inl ⟨_, rfl, word_of_bracketed made mem⟩
    | cons next below => exact .inl ⟨bottom, last, mem⟩
  | @ends items outer outer' below same made =>
    cases below with
    | nil =>
      cases last
      exact .inl ⟨_, rfl, word_of_cased made mem⟩
    | cons next below => exact .inl ⟨bottom, last, mem⟩
  | @item items opener below item found other =>
    cases below with
    | nil =>
      cases last
      rcases mem_cons.mp mem with same | mem
      · subst same
        exact .inr ⟨_, rfl, word_of_itemOf found⟩
      · exact .inl ⟨_, rfl, mem⟩
    | cons next below => exact .inl ⟨bottom, last, mem⟩

theorem Joined.append (joined : Joined tokens) (more : List Text) : Joined (tokens ++ more) := by
  obtain ⟨first, joiner, rest, rfl, nested, mem⟩ := joined
  exact ⟨first, joiner, rest ++ more, by rw [append_assoc, cons_append], nested, mem⟩

variable {frame : Frame α}

/-- What joins the items of a frame stands outside all brackets of the scan. -/
theorem joined_of_readWords (upper : UpperCase letters) {stack : List (Frame α)}
    (read : readWords letters [frame] words = some stack) (joiner : j ∈ joiners)
    (before : .word j ∉ frame.items) (holds : HoldsWord j stack) :
    Joined (words.map letters.upperText) := by
  induction words using reverseRecOn generalizing stack with
  | nil =>
    cases read
    obtain ⟨bottom, last, mem⟩ := holds
    cases last
    exact absurd mem before
  | append_singleton words w ih =>
    rw [readWords_append] at read
    obtain ⟨next, first, last⟩ := bind_eq_some_iff.mp read
    have step : readWord letters w next = some stack := by
      obtain ⟨_, step, same⟩ := bind_eq_some_iff.mp last
      cases same
      exact step
    rw [map_append]
    rcases holds.read step with earlier | ⟨frame', rfl, same⟩
    · exact (ih first earlier).append _
    · refine ⟨words.map letters.upperText, letters.upperText w, [], rfl,
        nested_of_readWords upper first, ?_⟩
      have ascii : ∀ j ∈ joiners, isAscii j = true := by decide
      rwa [upperText_of_shout same (ascii j joiner)]

theorem flatten_iff : flatten letters words = some items ↔
      readWords letters [.start .text] words = some [⟨.text, items.reverse, false⟩] := by
  constructor
  · intro flat
    rw [flatten] at flat
    split at flat
    · next frame read =>
        obtain ⟨opener, newest, dotted⟩ := frame
        have text : opener = .text := by simpa [Frame.start] using opener_of_readWords read
        dsimp only at flat
        split at flat
        · cases flat
        · next undotted =>
            cases flat
            cases text
            rw [read, reverse_reverse, Bool.eq_false_iff.mpr undotted]
    · cases flat
  · intro read
    rw [flatten, read]
    simp

variable {m : Meaning α}

/-- Words in brackets make one operand, wherever they stand but behind a function's name. -/
theorem readWords_bracketed (flat : flatten letters words = some items)
    (reads : disjunction items = some m) (undotted : frame.dotted = false)
    (callee_ : callee frame.items = none) (below : List (Frame α)) :
    readWords letters (frame :: below) (kw "(" :: (words ++ [kw ")"])) =
      some ({ frame with items := .operand m :: frame.items } :: below) := by
  obtain ⟨opener, before, dotted⟩ := frame
  cases undotted
  have opens : readWord letters (kw "(") (⟨opener, before, false⟩ :: below) =
      some (.start .bracket :: ⟨opener, before, false⟩ :: below) :=
    readWord_iff.mpr ⟨by decide, .opens rfl⟩
  have inside : readWords letters (.start .bracket :: ⟨opener, before, false⟩ :: below) words =
      some (⟨.bracket, items.reverse, false⟩ :: ⟨opener, before, false⟩ :: below) := by
    have alone : readWords letters (overBottom .bracket [] [.start .text]) words = _ :=
      readWords_overBottom neutral_nil (flatten_iff.mp flat)
    simp only [overBottom, Frame.behind, append_nil] at alone
    exact readWords_below (⟨opener, before, false⟩ :: below) alone
  have closes : readWord letters (kw ")")
      (⟨.bracket, items.reverse, false⟩ :: ⟨opener, before, false⟩ :: below) =
      some (⟨opener, .operand m :: before, false⟩ :: below) := by
    refine readWord_iff.mpr ⟨by decide, .closes rfl ?_⟩
    rw [Frame.bracketed, callee_, reverse_reverse, reads]
    rfl
  rw [readWords_cons, opens, bind_some, readWords_append, inside, bind_some, readWords_cons, closes]
  rfl

structure Lone (letters : Letters) (w : Text) (item : Item α) : Prop where
  closed : closed w = true
  found : itemOf letters w = some item
  other : w ∉ [kw ".", kw "(", kw ")"] ∧ shout w ∉ [kw "CASE", kw "END"]

theorem Lone.read {item : Item α} (lone : Lone letters w item) (undotted : frame.dotted = false)
    (below : List (Frame α)) : readWord letters w (frame :: below) =
      some ({ frame with items := item :: frame.items } :: below) := by
  obtain ⟨opener, items, dotted⟩ := frame
  cases undotted
  exact readWord_iff.mpr ⟨lone.closed, .item lone.found lone.other⟩

theorem flatten_append (flat : flatten letters words = some items) {item : Item α}
    (lone : Lone letters w item) : flatten letters (words ++ [w]) = some (items ++ [item]) := by
  rw [flatten_iff, readWords_append, flatten_iff.mp flat, bind_some, readWords_cons,
    lone.read rfl, reverse_append]
  rfl

theorem lone_reserved (reserved_ : shout w ∈ reserved) (closed_ : closed w = true)
    (other : shout w ∉ [kw "CASE", kw "END"]) : Lone letters w (.word (shout w) : Item α) where
  closed := closed_
  found := if_pos reserved_
  other := by
    refine ⟨?_, other⟩
    intro mark
    simp only [mem_cons, not_mem_nil, or_false] at mark
    rcases mark with rfl | rfl | rfl <;> revert reserved_ <;> decide

theorem flatten_not (not : shout w = kw "NOT") (closed_ : closed w = true) :
    flatten letters (w :: words) = some items ↔
      ∃ rest, flatten letters words = some rest ∧ items = .word (kw "NOT") :: rest := by
  have lone : Lone letters w (.word (shout w) : Item α) :=
    lone_reserved (by rw [not]; decide) closed_ (by rw [not]; decide)
  have first : readWord letters w [.start .text] =
      some (overBottom .text [.word (kw "NOT")] [.start .text] : List (Frame α)) := by
    rw [lone.read rfl, not]
    rfl
  rw [flatten_iff, readWords_cons, first, bind_some]
  constructor
  · intro read
    obtain ⟨stack, own, same⟩ := readWords_of_overBottom (neutral_word _) read
    match stack with
    | [] => cases same
    | [⟨opener, rest, dotted⟩] =>
      have text : opener = .text := by simpa [Frame.start] using opener_of_readWords own
      obtain ⟨newest, dotted⟩ : items.reverse = rest ++ [.word (kw "NOT")] ∧ false = dotted := by
        simpa [overBottom, Frame.behind] using same
      refine ⟨rest.reverse, ?_, ?_⟩
      · rw [flatten_iff, own, reverse_reverse, text, dotted]
      · rw [← reverse_reverse items, newest, reverse_append]
        rfl
    | frame :: next :: below => cases below <;> simp [overBottom] at same
  · rintro ⟨rest, flat, rfl⟩
    rw [readWords_overBottom (neutral_word _) (flatten_iff.mp flat), reverse_cons]
    rfl

/-- The scan takes a text for one operand, and it is none: it starts with the word CASE, goes on
behind the END of it, and its words CASE and END, names among them, never come out even before the
last word. -/
structure Astray (letters : Letters) (α : Type*) (words : List Text) : Prop where
  case : (words.map letters.upperText).head? = some (kw "CASE")
  goesOn : ∀ item : Item α, flatten letters words ≠ some [item]
  uneven : ∀ k, 0 < k → k < words.length →
    (((words.map letters.upperText).take k).map caseDepth).sum ≠ 0

/-- Leading NOTs taken off, a text goes astray: with one, where no AND, OR or XOR stands outside
brackets to make up for it. -/
def Misjudged (letters : Letters) (α : Type*) (words : List Text) : Prop :=
  let rest := words.dropWhile fun w => shout w = kw "NOT"
  Astray letters α rest ∧ (rest = words ∨ ¬ Joined (rest.map letters.upperText))

theorem alone_not (head : tokens.head? = some (kw "NOT")) :
    alone letters tokens = some (nothingJoins (closings tokens) tokens 1) := by
  cases tokens with
  | nil => cases head
  | cons first rest =>
    cases head
    rfl

/-- Behind a NOT, a text that stands alone is read by itself. -/
theorem behind_of_alone (upper : UpperCase letters)
    (flat : flatten letters (w :: words) = some items) (reads : disjunction items = some m)
    (not : shout w = kw "NOT") (closed_ : closed w = true)
    (alone_ : alone letters ((w :: words).map letters.upperText) = some true) :
    ∃ rest n, flatten letters words = some rest ∧ disjunction rest = some n ∧ m = n.not ∧
      ¬ Joined (words.map letters.upperText) := by
  obtain ⟨rest, flat', rfl⟩ := (flatten_not not closed_).mp flat
  have head : letters.upperText w = kw "NOT" := upperText_of_shout not (by decide)
  have unjoined : ¬ Joined (words.map letters.upperText) := by
    rw [map_cons, head, alone_not rfl, some.injEq] at alone_
    exact not_joined_of_alone alone_
  have free : ∀ item ∈ rest, ∀ j ∈ joiners, item ≠ .word j := by
    rintro item mem j joiner rfl
    refine unjoined (joined_of_readWords upper (flatten_iff.mp flat') joiner nofun ?_)
    exact ⟨_, rfl, by simpa using mem⟩
  rw [disjunction_not free] at reads
  obtain ⟨n, inner, rfl⟩ := map_eq_some_iff.mp reads
  exact ⟨rest, n, flat', inner, rfl, unjoined⟩

/-- A bracket that the scan finds closing at the last token makes the last item of a text. -/
theorem operand_of_bracket (upper : UpperCase letters) {first words : List Text}
    {before items : List (Item α)}
    (start : readWords letters [.start .text] first = some [⟨.text, before, false⟩])
    (flat : flatten letters (first ++ kw "(" :: words) = some items)
    (closes : (closings ((first ++ kw "(" :: words).map letters.upperText)).get? first.length =
      some ((first ++ kw "(" :: words).length - 1)) :
    ∃ m kept, items = kept.reverse ++ [.operand m] ∧
      (callee before = none ∧ kept = before ∨ ∃ path, callee before = some (path, kept)) := by
  have opens : readWord letters (kw "(") [⟨.text, before, false⟩] =
      some [.start .bracket, ⟨.text, before, false⟩] :=
    readWord_iff.mpr ⟨by decide, .opens rfl⟩
  rw [flatten_iff, readWords_append, start, bind_some, readWords_cons, opens,
    bind_some] at flat
  obtain ⟨inner, rest, inside, rfl, nested, read⟩ := readWords_bracket upper flat
  have opening : letters.upperText (kw "(") = kw "(" :=
    upperText_of_shout shout_opening (by decide)
  have closing : letters.upperText (kw ")") = kw ")" :=
    upperText_of_shout shout_closing (by decide)
  have opens_ : kw "(" ∈ opensTokens := by decide
  have closes_ : kw ")" ∈ closesTokens := by decide
  have there := get?_closings (first.map letters.upperText) opens_ closes_ nested
    (rest.map letters.upperText)
  simp only [map_append, map_cons, opening, closing] at closes
  rw [length_map, append_assoc, cons_append, closes, some.injEq] at there
  simp only [length_append, length_cons, length_map] at there
  have last : rest = [] := length_eq_zero_iff.mp (by omega)
  subst last
  have below := readWords_below [⟨.text, before, false⟩] read
  rw [singleton_append] at below
  rw [readWords_append, below, bind_some] at flat
  obtain ⟨next, step, same⟩ := bind_eq_some_iff.mp flat
  cases same
  obtain ⟨-, step⟩ := readWord_iff.mp step
  generalize made : items.reverse = newest at step
  have back : items = newest.reverse := by rw [← made, reverse_reverse]
  cases step with
  | closes _ bracketed =>
    rw [Frame.bracketed] at bracketed
    split at bracketed
    · next path kept found =>
        obtain ⟨args, -, same⟩ := map_eq_some_iff.mp bracketed
        cases same
        exact ⟨_, kept, by simpa using back, .inr ⟨path, found⟩⟩
    · next none_ =>
        obtain ⟨m, -, same⟩ := map_eq_some_iff.mp bracketed
        cases same
        exact ⟨_, before, by simpa using back, .inl ⟨none_, rfl⟩⟩

/-- A name before a bracket is an item. -/
theorem item_of_name (flat : flatten letters (w :: kw "(" :: words) = some items)
    (name : isName letters (letters.upperText w) = true)
    (case : letters.upperText w ≠ kw "CASE") :
    ∃ item : Item α, readWords letters [.start .text] [w] = some [⟨.text, [item], false⟩] ∧
      itemOf letters w = some item := by
  rw [flatten_iff, readWords_cons] at flat
  obtain ⟨next, step, rest⟩ := bind_eq_some_iff.mp flat
  obtain ⟨after, second, -⟩ := bind_eq_some_iff.mp rest
  rw [readWords_cons, step]
  obtain ⟨-, step⟩ := readWord_iff.mp step
  obtain ⟨-, second⟩ := readWord_iff.mp second
  cases step with
  | dot same =>
    cases second with
    | property name' =>
      rw [isName_mark (by decide)] at name'
      cases name'
  | opens same =>
    rw [same, upperText_of_shout shout_opening (by decide), isName_mark (by decide)] at name
    cases name
  | case same => exact absurd (upperText_of_shout same (by decide)) case
  | item found other => exact ⟨_, rfl, found⟩

/-- Of the brackets only round ones are read. -/
theorem bracket_of_flatten (flat : flatten letters (w :: words) = some items)
    (opens : w ∈ opensTokens) : w = kw "(" := by
  rw [flatten_iff] at flat
  obtain ⟨next, step, -⟩ := bind_eq_some_iff.mp flat
  obtain ⟨-, step⟩ := readWord_iff.mp step
  cases step with
  | dot same =>
    subst same
    revert opens
    decide
  | opens same => exact same
  | case same =>
    simp only [opensTokens, mem_cons, not_mem_nil, or_false] at opens
    rcases opens with rfl | rfl | rfl <;> revert same <;> decide
  | item found other =>
    rw [itemOf_mark (mem_append_left _ opens)] at found
    cases found

/-- What the scan finds alone, no NOT at its front and not astray, is one operand. -/
theorem single_of_alone (upper : UpperCase letters) (flat : flatten letters words = some items)
    (reads : disjunction items = some m) (some_ : 2 ≤ words.length)
    (alone_ : alone letters (words.map letters.upperText) = some true)
    (other : (words.map letters.upperText).head? ≠ some (kw "NOT"))
    (judged : ¬ Astray letters α words) : ∃ item, items = [item] := by
  match words with
  | [] => cases some_
  | w :: words =>
    rw [map_cons, alone, some.injEq] at alone_
    have plain : letters.upperText w ≠ kw "NOT" := fun same => other (congrArg some same)
    rw [if_neg plain] at alone_
    have follow : words ≠ [] := by
      rintro rfl
      simp at some_
    by_cases case : letters.upperText w = kw "CASE"
    · rw [if_pos case] at alone_
      by_contra many
      refine judged ⟨by rw [map_cons, case]; rfl, ?_, ?_⟩
      · intro item single
        rw [flat, some.injEq] at single
        exact many ⟨item, single⟩
      · intro k positive short
        have uneven := stopsLast_uneven alone_ k positive (by simpa using short)
        simpa using uneven
    rw [if_neg case] at alone_
    by_cases name : isName letters (letters.upperText w) = true
    · rw [if_pos name] at alone_
      split at alone_
      · next head =>
          obtain ⟨v, rest, rfl⟩ := exists_cons_of_ne_nil follow
          have open_ : letters.upperText v = kw "(" := by simpa using head
          have bracket : v = kw "(" :=
            (upper.bracket (by rw [open_]; decide)).trans open_
          subst bracket
          obtain ⟨item, read, found⟩ := item_of_name flat name case
          obtain ⟨n, kept, rfl, bare | named⟩ :=
            operand_of_bracket upper read (by exact flat) (by simpa using alone_)
          · obtain ⟨-, rfl⟩ := bare
            have same := eq_not_of_disjunction reads
            subst same
            exact absurd (upperText_of_shout (word_of_itemOf found) (by decide)) plain
          · obtain ⟨path, named⟩ := named
            cases item with
            | name f =>
              cases named
              exact ⟨_, rfl⟩
            | _ => cases named
      · simp [follow] at alone_
    rw [if_neg name] at alone_
    split at alone_
    · next opens =>
        have mark : letters.upperText w ∈ opensTokens ++ closesTokens :=
          mem_append_left _ opens
        have bracket : w = kw "(" := bracket_of_flatten flat (upper.bracket mark ▸ opens)
        subst bracket
        have start : readWords letters [.start .text] [] = some [(⟨.text, [], false⟩ : Frame α)] :=
          rfl
        obtain ⟨n, kept, rfl, bare | named⟩ :=
          operand_of_bracket upper start (by exact flat) (by simpa using alone_)
        · obtain ⟨-, rfl⟩ := bare
          exact ⟨_, rfl⟩
        · obtain ⟨path, named⟩ := named
          cases named
    · simp [follow] at alone_

end DataViz.NativeQuery
