/-
# How JSON is read

How a number is read matters only where a number ends. A string is read to its closing quote, and a
number as far as it goes: an unfinished one is no value.
-/

import DataViz.Data.JsonReader

namespace DataViz.JsonReader

open List Option

variable {ν : Type} {read read' : List Char → Value ν} {state : State ν}
  {stack : List (Frame ν)} {c : Char} {text rest : List Char}

theorem run_nil : run read state [] = some state := rfl

theorem run_cons : run read state (c :: text) = (step read state c).bind (run read · text) := by
  rfl

theorem run_append (front back : List Char) :
    run read state (front ++ back) = (run read state front).bind (run read · back) := by
  rw [run, foldlM_append]
  rfl

theorem run_singleton : run read state [c] = step read state c := by
  rw [run_cons]
  cases step read state c <;> rfl

def Mode.Settled : Mode ν → Prop
  | .num _ _ => False
  | _ => True

def Mode.Sound : Mode ν → Prop
  | .word left _ => ∀ c ∈ left, 'a' ≤ c
  | _ => True

/-- A reader is within neither a number nor a string. -/
def Mode.Between : Mode ν → Prop
  | .num _ _ | .str _ _ _ => False
  | .word left _ => ∀ c ∈ left, 'a' ≤ c
  | _ => True

variable {mode : Mode ν}

theorem Mode.Between.sound (between : mode.Between) : mode.Sound := by
  cases mode <;> trivial

theorem Mode.Between.settled (between : mode.Between) : mode.Settled := by
  cases mode <;> trivial

theorem step_congr (settled : state.mode.Settled) : step read state c = step read' state c := by
  obtain ⟨stack, mode⟩ := state
  cases mode <;> first | rfl | exact absurd settled id

theorem finish_congr (settled : state.mode.Settled) : finish read state = finish read' state := by
  obtain ⟨stack, mode⟩ := state
  cases mode with
  | num token part => exact absurd settled id
  | _ => cases stack <;> rfl

variable {after : State ν} {value : Value ν}

theorem follow_between (steps : follow stack value c = some after) : after.mode.Between := by
  unfold follow at steps
  split at steps
  · cases steps
    trivial
  · split at steps
    · split at steps
      · cases steps
        trivial
      · split at steps
        · cases steps
          trivial
        · cases steps
    · split at steps
      · cases steps
        trivial
      · split at steps
        · cases steps
          trivial
        · cases steps
    · cases steps

theorem close_between (stack : List (Frame ν)) (isKey : Bool) (body : List Char) :
    (close stack isKey body).mode.Between := by
  cases isKey <;> trivial

/-- A digit starts nothing but a number. -/
theorem isDigit_ne (digit : isDigit c = true) :
    ∀ other : Char, isDigit other = false → c ≠ other := by
  rintro other isNot rfl
  rw [digit] at isNot
  cases isNot

theorem isExponent_of_digit (digit : isDigit c = true) : isExponent c = false := by
  have ne := isDigit_ne digit
  simp [isExponent, ne 'e' rfl, ne 'E' rfl]

theorem follow_of_digit (digit : isDigit c = true) : follow stack value c = none := by
  have ne := isDigit_ne digit
  have space : isSpace c = false := by
    simp [isSpace, ne ' ' rfl, ne '\t' rfl, ne '\n' rfl, ne '\r' rfl]
  unfold follow
  rw [space]
  simp only [ne ',' rfl, ne ']' rfl, ne '}' rfl, if_false, Bool.false_eq_true]
  split <;> rfl

theorem follow_minus : follow stack value '-' = none := by
  unfold follow
  rw [if_neg (by decide)]
  split <;> rfl

theorem follow_quote : follow stack value '"' = none := by
  unfold follow
  rw [if_neg (by decide)]
  split <;> rfl

/-- What a value starts with. -/
theorem start_cases (steps : start stack c = some after) :
    (c = '"' ∧ after = ⟨stack, .str false [] .none⟩) ∨ after.mode.Between ∨
      (c = '-' ∧ after = ⟨stack, .num ['-'] .sign⟩) ∨
        ∃ part, Part.sign.next c = some part ∧ after = ⟨stack, .num [c] part⟩ := by
  unfold start at steps
  split at steps
  · next quote =>
      cases steps
      exact .inl ⟨quote, rfl⟩
  right
  split at steps
  · cases steps
    exact .inl trivial
  split at steps
  · cases steps
    exact .inl trivial
  split at steps
  · cases steps
    exact .inl (by simp : ∀ c ∈ ['r', 'u', 'e'], 'a' ≤ c)
  split at steps
  · cases steps
    exact .inl (by simp : ∀ c ∈ ['a', 'l', 's', 'e'], 'a' ≤ c)
  split at steps
  · cases steps
    exact .inl (by simp : ∀ c ∈ ['u', 'l', 'l'], 'a' ≤ c)
  right
  split at steps
  · next minus =>
      cases steps
      exact .inl ⟨minus, rfl⟩
  · obtain ⟨part, next, rfl⟩ := map_eq_some_iff.mp steps
    exact .inr ⟨part, next, rfl⟩

/-- What a character does between strings and numbers. -/
theorem step_cases (between : state.mode.Between) (steps : step read state c = some after) :
    (c = '"' ∧ ∃ isKey, after = ⟨state.stack, .str isKey [] .none⟩) ∨ after.mode.Between ∨
      (c = '-' ∧ after = ⟨state.stack, .num ['-'] .sign⟩) ∨
        ∃ part, Part.sign.next c = some part ∧ after = ⟨state.stack, .num [c] part⟩ := by
  obtain ⟨stack, mode⟩ := state
  have starts (begun : start stack c = some after) :
      (c = '"' ∧ ∃ isKey, after = ⟨stack, .str isKey [] .none⟩) ∨ after.mode.Between ∨
        (c = '-' ∧ after = ⟨stack, .num ['-'] .sign⟩) ∨
          ∃ part, Part.sign.next c = some part ∧ after = ⟨stack, .num [c] part⟩ := by
    rcases start_cases begun with ⟨quote, is⟩ | others
    · exact .inl ⟨quote, false, is⟩
    · exact .inr others
  unfold step at steps
  cases mode with
  | value =>
    dsimp only at steps
    split at steps
    · cases steps
      exact .inr (.inl trivial)
    · exact starts steps
  | first =>
    dsimp only at steps
    split at steps
    · cases steps
      exact .inr (.inl trivial)
    split at steps
    · cases steps
      exact .inr (.inl trivial)
    · exact starts steps
  | key =>
    dsimp only at steps
    split at steps
    · cases steps
      exact .inr (.inl trivial)
    split at steps
    · next quote =>
        cases steps
        exact .inl ⟨quote, true, rfl⟩
    · cases steps
  | firstKey =>
    dsimp only at steps
    split at steps
    · cases steps
      exact .inr (.inl trivial)
    split at steps
    · cases steps
      exact .inr (.inl trivial)
    split at steps
    · next quote =>
        cases steps
        exact .inl ⟨quote, true, rfl⟩
    · cases steps
  | colon name =>
    dsimp only at steps
    split at steps
    · cases steps
      exact .inr (.inl trivial)
    split at steps
    · split at steps
      · cases steps
        exact .inr (.inl trivial)
      · cases steps
    · cases steps
  | after value => exact .inr (.inl (follow_between steps))
  | str isKey body escape => exact absurd between id
  | num token part => exact absurd between id
  | word left value =>
    dsimp only at steps
    split at steps
    · cases steps
    · next l more =>
        split at steps
        · cases steps
          right
          left
          by_cases last : more = []
          · rw [if_pos last]
            trivial
          · rw [if_neg last]
            exact fun c mem => between c (mem_cons_of_mem _ mem)
        · cases steps

variable {escape : Escape}

/-- Within a string a character leaves it there, or closes it. -/
theorem stepStr_sound {isKey : Bool} {body : List Char}
    (steps : stepStr stack isKey body escape c = some after) : after.mode.Sound := by
  cases escape with
  | none =>
    rw [stepStr] at steps
    split at steps
    · cases steps
      exact (close_between stack isKey body).sound
    split at steps
    · cases steps
      trivial
    split at steps
    · cases steps
    · cases steps
      trivial
  | escaped =>
    rw [stepStr] at steps
    split at steps
    · cases steps
      trivial
    · obtain ⟨unit, -, rfl⟩ := map_eq_some_iff.mp steps
      trivial
  | hex left =>
    rw [stepStr] at steps
    split at steps
    · cases steps
      trivial
    · cases steps

theorem step_sound (sound : state.mode.Sound) (steps : step read state c = some after) :
    after.mode.Sound := by
  by_cases between : state.mode.Between
  · rcases step_cases between steps with ⟨-, isKey, rfl⟩ | still | ⟨-, rfl⟩ | ⟨part, -, rfl⟩
    · trivial
    · exact still.sound
    · trivial
    · trivial
  · obtain ⟨stack, mode⟩ := state
    cases mode with
    | str isKey body escape => exact stepStr_sound steps
    | num token part =>
      unfold step at steps
      dsimp only at steps
      split at steps
      · cases steps
        trivial
      · split at steps
        · exact (follow_between steps).sound
        · cases steps
    | word left value => exact absurd sound between
    | _ => exact absurd trivial between

theorem run_sound (sound : state.mode.Sound) (runs : run read state text = some after) :
    after.mode.Sound := by
  induction text generalizing state with
  | nil =>
    cases runs
    exact sound
  | cons c rest ih =>
    rw [run_cons, bind_eq_some_iff] at runs
    obtain ⟨next, steps, runs⟩ := runs
    exact ih (step_sound sound steps) runs

/-- A reader that is between strings and numbers takes a number only where a value starts. -/
theorem value_of_run_number (between : state.mode.Between) {read : List Char → Value ν}
    (digit : isDigit c = true ∨ c = '-') (goes : step read state c ≠ none) :
    state.mode = .value ∨ state.mode = .first := by
  obtain ⟨stack, mode⟩ := state
  have ne (other : Char) (isNot : isDigit other = false) (not : other ≠ '-') : c ≠ other := by
    rcases digit with digit | rfl
    · exact isDigit_ne digit other isNot
    · exact Ne.symm not
  have space : ¬isSpace c = true := by
    simp [isSpace, ne ' ' rfl (by decide), ne '\t' rfl (by decide), ne '\n' rfl (by decide),
      ne '\r' rfl (by decide)]
  have small : ¬ 'a' ≤ c := by
    rcases digit with digit | rfl
    · intro le
      have digit' : c ≤ '9' := by
        rw [isDigit, Bool.and_eq_true, decide_eq_true_eq, decide_eq_true_eq] at digit
        exact digit.2
      exact absurd (Char.le_trans le digit') (by decide)
    · decide
  cases mode with
  | value => exact .inl rfl
  | first => exact .inr rfl
  | key =>
    refine absurd ?_ goes
    unfold step
    dsimp only
    rw [if_neg space, if_neg (ne '"' rfl (by decide))]
  | firstKey =>
    refine absurd ?_ goes
    unfold step
    dsimp only
    rw [if_neg space, if_neg (ne '}' rfl (by decide)), if_neg (ne '"' rfl (by decide))]
  | colon name =>
    refine absurd ?_ goes
    unfold step
    dsimp only
    rw [if_neg space]
    split
    · exact if_neg (ne ':' rfl (by decide))
    · rfl
  | after value =>
    refine absurd ?_ goes
    rcases digit with digit | rfl
    · exact follow_of_digit digit
    · exact follow_minus
  | str isKey body escape => exact absurd between id
  | num token part => exact absurd between id
  | word left value =>
    refine absurd ?_ goes
    unfold step
    dsimp only
    split
    · rfl
    · next l more =>
        refine if_neg ?_
        rintro rfl
        exact small (between c mem_cons_self)

/-- A reader that is between strings and numbers takes a quote only where a string starts. -/
theorem step_quote (between : state.mode.Between) (read : List Char → Value ν) :
    step read state '"' = none ∨
      (state.mode = .value ∨ state.mode = .first ∨ state.mode = .key ∨ state.mode = .firstKey) ∧
        ∃ isKey, step read state '"' = some ⟨state.stack, .str isKey [] .none⟩ := by
  obtain ⟨stack, mode⟩ := state
  cases mode with
  | value => exact .inr ⟨.inl rfl, false, rfl⟩
  | first => exact .inr ⟨.inr (.inl rfl), false, rfl⟩
  | key => exact .inr ⟨.inr (.inr (.inl rfl)), true, rfl⟩
  | firstKey => exact .inr ⟨.inr (.inr (.inr rfl)), true, rfl⟩
  | colon name =>
    left
    unfold step
    dsimp only
    rw [if_neg (by decide)]
    split
    · exact if_neg (by decide)
    · rfl
  | after value => exact .inl follow_quote
  | str isKey body escape => exact absurd between id
  | num token part => exact absurd between id
  | word left value =>
    left
    unfold step
    dsimp only
    split
    · rfl
    · next l more =>
        refine if_neg ?_
        rintro rfl
        exact absurd (between '"' mem_cons_self) (by decide)

/-- Within a string no backslash waits for its character. -/
def Escape.Free : Escape → Prop
  | .escaped => False
  | _ => True

/-- A character in a string, no quote and no backslash. -/
theorem stepStr_plain (stack : List (Frame ν)) (isKey : Bool) (body : List Char)
    (free : escape.Free) (quote : c ≠ '"') (backslash : c ≠ '\\') :
    stepStr stack isKey body escape c = none ∨ ∃ escape' : Escape, escape'.Free ∧
      stepStr stack isKey body escape c = some ⟨stack, .str isKey (body ++ [c]) escape'⟩ := by
  cases escape with
  | escaped => exact absurd free id
  | none =>
    rw [stepStr, if_neg quote, if_neg backslash]
    by_cases control : c < ' '
    · exact .inl (if_pos control)
    · exact .inr ⟨.none, trivial, if_neg control⟩
  | hex left =>
    rw [stepStr]
    by_cases hex : isHex c = true
    · rw [if_pos hex]
      exact .inr ⟨.afterHex left, by cases left <;> trivial, rfl⟩
    · exact .inl (if_neg hex)

/-- A backslash and its character. -/
theorem run_escape (stack : List (Frame ν)) (isKey : Bool) (body : List Char) (free : escape.Free)
    (c : Char) (rest : List Char) :
    (∀ read, run read ⟨stack, .str isKey body escape⟩ ('\\' :: c :: rest) = none) ∨
      ((escapeOf c).isSome ∨ c = 'u') ∧ ∃ escape' : Escape, escape'.Free ∧
        ∀ read, run read ⟨stack, .str isKey body escape⟩ ('\\' :: c :: rest) =
          run read ⟨stack, .str isKey (body ++ ['\\', c]) escape'⟩ rest := by
  cases escape with
  | escaped => exact absurd free id
  | hex left => exact .inl fun read => rfl
  | none =>
    have backslash (read : List Char → Value ν) : step read ⟨stack, .str isKey body .none⟩ '\\' =
          some ⟨stack, .str isKey (body ++ ['\\']) .escaped⟩ := rfl
    have steps (read : List Char → Value ν) :
        step read ⟨stack, .str isKey (body ++ ['\\']) .escaped⟩ c =
          if c = 'u' then some ⟨stack, .str isKey (body ++ ['\\'] ++ [c]) (.hex 3)⟩
          else (escapeOf c).map fun _ => ⟨stack, .str isKey (body ++ ['\\'] ++ [c]) .none⟩ := rfl
    simp only [run_cons, backslash, bind_some, steps, append_assoc, singleton_append]
    by_cases unicode : c = 'u'
    · rw [if_pos unicode]
      exact .inr ⟨.inr unicode, .hex 3, trivial, fun read => rfl⟩
    · rw [if_neg unicode]
      cases letter : escapeOf c with
      | none => exact .inl fun read => rfl
      | some unit => exact .inr ⟨.inl rfl, .none, trivial, fun read => rfl⟩

/-- A number that is not complete is no value, and does not become one. -/
def Fails (part : Part) (text : List Char) : Prop :=
  ∀ (ν : Type) (read : List Char → Value ν) (stack : List (Frame ν)) (token : List Char),
    (run read ⟨stack, .num token part⟩ text).bind (finish read) = none

/-- A part that no character continues, and that is not complete. -/
theorem fails_of_head {part : Part} (incomplete : part.complete = false)
    (stuck : ∀ c ∈ text.head?, part.next c = none) : Fails part text := by
  intro ν read stack token
  cases text with
  | nil =>
    cases stack with
    | nil =>
      change (if part.complete = true then _ else none) = none
      rw [incomplete]
      rfl
    | cons => rfl
  | cons c rest =>
    have stuck := stuck c rfl
    rw [run_cons]
    simp only [step, stuck, incomplete]
    rfl

/-- No exponent's digits come, with or without a sign. -/
def Bare (text : List Char) : Prop :=
  ∀ c ∈ text.head?, isDigit c = false ∧ (c = '+' ∨ c = '-' →
    ∀ c' ∈ text.tail.head?, isDigit c' = false)

/-- An exponent without digits. -/
theorem fails_exponent (bare : Bare text) : Fails .e text := by
  intro ν read stack token
  cases text with
  | nil => exact fails_of_head rfl (fun c head => by cases head) ν read stack token
  | cons c rest =>
    obtain ⟨digit, signed⟩ := bare c rfl
    by_cases sign : c = '+' ∨ c = '-'
    · have next : Part.next .e c = some .esign := if_pos sign
      rw [run_cons]
      simp only [step, next]
      refine fails_of_head rfl (fun c' head => ?_) ν read stack (token ++ [c])
      exact if_neg (Bool.eq_false_iff.mp (signed sign c' head))
    · refine fails_of_head rfl (fun c' head => ?_) ν read stack token
      cases head
      rw [Part.next, if_neg sign, if_neg (Bool.eq_false_iff.mp digit)]

/-- Characters that continue a number from one part to another. -/
def Takes (part : Part) (front : List Char) (part' : Part) : Prop :=
  ∀ (ν : Type) (read : List Char → Value ν) (stack : List (Frame ν)) (token : List Char),
    run read ⟨stack, .num token part⟩ front = some ⟨stack, .num (token ++ front) part'⟩

theorem Takes.nil (part : Part) : Takes part [] part := by
  intro ν read stack token
  rw [append_nil, run_nil]

theorem Takes.cons {part part' part'' : Part} {rest : List Char} (next : part.next c = some part')
    (takes : Takes part' rest part'') : Takes part (c :: rest) part'' := by
  intro ν read stack token
  have steps : step read ⟨stack, .num token part⟩ c = some ⟨stack, .num (token ++ [c]) part'⟩ := by
    rw [step]
    simp only [next]
  rw [run_cons, steps, bind_some, takes, append_assoc, singleton_append]

theorem Takes.append {part part' part'' : Part} {front back : List Char}
    (first : Takes part front part') (second : Takes part' back part'') :
    Takes part (front ++ back) part'' := by
  intro ν read stack token
  rw [run_append, first, bind_some, second, append_assoc]

/-- A part that goes on with digits. -/
theorem Takes.digits {part : Part} (goes : ∀ c, isDigit c = true → part.next c = some part)
    {digits : List Char} (isDigits : ∀ c ∈ digits, isDigit c = true) : Takes part digits part := by
  induction digits with
  | nil => exact .nil part
  | cons c rest ih =>
    exact .cons (goes c (isDigits c mem_cons_self))
      (ih fun c mem => isDigits c (mem_cons_of_mem _ mem))

def Frame.shape : Frame ν → Frame Unit
  | .arr _ => .arr []
  | .obj _ => .obj []
  | .entry _ _ => .entry [] []

def Mode.shape : Mode ν → Mode Unit
  | .value => .value
  | .first => .first
  | .key => .key
  | .firstKey => .firstKey
  | .colon _ => .colon []
  | .after _ => .after .null
  | .str isKey _ escape => .str isKey [] escape
  | .num _ part => .num [] part
  | .word left _ => .word left .null

def State.shape (state : State ν) : State Unit :=
  ⟨state.stack.map Frame.shape, state.mode.shape⟩

@[simp]
theorem shape_shape (stack : List (Frame ν)) :
    (stack.map Frame.shape).map Frame.shape = stack.map Frame.shape := by
  rw [List.map_map]
  apply map_congr_left
  intro frame _
  cases frame <;> rfl

/-- Shapes agree where what has been read does. -/
theorem shape_mk (stack : List (Frame ν)) {mode' : Mode Unit} (same : mode.shape = mode'.shape) :
    State.shape ⟨stack, mode⟩ = State.shape ⟨stack.map Frame.shape, mode'⟩ := by
  rw [State.shape, State.shape, shape_shape, same]

theorem shape_start (stack : List (Frame ν)) (c : Char) :
    (start stack c).map State.shape = (start (stack.map Frame.shape) c).map State.shape := by
  unfold start
  split
  · exact congrArg some (shape_mk stack rfl)
  split
  · exact congrArg some (shape_mk (.arr [] :: stack) rfl)
  split
  · exact congrArg some (shape_mk (.obj [] :: stack) rfl)
  split
  · exact congrArg some (shape_mk stack rfl)
  split
  · exact congrArg some (shape_mk stack rfl)
  split
  · exact congrArg some (shape_mk stack rfl)
  split
  · exact congrArg some (shape_mk stack rfl)
  · cases Part.sign.next c with
    | none => rfl
    | some part => exact congrArg some (shape_mk stack rfl)

theorem shape_follow (stack : List (Frame ν)) (value : Value ν) (c : Char) :
    (follow stack value c).map State.shape =
      (follow (stack.map Frame.shape) .null c).map State.shape := by
  unfold follow
  split
  · exact congrArg some (shape_mk stack rfl)
  · cases stack with
    | nil => rfl
    | cons frame below =>
      cases frame with
      | arr items =>
        change (if _ then _ else _ : Option _).map _ = (if _ then _ else _ : Option _).map _
        split
        · exact congrArg some (shape_mk (.arr (items ++ [value]) :: below) rfl)
        split
        · exact congrArg some (shape_mk below rfl)
        · rfl
      | obj fields => rfl
      | entry fields name =>
        change (if _ then _ else _ : Option _).map _ = (if _ then _ else _ : Option _).map _
        split
        · exact congrArg some (shape_mk (.obj (fields.set name value) :: below) rfl)
        split
        · exact congrArg some (shape_mk below rfl)
        · rfl

theorem shape_stepStr (stack : List (Frame ν)) (isKey : Bool) (body : List Char) (escape : Escape)
    (c : Char) : (stepStr stack isKey body escape c).map State.shape =
      (stepStr (stack.map Frame.shape) isKey [] escape c).map State.shape := by
  cases escape with
  | none =>
    rw [stepStr, stepStr]
    split
    · cases isKey
      · exact congrArg some (shape_mk stack rfl)
      · exact congrArg some (shape_mk stack rfl)
    split
    · exact congrArg some (shape_mk stack rfl)
    split
    · rfl
    · exact congrArg some (shape_mk stack rfl)
  | escaped =>
    rw [stepStr, stepStr]
    split
    · exact congrArg some (shape_mk stack rfl)
    · cases escapeOf c with
      | none => rfl
      | some unit => exact congrArg some (shape_mk stack rfl)
  | hex left =>
    rw [stepStr, stepStr]
    split
    · exact congrArg some (shape_mk stack rfl)
    · rfl

/-- What a character does to the shape of a reader depends on the shape. -/
theorem shape_step (state : State ν) (c : Char) : (step read state c).map State.shape =
    (step (fun _ => .null) state.shape c).map State.shape := by
  obtain ⟨stack, mode⟩ := state
  unfold step
  cases mode with
  | value =>
    dsimp only [State.shape, Mode.shape]
    split
    · exact congrArg some (shape_mk stack rfl)
    · exact shape_start stack c
  | first =>
    dsimp only [State.shape, Mode.shape]
    split
    · exact congrArg some (shape_mk stack rfl)
    split
    · rw [← map_tail]
      exact congrArg some (shape_mk stack.tail rfl)
    · exact shape_start stack c
  | key =>
    dsimp only [State.shape, Mode.shape]
    split
    · exact congrArg some (shape_mk stack rfl)
    split
    · exact congrArg some (shape_mk stack rfl)
    · rfl
  | firstKey =>
    dsimp only [State.shape, Mode.shape]
    split
    · exact congrArg some (shape_mk stack rfl)
    split
    · rw [← map_tail]
      exact congrArg some (shape_mk stack.tail rfl)
    split
    · exact congrArg some (shape_mk stack rfl)
    · rfl
  | colon name =>
    dsimp only [State.shape, Mode.shape]
    split
    · exact congrArg some (shape_mk stack rfl)
    · cases stack with
      | nil => rfl
      | cons frame below =>
        cases frame with
        | obj fields =>
          change (if _ then _ else _ : Option _).map _ = (if _ then _ else _ : Option _).map _
          split
          · exact congrArg some (shape_mk (.entry fields name :: below) rfl)
          · rfl
        | _ => rfl
  | after value => exact shape_follow stack value c
  | str isKey body escape => exact shape_stepStr stack isKey body escape c
  | num token part =>
    dsimp only [State.shape, Mode.shape]
    split
    · exact congrArg some (shape_mk stack rfl)
    split
    · exact shape_follow stack _ c
    · rfl
  | word left value =>
    dsimp only [State.shape, Mode.shape]
    cases left with
    | nil => rfl
    | cons l more =>
      dsimp only
      split
      · refine congrArg some (shape_mk stack ?_)
        split
        · rfl
        · rfl
      · rfl

variable {ν' : Type} {read' : List Char → Value ν'} {state' : State ν'}

theorem shape_run (same : state.shape = state'.shape) :
    (run read state text).map State.shape = (run read' state' text).map State.shape := by
  induction text generalizing state state' with
  | nil => exact congrArg some same
  | cons c rest ih =>
    have steps : (step read state c).map State.shape = (step read' state' c).map State.shape :=
      calc
        _ = (step (fun _ => .null) state.shape c).map State.shape := shape_step state c
        _ = (step (fun _ => .null) state'.shape c).map State.shape := by rw [same]
        _ = _ := (shape_step state' c).symm
    rw [run_cons, run_cons]
    cases first : step read state c with
    | none =>
      rw [first] at steps
      rw [map_eq_none_iff.mp steps.symm]
      rfl
    | some next =>
      rw [first] at steps
      obtain ⟨next', second, same'⟩ := map_eq_some_iff.mp steps.symm
      rw [second]
      exact ih same'.symm

/-- Whether a text is read does not depend on how its numbers are. -/
theorem isSome_run (same : state.shape = state'.shape) :
    ((run read state text).bind (finish read)).isSome =
      ((run read' state' text).bind (finish read')).isSome := by
  have ends {ν : Type} (read : List Char → Value ν) (state : State ν) :
      (finish read state).isSome = (finish (fun _ => Value.null) state.shape).isSome := by
    obtain ⟨stack, mode⟩ := state
    cases stack with
    | cons frame below => rfl
    | nil =>
      cases mode with
      | num token part =>
        change (if _ then _ else _ : Option _).isSome = (if _ then _ else _ : Option _).isSome
        split <;> rfl
      | _ => rfl
  have shapes := @shape_run ν read state text ν' read' state' same
  cases first : run read state text with
  | none =>
    rw [first] at shapes
    rw [map_eq_none_iff.mp shapes.symm]
    rfl
  | some last =>
    rw [first] at shapes
    obtain ⟨last', second, same'⟩ := map_eq_some_iff.mp shapes.symm
    rw [second]
    exact (ends read last).trans ((congrArg _ (congrArg _ same')).symm.trans
      (ends read' last').symm)

end DataViz.JsonReader
