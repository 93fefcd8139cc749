/-
# JSON values in memory

A dictionary in memory holds, under a key, a dictionary, by its address, or a value nothing is
looked up in. What a value in memory stands for is read off the memory; it stands for the same as
long as the dictionaries it is made of stay as they are. A list's items are not looked into, so a
list is one value, whatever is in it.
-/

import DataViz.Data.Memory
import DataViz.Data.PathUpdate

namespace DataViz.Memory

open Json

/-- What a dictionary in memory holds under a key. -/
inductive Value
  | leaf (value : Json)
  | ref (addr : ℕ)

section

variable (mem : Memory Value) (within : ℕ → Prop)

mutual

/-- What a value in memory stands for; the dictionaries it is made of are at the addresses
`within`. -/
inductive Holds : Value → Json → Prop
  | leaf {value : Json} (plain : ∀ fields, value ≠ .obj fields) : Holds (.leaf value) value
  | ref {addr : ℕ} {cells : Dict String Value} {fields : Dict String Json}
      (here : mem[addr]? = some cells) (inside : within addr) (held : HoldsFields cells fields) :
      Holds (.ref addr) (.obj fields)

inductive HoldsFields : Dict String Value → Dict String Json → Prop
  | nil : HoldsFields [] []
  | cons {key : String} {cell : Value} {value : Json} {cells : Dict String Value}
      {fields : Dict String Json} (first : Holds cell value) (rest : HoldsFields cells fields) :
      HoldsFields ((key, cell) :: cells) ((key, value) :: fields)

end

def Holds? : Option Value → Option Json → Prop :=
  Option.Rel (Holds mem within)

end

variable {mem mem' : Memory Value} {within within' : ℕ → Prop} {cell : Value} {value : Json}
  {cells : Dict String Value} {fields : Dict String Json} {addr : ℕ}

def Stays (mem mem' : Memory Value) (within within' : ℕ → Prop) : Prop :=
  ∀ addr cells, within addr → mem[addr]? = some cells → within' addr ∧ mem'[addr]? = some cells

mutual

theorem Holds.mono (stays : Stays mem mem' within within') :
    ∀ {cell : Value} {value : Json}, Holds mem within cell value → Holds mem' within' cell value
  | _, _, .leaf plain => .leaf plain
  | _, _, .ref here inside held =>
    have moved := stays _ _ inside here
    .ref moved.2 moved.1 (held.mono stays)

theorem HoldsFields.mono (stays : Stays mem mem' within within') :
    ∀ {cells : Dict String Value} {fields : Dict String Json},
      HoldsFields mem within cells fields → HoldsFields mem' within' cells fields
  | _, _, .nil => .nil
  | _, _, .cons first rest => .cons (first.mono stays) (rest.mono stays)

end

theorem Holds?.mono (stays : Stays mem mem' within within') {cell : Option Value}
    {value : Option Json} (held : Holds? mem within cell value) :
    Holds? mem' within' cell value := by
  cases held with
  | some held => exact .some (held.mono stays)
  | none => exact .none

theorem HoldsFields.get? (held : HoldsFields mem within cells fields) (key : String) :
    Holds? mem within (cells.get? key) (fields.get? key) := by
  induction fields generalizing cells with
  | nil =>
    cases held
    exact .none
  | cons entry fields ih =>
    cases held with
    | @cons k cell value cells _ first rest =>
      rw [Dict.get?_cons, Dict.get?_cons]
      split
      next => exact .some first
      next => exact ih rest

theorem HoldsFields.set (held : HoldsFields mem within cells fields) (key : String)
    (first : Holds mem within cell value) :
    HoldsFields mem within (cells.set key cell) (fields.set key value) := by
  induction fields generalizing cells with
  | nil =>
    cases held
    exact .cons first .nil
  | cons entry fields ih =>
    cases held with
    | @cons k _ _ cells _ old rest =>
      rw [Dict.set, Dict.set]
      split
      next => exact .cons first rest
      next => exact .cons old (ih rest)

theorem HoldsFields.pop (held : HoldsFields mem within cells fields) (key : String) :
    HoldsFields mem within (cells.pop key) (fields.pop key) := by
  induction fields generalizing cells with
  | nil =>
    cases held
    exact .nil
  | cons entry fields ih =>
    cases held with
    | @cons k _ _ cells _ old rest =>
      rw [Dict.pop, Dict.pop, List.filter_cons, List.filter_cons]
      split
      next => exact .cons old (ih rest)
      next => exact ih rest

/-- What is at an address, where a value stands for a dictionary. -/
theorem Holds.object (held : Holds mem within (.ref addr) value) :
    ∃ fields, value = .obj fields ∧ addr < mem.length ∧
      HoldsFields mem within (mem.object addr) fields := by
  cases held with
  | @ref _ cells fields here inside held =>
    rw [object_of_getElem? here]
    exact ⟨fields, rfl, lt_length here, held⟩

end DataViz.Memory
