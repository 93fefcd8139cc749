/-
# Dictionaries in memory

Python's dictionaries are objects: a name stands for one, and a change is seen under every name.
Memory is the list of them, by address; a new one is put at the end.
-/

import DataViz.Data.Dict

namespace DataViz

universe u

abbrev Memory (ν : Type u) := List (Dict String ν)

namespace Memory

variable {ν : Type u} {mem mem' mem'' : Memory ν} {n m addr : ℕ} {d : Dict String ν}

def object (mem : Memory ν) (addr : ℕ) : Dict String ν :=
  (mem[addr]?).getD []

/-- A new dictionary, at the address `mem.length`. -/
def alloc (mem : Memory ν) (d : Dict String ν) : Memory ν :=
  mem ++ [d]

def write (mem : Memory ν) (addr : ℕ) (d : Dict String ν) : Memory ν :=
  mem.set addr d

/-- The first `n` dictionaries are as they were. -/
structure Keeps (n : ℕ) (mem mem' : Memory ν) : Prop where
  grows : mem.length ≤ mem'.length
  same : ∀ addr < n, mem'[addr]? = mem[addr]?

theorem Keeps.refl (n : ℕ) (mem : Memory ν) : Keeps n mem mem :=
  ⟨Nat.le_refl _, fun _ _ => rfl⟩

theorem Keeps.trans (first : Keeps n mem mem') (second : Keeps n mem' mem'') : Keeps n mem mem'' :=
  ⟨first.grows.trans second.grows, fun addr lt => (second.same addr lt).trans (first.same addr lt)⟩

theorem Keeps.object_eq (keeps : Keeps n mem mem') (lt : addr < n) :
    mem'.object addr = mem.object addr := by
  rw [object, object, keeps.same addr lt]

theorem keeps_alloc (d : Dict String ν) (within : n ≤ mem.length) : Keeps n mem (mem.alloc d) where
  grows := by simp [alloc]
  same addr lt := List.getElem?_append_left (Nat.lt_of_lt_of_le lt within)

theorem getElem?_alloc (d : Dict String ν) : (mem.alloc d)[mem.length]? = some d := by
  rw [alloc, List.getElem?_concat_length]

theorem keeps_write (d : Dict String ν) (outside : n ≤ addr) : Keeps n mem (mem.write addr d) where
  grows := by simp [write]
  same other lt := List.getElem?_set_ne (by omega)

theorem getElem?_write (there : addr < mem.length) (d : Dict String ν) :
    (mem.write addr d)[addr]? = some d :=
  List.getElem?_set_self there

theorem getElem?_write_ne {other : ℕ} (ne : other ≠ addr) (d : Dict String ν) :
    (mem.write addr d)[other]? = mem[other]? :=
  List.getElem?_set_ne (Ne.symm ne)

theorem object_of_getElem? (here : mem[addr]? = some d) : mem.object addr = d := by
  rw [Memory.object, here, Option.getD_some]

theorem lt_length (here : mem[addr]? = some d) : addr < mem.length :=
  (List.getElem?_eq_some_iff.mp here).1

end Memory

end DataViz
