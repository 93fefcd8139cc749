/-
# Identifiers that sort in the order they are made

`ids.py`: a `ulid` is 26 Crockford letters, ten for the millisecond and sixteen for eighty random
bits; a `uuid7` is a number of 128 bits. Each keeps the last millisecond and the last random part,
and counts the random part up while the clock gives the same millisecond.

A call reads the clock and may draw ten random bytes; both are given with the call. Every UUID
starts each millisecond from the low 74 bits of its draw.
-/

import DataViz.Data.Series
import Mathlib.Data.String.Basic

namespace DataViz.Versioning.Ids

def crockford : Vector Char 32 :=
  #v['0', '1', '2', '3', '4', '5', '6', '7', '8', '9', 'A', 'B', 'C', 'D', 'E', 'F', 'G', 'H',
    'J', 'K', 'M', 'N', 'P', 'Q', 'R', 'S', 'T', 'V', 'W', 'X', 'Y', 'Z']

def mask80 : ℕ := (1 <<< 80) - 1

def mask74 : ℕ := (1 <<< 74) - 1

/-- The five low bits of a number, the index of a letter. -/
def lowBits (value : ℕ) : Fin 32 :=
  ⟨value &&& 0x1F, Nat.lt_succ_of_le Nat.and_le_right⟩

/-- The letters `_encode` appends, the last letter of the text first. -/
def encodeLoop : ℕ → ℕ → List Char
  | _, 0 => []
  | value, length + 1 => crockford[lowBits value] :: encodeLoop (value >>> 5) length

def encode (value length : ℕ) : String :=
  String.ofList (encodeLoop value length).reverse

/-- What a generator keeps between calls: `_last_ts` and `_last_rand`. -/
structure Last where
  ts : ℤ
  rand : ℕ
deriving DecidableEq

def Last.fresh : Last := ⟨-1, 0⟩

/-- What the world gives a call: the clock in milliseconds, within the 48 bits an id holds of it,
and `os.urandom(10)`. -/
structure Call where
  now : ℕ
  drawn : BitVec 80
  inRange : now < 2 ^ 48

/-- What `ulid` keeps: the same millisecond counts up, and a count that ran out takes the next
one. -/
def ulidNext (last : Last) (call : Call) : Last :=
  if (call.now : ℤ) = last.ts then
    let rand := (last.rand + 1) &&& mask80
    if rand = 0 then
      ⟨call.now + 1, call.drawn.toNat⟩
    else
      ⟨last.ts, rand⟩
  else
    ⟨call.now, call.drawn.toNat⟩

def ulid (last : Last) (call : Call) : Last × String :=
  let next := ulidNext last call
  (next, encode next.ts.toNat 10 ++ encode next.rand 16)

/-- What `uuid7` keeps: a clock that stepped back counts as the same millisecond. -/
def uuid7Next (last : Last) (call : Call) : Last :=
  if (call.now : ℤ) ≤ last.ts then
    let rand := (last.rand + 1) &&& mask74
    if rand = 0 then
      ⟨last.ts + 1, call.drawn.toNat &&& mask74⟩
    else
      ⟨last.ts, rand⟩
  else
    ⟨call.now, call.drawn.toNat &&& mask74⟩

/-- The number a UUIDv7 is: 48 bits of the millisecond, the version, twelve random bits, the
variant, 62 random bits. -/
def uuid7Value (ts rand : ℕ) : ℕ :=
  ((ts &&& ((1 <<< 48) - 1)) <<< 80) ||| (0x7 <<< 76) ||| ((rand >>> 62) <<< 64) |||
    (0b10 <<< 62) ||| (rand &&& ((1 <<< 62) - 1))

def uuid7 (last : Last) (call : Call) : Last × ℕ :=
  let next := uuid7Next last call
  (next, uuid7Value next.ts.toNat next.rand)

end DataViz.Versioning.Ids
