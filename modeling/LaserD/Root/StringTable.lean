/-
This file models the string tables of `dmd/root/stringtable.d`.

The table is an array of slots with a hash of 32 bits and a handle of 32 bits. A handle
packs the number of a pool and an offset in it, where the string, its length and the
value lie. Pools are blocks of memory that are filled from the front; a string that is
too long for a pool has a block of its own. Blocks are lists of cells: a value takes the
cell at its offset and its length in bytes, so that storing one entry over another would
destroy it. A read that finds something else, or an access outside of a block, fails.

Slots are probed by triangular numbers. The loop runs on fuel; `findSlot` gives it as
many rounds as there are slots.
-/

import Mathlib.Algebra.Group.Nat.Defs
import LaserD.Lib.Overwrite

namespace LaserD.Root.StringTable

open Overwrite

/-- A string. -/
abbrev Str := List (BitVec 8)

/-! ### Memory -/

/-- The sizes of `StringValue!T`: of the value, of what lies before the length, and of all. -/
structure Sizes where
  valueSize : Nat
  lengthOffset : Nat
  structSize : Nat
  value_positive : 0 < valueSize
  value_fits : valueSize ≤ lengthOffset
  length_fits : lengthOffset + 8 ≤ structSize

/-- What lies at an offset of a block: a value or a length that starts there, a character, or
anything else. -/
inductive Cell (T : Type)
  | value (v : T)
  | length (n : Nat)
  | char (c : BitVec 8)
  | other

/-- A place in a block. -/
structure Pointer where
  block : Nat
  offset : Nat
  deriving DecidableEq

/-- A pointer advanced by a number of bytes. -/
def Pointer.advance (p : Pointer) (bytes : Nat) : Pointer :=
  ⟨p.block, p.offset + bytes⟩

variable {T : Type}

/-- The blocks handed out so far, by number. -/
abbrev Blocks (T : Type) := List (List (Cell T))

/-- Cells stored from a place on. -/
def poke (blocks : Blocks T) (p : Pointer) (cells : List (Cell T)) : Option (Blocks T) := do
  let block ← blocks[p.block]?
  if p.offset + cells.length ≤ block.length then
    some (blocks.set p.block (overwrite block p.offset cells))
  else none

/-- The cell at a place. -/
def peek (blocks : Blocks T) (p : Pointer) : Option (Cell T) := do
  let block ← blocks[p.block]?
  block[p.offset]?

/-- The cells of a value. -/
def valueCells (sizes : Sizes) (v : T) : List (Cell T) :=
  .value v :: List.replicate (sizes.valueSize - 1) .other

/-- The cells of a length. -/
def lengthCells (n : Nat) : List (Cell T) :=
  .length n :: List.replicate 7 .other

/-- `sv.value`. -/
def readValue (blocks : Blocks T) (sv : Pointer) : Option T :=
  match peek blocks sv with
  | some (.value v) => some v
  | _ => none

/-- `sv.length`. -/
def readLength (sizes : Sizes) (blocks : Blocks T) (sv : Pointer) : Option Nat :=
  match peek blocks (sv.advance sizes.lengthOffset) with
  | some (.length n) => some n
  | _ => none

/-- The first `n` characters of `sv.toDchars()`. -/
def readChars (sizes : Sizes) (blocks : Blocks T) (sv : Pointer) (n : Nat) : Option Str :=
  (List.range n).mapM fun k =>
    match peek blocks (sv.advance (sizes.structSize + k)) with
    | some (.char c) => some c
    | _ => none

/-- `sv.toString()`. -/
def svToString (sizes : Sizes) (blocks : Blocks T) (sv : Pointer) : Option Str := do
  let n ← readLength sizes blocks sv
  readChars sizes blocks sv n

/-- `sv.value = v`, through a pointer to an entry. -/
def writeValue (sizes : Sizes) (blocks : Blocks T) (sv : Pointer) (v : T) : Option (Blocks T) :=
  poke blocks sv (valueCells sizes v)

/-! ### The table -/

/-- A slot: the hash and the handle, which is zero in a free slot. -/
structure StringEntry where
  hash : BitVec 32 := 0
  vptr : BitVec 32 := 0
  deriving DecidableEq

/-- A string table, with the blocks of memory. -/
structure Table (T : Type) where
  blocks : Blocks T
  table : List StringEntry
  pools : List Nat
  nfill : Nat
  count : Nat
  countTrigger : Nat

def poolBits : Nat := 12
def poolSize : Nat := 2 ^ poolBits
def loadFactorNumerator : Nat := 8
def loadFactorDenominator : Nat := 10

/-- The loop of `nextpow2`, whose number doubles modulo `2 ^ 64`. -/
def nextpow2From : Nat → Nat → Nat → Option Nat
  | 0, _, _ => none
  | fuel + 1, res, val =>
      if res < val then nextpow2From fuel (res <<< 1 % 2 ^ 64) val else some res

/-- `nextpow2`; within 65 rounds the loop has ended or its number is zero for ever. -/
def nextpow2 (val : Nat) : Option Nat :=
  nextpow2From 65 1 val

/-- `mem.xcalloc` of `size` slots, which ends the program when the number of bytes overflows. -/
def xcalloc (size : Nat) : Option (List StringEntry) :=
  if size * 8 < 2 ^ 64 then some (List.replicate size {}) else none

/-- `_init`. The blocks of an earlier table stay where they are. -/
def init (blocks : Blocks T) (size : Nat) : Option (Table T) := do
  let size ← nextpow2 (size * loadFactorDenominator % 2 ^ 64 / loadFactorNumerator)
  let size := if size < 32 then 32 else size
  let table ← xcalloc size
  return {
    blocks
    table
    pools := []
    nfill := 0
    count := 0
    countTrigger := table.length * loadFactorNumerator % 2 ^ 64 / loadFactorDenominator }

/-- `getValue`: null for zero, and a place in the pool otherwise. -/
def getValue (t : Table T) (vptr : BitVec 32) : Option (Option Pointer) :=
  if vptr = 0 then some none
  else do
    let idx := ((vptr >>> poolBits) - 1).toNat
    let off := (vptr &&& (BitVec.ofNat 32 poolSize - 1)).toNat
    let pool ← t.pools[idx]?
    return some ⟨pool, off⟩

section

variable (sizes : Sizes)

/-- Whether the entry of a handle has the given string, by length and `memcmp`. -/
def sameString (t : Table T) (vptr : BitVec 32) (str : Str) : Option Bool := do
  let sv ← (← getValue t vptr)
  let length ← readLength sizes t.blocks sv
  if length = str.length then
    let chars ← readChars sizes t.blocks sv str.length
    return chars = str
  else return false

/-- The test of the loop of `findSlot`: the slot is free, or has the string. -/
def stopsAt (t : Table T) (hash : BitVec 32) (str : Str) (entry : StringEntry) : Option Bool :=
  if entry.vptr = 0 then some true
  else if entry.hash = hash then sameString sizes t entry.vptr str
  else some false

/-- The loop of `findSlot`. -/
def findSlotFrom (t : Table T) (hash : BitVec 32) (str : Str) : Nat → Nat → Nat → Option Nat
  | 0, _, _ => none
  | fuel + 1, i, j => do
      let entry ← t.table[i]?
      let stop ← stopsAt sizes t hash str entry
      if stop then some i
      else findSlotFrom t hash str fuel ((i + j) &&& (t.table.length - 1)) (j + 1)

/-- `findSlot`. -/
def findSlot (t : Table T) (hash : BitVec 32) (str : Str) : Option Nat :=
  findSlotFrom sizes t hash str t.table.length (hash.toNat &&& (t.table.length - 1)) 1

/-- The first part of `allocValue`: a new pool, unless there is room in the last one. -/
def choosePool (t : Table T) (nbytes : Nat) : Table T :=
  if t.pools.length = 0 ∨ poolSize < t.nfill + nbytes then
    { t with
      blocks := t.blocks ++
        [List.replicate (if poolSize < nbytes then nbytes else poolSize) .other]
      pools := t.pools ++ [t.blocks.length]
      nfill := 0 }
  else t

/-- `allocValue`: the handle of a new entry. -/
def allocValue (t : Table T) (str : Str) (value : T) : Option (BitVec 32 × Table T) := do
  let nbytes := sizes.structSize + str.length + 1
  let t := choosePool t nbytes
  let pool ← t.pools.getLast?
  let sv : Pointer := ⟨pool, t.nfill⟩
  let blocks ← poke t.blocks sv (valueCells sizes value)
  let blocks ← poke blocks (sv.advance sizes.lengthOffset) (lengthCells str.length)
  let blocks ← poke blocks (sv.advance sizes.structSize) (str.map .char)
  let blocks ← poke blocks (sv.advance (sizes.structSize + str.length)) [.char 0]
  let vptr := BitVec.ofNat 32 (t.pools.length <<< poolBits ||| t.nfill)
  let padding := (-(BitVec.ofNat 64 nbytes) &&& 7).toNat
  return (vptr, { t with blocks, nfill := t.nfill + (nbytes + padding) })

/-- The loop of `grow` over the old slots. -/
def growFrom : List StringEntry → Table T → Option (Table T)
  | [], t => some t
  | se :: rest, t =>
      if se.vptr = 0 then growFrom rest t
      else do
        let sv ← (← getValue t se.vptr)
        let str ← svToString sizes t.blocks sv
        let i ← findSlot sizes t se.hash str
        growFrom rest { t with table := t.table.set i se }

/-- `grow`. -/
def grow (t : Table T) : Option (Table T) := do
  let ndim := t.table.length * 2
  let countTrigger := ndim * loadFactorNumerator % 2 ^ 64 / loadFactorDenominator
  let table ← xcalloc ndim
  growFrom sizes t.table { t with table, countTrigger }

variable (calcHash : Str → BitVec 32)

/-- `lookup`. -/
def lookup (t : Table T) (str : Str) : Option (Option Pointer) := do
  let i ← findSlot sizes t (calcHash str) str
  let entry ← t.table[i]?
  getValue t entry.vptr

/-- The table grows when it is too full, and the slot is found again. -/
def makeRoom (t : Table T) (i : Nat) (str : Str) : Option (Nat × Table T) :=
  if t.countTrigger < t.count then do
    let t ← grow sizes t
    let i ← findSlot sizes t (calcHash str) str
    return (i, t)
  else some (i, t)

/-- What `insert` and `update` do for a string that is not in the table. -/
def insertAt (t : Table T) (i : Nat) (str : Str) (value : T) :
    Option (Option Pointer × Table T) := do
  let (i, t) ← makeRoom sizes calcHash { t with count := t.count + 1 } i str
  let (vptr, t) ← allocValue sizes t str value
  let t := { t with table := t.table.set i ⟨calcHash str, vptr⟩ }
  return (← getValue t vptr, t)

/-- `insert`: null when the string is there. -/
def insert (t : Table T) (str : Str) (value : T) : Option (Option Pointer × Table T) := do
  let i ← findSlot sizes t (calcHash str) str
  let entry ← t.table[i]?
  if entry.vptr ≠ 0 then return (none, t)
  else insertAt sizes calcHash t i str value

/-- `update`: the entry that is there, or a new one with `T.init`. -/
def update (tInit : T) (t : Table T) (str : Str) : Option (Option Pointer × Table T) := do
  let i ← findSlot sizes t (calcHash str) str
  let entry ← t.table[i]?
  if entry.vptr = 0 then insertAt sizes calcHash t i str tInit
  else return (← getValue t entry.vptr, t)

end

/-- `apply` and `opApply`: a function with a state of its own is called for each entry until it
answers another number than zero. -/
def applyFrom {State : Type} (t : Table T) (fp : State → Pointer → State × Int) :
    List StringEntry → State → Option (State × Int)
  | [], state => some (state, 0)
  | se :: rest, state =>
      if se.vptr = 0 then applyFrom t fp rest state
      else do
        let sv ← (← getValue t se.vptr)
        let (state, result) := fp state sv
        if result ≠ 0 then some (state, result) else applyFrom t fp rest state

/-- `apply`. -/
def apply {State : Type} (t : Table T) (fp : State → Pointer → State × Int) (state : State) :
    Option (State × Int) :=
  applyFrom t fp t.table state

end LaserD.Root.StringTable
