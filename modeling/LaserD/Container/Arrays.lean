/-
This file models `laserd.array`: arrays of a type `T` whose copies share one
state record, over an arena that may refuse any request.

The arena is an oracle. It answers every request by its number, and what is left
of a block after it was reallocated is up to the oracle as well. A granted
reallocation is a new block that holds the old elements followed by zeros, which
`LaserD.Memory` proves of the region backends. An operation is `none` when an
assertion or a bounds check fails and the program stops.
-/

import Mathlib.Algebra.Group.Nat.Defs
import Mathlib.Data.List.Basic
import Mathlib.Logic.Function.Basic

namespace LaserD.Container

/-! ### Elements, states and ranges -/

/-- What the code uses of an element type: the element with all bytes zero, the initial value
of the type, and its size in bytes. -/
structure Element (T : Type) where
  zero : T
  init : T
  sizeof : Nat

/-- The answers of the arena by the number of the request, and what a block holds after a
request has reallocated it. -/
structure Oracle (T : Type) where
  grant : Nat → Bool
  leftover : Nat → Nat → T

/-- A slice of elements: a block, null being `none`, the position in it, and the length. -/
structure Slice where
  block : Option Nat
  offset : Nat
  length : Nat
  deriving Repr, DecidableEq

/-- The record that the copies of an array share. The storage starts at its block. -/
structure State where
  storage : Slice
  used : Nat
  deriving Repr, DecidableEq

/-- A view of an array. -/
structure Range where
  state : Option Nat
  first : Nat
  pastLast : Nat
  deriving Repr, DecidableEq

/-- State records and blocks of elements, the numbers of those made, and the number of requests
to the arena. -/
structure World (T : Type) where
  state : Nat → State
  cell : Nat → Nat → T
  states : Nat
  blocks : Nat
  requests : Nat

variable {T : Type}

/-- The slice no memory belongs to. -/
def Slice.null : Slice := { block := none, offset := 0, length := 0 }

/-- The record replaced. -/
def World.setState (world : World T) (state : Nat) (record : State) : World T :=
  { world with state := Function.update world.state state record }

/-- The elements of a block replaced. -/
def World.setBlock (world : World T) (block : Nat) (cells : Nat → T) : World T :=
  { world with cell := Function.update world.cell block cells }

/-- The largest value of `size_t`. -/
def sizeMax : Nat := 2 ^ 64 - 1

/-! ### The arena -/

/-- `Arena.expandArray`. The old block is left to the oracle. -/
def expandArray (element : Element T) (oracle : Oracle T) (original : Slice) (newCount : Nat)
    (world : World T) : Slice × World T :=
  if newCount ≤ original.length then (original, world)
  else if newCount > sizeMax / element.sizeof then (Slice.null, world)
  else if oracle.grant world.requests then
    let released := match original.block with
      | none => world.cell
      | some block => Function.update world.cell block (oracle.leftover world.requests)
    let moved : Nat → T := fun index =>
      match original.block with
      | none => element.zero
      | some block => if index < original.length then world.cell block index else element.zero
    ({ block := some world.blocks, offset := 0, length := newCount },
      { world with
        cell := Function.update released world.blocks moved
        blocks := world.blocks + 1
        requests := world.requests + 1 })
  else (Slice.null, { world with requests := world.requests + 1 })

/-- `Arena.alloc!State`. -/
def allocState (oracle : Oracle T) (world : World T) : Option Nat × World T :=
  if oracle.grant world.requests then
    (some world.states,
      { world with
        state := Function.update world.state world.states { storage := Slice.null, used := 0 }
        states := world.states + 1
        requests := world.requests + 1 })
  else (none, { world with requests := world.requests + 1 })

/-! ### Observers -/

/-- `Array.length`. -/
def length (array : Option Nat) (world : World T) : Nat :=
  match array with
  | none => 0
  | some state => (world.state state).used

/-- `Array.capacity`. -/
def capacity (array : Option Nat) (world : World T) : Nat :=
  match array with
  | none => 0
  | some state => (world.state state).storage.length

/-- An element of the storage, with the bounds check of a slice. -/
def loadStorage (state index : Nat) (world : World T) : Option T :=
  let storage := (world.state state).storage
  match storage.block with
  | none => none
  | some block => if index < storage.length then some (world.cell block index) else none

/-- An element of the storage replaced, with the bounds check of a slice. -/
def storeStorage (state index : Nat) (value : T) (world : World T) : Option (World T) :=
  let storage := (world.state state).storage
  match storage.block with
  | none => none
  | some block =>
      if index < storage.length then
        some (world.setBlock block (Function.update (world.cell block) index value))
      else none

/-- `Array.back`. -/
def back (array : Option Nat) (world : World T) : Option T :=
  match array with
  | none => none
  | some state =>
      if length array world = 0 then none
      else loadStorage state ((world.state state).used - 1) world

/-- `Array.validRange`. -/
def validRange (array : Option Nat) (range : Range) (world : World T) : Bool :=
  decide (range.state = array ∧ range.first ≤ range.pastLast ∧
    range.pastLast ≤ length array world)

/-! ### Growth -/

/-- `Array.reserve`. -/
def reserve (element : Element T) (oracle : Oracle T) (array : Option Nat) (elements : Nat)
    (world : World T) : Bool × World T :=
  match array with
  | none => (false, world)
  | some state =>
      if elements ≤ capacity array world then (true, world)
      else
        match expandArray element oracle (world.state state).storage elements world with
        | (expanded, world) =>
            if expanded.block = none then (false, world)
            else (true, world.setState state { world.state state with storage := expanded })

/-- `Array.resize`. -/
def resize (element : Element T) (oracle : Oracle T) (array : Option Nat) (newLength : Nat)
    (world : World T) : Bool × World T :=
  match array with
  | none => (false, world)
  | some state =>
      let reserved := if newLength > capacity array world then
          reserve element oracle array newLength world
        else (true, world)
      match reserved with
      | (false, world) => (false, world)
      | (true, world) => (true, world.setState state { world.state state with used := newLength })

/-- `Array.ensureAdditional`. -/
def ensureAdditional (element : Element T) (oracle : Oracle T) (array : Option Nat) (count : Nat)
    (world : World T) : Bool × World T :=
  match array with
  | none => (false, world)
  | some _ =>
      if count > sizeMax - length array world then (false, world)
      else
        let required := length array world + count
        let room := capacity array world
        if required ≤ room then (true, world)
        else
          let grown := (room + room / 2 + 1) % 2 ^ 64
          let grown := if grown < room ∨ grown < required then required else grown
          reserve element oracle array grown world

/-! ### Loops over the storage -/

/-- The loop that stores one value at consecutive positions. -/
def fillLoop (state : Nat) (value : T) : Nat → Nat → World T → Option (World T)
  | 0, _, world => some world
  | count + 1, index, world => do
      let world ← storeStorage state index value world
      fillLoop state value count (index + 1) world

/-- The loop that stores the elements of a slice behind the used ones. -/
def appendLoop (state : Nat) : Nat → Slice → World T → Option (World T)
  | 0, _, world => some world
  | count + 1, values, world =>
      match values.block with
      | none => none
      | some block => do
          let used := (world.state state).used
          let world ← storeStorage state used (world.cell block values.offset) world
          appendLoop state count { values with offset := values.offset + 1 }
            (world.setState state { world.state state with used := used + 1 })

/-- `memmove` inside the storage. -/
def memmoveStorage (state target source count : Nat) (world : World T) : Option (World T) :=
  match (world.state state).storage.block with
  | none => if count = 0 then some world else none
  | some block =>
      some (world.setBlock block fun index =>
        if target ≤ index ∧ index < target + count then
          world.cell block (source + (index - target))
        else world.cell block index)

/-! ### Assignment -/

/-- `Array.opIndexAssign`. -/
def opIndexAssign (array : Option Nat) (value : T) (index : Nat) (world : World T) :
    Option (World T) :=
  match array with
  | none => none
  | some state =>
      if index < length array world then storeStorage state index value world else none

/-- `Array.opSliceAssign` of the whole array. -/
def opSliceAssign (array : Option Nat) (value : T) (world : World T) : Option (World T) :=
  match array with
  | none => some world
  | some state => fillLoop state value (length array world) 0 world

/-- `Array.opSliceAssign` of a part. -/
def opSliceAssignPart (array : Option Nat) (value : T) (first pastLast : Nat) (world : World T) :
    Option (World T) :=
  if first ≤ pastLast ∧ pastLast ≤ length array world then
    match array with
    | none => some world
    | some state => fillLoop state value (pastLast - first) first world
  else none

/-- `Range.opIndexAssign`. -/
def Range.opIndexAssign (range : Range) (value : T) (index : Nat) (world : World T) :
    Option (World T) :=
  match range.state with
  | none => none
  | some state =>
      if index < range.pastLast - range.first then
        storeStorage state (range.first + index) value world
      else none

/-- `Range.opSliceAssign`. -/
def Range.opSliceAssign (range : Range) (value : T) (world : World T) : Option (World T) :=
  match range.state with
  | none => if range.first < range.pastLast then none else some world
  | some state => fillLoop state value (range.pastLast - range.first) range.first world

/-! ### Insertion -/

section

variable (element : Element T) (oracle : Oracle T) (array : Option Nat)

/-- `Array.insertBack` of one value. -/
def insertBack (value : T) (world : World T) : Option (Nat × World T) :=
  match array, ensureAdditional element oracle array 1 world with
  | none, (_, world) => some (0, world)
  | some _, (false, world) => some (0, world)
  | some state, (true, world) => do
      let used := (world.state state).used
      let world ← storeStorage state used value world
      some (1, world.setState state { world.state state with used := used + 1 })

/-- The position in the storage that a slice starts at, if any. -/
def sourceOffset (state : Nat) (values : Slice) (world : World T) : Option Nat :=
  let storage := (world.state state).storage
  if values.block = storage.block ∧ values.offset < (world.state state).used then
    some values.offset
  else none

/-- `Array.insertBack` of a slice. -/
def insertBackSlice (values : Slice) (world : World T) : Option (Nat × World T) :=
  if values.length = 0 then some (0, world)
  else
    match array, ensureAdditional element oracle array values.length world with
    | none, (_, world) => some (0, world)
    | some _, (false, world) => some (0, world)
    | some state, (true, grown) => do
        let values := match sourceOffset state values world with
          | none => values
          | some offset =>
              { values with block := (grown.state state).storage.block, offset := offset }
        let grown ← appendLoop state values.length values grown
        some (values.length, grown)

/-- `Array.insertBefore`. -/
def insertBefore (range : Range) (value : T) (world : World T) : Option (Nat × World T) :=
  if validRange array range world then
    match array, ensureAdditional element oracle array 1 world with
    | none, (_, world) => some (0, world)
    | some _, (false, world) => some (0, world)
    | some state, (true, world) => do
        let used := (world.state state).used
        let world ← memmoveStorage state (range.first + 1) range.first (used - range.first) world
        let world ← storeStorage state range.first value world
        some (1, world.setState state { world.state state with used := used + 1 })
  else none

/-- `Array.insertAfter`. -/
def insertAfter (range : Range) (value : T) (world : World T) : Option (Nat × World T) :=
  if validRange array range world then
    insertBefore element oracle array
      { state := array, first := range.pastLast, pastLast := range.pastLast } value world
  else none

/-! ### Removal -/

/-- `Array.removeBack` of one element. -/
def removeBack (world : World T) : Option (World T) :=
  match array with
  | none => none
  | some state =>
      if length array world = 0 then none
      else
        let used := (world.state state).used - 1
        storeStorage state used element.init
          (world.setState state { world.state state with used := used })

/-- `Array.removeAny`. -/
def removeAny (world : World T) : Option (T × World T) := do
  let result ← back array world
  let world ← removeBack element array world
  some (result, world)

/-- `Array.removeBack` of a number of elements. -/
def removeBackCount (howMany : Nat) (world : World T) : Option (Nat × World T) :=
  match array with
  | none => none
  | some state => do
      let oldLength := length array world
      let howMany := if howMany > oldLength then oldLength else howMany
      let newLength := oldLength - howMany
      let world ← fillLoop state element.init howMany newLength world
      some (howMany, world.setState state { world.state state with used := newLength })

/-- `Array.linearRemove`. -/
def linearRemove (range : Range) (world : World T) : Option (Range × World T) :=
  if validRange array range world then
    match array with
    | none => none
    | some state => do
        let removed := range.pastLast - range.first
        let used := (world.state state).used
        let world ← memmoveStorage state range.first range.pastLast (used - range.pastLast) world
        let world := world.setState state { world.state state with used := used - removed }
        let world ← fillLoop state element.init removed (used - removed) world
        some ({ state := array, first := range.first, pastLast := used - removed }, world)
  else none

/-- `Array.replace`. -/
def replace (range : Range) (value : T) (world : World T) : Option (Nat × World T) :=
  if validRange array range world then
    if range.first ≥ range.pastLast then insertBefore element oracle array range value world
    else
      match array with
      | none => none
      | some state => do
          let world ← storeStorage state range.first value world
          if range.pastLast - range.first > 1 then
            let (_, world) ← linearRemove element array
              { state := array, first := range.first + 1, pastLast := range.pastLast } world
            some (1, world)
          else some (1, world)
  else none

/-! ### Construction, duplication and clearing -/

/-- `Array.this(Arena*)`. -/
def construct (world : World T) : Option (Nat × World T) :=
  match allocState oracle world with
  | (none, _) => none
  | (some state, world) => some (state, world)

/-- `Array.this(Arena*, T[])`. -/
def constructFrom (values : Slice) (world : World T) : Option (Nat × World T) := do
  let (state, world) ← construct oracle world
  if values.length = 0 then some (state, world)
  else
    match reserve element oracle (some state) values.length world with
    | (false, _) => none
    | (true, world) =>
        let world ← appendLoop state values.length values world
        some (state, world)

/-- `Array.dup`. -/
def dup (world : World T) : Option (Nat × World T) :=
  match array with
  | none => none
  | some state => do
      let (copy, world) ← construct oracle world
      let used := length array world
      if used = 0 then some (copy, world)
      else
        match reserve element oracle (some copy) used world with
        | (false, _) => none
        | (true, world) =>
            let data : Slice :=
              { block := (world.state state).storage.block, offset := 0, length := used }
            let world ← appendLoop copy used data world
            some (copy, world)

/-- `Array.clear`. The released block is left to the oracle. -/
def clear (world : World T) : World T :=
  match array with
  | none => world
  | some state =>
      let released := match (world.state state).storage.block with
        | none => world.cell
        | some block => Function.update world.cell block (oracle.leftover world.requests)
      { world with cell := released, requests := world.requests + 1 }.setState state
        { storage := Slice.null, used := 0 }

end

end LaserD.Container
