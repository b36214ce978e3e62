/-
This file models the trees that `cgelem` rewrites, with the effects they have.

A node carries its type, and its value is a natural number below the power of two of its
size. Evaluation threads a state: the contents of memory and a world that calls may
change. It fails where the source language leaves the result undefined, at a division by
zero, a quotient that overflows, or a shift by the width or more. An assignment evaluates
its right side, then the place of its left side; the logical operators evaluate their
second operand only where the first leaves the result open.

A bit field is a place of its own: its value is a run of bits of the container, extended
by the container's sign, and a store into it leaves the other bits as they are.
-/

import Mathlib.Data.Nat.Bitwise
import Mathlib.Logic.Function.Basic
import Mathlib.Tactic.SplitIfs

namespace LaserD.Cgelem

/-! ### Types -/

/-- The sizes of the integers, from `CHARSIZE` on. -/
inductive Size
  | char
  | short
  | long
  | llong
  | cent
  deriving DecidableEq, Repr

/-- The bits of an integer. -/
def Size.bits : Size → Nat
  | .char => 8
  | .short => 16
  | .long => 32
  | .llong => 64
  | .cent => 128

/-- The size and the sign of an integral or pointer type. -/
structure Ty where
  size : Size
  isUnsigned : Bool
  deriving DecidableEq, Repr

/-- The unsigned type of the same size. -/
def touns (ty : Ty) : Ty := { size := ty.size, isUnsigned := true }

/-- The types that the optimisations give to the trees they build. -/
def TYbool : Ty := { size := .char, isUnsigned := true }
@[inherit_doc TYbool] def TYschar : Ty := { size := .char, isUnsigned := false }
@[inherit_doc TYbool] def TYuchar : Ty := { size := .char, isUnsigned := true }
@[inherit_doc TYbool] def TYshort : Ty := { size := .short, isUnsigned := false }
@[inherit_doc TYbool] def TYushort : Ty := { size := .short, isUnsigned := true }
@[inherit_doc TYbool] def TYint : Ty := { size := .long, isUnsigned := false }
@[inherit_doc TYbool] def TYuint : Ty := { size := .long, isUnsigned := true }
@[inherit_doc TYbool] def TYlong : Ty := { size := .long, isUnsigned := false }
@[inherit_doc TYbool] def TYulong : Ty := { size := .long, isUnsigned := true }
@[inherit_doc TYbool] def TYllong : Ty := { size := .llong, isUnsigned := false }
@[inherit_doc TYbool] def TYullong : Ty := { size := .llong, isUnsigned := true }
@[inherit_doc TYbool] def TYcent : Ty := { size := .cent, isUnsigned := false }

/-! ### Trees -/

/-- The arithmetic and bitwise operators; `min` is subtraction. -/
inductive Arithmetic
  | add
  | min
  | mul
  | div
  | mod
  | and
  | or
  | xor
  | shl
  | shr
  | ashr
  deriving DecidableEq, Repr

/-- The comparisons. -/
inductive Relation
  | eqeq
  | ne
  | lt
  | le
  | gt
  | ge
  deriving DecidableEq, Repr

/-- The operators of one operand: the two tests, the load, the upper half and the
conversions. -/
inductive Unary
  | not
  | bool
  | ind
  | msw
  | s8_16
  | u8_16
  | s16_32
  | u16_32
  | s32_64
  | u32_64
  | of16_8
  | of32_16
  | of64_32
  | of128_64
  deriving DecidableEq, Repr

/-- The operators of two operands. -/
inductive Binary
  | arith (op : Arithmetic)
  | arithass (op : Arithmetic)
  | rel (op : Relation)
  | andand
  | oror
  | comma
  | eq
  | remquo
  | btst
  | bit
  | postinc
  | postdec
  deriving DecidableEq, Repr

/-- `elem`: a tree. A constant holds all eight bytes of `Vullong`, whatever its type, and
`other` stands for a call or any other tree that the rewriting does not look into. -/
inductive Tree
  | leaf (Ety : Ty) (symbol : Nat)
  | const (Ety : Ty) (Vullong : BitVec 64)
  | una (Eoper : Unary) (Ety : Ty) (E1 : Tree)
  | bin (Eoper : Binary) (Ety : Ty) (E1 E2 : Tree)
  | other (Ety : Ty) (code : Nat)
  deriving DecidableEq, Repr

namespace Tree

/-- The type of the node at the root. -/
def ty : Tree → Ty
  | leaf Ety _ => Ety
  | const Ety _ => Ety
  | una _ Ety _ => Ety
  | bin _ Ety _ _ => Ety
  | other Ety _ => Ety

/-- The size of the node at the root. -/
def size (e : Tree) : Size := e.ty.size

/-- Whether the type of the node at the root is unsigned. -/
def uns (e : Tree) : Bool := e.ty.isUnsigned

/-- An assignment to `Ety`. -/
def setTy (Ety : Ty) : Tree → Tree
  | leaf _ symbol => leaf Ety symbol
  | const _ Vullong => const Ety Vullong
  | una Eoper _ E1 => una Eoper Ety E1
  | bin Eoper _ E1 E2 => bin Eoper Ety E1 E2
  | other _ code => other Ety code

/-- `OTleaf`. -/
def isLeaf : Tree → Bool
  | leaf _ _ => true
  | const _ _ => true
  | _ => false

@[simp] theorem ty_setTy (Ety : Ty) (e : Tree) : (e.setTy Ety).ty = Ety := by
  cases e <;> rfl

end Tree

/-- `el_long`: a constant. -/
def elLong (Ety : Ty) (value : BitVec 64) : Tree := .const Ety value

/-- `el_tolong`: the value of a constant, extended by the sign of its type. -/
def elTolong (Ety : Ty) (Vullong : BitVec 64) : BitVec 64 :=
  match Ety.size, Ety.isUnsigned with
  | .char, true => (Vullong.setWidth 8).setWidth 64
  | .char, false => (Vullong.setWidth 8).signExtend 64
  | .short, true => (Vullong.setWidth 16).setWidth 64
  | .short, false => (Vullong.setWidth 16).signExtend 64
  | .long, true => (Vullong.setWidth 32).setWidth 64
  | .long, false => (Vullong.setWidth 32).signExtend 64
  | _, _ => Vullong

/-- The operators that store: `OTassign` and the post operators. -/
def Binary.isAssign : Binary → Bool
  | .arithass _ => true
  | .eq => true
  | .postinc => true
  | .postdec => true
  | _ => false

/-- `el_sideeffect`. -/
def sideEffect : Tree → Bool
  | .leaf _ _ => false
  | .const _ _ => false
  | .una _ _ E1 => sideEffect E1
  | .bin Eoper _ E1 E2 => Eoper.isAssign || sideEffect E1 || sideEffect E2
  | .other _ _ => true

/-! ### Values -/

/-- The bits of a value that a node of this size has. -/
def low (size : Size) (value : Nat) : Nat := value % 2 ^ size.bits

/-- The signed reading of a value. -/
def signed (size : Size) (value : Nat) : Int :=
  if value < 2 ^ (size.bits - 1) then value else value - 2 ^ size.bits

/-- The value with this signed reading, or with one that differs by the whole width. -/
def wrap (size : Size) (x : Int) : Nat := (x % 2 ^ size.bits).toNat

/-- The quotient: none by zero, and none where it overflows. -/
def quotient (size : Size) (uns : Bool) (x y : Nat) : Option Nat :=
  if y = 0 then none
  else if uns then some (x / y)
  else if signed size x = -2 ^ (size.bits - 1) ∧ signed size y = -1 then none
  else some (wrap size ((signed size x).tdiv (signed size y)))

/-- The remainder. -/
def remainder (size : Size) (uns : Bool) (x y : Nat) : Option Nat :=
  if y = 0 then none
  else if uns then some (x % y)
  else if signed size x = -2 ^ (size.bits - 1) ∧ signed size y = -1 then none
  else some (wrap size ((signed size x).tmod (signed size y)))

/-- What an arithmetic operator computes on operands of this size; a division is unsigned
where one of its operands is. -/
def arithmetic (op : Arithmetic) (size : Size) (uns : Bool) (x y : Nat) : Option Nat :=
  match op with
  | .add => some (low size (x + y))
  | .min => some (wrap size (x - y))
  | .mul => some (low size (x * y))
  | .div => quotient size uns x y
  | .mod => remainder size uns x y
  | .and => some (x &&& y)
  | .or => some (x ||| y)
  | .xor => some (x ^^^ y)
  | .shl => if y < size.bits then some (low size (x <<< y)) else none
  | .shr => if y < size.bits then some (x >>> y) else none
  | .ashr => if y < size.bits then some (wrap size (signed size x / 2 ^ y)) else none

/-- The unsigned and the signed order. -/
def less (size : Size) (uns : Bool) (x y : Nat) : Bool :=
  if uns then x < y else signed size x < signed size y

/-- What a comparison says; it is unsigned where one of its operands is. -/
def relation (op : Relation) (size : Size) (uns : Bool) (x y : Nat) : Bool :=
  match op with
  | .eqeq => x == y
  | .ne => x != y
  | .lt => less size uns x y
  | .le => !less size uns y x
  | .gt => less size uns y x
  | .ge => !less size uns x y

/-- What a test leaves. -/
def ofBool (b : Bool) : Nat := if b then 1 else 0

/-- The value of a bit field of a container: so many bits from an offset on, extended by the
container's sign. -/
def fieldValue (ty : Ty) (width offset container : Nat) : Nat :=
  let bits := container / 2 ^ offset % 2 ^ width
  if ty.isUnsigned || bits < 2 ^ (width - 1) then bits
  else bits + (2 ^ ty.size.bits - 2 ^ width)

/-- The container with the lower bits of a value in the place of a bit field. -/
def insertField (width offset container value : Nat) : Nat :=
  container - container / 2 ^ offset % 2 ^ width * 2 ^ offset + value % 2 ^ width * 2 ^ offset

/-- The width and the offset that the second operand of a bit field holds. -/
def fieldWidth (wb : BitVec 64) : Nat := (wb.setWidth 32 >>> 8 &&& 0xFF#32).toNat
@[inherit_doc fieldWidth] def fieldOffset (wb : BitVec 64) : Nat :=
  (wb.setWidth 32 &&& 0xFF#32).toNat

/-! ### Well formed trees -/

/-- The sizes an operator of one operand may have. A conversion starts from its own size and
ends in twice that; one from a byte may end in four bytes. -/
def unaryFits (size operand : Size) : Unary → Prop
  | .not | .bool | .ind => True
  | .msw => operand.bits = 2 * size.bits
  | .s8_16 | .u8_16 => operand = .char ∧ (size = .short ∨ size = .long)
  | .s16_32 | .u16_32 => operand = .short ∧ size = .long
  | .s32_64 | .u32_64 => operand = .long ∧ size = .llong
  | .of16_8 => operand = .short ∧ size = .char
  | .of32_16 => operand = .long ∧ size = .short
  | .of64_32 => operand = .llong ∧ size = .long
  | .of128_64 => operand = .cent ∧ size = .llong

/-- The operators whose second operand is a count. -/
def Arithmetic.isShift : Arithmetic → Bool
  | .shl | .shr | .ashr => true
  | _ => false

/-- The sizes an operator of two operands may have. -/
def binaryFits (size left right : Size) : Binary → Prop
  | .arith op | .arithass op => left = size ∧ (op.isShift = false → right = size)
  | .rel _ => left = right
  | .eq | .postinc | .postdec => left = size ∧ right = size
  | .remquo => left = right ∧ size.bits = 2 * left.bits
  | .comma => right = size
  | .bit => left = size ∧ right = .long
  | .andand | .oror | .btst => True

/-- A tree whose sizes fit. -/
def WellFormed : Tree → Prop
  | .leaf _ _ => True
  | .const _ _ => True
  | .una Eoper Ety E1 => WellFormed E1 ∧ unaryFits Ety.size E1.size Eoper
  | .bin Eoper Ety E1 E2 =>
    WellFormed E1 ∧ WellFormed E2 ∧ binaryFits Ety.size E1.size E2.size Eoper
  | .other _ _ => True

/-! ### States -/

/-- The contents of memory by address, and whatever else calls may change. -/
structure State (World : Type) where
  cells : Nat → Nat
  world : World

/-- The addresses of the symbols, and what the trees that are not looked into do. -/
structure Environment (World : Type) where
  address : Nat → Nat
  other : Nat → State World → Option (Nat × State World)

section Semantics

variable {World : Type}

/-- A load. -/
def State.read (state : State World) (size : Size) (address : Nat) : Nat :=
  low size (state.cells address)

/-- A store. -/
def State.write (state : State World) (size : Size) (address value : Nat) : State World :=
  { state with
    cells := Function.update state.cells address
      (state.cells address - state.read size address + low size value) }

/-- What an operator of one operand computes before it is cut to its size. -/
def unary (op : Unary) (size operand : Size) (value : Nat) (state : State World) : Nat :=
  match op with
  | .not => ofBool (value = 0)
  | .bool => ofBool (value ≠ 0)
  | .ind => state.read size value
  | .msw => value / 2 ^ (operand.bits / 2)
  | .s8_16 => wrap size (signed .char value)
  | .s16_32 => wrap size (signed .short value)
  | .s32_64 => wrap size (signed .long value)
  | .u8_16 | .u16_32 | .u32_64 => value
  | .of16_8 | .of32_16 | .of64_32 | .of128_64 => value

/-- The quotient and, above it, the remainder. -/
def quotientRemainder (size : Size) (uns : Bool) (x y : Nat) : Option Nat :=
  match quotient size uns x y, remainder size uns x y with
  | some q, some r => some (q + r * 2 ^ size.bits)
  | _, _ => none

/-- The value at a place. -/
def fetch (place : Tree) (address : Nat) (state : State World) : Nat :=
  match place with
  | .bin .bit Ety E1 (.const _ wb) =>
    low Ety.size (fieldValue E1.ty (fieldWidth wb) (fieldOffset wb) (state.read E1.size address))
  | place => state.read place.size address

/-- A store to a place. -/
def store (place : Tree) (address value : Nat) (state : State World) : State World :=
  match place with
  | .bin .bit _ E1 (.const _ wb) =>
    state.write E1.size address
      (insertField (fieldWidth wb) (fieldOffset wb) (state.read E1.size address) value)
  | place => state.write place.size address value

/-- A store to a place, with the value that is there afterwards. -/
def assign (Ety : Ty) (place : Tree) (address value : Nat) (state : State World) :
    Nat × State World :=
  let state := store place address value state
  (low Ety.size (fetch place address state), state)

mutual

/-- The value of a tree, and the state after its evaluation. -/
def run (env : Environment World) : Tree → State World → Option (Nat × State World)
  | .leaf Ety symbol, state => some (state.read Ety.size (env.address symbol), state)
  | .const Ety Vullong, state => some (low Ety.size Vullong.toNat, state)
  | .una Eoper Ety E1, state => do
    let (value, state) ← run env E1 state
    some (low Ety.size (unary Eoper Ety.size E1.size value state), state)
  | .bin Eoper Ety E1 E2, state =>
    match Eoper with
    | .andand => do
      let (first, state) ← run env E1 state
      if first = 0 then some (0, state)
      else do
        let (second, state) ← run env E2 state
        some (ofBool (second ≠ 0), state)
    | .oror => do
      let (first, state) ← run env E1 state
      if first ≠ 0 then some (1, state)
      else do
        let (second, state) ← run env E2 state
        some (ofBool (second ≠ 0), state)
    | .comma => do
      let (_, state) ← run env E1 state
      let (value, state) ← run env E2 state
      some (low Ety.size value, state)
    | .eq => do
      let (value, state) ← run env E2 state
      let (address, state) ← place env E1 state
      some (assign Ety E1 address value state)
    | .arithass op => do
      let (address, state) ← place env E1 state
      let (value, state) ← run env E2 state
      let result ← arithmetic op E1.size (E1.uns || E2.uns) (fetch E1 address state) value
      some (assign Ety E1 address result state)
    | .postinc => do
      let (address, state) ← place env E1 state
      let (value, state) ← run env E2 state
      let old := fetch E1 address state
      let result ← arithmetic .add E1.size E1.uns old value
      some (low Ety.size old, store E1 address result state)
    | .postdec => do
      let (address, state) ← place env E1 state
      let (value, state) ← run env E2 state
      let old := fetch E1 address state
      let result ← arithmetic .min E1.size E1.uns old value
      some (low Ety.size old, store E1 address result state)
    | .bit => do
      let (address, state) ← place env E1 state
      some (fetch (.bin .bit Ety E1 E2) address state, state)
    | .arith op => do
      let (first, state) ← run env E1 state
      let (second, state) ← run env E2 state
      let result ← arithmetic op E1.size (E1.uns || E2.uns) first second
      some (low Ety.size result, state)
    | .remquo => do
      let (first, state) ← run env E1 state
      let (second, state) ← run env E2 state
      let result ← quotientRemainder E1.size (E1.uns || E2.uns) first second
      some (low Ety.size result, state)
    | .rel op => do
      let (first, state) ← run env E1 state
      let (second, state) ← run env E2 state
      some (ofBool (relation op E1.size (E1.uns || E2.uns) first second), state)
    | .btst => do
      let (first, state) ← run env E1 state
      let (second, state) ← run env E2 state
      some (ofBool (first.testBit (second % E1.size.bits)), state)
  | .other Ety code, state =>
    (env.other code state).map fun (value, state) => (low Ety.size value, state)

/-- The address of a place, and the state after its evaluation. -/
def place (env : Environment World) : Tree → State World → Option (Nat × State World)
  | .leaf _ symbol, state => some (env.address symbol, state)
  | .una .ind _ E1, state => run env E1 state
  | .bin .bit _ E1 _, state => place env E1 state
  | _, _ => none

end

/-- A constant is the low bits of its 64, and nothing happens. -/
example (env : Environment World) (state : State World) (Ety : Ty) (Vullong : BitVec 64) :
    run env (.const Ety Vullong) state = some (low Ety.size Vullong.toNat, state) := by
  rw [run]

end Semantics

end LaserD.Cgelem
