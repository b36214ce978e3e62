/-
This file models the pointers of the interpreter and the arithmetic on them.

A pointer value is an expression, and the memory block it points into is decoded from the shape of
the expression: the address of an element or of a slice with the type of a static array, the offset
of a symbol, or a literal itself. The offset into a literal counts elements and the offset from a
symbol counts bytes. Two expressions denote one object when they are one object of the compiler, so
every node carries the identity of its object.
-/

import Mathlib.Tactic.Common

namespace LaserD.Ctfe

/-! ### Pointer expressions -/

/-- The expressions that pointer values are made of. The sizes are those of an element, and `array`
tells whether the type of the node is a static or dynamic array. -/
inductive Expression
  | string_ (object : Nat) (data : Nat) (len sz : BitVec 64)
  | arrayLiteral (object : Nat) (len sz : BitVec 64)
  | symbolOffset (object : Nat) (var : Nat) (dim : Option (BitVec 64)) (sz offset : BitVec 64)
  | variable_ (object : Nat) (var : Nat) (array : Bool)
  | int64 (object : Nat) (value : BitVec 64) (pointer : Bool)
  | null_ (object : Option Nat)
  | index (object : Nat) (e1 : Expression) (e2 : BitVec 64) (array : Bool)
  | slice (object : Nat) (e1 : Expression) (lwr upr : BitVec 64) (sarray : Bool)
  | dotVar (object : Nat) (element : Expression) (array : Bool)
  | address (object : Nat) (e1 : Expression)
  deriving DecidableEq, Repr

namespace Expression

/-- The identity of the object; a null that stands in for a cast is an object of its own. -/
def object : Expression → Option Nat
  | string_ id .. | arrayLiteral id .. | symbolOffset id .. | variable_ id .. | int64 id ..
  | index id .. | slice id .. | dotVar id .. | address id .. => some id
  | null_ id => id

/-- `agg1 == agg2` on references. -/
def sameObject (agg1 agg2 : Expression) : Bool :=
  agg1.object.isSome && agg1.object == agg2.object

/-- The test for an array of elements: an array type, a string or an array literal. -/
def isArray : Expression → Bool
  | string_ .. | arrayLiteral .. | slice .. => true
  | variable_ _ _ array | index _ _ _ array | dotVar _ _ array => array
  | _ => false

/-- `isAddrExp` and its operand, or the expression itself. -/
def skipAddress : Expression → Expression
  | address _ e1 => e1
  | e => e

/-- The value of a field stands for the field. -/
def skipDotVar : Expression → Expression
  | dotVar _ element _ => element
  | e => e

/-- The offset that a symbol carries. -/
def symbolBytes : Expression → BitVec 64
  | symbolOffset _ _ _ _ offset => offset
  | _ => 0

end Expression

/-- `getAggregateFromPointer`: the aggregate and the offset into it. -/
def getAggregateFromPointer (e : Expression) : Expression × BitVec 64 :=
  let e := e.skipAddress
  let ofs := e.symbolBytes
  let e := e.skipDotVar
  match e with
  | .index _ e1 e2 _ => if e1.isArray then (e1, e2) else (e, ofs)
  | .slice _ e1 lwr _ sarray => if sarray && e1.isArray then (e1, lwr) else (e, ofs)
  | .int64 _ value pointer => if pointer && value == 0 then (.null_ none, ofs) else (e, ofs)
  | e => (e, ofs)

/-- `pointToSameMemoryBlock`. -/
def pointToSameMemoryBlock (agg1 agg2 : Expression) : Bool :=
  agg1.sameObject agg2 ||
  match agg1, agg2 with
  | .int64 _ value1 _, .int64 _ value2 _ => value1 == value2
  | .variable_ _ var1 _, .variable_ _ var2 _ => var1 == var2
  | .symbolOffset _ var1 .., .symbolOffset _ var2 .. => var1 == var2
  | _, _ => false

/-! ### Arithmetic -/

/-- The operators of pointer arithmetic and of pointer comparison. -/
inductive EXP
  | add | addAssign | plusPlus | min | minAssign | minusMinus
  | lessThan | lessOrEqual | greaterThan | greaterOrEqual
  | identity | equal | notIdentity | notEqual
  deriving DecidableEq, Repr

/-- What the type of the pointer points at, as far as the arithmetic looks at it. -/
inductive Pointee
  | void_
  | sarray (dim : BitVec 64)
  | other
  deriving DecidableEq, Repr

/-- The errors of pointer arithmetic. -/
inductive Rejection
  | voidPointer
  | unknownLength
  | nonArray
  | badOperation
  | outside (indx : Int) (len : Int)
  deriving DecidableEq, Repr

/-- The text of an error. -/
def Rejection.message : Rejection → String
  | voidPointer => "cannot perform arithmetic on `void*` pointers at compile time"
  | unknownLength =>
    "cannot perform pointer arithmetic on arrays of unknown length at compile time"
  | nonArray => "cannot perform pointer arithmetic on non-arrays at compile time"
  | badOperation => "CTFE internal error: bad pointer operation"
  | outside indx len => "cannot assign pointer to index " ++ toString indx ++
      " inside memory block `[0.." ++ toString len ++ "]`"

/-- The index, the length and the size of an element of the block the arithmetic works on. -/
def blockOf (agg1 : Expression) (ofs1 : BitVec 64) :
    Except Rejection (BitVec 64 × BitVec 64 × BitVec 64) :=
  match agg1 with
  | .symbolOffset _ _ (some dim) sz _ => .ok (ofs1 / sz, dim, sz)
  | .symbolOffset _ _ none _ _ => .error .unknownLength
  | .string_ _ _ len sz | .arrayLiteral _ len sz => .ok (ofs1, len, sz)
  | _ => .error .nonArray

/-- The index after the operation. -/
def moveIndex (op : EXP) (indx ofs2 sz : BitVec 64) : Except Rejection (BitVec 64) :=
  match op with
  | .add | .addAssign | .plusPlus => .ok (indx + ofs2 / sz)
  | .min | .minAssign | .minusMinus => .ok (indx - ofs2 / sz)
  | _ => .error .badOperation

/-- The pointer to an element of the aggregate; `fresh` names the objects that are built. -/
def pointerTo (fresh : Nat) (pointee : Pointee) (agg1 : Expression) (indx sz : BitVec 64) :
    Expression :=
  match agg1 with
  | .symbolOffset _ var dim size _ => .symbolOffset fresh var dim size (indx * sz)
  | _ =>
    match pointee with
    | .sarray dim => .address fresh (.slice (fresh + 1) agg1 indx (indx + dim) true)
    | _ => .address fresh (.index (fresh + 1) agg1 indx false)

/-- `pointerArithmetic`: `eptr op e2` with a byte offset `e2`. -/
def pointerArithmetic (fresh : Nat) (op : EXP) (pointee : Pointee) (eptr : Expression)
    (e2 : BitVec 64) : Except Rejection Expression := do
  if pointee = .void_ then
    throw .voidPointer
  let eptr := eptr.skipAddress
  let (agg1, ofs1) := getAggregateFromPointer eptr
  let (indx, len, sz) ← blockOf agg1 ofs1
  let indx ← moveIndex op indx e2 sz
  if indx.slt 0 || len.ult indx then
    throw (.outside indx.toInt len.toInt)
  return pointerTo fresh pointee agg1 indx sz

/-- The size of an element of the aggregate, `agg1.type.nextOf().size()`; no other aggregate has
elements. -/
def elementSize : Expression → Option (BitVec 64)
  | .string_ _ _ _ sz | .arrayLiteral _ _ sz | .symbolOffset _ _ _ sz _ => some sz
  | _ => none

/-- `pointerDifference`: the bytes between two pointers into one block, and none where the source
reports two different memory blocks. -/
def pointerDifference (e1 e2 : Expression) : Option (BitVec 64) :=
  let (agg1, ofs1) := getAggregateFromPointer e1
  let (agg2, ofs2) := getAggregateFromPointer e2
  if agg1.sameObject agg2 then
    (elementSize agg1).map ((ofs1 - ofs2) * ·)
  else
    match agg1, agg2 with
    | .string_ _ data1 _ sz, .string_ _ data2 _ _ =>
      if data1 = data2 then some ((ofs1 - ofs2) * sz) else none
    | .symbolOffset _ var1 _ _ _, .symbolOffset _ var2 _ _ _ =>
      if var1 = var2 then some (ofs1 - ofs2) else none
    | _, _ => none

/-! ### Comparison -/

/-- The comparison of two offsets into one block; no other operator may be asked for. -/
def compareOffsets (op : EXP) (ofs1 ofs2 : BitVec 64) : Option Bool :=
  match op with
  | .lessThan => some (ofs1.ult ofs2)
  | .lessOrEqual => some (ofs1.ule ofs2)
  | .greaterThan => some (ofs2.ult ofs1)
  | .greaterOrEqual => some (ofs2.ule ofs1)
  | .identity | .equal => some (ofs1 == ofs2)
  | .notIdentity | .notEqual => some (ofs1 != ofs2)
  | _ => none

/-- The comparison of pointers into different blocks; `-1` when it is not defined. -/
def compareBlocks (op : EXP) (null1 null2 : Bool) : Option Int :=
  if null1 || null2 then
    match op with
    | .lessThan => some (if null1 && !null2 then 1 else 0)
    | .greaterThan => some (if !null1 && null2 then 1 else 0)
    | .lessOrEqual => some (if null1 then 1 else 0)
    | .greaterOrEqual => some (if null2 then 1 else 0)
    | .identity | .equal => some (if null1 == null2 then 1 else 0)
    | .notIdentity | .notEqual => some (if null1 == null2 then 0 else 1)
    | _ => none
  else
    match op with
    | .identity | .equal => some 0
    | .notIdentity | .notEqual => some 1
    | _ => some (-1)

/-- Whether the aggregate is a null pointer. -/
def isNull : Expression → Bool
  | .null_ _ => true
  | _ => false

/-- `comparePointers`. -/
def comparePointers (op : EXP) (agg1 : Expression) (ofs1 : BitVec 64) (agg2 : Expression)
    (ofs2 : BitVec 64) : Option Int :=
  if pointToSameMemoryBlock agg1 agg2 then
    (compareOffsets op ofs1 ofs2).map fun n => if n then 1 else 0
  else
    compareBlocks op (isNull agg1) (isNull agg2)

end LaserD.Ctfe
