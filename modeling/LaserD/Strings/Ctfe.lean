/-
This file models how compile-time strings are compared.

A compile-time array of code units is a string literal, an array literal of character
constants, a slice of either, or null. The interpreter compares two of them by one of four
pieces of code, chosen by what the arrays are once slices are resolved; the constant
folder has a comparison of its own for two string literals. The bytes of a unit lie in
memory as on a little-endian host, the lowest first.
-/

import Mathlib.Algebra.Group.Int.Defs
import Mathlib.Algebra.Group.Nat.Defs
import Mathlib.Data.Nat.Basic
import Mathlib.Order.Defs.LinearOrder

namespace LaserD.Strings

/-- `char`, `wchar` and `dchar`. -/
inductive CodeUnit
  | char
  | wchar
  | dchar
  deriving DecidableEq, Repr

/-- `sz`: the bytes of a code unit. -/
def CodeUnit.sz : CodeUnit → Nat
  | .char => 1
  | .wchar => 2
  | .dchar => 4

/-- A `StringExp`, or an `ArrayLiteralExp` of character constants: its code units. -/
structure Literal (type : CodeUnit) where
  isString : Bool
  units : List Nat
  inRange : ∀ u ∈ units, u < 2 ^ (8 * type.sz)
  addressable : units.length < 2 ^ 64

/-- A compile-time array: null, a literal, or a slice of one. -/
inductive CtfeArray (type : CodeUnit)
  | null
  | literal (e : Literal type)
  | slice (e1 : Literal type) (lwr upr : Nat) (ordered : lwr ≤ upr)
    (within : upr ≤ e1.units.length)

namespace CtfeArray

variable {type : CodeUnit}

/-- The code units that an array stands for. -/
def units : CtfeArray type → List Nat
  | null => []
  | literal e => e.units
  | slice e1 lwr upr _ _ => (e1.units.drop lwr).take (upr - lwr)

/-- `resolveArrayLength`. -/
def resolveArrayLength : CtfeArray type → Nat
  | null => 0
  | literal e => e.units.length
  | slice _ lwr upr _ _ => upr - lwr

/-- The literal and the lower bound that `ctfeCmpArrays` goes on with. -/
def resolve : CtfeArray type → Option (Literal type × Nat)
  | null => none
  | literal e => some (e, 0)
  | slice e1 lwr _ _ _ => some (e1, lwr)

end CtfeArray

/-! ### The comparisons of two runs of units -/

/-- The bytes of a unit, the lowest first. -/
def bytes : Nat → Nat → List Nat
  | 0, _ => []
  | sz + 1, u => u % 256 :: bytes sz (u / 256)

/-- `peekData`: the bytes of a string. -/
def peekData (sz : Nat) (units : List Nat) : List Nat :=
  units.flatMap (bytes sz)

/-- `memcmp`: the order of the first bytes that differ. -/
def memcmp : List Nat → List Nat → Int
  | a :: as, b :: bs => if a < b then -1 else if b < a then 1 else memcmp as bs
  | _, _ => 0

/-- `sliceCmpStringWithString`. -/
def sliceCmpStringWithString (sz : Nat) (units1 units2 : List Nat) (lo1 lo2 len : Nat) : Int :=
  memcmp (((peekData sz units1).drop (sz * lo1)).take (sz * len))
    (((peekData sz units2).drop (sz * lo2)).take (sz * len))

/-- The loop of `sliceCmpStringWithArray`. -/
def cmpUnits : List Nat → List Nat → Int
  | val1 :: rest1, val2 :: rest2 =>
    if (if val1 > val2 then 1 else 0) - (if val1 < val2 then 1 else 0) ≠ (0 : Int) then
      (if val1 > val2 then 1 else 0) - (if val1 < val2 then 1 else 0)
    else cmpUnits rest1 rest2
  | _, _ => 0

/-- `sliceCmpStringWithArray`. -/
def sliceCmpStringWithArray (units1 units2 : List Nat) (lo1 lo2 len : Nat) : Int :=
  cmpUnits ((units1.drop lo1).take len) ((units2.drop lo2).take len)

/-- The difference of two integers, as a signed number of 64 bits. -/
def signedDifference (val1 val2 : Nat) : Int :=
  ((val1 : Int) - val2).bmod (2 ^ 64)

/-- The loop of `ctfeCmpArrays` over two array literals of characters. -/
def cmpElements : List Nat → List Nat → Int
  | val1 :: rest1, val2 :: rest2 =>
    if signedDifference val1 val2 > 0 then 1
    else if signedDifference val1 val2 < 0 then -1
    else cmpElements rest1 rest2
  | _, _ => 0

/-- `ctfeCmpArrays`. -/
def ctfeCmpArrays {type : CodeUnit} (x1 x2 : Literal type) (lo1 lo2 len : Nat) : Int :=
  match x1.isString, x2.isString with
  | true, true => sliceCmpStringWithString type.sz x1.units x2.units lo1 lo2 len
  | true, false => sliceCmpStringWithArray x1.units x2.units lo1 lo2 len
  | false, true => -sliceCmpStringWithArray x2.units x1.units lo2 lo1 len
  | false, false =>
    cmpElements ((x1.units.drop lo1).take len) ((x2.units.drop lo2).take len)

/-! ### The comparison of two arrays -/

/-- `cast(int)(len1 - len2)`: the difference in 64 bits, cut to an `int`. -/
def intDifference (len1 len2 : Nat) : Int :=
  Int.bmod ((len1 + 2 ^ 64 - len2) % 2 ^ 64 : Nat) (2 ^ 32)

/-- `ctfeRawCmp` on arrays. -/
def ctfeRawCmp {type : CodeUnit} (e1 e2 : CtfeArray type) : Int :=
  match e1.resolve, e2.resolve with
  | none, none => 0
  | some (x1, lo1), some (x2, lo2) =>
    if e1.resolveArrayLength > 0 ∧ e2.resolveArrayLength > 0 then
      if ctfeCmpArrays x1 x2 lo1 lo2 (min e1.resolveArrayLength e2.resolveArrayLength) ≠ 0 then
        ctfeCmpArrays x1 x2 lo1 lo2 (min e1.resolveArrayLength e2.resolveArrayLength)
      else intDifference e1.resolveArrayLength e2.resolveArrayLength
    else intDifference e1.resolveArrayLength e2.resolveArrayLength
  | _, _ => intDifference e1.resolveArrayLength e2.resolveArrayLength

/-- The relational operators `<`, `<=`, `>` and `>=`. -/
inductive Relation
  | lessThan
  | lessOrEqual
  | greaterThan
  | greaterOrEqual
  deriving DecidableEq, Repr

/-- What a relational operator says of an order. -/
def Relation.holds : Relation → Ordering → Bool
  | lessThan, order => order.isLT
  | lessOrEqual, order => order.isLE
  | greaterThan, order => order.isGT
  | greaterOrEqual, order => order.isGE

/-- `specificCmp`: a comparison with zero. -/
def specificCmp (op : Relation) (rawCmp : Int) : Bool :=
  match op with
  | .lessThan => rawCmp < 0
  | .lessOrEqual => rawCmp ≤ 0
  | .greaterThan => rawCmp > 0
  | .greaterOrEqual => rawCmp ≥ 0

/-- `ctfeCmp` on strings. -/
def ctfeCmp {type : CodeUnit} (op : Relation) (e1 e2 : CtfeArray type) : Bool :=
  specificCmp op (ctfeRawCmp e1 e2)

/-- `ctfeEqual` for `==`. -/
def ctfeEqual {type : CodeUnit} (e1 e2 : CtfeArray type) : Bool :=
  ctfeRawCmp e1 e2 = 0

/-! ### The constant folder -/

/-- `Cmp`: two string literals are compared, other arrays are left alone. -/
def Cmp {type : CodeUnit} (op : Relation) : CtfeArray type → CtfeArray type → Option Bool
  | .literal es1, .literal es2 =>
    if es1.isString ∧ es2.isString then
      let data1 := peekData type.sz es1.units
      let data2 := peekData type.sz es1.units
      let len := if es2.units.length < es1.units.length then es2.units.length else es1.units.length
      let rawCmp := memcmp (data1.take (type.sz * len)) (data2.take (type.sz * len))
      some (specificCmp op
        (if rawCmp = 0 then intDifference es1.units.length es2.units.length else rawCmp))
    else none
  | _, _ => none

/-- `Equal` for `==`: null and literals are compared, slices are left alone. -/
def Equal {type : CodeUnit} : CtfeArray type → CtfeArray type → Option Bool
  | .null, .null => some true
  | .null, .literal es2 => some (es2.units.length = 0)
  | .literal es1, .null => some (es1.units.length = 0)
  | .literal es1, .literal es2 =>
    if es1.isString ∧ es2.isString then
      some (es1.units.length = es2.units.length ∧
        memcmp (peekData type.sz es1.units) (peekData type.sz es2.units) = 0)
    else
      some (es1.units.length = es2.units.length ∧
        (es1.units.zip es2.units).all fun pair => pair.1 = pair.2)
  | _, _ => none

end LaserD.Strings
