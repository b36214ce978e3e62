/-
This file models the folding of integer operators by the front end.

Every operator reads the 64-bit words of its operands, computes with the 64-bit operation of the
host and builds a constant of the result type from the word. Where the host operation has no result
(a division that traps, a shift count that is not below the width of the shifted word) or an
assertion of the source fails, the model has no result either.
-/

import LaserD.Constfold.IntegerExp

namespace LaserD.Constfold

/-- The expressions the integer operators leave behind. -/
inductive UnionExp (type : TY)
  | integer (e : IntegerExp type)
  | error (message : String)
  | cantExpression
  deriving DecidableEq

/-- The comparison operators of `Equal` and `Cmp`. -/
inductive EXP
  | equal | notEqual | lessThan | lessOrEqual | greaterThan | greaterOrEqual
  deriving DecidableEq, Repr

variable {t1 t2 : TY}

/-! ### Host operations -/

/-- `/` on `sinteger_t`, which traps on a zero divisor and on `long.min / -1`. -/
def signedDivide (n1 n2 : BitVec 64) : Option (BitVec 64) :=
  if n2 = 0 ∨ (n1 = 0x8000000000000000 ∧ n2 = -1) then none else some (n1.sdiv n2)

/-- `%` on `sinteger_t`, which traps where the division does. -/
def signedRemainder (n1 n2 : BitVec 64) : Option (BitVec 64) :=
  if n2 = 0 ∨ (n1 = 0x8000000000000000 ∧ n2 = -1) then none else some (n1.srem n2)

/-- `/` on `dinteger_t`, which traps on a zero divisor. -/
def unsignedDivide (n1 n2 : BitVec 64) : Option (BitVec 64) :=
  if n2 = 0 then none else some (n1 / n2)

/-- `%` on `dinteger_t`. -/
def unsignedRemainder (n1 n2 : BitVec 64) : Option (BitVec 64) :=
  if n2 = 0 then none else some (n1 % n2)

/-- `<<` on a word of the host. -/
def shiftLeft {w : Nat} (word : BitVec w) (count : Nat) : Option (BitVec w) :=
  if count < w then some (word <<< count) else none

/-- `>>` on a signed word of the host. -/
def shiftSigned {w : Nat} (word : BitVec w) (count : Nat) : Option (BitVec w) :=
  if count < w then some (word.sshiftRight count) else none

/-- `>>` on an unsigned word of the host, and `>>>`. -/
def shiftUnsigned {w : Nat} (word : BitVec w) (count : Nat) : Option (BitVec w) :=
  if count < w then some (word >>> count) else none

/-! ### Arithmetic -/

def Neg (type : TY) (e1 : IntegerExp t1) : IntegerExp type :=
  emplaceExp type (-e1.toInteger)

def Com (type : TY) (e1 : IntegerExp t1) : IntegerExp type :=
  emplaceExp type (~~~e1.toInteger)

def Add (type : TY) (e1 : IntegerExp t1) (e2 : IntegerExp t2) : IntegerExp type :=
  emplaceExp type (e1.toInteger + e2.toInteger)

/-- `e1 - e2` is computed as `e1 + (-e2)`, the negation in the type of `e2`. -/
def Min (type : TY) (e1 : IntegerExp t1) (e2 : IntegerExp t2) : IntegerExp type :=
  let neg := Neg t2 e2
  Add type e1 neg

def Mul (type : TY) (e1 : IntegerExp t1) (e2 : IntegerExp t2) : IntegerExp type :=
  emplaceExp type (e1.toInteger * e2.toInteger)

/-- The body that `Div` and `Mod` share: the checks, their messages and the two host operations. -/
def divideBy (intMin longMin : String)
    (unsignedOp signedOp : BitVec 64 → BitVec 64 → Option (BitVec 64))
    (type : TY) (e1 : IntegerExp t1) (e2 : IntegerExp t2) : Option (UnionExp type) :=
  let n1 := e1.toInteger
  let n2 := e2.toInteger
  if n2 = 0 then
    some (.error "divide by 0")
  else if n2 = -1 ∧ type.isUnsigned = false ∧ n1 = 0xFFFFFFFF80000000 ∧ type ≠ .int64 then
    some (.error intMin)
  else if n2 = -1 ∧ type.isUnsigned = false ∧ n1 = 0x8000000000000000 then
    some (.error longMin)
  else
    let n := if t1.isUnsigned || t2.isUnsigned then unsignedOp n1 n2 else signedOp n1 n2
    n.map fun n => .integer (emplaceExp type n)

def Div (type : TY) (e1 : IntegerExp t1) (e2 : IntegerExp t2) : Option (UnionExp type) :=
  divideBy "integer overflow: `int.min / -1`" "integer overflow: `long.min / -1L`"
    unsignedDivide signedDivide type e1 e2

def Mod (type : TY) (e1 : IntegerExp t1) (e2 : IntegerExp t2) : Option (UnionExp type) :=
  divideBy "integer overflow: `int.min % -1`" "integer overflow: `long.min % -1L`"
    unsignedRemainder signedRemainder type e1 e2

/-- The loop of `Pow`: square `r`, and multiply `v` by it where the exponent has a one bit. -/
def powLoop (n : BitVec 64) (v r : IntegerExp t1) : IntegerExp t1 :=
  if n = 0 then
    v
  else
    powLoop (n >>> 1) (if n &&& 1 ≠ 0 then Mul t1 v r else v) (Mul t1 r r)
termination_by n.toNat
decreasing_by
  rename_i nonzero
  have positive : n.toNat ≠ 0 := fun zero => nonzero (BitVec.eq_of_toNat_eq zero)
  rw [BitVec.toNat_ushiftRight, Nat.shiftRight_eq_div_pow]
  exact Nat.div_lt_self (Nat.pos_of_ne_zero positive) (by decide)

/-- `Pow` of an integer base and an integer exponent. -/
def Pow (type : TY) (e1 : IntegerExp t1) (e2 : IntegerExp t2) : UnionExp type :=
  let n := e2.toInteger
  if t2.isUnsigned = false ∧ n.slt 0 then
    .cantExpression
  else
    let r := emplaceExp t1 e1.toInteger
    let v := emplaceExp t1 1
    .integer (emplaceExp type (powLoop n v r).toInteger)

/-! ### Bits and shifts -/

def And (type : TY) (e1 : IntegerExp t1) (e2 : IntegerExp t2) : IntegerExp type :=
  emplaceExp type (e1.toInteger &&& e2.toInteger)

def Or (type : TY) (e1 : IntegerExp t1) (e2 : IntegerExp t2) : IntegerExp type :=
  emplaceExp type (e1.toInteger ||| e2.toInteger)

def Xor (type : TY) (e1 : IntegerExp t1) (e2 : IntegerExp t2) : IntegerExp type :=
  emplaceExp type (e1.toInteger ^^^ e2.toInteger)

def Shl (type : TY) (e1 : IntegerExp t1) (e2 : IntegerExp t2) : Option (IntegerExp type) :=
  (shiftLeft e1.toInteger e2.toInteger.toNat).map (emplaceExp type)

/-- The shift of `Shr` in the type of its first operand; types below `int` shift as `int`. -/
def shrValue (ty : TY) (value : BitVec 64) (count : Nat) : Option (BitVec 64) :=
  match ty with
  | .int8 => (shiftSigned ((value.setWidth 8).signExtend 32) count).map (·.signExtend 64)
  | .uns8 | .char => (shiftSigned ((value.setWidth 8).setWidth 32) count).map (·.signExtend 64)
  | .int16 => (shiftSigned ((value.setWidth 16).signExtend 32) count).map (·.signExtend 64)
  | .uns16 | .wchar => (shiftSigned ((value.setWidth 16).setWidth 32) count).map (·.signExtend 64)
  | .int32 => (shiftSigned (value.setWidth 32) count).map (·.signExtend 64)
  | .uns32 | .dchar => (shiftUnsigned (value.setWidth 32) count).map (·.setWidth 64)
  | .int64 => shiftSigned value count
  | .uns64 => shiftUnsigned value count
  | .bool => none

def Shr (type : TY) (e1 : IntegerExp t1) (e2 : IntegerExp t2) : Option (IntegerExp type) :=
  let value := e1.toInteger
  let dcount := e2.toInteger
  if dcount.toNat ≤ 0xFFFFFFFF then
    (shrValue t1 value dcount.toNat).map (emplaceExp type)
  else
    none

/-- The shift of `Ushr`: the word is masked to the width of the first operand. -/
def ushrValue (ty : TY) (value : BitVec 64) (count : Nat) : Option (BitVec 64) :=
  match ty with
  | .int8 | .uns8 | .char => shiftUnsigned (value &&& 0xFF) count
  | .int16 | .uns16 | .wchar => shiftUnsigned (value &&& 0xFFFF) count
  | .int32 | .uns32 | .dchar => shiftUnsigned (value &&& 0xFFFFFFFF) count
  | .int64 | .uns64 => shiftUnsigned value count
  | .bool => none

def Ushr (type : TY) (e1 : IntegerExp t1) (e2 : IntegerExp t2) : Option (IntegerExp type) :=
  let value := e1.toInteger
  let dcount := e2.toInteger
  if dcount.toNat ≤ 0xFFFFFFFF then
    (ushrValue t1 value dcount.toNat).map (emplaceExp type)
  else
    none

/-! ### Comparisons -/

/-- `numCmp` on `dinteger_t`; no other operator may be compared with. -/
def intUnsignedCmp (op : EXP) (n1 n2 : BitVec 64) : Option Bool :=
  match op with
  | .lessThan => some (n1.ult n2)
  | .lessOrEqual => some (n1.ule n2)
  | .greaterThan => some (n2.ult n1)
  | .greaterOrEqual => some (n2.ule n1)
  | .equal | .notEqual => none

/-- `numCmp` on `sinteger_t`. -/
def intSignedCmp (op : EXP) (n1 n2 : BitVec 64) : Option Bool :=
  match op with
  | .lessThan => some (n1.slt n2)
  | .lessOrEqual => some (n1.sle n2)
  | .greaterThan => some (n2.slt n1)
  | .greaterOrEqual => some (n2.sle n1)
  | .equal | .notEqual => none

def Cmp (op : EXP) (type : TY) (e1 : IntegerExp t1) (e2 : IntegerExp t2) :
    Option (IntegerExp type) :=
  let n1 := e1.toInteger
  let n2 := e2.toInteger
  let n := if t1.isUnsigned || t2.isUnsigned then intUnsignedCmp op n1 n2
    else intSignedCmp op n1 n2
  n.map fun n => emplaceExp type (if n then 1 else 0)

def Equal (op : EXP) (type : TY) (e1 : IntegerExp t1) (e2 : IntegerExp t2) :
    Option (IntegerExp type) :=
  let cmp : BitVec 64 := if e1.toInteger = e2.toInteger then 1 else 0
  match op with
  | .equal => some (emplaceExp type cmp)
  | .notEqual => some (emplaceExp type (cmp ^^^ 1))
  | _ => none

end LaserD.Constfold
