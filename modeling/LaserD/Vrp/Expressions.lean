/-
This file models value range propagation over integer expressions, the `getIntRange`
of `dmd.dcast`, and proves when it is sound.

The expressions are typed by construction: the operands of arithmetic have the type of
the node, as they have after the usual conversions, and so has the left operand of a
shift. The range of a node is the operator on the ranges of the operands, cast to the
node's type. The operators saturate at 65 bits while the machine wraps, so a node whose
exact result is no 65-bit number can leave its range; every other node stays in it.
-/

import LaserD.Vrp.Arithmetic
import LaserD.Vrp.Bitwise
import Mathlib.Algebra.Order.Ring.Abs
import Mathlib.Algebra.Order.Ring.Int

namespace LaserD.Vrp

open SignExtendedNumber

/-! ### Types -/

/-- The integer types of 8 to 64 bits. -/
inductive IntType where
  | int8 | uns8 | int16 | uns16 | int32 | uns32 | int64 | uns64
  deriving Repr, DecidableEq

namespace IntType

/-- The width in bits. -/
def width : IntType → Nat
  | int8 | uns8 => 8
  | int16 | uns16 => 16
  | int32 | uns32 => 32
  | int64 | uns64 => 64

def isUnsigned : IntType → Bool
  | uns8 | uns16 | uns32 | uns64 => true
  | int8 | int16 | int32 | int64 => false

/-- The bits of a type. -/
def sizemask : IntType → BitVec 64
  | int8 | uns8 => 0xFF
  | int16 | uns16 => 0xFFFF
  | int32 | uns32 => 0xFFFFFFFF
  | int64 | uns64 => 0xFFFFFFFFFFFFFFFF

/-- The value of a type with the lower bits of an integer. -/
def wrap (type : IntType) (x : Int) : Int :=
  if type.isUnsigned then x % 2 ^ type.width else IntRange.signedWrap type.width x

/-- The smallest value of a type. -/
def lowest (type : IntType) : Int := if type.isUnsigned then 0 else -2 ^ (type.width - 1)

/-- The largest value of a type. -/
def highest (type : IntType) : Int :=
  if type.isUnsigned then 2 ^ type.width - 1 else 2 ^ (type.width - 1) - 1

theorem sizemask_toNat (type : IntType) : type.sizemask.toNat = 2 ^ type.width - 1 := by
  cases type <;> rfl

theorem width_pos (type : IntType) : 0 < type.width := by
  cases type <;> decide

theorem width_le (type : IntType) : type.width ≤ 64 := by
  cases type <;> decide

theorem wrap_bounds (type : IntType) (x : Int) :
    type.lowest ≤ type.wrap x ∧ type.wrap x ≤ type.highest := by
  unfold lowest highest wrap
  cases type.isUnsigned with
  | true =>
    have positive := IntRange.two_pow_positive type.width
    have lower := Int.emod_nonneg x positive.ne'
    have upper := Int.emod_lt_of_pos x positive
    rw [if_pos rfl, if_pos rfl, if_pos rfl]
    omega
  | false =>
    rw [if_neg Bool.false_ne_true, if_neg Bool.false_ne_true, if_neg Bool.false_ne_true]
    exact IntRange.signedWrap_bounds type.width_pos x

/-- Wrapping keeps the values of the type. -/
theorem wrap_of_mem {type : IntType} {x : Int} (lower : type.lowest ≤ x)
    (upper : x ≤ type.highest) : type.wrap x = x := by
  unfold lowest at lower
  unfold highest at upper
  unfold wrap
  cases sign : type.isUnsigned with
  | true =>
    rw [sign, if_pos rfl] at lower upper
    rw [if_pos rfl, Int.emod_eq_of_lt lower (by omega)]
  | false =>
    rw [sign, if_neg Bool.false_ne_true] at lower upper
    rw [if_neg Bool.false_ne_true]
    have power : (2 : Int) ^ type.width = 2 * 2 ^ (type.width - 1) := by
      rw [← pow_succ', Nat.sub_add_cancel type.width_pos]
    unfold IntRange.signedWrap
    rw [Int.emod_eq_of_lt (by omega) (by omega)]
    omega

/-- The signs above 64 bits do not matter to a wrapped number. -/
theorem wrap_toInt (type : IntType) (number : SignExtendedNumber) :
    type.wrap number.toInt = type.wrap number.value.toNat := by
  have divides : (2 : Int) ^ type.width ∣ 2 ^ 64 := pow_dvd_pow 2 type.width_le
  obtain ⟨factor, whole⟩ := divides
  unfold wrap IntRange.signedWrap
  rcases number with ⟨value, _ | _⟩
  · rw [toInt_positive]
  · have shifted : ∀ z : Int, ((value.toNat : Int) - 2 ^ 64 + z) % 2 ^ type.width =
        ((value.toNat : Int) + z) % 2 ^ type.width := by
      intro z
      rw [whole, show (value.toNat : Int) - 2 ^ type.width * factor + z =
        value.toNat + z - 2 ^ type.width * factor by ring, Int.sub_mul_emod_self_left]
    have plain := shifted 0
    rw [Int.add_zero, Int.add_zero] at plain
    rw [toInt_negative, plain, shifted]

theorem lowest_ge (type : IntType) : -2 ^ 63 ≤ type.lowest := by
  cases type <;> decide

theorem highest_lt (type : IntType) : type.highest < 2 ^ 64 := by
  cases type <;> decide

/-- A signed type holds no number of more than 63 bits, an unsigned one no negative one. -/
theorem unsigned_or_signed (type : IntType) : type.lowest = 0 ∨ type.highest < 2 ^ 63 := by
  cases type <;> decide

end IntType

/-! ### Ranges of types -/

namespace IntRange

/-- A range cast to a type. -/
def _cast (range : IntRange) (type : IntType) : IntRange :=
  if !type.isUnsigned then range.castSigned type.sizemask else range.castUnsigned type.sizemask

/-- The range of all values of a type. -/
def intRangeFromType (type : IntType) : IntRange :=
  let mask := type.sizemask
  if !type.isUnsigned then
    { imin := { value := ~~~(mask >>> 1), negative := true },
      imax := { value := mask >>> 1, negative := false } }
  else { imin := ofValue 0, imax := ofValue mask }

/-- The ends are values of the type. -/
def Within (range : IntRange) (type : IntType) : Prop :=
  type.lowest ≤ range.imin.toInt ∧ range.imax.toInt ≤ type.highest

theorem cast_contains {range : IntRange} {x : Int} (type : IntType) (inside : range.Contains x) :
    (range._cast type).Contains (type.wrap x) := by
  unfold _cast IntType.wrap
  cases type.isUnsigned with
  | true => exact castUnsigned_contains type.sizemask_toNat type.width_le inside
  | false => exact castSigned_contains type.sizemask_toNat type.width_pos type.width_le inside

theorem cast_within (range : IntRange) (type : IntType) : (range._cast type).Within type := by
  unfold _cast Within IntType.lowest IntType.highest
  cases type.isUnsigned with
  | true => exact castUnsigned_within type.sizemask_toNat range
  | false => exact castSigned_within type.sizemask_toNat type.width_pos type.width_le range

theorem intRangeFromType_ends (type : IntType) :
    (intRangeFromType type).imin.toInt = type.lowest ∧
      (intRangeFromType type).imax.toInt = type.highest := by
  have one := Nat.one_le_two_pow (n := type.width)
  unfold intRangeFromType IntType.lowest IntType.highest
  dsimp only
  cases type.isUnsigned with
  | true =>
    refine ⟨rfl, ?_⟩
    show (ofValue type.sizemask).toInt = 2 ^ type.width - 1
    rw [toInt_ofValue, type.sizemask_toNat, Nat.cast_sub one]
    push_cast
    rfl
  | false => exact signed_ends type.sizemask_toNat type.width_pos type.width_le

theorem intRangeFromType_contains (type : IntType) (x : Int) :
    (intRangeFromType type).Contains (type.wrap x) := by
  unfold Contains
  rw [(intRangeFromType_ends type).1, (intRangeFromType_ends type).2]
  exact type.wrap_bounds x

theorem intRangeFromType_within (type : IntType) : (intRangeFromType type).Within type :=
  ⟨(intRangeFromType_ends type).1.ge, (intRangeFromType_ends type).2.le⟩

end IntRange

/-! ### Expressions -/

/-- The operators whose operands have the type of the node. -/
inductive BinaryOp where
  | add | min | mul | div | mod | and | or | xor
  deriving Repr, DecidableEq

/-- The shifts: only the left operand has the type of the node. -/
inductive ShiftOp where
  | leftShift | rightShift | unsignedRightShift
  deriving Repr, DecidableEq

/-- Integer expressions of a type. -/
inductive Expression : IntType → Type where
  | int64 {type : IntType} (value : BitVec 64) : Expression type
  | var {type : IntType} (name : Nat) : Expression type
  | cast {source type : IntType} (e1 : Expression source) : Expression type
  | binary {type : IntType} (op : BinaryOp) (e1 e2 : Expression type) : Expression type
  | shift {type count : IntType} (op : ShiftOp) (e1 : Expression type) (e2 : Expression count) :
      Expression type
  | tilde {type : IntType} (e1 : Expression type) : Expression type
  | negate {type : IntType} (e1 : Expression type) : Expression type
  | question {condition type : IntType} (econd : Expression condition)
      (e1 e2 : Expression type) : Expression type
  | comma {first type : IntType} (e1 : Expression first) (e2 : Expression type) : Expression type

/-- The bits of a machine value. -/
def bits (x : Int) : BitVec 64 := BitVec.ofInt 64 x

/-- What the machine computes for an operator, or nothing where it is not defined. -/
def BinaryOp.apply (op : BinaryOp) (type : IntType) (x y : Int) : Option Int :=
  match op with
  | .add => some (type.wrap (x + y))
  | .min => some (type.wrap (x - y))
  | .mul => some (type.wrap (x * y))
  | .div => if y = 0 then none else some (type.wrap (x.tdiv y))
  | .mod => if y = 0 then none else some (type.wrap (x.tmod y))
  | .and => some (type.wrap (bits x &&& bits y).toNat)
  | .or => some (type.wrap (bits x ||| bits y).toNat)
  | .xor => some (type.wrap (bits x ^^^ bits y).toNat)

/-- What the machine computes for a shift, when the count is within the operand's width. -/
def ShiftOp.apply (op : ShiftOp) (type : IntType) (x y : Int) : Option Int :=
  if 0 ≤ y ∧ y < type.width then
    match op with
    | .leftShift => some (type.wrap (x * 2 ^ y.toNat))
    | .rightShift => some (type.wrap (x / 2 ^ y.toNat))
    | .unsignedRightShift => some (type.wrap (x % 2 ^ type.width / 2 ^ y.toNat))
  else none

/-- The range of a node with operands of its type: `visitAdd` to `visitXor`. A remainder by
zero alone is any value of the type. -/
def BinaryOp.range (op : BinaryOp) (type : IntType) (ir1 ir2 : IntRange) : IntRange :=
  match op with
  | .add => (ir1.add ir2)._cast type
  | .min => (ir1.sub ir2)._cast type
  | .mul => (ir1.mul ir2)._cast type
  | .div => (ir1.div ir2)._cast type
  | .mod =>
    if !ir2.absNeg.imin.negative then IntRange.intRangeFromType type
    else (ir1.mod ir2)._cast type
  | .and => (ir1.and ir2)._cast type
  | .or => (ir1.or ir2)._cast type
  | .xor => (ir1.xor ir2)._cast type

/-- The range of a shift: `visitShl`, `visitShr` and `visitUshr`. -/
def ShiftOp.range (op : ShiftOp) (type : IntType) (ir1 ir2 : IntRange) : IntRange :=
  match op with
  | .leftShift => (ir1.shl ir2)._cast type
  | .rightShift => (ir1.shr ir2)._cast type
  | .unsignedRightShift => ((ir1.castUnsigned type.sizemask).ushr ir2)._cast type

namespace Expression

/-- The value of an expression in a memory of variables. Only the branch the condition
chooses is evaluated. -/
def eval (memory : Nat → BitVec 64) : {type : IntType} → Expression type → Option Int
  | type, .int64 value => some (type.wrap value.toNat)
  | type, .var name => some (type.wrap (memory name).toNat)
  | type, .cast e1 => do
    let x ← e1.eval memory
    return type.wrap x
  | type, .binary op e1 e2 => do
    let x ← e1.eval memory
    let y ← e2.eval memory
    op.apply type x y
  | type, .shift op e1 e2 => do
    let x ← e1.eval memory
    let y ← e2.eval memory
    op.apply type x y
  | type, .tilde e1 => do
    let x ← e1.eval memory
    return type.wrap (-x - 1)
  | type, .negate e1 => do
    let x ← e1.eval memory
    return type.wrap (-x)
  | _, .question econd e1 e2 => do
    let condition ← econd.eval memory
    if condition ≠ 0 then e1.eval memory else e2.eval memory
  | _, .comma e1 e2 => do
    let _ ← e1.eval memory
    e2.eval memory

/-- The range of an expression. -/
def getIntRange : {type : IntType} → Expression type → IntRange
  | type, .int64 value => (IntRange.single (ofValue value))._cast type
  | type, .var _ => IntRange.intRangeFromType type
  | type, .cast e1 => e1.getIntRange._cast type
  | type, .binary op e1 e2 => op.range type e1.getIntRange e2.getIntRange
  | type, .shift op e1 e2 => op.range type e1.getIntRange e2.getIntRange
  | type, .tilde e1 =>
    let ir := e1.getIntRange
    IntRange._cast
      { imin := { value := ~~~ir.imax.value, negative := !ir.imax.negative },
        imax := { value := ~~~ir.imin.value, negative := !ir.imin.negative } } type
  | type, .negate e1 => e1.getIntRange.neg._cast type
  | type, .question _ e1 e2 => (e1.getIntRange.unionWith e2.getIntRange)._cast type
  | _, .comma _ e2 => e2.getIntRange

/-- A value can be narrowed to a type without a cast: `implicitConvTo` finds the type's
range around the range of the expression. -/
def narrowsTo {type : IntType} (e : Expression type) (target : IntType) : Bool :=
  (IntRange.intRangeFromType target).contains e.getIntRange

end Expression

/-! ### Soundness of a node -/

/-- The exact result of an operator that can saturate is a 65-bit number: a sum of unsigned
64-bit numbers or a product of 64-bit numbers. -/
def BinaryOp.Fits (op : BinaryOp) (type : IntType) (x y : Int) : Prop :=
  match op with
  | .add => type = .uns64 → IntRange.Fits (x + y)
  | .mul => type.width = 64 → IntRange.Fits (x * y)
  | _ => True

/-- The exact result of a left shift of a 64-bit number is a 65-bit number. -/
def ShiftOp.Fits (op : ShiftOp) (type : IntType) (x y : Int) : Prop :=
  match op with
  | .leftShift => type.width = 64 → IntRange.Fits (x * 2 ^ y.toNat)
  | _ => True

/-- A machine value as a 65-bit number. -/
def extended (x : Int) : SignExtendedNumber := { value := bits x, negative := decide (x < 0) }

theorem extended_toInt {x : Int} (fits : IntRange.Fits x) : (extended x).toInt = x := by
  obtain ⟨lower, upper⟩ := fits
  unfold extended bits toInt
  rw [BitVec.toNat_ofInt]
  dsimp only
  by_cases negative : x < 0
  · rw [decide_eq_true negative, if_pos rfl]
    omega
  · rw [decide_eq_false negative, if_neg Bool.false_ne_true]
    omega

section Nodes

variable {type : IntType} {ir1 ir2 : IntRange} {x y : Int}

theorem IntRange.Within.value (within : ir1.Within type) (inside : ir1.Contains x) :
    type.lowest ≤ x ∧ x ≤ type.highest :=
  ⟨Int.le_trans within.1 inside.1, Int.le_trans inside.2 within.2⟩

theorem IntRange.Within.fits (within : ir1.Within type) (inside : ir1.Contains x) :
    IntRange.Fits x := by
  obtain ⟨lower, upper⟩ := within.value inside
  have low := type.lowest_ge
  have high := type.highest_lt
  unfold IntRange.Fits
  omega

theorem IntRange.Within.bounded (within : ir1.Within type) : -2 ^ 63 ≤ ir1.imin.toInt :=
  Int.le_trans type.lowest_ge within.1

/-- A negative lower end is that of a 64-bit signed number. -/
theorem IntRange.Within.large (within : ir1.Within type) (sign : ir1.imin.negative = true) :
    2 ^ 63 ≤ ir1.imin.value.toNat := by
  have low := within.bounded
  unfold toInt at low
  rw [sign, if_pos rfl] at low
  omega

theorem IntRange.Within.not_smallest (within : ir1.Within type) : ir1.Bounded := by
  intro sign zero
  have low := within.large sign
  rw [zero] at low
  exact absurd low (by decide)

/-- The ends of a type decide whether a range is nonnegative or of 63-bit numbers. -/
theorem IntRange.Within.unsigned_or_signed (within : ir1.Within type) :
    type.lowest = 0 ∧ ir1.imin.negative = false ∨
      type.highest < 2 ^ 63 ∧ ir1.imax.toInt < 2 ^ 63 := by
  rcases type.unsigned_or_signed with unsigned | signed
  · refine Or.inl ⟨unsigned, ?_⟩
    have low := within.1
    rw [negative_eq, decide_eq_false_iff_not]
    omega
  · exact Or.inr ⟨signed, Int.lt_of_le_of_lt within.2 signed⟩

/-- A sum fits at any type but the unsigned 64-bit one. -/
theorem add_fits (xBounds : type.lowest ≤ x ∧ x ≤ type.highest)
    (yBounds : type.lowest ≤ y ∧ y ≤ type.highest) (wide : type = .uns64 → IntRange.Fits (x + y)) :
    IntRange.Fits (x + y) := by
  by_cases unsigned : type = .uns64
  · exact wide unsigned
  · have high : type.highest < 2 ^ 63 := by
      revert unsigned
      cases type <;> decide
    have low := type.lowest_ge
    unfold IntRange.Fits
    omega

/-- A value of a type of at most 32 bits. -/
theorem IntType.abs_lt (narrow : type.width ≠ 64) (bounds : type.lowest ≤ x ∧ x ≤ type.highest) :
    |x| ≤ 2 ^ 32 - 1 := by
  have ends : -(2 ^ 32 - 1) ≤ type.lowest ∧ type.highest ≤ 2 ^ 32 - 1 := by
    revert narrow
    cases type <;> decide
  exact abs_le.mpr ⟨by omega, by omega⟩

/-- A product fits at any type of at most 32 bits. -/
theorem mul_fits (xBounds : type.lowest ≤ x ∧ x ≤ type.highest)
    (yBounds : type.lowest ≤ y ∧ y ≤ type.highest)
    (wide : type.width = 64 → IntRange.Fits (x * y)) : IntRange.Fits (x * y) := by
  by_cases full : type.width = 64
  · exact wide full
  · have product : |x * y| ≤ (2 ^ 32 - 1) * (2 ^ 32 - 1) := by
      rw [abs_mul]
      exact mul_le_mul (IntType.abs_lt full xBounds) (IntType.abs_lt full yBounds) (abs_nonneg y)
        (by decide)
    obtain ⟨lower, upper⟩ := abs_le.mp product
    unfold IntRange.Fits
    omega

/-- A left shift fits at any type of at most 32 bits. -/
theorem shl_fits (xBounds : type.lowest ≤ x ∧ x ≤ type.highest) (count : y < type.width)
    (wide : type.width = 64 → IntRange.Fits (x * 2 ^ y.toNat)) :
    IntRange.Fits (x * 2 ^ y.toNat) := by
  by_cases full : type.width = 64
  · exact wide full
  · have small : y.toNat ≤ 31 := by
      have width : type.width ≤ 32 := by
        revert full
        cases type <;> decide
      omega
    have product : |x * 2 ^ y.toNat| ≤ (2 ^ 32 - 1) * 2 ^ 31 := by
      rw [abs_mul, abs_of_pos (IntRange.two_pow_positive y.toNat)]
      exact mul_le_mul (IntType.abs_lt full xBounds) (IntRange.two_pow_le small)
        (IntRange.two_pow_positive _).le (by decide)
    obtain ⟨lower, upper⟩ := abs_le.mp product
    unfold IntRange.Fits
    omega

/-- A bitwise operator on machine values is that on the extended numbers, wrapped. -/
theorem wrap_bits (type : IntType) (number : SignExtendedNumber) {value : BitVec 64}
    (same : number.value = value) : type.wrap value.toNat = type.wrap number.toInt := by
  rw [type.wrap_toInt, same]

theorem BinaryOp.range_contains {op : BinaryOp} {value : Int}
    (within1 : ir1.Within type) (within2 : ir2.Within type) (inside1 : ir1.Contains x)
    (inside2 : ir2.Contains y) (applied : op.apply type x y = some value)
    (fits : op.Fits type x y) : (op.range type ir1 ir2).Contains value := by
  have xFits := within1.fits inside1
  have yFits := within2.fits inside2
  have extended1 : ir1.Contains (extended x).toInt := by rwa [extended_toInt xFits]
  have extended2 : ir2.Contains (extended y).toInt := by rwa [extended_toInt yFits]
  cases op with
  | add =>
    obtain rfl := Option.some.inj applied
    exact IntRange.cast_contains type (IntRange.add_contains inside1 inside2
      (add_fits (within1.value inside1) (within2.value inside2) fits))
  | min =>
    obtain rfl := Option.some.inj applied
    refine IntRange.cast_contains type (IntRange.sub_contains inside1 inside2 ?_)
    obtain ⟨xLower, xUpper⟩ := within1.value inside1
    obtain ⟨yLower, yUpper⟩ := within2.value inside2
    have low := type.lowest_ge
    have high := type.highest_lt
    unfold IntRange.Fits
    rcases type.unsigned_or_signed with unsigned | signed
    · omega
    · omega
  | mul =>
    obtain rfl := Option.some.inj applied
    exact IntRange.cast_contains type (IntRange.mul_contains inside1 inside2
      (mul_fits (within1.value inside1) (within2.value inside2) fits))
  | div =>
    by_cases zero : y = 0
    · exact absurd ((if_pos zero).symm.trans applied) (Option.some_ne_none value).symm
    · obtain rfl := Option.some.inj ((if_neg zero).symm.trans applied)
      exact IntRange.cast_contains type
        (IntRange.div_contains inside1 inside2 zero within1.bounded within2.bounded)
  | mod =>
    by_cases zero : y = 0
    · exact absurd ((if_pos zero).symm.trans applied) (Option.some_ne_none value).symm
    · obtain rfl := Option.some.inj ((if_neg zero).symm.trans applied)
      unfold BinaryOp.range
      dsimp only
      split_ifs
      · exact IntRange.intRangeFromType_contains type _
      · exact IntRange.cast_contains type
          (IntRange.mod_contains inside1 inside2 zero within2.bounded)
  | and =>
    obtain rfl := Option.some.inj applied
    rw [show type.wrap (bits x &&& bits y).toNat =
      type.wrap (IntRange.bitAnd (extended x) (extended y)).toInt from wrap_bits type _ rfl]
    exact IntRange.cast_contains type (IntRange.and_contains extended1 extended2
      (IntRange.meet_of_top fun sign1 sign2 => ⟨within1.large sign1, within2.large sign2⟩))
  | or =>
    obtain rfl := Option.some.inj applied
    rw [show type.wrap (bits x ||| bits y).toNat =
      type.wrap (IntRange.bitOr (extended x) (extended y)).toInt from wrap_bits type _ rfl]
    exact IntRange.cast_contains type (IntRange.or_contains extended1 extended2
      (Or.inr (within1.not_smallest.orAboveMin within2.not_smallest)))
  | xor =>
    obtain rfl := Option.some.inj applied
    rw [show type.wrap (bits x ^^^ bits y).toNat =
      type.wrap (IntRange.bitXor (extended x) (extended y)).toInt from wrap_bits type _ rfl]
    refine IntRange.cast_contains type ?_
    rcases within1.unsigned_or_signed with ⟨low, sign1⟩ | ⟨high, top1⟩
    · have bottom := within2.1
      have sign2 : ir2.imin.negative = false := by
        rw [negative_eq, decide_eq_false_iff_not]
        omega
      exact IntRange.xor_contains_unsigned extended1 extended2 sign1 sign2
    · exact IntRange.xor_contains_signed extended1 extended2 within1.bounded top1 within2.bounded
        (Int.lt_of_le_of_lt within2.2 high)

theorem ShiftOp.range_contains {op : ShiftOp} {value : Int} (within1 : ir1.Within type)
    (inside1 : ir1.Contains x) (inside2 : ir2.Contains y) (applied : op.apply type x y = some value) (fits : op.Fits type x y) :
    (op.range type ir1 ir2).Contains value := by
  unfold ShiftOp.apply at applied
  by_cases count : 0 ≤ y ∧ y < type.width
  · rw [if_pos count] at applied
    have small : y ≤ 64 := by
      have := type.width_le
      omega
    cases op with
    | leftShift =>
      obtain rfl := Option.some.inj applied
      exact IntRange.cast_contains type
        (IntRange.shl_contains inside1 inside2 count.1 small
          (shl_fits (within1.value inside1) count.2 fits))
    | rightShift =>
      obtain rfl := Option.some.inj applied
      exact IntRange.cast_contains type (IntRange.shr_contains inside1 inside2 count.1 small)
    | unsignedRightShift =>
      obtain rfl := Option.some.inj applied
      exact IntRange.cast_contains type (IntRange.ushr_contains
        (IntRange.castUnsigned_contains type.sizemask_toNat type.width_le inside1) inside2 count.1
        small (IntRange.castUnsigned_within type.sizemask_toNat ir1).1)
  · rw [if_neg count] at applied
    cases applied

theorem tilde_contains (inside : ir1.Contains x) :
    (IntRange._cast
      { imin := { value := ~~~ir1.imax.value, negative := !ir1.imax.negative },
        imax := { value := ~~~ir1.imin.value, negative := !ir1.imin.negative } } type).Contains
      (type.wrap (-x - 1)) := by
  refine IntRange.cast_contains type ?_
  unfold IntRange.Contains
  have low := IntRange.flip_toInt ir1.imax
  have high := IntRange.flip_toInt ir1.imin
  unfold IntRange.flip at low high
  dsimp only
  rw [low, high]
  have := inside.1
  have := inside.2
  omega

end Nodes

/-! ### Soundness of an expression -/

namespace Expression

/-- At every evaluated node whose value matters, the exact result of an operator that can
saturate is a 65-bit number. -/
def Exact (memory : Nat → BitVec 64) : {type : IntType} → Expression type → Prop
  | _, .int64 _ => True
  | _, .var _ => True
  | _, .cast e1 => e1.Exact memory
  | type, .binary op e1 e2 => e1.Exact memory ∧ e2.Exact memory ∧
      ∀ x y, e1.eval memory = some x → e2.eval memory = some y → op.Fits type x y
  | type, .shift op e1 e2 => e1.Exact memory ∧ e2.Exact memory ∧
      ∀ x y, e1.eval memory = some x → e2.eval memory = some y → op.Fits type x y
  | _, .tilde e1 => e1.Exact memory
  | _, .negate e1 => e1.Exact memory
  | _, .question econd e1 e2 => ∀ condition, econd.eval memory = some condition →
      (condition ≠ 0 → e1.Exact memory) ∧ (condition = 0 → e2.Exact memory)
  | _, .comma _ e2 => e2.Exact memory

/-- The range of an expression is within its type. -/
theorem getIntRange_within {type : IntType} (e : Expression type) : e.getIntRange.Within type := by
  induction e with
  | int64 value => exact IntRange.cast_within _ _
  | var name => exact IntRange.intRangeFromType_within _
  | cast e1 _ => exact IntRange.cast_within _ _
  | binary op e1 e2 _ _ =>
    unfold getIntRange
    cases op with
    | mod =>
      unfold BinaryOp.range
      dsimp only
      split_ifs
      · exact IntRange.intRangeFromType_within _
      · exact IntRange.cast_within _ _
    | _ => exact IntRange.cast_within _ _
  | shift op e1 e2 _ _ => cases op <;> exact IntRange.cast_within _ _
  | tilde e1 _ => exact IntRange.cast_within _ _
  | negate e1 _ => exact IntRange.cast_within _ _
  | question econd e1 e2 _ _ _ => exact IntRange.cast_within _ _
  | comma e1 e2 _ inductionHypothesis => exact inductionHypothesis

/-- The value of an expression is in its range. -/
theorem getIntRange_contains {memory : Nat → BitVec 64} {type : IntType} (e : Expression type) :
    ∀ {value : Int}, e.eval memory = some value → e.Exact memory →
      e.getIntRange.Contains value := by
  induction e with
  | int64 literal =>
    intro value evaluated _
    obtain rfl := Option.some.inj evaluated
    refine IntRange.cast_contains _ ?_
    rw [← toInt_ofValue]
    exact ⟨Int.le_refl _, Int.le_refl _⟩
  | var name =>
    intro value evaluated _
    obtain rfl := Option.some.inj evaluated
    exact IntRange.intRangeFromType_contains _ _
  | cast e1 inductionHypothesis =>
    intro value evaluated exact
    obtain ⟨x, operand, wrapped⟩ := Option.bind_eq_some_iff.mp evaluated
    obtain rfl := Option.some.inj wrapped
    exact IntRange.cast_contains _ (inductionHypothesis operand exact)
  | binary op e1 e2 firstHypothesis secondHypothesis =>
    intro value evaluated exact
    obtain ⟨x, first, evaluated⟩ := Option.bind_eq_some_iff.mp evaluated
    obtain ⟨y, second, applied⟩ := Option.bind_eq_some_iff.mp evaluated
    exact BinaryOp.range_contains e1.getIntRange_within e2.getIntRange_within
      (firstHypothesis first exact.1) (secondHypothesis second exact.2.1) applied
      (exact.2.2 x y first second)
  | shift op e1 e2 firstHypothesis secondHypothesis =>
    intro value evaluated exact
    obtain ⟨x, first, evaluated⟩ := Option.bind_eq_some_iff.mp evaluated
    obtain ⟨y, second, applied⟩ := Option.bind_eq_some_iff.mp evaluated
    exact ShiftOp.range_contains e1.getIntRange_within (firstHypothesis first exact.1)
      (secondHypothesis second exact.2.1) applied (exact.2.2 x y first second)
  | tilde e1 inductionHypothesis =>
    intro value evaluated exact
    obtain ⟨x, operand, wrapped⟩ := Option.bind_eq_some_iff.mp evaluated
    obtain rfl := Option.some.inj wrapped
    exact tilde_contains (inductionHypothesis operand exact)
  | @negate type e1 inductionHypothesis =>
    intro value evaluated exact
    obtain ⟨x, operand, wrapped⟩ := Option.bind_eq_some_iff.mp evaluated
    obtain rfl := Option.some.inj wrapped
    have inside := inductionHypothesis operand exact
    obtain ⟨lower, upper⟩ := e1.getIntRange_within.value inside
    have low := type.lowest_ge
    have high := type.highest_lt
    refine IntRange.cast_contains _ (IntRange.neg_contains inside ?_)
    unfold IntRange.Fits
    omega
  | @question _ type econd e1 e2 _ firstHypothesis secondHypothesis =>
    intro value evaluated exact
    obtain ⟨condition, decided, branch⟩ := Option.bind_eq_some_iff.mp evaluated
    obtain ⟨firstExact, secondExact⟩ := exact condition decided
    by_cases holds : condition ≠ 0
    · rw [if_pos holds] at branch
      have inside := firstHypothesis branch (firstExact holds)
      obtain ⟨lower, upper⟩ := e1.getIntRange_within.value inside
      rw [← IntType.wrap_of_mem lower upper]
      exact IntRange.cast_contains _ (IntRange.unionWith_contains (Or.inl inside))
    · rw [if_neg holds] at branch
      have inside := secondHypothesis branch (secondExact (not_not.mp holds))
      obtain ⟨lower, upper⟩ := e2.getIntRange_within.value inside
      rw [← IntType.wrap_of_mem lower upper]
      exact IntRange.cast_contains _ (IntRange.unionWith_contains (Or.inr inside))
  | comma e1 e2 _ inductionHypothesis =>
    intro value evaluated exact
    obtain ⟨_, _, second⟩ := Option.bind_eq_some_iff.mp evaluated
    exact inductionHypothesis second exact

/-- Value range propagation is sound wherever no unsigned 64-bit sum and no 64-bit product or
left shift that the value depends on has an exact result outside the 65-bit numbers: the
value is between the ends of the range, and a narrowing the range allows keeps it. -/
theorem getIntRange_sound {memory : Nat → BitVec 64} {type : IntType} (e : Expression type)
    {value : Int} (evaluated : e.eval memory = some value) (exact : e.Exact memory) :
    e.getIntRange.imin.toInt ≤ value ∧ value ≤ e.getIntRange.imax.toInt ∧
      ∀ target : IntType, e.narrowsTo target = true → target.wrap value = value := by
  obtain ⟨lower, upper⟩ := e.getIntRange_contains evaluated exact
  refine ⟨lower, upper, fun target narrows => ?_⟩
  obtain ⟨low, high⟩ := (IntRange.contains_iff _ _).mp narrows
  rw [(IntRange.intRangeFromType_ends target).1] at low
  rw [(IntRange.intRangeFromType_ends target).2] at high
  exact IntType.wrap_of_mem (Int.le_trans low lower) (Int.le_trans upper high)

/-- `(x & 7UL) + 1UL`, with its range from 1 to 8. -/
def lowBitsPlusOne : Expression .uns64 :=
  .binary .add (.binary .and (.var 0) (.int64 7)) (.int64 1)

theorem getIntRange_sound_low_bits :
    lowBitsPlusOne.eval (fun _ => BitVec.allOnes 64) = some 8 ∧
      lowBitsPlusOne.getIntRange.imin.toInt ≤ 8 ∧ 8 ≤ lowBitsPlusOne.getIntRange.imax.toInt ∧
      ∀ target : IntType, lowBitsPlusOne.narrowsTo target = true → target.wrap 8 = 8 := by
  have evaluated : lowBitsPlusOne.eval (fun _ => BitVec.allOnes 64) = some 8 := by
    decide +kernel
  refine ⟨evaluated, getIntRange_sound lowBitsPlusOne evaluated ⟨⟨trivial, trivial, ?_⟩, trivial, ?_⟩⟩
  · exact fun _ _ _ _ => trivial
  · intro x y first second _
    have left : x = 7 := Option.some.inj (first.symm.trans (by decide +kernel))
    have right : y = 1 := Option.some.inj (second.symm.trans (by decide +kernel))
    rw [left, right]
    exact ⟨by decide, by decide⟩

/-- `ulong.max - ((x | 1UL << 63) + (y | 1UL << 63))`: the sum saturates. -/
def saturated : Expression .uns64 :=
  .binary .min (.int64 (BitVec.allOnes 64))
    (.binary .add (.binary .or (.var 0) (.int64 (1 <<< 63)))
      (.binary .or (.var 1) (.int64 (1 <<< 63))))

/-- The sum of two numbers with the top bit set wraps to zero, while its range is the largest
number alone; the difference is the largest number, while its range is zero alone, so it may
be narrowed to eight bits, and loses 56. -/
theorem saturated_narrows :
    saturated.eval (fun _ => 0) = some (2 ^ 64 - 1) ∧
      saturated.getIntRange.imax.toInt = 0 ∧ saturated.narrowsTo .uns8 = true ∧
      IntType.wrap .uns8 (2 ^ 64 - 1) = 255 := by
  decide +kernel

end Expression

end LaserD.Vrp
