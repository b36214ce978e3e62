/-
This file models the 65-bit numbers of `dmd.intrange`: a 64-bit value and a sign
that stands for the bits above it.

Addition, subtraction, negation, multiplication and the shifts saturate: each
returns the exact integer clamped to the 65-bit numbers. Division is exact for a
dividend other than the smallest number. Every comparison, and so every bound of
a range, is about the integer a number stands for.
-/

import Mathlib.Data.Int.Order.Basic
import Mathlib.Data.Nat.Bitwise
import Mathlib.Data.Nat.Log
import Mathlib.Algebra.Order.Group.Unbundled.Int
import Mathlib.Tactic.Linarith
import Mathlib.Tactic.Ring

namespace LaserD.Vrp

/-! ### The numbers -/

/-- A 64-bit value with the sign that extends it. -/
structure SignExtendedNumber where
  value : BitVec 64
  negative : Bool
  deriving Repr, DecidableEq

namespace SignExtendedNumber

/-- The integer a number stands for. -/
def toInt (number : SignExtendedNumber) : Int :=
  number.value.toNat - if number.negative then 2 ^ 64 else 0

/-- A number from an unsigned value. -/
def ofValue (value : BitVec 64) : SignExtendedNumber := { value := value, negative := false }

/-- `copySign`: the value, negated when the sign is set. -/
def copySign (value : BitVec 64) (sign : Bool) : BitVec 64 :=
  if sign then (value - 1) ^^^ BitVec.allOnes 64 else value

/-- The smallest or the largest number. -/
def extreme (minimum : Bool) : SignExtendedNumber :=
  { value := if minimum then 0 else BitVec.allOnes 64, negative := minimum }

/-- The largest number. -/
def max : SignExtendedNumber := { value := BitVec.allOnes 64, negative := false }

/-- The smallest number. -/
def min : SignExtendedNumber := { value := 0, negative := true }

/-- Whether a number is the smallest. -/
def isMinimum (number : SignExtendedNumber) : Bool := number.negative && number.value == 0

/-- The comparison: `opCmp(a) < 0`. -/
def lt (first second : SignExtendedNumber) : Bool :=
  if first.negative ≠ second.negative then first.negative else first.value < second.value

/-- Complement. -/
def complement (number : SignExtendedNumber) : SignExtendedNumber :=
  if ~~~number.value = 0 then ofValue (~~~number.value)
  else { value := ~~~number.value, negative := !number.negative }

/-- Negation. -/
def neg (number : SignExtendedNumber) : SignExtendedNumber :=
  if number.value = 0 then ofValue (if number.negative then BitVec.allOnes 64 else 0)
  else { value := -number.value, negative := !number.negative }

/-- Addition. -/
def add (first second : SignExtendedNumber) : SignExtendedNumber :=
  let sum := first.value + second.value
  let carry := decide (sum < first.value) && decide (sum < second.value)
  if first.negative ≠ second.negative then { value := sum, negative := !carry }
  else if first.negative then { value := if carry then sum else 0, negative := true }
  else { value := if carry then BitVec.allOnes 64 else sum, negative := false }

/-- Subtraction. -/
def sub (first second : SignExtendedNumber) : SignExtendedNumber :=
  if second.isMinimum then
    if first.negative then { value := first.value, negative := false } else max
  else first.add second.neg

/-- The product with a factor whose value is zero. -/
def mulZero (zero other : SignExtendedNumber) : SignExtendedNumber :=
  if !zero.negative then zero
  else if other.negative then max
  else if other.value = 0 then other else zero

/-- Multiplication. -/
def mul (first second : SignExtendedNumber) : SignExtendedNumber :=
  if first.value = 0 then mulZero first second
  else if second.value = 0 then mulZero second first
  else
    let tAbs := copySign first.value first.negative
    let aAbs := copySign second.value second.negative
    let negative := first.negative != second.negative
    if BitVec.allOnes 64 / tAbs < aAbs then
      { value := if negative then 0 else BitVec.allOnes 64, negative := negative }
    else { value := copySign (tAbs * aAbs) negative, negative := negative }

/-- The bits of a power of two reversed: `2 ^ 64 / aAbs` for a power of two above one. -/
def reverseBits (aAbs : BitVec 64) : BitVec 64 :=
  let aAbs := aAbs >>> 1
  let value : BitVec 64 := 1 <<< 63
  let value := if aAbs &&& 0xAAAAAAAAAAAAAAAA#64 ≠ 0 then value >>> 1 else value
  let value := if aAbs &&& 0xCCCCCCCCCCCCCCCC#64 ≠ 0 then value >>> 2 else value
  let value := if aAbs &&& 0xF0F0F0F0F0F0F0F0#64 ≠ 0 then value >>> 4 else value
  let value := if aAbs &&& 0xFF00FF00FF00FF00#64 ≠ 0 then value >>> 8 else value
  let value := if aAbs &&& 0xFFFF0000FFFF0000#64 ≠ 0 then value >>> 16 else value
  if aAbs &&& 0xFFFFFFFF00000000#64 ≠ 0 then value >>> 32 else value

/-- Division. -/
def div (first second : SignExtendedNumber) : SignExtendedNumber :=
  if second.value = 0 then
    if second.negative then
      ofValue (if first.value = 0 ∧ first.negative = true then 1 else 0)
    else extreme first.negative
  else
    let aAbs := copySign second.value second.negative
    let finish (value : BitVec 64) : SignExtendedNumber :=
      let negative := first.negative != second.negative
      let value := copySign value negative
      { value := value, negative := value != 0 && negative }
    if !first.isMinimum then finish (copySign first.value first.negative / aAbs)
    else if aAbs &&& (aAbs - 1) ≠ 0 then finish (BitVec.allOnes 64 / aAbs)
    else if aAbs = 1 then extreme (!second.negative)
    else finish (reverseBits aAbs)

/-- The base-2 logarithm of a positive value, as the left shift computes it. -/
def log2 (v : BitVec 64) : Nat :=
  let r := if v > 0xFFFFFFFF#64 then 32 else 0
  let v := v >>> r
  let s := if v > 0xFFFF#64 then 16 else 0
  let v := v >>> s
  let r := r ||| s
  let s := if v > 0xFF#64 then 8 else 0
  let v := v >>> s
  let r := r ||| s
  let s := if v > 0xF#64 then 4 else 0
  let v := v >>> s
  let r := r ||| s
  let s := if v > 0x3#64 then 2 else 0
  let v := v >>> s
  let r := r ||| s
  r ||| (v >>> 1).toNat

/-- Left shift. -/
def shl (first second : SignExtendedNumber) : SignExtendedNumber :=
  if first.value = 0 then first
  else if second.negative then extreme first.negative
  else
    let allowableShift := 63 - log2 (copySign first.value first.negative)
    if second.value.toNat > allowableShift then extreme first.negative
    else { value := first.value <<< second.value.toNat, negative := first.negative }

/-- Right shift. -/
def shr (first second : SignExtendedNumber) : SignExtendedNumber :=
  if second.negative = true ∨ second.value.toNat > 63 then
    if first.negative then { value := BitVec.allOnes 64, negative := true } else ofValue 0
  else if first.isMinimum then
    if second.value = 0 then first
    else { value := BitVec.allOnes 64 <<< (64 - second.value.toNat), negative := true }
  else
    let mask := if first.negative then BitVec.allOnes 64 else 0
    { value := ((first.value ^^^ mask) >>> second.value.toNat) ^^^ mask,
      negative := first.negative }

/-! ### What the numbers stand for -/

/-- An integer clamped to the numbers. -/
def clamp (x : Int) : Int := Max.max (-2 ^ 64) (Min.min x (2 ^ 64 - 1))

theorem clamp_of_mem {x : Int} (lower : -2 ^ 64 ≤ x) (upper : x ≤ 2 ^ 64 - 1) : clamp x = x := by
  unfold clamp
  omega

theorem clamp_le_clamp {x y : Int} (le : x ≤ y) : clamp x ≤ clamp y := by
  unfold clamp
  omega

theorem toInt_mk (value : BitVec 64) (negative : Bool) :
    toInt { value := value, negative := negative } =
      value.toNat - if negative then 2 ^ 64 else 0 := rfl

@[simp] theorem toInt_positive (value : BitVec 64) :
    toInt { value := value, negative := false } = value.toNat := by
  rw [toInt_mk, if_neg Bool.false_ne_true, Int.sub_zero]

@[simp] theorem toInt_negative (value : BitVec 64) :
    toInt { value := value, negative := true } = value.toNat - 2 ^ 64 := by
  rw [toInt_mk, if_pos rfl]

@[simp] theorem toInt_ofValue (value : BitVec 64) : (ofValue value).toInt = value.toNat :=
  toInt_positive value

theorem allOnes_toNat : (BitVec.allOnes 64).toNat = 2 ^ 64 - 1 := BitVec.toNat_allOnes

/-- The numbers are those from `-2 ^ 64` to `2 ^ 64 - 1`. -/
theorem toInt_bounds (number : SignExtendedNumber) :
    -2 ^ 64 ≤ number.toInt ∧ number.toInt ≤ 2 ^ 64 - 1 := by
  have bound := number.value.isLt
  obtain ⟨value, _ | _⟩ := number
  · rw [toInt_positive]
    omega
  · rw [toInt_negative]
    omega

theorem lt_iff (first second : SignExtendedNumber) :
    lt first second = true ↔ first.toInt < second.toInt := by
  have firstBound := first.value.isLt
  have secondBound := second.value.isLt
  obtain ⟨value, _ | _⟩ := first <;> obtain ⟨other, _ | _⟩ := second <;>
    simp only [lt, toInt_positive, toInt_negative, ne_eq, not_true_eq_false, if_false,
      Bool.true_eq_false, Bool.false_eq_true, not_false_eq_true, if_true, decide_eq_true_eq,
      BitVec.lt_def, true_iff, false_iff] <;>
    omega

theorem negative_iff (number : SignExtendedNumber) :
    number.negative = true ↔ number.toInt < 0 := by
  have bound := number.value.isLt
  obtain ⟨value, _ | _⟩ := number
  · rw [toInt_positive]
    exact ⟨fun impossible => Bool.noConfusion impossible, fun below => by omega⟩
  · rw [toInt_negative]
    exact ⟨fun _ => by omega, fun _ => rfl⟩

theorem isMinimum_iff (number : SignExtendedNumber) :
    number.isMinimum = true ↔ number.toInt = -2 ^ 64 := by
  have bound := number.value.isLt
  obtain ⟨value, _ | _⟩ := number
  · rw [toInt_positive]
    exact ⟨fun impossible => Bool.noConfusion impossible, fun same => by omega⟩
  · rw [toInt_negative, isMinimum, Bool.true_and, beq_iff_eq, BitVec.toNat_eq]
    show value.toNat = 0 ↔ _
    omega

/-! ### Sums and differences -/

/-- The carry of a sum. -/
theorem carry_eq (value other : BitVec 64) :
    (decide (value + other < value) && decide (value + other < other)) =
      decide (2 ^ 64 ≤ value.toNat + other.toNat) := by
  have valueBound := value.isLt
  have otherBound := other.isLt
  rw [← Bool.decide_and, decide_eq_decide, BitVec.lt_def, BitVec.lt_def, BitVec.toNat_add]
  omega

theorem add_toInt (first second : SignExtendedNumber) :
    (first.add second).toInt = clamp (first.toInt + second.toInt) := by
  obtain ⟨value, sign⟩ := first
  obtain ⟨other, otherSign⟩ := second
  have valueBound := value.isLt
  have otherBound := other.isLt
  have sum := BitVec.toNat_add value other
  unfold add clamp
  dsimp only
  rw [carry_eq]
  by_cases carry : 2 ^ 64 ≤ value.toNat + other.toNat
  · rw [decide_eq_true carry]
    cases sign <;> cases otherSign
    · simp only [ne_eq, not_true_eq_false, if_false, if_true, Bool.false_eq_true, toInt_positive,
        allOnes_toNat]
      omega
    · simp only [ne_eq, Bool.false_eq_true, not_false_eq_true, if_true, Bool.not_true,
        toInt_positive, toInt_negative]
      omega
    · simp only [ne_eq, Bool.true_eq_false, not_false_eq_true, if_true, Bool.not_true,
        toInt_positive, toInt_negative]
      omega
    · simp only [ne_eq, not_true_eq_false, if_false, if_true, toInt_negative]
      omega
  · rw [decide_eq_false carry]
    cases sign <;> cases otherSign
    · simp only [ne_eq, not_true_eq_false, if_false, Bool.false_eq_true, toInt_positive]
      omega
    · simp only [ne_eq, Bool.false_eq_true, not_false_eq_true, if_true, Bool.not_false,
        toInt_positive, toInt_negative]
      omega
    · simp only [ne_eq, Bool.true_eq_false, not_false_eq_true, if_true, Bool.not_false,
        toInt_positive, toInt_negative]
      omega
    · simp only [ne_eq, not_true_eq_false, if_false, if_true, Bool.false_eq_true, toInt_negative,
        BitVec.ofNat_eq_ofNat, BitVec.toNat_ofNat]
      omega

theorem neg_toInt (number : SignExtendedNumber) : number.neg.toInt = clamp (-number.toInt) := by
  obtain ⟨value, sign⟩ := number
  have bound := value.isLt
  have negated := BitVec.toNat_neg value
  unfold neg clamp
  dsimp only
  by_cases zero : value = 0
  · rw [if_pos zero, zero]
    cases sign
    · simp
    · rw [if_pos rfl, toInt_ofValue, toInt_negative, allOnes_toNat]
      simp
  · rw [if_neg zero]
    have positive : value.toNat ≠ 0 := fun same => zero (BitVec.eq_of_toNat_eq same)
    cases sign
    · simp only [Bool.not_false, toInt_negative, toInt_positive]
      omega
    · simp only [Bool.not_true, toInt_negative, toInt_positive]
      omega

theorem sub_toInt (first second : SignExtendedNumber) :
    (first.sub second).toInt = clamp (first.toInt - second.toInt) := by
  have firstBounds := first.toInt_bounds
  have secondBounds := second.toInt_bounds
  unfold sub
  by_cases minimum : second.isMinimum = true
  · rw [if_pos minimum, (isMinimum_iff second).mp minimum]
    have bound := first.value.isLt
    obtain ⟨value, _ | _⟩ := first
    · rw [if_neg Bool.false_ne_true, max, toInt_positive, toInt_positive, allOnes_toNat, clamp]
      omega
    · simp only [if_true, toInt_positive, toInt_negative]
      dsimp only at bound
      rw [clamp_of_mem (by omega) (by omega)]
      omega
  · rw [if_neg minimum, add_toInt, neg_toInt]
    have other : second.toInt ≠ -2 ^ 64 := fun same => minimum ((isMinimum_iff second).mpr same)
    unfold clamp
    omega

theorem complement_toInt {number : SignExtendedNumber}
    (plain : number.value ≠ BitVec.allOnes 64 ∨ number.negative = true) :
    number.complement.toInt = -number.toInt - 1 := by
  obtain ⟨value, sign⟩ := number
  have bound := value.isLt
  have complemented := BitVec.toNat_not (x := value)
  unfold complement
  dsimp only at plain ⊢
  by_cases zero : ~~~value = 0
  · have full : value = BitVec.allOnes 64 := by
      rw [← BitVec.not_not (b := value), zero]
      rfl
    rw [if_pos zero, zero, plain.resolve_left (fun different => different full), full,
      toInt_negative, toInt_ofValue, allOnes_toNat]
    simp
  · rw [if_neg zero]
    cases sign
    · simp only [Bool.not_false, toInt_negative, toInt_positive]
      omega
    · simp only [Bool.not_true, toInt_negative, toInt_positive]
      omega

/-! ### Products and quotients -/

/-- The absolute value of a number other than the smallest. -/
theorem copySign_toNat {number : SignExtendedNumber} (nonzero : number.value ≠ 0) :
    ((copySign number.value number.negative).toNat : Int) = |number.toInt| := by
  obtain ⟨value, sign⟩ := number
  have bound := value.isLt
  have positive : value.toNat ≠ 0 := fun same => nonzero (BitVec.eq_of_toNat_eq same)
  unfold copySign
  cases sign
  · rw [if_neg Bool.false_ne_true, toInt_positive]
    exact (abs_of_nonneg (Int.natCast_nonneg _)).symm
  · rw [if_pos rfl, toInt_negative, BitVec.xor_allOnes, BitVec.toNat_not, BitVec.toNat_sub]
    have one : (1 : BitVec 64).toNat = 1 := rfl
    dsimp only
    rw [one, abs_of_nonpos (by omega)]
    omega

/-- A number whose value is zero is zero or the smallest. -/
theorem toInt_of_zero {number : SignExtendedNumber} (zero : number.value = 0) :
    number.toInt = if number.negative then -2 ^ 64 else 0 := by
  obtain ⟨value, _ | _⟩ := number
  · rw [toInt_positive, show value = 0 from zero, if_neg Bool.false_ne_true]
    rfl
  · rw [toInt_negative, show value = 0 from zero, if_pos rfl]
    rfl

theorem toInt_ne_zero {number : SignExtendedNumber} (nonzero : number.value ≠ 0) :
    number.toInt ≠ 0 := by
  obtain ⟨value, sign⟩ := number
  have bound := value.isLt
  have positive : value.toNat ≠ 0 := fun same => nonzero (BitVec.eq_of_toNat_eq same)
  cases sign
  · rw [toInt_positive]
    omega
  · rw [toInt_negative]
    omega

theorem mulZero_toInt {zero other : SignExtendedNumber} (isZero : zero.value = 0) :
    (mulZero zero other).toInt = clamp (zero.toInt * other.toInt) := by
  have bounds := other.toInt_bounds
  have sign := negative_iff other
  rw [toInt_of_zero isZero]
  unfold mulZero
  by_cases negative : zero.negative = true
  · rw [negative, if_neg (by decide), if_pos rfl]
    by_cases below : other.negative = true
    · rw [if_pos below, max, toInt_positive, allOnes_toNat]
      have := sign.mp below
      unfold clamp
      omega
    · rw [if_neg below]
      have nonneg : 0 ≤ other.toInt := Int.not_lt.mp fun less => below (sign.mpr less)
      by_cases otherZero : other.value = 0
      · rw [if_pos otherZero, toInt_of_zero otherZero, if_neg below]
        rfl
      · rw [if_neg otherZero, toInt_of_zero isZero, if_pos negative]
        have := toInt_ne_zero otherZero
        unfold clamp
        omega
  · rw [if_neg negative, Bool.not_eq_true] at *
    rw [negative, Bool.not_false, if_pos rfl, toInt_of_zero isZero, negative,
      if_neg Bool.false_ne_true, Int.zero_mul]
    rfl

/-- A magnitude with a sign. -/
theorem copySign_mk_toInt (value : BitVec 64) (sign : Bool) (positive : value ≠ 0) :
    toInt { value := copySign value sign, negative := sign } =
      if sign then -(value.toNat : Int) else value.toNat := by
  have bound := value.isLt
  have nonzero : value.toNat ≠ 0 := fun same => positive (BitVec.eq_of_toNat_eq same)
  unfold copySign
  cases sign
  · simp
  · rw [if_pos rfl, if_pos rfl, toInt_negative, BitVec.xor_allOnes, BitVec.toNat_not,
      BitVec.toNat_sub]
    have one : (1 : BitVec 64).toNat = 1 := rfl
    rw [one]
    omega

/-- The sign of a product. -/
theorem mul_eq_abs (x y : Int) :
    x * y = if (decide (x < 0) != decide (y < 0)) = true then -(|x| * |y|) else |x| * |y| := by
  rcases lt_or_ge x 0 with xNeg | xPos <;> rcases lt_or_ge y 0 with yNeg | yPos
  · rw [decide_eq_true xNeg, decide_eq_true yNeg, abs_of_neg xNeg, abs_of_neg yNeg]
    simp
  · rw [decide_eq_true xNeg, decide_eq_false (not_lt.mpr yPos), abs_of_neg xNeg, abs_of_nonneg yPos]
    simp
  · rw [decide_eq_false (not_lt.mpr xPos), decide_eq_true yNeg, abs_of_nonneg xPos, abs_of_neg yNeg]
    simp
  · rw [decide_eq_false (not_lt.mpr xPos), decide_eq_false (not_lt.mpr yPos), abs_of_nonneg xPos,
      abs_of_nonneg yPos]
    simp

theorem negative_eq (number : SignExtendedNumber) :
    number.negative = decide (number.toInt < 0) := by
  rw [Bool.eq_iff_iff, decide_eq_true_eq]
  exact negative_iff number

theorem mul_toInt (first second : SignExtendedNumber) :
    (first.mul second).toInt = clamp (first.toInt * second.toInt) := by
  unfold mul
  by_cases firstZero : first.value = 0
  · rw [if_pos firstZero]
    exact mulZero_toInt firstZero
  · rw [if_neg firstZero]
    by_cases secondZero : second.value = 0
    · rw [if_pos secondZero, Int.mul_comm]
      exact mulZero_toInt secondZero
    · rw [if_neg secondZero]
      dsimp only
      have firstAbs := copySign_toNat firstZero
      have secondAbs := copySign_toNat secondZero
      have firstNonzero := toInt_ne_zero firstZero
      have secondNonzero := toInt_ne_zero secondZero
      set t := copySign first.value first.negative with tEq
      set a := copySign second.value second.negative with aEq
      rw [negative_eq first, negative_eq second, mul_eq_abs, ← firstAbs, ← secondAbs]
      generalize (decide (first.toInt < 0) != decide (second.toInt < 0)) = sign
      have tPositive : 0 < t.toNat := by
        have := abs_pos.mpr firstNonzero
        omega
      have aPositive : 0 < a.toNat := by
        have := abs_pos.mpr secondNonzero
        omega
      have overflow : BitVec.allOnes 64 / t < a ↔ 2 ^ 64 ≤ t.toNat * a.toNat := by
        rw [BitVec.lt_def, BitVec.toNat_udiv, allOnes_toNat, Nat.div_lt_iff_lt_mul tPositive,
          Nat.mul_comm a.toNat]
        omega
      have cast : (t.toNat : Int) * (a.toNat : Int) = ((t.toNat * a.toNat : Nat) : Int) := by
        push_cast
        rfl
      rw [cast]
      by_cases large : 2 ^ 64 ≤ t.toNat * a.toNat
      · rw [if_pos (overflow.mpr large)]
        generalize t.toNat * a.toNat = product at large
        unfold clamp
        cases sign
        · rw [if_neg Bool.false_ne_true, if_neg Bool.false_ne_true, toInt_positive, allOnes_toNat]
          omega
        · rw [if_pos rfl, if_pos rfl, toInt_negative]
          show ((0 : Nat) : Int) - 2 ^ 64 = _
          omega
      · rw [if_neg fun less => large (overflow.mp less)]
        have product : (t * a).toNat = t.toNat * a.toNat := by
          rw [BitVec.toNat_mul, Nat.mod_eq_of_lt (Nat.not_le.mp large)]
        have nonzero : t * a ≠ 0 := by
          intro zero
          have same := congrArg BitVec.toNat zero
          rw [product] at same
          exact absurd same (Nat.mul_pos tPositive aPositive).ne'
        rw [copySign_mk_toInt _ _ nonzero, product]
        generalize t.toNat * a.toNat = magnitude at large
        unfold clamp
        cases sign
        · rw [if_neg Bool.false_ne_true]
          omega
        · rw [if_pos rfl]
          omega

/-- Truncating division by absolute values. -/
theorem tdiv_eq_abs (x y : Int) :
    x.tdiv y = if (decide (x < 0) != decide (y < 0)) = true then -(|x| / |y|) else |x| / |y| := by
  rcases lt_or_ge x 0 with xNeg | xPos <;> rcases lt_or_ge y 0 with yNeg | yPos
  · rw [decide_eq_true xNeg, decide_eq_true yNeg, abs_of_neg xNeg, abs_of_neg yNeg,
      ← Int.tdiv_eq_ediv_of_nonneg (Int.neg_nonneg_of_nonpos xNeg.le)]
    simp
  · rw [decide_eq_true xNeg, decide_eq_false (not_lt.mpr yPos), abs_of_neg xNeg, abs_of_nonneg yPos,
      ← Int.tdiv_eq_ediv_of_nonneg (Int.neg_nonneg_of_nonpos xNeg.le)]
    simp
  · rw [decide_eq_false (not_lt.mpr xPos), decide_eq_true yNeg, abs_of_nonneg xPos, abs_of_neg yNeg,
      ← Int.tdiv_eq_ediv_of_nonneg xPos]
    simp
  · rw [decide_eq_false (not_lt.mpr xPos), decide_eq_false (not_lt.mpr yPos), abs_of_nonneg xPos,
      abs_of_nonneg yPos, Int.tdiv_eq_ediv_of_nonneg xPos]
    simp

/-- A quotient or a remainder with its sign, where zero has none. -/
theorem finish_toInt (value : BitVec 64) (sign : Bool) :
    toInt { value := copySign value sign, negative := copySign value sign != 0 && sign } =
      if sign then -(value.toNat : Int) else value.toNat := by
  by_cases zero : value = 0
  · rw [zero]
    cases sign <;> rfl
  · have magnitude : copySign value sign ≠ 0 := by
      have bound := value.isLt
      have positive : value.toNat ≠ 0 := fun same => zero (BitVec.eq_of_toNat_eq same)
      unfold copySign
      cases sign
      · rw [if_neg Bool.false_ne_true]
        exact zero
      · rw [if_pos rfl, BitVec.xor_allOnes]
        intro same
        have number := congrArg BitVec.toNat same
        rw [BitVec.toNat_not, BitVec.toNat_sub] at number
        have one : (1 : BitVec 64).toNat = 1 := rfl
        have none : (0 : BitVec 64).toNat = 0 := rfl
        rw [one, none] at number
        omega
    have flag : (copySign value sign != 0 && sign) = sign := by
      rw [bne_iff_ne.mpr magnitude, Bool.true_and]
    rw [flag, copySign_mk_toInt _ _ zero]

/-- The magnitude of a number other than the smallest. -/
theorem magnitude_toNat {number : SignExtendedNumber} (plain : number.toInt ≠ -2 ^ 64) :
    ((copySign number.value number.negative).toNat : Int) = |number.toInt| := by
  by_cases zero : number.value = 0
  · have same := toInt_of_zero zero
    by_cases negative : number.negative = true
    · rw [if_pos negative] at same
      exact absurd same plain
    · rw [if_neg negative] at same
      rw [same, zero, Bool.eq_false_iff.mpr negative]
      rfl
  · exact copySign_toNat zero

/-- Division of a number other than the smallest by a number other than zero and the
smallest. -/
theorem div_toInt {first second : SignExtendedNumber} (plain : first.toInt ≠ -2 ^ 64)
    (nonzero : second.value ≠ 0) : (first.div second).toInt = first.toInt.tdiv second.toInt := by
  have notMinimum : (!first.isMinimum) = true := by
    rw [Bool.not_eq_true', Bool.eq_false_iff]
    exact fun minimum => plain ((isMinimum_iff first).mp minimum)
  have firstAbs := magnitude_toNat plain
  have secondAbs := copySign_toNat nonzero
  unfold div
  rw [if_neg nonzero]
  dsimp only
  rw [if_pos notMinimum, finish_toInt, BitVec.toNat_udiv, tdiv_eq_abs, ← firstAbs, ← secondAbs,
    ← negative_eq, ← negative_eq]
  push_cast
  rfl

/-! ### Shifts -/

/-- One halving of the search for the logarithm. -/
theorem log2_half (v bound : BitVec 64) (bits : Nat) (limit : bound.toNat = 2 ^ bits - 1)
    (positive : 0 < v.toNat) (small : v.toNat < 2 ^ (2 * bits)) :
    ∃ s, (if v > bound then bits else 0) = s ∧ (s = 0 ∨ s = bits) ∧ 0 < (v >>> s).toNat ∧
      (v >>> s).toNat < 2 ^ bits ∧ Nat.log 2 v.toNat = s + Nat.log 2 (v >>> s).toNat := by
  have power := Nat.two_pow_pos bits
  by_cases large : v > bound
  · rw [gt_iff_lt, BitVec.lt_def, limit] at large
    have above : 2 ^ bits ≤ v.toNat := by omega
    refine ⟨bits, if_pos ?_, Or.inr rfl, ?_⟩
    · rw [gt_iff_lt, BitVec.lt_def, limit]
      exact large
    · rw [BitVec.toNat_ushiftRight, Nat.shiftRight_eq_div_pow]
      refine ⟨Nat.div_pos above power, ?_, ?_⟩
      · rw [Nat.div_lt_iff_lt_mul power, ← Nat.pow_add, ← Nat.two_mul]
        exact small
      · rw [Nat.log_div_base_pow, Nat.add_sub_cancel']
        exact (Nat.le_log_iff_pow_le (by decide) positive.ne').mpr above
  · refine ⟨0, if_neg large, Or.inl rfl, ?_⟩
    rw [gt_iff_lt, BitVec.lt_def, limit] at large
    rw [BitVec.ushiftRight_zero, Nat.zero_add]
    exact ⟨positive, by omega, rfl⟩

/-- The parts of the logarithm have no bit in common. -/
theorem or_eq_add {a b c d e f : Nat} (ha : a = 0 ∨ a = 32) (hb : b = 0 ∨ b = 16)
    (hc : c = 0 ∨ c = 8) (hd : d = 0 ∨ d = 4) (he : e = 0 ∨ e = 2) (hf : f = 0 ∨ f = 1) :
    a ||| b ||| c ||| d ||| e ||| f = a + (b + (c + (d + (e + f)))) := by
  rcases ha with rfl | rfl <;> rcases hb with rfl | rfl <;> rcases hc with rfl | rfl <;>
    rcases hd with rfl | rfl <;> rcases he with rfl | rfl <;> rcases hf with rfl | rfl <;> rfl

theorem log2_eq {v : BitVec 64} (positive : 0 < v.toNat) : log2 v = Nat.log 2 v.toNat := by
  obtain ⟨a, aEq, aCases, aPos, aSmall, aLog⟩ :=
    log2_half v 0xFFFFFFFF#64 32 rfl positive v.isLt
  obtain ⟨b, bEq, bCases, bPos, bSmall, bLog⟩ :=
    log2_half (v >>> a) 0xFFFF#64 16 rfl aPos aSmall
  obtain ⟨c, cEq, cCases, cPos, cSmall, cLog⟩ :=
    log2_half (v >>> a >>> b) 0xFF#64 8 rfl bPos bSmall
  obtain ⟨d, dEq, dCases, dPos, dSmall, dLog⟩ :=
    log2_half (v >>> a >>> b >>> c) 0xF#64 4 rfl cPos cSmall
  obtain ⟨e, eEq, eCases, ePos, eSmall, eLog⟩ :=
    log2_half (v >>> a >>> b >>> c >>> d) 0x3#64 2 rfl dPos dSmall
  unfold log2
  dsimp only
  rw [aEq, bEq, cEq, dEq, eEq]
  set rest := v >>> a >>> b >>> c >>> d >>> e
  have last : (rest >>> 1).toNat = Nat.log 2 rest.toNat ∧
      ((rest >>> 1).toNat = 0 ∨ (rest >>> 1).toNat = 1) := by
    rw [BitVec.toNat_ushiftRight, Nat.shiftRight_eq_div_pow]
    generalize rest.toNat = n at ePos eSmall
    have cases : n = 1 ∨ n = 2 ∨ n = 3 := by omega
    rcases cases with rfl | rfl | rfl <;> decide
  rw [or_eq_add aCases bCases cCases dCases eCases last.2, last.1, aLog, bLog, cLog, dLog, eLog]

theorem shl_toInt {first second : SignExtendedNumber} (count : second.negative = false) :
    (first.shl second).toInt = clamp (first.toInt * 2 ^ second.value.toNat) := by
  unfold shl
  generalize second.value.toNat = k
  by_cases zero : first.value = 0
  · rw [if_pos zero, toInt_of_zero zero]
    have power : (1 : Int) ≤ 2 ^ k := by exact_mod_cast Nat.one_le_two_pow
    unfold clamp
    cases first.negative
    · rw [if_neg Bool.false_ne_true]
      omega
    · rw [if_pos rfl]
      omega
  · rw [if_neg zero, count, if_neg Bool.false_ne_true]
    dsimp only
    have magnitude := copySign_toNat zero
    set m := (copySign first.value first.negative).toNat with mEq
    have mPositive : 0 < m := by
      have := abs_pos.mpr (toInt_ne_zero zero)
      omega
    have mBound : m < 2 ^ 64 := BitVec.isLt _
    rw [log2_eq mPositive, ← mEq]
    have lower : 2 ^ Nat.log 2 m ≤ m := Nat.pow_log_le_self 2 mPositive.ne'
    have upper : m < 2 ^ (Nat.log 2 m + 1) := Nat.lt_pow_succ_log_self (by decide) m
    have short : Nat.log 2 m < 64 := Nat.log_lt_of_lt_pow mPositive.ne' mBound
    generalize Nat.log 2 m = l at lower upper short
    have product : first.toInt * 2 ^ k =
        if first.negative then -((m * 2 ^ k : Nat) : Int) else ((m * 2 ^ k : Nat) : Int) := by
      push_cast
      rw [magnitude]
      have sign := negative_iff first
      cases negative : first.negative
      · rw [if_neg Bool.false_ne_true, abs_of_nonneg]
        exact not_lt.mp fun less => Bool.false_ne_true (negative.symm.trans (sign.mpr less))
      · rw [if_pos rfl, abs_of_neg (sign.mp negative)]
        ring
    rw [product]
    by_cases large : k > 63 - l
    · rw [if_pos large]
      have above : 2 ^ 64 ≤ m * 2 ^ k :=
        calc 2 ^ 64 ≤ 2 ^ (l + k) := Nat.pow_le_pow_right (by decide) (by omega)
          _ = 2 ^ l * 2 ^ k := Nat.pow_add 2 l k
          _ ≤ m * 2 ^ k := Nat.mul_le_mul_right _ lower
      generalize m * 2 ^ k = scaled at above
      unfold extreme clamp
      cases first.negative
      · rw [if_neg Bool.false_ne_true, if_neg Bool.false_ne_true, toInt_positive, allOnes_toNat]
        omega
      · rw [if_pos rfl, if_pos rfl, toInt_negative]
        show ((0 : Nat) : Int) - 2 ^ 64 = _
        omega
    · rw [if_neg large]
      have below : m * 2 ^ k < 2 ^ 64 :=
        calc m * 2 ^ k < 2 ^ (l + 1) * 2 ^ k := Nat.mul_lt_mul_of_pos_right upper (Nat.two_pow_pos k)
          _ = 2 ^ (l + 1 + k) := (Nat.pow_add 2 (l + 1) k).symm
          _ ≤ 2 ^ 64 := Nat.pow_le_pow_right (by decide) (by omega)
      have scaledPositive : 0 < m * 2 ^ k := Nat.mul_pos mPositive (Nat.two_pow_pos k)
      have shifted : (first.value <<< k).toNat = first.value.toNat * 2 ^ k % 2 ^ 64 := by
        rw [BitVec.toNat_shiftLeft, Nat.shiftLeft_eq]
      obtain ⟨value, sign⟩ := first
      dsimp only at shifted mEq ⊢
      cases sign
      · have same : value.toNat = m := by rw [mEq, copySign, if_neg Bool.false_ne_true]
        rw [if_neg Bool.false_ne_true, toInt_positive, shifted, same, Nat.mod_eq_of_lt below,
          clamp_of_mem (by omega) (by omega)]
      · have same : value.toNat = 2 ^ 64 - m := by
          have bound := value.isLt
          have positive : value.toNat ≠ 0 := fun same => zero (BitVec.eq_of_toNat_eq same)
          rw [mEq, copySign, if_pos rfl, BitVec.xor_allOnes, BitVec.toNat_not, BitVec.toNat_sub]
          have one : (1 : BitVec 64).toNat = 1 := rfl
          rw [one]
          omega
        have wrapped : value.toNat * 2 ^ k % 2 ^ 64 = 2 ^ 64 - m * 2 ^ k := by
          rw [same, Nat.sub_mul]
          have split : 2 ^ 64 * 2 ^ k - m * 2 ^ k =
              (2 ^ 64 - m * 2 ^ k) + 2 ^ 64 * (2 ^ k - 1) := by
            have power := Nat.two_pow_pos k
            rw [Nat.mul_sub, Nat.mul_one]
            have : 2 ^ 64 ≤ 2 ^ 64 * 2 ^ k := Nat.le_mul_of_pos_right _ power
            omega
          rw [split, Nat.add_mul_mod_self_left, Nat.mod_eq_of_lt (by omega)]
        rw [if_pos rfl, toInt_negative, shifted, wrapped, clamp_of_mem (by omega) (by omega)]
        omega

theorem shr_toInt {first second : SignExtendedNumber} (count : second.negative = false) :
    (first.shr second).toInt = first.toInt / 2 ^ second.value.toNat := by
  have bounds := first.toInt_bounds
  have sign := negative_iff first
  have isZero : second.value = 0 ↔ second.value.toNat = 0 := BitVec.toNat_eq
  unfold shr
  simp only [isZero]
  rw [count]
  generalize second.value.toNat = k
  have power : (0 : Int) < 2 ^ k := by exact_mod_cast Nat.two_pow_pos k
  by_cases large : k > 63
  · rw [if_pos (Or.inr large)]
    have above : (2 : Int) ^ 64 ≤ 2 ^ k := by
      exact_mod_cast Nat.pow_le_pow_right (by decide) large
    by_cases negative : first.negative = true
    · rw [if_pos negative, toInt_negative, allOnes_toNat]
      have below := sign.mp negative
      rw [eq_comm, Int.ediv_eq_iff_of_pos power]
      omega
    · rw [if_neg negative, toInt_ofValue]
      have nonneg : 0 ≤ first.toInt := not_lt.mp fun less => negative (sign.mpr less)
      rw [Int.ediv_eq_zero_of_lt nonneg (by omega)]
      rfl
  · rw [if_neg (by simpa using large)]
    by_cases minimum : first.isMinimum = true
    · rw [if_pos minimum, (isMinimum_iff first).mp minimum]
      by_cases none : k = 0
      · rw [if_pos none, none, (isMinimum_iff first).mp minimum, pow_zero, Int.ediv_one]
      · rw [if_neg none, toInt_negative, BitVec.toNat_shiftLeft, Nat.shiftLeft_eq, allOnes_toNat]
        have split : (2 : Nat) ^ 64 = 2 ^ (64 - k) * 2 ^ k := by
          rw [← Nat.pow_add]
          congr 1
          omega
        have inner : (2 : Nat) ^ (64 - k) ≤ 2 ^ 63 := Nat.pow_le_pow_right (by decide) (by omega)
        have positive := Nat.two_pow_pos (64 - k)
        have wrapped : (2 ^ 64 - 1) * 2 ^ (64 - k) % 2 ^ 64 = 2 ^ 64 - 2 ^ (64 - k) := by
          have rest : (2 ^ 64 - 1) * 2 ^ (64 - k) =
              (2 ^ 64 - 2 ^ (64 - k)) + 2 ^ 64 * (2 ^ (64 - k) - 1) := by
            rw [Nat.sub_mul, Nat.one_mul, Nat.mul_sub, Nat.mul_one]
            have : 2 ^ 64 ≤ 2 ^ 64 * 2 ^ (64 - k) := Nat.le_mul_of_pos_right _ positive
            omega
          rw [rest, Nat.add_mul_mod_self_left, Nat.mod_eq_of_lt (by omega)]
        have exact : (-2 ^ 64 : Int) = -(2 ^ (64 - k)) * 2 ^ k := by
          rw [Int.neg_mul]
          congr 1
          exact_mod_cast split
        rw [wrapped, exact, Int.mul_ediv_cancel _ power.ne', Nat.cast_sub (by omega)]
        push_cast
        omega
    · rw [if_neg minimum]
      obtain ⟨value, flag⟩ := first
      have bound := value.isLt
      cases flag
      · dsimp only
        rw [if_neg Bool.false_ne_true, BitVec.ofNat_eq_ofNat, BitVec.xor_zero, BitVec.xor_zero,
          toInt_positive, toInt_positive, BitVec.toNat_ushiftRight, Nat.shiftRight_eq_div_pow]
        push_cast
        rfl
      · dsimp only
        rw [if_pos rfl, BitVec.xor_allOnes, BitVec.xor_allOnes, toInt_negative, toInt_negative,
          BitVec.toNat_not, BitVec.toNat_ushiftRight, Nat.shiftRight_eq_div_pow, BitVec.toNat_not]
        have small : (2 ^ 64 - 1 - value.toNat) / 2 ^ k ≤ 2 ^ 64 - 1 - value.toNat :=
          Nat.div_le_self _ _
        have complement : (value.toNat : Int) - 2 ^ 64 =
            Int.negSucc (2 ^ 64 - 1 - value.toNat) := by
          rw [Int.negSucc_eq]
          omega
        rw [complement, Int.negSucc_ediv _ power]
        have quotient : ((2 ^ 64 - 1 - value.toNat : Nat) : Int) / 2 ^ k =
            (((2 ^ 64 - 1 - value.toNat) / 2 ^ k : Nat) : Int) := by
          push_cast
          rfl
        show _ = -((((2 ^ 64 - 1 - value.toNat : Nat) : Int) / 2 ^ k) + 1)
        rw [quotient]
        generalize (2 ^ 64 - 1 - value.toNat) / 2 ^ k = part at small
        omega

end SignExtendedNumber

end LaserD.Vrp
