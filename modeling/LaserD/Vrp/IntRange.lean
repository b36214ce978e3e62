/-
This file models the ranges of `dmd.intrange`: the two ends of an interval of 65-bit
numbers and every operator on them, as the source computes it. What the operators
promise is in the modules after this one.
-/

import LaserD.Vrp.SignExtended

namespace LaserD.Vrp

open SignExtendedNumber

/-- The two ends of a range. -/
structure IntRange where
  imin : SignExtendedNumber
  imax : SignExtendedNumber
  deriving Repr, DecidableEq

namespace IntRange

/-- A range of one number. -/
def single (number : SignExtendedNumber) : IntRange := { imin := number, imax := number }

/-- The whole of the 65-bit numbers. -/
def widest : IntRange := { imin := SignExtendedNumber.min, imax := SignExtendedNumber.max }

/-- The range of two numbers in any order. -/
def fromNumbers2 (first second : SignExtendedNumber) : IntRange :=
  if first.lt second then { imin := first, imax := second } else { imin := second, imax := first }

/-- The range of four numbers in any order. -/
def fromNumbers4 (a b c d : SignExtendedNumber) : IntRange :=
  let ab := fromNumbers2 a b
  let cd := fromNumbers2 c d
  { imin := if cd.imin.lt ab.imin then cd.imin else ab.imin,
    imax := if ab.imax.lt cd.imax then cd.imax else ab.imax }

/-! ### Casts -/

/-- The chunk of a signed cast a number falls into, and its negativity: 1 for a negative
chunk, 0 for a nonnegative one, -1 for the chunk past the largest value. -/
def halfChunk (mask : BitVec 64) (number : SignExtendedNumber) : BitVec 64 × Int :=
  let halfChunkMask := mask >>> 1
  let chunk := number.value &&& ~~~halfChunkMask
  let negativity : Int := if number.negative then 1 else 0
  if chunk &&& mask ≠ 0 then
    let chunk := chunk + (halfChunkMask + 1)
    if chunk = 0 then (chunk, negativity - 1) else (chunk, negativity)
  else (chunk, negativity)

/-- An end of a range inside one chunk, sign extended from the mask. -/
def signExtend (mask : BitVec 64) (number : SignExtendedNumber) : SignExtendedNumber :=
  let halfChunkMask := mask >>> 1
  let value := number.value &&& mask
  { value := (value ^^^ (halfChunkMask + 1)) - (halfChunkMask + 1),
    negative := value &&& ~~~halfChunkMask != 0 }

/-- A cast to the signed type of the mask. -/
def castSigned (range : IntRange) (mask : BitVec 64) : IntRange :=
  let halfChunkMask := mask >>> 1
  if halfChunk mask range.imin = halfChunk mask range.imax then
    { imin := signExtend mask range.imin, imax := signExtend mask range.imax }
  else
    { imin := { value := ~~~halfChunkMask, negative := true },
      imax := { value := halfChunkMask, negative := false } }

/-- A cast to the unsigned type of the mask. -/
def castUnsigned (range : IntRange) (mask : BitVec 64) : IntRange :=
  let minChunk := range.imin.value &&& ~~~mask
  let maxChunk := range.imax.value &&& ~~~mask
  if minChunk = maxChunk ∧ range.imin.negative = range.imax.negative then
    { imin := ofValue (range.imin.value &&& mask), imax := ofValue (range.imax.value &&& mask) }
  else { imin := ofValue 0, imax := ofValue mask }

/-- Whether another range lies inside this one. -/
def contains (range other : IntRange) : Bool :=
  !other.imin.lt range.imin && !range.imax.lt other.imax

/-! ### Union and sign -/

/-- The negative of the absolute values. -/
def absNeg (range : IntRange) : IntRange :=
  if range.imax.negative then range
  else if !range.imin.negative then { imin := range.imax.neg, imax := range.imin.neg }
  else
    let imaxAbsNeg := range.imax.neg
    { imin := if imaxAbsNeg.lt range.imin then imaxAbsNeg else range.imin, imax := ofValue 0 }

/-- The least range around both. -/
def unionWith (range other : IntRange) : IntRange :=
  { imin := if range.imin.lt other.imin then range.imin else other.imin,
    imax := if other.imax.lt range.imax then range.imax else other.imax }

/-- Complement. -/
def complement (range : IntRange) : IntRange :=
  { imin := range.imax.complement, imax := range.imin.complement }

/-- Negation. -/
def neg (range : IntRange) : IntRange := { imin := range.imax.neg, imax := range.imin.neg }

/-- Whether the ends have different signs. -/
def spans (range : IntRange) : Bool := range.imin.negative != range.imax.negative

/-! ### Bitwise operators -/

/-- The loop of `maxOr` over the bits below `bits`, from the highest down, on the values
of the ends. -/
def maxOrLoop (lmax rmax : Nat) : Nat → Nat → Nat → Nat → Nat
  | 0, _, _, x => x
  | bits + 1, lmin, rmin, x =>
    if lmax.testBit bits ≠ rmax.testBit bits then
      if lmax.testBit bits then
        maxOrLoop lmax rmax bits (if lmin.testBit bits then lmin else 0) rmin (x ||| 2 ^ bits)
      else
        maxOrLoop lmax rmax bits lmin (if rmin.testBit bits then rmin else 0) (x ||| 2 ^ bits)
    else if lmin.testBit bits ∧ rmin.testBit bits then
      maxOrLoop lmax rmax bits lmin rmin (x ||| 2 ^ bits)
    else if lmax.testBit bits ∧ rmax.testBit bits then x ||| (2 ^ (bits + 1) - 1)
    else maxOrLoop lmax rmax bits lmin rmin x

/-- The largest or of an element of each range. -/
def maxOr (lhs rhs : IntRange) : SignExtendedNumber :=
  let lmax := lhs.imax.value.toNat
  let rmax := rhs.imax.value.toNat
  let loop (lmin rmin : BitVec 64) (sign : Bool) : SignExtendedNumber :=
    { value := BitVec.ofNat 64 (maxOrLoop lmax rmax 64 lmin.toNat rmin.toNat 0),
      negative := sign }
  if lhs.imax.negative ≠ rhs.imax.negative then
    if lhs.imax.negative then
      loop (if !lhs.imin.negative then 0 else lhs.imin.value)
        (if !rhs.imin.negative then 0 else rhs.imin.value) true
    else loop lhs.imin.value rhs.imin.value true
  else if lhs.imin.negative && rhs.imin.negative then loop lhs.imin.value rhs.imin.value true
  else if lhs.imax.negative && rhs.imax.negative then ofValue (BitVec.allOnes 64)
  else loop lhs.imin.value rhs.imin.value false

/-- The loop of `maxAnd` over the bits below `bits`, from the highest down, on the values
of the ends. -/
def maxAndLoop : Nat → Nat → Nat → Nat → Nat → Nat → Nat
  | 0, _, _, _, _, x => x
  | bits + 1, lmin, lmax, rmin, rmax, x =>
    if lmax.testBit bits ∧ rmax.testBit bits then
      maxAndLoop bits (if lmin.testBit bits then lmin else 0) lmax
        (if rmin.testBit bits then rmin else 0) rmax (x ||| 2 ^ bits)
    else if ¬ lmin.testBit bits ∧ lmax.testBit bits then
      maxAndLoop bits lmin (lmax ||| (2 ^ bits - 1)) rmin rmax x
    else if ¬ rmin.testBit bits ∧ rmax.testBit bits then
      maxAndLoop bits lmin lmax rmin (rmax ||| (2 ^ bits - 1)) x
    else maxAndLoop bits lmin lmax rmin rmax x

/-- The largest and of an element of each range. -/
def maxAnd (lhs rhs : IntRange) : SignExtendedNumber :=
  { value := BitVec.ofNat 64 (maxAndLoop 64 lhs.imin.value.toNat lhs.imax.value.toNat
      rhs.imin.value.toNat rhs.imax.value.toNat 0),
    negative := lhs.imax.negative && rhs.imax.negative }

/-- The smallest or. -/
def minOr (lhs rhs : IntRange) : SignExtendedNumber :=
  (maxAnd lhs.complement rhs.complement).complement

/-- The smallest and. -/
def minAnd (lhs rhs : IntRange) : SignExtendedNumber :=
  (maxOr lhs.complement rhs.complement).complement

/-- The smaller and the larger of two numbers, as the operators compare them. -/
def smaller (first second : SignExtendedNumber) : SignExtendedNumber :=
  if first.lt second then first else second

/-- The larger of two numbers. -/
def larger (first second : SignExtendedNumber) : SignExtendedNumber :=
  if second.lt first then first else second

/-- The part of a range below zero; the literal's sign is not set. -/
def negativePart (range : IntRange) : IntRange :=
  { imin := range.imin, imax := ofValue (BitVec.allOnes 64) }

/-- The part of a range from zero on. -/
def nonnegativePart (range : IntRange) : IntRange := { imin := ofValue 0, imax := range.imax }

/-- `&` where only the second range spans zero. -/
def andOneSpans (l r : IntRange) : IntRange :=
  { imin := smaller (minAnd l r.negativePart) (minAnd l r.nonnegativePart),
    imax := larger (maxAnd l r.negativePart) (maxAnd l r.nonnegativePart) }

/-- `&`. -/
def and (l r : IntRange) : IntRange :=
  if !l.spans && !r.spans then { imin := minAnd l r, imax := maxAnd l r }
  else if l.spans && r.spans then
    let minusOne : SignExtendedNumber := { value := BitVec.allOnes 64, negative := true }
    { imin := minAnd { l with imax := minusOne } { r with imax := minusOne },
      imax := if r.imax.value < l.imax.value then l.imax else r.imax }
  else if l.spans then andOneSpans r l
  else andOneSpans l r

/-- `|` where only the second range spans zero. -/
def orOneSpans (l r : IntRange) : IntRange :=
  { imin := smaller (minOr l r.negativePart) (minOr l r.nonnegativePart),
    imax := larger (maxOr l r.negativePart) (maxOr l r.nonnegativePart) }

/-- `|`. -/
def or (l r : IntRange) : IntRange :=
  if !l.spans && !r.spans then { imin := minOr l r, imax := maxOr l r }
  else if l.spans && r.spans then
    { imin := if l.imin.value < r.imin.value then l.imin else r.imin,
      imax := maxOr l.nonnegativePart r.nonnegativePart }
  else if l.spans then orOneSpans r l
  else orOneSpans l r

/-- `^`. -/
def xor (l r : IntRange) : IntRange := (l.and r.complement).or (l.complement.and r)

/-! ### Arithmetic operators -/

/-- `+`. -/
def add (l r : IntRange) : IntRange := { imin := l.imin.add r.imin, imax := l.imax.add r.imax }

/-- `-`. -/
def sub (l r : IntRange) : IntRange := { imin := l.imin.sub r.imax, imax := l.imax.sub r.imin }

/-- `*`. -/
def mul (l r : IntRange) : IntRange :=
  fromNumbers4 (l.imin.mul r.imin) (l.imin.mul r.imax) (l.imax.mul r.imin) (l.imax.mul r.imax)

/-- A divisor moved off zero at the end that is zero. -/
def dropZero (range : IntRange) : IntRange :=
  if range.imax.value = 0 then
    { range with imax := { range.imax with value := range.imax.value - 1 } }
  else if range.imin.value = 0 then
    { range with imin := { range.imin with value := range.imin.value + 1 } }
  else range

/-- `/`. -/
def div (l rhs : IntRange) : IntRange :=
  if rhs.imax.value = 0 ∧ rhs.imin.value = 0 then widest
  else
    let r := rhs.dropZero
    if !l.imin.negative && !l.imax.negative && !r.imin.negative && !r.imax.negative then
      { imin := l.imin.div r.imax, imax := l.imax.div r.imin }
    else if r.imin.negative && !r.imax.negative then
      fromNumbers4 l.imin.neg l.imin l.imax.neg l.imax
    else
      fromNumbers4 (l.imin.div r.imin) (l.imin.div r.imax) (l.imax.div r.imin)
        (l.imax.div r.imax)

/-- `%`. -/
def mod (l r : IntRange) : IntRange :=
  let denMin := r.absNeg.imin.add (ofValue 1)
  let denMax := denMin.neg
  { imin :=
      if !l.imin.negative then { l.imin with value := 0 }
      else if l.imin.lt denMin then denMin else l.imin,
    imax :=
      if l.imax.negative then ofValue 0
      else if denMax.lt l.imax then denMax else l.imax }

/-- The shift counts an operator uses: all of them when some are negative. -/
def shiftCounts (r : IntRange) : IntRange :=
  if r.imin.negative then { imin := ofValue 0, imax := ofValue 64 } else r

/-- `<<`. -/
def shl (l r : IntRange) : IntRange :=
  let r := r.shiftCounts
  { imin := l.imin.shl (if l.imin.negative then r.imax else r.imin),
    imax := l.imax.shl (if l.imax.negative then r.imin else r.imax) }

/-- `>>`. -/
def shr (l r : IntRange) : IntRange :=
  let r := r.shiftCounts
  { imin := l.imin.shr (if l.imin.negative then r.imin else r.imax),
    imax := l.imax.shr (if l.imax.negative then r.imax else r.imin) }

/-- `>>>`. -/
def ushr (l r : IntRange) : IntRange :=
  let r := r.shiftCounts
  { imin := l.imin.shr r.imax, imax := l.imax.shr r.imin }

/-! ### What the ranges stand for -/

/-- The integers between the ends. -/
def Contains (range : IntRange) (x : Int) : Prop := range.imin.toInt ≤ x ∧ x ≤ range.imax.toInt

theorem contains_iff (range other : IntRange) :
    range.contains other = true ↔
      range.imin.toInt ≤ other.imin.toInt ∧ other.imax.toInt ≤ range.imax.toInt := by
  unfold contains
  rw [Bool.and_eq_true_iff, Bool.not_eq_true', Bool.not_eq_true', Bool.eq_false_iff,
    Bool.eq_false_iff, Ne, Ne, lt_iff, lt_iff, Int.not_lt, Int.not_lt]

/-- An integer between two of four numbers is in their range. -/
theorem fromNumbers4_contains {a b c d : SignExtendedNumber} {x : Int}
    (lower : a.toInt ≤ x ∨ b.toInt ≤ x ∨ c.toInt ≤ x ∨ d.toInt ≤ x)
    (upper : x ≤ a.toInt ∨ x ≤ b.toInt ∨ x ≤ c.toInt ∨ x ≤ d.toInt) :
    (fromNumbers4 a b c d).Contains x := by
  unfold fromNumbers4 fromNumbers2 Contains
  simp only [lt_iff]
  split_ifs <;> dsimp only at * <;> omega

theorem unionWith_contains {range other : IntRange} {x : Int}
    (inside : range.Contains x ∨ other.Contains x) : (range.unionWith other).Contains x := by
  unfold Contains at inside ⊢
  unfold unionWith
  simp only [lt_iff]
  split_ifs <;> omega

end IntRange

end LaserD.Vrp
