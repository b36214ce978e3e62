/-
This file models the integer constants of the front end.

An `IntegerExp` keeps a 64-bit word and a type, and `normalize` brings the word into the range of
the type whenever one is built, so the word of a constant always is the sign extended or zero
extended pattern of a value of its type. The number a constant stands for is therefore read off the
word directly, and building a constant from any word that is congruent to an integer yields the
reduction of that integer to the type: this one fact is what makes the folding of typed operations
by 64-bit arithmetic exact.
-/

import Mathlib.Algebra.Group.Int.Defs
import Mathlib.Algebra.Group.Nat.Defs
import Mathlib.Tactic.Common

namespace LaserD.Constfold

/-! ### Integral types -/

/-- The integral basic types, `toBasetype().ty` of an integer constant. -/
inductive TY
  | bool | int8 | uns8 | char | int16 | uns16 | wchar | int32 | uns32 | dchar | int64 | uns64
  deriving DecidableEq, Repr

/-- The number of bits of a value of the type; a truth value is one bit. -/
def TY.bits : TY → Nat
  | .bool => 1
  | .int8 | .uns8 | .char => 8
  | .int16 | .uns16 | .wchar => 16
  | .int32 | .uns32 | .dchar => 32
  | .int64 | .uns64 => 64

/-- `Type.isUnsigned`: the flag `TFlags.unsigned` of the basic types. -/
def TY.isUnsigned : TY → Bool
  | .bool | .uns8 | .char | .uns16 | .wchar | .uns32 | .dchar | .uns64 => true
  | .int8 | .int16 | .int32 | .int64 => false

/-- The two's complement reduction of an integer to the type. -/
def TY.reduce (ty : TY) (number : Int) : Int :=
  if ty.isUnsigned then number % 2 ^ ty.bits else number.bmod (2 ^ ty.bits)

/-- `IntegerExp.normalize`: bring the value into the range of the type. -/
def normalize (ty : TY) (value : BitVec 64) : BitVec 64 :=
  match ty with
  | .bool => if value ≠ 0 then 1 else 0
  | .int8 => (value.setWidth 8).signExtend 64
  | .char | .uns8 => (value.setWidth 8).setWidth 64
  | .int16 => (value.setWidth 16).signExtend 64
  | .wchar | .uns16 => (value.setWidth 16).setWidth 64
  | .int32 => (value.setWidth 32).signExtend 64
  | .dchar | .uns32 => (value.setWidth 32).setWidth 64
  | .int64 => value
  | .uns64 => value

theorem normalize_signed {ty : TY} (signed : ty.isUnsigned = false) (value : BitVec 64) :
    normalize ty value = (value.setWidth ty.bits).signExtend 64 := by
  cases ty with
  | int64 => simp [normalize, TY.bits]
  | int8 | int16 | int32 => rfl
  | bool | uns8 | char | uns16 | wchar | uns32 | dchar | uns64 => simp [TY.isUnsigned] at signed

theorem normalize_unsigned {ty : TY} (width : 8 ≤ ty.bits) (unsigned : ty.isUnsigned = true)
    (value : BitVec 64) : normalize ty value = (value.setWidth ty.bits).setWidth 64 := by
  cases ty with
  | uns64 => simp [normalize, TY.bits]
  | uns8 | char | uns16 | wchar | uns32 | dchar => rfl
  | bool => simp [TY.bits] at width
  | int8 | int16 | int32 | int64 => simp [TY.isUnsigned] at unsigned

theorem bits_le (ty : TY) : ty.bits ≤ 64 := by
  cases ty <;> decide

theorem two_pow_bits_dvd (ty : TY) : 2 ^ ty.bits ∣ 2 ^ 64 :=
  Nat.pow_dvd_pow 2 (bits_le ty)

/-- Narrowing the sign extension of a word gives the word back. -/
theorem setWidth_signExtend {narrow wide : Nat} (fits : narrow ≤ wide) (word : BitVec narrow) :
    (word.signExtend wide).setWidth narrow = word := by
  ext index inside
  rw [BitVec.getElem_setWidth, BitVec.getLsbD_signExtend]
  simp [inside, Nat.lt_of_lt_of_le inside fits]

theorem normalize_normalize (ty : TY) (value : BitVec 64) :
    normalize ty (normalize ty value) = normalize ty value := by
  by_cases truth : ty = .bool
  · subst truth
    by_cases zero : value = 0 <;> simp [normalize, zero]
  · have width : 8 ≤ ty.bits := by
      cases ty <;> first | exact absurd rfl truth | decide
    cases unsigned : ty.isUnsigned
    · rw [normalize_signed unsigned, normalize_signed unsigned,
        setWidth_signExtend (bits_le ty)]
    · rw [normalize_unsigned width unsigned, normalize_unsigned width unsigned,
        BitVec.setWidth_setWidth_of_le _ (bits_le ty), BitVec.setWidth_eq]

/-! ### Constants -/

/-- An integer constant of a type: its word is in the range of the type. -/
structure IntegerExp (type : TY) where
  value : BitVec 64
  normalized : normalize type value = value
  deriving DecidableEq

/-- `emplaceExp!(IntegerExp)`: the constructor normalizes the word it is given. -/
def emplaceExp (type : TY) (value : BitVec 64) : IntegerExp type :=
  ⟨normalize type value, normalize_normalize type value⟩

namespace IntegerExp

variable {type : TY}

/-- `Expression.toInteger` of an integer constant. -/
def toInteger (e : IntegerExp type) : BitVec 64 := normalize type e.value

@[simp] theorem toInteger_eq (e : IntegerExp type) : e.toInteger = e.value := e.normalized

/-- The number the constant stands for. -/
def number (e : IntegerExp type) : Int :=
  if type.isUnsigned then e.value.toNat else e.value.toInt

theorem value_eq (e : IntegerExp type) : e.value = BitVec.ofInt 64 e.number := by
  unfold number
  split
  · rw [BitVec.ofInt_natCast, BitVec.ofNat_toNat, BitVec.setWidth_eq]
  · rw [BitVec.ofInt_toInt]

end IntegerExp

/-- Building a constant from a word reduces every integer the word is congruent to. -/
theorem number_emplaceExp {type : TY} (width : 8 ≤ type.bits) (number : Int) :
    (emplaceExp type (BitVec.ofInt 64 number)).number = type.reduce number := by
  have divides : (2 ^ type.bits : Nat) ∣ 2 ^ 64 := two_pow_bits_dvd type
  unfold emplaceExp IntegerExp.number TY.reduce
  cases unsigned : type.isUnsigned
  · simp only [Bool.false_eq_true, if_false]
    rw [normalize_signed unsigned, BitVec.toInt_signExtend_of_le (bits_le type),
      BitVec.toInt_setWidth, BitVec.toNat_ofInt, Int.toNat_of_nonneg (Int.emod_nonneg _ (by decide))]
    rw [← Int.emod_bmod, Int.emod_emod_of_dvd _ (by exact_mod_cast divides), Int.emod_bmod]
  · simp only [if_true]
    rw [normalize_unsigned width unsigned, BitVec.toNat_setWidth, BitVec.toNat_setWidth,
      BitVec.toNat_ofInt, Nat.mod_eq_of_lt (a := _ % 2 ^ type.bits)]
    · rw [Int.natCast_emod, Int.toNat_of_nonneg (Int.emod_nonneg _ (by decide)),
        Int.emod_emod_of_dvd _ (by exact_mod_cast divides)]
      norm_cast
    · exact Nat.lt_of_lt_of_le (Nat.mod_lt _ (Nat.two_pow_pos _))
        (Nat.pow_le_pow_right (by decide) (bits_le type))

/-- The number of a constant is already reduced. -/
theorem IntegerExp.reduce_number {type : TY} (width : 8 ≤ type.bits) (e : IntegerExp type) :
    type.reduce e.number = e.number := by
  have rebuilt : emplaceExp type (BitVec.ofInt 64 e.number) = e := by
    rw [← e.value_eq]
    cases e with
    | mk value normalized => simp only [emplaceExp, normalized]
  rw [← number_emplaceExp width, rebuilt]

end LaserD.Constfold
