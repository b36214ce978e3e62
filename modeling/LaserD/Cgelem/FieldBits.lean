/-
This file proves what the shifts and masks of the lowered bit fields compute.

A mask keeps the lower bits; shifting a value up and keeping the other bits of the
container puts it in the place of the field; shifting the field up to the top and down
again extends it by its sign.
-/

import Mathlib.Tactic.Ring
import LaserD.Lib.BitFields
import LaserD.Cgelem.BitField
import LaserD.Cgelem.Quotient
import LaserD.Cgelem.Truth

namespace LaserD.Cgelem

open BitFields

/-! ### The operand -/

theorem fieldWidth_bitfieldarg {w b : Nat} (wSmall : w ≤ 64) (bSmall : b < 64) :
    fieldWidth (bitfieldarg w b) = w ∧ fieldOffset (bitfieldarg w b) = b ∧
      (Vuns (bitfieldarg w b) >>> 8).toNat = w := by
  have small : w * 256 + b < 2 ^ 32 := by omega
  have lower : ((bitfieldarg w b).setWidth 32).toNat = w * 256 + b := by
    unfold bitfieldarg
    rw [BitVec.toNat_setWidth, BitVec.toNat_ofNat, Nat.mod_eq_of_lt (by omega : w * 256 + b < 2 ^ 64),
      Nat.mod_eq_of_lt small]
  have shifted : ((bitfieldarg w b).setWidth 32 >>> 8).toNat = w := by
    rw [BitVec.toNat_ushiftRight, lower, Nat.shiftRight_eq_div_pow]
    omega
  have byte (x : Nat) : x &&& 255 = x % 256 := Nat.and_two_pow_sub_one_eq_mod x 8
  refine ⟨?_, ?_, shifted⟩
  · unfold fieldWidth
    rw [BitVec.toNat_and, shifted]
    show w &&& 255 = w
    rw [byte]
    omega
  · unfold fieldOffset
    rw [BitVec.toNat_and, lower]
    show (w * 256 + b) &&& 255 = b
    rw [byte]
    omega

/-! ### Masks -/

theorem getLsbD_fieldMask {w : Nat} (wSmall : w ≤ 64) (index : Nat) :
    (fieldMask w).getLsbD index = decide (index < w) := by
  have value : (fieldMask w).toNat = 2 ^ w - 1 := by
    unfold fieldMask
    split_ifs with full
    · rw [full]
      rfl
    · have below : w < 64 := by omega
      have power : 2 ^ w < 2 ^ 64 := Nat.pow_lt_pow_right (by decide) below
      have one : ((1#64) <<< w).toNat = 2 ^ w := by
        rw [BitVec.toNat_shiftLeft, Nat.shiftLeft_eq]
        show 1 * 2 ^ w % 2 ^ 64 = 2 ^ w
        rw [Nat.one_mul, Nat.mod_eq_of_lt power]
      have positive : (1 : BitVec 64) ≤ (1#64) <<< w := by
        rw [BitVec.le_def, one]
        exact Nat.one_le_two_pow
      rw [BitVec.toNat_sub_of_le positive, one]
      rfl
  rw [← BitVec.testBit_toNat, value, Nat.testBit_two_pow_sub_one]

theorem testBit_low (size : Size) (value index : Nat) :
    (low size value).testBit index = (decide (index < size.bits) && value.testBit index) :=
  Nat.testBit_mod_two_pow value size.bits index

theorem Size.bits_le (size : Size) (narrow : size ≠ .cent) : size.bits ≤ 64 := by
  revert narrow
  cases size <;> decide

/-- The bits of a constant, below its size. -/
theorem testBit_low_const {size : Size} (c : BitVec 64) {index : Nat} (inside : index < size.bits) :
    (low size c.toNat).testBit index = c.getLsbD index := by
  rw [testBit_low, decide_eq_true inside, Bool.true_and, BitVec.testBit_toNat]

section Bits

variable {size : Size} {w b : Nat} (narrow : size ≠ .cent) (fits : w + b ≤ size.bits)

include fits

/-- A field shifted up to the top is its bits above those below it. -/
theorem low_shiftLeft (container : Nat) :
    ∃ rest < 2 ^ (size.bits - w), low size (container <<< (size.bits - (w + b))) =
      2 ^ (size.bits - w) * extract w b container + rest := by
  have lowest : container % 2 ^ b < 2 ^ b := Nat.mod_lt _ (Nat.two_pow_pos _)
  have power : 2 ^ (size.bits - w) = 2 ^ b * 2 ^ (size.bits - (w + b)) := by
    rw [← Nat.pow_add]
    congr 1
    omega
  have whole : 2 ^ size.bits = 2 ^ (size.bits - w) * 2 ^ w := by
    rw [← Nat.pow_add]
    congr 1
    omega
  have rest : container % 2 ^ b * 2 ^ (size.bits - (w + b)) < 2 ^ (size.bits - w) := by
    rw [power]
    exact Nat.mul_lt_mul_of_pos_right lowest (Nat.two_pow_pos _)
  refine ⟨container % 2 ^ b * 2 ^ (size.bits - (w + b)), rest, ?_⟩
  have inside := extract_lt w b container
  have split : container <<< (size.bits - (w + b)) =
      2 ^ (size.bits - w) * extract w b container +
        container % 2 ^ b * 2 ^ (size.bits - (w + b)) +
          2 ^ size.bits * (container / 2 ^ b / 2 ^ w) := by
    rw [Nat.shiftLeft_eq, whole, power]
    have decomposed : container = 2 ^ b * (2 ^ w * (container / 2 ^ b / 2 ^ w) +
        extract w b container) + container % 2 ^ b := by
      rw [extract, Nat.div_add_mod, Nat.div_add_mod]
    generalize container / 2 ^ b / 2 ^ w = high at decomposed
    generalize extract w b container = middle at decomposed
    generalize container % 2 ^ b = lowest at decomposed
    rw [decomposed]
    ring
  unfold low
  rw [split, Nat.add_mul_mod_self_left]
  refine Nat.mod_eq_of_lt ?_
  rw [whole]
  calc 2 ^ (size.bits - w) * extract w b container +
        container % 2 ^ b * 2 ^ (size.bits - (w + b))
      < 2 ^ (size.bits - w) * extract w b container + 2 ^ (size.bits - w) :=
        Nat.add_lt_add_left rest _
    _ = 2 ^ (size.bits - w) * (extract w b container + 1) := (Nat.mul_succ _ _).symm
    _ ≤ 2 ^ (size.bits - w) * 2 ^ w := Nat.mul_le_mul_left _ inside

/-- A field shifted up to the top and down again is extended by its sign. -/
theorem signed_bits (positive : 1 ≤ w) (container : Nat) :
    wrap size (signed size (low size (container <<< (size.bits - (w + b)))) /
        2 ^ (size.bits - w)) =
      fieldValue { size := size, isUnsigned := false } w b container := by
  obtain ⟨rest, below, shifted⟩ := low_shiftLeft fits container
  have inside := extract_lt w b container
  have halves : 2 ^ (size.bits - 1) = 2 ^ (size.bits - w) * 2 ^ (w - 1) := by
    rw [← Nat.pow_add]
    congr 1
    omega
  have whole : 2 ^ size.bits = 2 ^ (size.bits - w) * 2 ^ w := by
    rw [← Nat.pow_add]
    congr 1
    omega
  have within : 2 ^ w ≤ 2 ^ size.bits := Nat.pow_le_pow_right Nat.two_pos (by omega)
  have unitPositive := Nat.two_pow_pos (size.bits - w)
  have field : fieldValue { size := size, isUnsigned := false } w b container =
      if extract w b container < 2 ^ (w - 1) then extract w b container
      else extract w b container + (2 ^ size.bits - 2 ^ w) := by
    show (if (false || decide (extract w b container < 2 ^ (w - 1))) = true then
      extract w b container else _) = _
    rw [Bool.false_or]
    simp only [decide_eq_true_eq]
    rfl
  have unitCast : ((2 ^ (size.bits - w) : Nat) : Int) = 2 ^ (size.bits - w) := two_pow_cast _
  rw [field, shifted, ← unitCast]
  generalize extract w b container = middle at inside field shifted ⊢
  by_cases lower : middle < 2 ^ (w - 1)
  · have small : 2 ^ (size.bits - w) * middle + rest < 2 ^ (size.bits - 1) := by
      rw [halves]
      calc 2 ^ (size.bits - w) * middle + rest
          < 2 ^ (size.bits - w) * middle + 2 ^ (size.bits - w) := Nat.add_lt_add_left below _
        _ = 2 ^ (size.bits - w) * (middle + 1) := (Nat.mul_succ _ _).symm
        _ ≤ 2 ^ (size.bits - w) * 2 ^ (w - 1) := Nat.mul_le_mul_left _ lower
    rw [if_pos lower, signed_of_lt small, ← Int.natCast_ediv, Nat.mul_add_div unitPositive,
      Nat.div_eq_of_lt below, Nat.add_zero, wrap_natCast, low_of_lt (Nat.lt_of_lt_of_le inside within)]
  · have large : 2 ^ (size.bits - 1) ≤ 2 ^ (size.bits - w) * middle + rest := by
      rw [halves]
      exact Nat.le_add_right_of_le (Nat.mul_le_mul_left _ (Nat.le_of_not_lt lower))
    have quotient : (((2 ^ (size.bits - w) * middle + rest : Nat) : Int) - 2 ^ size.bits) /
        (2 ^ (size.bits - w) : Nat) = (middle : Int) - 2 ^ w := by
      have wholeCast : (2 : Int) ^ size.bits = ((2 ^ (size.bits - w) : Nat) : Int) * 2 ^ w := by
        rw [← two_pow_cast size.bits, whole]
        push_cast
        rfl
      rw [wholeCast, Nat.cast_add, Nat.cast_mul]
      rw [show ((2 ^ (size.bits - w) : Nat) : Int) * (middle : Int) + (rest : Int) -
        ((2 ^ (size.bits - w) : Nat) : Int) * 2 ^ w = (rest : Int) +
          ((2 ^ (size.bits - w) : Nat) : Int) * ((middle : Int) - 2 ^ w) by ring]
      rw [Int.add_mul_ediv_left _ _ (by exact_mod_cast unitPositive.ne'),
        Int.ediv_eq_zero_of_lt (Int.natCast_nonneg _) (by exact_mod_cast below), Int.zero_add]
    have wCast := two_pow_cast w
    have sizeCast := two_pow_cast size.bits
    rw [if_neg lower, signed_of_le large, quotient]
    unfold wrap
    rw [← Int.add_emod_right, Int.emod_eq_of_lt (by omega) (by omega)]
    omega

include narrow

/-- A mask keeps the lower bits. -/
theorem and_fieldMask (value : Nat) : value &&& low size (fieldMask w).toNat = value % 2 ^ w := by
  have limit := size.bits_le narrow
  refine Nat.eq_of_testBit_eq fun index => ?_
  rw [Nat.testBit_and, Nat.testBit_mod_two_pow]
  by_cases inside : index < size.bits
  · rw [testBit_low_const _ inside, getLsbD_fieldMask (by omega) _, Bool.and_comm]
  · rw [testBit_low, decide_eq_false inside, decide_eq_false (by omega), Bool.false_and,
      Bool.false_and, Bool.and_false]

/-- A mask, or none where the field is left justified, and a shift up to the place of the field,
beside the other bits of the container. -/
theorem blend_bits {mask : BitVec 64} {container value : Nat} (small : container < 2 ^ size.bits)
    (isMask : mask = fieldMask w ∨ mask = -1 ∧ w + b = size.bits) :
    low size ((value &&& low size mask.toNat) <<< b) |||
        (container &&& low size (~~~(fieldMask w <<< b)).toNat) =
      insert w b container value := by
  have limit := size.bits_le narrow
  refine Nat.eq_of_testBit_eq fun index => ?_
  rw [testBit_insert, Nat.testBit_or, Nat.testBit_and, testBit_low, Nat.testBit_shiftLeft,
    Nat.testBit_and]
  by_cases inside : index < size.bits
  · have maskBit : b ≤ index →
        (low size mask.toNat).testBit (index - b) = decide (index - b < w) := by
      intro above
      rw [testBit_low_const _ (by omega)]
      rcases isMask with rfl | ⟨rfl, full⟩
      · exact getLsbD_fieldMask (by omega) _
      · rw [show (-1 : BitVec 64) = BitVec.allOnes 64 from rfl, BitVec.getLsbD_allOnes,
          decide_eq_decide]
        omega
    have other : (low size (~~~(fieldMask w <<< b)).toNat).testBit index =
        !(decide (b ≤ index) && decide (index - b < w)) := by
      rw [testBit_low_const _ inside, BitVec.getLsbD_not, decide_eq_true (by omega : index < 64),
        Bool.true_and, BitVec.getLsbD_shiftLeft, decide_eq_true (by omega : index < 64),
        Bool.true_and]
      by_cases above : b ≤ index
      · rw [getLsbD_fieldMask (by omega) _, decide_eq_true above,
          decide_eq_false (Nat.not_lt_of_le above)]
        rfl
      · rw [decide_eq_false above, decide_eq_true (Nat.lt_of_not_le above)]
        rfl
    rw [other, decide_eq_true inside, Bool.true_and]
    by_cases above : b ≤ index
    · rw [maskBit above]
      by_cases within : index - b < w
      · rw [if_pos (by omega), decide_eq_true above, decide_eq_true within]
        simp
      · rw [if_neg (by omega), decide_eq_true above, decide_eq_false within]
        simp
    · rw [if_neg (by omega), decide_eq_false above]
      simp
  · have high : container.testBit index = false :=
      Nat.testBit_lt_two_pow (Nat.lt_of_lt_of_le small
        (Nat.pow_le_pow_right Nat.two_pos (Nat.le_of_not_lt inside)))
    rw [if_neg (by omega), high, decide_eq_false inside]
    simp

/-- A shift down to the lower end, and a mask, or none where the field is left justified. -/
theorem extract_bits {mask : BitVec 64} {container : Nat} (small : container < 2 ^ size.bits)
    (isMask : mask = fieldMask w ∨ mask = -1 ∧ w + b = size.bits) :
    low size (container <<< 0) >>> b &&& low size mask.toNat = extract w b container := by
  have limit := size.bits_le narrow
  rw [Nat.shiftLeft_zero, low_of_lt small]
  rcases isMask with rfl | ⟨rfl, full⟩
  · rw [and_fieldMask narrow fits, Nat.shiftRight_eq_div_pow, extract]
  · refine Nat.eq_of_testBit_eq fun index => ?_
    rw [testBit_extract, Nat.testBit_and, Nat.testBit_shiftRight]
    by_cases inside : index < w
    · rw [testBit_low_const _ (by omega), show (-1 : BitVec 64) = BitVec.allOnes 64 from rfl,
        BitVec.getLsbD_allOnes, decide_eq_true inside, decide_eq_true (by omega : index < 64),
        Bool.true_and, Bool.and_true]
    · have high : container.testBit (b + index) = false :=
        Nat.testBit_lt_two_pow (Nat.lt_of_lt_of_le small
          (Nat.pow_le_pow_right Nat.two_pos (by omega)))
      rw [high, Bool.false_and, Bool.and_false]

end Bits

end LaserD.Cgelem
