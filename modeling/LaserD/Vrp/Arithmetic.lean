/-
This file proves the casts, the arithmetic operators and the shifts of the ranges
sound.

A cast asks whether both ends fall into one chunk of the target type's size; then the
remainder is monotone between them. The operators saturate, so what they promise is
about results that are 65-bit numbers.
-/

import LaserD.Lib.BitBounds
import LaserD.Vrp.IntRange
import Mathlib.Tactic.SplitIfs

namespace LaserD.Vrp.IntRange

open SignExtendedNumber

/-! ### Casts -/

/-- A remainder is monotone inside one chunk. -/
theorem emod_between {lo x hi m : Int} (positive : 0 < m) (lower : lo ≤ x) (upper : x ≤ hi)
    (chunk : lo - lo % m = hi - hi % m) : lo % m ≤ x % m ∧ x % m ≤ hi % m := by
  have lowChunk : lo - lo % m = m * (lo / m) := by
    rw [Int.emod_def]
    omega
  have highChunk : hi - hi % m = m * (hi / m) := by
    rw [Int.emod_def]
    omega
  have same : lo / m = hi / m := by
    rw [lowChunk, highChunk] at chunk
    exact Int.eq_of_mul_eq_mul_left positive.ne' chunk
  have first := Int.ediv_le_ediv positive lower
  have second := Int.ediv_le_ediv positive upper
  have middle : x / m = lo / m := by omega
  rw [Int.emod_def lo, Int.emod_def x, Int.emod_def hi, middle, ← same]
  omega

section Masks

variable {mask : BitVec 64} {width : Nat}

theorem and_mask_toNat (isMask : mask.toNat = 2 ^ width - 1) (value : BitVec 64) :
    (value &&& mask).toNat = value.toNat % 2 ^ width := by
  rw [BitVec.toNat_and, isMask, Nat.and_two_pow_sub_one_eq_mod]

theorem and_not_mask_toNat (isMask : mask.toNat = 2 ^ width - 1) (value : BitVec 64) :
    (value &&& ~~~mask).toNat = value.toNat - value.toNat % 2 ^ width := by
  have split : value.toNat = (value &&& mask).toNat + (value &&& ~~~mask).toNat := by
    have apart : (value &&& mask) &&& (value &&& ~~~mask) = 0#64 := by
      ext index inside
      simp only [BitVec.getElem_and, BitVec.getElem_not, BitVec.getElem_zero]
      cases value[index] <;> cases mask[index] <;> rfl
    have whole : (value &&& mask) ||| (value &&& ~~~mask) = value := by
      ext index inside
      simp only [BitVec.getElem_and, BitVec.getElem_not, BitVec.getElem_or]
      cases value[index] <;> cases mask[index] <;> rfl
    rw [← BitVec.toNat_add_of_and_eq_zero apart, BitVec.add_eq_or_of_and_eq_zero _ _ apart, whole]
  rw [and_mask_toNat isMask] at split
  omega

/-- The remainder of a number is that of its value. -/
theorem toInt_emod (narrow : width ≤ 64) (number : SignExtendedNumber) :
    number.toInt % 2 ^ width = (number.value.toNat % 2 ^ width : Nat) := by
  have divides : (2 : Int) ^ width ∣ 2 ^ 64 := pow_dvd_pow 2 narrow
  rcases number with ⟨value, _ | _⟩
  · rw [toInt_positive]
    push_cast
    rfl
  · rw [toInt_negative, Int.sub_emod, Int.emod_eq_zero_of_dvd divides, Int.sub_zero, Int.emod_emod]
    push_cast
    rfl

/-- A cast to an unsigned type takes the remainder. -/
theorem castUnsigned_contains (isMask : mask.toNat = 2 ^ width - 1) (narrow : width ≤ 64)
    {range : IntRange} {x : Int} (inside : range.Contains x) :
    (range.castUnsigned mask).Contains (x % 2 ^ width) := by
  have positive : (0 : Int) < 2 ^ width := by exact_mod_cast Nat.two_pow_pos width
  unfold castUnsigned
  dsimp only
  by_cases chunk : range.imin.value &&& ~~~mask = range.imax.value &&& ~~~mask ∧
      range.imin.negative = range.imax.negative
  · rw [if_pos chunk]
    unfold Contains
    dsimp only
    rw [toInt_ofValue, toInt_ofValue, and_mask_toNat isMask, and_mask_toNat isMask,
      ← toInt_emod narrow, ← toInt_emod narrow]
    refine emod_between positive inside.1 inside.2 ?_
    have values := congrArg BitVec.toNat chunk.1
    rw [and_not_mask_toNat isMask, and_not_mask_toNat isMask] at values
    have lowMod := Nat.mod_le range.imin.value.toNat (2 ^ width)
    have highMod := Nat.mod_le range.imax.value.toNat (2 ^ width)
    rw [toInt_emod narrow, toInt_emod narrow]
    unfold toInt
    rw [chunk.2]
    omega
  · rw [if_neg chunk]
    unfold Contains
    dsimp only
    rw [toInt_ofValue, toInt_ofValue, isMask]
    have lower := Int.emod_nonneg x positive.ne'
    have upper := Int.emod_lt_of_pos x positive
    have one := Nat.one_le_two_pow (n := width)
    refine ⟨lower, ?_⟩
    rw [Nat.cast_sub one]
    push_cast
    omega

/-- The ends of an unsigned cast are values of the type. -/
theorem castUnsigned_within (isMask : mask.toNat = 2 ^ width - 1) (range : IntRange) :
    0 ≤ (range.castUnsigned mask).imin.toInt ∧
      (range.castUnsigned mask).imax.toInt ≤ 2 ^ width - 1 := by
  have one := Nat.one_le_two_pow (n := width)
  have cast : ((2 ^ width - 1 : Nat) : Int) = 2 ^ width - 1 := by
    rw [Nat.cast_sub one]
    push_cast
    rfl
  unfold castUnsigned
  dsimp only
  split_ifs
  · rw [toInt_ofValue, toInt_ofValue, and_mask_toNat isMask, ← cast]
    refine ⟨Int.natCast_nonneg _, Int.ofNat_le.mpr ?_⟩
    rw [and_mask_toNat isMask]
    exact Nat.le_sub_one_of_lt (Nat.mod_lt _ (Nat.two_pow_pos width))
  · rw [toInt_ofValue, toInt_ofValue, ← cast, isMask]
    exact ⟨Int.natCast_nonneg _, Int.le_refl _⟩

/-- The two's-complement reading of the lower bits. -/
def signedWrap (width : Nat) (x : Int) : Int := (x + 2 ^ (width - 1)) % 2 ^ width - 2 ^ (width - 1)

/-- Half of a mask. -/
theorem half_mask_toNat (isMask : mask.toNat = 2 ^ width - 1) (wide : 0 < width) :
    (mask >>> 1).toNat = 2 ^ (width - 1) - 1 := by
  obtain ⟨bits, rfl⟩ := Nat.exists_eq_succ_of_ne_zero wide.ne'
  rw [BitVec.toNat_ushiftRight, Nat.shiftRight_eq_div_pow, isMask, Nat.pow_succ, Nat.pow_one,
    Nat.succ_sub_one]
  have := Nat.two_pow_pos bits
  omega

/-- The value of a number is its chunk, the top bit of the type and the bits below. -/
theorem value_split (wide : 0 < width) (narrow : width ≤ 64) (value : BitVec 64) :
    ∃ chunk low : Nat, value.toNat = chunk + low ∧ chunk + 2 ^ width ≤ 2 ^ 64 ∧
      chunk % 2 ^ width = 0 ∧ low < 2 ^ width ∧ 2 ^ width = 2 * 2 ^ (width - 1) ∧ value.toNat % 2 ^ width = low ∧
      value.toNat % 2 ^ (width - 1) =
        (if 2 ^ (width - 1) ≤ low then low - 2 ^ (width - 1) else low) := by
  have power : 2 ^ width = 2 * 2 ^ (width - 1) := by
    rw [← Nat.pow_succ', Nat.succ_eq_add_one, Nat.sub_add_cancel wide]
  have divides : 2 ^ (width - 1) ∣ 2 ^ width := pow_dvd_pow 2 (Nat.sub_le width 1)
  have small := Nat.mod_lt value.toNat (Nat.two_pow_pos width)
  refine ⟨2 ^ width * (value.toNat / 2 ^ width), value.toNat % 2 ^ width,
    (Nat.div_add_mod _ _).symm, ?_, Nat.mul_mod_right _ _, small, power, rfl, ?_⟩
  · have whole : 2 ^ 64 = 2 ^ width * 2 ^ (64 - width) := by
      rw [← Nat.pow_add, Nat.add_sub_cancel' narrow]
    have below : value.toNat / 2 ^ width < 2 ^ (64 - width) := by
      rw [Nat.div_lt_iff_lt_mul (Nat.two_pow_pos width), Nat.mul_comm, ← whole]
      exact value.isLt
    rw [whole, ← Nat.mul_succ]
    exact Nat.mul_le_mul_left _ below
  · rw [← Nat.mod_mod_of_dvd value.toNat divides]
    generalize value.toNat % 2 ^ width = low at small
    rw [power] at small
    by_cases top : 2 ^ (width - 1) ≤ low
    · rw [if_pos top, Nat.mod_eq_sub_mod top, Nat.mod_eq_of_lt (by omega)]
    · rw [if_neg top, Nat.mod_eq_of_lt (Nat.lt_of_not_le top)]

/-- What a signed wrap does to a number in terms of its lower bits. -/
theorem toInt_add_half_emod (wide : 0 < width) (narrow : width ≤ 64)
    (number : SignExtendedNumber) :
    (number.toInt + 2 ^ (width - 1)) % 2 ^ width =
      if 2 ^ (width - 1) ≤ number.value.toNat % 2 ^ width then
        ((number.value.toNat % 2 ^ width : Nat) : Int) - 2 ^ (width - 1)
      else ((number.value.toNat % 2 ^ width : Nat) : Int) + 2 ^ (width - 1) := by
  obtain ⟨chunk, low, _, _, _, lowSmall, power, lowEq, _⟩ := value_split wide narrow number.value
  have powerInt : (2 : Int) ^ width = 2 * 2 ^ (width - 1) := by exact_mod_cast power
  have halfCast : ((2 ^ (width - 1) : Nat) : Int) = 2 ^ (width - 1) := by push_cast; rfl
  have halfPositive := Nat.two_pow_pos (width - 1)
  rw [Int.add_emod, toInt_emod narrow, lowEq, powerInt]
  have halfMod : (2 : Int) ^ (width - 1) % (2 * 2 ^ (width - 1)) = 2 ^ (width - 1) :=
    Int.emod_eq_of_lt (by omega) (by omega)
  rw [halfMod]
  by_cases top : 2 ^ (width - 1) ≤ low
  · rw [if_pos top, ← Int.sub_emod_right, Int.emod_eq_of_lt (by omega) (by omega)]
    omega
  · rw [if_neg top, Int.emod_eq_of_lt (by omega) (by omega)]

/-- The chunk of a number in a signed cast, as an integer. -/
theorem halfChunk_spec (isMask : mask.toNat = 2 ^ width - 1) (wide : 0 < width)
    (narrow : width ≤ 64) (number : SignExtendedNumber) :
    ((halfChunk mask number).1.toNat : Int) - (halfChunk mask number).2 * 2 ^ 64 =
      (number.toInt + 2 ^ (width - 1)) -
        (number.toInt + 2 ^ (width - 1)) % 2 ^ width := by
  obtain ⟨chunk, low, valueEq, chunkBound, whole, lowSmall, power, lowEq, halfEq⟩ :=
    value_split wide narrow number.value
  have half := half_mask_toNat isMask wide
  have halfPositive := Nat.two_pow_pos (width - 1)
  have halfCast : ((2 ^ (width - 1) : Nat) : Int) = 2 ^ (width - 1) := by push_cast; rfl
  have powerInt : (2 : Int) ^ width = 2 * 2 ^ (width - 1) := by exact_mod_cast power
  have numberEq : number.toInt =
      number.value.toNat - (if number.negative then 1 else 0) * 2 ^ 64 := by
    unfold toInt
    cases number.negative <;> simp
  rw [toInt_add_half_emod wide narrow, lowEq, numberEq]
  have start : (number.value &&& ~~~(mask >>> 1)).toNat =
      if 2 ^ (width - 1) ≤ low then chunk + 2 ^ (width - 1) else chunk := by
    rw [and_not_mask_toNat half, halfEq, valueEq]
    split_ifs <;> omega
  have next : (mask >>> 1 + 1).toNat = 2 ^ (width - 1) := by
    have one : (1 : BitVec 64).toNat = 1 := rfl
    rw [BitVec.toNat_add, half, one, Nat.mod_eq_of_lt (by omega)]
    omega
  unfold halfChunk
  dsimp only
  generalize (if number.negative then (1 : Int) else 0) = negativity
  by_cases top : 2 ^ (width - 1) ≤ low
  · rw [if_pos top] at start ⊢
    have bit : number.value &&& ~~~(mask >>> 1) &&& mask ≠ 0 := by
      intro clear
      have value := congrArg BitVec.toNat clear
      rw [and_mask_toNat isMask, start, Nat.add_mod, whole, Nat.zero_add, Nat.mod_mod,
        Nat.mod_eq_of_lt (by omega)] at value
      exact absurd value halfPositive.ne'
    have sum : (number.value &&& ~~~(mask >>> 1)) + (mask >>> 1 + 1) =
        BitVec.ofNat 64 (chunk + 2 ^ width) := by
      apply BitVec.eq_of_toNat_eq
      rw [BitVec.toNat_add, start, next, BitVec.toNat_ofNat]
      congr 1
      omega
    rw [if_pos bit, sum]
    by_cases wraps : chunk + 2 ^ width = 2 ^ 64
    · rw [if_pos (show BitVec.ofNat 64 (chunk + 2 ^ width) = 0 by rw [wraps]; rfl), wraps]
      show ((0 : Nat) : Int) - _ = _
      rw [valueEq]
      push_cast
      omega
    · have small : chunk + 2 ^ width < 2 ^ 64 := Nat.lt_of_le_of_ne chunkBound wraps
      have valued : (BitVec.ofNat 64 (chunk + 2 ^ width)).toNat = chunk + 2 ^ width := by
        rw [BitVec.toNat_ofNat, Nat.mod_eq_of_lt small]
      have nonzero : BitVec.ofNat 64 (chunk + 2 ^ width) ≠ 0 := by
        intro zero
        have value := congrArg BitVec.toNat zero
        rw [valued] at value
        have : (0 : BitVec 64).toNat = 0 := rfl
        omega
      rw [if_neg nonzero]
      dsimp only
      rw [valued, valueEq]
      push_cast
      omega
  · rw [if_neg top] at start ⊢
    have bit : ¬ (number.value &&& ~~~(mask >>> 1) &&& mask ≠ 0) := by
      intro set
      refine set (BitVec.eq_of_toNat_eq ?_)
      rw [and_mask_toNat isMask, start, whole]
      rfl
    rw [if_neg bit, start, valueEq]
    push_cast
    omega

/-- An end of a signed cast inside one chunk. -/
theorem signExtend_toInt (isMask : mask.toNat = 2 ^ width - 1) (wide : 0 < width)
    (narrow : width ≤ 64) (number : SignExtendedNumber) :
    (signExtend mask number).toInt = signedWrap width number.toInt := by
  obtain ⟨chunk, low, _, chunkBound, _, lowSmall, power, lowEq, _⟩ :=
    value_split wide narrow number.value
  have half := half_mask_toNat isMask wide
  have halfPositive := Nat.two_pow_pos (width - 1)
  have halfCast : ((2 ^ (width - 1) : Nat) : Int) = 2 ^ (width - 1) := by push_cast; rfl
  have next : (mask >>> 1 + 1).toNat = 2 ^ (width - 1) := by
    have one : (1 : BitVec 64).toNat = 1 := rfl
    rw [BitVec.toNat_add, half, one, Nat.mod_eq_of_lt (by omega)]
    omega
  have masked := and_mask_toNat isMask number.value
  rw [lowEq] at masked
  unfold signedWrap
  rw [toInt_add_half_emod wide narrow, lowEq]
  unfold signExtend
  dsimp only
  generalize number.value &&& mask = value at masked
  have xored : (value ^^^ (mask >>> 1 + 1)).toNat =
      if 2 ^ (width - 1) ≤ low then low - 2 ^ (width - 1) else low + 2 ^ (width - 1) := by
    have flip : ∀ n < 2 ^ (width - 1), n ^^^ 2 ^ (width - 1) = n + 2 ^ (width - 1) := by
      intro n small
      rw [Nat.add_comm, ← BitBounds.or_eq_add (dvd_refl _) small, Nat.or_comm]
      refine Nat.eq_of_testBit_eq fun index => ?_
      rw [Nat.testBit_xor, Nat.testBit_or, Nat.testBit_two_pow]
      by_cases same : width - 1 = index
      · rw [← same, Nat.testBit_lt_two_pow small, Bool.false_xor, Bool.false_or]
      · rw [decide_eq_false same, Bool.or_false, Bool.xor_false]
    rw [BitVec.toNat_xor, next, masked]
    by_cases top : 2 ^ (width - 1) ≤ low
    · rw [if_pos top]
      have back := flip (low - 2 ^ (width - 1)) (by omega)
      rw [Nat.sub_add_cancel top] at back
      calc low ^^^ 2 ^ (width - 1) = (low - 2 ^ (width - 1) ^^^ 2 ^ (width - 1)) ^^^ 2 ^ (width - 1) :=
            by rw [back]
        _ = low - 2 ^ (width - 1) := by rw [Nat.xor_assoc, Nat.xor_self, Nat.xor_zero]
    · rw [if_neg top]
      exact flip low (Nat.lt_of_not_le top)
  have sign : (value &&& ~~~(mask >>> 1) != 0) = decide (2 ^ (width - 1) ≤ low) := by
    have chunkOf := and_not_mask_toNat half value
    rw [masked] at chunkOf
    rw [Bool.eq_iff_iff, bne_iff_ne, decide_eq_true_eq, Ne, BitVec.toNat_eq, chunkOf]
    have : (0 : BitVec 64).toNat = 0 := rfl
    by_cases top : 2 ^ (width - 1) ≤ low
    · rw [Nat.mod_eq_sub_mod top, Nat.mod_eq_of_lt (by omega)]
      omega
    · rw [Nat.mod_eq_of_lt (Nat.lt_of_not_le top)]
      omega
  rw [sign]
  by_cases top : 2 ^ (width - 1) ≤ low
  · rw [if_pos top] at xored
    rw [decide_eq_true top, if_pos top, toInt_negative, BitVec.toNat_sub, xored, next]
    have wrapped : (2 ^ 64 - 2 ^ (width - 1) + (low - 2 ^ (width - 1))) % 2 ^ 64 =
        2 ^ 64 - 2 ^ width + low := by
      rw [Nat.mod_eq_of_lt (by omega)]
      omega
    rw [wrapped]
    omega
  · rw [if_neg top] at xored
    rw [decide_eq_false top, if_neg top, toInt_positive, BitVec.toNat_sub, xored, next]
    have wrapped : (2 ^ 64 - 2 ^ (width - 1) + (low + 2 ^ (width - 1))) % 2 ^ 64 = low := by
      have same : 2 ^ 64 - 2 ^ (width - 1) + (low + 2 ^ (width - 1)) = low + 2 ^ 64 := by omega
      rw [same, Nat.add_mod_right, Nat.mod_eq_of_lt (by omega)]
    rw [wrapped]
    omega

theorem signedWrap_bounds (wide : 0 < width) (x : Int) :
    -2 ^ (width - 1) ≤ signedWrap width x ∧ signedWrap width x ≤ 2 ^ (width - 1) - 1 := by
  have power : (2 : Int) ^ width = 2 * 2 ^ (width - 1) := by
    rw [← pow_succ', Nat.sub_add_cancel wide]
  have positive : (0 : Int) < 2 ^ width := by exact_mod_cast Nat.two_pow_pos width
  have lower := Int.emod_nonneg (x + 2 ^ (width - 1)) positive.ne'
  have upper := Int.emod_lt_of_pos (x + 2 ^ (width - 1)) positive
  unfold signedWrap
  omega

/-- The ends of the signed type. -/
theorem signed_ends (isMask : mask.toNat = 2 ^ width - 1) (wide : 0 < width) (narrow : width ≤ 64) :
    toInt { value := ~~~(mask >>> 1), negative := true } = -2 ^ (width - 1) ∧
      toInt { value := mask >>> 1, negative := false } = 2 ^ (width - 1) - 1 := by
  have half := half_mask_toNat isMask wide
  have halfPositive := Nat.two_pow_pos (width - 1)
  have halfSmall : 2 ^ (width - 1) < 2 ^ 64 := Nat.pow_lt_pow_right (by decide) (by omega)
  have halfCast : ((2 ^ (width - 1) : Nat) : Int) = 2 ^ (width - 1) := by push_cast; rfl
  rw [toInt_negative, toInt_positive, BitVec.toNat_not, half]
  omega

/-- A cast to a signed type wraps. -/
theorem castSigned_contains (isMask : mask.toNat = 2 ^ width - 1) (wide : 0 < width)
    (narrow : width ≤ 64) {range : IntRange} {x : Int} (inside : range.Contains x) :
    (range.castSigned mask).Contains (signedWrap width x) := by
  have positive : (0 : Int) < 2 ^ width := by exact_mod_cast Nat.two_pow_pos width
  unfold castSigned
  dsimp only
  by_cases chunk : halfChunk mask range.imin = halfChunk mask range.imax
  · rw [if_pos chunk]
    unfold Contains
    dsimp only
    rw [signExtend_toInt isMask wide narrow, signExtend_toInt isMask wide narrow]
    have lowChunk := halfChunk_spec isMask wide narrow range.imin
    have highChunk := halfChunk_spec isMask wide narrow range.imax
    rw [chunk, highChunk] at lowChunk
    have bounds := emod_between positive (Int.add_le_add_right inside.1 (2 ^ (width - 1)))
      (Int.add_le_add_right inside.2 (2 ^ (width - 1))) lowChunk.symm
    unfold signedWrap
    omega
  · rw [if_neg chunk]
    obtain ⟨low, high⟩ := signed_ends isMask wide narrow
    unfold Contains
    dsimp only
    rw [low, high]
    exact signedWrap_bounds wide x

/-- The ends of a signed cast are values of the type. -/
theorem castSigned_within (isMask : mask.toNat = 2 ^ width - 1) (wide : 0 < width)
    (narrow : width ≤ 64) (range : IntRange) :
    -2 ^ (width - 1) ≤ (range.castSigned mask).imin.toInt ∧
      (range.castSigned mask).imax.toInt ≤ 2 ^ (width - 1) - 1 := by
  unfold castSigned
  dsimp only
  split_ifs
  · dsimp only
    rw [signExtend_toInt isMask wide narrow, signExtend_toInt isMask wide narrow]
    exact ⟨(signedWrap_bounds wide _).1, (signedWrap_bounds wide _).2⟩
  · obtain ⟨low, high⟩ := signed_ends isMask wide narrow
    dsimp only
    rw [low, high]
    exact ⟨Int.le_refl _, Int.le_refl _⟩

/-- The two's-complement reading of the lower bits is the balanced remainder. -/
theorem signedWrap_eq_bmod (wide : 0 < width) (x : Int) :
    signedWrap width x = Int.bmod x (2 ^ width) := by
  have power : 2 ^ width = 2 * 2 ^ (width - 1) := by
    rw [← pow_succ', Nat.sub_add_cancel wide]
  have positive := Nat.two_pow_pos (width - 1)
  have cast : ((2 ^ (width - 1) : Nat) : Int) = 2 ^ (width - 1) := by push_cast; rfl
  have whole : ((2 ^ width : Nat) : Int) = 2 * 2 ^ (width - 1) := by rw [power]; push_cast; rfl
  obtain ⟨lower, upper⟩ := signedWrap_bounds wide x
  have same : signedWrap width x % ((2 ^ width : Nat) : Int) = x % ((2 ^ width : Nat) : Int) := by
    unfold signedWrap
    rw [show ((2 ^ width : Nat) : Int) = 2 ^ width by push_cast; rfl, Int.emod_sub_emod,
      Int.add_sub_cancel]
  rw [← Int.emod_bmod, ← same, Int.emod_bmod, Int.bmod_eq_of_le]
  · rw [whole]
    omega
  · rw [whole]
    omega

/-- Both casts of an ordered range, at every width: each holds the wrapped elements and is
ordered again. -/
theorem casts_contain (wide : 1 ≤ width) (narrow : width ≤ 64)
    (isMask : mask.toNat = 2 ^ width - 1) {range : IntRange}
    (ordered : range.imin.toInt ≤ range.imax.toInt) :
    ((∀ x, range.Contains x → (range.castUnsigned mask).Contains (x % 2 ^ width)) ∧
        (range.castUnsigned mask).imin.toInt ≤ (range.castUnsigned mask).imax.toInt) ∧
      (2 ≤ width →
        (∀ x, range.Contains x → (range.castSigned mask).Contains (Int.bmod x (2 ^ width))) ∧
          (range.castSigned mask).imin.toInt ≤ (range.castSigned mask).imax.toInt) := by
  have lowest : range.Contains range.imin.toInt := ⟨Int.le_refl _, ordered⟩
  have unsigned : ∀ x, range.Contains x → (range.castUnsigned mask).Contains (x % 2 ^ width) :=
    fun _ inside => castUnsigned_contains isMask narrow inside
  refine ⟨⟨unsigned, (unsigned _ lowest).1.trans (unsigned _ lowest).2⟩, fun _ => ?_⟩
  have signed : ∀ x, range.Contains x →
      (range.castSigned mask).Contains (Int.bmod x (2 ^ width)) := by
    intro x inside
    rw [← signedWrap_eq_bmod wide]
    exact castSigned_contains isMask wide narrow inside
  exact ⟨signed, (signed _ lowest).1.trans (signed _ lowest).2⟩

/-- The bytes of a range around zero. -/
theorem casts_contain_byte :
    (castUnsigned { imin := { value := BitVec.allOnes 64, negative := true }, imax := ofValue 1 }
        0xff#64).Contains 255 ∧
      (castSigned { imin := { value := BitVec.allOnes 64, negative := true }, imax := ofValue 1 }
        0xff#64).Contains (-1) := by
  obtain ⟨⟨unsigned, -⟩, signed⟩ := @casts_contain 0xff#64 8 (by decide) (by decide)
    (by decide) { imin := { value := BitVec.allOnes 64, negative := true }, imax := ofValue 1 }
    (by decide)
  have high := unsigned (-1) ⟨by decide, by decide⟩
  have low := (signed (by decide)).1 (-1) ⟨by decide, by decide⟩
  rw [show (-1 : Int) % 2 ^ 8 = 255 by decide] at high
  rw [show Int.bmod (-1) (2 ^ 8) = -1 by decide] at low
  exact ⟨high, low⟩

end Masks

/-! ### Sums, differences and products -/

/-- The integers that are 65-bit numbers. -/
def Fits (x : Int) : Prop := -2 ^ 64 ≤ x ∧ x ≤ 2 ^ 64 - 1

/-- Clamped ends are still around a number that fits. -/
theorem clamp_between {lo x hi : Int} (fits : Fits x) (lower : lo ≤ x) (upper : x ≤ hi) :
    clamp lo ≤ x ∧ x ≤ clamp hi := by
  have exact := clamp_of_mem fits.1 fits.2
  exact ⟨exact ▸ clamp_le_clamp lower, exact ▸ clamp_le_clamp upper⟩

variable {l r : IntRange} {x y : Int}

theorem add_contains (xInside : l.Contains x) (yInside : r.Contains y) (fits : Fits (x + y)) :
    (l.add r).Contains (x + y) := by
  unfold Contains IntRange.add
  dsimp only
  rw [add_toInt, add_toInt]
  exact clamp_between fits (Int.add_le_add xInside.1 yInside.1) (Int.add_le_add xInside.2 yInside.2)

theorem sub_contains (xInside : l.Contains x) (yInside : r.Contains y) (fits : Fits (x - y)) :
    (l.sub r).Contains (x - y) := by
  unfold Contains IntRange.sub
  dsimp only
  rw [sub_toInt, sub_toInt]
  exact clamp_between fits (Int.sub_le_sub xInside.1 yInside.2) (Int.sub_le_sub xInside.2 yInside.1)

theorem neg_contains (xInside : l.Contains x) (fits : Fits (-x)) : l.neg.Contains (-x) := by
  unfold Contains IntRange.neg
  dsimp only
  rw [neg_toInt, neg_toInt]
  exact clamp_between fits (Int.neg_le_neg xInside.2) (Int.neg_le_neg xInside.1)

/-- A product with one factor between two numbers is between the two products. -/
theorem mul_corner {a b x y : Int} (lower : a ≤ x) (upper : x ≤ b) :
    (a * y ≤ x * y ∨ b * y ≤ x * y) ∧ (x * y ≤ a * y ∨ x * y ≤ b * y) := by
  rcases Int.le_total 0 y with nonneg | nonpos
  · exact ⟨Or.inl (Int.mul_le_mul_of_nonneg_right lower nonneg),
      Or.inr (Int.mul_le_mul_of_nonneg_right upper nonneg)⟩
  · exact ⟨Or.inr (Int.mul_le_mul_of_nonpos_right upper nonpos),
      Or.inl (Int.mul_le_mul_of_nonpos_right lower nonpos)⟩

theorem mul_contains (xInside : l.Contains x) (yInside : r.Contains y) (fits : Fits (x * y)) :
    (l.mul r).Contains (x * y) := by
  have clamped : clamp (x * y) = x * y := clamp_of_mem fits.1 fits.2
  obtain ⟨xLower, xUpper⟩ := mul_corner (y := y) xInside.1 xInside.2
  have low : ∀ a, a * r.imin.toInt ≤ a * y ∨ a * r.imax.toInt ≤ a * y := by
    intro a
    rw [Int.mul_comm a, Int.mul_comm a, Int.mul_comm a]
    exact (mul_corner yInside.1 yInside.2).1
  have high : ∀ a, a * y ≤ a * r.imin.toInt ∨ a * y ≤ a * r.imax.toInt := by
    intro a
    rw [Int.mul_comm a, Int.mul_comm a, Int.mul_comm a]
    exact (mul_corner yInside.1 yInside.2).2
  have below : ∀ {z}, z ≤ x * y → clamp z ≤ x * y := fun le => clamped ▸ clamp_le_clamp le
  have above : ∀ {z}, x * y ≤ z → x * y ≤ clamp z := fun le => clamped ▸ clamp_le_clamp le
  unfold IntRange.mul
  refine fromNumbers4_contains ?_ ?_
  · rw [mul_toInt, mul_toInt, mul_toInt, mul_toInt]
    rcases xLower with less | less
    · rcases low l.imin.toInt with corner | corner
      · exact Or.inl (below (Int.le_trans corner less))
      · exact Or.inr (Or.inl (below (Int.le_trans corner less)))
    · rcases low l.imax.toInt with corner | corner
      · exact Or.inr (Or.inr (Or.inl (below (Int.le_trans corner less))))
      · exact Or.inr (Or.inr (Or.inr (below (Int.le_trans corner less))))
  · rw [mul_toInt, mul_toInt, mul_toInt, mul_toInt]
    rcases xUpper with less | less
    · rcases high l.imin.toInt with corner | corner
      · exact Or.inl (above (Int.le_trans less corner))
      · exact Or.inr (Or.inl (above (Int.le_trans less corner)))
    · rcases high l.imax.toInt with corner | corner
      · exact Or.inr (Or.inr (Or.inl (above (Int.le_trans less corner))))
      · exact Or.inr (Or.inr (Or.inr (above (Int.le_trans less corner))))

/-! ### Quotients and remainders -/

/-- A truncated quotient is between the quotients of the ends of the dividend. -/
theorem tdiv_corner {a b x y : Int} (lower : a ≤ x) (upper : x ≤ b) (nonzero : y ≠ 0) :
    (a.tdiv y ≤ x.tdiv y ∨ b.tdiv y ≤ x.tdiv y) ∧
      (x.tdiv y ≤ a.tdiv y ∨ x.tdiv y ≤ b.tdiv y) := by
  rcases Int.lt_or_gt_of_ne nonzero with negative | positive
  · have flipped : ∀ z : Int, z.tdiv y = -(z.tdiv (-y)) := by
      intro z
      rw [Int.tdiv_neg, Int.neg_neg]
    have first := Int.tdiv_le_tdiv (Int.neg_pos_of_neg negative) lower
    have second := Int.tdiv_le_tdiv (Int.neg_pos_of_neg negative) upper
    rw [flipped a, flipped b, flipped x]
    exact ⟨Or.inr (Int.neg_le_neg second), Or.inl (Int.neg_le_neg first)⟩
  · exact ⟨Or.inl (Int.tdiv_le_tdiv positive lower), Or.inr (Int.tdiv_le_tdiv positive upper)⟩

/-- A nonnegative dividend over a larger divisor. -/
theorem tdiv_antitone {a c d : Int} (nonneg : 0 ≤ a) (positive : 0 < c) (le : c ≤ d) :
    a.tdiv d ≤ a.tdiv c := by
  lift a to Nat using nonneg
  lift c to Nat using positive.le
  lift d to Nat using positive.le.trans le
  rw [← Int.ofNat_tdiv, ← Int.ofNat_tdiv]
  exact Int.ofNat_le.mpr (Nat.div_le_div_left (Int.ofNat_le.mp le) (Int.ofNat_lt.mp positive))

/-- A truncated quotient is between the quotients by the ends of a divisor of one sign. -/
theorem tdiv_divisor_corner {a c d y : Int} (lower : c ≤ y) (upper : y ≤ d)
    (sign : 0 < c ∨ d < 0) :
    (a.tdiv c ≤ a.tdiv y ∨ a.tdiv d ≤ a.tdiv y) ∧
      (a.tdiv y ≤ a.tdiv c ∨ a.tdiv y ≤ a.tdiv d) := by
  have positiveCase : ∀ {a c d y : Int}, c ≤ y → y ≤ d → 0 < c →
      (a.tdiv c ≤ a.tdiv y ∨ a.tdiv d ≤ a.tdiv y) ∧
        (a.tdiv y ≤ a.tdiv c ∨ a.tdiv y ≤ a.tdiv d) := by
    intro a c d y lower upper positive
    rcases Int.le_total 0 a with nonneg | nonpos
    · exact ⟨Or.inr (tdiv_antitone nonneg (by omega) upper),
        Or.inl (tdiv_antitone nonneg positive lower)⟩
    · have flipped : ∀ z, a.tdiv z = -((-a).tdiv z) := by
        intro z
        rw [Int.neg_tdiv, Int.neg_neg]
      rw [flipped c, flipped d, flipped y]
      have first := tdiv_antitone (Int.neg_nonneg_of_nonpos nonpos) positive lower
      have second := tdiv_antitone (a := -a) (Int.neg_nonneg_of_nonpos nonpos) (by omega) upper
      exact ⟨Or.inl (Int.neg_le_neg first), Or.inr (Int.neg_le_neg second)⟩
  rcases sign with positive | negative
  · exact positiveCase lower upper positive
  · have corners := positiveCase (a := -a) (Int.neg_le_neg upper) (Int.neg_le_neg lower)
      (Int.neg_pos_of_neg negative)
    rw [Int.neg_tdiv_neg, Int.neg_tdiv_neg, Int.neg_tdiv_neg] at corners
    exact ⟨corners.1.symm, corners.2.symm⟩

theorem value_eq_zero_iff {number : SignExtendedNumber} (bounded : -2 ^ 63 ≤ number.toInt) :
    number.value = 0 ↔ number.toInt = 0 := by
  rcases number with ⟨value, sign⟩
  have zero : (0 : BitVec 64).toNat = 0 := rfl
  rw [BitVec.toNat_eq, zero]
  cases sign with
  | false =>
    rw [toInt_positive]
    exact Int.ofNat_inj.symm
  | true =>
    rw [toInt_negative] at bounded ⊢
    dsimp only
    omega

/-- A divisor other than zero stays in the range moved off zero, whose ends are not zero. -/
theorem dropZero_spec (yInside : r.Contains y) (nonzero : y ≠ 0) (bounded : -2 ^ 63 ≤ r.imin.toInt) :
    r.dropZero.Contains y ∧ r.dropZero.imin.value ≠ 0 ∧ r.dropZero.imax.value ≠ 0 := by
  have imaxBounded : -2 ^ 63 ≤ r.imax.toInt :=
    Int.le_trans bounded (Int.le_trans yInside.1 yInside.2)
  have imaxZero := value_eq_zero_iff imaxBounded
  have iminZero := value_eq_zero_iff bounded
  unfold dropZero
  by_cases atTop : r.imax.value = 0
  · have top := imaxZero.mp atTop
    have sign : r.imax.negative = false := by
      rw [negative_eq, top]
      rfl
    have low : r.imin.value ≠ 0 := by
      rw [Ne, iminZero]
      have := yInside.1
      have := yInside.2
      omega
    rw [if_pos atTop, atTop]
    dsimp only
    rw [sign]
    refine ⟨⟨yInside.1, ?_⟩, low, by decide⟩
    show y ≤ toInt { value := BitVec.allOnes 64, negative := false }
    rw [toInt_positive, allOnes_toNat]
    have := yInside.2
    omega
  · rw [if_neg atTop]
    by_cases atBottom : r.imin.value = 0
    · have bottom := iminZero.mp atBottom
      have sign : r.imin.negative = false := by
        rw [negative_eq, bottom]
        rfl
      rw [if_pos atBottom, atBottom]
      dsimp only
      rw [sign]
      refine ⟨⟨?_, yInside.2⟩, by decide, atTop⟩
      show toInt { value := 1, negative := false } ≤ y
      rw [toInt_positive]
      show ((1 : Nat) : Int) ≤ y
      have := yInside.1
      omega
    · rw [if_neg atBottom]
      exact ⟨yInside, atBottom, atTop⟩

theorem div_contains (xInside : l.Contains x) (yInside : r.Contains y) (nonzero : y ≠ 0)
    (lBounded : -2 ^ 63 ≤ l.imin.toInt) (rBounded : -2 ^ 63 ≤ r.imin.toInt) :
    (l.div r).Contains (x.tdiv y) := by
  have imaxBounded : -2 ^ 63 ≤ l.imax.toInt :=
    Int.le_trans lBounded (Int.le_trans xInside.1 xInside.2)
  have rImaxBounded : -2 ^ 63 ≤ r.imax.toInt :=
    Int.le_trans rBounded (Int.le_trans yInside.1 yInside.2)
  have notZero : ¬ (r.imax.value = 0 ∧ r.imin.value = 0) := by
    rw [value_eq_zero_iff rBounded, value_eq_zero_iff rImaxBounded]
    have := yInside.1
    have := yInside.2
    omega
  obtain ⟨dropped, iminNonzero, imaxNonzero⟩ := dropZero_spec yInside nonzero rBounded
  unfold IntRange.div
  rw [if_neg notZero]
  dsimp only
  generalize r.dropZero = d at dropped iminNonzero imaxNonzero
  have quotient : ∀ {first second : SignExtendedNumber}, -2 ^ 63 ≤ first.toInt →
      second.value ≠ 0 → (first.div second).toInt = first.toInt.tdiv second.toInt :=
    fun bounded second => div_toInt (by omega) second
  have minSign := negative_iff d.imin
  have maxSign := negative_iff d.imax
  have minNonzero := toInt_ne_zero iminNonzero
  have maxNonzero := toInt_ne_zero imaxNonzero
  obtain ⟨dLower, dUpper⟩ := dropped
  obtain ⟨xLower, xUpper⟩ := xInside
  split_ifs with positive spanning
  · simp only [Bool.and_eq_true, Bool.not_eq_true', Bool.eq_false_iff, Ne, negative_iff] at positive
    obtain ⟨⟨⟨lMin, lMax⟩, dMin⟩, dMax⟩ := positive
    unfold Contains
    dsimp only
    rw [quotient lBounded imaxNonzero, quotient imaxBounded iminNonzero]
    constructor
    · exact Int.le_trans (tdiv_antitone (by omega) (by omega) dUpper)
        (Int.tdiv_le_tdiv (by omega) xLower)
    · exact Int.le_trans (Int.tdiv_le_tdiv (by omega) xUpper)
        (tdiv_antitone (by omega) (by omega) dLower)
  · have bound := Int.natAbs_tdiv_le_natAbs x y
    have imaxNeg := neg_toInt l.imax
    have iminNeg := neg_toInt l.imin
    have imaxTop := l.imax.toInt_bounds.2
    have iminTop := l.imin.toInt_bounds.2
    rw [clamp_of_mem (by omega) (by omega)] at imaxNeg iminNeg
    refine fromNumbers4_contains ?_ ?_
    · rw [imaxNeg, iminNeg]
      omega
    · rw [imaxNeg, iminNeg]
      omega
  · have sign : 0 < d.imin.toInt ∨ d.imax.toInt < 0 := by
      simp only [Bool.and_eq_true, Bool.not_eq_true', Bool.eq_false_iff, Ne, negative_iff]
        at spanning
      omega
    obtain ⟨lower, upper⟩ := tdiv_corner xLower xUpper nonzero
    have low := fun a => (tdiv_divisor_corner (a := a) dLower dUpper sign).1
    have high := fun a => (tdiv_divisor_corner (a := a) dLower dUpper sign).2
    refine fromNumbers4_contains ?_ ?_
    · rw [quotient lBounded iminNonzero, quotient lBounded imaxNonzero,
        quotient imaxBounded iminNonzero, quotient imaxBounded imaxNonzero]
      have first := low l.imin.toInt
      have second := low l.imax.toInt
      omega
    · rw [quotient lBounded iminNonzero, quotient lBounded imaxNonzero,
        quotient imaxBounded iminNonzero, quotient imaxBounded imaxNonzero]
      have first := high l.imin.toInt
      have second := high l.imax.toInt
      omega

/-- The lower end of the negated absolute values. -/
theorem absNeg_imin (yInside : r.Contains y) (bounded : -2 ^ 63 ≤ r.imin.toInt) :
    r.absNeg.imin.toInt ≤ -y.natAbs ∧ -2 ^ 64 < r.absNeg.imin.toInt := by
  obtain ⟨lower, upper⟩ := yInside
  have top := r.imax.toInt_bounds.2
  have imaxNeg := neg_toInt r.imax
  rw [clamp_of_mem (by omega) (by omega)] at imaxNeg
  have minSign := negative_iff r.imin
  have maxSign := negative_iff r.imax
  unfold absNeg
  by_cases negative : r.imax.negative = true
  · rw [if_pos negative]
    rw [maxSign] at negative
    omega
  · rw [if_neg negative]
    rw [maxSign] at negative
    by_cases nonneg : (!r.imin.negative) = true
    · rw [if_pos nonneg]
      rw [Bool.not_eq_true', Bool.eq_false_iff, Ne, minSign] at nonneg
      dsimp only
      omega
    · rw [if_neg nonneg]
      dsimp only
      by_cases less : r.imax.neg.lt r.imin = true
      · rw [if_pos less]
        rw [lt_iff] at less
        omega
      · rw [if_neg less]
        rw [lt_iff] at less
        omega

theorem mod_contains (xInside : l.Contains x) (yInside : r.Contains y) (nonzero : y ≠ 0)
    (rBounded : -2 ^ 63 ≤ r.imin.toInt) : (l.mod r).Contains (x.tmod y) := by
  obtain ⟨absLower, absBounded⟩ := absNeg_imin yInside rBounded
  have absTop := r.absNeg.imin.toInt_bounds.2
  have denMin : (r.absNeg.imin.add (ofValue 1)).toInt = r.absNeg.imin.toInt + 1 := by
    rw [add_toInt, toInt_ofValue]
    show clamp (_ + ((1 : Nat) : Int)) = _
    exact clamp_of_mem (by omega) (by omega)
  have denMax : (r.absNeg.imin.add (ofValue 1)).neg.toInt = -(r.absNeg.imin.toInt + 1) := by
    rw [neg_toInt, denMin]
    exact clamp_of_mem (by omega) (by omega)
  have small : (x.tmod y).natAbs < y.natAbs := by
    rw [Int.natAbs_tmod]
    exact Nat.mod_lt _ (Int.natAbs_pos.mpr nonzero)
  have smaller : (x.tmod y).natAbs ≤ x.natAbs := by
    rw [Int.natAbs_tmod]
    exact Nat.mod_le _ _
  have nonneg : 0 ≤ x → 0 ≤ x.tmod y := fun sign => Int.tmod_nonneg y sign
  have nonpos : x ≤ 0 → x.tmod y ≤ 0 := by
    intro sign
    have flipped := Int.tmod_nonneg (a := -x) y (by omega)
    rw [Int.neg_tmod] at flipped
    omega
  obtain ⟨lower, upper⟩ := xInside
  have minSign := negative_iff l.imin
  have maxSign := negative_iff l.imax
  unfold IntRange.mod Contains
  dsimp only
  constructor
  · by_cases sign : (!l.imin.negative) = true
    · rw [if_pos sign]
      rw [Bool.not_eq_true'] at sign
      rw [sign, toInt_positive]
      show ((0 : Nat) : Int) ≤ _
      have : ¬ l.imin.toInt < 0 := by
        rw [← minSign, sign]
        exact Bool.false_ne_true
      have := nonneg (by omega)
      omega
    · rw [if_neg sign]
      have negative : l.imin.toInt < 0 := by
        rw [← minSign]
        cases value : l.imin.negative with
        | true => rfl
        | false =>
          rw [value] at sign
          exact absurd rfl sign
      by_cases less : l.imin.lt (r.absNeg.imin.add (ofValue 1)) = true
      · rw [if_pos less, denMin]
        omega
      · rw [if_neg less]
        omega
  · by_cases sign : l.imax.negative = true
    · rw [if_pos sign, toInt_ofValue]
      rw [maxSign] at sign
      show _ ≤ ((0 : Nat) : Int)
      have := nonpos (by omega)
      omega
    · rw [if_neg sign]
      rw [maxSign] at sign
      by_cases less : (r.absNeg.imin.add (ofValue 1)).neg.lt l.imax = true
      · rw [if_pos less, denMax]
        omega
      · rw [if_neg less]
        omega

/-! ### Shifts and complement -/

/-- A count from zero on stays among the counts an operator uses. -/
theorem shiftCounts_spec (yInside : r.Contains y) (nonneg : 0 ≤ y) (small : y ≤ 64) :
    r.shiftCounts.Contains y ∧ r.shiftCounts.imin.negative = false ∧
      r.shiftCounts.imax.negative = false := by
  unfold shiftCounts
  cases sign : r.imin.negative with
  | true =>
    rw [if_pos rfl]
    refine ⟨⟨?_, ?_⟩, rfl, rfl⟩
    · exact nonneg
    · exact small
  | false =>
    rw [if_neg Bool.false_ne_true]
    refine ⟨yInside, sign, ?_⟩
    have upper := yInside.2
    rw [negative_eq, decide_eq_false_iff_not]
    omega

/-- The count of a nonnegative number. -/
theorem count_toInt {number : SignExtendedNumber} (sign : number.negative = false) :
    number.toInt = number.value.toNat := by
  unfold toInt
  rw [sign, if_neg Bool.false_ne_true, Int.sub_zero]

/-- Counts in the order of the numbers. -/
theorem counts_between (inside : r.Contains y) (minSign : r.imin.negative = false)
    (maxSign : r.imax.negative = false) :
    r.imin.value.toNat ≤ y.toNat ∧ y.toNat ≤ r.imax.value.toNat := by
  have lower := inside.1
  have upper := inside.2
  rw [count_toInt minSign] at lower
  rw [count_toInt maxSign] at upper
  omega

theorem two_pow_le {m n : Nat} (le : m ≤ n) : (2 : Int) ^ m ≤ 2 ^ n := by
  exact_mod_cast Nat.pow_le_pow_right Nat.two_pos le

theorem two_pow_positive (n : Nat) : (0 : Int) < 2 ^ n := by
  exact_mod_cast Nat.two_pow_pos n

theorem shl_contains (xInside : l.Contains x) (yInside : r.Contains y) (nonneg : 0 ≤ y)
    (small : y ≤ 64) (fits : Fits (x * 2 ^ y.toNat)) : (l.shl r).Contains (x * 2 ^ y.toNat) := by
  obtain ⟨counts, minCount, maxCount⟩ := shiftCounts_spec yInside nonneg small
  obtain ⟨lower, upper⟩ := counts_between counts minCount maxCount
  unfold IntRange.shl Contains
  dsimp only
  generalize r.shiftCounts = d at *
  generalize y.toNat = k at *
  have power := two_pow_positive k
  have minSign := negative_iff l.imin
  have maxSign := negative_iff l.imax
  obtain ⟨xLower, xUpper⟩ := xInside
  have clamped : clamp (x * 2 ^ k) = x * 2 ^ k := clamp_of_mem fits.1 fits.2
  constructor
  · by_cases sign : l.imin.negative = true
    · rw [if_pos sign, shl_toInt maxCount, ← clamped]
      refine clamp_le_clamp (Int.le_trans ?_ (Int.mul_le_mul_of_nonneg_right xLower power.le))
      exact Int.mul_le_mul_of_nonpos_left (minSign.mp sign).le (two_pow_le upper)
    · rw [if_neg sign, shl_toInt minCount, ← clamped]
      refine clamp_le_clamp (Int.le_trans ?_ (Int.mul_le_mul_of_nonneg_right xLower power.le))
      rw [minSign] at sign
      exact Int.mul_le_mul_of_nonneg_left (two_pow_le lower) (Int.not_lt.mp sign)
  · by_cases sign : l.imax.negative = true
    · rw [if_pos sign, shl_toInt minCount, ← clamped]
      refine clamp_le_clamp (Int.le_trans (Int.mul_le_mul_of_nonneg_right xUpper power.le) ?_)
      exact Int.mul_le_mul_of_nonpos_left (maxSign.mp sign).le (two_pow_le lower)
    · rw [if_neg sign, shl_toInt maxCount, ← clamped]
      refine clamp_le_clamp (Int.le_trans (Int.mul_le_mul_of_nonneg_right xUpper power.le) ?_)
      rw [maxSign] at sign
      exact Int.mul_le_mul_of_nonneg_left (two_pow_le upper) (Int.not_lt.mp sign)

/-- A shifted nonnegative number over more bits. -/
theorem ediv_pow_antitone {a : Int} {m n : Nat} (nonneg : 0 ≤ a) (le : m ≤ n) :
    a / 2 ^ n ≤ a / 2 ^ m := by
  lift a to Nat using nonneg
  exact_mod_cast Nat.div_le_div_left (Nat.pow_le_pow_right Nat.two_pos le) (Nat.two_pow_pos m)

/-- A shifted negative number over more bits. -/
theorem ediv_pow_monotone {a : Int} {m n : Nat} (negative : a < 0) (le : m ≤ n) :
    a / 2 ^ m ≤ a / 2 ^ n := by
  have power := two_pow_positive n
  rw [Int.le_ediv_iff_mul_le power]
  have quotient : a / 2 ^ m ≤ 0 := 
    Int.ediv_nonpos_of_nonpos_of_neg negative.le (two_pow_positive m)
  exact Int.le_trans (Int.mul_le_mul_of_nonpos_left quotient (two_pow_le le))
    (Int.ediv_mul_le a (two_pow_positive m).ne')

theorem shr_contains (xInside : l.Contains x) (yInside : r.Contains y) (nonneg : 0 ≤ y)
    (small : y ≤ 64) : (l.shr r).Contains (x / 2 ^ y.toNat) := by
  obtain ⟨counts, minCount, maxCount⟩ := shiftCounts_spec yInside nonneg small
  obtain ⟨lower, upper⟩ := counts_between counts minCount maxCount
  unfold IntRange.shr Contains
  dsimp only
  generalize r.shiftCounts = d at *
  generalize y.toNat = k at *
  have power := two_pow_positive k
  have minSign := negative_iff l.imin
  have maxSign := negative_iff l.imax
  obtain ⟨xLower, xUpper⟩ := xInside
  constructor
  · refine Int.le_trans ?_ (Int.ediv_le_ediv power xLower)
    by_cases sign : l.imin.negative = true
    · rw [if_pos sign, shr_toInt minCount]
      exact ediv_pow_monotone (minSign.mp sign) lower
    · rw [if_neg sign, shr_toInt maxCount]
      rw [minSign] at sign
      exact ediv_pow_antitone (Int.not_lt.mp sign) upper
  · refine Int.le_trans (Int.ediv_le_ediv power xUpper) ?_
    by_cases sign : l.imax.negative = true
    · rw [if_pos sign, shr_toInt maxCount]
      exact ediv_pow_monotone (maxSign.mp sign) upper
    · rw [if_neg sign, shr_toInt minCount]
      rw [maxSign] at sign
      exact ediv_pow_antitone (Int.not_lt.mp sign) lower

theorem ushr_contains (xInside : l.Contains x) (yInside : r.Contains y) (nonneg : 0 ≤ y)
    (small : y ≤ 64) (positive : 0 ≤ l.imin.toInt) : (l.ushr r).Contains (x / 2 ^ y.toNat) := by
  obtain ⟨counts, minCount, maxCount⟩ := shiftCounts_spec yInside nonneg small
  obtain ⟨lower, upper⟩ := counts_between counts minCount maxCount
  unfold IntRange.ushr Contains
  dsimp only
  generalize r.shiftCounts = d at *
  generalize y.toNat = k at *
  have power := two_pow_positive k
  obtain ⟨xLower, xUpper⟩ := xInside
  rw [shr_toInt maxCount, shr_toInt minCount]
  constructor
  · exact Int.le_trans (ediv_pow_antitone positive upper) (Int.ediv_le_ediv power xLower)
  · refine Int.le_trans (Int.ediv_le_ediv power xUpper) (ediv_pow_antitone ?_ lower)
    exact Int.le_trans positive (Int.le_trans xLower xUpper)

end LaserD.Vrp.IntRange
