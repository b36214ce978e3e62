/-
This file models the remainder of 65-bit numbers and proves what the division and the remainder
compute for the smallest dividend.

The magnitude of the smallest number does not fit 64 bits. Its quotient by a divisor that is no
power of two is that of the largest 64-bit value, its quotient by a power of two is the power with
its bits reversed, and its remainder is one more than that of the largest value.
-/

import LaserD.Vrp.SignExtended
import Mathlib.Data.Nat.Prime.Basic

namespace LaserD.Vrp

namespace SignExtendedNumber

/-- Remainder. -/
def mod (first second : SignExtendedNumber) : SignExtendedNumber :=
  if second.value = 0 then
    if !second.negative then second else if first.isMinimum then ofValue 0 else first
  else
    let aAbs := copySign second.value second.negative
    let rvVal :=
      if !first.isMinimum then copySign first.value first.negative % aAbs
      else if aAbs &&& (aAbs - 1) ≠ 0 then BitVec.allOnes 64 % aAbs + 1
      else 0
    let rvVal := copySign rvVal first.negative
    { value := rvVal, negative := rvVal != 0 && first.negative }

/-! ### Magnitudes -/

/-- The test for a power of two. -/
theorem isPower_iff (aAbs : BitVec 64) (positive : aAbs.toNat ≠ 0) :
    aAbs &&& (aAbs - 1) = 0 ↔ ∃ exponent, aAbs.toNat = 2 ^ exponent := by
  have bound := aAbs.isLt
  have pred : (aAbs - 1).toNat = aAbs.toNat - 1 := by
    rw [BitVec.toNat_sub, show (1 : BitVec 64).toNat = 1 from rfl]
    omega
  rw [BitVec.toNat_eq, BitVec.toNat_and, pred]
  exact Nat.and_sub_one_eq_zero_iff_isPowerOfTwo positive

/-- What is no power of two does not divide the magnitude of the smallest number. -/
theorem not_dvd_of_not_power {a : Nat} (noPower : ¬ ∃ exponent, a = 2 ^ exponent) :
    ¬ a ∣ 2 ^ 64 := by
  intro divides
  obtain ⟨exponent, _, same⟩ := (Nat.dvd_prime_pow Nat.prime_two).mp divides
  exact noPower ⟨exponent, same⟩

/-- Where the divisor does not divide a successor, the quotient is that of its predecessor and the
remainder is one more. -/
theorem div_mod_pred {n a : Nat} (positive : 0 < n) (noDivisor : ¬ a ∣ n) :
    (n - 1) / a = n / a ∧ (n - 1) % a + 1 = n % a := by
  obtain ⟨m, rfl⟩ := Nat.exists_eq_succ_of_ne_zero positive.ne'
  have quotient := Nat.succ_div (a := m) (b := a)
  rw [if_neg noDivisor] at quotient
  have whole := Nat.div_add_mod m a
  have whole' := Nat.div_add_mod (m + 1) a
  rw [quotient, Nat.add_zero] at whole'
  rw [Nat.succ_eq_add_one, Nat.add_sub_cancel, quotient]
  exact ⟨rfl, by omega⟩

theorem reverseBits_twoPow : ∀ exponent < 63,
    (reverseBits (BitVec.twoPow 64 (exponent + 1))).toNat = 2 ^ (63 - exponent) := by
  decide +kernel

/-- The reversed bits of a power of two above one are its quotient. -/
theorem reverseBits_toNat {aAbs : BitVec 64} {exponent : Nat}
    (power : aAbs.toNat = 2 ^ exponent) (large : aAbs ≠ 1) :
    (reverseBits aAbs).toNat = 2 ^ 64 / aAbs.toNat := by
  have small : exponent < 64 := by
    have bound := aAbs.isLt
    rw [power] at bound
    exact (Nat.pow_lt_pow_iff_right (by decide)).mp bound
  cases exponent with
  | zero => exact absurd (BitVec.eq_of_toNat_eq power) large
  | succ exponent =>
    have same : aAbs = BitVec.twoPow 64 (exponent + 1) := by
      apply BitVec.eq_of_toNat_eq
      rw [power, BitVec.toNat_twoPow,
        Nat.mod_eq_of_lt (Nat.pow_lt_pow_right (by decide) small)]
    rw [power, same, reverseBits_twoPow exponent (by omega),
      Nat.pow_div (by omega) (by decide), show 64 - (exponent + 1) = 63 - exponent by omega]

theorem tmod_eq_abs (x y : Int) :
    x.tmod y = if decide (x < 0) = true then -(|x| % |y|) else |x| % |y| := by
  rcases lt_or_ge x 0 with negative | nonneg
  · rw [decide_eq_true negative, if_pos rfl, abs_of_neg negative, Int.emod_abs,
      ← Int.tmod_eq_emod_of_nonneg (Int.neg_nonneg_of_nonpos negative.le), Int.neg_tmod, neg_neg]
  · rw [decide_eq_false (not_lt.mpr nonneg), if_neg Bool.false_ne_true, abs_of_nonneg nonneg,
      Int.emod_abs, Int.tmod_eq_emod_of_nonneg nonneg]

/-! ### The smallest divisor -/

/-- A divisor other than zero whose value is zero is the smallest number. -/
theorem smallest_of_zero {number : SignExtendedNumber} (zero : number.value = 0)
    (nonzero : number.toInt ≠ 0) : number.negative = true ∧ number.toInt = -2 ^ 64 := by
  have same := toInt_of_zero zero
  by_cases negative : number.negative = true
  · rw [if_pos negative] at same
    exact ⟨negative, same⟩
  · rw [if_neg negative] at same
    exact absurd same nonzero

theorem abs_lt_of_plain {number : SignExtendedNumber} (plain : number.toInt ≠ -2 ^ 64) :
    |number.toInt| < 2 ^ 64 := by
  have bounds := number.toInt_bounds
  rw [abs_lt]
  omega

theorem div_smallest {first second : SignExtendedNumber} (zero : second.value = 0)
    (nonzero : second.toInt ≠ 0) :
    (first.div second).toInt = first.toInt.tdiv second.toInt := by
  obtain ⟨negative, smallest⟩ := smallest_of_zero zero nonzero
  have minimum : (first.value = 0 ∧ first.negative = true) ↔ first.toInt = -2 ^ 64 := by
    rw [← isMinimum_iff, isMinimum, Bool.and_eq_true, beq_iff_eq, and_comm]
  unfold div
  rw [if_pos zero, if_pos negative, toInt_ofValue, smallest]
  by_cases same : first.toInt = -2 ^ 64
  · rw [if_pos (minimum.mpr same), same]
    rfl
  · rw [if_neg (fun both => same (minimum.mp both)), tdiv_eq_abs,
      show |(-2 ^ 64 : Int)| = 2 ^ 64 from rfl,
      Int.ediv_eq_zero_of_lt (abs_nonneg _) (abs_lt_of_plain same)]
    simp

theorem mod_smallest {first second : SignExtendedNumber} (zero : second.value = 0)
    (nonzero : second.toInt ≠ 0) :
    (first.mod second).toInt = first.toInt.tmod second.toInt := by
  obtain ⟨negative, smallest⟩ := smallest_of_zero zero nonzero
  unfold mod
  rw [if_pos zero, negative, Bool.not_true, if_neg Bool.false_ne_true, smallest]
  by_cases minimum : first.isMinimum = true
  · rw [if_pos minimum, (isMinimum_iff first).mp minimum]
    rfl
  · have plain : first.toInt ≠ -2 ^ 64 := fun same => minimum ((isMinimum_iff first).mpr same)
    rw [if_neg minimum, tmod_eq_abs, show |(-2 ^ 64 : Int)| = 2 ^ 64 from rfl,
      Int.emod_eq_of_lt (abs_nonneg _) (abs_lt_of_plain plain)]
    by_cases below : first.toInt < 0
    · rw [decide_eq_true below, if_pos rfl, abs_of_neg below, neg_neg]
    · rw [decide_eq_false below, if_neg Bool.false_ne_true, abs_of_nonneg (not_lt.mp below)]

/-! ### The smallest dividend -/

theorem div_minimum {first second : SignExtendedNumber} (minimum : first.isMinimum = true)
    (nonzero : second.value ≠ 0) :
    (first.div second).toInt = clamp (first.toInt.tdiv second.toInt) := by
  have smallest := (isMinimum_iff first).mp minimum
  have negative : first.negative = true := (Bool.and_eq_true _ _ ▸ minimum).1
  have magnitude := copySign_toNat nonzero
  have absNonzero := abs_pos.mpr (toInt_ne_zero nonzero)
  have sign := negative_eq second
  have quotient : first.toInt.tdiv second.toInt =
      if (true != second.negative) = true then
        -((2 ^ 64 / (copySign second.value second.negative).toNat : Nat) : Int)
      else ((2 ^ 64 / (copySign second.value second.negative).toNat : Nat) : Int) := by
    rw [tdiv_eq_abs, ← magnitude, sign, smallest]
    push_cast
    rfl
  rw [quotient]
  unfold div
  rw [if_neg nonzero]
  dsimp only
  rw [minimum, Bool.not_true, if_neg Bool.false_ne_true, negative]
  set a := copySign second.value second.negative with aEq
  have aPositive : a.toNat ≠ 0 := by omega
  have within : a.toNat ≠ 1 → 2 ^ 64 / a.toNat ≤ 2 ^ 63 := by
    intro large
    exact (Nat.div_le_div_left (by omega : 2 ≤ a.toNat) (by decide)).trans (by decide)
  have inside : ∀ q : Nat, q ≤ 2 ^ 63 → ∀ flag : Bool,
      clamp (if flag = true then -(q : Int) else q) = if flag = true then -(q : Int) else q := by
    intro q small flag
    refine clamp_of_mem ?_ ?_
    · split <;> omega
    · split <;> omega
  by_cases power : a &&& (a - 1) = 0
  · rw [if_neg (not_not.mpr power)]
    obtain ⟨exponent, same⟩ := (isPower_iff a aPositive).mp power
    by_cases one : a = 1
    · rw [if_pos one, one]
      cases second.negative
      · rfl
      · rfl
    · rw [if_neg one, finish_toInt, reverseBits_toNat same one]
      exact (inside _ (within fun value => one (BitVec.eq_of_toNat_eq value)) _).symm
  · rw [if_pos power]
    have noDivisor := not_dvd_of_not_power (mt (isPower_iff a aPositive).mpr power)
    rw [finish_toInt, BitVec.toNat_udiv, allOnes_toNat,
      (div_mod_pred (by decide) noDivisor).1]
    refine (inside _ (within fun value => noDivisor ?_) _).symm
    rw [value]
    exact one_dvd _

theorem mod_minimum {first second : SignExtendedNumber} (minimum : first.isMinimum = true)
    (nonzero : second.value ≠ 0) :
    (first.mod second).toInt = first.toInt.tmod second.toInt := by
  have smallest := (isMinimum_iff first).mp minimum
  have negative : first.negative = true := (Bool.and_eq_true _ _ ▸ minimum).1
  have magnitude := copySign_toNat nonzero
  have absNonzero := abs_pos.mpr (toInt_ne_zero nonzero)
  have remainder : first.toInt.tmod second.toInt =
      -((2 ^ 64 % (copySign second.value second.negative).toNat : Nat) : Int) := by
    rw [tmod_eq_abs, ← magnitude, smallest]
    push_cast
    rfl
  rw [remainder]
  unfold mod
  rw [if_neg nonzero]
  dsimp only
  rw [minimum, Bool.not_true, if_neg Bool.false_ne_true, negative, finish_toInt, if_pos rfl]
  set a := copySign second.value second.negative with aEq
  have aPositive : a.toNat ≠ 0 := by omega
  by_cases power : a &&& (a - 1) = 0
  · rw [if_neg (not_not.mpr power)]
    obtain ⟨exponent, same⟩ := (isPower_iff a aPositive).mp power
    have small : exponent ≤ 64 := by
      have bound := a.isLt
      rw [same] at bound
      exact ((Nat.pow_lt_pow_iff_right (by decide)).mp bound).le
    rw [Nat.mod_eq_zero_of_dvd (same ▸ Nat.pow_dvd_pow 2 small)]
    rfl
  · rw [if_pos power]
    have noDivisor := not_dvd_of_not_power (mt (isPower_iff a aPositive).mpr power)
    have next := (div_mod_pred (n := 2 ^ 64) (by decide) noDivisor).2
    have below : 2 ^ 64 % a.toNat < a.toNat := Nat.mod_lt _ (Nat.pos_of_ne_zero aPositive)
    have bound := a.isLt
    rw [BitVec.toNat_add, BitVec.toNat_umod, allOnes_toNat, show (1 : BitVec 64).toNat = 1 from rfl,
      next, Nat.mod_eq_of_lt (by omega)]

/-! ### All operands -/

theorem div_exact (first second : SignExtendedNumber) (nonzero : second.toInt ≠ 0) :
    (first.div second).toInt = clamp (first.toInt.tdiv second.toInt) := by
  have firstBounds := first.toInt_bounds
  have secondBounds := second.toInt_bounds
  by_cases zero : second.value = 0
  · have below := (first.div second).toInt_bounds
    rw [div_smallest zero nonzero] at below ⊢
    exact (clamp_of_mem below.1 below.2).symm
  by_cases minimum : first.isMinimum = true
  · exact div_minimum minimum zero
  · have plain : first.toInt ≠ -2 ^ 64 := fun same => minimum ((isMinimum_iff first).mpr same)
    have below := (first.div second).toInt_bounds
    rw [div_toInt plain zero] at below ⊢
    exact (clamp_of_mem below.1 below.2).symm

theorem mod_exact (first second : SignExtendedNumber) (nonzero : second.toInt ≠ 0) :
    (first.mod second).toInt = clamp (first.toInt.tmod second.toInt) := by
  have below := (first.mod second).toInt_bounds
  suffices exact : (first.mod second).toInt = first.toInt.tmod second.toInt by
    rw [exact] at below ⊢
    exact (clamp_of_mem below.1 below.2).symm
  by_cases zero : second.value = 0
  · exact mod_smallest zero nonzero
  by_cases minimum : first.isMinimum = true
  · exact mod_minimum minimum zero
  · have plain : first.toInt ≠ -2 ^ 64 := fun same => minimum ((isMinimum_iff first).mpr same)
    unfold mod
    rw [if_neg zero]
    dsimp only
    rw [if_pos (by rw [Bool.eq_false_iff.mpr minimum]; rfl), finish_toInt, BitVec.toNat_umod,
      tmod_eq_abs, ← magnitude_toNat plain, ← copySign_toNat zero, ← negative_eq]
    push_cast
    rfl

/-- A count of a shift is the number its value holds. -/
theorem count_of_nonneg {number : SignExtendedNumber} (nonneg : 0 ≤ number.toInt) :
    number.negative = false ∧ number.toInt.toNat = number.value.toNat := by
  have sign := negative_iff number
  have plain : number.negative = false :=
    Bool.eq_false_iff.mpr fun negative => absurd (sign.mp negative) (not_lt.mpr nonneg)
  refine ⟨plain, ?_⟩
  obtain ⟨value, flag⟩ := number
  rw [show flag = false from plain, toInt_positive, Int.toNat_natCast]

/-- Each operation returns the exact integer clamped to the numbers. -/
theorem arithmetic_exact (x y : SignExtendedNumber) :
    (x.add y).toInt = clamp (x.toInt + y.toInt) ∧
    (x.sub y).toInt = clamp (x.toInt - y.toInt) ∧
    x.neg.toInt = clamp (-x.toInt) ∧
    (x.mul y).toInt = clamp (x.toInt * y.toInt) ∧
    (0 ≤ y.toInt →
      (x.shl y).toInt = clamp (x.toInt * 2 ^ y.toInt.toNat) ∧
      (x.shr y).toInt = clamp (x.toInt / 2 ^ y.toInt.toNat)) ∧
    (y.toInt ≠ 0 →
      (x.div y).toInt = clamp (x.toInt.tdiv y.toInt) ∧
      (x.mod y).toInt = clamp (x.toInt.tmod y.toInt)) := by
  refine ⟨add_toInt x y, sub_toInt x y, neg_toInt x, mul_toInt x y, fun nonneg => ?_,
    fun nonzero => ⟨div_exact x y nonzero, mod_exact x y nonzero⟩⟩
  obtain ⟨plain, count⟩ := count_of_nonneg nonneg
  rw [count]
  refine ⟨shl_toInt plain, ?_⟩
  have bounds := (x.shr y).toInt_bounds
  rw [shr_toInt plain] at bounds ⊢
  exact (clamp_of_mem bounds.1 bounds.2).symm

theorem arithmetic_exact_smallest :
    (SignExtendedNumber.min.div (ofValue 3)).toInt = clamp ((-2 ^ 64 : Int).tdiv 3) ∧
      (SignExtendedNumber.min.shr (ofValue 3)).toInt = clamp (-2 ^ 64 / 2 ^ 3) :=
  ⟨((arithmetic_exact SignExtendedNumber.min (ofValue 3)).2.2.2.2.2 (by decide)).1,
    ((arithmetic_exact SignExtendedNumber.min (ofValue 3)).2.2.2.2.1 (by decide)).2⟩

end SignExtendedNumber

end LaserD.Vrp
