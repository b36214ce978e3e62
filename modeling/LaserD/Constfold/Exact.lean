/-
This file proves the folding of integer operators exact.

For operands of one type every operator is computed on 64-bit words that are congruent to the
numbers of the operands, so addition, negation and multiplication follow from the reduction of the
result alone. Division, remainder, right shifts and comparisons are not compatible with the
congruence: there the word of an unsigned constant is the natural number itself and the word of a
signed constant is its sign extension, and the host operation of the right signedness is the
operation on the numbers.
-/

import LaserD.Constfold.Folding
import Mathlib.Data.Int.ModEq
import Mathlib.Tactic.Ring

namespace LaserD.Constfold

/-! ### Reduction -/

theorem reduce_modEq (ty : TY) (number : Int) : ty.reduce number ≡ number [ZMOD 2 ^ ty.bits] := by
  unfold TY.reduce
  split
  · exact Int.mod_modEq _ _
  · have divides := Int.dvd_self_sub_bmod (x := number) (m := 2 ^ ty.bits)
    rw [Nat.cast_pow, Nat.cast_ofNat] at divides
    exact (Int.modEq_iff_dvd.mpr divides)

theorem reduce_congr {ty : TY} {first second : Int} (same : first ≡ second [ZMOD 2 ^ ty.bits]) :
    ty.reduce first = ty.reduce second := by
  unfold TY.reduce
  split
  · exact same
  · have cast : ((2 ^ ty.bits : Nat) : Int) = 2 ^ ty.bits := by norm_cast
    rw [← Int.emod_bmod first, ← Int.emod_bmod second, cast, same]

variable {T S : TY}

namespace IntegerExp

theorem number_of_unsigned (unsigned : T.isUnsigned = true) (e : IntegerExp T) :
    e.number = e.value.toNat := by
  rw [number, if_pos unsigned]

theorem number_of_signed (signed : T.isUnsigned = false) (e : IntegerExp T) :
    e.number = e.value.toInt := by
  rw [number, signed, if_neg Bool.false_ne_true]

/-- The two's complement pattern of the constant in the width of its type. -/
def pattern (e : IntegerExp T) : BitVec T.bits := e.value.setWidth T.bits

end IntegerExp

/-- A word that is congruent to an integer becomes the reduction of the integer. -/
theorem number_of_congruent (width : 8 ≤ T.bits) {word : BitVec 64} {number : Int}
    (congruent : word = BitVec.ofInt 64 number) :
    (emplaceExp T word).number = T.reduce number := by
  rw [congruent, number_emplaceExp width]

theorem pattern_emplaceExp (width : 8 ≤ T.bits) (word : BitVec 64) :
    (emplaceExp T word).pattern = word.setWidth T.bits := by
  show (normalize T word).setWidth T.bits = word.setWidth T.bits
  cases unsigned : T.isUnsigned
  · rw [normalize_signed unsigned, setWidth_signExtend (bits_le T)]
  · rw [normalize_unsigned width unsigned, BitVec.setWidth_setWidth_of_le _ (bits_le T),
      BitVec.setWidth_eq]

/-! ### Arithmetic -/

theorem number_Neg (width : 8 ≤ T.bits) (a : IntegerExp T) :
    (Neg T a).number = T.reduce (-a.number) := by
  refine number_of_congruent width ?_
  rw [a.toInteger_eq, BitVec.ofInt_neg, ← a.value_eq]

theorem number_Add (width : 8 ≤ T.bits) (a b : IntegerExp T) :
    (Add T a b).number = T.reduce (a.number + b.number) := by
  refine number_of_congruent width ?_
  rw [a.toInteger_eq, b.toInteger_eq, BitVec.ofInt_add, ← a.value_eq, ← b.value_eq]

theorem number_Min (width : 8 ≤ T.bits) (a b : IntegerExp T) :
    (Min T a b).number = T.reduce (a.number - b.number) := by
  rw [Min, number_Add width, number_Neg width, sub_eq_add_neg]
  exact reduce_congr (Int.ModEq.add_left _ (reduce_modEq T _))

theorem number_Mul (width : 8 ≤ T.bits) (a b : IntegerExp T) :
    (Mul T a b).number = T.reduce (a.number * b.number) := by
  refine number_of_congruent width ?_
  rw [a.toInteger_eq, b.toInteger_eq, BitVec.ofInt_mul, ← a.value_eq, ← b.value_eq]

theorem pattern_Com (width : 8 ≤ T.bits) (a : IntegerExp T) : (Com T a).pattern = ~~~a.pattern := by
  rw [Com, pattern_emplaceExp width, a.toInteger_eq, BitVec.setWidth_not (bits_le T)]
  rfl

theorem pattern_And (width : 8 ≤ T.bits) (a b : IntegerExp T) :
    (And T a b).pattern = a.pattern &&& b.pattern := by
  rw [And, pattern_emplaceExp width, a.toInteger_eq, b.toInteger_eq, BitVec.setWidth_and]
  rfl

theorem pattern_Or (width : 8 ≤ T.bits) (a b : IntegerExp T) :
    (Or T a b).pattern = a.pattern ||| b.pattern := by
  rw [Or, pattern_emplaceExp width, a.toInteger_eq, b.toInteger_eq, BitVec.setWidth_or]
  rfl

theorem pattern_Xor (width : 8 ≤ T.bits) (a b : IntegerExp T) :
    (Xor T a b).pattern = a.pattern ^^^ b.pattern := by
  rw [Xor, pattern_emplaceExp width, a.toInteger_eq, b.toInteger_eq, BitVec.setWidth_xor]
  rfl

/-! ### Powers -/

/-- The exponent is twice the shifted exponent and the bit that was shifted out. -/
theorem toNat_halve (n : BitVec 64) : n.toNat = 2 * (n >>> 1).toNat + (n &&& 1).toNat := by
  have low : (n &&& 1).toNat = n.toNat % 2 := by
    rw [BitVec.toNat_and]
    exact Nat.and_one_is_mod n.toNat
  rw [low, BitVec.toNat_ushiftRight, Nat.shiftRight_eq_div_pow, pow_one, Nat.div_add_mod]

theorem modEq_Mul (width : 8 ≤ T.bits) (a b : IntegerExp T) :
    (Mul T a b).number ≡ a.number * b.number [ZMOD 2 ^ T.bits] := by
  rw [number_Mul width]
  exact reduce_modEq T _

/-- The invariant of the loop: `v * r ^ n` keeps its residue. -/
theorem number_powLoop (width : 8 ≤ T.bits) (n : BitVec 64) (v r : IntegerExp T) :
    (powLoop n v r).number = T.reduce (v.number * r.number ^ n.toNat) := by
  induction n, v, r using powLoop.induct with
  | case1 v r =>
    rw [powLoop, if_pos rfl]
    simp [v.reduce_number width]
  | case2 n v r nonzero inductionHypothesis =>
    rw [powLoop, if_neg nonzero]
    refine inductionHypothesis.trans (reduce_congr ?_)
    have squared : (Mul T r r).number ^ (n >>> 1).toNat ≡ r.number ^ (2 * (n >>> 1).toNat)
        [ZMOD 2 ^ T.bits] := by
      rw [pow_mul, pow_two]
      exact (modEq_Mul width r r).pow _
    by_cases odd : n &&& 1 ≠ 0
    · have one : (n &&& 1).toNat = 1 := by
        rcases Nat.mod_two_eq_zero_or_one n.toNat with even | odd'
        · refine absurd (BitVec.eq_of_toNat_eq ?_) odd
          rw [BitVec.toNat_and]
          exact (Nat.and_one_is_mod n.toNat).trans even
        · rw [BitVec.toNat_and]
          exact (Nat.and_one_is_mod n.toNat).trans odd'
      rw [dif_pos odd, toNat_halve n, one, pow_succ']
      refine ((modEq_Mul width v r).mul squared).trans ?_
      rw [mul_assoc]
    · rw [dif_neg odd, toNat_halve n, not_not.mp odd]
      exact squared.mul_left _

theorem number_one (width : 8 ≤ T.bits) : (emplaceExp T 1).number = T.reduce 1 :=
  number_of_congruent width rfl

/-- The word of a nonnegative constant is the number. -/
theorem toNat_value {a : IntegerExp T} (nonnegative : 0 ≤ a.number) :
    (a.value.toNat : Int) = a.number := by
  cases unsigned : T.isUnsigned
  · rw [a.number_of_signed unsigned] at nonnegative ⊢
    refine (BitVec.toInt_eq_toNat_of_msb ?_).symm
    rw [BitVec.msb_eq_toInt]
    exact decide_eq_false (not_lt.mpr nonnegative)
  · rw [a.number_of_unsigned unsigned]

theorem Pow_eq (width : 8 ≤ T.bits) (a : IntegerExp T) (n : IntegerExp S)
    (nonnegative : 0 ≤ n.number) :
    ∃ e, Pow T a n = .integer e ∧ e.number = T.reduce (a.number ^ n.number.toNat) := by
  have accepted : ¬(S.isUnsigned = false ∧ n.toInteger.slt 0 = true) := by
    rintro ⟨signed, negative⟩
    rw [n.toInteger_eq, BitVec.slt_iff_toInt_lt, ← n.number_of_signed signed] at negative
    exact absurd negative (not_lt.mpr nonnegative)
  have exponent : n.toInteger.toNat = n.number.toNat := by
    rw [n.toInteger_eq, ← toNat_value nonnegative, Int.toNat_natCast]
  have base : (emplaceExp T a.toInteger).number = a.number := by
    rw [a.toInteger_eq, number_of_congruent width a.value_eq, a.reduce_number width]
  refine ⟨_, if_neg accepted, ?_⟩
  rw [IntegerExp.toInteger_eq, number_of_congruent width (IntegerExp.value_eq _),
    IntegerExp.reduce_number width, number_powLoop width, exponent, base, number_one width]
  refine reduce_congr (((reduce_modEq T 1).mul_right _).trans ?_)
  rw [one_mul]

end LaserD.Constfold
