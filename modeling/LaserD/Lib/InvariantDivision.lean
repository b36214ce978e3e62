/-
This file is the arithmetic of division by an invariant divisor: when may a
quotient `n / d` be read off a product `m * n` by a shift.

A multiplier `m` with post shift `s` at width `N` is *accurate* to `prec` bits
when `m * d` exceeds `2 ^ (N + s)` by at most `2 ^ (N + s - prec)`. An accurate
multiplier divides every dividend of at most `prec` bits exactly: the error the
multiplier carries, scaled by the dividend, stays below one unit of the last
place. For negative dividends the same bound puts the product into the half-open
cell just below, which is the source of the sign correction of a truncating
division.

A multiplier is found by a reduction from the two ends of an interval: the
largest number below and the largest number inside the accurate range at the
shift `b` of the divisor's length. Both ends are halved as long as they stay
apart, and the reduction keeps the invariant `Bracket`.
-/

import Mathlib.Tactic.Ring
import Mathlib.Tactic.Linarith
import Mathlib.Data.Nat.Size

namespace InvariantDivision

/-! ### Accurate multipliers -/

/-- The product of an accurate multiplier with the divisor lies just above a power of two. -/
structure Accurate (width prec divisor multiplier shift : Nat) : Prop where
  above : 2 ^ (width + shift) < multiplier * divisor
  below : multiplier * divisor ≤ 2 ^ (width + shift) + 2 ^ (width + shift - prec)

section

variable {width prec divisor multiplier shift : Nat}

/-- The error of an accurate multiplier, scaled by a dividend of `prec` bits, is at most one
unit of the last place. -/
theorem Accurate.scaled_error (accurate : Accurate width prec divisor multiplier shift)
    (precise : prec ≤ width) {dividend : Nat} (small : dividend ≤ 2 ^ prec) :
    multiplier * divisor * dividend ≤ 2 ^ (width + shift) * dividend + 2 ^ (width + shift) := by
  have split : 2 ^ (width + shift - prec) * 2 ^ prec = 2 ^ (width + shift) := by
    rw [← pow_add]
    congr 1
    omega
  calc multiplier * divisor * dividend
      ≤ (2 ^ (width + shift) + 2 ^ (width + shift - prec)) * dividend :=
        Nat.mul_le_mul_right _ accurate.below
    _ = 2 ^ (width + shift) * dividend + 2 ^ (width + shift - prec) * dividend := by ring
    _ ≤ 2 ^ (width + shift) * dividend + 2 ^ (width + shift - prec) * 2 ^ prec :=
        Nat.add_le_add_left (Nat.mul_le_mul_left _ small) _
    _ = 2 ^ (width + shift) * dividend + 2 ^ (width + shift) := by rw [split]

/-- The scaled error is strictly below one unit when the dividend is strictly below
`2 ^ prec`. -/
theorem Accurate.scaled_error_lt (accurate : Accurate width prec divisor multiplier shift)
    (precise : prec ≤ width) {dividend : Nat} (small : dividend < 2 ^ prec) :
    multiplier * divisor * dividend < 2 ^ (width + shift) * dividend + 2 ^ (width + shift) := by
  have next := accurate.scaled_error precise (Nat.succ_le_of_lt small)
  have above := accurate.above
  rw [Nat.succ_eq_add_one, Nat.mul_add, Nat.mul_add, Nat.mul_one, Nat.mul_one] at next
  omega

/-- An accurate multiplier divides by one multiplication and one shift. -/
theorem Accurate.mul_div_eq (accurate : Accurate width prec divisor multiplier shift)
    (precise : prec ≤ width) (positive : 0 < divisor) {dividend : Nat}
    (small : dividend < 2 ^ prec) :
    multiplier * dividend / 2 ^ (width + shift) = dividend / divisor := by
  have lower : dividend / divisor * divisor ≤ dividend := Nat.div_mul_le_self _ _
  have upper : dividend + 1 ≤ (dividend / divisor + 1) * divisor := by
    have := Nat.lt_mul_div_succ dividend positive
    rw [Nat.mul_comm] at this
    omega
  have error := accurate.scaled_error_lt precise small
  have above := accurate.above
  refine Nat.div_eq_of_lt_le ?_ ?_
  · refine Nat.le_of_mul_le_mul_right (c := divisor) ?_ positive
    calc dividend / divisor * 2 ^ (width + shift) * divisor
        = 2 ^ (width + shift) * (dividend / divisor * divisor) := by ring
      _ ≤ multiplier * divisor * dividend := Nat.mul_le_mul above.le lower
      _ = multiplier * dividend * divisor := by ring
  · refine Nat.lt_of_mul_lt_mul_right (a := divisor) ?_
    calc multiplier * dividend * divisor
        = multiplier * divisor * dividend := by ring
      _ < 2 ^ (width + shift) * dividend + 2 ^ (width + shift) := error
      _ = 2 ^ (width + shift) * (dividend + 1) := by ring
      _ ≤ 2 ^ (width + shift) * ((dividend / divisor + 1) * divisor) :=
          Nat.mul_le_mul_left _ upper
      _ = (dividend / divisor + 1) * 2 ^ (width + shift) * divisor := by ring

/-- At a negative dividend the shifted product is one below the truncated quotient. -/
theorem Accurate.neg_mul_div_eq (accurate : Accurate width prec divisor multiplier shift)
    (precise : prec ≤ width) (positive : 0 < divisor) {dividend : Nat}
    (nonzero : 0 < dividend) (small : dividend ≤ 2 ^ prec) :
    (-((multiplier * dividend : Nat) : Int)) / 2 ^ (width + shift) =
      -((dividend / divisor : Nat) : Int) - 1 := by
  have lower : dividend / divisor * divisor ≤ dividend := Nat.div_mul_le_self _ _
  have upper : dividend + 1 ≤ (dividend / divisor + 1) * divisor := by
    have := Nat.lt_mul_div_succ dividend positive
    rw [Nat.mul_comm] at this
    omega
  have error := accurate.scaled_error precise small
  have above := accurate.above
  have cellLower : dividend / divisor * 2 ^ (width + shift) < multiplier * dividend := by
    refine Nat.lt_of_mul_lt_mul_right (a := divisor) ?_
    calc dividend / divisor * 2 ^ (width + shift) * divisor
        = 2 ^ (width + shift) * (dividend / divisor * divisor) := by ring
      _ ≤ 2 ^ (width + shift) * dividend := Nat.mul_le_mul_left _ lower
      _ < multiplier * divisor * dividend := Nat.mul_lt_mul_of_pos_right above nonzero
      _ = multiplier * dividend * divisor := by ring
  have cellUpper : multiplier * dividend ≤ (dividend / divisor + 1) * 2 ^ (width + shift) := by
    refine Nat.le_of_mul_le_mul_right (c := divisor) ?_ positive
    calc multiplier * dividend * divisor
        = multiplier * divisor * dividend := by ring
      _ ≤ 2 ^ (width + shift) * dividend + 2 ^ (width + shift) := error
      _ = 2 ^ (width + shift) * (dividend + 1) := by ring
      _ ≤ 2 ^ (width + shift) * ((dividend / divisor + 1) * divisor) :=
          Nat.mul_le_mul_left _ upper
      _ = (dividend / divisor + 1) * 2 ^ (width + shift) * divisor := by ring
  have cellLowerInt : ((dividend / divisor : Nat) : Int) * 2 ^ (width + shift) <
      ((multiplier * dividend : Nat) : Int) := by exact_mod_cast cellLower
  have cellUpperInt : ((multiplier * dividend : Nat) : Int) ≤
      (((dividend / divisor : Nat) : Int) + 1) * 2 ^ (width + shift) := by
    exact_mod_cast cellUpper
  have unit : (0 : Int) < 2 ^ (width + shift) := by positivity
  refine (Int.ediv_eq_iff_of_pos unit).mpr ⟨?_, ?_⟩ <;> linarith

end

/-! ### The reduction to a short multiplier -/

/-- The two ends of a multiplier search at the shift `shift`: `low` is the largest number
whose product with the divisor stays below the power of two, `high` one inside the accurate
range. -/
structure Bracket (width prec divisor low high shift : Nat) : Prop where
  low_eq : low = 2 ^ (width + shift) / divisor
  apart : low < high
  below : high * divisor ≤ 2 ^ (width + shift) + 2 ^ (width + shift - prec)

section

variable {width prec divisor low high shift : Nat}

/-- The upper end of a bracket is an accurate multiplier. -/
theorem Bracket.accurate (bracket : Bracket width prec divisor low high shift)
    (positive : 0 < divisor) : Accurate width prec divisor high shift where
  above := by
    have apart := bracket.apart
    rw [bracket.low_eq] at apart
    exact (Nat.div_lt_iff_lt_mul positive).mp apart
  below := bracket.below

/-- Halving both ends of a bracket that stay apart gives a bracket at the next shift. -/
theorem Bracket.half (bracket : Bracket width prec divisor low high (shift + 1))
    (precise : prec ≤ width) (apart : low / 2 < high / 2) :
    Bracket width prec divisor (low / 2) (high / 2) shift where
  low_eq := by
    rw [bracket.low_eq, Nat.div_div_eq_div_mul, Nat.mul_comm divisor 2,
      ← Nat.div_div_eq_div_mul, ← Nat.add_assoc, pow_succ,
      Nat.mul_div_cancel _ (by decide : 0 < 2)]
  apart := apart
  below := by
    have exponent : width + (shift + 1) - prec = width + shift - prec + 1 := by omega
    have doubled := bracket.below
    rw [exponent, ← Nat.add_assoc, pow_succ, pow_succ] at doubled
    have halves : high / 2 * 2 * divisor ≤ high * divisor :=
      Nat.mul_le_mul_right _ (Nat.div_mul_le_self _ _)
    have regroup : high / 2 * 2 * divisor = high / 2 * divisor * 2 := by ring
    omega

end

end InvariantDivision
