/-
This file models `choose_multiplier` and `udiv_coefficients` of
`backend/divcoeff.d` and proves what they return for the divisors whose shift
counts stay inside the word.

A shift of a 64-bit word takes its count modulo 64, as the instruction does. For
a divisor of full length `N` the count `N + b` reaches the word width, the
dividends `2 ^ (N + b)` of the two quotients degenerate, and the multiplier that
results divides nothing. Below that length both quotients are the ends of a
`Bracket`, and every reduction keeps it one.
-/

import LaserD.Lib.InvariantDivision
import LaserD.Division.Wide
import Mathlib.Data.Nat.Prime.Basic

namespace LaserD.Division

open InvariantDivision

/-! ### The coefficients -/

/-- A left shift of a 64-bit word. -/
def shl64 (word count : Nat) : Nat := word * 2 ^ (count % 64) % 2 ^ 64

/-- The loop that counts the significant bits of a word. -/
def significantBits : Nat → Nat → Nat → Nat
  | 0, _, b => b
  | rounds + 1, d1, b => if d1 = 0 then b else significantBits rounds (d1 / 2) (b + 1)

/-- The reduction loop of the 32-bit case. -/
def reduce32 : Nat → Nat → Nat → Nat × Nat
  | 0, _, mhigh => (mhigh, 0)
  | shpost + 1, mlow, mhigh =>
      if mlow / 2 < mhigh / 2 then reduce32 shpost (mlow / 2) (mhigh / 2) else (mhigh, shpost + 1)

/-- The reduction loop of the 64-bit case. -/
def reduce64 : Nat → Wide → Wide → Wide × Nat
  | 0, _, mhigh => (mhigh, 0)
  | shpost + 1, mlow, mhigh =>
      if xltY128 (shr128 mlow) (shr128 mhigh) then reduce64 shpost (shr128 mlow) (shr128 mhigh)
      else (mhigh, shpost + 1)

/-- What `choose_multiplier` returns: whether the multiplier has a bit above the word, the
word, and the post shift. -/
structure Multiplier where
  mhighbit : Bool
  m : Nat
  shpost : Nat
  deriving Repr, DecidableEq

/-- The multiplier of the 32-bit case for a divisor of `b` bits. -/
def chooseMultiplier32 (d prec b : Nat) : Multiplier :=
  let mlow := shl64 1 (32 + b) / d
  let mhigh := (shl64 1 (32 + b) + shl64 1 (32 + b - prec)) % 2 ^ 64 / d
  let (mhigh, shpost) := reduce32 b mlow mhigh
  { mhighbit := mhigh / 2 ^ 32 != 0, m := mhigh % 2 ^ 32, shpost := shpost }

/-- The dividend of the upper quotient of the 64-bit case. -/
def upperDividend64 (prec b : Nat) : Wide :=
  let e := 64 + b - prec
  if e < 64 then { high := shl64 1 b, low := shl64 1 e }
  else { high := shl64 1 b ||| shl64 1 (e - 64), low := 0 }

/-- The multiplier of the 64-bit case for a divisor of `b` bits. -/
def chooseMultiplier64 (d prec b : Nat) : Multiplier :=
  let mlow := u128Div { high := shl64 1 b, low := 0 } { high := 0, low := d }
  let mhigh := u128Div (upperDividend64 prec b) { high := 0, low := d }
  let (mhigh, shpost) := reduce64 b mlow mhigh
  { mhighbit := mhigh.high % 2 == 1, m := mhigh.low, shpost := shpost }

/-- Selection of multiplier and shift count. A failed assertion is `none`. -/
def chooseMultiplier (N d prec : Nat) : Option Multiplier :=
  if (N = 32 ∨ N = 64) ∧ prec ≤ N ∧ 1 < d ∧ d &&& (d - 1) ≠ 0 then
    let b := significantBits 64 d 0
    some (if N = 32 then chooseMultiplier32 d prec b else chooseMultiplier64 d prec b)
  else none

/-- What `udiv_coefficients` returns. -/
structure UdivCoefficients where
  mhighbit : Bool
  shpre : Nat
  m : Nat
  shpost : Nat
  deriving Repr, DecidableEq

/-- The loop that strips the trailing zero bits of the divisor into the pre-shift. -/
def stripZeros : Nat → Nat → Nat → Nat × Nat
  | 0, d, e => (d, e)
  | rounds + 1, d, e => if d % 2 = 0 then stripZeros rounds (d / 2) (e + 1) else (d, e)

/-- The coefficients of an unsigned division by a constant. A failed assertion is `none`. -/
def udivCoefficients (N d : Nat) : Option UdivCoefficients := do
  let first ← chooseMultiplier N d N
  if first.mhighbit && d % 2 == 0 then
    let (odd, e) := stripZeros 64 d 0
    let second ← chooseMultiplier N odd (N - e)
    if second.mhighbit then none
    else some { mhighbit := false, shpre := e, m := second.m, shpost := second.shpost }
  else some { mhighbit := first.mhighbit, shpre := 0, m := first.m, shpost := first.shpost }

example : udivCoefficients 32 14 = some ⟨false, 1, 0x92492493, 2⟩ := by decide +kernel

example : udivCoefficients 64 100 = some ⟨false, 2, 0x28F5C28F5C28F5C3, 2⟩ := by decide +kernel

/-! ### Lengths of words -/

theorem shl64_one {count : Nat} (inside : count < 64) : shl64 1 count = 2 ^ count := by
  unfold shl64
  rw [Nat.mod_eq_of_lt inside, Nat.one_mul]
  exact Nat.mod_eq_of_lt (Nat.pow_lt_pow_right (by decide) inside)

theorem significantBits_eq (rounds d1 b : Nat) (fits : d1 < 2 ^ rounds) :
    significantBits rounds d1 b = b + d1.size := by
  induction rounds generalizing d1 b with
  | zero =>
    have zero : d1 = 0 := by simpa using fits
    rw [significantBits, zero, Nat.size_zero, Nat.add_zero]
  | succ rounds inductionHypothesis =>
    rw [significantBits]
    by_cases zero : d1 = 0
    · rw [if_pos zero, zero, Nat.size_zero, Nat.add_zero]
    · have halved : (d1 / 2).size + 1 = d1.size := by
        conv_rhs => rw [← Nat.bit_bodd_div2 d1]
        rw [Nat.size_bit (by rwa [Nat.bit_bodd_div2]), Nat.div2_val]
      rw [if_neg zero, inductionHypothesis _ _ (by rw [pow_succ] at fits; omega)]
      omega

/-- A word that is no power of two lies strictly between two consecutive powers. -/
theorem size_bounds {d : Nat} (notPower : d &&& (d - 1) ≠ 0) :
    0 < d.size ∧ 2 ^ (d.size - 1) < d ∧ d < 2 ^ d.size := by
  have nonzero : d ≠ 0 := by
    rintro rfl
    exact notPower rfl
  have positive : 0 < d.size := Nat.size_pos.mpr (Nat.pos_of_ne_zero nonzero)
  refine ⟨positive, lt_of_le_of_ne (Nat.lt_size.mp (Nat.sub_lt positive Nat.one_pos)) ?_,
    Nat.lt_size_self d⟩
  intro power
  exact notPower ((Nat.and_sub_one_eq_zero_iff_isPowerOfTwo nonzero).mpr ⟨_, power.symm⟩)

/-- A number that is no power of two divides no power of two. -/
theorem not_dvd_two_pow {d exponent : Nat} (notPower : d &&& (d - 1) ≠ 0) :
    ¬ d ∣ 2 ^ exponent := by
  intro divides
  obtain ⟨power, _, equal⟩ := (Nat.dvd_prime_pow Nat.prime_two).mp divides
  have nonzero : d ≠ 0 := by
    rintro rfl
    exact notPower rfl
  exact notPower ((Nat.and_sub_one_eq_zero_iff_isPowerOfTwo nonzero).mpr ⟨power, equal⟩)

/-- At a dividend the divisor does not divide, the predecessor has the same quotient. -/
theorem pred_div_of_not_dvd {dividend d : Nat} (notDvd : ¬ d ∣ dividend) :
    (dividend - 1) / d = dividend / d := by
  cases dividend with
  | zero => exact absurd (dvd_zero d) notDvd
  | succ rest => rw [Nat.add_sub_cancel, Nat.succ_div_of_not_dvd notDvd]

/-! ### The reduction loops -/

/-- The reduction returns an accurate multiplier below its start. When the ends start two
apart it makes at least one step. -/
theorem reduce32_spec {width prec d : Nat} (precise : prec ≤ width) (positive : 0 < d)
    (shpost low high : Nat) (bracket : Bracket width prec d low high shpost) :
    Accurate width prec d (reduce32 shpost low high).1 (reduce32 shpost low high).2 ∧
      (reduce32 shpost low high).2 ≤ shpost ∧ (reduce32 shpost low high).1 ≤ high ∧
      (low + 2 ≤ high → shpost ≠ 0 → (reduce32 shpost low high).1 ≤ high / 2) := by
  induction shpost generalizing low high with
  | zero => exact ⟨bracket.accurate positive, le_rfl, le_rfl, fun _ absurdZero => absurd rfl absurdZero⟩
  | succ shpost inductionHypothesis =>
    rw [reduce32]
    by_cases apart : low / 2 < high / 2
    · rw [if_pos apart]
      obtain ⟨accurate, shorter, smaller, _⟩ :=
        inductionHypothesis _ _ (bracket.half precise apart)
      exact ⟨accurate, by omega, by omega, fun _ _ => smaller⟩
    · rw [if_neg apart]
      exact ⟨bracket.accurate positive, le_rfl, le_rfl, fun gap _ => absurd gap (by omega)⟩

/-- The reduction of pairs is the reduction of the numbers they hold. -/
theorem reduce64_value (shpost : Nat) (low high : Wide) (lowValid : low.Valid)
    (highValid : high.Valid) :
    (reduce64 shpost low high).1.Valid ∧
      (reduce64 shpost low high).1.value = (reduce32 shpost low.value high.value).1 ∧
      (reduce64 shpost low high).2 = (reduce32 shpost low.value high.value).2 := by
  induction shpost generalizing low high with
  | zero => exact ⟨highValid, rfl, rfl⟩
  | succ shpost inductionHypothesis =>
    have lowHalf := shr128_value lowValid
    have highHalf := shr128_value highValid
    have order := xltY128_iff (shr128_valid lowValid) (shr128_valid highValid)
    rw [lowHalf, highHalf] at order
    rw [reduce64, reduce32]
    by_cases apart : low.value / 2 < high.value / 2
    · rw [if_pos (order.mpr apart), if_pos apart, ← lowHalf, ← highHalf]
      exact inductionHypothesis _ _ (shr128_valid lowValid) (shr128_valid highValid)
    · rw [if_neg (fun less => apart (order.mp less)), if_neg apart]
      exact ⟨highValid, rfl, rfl⟩

/-! ### What the chosen multiplier satisfies -/

/-- A chosen multiplier, the bit above the word included, is accurate; below full precision
it fits the word. -/
structure Chosen (N prec d : Nat) (result : Multiplier) : Prop where
  accurate : Accurate N prec d (result.m + result.mhighbit.toNat * 2 ^ N) result.shpost
  word : result.m < 2 ^ N
  shpost_le : result.shpost ≤ d.size
  fits : prec < N → result.mhighbit = false

section

variable {N prec d : Nat}

/-- The start of a reduction fits one bit above the word. -/
theorem start_lt {high : Nat} (notPower : d &&& (d - 1) ≠ 0) (precise : prec ≤ N)
    (short : d < 2 ^ prec) (below : high * d ≤ 2 ^ (N + d.size) + 2 ^ (N + d.size - prec)) :
    high < 2 ^ (N + 1) := by
  obtain ⟨sizePos, lower, _⟩ := size_bounds notPower
  have sizeLe : d.size ≤ prec := Nat.size_le.mpr short
  by_contra large
  have product : 2 ^ (N + 1) * (2 ^ (d.size - 1) + 1) ≤ high * d :=
    Nat.mul_le_mul (not_lt.mp large) lower
  have expand : 2 ^ (N + 1) * (2 ^ (d.size - 1) + 1) = 2 ^ (N + d.size) + 2 ^ (N + 1) := by
    rw [Nat.mul_add, Nat.mul_one, ← pow_add]
    congr 2
    omega
  have error : 2 ^ (N + d.size - prec) ≤ 2 ^ N :=
    Nat.pow_le_pow_right (by decide) (by omega)
  have double : 2 ^ (N + 1) = 2 * 2 ^ N := by rw [pow_succ, Nat.mul_comm]
  have unit : 0 < 2 ^ N := by positivity
  omega

/-- The gap between the two dividends is at least the divisor, and twice the divisor below
full precision, with one to spare. -/
theorem gap_bounds (notPower : d &&& (d - 1) ≠ 0) (precise : prec ≤ N) :
    d + 1 ≤ 2 ^ (N + d.size - prec) ∧ (prec < N → 2 * d + 1 ≤ 2 ^ (N + d.size - prec)) := by
  obtain ⟨_, _, upper⟩ := size_bounds notPower
  have base : 2 ^ d.size ≤ 2 ^ (N + d.size - prec) :=
    Nat.pow_le_pow_right (by decide) (by omega)
  refine ⟨by omega, fun less => ?_⟩
  have double : 2 ^ (d.size + 1) ≤ 2 ^ (N + d.size - prec) :=
    Nat.pow_le_pow_right (by decide) (by omega)
  rw [pow_succ] at double
  omega

/-- A reduction from the ends of the search ends in a chosen multiplier. -/
theorem chosen_of_reduce (high : Nat) {result : Multiplier} (notPower : d &&& (d - 1) ≠ 0)
    (precise : prec ≤ N) (short : d < 2 ^ prec) (apart : 2 ^ (N + d.size) / d < high)
    (gap : prec < N → 2 ^ (N + d.size) / d + 2 ≤ high)
    (below : high * d ≤ 2 ^ (N + d.size) + 2 ^ (N + d.size - prec))
    (shpost : result.shpost = (reduce32 d.size (2 ^ (N + d.size) / d) high).2)
    (m : result.m = (reduce32 d.size (2 ^ (N + d.size) / d) high).1 % 2 ^ N)
    (mhighbit : (reduce32 d.size (2 ^ (N + d.size) / d) high).1 < 2 ^ (N + 1) →
      result.mhighbit.toNat = (reduce32 d.size (2 ^ (N + d.size) / d) high).1 / 2 ^ N) :
    Chosen N prec d result := by
  obtain ⟨sizePos, lower, _⟩ := size_bounds notPower
  have positive : 0 < d := lt_of_le_of_lt (Nat.zero_le _) lower
  have large := start_lt notPower precise short below
  obtain ⟨accurate, shorter, smaller, halved⟩ :=
    reduce32_spec precise positive d.size _ high ⟨rfl, apart, below⟩
  have bit := mhighbit (lt_of_le_of_lt smaller large)
  have unit : 0 < 2 ^ N := by positivity
  refine ⟨?_, ?_, ?_, fun less => ?_⟩
  · rw [m, bit, shpost, Nat.mul_comm, Nat.mod_add_div]
    exact accurate
  · rw [m]
    exact Nat.mod_lt _ unit
  · rw [shpost]
    exact shorter
  · have half := halved (gap less) (by omega)
    have double : 2 ^ (N + 1) = 2 * 2 ^ N := by rw [pow_succ, Nat.mul_comm]
    have inWord : (reduce32 d.size (2 ^ (N + d.size) / d) high).1 < 2 ^ N := by omega
    rw [Nat.div_eq_of_lt inWord] at bit
    cases value : result.mhighbit with
    | false => rfl
    | true => rw [value] at bit; exact absurd bit (by decide)

/-- Raising a dividend by `count` divisors raises its quotient by `count`. -/
theorem quotient_gap {low high count : Nat} (positive : 0 < d) (raised : low + count * d ≤ high) :
    low / d + count ≤ high / d := by
  rw [← Nat.add_mul_div_right _ _ positive]
  exact Nat.div_le_div_right raised

theorem chooseMultiplier32_chosen (notPower : d &&& (d - 1) ≠ 0) (precise : prec ≤ 32)
    (short : d < 2 ^ prec) (bounded : d < 2 ^ 31) :
    Chosen 32 prec d (chooseMultiplier32 d prec d.size) := by
  obtain ⟨sizePos, lower, _⟩ := size_bounds notPower
  have sizeLe : d.size ≤ 31 := Nat.size_le.mpr bounded
  have sizePrec : d.size ≤ prec := Nat.size_le.mpr short
  have positive : 0 < d := lt_of_le_of_lt (Nat.zero_le _) lower
  obtain ⟨one, two⟩ := gap_bounds notPower precise
  have sum : (shl64 1 (32 + d.size) + shl64 1 (32 + d.size - prec)) % 2 ^ 64 =
      2 ^ (32 + d.size) + 2 ^ (32 + d.size - prec) := by
    rw [shl64_one (by omega), shl64_one (by omega)]
    refine Nat.mod_eq_of_lt ?_
    have first : 2 ^ (32 + d.size) ≤ 2 ^ 63 := Nat.pow_le_pow_right (by decide) (by omega)
    have second : 2 ^ (32 + d.size - prec) ≤ 2 ^ 62 := Nat.pow_le_pow_right (by decide) (by omega)
    omega
  have ends : chooseMultiplier32 d prec d.size =
      let reduced := reduce32 d.size (2 ^ (32 + d.size) / d)
        ((2 ^ (32 + d.size) + 2 ^ (32 + d.size - prec)) / d)
      { mhighbit := reduced.1 / 2 ^ 32 != 0, m := reduced.1 % 2 ^ 32, shpost := reduced.2 } := by
    unfold chooseMultiplier32
    rw [sum, shl64_one (by omega)]
  rw [ends]
  have apart : 2 ^ (32 + d.size) / d + 1 ≤
      (2 ^ (32 + d.size) + 2 ^ (32 + d.size - prec)) / d := quotient_gap positive (by omega)
  have gap (less : prec < 32) : 2 ^ (32 + d.size) / d + 2 ≤
      (2 ^ (32 + d.size) + 2 ^ (32 + d.size - prec)) / d := by
    have := two less
    exact quotient_gap positive (by omega)
  refine chosen_of_reduce ((2 ^ (32 + d.size) + 2 ^ (32 + d.size - prec)) / d) notPower
    precise short apart gap
    (Nat.div_mul_le_self _ _) rfl rfl fun inside => ?_
  dsimp only
  generalize (reduce32 _ _ _).1 = high at inside ⊢
  have cases : high / 2 ^ 32 = 0 ∨ high / 2 ^ 32 = 1 := by omega
  rcases cases with quotient | quotient <;> rw [quotient] <;> rfl

theorem upperDividend64_value {b : Nat} (precise : prec ≤ 64) (inside : b < 64)
    (sizePrec : b ≤ prec) (positivePrec : 0 < prec) :
    (upperDividend64 prec b).Valid ∧
      (upperDividend64 prec b).value = 2 ^ (64 + b) + 2 ^ (64 + b - prec) := by
  have bit : 2 ^ b < 2 ^ 64 := Nat.pow_lt_pow_right (by decide) inside
  unfold upperDividend64
  dsimp only
  by_cases small : 64 + b - prec < 64
  · rw [if_pos small, shl64_one inside, shl64_one small]
    refine ⟨⟨bit, Nat.pow_lt_pow_right (by decide) small⟩, ?_⟩
    show 2 ^ b * 2 ^ 64 + 2 ^ (64 + b - prec) = _
    rw [Nat.pow_add, Nat.mul_comm (2 ^ b)]
  · rw [if_neg small]
    obtain rfl : b = prec := by omega
    rw [shl64_one inside, show 64 + b - b - 64 = 0 by omega, shl64_one (by decide),
      show 64 + b - b = 64 by omega]
    have joined : 2 ^ b ||| 2 ^ 0 = 2 ^ b + 1 := by
      have := Nat.two_pow_add_eq_or_of_lt (Nat.one_lt_two_pow (by omega : b ≠ 0)) 1
      rw [Nat.mul_one] at this
      exact this.symm
    rw [joined]
    have pad : 2 ^ b + 1 < 2 ^ 64 := by
      have : 2 ^ b ≤ 2 ^ 63 := Nat.pow_le_pow_right (by decide) (by omega)
      omega
    refine ⟨⟨pad, Nat.two_pow_pos 64⟩, ?_⟩
    show (2 ^ b + 1) * 2 ^ 64 + 0 = _
    rw [Nat.pow_add]
    ring

theorem chooseMultiplier64_chosen (notPower : d &&& (d - 1) ≠ 0) (precise : prec ≤ 64)
    (short : d < 2 ^ prec) (bounded : d < 2 ^ 63) :
    Chosen 64 prec d (chooseMultiplier64 d prec d.size) := by
  obtain ⟨sizePos, lower, _⟩ := size_bounds notPower
  have sizeLe : d.size ≤ 63 := Nat.size_le.mpr bounded
  have sizePrec : d.size ≤ prec := Nat.size_le.mpr short
  have positive : 0 < d := lt_of_le_of_lt (Nat.zero_le _) lower
  obtain ⟨one, two⟩ := gap_bounds notPower precise
  obtain ⟨upperValid, upperValue⟩ :=
    upperDividend64_value precise (by omega : d.size < 64) sizePrec (by omega)
  have divisorValid : ({ high := 0, low := d } : Wide).Valid :=
    ⟨Nat.two_pow_pos 64, by dsimp only; omega⟩
  have divisorValue : ({ high := 0, low := d } : Wide).value = d := by
    show 0 * 2 ^ 64 + d = d
    omega
  have lowerValid : ({ high := shl64 1 d.size, low := 0 } : Wide).Valid := by
    rw [shl64_one (by omega)]
    exact ⟨Nat.pow_lt_pow_right (by decide) (by omega), Nat.two_pow_pos 64⟩
  have lowerValue : ({ high := shl64 1 d.size, low := 0 } : Wide).value = 2 ^ (64 + d.size) := by
    rw [shl64_one (by omega)]
    show 2 ^ d.size * 2 ^ 64 + 0 = _
    rw [Nat.add_zero, ← Nat.pow_add, Nat.add_comm]
  have dividendPos : 0 < ({ high := 0, low := d } : Wide).value := by rwa [divisorValue]
  have lowQuotient := u128Div_value lowerValid divisorValid dividendPos
  have highQuotient := u128Div_value upperValid divisorValid dividendPos
  rw [lowerValue, divisorValue, pred_div_of_not_dvd (not_dvd_two_pow notPower)] at lowQuotient
  rw [upperValue, divisorValue] at highQuotient
  obtain ⟨reducedValid, reducedValue, reducedShift⟩ := reduce64_value d.size _ _
    (u128Div_valid lowerValid divisorValid dividendPos)
    (u128Div_valid upperValid divisorValid dividendPos)
  rw [lowQuotient, highQuotient] at reducedValue reducedShift
  have apart : 2 ^ (64 + d.size) / d + 1 ≤
      (2 ^ (64 + d.size) + 2 ^ (64 + d.size - prec) - 1) / d := quotient_gap positive (by omega)
  have gap (less : prec < 64) : 2 ^ (64 + d.size) / d + 2 ≤
      (2 ^ (64 + d.size) + 2 ^ (64 + d.size - prec) - 1) / d := by
    have := two less
    exact quotient_gap positive (by omega)
  refine chosen_of_reduce ((2 ^ (64 + d.size) + 2 ^ (64 + d.size - prec) - 1) / d) notPower
    precise short apart gap
    ((Nat.div_mul_le_self _ _).trans (Nat.sub_le _ _)) reducedShift ?_ fun inside => ?_
  · rw [← reducedValue]
    have low := reducedValid.low_lt
    show (reduce64 _ _ _).1.low = _
    unfold Wide.value
    omega
  · rw [← reducedValue] at inside ⊢
    have low := reducedValid.low_lt
    show ((reduce64 _ _ _).1.high % 2 == 1).toNat = _
    unfold Wide.value at inside ⊢
    generalize (reduce64 _ _ _).1 = high at inside low ⊢
    have cases : high.high = 0 ∨ high.high = 1 := by omega
    rcases cases with zero | one
    · rw [zero]
      show 0 = _
      omega
    · rw [one]
      show 1 = _
      omega

/-- Below full length, the chosen multiplier exists and is accurate. -/
theorem chooseMultiplier_chosen (width : N = 32 ∨ N = 64) (notPower : d &&& (d - 1) ≠ 0)
    (precise : prec ≤ N) (short : d < 2 ^ prec) (bounded : d < 2 ^ (N - 1)) :
    ∃ result, chooseMultiplier N d prec = some result ∧ Chosen N prec d result := by
  obtain ⟨sizePos, lower, _⟩ := size_bounds notPower
  have notOne : 1 < d := lt_of_le_of_lt (Nat.one_le_two_pow) lower
  unfold chooseMultiplier
  rw [if_pos ⟨width, precise, notOne, notPower⟩]
  have word : d < 2 ^ 64 := lt_of_lt_of_le bounded (Nat.pow_le_pow_right (by decide) (by omega))
  rw [significantBits_eq 64 d 0 word, Nat.zero_add]
  rcases width with rfl | rfl
  · exact ⟨_, rfl, chooseMultiplier32_chosen notPower precise short bounded⟩
  · exact ⟨_, rfl, chooseMultiplier64_chosen notPower precise short bounded⟩

end

end LaserD.Division
