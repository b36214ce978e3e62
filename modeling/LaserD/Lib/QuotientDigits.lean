/-
This file estimates a quotient from the upper digit of its divisor.

The estimate divides the upper digits alone. It is never too small, and where the upper
digit of the divisor is at least half the base it is too large by two at most; comparing
what the lower digit adds with what is left tells which. A divisor whose lower part is
dropped gives a quotient that is right or too large by one, as long as the part that was
dropped, times the quotient, is no larger than the part that is left.
-/

import Mathlib.Data.Nat.Basic
import Mathlib.Tactic.Linarith
import Mathlib.Tactic.Ring

namespace LaserD.QuotientDigits

variable {base n1 n0 d1 d0 : Nat}

/-- The estimate, corrected by what the lower digit of the divisor says. -/
def estimate (base n1 n0 d1 d0 : Nat) : Nat :=
  let q := n1 / d1
  let left := n1 % d1 * base + n0
  if left < q * d0 then
    q - if d1 * base + d0 < q * d0 - left then 2 else 1
  else q

theorem quotient_le (normalized : base ≤ 2 * d1) (dLow : d0 < base)
    (small : n1 < d1 * base + d0) : n1 / d1 ≤ base + 1 := by
  have positive : 0 < d1 := by omega
  refine Nat.lt_succ_iff.mp ((Nat.div_lt_iff_lt_mul positive).mpr ?_)
  calc n1 < d1 * base + d0 := small
    _ ≤ d1 * base + 2 * d1 := Nat.add_le_add_left (by omega) _
    _ = (base + 1).succ * d1 := by
      rw [Nat.succ_eq_add_one]
      ring

/-- What the lower digit takes away is at most twice the divisor. -/
theorem taken_le (normalized : base ≤ 2 * d1) (dLow : d0 < base) (small : n1 < d1 * base + d0) :
    n1 / d1 * d0 ≤ 2 * (d1 * base + d0) := by
  have upper := quotient_le normalized dLow small
  calc n1 / d1 * d0 ≤ (base + 1) * d0 := Nat.mul_le_mul_right _ upper
    _ = base * d0 + d0 := Nat.succ_mul _ _
    _ ≤ base * (2 * d1) + 2 * d0 :=
      Nat.add_le_add (Nat.mul_le_mul_left _ (by omega)) (by omega)
    _ = 2 * (d1 * base + d0) := by ring

theorem estimate_eq (normalized : base ≤ 2 * d1) (dLow : d0 < base) (nLow : n0 < base)
    (small : n1 < d1 * base + d0) :
    estimate base n1 n0 d1 d0 = (n1 * base + n0) / (d1 * base + d0) := by
  have positive : 0 < d1 := by omega
  have taken := taken_le normalized dLow small
  have leftSmall : n1 % d1 * base + n0 < d1 * base + d0 := by
    have remainder : n1 % d1 + 1 ≤ d1 := Nat.mod_lt _ positive
    have scaled := Nat.mul_le_mul_right base remainder
    rw [Nat.succ_mul] at scaled
    omega
  have whole : n1 * base + n0 + n1 / d1 * d0 =
      n1 / d1 * (d1 * base + d0) + (n1 % d1 * base + n0) := by
    calc n1 * base + n0 + n1 / d1 * d0
        = (d1 * (n1 / d1) + n1 % d1) * base + n0 + n1 / d1 * d0 := by rw [Nat.div_add_mod]
      _ = n1 / d1 * (d1 * base + d0) + (n1 % d1 * base + n0) := by ring
  unfold estimate
  dsimp only
  generalize n1 / d1 = q at whole taken ⊢
  generalize n1 % d1 * base + n0 = left at whole leftSmall ⊢
  generalize d1 * base + d0 = d at whole leftSmall taken ⊢
  generalize q * d0 = t at whole taken ⊢
  have exact' (k r : Nat) (rSmall : r < d) (split : n1 * base + n0 = k * d + r) :
      k = (n1 * base + n0) / d := by
    rw [split, Nat.mul_comm, Nat.mul_add_div (by omega), Nat.div_eq_of_lt rSmall, Nat.add_zero]
  split_ifs with beyond far
  · obtain ⟨k, rfl⟩ : ∃ k, q = k + 2 := by
      refine ⟨q - 2, (Nat.sub_add_cancel ?_).symm⟩
      by_contra few
      have most : q * d ≤ 1 * d := Nat.mul_le_mul_right d (by omega)
      omega
    rw [Nat.add_mul] at whole
    exact exact' k (2 * d - (t - left)) (by omega) (by omega)
  · obtain ⟨k, rfl⟩ : ∃ k, q = k + 1 := by
      refine ⟨q - 1, (Nat.sub_add_cancel ?_).symm⟩
      by_contra none
      obtain rfl : q = 0 := by omega
      rw [Nat.zero_mul] at whole
      omega
    rw [Nat.add_mul, Nat.one_mul] at whole
    exact exact' k (d - (t - left)) (by omega) (by omega)
  · exact exact' q (left - t) (by omega) (by omega)

/-- A further digit of the dividend: the division goes on with what was left. -/
theorem next_digit (n m d : Nat) (positive : 0 < d) :
    (n * base + m) / d = n / d * base + (n % d * base + m) / d ∧
      (n * base + m) % d = (n % d * base + m) % d := by
  have split : n * base + m = d * (n / d * base) + (n % d * base + m) := by
    calc n * base + m = (d * (n / d) + n % d) * base + m := by rw [Nat.div_add_mod]
      _ = d * (n / d * base) + (n % d * base + m) := by ring
  rw [split, Nat.mul_add_div positive, Nat.mul_add_mod]
  exact ⟨rfl, rfl⟩

/-- A divisor whose lower part is dropped. -/
theorem div_dropped (x : Nat) {kept dropped : Nat} (positive : 0 < kept)
    (small : (x / (kept + dropped) + 1) * dropped ≤ kept) :
    x / kept = x / (kept + dropped) ∨ x / kept = x / (kept + dropped) + 1 := by
  have lower : x / (kept + dropped) ≤ x / kept := Nat.div_le_div_left (Nat.le_add_right _ _) positive
  have upper : x / kept < x / (kept + dropped) + 2 := by
    rw [Nat.div_lt_iff_lt_mul positive]
    have bound := Nat.lt_mul_div_succ x (Nat.add_pos_left positive dropped)
    nlinarith
  omega

end LaserD.QuotientDigits
