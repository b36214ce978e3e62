/-
This file is about the topmost bit of numbers below `2 ^ (width + 1)`: a number
with the bit set is the power of two plus its lower bits, and bitwise or and and
act on the bit and on the lower bits separately. It is what an induction over the
bits of the ends of an interval needs, from the top bit down.
-/

import Mathlib.Data.Nat.Bitwise

namespace BitBounds

/-- The topmost bit of the lower bits. -/
theorem testBit_iff_le_mod (n width : Nat) :
    n.testBit width = true ↔ 2 ^ width ≤ n % 2 ^ (width + 1) := by
  have positive := Nat.two_pow_pos width
  have small : n % 2 ^ (width + 1) < 2 ^ width * 2 := by
    rw [← Nat.pow_succ]
    exact Nat.mod_lt _ (Nat.two_pow_pos _)
  rw [Nat.mod_pow_succ, Nat.testBit_eq_decide_div_mod_eq, decide_eq_true_eq]
  have low := Nat.mod_lt n positive
  rcases Nat.mod_two_eq_zero_or_one (n / 2 ^ width) with zero | one
  · rw [zero, Nat.mul_zero]
    omega
  · rw [one, Nat.mul_one]
    omega

/-- A set topmost bit and the bits below it. -/
theorem mod_of_testBit {n width : Nat} (top : n.testBit width = true) :
    n % 2 ^ (width + 1) = 2 ^ width + n % 2 ^ width := by
  rw [Nat.testBit_eq_decide_div_mod_eq, decide_eq_true_eq] at top
  rw [Nat.mod_pow_succ, top, Nat.mul_one, Nat.add_comm]

/-- A clear topmost bit and the bits below it. -/
theorem mod_of_not_testBit {n width : Nat} (top : ¬ n.testBit width = true) :
    n % 2 ^ (width + 1) = n % 2 ^ width := by
  rw [Nat.testBit_eq_decide_div_mod_eq, decide_eq_true_eq] at top
  rw [Nat.mod_pow_succ, (Nat.mod_two_eq_zero_or_one _).resolve_right top, Nat.mul_zero,
    Nat.add_zero]

/-- Setting a bit below the set ones adds its power. -/
theorem or_eq_add {width acc low : Nat} (above : 2 ^ width ∣ acc) (small : low < 2 ^ width) :
    acc ||| low = acc + low := by
  obtain ⟨factor, rfl⟩ := above
  exact (Nat.two_pow_add_eq_or_of_lt small factor).symm

/-- The or of a number with the topmost bit and one below it. -/
theorem top_or {width x y : Nat} (xSmall : x < 2 ^ width) (ySmall : y < 2 ^ width) :
    (2 ^ width + x) ||| y = 2 ^ width + (x ||| y) := by
  rw [← or_eq_add (dvd_refl _) xSmall, Nat.or_assoc,
    or_eq_add (dvd_refl _) (Nat.or_lt_two_pow xSmall ySmall)]

/-- The or of two numbers with the topmost bit. -/
theorem top_or_top {width x y : Nat} (xSmall : x < 2 ^ width) (ySmall : y < 2 ^ width) :
    (2 ^ width + x) ||| (2 ^ width + y) = 2 ^ width + (x ||| y) := by
  rw [← or_eq_add (dvd_refl _) xSmall, ← or_eq_add (dvd_refl _) ySmall, Nat.or_assoc,
    ← Nat.or_assoc x, Nat.or_comm x, Nat.or_assoc, ← Nat.or_assoc, Nat.or_self,
    or_eq_add (dvd_refl _) (Nat.or_lt_two_pow xSmall ySmall)]

/-- The and of two numbers with the topmost bit. -/
theorem top_and_top {width x y : Nat} (xSmall : x < 2 ^ width) (ySmall : y < 2 ^ width) :
    (2 ^ width + x) &&& (2 ^ width + y) = 2 ^ width + (x &&& y) := by
  have small : x &&& y < 2 ^ width := Nat.and_lt_two_pow x ySmall
  rw [← or_eq_add (dvd_refl _) xSmall, ← or_eq_add (dvd_refl _) ySmall,
    ← or_eq_add (dvd_refl _) small]
  exact (Nat.or_and_distrib_left _ _ _).symm

/-- The and of a number with the topmost bit and one below it. -/
theorem top_and {width x y : Nat} (xSmall : x < 2 ^ width) (ySmall : y < 2 ^ width) :
    (2 ^ width + x) &&& y = x &&& y := by
  have clear : 2 ^ width &&& y = 0 := by
    rw [Nat.and_comm, Nat.and_two_pow, Nat.testBit_lt_two_pow ySmall]
    exact Nat.zero_mul _
  rw [← or_eq_add (dvd_refl _) xSmall, Nat.and_or_distrib_right, clear, Nat.zero_or]

/-- The and with all lower bits. -/
theorem ones_and {width y : Nat} (ySmall : y < 2 ^ width) : (2 ^ width - 1) &&& y = y := by
  rw [Nat.and_comm, Nat.and_two_pow_sub_one_eq_mod, Nat.mod_eq_of_lt ySmall]

end BitBounds
