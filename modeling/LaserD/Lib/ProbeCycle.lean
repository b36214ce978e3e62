/-
This file proves that the map `x ↦ 5 x + 1` on the numbers below a power of two runs
through all of them, whatever number it starts from.

The `n`-th iterate adds a geometric sum of powers of five. A power of two divides such
a sum only when it divides the number of terms, so no number comes back early, and a
map that does not come back early reaches everything.
-/

import Mathlib.Algebra.Order.Ring.Nat
import Mathlib.Data.Fintype.Card
import Mathlib.Data.Nat.Factorization.Basic
import Mathlib.Logic.Function.Iterate
import Mathlib.Tactic.Ring

namespace ProbeCycle

/-- One step of the recurrence. -/
def step (bits x : Nat) : Nat := (5 * x + 1) % 2 ^ bits

/-- The sum of the first powers of five. -/
def geometric : Nat → Nat
  | 0 => 0
  | n + 1 => 5 * geometric n + 1

theorem step_lt (bits x : Nat) : step bits x < 2 ^ bits := Nat.mod_lt _ (Nat.two_pow_pos bits)

theorem iterate_lt {bits x : Nat} (small : x < 2 ^ bits) (n : Nat) :
    (step bits)^[n] x < 2 ^ bits := by
  induction n with
  | zero => exact small
  | succ n _ =>
    rw [Function.iterate_succ_apply']
    exact step_lt bits _

/-- The iterates in closed form. -/
theorem iterate_eq {bits x : Nat} (small : x < 2 ^ bits) (n : Nat) :
    (step bits)^[n] x = (5 ^ n * x + geometric n) % 2 ^ bits := by
  induction n with
  | zero =>
    show x = _
    rw [Nat.pow_zero, Nat.one_mul, geometric, Nat.add_zero, Nat.mod_eq_of_lt small]
  | succ n inductionHypothesis =>
    rw [Function.iterate_succ_apply', inductionHypothesis, step, geometric, Nat.add_mod,
      Nat.mul_mod, Nat.mod_mod, ← Nat.mul_mod, ← Nat.add_mod]
    congr 1
    ring

theorem five_pow_eq (n : Nat) : 5 ^ n = 4 * geometric n + 1 := by
  induction n with
  | zero => rfl
  | succ n inductionHypothesis =>
    rw [Nat.pow_succ, inductionHypothesis, geometric]
    ring

theorem geometric_add (m n : Nat) : geometric (m + n) = 5 ^ n * geometric m + geometric n := by
  induction n with
  | zero =>
    rw [Nat.add_zero, Nat.pow_zero, Nat.one_mul]
    rfl
  | succ n inductionHypothesis =>
    rw [← Nat.add_assoc, geometric, inductionHypothesis, geometric, Nat.pow_succ]
    ring

/-- A sum of odd powers has the parity of the number of its terms. -/
theorem geometric_mod_two (n : Nat) : geometric n % 2 = n % 2 := by
  induction n with
  | zero => rfl
  | succ n inductionHypothesis =>
    rw [geometric]
    omega

/-- A power of two divides the sum only when it divides the number of terms. -/
theorem dvd_of_dvd_geometric {bits : Nat} :
    ∀ {n : Nat}, 2 ^ bits ∣ geometric n → 2 ^ bits ∣ n := by
  induction bits with
  | zero =>
    intro n _
    exact one_dvd n
  | succ bits inductionHypothesis =>
    intro n divides
    have even : n % 2 = 0 := by
      rw [← geometric_mod_two]
      exact Nat.mod_eq_zero_of_dvd (dvd_trans (dvd_pow_self 2 (Nat.succ_ne_zero bits)) divides)
    obtain ⟨half, rfl⟩ := Nat.dvd_of_mod_eq_zero even
    have split : geometric (2 * half) = 2 * (geometric half * (2 * geometric half + 1)) := by
      rw [Nat.two_mul, geometric_add, five_pow_eq]
      ring
    rw [split, Nat.pow_succ, Nat.mul_comm (2 ^ bits)] at divides
    have inner := Nat.dvd_of_mul_dvd_mul_left Nat.two_pos divides
    have odd : Nat.Coprime (2 ^ bits) (2 * geometric half + 1) :=
      Nat.Coprime.pow_left bits ((Nat.coprime_two_left).mpr ⟨geometric half, rfl⟩)
    rw [Nat.pow_succ, Nat.mul_comm]
    exact Nat.mul_dvd_mul_left 2 (inductionHypothesis (odd.dvd_of_dvd_mul_right inner))

/-- No number comes back before the cycle is complete. -/
theorem dvd_of_iterate_eq {bits x n : Nat} (small : x < 2 ^ bits)
    (back : (step bits)^[n] x = x) : 2 ^ bits ∣ n := by
  rw [iterate_eq small, five_pow_eq] at back
  have difference : (4 * geometric n + 1) * x + geometric n - x =
      geometric n * (4 * x + 1) := by
    rw [show (4 * geometric n + 1) * x + geometric n = geometric n * (4 * x + 1) + x by ring,
      Nat.add_sub_cancel]
  have divides : 2 ^ bits ∣ geometric n * (4 * x + 1) := by
    rw [← difference]
    refine Nat.dvd_of_mod_eq_zero (Nat.sub_mod_eq_zero_of_mod_eq ?_)
    rw [back, Nat.mod_eq_of_lt small]
  have odd : Nat.Coprime (2 ^ bits) (4 * x + 1) :=
    Nat.Coprime.pow_left bits ((Nat.coprime_two_left).mpr ⟨2 * x, by ring⟩)
  exact dvd_of_dvd_geometric (odd.dvd_of_dvd_mul_right divides)

/-- Every number is reached from every other within one cycle. -/
theorem exists_iterate {bits x y : Nat} (xSmall : x < 2 ^ bits) (ySmall : y < 2 ^ bits) :
    ∃ n < 2 ^ bits, (step bits)^[n] x = y := by
  have injective : Function.Injective
      (fun n : Fin (2 ^ bits) => (⟨(step bits)^[n.val] x, iterate_lt xSmall n⟩ : Fin (2 ^ bits))) := by
    have ordered : ∀ {i j : Nat}, i ≤ j → j < 2 ^ bits →
        (step bits)^[i] x = (step bits)^[j] x → i = j := by
      intro i j le small same
      have back : (step bits)^[j - i] ((step bits)^[i] x) = (step bits)^[i] x := by
        rw [← Function.iterate_add_apply, Nat.sub_add_cancel le, same]
      have divides := dvd_of_iterate_eq (iterate_lt xSmall i) back
      have zero := Nat.eq_zero_of_dvd_of_lt divides (by omega)
      omega
    intro i j same
    have values : (step bits)^[i.val] x = (step bits)^[j.val] x := congrArg Fin.val same
    rcases Nat.le_total i.val j.val with le | le
    · exact Fin.ext (ordered le j.isLt values)
    · exact Fin.ext (ordered le i.isLt values.symm).symm
  obtain ⟨n, reached⟩ := Finite.surjective_of_injective injective ⟨y, ySmall⟩
  exact ⟨n.val, n.isLt, congrArg Fin.val reached⟩

end ProbeCycle
