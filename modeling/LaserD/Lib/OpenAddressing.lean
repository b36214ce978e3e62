/-
This file is about tables with open addressing: every key has a sequence of slots that
are probed in turn, and a key sits in the first of them that was free. `Placed` says
that this is where the keys sit. Then the first slot that is free or holds the key tells
whether the key is in the table, and it is where a new key goes.

Triangular probing adds one, two, three and so on to the slot, modulo a power of two. It
comes to every slot, because of two triangular numbers below the power the difference is
half the product of an odd and an even number that are both too small.
-/

import Mathlib.Algebra.Order.Ring.Nat
import Mathlib.Data.Fintype.Card
import Mathlib.Data.Nat.Factorization.Basic
import Mathlib.Data.Nat.ModEq
import Mathlib.Logic.Function.Basic
import Mathlib.Tactic.Ring

namespace OpenAddressing

/-! ### Placed keys -/

section

variable {K : Type} {probe : K → Nat → Nat} {view : Nat → Option K}

/-- No slot that is probed before the `n`-th is free or holds the key. -/
def Passed (probe : K → Nat → Nat) (view : Nat → Option K) (key : K) (n : Nat) : Prop :=
  ∀ m < n, view (probe key m) ≠ none ∧ view (probe key m) ≠ some key

/-- Every key sits in a slot of its sequence that is found by probing. -/
def Placed (probe : K → Nat → Nat) (view : Nat → Option K) : Prop :=
  ∀ slot key, view slot = some key → ∃ n, probe key n = slot ∧ Passed probe view key n

/-- A key sits in one slot. -/
theorem Placed.unique (placed : Placed probe view) {key : K} {slot slot' : Nat}
    (here : view slot = some key) (there : view slot' = some key) : slot = slot' := by
  obtain ⟨n, rfl, passed⟩ := placed slot key here
  obtain ⟨n', rfl, passed'⟩ := placed slot' key there
  rcases Nat.lt_trichotomy n n' with less | same | more
  · exact absurd here (passed' n less).2
  · rw [same]
  · exact absurd there (passed n' more).2

/-- A key that is in the table is not passed. -/
theorem Placed.not_free (placed : Placed probe view) {key : K} {n slot : Nat}
    (passed : Passed probe view key n) (here : view slot = some key) :
    view (probe key n) ≠ none := by
  obtain ⟨n', rfl, passed'⟩ := placed slot key here
  intro free
  rcases Nat.lt_trichotomy n n' with less | same | more
  · exact (passed' n less).1 free
  · rw [same, here] at free
    cases free
  · exact (passed n' more).2 here

/-- A new key goes into the first free slot of its sequence. -/
theorem Placed.update (placed : Placed probe view) {key : K} {n : Nat}
    (passed : Passed probe view key n) (free : view (probe key n) = none) :
    Placed probe (Function.update view (probe key n) (some key)) := by
  intro slot other here
  by_cases same : slot = probe key n
  · rw [same, Function.update_self, Option.some.injEq] at here
    subst here
    refine ⟨n, same.symm, fun m less => ?_⟩
    have different : probe key m ≠ probe key n := by
      intro equal
      have occupied := (passed m less).1
      rw [equal] at occupied
      exact occupied free
    rw [Function.update_of_ne different]
    exact passed m less
  · rw [Function.update_of_ne same] at here
    obtain ⟨n', found, passed'⟩ := placed slot other here
    refine ⟨n', found, fun m less => ?_⟩
    have different : probe other m ≠ probe key n := by
      intro equal
      have occupied := (passed' m less).1
      rw [equal] at occupied
      exact occupied free
    rw [Function.update_of_ne different]
    exact passed' m less

/-- Probing that comes to a free slot stops. -/
theorem exists_stop (key : K) {n : Nat} (free : view (probe key n) = none) :
    ∃ m ≤ n, Passed probe view key m ∧
      (view (probe key m) = none ∨ view (probe key m) = some key) := by
  classical
  have stops : ∃ m, view (probe key m) = none ∨ view (probe key m) = some key := ⟨n, Or.inl free⟩
  refine ⟨Nat.find stops, Nat.find_min' stops (Or.inl free), fun m less => ?_, Nat.find_spec stops⟩
  exact not_or.mp (Nat.find_min stops less)

end

/-! ### Triangular probing -/

/-- The slot after `n` steps. -/
def triangular (bits start n : Nat) : Nat :=
  (start + n * (n + 1) / 2) % 2 ^ bits

theorem triangular_lt (bits start n : Nat) : triangular bits start n < 2 ^ bits :=
  Nat.mod_lt _ (Nat.two_pow_pos bits)

theorem half_succ (n : Nat) : (n + 1) * (n + 2) / 2 = n * (n + 1) / 2 + (n + 1) := by
  have expand : (n + 1) * (n + 2) = n * (n + 1) + (n + 1) * 2 := by ring
  rw [expand, Nat.add_mul_div_right _ _ Nat.two_pos]

theorem triangular_succ (bits start n : Nat) :
    triangular bits start (n + 1) = (triangular bits start n + (n + 1)) % 2 ^ bits := by
  rw [triangular, triangular, Nat.mod_add_mod, half_succ, Nat.add_assoc]

/-- The difference of two triangular numbers, doubled. -/
theorem double_difference {first second : Nat} (less : first ≤ second) :
    2 * (second * (second + 1) / 2 - first * (first + 1) / 2) =
      (second - first) * (second + first + 1) := by
  obtain ⟨gap, rfl⟩ := Nat.exists_eq_add_of_le less
  have evenFirst := Nat.two_mul_div_two_of_even (Nat.even_mul_succ_self first)
  have evenSecond := Nat.two_mul_div_two_of_even (Nat.even_mul_succ_self (first + gap))
  rw [Nat.mul_sub, evenFirst, evenSecond, Nat.add_sub_cancel_left]
  refine Nat.sub_eq_of_eq_add ?_
  ring

/-- A power of two that divides a product of two numbers of different parity divides one. -/
theorem two_pow_dvd_of_parity {bits x y : Nat} (parity : x % 2 ≠ y % 2)
    (divides : 2 ^ bits ∣ x * y) : 2 ^ bits ∣ x ∨ 2 ^ bits ∣ y := by
  rcases Nat.mod_two_eq_zero_or_one x with even | odd
  · have oddOther : Nat.Coprime (2 ^ bits) y :=
      Nat.Coprime.pow_left bits ((Nat.coprime_two_left).mpr (Nat.odd_iff.mpr (by omega)))
    exact Or.inl (oddOther.dvd_of_dvd_mul_right divides)
  · have coprime : Nat.Coprime (2 ^ bits) x :=
      Nat.Coprime.pow_left bits ((Nat.coprime_two_left).mpr (Nat.odd_iff.mpr odd))
    exact Or.inr (coprime.dvd_of_dvd_mul_left divides)

theorem triangular_ne {bits start first second : Nat} (less : first < second)
    (small : second < 2 ^ bits) : triangular bits start first ≠ triangular bits start second := by
  intro same
  have ordered : first * (first + 1) / 2 ≤ second * (second + 1) / 2 :=
    Nat.div_le_div_right (Nat.mul_le_mul less.le (Nat.succ_le_succ less.le))
  have divides : 2 ^ bits ∣ second * (second + 1) / 2 - first * (first + 1) / 2 := by
    rw [← Nat.add_sub_add_left start]
    exact (Nat.modEq_iff_dvd' (Nat.add_le_add_left ordered start)).mp same
  have doubled : 2 ^ (bits + 1) ∣ (second - first) * (second + first + 1) := by
    rw [← double_difference less.le, Nat.pow_succ, Nat.mul_comm (2 ^ bits)]
    exact Nat.mul_dvd_mul_left 2 divides
  rcases two_pow_dvd_of_parity (by omega) doubled with divided | divided
  · have bound := Nat.le_of_dvd (by omega) divided
    rw [Nat.pow_succ] at bound
    omega
  · have bound := Nat.le_of_dvd (by omega) divided
    rw [Nat.pow_succ] at bound
    omega

/-- Triangular probing comes to every slot. -/
theorem exists_triangular {bits slot : Nat} (start : Nat) (small : slot < 2 ^ bits) :
    ∃ n < 2 ^ bits, triangular bits start n = slot := by
  have injective : Function.Injective (fun n : Fin (2 ^ bits) =>
      (⟨triangular bits start n, triangular_lt bits start n⟩ : Fin (2 ^ bits))) := by
    intro first second same
    have equal : triangular bits start first = triangular bits start second :=
      congrArg Fin.val same
    refine Fin.ext ?_
    rcases Nat.lt_trichotomy first.val second.val with less | same | more
    · exact absurd equal (triangular_ne less second.isLt)
    · exact same
    · exact absurd equal.symm (triangular_ne more first.isLt)
  obtain ⟨n, found⟩ := Finite.surjective_of_injective injective ⟨slot, small⟩
  exact ⟨n, n.isLt, congrArg Fin.val found⟩

end OpenAddressing
