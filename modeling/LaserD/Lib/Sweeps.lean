/-
This file is about solving equations by sweeps.

Every node has a value that is a function of the values of all. A sweep visits the nodes in a
given order and gives each its new value at once; sweeps are made until one of them changes
nothing. Only a key of a value is compared. When the functions look at keys only, the values
of the nodes that are visited then solve the equations.
-/

import Mathlib.Logic.Function.Basic
import Mathlib.Data.List.Basic

namespace LaserD.Sweeps

variable {B D K : Type} [DecidableEq B] [DecidableEq K] (key : D → K) (transfer : B → (B → D) → D)

/-- Give a node its new value, and note whether its key has changed. -/
def visit (swept : (B → D) × Bool) (b : B) : (B → D) × Bool :=
  (Function.update swept.1 b (transfer b swept.1),
    swept.2 || decide (key (transfer b swept.1) ≠ key (swept.1 b)))

/-- Visit the nodes in order. -/
def sweep (order : List B) (values : B → D) : (B → D) × Bool :=
  order.foldl (visit key transfer) (values, false)

/-- Sweeps until one changes no key. The first argument is how many may be made. -/
def sweeps (order : List B) : Nat → (B → D) → Option (B → D)
  | 0, _ => none
  | left + 1, values =>
      let swept := sweep key transfer order values
      if swept.2 then sweeps order left swept.1 else some swept.1

/-- The functions look at keys only. -/
def LooksAtKeys : Prop :=
  ∀ (b : B) (values values' : B → D), (∀ c, key (values c) = key (values' c)) →
    transfer b values = transfer b values'

variable {key transfer}

/-- A mark that something has changed stays. -/
theorem foldl_visit_changed (rest : List B) (values : B → D) :
    (rest.foldl (visit key transfer) (values, true)).2 = true := by
  induction rest generalizing values with
  | nil => rfl
  | cons b rest inductionHypothesis => exact inductionHypothesis _

/-- When nothing has changed, no key has, and every node that was visited has its value. -/
theorem foldl_visit_unchanged (looks : LooksAtKeys key transfer) (rest : List B) {values : B → D}
    (unchanged : (rest.foldl (visit key transfer) (values, false)).2 = false) :
    (∀ c, key ((rest.foldl (visit key transfer) (values, false)).1 c) = key (values c)) ∧
      (∀ b ∈ rest, (rest.foldl (visit key transfer) (values, false)).1 b = transfer b values) ∧
      ∀ b ∉ rest, (rest.foldl (visit key transfer) (values, false)).1 b = values b := by
  induction rest generalizing values with
  | nil => exact ⟨fun _ => rfl, fun _ member => absurd member List.not_mem_nil, fun _ _ => rfl⟩
  | cons b rest inductionHypothesis =>
    rw [List.foldl_cons, visit] at unchanged ⊢
    by_cases same : key (transfer b values) = key (values b)
    · rw [Bool.false_or, decide_eq_false (not_not_intro same)] at unchanged ⊢
      have keys : ∀ c, key (Function.update values b (transfer b values) c) = key (values c) := by
        intro c
        by_cases here : c = b
        · rw [here, Function.update_self, same]
        · rw [Function.update_of_ne here]
      obtain ⟨kept, visited, others⟩ := inductionHypothesis unchanged
      refine ⟨fun c => (kept c).trans (keys c), fun c member => ?_, fun c outside => ?_⟩
      · by_cases later : c ∈ rest
        · rw [visited c later]
          exact looks c _ _ keys
        · rw [others c later]
          rcases List.mem_cons.mp member with rfl | there
          · rw [Function.update_self]
          · exact absurd there later
      · rw [List.mem_cons, not_or] at outside
        rw [others c outside.2, Function.update_of_ne outside.1]
    · rw [Bool.false_or, decide_eq_true same, foldl_visit_changed] at unchanged
      cases unchanged

/-- The nodes that are visited solve the equations. -/
theorem sweeps_solved (looks : LooksAtKeys key transfer) {order : List B} {left : Nat}
    {values solved : B → D} (swept : sweeps key transfer order left values = some solved) :
    ∀ b ∈ order, solved b = transfer b solved := by
  induction left generalizing values with
  | zero => cases swept
  | succ left inductionHypothesis =>
    rw [sweeps] at swept
    split at swept
    · exact inductionHypothesis swept
    · rename_i unchanged
      rw [Bool.not_eq_true] at unchanged
      obtain ⟨kept, visited, _⟩ := foldl_visit_unchanged looks order unchanged
      intro b member
      rw [← Option.some.inj swept]
      exact (visited b member).trans (looks b _ _ kept).symm

end LaserD.Sweeps
