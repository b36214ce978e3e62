/-
This file cuts runs of bits out of natural numbers and puts others in their place.

A run has a width and an offset. A number with another value in the place of a run has the
bits of the value there and its own bits everywhere else, and the run of the result is the
lower bits of the value.
-/

import Mathlib.Data.Nat.Bitwise

namespace LaserD.BitFields

/-- The bits of a number from an offset on, so many of them. -/
def extract (width offset x : Nat) : Nat := x / 2 ^ offset % 2 ^ width

/-- A number with the lower bits of a value in the place of a run. -/
def insert (width offset x value : Nat) : Nat :=
  x - x / 2 ^ offset % 2 ^ width * 2 ^ offset + value % 2 ^ width * 2 ^ offset

theorem extract_lt (width offset x : Nat) : extract width offset x < 2 ^ width :=
  Nat.mod_lt _ (Nat.two_pow_pos _)

theorem testBit_extract (width offset x index : Nat) :
    (extract width offset x).testBit index = (decide (index < width) && x.testBit (offset + index)) := by
  rw [extract, Nat.testBit_mod_two_pow, Nat.testBit_div_two_pow, Nat.add_comm]

/-- What is below the run, in it and above it. -/
theorem insert_eq (width offset x value : Nat) :
    insert width offset x value =
      2 ^ offset * (2 ^ width * (x / 2 ^ (offset + width)) + value % 2 ^ width) + x % 2 ^ offset := by
  have whole : x = 2 ^ offset * (2 ^ width * (x / 2 ^ (offset + width)) + x / 2 ^ offset % 2 ^ width)
      + x % 2 ^ offset := by
    rw [Nat.pow_add, ← Nat.div_div_eq_div_mul, Nat.div_add_mod, Nat.div_add_mod]
  have split (value : Nat) :
      2 ^ offset * (2 ^ width * (x / 2 ^ (offset + width)) + value) =
        2 ^ offset * (2 ^ width * (x / 2 ^ (offset + width))) + value * 2 ^ offset := by
    rw [Nat.mul_add, Nat.mul_comm _ value]
  rw [split] at whole ⊢
  unfold insert
  omega

theorem testBit_insert (width offset x value index : Nat) :
    (insert width offset x value).testBit index =
      if offset ≤ index ∧ index < offset + width then value.testBit (index - offset)
      else x.testBit index := by
  have low : x % 2 ^ offset < 2 ^ offset := Nat.mod_lt _ (Nat.two_pow_pos _)
  have middle : value % 2 ^ width < 2 ^ width := Nat.mod_lt _ (Nat.two_pow_pos _)
  rw [insert_eq, Nat.testBit_two_pow_mul_add _ low, Nat.testBit_two_pow_mul_add _ middle]
  by_cases below : index < offset
  · rw [if_pos below, if_neg (by omega), Nat.testBit_mod_two_pow, decide_eq_true below,
      Bool.true_and]
  · rw [if_neg below]
    by_cases inside : index - offset < width
    · rw [if_pos inside, if_pos (by omega), Nat.testBit_mod_two_pow, decide_eq_true inside,
        Bool.true_and]
    · rw [if_neg inside, if_neg (by omega), Nat.testBit_div_two_pow]
      congr 1
      omega

theorem insert_lt {width offset x value bits : Nat} (small : x < 2 ^ bits)
    (inside : offset + width ≤ bits) : insert width offset x value < 2 ^ bits := by
  refine Nat.lt_pow_two_of_testBit _ fun index beyond => ?_
  rw [testBit_insert, if_neg (by omega)]
  exact Nat.testBit_lt_two_pow (Nat.lt_of_lt_of_le small (Nat.pow_le_pow_right Nat.two_pos beyond))

/-- The run of the result is the lower bits of the value. -/
theorem extract_insert (width offset x value : Nat) :
    extract width offset (insert width offset x value) = value % 2 ^ width := by
  refine Nat.eq_of_testBit_eq fun index => ?_
  rw [testBit_extract, testBit_insert, Nat.testBit_mod_two_pow]
  by_cases inside : index < width
  · rw [if_pos (by omega), Nat.add_sub_cancel_left]
  · rw [decide_eq_false inside, Bool.false_and, Bool.false_and]

/-- The lower bits after a run was replaced by those of the number itself are the same exactly where
each bit of the run repeats the one an offset below it. -/
theorem insert_self_mod_iff (width offset x : Nat) :
    insert width offset x x % 2 ^ width = x % 2 ^ width ↔
      ∀ index, offset ≤ index → index < width → x.testBit (index - offset) = x.testBit index := by
  constructor
  · intro same index above below
    have bits := congrArg (Nat.testBit · index) same
    simp only [Nat.testBit_mod_two_pow, decide_eq_true below, Bool.true_and, testBit_insert] at bits
    rwa [if_pos (by omega)] at bits
  · intro same
    refine Nat.eq_of_testBit_eq fun index => ?_
    rw [Nat.testBit_mod_two_pow, Nat.testBit_mod_two_pow, testBit_insert]
    by_cases below : index < width
    · by_cases above : offset ≤ index
      · rw [if_pos (by omega), same index above below]
      · rw [if_neg (by omega)]
    · rw [decide_eq_false below, Bool.false_and, Bool.false_and]

end LaserD.BitFields
