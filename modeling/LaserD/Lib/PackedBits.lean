/-
This file reads a list of words as a row of bits: bit `index` is bit `index % w` of word
`index / w`. Bits beyond the words read as false, and two lists of equally many words
are equal when their bits are.
-/

import Mathlib.Data.List.Basic
import Mathlib.Data.List.Range
import Mathlib.Data.Nat.Bitwise

namespace LaserD.PackedBits

variable {w : Nat}

/-- The bit at an index. -/
def bitAt (words : List (BitVec w)) (index : Nat) : Bool :=
  (words.getD (index / w) 0).getLsbD (index % w)

theorem bitAt_of_word_eq {first second : List (BitVec w)} {index : Nat}
    (same : first.getD (index / w) 0 = second.getD (index / w) 0) :
    bitAt first index = bitAt second index := by
  rw [bitAt, bitAt, same]

theorem bitAt_of_word_zero {words : List (BitVec w)} {index : Nat}
    (zero : words.getD (index / w) 0 = 0) : bitAt words index = false := by
  rw [bitAt, zero, BitVec.ofNat_eq_ofNat, BitVec.getLsbD_zero]

theorem bitAt_beyond {words : List (BitVec w)} {index : Nat}
    (beyond : words.length ≤ index / w) : bitAt words index = false :=
  bitAt_of_word_zero (List.getD_eq_default _ _ beyond)

/-- The bits of one word. -/
theorem getLsbD_eq_bitAt (words : List (BitVec w)) (word bit : Nat) (inside : bit < w) :
    (words.getD word 0).getLsbD bit = bitAt words (word * w + bit) := by
  have positive : 0 < w := Nat.zero_lt_of_lt inside
  have quotient : (word * w + bit) / w = word := by
    rw [Nat.mul_comm, Nat.mul_add_div positive, Nat.div_eq_of_lt inside, Nat.add_zero]
  have remainder : (word * w + bit) % w = bit := by
    rw [Nat.mul_comm, Nat.mul_add_mod, Nat.mod_eq_of_lt inside]
  rw [bitAt, quotient, remainder]

theorem getD_eq_of_bitAt {first second : List (BitVec w)} {word : Nat}
    (same : ∀ bit < w, bitAt first (word * w + bit) = bitAt second (word * w + bit)) :
    first.getD word 0 = second.getD word 0 := by
  ext bit inside
  have bits := same bit inside
  rw [← getLsbD_eq_bitAt _ _ _ inside, ← getLsbD_eq_bitAt _ _ _ inside] at bits
  simpa only [BitVec.getLsbD_eq_getElem inside] using bits

theorem eq_of_bitAt {first second : List (BitVec w)} (length : first.length = second.length)
    (same : ∀ index, bitAt first index = bitAt second index) : first = second := by
  refine List.ext_getElem length fun word bound bound' => ?_
  rw [← List.getD_eq_getElem first 0 bound, ← List.getD_eq_getElem second 0 bound']
  exact getD_eq_of_bitAt fun bit _ => same _

theorem bitAt_zipWith (combine : BitVec w → BitVec w → BitVec w) (onBits : Bool → Bool → Bool)
    (pointwise : ∀ x y bit, bit < w →
      (combine x y).getLsbD bit = onBits (x.getLsbD bit) (y.getLsbD bit))
    (positive : 0 < w)
    {words first second : List (BitVec w)} {index : Nat}
    (word : words.getD (index / w) 0 =
      combine (first.getD (index / w) 0) (second.getD (index / w) 0)) :
    bitAt words index = onBits (bitAt first index) (bitAt second index) := by
  rw [bitAt, word, pointwise _ _ _ (Nat.mod_lt _ positive), bitAt, bitAt]

/-! ### Writing words -/

theorem getD_set (words : List (BitVec w)) (written word : Nat) (value : BitVec w)
    (inside : written < words.length) :
    (words.set written value).getD word 0 =
      if word = written then value else words.getD word 0 := by
  by_cases same : word = written
  · subst same
    simp [inside]
  · simp [same, List.getElem?_set_ne (Ne.symm same)]

/-- The words after a loop that writes word after word. -/
theorem getD_foldl_set (words : List (BitVec w)) (value : Nat → BitVec w → BitVec w)
    (count word : Nat) (inside : count ≤ words.length) :
    ((List.range count).foldl (fun words i => words.set i (value i (words.getD i 0)))
        words).length = words.length ∧
      ((List.range count).foldl (fun words i => words.set i (value i (words.getD i 0)))
        words).getD word 0 =
      if word < count then value word (words.getD word 0) else words.getD word 0 := by
  induction count generalizing word with
  | zero => simp
  | succ count inductionHypothesis =>
    have before := fun word => inductionHypothesis word (Nat.le_of_succ_le inside)
    rw [List.range_succ, List.foldl_append, List.foldl_cons, List.foldl_nil]
    refine ⟨by rw [List.length_set, (before 0).1], ?_⟩
    rw [getD_set _ _ _ _ (by rw [(before 0).1]; exact inside)]
    by_cases last : word = count
    · subst last
      rw [if_pos rfl, (before word).2, if_neg (lt_irrefl _), if_pos (Nat.lt_succ_self _)]
    · rw [if_neg last, (before word).2]
      simp only [Nat.lt_succ_iff_lt_or_eq, last, or_false]

/-! ### Masks -/

theorem getLsbD_mask (low bit : Nat) (small : low < w) :
    ((1#w <<< low) - 1#w).getLsbD bit = decide (bit < low) := by
  have positive : 0 < w := Nat.zero_lt_of_lt small
  have shifted : (1#w <<< low).toNat = 2 ^ low := by
    rw [BitVec.toNat_shiftLeft, BitVec.toNat_ofNat, Nat.mod_eq_of_lt (Nat.one_lt_two_pow (by omega)),
      Nat.shiftLeft_eq, Nat.one_mul, Nat.mod_eq_of_lt (Nat.pow_lt_pow_right (by omega) small)]
  have one : (1#w).toNat = 1 := by
    rw [BitVec.toNat_ofNat, Nat.mod_eq_of_lt (Nat.one_lt_two_pow (by omega))]
  have value : ((1#w <<< low) - 1#w).toNat = 2 ^ low - 1 := by
    rw [BitVec.toNat_sub_of_le, shifted, one]
    rw [BitVec.le_def, shifted, one]
    exact Nat.one_le_two_pow
  rw [BitVec.getLsbD, value, Nat.testBit_two_pow_sub_one]

end LaserD.PackedBits
