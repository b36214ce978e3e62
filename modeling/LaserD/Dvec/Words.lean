/-
This file proves what the bit vectors do to single bits: what is written and combined word by word,
the bits beyond the number of bits that are cleared again, and the search for the next bit.

The search skips words without bits. A word that is skipped has no bit from the position on, and
the next position is the first of the next word, so the loop keeps that its word holds the bits
from the position to the end of the word.
-/

import LaserD.Dvec.Sets

namespace LaserD.Dvec

open PackedBits

@[simp] theorem VECBITS_eq : VECBITS = 64 := rfl

theorem and_VECMASK (b : Nat) : b &&& VECMASK = b % 64 := by
  have mask : VECMASK = 2 ^ 6 - 1 := rfl
  rw [mask, Nat.and_two_pow_sub_one_eq_mod]

theorem shiftRight_VECSHIFT (b : Nat) : b >>> VECSHIFT = b / 64 := by
  rw [Nat.shiftRight_eq_div_pow]
  rfl

/-! ### Words that are written -/

theorem memset_all {words : List Word} {count : Nat} (length : words.length = count)
    (value : Word) : memset words value count = some (List.replicate count value) := by
  rw [memset, if_pos length.ge, ← length, List.drop_length, List.append_nil]

theorem memcpy_all {words words' : List Word} {count : Nat} (length : words.length = count)
    (length' : words'.length = count) : memcpy words words' count = some words' := by
  rw [memcpy, if_pos ⟨length.ge, length'.ge⟩, ← length, List.drop_length, List.append_nil, length,
    ← length', List.take_length]

theorem bitAt_replicate (count b : Nat) (value : Word) :
    bitAt (List.replicate count value) b = (decide (b / 64 < count) && value.getLsbD (b % 64)) := by
  by_cases inside : b / 64 < count
  · rw [bitAt, List.getD_replicate _ inside, decide_eq_true inside, Bool.true_and]
  · rw [bitAt_beyond (by rw [List.length_replicate]; exact not_lt.mp inside),
      decide_eq_false inside, Bool.false_and]

theorem bitAt_zeros (count b : Nat) : bitAt (List.replicate count (0 : Word)) b = false := by
  rw [bitAt_replicate, BitVec.ofNat_eq_ofNat, BitVec.getLsbD_zero, Bool.and_false]

/-- A part is copied over zeros. -/
theorem memcpy_zeros (words : List Word) (count total : Nat) (within : count ≤ total)
    (within' : count ≤ words.length) : ∃ copied,
    memcpy (List.replicate total 0) words count = some copied ∧ copied.length = total ∧
      ∀ b, bitAt copied b = (decide (b / 64 < count) && bitAt words b) := by
  refine ⟨words.take count ++ (List.replicate total (0 : Word)).drop count,
    if_pos ⟨by rwa [List.length_replicate], within'⟩, ?_, fun b => ?_⟩
  · rw [List.length_append, List.length_take, List.length_drop, List.length_replicate]
    omega
  · have taken : (words.take count).length = count := List.length_take_of_le within'
    by_cases inside : b / 64 < count
    · rw [decide_eq_true inside, Bool.true_and]
      refine bitAt_of_word_eq ?_
      rw [List.getD_eq_getElem?_getD, List.getElem?_append_left (by rwa [taken]),
        List.getElem?_take_of_lt inside, ← List.getD_eq_getElem?_getD]
    · rw [decide_eq_false inside, Bool.false_and]
      refine bitAt_of_word_zero ?_
      rw [List.getD_eq_getElem?_getD, List.getElem?_append_right (by rw [taken]; exact not_lt.mp inside),
        List.drop_replicate, List.getElem?_replicate]
      split <;> rfl

theorem bitAt_modifyWord {words : List Word} {index : Nat} (inside : index < words.length)
    (f : Word → Word) : ∃ words', modifyWord words index f = some words' ∧
      words'.length = words.length ∧
      ∀ b, bitAt words' b =
        if b / 64 = index then (f (words.getD index 0)).getLsbD (b % 64) else bitAt words b := by
  refine ⟨words.set index (f (words.getD index 0)), ?_, List.length_set, fun b => ?_⟩
  · rw [modifyWord, List.getElem?_eq_getElem inside, List.getD_eq_getElem _ _ inside]
    rfl
  · rw [bitAt, getD_set _ _ _ _ inside]
    split
    · rfl
    · rfl

/-- The word of a bit. -/
theorem getLsbD_word {words : List Word} {b index : Nat} (at_ : b / 64 = index) :
    (words.getD index 0).getLsbD (b % 64) = bitAt words b := by
  rw [← at_]
  rfl

theorem getLsbD_single (k j : Nat) (inside : j < 64) :
    (1#64 <<< k).getLsbD j = decide (j = k) := by
  rw [BitVec.getLsbD_shiftLeft, BitVec.getLsbD_one, decide_eq_true inside, Bool.true_and]
  by_cases before : j < k
  · rw [decide_eq_true before, decide_eq_false (Nat.ne_of_lt before)]
    rfl
  · have zero : decide (j - k = 0) = decide (j = k) :=
      decide_eq_decide.mpr ⟨fun none => by omega, fun same => by omega⟩
    rw [decide_eq_false before, zero]
    rfl

/-- The bits beyond the number of bits are cleared and no others. -/
theorem clearextrabits_spec (block : Block) (dim : block.dim = (block.numbits + 63) / 64)
    (positive : 0 < block.numbits) (length : block.words.length = block.dim) :
    ∃ words, vec_clearextrabits block = some { block with words := words } ∧
      words.length = block.dim ∧
      ∀ b, bitAt words b = (decide (b < block.numbits) && bitAt block.words b) := by
  rw [vec_clearextrabits, and_VECMASK]
  have beyond (b : Nat) (outside : block.dim ≤ b / 64) : bitAt block.words b = false :=
    bitAt_beyond (by rwa [length])
  by_cases spare : block.numbits % 64 = 0
  · rw [if_neg (not_not.mpr spare)]
    refine ⟨block.words, rfl, length, fun b => ?_⟩
    by_cases inside : b < block.numbits
    · rw [decide_eq_true inside, Bool.true_and]
    · rw [decide_eq_false inside, Bool.false_and]
      exact beyond b (by omega)
  · rw [if_pos spare, if_neg (by omega)]
    obtain ⟨words, modified, kept, bits⟩ := bitAt_modifyWord
      (show block.dim - 1 < block.words.length by omega) (· &&& (MASK block.numbits - 1))
    rw [modified]
    refine ⟨words, rfl, kept.trans length, fun b => ?_⟩
    rw [bits]
    by_cases last : b / 64 = block.dim - 1
    · have mask := getLsbD_mask (w := 64) (block.numbits % 64) (b % 64) (Nat.mod_lt _ (by decide))
      rw [if_pos last, BitVec.getLsbD_and, getLsbD_word last, MASK, and_VECMASK]
      refine (congrArg (bitAt block.words b && ·) mask).trans ?_
      rw [Bool.and_comm]
      congr 2
      rw [eq_iff_iff]
      omega
    · rw [if_neg last]
      by_cases inside : b < block.numbits
      · rw [decide_eq_true inside, Bool.true_and]
      · rw [decide_eq_false inside, Bool.false_and]
        exact beyond b (by omega)

/-! ### Words that are combined -/

/-- The operation on words. -/
def SetOp.onWords (op : SetOp) : Word → Word → Word :=
  match op with
  | and => (· &&& ·)
  | or => (· ||| ·)
  | xor => (· ^^^ ·)
  | sub => fun word word' => word &&& ~~~word'

/-- The operation on bits. -/
def SetOp.onBits (op : SetOp) : Bool → Bool → Bool :=
  match op with
  | and => (· && ·)
  | or => (· || ·)
  | xor => Bool.xor
  | sub => fun bit bit' => bit && !bit'

theorem SetOp.getLsbD_onWords (op : SetOp) (word word' : Word) {j : Nat} (inside : j < 64) :
    (op.onWords word word').getLsbD j = op.onBits (word.getLsbD j) (word'.getLsbD j) := by
  cases op with
  | and => exact BitVec.getLsbD_and
  | or => exact BitVec.getLsbD_or
  | xor => exact BitVec.getLsbD_xor
  | sub =>
    show (word &&& ~~~word').getLsbD j = (word.getLsbD j && !word'.getLsbD j)
    rw [BitVec.getLsbD_and, BitVec.getLsbD_not, decide_eq_true inside, Bool.true_and]

theorem SetOp.mem_apply (op : SetOp) (s t : Finset Nat) (b : Nat) :
    b ∈ op.apply s t ↔ op.onBits (decide (b ∈ s)) (decide (b ∈ t)) = true := by
  cases op with
  | and => simp [apply, onBits]
  | or => simp [apply, onBits]
  | xor => by_cases left : b ∈ s <;> by_cases right : b ∈ t <;>
      simp [apply, onBits, Finset.mem_symmDiff, left, right]
  | sub => simp [apply, onBits]

theorem combineWords_all (op : SetOp) {v1 v2 v3 : List Word} {count : Nat}
    (length1 : v1.length = count) (length2 : v2.length = count) (length3 : v3.length = count) :
    ∃ words, combineWords op.onWords v1 v2 v3 count = some words ∧ words.length = count ∧
      ∀ b, bitAt words b = op.onBits (bitAt v2 b) (bitAt v3 b) := by
  refine ⟨List.zipWith op.onWords v2 v3, ?_, ?_, fun b => ?_⟩
  · rw [combineWords, if_pos ⟨length1.ge, length2.ge, length3.ge⟩, ← length1, List.drop_length,
      List.append_nil, length1]
    conv_lhs => rw [← length2, List.take_length, length2, ← length3, List.take_length]
  · rw [List.length_zipWith, length2, length3, Nat.min_self]
  · refine bitAt_zipWith op.onWords op.onBits (fun x y bit inside => op.getLsbD_onWords x y inside)
      (by decide) ?_
    by_cases inside : b / 64 < count
    · rw [List.getD_eq_getElem _ _ (by rw [List.length_zipWith]; omega), List.getElem_zipWith,
        List.getD_eq_getElem _ _ (by omega), List.getD_eq_getElem _ _ (by omega)]
    · rw [List.getD_eq_default _ _ (by rw [List.length_zipWith]; omega),
        List.getD_eq_default _ _ (by omega), List.getD_eq_default _ _ (by omega)]
      cases op <;> rfl

end LaserD.Dvec
