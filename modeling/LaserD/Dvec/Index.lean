/-
This file proves that the search for the next bit finds the least one, and that the loops over the
bits visit each once and in order.

The search shifts the word to the position it starts at, and goes on with whole words. What it keeps
is that the word it looks at holds the bits from the position to the end of the word.
-/

import LaserD.Dvec.Words

namespace LaserD.Dvec

open PackedBits

/-! ### The bits of a word -/

theorem scan_zero (b : Nat) : scan 0 b = (b, false) := by
  rw [scan, dif_pos rfl]

theorem and_one_ne_zero_iff (starv : Word) : starv &&& 1 ≠ 0 ↔ starv.getLsbD 0 = true := by
  have value : (starv &&& 1).toNat = starv.toNat % 2 := by
    rw [BitVec.toNat_and]
    exact Nat.and_one_is_mod _
  rw [BitVec.getLsbD, Nat.testBit_zero, decide_eq_true_iff, Ne, ← BitVec.toNat_inj, value]
  show ¬starv.toNat % 2 = 0 ↔ _
  omega

/-- The first bit of a word is found. -/
theorem scan_spec (starv : Word) (nonzero : starv ≠ 0) (b width : Nat) (small : b + width ≤ 2 ^ 64)
    (top : ∀ j, width ≤ j → starv.getLsbD j = false) :
    ∃ k, k < width ∧ scan starv b = (b + k, true) ∧ starv.getLsbD k = true ∧
      ∀ j < k, starv.getLsbD j = false := by
  induction width generalizing starv b with
  | zero =>
    refine absurd (BitVec.eq_of_getLsbD_eq fun j _ => ?_) nonzero
    rw [top j (Nat.zero_le j)]
    exact BitVec.getLsbD_zero.symm
  | succ width inductionHypothesis =>
    rw [scan, dif_neg nonzero]
    by_cases first : starv.getLsbD 0 = true
    · rw [if_pos ((and_one_ne_zero_iff starv).mpr first)]
      exact ⟨0, Nat.succ_pos _, rfl, first, fun j before => absurd before (Nat.not_lt_zero j)⟩
    · rw [if_neg fun found => first ((and_one_ne_zero_iff starv).mp found)]
      have shifted (j : Nat) : (starv >>> 1).getLsbD j = starv.getLsbD (j + 1) := by
        rw [BitVec.getLsbD_ushiftRight, Nat.add_comm]
      have bitZero : starv.getLsbD 0 = false := Bool.not_eq_true _ ▸ first
      have moreNonzero : starv >>> 1 ≠ 0 := by
        intro zero
        refine nonzero (BitVec.eq_of_getLsbD_eq fun j _ => ?_)
        refine Eq.trans ?_ BitVec.getLsbD_zero.symm
        rcases j with - | j
        · exact bitZero
        · rw [← shifted, zero]
          exact BitVec.getLsbD_zero
      have above (j : Nat) (beyond : width ≤ j) : (starv >>> 1).getLsbD j = false := by
        rw [shifted]
        exact top _ (Nat.succ_le_succ beyond)
      by_cases last : width = 0
      · refine absurd (BitVec.eq_of_getLsbD_eq fun j _ => ?_) moreNonzero
        rw [above j (by omega)]
        exact BitVec.getLsbD_zero.symm
      · rw [Nat.mod_eq_of_lt (by omega)]
        obtain ⟨k, before, found, bit, none⟩ := inductionHypothesis (starv >>> 1) moreNonzero (b + 1)
          (by omega) above
        refine ⟨k + 1, Nat.succ_lt_succ before, ?_, by rw [← shifted]; exact bit, ?_⟩
        · rw [found, Nat.add_assoc, Nat.add_comm 1 k]
        · intro j before'
          rcases j with - | j
          · exact bitZero
          · rw [← shifted]
            exact none j (Nat.lt_of_succ_lt_succ before')

/-! ### The words -/

/-- The least bit of words from a position on, or a number if there is none. -/
def IsNext (words : List Word) (numbits b n : Nat) : Prop :=
  (bitAt words n = true ∧ b ≤ n ∧ ∀ j, b ≤ j → j < n → bitAt words j = false) ∨
    (n = numbits ∧ ∀ j, b ≤ j → bitAt words j = false)

/-- A word holds the bits from a position to the end of the word of the position. -/
structure Holds (words : List Word) (starv : Word) (b : Nat) : Prop where
  inside : b / 64 < words.length
  low : ∀ j, b % 64 + j < 64 → starv.getLsbD j = bitAt words (b + j)
  high : ∀ j, 64 ≤ b % 64 + j → starv.getLsbD j = false

/-- A word with bits ends the search. -/
theorem Holds.found {words : List Word} {starv : Word} {b : Nat} (holds : Holds words starv b)
    (fits : words.length < 2 ^ 58) (nonzero : starv ≠ 0) :
    ∃ n, scan starv b = (n, true) ∧ bitAt words n = true ∧ b ≤ n ∧
      ∀ j, b ≤ j → j < n → bitAt words j = false := by
  have inside := holds.inside
  obtain ⟨k, before, found, bit, none⟩ := scan_spec starv nonzero b (64 - b % 64) (by omega)
    fun j beyond => holds.high j (by omega)
  refine ⟨b + k, found, ?_, Nat.le_add_right b k, fun j from_ before' => ?_⟩
  · rw [← holds.low k (by omega)]
    exact bit
  · have zero := none (j - b) (by omega)
    rwa [holds.low (j - b) (by omega), Nat.add_sub_cancel' from_] at zero

/-- A word without bits is skipped. -/
theorem Holds.skipped {words : List Word} {b : Nat} (holds : Holds words 0 b) (j : Nat)
    (from_ : b ≤ j) (same : j / 64 = b / 64) : bitAt words j = false := by
  have bit := holds.low (j - b) (by omega)
  rw [Nat.add_sub_cancel' from_] at bit
  rw [← bit]
  exact BitVec.getLsbD_zero

/-- A whole word holds its bits. -/
theorem holds_word {words rest : List Word} {word : Word} {index : Nat}
    (at_ : words.drop index = word :: rest) : Holds words word (index * 64) := by
  have found : words[index]? = some word := by
    rw [← Nat.add_zero index, ← List.getElem?_drop, at_]
    rfl
  obtain ⟨inside, -⟩ := List.getElem?_eq_some_iff.mp found
  refine ⟨by omega, fun j within => ?_, fun j beyond => BitVec.getLsbD_of_ge _ _ (by omega)⟩
  have value : words.getD index 0 = word := by
    rw [List.getD_eq_getElem?_getD, found]
    rfl
  rw [← value]
  exact getLsbD_eq_bitAt words index j (by omega)

/-- The shifted word holds the bits from a position on. -/
theorem holds_shifted {words rest : List Word} {word : Word} {b : Nat}
    (at_ : words.drop (b / 64) = word :: rest) : Holds words (word >>> (b % 64)) b := by
  obtain ⟨inside, low, high⟩ := holds_word at_
  refine ⟨by omega, fun j within => ?_, fun j beyond => ?_⟩
  · rw [BitVec.getLsbD_ushiftRight, low _ (by omega)]
    congr 1
    omega
  · rw [BitVec.getLsbD_ushiftRight]
    exact BitVec.getLsbD_of_ge _ _ beyond

/-- The loop over the words finds the next bit. -/
theorem indexLoop_spec (numbits : Nat) {words : List Word} (fits : words.length < 2 ^ 58)
    (rest : List Word) (starv : Word) (b : Nat) (remaining : words.drop (b / 64 + 1) = rest)
    (holds : Holds words starv b) : IsNext words numbits b (indexLoop numbits rest starv b) := by
  induction rest generalizing starv b with
  | nil =>
    rw [indexLoop]
    by_cases none : starv = 0
    · subst none
      rw [scan_zero]
      refine .inr ⟨rfl, fun j from_ => ?_⟩
      by_cases same : j / 64 = b / 64
      · exact holds.skipped j from_ same
      · have last := List.drop_eq_nil_iff.mp remaining
        exact bitAt_beyond (by omega)
    · obtain ⟨n, found, next⟩ := holds.found fits none
      rw [found]
      exact .inl next
  | cons word rest inductionHypothesis =>
    rw [indexLoop]
    by_cases none : starv = 0
    · subst none
      rw [scan_zero]
      have inside := holds.inside
      have rounded : (b + VECBITS) % 2 ^ 64 / VECBITS * VECBITS = (b / 64 + 1) * 64 := by
        rw [VECBITS_eq]
        omega
      show IsNext words numbits b (indexLoop numbits rest word _)
      rw [rounded]
      have quotient : (b / 64 + 1) * 64 / 64 = b / 64 + 1 := Nat.mul_div_cancel _ (by decide)
      have after : words.drop ((b / 64 + 1) * 64 / 64 + 1) = rest := by
        rw [quotient, ← List.drop_drop, remaining]
        rfl
      have skipped (j : Nat) (from_ : b ≤ j) (before : j < (b / 64 + 1) * 64) :
          bitAt words j = false := holds.skipped j from_ (by omega)
      rcases inductionHypothesis word ((b / 64 + 1) * 64) after (holds_word remaining) with
        ⟨bit, least, none⟩ | ⟨end_, none⟩
      · refine .inl ⟨bit, by omega, fun j from_ before => ?_⟩
        by_cases within : j < (b / 64 + 1) * 64
        · exact skipped j from_ within
        · exact none j (not_lt.mp within) before
      · refine .inr ⟨end_, fun j from_ => ?_⟩
        by_cases within : j < (b / 64 + 1) * 64
        · exact skipped j from_ within
        · exact none j (not_lt.mp within)
    · obtain ⟨n, found, next⟩ := holds.found fits none
      rw [found]
      exact .inl next

/-! ### The bits of a vector -/

/-- The words of a block are a set, and no bit at or beyond the number of bits is set. -/
structure Block.Stores (block : Block) (x : VecSet) : Prop where
  numbits : block.numbits = x.numbits
  positive : 0 < x.numbits
  small : x.numbits ≤ maxNumbits
  dim : block.dim = (x.numbits + 63) / 64
  length : block.words.length = block.dim
  bits : ∀ b, bitAt block.words b = true ↔ b ∈ x.bits

namespace VecSet

/-- The bits from a number on. -/
def from_ (x : VecSet) (b : Nat) : Finset Nat :=
  x.bits.filter (b ≤ ·)

theorem from_zero (x : VecSet) : x.from_ 0 = x.bits :=
  Finset.filter_true_of_mem fun b _ => Nat.zero_le b

theorem IsIndex.le {x : VecSet} {b n : Nat} (index : x.IsIndex b n) : n ≤ x.numbits := by
  rcases index with ⟨member, -, -⟩ | ⟨rfl, -⟩
  · exact (x.bounded n member).le
  · exact le_rfl

theorem IsIndex.from_eq_empty {x : VecSet} {b : Nat} (index : x.IsIndex b x.numbits) :
    x.from_ b = ∅ := by
  refine Finset.filter_false_of_mem fun c member => ?_
  rcases index with ⟨inside, -, -⟩ | ⟨-, before⟩
  · exact absurd (x.bounded _ inside) (lt_irrefl _)
  · exact not_le.mpr (before c member)

theorem IsIndex.from_eq_insert {x : VecSet} {b n : Nat} (index : x.IsIndex b n)
    (inside : n ≠ x.numbits) : x.from_ b = insert n (x.from_ (n + 1)) := by
  rcases index with ⟨member, from_, least⟩ | ⟨end_, -⟩
  · ext c
    rw [VecSet.from_, Finset.mem_filter, Finset.mem_insert, VecSet.from_, Finset.mem_filter]
    constructor
    · rintro ⟨present, after⟩
      rcases Nat.eq_or_lt_of_le (least c present after) with same | later
      · exact .inl same.symm
      · exact .inr ⟨present, later⟩
    · rintro (rfl | ⟨present, later⟩)
      · exact ⟨member, from_⟩
      · exact ⟨present, from_.trans (Nat.le_of_succ_le later)⟩
  · exact absurd end_ inside

theorem IsIndex.succ_le {x : VecSet} {b n : Nat} (index : x.IsIndex b n) (within : b ≤ x.numbits) :
    b ≤ n := by
  rcases index with ⟨-, from_, -⟩ | ⟨rfl, -⟩
  · exact from_
  · exact within

theorem notMem_from_succ (x : VecSet) (n : Nat) : n ∉ x.from_ (n + 1) :=
  fun member => absurd (Finset.mem_filter.mp member).2 (Nat.not_succ_le_self n)

end VecSet

namespace Block.Stores

variable {block : Block} {x : VecSet}

theorem fits (stores : block.Stores x) : block.words.length < 2 ^ 58 := by
  have small := stores.small
  rw [stores.length, stores.dim]
  rw [maxNumbits, VECBITS_eq] at small
  omega

/-- The next bit is found. -/
theorem index_spec (stores : block.Stores x) (b : Nat) :
    ∃ n, block.index b = some n ∧ x.IsIndex b n := by
  rw [Block.index, stores.numbits]
  by_cases inside : b < x.numbits
  · have start : (if b % 64 ≠ b then b / 64 else 0) = b / 64 := by
      split
      · rfl
      · omega
    have all : block.words.take block.dim = block.words := by
      rw [← stores.length, List.take_length]
    have bound : b / 64 < block.words.length := by
      rw [stores.length, stores.dim]
      omega
    rw [if_pos inside]
    simp only [and_VECMASK, shiftRight_VECSHIFT, start, all]
    rw [List.drop_eq_getElem_cons bound]
    refine ⟨_, rfl, ?_⟩
    rcases indexLoop_spec x.numbits stores.fits _ _ b rfl
      (holds_shifted (List.drop_eq_getElem_cons bound)) with ⟨bit, from_, none⟩ | ⟨end_, none⟩
    · refine .inl ⟨(stores.bits _).mp bit, from_, fun c member after => ?_⟩
      by_contra before
      exact Bool.false_ne_true ((none c after (not_le.mp before)).symm.trans
        ((stores.bits c).mpr member))
    · refine .inr ⟨end_, fun c member => ?_⟩
      by_contra after
      exact Bool.false_ne_true ((none c (not_lt.mp after)).symm.trans ((stores.bits c).mpr member))
  · rw [if_neg inside]
    exact ⟨_, rfl, .inr ⟨rfl, fun c member =>
      Nat.lt_of_lt_of_le (x.bounded c member) (not_lt.mp inside)⟩⟩

theorem numbits_lt (stores : block.Stores x) : x.numbits + 1 < 2 ^ 64 := by
  have small := stores.small
  rw [maxNumbits, VECBITS_eq] at small
  omega

/-- A range visits the bits from an index on. -/
theorem rangeLoop_spec (stores : block.Stores x) (fuel b n : Nat) (index : x.IsIndex b n)
    (enough : x.numbits < n + fuel) :
    block.rangeLoop fuel n = some ((x.from_ b).sort (· ≤ ·)) := by
  induction fuel generalizing b n with
  | zero => exact absurd index.le (not_le.mpr enough)
  | succ fuel inductionHypothesis =>
    rw [Block.rangeLoop, stores.numbits]
    by_cases end_ : n = x.numbits
    · subst end_
      rw [if_pos rfl, index.from_eq_empty, Finset.sort_empty]
    · have before : n < x.numbits := Nat.lt_of_le_of_ne index.le end_
      obtain ⟨next, found, nextIndex⟩ := stores.index_spec (n + 1)
      rw [if_neg end_, Nat.mod_eq_of_lt (by have := stores.numbits_lt; omega), found,
        index.from_eq_insert end_]
      have later := nextIndex.succ_le before
      show (block.rangeLoop fuel next).map (n :: ·) = _
      have smallest : ∀ c ∈ x.from_ (n + 1), n ≤ c := fun c member =>
        Nat.le_of_succ_le (Finset.mem_filter.mp member).2
      rw [inductionHypothesis (n + 1) next nextIndex (by omega),
        Finset.sort_insert (fun b c => b ≤ c) smallest (x.notMem_from_succ n)]
      rfl

/-- The loop counts the bits from a number on, in 32 bits. -/
theorem countLoop_spec (stores : block.Stores x) (fuel b n : Nat) (within : b ≤ x.numbits)
    (enough : x.numbits < b + fuel) (small : n < 2 ^ 32) :
    block.countLoop fuel b n = some ((n + (x.from_ b).card) % 2 ^ 32) := by
  induction fuel generalizing b n with
  | zero => omega
  | succ fuel inductionHypothesis =>
    obtain ⟨next, found, index⟩ := stores.index_spec b
    have later := index.succ_le within
    rw [Block.countLoop, found]
    show (if next < block.numbits then _ else some n) = _
    rw [stores.numbits]
    by_cases end_ : next = x.numbits
    · subst end_
      rw [if_neg (lt_irrefl _), index.from_eq_empty, Finset.card_empty, Nat.add_zero,
        Nat.mod_eq_of_lt small]
    · have before : next < x.numbits := Nat.lt_of_le_of_ne index.le end_
      rw [if_pos before, Nat.mod_eq_of_lt (by have := stores.numbits_lt; omega),
        inductionHypothesis (next + 1) _ before (by omega) (Nat.mod_lt _ (by decide)),
        index.from_eq_insert end_, Finset.card_insert_of_notMem (x.notMem_from_succ next),
        Nat.mod_add_mod, Nat.add_assoc, Nat.add_comm 1]

/-- The bits are visited each once and in order. -/
theorem range_spec (stores : block.Stores x) :
    ((block.index 0).bind fun i => block.rangeLoop (block.numbits + 1) i) =
      some (x.bits.sort (· ≤ ·)) := by
  obtain ⟨n, found, index⟩ := stores.index_spec 0
  rw [found]
  show block.rangeLoop (block.numbits + 1) n = _
  rw [stores.rangeLoop_spec _ 0 n index (by rw [stores.numbits]; omega), x.from_zero]

theorem count_spec (stores : block.Stores x) :
    block.countLoop (block.numbits + 1) 0 0 = some (x.bits.card % 2 ^ 32) := by
  rw [stores.countLoop_spec _ 0 0 (Nat.zero_le _) (by rw [stores.numbits]; omega) (by decide),
    Nat.zero_add, x.from_zero]

end Block.Stores

end LaserD.Dvec
