/-
This file relates the widened constants of `evalu8` to the words of their type.

An operator that is compatible with the reduction modulo a power of two may be computed on the
widened words, and its result narrowed. For the others the widened word stands for the same number
as the word of the type, read as a natural number when the fold takes the operation for unsigned and
as an integer otherwise.
-/

import LaserD.Evalu8.Machine
import LaserD.Constfold.Signedness

namespace LaserD.Evalu8

variable {tym : TYM} {e1 e2 ev : EV}

/-! ### Numbers -/

/-- The number a word of the type stands for. -/
def number (tym : TYM) (word : BitVec tym.bits) : Int :=
  if tym.signed then word.toInt else word.toNat

theorem number_of_signed (signed : tym.signed = true) (word : BitVec tym.bits) :
    number tym word = word.toInt := by
  rw [number, if_pos signed]

theorem number_of_unsigned (unsigned : tym.signed = false) (word : BitVec tym.bits) :
    number tym word = word.toNat := by
  rw [number, unsigned, if_neg Bool.false_ne_true]

theorem signed_of_tyuns (uns : tym.tyuns = true) : tym.signed = false := by
  cases tym <;> first | rfl | exact absurd uns (by decide)

theorem bits_lt_of_bool (uns : tym.tyuns = false) (unsigned : tym.signed = false) :
    tym.bits < 64 := by
  cases tym <;> first | exact absurd uns (by decide) | exact absurd unsigned (by decide) | decide

theorem toNat_elTolong (uns : tym.tyuns = true) (ev : EV) :
    ((elTolong tym ev).toNat : Int) = number tym (valueOf tym ev) := by
  have unsigned := signed_of_tyuns uns
  rw [number_of_unsigned unsigned, elTolong_unsigned unsigned,
    BitVec.toNat_setWidth_of_le tym.bits_le]

theorem toInt_elTolong (uns : tym.tyuns = false) (ev : EV) :
    (elTolong tym ev).toInt = number tym (valueOf tym ev) := by
  cases signed : tym.signed
  · have narrow := bits_lt_of_bool uns signed
    have small : 2 * (valueOf tym ev).toNat < 2 ^ 64 := by
      have bound : 2 ^ (tym.bits + 1) ≤ 2 ^ 64 := Nat.pow_le_pow_right (by decide) narrow
      have inside := (valueOf tym ev).isLt
      rw [Nat.pow_succ] at bound
      omega
    rw [number_of_unsigned signed, elTolong_unsigned signed, BitVec.toInt_eq_toNat_of_lt,
      BitVec.toNat_setWidth_of_le tym.bits_le]
    rw [BitVec.toNat_setWidth_of_le tym.bits_le]
    exact small
  · rw [number_of_signed signed, elTolong_signed signed, BitVec.toInt_signExtend_of_le tym.bits_le]

theorem elTolong_inj {first second : EV} :
    elTolong tym first = elTolong tym second ↔ valueOf tym first = valueOf tym second := by
  constructor
  · intro same
    rw [← setWidth_elTolong, ← setWidth_elTolong, same]
  · intro same
    cases signed : tym.signed
    · rw [elTolong_unsigned signed, elTolong_unsigned signed, same]
    · rw [elTolong_signed signed, elTolong_signed signed, same]

theorem elTolong_eq_zero_iff (ev : EV) : elTolong tym ev = 0 ↔ valueOf tym ev = 0 := by
  have zero : valueOf tym 0 = 0 := BitVec.setWidth_zero tym.bits 128
  have word : elTolong tym 0 = 0 := by
    cases tym <;> rfl
  rw [← word, elTolong_inj, zero]

/-! ### Outcomes -/

/-- The node becomes a constant that reads as a number in the bits of the node. -/
def Yields (outcome : Outcome) (bits result : Nat) : Prop :=
  ∃ folded, outcome = .folded folded ∧ member folded bits = .ofNat bits result

/-- A stored word yields what its low bits are. -/
theorem yields_store {stored bits : Nat} (narrow : bits ≤ stored) (fits : stored ≤ 128)
    {word : BitVec stored} {result : Nat} (low : word.setWidth bits = .ofNat bits result) :
    Yields (.folded (store ev word)) bits result :=
  ⟨_, rfl, (member_store narrow fits ev word).trans low⟩

/-- A word that narrows to the result in the width of the type. -/
theorem yields_narrow {word : BitVec 64} {result : BitVec tym.bits}
    (low : word.setWidth tym.bits = result) :
    Yields (.folded (store ev word)) tym.bits result.toNat :=
  yields_store tym.bits_le (by decide) (by rw [low, BitVec.ofNat_toNat, BitVec.setWidth_eq])

/-- A stored word yields the result exactly when its low bits are the result. -/
theorem yields_narrow_iff {word : BitVec 64} {result : BitVec tym.bits} :
    Yields (.folded (store ev word)) tym.bits result.toNat ↔ word.setWidth tym.bits = result := by
  refine ⟨?_, yields_narrow⟩
  rintro ⟨folded, outcome, reads⟩
  rw [← Outcome.folded.inj outcome, member_store tym.bits_le (by decide), BitVec.ofNat_toNat,
    BitVec.setWidth_eq] at reads
  exact reads

/-- An operator without a division meets its purpose when it always folds and yields the result of
the machine where that is defined. -/
theorem foldsExactly_of_yields {op : OPER} {bits : Nat} (noDivision : op.isDivision = false)
    (folds : ∃ folded, evalu8 op tym e1 e2 ev = .folded folded)
    (yields : Defined op tym.signed (valueOf tym e1) (valueOf tym e2) →
      Yields (evalu8 op tym e1 e2 ev) bits
        (machine op tym.signed (valueOf tym e1) (valueOf tym e2))) :
    FoldsExactly op tym e1 e2 ev bits := by
  obtain ⟨folded, outcome⟩ := folds
  refine ⟨?_, yields, fun division => ?_, fun division => ?_⟩
  · rw [outcome]
    exact ⟨by simp, by simp⟩
  · exact absurd division (by simp [noDivision])
  · exact absurd division (by simp [noDivision])

/-- An operator that is defined everywhere meets its purpose when it yields the result. -/
theorem foldsExactly_of_total {op : OPER} {bits : Nat} (noDivision : op.isDivision = false)
    (yields : Yields (evalu8 op tym e1 e2 ev) bits
      (machine op tym.signed (valueOf tym e1) (valueOf tym e2))) :
    FoldsExactly op tym e1 e2 ev bits := by
  obtain ⟨folded, outcome, _⟩ := id yields
  exact foldsExactly_of_yields noDivision ⟨folded, outcome⟩ fun _ => yields

end LaserD.Evalu8
