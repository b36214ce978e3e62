/-
This file models the arithmetic shift and the rotations of the 128-bit integers of
`common/int128.d`, and proves that the shifts and rotations are those of the 128 bits.

Each shift has a case for a count of at least 128, one for a count of at least 64, and one for a
smaller count. The two shifts of the last case carry bits from one word to the other in two steps,
so that no word is shifted by its width.
-/

import LaserD.Int128.Cent
import Mathlib.Data.BitVec

namespace LaserD.Int128

/-! ### The bits -/

/-- The bits of a `Cent`. -/
def Cent.bits (c : Cent) : BitVec 128 := c.hi ++ c.lo

theorem toNat_bits (c : Cent) : c.bits.toNat = c.value := by
  rw [Cent.bits, BitVec.toNat_append, shiftLeft_or _ c.lo.isLt, Cent.value]

theorem getLsbD_bits (c : Cent) (i : Nat) :
    c.bits.getLsbD i = if i < 64 then c.lo.getLsbD i else c.hi.getLsbD (i - 64) := by
  rw [Cent.bits, BitVec.getLsbD_append]

theorem bits_injective {c c' : Cent} (same : c.bits = c'.bits) : c = c' := by
  apply Cent.value_injective
  rw [← toNat_bits, ← toNat_bits, same]

theorem signed_eq_toInt (c : Cent) : c.signed = c.bits.toInt := by
  unfold Cent.signed
  rw [BitVec.toInt_eq_toNat_bmod, toNat_bits]

/-! ### Shifts -/

theorem value_shl_wide (c : Cent) {n : Nat} (large : 64 ≤ n) :
    (shl c n).value = c.value * 2 ^ n % 2 ^ 128 := by
  obtain ⟨m, rfl⟩ := Nat.exists_eq_add_of_le large
  have split : c.value * 2 ^ (64 + m) =
      c.lo.toNat * 2 ^ m * 2 ^ 64 + 2 ^ 128 * (c.hi.toNat * 2 ^ m) := by
    rw [Cent.value, Nat.pow_add]
    ring
  rw [split, Nat.add_mul_mod_self_left]
  unfold shl Ubits
  by_cases beyond : 64 * 2 ≤ 64 + m
  · obtain ⟨rest, rfl⟩ := Nat.exists_eq_add_of_le (show 64 ≤ m by omega)
    have multiple : c.lo.toNat * 2 ^ (64 + rest) * 2 ^ 64 = 2 ^ 128 * (c.lo.toNat * 2 ^ rest) := by
      rw [Nat.pow_add]
      ring
    rw [if_pos beyond, multiple, Nat.mul_mod_right]
    rfl
  · rw [if_neg beyond, if_pos (Nat.le_add_right 64 m), Nat.add_sub_cancel_left, Cent.value]
    dsimp only
    rw [BitVec.toNat_shiftLeft, Nat.shiftLeft_eq,
      show (2 : Nat) ^ 128 = 2 ^ 64 * 2 ^ 64 by norm_num, Nat.mul_mod_mul_right]
    exact Nat.add_zero _

theorem value_shr_wide (c : Cent) {n : Nat} (large : 64 ≤ n) :
    (shr c n).value = c.value / 2 ^ n := by
  obtain ⟨m, rfl⟩ := Nat.exists_eq_add_of_le large
  have upper : c.value / 2 ^ 64 = c.hi.toNat := by
    have small := c.lo.isLt
    unfold Cent.value
    omega
  rw [Nat.pow_add, ← Nat.div_div_eq_div_mul, upper]
  unfold shr Ubits
  by_cases beyond : 64 * 2 ≤ 64 + m
  · have power : 2 ^ 64 ≤ 2 ^ m := Nat.pow_le_pow_right (by decide) (by omega)
    rw [if_pos beyond, Nat.div_eq_of_lt (Nat.lt_of_lt_of_le c.hi.isLt power)]
    rfl
  · rw [if_neg beyond, if_pos (Nat.le_add_right 64 m), Nat.add_sub_cancel_left, Cent.value]
    dsimp only
    rw [BitVec.toNat_ushiftRight, Nat.shiftRight_eq_div_pow]
    exact Nat.zero_add _

/-- A left shift multiplies by a power of two. -/
theorem value_shl_all (c : Cent) (n : Nat) : (shl c n).value = c.value * 2 ^ n % 2 ^ 128 := by
  by_cases small : n < 64
  · exact value_shl c small
  · exact value_shl_wide c (Nat.not_lt.mp small)

/-- A right shift divides by a power of two. -/
theorem value_shr_all (c : Cent) (n : Nat) : (shr c n).value = c.value / 2 ^ n := by
  by_cases small : n < 64
  · exact value_shr c small
  · exact value_shr_wide c (Nat.not_lt.mp small)

theorem bits_shl (c : Cent) (n : Nat) : (shl c n).bits = c.bits <<< n := by
  apply BitVec.eq_of_toNat_eq
  rw [toNat_bits, value_shl_all, BitVec.toNat_shiftLeft, toNat_bits, Nat.shiftLeft_eq]

theorem bits_shr (c : Cent) (n : Nat) : (shr c n).bits = c.bits >>> n := by
  apply BitVec.eq_of_toNat_eq
  rw [toNat_bits, value_shr_all, BitVec.toNat_ushiftRight, toNat_bits, Nat.shiftRight_eq_div_pow]

/-! ### The arithmetic shift -/

/-- `sar` -/
def sar (c : Cent) (n : Nat) : Cent :=
  let signmask := -(c.hi >>> (Ubits - 1))
  let signshift := Ubits * 2 - n
  let c := shr c n
  if Ubits * 2 ≤ n then { lo := signmask, hi := signmask }
  else if Ubits * 2 ≤ signshift then c
  else if Ubits ≤ signshift then
    { c with
      hi := (c.hi &&& ~~~(BitVec.allOnes 64 <<< (signshift - Ubits))) |||
        (signmask <<< (signshift - Ubits)) }
  else
    { lo := (c.lo &&& ~~~(BitVec.allOnes 64 <<< signshift)) ||| (signmask <<< signshift)
      hi := signmask }

/-- Each bit of the mask is the sign. -/
theorem getLsbD_signmask (hi : BitVec 64) {i : Nat} (small : i < 64) :
    (-(hi >>> (Ubits - 1))).getLsbD i = hi.msb := by
  have bound := hi.isLt
  have sign : hi >>> (Ubits - 1) = if hi.msb then 1#64 else 0#64 := by
    apply BitVec.eq_of_toNat_eq
    rw [BitVec.toNat_ushiftRight, Nat.shiftRight_eq_div_pow, BitVec.msb_eq_decide]
    show hi.toNat / 2 ^ 63 = _
    by_cases negative : 2 ^ 63 ≤ hi.toNat
    · rw [decide_eq_true negative, if_pos rfl]
      show _ = 1
      omega
    · rw [decide_eq_false negative, if_neg Bool.false_ne_true]
      show _ = 0
      omega
  rw [sign]
  cases hi.msb
  · rw [if_neg Bool.false_ne_true, BitVec.neg_zero, BitVec.getLsbD_zero]
  · rw [if_pos rfl, show -(1#64) = BitVec.allOnes 64 from rfl, BitVec.getLsbD_allOnes,
      decide_eq_true small]

/-- The bits of a word from a position on are replaced by those of a mask. -/
theorem getLsbD_filled (word mask : BitVec 64) (k : Nat) {i : Nat} (small : i < 64) :
    ((word &&& ~~~(BitVec.allOnes 64 <<< k)) ||| (mask <<< k)).getLsbD i =
      if i < k then word.getLsbD i else mask.getLsbD (i - k) := by
  rw [BitVec.getLsbD_or, BitVec.getLsbD_and, BitVec.getLsbD_not, BitVec.getLsbD_shiftLeft,
    BitVec.getLsbD_shiftLeft, BitVec.getLsbD_allOnes, decide_eq_true small]
  by_cases below : i < k
  · rw [if_pos below, decide_eq_true below]
    simp
  · rw [if_neg below, decide_eq_false below, decide_eq_true (by omega : i - k < 64)]
    simp

theorem msb_bits (c : Cent) : c.bits.msb = c.hi.msb := by
  rw [BitVec.msb_eq_getLsbD_last, BitVec.msb_eq_getLsbD_last, getLsbD_bits]
  rfl

/-- An arithmetic right shift fills the upper bits with the sign. -/
theorem bits_sar (c : Cent) (n : Nat) : (sar c n).bits = c.bits.sshiftRight n := by
  apply BitVec.eq_of_getLsbD_eq
  intro i small
  have shifted (j : Nat) : (shr c n).bits.getLsbD j = c.bits.getLsbD (n + j) := by
    rw [bits_shr, BitVec.getLsbD_ushiftRight]
  rw [BitVec.getLsbD_sshiftRight, decide_eq_false (Nat.not_le.mpr small), Bool.not_false,
    Bool.true_and, msb_bits, ← shifted, getLsbD_bits, getLsbD_bits]
  unfold sar
  extract_lets signmask signshift moved
  have sign (j : Nat) (inside : j < 64) : signmask.getLsbD j = c.hi.msb :=
    getLsbD_signmask c.hi inside
  by_cases all : Ubits * 2 ≤ n
  · rw [if_pos all, if_neg (show ¬ n + i < 128 by unfold Ubits at all; omega)]
    dsimp only
    split
    · exact sign i (by omega)
    · exact sign (i - 64) (by omega)
  rw [if_neg all]
  by_cases none : Ubits * 2 ≤ signshift
  · have zero : n = 0 := by
      unfold signshift at none
      unfold Ubits at all none
      omega
    rw [if_pos none, if_pos (show n + i < 128 by omega)]
  rw [if_neg none]
  unfold Ubits at all
  by_cases upper : Ubits ≤ signshift
  · have count : signshift - Ubits = 64 - n ∧ n ≤ 64 := by
      unfold signshift at upper ⊢
      unfold Ubits at upper ⊢
      omega
    rw [if_pos upper, count.1]
    dsimp only
    by_cases low : i < 64
    · rw [if_pos low, if_pos low, if_pos (show n + i < 128 by omega)]
    · rw [if_neg low, if_neg low, getLsbD_filled _ _ _ (by omega)]
      by_cases kept : i - 64 < 64 - n
      · rw [if_pos kept, if_pos (show n + i < 128 by omega)]
      · rw [if_neg kept, if_neg (show ¬ n + i < 128 by omega)]
        exact sign _ (by omega)
  · have count : signshift = 128 - n ∧ 64 < n := by
      unfold signshift at upper ⊢
      unfold Ubits at upper ⊢
      omega
    rw [if_neg upper, count.1]
    dsimp only
    by_cases low : i < 64
    · rw [if_pos low, if_pos low, getLsbD_filled _ _ _ low]
      by_cases kept : i < 128 - n
      · rw [if_pos kept, if_pos (show n + i < 128 by omega)]
      · rw [if_neg kept, if_neg (show ¬ n + i < 128 by omega)]
        exact sign _ (by omega)
    · rw [if_neg low, if_neg (show ¬ n + i < 128 by omega)]
      exact sign _ (by omega)

/-- An arithmetic right shift divides the signed number, rounding down. -/
theorem signed_sar (c : Cent) (n : Nat) : (sar c n).signed = c.signed / 2 ^ n := by
  rw [signed_eq_toInt, bits_sar, BitVec.toInt_sshiftRight, ← signed_eq_toInt,
    Int.shiftRight_eq_div_pow]
  push_cast
  rfl

/-! ### Rotations -/

/-- `or` -/
def or (c1 c2 : Cent) : Cent := { lo := c1.lo ||| c2.lo, hi := c1.hi ||| c2.hi }

/-- `rol` -/
def rol (c : Cent) (n : Nat) : Cent :=
  let n := n &&& (Ubits * 2 - 1)
  let l := shl c n
  let r := shr c (Ubits * 2 - n)
  or l r

/-- `ror` -/
def ror (c : Cent) (n : Nat) : Cent :=
  let n := n &&& (Ubits * 2 - 1)
  let r := shr c n
  let l := shl c (Ubits * 2 - n)
  or r l

theorem bits_or (c1 c2 : Cent) : (or c1 c2).bits = c1.bits ||| c2.bits := by
  apply BitVec.eq_of_getLsbD_eq
  intro i _
  rw [BitVec.getLsbD_or, getLsbD_bits, getLsbD_bits, getLsbD_bits]
  unfold or
  split
  · rw [BitVec.getLsbD_or]
  · rw [BitVec.getLsbD_or]

/-- The mask of a count takes it modulo the number of bits. -/
theorem count_mod (n : Nat) : n &&& (Ubits * 2 - 1) = n % 128 :=
  Nat.and_two_pow_sub_one_eq_mod n 7

theorem bits_rol (c : Cent) (n : Nat) : (rol c n).bits = c.bits.rotateLeft n := by
  unfold rol
  dsimp only
  rw [count_mod, bits_or, bits_shl, bits_shr]
  rfl

theorem bits_ror (c : Cent) (n : Nat) : (ror c n).bits = c.bits.rotateRight n := by
  unfold ror
  dsimp only
  rw [count_mod, bits_or, bits_shr, bits_shl]
  rfl

/-- A rotation back and forth. -/
theorem rotateLeft_rotateRight {w : Nat} (x : BitVec w) (n : Nat) :
    (x.rotateRight n).rotateLeft n = x := by
  apply BitVec.eq_of_getLsbD_eq
  intro i small
  have less : n % w < w := Nat.mod_lt _ (by omega)
  rw [BitVec.getLsbD_rotateLeft]
  by_cases low : i < n % w
  · rw [Bool.cond_eq_ite, if_pos (by simpa using low), BitVec.getLsbD_rotateRight,
      Bool.cond_eq_ite, if_neg (by simp), decide_eq_true (by omega), Bool.true_and]
    congr 1
    omega
  · rw [Bool.cond_eq_ite, if_neg (by simpa using low), decide_eq_true small, Bool.true_and,
      BitVec.getLsbD_rotateRight, Bool.cond_eq_ite, if_pos (by simp; omega)]
    congr 1
    omega

/-- Products, shifts and rotations are those of the number and of its bits. -/
theorem cent_operations (c1 c2 c : Cent) (n : Nat) :
    (mul c1 c2).value = c1.value * c2.value % 2 ^ 128 ∧
    (shl c n).value = c.value * 2 ^ n % 2 ^ 128 ∧
    (shr c n).value = c.value / 2 ^ n ∧
    (sar c n).signed = c.signed / 2 ^ n ∧
    (rol c n).bits = c.bits.rotateLeft n ∧
    (ror c n).bits = c.bits.rotateRight n ∧
    rol (ror c n) n = c := by
  refine ⟨value_mul c1 c2, value_shl_all c n, value_shr_all c n, signed_sar c n, bits_rol c n,
    bits_ror c n, ?_⟩
  apply bits_injective
  rw [bits_rol, bits_ror, rotateLeft_rotateRight]

end LaserD.Int128
