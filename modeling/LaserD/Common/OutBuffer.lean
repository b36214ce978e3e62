/-
This file models how `common/outbuffer.d` writes LEB128 numbers, and proves that what is written is
the shortest byte sequence that stands for the number.

Each round writes seven bits and shifts them out. The loop over a number with a sign ends when what
is left is the sign that the last bit written already tells. Five rounds are enough for 32 bits.
-/

import LaserD.Lib.Leb128
import Mathlib.Data.BitVec
import Mathlib.Tactic.SplitIfs

namespace LaserD.Common

open Leb128

/-- `writeByte` -/
def writeByte (b : Byte) (data : List Byte) : List Byte := data ++ [b]

/-- The loop of `writesLEB128`. -/
def writesLEB128Loop : Nat → BitVec 32 → List Byte → Option (List Byte)
  | 0, _, _ => none
  | rounds + 1, value, data =>
    let b : Byte := (value &&& 0x7F).setWidth 8
    let value := value.sshiftRight 7
    if (value = 0 ∧ b &&& 0x40 = 0) ∨ (value = -1 ∧ b &&& 0x40 ≠ 0) then some (writeByte b data)
    else writesLEB128Loop rounds value (writeByte (b ||| 0x80) data)

/-- `writesLEB128`: the data with the bytes of a number appended. -/
def writesLEB128 (value : BitVec 32) (data : List Byte) : Option (List Byte) :=
  writesLEB128Loop 5 value data

/-- The loop of `writeuLEB128`. -/
def writeuLEB128Loop : Nat → BitVec 32 → List Byte → Option (List Byte)
  | 0, _, _ => none
  | rounds + 1, value, data =>
    let b : Byte := (value &&& 0x7F).setWidth 8
    let value := value >>> 7
    let b := if value ≠ 0 then b ||| 0x80 else b
    if value ≠ 0 then writeuLEB128Loop rounds value (writeByte b data)
    else some (writeByte b data)

/-- `writeuLEB128`: the data with the bytes of a number appended. -/
def writeuLEB128 (value : BitVec 32) (data : List Byte) : Option (List Byte) :=
  writeuLEB128Loop 5 value data

/-! ### Groups -/

/-- The lowest seven bits of a number. -/
def lowBits (value : BitVec 32) : Byte := (value &&& 0x7F).setWidth 8

theorem toNat_lowBits (value : BitVec 32) : (lowBits value).toNat = value.toNat % 128 := by
  rw [lowBits, BitVec.toNat_setWidth, BitVec.toNat_and]
  show (value.toNat &&& 2 ^ 7 - 1) % 2 ^ 8 = _
  rw [Nat.and_two_pow_sub_one_eq_mod]
  omega

theorem lowBits_lt (value : BitVec 32) : (lowBits value).toNat < 128 := by
  rw [toNat_lowBits]
  exact Nat.mod_lt _ (by decide)

/-- A byte as the last one of a number and as one before others, and its sign. -/
theorem byte_of_group : ∀ b : Byte, b.toNat < 128 →
    (group b = b.toNat ∧ continues b = false) ∧
      (group (b ||| 0x80) = b.toNat ∧ continues (b ||| 0x80) = true) ∧
      (b &&& 0x40 = 0 ↔ b.toNat < 64) := by
  decide +kernel

/-- The last byte of a number. -/
theorem shortest_last {read : Nat → Int} (value : BitVec 32) {z : Int}
    (tells : read (value.toNat % 128) = z) : Shortest read z [lowBits value] := by
  obtain ⟨same, ends⟩ := (byte_of_group _ (lowBits_lt value)).1
  have word : Shortest read _ _ := Shortest.last _ ends
  rw [same, toNat_lowBits, tells] at word
  exact word

/-- A byte that is not the last of a number. -/
theorem shortest_next {read : Nat → Int} (value : BitVec 32) {z left : Int} {bytes : List Byte}
    (whole : ((value.toNat % 128 : Nat) : Int) + 128 * left = z)
    (needed : ∀ group < 128, read group ≠ z) (rest : Shortest read left bytes) :
    Shortest read z ((lowBits value ||| 0x80) :: bytes) := by
  obtain ⟨same, more⟩ := (byte_of_group _ (lowBits_lt value)).2.1
  rw [← toNat_lowBits, ← same] at whole
  rw [← whole] at needed ⊢
  exact Shortest.next _ more left bytes needed rest

/-! ### Numbers without a sign -/

theorem toNat_shift (value : BitVec 32) : (value >>> 7).toNat = value.toNat / 128 := by
  rw [BitVec.toNat_ushiftRight, Nat.shiftRight_eq_div_pow]

theorem writeuLEB128Loop_last (rounds : Nat) {value : BitVec 32} (none : value >>> 7 = 0)
    (data : List Byte) :
    writeuLEB128Loop (rounds + 1) value data = some (data ++ [lowBits value]) := by
  rw [writeuLEB128Loop]
  rw [if_neg (not_not.mpr none), if_neg (not_not.mpr none)]
  rfl

theorem writeuLEB128Loop_next (rounds : Nat) {value : BitVec 32} (left : value >>> 7 ≠ 0)
    (data : List Byte) :
    writeuLEB128Loop (rounds + 1) value data =
      writeuLEB128Loop rounds (value >>> 7) (data ++ [lowBits value ||| 0x80]) := by
  rw [writeuLEB128Loop]
  rw [if_pos left, if_pos left]
  rfl

theorem writeuLEB128Loop_shortest (rounds : Nat) (value : BitVec 32) (data : List Byte)
    (enough : value.toNat < 128 ^ (rounds + 1)) :
    ∃ bytes, writeuLEB128Loop (rounds + 1) value data = some (data ++ bytes) ∧
      Shortest unsigned value.toNat bytes := by
  induction rounds generalizing value data with
  | zero =>
    have none : value >>> 7 = 0 := by
      apply BitVec.eq_of_toNat_eq
      rw [toNat_shift]
      show value.toNat / 128 = 0
      omega
    refine ⟨_, writeuLEB128Loop_last 0 none data, shortest_last value ?_⟩
    unfold unsigned
    omega
  | succ rounds inductionHypothesis =>
    by_cases none : value >>> 7 = 0
    · refine ⟨_, writeuLEB128Loop_last _ none data, shortest_last value ?_⟩
      have small := toNat_shift value
      rw [none] at small
      have zero : (0 : BitVec 32).toNat = 0 := rfl
      unfold unsigned
      omega
    · have less : (value >>> 7).toNat < 128 ^ (rounds + 1) := by
        rw [toNat_shift, Nat.div_lt_iff_lt_mul (by decide), ← Nat.pow_succ]
        exact enough
      obtain ⟨bytes, written, shortest⟩ := inductionHypothesis (value >>> 7)
        (data ++ [lowBits value ||| 0x80]) less
      have positive : value.toNat / 128 ≠ 0 := by
        rw [← toNat_shift]
        exact fun zero => none (BitVec.eq_of_toNat_eq zero)
      refine ⟨(lowBits value ||| 0x80) :: bytes, ?_, shortest_next value ?_ ?_ shortest⟩
      · rw [writeuLEB128Loop_next _ none, written, List.append_assoc]
        rfl
      · rw [toNat_shift]
        omega
      · intro group small
        unfold unsigned
        omega

/-! ### Numbers with a sign -/

theorem toInt_sshift (value : BitVec 32) : (value.sshiftRight 7).toInt = value.toInt / 128 := by
  rw [BitVec.toInt_sshiftRight, Int.shiftRight_eq_div_pow]
  rfl

theorem toNat_mod (value : BitVec 32) : ((value.toNat % 128 : Nat) : Int) = value.toInt % 128 := by
  have bound := value.isLt
  rw [BitVec.toInt_eq_toNat_cond]
  split <;> omega

/-- The loop ends where a last group can stand for the number. -/
theorem ends_iff (value : BitVec 32) :
    ((value.sshiftRight 7 = 0 ∧ lowBits value &&& 0x40 = 0) ∨
      (value.sshiftRight 7 = -1 ∧ lowBits value &&& 0x40 ≠ 0)) ↔
      -64 ≤ value.toInt ∧ value.toInt < 64 := by
  have shifted := toInt_sshift value
  have low := toNat_mod value
  rw [Ne, (byte_of_group _ (lowBits_lt value)).2.2, toNat_lowBits, ← BitVec.toInt_inj, ← BitVec.toInt_inj,
    shifted, show (0 : BitVec 32).toInt = 0 from rfl, show (-1 : BitVec 32).toInt = -1 from rfl]
  omega

theorem writesLEB128Loop_last (rounds : Nat) {value : BitVec 32}
    (ends : -64 ≤ value.toInt ∧ value.toInt < 64) (data : List Byte) :
    writesLEB128Loop (rounds + 1) value data = some (data ++ [lowBits value]) := by
  rw [writesLEB128Loop]
  exact if_pos ((ends_iff value).mpr ends)

theorem writesLEB128Loop_next (rounds : Nat) {value : BitVec 32}
    (more : ¬ (-64 ≤ value.toInt ∧ value.toInt < 64)) (data : List Byte) :
    writesLEB128Loop (rounds + 1) value data =
      writesLEB128Loop rounds (value.sshiftRight 7) (data ++ [lowBits value ||| 0x80]) := by
  rw [writesLEB128Loop]
  exact if_neg (mt (ends_iff value).mp more)

theorem signed_last {value : BitVec 32} (ends : -64 ≤ value.toInt ∧ value.toInt < 64) :
    signed (value.toNat % 128) = value.toInt := by
  have low := toNat_mod value
  unfold signed
  split <;> omega

theorem writesLEB128Loop_shortest (rounds : Nat) (value : BitVec 32) (data : List Byte)
    (lower : -64 * 128 ^ rounds ≤ value.toInt) (upper : value.toInt < 64 * 128 ^ rounds) :
    ∃ bytes, writesLEB128Loop (rounds + 1) value data = some (data ++ bytes) ∧
      Shortest signed value.toInt bytes := by
  induction rounds generalizing value data with
  | zero =>
    rw [pow_zero, mul_one] at lower upper
    exact ⟨_, writesLEB128Loop_last 0 ⟨lower, upper⟩ data,
      shortest_last value (signed_last ⟨lower, upper⟩)⟩
  | succ rounds inductionHypothesis =>
    by_cases ends : -64 ≤ value.toInt ∧ value.toInt < 64
    · exact ⟨_, writesLEB128Loop_last _ ends data, shortest_last value (signed_last ends)⟩
    · rw [pow_succ] at lower upper
      generalize (128 : Int) ^ rounds = power at lower upper inductionHypothesis
      obtain ⟨bytes, written, shortest⟩ := inductionHypothesis (value.sshiftRight 7)
        (data ++ [lowBits value ||| 0x80]) (by rw [toInt_sshift]; omega)
        (by rw [toInt_sshift]; omega)
      refine ⟨(lowBits value ||| 0x80) :: bytes, ?_, shortest_next value ?_ ?_ shortest⟩
      · rw [writesLEB128Loop_next _ ends, written, List.append_assoc]
        rfl
      · rw [toInt_sshift, toNat_mod]
        omega
      · intro group small
        unfold signed
        split <;> omega

/-! ### What is written -/

/-- What is appended for a number without a sign is the shortest word that stands for it. -/
theorem writeuLEB128_shortest (value : BitVec 32) (data : List Byte) :
    ∃ bytes, writeuLEB128 value data = some (data ++ bytes) ∧
      Shortest unsigned value.toNat bytes :=
  writeuLEB128Loop_shortest 4 value data (Nat.lt_of_lt_of_le value.isLt (by decide))

/-- What is appended for a number with a sign is the shortest word that stands for it. -/
theorem writesLEB128_shortest (value : BitVec 32) (data : List Byte) :
    ∃ bytes, writesLEB128 value data = some (data ++ bytes) ∧
      Shortest signed value.toInt bytes := by
  have lower := BitVec.le_toInt value
  have upper := BitVec.toInt_lt (x := value)
  exact writesLEB128Loop_shortest 4 value data (by omega) (by omega)

/-- Both writers append to the data a code that is read back alone and in front of other bytes,
that no other code begins with, and that is the shortest of its number. -/
theorem leb128_codes :
    Codes signed BitVec.toInt writesLEB128 ∧
      Codes unsigned (fun value => (value.toNat : Int)) writeuLEB128 := by
  refine ⟨codes_of_shortest (fun _ _ => BitVec.toInt_inj.mp) writesLEB128_shortest,
    codes_of_shortest (fun value value' same => ?_) writeuLEB128_shortest⟩
  exact BitVec.eq_of_toNat_eq (Int.ofNat.inj same)

end LaserD.Common
