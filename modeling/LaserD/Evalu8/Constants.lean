/-
This file models the integer constants of the code generator.

A constant node keeps a union of sixteen bytes and a type. `el_tolong` reads the bytes of the type
and extends them to 64 bits, with the sign or with zeros. A folded result is stored through one of
the members of the union, which leaves the bytes above the member as they were; there the node had
the pointers to its operands.
-/

import Mathlib.Tactic.Common

namespace LaserD.Evalu8

/-- The integral basic types of one to eight bytes, for a target with an `int` of four bytes. -/
inductive TYM
  | bool | char | schar | uchar
  | short | ushort | wchar_t | char16
  | int | uint | long | ulong | dchar
  | llong | ullong
  deriving DecidableEq, Repr

/-- `tysize`, the bytes of a value of the type. -/
def TYM.size : TYM → Nat
  | .bool | .char | .schar | .uchar => 1
  | .short | .ushort | .wchar_t | .char16 => 2
  | .int | .uint | .long | .ulong | .dchar => 4
  | .llong | .ullong => 8

/-- The bits of a value of the type. -/
abbrev TYM.bits (tym : TYM) : Nat := 8 * tym.size

/-- `tyuns`: the types with the flag `TYFLuns`; the back end sets it for plain `char`. -/
def TYM.tyuns : TYM → Bool
  | .char | .uchar | .ushort | .wchar_t | .char16 | .uint | .ulong | .dchar | .ullong => true
  | .bool | .schar | .short | .int | .long | .llong => false

/-- Whether the constants of the type are extended with the sign. -/
def TYM.signed : TYM → Bool
  | .schar | .short | .int | .long | .llong => true
  | _ => false

/-- The union `EV` of a node. -/
abbrev EV := BitVec 128

/-- The low bytes of the union, a member of it. -/
def member (ev : EV) (bits : Nat) : BitVec bits := ev.setWidth bits

/-- `el_tolong`. -/
def elTolong (tym : TYM) (ev : EV) : BitVec 64 :=
  match tym with
  | .schar => (member ev 8).signExtend 64
  | .char | .uchar | .bool => (member ev 8).setWidth 64
  | .short => (member ev 16).signExtend 64
  | .ushort | .wchar_t | .char16 => (member ev 16).setWidth 64
  | .uint | .ulong | .dchar => (member ev 32).setWidth 64
  | .int | .long => (member ev 32).signExtend 64
  | .llong | .ullong => member ev 64

/-- A store through a member of the union: the bytes above it stay. -/
def store {bits : Nat} (ev : EV) (value : BitVec bits) : EV :=
  ((ev >>> bits) <<< bits) ||| value.setWidth 128

/-- The value of a constant in its type. -/
def valueOf (tym : TYM) (ev : EV) : BitVec tym.bits := member ev tym.bits

theorem TYM.bits_le (tym : TYM) : tym.bits ≤ 64 := by
  cases tym <;> decide

theorem TYM.eight_le_bits (tym : TYM) : 8 ≤ tym.bits := by
  cases tym <;> decide

theorem elTolong_signed {tym : TYM} (signed : tym.signed = true) (ev : EV) :
    elTolong tym ev = (valueOf tym ev).signExtend 64 := by
  cases tym with
  | llong => simp [elTolong, valueOf, member, TYM.bits, TYM.size]
  | schar | short | int | long => rfl
  | bool | char | uchar | ushort | wchar_t | char16 | uint | ulong | dchar | ullong =>
    exact absurd signed (by decide)

theorem elTolong_unsigned {tym : TYM} (unsigned : tym.signed = false) (ev : EV) :
    elTolong tym ev = (valueOf tym ev).setWidth 64 := by
  cases tym with
  | ullong => simp [elTolong, valueOf, member, TYM.bits, TYM.size]
  | bool | char | uchar | ushort | wchar_t | char16 | uint | ulong | dchar => rfl
  | schar | short | int | long | llong => exact absurd unsigned (by decide)

/-- The low bits of the extended constant are the constant. -/
theorem setWidth_elTolong (tym : TYM) (ev : EV) :
    (elTolong tym ev).setWidth tym.bits = valueOf tym ev := by
  cases signed : tym.signed
  · rw [elTolong_unsigned signed, BitVec.setWidth_setWidth_of_le _ tym.bits_le, BitVec.setWidth_eq]
  · rw [elTolong_signed signed]
    ext index inside
    rw [BitVec.getElem_setWidth, BitVec.getLsbD_signExtend]
    simp [inside, Nat.lt_of_lt_of_le inside tym.bits_le]

/-- Reading no more than was stored reads the stored value. -/
theorem member_store {stored read : Nat} (narrow : read ≤ stored) (fits : stored ≤ 128) (ev : EV)
    (value : BitVec stored) : member (store ev value) read = value.setWidth read := by
  ext index inside
  unfold member store
  rw [BitVec.getElem_setWidth, BitVec.getElem_setWidth, BitVec.getLsbD_or,
    BitVec.getLsbD_shiftLeft, BitVec.getLsbD_setWidth]
  have below : index < stored := Nat.lt_of_lt_of_le inside narrow
  simp [below, Nat.lt_of_lt_of_le below fits]

end LaserD.Evalu8
