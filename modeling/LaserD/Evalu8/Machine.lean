/-
This file says what the machine computes for the operators that `evalu8` folds.

The operands are words of the width of their type and the result is a word of the width of the
node, given here as a natural number. The sign of the type decides about division and order; the
right shifts are logical or arithmetic by their operator alone.
-/

import LaserD.Evalu8.Fold

namespace LaserD.Evalu8

namespace OPER

/-- The comparisons, whose node is an `int` or a `bool`. -/
def isRelation : OPER → Bool
  | le | nle | lt | nlt | gt | ngt | ge | nge | eqeq | ne => true
  | _ => false

/-- The operators that divide. -/
def isDivision : OPER → Bool
  | div | mod | remquo => true
  | _ => false

/-- The shifts. -/
def isShift : OPER → Bool
  | shl | shr | ashr => true
  | _ => false

/-- The operand sizes and the bits of the node that the operator is used with. -/
def TypedAs (op : OPER) (tym : TYM) (bits : Nat) : Prop :=
  match op with
  | remquo => 2 ≤ tym.size ∧ bits = 2 * tym.bits
  | bswap => 2 ≤ tym.size ∧ bits = tym.bits
  | popcnt => bits ≤ 64
  | s8_16 | u8_16 => tym.size = 1 ∧ bits = 16
  | x16_8 => tym.size = 2 ∧ bits = 8
  | s16_32 | u16_32 => tym.size = 2 ∧ bits = 32
  | x32_16 => tym.size = 4 ∧ bits = 16
  | x64_32 => tym.size = 8 ∧ bits = 32
  | s32_64 | u32_64 => tym.size = 4 ∧ bits = 64
  | s64_128 | u64_128 => tym.size = 8 ∧ bits = 128
  | le | nle | lt | nlt | gt | ngt | ge | nge | eqeq | ne => 8 ≤ bits ∧ bits ≤ 32
  | _ => bits = tym.bits

end OPER

section Word

variable {w : Nat}

/-- The quotient of the least number by minus one does not fit. -/
def Overflows (signed : Bool) (a b : BitVec w) : Prop :=
  signed = true ∧ a = BitVec.intMin w ∧ b = -1

/-- The operands for which the operator has a result: no division by zero or with overflow, and
shift counts below the width. -/
def Defined (op : OPER) (signed : Bool) (a b : BitVec w) : Prop :=
  (op.isDivision = true → b ≠ 0 ∧ ¬Overflows signed a b) ∧ (op.isShift = true → b.toNat < w)

/-- The quotient in the signedness of the type. -/
def quotient (signed : Bool) (a b : BitVec w) : BitVec w := if signed then a.sdiv b else a / b

/-- The remainder in the signedness of the type. -/
def remainder (signed : Bool) (a b : BitVec w) : BitVec w := if signed then a.srem b else a % b

/-- Below or equal in the signedness of the type. -/
def lessEqual (signed : Bool) (a b : BitVec w) : Bool := if signed then a.sle b else a.ule b

/-- Below in the signedness of the type. -/
def less (signed : Bool) (a b : BitVec w) : Bool := if signed then a.slt b else a.ult b

/-- The result of the machine. -/
def machine (op : OPER) (signed : Bool) (a b : BitVec w) : Nat :=
  match op with
  | .add => (a + b).toNat
  | .min => (a - b).toNat
  | .mul => (a * b).toNat
  | .div => (quotient signed a b).toNat
  | .mod => (remainder signed a b).toNat
  | .remquo => (remainder signed a b ++ quotient signed a b).toNat
  | .and_ => (a &&& b).toNat
  | .or_ => (a ||| b).toNat
  | .xor_ => (a ^^^ b).toNat
  | .com => (~~~a).toNat
  | .neg => (-a).toNat
  | .shl => (a <<< b.toNat).toNat
  | .shr => (a >>> b.toNat).toNat
  | .ashr => (a.sshiftRight b.toNat).toNat
  | .rol => (a.rotateLeft (b.toNat % w)).toNat
  | .ror => (a.rotateRight (b.toNat % w)).toNat
  | .le | .ngt => (lessEqual signed a b).toNat
  | .gt | .nle => (!lessEqual signed a b).toNat
  | .lt | .nge => (less signed a b).toNat
  | .ge | .nlt => (!less signed a b).toNat
  | .eqeq => (a == b).toNat
  | .ne => (a != b).toNat
  | .s8_16 => (a.signExtend 16).toNat
  | .s16_32 => (a.signExtend 32).toNat
  | .s32_64 => (a.signExtend 64).toNat
  | .s64_128 => (a.signExtend 128).toNat
  | .u8_16 | .u16_32 | .u32_64 | .u64_128 => a.toNat
  | .x16_8 | .x32_16 | .x64_32 => a.toNat
  | .bswap => reverseBytes (w / 8) a.toNat
  | .popcnt => (List.range w).countP a.getLsbD

end Word

/-- The fold of an operator meets its purpose: no host operation traps and no assertion fails, the
constant is what the machine computes, a zero divisor is reported, and a division that overflows is
reported just where the operator for quotient and remainder reports it. -/
structure FoldsExactly (op : OPER) (tym : TYM) (e1 e2 ev : EV) (bits : Nat) : Prop where
  noTrap : evalu8 op tym e1 e2 ev ≠ .trapped ∧ evalu8 op tym e1 e2 ev ≠ .asserted
  exact : Defined op tym.signed (valueOf tym e1) (valueOf tym e2) →
    ∃ folded, evalu8 op tym e1 e2 ev = .folded folded ∧ member folded bits =
      .ofNat bits (machine op tym.signed (valueOf tym e1) (valueOf tym e2))
  zero : op.isDivision = true → valueOf tym e2 = 0 →
    evalu8 op tym e1 e2 ev = .reported "divide by zero"
  overflow : op.isDivision = true → 2 ≤ tym.size →
    Overflows tym.signed (valueOf tym e1) (valueOf tym e2) →
    ((∃ message, evalu8 op tym e1 e2 ev = .reported message) ↔
      ∃ message, evalu8 .remquo tym e1 e2 ev = .reported message)

/-- The condition under which the fold is exact. -/
def Foldable (op : OPER) (tym : TYM) (a b : BitVec tym.bits) : Prop :=
  match op with
  | .div | .mod => ¬(tym.size = 8 ∧ Overflows tym.signed a b)
  | .shr => ¬(tym.signed = true ∧ tym.size < 8 ∧ a.msb = true ∧ 0 < b.toNat ∧ b.toNat < tym.bits)
  | .ashr => ¬(tym.signed = false ∧ tym.size < 8 ∧ a.msb = true ∧ 0 < b.toNat ∧
      b.toNat < tym.bits)
  | .ngt | .nge => False
  | _ => True

end LaserD.Evalu8
