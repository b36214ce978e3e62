/-
This file models how `evalu8` folds an operator on integer constants.

The operands are extended to 64 bits by their type, the host computes with 64 bits, or with 32 where
the source goes through `targ_int`, and the result is stored through a member of the union. The
shift of a host takes its count modulo the width of the shifted word, and the division of a host
traps on a zero divisor and, with a sign, on the least number divided by minus one.
-/

import LaserD.Constfold.Folding
import LaserD.Evalu8.Constants

namespace LaserD.Evalu8

/-- The operators that are folded on integers. -/
inductive OPER
  | add | min | mul | div | mod | remquo | and_ | or_ | xor_ | com | neg
  | shl | shr | ashr | rol | ror
  | le | nle | lt | nlt | gt | ngt | ge | nge | eqeq | ne
  | s8_16 | u8_16 | x16_8 | s16_32 | u16_32 | x32_16 | x64_32 | s32_64 | u32_64 | s64_128 | u64_128
  | bswap | popcnt
  deriving DecidableEq, Repr

/-- `OTbinary`. -/
def OPER.binary : OPER → Bool
  | .com | .neg | .s8_16 | .u8_16 | .x16_8 | .s16_32 | .u16_32 | .x32_16 | .x64_32 | .s32_64
  | .u32_64 | .s64_128 | .u64_128 | .bswap | .popcnt => false
  | _ => true

/-- What becomes of a node: a constant, an error with its text, a host trap or a failed assertion. -/
inductive Outcome
  | folded (ev : EV)
  | reported (message : String)
  | trapped
  | asserted
  deriving DecidableEq

/-! ### Host operations -/

section Host

variable {w : Nat}

/-- `<<` of the host. -/
def hostShl (word : BitVec w) (count : Nat) : BitVec w := word <<< (count % w)

/-- `>>` of the host on an unsigned word. -/
def hostShr (word : BitVec w) (count : Nat) : BitVec w := word >>> (count % w)

/-- `>>` of the host on a signed word. -/
def hostSar (word : BitVec w) (count : Nat) : BitVec w := word.sshiftRight (count % w)

end Host

/-- The bytes of a number in reverse order. -/
def reverseBytes : Nat → Nat → Nat
  | 0, _ => 0
  | bytes + 1, number => number % 256 * 256 ^ bytes + reverseBytes bytes (number / 256)

/-- `core.bitop.bswap` on a word of some bytes. -/
def hostBswap (bytes : Nat) (word : BitVec (8 * bytes)) : BitVec (8 * bytes) :=
  .ofNat (8 * bytes) (reverseBytes bytes word.toNat)

/-- `core.bitop.popcnt`: the number of one bits. -/
def hostPopcnt {w : Nat} (word : BitVec w) : Nat :=
  (List.range w).countP word.getLsbD

/-- A truth value as a word. -/
def truth {w : Nat} (holds : Bool) : BitVec w := if holds then 1 else 0

/-! ### Groups of operators -/

/-- `OPdiv` and `OPmod` with their two host operations. -/
def foldDivide (unsignedOp signedOp : BitVec 64 → BitVec 64 → Option (BitVec 64)) (uns : Bool)
    (l1 l2 : BitVec 64) (ev : EV) : Outcome :=
  if l2 = 0 then
    .reported "divide by zero"
  else
    match if uns then unsignedOp l1 l2 else signedOp l1 l2 with
    | some word => .folded (store ev word)
    | none => .trapped

/-- `OPremquo`: the remainder above the quotient. -/
def foldRemquo (size : Nat) (uns : Bool) (l1 l2 : BitVec 64) (ev : EV) : Outcome :=
  if l2 = 0 then
    .reported "divide by zero"
  else if uns = false ∧ l1 = 0x8000000000000000 ∧ l2 = -1 then
    .reported "integer overflow"
  else
    let rem := if uns then Constfold.unsignedRemainder l1 l2 else Constfold.signedRemainder l1 l2
    let quo := if uns then Constfold.unsignedDivide l1 l2 else Constfold.signedDivide l1 l2
    match rem, quo with
    | some rem, some quo =>
      match size with
      | 2 => .folded (store ev (hostShl rem 16 ||| (quo &&& 0xFFFF)))
      | 4 => .folded (store ev (hostShl rem 32 ||| (quo &&& 0xFFFFFFFF)))
      | 8 => .folded (rem ++ quo)
      | _ => .asserted
    | _, _ => .trapped

/-- A count above 64 is taken for 64. -/
def clampCount (i2 : BitVec 32) : Nat :=
  let wide : BitVec 64 := i2.signExtend 64
  if wide.toNat > 64 then 64 else wide.toNat

/-- `OPshl`. -/
def foldShl (l1 : BitVec 64) (i2 : BitVec 32) (ev : EV) : Outcome :=
  let wide : BitVec 64 := i2.signExtend 64
  if wide.toNat < 64 then .folded (store ev (hostShl l1 wide.toNat))
  else .folded (store ev (0 : BitVec 64))

/-- `OProl` and `OPror`. -/
def foldRotate (op : OPER) (size : Nat) (l1 : BitVec 64) (i1 i2 : BitVec 32) (ev : EV) : Outcome :=
  let n := if op = .ror then -i2 else i2
  match size with
  | 1 =>
    let n := (n &&& 7).toNat
    .folded (store ev ((hostShl i1 n ||| hostSar (i1 &&& 0xFF) (8 - n)).setWidth 8))
  | 2 =>
    let n := (n &&& 0xF).toNat
    .folded (store ev ((hostShl i1 n ||| hostSar (i1 &&& 0xFFFF) (16 - n)).setWidth 16))
  | 4 =>
    let n := (n &&& 0x1F).toNat
    .folded (store ev (hostShl i1 n ||| hostShr (i1 &&& 0xFFFFFFFF) (32 - n)))
  | 8 =>
    let n := (n &&& 0x3F).toNat
    .folded (store ev (hostShl l1 n ||| hostShr (l1 &&& 0xFFFFFFFFFFFFFFFF) (64 - n)))
  | _ => .asserted

/-- `OPle` and the operators that are evaluated as its negation. -/
def foldLe (op : OPER) (uns : Bool) (l1 l2 : BitVec 64) (ev : EV) : Outcome :=
  let b := if uns then l1.ule l2 else l1.sle l2
  .folded (store ev (truth (xor (op ≠ .le) b) : BitVec 32))

/-- `OPlt` and the operators that are evaluated as its negation. -/
def foldLt (op : OPER) (uns : Bool) (l1 l2 : BitVec 64) (ev : EV) : Outcome :=
  let b := if uns then l1.ult l2 else l1.slt l2
  .folded (store ev (truth (xor (op ≠ .lt) b) : BitVec 32))

/-- `OPbswap`. -/
def foldBswap (size : Nat) (l1 : BitVec 64) (i1 : BitVec 32) (e1 ev : EV) : Outcome :=
  match size with
  | 2 =>
    .folded (store ev ((hostSar i1 8 &&& 0x00FF) ||| (hostShl i1 8 &&& 0xFF00)))
  | 4 => .folded (store ev (hostBswap 4 i1))
  | 8 => .folded (store ev (hostBswap 8 l1))
  | _ => .folded (hostBswap 8 (e1.setWidth 64) ++ hostBswap 8 ((e1 >>> 64).setWidth 64))

/-- `OPpopcnt`. -/
def foldPopcnt (size : Nat) (l1 : BitVec 64) (ev : EV) : Outcome :=
  let count (l1 : BitVec 64) := Outcome.folded (store ev (BitVec.ofNat 64 (hostPopcnt l1)))
  match size with
  | 1 => count (l1 &&& 0xFF)
  | 2 => count (l1 &&& 0xFFFF)
  | 4 => count (l1 &&& 0xFFFFFFFF)
  | 8 => count l1
  | _ => .asserted

/-- The conversions between widths. -/
def foldConvert (op : OPER) (l1 : BitVec 64) (i1 : BitVec 32) (e1 ev : EV) : Outcome :=
  match op with
  | .s8_16 => .folded (store ev ((i1.setWidth 8).signExtend 32))
  | .u8_16 => .folded (store ev (i1 &&& 0xFF))
  | .x16_8 => .folded (store ev i1)
  | .s16_32 => .folded (store ev ((i1.setWidth 16).signExtend 32))
  | .u16_32 => .folded (store ev ((i1.setWidth 16).setWidth 32))
  | .x32_16 => .folded (store ev (l1.setWidth 32))
  | .x64_32 => .folded (store ev (l1.setWidth 32))
  | .s32_64 => .folded (store ev ((l1.setWidth 32).signExtend 64))
  | .u32_64 => .folded (store ev ((l1.setWidth 32).setWidth 64))
  | .s64_128 =>
    let lo : BitVec 64 := member e1 64
    let hi : BitVec 64 := if lo.slt 0 then ~~~0 else 0
    .folded (hi ++ lo)
  | .u64_128 => .folded ((0 : BitVec 64) ++ member e1 64)
  | _ => .asserted

/-! ### The fold -/

/-- `evalu8` on constants of one integral type; `ev` is the union of the node before. -/
def evalu8 (op : OPER) (tym : TYM) (e1 e2 ev : EV) : Outcome :=
  let l1 := elTolong tym e1
  let l2 := if op.binary then elTolong tym e2 else 0
  let i1 : BitVec 32 := l1.setWidth 32
  let i2 : BitVec 32 := l2.setWidth 32
  let uns := tym.tyuns
  match op with
  | .add => .folded (store ev (l1 + l2))
  | .min => .folded (store ev (l1 - l2))
  | .mul => .folded (store ev (l1 * l2))
  | .div => foldDivide Constfold.unsignedDivide Constfold.signedDivide uns l1 l2 ev
  | .mod => foldDivide Constfold.unsignedRemainder Constfold.signedRemainder uns l1 l2 ev
  | .remquo => foldRemquo tym.size uns l1 l2 ev
  | .and_ => .folded (store ev (l1 &&& l2))
  | .or_ => .folded (store ev (l1 ||| l2))
  | .xor_ => .folded (store ev (l1 ^^^ l2))
  | .com => .folded (store ev (~~~l1))
  | .neg => .folded (store e1 (-l1))
  | .shl => foldShl l1 i2 ev
  | .shr => .folded (store ev (hostShr l1 (clampCount i2)))
  | .ashr => .folded (store ev (hostSar l1 (clampCount i2)))
  | .rol | .ror => foldRotate op tym.size l1 i1 i2 ev
  | .le | .nle | .gt | .ngt => foldLe op uns l1 l2 ev
  | .lt | .nlt | .ge | .nge => foldLt op uns l1 l2 ev
  | .eqeq | .ne => .folded (store ev (truth (xor (op = .ne) (l1 == l2)) : BitVec 32))
  | .bswap => foldBswap tym.size l1 i1 e1 ev
  | .popcnt => foldPopcnt tym.size l1 ev
  | .s8_16 | .u8_16 | .x16_8 | .s16_32 | .u16_32 | .x32_16 | .x64_32 | .s32_64 | .u32_64
  | .s64_128 | .u64_128 => foldConvert op l1 i1 e1 ev

end LaserD.Evalu8
