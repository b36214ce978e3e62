/-
This file models `elbitwise`, the optimisation of a bitwise and, or and exclusive or.

Each rule of the source is a definition that returns the tree it builds, or nothing
where the rule does not apply, and `elbitwise` tries them in the order of the source.
The optimiser is on and the target is an x86 of 32 or 64 bits, where an `int` has four
bytes. What is modelled is one application: the tree that a rule returns, or that it
hands to the optimiser again.
-/

import LaserD.Trees.Elem

namespace LaserD.Trees

/-- `Goal`: whether the value of the tree is used, or only whether it is zero. A tree
without side effects that has neither use is dropped before it comes here. -/
inductive Goal
  | value
  | flags
  deriving DecidableEq, Repr

/-- `el_tolong`: a constant, extended by the sign of its type. -/
def elTolong (Ety : Ty) (Vullong : BitVec 64) : BitVec 64 :=
  if Ety.isUnsigned then trunc Ety.size Vullong else sext Ety.size Vullong

/-- `el_match`: two trees are the same up to the bytes of a constant that its type does
not have. -/
def elMatch : Elem → Elem → Bool
  | .leaf ty₁ symbol₁, .leaf ty₂ symbol₂ => ty₁ = ty₂ && symbol₁ = symbol₂
  | .const ty₁ value₁, .const ty₂ value₂ =>
    ty₁ = ty₂ && trunc ty₁.size value₁ = trunc ty₁.size value₂
  | .una oper₁ ty₁ e₁, .una oper₂ ty₂ e₂ => oper₁ = oper₂ && ty₁ = ty₂ && elMatch e₁ e₂
  | .bin oper₁ ty₁ l₁ r₁, .bin oper₂ ty₂ l₂ r₂ =>
    oper₁ = oper₂ && ty₁ = ty₂ && elMatch r₁ r₂ && elMatch l₁ l₂
  | _, _ => false

/-- `CHARMASK`, `SHORTMASK`, `LONGMASK` and `LLONGMASK` are in the constant. -/
def isFullMask (size : Size) (Vullong : BitVec 64) : Bool :=
  match size with
  | .char => Vullong.setWidth 8 = 0xFF#8
  | .short => Vullong.setWidth 16 = 0xFFFF#16
  | .long => Vullong.setWidth 32 = 0xFFFFFFFF#32
  | .llong => Vullong = 0xFFFFFFFFFFFFFFFF#64

/-! ### The rules for a constant operand -/

/-- The label `L1`: the mask is full. -/
def fullMask (Eoper : Binary) (Ety : Ty) (e1 e2 : Elem) : Elem :=
  match Eoper with
  | .and => e1.setTy Ety
  | .or => e2.setTy Ety
  | _ => .una .com Ety (e1.setTy Ety)

/-- The first test of every case of the switch over the size. -/
def maskRule (Eoper : Binary) (Ety : Ty) (e1 : Elem) (ty2 : Ty) (c : BitVec 64) : Option Elem :=
  if isFullMask ty2.size c then some (fullMask Eoper Ety e1 (.const ty2 c)) else none

/-- `(x >> 16) & 0xFFFF => (cast(uint)x >> 16)` in four bytes, and the same with eight
bits in two. -/
def shiftRule (Eoper : Binary) (Ety : Ty) (e1 : Elem) (ty2 : Ty) (c : BitVec 64) : Option Elem :=
  match ty2.size, e1 with
  | .long, .bin op ty1 e11 (.const tyk k) =>
    if c.setWidth 32 = 0xFFFF#32 ∧ Eoper = .and ∧ (op = .shr ∨ op = .ashr) ∧
        elTolong tyk k = 16 then
      some (fullMask Eoper Ety (.bin op ty1 (e11.setTy (touns e11.ty)) (.const tyk k))
        (.const ty2 c))
    else none
  | .short, .bin op ty1 e11 (.const tyk k) =>
    if c.setWidth 16 = 0xFF#16 ∧ Eoper = .and ∧ (op = .shr ∨ op = .ashr) ∧
        k.setWidth 32 = 8#32 then
      some (fullMask Eoper Ety (.bin op ty1 (e11.setTy (touns e11.ty)) (.const tyk k))
        (.const ty2 c))
    else none
  | _, _ => none

/-- `((s8sht)L & 0xFF)` is `(u8sht)L`, in four and in two bytes. -/
def byteRule (Eoper : Binary) (Ety : Ty) (e1 : Elem) (ty2 : Ty) (c : BitVec 64) : Option Elem :=
  match ty2.size, e1 with
  | .long, .una op _ e11 =>
    if c.setWidth 32 = 0xFF#32 ∧ Eoper = .and ∧ (op = .s8_16 ∨ op = .u8_16) then
      some (.una .u8_16 Ety e11)
    else none
  | .short, .una op _ e11 =>
    if c.setWidth 16 = 0xFF#16 ∧ Eoper = .and ∧ op = .s8_16 then some (.una .u8_16 Ety e11)
    else none
  | _, _ => none

/-- `((u8int) e) & i` is `(u8int)(e & (int8) i)` in two bytes, and the same for a signed
byte where the constant is sign extended. -/
def narrowRule (Eoper : Binary) (Ety : Ty) (e1 : Elem) (ty2 : Ty) (c : BitVec 64) : Option Elem :=
  match ty2.size, e1 with
  | .short, .una op _ e11 =>
    if (op = .u8_16 ∧ (Eoper = .and ∨ c.setWidth 16 &&& 0xFF00#16 = 0)) ∨
        (op = .s8_16 ∧ (c.setWidth 8).signExtend 16 = c.setWidth 16) then
      some (.una op Ety (.bin Eoper e11.ty e11 (.una .of16_8 e11.ty (.const ty2 c))))
    else none
  | _, _ => none

/-- `((x & c1) | c2) => (x | c2)`: the constant of the and becomes a full mask, which
the nested call removes. -/
def absorbRule (elbitwise : Elem → Elem) (Eoper : Binary) (Ety : Ty) (e1 : Elem) (ty2 : Ty)
    (c : BitVec 64) : Option Elem :=
  match e1 with
  | .bin .and ty1 x (.const tyk k) =>
    if Eoper = .or ∧ isFullMask ty2.size (elTolong ty2 c ||| k) = true then
      some (.bin Eoper Ety
        (elbitwise (.bin .and ty1 x (.const tyk (elTolong ty2 c ||| k)))) (.const ty2 c))
    else none
  | _ => none

/-- The constant has no bit that the conversion could change. -/
def belowSign (op : Unary) (ul : BitVec 64) : Bool :=
  match op with
  | .s16_32 => ul &&& 0xFFFFFFFFFFFF8000#64 = 0
  | .u16_32 => ul &&& 0xFFFFFFFFFFFF0000#64 = 0
  | .s8_16 => ul &&& 0xFFFFFFFFFFFFFF80#64 = 0
  | .u8_16 => ul &&& 0xFFFFFFFFFFFFFF00#64 = 0
  | .s32_64 => ul &&& 0xFFFFFFFF80000000#64 = 0
  | .u32_64 => ul &&& 0xFFFFFFFF00000000#64 = 0
  | _ => false

/-- The unsigned conversion that takes the place of a signed one under an and. -/
def unsignedConversion (op : Unary) (ul : BitVec 64) : Unary :=
  match op with
  | .s16_32 => if ul &&& 0x8000#64 = 0 then .u16_32 else .s16_32
  | .s8_16 => if ul &&& 0x80#64 = 0 then .u8_16 else .s8_16
  | .s32_64 => if ul &&& 0x80000000#64 = 0 then .u32_64 else .s32_64
  | _ => op

/-- `((shtlng)s & c) => ((shtlng)(s & c)`. -/
def extendRule (Eoper : Binary) (Ety : Ty) (e1 : Elem) (ty2 : Ty) (c : BitVec 64) : Option Elem :=
  match e1 with
  | .una op _ e11 =>
    if belowSign op (elTolong ty2 c) then
      some (.una (if Eoper = .and then unsignedConversion op (elTolong ty2 c) else op) Ety
        (.bin Eoper e11.ty e11 (.const e11.ty c)))
    else none
  | _ => none

/-- `(((a & b) ^ c) & d)` is replaced with `((a ^ c) & e)`, where `e` is `(b & d)`. -/
def xorRule (Eoper : Binary) (Ety : Ty) (e1 : Elem) (ty2 : Ty) (d : BitVec 64) : Option Elem :=
  match e1 with
  | .bin .xor ty1 (.bin .and ty11 a (.const _ b)) c =>
    if Eoper = .and then
      some (.bin Eoper Ety (.bin .xor ty1 (a.setTy ty11) c) (.const ty2 (d &&& b)))
    else none
  | _ => none

/-- `((a >> b) & 1)` is replaced with `(a btst b)`. -/
def testRule (target : Target) (Eoper : Binary) (Ety : Ty) (e1 : Elem) (ty2 : Ty)
    (c : BitVec 64) : Option Elem :=
  match e1 with
  | .bin op ty1 a b =>
    if Eoper = .and ∧ elTolong ty2 c = 1 ∧ (op = .shr ∨ op = .ashr) ∧
        ty2.size.bytes ≤ target.regsize.bytes ∧ 2 ≤ ty1.size.bytes then
      some (.bin .btst Ety a b)
    else none
  | _ => none

/-- The rules for a constant operand, in their order. -/
def constantRules (target : Target) (elbitwise : Elem → Elem) (Eoper : Binary) (Ety : Ty)
    (e1 : Elem) : Elem → Option Elem
  | .const ty2 c =>
    maskRule Eoper Ety e1 ty2 c <|> shiftRule Eoper Ety e1 ty2 c <|>
      byteRule Eoper Ety e1 ty2 c <|> narrowRule Eoper Ety e1 ty2 c <|>
      absorbRule elbitwise Eoper Ety e1 ty2 c <|> extendRule Eoper Ety e1 ty2 c <|>
      xorRule Eoper Ety e1 ty2 c <|> testRule target Eoper Ety e1 ty2 c
  | _ => none

/-! ### The rules for a condition -/

/-- `ELCONST`. -/
def elConst (e : Elem) (c : BitVec 64) : Bool :=
  match e with
  | .const Ety Vullong => elTolong Ety Vullong = c
  | _ => false

/-- `ispow2` of the two sizes a condition may have. -/
def ispow2 : Size → Nat
  | .char => 0
  | .short => 1
  | .long => 2
  | .llong => 3

/-- The operand, which may be preceded by this conversion. -/
def behind (conversion : Unary) : Elem → Elem
  | .una op Ety E1 => if op = conversion then E1 else .una op Ety E1
  | e => e

/-- The bit number of the mask `1 << (b & 31)`. -/
def maskBit (size : Size) : Elem → Option Elem
  | .bin .shl _ one count =>
    if elConst one 1 then
      match behind .of64_32 count with
      | .bin .and ty12 b low =>
        if elConst low (BitVec.ofNat 64 (size.bits - 1)) ∧ ty12.size.bytes ≤ size.bytes then
          some b
        else none
      | _ => none
    else none
  | _ => none

/-- The pointer and the bit number of the load `*(((b >>> 5) << 2) + p)`. -/
def loadBit (size : Size) : Elem → Option (Elem × Elem)
  | .una .ind _ (.bin .add _ (.bin .shl _ index scale) p) =>
    if elConst scale (BitVec.ofNat 64 (ispow2 size)) then
      match behind .u32_64 index with
      | .bin .shr _ b shift =>
        if elConst shift (BitVec.ofNat 64 (ispow2 size + 3)) then some (p, b) else none
      | _ => none
    else none
  | _ => none

/-- `((1 << (b & 31)) & *(((b >>> 5) << 2) + p)` is replaced with `p bt b`. -/
def memoryRule (Ety : Ty) (size : Size) (e1 e2 : Elem) : Option Elem :=
  match maskBit size e1, loadBit size e2 with
  | some b₁, some (p, b₂) => if elMatch b₁ b₂ then some (.bin .bt Ety p b₁) else none
  | _, _ => none

/-- The conversions that bring the result of a test to the size of the condition. -/
def widenBool (size : Size) (e : Elem) : Elem :=
  match size with
  | .char => e
  | .short => .una .u8_16 TYushort e
  | .long => .una .u16_32 TYulong (.una .u8_16 TYushort e)
  | .llong => .una .u32_64 TYullong (.una .u16_32 TYulong (.una .u8_16 TYushort e))

/-- `(1 << a) & b` is replaced with `b btst a`. -/
def conditionRule (target : Target) (size1 : Size) (e1 e2 : Elem) : Option Elem :=
  match e1 with
  | .bin .shl _ one a =>
    if elConst one 1 ∧ size1.bytes ≤ target.regsize.bytes then
      some (widenBool size1 (.bin .btst TYbool e2 a))
    else none
  | _ => none

/-- `e1` and `e2` are swapped where `e1` is a load, so that `e1` is the mask. -/
def swapLoad : Elem → Elem → Elem × Elem
  | .una .ind ty e11, e2 => (e2, .una .ind ty e11)
  | e1, e2 => (e1, e2)

/-- The rules for a condition, in their order. -/
def conditionRules (target : Target) (goal : Goal) (Eoper : Binary) (Ety : Ty) (e1 e2 : Elem) :
    Option Elem :=
  if goal = .flags ∧ Eoper = .and ∧ (e2.size = .long ∨ e2.size = .llong) then
    memoryRule Ety e2.size (swapLoad e1 e2).1 (swapLoad e1 e2).2 <|>
      conditionRule target e1.size (swapLoad e1 e2).1 (swapLoad e1 e2).2
  else none

/-! ### The function -/

/-- The body of `elbitwise`, over what the nested call returns. -/
def elbitwiseBody (target : Target) (elbitwise : Elem → Elem) (goal : Goal) : Elem → Elem
  | .bin Eoper Ety e1 e2 =>
    ((constantRules target elbitwise Eoper Ety e1 e2) <|>
      (conditionRules target goal Eoper Ety e1 e2)).getD (.bin Eoper Ety e1 e2)
  | e => e

/-- `elbitwise`. The nested call is for an and inside an or, and an and calls no further:
two levels of the body are all there is. -/
def elbitwise (target : Target) (goal : Goal) (e : Elem) : Elem :=
  elbitwiseBody target (elbitwiseBody target id .value) goal e

end LaserD.Trees
