/-
This file models `eldiv`, the rewriting of divisions and remainders.

As in the source, an unsigned division by a constant makes the type of the constant
unsigned before any rule is tried, and the rules after it see it so. What is modelled is
one application: the tree that a rule returns, or that it hands to the optimiser again.
-/

import LaserD.Cgelem.Compare

namespace LaserD.Cgelem

/-- `Goal`: what the tree is evaluated for. With `flags` only whether it is zero counts. -/
inductive Goal
  | none
  | value
  | flags
  deriving DecidableEq, Repr

/-- The operators that reach `eldiv`. -/
def Binary.isDivision : Binary → Bool
  | .arith .div => true
  | .arith .mod => true
  | .arithass .div => true
  | .arithass .mod => true
  | _ => false

/-- `ispow2`: the rounds of its loop for a power of two. -/
def ispow2 (c : BitVec 64) : Option Nat :=
  if c = 0 ∨ c &&& (c - 1) ≠ 0 then none else some (Nat.log2 c.toNat)

/-- An unsigned division or remainder by `2 ^ i`. -/
def powerRule (Eoper : Binary) (Ety : Ty) (e1 : Tree) (ty2 : Ty) (c : BitVec 64) (i : Nat) : Tree :=
  let shift : Tree := .const TYint (setVuns c (BitVec.ofNat 32 i))
  let mask : Tree := .const ty2 (elTolong ty2 c - 1)
  match Eoper with
  | .arith .div => .bin (.arith .shr) Ety (e1.setTy (touns e1.ty)) shift
  | .arithass .div => .bin (.arithass .shr) Ety (e1.setTy (touns e1.ty)) shift
  | .arith .mod => .bin (.arith .and) Ety e1 mask
  | .arithass .mod => .bin (.arithass .and) Ety e1 mask
  | Eoper => .bin Eoper Ety e1 (.const ty2 c)

/-- `SQRT_INT_MAX` and `SQRT_UINT_MAX`. -/
def SQRT_INT_MAX : BitVec 64 := 0xB504#64
@[inherit_doc SQRT_INT_MAX] def SQRT_UINT_MAX : BitVec 64 := 0x10000#64

/-- The substitute for a check that the product of two constants does not overflow; the
constants are compared as signed numbers. -/
def withinRoot (uns : Bool) (c1 c2 : BitVec 64) : Bool :=
  if uns then c1.slt SQRT_UINT_MAX && c2.slt SQRT_UINT_MAX
  else (-SQRT_INT_MAX).slt c1 && c1.slt SQRT_INT_MAX && (-SQRT_INT_MAX).slt c2 &&
    c2.slt SQRT_INT_MAX

/-- `(e / c1) / c2` as `e / (c1 * c2)`, where the inner quotient has the type `ty1`. -/
def merge (Ety ty1 : Ty) (e : Tree) (ty12 : Ty) (c1 : BitVec 64) (ty2 : Ty) (c2 : BitVec 64) :
    Option Tree :=
  let uns1 := e.uns || ty12.isUnsigned
  let uns2 := ty1.isUnsigned || ty2.isUnsigned
  if uns1 = uns2 ∧ withinRoot uns1 (elTolong ty12 c1) (elTolong ty2 c2) = true then
    some (.bin (.arith .div) Ety e (.bin (.arith .mul) ty1 (.const ty12 c1) (.const ty2 c2)))
  else none

/-- The rule for two divisions, and its form for the quotient of a division with remainder. -/
def divideRule (Eoper : Binary) (Ety : Ty) (e1 e2 : Tree) : Option Tree :=
  match Eoper, e1, e2 with
  | .arith .div, .bin (.arith .div) ty1 e (.const ty12 c1), .const ty2 c2 =>
    merge Ety ty1 e ty12 c1 ty2 c2
  | .arith .div, .una .of64_32 ty1 (.bin .remquo _ e (.const ty12 c1)), .const ty2 c2 =>
    merge Ety ty1 e ty12 c1 ty2 c2
  | _, _, _ => none

/-- `if (e1 / e2)` as `if (e1 >= e2)`. -/
def flagsRule (goal : Goal) (Eoper : Binary) (e1 e2 : Tree) : Option Tree :=
  if goal = .flags ∧ (e1.uns || e2.uns) = true ∧ Eoper = .arith .div then
    some (.bin (.rel .ge) TYbool e1 e2)
  else none

/-- Whether the code generator has a sequence of its own for the constant. -/
def specialDivisor (uns : Bool) : Tree → Bool
  | .const ty2 c => !uns && (ispow2 (elTolong ty2 c)).isSome
  | _ => false

/-- A quotient or remainder as a part of both. -/
def remquoRule (config : Config) (Eoper : Binary) (e1 e2 : Tree) : Option Tree :=
  if e1.size = config.regsize ∧ specialDivisor (e1.uns || e2.uns) e2 = false then
    let wide := if config.is64 then TYcent else TYllong
    match Eoper with
    | .arith .div =>
      some (.una (if config.is64 then .of128_64 else .of64_32) e1.ty (.bin .remquo wide e1 e2))
    | .arith .mod => some (.una .msw e1.ty (.bin .remquo wide e1 e2))
    | _ => none
  else none

/-- The rules of the optimiser, in their order. -/
def optimizerRules (config : Config) (goal : Goal) (Eoper : Binary) (Ety : Ty) (e1 e2 : Tree) :
    Tree :=
  if config.optimizer then
    (divideRule Eoper Ety e1 e2 <|> flagsRule goal Eoper e1 e2 <|>
      remquoRule config Eoper e1 e2).getD (.bin Eoper Ety e1 e2)
  else .bin Eoper Ety e1 e2

/-- `eldiv` -/
def eldiv (config : Config) (goal : Goal) (Eoper : Binary) (Ety : Ty) (e1 e2 : Tree) : Tree :=
  match e2 with
  | .const ty2 c =>
    if e1.uns || ty2.isUnsigned then
      match ispow2 (elTolong (touns ty2) c) with
      | some i => powerRule Eoper Ety e1 (touns ty2) c i
      | none => optimizerRules config goal Eoper Ety e1 (.const (touns ty2) c)
    else optimizerRules config goal Eoper Ety e1 (.const ty2 c)
  | e2 => optimizerRules config goal Eoper Ety e1 e2

end LaserD.Cgelem
