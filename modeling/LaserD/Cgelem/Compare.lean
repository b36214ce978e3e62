/-
This file models `elcmp`, the rewriting of comparisons.

Each rule of the source is a definition that returns the tree it builds, or nothing where
the rule does not apply, and `elcmp` tries them in the order of the source. What is
modelled is one application: the tree that a rule returns, or that it hands to the
optimiser again. The target is an x86 of 32 or 64 bits.
-/

import LaserD.Cgelem.Pure

namespace LaserD.Cgelem

/-- The target and the optimiser's switch: `I32` or `I64`, and `OPTIMIZER`. -/
structure Config where
  is64 : Bool
  optimizer : Bool
  deriving DecidableEq, Repr

/-- `REGSIZE`. -/
def Config.regsize (config : Config) : Size := if config.is64 then .llong else .long

/-- `CHARMASK` and `SHORTMASK`. -/
def CHARMASK : BitVec 64 := 0xFF#64
@[inherit_doc CHARMASK] def SHORTMASK : BitVec 64 := 0xFFFF#64

/-- The lower four bytes of a constant: `Vulong`, `Vlong`, `Vuns` and `Vint`. -/
def Vuns (Vullong : BitVec 64) : BitVec 32 := Vullong.setWidth 32

/-- An assignment to `Vuns` or `Vint`, which leaves the upper four bytes as they are. -/
def setVuns (Vullong : BitVec 64) (value : BitVec 32) : BitVec 64 :=
  Vullong &&& 0xFFFFFFFF00000000#64 ||| value.setWidth 64

/-! ### `((e & 1) == 1) => (e & 1)` -/

/-- The switch over the size in the loop that brings the and to the size of the comparison. -/
def resizeStep (sz : Size) (e : Tree) : Option Tree :=
  match e.size with
  | .char => some (.una .u8_16 TYshort e)
  | .short => some (if 16 < sz.bits then .una .u16_32 TYlong e else .una .of16_8 TYuchar e)
  | .long => some (if 16 < sz.bits then .una .u32_64 TYshort e else .una .of32_16 TYshort e)
  | .llong => some (.una .of64_32 TYlong e)
  | .cent => none

/-- The loop, for so many rounds. -/
def resize (sz : Size) : Nat → Tree → Option Tree
  | 0, e => if e.size = sz then some e else none
  | rounds + 1, e => if e.size = sz then some e else (resizeStep sz e).bind (resize sz rounds)

/-- Whether the rule applies: both constants are one. -/
def isBitTest (op : Relation) (e1 e2 : Tree) : Bool :=
  match op, e1, e2 with
  | .eqeq, .bin (.arith .and) _ _ (.const ty12 c12), .const ty2 c2 =>
    elTolong ty2 c2 = 1 && elTolong ty12 c12 = 1
  | _, _, _ => false

/-! ### The rules for a constant -/

/-- `(u16_32 x) rel c` and `(s16_32 x) rel c` for a constant that fits, as a comparison of two
bytes. -/
def shortRule (op : Relation) (Ety : Ty) (e1 : Tree) (ty2 : Ty) (c : BitVec 64) : Option Tree :=
  match e1 with
  | .una conversion _ x =>
    if (conversion = .u16_32 ∧ (Vuns c).toNat ≤ SHORTMASK.toNat) ∨
        (conversion = .s16_32 ∧ Vuns c = ((Vuns c).setWidth 16).signExtend 32) then
      let tym : Ty :=
        { size := .short, isUnsigned := e1.uns || ty2.isUnsigned || conversion = .u16_32 }
      some (.bin (.rel op) Ety (x.setTy tym) (.una .of32_16 tym (.const ty2 c)))
    else none
  | _ => none

/-- The conversions that bring an operand of this size to one byte. -/
def toByte (sz : Size) (x : Tree) : Tree :=
  match sz with
  | .llong => .una .of16_8 TYuchar (.una .of32_16 TYushort (.una .of64_32 TYulong x))
  | .long => .una .of16_8 TYuchar (.una .of32_16 TYushort x)
  | _ => .una .of16_8 TYuchar x

/-- `((x & c) == d)` as a comparison of bytes, when the mask casts to a byte. -/
def maskRule (config : Config) (op : Relation) (Ety : Ty) (e1 : Tree) (ty2 : Ty)
    (d : BitVec 64) : Option Tree :=
  match e1 with
  | .bin (.arith .and) _ x (.const ty12 c) =>
    if config.optimizer = true ∧ ty2.size ≠ .char ∧ elTolong ty2 d &&& ~~~CHARMASK = 0 ∧
        elTolong ty12 c &&& ~~~CHARMASK = 0 then
      some (.bin (.rel op) Ety
        (.bin (.arith .and) TYuchar (toByte ty2.size x) (.const TYuchar c)) (.const TYuchar d))
    else none
  | _ => none

/-- `(ulong > uint.max)` as `(msw(ulong) != 0)`. -/
def mswRule (config : Config) (op : Relation) (Ety : Ty) (e1 : Tree) (ty2 : Ty) (c : BitVec 64) :
    Option Tree :=
  if config.optimizer = true ∧ config.is64 = false ∧ op = .gt ∧ ty2.size = .llong ∧
      c = 0xFFFFFFFF#64 then
    some (.bin (.rel .ne) Ety (.una .msw TYulong e1) (.const TYulong (setVuns c 0)))
  else none

/-- `(u8_16 x) rel c` and `(s8_16 x) rel c` for a constant that fits, as a comparison of
bytes. -/
def byteRule (op : Relation) (Ety : Ty) (e1 : Tree) (ty2 : Ty) (c : BitVec 64) : Option Tree :=
  match e1 with
  | .una conversion _ x =>
    if (conversion = .u8_16 ∧ (Vuns c).toNat < 256) ∨
        (conversion = .s8_16 ∧ Vuns c = ((Vuns c).setWidth 8).signExtend 32) then
      let tym : Ty :=
        { size := .char, isUnsigned := e1.uns || ty2.isUnsigned || conversion = .u8_16 }
      some (.bin (.rel op) Ety (x.setTy tym) (.una .of16_8 tym (.const ty2 c)))
    else none
  | _ => none

/-- Comparisons with zero. -/
def zeroRule (config : Config) (op : Relation) (Ety : Ty) (e1 : Tree) (ty2 : Ty) (c : BitVec 64) :
    Tree :=
  let uns := e1.uns || ty2.isUnsigned
  let unchanged : Tree := .bin (.rel op) Ety e1 (.const ty2 c)
  let constant (i : BitVec 32) : Tree := .bin .comma Ety e1 (.const TYint (setVuns c i))
  let signedRule : Tree :=
    if ty2.size.bits = 2 * config.regsize.bits then
      let ty := if ty2.size = .llong then TYint else TYlong
      .bin (.rel op) Ety (.una .msw ty e1) (.const ty c)
    else unchanged
  match op with
  | .le => if uns then .una .not Ety e1 else unchanged
  | .eqeq => .una .not Ety e1
  | .gt => if uns then .una .bool Ety e1 else unchanged
  | .ne => .una .bool Ety e1
  | .ge => if uns then constant 1 else signedRule
  | .lt => if uns then constant 0 else signedRule

/-- `<` and `>=` switched. -/
def switchRelation : Relation → Relation
  | .lt => .ge
  | .ge => .lt
  | op => op

/-- `(u < 0x8000)` as `(s >= 0)`. -/
def halfRule (config : Config) (op : Relation) (Ety : Ty) (e1 : Tree) (ty2 : Ty) (c : BitVec 64) :
    Option Tree :=
  if config.optimizer = true ∧ (e1.uns || ty2.isUnsigned) = true ∧ ty2.size = .short ∧
      (Vuns c).setWidth 16 = 0x8000#16 ∧ (op = .lt ∨ op = .ge) then
    some (.bin (.rel (switchRelation op)) Ety (e1.setTy TYshort) (.const TYshort (setVuns c 0)))
  else none

/-- `((x = c1) rel c2)` as `((x = c1),(c1 rel c2))`. -/
def assignRule (config : Config) (op : Relation) (Ety : Ty) (e1 : Tree) (ty2 : Ty)
    (c : BitVec 64) : Option Tree :=
  match e1 with
  | .bin .eq ty1 _ (.const _ c1) =>
    if config.optimizer = true then
      some (.bin .comma Ety e1 (.bin (.rel op) Ety (.const ty1 c1) (.const ty2 c)))
    else none
  | _ => none

/-- The rules for a constant, in their order. -/
def constantRules (config : Config) (op : Relation) (Ety : Ty) (e1 : Tree) (ty2 : Ty)
    (c : BitVec 64) : Tree :=
  (shortRule op Ety e1 ty2 c <|> maskRule config op Ety e1 ty2 c <|>
    mswRule config op Ety e1 ty2 c <|> byteRule op Ety e1 ty2 c <|>
    (if elTolong ty2 c = 0 then some (zeroRule config op Ety e1 ty2 c) else none) <|>
    halfRule config op Ety e1 ty2 c <|> assignRule config op Ety e1 ty2 c).getD
      (.bin (.rel op) Ety e1 (.const ty2 c))

/-! ### Two conversions -/

/-- The conversions that the rule for two conversions removes. -/
def isNarrow : Unary → Bool
  | .u8_16 => true
  | .s8_16 => true
  | .u16_32 => true
  | .s16_32 => true
  | _ => false

/-- A comparison of two operands that are converted alike. -/
def conversionsRule (op : Relation) (Ety : Ty) (e1 e2 : Tree) : Option Tree :=
  match e1, e2 with
  | .una conversion₁ _ x₁, .una conversion₂ _ x₂ =>
    if isNarrow conversion₁ = true ∧ conversion₁ = conversion₂ then
      if e1.uns || e2.uns then
        some (.bin (.rel op) Ety (x₁.setTy (touns x₁.ty)) (x₂.setTy (touns x₂.ty)))
      else some (.bin (.rel op) Ety x₁ x₂)
    else none
  | _, _ => none

/-! ### The function -/

/-- `elcmp`, where the loop of its first rule may take so many rounds. -/
def elcmp (config : Config) (rounds : Nat) (op : Relation) (Ety : Ty) (e1 e2 : Tree) :
    Option Tree :=
  if config.optimizer = true ∧ isBitTest op e1 e2 = true then
    (resize Ety.size rounds e1).map (Tree.setTy Ety)
  else
    match e2 with
    | .const ty2 c => some (constantRules config op Ety e1 ty2 c)
    | e2 => some ((conversionsRule op Ety e1 e2).getD (.bin (.rel op) Ety e1 e2))

end LaserD.Cgelem
