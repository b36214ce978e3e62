/-
This file models the expression trees of the back end and what they evaluate to.

A tree is a leaf, a constant, or an operator over one or two subtrees, and every node
carries its type. Values are kept in 64 bits, of which a node uses those its size has.
What an operator computes follows the instructions the code generator emits for it: the
operator, never the type, tells a logical from an arithmetic shift, and the bit number
of a test in memory is a signed number. Operators that the optimisations below do not
look at are opaque: their meaning is a parameter, a function of the types and values of
their operands.
-/

import Mathlib.Data.BitVec
import Mathlib.Tactic.SplitIfs

namespace LaserD.Trees

/-! ### Types -/

/-- `CHARSIZE`, `SHORTSIZE`, `LONGSIZE` and `LLONGSIZE`: the sizes of the integers. -/
inductive Size
  | char
  | short
  | long
  | llong
  deriving DecidableEq, Repr

/-- `tysize`: the bytes of an integer. -/
def Size.bytes : Size → Nat
  | .char => 1
  | .short => 2
  | .long => 4
  | .llong => 8

/-- The bits of an integer. -/
def Size.bits (size : Size) : Nat :=
  8 * size.bytes

/-- The size and the sign of an integral or pointer type. -/
structure Ty where
  size : Size
  isUnsigned : Bool
  deriving DecidableEq, Repr

/-- The unsigned type of the same size. -/
def touns (ty : Ty) : Ty :=
  ⟨ty.size, true⟩

/-- The types that the optimisations give to the trees they build. -/
def TYbool : Ty := ⟨.char, true⟩
@[inherit_doc TYbool] def TYushort : Ty := ⟨.short, true⟩
@[inherit_doc TYbool] def TYulong : Ty := ⟨.long, true⟩
@[inherit_doc TYbool] def TYullong : Ty := ⟨.llong, true⟩

/-! ### Trees -/

/-- The operators of one operand: complement, load, the conversions, and the rest. -/
inductive Unary
  | com
  | ind
  | s8_16
  | u8_16
  | s16_32
  | u16_32
  | s32_64
  | u32_64
  | of16_8
  | of32_16
  | of64_32
  | other (code : Nat)
  deriving DecidableEq, Repr

/-- The operators of two operands: `btst` tests a bit of a value, `bt` a bit in memory. -/
inductive Binary
  | and
  | or
  | xor
  | shl
  | shr
  | ashr
  | add
  | btst
  | bt
  | other (code : Nat)
  deriving DecidableEq, Repr

/-- `elem`: a tree. A constant holds all eight bytes of `Vullong`, whatever its type. -/
inductive Elem
  | leaf (Ety : Ty) (symbol : Nat)
  | const (Ety : Ty) (Vullong : BitVec 64)
  | una (Eoper : Unary) (Ety : Ty) (E1 : Elem)
  | bin (Eoper : Binary) (Ety : Ty) (E1 E2 : Elem)
  deriving DecidableEq, Repr

namespace Elem

/-- The type of the node at the root. -/
def ty : Elem → Ty
  | leaf Ety _ => Ety
  | const Ety _ => Ety
  | una _ Ety _ => Ety
  | bin _ Ety _ _ => Ety

/-- An assignment to `Ety`. -/
def setTy (Ety : Ty) : Elem → Elem
  | leaf _ symbol => leaf Ety symbol
  | const _ Vullong => const Ety Vullong
  | una Eoper _ E1 => una Eoper Ety E1
  | bin Eoper _ E1 E2 => bin Eoper Ety E1 E2

/-- The size of the node at the root. -/
def size (e : Elem) : Size :=
  e.ty.size

@[simp] theorem ty_setTy (Ety : Ty) (e : Elem) : (e.setTy Ety).ty = Ety := by
  cases e <;> rfl

@[simp] theorem size_setTy (Ety : Ty) (e : Elem) : (e.setTy Ety).size = Ety.size := by
  rw [size, ty_setTy]

end Elem

/-! ### Values -/

/-- The bytes of a value that a node of this size has. -/
def trunc (size : Size) (value : BitVec 64) : BitVec 64 :=
  (value.setWidth size.bits).setWidth 64

/-- The sign extension of a value of this size. -/
def sext (size : Size) (value : BitVec 64) : BitVec 64 :=
  (value.setWidth size.bits).signExtend 64

/-- What a bit test leaves in a register. -/
def ofBit (bit : Bool) : BitVec 64 :=
  if bit then 1 else 0

/-- What the trees are evaluated in: the values of the leaves, the bytes of memory, and
what the opaque operators compute from the types and values of their operands. -/
structure Environment where
  leaf : Nat → BitVec 64
  memory : BitVec 64 → BitVec 8
  unary : Nat → Ty → BitVec 64 → BitVec 64
  binary : Nat → Ty → Ty → BitVec 64 → BitVec 64 → BitVec 64

/-- The bit with this number, counted from an address of this size on. -/
def Environment.bitAt (env : Environment) (pointer : Size) (address : BitVec 64)
    (number : Int) : Bool :=
  (env.memory (trunc pointer (address + BitVec.ofInt 64 (number / 8)))).getLsbD
    (number % 8).toNat

/-- A load of so many bytes, the lowest first. -/
def Environment.load (env : Environment) (pointer : Size) (address : BitVec 64) :
    Nat → BitVec 64
  | 0 => 0
  | bytes + 1 =>
    env.load pointer address bytes |||
      (env.memory (trunc pointer (address + BitVec.ofNat 64 bytes))).setWidth 64 <<<
        (8 * bytes)

/-- The bit number that `cdbt` hands to the instruction: an immediate is an unsigned
offset of 32 bits, a register a signed offset of its size. -/
def bitNumber : Elem → BitVec 64 → Int
  | .const _ _, value => (value.setWidth 32).toNat
  | E2, value => (sext E2.size value).toInt

/-- What an operator of one operand computes before it is cut to its size. -/
def evalUnary (env : Environment) (size : Size) (operand : Ty) (value : BitVec 64) :
    Unary → BitVec 64
  | .com => ~~~value
  | .ind => env.load operand.size value size.bytes
  | .s8_16 => sext .char value
  | .s16_32 => sext .short value
  | .s32_64 => sext .long value
  | .u8_16 | .u16_32 | .u32_64 => value
  | .of16_8 | .of32_16 | .of64_32 => value
  | .other code => env.unary code operand value

/-- What an operator of two operands computes before it is cut to its size. -/
def evalBinary (env : Environment) (E1 E2 : Elem) (left right : BitVec 64) :
    Binary → BitVec 64
  | .and => left &&& right
  | .or => left ||| right
  | .xor => left ^^^ right
  | .shl => left <<< right.toNat
  | .shr => left >>> right.toNat
  | .ashr => (sext E1.size left).sshiftRight right.toNat
  | .add => left + right
  | .btst => ofBit (left.getLsbD right.toNat)
  | .bt => ofBit (env.bitAt E1.size left (bitNumber E2 right))
  | .other code => env.binary code E1.ty E2.ty left right

/-- The value of a tree. -/
def eval (env : Environment) : Elem → BitVec 64
  | .leaf Ety symbol => trunc Ety.size (env.leaf symbol)
  | .const Ety Vullong => trunc Ety.size Vullong
  | .una Eoper Ety E1 => trunc Ety.size (evalUnary env Ety.size E1.ty (eval env E1) Eoper)
  | .bin Eoper Ety E1 E2 =>
    trunc Ety.size (evalBinary env E1 E2 (eval env E1) (eval env E2) Eoper)

/-! ### Well formed trees -/

/-- The target: 32 or 64 bits, and with it the size of a register and of a pointer. -/
structure Target where
  is64 : Bool

/-- `REGSIZE`. -/
def Target.regsize (target : Target) : Size :=
  if target.is64 then .llong else .long

/-- The sizes an operator of one operand may have: a conversion starts from its own size
and ends in a larger or a smaller one, a load goes through a pointer. -/
def unaryFits (target : Target) (size operand : Size) : Unary → Prop
  | .com => operand = size
  | .ind => operand = target.regsize
  | .s8_16 | .u8_16 => operand = .char ∧ Size.char.bits < size.bits
  | .s16_32 | .u16_32 => operand = .short ∧ Size.short.bits < size.bits
  | .s32_64 | .u32_64 => operand = .long ∧ Size.long.bits < size.bits
  | .of16_8 => operand = .short ∧ size = .char
  | .of32_16 => operand = .long ∧ size = .short
  | .of64_32 => operand = .llong ∧ size = .long
  | .other _ => True

/-- The sizes an operator of two operands may have. The count of a shift, and the bit
number of a test, may have a size of its own. -/
def binaryFits (size left right : Size) : Binary → Prop
  | .and | .or | .xor | .add => left = size ∧ right = size
  | .shl | .shr | .ashr => left = size
  | .bt => right = .long ∨ right = .llong
  | .btst | .other _ => True

/-- The operators whose second operand is a count. -/
def Binary.isShift : Binary → Bool
  | .shl | .shr | .ashr | .btst => true
  | _ => false

/-- A tree whose sizes fit and whose shift counts stay inside the operand width. -/
def WellFormed (target : Target) (env : Environment) : Elem → Prop
  | .leaf _ _ => True
  | .const _ _ => True
  | .una Eoper Ety E1 => WellFormed target env E1 ∧ unaryFits target Ety.size E1.size Eoper
  | .bin Eoper Ety E1 E2 =>
    WellFormed target env E1 ∧ WellFormed target env E2 ∧
      binaryFits Ety.size E1.size E2.size Eoper ∧
      (Eoper.isShift = true → (eval env E2).toNat < E1.size.bits)

/-! ### Bits -/

theorem Size.bits_le (size : Size) : size.bits ≤ 64 := by
  cases size <;> decide

theorem Size.bits_pos (size : Size) : 0 < size.bits := by
  cases size <;> decide

@[simp] theorem getLsbD_trunc (size : Size) (value : BitVec 64) (i : Nat) :
    (trunc size value).getLsbD i = (decide (i < size.bits) && value.getLsbD i) := by
  have bound := size.bits_le
  rw [trunc, BitVec.getLsbD_setWidth, BitVec.getLsbD_setWidth]
  by_cases inside : i < size.bits
  · simp [inside, show i < 64 by omega]
  · simp [inside]

@[simp] theorem getLsbD_sext (size : Size) (value : BitVec 64) (i : Nat) :
    (sext size value).getLsbD i =
      (decide (i < 64) &&
        if i < size.bits then value.getLsbD i else value.getLsbD (size.bits - 1)) := by
  have positive := size.bits_pos
  have bound := size.bits_le
  rw [sext, BitVec.getLsbD_signExtend, BitVec.msb_eq_getLsbD_last,
    BitVec.getLsbD_setWidth, BitVec.getLsbD_setWidth]
  by_cases inside : i < size.bits
  · simp [inside]
  · simp [inside, show size.bits - 1 < size.bits by omega]

@[simp] theorem getLsbD_ofBit (bit : Bool) (i : Nat) :
    (ofBit bit).getLsbD i = (decide (i = 0) && bit) := by
  cases bit
  · simp [ofBit]
  · simp [ofBit]

theorem trunc_trunc (size : Size) (value : BitVec 64) :
    trunc size (trunc size value) = trunc size value := by
  apply BitVec.eq_of_getLsbD_eq
  intro i _
  simp

/-- A value has no bit above its size. -/
theorem trunc_eval (env : Environment) (e : Elem) : trunc e.size (eval env e) = eval env e := by
  cases e
  · exact trunc_trunc _ _
  · exact trunc_trunc _ _
  · exact trunc_trunc _ _
  · exact trunc_trunc _ _

theorem getLsbD_eval_of_le (env : Environment) (e : Elem) {i : Nat} (outside : e.size.bits ≤ i) :
    (eval env e).getLsbD i = false := by
  rw [← trunc_eval env e, getLsbD_trunc, decide_eq_false (Nat.not_lt.mpr outside), Bool.false_and]

/-- A bit of a value, said of the bits inside the size only. -/
theorem eval_eq_of_bits {env : Environment} {e : Elem} {value : BitVec 64}
    (above : ∀ i, e.size.bits ≤ i → value.getLsbD i = false)
    (same : ∀ i, i < e.size.bits → (eval env e).getLsbD i = value.getLsbD i) :
    eval env e = value := by
  apply BitVec.eq_of_getLsbD_eq
  intro i _
  by_cases inside : i < e.size.bits
  · exact same i inside
  · rw [getLsbD_eval_of_le env e (Nat.not_lt.mp inside), above i (Nat.not_lt.mp inside)]

/-- A type of the same size changes no value. -/
theorem eval_setTy (env : Environment) {e : Elem} {Ety : Ty} (same : Ety.size = e.size) :
    eval env (e.setTy Ety) = eval env e := by
  cases e
  all_goals
    have same' := same
    rw [Elem.size, Elem.ty] at same'
    rw [Elem.setTy, eval, eval, same']

/-- The bits of a load. -/
theorem getLsbD_load (env : Environment) (pointer : Size) (address : BitVec 64) :
    ∀ (bytes i : Nat), bytes ≤ 8 →
      (env.load pointer address bytes).getLsbD i =
        (decide (i < 8 * bytes) &&
          (env.memory (trunc pointer (address + BitVec.ofNat 64 (i / 8)))).getLsbD (i % 8)) := by
  intro bytes
  induction bytes with
  | zero =>
    intro i _
    simp [Environment.load]
  | succ bytes inductionHypothesis =>
    intro i small
    rw [Environment.load, BitVec.getLsbD_or, inductionHypothesis i (by omega),
      BitVec.getLsbD_shiftLeft, BitVec.getLsbD_setWidth]
    by_cases below : i < 8 * bytes
    · simp [below, show i < 8 * (bytes + 1) by omega]
    · by_cases inside : i < 8 * (bytes + 1)
      · have byte : i / 8 = bytes := by omega
        have bit : i - 8 * bytes = i % 8 := by omega
        simp [below, inside, byte, bit, show i < 64 by omega, show i % 8 < 64 by omega]
      · have beyond : 8 ≤ i - 8 * bytes := by omega
        simp [below, inside, BitVec.getLsbD_of_ge _ _ beyond]

end LaserD.Trees
