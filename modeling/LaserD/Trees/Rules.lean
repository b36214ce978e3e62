/-
This file proves the identities behind the rules of `elbitwise`, bit by bit.

A bit of a bitwise operator is decided by the same bit of its operands, a bit of an
extension is a bit of its operand or the sign, and a bit of a shift is another bit of its
operand. A full mask, a constant that an extension leaves alone and a merged mask are then
facts about one bit. Three rules are no identities, and what they do is stated as it is:
the mask of an arithmetic shift is dropped although the bits above it repeat the sign, the
exclusive or under a mask loses the bits of its other operand that the inner mask does not
have, and a bit in memory is tested with a signed number where the load counted it
unsigned.
-/

import LaserD.Trees.Elbitwise

namespace LaserD.Trees

/-- The operators that `elbitwise` is called for. -/
def Binary.isBitwise : Binary → Bool
  | .and | .or | .xor => true
  | _ => false

/-! ### Bits of constants -/

/-- The bits of a constant whose low bytes are all ones. -/
theorem getLsbD_of_low_ones {c : BitVec 64} {n : Nat} (ones : c.setWidth n = BitVec.allOnes n)
    {i : Nat} (inside : i < n) : c.getLsbD i = true := by
  have bit := congrArg (fun v => v.getLsbD i) ones
  rw [BitVec.getLsbD_setWidth, BitVec.getLsbD_allOnes, decide_eq_true inside,
    Bool.true_and] at bit
  exact bit

theorem getLsbD_of_isFullMask {size : Size} {c : BitVec 64} (full : isFullMask size c = true)
    {i : Nat} (inside : i < size.bits) : c.getLsbD i = true := by
  cases size
  · exact @getLsbD_of_low_ones c 8 (of_decide_eq_true full) i inside
  · exact @getLsbD_of_low_ones c 16 (of_decide_eq_true full) i inside
  · exact @getLsbD_of_low_ones c 32 (of_decide_eq_true full) i inside
  · refine @getLsbD_of_low_ones c 64 ?_ i inside
    rw [BitVec.setWidth_eq]
    exact of_decide_eq_true full

/-- The bits of a constant whose low bytes are half of ones. -/
theorem getLsbD_of_half_ones {c : BitVec 64} {n half : Nat}
    (ones : c.setWidth n = (BitVec.allOnes half).setWidth n) {i : Nat} (inside : i < n) :
    c.getLsbD i = decide (i < half) := by
  have bit := congrArg (fun v => v.getLsbD i) ones
  rw [BitVec.getLsbD_setWidth, BitVec.getLsbD_setWidth, BitVec.getLsbD_allOnes,
    decide_eq_true inside, Bool.true_and, Bool.true_and] at bit
  exact bit

theorem getLsbD_elTolong (Ety : Ty) (c : BitVec 64) {i : Nat} (inside : i < Ety.size.bits) :
    (elTolong Ety c).getLsbD i = c.getLsbD i := by
  have bound := Ety.size.bits_le
  unfold elTolong
  split_ifs
  · rw [getLsbD_trunc, decide_eq_true inside, Bool.true_and]
  · rw [getLsbD_sext, if_pos inside, decide_eq_true (by omega), Bool.true_and]

theorem trunc_elTolong (Ety : Ty) (c : BitVec 64) :
    trunc Ety.size (elTolong Ety c) = trunc Ety.size c := by
  apply BitVec.eq_of_getLsbD_eq
  intro i _
  rw [getLsbD_trunc, getLsbD_trunc]
  by_cases inside : i < Ety.size.bits
  · rw [getLsbD_elTolong Ety c inside]
  · rw [decide_eq_false inside, Bool.false_and, Bool.false_and]

theorem toNat_trunc (size : Size) (v : BitVec 64) :
    (trunc size v).toNat = v.toNat % 2 ^ size.bits := by
  have bound := Nat.pow_le_pow_right (Nat.zero_lt_two) size.bits_le
  have small := Nat.mod_lt v.toNat (Nat.two_pow_pos size.bits)
  rw [trunc, BitVec.toNat_setWidth, BitVec.toNat_setWidth, Nat.mod_eq_of_lt (by omega)]

/-- A constant that fits a byte evaluates to itself. -/
theorem toNat_eval_const {env : Environment} {Ety : Ty} {c : BitVec 64} {n : Nat}
    (value : elTolong Ety c = BitVec.ofNat 64 n) (small : n < 2 ^ 8) :
    (eval env (.const Ety c)).toNat = n := by
  have fits : 2 ^ 8 ≤ 2 ^ Ety.size.bits := by
    refine Nat.pow_le_pow_right Nat.zero_lt_two ?_
    cases Ety.size <;> decide
  rw [eval, ← trunc_elTolong, value, toNat_trunc, BitVec.toNat_ofNat]
  have bound : (2 : Nat) ^ 8 < 2 ^ 64 := by decide
  rw [Nat.mod_eq_of_lt (by omega), Nat.mod_eq_of_lt (by omega)]

/-- A value that has no bit of a run of ones ending at the top is small. -/
theorem getLsbD_of_high_zero {c : BitVec 64} {k i : Nat}
    (zero : c &&& BitVec.allOnes 64 <<< k = 0#64) (high : k ≤ i) : c.getLsbD i = false := by
  by_cases inside : i < 64
  · have bit := congrArg (fun v => v.getLsbD i) zero
    rw [BitVec.getLsbD_and, BitVec.getLsbD_shiftLeft, BitVec.getLsbD_allOnes,
      decide_eq_true inside, decide_eq_false (Nat.not_lt.mpr high),
      decide_eq_true (show i - k < 64 by omega), BitVec.getLsbD_zero] at bit
    simpa using bit
  · exact BitVec.getLsbD_of_ge c i (Nat.not_lt.mp inside)

/-! ### The identities -/

/-- Two trees of one size with the same bits have the same value. -/
theorem eval_ext {env : Environment} {e e' : Elem} (sameSize : e.size = e'.size)
    (bits : ∀ i, i < e.size.bits → (eval env e).getLsbD i = (eval env e').getLsbD i) :
    eval env e = eval env e' := by
  refine eval_eq_of_bits ?_ bits
  intro i outside
  rw [sameSize] at outside
  exact getLsbD_eval_of_le env e' outside

/-- What a bitwise operator does to one bit of its operands. -/
def Binary.onBit : Binary → Bool → Bool → Bool
  | .and, a, b => a && b
  | .or, a, b => a || b
  | .xor, a, b => a ^^ b
  | _, _, _ => false

/-- A bitwise operator works on every bit by itself. -/
theorem getLsbD_bitwise {Eoper : Binary} (bitwise : Eoper.isBitwise = true) (env : Environment)
    (Ety : Ty) (E1 E2 : Elem) {i : Nat} (inside : i < Ety.size.bits) :
    (eval env (.bin Eoper Ety E1 E2)).getLsbD i =
      Eoper.onBit ((eval env E1).getLsbD i) ((eval env E2).getLsbD i) := by
  rw [eval, getLsbD_trunc, decide_eq_true inside, Bool.true_and]
  cases Eoper
  case and => exact BitVec.getLsbD_and
  case or => exact BitVec.getLsbD_or
  case xor => exact BitVec.getLsbD_xor
  all_goals cases bitwise

theorem getLsbD_const (env : Environment) (Ety : Ty) (c : BitVec 64) {i : Nat}
    (inside : i < Ety.size.bits) : (eval env (.const Ety c)).getLsbD i = c.getLsbD i := by
  rw [eval, getLsbD_trunc, decide_eq_true inside, Bool.true_and]

theorem getLsbD_com (env : Environment) (Ety : Ty) (E1 : Elem) {i : Nat}
    (inside : i < Ety.size.bits) :
    (eval env (.una .com Ety E1)).getLsbD i = !(eval env E1).getLsbD i := by
  have bound := Ety.size.bits_le
  rw [eval, getLsbD_trunc, decide_eq_true inside, Bool.true_and, evalUnary, BitVec.getLsbD_not,
    decide_eq_true (by omega), Bool.true_and]

/-- A full mask decides every bit. -/
theorem eval_fullMask {env : Environment} {Eoper : Binary} {Ety ty2 : Ty} {e1 : Elem}
    {c : BitVec 64} (bitwise : Eoper.isBitwise = true) (left : e1.size = Ety.size)
    (right : ty2.size = Ety.size) (full : isFullMask ty2.size c = true) :
    eval env (fullMask Eoper Ety e1 (.const ty2 c)) =
      eval env (.bin Eoper Ety e1 (.const ty2 c)) := by
  have size : (fullMask Eoper Ety e1 (.const ty2 c)).size = Ety.size := by
    cases Eoper <;> first | exact Elem.size_setTy _ _ | rfl
  refine eval_ext size ?_
  intro i inside
  rw [size] at inside
  have one : c.getLsbD i = true := getLsbD_of_isFullMask full (by rwa [right])
  rw [getLsbD_bitwise bitwise env Ety e1 _ inside, getLsbD_const env ty2 c (by rwa [right]), one]
  cases Eoper
  case and =>
    rw [fullMask, eval_setTy env left.symm, Binary.onBit, Bool.and_true]
  case or =>
    rw [fullMask, eval_setTy env right.symm, getLsbD_const env ty2 c (by rwa [right]), one,
      Binary.onBit, Bool.or_true]
  case xor =>
    show (eval env (.una .com Ety (e1.setTy Ety))).getLsbD i = _
    rw [getLsbD_com env Ety _ inside, eval_setTy env left.symm, Binary.onBit,
      Bool.xor_true]
  all_goals cases bitwise

/-! ### Conversions -/

/-- The size that an extension starts from, and whether it is signed. -/
def Unary.source : Unary → Option (Size × Bool)
  | .s8_16 => some (.char, true)
  | .u8_16 => some (.char, false)
  | .s16_32 => some (.short, true)
  | .u16_32 => some (.short, false)
  | .s32_64 => some (.long, true)
  | .u32_64 => some (.long, false)
  | _ => none

/-- The operand of an extension has the size that it starts from. -/
theorem size_of_source {target : Target} {size operand : Size} {op : Unary} {start : Size}
    {signed : Bool} (source : op.source = some (start, signed))
    (fits : unaryFits target size operand op) : operand = start ∧ start.bits < size.bits := by
  cases op
  all_goals
    cases source
  all_goals exact fits

/-- A bit of an extension: the operand's own, and above it the sign or nothing. -/
theorem getLsbD_extension {env : Environment} {op : Unary} {Ety : Ty} {E1 : Elem} {start : Size}
    {signed : Bool} (source : op.source = some (start, signed)) (operand : E1.size = start)
    {i : Nat} (inside : i < Ety.size.bits) :
    (eval env (.una op Ety E1)).getLsbD i =
      if i < start.bits then (eval env E1).getLsbD i
      else (signed && (eval env E1).getLsbD (start.bits - 1)) := by
  have bound := Ety.size.bits_le
  rw [eval, getLsbD_trunc, decide_eq_true inside, Bool.true_and]
  by_cases below : i < start.bits
  · rw [if_pos below]
    cases op
    all_goals cases source
    all_goals
      first
        | rfl
        | rw [evalUnary, getLsbD_sext, if_pos below, decide_eq_true (by omega), Bool.true_and]
  · rw [if_neg below]
    have above := getLsbD_eval_of_le env E1 (i := i) (by rw [operand]; omega)
    cases op
    all_goals cases source
    all_goals
      first
        | exact above
        | rw [evalUnary, getLsbD_sext, if_neg below, decide_eq_true (by omega), Bool.true_and]

theorem getLsbD_of_belowSign {op : Unary} {ul : BitVec 64} (below : belowSign op ul = true) :
    ∃ start signed, op.source = some (start, signed) ∧
      (∀ i, start.bits ≤ i → ul.getLsbD i = false) ∧
      (signed = true → ul.getLsbD (start.bits - 1) = false) := by
  cases op
  case s8_16 =>
    have zero : ul &&& BitVec.allOnes 64 <<< 7 = 0 := of_decide_eq_true below
    exact ⟨.char, true, rfl, fun i high => getLsbD_of_high_zero zero (Nat.le_of_succ_le high),
      fun _ => getLsbD_of_high_zero zero (Nat.le_refl 7)⟩
  case s16_32 =>
    have zero : ul &&& BitVec.allOnes 64 <<< 15 = 0 := of_decide_eq_true below
    exact ⟨.short, true, rfl, fun i high => getLsbD_of_high_zero zero (Nat.le_of_succ_le high),
      fun _ => getLsbD_of_high_zero zero (Nat.le_refl 15)⟩
  case s32_64 =>
    have zero : ul &&& BitVec.allOnes 64 <<< 31 = 0 := of_decide_eq_true below
    exact ⟨.long, true, rfl, fun i high => getLsbD_of_high_zero zero (Nat.le_of_succ_le high),
      fun _ => getLsbD_of_high_zero zero (Nat.le_refl 31)⟩
  case u8_16 =>
    have zero : ul &&& BitVec.allOnes 64 <<< 8 = 0 := of_decide_eq_true below
    exact ⟨.char, false, rfl, fun i high => getLsbD_of_high_zero zero high, nofun⟩
  case u16_32 =>
    have zero : ul &&& BitVec.allOnes 64 <<< 16 = 0 := of_decide_eq_true below
    exact ⟨.short, false, rfl, fun i high => getLsbD_of_high_zero zero high, nofun⟩
  case u32_64 =>
    have zero : ul &&& BitVec.allOnes 64 <<< 32 = 0 := of_decide_eq_true below
    exact ⟨.long, false, rfl, fun i high => getLsbD_of_high_zero zero high, nofun⟩
  all_goals cases below

/-- Under an and, a signed conversion of a constant below the sign becomes unsigned. -/
theorem source_unsignedConversion {op : Unary} {ul : BitVec 64}
    (below : belowSign op ul = true) :
    ∃ start signed, op.source = some (start, signed) ∧
      (unsignedConversion op ul).source = some (start, false) := by
  have clear : ∀ k : Nat, ul &&& BitVec.allOnes 64 <<< k = 0 → ul &&& 1#64 <<< k = 0 := by
    intro k zero
    apply BitVec.eq_of_getLsbD_eq
    intro i inside
    rw [BitVec.getLsbD_and, BitVec.getLsbD_shiftLeft]
    by_cases high : k ≤ i
    · rw [getLsbD_of_high_zero zero high, Bool.false_and]
      exact BitVec.getLsbD_zero.symm
    · rw [decide_eq_true (Nat.lt_of_not_le high)]
      simp
  cases op
  case s8_16 =>
    refine ⟨.char, true, rfl, ?_⟩
    have bit : ul &&& 0x80#64 = 0 := clear 7 (of_decide_eq_true below)
    rw [unsignedConversion, if_pos bit, Unary.source]
  case s16_32 =>
    refine ⟨.short, true, rfl, ?_⟩
    have bit : ul &&& 0x8000#64 = 0 := clear 15 (of_decide_eq_true below)
    rw [unsignedConversion, if_pos bit, Unary.source]
  case s32_64 =>
    refine ⟨.long, true, rfl, ?_⟩
    have bit : ul &&& 0x80000000#64 = 0 := clear 31 (of_decide_eq_true below)
    rw [unsignedConversion, if_pos bit, Unary.source]
  case u8_16 => exact ⟨.char, false, rfl, rfl⟩
  case u16_32 => exact ⟨.short, false, rfl, rfl⟩
  case u32_64 => exact ⟨.long, false, rfl, rfl⟩
  all_goals cases below

/-- Moving a bitwise operator under an extension of its operand. -/
theorem eval_under_extension {target : Target} {env : Environment} {Eoper : Binary}
    {Ety ty1 ty2 : Ty} {op op' : Unary} {e11 low : Elem} {c : BitVec 64} {start : Size}
    {signed signed' : Bool} (bitwise : Eoper.isBitwise = true)
    (fits : unaryFits target ty1.size e11.size op) (left : ty1.size = Ety.size)
    (right : ty2.size = Ety.size) (source : op.source = some (start, signed))
    (source' : op'.source = some (start, signed'))
    (lowBits : ∀ i, i < start.bits → (eval env low).getLsbD i = c.getLsbD i)
    (highBits : ∀ i, start.bits ≤ i → i < Ety.size.bits →
      Eoper.onBit (signed && (eval env e11).getLsbD (start.bits - 1)) (c.getLsbD i) =
        (signed' && Eoper.onBit ((eval env e11).getLsbD (start.bits - 1))
          (c.getLsbD (start.bits - 1)))) :
    eval env (.una op' Ety (.bin Eoper e11.ty e11 low)) =
      eval env (.bin Eoper Ety (.una op ty1 e11) (.const ty2 c)) := by
  obtain ⟨operand, larger⟩ := size_of_source source fits
  have positive := start.bits_pos
  have inner : (Elem.bin Eoper e11.ty e11 low).size = start := operand
  refine eval_ext rfl ?_
  intro i inside
  have inside' : i < Ety.size.bits := inside
  rw [getLsbD_extension source' inner inside', getLsbD_bitwise bitwise env Ety _ _ inside',
    getLsbD_extension source operand (by rwa [left]), getLsbD_const env ty2 c (by rwa [right])]
  have bits : ∀ j, j < start.bits →
      (eval env (.bin Eoper e11.ty e11 low)).getLsbD j =
        Eoper.onBit ((eval env e11).getLsbD j) (c.getLsbD j) := by
    intro j small
    rw [getLsbD_bitwise bitwise env e11.ty e11 low (by rw [← Elem.size, operand]; exact small),
      lowBits j small]
  by_cases below : i < start.bits
  · rw [if_pos below, if_pos below, bits i below]
  · rw [if_neg below, if_neg below, bits _ (by omega)]
    exact (highBits i (Nat.not_lt.mp below) inside').symm

/-- A constant below the sign moves under the extension. -/
theorem eval_extendRule {target : Target} {env : Environment} {Eoper : Binary} {Ety ty1 ty2 : Ty}
    {op : Unary} {e11 : Elem} {c : BitVec 64} (bitwise : Eoper.isBitwise = true)
    (fits : unaryFits target ty1.size e11.size op) (left : ty1.size = Ety.size)
    (right : ty2.size = Ety.size) (below : belowSign op (elTolong ty2 c) = true) :
    eval env (.una (if Eoper = .and then unsignedConversion op (elTolong ty2 c) else op) Ety
        (.bin Eoper e11.ty e11 (.const e11.ty c))) =
      eval env (.bin Eoper Ety (.una op ty1 e11) (.const ty2 c)) := by
  obtain ⟨start, signed, source, high, sign⟩ := getLsbD_of_belowSign below
  obtain ⟨operand, larger⟩ := size_of_source source fits
  have positive := start.bits_pos
  have highBit : ∀ i, start.bits ≤ i → i < Ety.size.bits → c.getLsbD i = false := by
    intro i above inside
    rw [← getLsbD_elTolong ty2 c (by rwa [right]), high i above]
  have signBit : signed = true → c.getLsbD (start.bits - 1) = false := by
    intro isSigned
    rw [← getLsbD_elTolong ty2 c (by rw [right, ← left]; omega), sign isSigned]
  have lowBits : ∀ i, i < start.bits →
      (eval env (.const e11.ty c)).getLsbD i = c.getLsbD i := by
    intro i small
    exact getLsbD_const env e11.ty c (by rw [← Elem.size, operand]; exact small)
  by_cases isAnd : Eoper = .and
  · subst isAnd
    obtain ⟨start', signed', source', unsigned⟩ := source_unsignedConversion below
    obtain ⟨rfl, rfl⟩ : start' = start ∧ signed' = signed := by
      rw [source] at source'
      cases source'
      exact ⟨rfl, rfl⟩
    rw [if_pos rfl]
    refine eval_under_extension bitwise fits left right source unsigned lowBits ?_
    intro i above inside
    rw [highBit i above inside, Binary.onBit, Bool.and_false, Bool.false_and]
  · rw [if_neg isAnd]
    refine eval_under_extension bitwise fits left right source source lowBits ?_
    intro i above inside
    rw [highBit i above inside]
    cases Eoper
    case and => exact absurd rfl isAnd
    case or =>
      cases signed
      · rfl
      · rw [signBit rfl, Binary.onBit, Binary.onBit, Bool.or_false, Bool.or_false]
    case xor =>
      cases signed
      · rfl
      · rw [signBit rfl, Binary.onBit, Binary.onBit, Bool.xor_false, Bool.xor_false]
    all_goals cases bitwise

/-- A constant that is the extension of a byte moves under it. -/
theorem eval_narrowRule {target : Target} {env : Environment} {Eoper : Binary} {Ety ty1 ty2 : Ty}
    {op : Unary} {e11 : Elem} {c : BitVec 64} (bitwise : Eoper.isBitwise = true)
    (fits : unaryFits target ty1.size e11.size op) (left : ty1.size = Ety.size)
    (right : ty2.size = Ety.size) (short : ty2.size = .short)
    (constant : (op = .u8_16 ∧ (Eoper = .and ∨ c.setWidth 16 &&& 0xFF00#16 = 0)) ∨
      (op = .s8_16 ∧ (c.setWidth 8).signExtend 16 = c.setWidth 16)) :
    eval env (.una op Ety (.bin Eoper e11.ty e11 (.una .of16_8 e11.ty (.const ty2 c)))) =
      eval env (.bin Eoper Ety (.una op ty1 e11) (.const ty2 c)) := by
  have size : Ety.size.bits = 16 := by
    rw [← right, short]
    rfl
  obtain ⟨signed, source⟩ : ∃ signed, op.source = some (.char, signed) := by
    rcases constant with ⟨rfl, _⟩ | ⟨rfl, _⟩
    · exact ⟨false, rfl⟩
    · exact ⟨true, rfl⟩
  obtain ⟨operand, larger⟩ := size_of_source source fits
  refine eval_under_extension bitwise fits left right source source ?_ ?_
  · intro i small
    have small' : i < 8 := small
    have inside : i < e11.ty.size.bits := by
      rw [← Elem.size, operand]
      exact small
    rw [eval, getLsbD_trunc, decide_eq_true inside, Bool.true_and, evalUnary,
      getLsbD_const env ty2 c (by rw [right, size]; omega)]
  · intro i above inside
    have above' : 8 ≤ i := above
    rw [size] at inside
    rcases constant with ⟨rfl, zero⟩ | ⟨rfl, same⟩
    · cases source
      rw [Bool.false_and, Bool.false_and]
      rcases zero with rfl | zero
      · rw [Binary.onBit, Bool.false_and]
      · have bit := congrArg (fun v => v.getLsbD i) zero
        have ones : (0xFF00#16).getLsbD i = true := by
          have : ∀ i : Fin 16, 8 ≤ i.val → (0xFF00#16).getLsbD i.val = true := by decide
          exact this ⟨i, inside⟩ above'
        have clear : c.getLsbD i = false := by
          rw [BitVec.getLsbD_and, BitVec.getLsbD_setWidth, ones, decide_eq_true inside,
            Bool.true_and, Bool.and_true] at bit
          exact bit.trans BitVec.getLsbD_zero
        rw [clear]
        cases Eoper <;> rfl
    · cases source
      rw [Bool.true_and, Bool.true_and]
      have bit := congrArg (fun v => v.getLsbD i) same
      have copy : c.getLsbD i = c.getLsbD 7 := by
        rw [BitVec.getLsbD_signExtend, BitVec.msb_eq_getLsbD_last, BitVec.getLsbD_setWidth,
          BitVec.getLsbD_setWidth, BitVec.getLsbD_setWidth, decide_eq_true inside,
          if_neg (Nat.not_lt.mpr above')] at bit
        simpa using bit.symm
      rw [copy]
      rfl

/-- A byte under a mask of eight ones is the unsigned byte. -/
theorem eval_byteRule {target : Target} {env : Environment} {Ety ty1 ty2 : Ty} {op : Unary}
    {e11 : Elem} {c : BitVec 64} {signed : Bool} (fits : unaryFits target ty1.size e11.size op)
    (left : ty1.size = Ety.size) (right : ty2.size = Ety.size)
    (source : op.source = some (.char, signed))
    (mask : ∀ i, i < Ety.size.bits → c.getLsbD i = decide (i < Size.char.bits)) :
    eval env (.una .u8_16 Ety e11) = eval env (.bin .and Ety (.una op ty1 e11) (.const ty2 c)) := by
  obtain ⟨operand, _⟩ := size_of_source source fits
  refine eval_ext rfl ?_
  intro i inside
  have inside' : i < Ety.size.bits := inside
  rw [@getLsbD_extension env .u8_16 Ety e11 .char false rfl operand i inside',
    getLsbD_bitwise rfl env Ety _ _ inside', getLsbD_extension source operand (by rwa [left]),
    getLsbD_const env ty2 c (by rwa [right]), mask i inside']
  by_cases below : i < Size.char.bits
  · rw [if_pos below, if_pos below, decide_eq_true below, Binary.onBit, Bool.and_true]
  · rw [if_neg below, decide_eq_false below, Binary.onBit, Bool.and_false, Bool.false_and]

/-! ### Shifts -/

theorem getLsbD_shr (env : Environment) {Ety : Ty} {E1 E2 : Elem} {i : Nat}
    (inside : i < Ety.size.bits) :
    (eval env (.bin .shr Ety E1 E2)).getLsbD i =
      (eval env E1).getLsbD ((eval env E2).toNat + i) := by
  rw [eval, getLsbD_trunc, decide_eq_true inside, Bool.true_and, evalBinary,
    BitVec.getLsbD_ushiftRight]

theorem getLsbD_ashr (env : Environment) {Ety : Ty} {E1 E2 : Elem} (left : E1.size = Ety.size)
    {i : Nat} (inside : i < Ety.size.bits) :
    (eval env (.bin .ashr Ety E1 E2)).getLsbD i =
      if (eval env E2).toNat + i < Ety.size.bits then
        (eval env E1).getLsbD ((eval env E2).toNat + i)
      else (eval env E1).getLsbD (Ety.size.bits - 1) := by
  have bound := Ety.size.bits_le
  have sign : (sext E1.size (eval env E1)).msb = (eval env E1).getLsbD (Ety.size.bits - 1) := by
    rw [BitVec.msb_eq_getLsbD_last, getLsbD_sext, left]
    by_cases full : 64 - 1 < Ety.size.bits
    · rw [if_pos full, show Ety.size.bits = 64 by omega]
      rfl
    · rw [if_neg full]
      rfl
  rw [eval, getLsbD_trunc, decide_eq_true inside, Bool.true_and, evalBinary,
    BitVec.getLsbD_sshiftRight, decide_eq_false (show ¬ 64 ≤ i by omega), Bool.not_false,
    Bool.true_and, sign, getLsbD_sext, left]
  by_cases within : (eval env E2).toNat + i < Ety.size.bits
  · rw [if_pos (show (eval env E2).toNat + i < 64 by omega), if_pos within,
      decide_eq_true (show (eval env E2).toNat + i < 64 by omega), Bool.true_and]
  · rw [if_neg within]
    split_ifs with inWord
    · rw [decide_eq_true inWord, Bool.true_and]
    · rfl

/-- The halves of a shift by half the width: the mask keeps the lower one. -/
structure HalfShift (env : Environment) (Ety ty2 : Ty) (x count : Elem) (c : BitVec 64) :
    Prop where
  operand : x.size = Ety.size
  right : ty2.size = Ety.size
  half : Ety.size.bits = 2 * (eval env count).toNat
  mask : ∀ i, i < Ety.size.bits → c.getLsbD i = decide (i < (eval env count).toNat)

/-- A logical shift by half the width needs no mask. -/
theorem HalfShift.eval_shr {env : Environment} {Ety ty1 ty2 : Ty} {x count : Elem} {c : BitVec 64}
    (halves : HalfShift env Ety ty2 x count c) (left : ty1.size = Ety.size) :
    eval env ((Elem.bin .shr ty1 (x.setTy (touns x.ty)) count).setTy Ety) =
      eval env (.bin .and Ety (.bin .shr ty1 x count) (.const ty2 c)) := by
  have retyped : eval env (x.setTy (touns x.ty)) = eval env x := eval_setTy env rfl
  rw [eval_setTy env left.symm]
  refine eval_ext left ?_
  intro i inside
  have inside₁ : i < ty1.size.bits := inside
  have inside' : i < Ety.size.bits := left ▸ inside
  have half := halves.half
  rw [getLsbD_shr env inside₁, getLsbD_bitwise rfl env Ety _ _ inside', getLsbD_shr env inside₁,
    getLsbD_const env ty2 c (by rwa [halves.right]), halves.mask i inside', retyped, Binary.onBit]
  by_cases low : i < (eval env count).toNat
  · rw [decide_eq_true low, Bool.and_true]
  · rw [decide_eq_false low, Bool.and_false]
    exact getLsbD_eval_of_le env x (by rw [halves.operand]; omega)

/-- An arithmetic shift by half the width loses its mask, and keeps its value exactly
where the operand is not negative. -/
theorem HalfShift.eval_ashr {env : Environment} {Ety ty1 ty2 : Ty} {x count : Elem}
    {c : BitVec 64} (halves : HalfShift env Ety ty2 x count c) (left : ty1.size = Ety.size) :
    (eval env ((Elem.bin .ashr ty1 (x.setTy (touns x.ty)) count).setTy Ety) =
        eval env (.bin .and Ety (.bin .ashr ty1 x count) (.const ty2 c)) ↔
      (eval env x).getLsbD (x.size.bits - 1) = false) := by
  have retyped : eval env (x.setTy (touns x.ty)) = eval env x := eval_setTy env rfl
  have operand' : (x.setTy (touns x.ty)).size = Ety.size := by
    rw [Elem.size_setTy, touns, ← halves.operand, Elem.size]
  have half := halves.half
  have positive := Ety.size.bits_pos
  have masked : ∀ i, i < Ety.size.bits →
      (eval env (.bin .and Ety (.bin .ashr ty1 x count) (.const ty2 c))).getLsbD i =
        (decide (i < (eval env count).toNat) && (eval env x).getLsbD ((eval env count).toNat + i)) := by
    intro i inside
    rw [getLsbD_bitwise rfl env Ety _ _ inside, getLsbD_const env ty2 c (by rwa [halves.right]),
      halves.mask i inside, Binary.onBit,
      getLsbD_ashr env (halves.operand.trans left.symm) (by rwa [left]), left]
    by_cases low : i < (eval env count).toNat
    · rw [if_pos (by omega), decide_eq_true low, Bool.and_true, Bool.true_and]
    · rw [decide_eq_false low, Bool.and_false, Bool.false_and]
  have shifted : ∀ i, i < Ety.size.bits →
      (eval env (.bin .ashr ty1 (x.setTy (touns x.ty)) count)).getLsbD i =
        if (eval env count).toNat + i < Ety.size.bits then
          (eval env x).getLsbD ((eval env count).toNat + i)
        else (eval env x).getLsbD (Ety.size.bits - 1) := by
    intro i inside
    rw [getLsbD_ashr env (operand'.trans left.symm) (by rwa [left]), left, retyped]
  rw [eval_setTy env left.symm, halves.operand]
  constructor
  · intro same
    have bit := congrArg (fun v => v.getLsbD (Ety.size.bits - 1)) same
    rw [shifted _ (by omega), masked _ (by omega), if_neg (by omega),
      decide_eq_false (by omega), Bool.false_and] at bit
    exact bit
  · intro sign
    refine eval_ext left ?_
    intro i inside
    have inside' : i < Ety.size.bits := left ▸ inside
    rw [shifted i inside', masked i inside']
    by_cases low : i < (eval env count).toNat
    · rw [if_pos (by omega), decide_eq_true low, Bool.true_and]
    · rw [if_neg (by omega), decide_eq_false low, Bool.false_and, sign]

/-- A negative operand of a shift by half the width is not zero, with the mask and
without it. -/
theorem HalfShift.eval_ashr_ne_zero {env : Environment} {Ety ty1 ty2 : Ty} {x count : Elem}
    {c : BitVec 64} (halves : HalfShift env Ety ty2 x count c) (left : ty1.size = Ety.size)
    (sign : (eval env x).getLsbD (x.size.bits - 1) = true) :
    eval env ((Elem.bin .ashr ty1 (x.setTy (touns x.ty)) count).setTy Ety) ≠ 0 ∧
      eval env (.bin .and Ety (.bin .ashr ty1 x count) (.const ty2 c)) ≠ 0 := by
  have retyped : eval env (x.setTy (touns x.ty)) = eval env x := eval_setTy env rfl
  have operand' : (x.setTy (touns x.ty)).size = Ety.size := by
    rw [Elem.size_setTy, touns, ← halves.operand, Elem.size]
  have half := halves.half
  have positive := Ety.size.bits_pos
  have top : (eval env count).toNat + ((eval env count).toNat - 1) = Ety.size.bits - 1 := by omega
  rw [halves.operand] at sign
  have bit : ∀ v : BitVec 64, v.getLsbD ((eval env count).toNat - 1) = true → v ≠ 0 := by
    rintro v one rfl
    rw [show ((0 : BitVec 64).getLsbD ((eval env count).toNat - 1)) = false from
      BitVec.getLsbD_zero] at one
    exact Bool.false_ne_true one
  constructor
  · apply bit
    rw [eval_setTy env left.symm, getLsbD_ashr env (operand'.trans left.symm) (by rw [left]; omega),
      left, retyped, if_pos (by omega), top, sign]
  · apply bit
    rw [getLsbD_bitwise rfl env Ety _ _ (by omega),
      getLsbD_const env ty2 c (by rw [halves.right]; omega), halves.mask _ (by omega),
      getLsbD_ashr env (halves.operand.trans left.symm) (by rw [left]; omega), left,
      if_pos (by omega), top, sign, decide_eq_true (by omega)]
    rfl

/-- One bit of a shift is a bit test. -/
theorem eval_testRule {env : Environment} {Ety ty1 ty2 : Ty} {op : Binary} {a b : Elem}
    {c : BitVec 64} (kind : op = .shr ∨ op = .ashr) (operand : a.size = ty1.size)
    (left : ty1.size = Ety.size) (right : ty2.size = Ety.size) (one : elTolong ty2 c = 1)
    (inWidth : (eval env b).toNat < a.size.bits) :
    eval env (.bin .btst Ety a b) =
      eval env (.bin .and Ety (.bin op ty1 a b) (.const ty2 c)) := by
  refine eval_ext rfl ?_
  intro i inside
  have inside' : i < Ety.size.bits := inside
  have bit : c.getLsbD i = decide (i = 0) := by
    rw [← getLsbD_elTolong ty2 c (by rwa [right]), one]
    exact getLsbD_ofBit true i |>.trans (Bool.and_true _)
  rw [@getLsbD_bitwise .and rfl env Ety _ _ i inside', getLsbD_const env ty2 c (by rwa [right]),
    bit, Binary.onBit, eval, getLsbD_trunc, decide_eq_true inside', Bool.true_and, evalBinary,
    getLsbD_ofBit, Bool.and_comm]
  by_cases lowest : i = 0
  · subst lowest
    rw [operand] at inWidth
    rcases kind with rfl | rfl
    · rw [getLsbD_shr env (by rwa [left]), Nat.add_zero]
    · rw [getLsbD_ashr env operand (by rwa [left]), Nat.add_zero, if_pos inWidth]
  · rw [decide_eq_false lowest, Bool.and_false, Bool.and_false]

/-! ### Merged masks -/

/-- The or sets every bit that the mask of the and clears. -/
theorem eval_absorbed {env : Environment} {Ety ty1 ty2 tyk : Ty} {x : Elem} {c k : BitVec 64}
    (inner : x.size = ty1.size) (mask : tyk.size = ty1.size) (left : ty1.size = Ety.size)
    (right : ty2.size = Ety.size) (full : isFullMask ty2.size (elTolong ty2 c ||| k) = true) :
    eval env (.bin .or Ety (x.setTy ty1) (.const ty2 c)) =
      eval env (.bin .or Ety (.bin .and ty1 x (.const tyk k)) (.const ty2 c)) := by
  refine eval_ext rfl ?_
  intro i inside
  have inside' : i < Ety.size.bits := inside
  have covered := getLsbD_of_isFullMask full (i := i) (by rwa [right])
  rw [BitVec.getLsbD_or, getLsbD_elTolong ty2 c (by rwa [right])] at covered
  rw [getLsbD_bitwise rfl env Ety _ _ inside', getLsbD_bitwise rfl env Ety _ _ inside',
    getLsbD_bitwise rfl env ty1 _ _ (by rwa [left]), getLsbD_const env ty2 c (by rwa [right]),
    getLsbD_const env tyk k (by rwa [mask, left]), eval_setTy env inner.symm,
    Binary.onBit, Binary.onBit, Binary.onBit]
  cases bit : c.getLsbD i
  · rw [bit, Bool.false_or] at covered
    rw [covered, Bool.and_true]
  · rw [Bool.or_true, Bool.or_true]

/-- The bits that the exclusive or loses when the masks are merged. -/
theorem eval_mergedXor {env : Environment} {Ety ty1 ty2 ty11 tyb : Ty} {a c : Elem}
    {b d : BitVec 64} (operand : a.size = ty11.size) (mask : tyb.size = ty11.size)
    (first : ty11.size = ty1.size) (left : ty1.size = Ety.size) (right : ty2.size = Ety.size)
    (other : c.size = ty1.size) :
    eval env (.bin .and Ety (.bin .xor ty1 (a.setTy ty11) c) (.const ty2 (d &&& b))) =
        (eval env a ^^^ eval env c) &&& b &&& d ∧
      eval env (.bin .and Ety (.bin .xor ty1 (.bin .and ty11 a (.const tyb b)) c)
          (.const ty2 d)) =
        ((eval env a ^^^ eval env c) &&& b &&& d) ||| (eval env c &&& ~~~b &&& d) := by
  have above : ∀ i, Ety.size.bits ≤ i →
      (eval env a).getLsbD i = false ∧ (eval env c).getLsbD i = false := by
    intro i outside
    exact ⟨getLsbD_eval_of_le env a (by rwa [operand, first, left]),
      getLsbD_eval_of_le env c (by rwa [other, left])⟩
  constructor
  · refine eval_eq_of_bits ?_ ?_
    · intro i outside
      obtain ⟨clearA, clearC⟩ := above i outside
      simp only [BitVec.getLsbD_and, BitVec.getLsbD_xor, clearA, clearC, Bool.xor_false,
        Bool.false_and]
    · intro i inside
      have inside' : i < Ety.size.bits := inside
      rw [getLsbD_bitwise rfl env Ety _ _ inside', getLsbD_bitwise rfl env ty1 _ _ (by rwa [left]),
        getLsbD_const env ty2 _ (by rwa [right]), eval_setTy env operand.symm]
      simp only [Binary.onBit, BitVec.getLsbD_and, BitVec.getLsbD_xor]
      cases b.getLsbD i <;> cases d.getLsbD i <;> simp
  · refine eval_eq_of_bits ?_ ?_
    · intro i outside
      obtain ⟨clearA, clearC⟩ := above i outside
      simp only [BitVec.getLsbD_and, BitVec.getLsbD_or, BitVec.getLsbD_xor, clearA, clearC,
        Bool.xor_false, Bool.false_and, Bool.or_false]
    · intro i inside
      have inside' : i < Ety.size.bits := inside
      have bound := Ety.size.bits_le
      rw [getLsbD_bitwise rfl env Ety _ _ inside', getLsbD_bitwise rfl env ty1 _ _ (by rwa [left]),
        getLsbD_bitwise rfl env ty11 _ _ (by rwa [first, left]),
        getLsbD_const env ty2 _ (by rwa [right]),
        getLsbD_const env tyb b (by rwa [mask, first, left])]
      simp only [Binary.onBit, BitVec.getLsbD_and, BitVec.getLsbD_or, BitVec.getLsbD_xor,
        BitVec.getLsbD_not, decide_eq_true (show i < 64 by omega), Bool.true_and]
      cases b.getLsbD i <;> cases d.getLsbD i <;> simp

/-! ### Conditions -/

theorem ofBit_eq_zero (bit : Bool) : ofBit bit = 0 ↔ bit = false := by
  cases bit <;> decide

theorem trunc_ofBit (size : Size) (bit : Bool) : trunc size (ofBit bit) = ofBit bit := by
  have positive := size.bits_pos
  apply BitVec.eq_of_getLsbD_eq
  intro i _
  rw [getLsbD_trunc, getLsbD_ofBit]
  by_cases lowest : i = 0
  · rw [decide_eq_true lowest, decide_eq_true (by omega), Bool.true_and]
  · rw [decide_eq_false lowest, Bool.false_and, Bool.and_false]

theorem eval_widenBool (env : Environment) (size : Size) (e : Elem) {bit : Bool}
    (value : eval env e = ofBit bit) : eval env (widenBool size e) = ofBit bit := by
  cases size
  · exact value
  all_goals
    rw [widenBool]
    simp only [eval, evalUnary, value, trunc_ofBit]

/-- A constant of the source, and the value of the tree that holds it. -/
theorem toNat_of_elConst {env : Environment} {e : Elem} {n : Nat}
    (constant : elConst e (BitVec.ofNat 64 n) = true) (small : n < 2 ^ 8) :
    (eval env e).toNat = n := by
  cases e
  case const Ety c => exact toNat_eval_const (of_decide_eq_true constant) small
  all_goals cases constant

/-- A single bit under a mask is a condition on that bit. -/
theorem eval_single_eq_zero {env : Environment} {Ety ty1 : Ty} {one a e2 : Elem}
    (operand : one.size = ty1.size) (left : ty1.size = Ety.size)
    (unit : elConst one 1 = true) (inWidth : (eval env a).toNat < one.size.bits) :
    eval env (.bin .and Ety (.bin .shl ty1 one a) e2) = 0 ↔
      (eval env e2).getLsbD (eval env a).toNat = false := by
  have value : eval env one = ofBit true := by
    apply BitVec.eq_of_toNat_eq
    exact toNat_of_elConst (n := 1) unit (by decide)
  have bits : ∀ i, i < Ety.size.bits →
      (eval env (.bin .and Ety (.bin .shl ty1 one a) e2)).getLsbD i =
        (decide (i = (eval env a).toNat) && (eval env e2).getLsbD i) := by
    intro i inside
    have bound := Ety.size.bits_le
    rw [getLsbD_bitwise rfl env Ety _ _ inside, Binary.onBit, eval, getLsbD_trunc,
      decide_eq_true (show i < ty1.size.bits by rwa [left]), Bool.true_and, evalBinary, value,
      BitVec.getLsbD_shiftLeft, getLsbD_ofBit, decide_eq_true (show i < 64 by omega),
      Bool.and_true, Bool.true_and]
    congr 1
    rw [← decide_not, ← Bool.decide_and]
    exact decide_eq_decide.mpr (by omega)
  rw [operand, left] at inWidth
  constructor
  · intro zero
    have bit := bits _ inWidth
    rw [zero, decide_eq_true rfl, Bool.true_and] at bit
    rw [← bit]
    exact BitVec.getLsbD_zero
  · intro clear
    refine eval_eq_of_bits (fun _ _ => BitVec.getLsbD_zero) ?_
    intro i inside
    rw [bits i inside]
    by_cases same : i = (eval env a).toNat
    · rw [same, clear, Bool.and_false]
      exact BitVec.getLsbD_zero.symm
    · rw [decide_eq_false same, Bool.false_and]
      exact BitVec.getLsbD_zero.symm

theorem eval_and_comm (env : Environment) (Ety : Ty) (e1 e2 : Elem) :
    eval env (.bin .and Ety e1 e2) = eval env (.bin .and Ety e2 e1) := by
  rw [eval, eval, evalBinary, evalBinary, BitVec.and_comm]

/-- Trees that match have the same type and value. -/
theorem eval_of_elMatch (env : Environment) :
    ∀ {e e' : Elem}, elMatch e e' = true →
      e.ty = e'.ty ∧ eval env e = eval env e' ∧ ∀ v, bitNumber e v = bitNumber e' v := by
  intro e
  induction e with
  | leaf ty symbol =>
    intro e' same
    cases e'
    case leaf =>
      rw [elMatch, Bool.and_eq_true, decide_eq_true_iff, decide_eq_true_iff] at same
      obtain ⟨rfl, rfl⟩ := same
      exact ⟨rfl, rfl, fun _ => rfl⟩
    all_goals cases same
  | const ty value =>
    intro e' same
    cases e'
    case const =>
      rw [elMatch, Bool.and_eq_true, decide_eq_true_iff, decide_eq_true_iff] at same
      obtain ⟨rfl, equal⟩ := same
      exact ⟨rfl, equal, fun _ => rfl⟩
    all_goals cases same
  | una oper ty e1 inductionHypothesis =>
    intro e' same
    cases e'
    case una =>
      rw [elMatch, Bool.and_eq_true, Bool.and_eq_true, decide_eq_true_iff,
        decide_eq_true_iff] at same
      obtain ⟨⟨rfl, rfl⟩, inner⟩ := same
      obtain ⟨sameTy, sameValue, -⟩ := inductionHypothesis inner
      refine ⟨rfl, ?_, fun _ => rfl⟩
      rw [eval, eval, sameTy, sameValue]
    all_goals cases same
  | bin oper ty e1 e2 inductionLeft inductionRight =>
    intro e' same
    cases e'
    case bin =>
      rw [elMatch, Bool.and_eq_true, Bool.and_eq_true, Bool.and_eq_true, decide_eq_true_iff,
        decide_eq_true_iff] at same
      obtain ⟨⟨⟨rfl, rfl⟩, right⟩, left⟩ := same
      obtain ⟨leftTy, leftValue, -⟩ := inductionLeft left
      obtain ⟨rightTy, rightValue, number⟩ := inductionRight right
      refine ⟨rfl, ?_, fun _ => rfl⟩
      rw [eval, eval, leftValue, rightValue]
      cases oper
      case ashr => simp only [evalBinary, Elem.size, leftTy]
      case bt => simp only [evalBinary, Elem.size, leftTy, number]
      case other => simp only [evalBinary, leftTy, rightTy]
      all_goals rfl
    all_goals cases same

/-! ### Bits in memory -/

/-- The mask of a bit number in memory is a single bit, at the number within the load. -/
theorem maskBit_spec {target : Target} {env : Environment} {size : Size} {e1 b : Elem}
    (formed : WellFormed target env e1) (word : size = .long ∨ size = .llong)
    (found : maskBit size e1 = some b) :
    ∃ ty1 one count, e1 = .bin .shl ty1 one count ∧ elConst one 1 = true ∧
      one.size = ty1.size ∧ (eval env count).toNat < one.size.bits ∧
      (eval env count).toNat = (eval env b).toNat % size.bits := by
  unfold maskBit at found
  split at found
  case h_2 => cases found
  case h_1 ty1 one count =>
  split_ifs at found with unit
  split at found
  case h_2 => cases found
  case h_1 ty12 b' low behindCount =>
  split_ifs at found with inner
  cases found
  obtain ⟨constant, small⟩ := inner
  obtain ⟨-, countFormed, operand, counts⟩ := formed
  refine ⟨ty1, one, count, rfl, unit, operand, counts rfl, ?_⟩
  have width : size.bits = 2 ^ (ispow2 size + 3) := by rcases word with rfl | rfl <;> rfl
  have widthSmall : size.bits ≤ 64 := size.bits_le
  have lowValue : (eval env low).toNat = size.bits - 1 := toNat_of_elConst constant (by omega)
  have masked : ∀ ty, (eval env (.bin .and ty b low)).toNat =
      (eval env b).toNat % size.bits % 2 ^ ty.size.bits := by
    intro ty
    rw [eval, evalBinary, toNat_trunc, BitVec.toNat_and, lowValue, width,
      Nat.and_two_pow_sub_one_eq_mod]
  have below : ∀ s : Size, (eval env b).toNat % size.bits % 2 ^ s.bits =
      (eval env b).toNat % size.bits := by
    intro s
    have bound : 2 ^ 8 ≤ 2 ^ s.bits := by
      refine Nat.pow_le_pow_right Nat.zero_lt_two ?_
      cases s <;> decide
    have small := Nat.mod_lt (eval env b).toNat size.bits_pos
    exact Nat.mod_eq_of_lt (by omega)
  cases count
  case una op ty E1 =>
    rw [behind] at behindCount
    split_ifs at behindCount with narrowed
    subst behindCount narrowed
    rw [eval, evalUnary, toNat_trunc, masked, below, below]
  case bin =>
    cases behindCount
    rw [masked, below]
  all_goals cases behindCount

/-- The load that holds a bit in memory. -/
theorem loadBit_spec {target : Target} {env : Environment} {size : Size} {e2 p b : Elem}
    (formed : WellFormed target env e2) (found : loadBit size e2 = some (p, b)) :
    ∃ ty2 ty21 ty211 index scale, e2 = .una .ind ty2 (.bin .add ty21 (.bin .shl ty211 index scale) p) ∧
      ty211.size = ty21.size ∧ p.size = ty21.size ∧
      (eval env scale).toNat = ispow2 size ∧
      (eval env index).toNat = (eval env b).toNat / 2 ^ (ispow2 size + 3) := by
  unfold loadBit at found
  split at found
  case h_2 => cases found
  case h_1 ty2 ty21 ty211 index scale p' =>
  split_ifs at found with scaled
  split at found
  case h_2 => cases found
  case h_1 tyShr b' shift behindIndex =>
  split_ifs at found with shifted
  cases found
  obtain ⟨⟨⟨indexFormed, -, shlFits, -⟩, -, addFits, -⟩, -⟩ := formed
  have smallScale : ispow2 size < 2 ^ 8 := by cases size <;> decide
  have smallShift : ispow2 size + 3 < 2 ^ 8 := by cases size <;> decide
  refine ⟨ty2, ty21, ty211, index, scale, rfl, addFits.1, addFits.2,
    toNat_of_elConst scaled smallScale, ?_⟩
  have shiftValue : (eval env shift).toNat = ispow2 size + 3 := toNat_of_elConst shifted smallShift
  have value : b.size = tyShr.size →
      (eval env (.bin .shr tyShr b shift)).toNat =
        (eval env b).toNat / 2 ^ (ispow2 size + 3) := by
    intro operand
    have bound : (eval env b).toNat < 2 ^ tyShr.size.bits := by
      rw [← trunc_eval env b, toNat_trunc, operand]
      exact Nat.mod_lt _ (Nat.two_pow_pos _)
    rw [eval, evalBinary, toNat_trunc, BitVec.toNat_ushiftRight, shiftValue,
      Nat.shiftRight_eq_div_pow]
    exact Nat.mod_eq_of_lt (Nat.lt_of_le_of_lt (Nat.div_le_self _ _) bound)
  cases index
  case una op ty E1 =>
    rw [behind] at behindIndex
    split_ifs at behindIndex with widened
    subst behindIndex widened
    obtain ⟨⟨-, -, operand, -⟩, long, larger⟩ := indexFormed
    have bound : (eval env (.bin .shr tyShr b shift)).toNat < 2 ^ ty.size.bits := by
      rw [← trunc_eval env (.bin .shr tyShr b shift), toNat_trunc, long]
      exact Nat.lt_of_lt_of_le (Nat.mod_lt _ (Nat.two_pow_pos _))
        (Nat.pow_le_pow_right Nat.zero_lt_two (Nat.le_of_lt larger))
    rw [eval, evalUnary, toNat_trunc, Nat.mod_eq_of_lt bound, value operand]
  case bin =>
    cases behindIndex
    obtain ⟨-, -, operand, -⟩ := indexFormed
    exact value operand
  all_goals cases behindIndex

/-- A bit within a load is the bit counted from the pointer on. -/
theorem getLsbD_loaded {target : Target} {env : Environment} {size : Size} {e2 p b : Elem}
    (formed : WellFormed target env e2) (word : size = .long ∨ size = .llong)
    (sameSize : e2.size = size) (found : loadBit size e2 = some (p, b)) :
    (eval env e2).getLsbD ((eval env b).toNat % size.bits) =
      env.bitAt p.size (eval env p) (eval env b).toNat := by
  obtain ⟨ty2, ty21, ty211, index, scale, rfl, first, second, scaled, indexed⟩ :=
    loadBit_spec formed found
  have width : size.bits = 2 ^ (ispow2 size + 3) := by rcases word with rfl | rfl <;> rfl
  have bytes : ty2.size.bytes ≤ 8 := by cases ty2.size <;> decide
  have inside : (eval env b).toNat % size.bits < ty2.size.bits := by
    rw [show ty2.size = size from sameSize]
    exact Nat.mod_lt _ size.bits_pos
  rw [eval, getLsbD_trunc, decide_eq_true inside, Bool.true_and, evalUnary,
    getLsbD_load env _ _ _ _ bytes, decide_eq_true (show _ < 8 * ty2.size.bytes from inside),
    Bool.true_and, Environment.bitAt]
  have bit : (((eval env b).toNat : Int) % 8).toNat = (eval env b).toNat % size.bits % 8 := by
    rw [width, Nat.pow_add, Nat.mul_comm, Nat.mod_mul_right_mod]
    omega
  rw [bit]
  congr 2
  apply BitVec.eq_of_toNat_eq
  have address : ((eval env b).toNat : Int) / 8 = (((eval env b).toNat / 8 : Nat) : Int) := by omega
  have total : (eval env b).toNat / 2 ^ (ispow2 size + 3) * 2 ^ ispow2 size +
      (eval env b).toNat % size.bits / 8 = (eval env b).toNat / 8 := by
    rw [width]
    rcases word with rfl | rfl
    · simp only [ispow2]
      omega
    · simp only [ispow2]
      omega
  have divides : 2 ^ p.size.bits ∣ 2 ^ 64 := Nat.pow_dvd_pow 2 p.size.bits_le
  rw [address, BitVec.ofInt_natCast, show (Elem.bin .add ty21 (.bin .shl ty211 index scale) p).ty.size =
      p.size from second.symm, eval, evalBinary, eval, evalBinary]
  simp only [toNat_trunc, BitVec.toNat_add, BitVec.toNat_ofNat, BitVec.toNat_shiftLeft, scaled,
    indexed, Nat.shiftLeft_eq, first, ← second, Nat.mod_mod_of_dvd _ divides]
  simp only [Nat.add_mod _ _ (2 ^ p.size.bits), Nat.mod_mod, Nat.mod_mod_of_dvd _ divides]
  simp only [← Nat.add_mod]
  rw [← total, Nat.add_comm _ (eval env p).toNat, Nat.add_assoc]

end LaserD.Trees
