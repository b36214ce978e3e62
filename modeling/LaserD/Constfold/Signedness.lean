/-
This file proves exact the operators that depend on the sign of their operands: division,
remainder, the shifts and the comparisons.
-/

import LaserD.Constfold.Exact

namespace LaserD.Constfold

variable {T S : TY}

/-! ### Ranges of the numbers -/

/-- The numbers of a signed type. -/
theorem signed_range (width : 8 ≤ T.bits) (signed : T.isUnsigned = false) (a : IntegerExp T) :
    -2 ^ (T.bits - 1) ≤ a.number ∧ a.number < 2 ^ (T.bits - 1) := by
  rw [← a.reduce_number width, TY.reduce, signed, if_neg Bool.false_ne_true]
  have positive : 0 < 2 ^ T.bits := Nat.two_pow_pos _
  have half : (2 : Int) ^ T.bits = 2 * 2 ^ (T.bits - 1) := by
    rw [← pow_succ', Nat.sub_add_cancel (by omega)]
  have least := Int.le_bmod (x := a.number) positive
  have greatest := Int.bmod_lt (x := a.number) positive
  push_cast at least greatest
  omega

/-! ### Division and remainder -/

/-- The divisions the folder refuses besides those by zero. -/
def Overflows (a b : IntegerExp T) : Prop :=
  (T = .int32 ∨ T = .int64) ∧ a.number = -2 ^ (T.bits - 1) ∧ b.number = -1

/-- The host operation on signed words that computes an operation on integers. -/
def SignedExact (op : BitVec 64 → BitVec 64 → Option (BitVec 64)) (exact : Int → Int → Int) : Prop :=
  ∀ n1 n2, n2 ≠ 0 → ¬(n1 = 0x8000000000000000 ∧ n2 = -1) →
    op n1 n2 = some (BitVec.ofInt 64 (exact n1.toInt n2.toInt))

/-- The host operation on unsigned words that computes an operation on integers. -/
def UnsignedExact (op : BitVec 64 → BitVec 64 → Option (BitVec 64)) (exact : Int → Int → Int) :
    Prop :=
  ∀ n1 n2, n2 ≠ 0 → op n1 n2 = some (BitVec.ofInt 64 (exact n1.toNat n2.toNat))

theorem signedDivide_exact : SignedExact signedDivide Int.tdiv := by
  intro n1 n2 nonzero inside
  rw [signedDivide, if_neg (not_or.mpr ⟨nonzero, inside⟩)]
  refine congrArg some (BitVec.eq_of_toInt_eq ?_)
  rw [BitVec.toInt_sdiv, BitVec.toInt_ofInt]

theorem signedRemainder_exact : SignedExact signedRemainder Int.tmod := by
  intro n1 n2 nonzero inside
  rw [signedRemainder, if_neg (not_or.mpr ⟨nonzero, inside⟩)]
  rw [← BitVec.toInt_srem, BitVec.ofInt_toInt]

theorem unsignedDivide_exact : UnsignedExact unsignedDivide Int.tdiv := by
  intro n1 n2 nonzero
  rw [unsignedDivide, if_neg nonzero]
  refine congrArg some (BitVec.eq_of_toNat_eq ?_)
  have quotient : Int.tdiv n1.toNat n2.toNat = ((n1.toNat / n2.toNat : Nat) : Int) := rfl
  rw [quotient, BitVec.ofInt_natCast, ← BitVec.toNat_udiv, BitVec.ofNat_toNat, BitVec.setWidth_eq]

theorem unsignedRemainder_exact : UnsignedExact unsignedRemainder Int.tmod := by
  intro n1 n2 nonzero
  rw [unsignedRemainder, if_neg nonzero]
  refine congrArg some (BitVec.eq_of_toNat_eq ?_)
  have remainder : Int.tmod n1.toNat n2.toNat = ((n1.toNat % n2.toNat : Nat) : Int) := rfl
  rw [remainder, BitVec.ofInt_natCast, ← BitVec.toNat_umod, BitVec.ofNat_toNat, BitVec.setWidth_eq]

theorem value_eq_iff (signed : T.isUnsigned = false) (a : IntegerExp T) (word : BitVec 64) :
    a.value = word ↔ a.number = word.toInt := by
  rw [a.number_of_signed signed]
  exact ⟨fun same => congrArg _ same, BitVec.eq_of_toInt_eq⟩

theorem value_eq_zero_iff (b : IntegerExp T) : b.value = 0 ↔ b.number = 0 := by
  constructor
  · intro zero
    rw [IntegerExp.number, zero]
    split <;> rfl
  · intro zero
    rw [b.value_eq, zero]
    rfl

/-- The guards of the source are the overflows, each with its message. -/
theorem guard_iff (width : 8 ≤ T.bits) (a b : IntegerExp T) :
    (b.value = -1 ∧ T.isUnsigned = false ∧ a.value = 0xFFFFFFFF80000000 ∧ T ≠ .int64 ↔
      T = .int32 ∧ a.number = -2 ^ (T.bits - 1) ∧ b.number = -1) ∧
    (b.value = -1 ∧ T.isUnsigned = false ∧ a.value = 0x8000000000000000 ↔
      T = .int64 ∧ a.number = -2 ^ (T.bits - 1) ∧ b.number = -1) := by
  cases unsigned : T.isUnsigned
  · have minusOne : b.value = -1 ↔ b.number = -1 := value_eq_iff unsigned b (-1)
    have intMin : a.value = 0xFFFFFFFF80000000 ↔ a.number = -2 ^ 31 :=
      value_eq_iff unsigned a 0xFFFFFFFF80000000
    have longMin : a.value = 0x8000000000000000 ↔ a.number = -2 ^ 63 :=
      value_eq_iff unsigned a 0x8000000000000000
    have range := signed_range width unsigned a
    rw [minusOne, intMin, longMin]
    cases T <;> simp [TY.bits, TY.isUnsigned] at unsigned range ⊢ <;> omega
  · cases T <;> simp [TY.isUnsigned] at unsigned ⊢

/-- What the shared body leaves behind: the error of a zero divisor, the error of an overflow, or
the operation on the numbers. -/
theorem divideBy_spec (width : 8 ≤ T.bits) {intMin longMin : String}
    {unsignedOp signedOp : BitVec 64 → BitVec 64 → Option (BitVec 64)} {exact : Int → Int → Int}
    (unsignedExact : UnsignedExact unsignedOp exact) (signedExact : SignedExact signedOp exact)
    (a b : IntegerExp T) :
    (b.number = 0 →
      divideBy intMin longMin unsignedOp signedOp T a b = some (.error "divide by 0")) ∧
    (Overflows a b → divideBy intMin longMin unsignedOp signedOp T a b =
      some (.error (if T = .int32 then intMin else longMin))) ∧
    (b.number ≠ 0 → ¬Overflows a b → ∃ e,
      divideBy intMin longMin unsignedOp signedOp T a b = some (.integer e) ∧
        e.number = T.reduce (exact a.number b.number)) := by
  obtain ⟨intGuard, longGuard⟩ := guard_iff width a b
  have zero := value_eq_zero_iff b
  simp only [divideBy, a.toInteger_eq, b.toInteger_eq]
  refine ⟨fun divisor => if_pos (zero.mpr divisor), ?_, ?_⟩
  · rintro ⟨type, least, minusOne⟩
    have nonzero : ¬b.value = 0 := fun word => by
      rw [zero.mp word] at minusOne
      exact absurd minusOne (by decide)
    rw [if_neg nonzero]
    rcases type with int | long
    · rw [if_pos (intGuard.mpr ⟨int, least, minusOne⟩), if_pos int]
    · have notInt : T ≠ .int32 := by
        rw [long]
        decide
      rw [if_neg (fun guarded => notInt (intGuard.mp guarded).1),
        if_pos (longGuard.mpr ⟨long, least, minusOne⟩), if_neg notInt]
  · intro divisor inRange
    have nonzero : b.value ≠ 0 := fun word => divisor (zero.mp word)
    rw [if_neg nonzero, if_neg fun guarded => inRange (by
      obtain ⟨int, least, minusOne⟩ := intGuard.mp guarded
      exact ⟨Or.inl int, least, minusOne⟩), if_neg fun guarded => inRange (by
      obtain ⟨long, least, minusOne⟩ := longGuard.mp guarded
      exact ⟨Or.inr long, least, minusOne⟩)]
    cases unsigned : T.isUnsigned
    · have noTrap : ¬(a.value = 0x8000000000000000 ∧ b.value = -1) := fun trap => inRange (by
        obtain ⟨long, least, minusOne⟩ := longGuard.mp ⟨trap.2, unsigned, trap.1⟩
        exact ⟨Or.inr long, least, minusOne⟩)
      refine ⟨emplaceExp T (BitVec.ofInt 64 (exact a.number b.number)), ?_,
        number_emplaceExp width _⟩
      simp only [Bool.or_self, Bool.false_eq_true, if_false]
      rw [signedExact _ _ nonzero noTrap, a.number_of_signed unsigned, b.number_of_signed unsigned]
      rfl
    · refine ⟨emplaceExp T (BitVec.ofInt 64 (exact a.number b.number)), ?_,
        number_emplaceExp width _⟩
      simp only [Bool.or_self, if_true]
      rw [unsignedExact _ _ nonzero, a.number_of_unsigned unsigned, b.number_of_unsigned unsigned]
      rfl

/-! ### Shifts -/

/-- A shift count below the width of the shifted type. -/
structure CountBelow (T : TY) (count : IntegerExp S) : Prop where
  nonnegative : 0 ≤ count.number
  below : count.number < T.bits

theorem CountBelow.toNat_lt {count : IntegerExp S} (small : CountBelow T count) :
    count.value.toNat < T.bits := by
  have word := toNat_value small.nonnegative
  have below := small.below
  omega

theorem CountBelow.toNat_eq {count : IntegerExp S} (small : CountBelow T count) :
    count.value.toNat = count.number.toNat := by
  rw [← toNat_value small.nonnegative, Int.toNat_natCast]

theorem Shl_spec (width : 8 ≤ T.bits) (a : IntegerExp T) (count : IntegerExp S)
    (small : CountBelow T count) :
    ∃ e, Shl T a count = some e ∧ e.number = T.reduce (a.number * 2 ^ count.number.toNat) := by
  have inside : count.value.toNat < 64 := Nat.lt_of_lt_of_le small.toNat_lt (bits_le T)
  refine ⟨emplaceExp T (a.value <<< count.value.toNat), ?_, ?_⟩
  · rw [Shl, a.toInteger_eq, count.toInteger_eq, shiftLeft, if_pos inside]
    rfl
  · refine number_of_congruent width ?_
    rw [BitVec.ofInt_mul, ← a.value_eq, BitVec.shiftLeft_eq_mul_twoPow, small.toNat_eq]
    congr 1
    refine BitVec.eq_of_toNat_eq ?_
    rw [BitVec.toNat_twoPow, BitVec.toNat_ofInt]
    norm_cast

theorem toInt_setWidth_value (signed : T.isUnsigned = false) (a : IntegerExp T) :
    (a.value.setWidth T.bits).toInt = a.number := by
  rw [a.number_of_signed signed, ← BitVec.toInt_signExtend_of_le (bits_le T),
    ← normalize_signed signed, a.normalized]

theorem toNat_setWidth_value (width : 8 ≤ T.bits) (unsigned : T.isUnsigned = true)
    (a : IntegerExp T) : ((a.value.setWidth T.bits).toNat : Int) = a.number := by
  rw [a.number_of_unsigned unsigned, ← BitVec.toNat_setWidth_of_le (bits_le T),
    ← normalize_unsigned width unsigned, a.normalized]

/-- A right shift of a signed word rounds the quotient towards minus infinity. -/
theorem shiftSigned_exact {w : Nat} (word : BitVec w) {count : Nat} (inside : count < w)
    (fits : w ≤ 64) :
    (shiftSigned word count).map (·.signExtend 64) =
      some (BitVec.ofInt 64 (word.toInt / 2 ^ count)) := by
  rw [shiftSigned, if_pos inside, Option.map_some]
  refine congrArg some ?_
  rw [← BitVec.ofInt_toInt (x := BitVec.signExtend 64 _), BitVec.toInt_signExtend_of_le fits,
    BitVec.toInt_sshiftRight, Int.shiftRight_eq_div_pow]
  norm_cast

/-- A right shift of an unsigned word. -/
theorem shiftUnsigned_exact {w : Nat} (word : BitVec w) {count : Nat} (inside : count < w)
    (fits : w ≤ 64) :
    (shiftUnsigned word count).map (·.setWidth 64) =
      some (BitVec.ofInt 64 (word.toNat / 2 ^ count)) := by
  rw [shiftUnsigned, if_pos inside, Option.map_some]
  have quotient : (word.toNat : Int) / 2 ^ count = ((word.toNat / 2 ^ count : Nat) : Int) := by
    norm_cast
  have small : word.toNat / 2 ^ count < 2 ^ 64 :=
    Nat.lt_of_le_of_lt (Nat.div_le_self _ _)
      (Nat.lt_of_lt_of_le word.isLt (Nat.pow_le_pow_right (by decide) fits))
  refine congrArg some (BitVec.eq_of_toNat_eq ?_)
  rw [BitVec.toNat_setWidth_of_le fits, BitVec.toNat_ushiftRight, Nat.shiftRight_eq_div_pow,
    quotient, BitVec.ofInt_natCast, BitVec.toNat_ofNat, Nat.mod_eq_of_lt small]

/-- The promotion of an unsigned word to a wider signed word keeps its value. -/
theorem toInt_promote {w : Nat} (word : BitVec w) (wider : w < 32) :
    (word.setWidth 32).toInt = word.toNat := by
  have small : 2 * word.toNat < 2 ^ 32 := by
    have bound : 2 ^ (w + 1) ≤ 2 ^ 32 := Nat.pow_le_pow_right (by decide) wider
    have inside := word.isLt
    rw [Nat.pow_succ] at bound
    omega
  rw [BitVec.toInt_eq_toNat_of_lt, BitVec.toNat_setWidth_of_le (by omega)]
  rw [BitVec.toNat_setWidth_of_le (by omega)]
  exact small

theorem shrValue_exact (width : 8 ≤ T.bits) (a : IntegerExp T) {count : Nat}
    (inside : count < T.bits) :
    shrValue T a.value count = some (BitVec.ofInt 64 (a.number / 2 ^ count)) := by
  cases T with
  | bool => exact absurd width (by decide)
  | int8 =>
    have word : (a.value.setWidth 8).toInt = a.number := toInt_setWidth_value rfl a
    have small : count < 8 := inside
    rw [shrValue, shiftSigned_exact _ (by omega) (by decide),
      BitVec.toInt_signExtend_of_le (by decide), word]
  | uns8 | char =>
    have word : ((a.value.setWidth 8).toNat : Int) = a.number := toNat_setWidth_value width rfl a
    have small : count < 8 := inside
    rw [shrValue, shiftSigned_exact _ (by omega) (by decide), toInt_promote _ (by decide), word]
  | int16 =>
    have word : (a.value.setWidth 16).toInt = a.number := toInt_setWidth_value rfl a
    have small : count < 16 := inside
    rw [shrValue, shiftSigned_exact _ (by omega) (by decide),
      BitVec.toInt_signExtend_of_le (by decide), word]
  | uns16 | wchar =>
    have word : ((a.value.setWidth 16).toNat : Int) = a.number := toNat_setWidth_value width rfl a
    have small : count < 16 := inside
    rw [shrValue, shiftSigned_exact _ (by omega) (by decide), toInt_promote _ (by decide), word]
  | int32 =>
    have word : (a.value.setWidth 32).toInt = a.number := toInt_setWidth_value rfl a
    have small : count < 32 := inside
    rw [shrValue, shiftSigned_exact _ small (by decide), word]
  | uns32 | dchar =>
    have word : ((a.value.setWidth 32).toNat : Int) = a.number := toNat_setWidth_value width rfl a
    have small : count < 32 := inside
    rw [shrValue, shiftUnsigned_exact _ small (by decide), word]
  | int64 =>
    have shifted := shiftSigned_exact a.value inside (Nat.le_refl 64)
    simp only [BitVec.signExtend_eq, Option.map_id'] at shifted
    rw [shrValue, shifted, a.number_of_signed rfl]
  | uns64 =>
    have shifted := shiftUnsigned_exact a.value inside (Nat.le_refl 64)
    simp only [BitVec.setWidth_eq, Option.map_id'] at shifted
    rw [shrValue, shifted, a.number_of_unsigned rfl]

/-- A count below the width of a type passes the assertion of the source. -/
theorem CountBelow.asserted {count : IntegerExp S} (small : CountBelow T count) :
    count.value.toNat ≤ 0xFFFFFFFF := by
  have below := small.toNat_lt
  have wide := bits_le T
  omega

theorem Shr_spec (width : 8 ≤ T.bits) (a : IntegerExp T) (count : IntegerExp S)
    (small : CountBelow T count) :
    ∃ e, Shr T a count = some e ∧ e.number = T.reduce (a.number / 2 ^ count.number.toNat) := by
  simp only [Shr, a.toInteger_eq, count.toInteger_eq]
  rw [if_pos small.asserted, shrValue_exact width a small.toNat_lt, small.toNat_eq]
  exact ⟨_, rfl, number_emplaceExp width _⟩

/-- The low bits of the word are those of the number. -/
theorem toNat_mod_value (a : IntegerExp T) :
    ((a.value.toNat % 2 ^ T.bits : Nat) : Int) = a.number % 2 ^ T.bits := by
  have divides : ((2 : Int) ^ T.bits) ∣ ((2 ^ 64 : Nat) : Int) := by
    exact_mod_cast two_pow_bits_dvd T
  rw [a.value_eq, BitVec.toNat_ofInt, Int.natCast_emod,
    Int.toNat_of_nonneg (Int.emod_nonneg _ (by decide))]
  rw [Nat.cast_pow 2 T.bits]
  exact Int.emod_emod_of_dvd _ divides

/-- The shift of a word that is masked to its low bits. -/
theorem shiftMasked_exact (a : IntegerExp T) (mask : BitVec 64)
    (low : mask.toNat = 2 ^ T.bits - 1) {count : Nat} (inside : count < T.bits) :
    shiftUnsigned (a.value &&& mask) count =
      some (BitVec.ofInt 64 (a.number % 2 ^ T.bits / 2 ^ count)) := by
  have wide : count < 64 := Nat.lt_of_lt_of_le inside (bits_le T)
  have shifted := shiftUnsigned_exact (a.value &&& mask) wide (Nat.le_refl 64)
  simp only [BitVec.setWidth_eq, Option.map_id'] at shifted
  rw [shifted, BitVec.toNat_and, low, Nat.and_two_pow_sub_one_eq_mod, toNat_mod_value]

theorem ushrValue_exact (width : 8 ≤ T.bits) (a : IntegerExp T) {count : Nat}
    (inside : count < T.bits) :
    ushrValue T a.value count =
      some (BitVec.ofInt 64 (a.number % 2 ^ T.bits / 2 ^ count)) := by
  cases T with
  | bool => exact absurd width (by decide)
  | int8 | uns8 | char => exact shiftMasked_exact a 0xFF (by decide) inside
  | int16 | uns16 | wchar => exact shiftMasked_exact a 0xFFFF (by decide) inside
  | int32 | uns32 | dchar => exact shiftMasked_exact a 0xFFFFFFFF (by decide) inside
  | int64 | uns64 =>
    have masked := shiftMasked_exact a (BitVec.allOnes 64) (by decide) inside
    rwa [BitVec.and_allOnes] at masked

theorem Ushr_spec (width : 8 ≤ T.bits) (a : IntegerExp T) (count : IntegerExp S)
    (small : CountBelow T count) :
    ∃ e, Ushr T a count = some e ∧
      e.number = T.reduce (a.number % 2 ^ T.bits / 2 ^ count.number.toNat) := by
  simp only [Ushr, a.toInteger_eq, count.toInteger_eq]
  rw [if_pos small.asserted, ushrValue_exact width a small.toNat_lt, small.toNat_eq]
  exact ⟨_, rfl, number_emplaceExp width _⟩

/-! ### Comparisons -/

/-- The comparison of two numbers. -/
def EXP.compares (op : EXP) (first second : Int) : Prop :=
  match op with
  | .equal => first = second
  | .notEqual => first ≠ second
  | .lessThan => first < second
  | .lessOrEqual => first ≤ second
  | .greaterThan => second < first
  | .greaterOrEqual => second ≤ first

instance (op : EXP) (first second : Int) : Decidable (op.compares first second) := by
  cases op <;> unfold EXP.compares <;> infer_instance

/-- The truth value as a constant of any type. -/
theorem number_truth (type : TY) (truth : Bool) :
    (emplaceExp type (if truth then 1 else 0)).number = if truth then 1 else 0 := by
  cases truth <;> cases type <;> rfl

theorem Cmp_spec (op : EXP) (type : TY) (a b : IntegerExp T) (ordering : op ≠ .equal)
    (ordering' : op ≠ .notEqual) :
    ∃ e, Cmp op type a b = some e ∧
      e.number = if op.compares a.number b.number then 1 else 0 := by
  have decided : (if T.isUnsigned || T.isUnsigned then intUnsignedCmp op a.value b.value
      else intSignedCmp op a.value b.value) = some (decide (op.compares a.number b.number)) := by
    cases unsigned : T.isUnsigned
    · rw [a.number_of_signed unsigned, b.number_of_signed unsigned]
      cases op <;> first | exact absurd rfl ordering | exact absurd rfl ordering' | rfl
    · rw [a.number_of_unsigned unsigned, b.number_of_unsigned unsigned]
      cases op with
      | equal => exact absurd rfl ordering
      | notEqual => exact absurd rfl ordering'
      | lessThan | lessOrEqual | greaterThan | greaterOrEqual =>
        simp [intUnsignedCmp, EXP.compares, BitVec.ult, BitVec.ule]
  simp only [Cmp, a.toInteger_eq, b.toInteger_eq]
  rw [decided]
  refine ⟨_, rfl, ?_⟩
  rw [number_truth]
  simp only [decide_eq_true_eq]

theorem Equal_spec (op : EXP) (type : TY) (a b : IntegerExp T)
    (equality : op = .equal ∨ op = .notEqual) :
    ∃ e, Equal op type a b = some e ∧
      e.number = if op.compares a.number b.number then 1 else 0 := by
  have words : a.value = b.value ↔ a.number = b.number := by
    refine ⟨fun same => ?_, fun same => ?_⟩
    · rw [IntegerExp.number, IntegerExp.number, same]
    · rw [a.value_eq, b.value_eq, same]
  have truth := number_truth type (decide (op.compares a.number b.number))
  simp only [decide_eq_true_eq] at truth
  rcases equality with rfl | rfl
  · refine ⟨_, rfl, truth ▸ congrArg (fun word => (emplaceExp type word).number) ?_⟩
    simp only [a.toInteger_eq, b.toInteger_eq, words]
    rfl
  · refine ⟨_, rfl, truth ▸ congrArg (fun word => (emplaceExp type word).number) ?_⟩
    simp only [a.toInteger_eq, b.toInteger_eq, words]
    by_cases same : a.number = b.number
    · have equal : ¬EXP.notEqual.compares a.number b.number := fun differ => differ same
      rw [if_pos same, if_neg equal]
      rfl
    · have differ : EXP.notEqual.compares a.number b.number := same
      rw [if_neg same, if_pos differ]
      rfl

/-! ### The folding of integer operators -/

/-- Folding an operator on two constants of an integral type is the two's complement operation of
the type. -/
theorem integer_folding_exact (T : TY) (width : 8 ≤ T.bits) (a b : IntegerExp T) :
    (Neg T a).number = T.reduce (-a.number) ∧
    (Add T a b).number = T.reduce (a.number + b.number) ∧
    (Min T a b).number = T.reduce (a.number - b.number) ∧
    (Mul T a b).number = T.reduce (a.number * b.number) ∧
    ((Com T a).pattern = ~~~a.pattern ∧ (And T a b).pattern = a.pattern &&& b.pattern ∧
      (Or T a b).pattern = a.pattern ||| b.pattern ∧
      (Xor T a b).pattern = a.pattern ^^^ b.pattern) ∧
    ((b.number = 0 → Div T a b = some (.error "divide by 0")) ∧
      (Overflows a b → Div T a b = some (.error (if T = .int32 then
        "integer overflow: `int.min / -1`" else "integer overflow: `long.min / -1L`"))) ∧
      (b.number ≠ 0 → ¬Overflows a b → ∃ e, Div T a b = some (.integer e) ∧
        e.number = T.reduce (a.number.tdiv b.number))) ∧
    ((b.number = 0 → Mod T a b = some (.error "divide by 0")) ∧
      (Overflows a b → Mod T a b = some (.error (if T = .int32 then
        "integer overflow: `int.min % -1`" else "integer overflow: `long.min % -1L`"))) ∧
      (b.number ≠ 0 → ¬Overflows a b → ∃ e, Mod T a b = some (.integer e) ∧
        e.number = T.reduce (a.number.tmod b.number))) ∧
    (∀ {S : TY} (count : IntegerExp S), CountBelow T count →
      (∃ e, Shl T a count = some e ∧ e.number = T.reduce (a.number * 2 ^ count.number.toNat)) ∧
      (∃ e, Shr T a count = some e ∧ e.number = T.reduce (a.number / 2 ^ count.number.toNat)) ∧
      (∃ e, Ushr T a count = some e ∧
        e.number = T.reduce (a.number % 2 ^ T.bits / 2 ^ count.number.toNat))) ∧
    (∀ (op : EXP) (type : TY),
      ∃ e, (if op = .equal ∨ op = .notEqual then Equal op type a b else Cmp op type a b) = some e ∧
        e.number = if op.compares a.number b.number then 1 else 0) ∧
    (∀ {S : TY} (n : IntegerExp S), 0 ≤ n.number →
      ∃ e, Pow T a n = .integer e ∧ e.number = T.reduce (a.number ^ n.number.toNat)) := by
  refine ⟨number_Neg width a, number_Add width a b, number_Min width a b, number_Mul width a b,
    ⟨pattern_Com width a, pattern_And width a b, pattern_Or width a b, pattern_Xor width a b⟩,
    divideBy_spec width unsignedDivide_exact signedDivide_exact a b,
    divideBy_spec width unsignedRemainder_exact signedRemainder_exact a b,
    fun count small => ⟨Shl_spec width a count small, Shr_spec width a count small,
      Ushr_spec width a count small⟩, fun op type => ?_, fun n => Pow_eq width a n⟩
  by_cases equality : op = .equal ∨ op = .notEqual
  · rw [if_pos equality]
    exact Equal_spec op type a b equality
  · rw [if_neg equality]
    rw [not_or] at equality
    exact Cmp_spec op type a b equality.1 equality.2

/-- The exactness at the `int` constants `-7` and `2`. -/
theorem integer_folding_int :
    (Neg .int32 (emplaceExp .int32 (-7))).number = 7 ∧
    (∃ e, Div .int32 (emplaceExp .int32 (-7)) (emplaceExp .int32 2) = some (.integer e) ∧
      e.number = -3) ∧
    (∃ e, Shr .int32 (emplaceExp .int32 (-7)) (emplaceExp .int32 2) = some e ∧ e.number = -2) ∧
    (∃ e, Pow .int32 (emplaceExp .int32 (-7)) (emplaceExp .int32 2) = .integer e ∧
      e.number = 49) := by
  obtain ⟨negation, _, _, _, _, division, _, shifts, _, powers⟩ :=
    integer_folding_exact .int32 (by decide) (emplaceExp .int32 (-7)) (emplaceExp .int32 2)
  have small : CountBelow .int32 (emplaceExp .int32 2) := ⟨by decide, by decide⟩
  have inRange : ¬Overflows (emplaceExp .int32 (-7)) (emplaceExp .int32 2) := by
    rintro ⟨_, least, _⟩
    revert least
    decide
  obtain ⟨quotient, folded, value⟩ := division.2.2 (by decide) inRange
  obtain ⟨_, ⟨shifted, folded', value'⟩, _⟩ := shifts _ small
  obtain ⟨power, folded'', value''⟩ := powers (emplaceExp .int32 2) (by decide)
  exact ⟨negation.trans (by decide), ⟨quotient, folded, value.trans (by decide)⟩,
    ⟨shifted, folded', value'.trans (by decide)⟩, ⟨power, folded'', value''.trans (by decide)⟩⟩

end LaserD.Constfold
