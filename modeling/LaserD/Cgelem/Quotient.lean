/-
This file proves when dividing by two constants is dividing by their product.

Truncating division composes over the integers, so all that can go wrong is the product.
A product of signed constants is bounded by the test for it. A product of unsigned ones
may wrap, and then the quotient by what is left of it is right only where it is zero. The
division by the product may also read its operands as signed, which agrees with the
unsigned reading on a part of the range alone.
-/

import Mathlib.Algebra.Group.Int.Units
import LaserD.Cgelem.Divide

namespace LaserD.Cgelem

/-! ### Results -/

/-- What a goal sees of a value. -/
def Goal.seen (goal : Goal) (v : Nat) : Nat :=
  match goal with
  | .flags => ofBool (v ≠ 0)
  | _ => v

theorem Goal.seen_eq_seen_zero (goal : Goal) (v : Nat) : goal.seen v = goal.seen 0 ↔ v = 0 := by
  cases goal with
  | flags =>
    show ofBool (v ≠ 0) = 0 ↔ v = 0
    rw [ofBool_eq_zero, decide_eq_false_iff_not, not_not]
  | _ => exact Iff.rfl

theorem Goal.seen_flags_eq (v w : Nat) :
    Goal.flags.seen v = Goal.flags.seen w ↔ (v = 0 ↔ w = 0) := by
  show ofBool (v ≠ 0) = ofBool (w ≠ 0) ↔ _
  by_cases first : v = 0 <;> by_cases second : w = 0 <;> simp [first, second, ofBool]

/-- The second result is what the goal sees of the first one, where there is one. -/
def Goal.Keeps (goal : Goal) (before after : Option Nat) : Prop :=
  ∀ v, before = some v → ∃ w, after = some w ∧ goal.seen w = goal.seen v

theorem Goal.keeps_none (goal : Goal) (after : Option Nat) : goal.Keeps Option.none after :=
  fun _ impossible => nomatch impossible

theorem Goal.keeps_refl (goal : Goal) (before : Option Nat) : goal.Keeps before before :=
  fun v has => ⟨v, has, rfl⟩

theorem Goal.keeps_some (goal : Goal) (v w : Nat) :
    goal.Keeps (some v) (some w) ↔ goal.seen w = goal.seen v := by
  constructor
  · intro keeps
    obtain ⟨w', is, same⟩ := keeps v rfl
    rw [← Option.some.inj is] at same
    exact same
  · intro same v' is
    rw [← Option.some.inj is]
    exact ⟨w, rfl, same⟩

/-! ### Signed values -/

/-- A number in the signed range is read back. -/
theorem signed_wrap {size : Size} {z : Int} (low : -2 ^ (size.bits - 1) ≤ z)
    (high : z < 2 ^ (size.bits - 1)) : signed size (wrap size z) = z := by
  have whole := two_pow_bits size
  have halfCast := two_pow_cast (size.bits - 1)
  have wholeCast := two_pow_cast size.bits
  unfold wrap signed
  rcases Int.lt_or_le z 0 with negative | natural
  · have shifted : z % 2 ^ size.bits = z + 2 ^ size.bits := by
      rw [← Int.add_emod_right, Int.emod_eq_of_lt (by omega) (by omega)]
    rw [shifted, if_neg (by omega)]
    omega
  · rw [Int.emod_eq_of_lt natural (by omega), if_pos (by omega)]
    omega

/-- A product of values is the product of their signed readings. -/
theorem low_mul (size : Size) {a b : Nat} (aSmall : a < 2 ^ size.bits)
    (bSmall : b < 2 ^ size.bits) :
    low size (a * b) = wrap size (signed size a * signed size b) := by
  have first := signed_emod size a
  have second := signed_emod size b
  rw [low_of_lt aSmall] at first
  rw [low_of_lt bSmall] at second
  refine Int.ofNat_inj.mp ?_
  rw [natCast_wrap, Int.mul_emod, first, second]
  unfold low
  push_cast
  rfl

theorem natAbs_signed {size : Size} {v : Nat} (small : v < 2 ^ size.bits) :
    (signed size v).natAbs = if v < 2 ^ (size.bits - 1) then v else 2 ^ size.bits - v := by
  have wholeCast := two_pow_cast size.bits
  split_ifs with below
  · rw [signed_of_lt below]
    rfl
  · rw [signed_of_le (Nat.le_of_not_lt below)]
    omega

/-- Truncating division by one number and another is that by their product. -/
theorem tdiv_tdiv (x a b : Int) : (x.tdiv a).tdiv b = x.tdiv (a * b) := by
  have natural (x a b : Nat) : ((x : Int).tdiv a).tdiv b = (x : Int).tdiv (a * b) := by
    rw [← Int.ofNat_tdiv, ← Int.ofNat_tdiv, Nat.div_div_eq_div_mul]
    exact_mod_cast Int.ofNat_tdiv x (a * b)
  obtain ⟨x, rfl | rfl⟩ := Int.eq_nat_or_neg x <;> obtain ⟨a, rfl | rfl⟩ := Int.eq_nat_or_neg a <;>
    obtain ⟨b, rfl | rfl⟩ := Int.eq_nat_or_neg b <;>
    simp only [Int.neg_tdiv, Int.tdiv_neg, Int.neg_mul, Int.mul_neg, natural]

/-- A truncated quotient stays in the range but for the one that overflows. -/
theorem tdiv_bounds {half : Nat} (positive : 0 < half) {x y : Int} (lower : -half ≤ x)
    (upper : x < half) (fits : ¬ (x = -half ∧ y = -1)) :
    -half ≤ x.tdiv y ∧ x.tdiv y < half := by
  have smaller := Int.natAbs_tdiv_le_natAbs x y
  have least : x.tdiv y ≠ half := by
    intro overflow
    have isLeast : x = -half := by omega
    have size : half / y.natAbs = half := by
      have absolute := Int.natAbs_tdiv x y
      rw [overflow, isLeast, Int.natAbs_neg, Int.natAbs_natCast] at absolute
      exact absolute.symm
    have unit : y.natAbs = 1 := by
      rcases Nat.lt_trichotomy y.natAbs 1 with none | one | more
      · rw [Nat.lt_one_iff.mp none, Nat.div_zero] at size
        omega
      · exact one
      · exact absurd size (Nat.ne_of_lt (Nat.div_lt_self positive more))
    rcases Int.natAbs_eq_iff.mp unit with rfl | rfl
    · rw [show ((1 : Nat) : Int) = 1 from rfl, Int.tdiv_one] at overflow
      omega
    · exact fits ⟨isLeast, rfl⟩
  omega

/-! ### Quotients -/

theorem quotient_unsigned (size : Size) (x : Nat) {y : Nat} (nonzero : y ≠ 0) :
    quotient size true x y = some (x / y) := by
  unfold quotient
  rw [if_neg nonzero, if_pos rfl]

theorem quotient_zero (size : Size) (uns : Bool) (x : Nat) : quotient size uns x 0 = none :=
  if_pos rfl

/-- The pair of operands whose signed quotient overflows. -/
def Overflows (size : Size) (x y : Nat) : Prop :=
  signed size x = -2 ^ (size.bits - 1) ∧ signed size y = -1

theorem quotient_signed {size : Size} {x y : Nat} (nonzero : y ≠ 0) (fits : ¬ Overflows size x y) :
    quotient size false x y = some (wrap size ((signed size x).tdiv (signed size y))) := by
  unfold Overflows at fits
  unfold quotient
  rw [if_neg nonzero, if_neg Bool.false_ne_true, if_neg fits]

theorem quotient_overflows {size : Size} {x y : Nat} (overflows : Overflows size x y) :
    quotient size false x y = none := by
  unfold Overflows at overflows
  unfold quotient
  rw [if_neg Bool.false_ne_true, if_pos overflows, ite_self]

/-- The quotient by a first and then by a second divisor. -/
def twice (size : Size) (uns : Bool) (x a b : Nat) : Option Nat :=
  (quotient size uns x a).bind fun q => quotient size uns q b

theorem twice_unsigned (size : Size) (x : Nat) {a b : Nat} (nonzero : a * b ≠ 0) :
    twice size true x a b = some (x / (a * b)) := by
  obtain ⟨first, second⟩ := Nat.mul_ne_zero_iff.mp nonzero
  unfold twice
  rw [quotient_unsigned size x first, Option.bind_some, quotient_unsigned size _ second,
    Nat.div_div_eq_div_mul]

theorem twice_zero (size : Size) (uns : Bool) (x : Nat) {a b : Nat} (zero : a * b = 0) :
    twice size uns x a b = none := by
  unfold twice
  rcases Nat.mul_eq_zero.mp zero with rfl | rfl
  · rw [quotient_zero]
    rfl
  · cases quotient size uns x a <;> rfl

theorem signed_zero (size : Size) : signed size 0 = 0 :=
  signed_of_lt (Nat.two_pow_pos _)

theorem signed_eq_zero {size : Size} {v : Nat} (small : v < 2 ^ size.bits)
    (zero : signed size v = 0) : v = 0 :=
  signed_inj small (Nat.two_pow_pos _) (zero.trans (signed_zero size).symm)

theorem tdiv_signed_bounds {size : Size} {x y : Nat} (small : x < 2 ^ size.bits)
    (fits : ¬ Overflows size x y) :
    -2 ^ (size.bits - 1) ≤ (signed size x).tdiv (signed size y) ∧
      (signed size x).tdiv (signed size y) < 2 ^ (size.bits - 1) := by
  have bounds := signed_bounds small
  unfold Overflows at fits
  rw [← two_pow_cast] at fits bounds ⊢
  exact tdiv_bounds (Nat.two_pow_pos _) bounds.1 bounds.2 fits

/-- Signed divisions compose where the product of the divisors is in the range. -/
theorem twice_signed {size : Size} {x a b v : Nat} (xSmall : x < 2 ^ size.bits)
    (aSmall : a < 2 ^ size.bits) (bSmall : b < 2 ^ size.bits)
    (productLow : -2 ^ (size.bits - 1) ≤ signed size a * signed size b)
    (productHigh : signed size a * signed size b < 2 ^ (size.bits - 1))
    (defined : twice size false x a b = some v) :
    quotient size false x (low size (a * b)) = some v := by
  have product : signed size (low size (a * b)) = signed size a * signed size b := by
    rw [low_mul size aSmall bSmall, signed_wrap productLow productHigh]
  have nonzero : a * b ≠ 0 := fun zero => nomatch (twice_zero size false x zero).symm.trans defined
  obtain ⟨aNonzero, bNonzero⟩ := Nat.mul_ne_zero_iff.mp nonzero
  unfold twice at defined
  by_cases first : Overflows size x a
  · rw [quotient_overflows first] at defined
    exact nomatch defined
  have bounds := tdiv_signed_bounds xSmall first
  rw [quotient_signed aNonzero first, Option.bind_some] at defined
  have inner := signed_wrap bounds.1 bounds.2
  by_cases second : Overflows size (wrap size ((signed size x).tdiv (signed size a))) b
  · rw [quotient_overflows second] at defined
    exact nomatch defined
  rw [quotient_signed bNonzero second, inner, tdiv_tdiv, ← product] at defined
  have fits : ¬ Overflows size x (low size (a * b)) := by
    rintro ⟨least, unit⟩
    rw [product] at unit
    rcases Int.mul_eq_neg_one_iff_eq_one_or_neg_one.mp unit with ⟨one, other⟩ | ⟨one, other⟩
    · refine second ⟨?_, other⟩
      rw [inner, one, Int.tdiv_one, least]
    · exact first ⟨least, one⟩
  have productNonzero : low size (a * b) ≠ 0 := by
    intro zero
    rw [zero, signed_zero] at product
    rcases Int.mul_eq_zero.mp product.symm with zero | zero
    · exact aNonzero (signed_eq_zero aSmall zero)
    · exact bNonzero (signed_eq_zero bSmall zero)
  rw [quotient_signed productNonzero fits, ← defined]

/-! ### A product that wraps, or is read as signed -/

/-- A signed quotient is zero exactly where the divisor is the larger one. -/
theorem quotient_eq_zero_iff {size : Size} {x y : Nat} (xSmall : x < 2 ^ size.bits)
    (ySmall : y < 2 ^ size.bits) :
    quotient size false x y = some 0 ↔ (signed size x).natAbs < (signed size y).natAbs := by
  by_cases zero : y = 0
  · rw [zero, quotient_zero, signed_zero]
    exact iff_of_false (fun impossible => nomatch impossible) (Nat.not_lt_zero _)
  by_cases overflows : Overflows size x y
  · rw [quotient_overflows overflows, overflows.2]
    refine iff_of_false (fun impossible => nomatch impossible) fun small => ?_
    have isZero := Int.natAbs_eq_zero.mp (Nat.lt_one_iff.mp small)
    have positive := Nat.two_pow_pos (size.bits - 1)
    have cast := two_pow_cast (size.bits - 1)
    rw [overflows.1] at isZero
    omega
  have bounds := tdiv_signed_bounds xSmall overflows
  have positive : 0 < (signed size y).natAbs :=
    Int.natAbs_pos.mpr fun isZero => zero (signed_eq_zero ySmall isZero)
  rw [quotient_signed zero overflows, Option.some_inj, ← Nat.div_eq_zero_iff_lt positive]
  have absolute := Int.natAbs_tdiv (signed size x) (signed size y)
  constructor
  · intro isZero
    have back := signed_wrap bounds.1 bounds.2
    rw [isZero, signed_zero] at back
    rw [← back] at absolute
    exact absolute.symm
  · intro isZero
    have quotientZero : (signed size x).tdiv (signed size y) = 0 :=
      Int.natAbs_eq_zero.mp (absolute.trans isZero)
    rw [quotientZero]
    exact (wrap_natCast size 0).trans (Nat.zero_mod _)

/-- Where an unsigned and a signed division by `m` look the same: on equal operands, where
both divide as they are or neither quotient is above zero, and, above the signed range, by
one, or where only zero or not counts and neither quotient is zero. -/
def SignsAgree (goal : Goal) (size : Size) (x m : Nat) : Prop :=
  x = m ∨ (x < 2 ^ (size.bits - 1) ∧ x + m < 2 ^ size.bits) ∨
    if goal = .flags then 2 ^ (size.bits - 1) ≤ x ∧ x + m ≤ 2 ^ size.bits else m = 1

/-- Where the division of `x` by a product of unsigned constants goes wrong: the product wraps
and the division by what is left of it does not give zero, or it does not wrap and is divided
by as signed where that makes a difference. -/
def ProductMisleads (goal : Goal) (size : Size) (uns : Bool) (x m : Nat) : Prop :=
  if 2 ^ size.bits ≤ m then
    if uns then low size m ≤ x
    else (signed size (low size m)).natAbs ≤ (signed size x).natAbs
  else uns = false ∧ ¬ SignsAgree goal size x m

theorem one_lt_half (size : Size) : 1 < 2 ^ (size.bits - 1) := by
  cases size <;> decide

theorem Goal.keeps_zero_iff (goal : Goal) (after : Option Nat) :
    goal.Keeps (some 0) after ↔ after = some 0 := by
  constructor
  · intro keeps
    obtain ⟨w, is, same⟩ := keeps 0 rfl
    rw [is, (goal.seen_eq_seen_zero w).mp same]
  · rintro rfl
    exact goal.keeps_refl _

/-- A quotient that is not zero is not kept by zero. -/
theorem Goal.not_keeps_zero (goal : Goal) {v : Nat} (nonzero : v ≠ 0) :
    ¬ goal.Keeps (some v) (some 0) := fun keeps =>
  nonzero ((goal.seen_eq_seen_zero v).mp ((goal.keeps_some v 0).mp keeps).symm)

section Agreement

variable {size : Size} {x m : Nat} (xSmall : x < 2 ^ size.bits) (mSmall : m < 2 ^ size.bits)

include xSmall

/-- Operands of which both readings are the same. -/
theorem keeps_low_iff (goal : Goal) (nonzero : m ≠ 0) (xLow : x < 2 ^ (size.bits - 1))
    (mLow : m < 2 ^ (size.bits - 1)) :
    goal.Keeps (some (x / m)) (quotient size false x m) ↔ SignsAgree goal size x m := by
  have whole := two_pow_bits size
  refine iff_of_true ?_ (Or.inr (Or.inl ⟨xLow, by omega⟩))
  have fits : ¬ Overflows size x m := by
    rintro ⟨-, unit⟩
    rw [signed_of_lt mLow] at unit
    omega
  have inside : x / m < 2 ^ size.bits := Nat.lt_of_le_of_lt (Nat.div_le_self x m) xSmall
  rw [quotient_signed nonzero fits, signed_of_lt xLow, signed_of_lt mLow, ← Int.ofNat_tdiv,
    wrap_natCast, low_of_lt inside]
  exact goal.keeps_refl _

/-- An operand in the upper half and a divisor in the lower one. -/
theorem keeps_apart_iff (goal : Goal) (nonzero : m ≠ 0) (xHigh : 2 ^ (size.bits - 1) ≤ x)
    (mLow : m < 2 ^ (size.bits - 1)) :
    goal.Keeps (some (x / m)) (quotient size false x m) ↔ SignsAgree goal size x m := by
  have whole := two_pow_bits size
  have half := one_lt_half size
  have positive := Nat.pos_of_ne_zero nonzero
  have cast := two_pow_cast size.bits
  have fits : ¬ Overflows size x m := by
    rintro ⟨-, unit⟩
    rw [signed_of_lt mLow] at unit
    omega
  have reached : 1 ≤ x / m := Nat.div_pos (by omega) positive
  obtain ⟨rest, isRest⟩ : ∃ rest, rest + x = 2 ^ size.bits :=
    ⟨2 ^ size.bits - x, Nat.sub_add_cancel (Nat.le_of_lt xSmall)⟩
  have inverse : (signed size x).tdiv (signed size m) = -((rest / m : Nat) : Int) := by
    have opposite : signed size x = -(rest : Int) := by
      rw [signed_of_le xHigh, ← cast, ← isRest]
      omega
    rw [opposite, signed_of_lt mLow, Int.neg_tdiv, Int.ofNat_tdiv]
  have smaller : rest / m ≤ rest := Nat.div_le_self _ _
  have value : wrap size (-((rest / m : Nat) : Int)) =
      if rest / m = 0 then 0 else 2 ^ size.bits - rest / m := by
    generalize rest / m = part at smaller
    unfold wrap
    split_ifs with zero
    · rw [zero]
      simp
    · rw [← Int.add_emod_right, Int.emod_eq_of_lt (by omega) (by omega)]
      omega
  rw [quotient_signed nonzero fits, inverse, value, goal.keeps_some]
  have zeroIff : rest / m = 0 ↔ rest < m := Nat.div_eq_zero_iff_lt positive
  unfold SignsAgree
  by_cases isFlags : goal = .flags
  · rw [if_pos isFlags, isFlags, Goal.seen_flags_eq]
    split_ifs <;> omega
  · have seen : goal.seen = id := by
      cases goal with
      | flags => exact absurd rfl isFlags
      | _ => rfl
    rw [if_neg isFlags, seen, id, id]
    by_cases one : m = 1
    · rw [one, Nat.div_one, Nat.div_one, if_neg (by omega)]
      omega
    · have larger : x / m ≤ x / 2 := Nat.div_le_div_left (by omega) Nat.two_pos
      have halves : rest / m ≤ rest / 2 := Nat.div_le_div_left (by omega) Nat.two_pos
      split_ifs <;> omega

include mSmall

/-- A quotient of zero. -/
theorem keeps_below_iff (goal : Goal) (below : x < m) :
    goal.Keeps (some (x / m)) (quotient size false x m) ↔ SignsAgree goal size x m := by
  have whole := two_pow_bits size
  have half := one_lt_half size
  rw [Nat.div_eq_of_lt below, goal.keeps_zero_iff, quotient_eq_zero_iff xSmall mSmall,
    natAbs_signed xSmall, natAbs_signed mSmall]
  unfold SignsAgree
  by_cases xLow : x < 2 ^ (size.bits - 1)
  · rw [if_pos xLow]
    split_ifs <;> omega
  · rw [if_neg xLow]
    split_ifs <;> omega

/-- A divisor in the upper half, that the operand reaches. -/
theorem keeps_high_iff (goal : Goal) (mHigh : 2 ^ (size.bits - 1) ≤ m) (reached : m ≤ x) :
    goal.Keeps (some (x / m)) (quotient size false x m) ↔ SignsAgree goal size x m := by
  have whole := two_pow_bits size
  have half := one_lt_half size
  have positive : 0 < m := by omega
  by_cases same : x = m
  · refine iff_of_true ?_ (Or.inl same)
    have fits : ¬ Overflows size x m := by
      rintro ⟨least, unit⟩
      rw [same, unit] at least
      have cast := two_pow_cast (size.bits - 1)
      omega
    have nonzero : signed size m ≠ 0 := fun zero =>
      Nat.ne_of_gt positive (signed_eq_zero mSmall zero)
    rw [quotient_signed (Nat.ne_of_gt positive) fits, same, Int.tdiv_self nonzero,
      Nat.div_self positive]
    have one : wrap size 1 = 1 := (wrap_natCast size 1).trans (low_of_lt (one_lt_two_pow_bits size))
    rw [one]
    exact goal.keeps_refl _
  · refine iff_of_false ?_ ?_
    · have zero : quotient size false x m = some 0 := by
        rw [quotient_eq_zero_iff xSmall mSmall, natAbs_signed xSmall, natAbs_signed mSmall,
          if_neg (by omega), if_neg (by omega)]
        omega
      rw [zero]
      exact goal.not_keeps_zero (Nat.ne_of_gt (Nat.div_pos reached positive))
    · unfold SignsAgree
      split_ifs <;> omega

/-- A signed division by a number that does not wrap. -/
theorem keeps_signed_iff (goal : Goal) (nonzero : m ≠ 0) :
    goal.Keeps (some (x / m)) (quotient size false x m) ↔ SignsAgree goal size x m := by
  by_cases below : x < m
  · exact keeps_below_iff xSmall mSmall goal below
  · by_cases mLow : m < 2 ^ (size.bits - 1)
    · by_cases xLow : x < 2 ^ (size.bits - 1)
      · exact keeps_low_iff xSmall goal nonzero xLow mLow
      · exact keeps_apart_iff xSmall goal nonzero (Nat.le_of_not_lt xLow) mLow
    · exact keeps_high_iff xSmall mSmall goal (Nat.le_of_not_lt mLow) (Nat.le_of_not_lt below)

end Agreement

/-- Dividing by a product of unsigned constants is dividing by one and then by the other exactly
where the product does not mislead. -/
theorem keeps_product_iff {size : Size} {x a b : Nat} (xSmall : x < 2 ^ size.bits) (goal : Goal)
    (uns : Bool) :
    goal.Keeps (twice size true x a b) (quotient size uns x (low size (a * b))) ↔
      (a * b ≠ 0 → ¬ ProductMisleads goal size uns x (a * b)) := by
  by_cases zero : a * b = 0
  · rw [twice_zero size true x zero]
    exact iff_of_true (goal.keeps_none _) fun nonzero => absurd zero nonzero
  · rw [twice_unsigned size x zero]
    refine Iff.trans ?_ (Iff.symm (forall_prop_of_true zero))
    unfold ProductMisleads
    by_cases wraps : 2 ^ size.bits ≤ a * b
    · have smaller : x < a * b := Nat.lt_of_lt_of_le xSmall wraps
      have left := low_lt size (a * b)
      rw [if_pos wraps, Nat.div_eq_of_lt smaller, goal.keeps_zero_iff]
      cases uns with
      | false =>
        rw [if_neg Bool.false_ne_true, quotient_eq_zero_iff xSmall left, Nat.not_le]
      | true =>
        rw [if_pos rfl, Nat.not_le]
        by_cases none : low size (a * b) = 0
        · rw [none, quotient_zero]
          exact iff_of_false (fun impossible => nomatch impossible) (Nat.not_lt_zero x)
        · rw [quotient_unsigned size x none, Option.some_inj,
            Nat.div_eq_zero_iff_lt (Nat.pos_of_ne_zero none)]
    · have fits := Nat.lt_of_not_le wraps
      rw [if_neg wraps, low_of_lt fits]
      cases uns with
      | false =>
        rw [keeps_signed_iff xSmall fits goal zero]
        simp only [true_and, not_not]
      | true =>
        rw [quotient_unsigned size x zero]
        exact iff_of_true (goal.keeps_refl _) fun both => nomatch both.1

end LaserD.Cgelem
