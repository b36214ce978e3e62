/-
This file settles what the rewritings of logical operators preserve.

Two bounds of an operand become one unsigned comparison of its distance from the lower
one. That is right but for a strict lower bound that is the largest unsigned value, since
its successor is zero. A chain is always evaluated as before.
-/

import LaserD.Cgelem.Loglog

namespace LaserD.Cgelem

/-! ### Two bounds -/

/-- A constant that is not negative is its value, and is in the signed range of a signed type. -/
theorem constant_of_nonneg {ty : Ty} {c : BitVec 64} (narrow : ty.size ≠ .cent)
    (nonneg : 0 ≤ (elTolong ty c).toInt) :
    low ty.size c.toNat = (elTolong ty c).toNat ∧ (elTolong ty c).toNat < 2 ^ 63 ∧
      (ty.isUnsigned = false → (elTolong ty c).toNat < 2 ^ (ty.size.bits - 1)) := by
  have half : (elTolong ty c).toNat < 2 ^ 63 := by
    rw [BitVec.toInt_eq_toNat_cond] at nonneg
    have bound := (elTolong ty c).isLt
    split_ifs at nonneg <;> omega
  have same : (elTolong ty c).toInt = (elTolong ty c).toNat := by
    rw [BitVec.toInt_eq_toNat_cond, if_pos (by omega)]
  cases sign : ty.isUnsigned with
  | true => exact ⟨(toNat_elTolong c sign narrow).symm, half, fun impossible => by cases impossible⟩
  | false =>
    have signedValue := toInt_elTolong c sign narrow
    have value : low ty.size c.toNat < 2 ^ (ty.size.bits - 1) := by
      by_contra high
      rw [signed_of_le (Nat.le_of_not_lt high)] at signedValue
      have small := low_lt ty.size c.toNat
      have cast := two_pow_cast ty.size.bits
      omega
    rw [signed_of_lt value] at signedValue
    have equal : low ty.size c.toNat = (elTolong ty c).toNat := by omega
    exact ⟨equal, half, fun _ => equal ▸ value⟩

/-- The unsigned comparison of the distance from a lower bound. -/
theorem relation_distance {size : Size} {upper : Relation} (isUpper : upper = .lt ∨ upper = .le)
    {v c1 c2 : Nat} (vSmall : v < 2 ^ size.bits) (ordered : c1 ≤ c2) (small : c2 < 2 ^ size.bits) :
    relation upper size true (wrap size ((v : Int) - (c1 : Nat))) (c2 - c1) =
      (decide (c1 ≤ v) && relation upper size true v c2) := by
  have distance : wrap size ((v : Int) - (c1 : Nat)) =
      if c1 ≤ v then v - c1 else v + 2 ^ size.bits - c1 := by
    have cast := two_pow_cast size.bits
    unfold wrap
    split_ifs with above
    · rw [Int.emod_eq_of_lt (by omega) (by omega)]
      omega
    · rw [← Int.add_emod_right, Int.emod_eq_of_lt (by omega) (by omega)]
      omega
  rw [distance, Bool.eq_iff_iff, Bool.and_eq_true, decide_eq_true_iff]
  rcases isUpper with rfl | rfl
  · show decide (_ < c2 - c1) = true ↔ c1 ≤ v ∧ decide (v < c2) = true
    rw [decide_eq_true_iff, decide_eq_true_iff]
    split_ifs <;> omega
  · show (!decide (c2 - c1 < _)) = true ↔ c1 ≤ v ∧ (!decide (c2 < v)) = true
    rw [Bool.not_eq_true', Bool.not_eq_true', decide_eq_false_iff_not, decide_eq_false_iff_not]
    split_ifs <;> omega

/-- A signed comparison with a constant that is not negative. -/
theorem less_constant {size : Size} {v k : Nat} (vSmall : v < 2 ^ size.bits)
    (kLow : k < 2 ^ (size.bits - 1)) :
    less size false v k = (decide (v < k) || decide (2 ^ (size.bits - 1) ≤ v)) ∧
      less size false k v = (decide (k < v) && decide (v < 2 ^ (size.bits - 1))) := by
  have cast := two_pow_cast size.bits
  rw [less_signed, less_signed, signed_of_lt kLow]
  unfold signed
  constructor
  · rw [Bool.eq_iff_iff, Bool.or_eq_true, decide_eq_true_iff, decide_eq_true_iff,
      decide_eq_true_iff]
    split_ifs <;> omega
  · rw [Bool.eq_iff_iff, Bool.and_eq_true, decide_eq_true_iff, decide_eq_true_iff,
      decide_eq_true_iff]
    split_ifs <;> omega

/-- Signed bounds that are not negative are unsigned ones. -/
theorem bounds_signed {size : Size} {upper : Relation} (isUpper : upper = .lt ∨ upper = .le)
    {v k : Nat} (vSmall : v < 2 ^ size.bits) (kLow : k < 2 ^ (size.bits - 1)) (b : Bool) :
    (b && decide (v < 2 ^ (size.bits - 1)) && relation upper size false v k) =
      (b && relation upper size true v k) := by
  obtain ⟨below, above⟩ := less_constant vSmall kLow
  rcases isUpper with rfl | rfl
  · show (b && decide (v < 2 ^ (size.bits - 1)) && less size false v k) =
      (b && decide (v < k))
    rw [below, Bool.eq_iff_iff]
    simp only [Bool.and_eq_true, Bool.or_eq_true, decide_eq_true_eq]
    constructor
    · rintro ⟨⟨holds, low⟩, less | high⟩
      · exact ⟨holds, less⟩
      · omega
    · rintro ⟨holds, less⟩
      exact ⟨⟨holds, by omega⟩, Or.inl less⟩
  · show (b && decide (v < 2 ^ (size.bits - 1)) && !less size false k v) =
      (b && !decide (k < v))
    rw [above, Bool.eq_iff_iff]
    simp only [Bool.and_eq_true, Bool.not_eq_true', Bool.and_eq_false_iff, decide_eq_true_eq,
      decide_eq_false_iff_not]
    constructor
    · rintro ⟨⟨holds, low⟩, less | high⟩
      · exact ⟨holds, less⟩
      · omega
    · rintro ⟨holds, less⟩
      exact ⟨⟨holds, by omega⟩, Or.inl less⟩

/-- The largest value. -/
theorem low_allOnes {ty : Ty} {c : BitVec 64} (narrow : ty.size ≠ .cent)
    (ones : elTolong ty c = -1) : low ty.size c.toNat = 2 ^ ty.size.bits - 1 := by
  rw [← low_elTolong, ones]
  revert narrow
  cases ty.size <;> decide

/-- A lower bound from a constant, and its strict form from the successor of one. -/
theorem lower_iff {ty : Ty} (narrow : ty.size ≠ .cent) {uns : Bool}
    (unsigned : ty.isUnsigned = true → uns = true) {lower : Relation}
    (isLower : lower = .ge ∨ lower = .gt) {v : Nat} (vSmall : v < 2 ^ ty.size.bits)
    {k1 c1 : BitVec 64}
    (isC1 : c1 = if lower = .gt then elTolong ty k1 + 1 else elTolong ty k1)
    (nonneg : 0 ≤ c1.toInt) :
    (lower = .gt ∧ uns = true ∧ elTolong ty k1 = -1 ∧ c1.toNat = 0 ∧
        relation lower ty.size uns v (low ty.size k1.toNat) = false) ∨
      ¬ (lower = .gt ∧ uns = true ∧ elTolong ty k1 = -1) ∧
        relation lower ty.size uns v (low ty.size k1.toNat) =
          (decide (c1.toNat ≤ v) && (uns || decide (v < 2 ^ (ty.size.bits - 1)))) := by
  have half := two_pow_bits ty.size
  have signedType (isSigned : uns = false) : ty.isUnsigned = false := by
    cases sign : ty.isUnsigned with
    | false => rfl
    | true => exact absurd (unsigned sign) (by rw [isSigned]; decide)
  rcases isLower with rfl | rfl
  · rw [if_neg (by decide)] at isC1
    subst isC1
    obtain ⟨value, -, signedLow⟩ := constant_of_nonneg narrow nonneg
    refine Or.inr ⟨fun ⟨gt, _⟩ => (by cases gt), ?_⟩
    rw [value]
    cases uns with
    | true =>
      show (!decide (v < (elTolong ty k1).toNat)) = _
      rw [Bool.true_or, Bool.and_true, ← decide_not, decide_eq_decide]
      exact Nat.not_lt
    | false =>
      obtain ⟨below, -⟩ := less_constant vSmall (signedLow (signedType rfl))
      show (!less ty.size false v (elTolong ty k1).toNat) = _
      rw [below, Bool.not_or, Bool.false_or, ← decide_not, ← decide_not]
      simp only [Nat.not_lt, Nat.not_le]
  · rw [if_pos rfl] at isC1
    by_cases ones : elTolong ty k1 = -1
    · have zero : c1.toNat = 0 := by
        rw [isC1, ones]
        rfl
      rw [low_allOnes narrow ones]
      cases uns with
      | true =>
        refine Or.inl ⟨rfl, rfl, ones, zero, ?_⟩
        show decide (2 ^ ty.size.bits - 1 < v) = false
        rw [decide_eq_false_iff_not]
        omega
      | false =>
        refine Or.inr ⟨fun ⟨_, impossible, _⟩ => (by cases impossible), ?_⟩
        have cast := two_pow_cast ty.size.bits
        show less ty.size false (2 ^ ty.size.bits - 1) v = _
        have positive := Nat.two_pow_pos (ty.size.bits - 1)
        rw [zero, less_signed, Bool.false_or, decide_eq_true (Nat.zero_le v), Bool.true_and,
          decide_eq_decide]
        unfold signed
        split_ifs <;> omega
    · have notMax : (elTolong ty k1).toNat ≠ 2 ^ 64 - 1 := by
        intro max
        exact ones (BitVec.eq_of_toNat_eq max)
      have successor : c1.toNat = (elTolong ty k1).toNat + 1 := by
        have bound := (elTolong ty k1).isLt
        rw [isC1, BitVec.toNat_add]
        show ((elTolong ty k1).toNat + 1) % 2 ^ 64 = _
        omega
      have nonnegBefore : 0 ≤ (elTolong ty k1).toInt := by
        rw [BitVec.toInt_eq_toNat_cond] at nonneg ⊢
        have bound := c1.isLt
        split_ifs at nonneg ⊢ <;> omega
      obtain ⟨value, -, signedLow⟩ := constant_of_nonneg narrow nonnegBefore
      refine Or.inr ⟨fun ⟨_, _, impossible⟩ => ones impossible, ?_⟩
      rw [value, successor]
      cases uns with
      | true =>
        show decide ((elTolong ty k1).toNat < v) = _
        rw [Bool.true_or, Bool.and_true]
        rfl
      | false =>
        obtain ⟨-, above⟩ := less_constant vSmall (signedLow (signedType rfl))
        show less ty.size false (elTolong ty k1).toNat v = _
        rw [above, Bool.false_or]
        rfl

/-- Two bounds and the unsigned comparison of the distance agree exactly where the lower bound is
not the successor of the largest unsigned value, or the upper bound fails too. -/
theorem bounds_iff {ty : Ty} (narrow : ty.size ≠ .cent) {uns : Bool}
    (unsigned : ty.isUnsigned = true → uns = true) {lower upper : Relation}
    (isLower : lower = .ge ∨ lower = .gt) (isUpper : upper = .lt ∨ upper = .le) {v : Nat}
    (vSmall : v < 2 ^ ty.size.bits) {k1 k2 c1 : BitVec 64}
    (isC1 : c1 = if lower = .gt then elTolong ty k1 + 1 else elTolong ty k1)
    (nonneg : 0 ≤ c1.toInt) (ordered : c1.toInt ≤ (elTolong ty k2).toInt) :
    relation upper ty.size true (wrap ty.size ((v : Int) - (low ty.size c1.toNat : Nat)))
        (low ty.size (elTolong ty k2 - c1).toNat) =
      (relation lower ty.size uns v (low ty.size k1.toNat) &&
        relation upper ty.size uns v (low ty.size k2.toNat)) ↔
    ¬ (lower = .gt ∧ uns = true ∧ elTolong ty k1 = -1 ∧
        relation upper ty.size true v (low ty.size k2.toNat) = true) := by
  obtain ⟨value2, half2, signedLow2⟩ := constant_of_nonneg narrow (Int.le_trans nonneg ordered)
  have ordered : c1.toNat ≤ (elTolong ty k2).toNat := by
    rw [BitVec.toInt_eq_toNat_cond] at nonneg
    rw [BitVec.toInt_eq_toNat_cond, BitVec.toInt_eq_toNat_cond] at ordered
    have bound := c1.isLt
    split_ifs at nonneg ordered <;> omega
  have small2 : (elTolong ty k2).toNat < 2 ^ ty.size.bits := value2 ▸ low_lt _ _
  have distance : low ty.size (elTolong ty k2 - c1).toNat = (elTolong ty k2).toNat - c1.toNat := by
    rw [BitVec.toNat_sub_of_le (BitVec.le_def.mpr ordered)]
    exact low_of_lt (Nat.lt_of_le_of_lt (Nat.sub_le _ _) small2)
  rw [distance, low_of_lt (Nat.lt_of_le_of_lt ordered small2),
    relation_distance isUpper vSmall ordered small2, ← value2]
  rcases lower_iff narrow unsigned isLower vSmall isC1 nonneg with
    ⟨gt, isUns, ones, zero, fails⟩ | ⟨fine, holds⟩
  · rw [fails, zero, decide_eq_true (Nat.zero_le v), Bool.true_and, Bool.false_and]
    constructor
    · rintro isFalse ⟨-, -, -, isTrue⟩
      exact absurd (isFalse.symm.trans isTrue) (by decide)
    · intro notBoth
      exact Bool.eq_false_of_not_eq_true fun isTrue => notBoth ⟨gt, isUns, ones, isTrue⟩
  · refine iff_of_true ?_ fun ⟨gt, isUns, ones, _⟩ => fine ⟨gt, isUns, ones⟩
    rw [holds]
    cases uns with
    | true => rw [Bool.true_or, Bool.and_true]
    | false =>
      have sign : ty.isUnsigned = false := by
        cases sign : ty.isUnsigned with
        | false => rfl
        | true => exact absurd (unsigned sign) (by decide)
      have kLow := signedLow2 sign
      rw [← value2] at kLow
      rw [Bool.false_or, bounds_signed isUpper vSmall kLow]

section Bounds

variable {World : Type} {env : Environment World} {state : State World}

/-- `a > c1 && a < c2`, where `c1` is the largest unsigned value and `a` is below `c2`. -/
def SuccessorWraps (config : Config) (env : Environment World) (state : State World)
    (e1 e2 : Tree) : Prop :=
  config.optimizer = true ∧ ∃ ety1 a ty k1 upper ety2 a' k2 v,
    e1 = .bin (.rel .gt) ety1 a (.const ty k1) ∧ e2 = .bin (.rel upper) ety2 a' (.const ty k2) ∧
      (upper = .lt ∨ upper = .le) ∧ sideEffect a = false ∧ elMatch a a' = true ∧
        a.size = config.regsize ∧ (a.uns || ty.isUnsigned) = true ∧ elTolong ty k1 = -1 ∧
          0 ≤ (elTolong ty k2).toInt ∧ value env state a = some v ∧
            relation upper ty.size true v (low ty.size k2.toNat) = true

/-- Two bounds of an operand without side effects. -/
theorem run_bounds {lower upper : Relation} {Ety ety1 ety2 ty : Ty} {a a' : Tree}
    {k1 k2 : BitVec 64} (alike : Alike env a a') (pure : sideEffect a = false)
    (pure' : sideEffect a' = false) (size : ty.size = a.size) :
    run env (.bin .andand Ety (.bin (.rel lower) ety1 a (.const ty k1))
        (.bin (.rel upper) ety2 a' (.const ty k2))) state =
      (value env state a).map fun v => (ofBool
        (relation lower ty.size (a.uns || ty.isUnsigned) v (low ty.size k1.toNat) &&
          relation upper ty.size (a.uns || ty.isUnsigned) v (low ty.size k2.toNat)), state) := by
  have has : value env state a' = value env state a := by
    unfold value
    rw [alike.runs]
  have firstPure : sideEffect (.bin (.rel lower) ety1 a (.const ty k1)) = false := by
    rw [sideEffect, pure]
    rfl
  have secondPure : sideEffect (.bin (.rel upper) ety2 a' (.const ty k2)) = false := by
    rw [sideEffect, pure']
    rfl
  have split := @run_logical World env false Ety (.bin (.rel lower) ety1 a (.const ty k1))
    (.bin (.rel upper) ety2 a' (.const ty k2)) state
  refine split.trans ?_
  rw [truthRun, run_eq_value firstPure, value_rel pure rfl, value_const, ← size]
  cases hasA : value env state a with
  | none => rfl
  | some v =>
    rw [hasA] at has
    have second : truthRun env (.bin (.rel upper) ety2 a' (.const ty k2)) state =
        some (ofBool (relation upper ty.size (a.uns || ty.isUnsigned) v (low ty.size k2.toNat)),
          state) := by
      rw [truthRun, run_eq_value secondPure, value_rel pure' rfl, value_const, has, ← alike.size,
        ← alike.uns, ← size]
      refine congrArg (fun n => some (n, state)) ?_
      show ofBool (decide (ofBool (relation upper ty.size (a.uns || ty.isUnsigned) v
        (low ty.size k2.toNat)) ≠ 0)) = _
      cases relation upper ty.size (a.uns || ty.isUnsigned) v (low ty.size k2.toNat) <;> rfl
    show (if ofBool (decide (ofBool (relation lower ty.size (a.uns || ty.isUnsigned) v
        (low ty.size k1.toNat)) ≠ 0)) = 0 then some (ofBool (decide (ofBool (relation lower ty.size
          (a.uns || ty.isUnsigned) v (low ty.size k1.toNat)) ≠ 0)), state) else
            truthRun env (.bin (.rel upper) ety2 a' (.const ty k2)) state) =
      some (ofBool (relation lower ty.size (a.uns || ty.isUnsigned) v (low ty.size k1.toNat) &&
        relation upper ty.size (a.uns || ty.isUnsigned) v (low ty.size k2.toNat)), state)
    rw [second]
    cases relation lower ty.size (a.uns || ty.isUnsigned) v (low ty.size k1.toNat) with
    | false => rfl
    | true => rfl

theorem boundsRule_some {config : Config} {Ety : Ty} {e1 e2 t : Tree}
    (hit : boundsRule config Ety e1 e2 = some t) :
    ∃ lower ety1 a ty k1 upper ety2 a' k2 c1, e1 = .bin (.rel lower) ety1 a (.const ty k1) ∧
      e2 = .bin (.rel upper) ety2 a' (.const ty k2) ∧ config.optimizer = true ∧
        (lower = .ge ∨ lower = .gt) ∧ (upper = .lt ∨ upper = .le) ∧ sideEffect a = false ∧
          elMatch a a' = true ∧ a.size = config.regsize ∧
            c1 = (if lower = .gt then elTolong ty k1 + 1 else elTolong ty k1) ∧ 0 ≤ c1.toInt ∧
              c1.toInt ≤ (elTolong ty k2).toInt ∧
                t = .bin (.rel upper) Ety (.bin (.arith .min) a.ty a (.const ty c1))
                  (elLong (touns ty) (elTolong ty k2 - c1)) := by
  unfold boundsRule at hit
  split at hit
  next lower ety1 a ty k1 upper ety2 a' ty2 k2 =>
    rw [ite_eq_iff] at hit
    obtain ⟨⟨optimizer, isLower, isUpper, pure, same, rfl, register⟩, hit⟩ | ⟨-, impossible⟩ := hit
    · dsimp only at hit
      rw [ite_eq_iff] at hit
      obtain ⟨⟨nonneg, ordered⟩, same'⟩ | ⟨-, impossible⟩ := hit
      · have zero : (0#64).toInt = 0 := by decide
        rw [BitVec.sle_iff_toInt_le, zero] at nonneg
        rw [BitVec.sle_iff_toInt_le] at ordered
        exact ⟨lower, ety1, a, ty, k1, upper, ety2, a', k2, _, rfl, rfl, optimizer, isLower,
          isUpper, pure, same, register, rfl, nonneg, ordered, (Option.some.inj same').symm⟩
      · cases impossible
    · cases impossible
  next => cases hit

/-- Two bounds are rewritten to a comparison with the same evaluation exactly where the successor
of the lower bound does not wrap. -/
theorem boundsRule_run_iff {config : Config} {Ety : Ty} {e1 e2 : Tree} (formed₁ : WellFormed e1)
    (formed₂ : WellFormed e2) :
    (∀ t, boundsRule config Ety e1 e2 = some t →
        run env t state = run env (.bin .andand Ety e1 e2) state) ↔
      ¬ SuccessorWraps config env state e1 e2 := by
  cases hit : boundsRule config Ety e1 e2 with
  | none =>
    refine iff_of_true (fun _ impossible => by cases impossible) ?_
    rintro ⟨optimizer, ety1, a, ty, k1, upper, ety2, a', k2, v, rfl, rfl, isUpper, pure, same,
      register, -, ones, nonneg, -, -⟩
    have successor : elTolong ty k1 + 1 = 0 := by
      rw [ones]
      rfl
    have ordered : (0 : BitVec 64).sle (elTolong ty k2) = true := BitVec.sle_iff_toInt_le.mpr nonneg
    unfold boundsRule at hit
    dsimp only at hit
    rw [if_pos ⟨optimizer, Or.inr rfl, isUpper, pure, same, rfl, register⟩, if_pos rfl, successor,
      if_pos ⟨by decide, ordered⟩] at hit
    cases hit
  | some t =>
    obtain ⟨lower, ety1, a, ty, k1, upper, ety2, a', k2, c1, rfl, rfl, optimizer, isLower, isUpper,
      pure, same, register, isC1, nonneg, ordered, rfl⟩ := boundsRule_some hit
    have size : ty.size = a.size := formed₁.2.2.symm
    have narrow : ty.size ≠ .cent := by
      rw [size, register]
      unfold Config.regsize
      cases config.is64 <;> decide
    have alike := @alike_of_elMatch World env a a' same formed₁.1 formed₂.1
    have distancePure : sideEffect (.bin (.arith .min) a.ty a (.const ty c1)) = false := by
      rw [sideEffect, pure]
      rfl
    have newPure : sideEffect (.bin (.rel upper) Ety (.bin (.arith .min) a.ty a (.const ty c1))
        (elLong (touns ty) (elTolong ty k2 - c1))) = false := by
      rw [sideEffect, distancePure]
      rfl
    have pure' : sideEffect a' = false := by
      rw [← pure]
      exact (sideEffect_of_elMatch a a' same).symm
    have new : run env (.bin (.rel upper) Ety (.bin (.arith .min) a.ty a (.const ty c1))
        (elLong (touns ty) (elTolong ty k2 - c1))) state =
        (value env state a).map fun (v : Nat) => (ofBool (relation upper ty.size true
          (wrap ty.size ((v : Int) - (low ty.size c1.toNat : Nat)))
          (low ty.size (elTolong ty k2 - c1).toNat)), state) := by
      have aSize : a.ty.size = ty.size := size.symm
      unfold elLong at newPure ⊢
      rw [run_eq_value newPure, value_rel distancePure rfl, value_arith pure rfl, value_const,
        value_const, aSize, ← size]
      cases value env state a with
      | none => rfl
      | some v =>
        show some (ofBool (relation upper a.ty.size (_ || true) (low ty.size (wrap ty.size _))
          (low ty.size (elTolong ty k2 - c1).toNat)), state) = some (ofBool (relation upper ty.size
            true (wrap ty.size _) (low ty.size (elTolong ty k2 - c1).toNat)), state)
        rw [Bool.or_true, aSize, low_of_lt (wrap_lt _ _)]
    have single (P : Tree → Prop) (t : Tree) : (∀ t', some t = some t' → P t') ↔ P t :=
      ⟨fun all => all t rfl, fun holds t' is => Option.some.inj is ▸ holds⟩
    rw [single fun t' => run env t' state = _, run_bounds alike pure pure' size, new]
    cases has : value env state a with
    | none =>
      refine iff_of_true rfl ?_
      rintro ⟨-, _, _, _, _, _, _, _, _, v, same₁, -, -, -, -, -, -, -, -, is, -⟩
      obtain ⟨-, -, rfl, -⟩ := Tree.bin.inj same₁
      cases has.symm.trans is
    | some v =>
      have vSmall : v < 2 ^ ty.size.bits := size ▸ value_lt has
      have unsigned : ty.isUnsigned = true → (a.uns || ty.isUnsigned) = true :=
        fun is => by rw [is, Bool.or_true]
      have agree := bounds_iff narrow unsigned isLower isUpper vSmall isC1 nonneg ordered
      have injective (b b' : Bool) : ofBool b = ofBool b' ↔ b = b' := by
        cases b <;> cases b' <;> decide
      rw [Option.map_some, Option.map_some, Option.some_inj, Prod.mk.injEq, injective,
        and_iff_left rfl, agree, not_iff_not]
      constructor
      · rintro ⟨rfl, uns, ones, below⟩
        refine ⟨optimizer, ety1, a, ty, k1, upper, ety2, a', k2, v, rfl, rfl, isUpper, pure, same,
          register, uns, ones, Int.le_trans nonneg ordered, has, below⟩
      · rintro ⟨-, _, _, _, _, _, _, _, _, v', same₁, same₂, -, -, -, -, uns, ones, -, is, below⟩
        obtain ⟨relations, -, rfl, constants⟩ := Tree.bin.inj same₁
        obtain ⟨rfl, rfl⟩ := Tree.const.inj constants
        obtain ⟨relations', -, -, constants'⟩ := Tree.bin.inj same₂
        obtain ⟨-, rfl⟩ := Tree.const.inj constants'
        obtain rfl := Binary.rel.inj relations
        obtain rfl := Binary.rel.inj relations'
        obtain rfl := Option.some.inj (has.symm.trans is)
        exact ⟨rfl, uns, ones, below⟩

/-- Both rewritings: a chain is evaluated as before, and so are two bounds exactly where the
successor of the lower one does not wrap. -/
theorem logical_sound_iff (config : Config) (env : Environment World) (state : State World)
    {isOr : Bool} {ty : Ty} {E1 E2 : Tree} (formed : WellFormed (.bin (logical isOr) ty E1 E2))
    (narrow : ∀ eq ∈ opArray (logical isOr) (.bin (logical isOr) ty E1 E2), ∀ x m,
      candidate (logical isOr) eq = some (x, m) → x.size ≠ .cent)
    {Ety : Ty} {e1 e2 : Tree} (formed₁ : WellFormed e1) (formed₂ : WellFormed e2) :
    (∀ t, optimLoglog config (logical isOr) (.bin (logical isOr) ty E1 E2) = some t →
        run env t state = run env (.bin (logical isOr) ty E1 E2) state) ∧
      ((∀ t, boundsRule config Ety e1 e2 = some t →
          run env t state = run env (.bin .andand Ety e1 e2) state) ↔
        ¬ SuccessorWraps config env state e1 e2) :=
  ⟨fun _ rewritten => optimLoglog_run formed narrow rewritten state,
    boundsRule_run_iff formed₁ formed₂⟩

end Bounds

/-- `x == c` -/
def equals (c : BitVec 64) : Tree :=
  .bin (.rel .eqeq) TYbool (.leaf TYint 0) (.const TYint c)

/-- `x == 1 || x == 2 || x == 3 || x == 5`, and `a >= 10 && a < 20`. -/
theorem logical_sound_four :
    (∀ t, optimLoglog { is64 := true, optimizer := true } .oror
        (.bin .oror TYbool (.bin .oror TYbool (.bin .oror TYbool (equals 1) (equals 2)) (equals 3))
          (equals 5)) = some t →
      run onesEnvironment t onesState = run onesEnvironment
        (.bin .oror TYbool (.bin .oror TYbool (.bin .oror TYbool (equals 1) (equals 2)) (equals 3))
          (equals 5)) onesState) ∧
    ((∀ t, boundsRule { is64 := true, optimizer := true } TYbool
        (.bin (.rel .ge) TYbool (.leaf TYllong 0) (.const TYllong 10#64))
        (.bin (.rel .lt) TYbool (.leaf TYllong 0) (.const TYllong 20#64)) = some t →
      run onesEnvironment t onesState = run onesEnvironment (.bin .andand TYbool
        (.bin (.rel .ge) TYbool (.leaf TYllong 0) (.const TYllong 10#64))
        (.bin (.rel .lt) TYbool (.leaf TYllong 0) (.const TYllong 20#64))) onesState) ↔
      ¬ SuccessorWraps { is64 := true, optimizer := true } onesEnvironment onesState
        (.bin (.rel .ge) TYbool (.leaf TYllong 0) (.const TYllong 10#64))
        (.bin (.rel .lt) TYbool (.leaf TYllong 0) (.const TYllong 20#64))) := by
  have comparison (c : BitVec 64) : WellFormed (equals c) := ⟨trivial, trivial, rfl⟩
  have formed : WellFormed (.bin (logical true) TYbool (.bin .oror TYbool
      (.bin .oror TYbool (equals 1) (equals 2)) (equals 3)) (equals 5)) :=
    ⟨⟨⟨comparison 1, comparison 2, trivial⟩, comparison 3, trivial⟩, comparison 5, trivial⟩
  refine logical_sound_iff { is64 := true, optimizer := true } onesEnvironment onesState formed ?_
    ⟨trivial, trivial, rfl⟩ ⟨trivial, trivial, rfl⟩
  intro eq member x m is
  obtain ⟨c, rfl⟩ : ∃ c, eq = equals c := by
    rcases List.mem_cons.mp member with rfl | member
    · exact ⟨1, rfl⟩
    rcases List.mem_cons.mp member with rfl | member
    · exact ⟨2, rfl⟩
    rcases List.mem_cons.mp member with rfl | member
    · exact ⟨3, rfl⟩
    rcases List.mem_cons.mp member with rfl | member
    · exact ⟨5, rfl⟩
    cases member
  obtain ⟨rfl, -⟩ := Prod.mk.inj (Option.some.inj is)
  decide

/-- Memory where every cell is three. -/
def threesState : State Unit := { cells := fun _ => 3, world := () }

/-- `a > 0xFFFFFFFFFFFFFFFF && a < 5` is false, and becomes `a - 0 < 5`. -/
theorem boundsRule_successor_unsound :
    ∃ t, boundsRule { is64 := true, optimizer := true } TYbool
        (.bin (.rel .gt) TYbool (.leaf TYullong 0) (.const TYullong 0xFFFFFFFFFFFFFFFF#64))
        (.bin (.rel .lt) TYbool (.leaf TYullong 0) (.const TYullong 5#64)) = some t ∧
      value onesEnvironment threesState t = some 1 ∧
      value onesEnvironment threesState (.bin .andand TYbool
        (.bin (.rel .gt) TYbool (.leaf TYullong 0) (.const TYullong 0xFFFFFFFFFFFFFFFF#64))
        (.bin (.rel .lt) TYbool (.leaf TYullong 0) (.const TYullong 5#64))) = some 0 := by
  refine ⟨.bin (.rel .lt) TYbool (.bin (.arith .min) TYullong (.leaf TYullong 0)
    (.const TYullong 0#64)) (.const TYullong 5#64), by decide, ?_, ?_⟩
  · simp only [value, run]
    decide
  · simp only [value, run]
    decide

end LaserD.Cgelem
