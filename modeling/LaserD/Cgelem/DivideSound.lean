/-
This file settles what the rewriting of divisions preserves.

A division is compared with the tree it becomes at one state and for one goal. The shifts
and masks, the comparison and the division with remainder are right. Two divisions by
constants become one by the product: the test for its overflow holds for signed constants,
but compares unsigned ones as signed numbers, so that the largest of them pass.
-/

import Mathlib.Algebra.Order.Ring.Abs
import LaserD.Cgelem.Quotient
import LaserD.Cgelem.Truth

namespace LaserD.Cgelem

section Sound

variable {World : Type} {env : Environment World} {state : State World}
variable {Ety ty2 : Ty} {e1 e2 : Tree} {c : BitVec 64}

/-- The second tree gives what the goal sees of the first, where that is defined, and leaves the
same state. -/
def Goal.Preserves (goal : Goal) (env : Environment World) (state : State World)
    (before after : Tree) : Prop :=
  ∀ v final, run env before state = some (v, final) →
    ∃ w, run env after state = some (w, final) ∧ goal.seen w = goal.seen v

theorem Goal.preserves_of_run_eq (goal : Goal) {before after : Tree}
    (same : run env after state = run env before state) : goal.Preserves env state before after :=
  fun v _ runs => ⟨v, same.trans runs, rfl⟩

/-- Trees without side effects are compared by their values. -/
theorem Goal.preserves_iff_keeps (goal : Goal) {before after : Tree}
    (beforePure : sideEffect before = false) (afterPure : sideEffect after = false) :
    goal.Preserves env state before after ↔
      goal.Keeps (Cgelem.value env state before) (Cgelem.value env state after) := by
  unfold Goal.Preserves Goal.Keeps
  rw [run_eq_value beforePure, run_eq_value afterPure]
  constructor
  · intro preserves v has
    rw [has] at preserves
    obtain ⟨w, is, seen⟩ := preserves v state rfl
    obtain ⟨w', has', same⟩ := Option.map_eq_some_iff.mp is
    obtain ⟨rfl, -⟩ := Prod.mk.inj same
    exact ⟨w', has', seen⟩
  · intro keeps v final runs
    obtain ⟨v', has, same⟩ := Option.map_eq_some_iff.mp runs
    obtain ⟨rfl, rfl⟩ := Prod.mk.inj same
    obtain ⟨w, is, seen⟩ := keeps v' has
    exact ⟨w, by rw [is]; rfl, seen⟩

/-! ### A constant on the right -/

theorem run_arith_const (op : Arithmetic) (Ety ty : Ty) (e1 : Tree) (c : BitVec 64)
    (state : State World) :
    run env (.bin (.arith op) Ety e1 (.const ty c)) state =
      (run env e1 state).bind fun first =>
        (arithmetic op e1.size (e1.uns || ty.isUnsigned) first.1 (low ty.size c.toNat)).map
          fun r => (low Ety.size r, first.2) := by
  rw [run]
  cases run env e1 state with
  | none => rfl
  | some first =>
    obtain ⟨x, after⟩ := first
    simp only [run, Option.bind_eq_bind, Option.bind_some]
    show (arithmetic op e1.size (e1.uns || ty.isUnsigned) x (low ty.size c.toNat)).bind _ = _
    cases arithmetic op e1.size (e1.uns || ty.isUnsigned) x (low ty.size c.toNat) <;> rfl

theorem run_arithass_const (op : Arithmetic) (Ety ty : Ty) (e1 : Tree) (c : BitVec 64)
    (state : State World) :
    run env (.bin (.arithass op) Ety e1 (.const ty c)) state =
      (place env e1 state).bind fun first =>
        (arithmetic op e1.size (e1.uns || ty.isUnsigned) (fetch e1 first.1 first.2)
          (low ty.size c.toNat)).map fun r => assign Ety e1 first.1 r first.2 := by
  rw [run]
  cases place env e1 state with
  | none => rfl
  | some first =>
    obtain ⟨address, after⟩ := first
    simp only [run, Option.bind_eq_bind, Option.bind_some]
    show (arithmetic op e1.size (e1.uns || ty.isUnsigned) (fetch e1 address after)
      (low ty.size c.toNat)).bind _ = _
    cases arithmetic op e1.size (e1.uns || ty.isUnsigned) (fetch e1 address after)
      (low ty.size c.toNat) <;> rfl

theorem place_setTy (Ety : Ty) (e : Tree) (state : State World) :
    place env (e.setTy Ety) state = place env e state := by
  cases e with
  | una op ty E1 => cases op <;> simp only [Tree.setTy, place]
  | bin op ty E1 E2 => cases op <;> simp only [Tree.setTy, place]
  | _ => simp only [Tree.setTy, place]

theorem size_setTy {Ety : Ty} {e : Tree} (same : Ety.size = e.size) :
    (e.setTy Ety).size = e.size := by
  unfold Tree.size
  rw [Tree.ty_setTy]
  exact same

theorem fetch_setTy {Ety : Ty} {e : Tree} (same : Ety.size = e.size) (address : Nat)
    (state : State World) : fetch (e.setTy Ety) address state = fetch e address state := by
  replace same : Ety.size = e.ty.size := same
  cases e with
  | bin op ty E1 E2 =>
    rw [Tree.ty] at same
    cases op
    case bit => cases E2 <;> simp only [Tree.setTy, fetch, Tree.size, Tree.ty, same]
    all_goals simp only [Tree.setTy, fetch, Tree.size, Tree.ty, same]
  | _ =>
    rw [Tree.ty] at same
    simp only [Tree.setTy, fetch, Tree.size, Tree.ty, same]

theorem store_setTy {Ety : Ty} {e : Tree} (same : Ety.size = e.size) (address x : Nat)
    (state : State World) : store (e.setTy Ety) address x state = store e address x state := by
  replace same : Ety.size = e.ty.size := same
  cases e with
  | bin op ty E1 E2 =>
    rw [Tree.ty] at same
    cases op
    case bit => cases E2 <;> simp only [Tree.setTy, store, Tree.size, Tree.ty, same]
    all_goals simp only [Tree.setTy, store, Tree.size, Tree.ty, same]
  | _ =>
    rw [Tree.ty] at same
    simp only [Tree.setTy, store, Tree.size, Tree.ty, same]

theorem assign_setTy {Ety : Ty} {e : Tree} (same : Ety.size = e.size) (ty : Ty) (address x : Nat)
    (state : State World) :
    assign ty (e.setTy Ety) address x state = assign ty e address x state := by
  simp only [assign, store_setTy same, fetch_setTy same]

/-! ### Powers of two -/

theorem ispow2_eq_some {i : Nat} (power : ispow2 c = some i) : c.toNat = 2 ^ i := by
  unfold ispow2 at power
  split_ifs at power with other
  obtain ⟨nonzero, single⟩ := not_or.mp other
  have positive : c.toNat ≠ 0 := fun zero => nonzero (BitVec.eq_of_toNat_eq zero)
  have single : c.toNat &&& (c.toNat - 1) = 0 := by
    have bits := congrArg BitVec.toNat (not_ne_iff.mp single)
    have one : (c - 1).toNat = c.toNat - 1 :=
      BitVec.toNat_sub_of_le (BitVec.le_def.mpr (Nat.one_le_iff_ne_zero.mpr positive))
    rw [BitVec.toNat_and, one] at bits
    exact bits
  obtain ⟨exponent, isPower⟩ := (Nat.and_sub_one_eq_zero_iff_isPowerOfTwo positive).mp single
  rw [isPower, Nat.log2_two_pow] at power
  rw [isPower, Option.some.inj power]

/-- Two operators with constants that do the same to every left operand. -/
theorem run_arith_congr {op op' : Arithmetic} {e1' : Tree} {ty ty' : Ty} {c c' : BitVec 64}
    (first : run env e1' state = run env e1 state)
    (same : ∀ x, arithmetic op' e1'.size (e1'.uns || ty'.isUnsigned) x (low ty'.size c'.toNat) =
      arithmetic op e1.size (e1.uns || ty.isUnsigned) x (low ty.size c.toNat)) :
    run env (.bin (.arith op') Ety e1' (.const ty' c')) state =
      run env (.bin (.arith op) Ety e1 (.const ty c)) state := by
  rw [run_arith_const, run_arith_const, first]
  simp only [same]

theorem run_arithass_congr {op op' : Arithmetic} {ty ty' : Ty} {c c' : BitVec 64} {sign : Ty}
    (size : sign.size = e1.size)
    (same : ∀ x, arithmetic op' e1.size (sign.isUnsigned || ty'.isUnsigned) x
        (low ty'.size c'.toNat) =
      arithmetic op e1.size (e1.uns || ty.isUnsigned) x (low ty.size c.toNat)) :
    run env (.bin (.arithass op') Ety (e1.setTy sign) (.const ty' c')) state =
      run env (.bin (.arithass op) Ety e1 (.const ty c)) state := by
  have uns : (e1.setTy sign).uns = sign.isUnsigned := congrArg Ty.isUnsigned (Tree.ty_setTy sign e1)
  rw [run_arithass_const, run_arithass_const, place_setTy, size_setTy size, uns]
  simp only [fetch_setTy size, assign_setTy size, same]

/-- An unsigned division by a power of two is a shift. -/
theorem arithmetic_shr {size : Size} {i : Nat} (inside : i < size.bits) (uns : Bool) (x : Nat) :
    arithmetic .shr size uns x i = arithmetic .div size true x (2 ^ i) := by
  show (if i < size.bits then some (x >>> i) else none) = quotient size true x (2 ^ i)
  rw [if_pos inside, quotient_unsigned size x (Nat.ne_of_gt (Nat.two_pow_pos i)),
    Nat.shiftRight_eq_div_pow]

/-- An unsigned remainder by a power of two is a mask. -/
theorem arithmetic_and (size : Size) (i : Nat) (uns : Bool) (x : Nat) :
    arithmetic .and size uns x (2 ^ i - 1) = arithmetic .mod size true x (2 ^ i) := by
  show some (x &&& 2 ^ i - 1) = remainder size true x (2 ^ i)
  unfold remainder
  rw [if_neg (Nat.ne_of_gt (Nat.two_pow_pos i)), if_pos rfl, Nat.and_two_pow_sub_one_eq_mod]

/-- `powerRule` computes the same. -/
theorem run_powerRule {Eoper : Binary} {i : Nat} (division : Eoper.isDivision = true)
    (uns : ty2.isUnsigned = true) (sizes : ty2.size = e1.size) (narrow : e1.size ≠ .cent)
    (power : ispow2 (elTolong ty2 c) = some i) :
    run env (powerRule Eoper Ety e1 ty2 c i) state =
      run env (.bin Eoper Ety e1 (.const ty2 c)) state := by
  have extended := toNat_elTolong c uns (sizes ▸ narrow)
  have divisor : low ty2.size c.toNat = 2 ^ i := by
    rw [← extended]
    exact ispow2_eq_some power
  have inside : i < e1.size.bits := by
    have small := low_lt ty2.size c.toNat
    rw [divisor, sizes] at small
    exact (Nat.pow_lt_pow_iff_right (by decide)).mp small
  have count : low TYint.size (setVuns c (BitVec.ofNat 32 i)).toNat = i := by
    have small : i < 2 ^ 32 :=
      Nat.lt_trans inside (by cases e1.size <;> decide)
    rw [show low TYint.size = low .long from rfl, low_long_eq, Vuns_setVuns, BitVec.toNat_ofNat,
      Nat.mod_eq_of_lt small]
  have mask : low ty2.size (elTolong ty2 c - 1).toNat = 2 ^ i - 1 := by
    have one : (1 : BitVec 64) ≤ elTolong ty2 c := by
      rw [BitVec.le_def, ispow2_eq_some power]
      exact Nat.one_le_two_pow
    rw [BitVec.toNat_sub_of_le one, ispow2_eq_some power]
    have small := low_lt ty2.size c.toNat
    rw [divisor] at small
    exact low_of_lt (Nat.lt_of_le_of_lt (Nat.sub_le _ _) small)
  have shifts (sign : Bool) (x : Nat) :
      arithmetic .shr e1.size sign x (low TYint.size (setVuns c (BitVec.ofNat 32 i)).toNat) =
        arithmetic .div e1.size (e1.uns || ty2.isUnsigned) x (low ty2.size c.toNat) := by
    rw [count, divisor, uns, Bool.or_true]
    exact arithmetic_shr inside sign x
  have masks (sign : Bool) (x : Nat) :
      arithmetic .and e1.size sign x (low ty2.size (elTolong ty2 c - 1).toNat) =
        arithmetic .mod e1.size (e1.uns || ty2.isUnsigned) x (low ty2.size c.toNat) := by
    rw [mask, divisor, uns, Bool.or_true]
    exact arithmetic_and e1.size i sign x
  have same : (touns e1.ty).size = e1.size := rfl
  unfold powerRule
  dsimp only
  split
  · refine run_arith_congr (run_setTy same state) fun x => ?_
    rw [size_setTy same]
    exact shifts _ x
  · exact run_arithass_congr same (shifts _)
  · exact run_arith_congr rfl (masks _)
  · have plain : e1.setTy e1.ty = e1 := by cases e1 <;> rfl
    have assigns := @run_arithass_congr World env state Ety e1 .mod .and ty2 ty2 c
      (elTolong ty2 c - 1) e1.ty rfl (masks _)
    rwa [plain] at assigns
  · rfl

/-! ### Two divisions -/

theorem quotient_lt {size : Size} {uns : Bool} {x y q : Nat} (small : x < 2 ^ size.bits)
    (is : quotient size uns x y = some q) : q < 2 ^ size.bits := by
  unfold quotient at is
  split_ifs at is
  · rw [← Option.some.inj is]
    exact Nat.lt_of_le_of_lt (Nat.div_le_self x y) small
  · rw [← Option.some.inj is]
    exact wrap_lt _ _

theorem quotient_low {size : Size} {x : Nat} (small : x < 2 ^ size.bits) (uns : Bool) (y : Nat) :
    (quotient size uns x y).map (low size) = quotient size uns x y := by
  cases is : quotient size uns x y with
  | none => rfl
  | some q => exact congrArg some (low_of_lt (quotient_lt small is))

theorem remainder_lt {size : Size} {uns : Bool} {x y r : Nat} (small : x < 2 ^ size.bits)
    (is : remainder size uns x y = some r) : r < 2 ^ size.bits := by
  unfold remainder at is
  split_ifs at is
  · rw [← Option.some.inj is]
    exact Nat.lt_of_le_of_lt (Nat.mod_le x y) small
  · rw [← Option.some.inj is]
    exact wrap_lt _ _

/-- A quotient and a remainder are defined together. -/
theorem quotientRemainder_eq (size : Size) (uns : Bool) (x y : Nat) :
    (quotientRemainder size uns x y = none ∧ quotient size uns x y = none ∧
      remainder size uns x y = none) ∨
    ∃ q r, quotientRemainder size uns x y = some (q + r * 2 ^ size.bits) ∧
      quotient size uns x y = some q ∧ remainder size uns x y = some r := by
  unfold quotientRemainder quotient remainder
  split_ifs
  · exact Or.inl ⟨rfl, rfl, rfl⟩
  · exact Or.inr ⟨_, _, rfl, rfl, rfl⟩
  · exact Or.inl ⟨rfl, rfl, rfl⟩
  · exact Or.inr ⟨_, _, rfl, rfl, rfl⟩

/-- The value of a division without side effects. -/
theorem value_div (pure₁ : sideEffect e1 = false) (pure₂ : sideEffect e2 = false)
    (size : Ety.size = e1.size) :
    value env state (.bin (.arith .div) Ety e1 e2) =
      (value env state e1).bind fun x => (value env state e2).bind fun y =>
        quotient e1.size (e1.uns || e2.uns) x y := by
  rw [value_arith pure₁ pure₂, size]
  cases has : value env state e1 with
  | none => rfl
  | some x =>
    show ((value env state e2).bind fun y => (quotient e1.size _ x y).map (low e1.size)) = _
    simp only [quotient_low (value_lt has)]
    rfl

/-- The inner quotient of the two forms of the rule for two divisions. -/
def InnerQuotient (e1 : Tree) (ty1 : Ty) (e : Tree) (ty12 : Ty) (c1 : BitVec 64) : Prop :=
  e1 = .bin (.arith .div) ty1 e (.const ty12 c1) ∨
    ∃ wide, e1 = .una .of64_32 ty1 (.bin .remquo wide e (.const ty12 c1))

/-- Both forms have the value of the quotient. -/
theorem value_innerQuotient {ty1 ty12 : Ty} {e : Tree} {c1 : BitVec 64}
    (inner : InnerQuotient e1 ty1 e ty12 c1) (formed : WellFormed e1)
    (pure : sideEffect e1 = false) :
    sideEffect e = false ∧ e1.ty = ty1 ∧ e.size = ty1.size ∧ ty12.size = ty1.size ∧
      value env state e1 = (value env state e).bind fun x =>
        quotient ty1.size (e.uns || ty12.isUnsigned) x (low ty1.size c1.toNat) := by
  rcases inner with rfl | ⟨wide, rfl⟩
  · obtain ⟨-, -, left, right⟩ := formed
    have left : e.size = ty1.size := left
    have right : ty12.size = ty1.size := right rfl
    have ePure : sideEffect e = false := by
      rw [sideEffect, sideEffect, Bool.or_false] at pure
      exact (Bool.or_eq_false_iff.mp pure).2
    refine ⟨ePure, rfl, left, right, ?_⟩
    rw [value_div ePure rfl left.symm]
    simp only [value_const, Option.bind_some, left, right]
    rfl
  · obtain ⟨⟨-, -, both, double⟩, wideSize, narrow⟩ := formed
    have both : e.size = ty12.size := both
    have double : wide.size.bits = 2 * e.size.bits := double
    have wideSize : wide.size = .llong := wideSize
    have left : e.size = ty1.size := by
      rw [narrow]
      rw [wideSize] at double
      revert double
      cases e.size <;> decide
    have ePure : sideEffect e = false := by
      rw [sideEffect, sideEffect, sideEffect, Bool.or_false] at pure
      exact (Bool.or_eq_false_iff.mp pure).2
    refine ⟨ePure, rfl, left, both.symm.trans left, ?_⟩
    have pairPure : sideEffect (.bin .remquo wide e (.const ty12 c1)) = false := pure
    rw [value_una pairPure, value_remquo ePure rfl]
    simp only [value_const, Option.bind_some]
    cases has : value env state e with
    | none => rfl
    | some x =>
      have small := value_lt has
      show ((quotientRemainder e.size (e.uns || ty12.isUnsigned) x (low ty12.size c1.toNat)).map
        (low wide.size)).map (fun v => low ty1.size v) =
          quotient ty1.size (e.uns || ty12.isUnsigned) x (low ty1.size c1.toNat)
      rw [← both, left, wideSize]
      rw [left] at small
      rcases quotientRemainder_eq ty1.size (e.uns || ty12.isUnsigned) x (low ty1.size c1.toNat) with
        ⟨undefined, quotientUndefined, -⟩ | ⟨q, r, is, isQuotient, -⟩
      · rw [undefined, quotientUndefined]
        rfl
      · rw [is, isQuotient]
        refine congrArg some ?_
        have lower := @low_narrower ty1.size .llong (by rw [narrow]; decide)
          (q + r * 2 ^ ty1.size.bits)
        show low ty1.size (low .llong (q + r * 2 ^ ty1.size.bits)) = q
        rw [lower]
        unfold low
        rw [Nat.add_mul_mod_self_right]
        exact Nat.mod_eq_of_lt (quotient_lt small isQuotient)

/-- The product of two signed constants within the bounds. -/
theorem product_bounds {size : Size} (word : size = .long ∨ size = .llong) {c1 c2 : BitVec 64}
    (within : withinRoot false c1 c2 = true) :
    -2 ^ (size.bits - 1) ≤ c1.toInt * c2.toInt ∧ c1.toInt * c2.toInt < 2 ^ (size.bits - 1) := by
  have root {c : BitVec 64} (low : (-SQRT_INT_MAX).slt c = true)
      (high : c.slt SQRT_INT_MAX = true) : |c.toInt| ≤ 46339 := by
    have below := BitVec.slt_iff_toInt_lt.mp low
    have above := BitVec.slt_iff_toInt_lt.mp high
    rw [show (-SQRT_INT_MAX).toInt = -46340 by decide] at below
    rw [show SQRT_INT_MAX.toInt = 46340 by decide] at above
    rw [abs_le]
    omega
  unfold withinRoot at within
  simp only [Bool.false_eq_true, if_false, Bool.and_eq_true] at within
  obtain ⟨⟨⟨first, second⟩, third⟩, fourth⟩ := within
  have bound : |c1.toInt * c2.toInt| ≤ 46339 * 46339 := by
    rw [abs_mul]
    exact mul_le_mul (root first second) (root third fourth) (abs_nonneg _) (by decide)
  have range : (46339 * 46339 : Int) < 2 ^ (size.bits - 1) := by
    rcases word with rfl | rfl <;> decide
  obtain ⟨low, high⟩ := abs_le.mp bound
  omega

/-- Where two unsigned constants mislead the rule for two divisions: they pass its test for the
overflow, the operand has a value, and their product misleads the division of that value. -/
def DivisorsMislead (goal : Goal) (env : Environment World) (state : State World) (Eoper : Binary)
    (e1 : Tree) (ty2 : Ty) (c2 : BitVec 64) : Prop :=
  Eoper = .arith .div ∧ ∃ ty1 e ty12 c1 x, InnerQuotient e1 ty1 e ty12 c1 ∧
    (e.uns || ty12.isUnsigned) = true ∧ (ty1.isUnsigned || ty2.isUnsigned) = true ∧
      withinRoot true (elTolong ty12 c1) (elTolong ty2 c2) = true ∧
        value env state e = some x ∧
          low ty12.size c1.toNat * low ty2.size c2.toNat ≠ 0 ∧
            ProductMisleads goal e.size (e.uns || ty1.isUnsigned) x
              (low ty12.size c1.toNat * low ty2.size c2.toNat)

theorem InnerQuotient.unique {ty1 ty1' ty12 ty12' : Ty} {e e' : Tree} {c1 c1' : BitVec 64}
    (inner : InnerQuotient e1 ty1 e ty12 c1) (other : InnerQuotient e1 ty1' e' ty12' c1') :
    ty1' = ty1 ∧ e' = e ∧ ty12' = ty12 ∧ c1' = c1 := by
  rcases inner with rfl | ⟨wide, rfl⟩
  · rcases other with same | ⟨_, same⟩
    · obtain ⟨-, rfl, rfl, constants⟩ := Tree.bin.inj same
      obtain ⟨rfl, rfl⟩ := Tree.const.inj constants
      exact ⟨rfl, rfl, rfl, rfl⟩
    · cases same
  · rcases other with same | ⟨_, same⟩
    · cases same
    · obtain ⟨-, rfl, pairs⟩ := Tree.una.inj same
      obtain ⟨-, rfl, rfl, constants⟩ := Tree.bin.inj pairs
      obtain ⟨rfl, rfl⟩ := Tree.const.inj constants
      exact ⟨rfl, rfl, rfl, rfl⟩

/-- Two divisions by constants become one by the product, with the same value exactly where the
constants do not mislead. -/
theorem merge_preserves_iff {goal : Goal} {ty1 ty12 : Ty} {e t : Tree} {c1 c2 : BitVec 64}
    (inner : InnerQuotient e1 ty1 e ty12 c1) (formed : WellFormed e1)
    (pure : sideEffect e1 = false) (size : Ety.size = e1.size) (sizes : ty2.size = e1.size)
    (word : Ety.size = .long ∨ Ety.size = .llong)
    (merges : merge Ety ty1 e ty12 c1 ty2 c2 = some t) :
    goal.Preserves env state (.bin (.arith .div) Ety e1 (.const ty2 c2)) t ↔
      ¬ DivisorsMislead goal env state (.arith .div) e1 ty2 c2 := by
  obtain ⟨ePure, root, left, right, innerValue⟩ :=
    @value_innerQuotient World env state e1 ty1 ty12 e c1 inner formed pure
  have e1Size : e1.size = ty1.size := congrArg Ty.size root
  have e1Uns : e1.uns = ty1.isUnsigned := congrArg Ty.isUnsigned root
  rw [e1Size] at size sizes
  unfold merge at merges
  dsimp only at merges
  split_ifs at merges with applies
  obtain rfl := Option.some.inj merges
  obtain ⟨signs, within⟩ := applies
  have product : value env state (.bin (.arith .mul) ty1 (.const ty12 c1) (.const ty2 c2)) =
      some (low ty1.size (low ty1.size c1.toNat * low ty1.size c2.toNat)) := by
    rw [value_arith rfl rfl, value_const, value_const, right, sizes]
    show some (low ty1.size (low ty12.size _)) = _
    rw [right, low_low]
  have newValue : value env state
      (.bin (.arith .div) Ety e (.bin (.arith .mul) ty1 (.const ty12 c1) (.const ty2 c2))) =
      (value env state e).bind fun x => quotient ty1.size (e.uns || ty1.isUnsigned) x
        (low ty1.size (low ty1.size c1.toNat * low ty1.size c2.toNat)) := by
    rw [value_div ePure rfl (size.trans left.symm), product, left]
    rfl
  have oldValue : value env state (.bin (.arith .div) Ety e1 (.const ty2 c2)) =
      (value env state e).bind fun x =>
        twice ty1.size (e.uns || ty12.isUnsigned) x (low ty1.size c1.toNat)
          (low ty1.size c2.toNat) := by
    rw [value_div pure rfl (size.trans e1Size.symm), innerValue, value_const, e1Size, sizes, e1Uns]
    show (Option.bind (Option.bind _ _) fun x =>
      quotient ty1.size (ty1.isUnsigned || ty2.isUnsigned) x _) = _
    rw [← signs, Option.bind_assoc]
    rfl
  have oldPure : sideEffect (.bin (.arith .div) Ety e1 (.const ty2 c2)) = false := by
    rw [sideEffect, pure]
    rfl
  have newPure : sideEffect (.bin (.arith .div) Ety e
      (.bin (.arith .mul) ty1 (.const ty12 c1) (.const ty2 c2))) = false := by
    rw [sideEffect, ePure]
    rfl
  rw [goal.preserves_iff_keeps oldPure newPure, newValue, oldValue]
  unfold DivisorsMislead
  rw [sizes]
  cases has : value env state e with
  | none =>
    refine iff_of_true (goal.keeps_none _) ?_
    rintro ⟨-, _, _, _, _, x, other, -, -, -, is, -⟩
    obtain ⟨-, rfl, -, -⟩ := inner.unique other
    cases has.symm.trans is
  | some x =>
    have xSmall := value_lt has
    rw [left] at xSmall
    show goal.Keeps (twice _ _ x _ _) (quotient _ _ x _) ↔ _
    cases uns : e.uns || ty12.isUnsigned with
    | true =>
      rw [uns] at within signs
      rw [keeps_product_iff xSmall goal]
      constructor
      · rintro keeps ⟨-, _, _, _, _, x', other, -, -, -, is, nonzero, misleads⟩
        obtain ⟨rfl, rfl, rfl, rfl⟩ := inner.unique other
        obtain rfl := Option.some.inj (has.symm.trans is)
        rw [right] at nonzero misleads
        rw [left] at misleads
        exact keeps nonzero misleads
      · intro fine nonzero misleads
        refine fine ⟨rfl, ty1, e, ty12, c1, x, inner, uns, signs.symm, within, has, ?_⟩
        rw [right, left]
        exact ⟨nonzero, misleads⟩
    | false =>
      rw [uns] at within signs
      have word : ty1.size = .long ∨ ty1.size = .llong := by rwa [size] at word
      have narrow : ty1.size ≠ .cent := by rcases word with is | is <;> rw [is] <;> decide
      obtain ⟨eSigned, c1Signed⟩ := Bool.or_eq_false_iff.mp uns
      obtain ⟨ty1Signed, c2Signed⟩ := Bool.or_eq_false_iff.mp signs.symm
      have bounds := product_bounds word within
      rw [toInt_elTolong c1 c1Signed (right ▸ narrow), toInt_elTolong c2 c2Signed (sizes ▸ narrow),
        right, sizes] at bounds
      rw [eSigned, ty1Signed]
      refine iff_of_true (fun v defined => ⟨v, ?_, rfl⟩) ?_
      · exact twice_signed xSmall (low_lt _ _) (low_lt _ _) bounds.1 bounds.2 defined
      · rintro ⟨-, _, _, _, _, _, other, unsigned, -⟩
        obtain ⟨-, rfl, rfl, -⟩ := inner.unique other
        cases uns.symm.trans unsigned

theorem divideRule_some {Eoper : Binary} {t : Tree} (hit : divideRule Eoper Ety e1 e2 = some t) :
    Eoper = .arith .div ∧ ∃ ty1 e ty12 c1 ty2 c2, e2 = .const ty2 c2 ∧
      InnerQuotient e1 ty1 e ty12 c1 ∧ merge Ety ty1 e ty12 c1 ty2 c2 = some t := by
  unfold divideRule at hit
  split at hit
  · exact ⟨rfl, _, _, _, _, _, _, rfl, Or.inl rfl, hit⟩
  · exact ⟨rfl, _, _, _, _, _, _, rfl, Or.inr ⟨_, rfl⟩, hit⟩
  · cases hit

/-- Constants that mislead the rule are constants to which it applies. -/
theorem not_misleads_of_divideRule {goal : Goal} {Eoper : Binary}
    (missed : divideRule Eoper Ety e1 (.const ty2 c) = none) :
    ¬ DivisorsMislead goal env state Eoper e1 ty2 c := by
  rintro ⟨rfl, ty1, e, ty12, c1, _, inner, first, second, within, -⟩
  have hit : divideRule (.arith .div) Ety e1 (.const ty2 c) =
      merge Ety ty1 e ty12 c1 ty2 c := by
    rcases inner with rfl | ⟨_, rfl⟩
    · rfl
    · rfl
  rw [hit] at missed
  unfold merge at missed
  dsimp only at missed
  rw [first, second, if_pos ⟨rfl, within⟩] at missed
  cases missed

/-! ### The other rules of the optimiser -/

/-- Whether an unsigned quotient is zero is a comparison. -/
theorem flagsRule_preserves {goal : Goal} {Eoper : Binary} {t : Tree}
    (formed : WellFormed (.bin Eoper Ety e1 e2)) (pure₁ : sideEffect e1 = false)
    (pure₂ : sideEffect e2 = false) (hit : flagsRule goal Eoper e1 e2 = some t) :
    goal.Preserves env state (.bin Eoper Ety e1 e2) t := by
  unfold flagsRule at hit
  split_ifs at hit with applies
  obtain ⟨rfl, uns, rfl⟩ := applies
  obtain rfl := Option.some.inj hit
  have size : Ety.size = e1.size := formed.2.2.1.symm
  have oldPure : sideEffect (.bin (.arith .div) Ety e1 e2) = false := by
    rw [sideEffect, pure₁, pure₂]
    rfl
  have newPure : sideEffect (.bin (.rel .ge) TYbool e1 e2) = false := by
    rw [sideEffect, pure₁, pure₂]
    rfl
  rw [Goal.preserves_iff_keeps .flags oldPure newPure, value_div pure₁ pure₂ size,
    value_rel pure₁ pure₂, uns]
  cases value env state e1 with
  | none => exact Goal.keeps_none _ _
  | some x =>
    cases value env state e2 with
    | none => exact Goal.keeps_none _ _
    | some y =>
      show Goal.flags.Keeps (quotient e1.size true x y)
        (some (ofBool (relation .ge e1.size true x y)))
      by_cases zero : y = 0
      · rw [zero, quotient_zero]
        exact Goal.keeps_none _ _
      · rw [quotient_unsigned _ _ zero, Goal.keeps_some, Goal.seen_flags_eq, ofBool_eq_zero,
          Nat.div_eq_zero_iff_lt (Nat.pos_of_ne_zero zero)]
        show (!decide (x < y)) = false ↔ x < y
        rw [Bool.not_eq_false', decide_eq_true_iff]

/-- A part of the quotient and remainder, taken by an operator of one operand. -/
theorem value_part {wide : Ty} (op : Arithmetic) {part : Unary} (pure₁ : sideEffect e1 = false)
    (pure₂ : sideEffect e2 = false) (size : Ety.size = e1.size)
    (isWide : wide.size.bits = 2 * e1.size.bits)
    (selects : ∀ q r uns x y, q < 2 ^ e1.size.bits → r < 2 ^ e1.size.bits →
      quotient e1.size uns x y = some q → remainder e1.size uns x y = some r →
        arithmetic op e1.size uns x y =
          some (unary part e1.size wide.size (q + r * 2 ^ e1.size.bits) state % 2 ^ e1.size.bits))
    (undefined : ∀ uns x y, quotient e1.size uns x y = none → remainder e1.size uns x y = none →
      arithmetic op e1.size uns x y = none) :
    value env state (.una part e1.ty (.bin .remquo wide e1 e2)) =
      value env state (.bin (.arith op) Ety e1 e2) := by
  have pairPure : sideEffect (.bin .remquo wide e1 e2) = false := by
    rw [sideEffect, pure₁, pure₂]
    rfl
  rw [value_una pairPure, value_remquo pure₁ pure₂, value_arith pure₁ pure₂, size]
  cases has : value env state e1 with
  | none => rfl
  | some x =>
    cases value env state e2 with
    | none => rfl
    | some y =>
      have xSmall := value_lt has
      show ((quotientRemainder e1.size (e1.uns || e2.uns) x y).map (low wide.size)).map
          (fun v => low e1.size (unary part e1.size wide.size v state)) =
        (arithmetic op e1.size (e1.uns || e2.uns) x y).map (low e1.size)
      rcases quotientRemainder_eq e1.size (e1.uns || e2.uns) x y with
        ⟨pairNone, quotientNone, remainderNone⟩ | ⟨q, r, pair, isQuotient, isRemainder⟩
      · rw [pairNone, undefined _ x y quotientNone remainderNone]
        rfl
      · have qSmall := quotient_lt xSmall isQuotient
        have rSmall := remainder_lt xSmall isRemainder
        have fits : q + r * 2 ^ e1.size.bits < 2 ^ wide.size.bits := by
          rw [isWide, Nat.two_mul, Nat.pow_add]
          calc q + r * 2 ^ e1.size.bits < 2 ^ e1.size.bits + r * 2 ^ e1.size.bits := by omega
            _ = (r + 1) * 2 ^ e1.size.bits := by rw [Nat.add_mul, Nat.one_mul, Nat.add_comm]
            _ ≤ 2 ^ e1.size.bits * 2 ^ e1.size.bits := Nat.mul_le_mul_right _ rSmall
        rw [pair, selects q r _ x y qSmall rSmall isQuotient isRemainder]
        refine congrArg some ?_
        show low e1.size (unary part e1.size wide.size (low wide.size _) state) =
          low e1.size (low e1.size _)
        rw [low_of_lt fits, low_low]

/-- The parts of a quotient and remainder are the quotient and the remainder. -/
theorem remquoRule_preserves {config : Config} {goal : Goal} {Eoper : Binary} {t : Tree}
    (formed : WellFormed (.bin Eoper Ety e1 e2)) (pure₁ : sideEffect e1 = false)
    (pure₂ : sideEffect e2 = false) (hit : remquoRule config Eoper e1 e2 = some t) :
    goal.Preserves env state (.bin Eoper Ety e1 e2) t := by
  unfold remquoRule at hit
  dsimp only at hit
  rw [ite_eq_iff] at hit
  obtain ⟨⟨register, -⟩, hit⟩ | ⟨-, hit⟩ := hit
  · have isWide : (if config.is64 then TYcent else TYllong).size.bits = 2 * e1.size.bits := by
      rw [register]
      unfold Config.regsize
      cases config.is64 <;> rfl
    have newPure (part : Unary) : sideEffect
        (.una part e1.ty (.bin .remquo (if config.is64 then TYcent else TYllong) e1 e2)) =
          false := by
      rw [sideEffect, sideEffect, pure₁, pure₂]
      rfl
    have oldPure (op : Arithmetic) : sideEffect (.bin (.arith op) Ety e1 e2) = false := by
      rw [sideEffect, pure₁, pure₂]
      rfl
    split at hit
    · obtain rfl := Option.some.inj hit
      have size : Ety.size = e1.size := formed.2.2.1.symm
      rw [goal.preserves_iff_keeps (oldPure .div) (newPure _),
        value_part .div pure₁ pure₂ size isWide ?_ fun _ _ _ quotientNone _ => quotientNone]
      · exact goal.keeps_refl _
      · intro q r uns x y qSmall _ isQuotient _
        have lower : unary (if config.is64 then .of128_64 else .of64_32) e1.size
            (if config.is64 then TYcent else TYllong).size (q + r * 2 ^ e1.size.bits) state =
              q + r * 2 ^ e1.size.bits := by
          cases config.is64 <;> rfl
        rw [lower, Nat.add_mul_mod_self_right, Nat.mod_eq_of_lt qSmall]
        exact isQuotient
    · obtain rfl := Option.some.inj hit
      have size : Ety.size = e1.size := formed.2.2.1.symm
      rw [goal.preserves_iff_keeps (oldPure .mod) (newPure _),
        value_part .mod pure₁ pure₂ size isWide ?_ fun _ _ _ _ remainderNone => remainderNone]
      · exact goal.keeps_refl _
      · intro q r uns x y qSmall rSmall _ isRemainder
        have upper : unary .msw e1.size (if config.is64 then TYcent else TYllong).size
            (q + r * 2 ^ e1.size.bits) state = r := by
          show (q + r * 2 ^ e1.size.bits) /
            2 ^ ((if config.is64 then TYcent else TYllong).size.bits / 2) = r
          rw [isWide, Nat.mul_div_cancel_left _ Nat.two_pos,
            Nat.add_mul_div_right _ _ (Nat.two_pow_pos _), Nat.div_eq_of_lt qSmall, Nat.zero_add]
        rw [upper, Nat.mod_eq_of_lt rSmall]
        exact isRemainder
    · cases hit
  · cases hit

/-- The rules of the optimiser. -/
theorem optimizerRules_preserves_iff {config : Config} {goal : Goal} {Eoper : Binary}
    (formed : WellFormed (.bin Eoper Ety e1 (.const ty2 c)))
    (word : Ety.size = .long ∨ Ety.size = .llong) (pure₁ : sideEffect e1 = false) :
    goal.Preserves env state (.bin Eoper Ety e1 (.const ty2 c))
        (optimizerRules config goal Eoper Ety e1 (.const ty2 c)) ↔
      ¬ (config.optimizer = true ∧ DivisorsMislead goal env state Eoper e1 ty2 c) := by
  unfold optimizerRules
  by_cases optimizer : config.optimizer = true
  · rw [if_pos optimizer, and_iff_right optimizer]
    cases divides : divideRule Eoper Ety e1 (.const ty2 c) with
    | some t =>
      obtain ⟨rfl, ty1, e, ty12, c1, ty2', c2, same, inner, merges⟩ := divideRule_some divides
      obtain ⟨rfl, rfl⟩ := Tree.const.inj same
      have size : Ety.size = e1.size := formed.2.2.1.symm
      have sizes : ty2.size = Ety.size := formed.2.2.2 rfl
      exact merge_preserves_iff inner formed.1 pure₁ size (sizes.trans size) word merges
    | none =>
      refine iff_of_true ?_ (not_misleads_of_divideRule divides)
      cases flags : flagsRule goal Eoper e1 (.const ty2 c) with
      | some t => exact flagsRule_preserves formed pure₁ rfl flags
      | none =>
        cases remquo : remquoRule config Eoper e1 (.const ty2 c) with
        | some t => exact remquoRule_preserves formed pure₁ rfl remquo
        | none => exact goal.preserves_of_run_eq rfl
  · rw [if_neg optimizer]
    exact iff_of_true (goal.preserves_of_run_eq rfl) fun both => optimizer both.1

/-- The rules of the optimiser for a divisor that is no constant. -/
theorem optimizerRules_preserves {config : Config} {goal : Goal} {Eoper : Binary}
    (formed : WellFormed (.bin Eoper Ety e1 e2)) (pure₁ : sideEffect e1 = false)
    (pure₂ : sideEffect e2 = false) (unknown : ∀ ty c, e2 ≠ .const ty c) :
    goal.Preserves env state (.bin Eoper Ety e1 e2)
      (optimizerRules config goal Eoper Ety e1 e2) := by
  unfold optimizerRules
  split_ifs
  · cases divides : divideRule Eoper Ety e1 e2 with
    | some t =>
      obtain ⟨-, _, _, _, _, ty, c, same, -⟩ := divideRule_some divides
      exact absurd same (unknown ty c)
    | none =>
      cases flags : flagsRule goal Eoper e1 e2 with
      | some t => exact flagsRule_preserves formed pure₁ pure₂ flags
      | none =>
        cases remquo : remquoRule config Eoper e1 e2 with
        | some t => exact remquoRule_preserves formed pure₁ pure₂ remquo
        | none => exact goal.preserves_of_run_eq rfl
  · exact goal.preserves_of_run_eq rfl

/-! ### The function -/

/-- An unsigned division by a constant is one by the constant of the unsigned type. -/
theorem run_touns {Eoper : Binary} (division : Eoper.isDivision = true)
    (uns : (e1.uns || ty2.isUnsigned) = true) :
    run env (.bin Eoper Ety e1 (.const (touns ty2) c)) state =
      run env (.bin Eoper Ety e1 (.const ty2 c)) state := by
  have both : (e1.uns || (touns ty2).isUnsigned) = (e1.uns || ty2.isUnsigned) :=
    (Bool.or_true _).trans uns.symm
  cases Eoper with
  | arith op =>
    rw [run_arith_const, run_arith_const, both]
    rfl
  | arithass op =>
    rw [run_arithass_const, run_arithass_const, both]
    rfl
  | _ => cases division

/-- Where the rewriting of a division goes wrong: the optimiser merges two unsigned divisions,
the outer one not by a power of two, whose constants mislead it. -/
def MergeMisleads (config : Config) (goal : Goal) (env : Environment World) (state : State World)
    (Eoper : Binary) (e1 e2 : Tree) : Prop :=
  config.optimizer = true ∧ ∃ ty2 c2, e2 = .const ty2 c2 ∧ (e1.uns || ty2.isUnsigned) = true ∧
    ispow2 (elTolong (touns ty2) c2) = none ∧
      DivisorsMislead goal env state Eoper e1 (touns ty2) c2

/-- A division or remainder of four or eight bytes is rewritten to a tree that gives its goal the
same, exactly where no two divisions are merged by constants that mislead. -/
theorem eldiv_sound_iff (config : Config) (goal : Goal) (env : Environment World)
    (state : State World) (Ety : Ty) {Eoper : Binary} {e1 e2 : Tree}
    (division : Eoper.isDivision = true) (formed : WellFormed (.bin Eoper Ety e1 e2))
    (word : Ety.size = .long ∨ Ety.size = .llong) (pure₁ : sideEffect e1 = false)
    (pure₂ : sideEffect e2 = false) :
    goal.Preserves env state (.bin Eoper Ety e1 e2) (eldiv config goal Eoper Ety e1 e2) ↔
      ¬ MergeMisleads config goal env state Eoper e1 e2 := by
  by_cases constant : ∃ ty2 c, e2 = .const ty2 c
  · obtain ⟨ty2, c, rfl⟩ := constant
    have sizes : e1.size = Ety.size ∧ ty2.size = Ety.size := by
      obtain ⟨-, -, fits⟩ := formed
      revert fits
      cases Eoper with
      | arith op =>
        cases op <;> first | exact fun fits => ⟨fits.1, fits.2 rfl⟩ | cases division
      | arithass op =>
        cases op <;> first | exact fun fits => ⟨fits.1, fits.2 rfl⟩ | cases division
      | _ => cases division
    have narrow : e1.size ≠ .cent := by
      rw [sizes.1]
      rcases word with is | is <;> rw [is] <;> decide
    unfold eldiv
    dsimp only
    by_cases uns : (e1.uns || ty2.isUnsigned) = true
    · rw [if_pos uns]
      cases power : ispow2 (elTolong (touns ty2) c) with
      | some i =>
        have same : run env (powerRule Eoper Ety e1 (touns ty2) c i) state =
            run env (.bin Eoper Ety e1 (.const ty2 c)) state :=
          (@run_powerRule World env state Ety (touns ty2) e1 c Eoper i division rfl
            (sizes.2.trans sizes.1.symm) narrow power).trans (run_touns division uns)
        refine iff_of_true (goal.preserves_of_run_eq same) ?_
        rintro ⟨-, _, _, is, -, notPower, -⟩
        obtain ⟨rfl, rfl⟩ := Tree.const.inj is
        exact absurd (power.symm.trans notPower) (Option.some_ne_none i)
      | none =>
        have preserves := @optimizerRules_preserves_iff World env state Ety (touns ty2) e1 c config
          goal Eoper formed word pure₁
        unfold Goal.Preserves at preserves ⊢
        rw [run_touns division uns] at preserves
        refine preserves.trans (not_congr ?_)
        constructor
        · rintro ⟨optimizer, misleads⟩
          exact ⟨optimizer, ty2, c, rfl, uns, power, misleads⟩
        · rintro ⟨optimizer, _, _, is, -, -, misleads⟩
          obtain ⟨rfl, rfl⟩ := Tree.const.inj is
          exact ⟨optimizer, misleads⟩
    · rw [if_neg uns, optimizerRules_preserves_iff formed word pure₁]
      refine iff_of_true ?_ ?_
      · rintro ⟨-, rfl, _, _, _, _, _, inner, -, unsigned, -⟩
        have root := (@value_innerQuotient World env state _ _ _ _ _ inner formed.1 pure₁).2.1
        refine uns ?_
        unfold Tree.uns
        rw [root]
        exact unsigned
      · rintro ⟨-, _, _, is, unsigned, -⟩
        obtain ⟨rfl, rfl⟩ := Tree.const.inj is
        exact uns unsigned
  · have unknown : ∀ ty c, e2 ≠ .const ty c := fun ty c is => constant ⟨ty, c, is⟩
    have result : eldiv config goal Eoper Ety e1 e2 =
        optimizerRules config goal Eoper Ety e1 e2 := by
      unfold eldiv
      cases e2 with
      | const ty c => exact absurd rfl (unknown ty c)
      | _ => rfl
    rw [result]
    refine iff_of_true (optimizerRules_preserves formed pure₁ pure₂ unknown) ?_
    rintro ⟨-, ty, c, is, -⟩
    exact unknown ty c is

end Sound

/-- The largest value of four bytes, divided by three and by five. -/
theorem eldiv_sound_fifteen :
    Goal.value.Preserves onesEnvironment onesState
      (.bin (.arith .div) TYuint (.bin (.arith .div) TYuint (.leaf TYuint 0) (.const TYuint 3#64))
        (.const TYuint 5#64))
      (eldiv { is64 := true, optimizer := true } .value (.arith .div) TYuint
        (.bin (.arith .div) TYuint (.leaf TYuint 0) (.const TYuint 3#64))
        (.const TYuint 5#64)) := by
  have inner : InnerQuotient (.bin (.arith .div) TYuint (.leaf TYuint 0) (.const TYuint 3#64))
      TYuint (.leaf TYuint 0) TYuint 3#64 := Or.inl rfl
  have formed : WellFormed (.bin (.arith .div) TYuint
      (.bin (.arith .div) TYuint (.leaf TYuint 0) (.const TYuint 3#64)) (.const TYuint 5#64)) :=
    ⟨⟨trivial, trivial, rfl, fun _ => rfl⟩, trivial, rfl, fun _ => rfl⟩
  refine (eldiv_sound_iff { is64 := true, optimizer := true } .value onesEnvironment onesState
    TYuint rfl formed (Or.inl rfl) rfl rfl).mpr ?_
  rintro ⟨-, _, _, is, -, -, -, _, _, _, _, x, other, -, -, -, -, -, misleads⟩
  obtain ⟨rfl, rfl⟩ := Tree.const.inj is
  obtain ⟨rfl, rfl, rfl, rfl⟩ := inner.unique other
  unfold ProductMisleads at misleads
  rw [if_neg (by decide)] at misleads
  cases misleads.1

/-- `(e / (2 ^ 64 - 1)) / 3` becomes `e / (2 ^ 64 - 3)`. -/
theorem eldiv_product_unsound :
    ∃ t, eldiv { is64 := false, optimizer := true } .value (.arith .div) TYullong
        (.bin (.arith .div) TYullong (.leaf TYullong 0) (.const TYullong 0xFFFFFFFFFFFFFFFF#64))
        (.const TYullong 3#64) = t ∧
      value onesEnvironment onesState (.bin (.arith .div) TYullong
        (.bin (.arith .div) TYullong (.leaf TYullong 0) (.const TYullong 0xFFFFFFFFFFFFFFFF#64))
        (.const TYullong 3#64)) = some 0 ∧
      value onesEnvironment onesState t = some 1 := by
  refine ⟨.bin (.arith .div) TYullong (.leaf TYullong 0) (.bin (.arith .mul) TYullong
    (.const TYullong 0xFFFFFFFFFFFFFFFF#64) (.const TYullong 3#64)), by decide, ?_, ?_⟩
  · have innerPure : sideEffect (.bin (.arith .div) TYullong (.leaf TYullong 0)
        (.const TYullong 0xFFFFFFFFFFFFFFFF#64)) = false := rfl
    rw [value_arith innerPure rfl, value_arith rfl rfl, value_const, value_const,
      value_ones_leaf _ _ (by decide)]
    decide
  · have productPure : sideEffect (.bin (.arith .mul) TYullong
        (.const TYullong 0xFFFFFFFFFFFFFFFF#64) (.const TYullong 3#64)) = false := rfl
    rw [value_arith rfl productPure, value_arith rfl rfl, value_const, value_const,
      value_ones_leaf _ _ (by decide)]
    decide

end LaserD.Cgelem
