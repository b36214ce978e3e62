/-
This file proves what evaluation does to values and states.

A value fits its node, and a tree without side effects leaves the state as it is. Such a
tree is then a partial function of the state, `value`, with one equation for each
operator; the rewriting rules are compared through it.
-/

import Mathlib.Algebra.Order.Ring.Int
import LaserD.Cgelem.Tree

namespace LaserD.Cgelem

/-! ### Values -/

theorem low_lt (size : Size) (value : Nat) : low size value < 2 ^ size.bits :=
  Nat.mod_lt _ (Nat.two_pow_pos _)

theorem low_of_lt {size : Size} {value : Nat} (small : value < 2 ^ size.bits) :
    low size value = value := Nat.mod_eq_of_lt small

theorem low_low (size : Size) (value : Nat) : low size (low size value) = low size value :=
  Nat.mod_mod _ _

theorem Size.bits_pos (size : Size) : 0 < size.bits := by
  cases size <;> decide

theorem one_lt_two_pow_bits (size : Size) : 1 < 2 ^ size.bits :=
  Nat.one_lt_two_pow (Nat.ne_of_gt size.bits_pos)

theorem two_pow_bits (size : Size) : 2 ^ size.bits = 2 * 2 ^ (size.bits - 1) := by
  rw [← Nat.pow_succ', Nat.succ_eq_add_one, Nat.sub_add_cancel size.bits_pos]

theorem ofBool_lt (size : Size) (b : Bool) : ofBool b < 2 ^ size.bits := by
  have one := one_lt_two_pow_bits size
  cases b with
  | false => exact Nat.zero_lt_of_lt one
  | true => exact one

@[simp] theorem low_ofBool (size : Size) (b : Bool) : low size (ofBool b) = ofBool b :=
  low_of_lt (ofBool_lt size b)

@[simp] theorem ofBool_eq_zero (b : Bool) : ofBool b = 0 ↔ b = false := by
  cases b <;> decide

theorem natCast_wrap (size : Size) (x : Int) : ((wrap size x : Nat) : Int) = x % 2 ^ size.bits := by
  have positive : (0 : Int) < 2 ^ size.bits := by exact_mod_cast Nat.two_pow_pos size.bits
  exact Int.toNat_of_nonneg (Int.emod_nonneg x positive.ne')

theorem wrap_lt (size : Size) (x : Int) : wrap size x < 2 ^ size.bits := by
  have positive : (0 : Int) < 2 ^ size.bits := by exact_mod_cast Nat.two_pow_pos size.bits
  have upper := Int.emod_lt_of_pos x positive
  rw [← natCast_wrap] at upper
  exact_mod_cast upper

/-- The lower bits of a wrapped number. -/
theorem low_wrap {narrow wide : Size} (within : narrow.bits ≤ wide.bits) (x : Int) :
    low narrow (wrap wide x) = wrap narrow x := by
  have divides : (2 : Int) ^ narrow.bits ∣ 2 ^ wide.bits := pow_dvd_pow 2 within
  refine Int.ofNat_inj.mp ?_
  rw [natCast_wrap, ← Int.emod_emod_of_dvd x divides, ← natCast_wrap wide]
  unfold low
  push_cast
  rfl

theorem wrap_natCast (size : Size) (value : Nat) : wrap size value = low size value := by
  unfold wrap low
  exact_mod_cast Int.toNat_natCast _

/-- A value differs from its signed reading by the whole width or not at all. -/
theorem signed_emod (size : Size) (value : Nat) :
    signed size value % 2 ^ size.bits = ((low size value : Nat) : Int) := by
  unfold signed low
  split_ifs
  · push_cast
    rfl
  · rw [Int.sub_emod_right]
    push_cast
    rfl

theorem wrap_signed {size : Size} {value : Nat} (small : value < 2 ^ size.bits) :
    wrap size (signed size value) = value := by
  unfold wrap
  rw [signed_emod, low_of_lt small]
  exact Int.toNat_natCast value

theorem signed_of_lt {size : Size} {v : Nat} (below : v < 2 ^ (size.bits - 1)) :
    signed size v = v := if_pos below

theorem signed_of_le {size : Size} {v : Nat} (above : 2 ^ (size.bits - 1) ≤ v) :
    signed size v = v - 2 ^ size.bits := if_neg (Nat.not_lt_of_le above)

theorem two_pow_cast (exponent : Nat) : ((2 ^ exponent : Nat) : Int) = 2 ^ exponent := by
  push_cast
  rfl

theorem signed_inj {size : Size} {first second : Nat} (firstSmall : first < 2 ^ size.bits)
    (secondSmall : second < 2 ^ size.bits) (same : signed size first = signed size second) :
    first = second := by
  rw [← wrap_signed firstSmall, same, wrap_signed secondSmall]

theorem signed_bounds {size : Size} {value : Nat} (small : value < 2 ^ size.bits) :
    -2 ^ (size.bits - 1) ≤ signed size value ∧ signed size value < 2 ^ (size.bits - 1) := by
  have power := two_pow_bits size
  have cast : ((2 ^ (size.bits - 1) : Nat) : Int) = 2 ^ (size.bits - 1) := by push_cast; rfl
  have whole : (2 : Int) ^ size.bits = 2 * 2 ^ (size.bits - 1) := by exact_mod_cast power
  unfold signed
  rw [whole]
  split_ifs <;> omega

/-! ### States -/

section States

variable {World : Type}

theorem State.read_lt (state : State World) (size : Size) (address : Nat) :
    state.read size address < 2 ^ size.bits := low_lt _ _

/-- What is stored is read. -/
@[simp] theorem State.read_write (state : State World) (size : Size) (address value : Nat) :
    (state.write size address value).read size address = low size value := by
  unfold State.write State.read
  dsimp only
  rw [Function.update_self]
  have positive := Nat.two_pow_pos size.bits
  unfold low
  rw [show state.cells address - state.cells address % 2 ^ size.bits =
    2 ^ size.bits * (state.cells address / 2 ^ size.bits) by
      rw [Nat.mul_div_self_eq_mod_sub_self], Nat.mul_add_mod, Nat.mod_mod]

/-- A store leaves every other address as it is. -/
theorem State.read_write_of_ne (state : State World) (size other : Size) {address different : Nat}
    (value : Nat) (apart : different ≠ address) :
    (state.write size address value).read other different = state.read other different := by
  unfold State.write State.read
  dsimp only
  rw [Function.update_of_ne apart]

end States

/-! ### Evaluation -/

section Evaluation

variable {World : Type} {env : Environment World}

theorem fetch_lt (e : Tree) (address : Nat) (state : State World) :
    fetch e address state < 2 ^ e.size.bits := by
  unfold fetch
  split
  · exact low_lt _ _
  · exact State.read_lt _ _ _

/-- A value has no bit above its size. -/
theorem run_lt {e : Tree} {state after : State World} {value : Nat}
    (runs : run env e state = some (value, after)) : value < 2 ^ e.size.bits := by
  cases e with
  | leaf Ety symbol =>
    rw [run] at runs
    obtain ⟨rfl, -⟩ := Prod.mk.inj (Option.some.inj runs)
    exact low_lt _ _
  | const Ety Vullong =>
    rw [run] at runs
    obtain ⟨rfl, -⟩ := Prod.mk.inj (Option.some.inj runs)
    exact low_lt _ _
  | una Eoper Ety E1 =>
    rw [run] at runs
    obtain ⟨_, _, rest⟩ := Option.bind_eq_some_iff.mp runs
    obtain ⟨rfl, -⟩ := Prod.mk.inj (Option.some.inj rest)
    exact low_lt _ _
  | other Ety code =>
    rw [run] at runs
    obtain ⟨_, _, rest⟩ := Option.map_eq_some_iff.mp runs
    obtain ⟨rfl, -⟩ := Prod.mk.inj rest
    exact low_lt _ _
  | bin Eoper Ety E1 E2 =>
    have zero : 0 < 2 ^ Ety.size.bits := Nat.two_pow_pos _
    cases Eoper <;> rw [run] at runs
    case andand =>
      obtain ⟨_, _, rest⟩ := Option.bind_eq_some_iff.mp runs
      dsimp only at rest
      split_ifs at rest
      · obtain ⟨rfl, -⟩ := Prod.mk.inj (Option.some.inj rest)
        exact zero
      · obtain ⟨_, _, rest⟩ := Option.bind_eq_some_iff.mp rest
        obtain ⟨rfl, -⟩ := Prod.mk.inj (Option.some.inj rest)
        exact ofBool_lt _ _
    case oror =>
      obtain ⟨_, _, rest⟩ := Option.bind_eq_some_iff.mp runs
      dsimp only at rest
      split_ifs at rest
      · obtain ⟨rfl, -⟩ := Prod.mk.inj (Option.some.inj rest)
        exact one_lt_two_pow_bits _
      · obtain ⟨_, _, rest⟩ := Option.bind_eq_some_iff.mp rest
        obtain ⟨rfl, -⟩ := Prod.mk.inj (Option.some.inj rest)
        exact ofBool_lt _ _
    case comma =>
      obtain ⟨_, _, rest⟩ := Option.bind_eq_some_iff.mp runs
      obtain ⟨_, _, rest⟩ := Option.bind_eq_some_iff.mp rest
      obtain ⟨rfl, -⟩ := Prod.mk.inj (Option.some.inj rest)
      exact low_lt _ _
    case eq =>
      obtain ⟨_, _, rest⟩ := Option.bind_eq_some_iff.mp runs
      obtain ⟨_, _, rest⟩ := Option.bind_eq_some_iff.mp rest
      obtain ⟨rfl, -⟩ := Prod.mk.inj (Option.some.inj rest)
      exact low_lt _ _
    case bit =>
      obtain ⟨_, _, rest⟩ := Option.bind_eq_some_iff.mp runs
      obtain ⟨rfl, -⟩ := Prod.mk.inj (Option.some.inj rest)
      exact fetch_lt (.bin .bit Ety E1 E2) _ _
    case rel op =>
      obtain ⟨_, _, rest⟩ := Option.bind_eq_some_iff.mp runs
      obtain ⟨_, _, rest⟩ := Option.bind_eq_some_iff.mp rest
      obtain ⟨rfl, -⟩ := Prod.mk.inj (Option.some.inj rest)
      exact ofBool_lt _ _
    case btst =>
      obtain ⟨_, _, rest⟩ := Option.bind_eq_some_iff.mp runs
      obtain ⟨_, _, rest⟩ := Option.bind_eq_some_iff.mp rest
      obtain ⟨rfl, -⟩ := Prod.mk.inj (Option.some.inj rest)
      exact ofBool_lt _ _
    all_goals
      obtain ⟨_, _, rest⟩ := Option.bind_eq_some_iff.mp runs
      obtain ⟨_, _, rest⟩ := Option.bind_eq_some_iff.mp rest
      obtain ⟨_, _, rest⟩ := Option.bind_eq_some_iff.mp rest
      obtain ⟨rfl, -⟩ := Prod.mk.inj (Option.some.inj rest)
      exact low_lt _ _

/-- A tree without side effects leaves the state as it is. -/
theorem run_state (e : Tree) :
    (∀ {state after : State World} {value : Nat}, sideEffect e = false →
      run env e state = some (value, after) → after = state) ∧
    (∀ {state after : State World} {address : Nat}, sideEffect e = false →
      place env e state = some (address, after) → after = state) := by
  induction e with
  | leaf Ety symbol =>
    refine ⟨fun _ runs => ?_, fun _ runs => ?_⟩
    · rw [run] at runs
      exact (Prod.mk.inj (Option.some.inj runs)).2.symm
    · rw [place] at runs
      exact (Prod.mk.inj (Option.some.inj runs)).2.symm
  | const Ety Vullong =>
    refine ⟨fun _ runs => ?_, fun _ runs => ?_⟩
    · rw [run] at runs
      exact (Prod.mk.inj (Option.some.inj runs)).2.symm
    · simp [place] at runs
  | una Eoper Ety E1 inductionHypothesis =>
    refine ⟨fun pure runs => ?_, fun pure runs => ?_⟩
    · rw [run] at runs
      obtain ⟨_, first, rest⟩ := Option.bind_eq_some_iff.mp runs
      obtain ⟨-, rfl⟩ := Prod.mk.inj (Option.some.inj rest)
      exact inductionHypothesis.1 pure first
    · cases Eoper
      case ind =>
        rw [place] at runs
        exact inductionHypothesis.1 pure runs
      all_goals simp [place] at runs
  | other Ety code => exact ⟨fun pure => (nomatch pure), fun pure => (nomatch pure)⟩
  | bin Eoper Ety E1 E2 first second =>
    have parts : sideEffect (.bin Eoper Ety E1 E2) = false →
        Eoper.isAssign = false ∧ sideEffect E1 = false ∧ sideEffect E2 = false := by
      intro pure
      rw [sideEffect, Bool.or_eq_false_iff, Bool.or_eq_false_iff] at pure
      exact ⟨pure.1.1, pure.1.2, pure.2⟩
    refine ⟨fun pure runs => ?_, fun pure runs => ?_⟩
    · obtain ⟨plain, left, right⟩ := parts pure
      cases Eoper <;> rw [run] at runs
      case arithass | eq | postinc | postdec => exact absurd plain (by rw [Binary.isAssign]; decide)
      case bit =>
        obtain ⟨_, firstRuns, rest⟩ := Option.bind_eq_some_iff.mp runs
        obtain ⟨-, rfl⟩ := Prod.mk.inj (Option.some.inj rest)
        exact first.2 left firstRuns
      case andand | oror =>
        obtain ⟨_, firstRuns, rest⟩ := Option.bind_eq_some_iff.mp runs
        have firstSame := first.1 left firstRuns
        dsimp only at rest
        split_ifs at rest
        · obtain ⟨-, rfl⟩ := Prod.mk.inj (Option.some.inj rest)
          exact firstSame
        · obtain ⟨_, secondRuns, rest⟩ := Option.bind_eq_some_iff.mp rest
          obtain ⟨-, rfl⟩ := Prod.mk.inj (Option.some.inj rest)
          exact (second.1 right secondRuns).trans firstSame
      case comma | rel | btst =>
        obtain ⟨_, firstRuns, rest⟩ := Option.bind_eq_some_iff.mp runs
        obtain ⟨_, secondRuns, rest⟩ := Option.bind_eq_some_iff.mp rest
        obtain ⟨-, rfl⟩ := Prod.mk.inj (Option.some.inj rest)
        exact (second.1 right secondRuns).trans (first.1 left firstRuns)
      case arith | remquo =>
        obtain ⟨_, firstRuns, rest⟩ := Option.bind_eq_some_iff.mp runs
        obtain ⟨_, secondRuns, rest⟩ := Option.bind_eq_some_iff.mp rest
        obtain ⟨_, _, rest⟩ := Option.bind_eq_some_iff.mp rest
        obtain ⟨-, rfl⟩ := Prod.mk.inj (Option.some.inj rest)
        exact (second.1 right secondRuns).trans (first.1 left firstRuns)
    · obtain ⟨-, left, -⟩ := parts pure
      cases Eoper
      case bit =>
        rw [place] at runs
        exact first.2 left runs
      all_goals simp [place] at runs

/-! ### Trees without side effects -/

/-- The value of a tree. -/
def value (env : Environment World) (state : State World) (e : Tree) : Option Nat :=
  (run env e state).map Prod.fst

/-- Evaluating a tree without side effects is taking its value. -/
theorem run_eq_value {e : Tree} (pure : sideEffect e = false) (state : State World) :
    run env e state = (value env state e).map fun x => (x, state) := by
  unfold value
  cases runs : run env e state with
  | none => rfl
  | some result =>
    obtain ⟨x, after⟩ := result
    rw [(run_state e).1 pure runs]
    rfl

theorem value_lt {state : State World} {e : Tree} {x : Nat} (has : value env state e = some x) :
    x < 2 ^ e.size.bits := by
  obtain ⟨⟨_, after⟩, runs, rfl⟩ := Option.map_eq_some_iff.mp has
  exact run_lt runs

theorem value_const (state : State World) (Ety : Ty) (c : BitVec 64) :
    value env state (.const Ety c) = some (low Ety.size c.toNat) := by
  rw [value, run]
  rfl

theorem value_una {E1 : Tree} (pure : sideEffect E1 = false) (state : State World)
    (Eoper : Unary) (Ety : Ty) :
    value env state (.una Eoper Ety E1) =
      (value env state E1).map fun x => low Ety.size (unary Eoper Ety.size E1.size x state) := by
  rw [value, run, run_eq_value pure]
  cases value env state E1 <;> rfl

section Binary

variable {E1 E2 : Tree} (pure₁ : sideEffect E1 = false) (pure₂ : sideEffect E2 = false)

include pure₁ pure₂

theorem value_arith (state : State World) (op : Arithmetic) (Ety : Ty) :
    value env state (.bin (.arith op) Ety E1 E2) =
      (value env state E1).bind fun x => (value env state E2).bind fun y =>
        (arithmetic op E1.size (E1.uns || E2.uns) x y).map (low Ety.size) := by
  rw [value, run, run_eq_value pure₁]
  cases value env state E1 with
  | none => rfl
  | some x =>
    show Option.map Prod.fst (run env E2 state >>= _) = _
    rw [run_eq_value pure₂]
    cases value env state E2 with
    | none => rfl
    | some y =>
      show Option.map Prod.fst (arithmetic op E1.size (E1.uns || E2.uns) x y >>= _) =
        (arithmetic op E1.size (E1.uns || E2.uns) x y).map _
      cases arithmetic op E1.size (E1.uns || E2.uns) x y <;> rfl

theorem value_remquo (state : State World) (Ety : Ty) :
    value env state (.bin .remquo Ety E1 E2) =
      (value env state E1).bind fun x => (value env state E2).bind fun y =>
        (quotientRemainder E1.size (E1.uns || E2.uns) x y).map (low Ety.size) := by
  rw [value, run, run_eq_value pure₁]
  cases value env state E1 with
  | none => rfl
  | some x =>
    show Option.map Prod.fst (run env E2 state >>= _) = _
    rw [run_eq_value pure₂]
    cases value env state E2 with
    | none => rfl
    | some y =>
      show Option.map Prod.fst (quotientRemainder E1.size (E1.uns || E2.uns) x y >>= _) =
        (quotientRemainder E1.size (E1.uns || E2.uns) x y).map _
      cases quotientRemainder E1.size (E1.uns || E2.uns) x y <;> rfl

theorem value_rel (state : State World) (op : Relation) (Ety : Ty) :
    value env state (.bin (.rel op) Ety E1 E2) =
      (value env state E1).bind fun x => (value env state E2).map fun y =>
        ofBool (relation op E1.size (E1.uns || E2.uns) x y) := by
  rw [value, run, run_eq_value pure₁]
  cases value env state E1 with
  | none => rfl
  | some x =>
    show Option.map Prod.fst (run env E2 state >>= _) = _
    rw [run_eq_value pure₂]
    cases value env state E2 <;> rfl

theorem value_comma (state : State World) (Ety : Ty) :
    value env state (.bin .comma Ety E1 E2) =
      (value env state E1).bind fun _ => (value env state E2).map (low Ety.size) := by
  rw [value, run, run_eq_value pure₁]
  cases value env state E1 with
  | none => rfl
  | some x =>
    show Option.map Prod.fst (run env E2 state >>= _) = _
    rw [run_eq_value pure₂]
    cases value env state E2 <;> rfl

end Binary

end Evaluation

end LaserD.Cgelem
