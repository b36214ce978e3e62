/-
This file proves when the replaced comparison of a loop does what the original
one did. The two compare `c1 * X + c2` with `c1 * e + c2`, both of them wrapped
around, where the original compares `X` with `e`. With a positive factor that is
the same, when the two wrap around equally often. The checks of `elimbasivs` see
to it that the factor is not negative and that the signs of the two comparisons
agree, but of the products they look at those with constants only, and never at
the summand.

The quotient `(T - c2) / c1` on the exits is the variable when `c1 * X` does not
wrap around at all.
-/

import LaserD.Ivs.Elimbasivs
import Mathlib.Tactic.Linarith
import Mathlib.Tactic.Ring

namespace LaserD.Ivs

variable {State : Type} {sz : Size} {w : Nat}

/-! ### When nothing is lost -/

/-- How often the temporary wraps around for a value of the variable, read as signed. -/
def wrapsSigned (fl : Famlist w) (v : BitVec w) : Int :=
  (fl.c1.value.toInt * v.toInt + fl.c2.value.toInt).bdiv (2 ^ w)

/-- How often the temporary wraps around for a value of the variable, read as unsigned. -/
def wrapsUnsigned (fl : Famlist w) (v : BitVec w) : Nat :=
  (fl.c1.value.toNat * v.toNat + fl.c2.value.toNat) / 2 ^ w

/-- The temporary tells the variable from the bound: for an ordering, both wrap around equally
often, and for an equality, the factor does not map two values to one. -/
def TestExact (fl : Famlist w) (test : Test w) (X : BitVec w) : Prop :=
  if test.op.ordering then
    fl.c1.value ≠ 0 ∧
      if test.unsX || test.e.uns then wrapsUnsigned fl X = wrapsUnsigned fl test.e.value
      else wrapsSigned fl X = wrapsSigned fl test.e.value
  else fl.c1.value * X = fl.c1.value * test.e.value → X = test.e.value

/-- The product of the factor and the variable does not wrap around, in the sign of the
division. -/
def RestoreExact (biv : Iv sz) (fl : Famlist sz.bits) (X : BitVec sz.bits) : Prop :=
  fl.c1.value ≠ 0 ∧
    if biv.uns || fl.c1.uns then fl.c1.value.toNat * X.toNat < 2 ^ sz.bits
    else -2 ^ (sz.bits - 1) ≤ fl.c1.value.toInt * X.toInt ∧
      fl.c1.value.toInt * X.toInt < 2 ^ (sz.bits - 1)

/-- Along a run of the original loop the temporary tells the variable from the bound at every
test, and the variable can be restored where it is live at the exit. -/
def RunExact (biv : Iv sz) (fl : Famlist sz.bits) (loop : Loop State sz.bits) :
    Nat → State → BitVec sz.bits → BitVec sz.bits → Prop
  | 0, _, _, _ => True
  | steps + 1, s, X, T =>
    match loop.next s T with
    | .work after => RunExact biv fl loop steps after X T
    | .increment after =>
      RunExact biv fl loop steps after (biv.incop.apply X biv.incr.value)
        (biv.incop.apply T (fl.c1.value * biv.incr.value))
    | .test after =>
      TestExact fl biv.ref.test X ∧ RunExact biv fl loop steps (after (biv.ref.holds X)) X T
    | .leave live _ => live = true → RestoreExact biv fl X

/-! ### What the checks ensure -/

theorem holds_swaprel (op : Relop) (uns : Bool) (a b : BitVec w) :
    (swaprel op).holds uns a b = op.holds uns b a := by
  cases op <;> cases uns <;> simp [swaprel, Relop.holds, bne, beq_eq_beq, eq_comm]

/-- The test with the variable on the left has the outcome of the reference. -/
theorem Reference.holds_test (ref : Reference w) (X : BitVec w) :
    ref.holds X = ref.test.op.holds (ref.test.unsX || ref.test.e.uns) X ref.test.e.value := by
  cases ref with
  | alone unsX => rfl
  | left op unsX e => rfl
  | right e op unsX => exact (holds_swaprel op (unsX || e.uns) X e.value).symm

/-- The bit that the check of the factor looks at is the sign. -/
theorem msb_of_excess {e : Invariant sz.bits} (none : elTolong e &&& sz.excess = 0) :
    e.value.msb = false := by
  have masked : sz.excess.getLsbD (sz.bits - 1) = true := by cases sz <;> decide
  have inside : sz.bits - 1 < sz.bits := by cases sz <;> decide
  have inside64 : sz.bits - 1 < 64 := by cases sz <;> decide
  have bit : (elTolong e).getLsbD (sz.bits - 1) = false := by
    have zero := congrArg (fun v => v.getLsbD (sz.bits - 1)) none
    rwa [BitVec.getLsbD_and, masked, Bool.and_true, BitVec.ofNat_eq_ofNat,
      BitVec.getLsbD_zero] at zero
  rw [BitVec.msb_eq_getLsbD_last, ← bit, elTolong]
  cases e.uns
  · rw [if_neg Bool.false_ne_true, BitVec.getLsbD_signExtend, decide_eq_true inside64,
      Bool.true_and, if_pos inside]
  · rw [if_pos rfl, BitVec.getLsbD_setWidth, decide_eq_true inside64, Bool.true_and]

/-- A factor without a sign is not negative when it is extended. -/
theorem not_slt_of_msb {e : Invariant sz.bits} (positive : e.value.msb = false) :
    (elTolong e).slt 0 = false := by
  have bits : sz.bits ≤ 64 := by cases sz <;> decide
  have sign : (elTolong e).getLsbD 63 = false := by
    rw [elTolong]
    cases e.uns
    · rw [if_neg Bool.false_ne_true, BitVec.getLsbD_signExtend, positive]
      by_cases inside : 63 < sz.bits
      · have last : 63 = sz.bits - 1 := by omega
        rw [if_pos inside, last, ← BitVec.msb_eq_getLsbD_last, positive, Bool.and_false]
      · rw [if_neg inside, Bool.and_false]
    · rw [if_pos rfl, BitVec.getLsbD_setWidth]
      by_cases inside : 63 < sz.bits
      · have last : 63 = sz.bits - 1 := by omega
        rw [last, ← BitVec.msb_eq_getLsbD_last, positive, Bool.and_false]
      · rw [BitVec.getLsbD_of_ge _ _ (Nat.le_of_not_lt inside), Bool.and_false]
  show (elTolong e).slt 0#64 = false
  rw [BitVec.slt_zero_eq_msb, BitVec.msb_eq_getLsbD_last]
  exact sign

/-- What a replacement says: the factor is not negative, the operator is the original one, an
ordering keeps its sign, and the bound is that of the family. -/
structure Replaced (biv : Iv sz) (rep : Replacement sz.bits) : Prop where
  positive : rep.fl.c1.value.msb = false
  op : rep.op = biv.ref.test.op
  uns : rep.op.ordering = true → rep.uns = (biv.ref.test.unsX || biv.ref.test.e.uns)
  bound : rep.fofe.value = rep.fl.temp biv.ref.test.e.value

/-- What the checks of `elimbasivs` ensure. -/
theorem replaced_of_elimbasivs {flcmp : Famlist sz.bits → Famlist sz.bits → Bool} {biv : Iv sz}
    {rep : Replacement sz.bits} (eliminates : elimbasivs flcmp biv = some rep) :
    Replaced biv rep := by
  rw [elimbasivs, Option.ite_none_left_eq_some] at eliminates
  obtain ⟨-, eliminates⟩ := eliminates
  cases found : simfl flcmp biv.IVfamily with
  | none =>
    rw [found] at eliminates
    exact absurd eliminates nofun
  | some fl =>
  rw [found] at eliminates
  simp only [Option.ite_none_left_eq_some] at eliminates
  obtain ⟨sign, inRange, -, -, -, result⟩ := eliminates
  obtain rfl := Option.some.inj result
  have positive : fl.c1.value.msb = false := by
    refine msb_of_excess ?_
    rw [overflows, Bool.or_eq_true, not_or] at inRange
    simpa using inRange.2
  have same := not_slt_of_msb positive
  refine ⟨positive, ?_, fun ordering => ?_, ?_⟩
  · simp only [same, Bool.and_false, Bool.false_eq_true, if_false]
  · simp only [same, Bool.and_false, Bool.false_eq_true, if_false] at ordering
    rw [ordering] at sign
    revert sign
    cases fl.FLuns <;> cases biv.ref.test.unsX || biv.ref.test.e.uns <;> simp
  · show _ * _ + _ = _ * _ + _
    rw [mul_comm]

/-! ### One test -/

/-- The temporary, read as signed, without what wraps around. -/
theorem toInt_temp (fl : Famlist w) (v : BitVec w) :
    (fl.temp v).toInt =
      fl.c1.value.toInt * v.toInt + fl.c2.value.toInt - (2 ^ w : Nat) * wrapsSigned fl v := by
  have wrapped : (fl.temp v).toInt =
      (fl.c1.value.toInt * v.toInt + fl.c2.value.toInt).bmod (2 ^ w) := by
    rw [Famlist.temp, BitVec.toInt_add, BitVec.toInt_mul, Int.bmod_add_bmod]
  rw [wrapped, wrapsSigned, Int.bmod_eq_self_sub_mul_bdiv]

/-- The temporary, read as unsigned, without what wraps around. -/
theorem toNat_temp (fl : Famlist w) (v : BitVec w) :
    (fl.temp v).toNat + 2 ^ w * wrapsUnsigned fl v =
      fl.c1.value.toNat * v.toNat + fl.c2.value.toNat := by
  have wrapped : (fl.temp v).toNat =
      (fl.c1.value.toNat * v.toNat + fl.c2.value.toNat) % 2 ^ w := by
    rw [Famlist.temp, BitVec.toNat_add, BitVec.toNat_mul, Nat.mod_add_mod]
  rw [wrapped, wrapsUnsigned]
  exact Nat.mod_add_div _ _

section Ordering

variable {fl : Famlist w} {a b : BitVec w} (positive : fl.c1.value.msb = false)
  (nonzero : fl.c1.value ≠ 0)

include nonzero

theorem ult_temp_iff (same : wrapsUnsigned fl a = wrapsUnsigned fl b) :
    (fl.temp a).toNat < (fl.temp b).toNat ↔ a.toNat < b.toNat := by
  have factor : 0 < fl.c1.value.toNat := by
    rw [Nat.pos_iff_ne_zero]
    exact fun zero => nonzero (BitVec.eq_of_toNat_eq zero)
  calc (fl.temp a).toNat < (fl.temp b).toNat
      ↔ (fl.temp a).toNat + 2 ^ w * wrapsUnsigned fl a <
          (fl.temp b).toNat + 2 ^ w * wrapsUnsigned fl b := by
        rw [same, Nat.add_lt_add_iff_right]
    _ ↔ a.toNat < b.toNat := by
        rw [toNat_temp, toNat_temp, Nat.add_lt_add_iff_right, Nat.mul_lt_mul_left factor]

include positive

theorem slt_temp_iff (same : wrapsSigned fl a = wrapsSigned fl b) :
    (fl.temp a).toInt < (fl.temp b).toInt ↔ a.toInt < b.toInt := by
  have factor : 0 < fl.c1.value.toInt := by
    rw [BitVec.toInt_eq_toNat_of_msb positive, Int.natCast_pos, Nat.pos_iff_ne_zero]
    exact fun zero => nonzero (BitVec.eq_of_toNat_eq zero)
  rw [toInt_temp, toInt_temp, same, sub_lt_sub_iff_right, add_lt_add_iff_right,
    Int.mul_lt_mul_left factor]

/-- An ordering of the temporaries is the ordering of the variables, when both wrap around
equally often in its sign. -/
theorem holds_temp_of_ordering {op : Relop} (ordering : op.ordering = true) {uns : Bool}
    (same : if uns then wrapsUnsigned fl a = wrapsUnsigned fl b
      else wrapsSigned fl a = wrapsSigned fl b) :
    op.holds uns (fl.temp a) (fl.temp b) = op.holds uns a b := by
  cases uns with
  | true =>
    have less := ult_temp_iff nonzero same
    have greater := ult_temp_iff nonzero same.symm
    cases op with
    | le => exact decide_eq_decide.2 (not_lt.symm.trans ((not_congr greater).trans not_lt))
    | gt => exact decide_eq_decide.2 greater
    | lt => exact decide_eq_decide.2 less
    | ge => exact decide_eq_decide.2 (not_lt.symm.trans ((not_congr less).trans not_lt))
    | eqeq => exact absurd ordering Bool.false_ne_true
    | ne => exact absurd ordering Bool.false_ne_true
  | false =>
    have less := slt_temp_iff positive nonzero same
    have greater := slt_temp_iff positive nonzero same.symm
    cases op with
    | le => exact decide_eq_decide.2 (not_lt.symm.trans ((not_congr greater).trans not_lt))
    | gt => exact decide_eq_decide.2 greater
    | lt => exact decide_eq_decide.2 less
    | ge => exact decide_eq_decide.2 (not_lt.symm.trans ((not_congr less).trans not_lt))
    | eqeq => exact absurd ordering Bool.false_ne_true
    | ne => exact absurd ordering Bool.false_ne_true

end Ordering

/-- An equality of the temporaries is the equality of the variables exactly when the factor does
not map two values to one. -/
theorem holds_temp_of_equality {fl : Famlist w} {a b : BitVec w} {op : Relop}
    (equality : op.ordering = false) (uns uns' : Bool) :
    op.holds uns (fl.temp a) (fl.temp b) = op.holds uns' a b ↔
      (fl.c1.value * a = fl.c1.value * b → a = b) := by
  have temps : fl.temp a = fl.temp b ↔ fl.c1.value * a = fl.c1.value * b := by
    rw [Famlist.temp, Famlist.temp, add_left_inj]
  have back : a = b → fl.c1.value * a = fl.c1.value * b := congrArg _
  cases op with
  | eqeq =>
    show (fl.temp a == fl.temp b) = (a == b) ↔ _
    rw [Bool.eq_iff_iff, beq_iff_eq, beq_iff_eq, temps]
    exact ⟨fun iff => iff.1, fun injective => ⟨injective, back⟩⟩
  | ne =>
    show (fl.temp a != fl.temp b) = (a != b) ↔ _
    rw [Bool.eq_iff_iff, bne_iff_ne, bne_iff_ne, not_iff_not, temps]
    exact ⟨fun iff => iff.1, fun injective => ⟨injective, back⟩⟩
  | le => exact absurd equality.symm Bool.false_ne_true
  | gt => exact absurd equality.symm Bool.false_ne_true
  | lt => exact absurd equality.symm Bool.false_ne_true
  | ge => exact absurd equality.symm Bool.false_ne_true

/-- The replaced comparison has the outcome of the original one. -/
theorem Replaced.holds {biv : Iv sz} {rep : Replacement sz.bits} (replaced : Replaced biv rep)
    {X : BitVec sz.bits} (telling : TestExact rep.fl biv.ref.test X) :
    rep.op.holds rep.uns (rep.fl.temp X) rep.fofe.value = biv.ref.holds X := by
  rw [replaced.bound, Reference.holds_test, replaced.op]
  rw [TestExact] at telling
  by_cases ordering : biv.ref.test.op.ordering = true
  · rw [if_pos ordering] at telling
    rw [replaced.uns (replaced.op ▸ ordering)]
    exact holds_temp_of_ordering replaced.positive telling.1 ordering telling.2
  · rw [if_neg ordering] at telling
    exact (holds_temp_of_equality (Bool.eq_false_iff.2 ordering) _ _).2 telling

/-! ### The exits -/

theorem temp_sub (fl : Famlist w) (X : BitVec w) :
    fl.temp X - fl.c2.value = fl.c1.value * X := by
  rw [Famlist.temp, add_sub_cancel_right]

/-- The quotient is the variable exactly when the product does not wrap around. -/
theorem restore_temp {biv : Iv sz} {fl : Famlist sz.bits} (positive : fl.c1.value.msb = false)
    {X : BitVec sz.bits} (fits : RestoreExact biv fl X) : restore biv fl (fl.temp X) = X := by
  obtain ⟨nonzero, fits⟩ := fits
  rw [restore, temp_sub]
  have factor : 0 < fl.c1.value.toNat := by
    rw [Nat.pos_iff_ne_zero]
    exact fun zero => nonzero (BitVec.eq_of_toNat_eq zero)
  by_cases unsigned : (biv.uns || fl.c1.uns) = true
  · rw [if_pos unsigned] at fits ⊢
    refine BitVec.eq_of_toNat_eq ?_
    rw [BitVec.udiv_eq, BitVec.toNat_udiv, BitVec.toNat_mul, Nat.mod_eq_of_lt fits,
      Nat.mul_div_cancel_left _ factor]
  · rw [if_neg unsigned] at fits ⊢
    have wide : sz.bits - 1 + 1 = sz.bits := by cases sz <;> rfl
    have double : (2 ^ sz.bits : Int) = 2 ^ (sz.bits - 1) * 2 := by
      rw [← pow_succ, wide]
    have inRange : ∀ v : Int, -2 ^ (sz.bits - 1) ≤ v → v < 2 ^ (sz.bits - 1) →
        v.bmod (2 ^ sz.bits) = v := by
      intro v low high
      refine Int.bmod_eq_of_le_mul_two ?_ ?_ <;> push_cast <;> omega
    have nonzeroInt : fl.c1.value.toInt ≠ 0 := by
      rw [BitVec.toInt_eq_toNat_of_msb positive]
      exact Int.natCast_ne_zero.2 (Nat.pos_iff_ne_zero.1 factor)
    refine BitVec.eq_of_toInt_eq ?_
    rw [BitVec.toInt_sdiv, BitVec.toInt_mul, inRange _ fits.1 fits.2,
      Int.mul_tdiv_cancel_left _ nonzeroInt]
    rw [← BitVec.toInt_ofInt, BitVec.ofInt_toInt]

/-! ### The loops -/

/-- The increments keep the temporary. -/
theorem apply_temp (op : Incop) (fl : Famlist w) (X c : BitVec w) :
    op.apply (fl.temp X) (fl.c1.value * c) = fl.temp (op.apply X c) := by
  cases op <;> simp only [Incop.apply, Famlist.temp] <;> ring

/-- The eliminated loop leaves like the original one: it has passed the same states, and where
the variable is live it has the same value. -/
def SameExit (left right : Left State w) : Prop :=
  right.passed = left.passed ∧ right.live = left.live ∧ (left.live = true → right.X = left.X)

theorem sameExit_after {left right : Left State w} (same : SameExit left right) (s : State) :
    SameExit (left.after s) (right.after s) :=
  ⟨congrArg (List.cons s) same.1, same.2⟩

/-- A run of the original loop is a run of the eliminated one, step for step. -/
theorem Replaced.run {biv : Iv sz} {rep : Replacement sz.bits} (replaced : Replaced biv rep)
    {loop : Loop State sz.bits} (X0 : BitVec sz.bits) {steps : Nat} {s : State}
    {X : BitVec sz.bits} {left : Left State sz.bits}
    (terminates : original biv rep.fl loop steps s X (rep.fl.temp X) = some left)
    (telling : RunExact biv rep.fl loop steps s X (rep.fl.temp X)) :
    ∃ right, eliminated biv rep loop X0 steps s (rep.fl.temp X) = some right ∧
      SameExit left right := by
  induction steps generalizing s X left with
  | zero => exact absurd terminates nofun
  | succ steps inductionHypothesis =>
    rw [original] at terminates
    rw [RunExact] at telling
    rw [eliminated]
    cases action : loop.next s (rep.fl.temp X) with
    | work after =>
      simp only [action] at terminates telling ⊢
      obtain ⟨rest, terminatesRest, rfl⟩ := Option.map_eq_some_iff.1 terminates
      obtain ⟨right, run, same⟩ := inductionHypothesis terminatesRest telling
      exact ⟨right.after s, by rw [run, Option.map_some], sameExit_after same s⟩
    | increment after =>
      simp only [action, apply_temp] at terminates telling ⊢
      obtain ⟨rest, terminatesRest, rfl⟩ := Option.map_eq_some_iff.1 terminates
      obtain ⟨right, run, same⟩ := inductionHypothesis terminatesRest telling
      exact ⟨right.after s, by rw [run, Option.map_some], sameExit_after same s⟩
    | test after =>
      simp only [action] at terminates telling ⊢
      obtain ⟨rest, terminatesRest, rfl⟩ := Option.map_eq_some_iff.1 terminates
      obtain ⟨right, run, same⟩ := inductionHypothesis terminatesRest telling.2
      refine ⟨right.after s, ?_, sameExit_after same s⟩
      rw [replaced.holds telling.1, run, Option.map_some]
    | leave live after =>
      simp only [action] at terminates telling ⊢
      obtain rfl := Option.some.inj terminates
      refine ⟨_, rfl, rfl, rfl, fun isLive => ?_⟩
      have isLive' : live = true := isLive
      simp only [isLive', if_true]
      exact restore_temp replaced.positive (telling isLive')

/-- Where `elimbasivs` replaces the variable of a loop, every run of the original loop that ends
is a run of the new one: it passes the same states, hence makes the same iterations, and the
variable has the same value wherever it is live at the exit. This holds of every run in which, at
every test, the temporary and the bound wrap around equally often, and the product of factor and
variable does not wrap around at the exit. -/
theorem elimbasivs_keeps_runs {flcmp : Famlist sz.bits → Famlist sz.bits → Bool} {biv : Iv sz}
    {rep : Replacement sz.bits} (eliminates : elimbasivs flcmp biv = some rep)
    (loop : Loop State sz.bits) {steps : Nat} {s : State} {X : BitVec sz.bits}
    {left : Left State sz.bits}
    (terminates : original biv rep.fl loop steps s X (rep.fl.temp X) = some left)
    (telling : RunExact biv rep.fl loop steps s X (rep.fl.temp X)) :
    ∃ right, eliminated biv rep loop X steps s (rep.fl.temp X) = some right ∧
      SameExit left right :=
  (replaced_of_elimbasivs eliminates).run X terminates telling

/-! ### Loops that count -/

/-- The loop that increments the variable as long as the test holds, and then uses it. -/
def counting (w : Nat) : Loop (Fin 3) w where
  next s _ :=
    match s with
    | 0 => .increment 1
    | 1 => .test fun outcome => if outcome then 0 else 2
    | 2 => .leave true 2

/-- A signed variable that is incremented by one and compared with `e`, and its temporary. -/
def counter (sz : Size) (c1 c2 e : BitVec sz.bits) (const : Bool) : Iv sz where
  uns := false
  incop := .addass
  incr := { const := true, uns := false, value := 1 }
  nogoal := true
  catchRef := false
  IVfamily :=
    [{ c1 := { const := true, uns := false, value := c1 }
       c2 := { const := true, uns := false, value := c2 }
       FLtemp := true, FLuns := false, constant := rfl }]
  ref := .left .lt false { const := const, uns := false, value := e }
  touns := false

/-- The first of two variables of a family is the simpler one. -/
def first {w : Nat} (_ _ : Famlist w) : Bool := true

/-- The replacement of the counter. -/
def counted (sz : Size) (c1 c2 e : BitVec sz.bits) (const : Bool) : Replacement sz.bits where
  fl :=
    { c1 := { const := true, uns := false, value := c1 }
      c2 := { const := true, uns := false, value := c2 }
      FLtemp := true, FLuns := false, constant := rfl }
  op := .lt
  uns := false
  fofe := { const := const, uns := false, value := e * c1 + c2 }

/-- A loop from 0 to 3 over a temporary `4 * X + 100`. -/
theorem elimbasivs_keeps_runs_four :
    elimbasivs first (counter .LONGSIZE 4 100 3 false) = some (counted .LONGSIZE 4 100 3 false) ∧
      ∃ left right,
        original (counter .LONGSIZE 4 100 3 false) (counted .LONGSIZE 4 100 3 false).fl
          (counting 32) 9 0 0 100 = some left ∧
        eliminated (counter .LONGSIZE 4 100 3 false) (counted .LONGSIZE 4 100 3 false)
          (counting 32) 0 9 0 100 = some right ∧ SameExit left right := by
  have eliminates : elimbasivs first (counter .LONGSIZE 4 100 3 false) =
      some (counted .LONGSIZE 4 100 3 false) := rfl
  have terminates : original (counter .LONGSIZE 4 100 3 false)
      (counted .LONGSIZE 4 100 3 false).fl (counting 32) 9 0 0 100 =
      some { passed := [0, 1, 0, 1, 0, 1, 2, 2], live := true, X := 3 } := rfl
  have telling : RunExact (counter .LONGSIZE 4 100 3 false)
      (counted .LONGSIZE 4 100 3 false).fl (counting 32) 9 0 0 100 := by
    refine ⟨?_, ?_, ?_, fun _ => ?_⟩
    · exact ⟨by decide, rfl⟩
    · exact ⟨by decide, rfl⟩
    · exact ⟨by decide, rfl⟩
    · exact ⟨by decide, by decide, by decide⟩
  obtain ⟨right, run, same⟩ :=
    elimbasivs_keeps_runs eliminates (counting 32) terminates telling
  exact ⟨eliminates, _, right, terminates, run, same⟩

/-- The eliminated loop leaves at another iteration than the original one. -/
def Diverges (sz : Size) (c1 c2 e : BitVec sz.bits) (const : Bool) (steps : Nat)
    (X : BitVec sz.bits) : Prop :=
  elimbasivs first (counter sz c1 c2 e const) = some (counted sz c1 c2 e const) ∧
    ∃ left right,
      original (counter sz c1 c2 e const) (counted sz c1 c2 e const).fl (counting sz.bits) steps 0 X
        ((counted sz c1 c2 e const).fl.temp X) = some left ∧
      eliminated (counter sz c1 c2 e const) (counted sz c1 c2 e const) (counting sz.bits) X steps 0
        ((counted sz c1 c2 e const).fl.temp X) = some right ∧
      right.passed.length < left.passed.length

/-- Three loops that make fewer iterations once the variable is eliminated: over `2 * X` with a
variable bound of 2^30, from 2^30 - 2; over `4 * X + 0x7FFFFFF0` with the constant bound 10, from
0; and in 8 bytes over `2^62 * X` with the constant bound 4, from 0. -/
theorem elimbasivs_loses_iterations :
    Diverges .LONGSIZE 2 0 0x40000000 false 9 0x3FFFFFFE ∧
      Diverges .LONGSIZE 4 0x7FFFFFF0 10 true 99 0 ∧
      Diverges .LLONGSIZE 0x4000000000000000 0 4 true 20 0 := by
  refine ⟨⟨rfl, _, _, rfl, rfl, ?_⟩, ⟨rfl, _, _, rfl, rfl, ?_⟩, ⟨rfl, _, _, rfl, rfl, ?_⟩⟩ <;> decide

end LaserD.Ivs
