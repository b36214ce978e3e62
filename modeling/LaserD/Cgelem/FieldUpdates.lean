/-
This file proves which updates of a bit field are lowered right, and assembles the result
for all four functions.

An assignment with an operator computes on the extended bits of the field and stores the
lower bits of the result, whatever is above them. A post operator takes its constant away
from the new value again to get the old one. For an unsigned field it masks what it gets;
for a signed one it does not, and where the sum left the range of the field what it gets
lies outside that range as well.
-/

import Mathlib.Data.Int.ModEq
import LaserD.Cgelem.BitFieldSound
import LaserD.Cgelem.DivideSound

namespace LaserD.Cgelem

open BitFields

section Updates

variable {World : Type} {env : Environment World}

/-! ### Assignments with an operator -/

/-- The operators of an assignment to a bit field whose result below some bit depends on no bit
above it. -/
def Arithmetic.isModular : Arithmetic → Bool
  | .add | .min | .mul | .and | .or | .xor | .shl => true
  | _ => false

theorem arithmetic_sign {op : Arithmetic} (modular : op.isModular = true) (size : Size)
    (uns uns' : Bool) (x y : Nat) : arithmetic op size uns x y = arithmetic op size uns' x y := by
  cases op <;> first | rfl | exact nomatch modular

theorem insertField_congr {w b L v v' : Nat} (same : v % 2 ^ w = v' % 2 ^ w) :
    insertField w b L v = insertField w b L v' := by
  unfold insertField
  rw [same]

theorem low_mod {size : Size} {w : Nat} (fits : w ≤ size.bits) (v : Nat) :
    low size v % 2 ^ w = v % 2 ^ w := Nat.mod_mod_of_dvd _ (pow_dvd_pow 2 fits)

section Operator

variable {goal : Goal} {tmp1 tmp2 : Nat} {op : Arithmetic} {Ety ty1 ty2 : Ty} {state : State World}
variable {l r : Tree} {address w b x y : Nat}
variable (located : Located env tmp1 tmp2 state l address)
variable (operand : Operand env tmp1 tmp2 state r x) (narrow : l.size ≠ .cent) (positive : 1 ≤ w)
variable (fits : w + b ≤ l.size.bits) (same : Ety.size = l.size) (same1 : ty1.size = l.size)
variable (modular : op.isModular = true)
variable (computes : arithmetic op l.size (l.uns || r.uns)
  (fieldValue l.ty w b (state.read l.size address)) x = some y)

include located operand narrow positive fits same modular computes

/-- The masked result that is stored and kept. -/
theorem run_result (uns : l.ty.isUnsigned = true) :
    ∃ after, SameBut [env.address tmp1] state after ∧
      run env (.bin (.arith .and) (touns Ety) (.bin (.arith op) (touns Ety)
        (.bin (.arith .and) (touns Ety)
          (.bin (.arith .shr) (touns Ety) (copies tmp1 l).1 (shiftCount b))
          (elLong (touns Ety) (fieldMask w))) r) (elLong (touns Ety) (fieldMask w))) state =
        some (y % 2 ^ w, after) ∧
      ∀ later, SameBut [env.address tmp2] after later →
        place env (copies tmp1 l).2 later = some (address, later) := by
  have copied := copied_copies located.container tmp1
  have firstSize : (copies tmp1 l).1.size = l.size := congrArg Ty.size copied.ty.1
  have sameT : (touns Ety).size = l.size := same
  obtain ⟨after, sameAfter, found, later⟩ := copied.place located (SameBut.refl _ state)
  have sameBoth : SameBut (temporaries env tmp1 tmp2) state after := sameAfter.mono first_within
  have runsFirst : run env (copies tmp1 l).1 state = some (state.read l.size address, after) := by
    rw [run_container (copied.container located.container).1 found, firstSize,
      sameBoth.read l.size located.outside]
  have down := run_shr (touns Ety) runsFirst (sameT.trans firstSize.symm) b
    (by rw [firstSize]; omega) (by rw [firstSize]; exact narrow)
  have old := run_and (touns Ety) down rfl (touns Ety) rfl (fieldMask w)
  have isOld : state.read l.size address >>> b &&& low (touns Ety).size (fieldMask w).toNat =
      fieldValue l.ty w b (state.read l.size address) := by
    rw [sameT, and_fieldMask narrow fits, Nat.shiftRight_eq_div_pow, fieldValue_unsigned uns]
    rfl
  have result := @run_arith_some World env _ r state after after _ x y op (touns Ety)
    (old.trans (congrArg (fun v => some (v, after)) isOld)) (operand after sameBoth) (by
      rw [← computes, arithmetic_sign modular _ _ (l.uns || r.uns)]
      exact congrArg (fun size => arithmetic op size _ _ _) sameT)
  have masked := run_and (touns Ety) result rfl (touns Ety) rfl (fieldMask w)
  refine ⟨after, sameAfter, masked.trans (congrArg (fun v => some (v, after)) ?_), later⟩
  show low (touns Ety).size y &&& low (touns Ety).size (fieldMask w).toNat = _
  rw [sameT, and_fieldMask narrow fits, low_mod (by omega)]

/-- An unsigned field is read, computed with and stored through one copy of the address. -/
theorem elopass_leaves_unsigned (uns : l.ty.isUnsigned = true) :
    goal.Leaves env tmp1 tmp2
      (elopass goal tmp1 tmp2 op Ety ty1 ty2 l (bitfieldarg w b) r) state
      (fieldValue l.ty w b (insertField w b (state.read l.size address) y))
      (state.write l.size address (insertField w b (state.read l.size address) y)) := by
  have limit := Size.bits_le l.size narrow
  obtain ⟨width, offset, -⟩ := @fieldWidth_bitfieldarg w b (by omega) (by omega)
  have copied := copied_copies located.container tmp1
  have againContainer := (copied.container located.container).2
  have againSize : (copies tmp1 l).2.size = l.size := congrArg Ty.size copied.ty.2
  have sameT : (touns Ety).size = l.size := same
  obtain ⟨after, sameAfter, result, later⟩ := @run_result World env tmp1 tmp2 op Ety state l r
    address w b x y located operand narrow positive fits same modular computes uns
  have outside : address ∉ temporaries env tmp1 tmp2 := located.outside
  have store {e : Tree} {middle : State World} (sizeE : (touns Ety).size = e.size)
      (runs : run env e state = some (y % 2 ^ w, middle))
      (sameMiddle : SameBut [env.address tmp2] after middle) :
      run env (.bin .eq (touns Ety) (copies tmp1 l).2
          (blend (touns Ety) e (copies tmp1 l).2 b (fieldMask w))) state =
        some (insertField w b (state.read l.size address) y,
          middle.write l.size address (insertField w b (state.read l.size address) y)) ∧
      SameBut (temporaries env tmp1 tmp2)
        (state.write l.size address (insertField w b (state.read l.size address) y))
        (middle.write l.size address (insertField w b (state.read l.size address) y)) := by
    have found := later middle sameMiddle
    have sameBoth : SameBut (temporaries env tmp1 tmp2) state middle :=
      (sameAfter.mono first_within).trans (sameMiddle.mono second_within)
    have reads : run env (copies tmp1 l).2 middle = some (state.read l.size address, middle) := by
      rw [run_container againContainer found, againSize, sameBoth.read l.size outside]
    have masked : y % 2 ^ w = y &&& low (touns Ety).size (fieldMask w).toNat := by
      rw [sameT, and_fieldMask narrow fits]
    have stored := @run_field_store World env e (copies tmp1 l).2 (copies tmp1 l).2 (touns Ety) w b
      y _ address _ state middle middle againContainer sizeE (sameT.trans againSize.symm)
      (sameT.trans againSize.symm) (by rw [sameT]; exact narrow) positive
      (by rw [sameT]; exact fits) (Or.inl rfl)
      (runs.trans (congrArg (fun v => some (v, middle)) masked)) reads found
    rw [sameT] at stored
    exact ⟨stored, sameBoth.write l.size outside _⟩
  unfold elopass
  simp only [width, offset]
  rw [if_pos uns]
  by_cases none : goal = .none
  · rw [if_pos none]
    obtain ⟨stored, final⟩ := store rfl result (SameBut.refl _ _)
    exact ⟨_, _, stored, final, fun some => absurd none some⟩
  · rw [if_neg none]
    obtain ⟨stored, final⟩ := store rfl (run_saved tmp2 result)
      (SameBut.write_inside _ _ (List.mem_singleton_self _) _)
    have other : env.address tmp2 ≠ address := fun equal =>
      outside (equal ▸ by simp [temporaries])
    have less : y % 2 ^ w < 2 ^ (touns Ety).size.bits := by
      rw [sameT]
      exact Nat.lt_of_lt_of_le (Nat.mod_lt _ (Nat.two_pow_pos _))
        (Nat.pow_le_pow_right Nat.two_pos (by omega))
    refine ⟨_, _, run_comma_some stored (run_temporary _ _ _), final, fun _ => ?_⟩
    rw [State.read_write_of_ne _ _ _ _ other, State.read_write]
    show low (touns Ety).size (low (touns Ety).size (y % 2 ^ w)) = _
    rw [low_low, low_of_lt less, fieldValue_unsigned uns]
    exact (extract_insert w b _ y).symm

include same1

/-- A signed field becomes an assignment of the field with the operator applied to it. -/
theorem elopass_leaves_signed (sign : l.ty.isUnsigned = false) :
    goal.Leaves env tmp1 tmp2
      (elopass goal tmp1 tmp2 op Ety ty1 ty2 l (bitfieldarg w b) r) state
      (fieldValue l.ty w b (insertField w b (state.read l.size address) y))
      (state.write l.size address (insertField w b (state.read l.size address) y)) := by
  have limit := Size.bits_le l.size narrow
  obtain ⟨width, offset, -⟩ := @fieldWidth_bitfieldarg w b (by omega) (by omega)
  have copied := copied_signedCopies located.container tmp1
  have firstTy := copied.ty.1
  have againTy := copied.ty.2
  obtain ⟨after, sameAfter, found, later⟩ := copied.place located (SameBut.refl _ state)
  have sameBoth : SameBut (temporaries env tmp1 tmp2) state after := sameAfter.mono first_within
  have reads : after.read l.size address = state.read l.size address :=
    sameBoth.read l.size located.outside
  have old : run env (.bin .bit ty1 (signedCopies tmp1 l).1 (.const ty2 (bitfieldarg w b))) state =
      some (fieldValue l.ty w b (state.read l.size address), after) := by
    simp only [run, found, Option.bind_eq_bind, Option.bind_some, fetch, width, offset]
    refine congrArg (fun v => some (v, after)) ?_
    rw [show (signedCopies tmp1 l).1.size = l.size from congrArg Ty.size firstTy, firstTy, reads,
      same1]
    exact low_of_lt (fieldValue_lt l.ty fits _)
  have result := @run_arith_some World env _ r state after after _ x y op (touns Ety) old
    (operand after sameBoth) (by
      rw [← computes, arithmetic_sign modular _ _ (l.uns || r.uns)]
      exact congrArg (fun size => arithmetic op size _ _ _) same1)
  have stored := @run_eq_some World env
    (.bin .bit ty1 (signedCopies tmp1 l).2 (.const ty2 (bitfieldarg w b))) _ state after after _
    Ety address result (by rw [place]; exact later after (SameBut.refl _ _))
  have kept : insertField w b (state.read l.size address) (low (touns Ety).size y) =
      insertField w b (state.read l.size address) y :=
    insertField_congr (low_mod (by show w ≤ Ety.size.bits; rw [same]; omega) y)
  have small : insertField w b (state.read l.size address) y < 2 ^ l.size.bits :=
    insertField_lt (State.read_lt _ _ _) fits y
  unfold elopass
  rw [if_neg (by rw [sign]; exact Bool.false_ne_true)]
  refine ⟨_, _, stored, ?_, fun _ => ?_⟩
  · simp only [store, width, offset]
    rw [show (signedCopies tmp1 l).2.size = l.size from congrArg Ty.size againTy, reads, kept]
    exact sameBoth.write l.size located.outside _
  · simp only [store, fetch, width, offset]
    rw [show (signedCopies tmp1 l).2.size = l.size from congrArg Ty.size againTy, againTy, reads,
      kept, State.read_write, low_of_lt small, same, same1, low_low]
    exact low_of_lt (fieldValue_lt l.ty fits _)

end Operator

/-! ### Post operators -/

/-- What a post operator makes of a value. -/
def posted (isPostinc : Bool) (size : Size) (old c : Nat) : Nat :=
  if isPostinc then low size (old + c) else wrap size (old - c)

/-- Whether a value, read as signed, lies in the range of a signed field. -/
def FitsField (size : Size) (w y : Nat) : Prop :=
  -2 ^ (w - 1) ≤ signed size y ∧ signed size y < 2 ^ (w - 1)

theorem wrap_congr {size : Size} {x y : Int} (same : x % 2 ^ size.bits = y % 2 ^ size.bits) :
    wrap size x = wrap size y := by
  unfold wrap
  rw [same]

theorem wrap_mod {size : Size} {w : Nat} (fits : w ≤ size.bits) (x : Int) :
    ((wrap size x % 2 ^ w : Nat) : Int) = x % 2 ^ w := by
  push_cast
  rw [natCast_wrap]
  exact Int.emod_emod_of_dvd x (pow_dvd_pow 2 fits)

/-- The sum that is stored, as a number. -/
theorem posted_eq (isPostinc : Bool) (size : Size) (old c : Nat) :
    posted isPostinc size old c = wrap size (old + if isPostinc then (c : Int) else -c) := by
  unfold posted
  cases isPostinc with
  | true =>
    rw [if_pos rfl, if_pos rfl, ← wrap_natCast]
    push_cast
    rfl
  | false =>
    rw [if_neg Bool.false_ne_true, if_neg Bool.false_ne_true, Int.sub_eq_add_neg]

/-- The constant that is taken away again, as a number. -/
theorem low_again {size : Size} (narrow : size ≠ .cent) (isPostinc : Bool) {ty3 : Ty}
    (same : ty3.size = size) (c : BitVec 64) :
    ((low size (if isPostinc then elTolong ty3 c else -elTolong ty3 c).toNat : Nat) : Int) %
        2 ^ size.bits =
      (if isPostinc then ((low size c.toNat : Nat) : Int) else -(low size c.toNat : Nat)) %
        2 ^ size.bits := by
  have value : low size (elTolong ty3 c).toNat = low size c.toNat := by
    rw [← same, low_elTolong]
  cases isPostinc with
  | true => rw [if_pos rfl, if_pos rfl, value]
  | false =>
    have divides : (2 : Int) ^ size.bits ∣ 18446744073709551616 :=
      pow_dvd_pow 2 (Size.bits_le size narrow)
    rw [if_neg Bool.false_ne_true, if_neg Bool.false_ne_true, ← value, BitVec.toNat_neg]
    generalize (elTolong ty3 c) = v
    have less := v.isLt
    unfold low
    push_cast [Nat.cast_sub (Nat.le_of_lt less)]
    rw [Int.emod_emod_of_dvd _ divides, Int.emod_emod_of_dvd _ (dvd_refl _)]
    have whole : 18446744073709551616 ≡ 0 [ZMOD 2 ^ size.bits] := Int.modEq_zero_iff_dvd.mpr divides
    have opposite : -((v.toNat : Int) % 2 ^ size.bits) ≡ -v.toNat [ZMOD 2 ^ size.bits] :=
      (Int.mod_modEq _ _).neg
    have difference := whole.sub_right (v.toNat : Int)
    rw [Int.zero_sub] at difference
    exact difference.trans opposite.symm

/-- Taking the constant away from the lower bits of the sum, and masking, gives the old value. -/
theorem posted_back {size : Size} {w old : Nat} (fits : w ≤ size.bits) (small : old < 2 ^ w)
    (d : Int) : wrap size (((wrap size (old + d) % 2 ^ w : Nat) : Int) - d) % 2 ^ w = old := by
  refine Int.ofNat_inj.mp ?_
  rw [wrap_mod fits, wrap_mod fits, Int.emod_sub_emod, Int.add_sub_cancel]
  have whole := two_pow_cast w
  exact Int.emod_eq_of_lt (Int.natCast_nonneg old) (by omega)

/-- Taking the constant away from a value gives the old one exactly where the value is the sum. -/
theorem wrap_back_iff {size : Size} {new old : Nat} (newSmall : new < 2 ^ size.bits)
    (oldSmall : old < 2 ^ size.bits) (d : Int) :
    wrap size (new - d) = old ↔ new = wrap size (old + d) := by
  have isNew : wrap size new = new := (wrap_natCast size new).trans (low_of_lt newSmall)
  have isOld : wrap size old = old := (wrap_natCast size old).trans (low_of_lt oldSmall)
  constructor
  · intro back
    rw [← isNew, ← back, natCast_wrap]
    refine wrap_congr ?_
    rw [Int.emod_add_emod, Int.sub_add_cancel]
  · intro same
    rw [← isOld, same, natCast_wrap, isOld]
    refine (wrap_congr ?_).trans isOld
    rw [Int.emod_sub_emod, Int.add_sub_cancel]

/-- The lower bits of a value, extended by their sign, are the value exactly where it lies in the
range of the field. -/
theorem fieldValue_eq_self_iff {ty : Ty} (sign : ty.isUnsigned = false) {w y : Nat}
    (positive : 1 ≤ w) (fits : w ≤ ty.size.bits) (small : y < 2 ^ ty.size.bits) :
    fieldValue ty w 0 y = y ↔ FitsField ty.size w y := by
  have lowest : extract w 0 y = y % 2 ^ w := by
    unfold extract
    rw [Nat.pow_zero, Nat.div_one]
  have half : 2 ^ w = 2 * 2 ^ (w - 1) := by
    rw [← Nat.pow_succ']
    congr 1
    omega
  have whole := two_pow_bits ty.size
  obtain ⟨times, multiple⟩ : 2 ^ w ∣ 2 ^ ty.size.bits := pow_dvd_pow 2 fits
  have within : 2 ^ w ≤ 2 ^ ty.size.bits := Nat.pow_le_pow_right Nat.two_pos fits
  have below : 2 ^ (w - 1) ≤ 2 ^ (ty.size.bits - 1) := by omega
  have halfCast := two_pow_cast (w - 1)
  have wholeCast := two_pow_cast ty.size.bits
  have rest : y % 2 ^ w < 2 ^ w := Nat.mod_lt _ (Nat.two_pow_pos _)
  rw [fieldValue_signed sign, lowest]
  unfold FitsField
  constructor
  · intro same
    rw [← same]
    unfold signed
    split_ifs at same ⊢ <;> omega
  · rintro ⟨lower, upper⟩
    by_cases natural : y < 2 ^ (ty.size.bits - 1)
    · rw [signed_of_lt natural] at upper
      have inside : y % 2 ^ w = y := Nat.mod_eq_of_lt (by omega)
      rw [inside, if_pos (by omega)]
    · rw [signed_of_le (Nat.le_of_not_lt natural)] at lower
      have inside : y % 2 ^ w = y - (2 ^ ty.size.bits - 2 ^ w) := by
        have shifted : y = (y - (2 ^ ty.size.bits - 2 ^ w)) + 2 ^ w * (times - 1) := by
          rw [Nat.mul_sub, ← multiple, Nat.mul_one]
          omega
        rw [shifted, Nat.add_mul_mod_self_left, ← shifted]
        exact Nat.mod_eq_of_lt (by omega)
      rw [inside, if_neg (by omega)]
      omega

section Post

variable {isPostinc : Bool} {ty ty1 ty2 ty3 : Ty} {c : BitVec 64} {l : Tree} {address w b : Nat}
variable {state : State World}
variable (found : place env l state = some (address, state)) (narrow : l.size ≠ .cent)
variable (positive : 1 ≤ w) (fits : w + b ≤ l.size.bits) (same : ty.size = l.size)
variable (same1 : ty1.size = l.size) (same3 : ty3.size = l.size)

include found narrow positive fits same same1 same3

/-- What the update of a post operator leaves. -/
theorem run_posted :
    run env (.bin (.arithass (if isPostinc then .add else .min)) ty
        (.bin .bit ty1 l (.const ty2 (bitfieldarg w b))) (.const ty3 c)) state =
      some (fieldValue l.ty w 0 (posted isPostinc l.size
          (fieldValue l.ty w b (state.read l.size address)) (low l.size c.toNat)),
        state.write l.size address (insertField w b (state.read l.size address)
          (posted isPostinc l.size (fieldValue l.ty w b (state.read l.size address))
            (low l.size c.toNat)))) := by
  have limit := Size.bits_le l.size narrow
  obtain ⟨width, offset, -⟩ := @fieldWidth_bitfieldarg w b (by omega) (by omega)
  set L := state.read l.size address with isL
  set y := posted isPostinc l.size (fieldValue l.ty w b L) (low l.size c.toNat) with isy
  have old : fetch (.bin .bit ty1 l (.const ty2 (bitfieldarg w b))) address state =
      fieldValue l.ty w b L := by
    simp only [fetch, width, offset]
    rw [same1]
    exact low_of_lt (fieldValue_lt l.ty fits L)
  have sum : arithmetic (if isPostinc then .add else .min) ty1.size (ty1.isUnsigned || ty3.isUnsigned)
      (fieldValue l.ty w b L) (low ty3.size c.toNat) = some y := by
    rw [same1, same3, isy]
    cases isPostinc <;> rfl
  have small : insertField w b L y < 2 ^ l.size.bits :=
    insertField_lt (State.read_lt _ _ _) fits y
  have shape : place env (.bin .bit ty1 l (.const ty2 (bitfieldarg w b))) state =
      some (address, state) := by
    rw [place, found]
  rw [run_arithass_const, shape]
  show (arithmetic _ ty1.size _ (fetch _ address state) _).map _ = _
  rw [old, show (Tree.bin .bit ty1 l (.const ty2 (bitfieldarg w b))).uns = ty1.isUnsigned from rfl,
    sum]
  show some (assign ty _ address y state) = _
  simp only [assign, store, fetch, width, offset]
  have less : fieldValue l.ty w 0 y < 2 ^ l.size.bits :=
    fieldValue_lt l.ty (show w + 0 ≤ l.size.bits by omega) y
  rw [← isL, State.read_write, low_of_lt small, fieldValue_insertField, same, same1, low_low,
    low_of_lt less]

/-- A post operator gives the old value for an unsigned field, and for a signed one exactly where
the sum fits it. -/
theorem run_elpost_iff :
    run env (elpost isPostinc ty ty1 ty2 l (bitfieldarg w b) ty3 c) state =
        some (fieldValue l.ty w b (state.read l.size address),
          state.write l.size address (insertField w b (state.read l.size address)
            (posted isPostinc l.size (fieldValue l.ty w b (state.read l.size address))
              (low l.size c.toNat)))) ↔
      (l.uns = false → FitsField l.size w (posted isPostinc l.size
        (fieldValue l.ty w b (state.read l.size address)) (low l.size c.toNat))) := by
  have limit := Size.bits_le l.size narrow
  obtain ⟨width, -, -⟩ := @fieldWidth_bitfieldarg w b (by omega) (by omega)
  have update := @run_posted World env isPostinc ty ty1 ty2 ty3 c l address w b state found narrow
    positive fits same same1 same3
  set L := state.read l.size address with isL
  set old := fieldValue l.ty w b L with isOld
  have sum := posted_eq isPostinc l.size old (low l.size c.toNat)
  have sumSmall : posted isPostinc l.size old (low l.size c.toNat) < 2 ^ l.size.bits := by
    rw [sum]
    exact wrap_lt _ _
  set d : Int := if isPostinc then ((low l.size c.toNat : Nat) : Int) else -(low l.size c.toNat : Nat)
    with isd
  set y := posted isPostinc l.size old (low l.size c.toNat) with isy
  have oldSmall : old < 2 ^ l.size.bits := fieldValue_lt l.ty fits L
  have newSmall : fieldValue l.ty w 0 y < 2 ^ l.size.bits :=
    fieldValue_lt l.ty (show w + 0 ≤ l.size.bits by omega) y
  have away := low_again narrow isPostinc same3 c
  have back := @run_arith_some World env _ (elLong ty (if isPostinc then elTolong ty3 c
    else -elTolong ty3 c)) state _ _ _ _ _ .min ty update (run_const _ _ _) rfl
  have subtracted : low ty.size (wrap ty.size ((fieldValue l.ty w 0 y : Nat) -
      (low ty.size (if isPostinc then elTolong ty3 c else -elTolong ty3 c).toNat : Nat))) =
      wrap l.size (fieldValue l.ty w 0 y - d) := by
    rw [same, low_of_lt (wrap_lt _ _)]
    exact wrap_congr ((Int.ModEq.refl _).sub away)
  replace back := back.trans (congrArg (fun v => some (v, _)) subtracted)
  unfold elpost
  simp only [width]
  cases sign : l.ty.isUnsigned with
  | true =>
    have masked := run_and ty back rfl ty rfl (fieldMask w)
    rw [if_pos rfl]
    refine iff_of_true (masked.trans (congrArg (fun v => some (v, _)) ?_)) fun signed => ?_
    · show _ &&& low ty.size (fieldMask w).toNat = old
      have lower : fieldValue l.ty w 0 y = y % 2 ^ w := by
        rw [fieldValue_unsigned sign]
        unfold extract
        rw [Nat.pow_zero, Nat.div_one]
      have within : old < 2 ^ w := by
        rw [isOld, fieldValue_unsigned sign]
        exact extract_lt w b L
      rw [same, and_fieldMask narrow fits, lower, sum]
      exact posted_back (by omega) within d
    · exact absurd (sign.symm.trans signed) Bool.noConfusion
  | false =>
    have values : run env (.bin (.arith .min) ty (.bin (.arithass (if isPostinc then .add else .min))
        ty (.bin .bit ty1 l (.const ty2 (bitfieldarg w b))) (.const ty3 c)) (elLong ty
          (if isPostinc then elTolong ty3 c else -elTolong ty3 c))) state =
        some (old, state.write l.size address (insertField w b L y)) ↔
        wrap l.size (fieldValue l.ty w 0 y - d) = old := by
      rw [back]
      simp
    rw [if_neg Bool.false_ne_true]
    refine values.trans ?_
    rw [wrap_back_iff newSmall oldSmall, ← sum,
      fieldValue_eq_self_iff sign positive (show w ≤ l.size.bits by omega) sumSmall]
    exact ⟨fun holds _ => holds, fun holds => holds sign⟩

end Post

/-! ### All four functions -/

/-- A load gives the bits of the field, extended by the sign of the container; an assignment and an
assignment with an operator put the lower bits of what they compute in the place of the field and
give the value of the field afterwards; and a post operator does so and gives the value before it.
All of that holds exactly where the operand of an assignment is not read again from bits of the
container that the store has changed, and where the sum of a post operator fits a signed field. -/
theorem bitField_sound_iff (config : Config) (goal : Goal) {tmp1 tmp2 : Nat} {state : State World}
    {l r r' : Tree} {address w b x x' : Nat} {t ty1 ty2 ty3 : Ty} {c : BitVec 64}
    (isPostinc : Bool) (located : Located env tmp1 tmp2 state l address)
    (operand : Operand env tmp1 tmp2 state r x) (operand' : Operand env tmp1 tmp2 state r' x')
    (narrow : l.size ≠ .cent) (positive : 1 ≤ w) (fits : w + b ≤ l.size.bits)
    (same : t.size = l.size) (sameR : r.size = l.size) (same1 : ty1.size = l.size)
    (same3 : ty3.size = l.size) :
    let wb := bitfieldarg w b
    let L := state.read l.size address
    let stored (v : Nat) := state.write l.size address (insertField w b L v)
    let after (v : Nat) := fieldValue l.ty w b (insertField w b L v)
    let sum := posted isPostinc l.size (fieldValue l.ty w b L) (low l.size c.toNat)
    (run env (elbit ty1 l wb) state = some (fieldValue l.ty w b L, state) ∧
      goal.Leaves env tmp1 tmp2 (elbitassign config goal tmp1 tmp2 t l wb r) state (after x)
        (stored x) ∧
      (∀ op y, op.isModular = true →
        arithmetic op l.size (l.uns || r'.uns) (fieldValue l.ty w b L) x' = some y →
        goal.Leaves env tmp1 tmp2 (elopass goal tmp1 tmp2 op t ty1 ty2 l wb r') state (after y)
          (stored y)) ∧
      run env (elpost isPostinc t ty1 ty2 l wb ty3 c) state =
        some (fieldValue l.ty w b L, stored sum)) ↔
    (goal ≠ .none → IsVariableAt env r address → ∀ index, b ≤ index → index < w →
      L.testBit (index - b) = L.testBit index) ∧
    (l.uns = false → FitsField l.size w sum) := by
  intro wb L stored after sum
  have found := located.found state (SameBut.refl _ _)
  have loads : run env (elbit ty1 l wb) state = some (fieldValue l.ty w b L, state) :=
    run_elbit narrow positive fits (run_container located.container found) same1
  have assigns := @elbitassign_leaves_iff World env goal tmp1 tmp2 state l r t address w b x config
    located operand narrow positive fits same sameR
  have updates (op : Arithmetic) (y : Nat) (modular : op.isModular = true)
      (computes : arithmetic op l.size (l.uns || r'.uns) (fieldValue l.ty w b L) x' = some y) :
      goal.Leaves env tmp1 tmp2 (elopass goal tmp1 tmp2 op t ty1 ty2 l wb r') state (after y)
        (stored y) := by
    cases sign : l.ty.isUnsigned with
    | true =>
      exact elopass_leaves_unsigned located operand' narrow positive fits same modular computes sign
    | false =>
      exact elopass_leaves_signed located operand' narrow positive fits same same1 modular computes
        sign
  have posts := @run_elpost_iff World env isPostinc t ty1 ty2 ty3 c l address w b state found narrow
    positive fits same same1 same3
  exact ⟨fun ⟨_, assigned, _, post⟩ => ⟨assigns.mp assigned, posts.mp post⟩,
    fun ⟨kept, fit⟩ => ⟨loads, assigns.mpr kept, updates, posts.mpr fit⟩⟩

end Updates

/-! ### Concrete fields -/

/-- A container that holds three at an address of its own. -/
def threeState : State Unit := { cells := fun _ => 3, world := () }

/-- Five bits of a byte that are all ones wrap around to zero, and the old value comes back. -/
theorem bitField_sound_wrap :
    run onesEnvironment (elpost true TYuchar TYuchar TYuint (.leaf TYuchar 5) (bitfieldarg 5 2)
        TYuchar 1) onesState =
      some (31, onesState.write .char 5 (insertField 5 2 255 (posted true .char 31 1))) :=
  ((@bitField_sound_iff Unit onesEnvironment { is64 := true, optimizer := true } .value 7 8
    onesState (.leaf TYuchar 5) (.const TYuchar 1) (.const TYuchar 1) 5 5 2 1 1 TYuchar TYuchar
    TYuint TYuchar 1 true ⟨rfl, by decide, by decide, fun _ _ => rfl⟩ (fun _ _ => rfl)
    (fun _ _ => rfl) (by decide) (by decide) (by decide) rfl rfl rfl rfl).mpr
    ⟨fun _ ⟨_, _, impossible, _⟩ => (nomatch impossible), fun signed => (nomatch signed)⟩).2.2.2

/-- The post-increment of a signed field of three bits that holds three gives minus five, and an
assignment of a variable that shares the container gives what the store has made of it. -/
theorem bitField_wrap_unsound :
    (run onesEnvironment (elpost true TYint TYint TYuint (.leaf TYint 5) (bitfieldarg 3 0) TYint 1)
        threeState).map Prod.fst = some (2 ^ 32 - 5) ∧
      fieldValue TYint 3 0 (threeState.read .long 5) = 3 ∧
      (run onesEnvironment (elbitassign { is64 := true, optimizer := true } .value 7 8 TYuint (.leaf TYuint 5)
        (bitfieldarg 3 2) (.leaf TYuint 5)) threeState).map Prod.fst = some 7 ∧
      fieldValue TYuint 3 2 (insertField 3 2 3 3) = 3 := by
  decide

end LaserD.Cgelem
