/-
This file proves when comparisons of different widths and signs agree, and what a test of
a tree says.

A sign extension keeps both orders, and a zero extension turns either into the unsigned
one. The two orders agree where both values are in the same half of the range.
-/

import LaserD.Cgelem.Compare

namespace LaserD.Cgelem

/-! ### Extended operands -/

theorem less_unsigned (size : Size) (x y : Nat) : less size true x y = decide (x < y) := rfl

theorem less_signed (size : Size) (x y : Nat) :
    less size false x y = decide (signed size x < signed size y) := rfl

/-- Comparisons agree where equality and both orders do. -/
theorem relation_congr {size size' : Size} {uns uns' : Bool} {x y x' y' : Nat} (op : Relation)
    (same : x = y ↔ x' = y') (below : less size uns x y = less size' uns' x' y')
    (above : less size uns y x = less size' uns' y' x') :
    relation op size uns x y = relation op size' uns' x' y' := by
  have equal : (x == y) = (x' == y') := by
    rw [Bool.eq_iff_iff, beq_iff_eq, beq_iff_eq]
    exact same
  cases op with
  | eqeq => exact equal
  | ne => exact congrArg not equal
  | lt => exact below
  | le => exact congrArg not above
  | gt => exact above
  | ge => exact congrArg not below

/-- A wider size has at least twice the values. -/
theorem two_pow_bits_lt {narrow wide : Size} (wider : narrow.bits < wide.bits) :
    2 * 2 ^ (narrow.bits - 1) ≤ 2 ^ (wide.bits - 1) := by
  rw [← two_pow_bits]
  exact Nat.pow_le_pow_right Nat.two_pos (Nat.le_sub_one_of_lt wider)

/-- A sign extension adds the values between the two widths to the upper half. -/
theorem signExtend_eq {narrow wide : Size} (wider : narrow.bits < wide.bits) {x : Nat}
    (small : x < 2 ^ narrow.bits) :
    wrap wide (signed narrow x) =
      if x < 2 ^ (narrow.bits - 1) then x else x + (2 ^ wide.bits - 2 ^ narrow.bits) := by
  have order := two_pow_bits_lt wider
  have half := two_pow_bits narrow
  have whole := two_pow_bits wide
  have halfCast : ((2 ^ narrow.bits : Nat) : Int) = 2 ^ narrow.bits := by push_cast; rfl
  have wholeCast : ((2 ^ wide.bits : Nat) : Int) = 2 ^ wide.bits := by push_cast; rfl
  unfold wrap signed
  split_ifs with low
  · rw [Int.emod_eq_of_lt (by omega) (by omega)]
    exact Int.toNat_natCast x
  · rw [← Int.add_emod_right, Int.emod_eq_of_lt (by omega) (by omega)]
    omega

theorem signed_signExtend {narrow wide : Size} (wider : narrow.bits < wide.bits) {x : Nat}
    (small : x < 2 ^ narrow.bits) :
    signed wide (wrap wide (signed narrow x)) = signed narrow x := by
  have order := two_pow_bits_lt wider
  have half := two_pow_bits narrow
  have whole := two_pow_bits wide
  have halfCast : ((2 ^ narrow.bits : Nat) : Int) = 2 ^ narrow.bits := by push_cast; rfl
  have wholeCast : ((2 ^ wide.bits : Nat) : Int) = 2 ^ wide.bits := by push_cast; rfl
  rw [signExtend_eq wider small]
  unfold signed
  split_ifs <;> omega

/-- A sign extension keeps both orders. -/
theorem relation_signExtend {narrow wide : Size} (wider : narrow.bits < wide.bits)
    (op : Relation) (uns : Bool) {x y : Nat} (xSmall : x < 2 ^ narrow.bits)
    (ySmall : y < 2 ^ narrow.bits) :
    relation op wide uns (wrap wide (signed narrow x)) (wrap wide (signed narrow y)) =
      relation op narrow uns x y := by
  have order := two_pow_bits_lt wider
  have half := two_pow_bits narrow
  have whole := two_pow_bits wide
  have keeps {x y : Nat} (xSmall : x < 2 ^ narrow.bits) (ySmall : y < 2 ^ narrow.bits) :
      less wide uns (wrap wide (signed narrow x)) (wrap wide (signed narrow y)) =
        less narrow uns x y := by
    cases uns with
    | true =>
      rw [less_unsigned, less_unsigned, decide_eq_decide, signExtend_eq wider xSmall,
        signExtend_eq wider ySmall]
      split_ifs <;> omega
    | false =>
      rw [less_signed, less_signed, signed_signExtend wider xSmall,
        signed_signExtend wider ySmall]
  refine relation_congr op ?_ (keeps xSmall ySmall) (keeps ySmall xSmall)
  constructor
  · intro same
    refine signed_inj xSmall ySmall ?_
    rw [← signed_signExtend wider xSmall, same, signed_signExtend wider ySmall]
  · rintro rfl
    rfl

/-- A zero extension turns either order into the unsigned one. -/
theorem relation_zeroExtend {narrow wide : Size} (wider : narrow.bits < wide.bits)
    (op : Relation) (uns : Bool) {x y : Nat} (xSmall : x < 2 ^ narrow.bits)
    (ySmall : y < 2 ^ narrow.bits) :
    relation op wide uns x y = relation op narrow true x y := by
  have order := two_pow_bits_lt wider
  have half := two_pow_bits narrow
  have whole := two_pow_bits wide
  have keeps {x y : Nat} (xSmall : x < 2 ^ narrow.bits) (ySmall : y < 2 ^ narrow.bits) :
      less wide uns x y = less narrow true x y := by
    cases uns with
    | true => rfl
    | false =>
      rw [less_signed, less_unsigned, decide_eq_decide]
      unfold signed
      rw [if_pos (by omega), if_pos (by omega)]
      omega
  exact relation_congr op Iff.rfl (keeps xSmall ySmall) (keeps ySmall xSmall)

/-- Where both values are in the same half, the two orders agree; where they are not, they are
opposite. -/
theorem less_sign {size : Size} {x y : Nat} (xSmall : x < 2 ^ size.bits)
    (ySmall : y < 2 ^ size.bits) :
    less size false x y =
      if (x < 2 ^ (size.bits - 1) ↔ y < 2 ^ (size.bits - 1)) then less size true x y
      else less size true y x := by
  have half := two_pow_bits size
  have cast : ((2 ^ size.bits : Nat) : Int) = 2 ^ size.bits := by push_cast; rfl
  rw [less_signed, less_unsigned, less_unsigned]
  unfold signed
  by_cases xLow : x < 2 ^ (size.bits - 1)
  · by_cases yLow : y < 2 ^ (size.bits - 1)
    · rw [if_pos xLow, if_pos yLow, if_pos (iff_of_true xLow yLow), decide_eq_decide]
      omega
    · rw [if_pos xLow, if_neg yLow, if_neg (fun same => yLow (same.mp xLow)), decide_eq_decide]
      omega
  · by_cases yLow : y < 2 ^ (size.bits - 1)
    · rw [if_neg xLow, if_pos yLow, if_neg (fun same => xLow (same.mpr yLow)), decide_eq_decide]
      omega
    · rw [if_neg xLow, if_neg yLow, if_pos (iff_of_false xLow yLow), decide_eq_decide]
      omega

/-- The comparisons that look at an order. -/
def Relation.isOrder : Relation → Bool
  | .eqeq => false
  | .ne => false
  | _ => true

/-- The two readings of a comparison agree exactly where it looks at no order or both values are in
the same half. -/
theorem relation_sign_iff {size : Size} {x y : Nat} (op : Relation) (xSmall : x < 2 ^ size.bits)
    (ySmall : y < 2 ^ size.bits) :
    relation op size false x y = relation op size true x y ↔
      (op.isOrder = true → (x < 2 ^ (size.bits - 1) ↔ y < 2 ^ (size.bits - 1))) := by
  have first := less_sign xSmall ySmall
  have second := less_sign ySmall xSmall
  have opposite (different : ¬ (x < 2 ^ (size.bits - 1) ↔ y < 2 ^ (size.bits - 1))) :
      less size true x y ≠ less size true y x := by
    rw [less_unsigned, less_unsigned, Ne, decide_eq_decide]
    omega
  by_cases same : x < 2 ^ (size.bits - 1) ↔ y < 2 ^ (size.bits - 1)
  · rw [if_pos same] at first
    rw [if_pos same.symm] at second
    exact iff_of_true (relation_congr op Iff.rfl first second) fun _ => same
  · rw [if_neg same] at first
    rw [if_neg (fun other => same other.symm)] at second
    have differ := opposite same
    cases op with
    | eqeq => exact iff_of_true rfl fun order => absurd order Bool.false_ne_true
    | ne => exact iff_of_true rfl fun order => absurd order Bool.false_ne_true
    | lt =>
      refine iff_of_false (fun agree => differ ?_) fun holds => same (holds rfl)
      exact (first.symm.trans agree).symm
    | le =>
      refine iff_of_false (fun agree => differ ?_) fun holds => same (holds rfl)
      exact second.symm.trans (Bool.not_inj agree)
    | gt =>
      refine iff_of_false (fun agree => differ ?_) fun holds => same (holds rfl)
      exact second.symm.trans agree
    | ge =>
      refine iff_of_false (fun agree => differ ?_) fun holds => same (holds rfl)
      exact (first.symm.trans (Bool.not_inj agree)).symm

/-! ### The truth of a tree -/

section Truth

variable {World : Type} {env : Environment World} {state : State World}

/-- Whether the value of a tree is not zero. -/
def truth (env : Environment World) (state : State World) (e : Tree) : Option Bool :=
  (value env state e).map (· != 0)

theorem ofBool_bne_zero (b : Bool) : (ofBool b != 0) = b := by
  cases b <;> rfl

theorem truth_rel {E1 E2 : Tree} (pure₁ : sideEffect E1 = false) (pure₂ : sideEffect E2 = false)
    (op : Relation) (Ety : Ty) :
    truth env state (.bin (.rel op) Ety E1 E2) =
      (value env state E1).bind fun x => (value env state E2).map fun y =>
        relation op E1.size (E1.uns || E2.uns) x y := by
  rw [truth, value_rel pure₁ pure₂]
  cases value env state E1 with
  | none => rfl
  | some x =>
    cases value env state E2 with
    | none => rfl
    | some y => exact congrArg some (ofBool_bne_zero _)

theorem truth_rel_const {E1 : Tree} (pure₁ : sideEffect E1 = false) (op : Relation) (Ety ty : Ty)
    (c : BitVec 64) :
    truth env state (.bin (.rel op) Ety E1 (.const ty c)) =
      (value env state E1).map fun x =>
        relation op E1.size (E1.uns || ty.isUnsigned) x (low ty.size c.toNat) := by
  rw [truth_rel pure₁ rfl]
  simp only [value_const]
  cases value env state E1 <;> rfl

theorem truth_not {E1 : Tree} (pure : sideEffect E1 = false) (Ety : Ty) :
    truth env state (.una .not Ety E1) = (value env state E1).map (· == 0) := by
  rw [truth, value_una pure]
  cases value env state E1 with
  | none => rfl
  | some x =>
    show some (low Ety.size (ofBool (decide (x = 0))) != 0) = some (x == 0)
    rw [low_ofBool, ofBool_bne_zero]
    rfl

theorem truth_bool {E1 : Tree} (pure : sideEffect E1 = false) (Ety : Ty) :
    truth env state (.una .bool Ety E1) = truth env state E1 := by
  rw [truth, truth, value_una pure]
  cases value env state E1 with
  | none => rfl
  | some x =>
    show some (low Ety.size (ofBool (decide (x ≠ 0))) != 0) = some (x != 0)
    rw [low_ofBool, ofBool_bne_zero, decide_not]
    rfl

/-- A type of the same size changes no value. -/
theorem run_setTy {e : Tree} {Ety : Ty} (same : Ety.size = e.size) (state : State World) :
    run env (e.setTy Ety) state = run env e state := by
  cases e with
  | leaf ty symbol =>
    rw [Tree.setTy, run, run, same]
    rfl
  | const ty c =>
    rw [Tree.setTy, run, run, same]
    rfl
  | una op ty E1 =>
    rw [Tree.setTy, run, run, same]
    rfl
  | other ty code =>
    rw [Tree.setTy, run, run, same]
    rfl
  | bin op ty E1 E2 =>
    replace same : Ety.size = ty.size := same
    cases op
    case bit =>
      rw [Tree.setTy, run, run]
      cases place env E1 state with
      | none => rfl
      | some result =>
        show some (fetch _ _ _, _) = some (fetch _ _ _, _)
        cases E2 <;> simp only [fetch, Tree.size, Tree.ty, same]
    case andand | oror | rel | btst =>
      rw [Tree.setTy, run, run]
    all_goals
      rw [Tree.setTy, run, run]
      simp only [assign, same]

theorem value_setTy {e : Tree} {Ety : Ty} (same : Ety.size = e.size) :
    value env state (e.setTy Ety) = value env state e := by
  rw [value, value, run_setTy same]

theorem sideEffect_setTy (Ety : Ty) (e : Tree) : sideEffect (e.setTy Ety) = sideEffect e := by
  cases e <;> rfl

end Truth

/-! ### A state with all bits set -/

/-- Memory where every cell has all bits set, and each symbol its own address. -/
def onesEnvironment : Environment Unit := { address := id, other := fun _ _ => none }
@[inherit_doc onesEnvironment] def onesState : State Unit :=
  { cells := fun _ => 2 ^ 64 - 1, world := () }

theorem value_ones_leaf (Ety : Ty) (symbol : Nat) (narrow : Ety.size ≠ .cent) :
    value onesEnvironment onesState (.leaf Ety symbol) = some (2 ^ Ety.size.bits - 1) := by
  rw [value, run]
  refine congrArg some ?_
  show low Ety.size (2 ^ 64 - 1) = 2 ^ Ety.size.bits - 1
  revert narrow
  cases Ety.size <;> decide

/-! ### Constants -/

theorem toInt_eq_signed (size : Size) (v : BitVec size.bits) : v.toInt = signed size v.toNat := by
  have half := two_pow_bits size
  have cast : ((2 ^ size.bits : Nat) : Int) = 2 ^ size.bits := by push_cast; rfl
  unfold signed
  rw [BitVec.toInt_eq_toNat_cond]
  split_ifs <;> omega

theorem toNat_signExtend (narrow wide : Size) (v : BitVec narrow.bits) :
    (v.signExtend wide.bits).toNat = wrap wide (signed narrow v.toNat) := by
  unfold BitVec.signExtend wrap
  rw [BitVec.toNat_ofInt, toInt_eq_signed]
  push_cast
  rfl

theorem low_eq_toNat (size : Size) (c : BitVec 64) :
    low size c.toNat = (c.setWidth size.bits).toNat := (BitVec.toNat_setWidth ..).symm

/-- The value of a constant is that of its extension. -/
theorem low_elTolong (ty : Ty) (c : BitVec 64) :
    low ty.size (elTolong ty c).toNat = low ty.size c.toNat := by
  have signed (width : Nat) (narrow : width ≤ 64) :
      ((c.setWidth width).signExtend 64).setWidth width = c.setWidth width := by
    ext index inside
    rw [BitVec.getElem_setWidth, BitVec.getLsbD_signExtend, if_pos inside,
      decide_eq_true (Nat.lt_of_lt_of_le inside narrow), Bool.true_and, BitVec.getElem_setWidth,
      BitVec.getLsbD_setWidth, decide_eq_true inside, Bool.true_and]
  have unsigned (width : Nat) (narrow : width ≤ 64) :
      ((c.setWidth width).setWidth 64).setWidth width = c.setWidth width := by
    ext index inside
    rw [BitVec.getElem_setWidth, BitVec.getLsbD_setWidth,
      decide_eq_true (Nat.lt_of_lt_of_le inside narrow), Bool.true_and,
      BitVec.getLsbD_eq_getElem inside]
  rw [low_eq_toNat, low_eq_toNat]
  refine congrArg BitVec.toNat ?_
  rcases ty with ⟨size, _ | _⟩ <;> cases size
  · exact signed 8 (by decide)
  · exact signed 16 (by decide)
  · exact signed 32 (by decide)
  · rfl
  · rfl
  · exact unsigned 8 (by decide)
  · exact unsigned 16 (by decide)
  · exact unsigned 32 (by decide)
  · rfl
  · rfl

/-- A constant of an unsigned type extends to its value. -/
theorem toNat_elTolong {ty : Ty} (c : BitVec 64) (uns : ty.isUnsigned = true)
    (narrow : ty.size ≠ .cent) : (elTolong ty c).toNat = low ty.size c.toNat := by
  have extended (width : Nat) (within : width ≤ 64) :
      ((c.setWidth width).setWidth 64).toNat = c.toNat % 2 ^ width := by
    rw [BitVec.toNat_setWidth, BitVec.toNat_setWidth]
    have small : c.toNat % 2 ^ width < 2 ^ 64 :=
      Nat.lt_of_lt_of_le (Nat.mod_lt _ (Nat.two_pow_pos _))
        (Nat.pow_le_pow_right Nat.two_pos within)
    exact Nat.mod_eq_of_lt small
  obtain ⟨size, sign⟩ := ty
  obtain rfl : sign = true := uns
  cases size
  · exact extended 8 (by decide)
  · exact extended 16 (by decide)
  · exact extended 32 (by decide)
  · exact (Nat.mod_eq_of_lt c.isLt).symm
  · exact absurd rfl narrow

/-- A constant of a signed type extends to the signed reading of its value. -/
theorem toInt_elTolong {ty : Ty} (c : BitVec 64) (sign : ty.isUnsigned = false)
    (narrow : ty.size ≠ .cent) :
    (elTolong ty c).toInt = signed ty.size (low ty.size c.toNat) := by
  have extended (size : Size) (within : size.bits ≤ 64) :
      ((c.setWidth size.bits).signExtend 64).toInt = signed size (low size c.toNat) := by
    rw [BitVec.toInt_signExtend_of_le within, toInt_eq_signed, low_eq_toNat]
  obtain ⟨size, isUnsigned⟩ := ty
  obtain rfl : isUnsigned = false := sign
  cases size
  · exact extended .char (by decide)
  · exact extended .short (by decide)
  · exact extended .long (by decide)
  · refine (toInt_eq_signed .llong c).trans (congrArg (signed .llong) ?_)
    exact (Nat.mod_eq_of_lt c.isLt).symm
  · exact absurd rfl narrow

/-- A constant that extends to a small number has that value. -/
theorem low_of_elTolong {ty : Ty} {c : BitVec 64}
    (small : (elTolong ty c).toNat < 2 ^ ty.size.bits) :
    low ty.size c.toNat = (elTolong ty c).toNat := by
  rw [← low_elTolong, low_of_lt small]

/-- A constant of four bytes is its lower four bytes. -/
theorem low_long_eq (c : BitVec 64) : low .long c.toNat = (Vuns c).toNat := low_eq_toNat .long c

theorem low_narrower {narrow wide : Size} (within : narrow.bits ≤ wide.bits) (y : Nat) :
    low narrow (low wide y) = low narrow y := Nat.mod_mod_of_dvd _ (pow_dvd_pow 2 within)

theorem low_wider {narrow wide : Size} (within : narrow.bits ≤ wide.bits) {v : Nat}
    (small : v < 2 ^ narrow.bits) : low wide v = v :=
  low_of_lt (Nat.lt_of_lt_of_le small (Nat.pow_le_pow_right Nat.two_pos within))

theorem Vuns_setVuns (c : BitVec 64) (i : BitVec 32) : Vuns (setVuns c i) = i := by
  unfold Vuns setVuns
  ext index inside
  have mask : ∀ index < 32, (0xFFFFFFFF00000000#64).getLsbD index = false := by decide
  rw [BitVec.getElem_setWidth, BitVec.getLsbD_or, BitVec.getLsbD_and, mask index inside,
    Bool.and_false, Bool.false_or, BitVec.getLsbD_setWidth,
    decide_eq_true (Nat.lt_of_lt_of_le inside (by decide)), Bool.true_and,
    BitVec.getLsbD_eq_getElem inside]

end LaserD.Cgelem
