/-
This file proves which of the lowered bit fields compute what the field says.

The container is at an address that the temporaries do not touch, and the operand has a
value that does not depend on them. Then a load gives the bits of the field, extended by
the container's sign; a store leaves the container with the operand in the place of the
field; and an assignment with an operator does both.
-/

import LaserD.Cgelem.FieldBits
import LaserD.Cgelem.Copies

namespace LaserD.Cgelem

open BitFields

section Sound

variable {World : Type} {env : Environment World}

/-! ### The value of a field -/

theorem fieldValue_unsigned {ty : Ty} (uns : ty.isUnsigned = true) (w b container : Nat) :
    fieldValue ty w b container = extract w b container := by
  unfold fieldValue
  simp only [uns, Bool.true_or, if_true]
  rfl

theorem fieldValue_signed {ty : Ty} (sign : ty.isUnsigned = false) (w b container : Nat) :
    fieldValue ty w b container =
      if extract w b container < 2 ^ (w - 1) then extract w b container
      else extract w b container + (2 ^ ty.size.bits - 2 ^ w) := by
  unfold fieldValue
  simp only [sign, Bool.false_or, decide_eq_true_eq]
  rfl

theorem fieldValue_lt (ty : Ty) {w b : Nat} (fits : w + b ≤ ty.size.bits) (container : Nat) :
    fieldValue ty w b container < 2 ^ ty.size.bits := by
  have inside := extract_lt w b container
  have within : 2 ^ w ≤ 2 ^ ty.size.bits := Nat.pow_le_pow_right Nat.two_pos (by omega)
  cases sign : ty.isUnsigned with
  | true =>
    rw [fieldValue_unsigned sign]
    exact Nat.lt_of_lt_of_le inside within
  | false =>
    rw [fieldValue_signed sign]
    split_ifs <;> omega

/-- The value of a field is that of its bits alone. -/
theorem fieldValue_congr (ty : Ty) {w b b' container container' : Nat}
    (same : extract w b container = extract w b' container') :
    fieldValue ty w b container = fieldValue ty w b' container' := by
  cases sign : ty.isUnsigned with
  | true => rw [fieldValue_unsigned sign, fieldValue_unsigned sign, same]
  | false => rw [fieldValue_signed sign, fieldValue_signed sign, same]

/-! ### Shifts and masks -/

section Steps

variable {e : Tree} {state after : State World} {x : Nat}

theorem run_const (ty : Ty) (c : BitVec 64) (state : State World) :
    run env (.const ty c) state = some (low ty.size c.toNat, state) := by
  rw [run]

theorem low_shiftCount {count : Nat} (small : count < 64) :
    low .long (BitVec.ofNat 64 count).toNat = count := by
  rw [BitVec.toNat_ofNat, Nat.mod_eq_of_lt (by omega)]
  exact @low_of_lt .long count (by show count < 2 ^ 32; omega)

theorem low_ones {size : Size} (narrow : size ≠ .cent) :
    low size (-1 : BitVec 64).toNat = 2 ^ size.bits - 1 := by
  revert narrow
  cases size <;> decide

variable (ty : Ty) (runs : run env e state = some (x, after)) (same : ty.size = e.size)

include runs same

/-- A mask. -/
theorem run_and (ty' : Ty) (same' : ty'.size = e.size) (m : BitVec 64) :
    run env (.bin (.arith .and) ty e (.const ty' m)) state =
      some (x &&& low e.size m.toNat, after) := by
  have computes := @run_arith_some World env e (.const ty' m) state after after x
    (low ty'.size m.toNat) _ .and ty runs (run_const _ _ _) rfl
  have small : x &&& low e.size m.toNat < 2 ^ e.size.bits :=
    Nat.lt_of_le_of_lt Nat.and_le_left (run_lt runs)
  rw [computes, same, same', low_of_lt small]

/-- A shift by a count. -/
theorem run_shift {op : Arithmetic} {count z : Nat} (small : count < 64)
    (computes : arithmetic op e.size (e.uns || (shiftCount count).uns) x count = some z)
    (less : z < 2 ^ e.size.bits) :
    run env (.bin (.arith op) ty e (shiftCount count)) state = some (z, after) := by
  have counted : run env (shiftCount count) after = some (count, after) :=
    (run_const _ _ _).trans (congrArg (fun c => some (c, after)) (low_shiftCount small))
  rw [run_arith_some runs counted computes, same, low_of_lt less]

variable (count : Nat) (below : count < e.size.bits) (narrow : e.size ≠ .cent)

include below narrow

theorem run_shl :
    run env (.bin (.arith .shl) ty e (shiftCount count)) state =
      some (low e.size (x <<< count), after) :=
  run_shift ty runs same (Nat.lt_of_lt_of_le below (Size.bits_le e.size narrow)) (if_pos below)
    (low_lt _ _)

theorem run_shr :
    run env (.bin (.arith .shr) ty e (shiftCount count)) state = some (x >>> count, after) :=
  run_shift ty runs same (Nat.lt_of_lt_of_le below (Size.bits_le e.size narrow)) (if_pos below)
    (Nat.lt_of_le_of_lt (Nat.shiftRight_le x count) (run_lt runs))

theorem run_ashr :
    run env (.bin (.arith .ashr) ty e (shiftCount count)) state =
      some (wrap e.size (signed e.size x / 2 ^ count), after) :=
  run_shift ty runs same (Nat.lt_of_lt_of_le below (Size.bits_le e.size narrow)) (if_pos below)
    (wrap_lt _ _)

end Steps

/-! ### Loads -/

section Loads

variable {l : Tree} {Ety : Ty} {w b L : Nat} {state after : State World}
variable (narrow : l.size ≠ .cent) (positive : 1 ≤ w) (fits : w + b ≤ l.size.bits)
variable (runs : run env l state = some (L, after)) (same : Ety.size = l.size)

include runs same

/-- The lower byte of two, extended. -/
theorem run_elbit_byte (byte : w = 8 ∧ l.ty.size.bits = 16 ∧ b = 0) :
    run env (elbit Ety l (bitfieldarg w b)) state = some (fieldValue l.ty w b L, after) := by
  obtain ⟨rfl, sixteen, rfl⟩ := byte
  have short : l.ty.size = .short := by
    revert sixteen
    cases l.ty.size <;> decide
  have shape : elbit Ety l (bitfieldarg 8 0) =
      if l.ty.isUnsigned then .una .u8_16 Ety (.una .of16_8 TYuchar l)
      else .una .s8_16 Ety (.una .of16_8 TYschar l) := if_pos ⟨rfl, sixteen, rfl⟩
  have lower : extract 8 0 L = low .char L := by
    unfold extract
    rw [Nat.pow_zero, Nat.div_one]
    rfl
  have byte := low_lt .char L
  rw [shape]
  cases sign : l.ty.isUnsigned with
  | true =>
    rw [if_pos rfl, fieldValue_unsigned sign, lower]
    simp only [run, runs, Option.bind_eq_bind, Option.bind_some]
    refine congrArg (fun v => some (v, after)) ?_
    rw [same]
    exact low_wider (by rw [show l.size = .short from short]; decide) byte
  | false =>
    rw [if_neg Bool.false_ne_true, fieldValue_signed sign, lower, short]
    simp only [run, runs, Option.bind_eq_bind, Option.bind_some]
    refine congrArg (fun v => some (v, after)) ?_
    show low Ety.size (wrap Ety.size (signed .char (low .char L))) = _
    rw [same, show l.size = .short from short, low_of_lt (wrap_lt _ _),
      signExtend_eq (by decide) byte]
    rfl

include narrow positive fits

/-- A load gives the bits of the field, extended by the sign of the container. -/
theorem run_elbit :
    run env (elbit Ety l (bitfieldarg w b)) state = some (fieldValue l.ty w b L, after) := by
  have limit := Size.bits_le l.size narrow
  obtain ⟨width, offset, -⟩ := @fieldWidth_bitfieldarg w b (by omega) (by omega)
  by_cases byte : w = 8 ∧ l.ty.size.bits = 16 ∧ b = 0
  · exact run_elbit_byte runs same byte
  · unfold elbit
    simp only [width, offset]
    rw [if_neg byte]
    cases sign : l.ty.isUnsigned with
    | true =>
      have shifted := run_shl l.ty runs rfl 0 (Size.bits_pos _) narrow
      have down := run_shr l.ty shifted rfl b
        (show b < l.size.bits by omega) narrow
      have masked := run_and Ety down same Ety same
        (if w + b = l.ty.size.bits then -1 else fieldMask w)
      rw [if_pos rfl, masked, fieldValue_unsigned sign]
      refine congrArg (fun v => some (v, after)) (extract_bits narrow fits (run_lt runs) ?_)
      split_ifs with full
      · exact Or.inr ⟨rfl, full⟩
      · exact Or.inl rfl
    | false =>
      have shifted := run_shl l.ty runs rfl (l.size.bits - (w + b))
        (by omega) narrow
      have down := run_ashr l.ty shifted rfl (l.size.bits - w)
        (show l.size.bits - w < l.size.bits by omega) narrow
      have masked := run_and Ety down same Ety same (-1)
      have value := signed_bits fits positive L
      have sameTy : l.ty = { size := l.size, isUnsigned := false } := by
        rw [← sign]
        rfl
      rw [if_neg Bool.false_ne_true]
      refine masked.trans (congrArg (fun v => some (v, after)) ?_)
      show wrap l.size (signed l.size _ / _) &&& low l.size (-1 : BitVec 64).toNat = _
      rw [low_ones narrow, Nat.and_two_pow_sub_one_of_lt_two_pow (wrap_lt _ _), value, sameTy]

end Loads

/-! ### Stores -/

/-- A tree that leaves a state, but for the temporaries, and a value where the goal asks for one. -/
def Goal.Leaves (goal : Goal) (env : Environment World) (tmp1 tmp2 : Nat) (e : Tree)
    (state : State World) (v : Nat) (final : State World) : Prop :=
  ∃ v' after, run env e state = some (v', after) ∧
    SameBut (temporaries env tmp1 tmp2) final after ∧ (goal ≠ .none → v' = v)

theorem run_blend {x l : Tree} {t : Ty} {v L b : Nat} {m : BitVec 64}
    {state middle after : State World} (sameX : t.size = x.size) (sameL : t.size = l.size)
    (narrow : t.size ≠ .cent) (below : b < t.size.bits) (first : run env x state = some (v, middle))
    (second : run env l middle = some (L, after)) :
    run env (blend t x l b m) state =
      some (low t.size (v <<< b) ||| (L &&& low t.size (~~~(m <<< b)).toNat), after) := by
  rw [sameX] at narrow below
  have shifted := run_shl t first sameX b below narrow
  have masked := run_and t second sameL t sameL (~~~(m <<< b))
  rw [← sameL] at masked
  rw [← sameX] at shifted
  have small : low t.size (v <<< b) ||| (L &&& low t.size (~~~(m <<< b)).toNat) <
      2 ^ t.size.bits :=
    Nat.or_lt_two_pow (low_lt _ _) (Nat.lt_of_le_of_lt Nat.and_le_right (low_lt _ _))
  have joined := @run_arith_some World env _ _ state middle after _ _ _ .or t shifted masked rfl
  rw [low_of_lt small] at joined
  exact joined

theorem insertField_lt {size : Size} {w b L : Nat} (small : L < 2 ^ size.bits)
    (fits : w + b ≤ size.bits) (v : Nat) : insertField w b L v < 2 ^ size.bits :=
  insert_lt small (by omega)

/-- A container that is written over with the masked value in the place of the field. -/
theorem run_field_store {x c again : Tree} {t : Ty} {w b v L address : Nat} {mask : BitVec 64}
    {state middle after : State World} (container : isContainer again = true)
    (sameX : t.size = x.size) (sameC : t.size = c.size) (sameAgain : t.size = again.size)
    (narrow : t.size ≠ .cent) (positive : 1 ≤ w) (fits : w + b ≤ t.size.bits)
    (isMask : mask = fieldMask w ∨ mask = -1 ∧ w + b = t.size.bits)
    (first : run env x state = some (v &&& low t.size mask.toNat, middle))
    (second : run env c middle = some (L, after))
    (found : place env again after = some (address, after)) :
    run env (.bin .eq t again (blend t x c b (fieldMask w))) state =
      some (insertField w b L v, after.write t.size address (insertField w b L v)) := by
  have small : L < 2 ^ t.size.bits := by
    rw [sameC]
    exact run_lt second
  have blended := run_blend (m := fieldMask w) sameX sameC narrow (b := b) (by omega) first second
  rw [blend_bits narrow fits small isMask] at blended
  rw [run_eq_some blended found, assign_container container sameAgain, ← sameAgain]
  show some (low t.size (insertField w b L v), _) = _
  rw [low_of_lt (insertField_lt small fits v)]
  rfl

/-- The value of a field after a store. -/
theorem fieldValue_insertField (ty : Ty) (w b L v : Nat) :
    fieldValue ty w b (insertField w b L v) = fieldValue ty w 0 v := by
  refine fieldValue_congr ty ((extract_insert w b L v).trans ?_)
  unfold extract
  rw [Nat.pow_zero, Nat.div_one]

theorem fieldValue_inj {ty : Ty} {w : Nat} (fits : w ≤ ty.size.bits) (v v' : Nat) :
    fieldValue ty w 0 v = fieldValue ty w 0 v' ↔ v % 2 ^ w = v' % 2 ^ w := by
  have bits (v : Nat) : extract w 0 v = v % 2 ^ w := by
    unfold extract
    rw [Nat.pow_zero, Nat.div_one]
  have within : 2 ^ w ≤ 2 ^ ty.size.bits := Nat.pow_le_pow_right Nat.two_pos fits
  constructor
  · intro same
    cases sign : ty.isUnsigned with
    | true =>
      rw [fieldValue_unsigned sign, fieldValue_unsigned sign, bits, bits] at same
      exact same
    | false =>
      rw [fieldValue_signed sign, fieldValue_signed sign, bits, bits] at same
      split_ifs at same <;> omega
  · intro same
    exact fieldValue_congr ty (by rw [bits, bits, same])

/-- Whether a tree is a variable at an address. -/
def IsVariableAt (env : Environment World) (r : Tree) (address : Nat) : Prop :=
  ∃ Ety symbol, r = .leaf Ety symbol ∧ env.address symbol = address

/-- A leaf that is read again after a store to the container. -/
theorem run_leaf_again {tmp1 tmp2 : Nat} {state after : State World} {r : Tree} {x address M : Nat}
    (leaf : r.isLeaf = true) (operand : Operand env tmp1 tmp2 state r x)
    (same : SameBut (temporaries env tmp1 tmp2) state after) :
    let final := after.write r.size address M
    (IsVariableAt env r address → run env r final = some (low r.size M, final)) ∧
      (¬ IsVariableAt env r address → run env r final = some (x, final)) := by
  intro final
  have reads := operand after same
  cases r with
  | leaf Ety symbol =>
    rw [run] at reads
    by_cases here : env.address symbol = address
    · refine ⟨fun _ => ?_, fun elsewhere => absurd ⟨Ety, symbol, rfl, here⟩ elsewhere⟩
      rw [run, here]
      exact congrArg (fun v => some (v, final)) (State.read_write _ _ _ _)
    · refine ⟨?_, fun _ => ?_⟩
      · rintro ⟨_, _, is, there⟩
        obtain ⟨-, rfl⟩ := Tree.leaf.inj is
        exact absurd there here
      · rw [run, State.read_write_of_ne _ _ _ _ here, (Prod.mk.inj (Option.some.inj reads)).1]
  | const Ety c =>
    refine ⟨?_, fun _ => ?_⟩
    · rintro ⟨_, _, is, _⟩
      cases is
    rw [run] at reads ⊢
    rw [(Prod.mk.inj (Option.some.inj reads)).1]
  | una | bin | other => cases leaf

/-- What an assignment gives: the bits of the operand as it is read after the store, extended. -/
theorem run_extended {l r : Tree} {t : Ty} {w x : Nat} {state after : State World}
    (narrow : l.size ≠ .cent) (positive : 1 ≤ w) (fits : w ≤ l.size.bits)
    (same : t.size = l.size) (sameR : r.size = l.size) (runs : run env r state = some (x, after)) :
    run env (if l.ty.isUnsigned then .bin (.arith .and) t r (elLong t (fieldMask w))
      else .bin (.arith .ashr) t (.bin (.arith .shl) l.ty r (shiftCount (l.ty.size.bits - w)))
        (shiftCount (l.ty.size.bits - w))) state = some (fieldValue l.ty w 0 x, after) := by
  have below : l.ty.size.bits - w < r.size.bits := by
    rw [sameR]
    show l.size.bits - w < l.size.bits
    omega
  cases sign : l.ty.isUnsigned with
  | true =>
    have masked := run_and t runs (same.trans sameR.symm) t
      (same.trans sameR.symm) (fieldMask w)
    rw [sameR, and_fieldMask narrow (b := 0) fits] at masked
    rw [if_pos rfl, elLong, masked, fieldValue_unsigned sign]
    unfold extract
    rw [Nat.pow_zero, Nat.div_one]
  | false =>
    have shifted := run_shl l.ty runs sameR.symm _ below (by rw [sameR]; exact narrow)
    have down := run_ashr t shifted same (l.ty.size.bits - w)
      (show l.ty.size.bits - w < l.size.bits by rwa [← sameR]) narrow
    have value := @signed_bits l.size w 0 fits positive x
    have sameTy : l.ty = { size := l.size, isUnsigned := false } := by
      rw [← sign]
      rfl
    rw [if_neg Bool.false_ne_true]
    refine down.trans (congrArg (fun v => some (v, after)) ?_)
    show wrap l.size (signed l.size _ / _) = _
    rw [sameR]
    exact value.trans (by rw [sameTy])

/-! ### Assignments -/

section Assignment

variable {goal : Goal} {tmp1 tmp2 : Nat} {state : State World} {l r : Tree} {t : Ty}
variable {address w b x : Nat}

/-- The operand where it is evaluated. -/
theorem run_savedUnless {twice : Prop} [Decidable twice]
    (operand : Operand env tmp1 tmp2 state r x) :
    ∃ after, run env (if twice then saved tmp2 r else r) state = some (x, after) ∧
      SameBut (temporaries env tmp1 tmp2) state after ∧
      (twice → after.read r.size (env.address tmp2) = x) := by
  have runs := operand state (SameBut.refl _ _)
  by_cases again : twice
  · rw [if_pos again]
    refine ⟨_, run_saved tmp2 runs, SameBut.write_inside _ _ (second_within ?_) _, fun _ => ?_⟩
    · exact List.mem_singleton_self _
    · rw [State.read_write, low_of_lt (run_lt runs)]
  · rw [if_neg again]
    exact ⟨state, runs, SameBut.refl _ _, fun impossible => absurd impossible again⟩

variable (config : Config) (located : Located env tmp1 tmp2 state l address)
variable (operand : Operand env tmp1 tmp2 state r x) (narrow : l.size ≠ .cent) (positive : 1 ≤ w)
variable (fits : w + b ≤ l.size.bits) (same : t.size = l.size) (sameR : r.size = l.size)

include located operand narrow positive fits same sameR

/-- The store of an assignment. -/
theorem run_elbitassign_store :
    ∃ after, SameBut (temporaries env tmp1 tmp2) state after ∧
      (goal ≠ .none ∧ r.isLeaf = false → after.read r.size (env.address tmp2) = x) ∧
      run env (.bin .eq t (copies tmp1 l).2 (blend t
          (.bin (.arith .and) t (if goal ≠ .none ∧ r.isLeaf = false then saved tmp2 r else r)
            (elLong t (if config.optimizer = true ∧ w + b = l.ty.size.bits then -1
              else fieldMask w)))
          (copies tmp1 l).1 b (fieldMask w))) state =
        some (insertField w b (state.read l.size address) x,
          after.write l.size address (insertField w b (state.read l.size address) x)) := by
  have copied := copied_copies located.container tmp1
  obtain ⟨firstContainer, againContainer⟩ := copied.container located.container
  have firstSize : (copies tmp1 l).1.size = l.size := congrArg Ty.size copied.ty.1
  have againSize : (copies tmp1 l).2.size = l.size := congrArg Ty.size copied.ty.2
  obtain ⟨s0, runsR, same0, kept⟩ :=
    @run_savedUnless World env tmp1 tmp2 state r x (goal ≠ .none ∧ r.isLeaf = false) _ operand
  obtain ⟨s1, same1, found, later⟩ := copied.place located same0
  have sameBoth : SameBut (temporaries env tmp1 tmp2) state s1 :=
    same0.trans (same1.mono first_within)
  have runsFirst : run env (copies tmp1 l).1 s0 = some (state.read l.size address, s1) := by
    rw [run_container firstContainer found, firstSize, sameBoth.read l.size located.outside]
  have sizeR : (if goal ≠ .none ∧ r.isLeaf = false then saved tmp2 r else r).size = l.size := by
    rw [← sameR]
    split_ifs <;> rfl
  have masked := run_and t runsR (same.trans sizeR.symm) t
    (same.trans sizeR.symm)
    (if config.optimizer = true ∧ w + b = l.ty.size.bits then -1 else fieldMask w)
  rw [sizeR, ← same] at masked
  have isMask : (if config.optimizer = true ∧ w + b = l.ty.size.bits then (-1 : BitVec 64)
      else fieldMask w) = fieldMask w ∨
        (if config.optimizer = true ∧ w + b = l.ty.size.bits then (-1 : BitVec 64)
          else fieldMask w) = -1 ∧ w + b = t.size.bits := by
    rw [same]
    split_ifs with full
    · exact Or.inr ⟨rfl, full.2⟩
    · exact Or.inl rfl
  have stores := @run_field_store World env _ (copies tmp1 l).1 (copies tmp1 l).2 t w b x _ address
    _ state s0 s1 againContainer rfl (same.trans firstSize.symm) (same.trans againSize.symm)
    (by rw [same]; exact narrow) positive (by rw [same]; exact fits) isMask masked runsFirst
    (later s1 (SameBut.refl _ _))
  rw [same] at stores
  refine ⟨s1, sameBoth, fun twice => ?_, stores⟩
  have other : env.address tmp2 ∉ [env.address tmp1] := by
    rw [List.mem_singleton]
    exact fun equal => located.apart equal.symm
  rw [same1.read r.size other, kept twice]

omit narrow positive same in
/-- The operand as it is read after the store. -/
theorem run_operand_again {after : State World} (asked : goal ≠ .none)
    (sameAfter : SameBut (temporaries env tmp1 tmp2) state after)
    (kept : goal ≠ .none ∧ r.isLeaf = false → after.read r.size (env.address tmp2) = x) :
    let L := state.read l.size address
    let final := after.write l.size address (insertField w b L x)
    let again := if goal ≠ .none ∧ r.isLeaf = false then temporary tmp2 r else r
    again.size = l.size ∧ ∃ x', run env again final = some (x', final) ∧
      (x' % 2 ^ w = x % 2 ^ w ↔ (IsVariableAt env r address →
        ∀ index, b ≤ index → index < w → L.testBit (index - b) = L.testBit index)) := by
  intro L final again
  rcases Bool.eq_false_or_eq_true r.isLeaf with leaf | leaf
  · have isAgain : again = r := if_neg fun twice => by
      rw [leaf] at twice
      cases twice.2
    rw [isAgain]
    obtain ⟨there, elsewhere⟩ := @run_leaf_again World env tmp1 tmp2 state after r x address
      (insertField w b L x) leaf operand sameAfter
    rw [sameR] at there elsewhere
    by_cases here : IsVariableAt env r address
    · have isL : x = L := by
        obtain ⟨ty, symbol, rfl, rfl⟩ := here
        have reads := operand state (SameBut.refl _ _)
        rw [run] at reads
        show x = state.read l.size _
        rw [← sameR]
        exact (Prod.mk.inj (Option.some.inj reads)).1.symm
      have less : insertField w b L x < 2 ^ l.size.bits :=
        insertField_lt (State.read_lt _ _ _) fits x
      refine ⟨sameR, _, there here, ?_⟩
      rw [low_of_lt less, isL]
      exact (insert_self_mod_iff w b L).trans ⟨fun bits _ => bits, fun bits => bits here⟩
    · exact ⟨sameR, _, elsewhere here, iff_of_true rfl fun variable' => absurd variable' here⟩
  · have isAgain : again = temporary tmp2 r := if_pos ⟨asked, leaf⟩
    have other : env.address tmp2 ≠ address := fun equal =>
      located.outside (equal ▸ by simp [temporaries])
    rw [isAgain]
    refine ⟨sameR, x, ?_, iff_of_true rfl ?_⟩
    · rw [run_temporary, State.read_write_of_ne _ _ _ _ other, kept ⟨asked, leaf⟩]
    · rintro ⟨_, _, rfl, -⟩
      cases leaf

omit located operand narrow positive fits same sameR in
/-- What a tree leaves where its value is known. -/
theorem Goal.leaves_iff {e : Tree} {v v' : Nat} {final after : State World} (asked : goal ≠ .none)
    (runs : run env e state = some (v', after))
    (same : SameBut (temporaries env tmp1 tmp2) final after) :
    goal.Leaves env tmp1 tmp2 e state v final ↔ v' = v := by
  constructor
  · rintro ⟨u, other, again, -, values⟩
    rw [← values asked]
    exact (Prod.mk.inj (Option.some.inj (runs.symm.trans again))).1
  · intro values
    exact ⟨v', after, runs, same, fun _ => values⟩

/-- An assignment stores the lower bits of the operand in the place of the field, and its value is
that of the field, unless the operand is read again from the container that was written over. -/
theorem elbitassign_leaves_iff :
    goal.Leaves env tmp1 tmp2 (elbitassign config goal tmp1 tmp2 t l (bitfieldarg w b) r) state
        (fieldValue l.ty w b (insertField w b (state.read l.size address) x))
        (state.write l.size address (insertField w b (state.read l.size address) x)) ↔
      (goal ≠ .none → IsVariableAt env r address → ∀ index, b ≤ index → index < w →
        (state.read l.size address).testBit (index - b) =
          (state.read l.size address).testBit index) := by
  have limit := Size.bits_le l.size narrow
  obtain ⟨-, offset, width⟩ := @fieldWidth_bitfieldarg w b (by omega) (by omega)
  obtain ⟨after, sameAfter, kept, stores⟩ := @run_elbitassign_store World env goal tmp1 tmp2 state l
    r t address w b x config located operand narrow positive fits same sameR
  have final := sameAfter.write l.size located.outside
    (insertField w b (state.read l.size address) x)
  unfold elbitassign
  simp only [width, offset]
  by_cases none : goal = .none
  · rw [if_pos none]
    exact iff_of_true ⟨_, _, stores, final, fun some => absurd none some⟩ fun some =>
      absurd none some
  · obtain ⟨sizeAgain, x', reads, bits⟩ := @run_operand_again World env goal tmp1 tmp2 state l r
      address w b x located operand fits sameR after none sameAfter kept
    have extended := run_extended narrow positive (by omega) same sizeAgain reads
    have small : fieldValue l.ty w 0 x' < 2 ^ t.size.bits := by
      rw [same]
      exact fieldValue_lt l.ty (show w + 0 ≤ l.size.bits by omega) x'
    rw [if_neg none]
    refine (Goal.leaves_iff none (run_comma_some stores extended) final).trans ?_
    rw [low_of_lt small, fieldValue_insertField, fieldValue_inj (show w ≤ l.size.bits by omega), bits]
    exact ⟨fun same _ => same, fun same => same none⟩

end Assignment

end Sound

end LaserD.Cgelem
