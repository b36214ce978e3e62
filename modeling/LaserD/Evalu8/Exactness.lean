/-
This file says exactly when `evalu8` folds an operator as the machine computes it.

The folds that go wrong are the division and the remainder that trap the host, the right shifts
whose operator disagrees with the extension of the type, and the two unordered comparisons that are
evaluated as the negation of the comparison they stand for on integers.
-/

import LaserD.Evalu8.Division
import LaserD.Evalu8.Shifts

namespace LaserD.Evalu8

variable {tym : TYM} {e1 e2 ev : EV} {bits : Nat}

/-! ### Comparisons -/

/-- A comparison has a result for all operands. -/
theorem defined_of_relation {w : Nat} {op : OPER} (relation : op.isRelation = true) (signed : Bool)
    (a b : BitVec w) : Defined op signed a b := by
  revert relation
  cases op <;> simp [OPER.isRelation, Defined, OPER.isDivision, OPER.isShift]

/-- A comparison that is stored as a truth value is exact exactly when this is the truth value of
the machine. -/
theorem foldsExactly_relation_iff {op : OPER} (relation : op.isRelation = true)
    (noDivision : op.isDivision = false) (least : 8 ≤ bits) {stored holds : Bool}
    (yields : Yields (evalu8 op tym e1 e2 ev) bits stored.toNat)
    (computes : machine op tym.signed (valueOf tym e1) (valueOf tym e2) = holds.toNat) :
    FoldsExactly op tym e1 e2 ev bits ↔ stored = holds := by
  constructor
  · intro exactly
    obtain ⟨folded, outcome, reads⟩ := exactly.exact (defined_of_relation relation _ _ _)
    obtain ⟨again, same, truth⟩ := yields
    rw [outcome] at same
    rw [computes, Outcome.folded.inj same, truth] at reads
    have numbers := congrArg BitVec.toNat reads
    have power : 2 ^ 8 ≤ 2 ^ bits := Nat.pow_le_pow_right (by decide) least
    rw [BitVec.toNat_ofNat, BitVec.toNat_ofNat,
      Nat.mod_eq_of_lt (Nat.lt_of_lt_of_le (Nat.lt_of_le_of_lt (Bool.toNat_le _) (by decide)) power),
      Nat.mod_eq_of_lt (Nat.lt_of_lt_of_le (Nat.lt_of_le_of_lt (Bool.toNat_le _) (by decide)) power)]
      at numbers
    revert numbers
    cases stored <;> cases holds <;> decide
  · rintro rfl
    exact foldsExactly_of_total noDivision (computes ▸ yields)

/-- The comparisons, evaluated through `OPle`, `OPlt` or the equality of the widened words. -/
theorem fold_relation_iff {op : OPER} (relation : op.isRelation = true) (least : 8 ≤ bits)
    (narrow : bits ≤ 32) (e1 e2 ev : EV) :
    FoldsExactly op tym e1 e2 ev bits ↔ Foldable op tym (valueOf tym e1) (valueOf tym e2) := by
  have le := foldLe_yields tym op narrow e1 e2 ev
  have lt := foldLt_yields tym op narrow e1 e2 ev
  cases op with
  | le | nle | gt | ngt =>
    rw [foldsExactly_relation_iff relation rfl least le rfl]
    simp [Foldable]
  | lt | nlt | ge | nge =>
    rw [foldsExactly_relation_iff relation rfl least lt rfl]
    simp [Foldable]
  | eqeq | ne =>
    rw [foldsExactly_relation_iff relation rfl least (yields_truth narrow _) rfl]
    show xor _ (elTolong tym e1 == elTolong tym e2) = _ ↔ True
    rw [eq_elTolong]
    simp [bne]
  | _ => exact absurd relation (by decide)

/-! ### Every operator -/

/-- The folds of the operators of an integral type: no host operation traps, a fold is what the
machine computes in the width of the node, a zero divisor is reported and an overflow is treated as
by the operator for quotient and remainder, exactly under the condition of the operator. -/
theorem evalu8_iff {op : OPER} (typed : op.TypedAs tym bits) (e1 e2 ev : EV) :
    FoldsExactly op tym e1 e2 ev bits ↔ Foldable op tym (valueOf tym e1) (valueOf tym e2) := by
  cases op with
  | add => subst typed; exact iff_of_true (fold_add tym e1 e2 ev) trivial
  | min => subst typed; exact iff_of_true (fold_min tym e1 e2 ev) trivial
  | mul => subst typed; exact iff_of_true (fold_mul tym e1 e2 ev) trivial
  | and_ => subst typed; exact iff_of_true (fold_and tym e1 e2 ev) trivial
  | or_ => subst typed; exact iff_of_true (fold_or tym e1 e2 ev) trivial
  | xor_ => subst typed; exact iff_of_true (fold_xor tym e1 e2 ev) trivial
  | com => subst typed; exact iff_of_true (fold_com tym e1 e2 ev) trivial
  | neg => subst typed; exact iff_of_true (fold_neg tym e1 e2 ev) trivial
  | div => subst typed; exact fold_div_iff tym e1 e2 ev
  | mod => subst typed; exact fold_mod_iff tym e1 e2 ev
  | remquo =>
    obtain ⟨size, rfl⟩ := typed
    exact iff_of_true (fold_remquo size e1 e2 ev) trivial
  | shl => subst typed; exact iff_of_true (fold_shl tym e1 e2 ev) trivial
  | shr => subst typed; exact fold_shr_iff tym e1 e2 ev
  | ashr => subst typed; exact fold_ashr_iff tym e1 e2 ev
  | rol => subst typed; exact iff_of_true (fold_rol tym e1 e2 ev) trivial
  | ror => subst typed; exact iff_of_true (fold_ror tym e1 e2 ev) trivial
  | le | nle | lt | nlt | gt | ngt | ge | nge | eqeq | ne =>
    exact fold_relation_iff rfl typed.1 typed.2 e1 e2 ev
  | s8_16 => obtain ⟨size, rfl⟩ := typed; exact iff_of_true (fold_s8_16 size e1 e2 ev) trivial
  | u8_16 => obtain ⟨size, rfl⟩ := typed; exact iff_of_true (fold_u8_16 size e1 e2 ev) trivial
  | x16_8 => obtain ⟨size, rfl⟩ := typed; exact iff_of_true (fold_x16_8 size e1 e2 ev) trivial
  | s16_32 => obtain ⟨size, rfl⟩ := typed; exact iff_of_true (fold_s16_32 size e1 e2 ev) trivial
  | u16_32 => obtain ⟨size, rfl⟩ := typed; exact iff_of_true (fold_u16_32 size e1 e2 ev) trivial
  | x32_16 => obtain ⟨size, rfl⟩ := typed; exact iff_of_true (fold_x32_16 size e1 e2 ev) trivial
  | x64_32 => obtain ⟨size, rfl⟩ := typed; exact iff_of_true (fold_x64_32 size e1 e2 ev) trivial
  | s32_64 => obtain ⟨size, rfl⟩ := typed; exact iff_of_true (fold_s32_64 size e1 e2 ev) trivial
  | u32_64 => obtain ⟨size, rfl⟩ := typed; exact iff_of_true (fold_u32_64 size e1 e2 ev) trivial
  | s64_128 => obtain ⟨size, rfl⟩ := typed; exact iff_of_true (fold_s64_128 size e1 e2 ev) trivial
  | u64_128 => obtain ⟨size, rfl⟩ := typed; exact iff_of_true (fold_u64_128 size e1 e2 ev) trivial
  | bswap =>
    obtain ⟨size, rfl⟩ := typed
    exact iff_of_true (fold_bswap size e1 e2 ev) trivial
  | popcnt => exact iff_of_true (fold_popcnt typed e1 e2 ev) trivial

/-- The least `long` divided by one is folded exactly. -/
theorem evalu8_byOne : FoldsExactly .div .llong 0x8000000000000000 1 0 64 :=
  (evalu8_iff (show OPER.div.TypedAs .llong 64 from rfl) 0x8000000000000000 1 0).mpr (by
    rintro ⟨-, -, -, divisor⟩
    exact absurd divisor (by decide))

/-- The least `long` divided by minus one traps the compiler, where the operator for quotient and
remainder reports an overflow. -/
theorem evalu8_traps :
    evalu8 .div .llong 0x8000000000000000 0xFFFFFFFFFFFFFFFF 0 = .trapped ∧
    evalu8 .mod .llong 0x8000000000000000 0xFFFFFFFFFFFFFFFF 0 = .trapped ∧
    evalu8 .remquo .llong 0x8000000000000000 0xFFFFFFFFFFFFFFFF 0 =
      .reported "integer overflow" ∧
    ¬∀ (op : OPER) (tym : TYM) (bits : Nat) (e1 e2 ev : EV), op.TypedAs tym bits →
      FoldsExactly op tym e1 e2 ev bits := by
  refine ⟨by decide, by decide, by decide, fun always => ?_⟩
  exact (always .div .llong 64 0x8000000000000000 0xFFFFFFFFFFFFFFFF 0 rfl).noTrap.1 (by decide)

end LaserD.Evalu8
