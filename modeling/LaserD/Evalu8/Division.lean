/-
This file proves the folds of the divisions.

Away from the least number divided by minus one in 64 bits the host computes the quotient and the
remainder of the numbers that the operands stand for, and these are the quotient and the remainder
of the machine in the width of the type. There the host traps, unless the operator asks first.
-/

import LaserD.Evalu8.Widening

namespace LaserD.Evalu8

variable {tym : TYM} {e1 e2 ev : EV}

/-! ### The machine -/

theorem quotient_eq (a b : BitVec tym.bits) :
    quotient tym.signed a b = .ofInt tym.bits ((number tym a).tdiv (number tym b)) := by
  unfold quotient number
  cases tym.signed
  · rw [if_neg Bool.false_ne_true, if_neg Bool.false_ne_true, if_neg Bool.false_ne_true]
    refine BitVec.eq_of_toNat_eq ?_
    have division : Int.tdiv a.toNat b.toNat = ((a.toNat / b.toNat : Nat) : Int) := rfl
    rw [division, BitVec.ofInt_natCast, ← BitVec.toNat_udiv, BitVec.ofNat_toNat, BitVec.setWidth_eq]
  · rw [if_pos rfl, if_pos rfl, if_pos rfl]
    refine BitVec.eq_of_toInt_eq ?_
    rw [BitVec.toInt_sdiv, BitVec.toInt_ofInt]

theorem remainder_eq (a b : BitVec tym.bits) :
    remainder tym.signed a b = .ofInt tym.bits ((number tym a).tmod (number tym b)) := by
  unfold remainder number
  cases tym.signed
  · rw [if_neg Bool.false_ne_true, if_neg Bool.false_ne_true, if_neg Bool.false_ne_true]
    refine BitVec.eq_of_toNat_eq ?_
    have rest : Int.tmod a.toNat b.toNat = ((a.toNat % b.toNat : Nat) : Int) := rfl
    rw [rest, BitVec.ofInt_natCast, ← BitVec.toNat_umod, BitVec.ofNat_toNat, BitVec.setWidth_eq]
  · rw [if_pos rfl, if_pos rfl, if_pos rfl, ← BitVec.toInt_srem, BitVec.ofInt_toInt]

/-! ### The host -/

/-- The host operation that a fold chooses by the signedness it takes the type for. -/
def hostDivision (unsignedOp signedOp : BitVec 64 → BitVec 64 → Option (BitVec 64)) (uns : Bool)
    (l1 l2 : BitVec 64) : Option (BitVec 64) :=
  if uns then unsignedOp l1 l2 else signedOp l1 l2

/-- The guard of the operator for quotient and remainder asks for an overflow in 64 bits. -/
theorem guard_iff :
    tym.tyuns = false ∧ elTolong tym e1 = 0x8000000000000000 ∧ elTolong tym e2 = -1 ↔
      tym.size = 8 ∧ Overflows tym.signed (valueOf tym e1) (valueOf tym e2) := by
  constructor
  · rintro ⟨uns, least, minusOne⟩
    have whole : tym = .llong := by
      by_contra other
      have read := toInt_elTolong uns e1
      rw [least] at read
      cases signed : tym.signed
      · rw [number_of_unsigned signed] at read
        have negative : (0x8000000000000000 : BitVec 64).toInt = -2 ^ 63 := by decide
        omega
      · rw [number_of_signed signed] at read
        have bound : 2 ^ (tym.bits - 1) ≤ 2 ^ 31 := by
          revert other signed
          cases tym <;> decide
        have above := BitVec.le_toInt (valueOf tym e1)
        have cast : ((2 ^ (tym.bits - 1) : Nat) : Int) ≤ 2 ^ 31 := by exact_mod_cast bound
        have negative : (0x8000000000000000 : BitVec 64).toInt = -2 ^ 63 := by decide
        have power : ((2 ^ (tym.bits - 1) : Nat) : Int) = (2 : Int) ^ (tym.bits - 1) := by
          push_cast
          rfl
        omega
    subst whole
    exact ⟨rfl, rfl, least, minusOne⟩
  · rintro ⟨size, signed, least, minusOne⟩
    have whole : tym = .llong := by
      revert size signed
      cases tym <;> decide
    subst whole
    exact ⟨rfl, least, minusOne⟩

/-- What a host operation computes on the widened operands of the type. -/
theorem hostDivision_eq {unsignedOp signedOp : BitVec 64 → BitVec 64 → Option (BitVec 64)}
    {exact : Int → Int → Int} (unsignedExact : Constfold.UnsignedExact unsignedOp exact)
    (signedExact : Constfold.SignedExact signedOp exact) (nonzero : valueOf tym e2 ≠ 0)
    (inside : ¬(tym.size = 8 ∧ Overflows tym.signed (valueOf tym e1) (valueOf tym e2))) :
    hostDivision unsignedOp signedOp tym.tyuns (elTolong tym e1) (elTolong tym e2) =
      some (.ofInt 64 (exact (number tym (valueOf tym e1)) (number tym (valueOf tym e2)))) := by
  have divisor : elTolong tym e2 ≠ 0 := fun zero => nonzero ((elTolong_eq_zero_iff e2).mp zero)
  unfold hostDivision
  cases uns : tym.tyuns
  · rw [if_neg Bool.false_ne_true, signedExact _ _ divisor, toInt_elTolong uns, toInt_elTolong uns]
    exact fun both => inside (guard_iff.mp ⟨uns, both⟩)
  · rw [if_pos rfl, unsignedExact _ _ divisor, toNat_elTolong uns, toNat_elTolong uns]

/-- The overflow in 64 bits traps. -/
theorem hostDivision_trap {unsignedOp signedOp : BitVec 64 → BitVec 64 → Option (BitVec 64)}
    (traps : signedOp 0x8000000000000000 (-1) = none)
    (overflow : tym.size = 8 ∧ Overflows tym.signed (valueOf tym e1) (valueOf tym e2)) :
    hostDivision unsignedOp signedOp tym.tyuns (elTolong tym e1) (elTolong tym e2) = none := by
  obtain ⟨uns, least, minusOne⟩ := guard_iff.mpr overflow
  rw [hostDivision, uns, if_neg Bool.false_ne_true, least, minusOne, traps]

theorem setWidth_ofInt {width : Nat} (narrow : width ≤ 64) (value : Int) :
    (BitVec.ofInt 64 value).setWidth width = .ofInt width value := by
  have divides : ((2 ^ width : Nat) : Int) ∣ ((2 ^ 64 : Nat) : Int) :=
    Int.natCast_dvd_natCast.mpr (Nat.pow_dvd_pow 2 narrow)
  refine BitVec.eq_of_toNat_eq ?_
  rw [BitVec.toNat_setWidth, BitVec.toNat_ofInt, BitVec.toNat_ofInt]
  refine Int.ofNat_inj.mp ?_
  have positive : ((2 ^ width : Nat) : Int) ≠ 0 := by
    exact_mod_cast (Nat.two_pow_pos width).ne'
  rw [Int.natCast_emod, Int.toNat_of_nonneg (Int.emod_nonneg _ (by decide)),
    Int.toNat_of_nonneg (Int.emod_nonneg _ positive), Int.emod_emod_of_dvd _ divides]

/-- The low bits of the host quotient and remainder are those of the machine. -/
theorem setWidth_quotient (a b : BitVec tym.bits) :
    (BitVec.ofInt 64 ((number tym a).tdiv (number tym b))).setWidth tym.bits =
      quotient tym.signed a b := by
  rw [setWidth_ofInt tym.bits_le, quotient_eq]

theorem setWidth_remainder (a b : BitVec tym.bits) :
    (BitVec.ofInt 64 ((number tym a).tmod (number tym b))).setWidth tym.bits =
      remainder tym.signed a b := by
  rw [setWidth_ofInt tym.bits_le, remainder_eq]

/-! ### Quotient and remainder -/

/-- The word with the remainder above the quotient. -/
def pairOf (size : Nat) (rem quo : BitVec 64) (ev : EV) : Outcome :=
  match size with
  | 2 => .folded (store ev (hostShl rem 16 ||| (quo &&& 0xFFFF)))
  | 4 => .folded (store ev (hostShl rem 32 ||| (quo &&& 0xFFFFFFFF)))
  | 8 => .folded (rem ++ quo)
  | _ => .asserted

theorem remquo_zero (zero : valueOf tym e2 = 0) :
    evalu8 .remquo tym e1 e2 ev = .reported "divide by zero" :=
  if_pos ((elTolong_eq_zero_iff e2).mpr zero)

theorem remquo_overflow (nonzero : valueOf tym e2 ≠ 0)
    (overflow : tym.size = 8 ∧ Overflows tym.signed (valueOf tym e1) (valueOf tym e2)) :
    evalu8 .remquo tym e1 e2 ev = .reported "integer overflow" := by
  have divisor : elTolong tym e2 ≠ 0 := fun zero => nonzero ((elTolong_eq_zero_iff e2).mp zero)
  show foldRemquo tym.size tym.tyuns (elTolong tym e1) (elTolong tym e2) ev = _
  rw [foldRemquo, if_neg divisor, if_pos (guard_iff.mpr overflow)]

theorem remquo_pair (nonzero : valueOf tym e2 ≠ 0)
    (inside : ¬(tym.size = 8 ∧ Overflows tym.signed (valueOf tym e1) (valueOf tym e2))) :
    evalu8 .remquo tym e1 e2 ev = pairOf tym.size
      (.ofInt 64 ((number tym (valueOf tym e1)).tmod (number tym (valueOf tym e2))))
      (.ofInt 64 ((number tym (valueOf tym e1)).tdiv (number tym (valueOf tym e2)))) ev := by
  have divisor : elTolong tym e2 ≠ 0 := fun zero => nonzero ((elTolong_eq_zero_iff e2).mp zero)
  have rem := hostDivision_eq Constfold.unsignedRemainder_exact Constfold.signedRemainder_exact
    nonzero inside
  have quo := hostDivision_eq Constfold.unsignedDivide_exact Constfold.signedDivide_exact
    nonzero inside
  rw [hostDivision] at rem quo
  show foldRemquo tym.size tym.tyuns (elTolong tym e1) (elTolong tym e2) ev = _
  unfold foldRemquo
  simp only [if_neg divisor, if_neg (fun guard => inside (guard_iff.mp guard)), rem, quo]
  rfl

/-- The pair of two words in the low bits of one host word. -/
theorem setWidth_pair {w : Nat} (narrow : w ≤ 32) (positive : 0 < w) (rem quo ones : BitVec 64)
    (mask : ones = (BitVec.allOnes w).setWidth 64) :
    (hostShl rem w ||| (quo &&& ones)).setWidth (2 * w) =
      .ofNat (2 * w) (rem.setWidth w ++ quo.setWidth w).toNat := by
  ext index inside
  rw [BitVec.getElem_setWidth, BitVec.getLsbD_or, BitVec.getLsbD_and, hostShl,
    Nat.mod_eq_of_lt (by omega), BitVec.getLsbD_shiftLeft, mask, BitVec.getLsbD_setWidth,
    BitVec.getLsbD_allOnes, BitVec.ofNat_toNat, BitVec.getElem_setWidth, BitVec.getLsbD_append,
    BitVec.getLsbD_setWidth, BitVec.getLsbD_setWidth]
  have host : index < 64 := by omega
  by_cases low : index < w
  · simp [low, host]
  · have high : index - w < w := by omega
    simp [low, host, high]

theorem pairOf_yields (size : 2 ≤ tym.size) (rem quo : BitVec 64) (ev : EV) :
    Yields (pairOf tym.size rem quo ev) (2 * tym.bits)
      (rem.setWidth tym.bits ++ quo.setWidth tym.bits).toNat := by
  cases tym with
  | bool | char | schar | uchar => exact absurd size (by decide)
  | short | ushort | wchar_t | char16 =>
    exact yields_store (by decide) (by decide)
      (setWidth_pair (by decide) (by decide) rem quo 0xFFFF rfl)
  | int | uint | long | ulong | dchar =>
    exact yields_store (by decide) (by decide)
      (setWidth_pair (by decide) (by decide) rem quo 0xFFFFFFFF rfl)
  | llong | ullong =>
    refine ⟨rem ++ quo, rfl, BitVec.eq_of_toNat_eq ?_⟩
    show ((rem ++ quo).setWidth 128).toNat =
      (BitVec.ofNat 128 (rem.setWidth 64 ++ quo.setWidth 64).toNat).toNat
    rw [BitVec.setWidth_eq, BitVec.setWidth_eq, BitVec.setWidth_eq, BitVec.ofNat_toNat,
      BitVec.setWidth_eq]

theorem fold_remquo (size : 2 ≤ tym.size) (e1 e2 ev : EV) :
    FoldsExactly .remquo tym e1 e2 ev (2 * tym.bits) := by
  refine ⟨?_, fun defined => ?_, fun _ zero => remquo_zero zero, fun _ _ _ => Iff.rfl⟩
  · by_cases zero : valueOf tym e2 = 0
    · simp [remquo_zero zero]
    · by_cases overflow : tym.size = 8 ∧ Overflows tym.signed (valueOf tym e1) (valueOf tym e2)
      · simp [remquo_overflow zero overflow]
      · obtain ⟨folded, outcome, _⟩ := pairOf_yields size _ _ ev
        rw [remquo_pair zero overflow, outcome]
        simp
  · obtain ⟨nonzero, inside⟩ := defined.1 rfl
    rw [remquo_pair nonzero fun overflow => inside overflow.2]
    have pair := pairOf_yields size
      (.ofInt 64 ((number tym (valueOf tym e1)).tmod (number tym (valueOf tym e2))))
      (.ofInt 64 ((number tym (valueOf tym e1)).tdiv (number tym (valueOf tym e2)))) ev
    rw [setWidth_quotient, setWidth_remainder] at pair
    exact pair

/-! ### Quotient or remainder -/

/-- The operators that compute one of the results fold exactly unless the host traps. -/
theorem foldDivide_iff {op : OPER} (division : op.isDivision = true)
    {unsignedOp signedOp : BitVec 64 → BitVec 64 → Option (BitVec 64)} {exact : Int → Int → Int}
    (unsignedExact : Constfold.UnsignedExact unsignedOp exact)
    (signedExact : Constfold.SignedExact signedOp exact)
    (traps : signedOp 0x8000000000000000 (-1) = none)
    (outcome : evalu8 op tym e1 e2 ev =
      foldDivide unsignedOp signedOp tym.tyuns (elTolong tym e1) (elTolong tym e2) ev)
    {result : BitVec tym.bits}
    (computes : machine op tym.signed (valueOf tym e1) (valueOf tym e2) = result.toNat)
    (same : (BitVec.ofInt 64
      (exact (number tym (valueOf tym e1)) (number tym (valueOf tym e2)))).setWidth tym.bits =
        result) :
    FoldsExactly op tym e1 e2 ev tym.bits ↔
      ¬(tym.size = 8 ∧ Overflows tym.signed (valueOf tym e1) (valueOf tym e2)) := by
  have minusOne (overflow : Overflows tym.signed (valueOf tym e1) (valueOf tym e2)) :
      valueOf tym e2 ≠ 0 := by
    rw [overflow.2.2]
    cases tym <;> decide
  have divides (nonzero : valueOf tym e2 ≠ 0) : evalu8 op tym e1 e2 ev =
      (hostDivision unsignedOp signedOp tym.tyuns (elTolong tym e1) (elTolong tym e2)).elim
        .trapped fun word => .folded (store ev word) := by
    rw [outcome, foldDivide,
      if_neg fun zero => nonzero ((elTolong_eq_zero_iff e2).mp zero)]
    unfold hostDivision
    cases (if tym.tyuns then unsignedOp (elTolong tym e1) (elTolong tym e2)
      else signedOp (elTolong tym e1) (elTolong tym e2)) <;> rfl
  constructor
  · intro exactly overflow
    refine exactly.noTrap.1 ?_
    rw [divides (minusOne overflow.2), hostDivision_trap traps overflow, Option.elim_none]
  · intro inside
    have folds (nonzero : valueOf tym e2 ≠ 0) : evalu8 op tym e1 e2 ev = .folded (store ev
        (.ofInt 64 (exact (number tym (valueOf tym e1)) (number tym (valueOf tym e2))))) := by
      rw [divides nonzero, hostDivision_eq unsignedExact signedExact nonzero inside,
        Option.elim_some]
    have zeroReported (zero : valueOf tym e2 = 0) :
        evalu8 op tym e1 e2 ev = .reported "divide by zero" := by
      rw [outcome, foldDivide, if_pos ((elTolong_eq_zero_iff e2).mpr zero)]
    refine ⟨?_, fun defined => ?_, fun _ => zeroReported, fun _ wide overflow => ?_⟩
    · by_cases zero : valueOf tym e2 = 0
      · simp [zeroReported zero]
      · simp [folds zero]
    · rw [folds (defined.1 division).1, computes]
      exact yields_narrow same
    · have nonzero := minusOne overflow
      obtain ⟨folded, pair, _⟩ := pairOf_yields wide
        (.ofInt 64 ((number tym (valueOf tym e1)).tmod (number tym (valueOf tym e2))))
        (.ofInt 64 ((number tym (valueOf tym e1)).tdiv (number tym (valueOf tym e2)))) ev
      rw [folds nonzero, remquo_pair nonzero inside, pair]
      simp

theorem fold_div_iff (tym : TYM) (e1 e2 ev : EV) :
    FoldsExactly .div tym e1 e2 ev tym.bits ↔
      Foldable .div tym (valueOf tym e1) (valueOf tym e2) :=
  foldDivide_iff rfl Constfold.unsignedDivide_exact Constfold.signedDivide_exact (by decide) rfl
    rfl (setWidth_quotient _ _)

theorem fold_mod_iff (tym : TYM) (e1 e2 ev : EV) :
    FoldsExactly .mod tym e1 e2 ev tym.bits ↔
      Foldable .mod tym (valueOf tym e1) (valueOf tym e2) :=
  foldDivide_iff rfl Constfold.unsignedRemainder_exact Constfold.signedRemainder_exact (by decide)
    rfl rfl (setWidth_remainder _ _)

end LaserD.Evalu8
