/-
This file proves the folds of the shifts and of the rotations.

A left shift and a rotation look at the low bits of the widened word only. A right shift brings the
bits above the word down: they are the right ones when the extension of the type agrees with the
shift, and otherwise the fold is wrong as soon as the sign bit is set and the count is not zero.
-/

import LaserD.Evalu8.Arithmetic

namespace LaserD.Evalu8

variable {tym : TYM} {e1 e2 ev : EV}

/-! ### Bits and counts -/

/-- The bits of the widened word. -/
theorem getLsbD_elTolong {index : Nat} (inside : index < 64) (ev : EV) :
    (elTolong tym ev).getLsbD index =
      if index < tym.bits then (valueOf tym ev).getLsbD index
      else tym.signed && (valueOf tym ev).msb := by
  cases signed : tym.signed
  · rw [elTolong_unsigned signed, BitVec.getLsbD_setWidth]
    by_cases low : index < tym.bits
    · simp [inside, low]
    · rw [if_neg low, BitVec.getLsbD_of_ge _ _ (Nat.le_of_not_lt low)]
      simp
  · rw [elTolong_signed signed, BitVec.getLsbD_signExtend]
    simp [inside]

/-- A count below the width survives the way through `targ_int`. -/
theorem toNat_count (small : (valueOf tym e2).toNat < tym.bits) :
    (((elTolong tym e2).setWidth 32).signExtend 64).toNat = (valueOf tym e2).toNat := by
  have wide := tym.bits_le
  have least := tym.eight_le_bits
  have positive : (valueOf tym e2).msb = false := by
    rw [BitVec.msb_eq_false_iff_two_mul_lt]
    have bound : 2 * tym.bits ≤ 2 ^ tym.bits := by
      cases tym <;> decide
    omega
  have extended : elTolong tym e2 = (valueOf tym e2).setWidth 64 := by
    cases signed : tym.signed
    · exact elTolong_unsigned signed e2
    · rw [elTolong_signed signed, BitVec.signExtend_eq_setWidth_of_msb_false positive]
  have low : ((elTolong tym e2).setWidth 32).toNat = (valueOf tym e2).toNat := by
    rw [extended, BitVec.toNat_setWidth, BitVec.toNat_setWidth_of_le wide,
      Nat.mod_eq_of_lt (by omega)]
  have sign : ((elTolong tym e2).setWidth 32).msb = false := by
    rw [BitVec.msb_eq_false_iff_two_mul_lt, low]
    omega
  rw [BitVec.signExtend_eq_setWidth_of_msb_false sign, BitVec.toNat_setWidth_of_le (by decide), low]

theorem clampCount_eq (small : (valueOf tym e2).toNat < tym.bits) :
    clampCount ((elTolong tym e2).setWidth 32) = (valueOf tym e2).toNat := by
  have wide := tym.bits_le
  unfold clampCount
  simp only [toNat_count small]
  rw [if_neg (by omega)]

/-! ### Shifts -/

theorem fold_shl (tym : TYM) (e1 e2 ev : EV) : FoldsExactly .shl tym e1 e2 ev tym.bits := by
  have outcome : evalu8 .shl tym e1 e2 ev =
      foldShl (elTolong tym e1) ((elTolong tym e2).setWidth 32) ev := rfl
  refine foldsExactly_of_yields rfl ?_ fun defined => ?_
  · rw [outcome, foldShl]
    split_ifs
    · exact ⟨_, rfl⟩
    · exact ⟨_, rfl⟩
  · have small := defined.2 rfl
    have wide : (valueOf tym e2).toNat < 64 := Nat.lt_of_lt_of_le small tym.bits_le
    rw [outcome, foldShl, toNat_count small, if_pos wide]
    refine yields_narrow ?_
    rw [hostShl, Nat.mod_eq_of_lt wide, BitVec.setWidth_shiftLeft_of_le tym.bits_le,
      setWidth_elTolong]

theorem size_lt_or_bits (tym : TYM) : tym.size < 8 ∧ tym.bits ≤ 32 ∨ tym.bits = 64 := by
  cases tym <;> decide

/-- The sign bit of the widened word. -/
theorem msb_elTolong (tym : TYM) (ev : EV) :
    (elTolong tym ev).msb =
      ((decide (tym.bits = 64) || tym.signed) && (valueOf tym ev).msb) := by
  rw [BitVec.msb_eq_getLsbD_last, getLsbD_elTolong (by decide)]
  rcases size_lt_or_bits tym with ⟨_, narrow⟩ | full
  · have short : ¬64 - 1 < tym.bits := by omega
    have different : ¬tym.bits = 64 := by omega
    simp [short, different]
  · have last : 64 - 1 = tym.bits - 1 := by omega
    rw [if_pos (by omega), BitVec.msb_eq_getLsbD_last, decide_eq_true full, Bool.true_or,
      Bool.true_and, last]

/-- The logical right shift of the widened word is that of the word exactly when no sign bits come
down. -/
theorem shr_iff {count : Nat} (small : count < tym.bits) :
    (hostShr (elTolong tym e1) count).setWidth tym.bits = valueOf tym e1 >>> count ↔
      ¬(tym.signed = true ∧ tym.size < 8 ∧ (valueOf tym e1).msb = true ∧ 0 < count) := by
  have wide := tym.bits_le
  rw [hostShr, Nat.mod_eq_of_lt (by omega)]
  constructor
  · rintro same ⟨signed, narrow, sign, positive⟩
    have bits : tym.bits = 8 * tym.size := rfl
    have sizes : tym.size ≤ 4 := by
      revert narrow
      cases tym <;> decide
    have top := congrArg (fun word => word.getLsbD (tym.bits - 1)) same
    simp only [BitVec.getLsbD_setWidth, BitVec.getLsbD_ushiftRight] at top
    have outside : ¬count + (tym.bits - 1) < tym.bits := by omega
    rw [getLsbD_elTolong (by omega), if_neg outside,
      BitVec.getLsbD_of_ge _ _ (Nat.le_of_not_lt outside), signed, sign,
      decide_eq_true (by omega)] at top
    exact Bool.noConfusion top
  · intro agrees
    ext index inside
    rw [BitVec.getElem_setWidth, BitVec.getLsbD_ushiftRight, BitVec.getElem_ushiftRight]
    by_cases host : count + index < 64
    · rw [getLsbD_elTolong host]
      by_cases low : count + index < tym.bits
      · rw [if_pos low]
      · rw [if_neg low, BitVec.getLsbD_of_ge _ _ (Nat.le_of_not_lt low)]
        by_contra brought
        rw [Bool.not_eq_false, Bool.and_eq_true] at brought
        refine agrees ⟨brought.1, ?_, brought.2, by omega⟩
        rcases size_lt_or_bits tym with ⟨narrow, _⟩ | full
        · exact narrow
        · omega
    · rw [BitVec.getLsbD_of_ge _ _ (by omega), BitVec.getLsbD_of_ge _ _ (by omega)]

/-- The arithmetic right shift of the widened word is that of the word exactly when the type extends
with the sign or no sign bits are missing. -/
theorem ashr_iff {count : Nat} (small : count < tym.bits) :
    (hostSar (elTolong tym e1) count).setWidth tym.bits = (valueOf tym e1).sshiftRight count ↔
      ¬(tym.signed = false ∧ tym.size < 8 ∧ (valueOf tym e1).msb = true ∧ 0 < count) := by
  have wide := tym.bits_le
  rw [hostSar, Nat.mod_eq_of_lt (by omega)]
  constructor
  · rintro same ⟨unsigned, narrow, sign, positive⟩
    have sizes : tym.size ≤ 4 := by
      revert narrow
      cases tym <;> decide
    have bits : tym.bits = 8 * tym.size := rfl
    have outside : ¬count + (tym.bits - 1) < tym.bits := by omega
    have top := congrArg (fun word => word.getLsbD (tym.bits - 1)) same
    simp only [BitVec.getLsbD_setWidth, BitVec.getLsbD_sshiftRight] at top
    have inWord : ¬64 ≤ tym.bits - 1 := by omega
    have inside : ¬tym.bits ≤ tym.bits - 1 := by omega
    rw [if_pos (by omega : count + (tym.bits - 1) < 64), getLsbD_elTolong (by omega),
      if_neg outside, if_neg outside, unsigned, sign, decide_eq_false inWord,
      decide_eq_false inside] at top
    exact absurd top (by simp)
  · intro agrees
    ext index inside
    rw [BitVec.getElem_setWidth, BitVec.getLsbD_sshiftRight, ← BitVec.getLsbD_eq_getElem,
      BitVec.getLsbD_sshiftRight, decide_eq_false (by omega), decide_eq_false (by omega)]
    have sign (outside : ¬count + index < tym.bits) (narrow : tym.bits < 64) :
        (tym.signed && (valueOf tym e1).msb) = (valueOf tym e1).msb := by
      cases signed : tym.signed
      · rcases size_lt_or_bits tym with ⟨short, _⟩ | full
        · cases top : (valueOf tym e1).msb
          · rfl
          · exact absurd ⟨signed, short, top, by omega⟩ agrees
        · omega
      · rfl
    by_cases host : count + index < 64
    · rw [if_pos host, getLsbD_elTolong host]
      by_cases low : count + index < tym.bits
      · rw [if_pos low, if_pos low]
      · rw [if_neg low, if_neg low, sign low (by omega)]
    · rw [if_neg host, if_neg (by omega), msb_elTolong]
      rcases size_lt_or_bits tym with ⟨short, narrow⟩ | full
      · have different : ¬tym.bits = 64 := by omega
        rw [decide_eq_false different, Bool.false_or, sign (by omega) (by omega)]
      · rw [decide_eq_true full, Bool.true_or, Bool.true_and]

/-- A right shift meets its purpose exactly when its word narrows to the result of the machine for
every count below the width. -/
theorem foldsExactly_shift_iff {op : OPER} (shift : op.isShift = true)
    (noDivision : op.isDivision = false) {word : BitVec 64} {result : BitVec tym.bits}
    (outcome : evalu8 op tym e1 e2 ev = .folded (store ev word))
    (shifted : machine op tym.signed (valueOf tym e1) (valueOf tym e2) = result.toNat) :
    FoldsExactly op tym e1 e2 ev tym.bits ↔
      ((valueOf tym e2).toNat < tym.bits → word.setWidth tym.bits = result) := by
  constructor
  · intro exactly small
    have yields := exactly.exact ⟨fun division => absurd division (by simp [noDivision]),
      fun _ => small⟩
    rw [outcome, shifted] at yields
    exact yields_narrow_iff.mp yields
  · intro low
    refine foldsExactly_of_yields noDivision ⟨_, outcome⟩ fun defined => ?_
    rw [outcome, shifted]
    exact yields_narrow (low (defined.2 shift))

theorem fold_shr_iff (tym : TYM) (e1 e2 ev : EV) :
    FoldsExactly .shr tym e1 e2 ev tym.bits ↔
      Foldable .shr tym (valueOf tym e1) (valueOf tym e2) := by
  have outcome : evalu8 .shr tym e1 e2 ev = .folded (store ev
      (hostShr (elTolong tym e1) (clampCount ((elTolong tym e2).setWidth 32)))) := rfl
  rw [foldsExactly_shift_iff rfl rfl outcome rfl]
  constructor
  · rintro low ⟨signed, narrow, sign, positive, small⟩
    have shifted := low small
    rw [clampCount_eq small] at shifted
    exact (shr_iff small).mp shifted ⟨signed, narrow, sign, positive⟩
  · intro foldable small
    rw [clampCount_eq small]
    exact (shr_iff small).mpr fun ⟨signed, narrow, sign, positive⟩ =>
      foldable ⟨signed, narrow, sign, positive, small⟩

theorem fold_ashr_iff (tym : TYM) (e1 e2 ev : EV) :
    FoldsExactly .ashr tym e1 e2 ev tym.bits ↔
      Foldable .ashr tym (valueOf tym e1) (valueOf tym e2) := by
  have outcome : evalu8 .ashr tym e1 e2 ev = .folded (store ev
      (hostSar (elTolong tym e1) (clampCount ((elTolong tym e2).setWidth 32)))) := rfl
  rw [foldsExactly_shift_iff rfl rfl outcome rfl]
  constructor
  · rintro low ⟨unsigned, narrow, sign, positive, small⟩
    have shifted := low small
    rw [clampCount_eq small] at shifted
    exact (ashr_iff small).mp shifted ⟨unsigned, narrow, sign, positive⟩
  · intro foldable small
    rw [clampCount_eq small]
    exact (ashr_iff small).mpr fun ⟨unsigned, narrow, sign, positive⟩ =>
      foldable ⟨unsigned, narrow, sign, positive, small⟩

/-! ### Rotations -/

/-- A rotation put together from a left shift and the bits that leave at the top. -/
theorem setWidth_rotate {host width n : Nat} (narrow : width ≤ host) (inside : n < width)
    (word ones : BitVec host) (mask : ones = (BitVec.allOnes width).setWidth host) :
    (hostShl word n ||| hostShr (word &&& ones) (width - n)).setWidth width =
      (word.setWidth width).rotateLeft n := by
  have bit (index : Nat) (low : index < width) :
      (word &&& ones).getLsbD index = word.getLsbD index := by
    rw [BitVec.getLsbD_and, mask, BitVec.getLsbD_setWidth, BitVec.getLsbD_allOnes]
    simp [low, Nat.lt_of_lt_of_le low narrow]
  have clear (index : Nat) (high : width ≤ index) : (word &&& ones).getLsbD index = false := by
    rw [BitVec.getLsbD_and, mask, BitVec.getLsbD_setWidth, BitVec.getLsbD_allOnes]
    simp [Nat.not_lt.mpr high]
  ext index low
  have lowHost : index < host := Nat.lt_of_lt_of_le low narrow
  rw [BitVec.getElem_setWidth, BitVec.getLsbD_or, hostShl, hostShr, Nat.mod_eq_of_lt (by omega),
    BitVec.getLsbD_shiftLeft, BitVec.getLsbD_ushiftRight, ← BitVec.getLsbD_eq_getElem,
    BitVec.getLsbD_rotateLeft_of_le inside]
  by_cases wrapped : index < n
  · rw [Nat.mod_eq_of_lt (by omega), bit _ (by omega)]
    have source : width - n + index < width := by omega
    simp [wrapped, source]
  · have source : index - n < width := by omega
    have top : (word &&& ones).getLsbD ((width - n) % host + index) = true →
        word.getLsbD (index - n) = true := by
      intro set
      by_cases still : n = 0
      · subst still
        by_cases same : width = host
        · subst same
          rw [Nat.sub_zero, Nat.mod_self, Nat.zero_add, bit _ low] at set
          exact set
        · rw [Nat.mod_eq_of_lt (by omega), clear _ (by omega)] at set
          exact absurd set (by simp)
      · rw [Nat.mod_eq_of_lt (by omega), clear _ (by omega)] at set
        exact absurd set (by simp)
    cases set : (word &&& ones).getLsbD ((width - n) % host + index)
    · simp [wrapped, lowHost, low, source]
    · simp [wrapped, lowHost, low, source, top set]

/-- The signed host shift of a masked word is the unsigned one. -/
theorem hostSar_eq {host : Nat} {word : BitVec host} (positive : word.msb = false) (count : Nat) :
    hostSar word count = hostShr word count :=
  BitVec.sshiftRight_eq_of_msb_false positive

/-- A rotation to the right is one to the left by the rest of the width. -/
theorem rotateRight_eq {width r : Nat} (word : BitVec width) (inside : r < width) :
    word.rotateRight r = word.rotateLeft ((width - r) % width) := by
  ext index low
  rw [← BitVec.getLsbD_eq_getElem, ← BitVec.getLsbD_eq_getElem,
    BitVec.getLsbD_rotateRight_of_lt inside,
    BitVec.getLsbD_rotateLeft_of_le (Nat.mod_lt _ (by omega))]
  by_cases still : r = 0
  · subst still
    simp [low]
  · rw [Nat.mod_eq_of_lt (by omega)]
    have back : width - (width - r) = r := by omega
    rw [back]

/-- The count of a rotation to the left, from the masked operand or its masked negation. -/
def rotation (op : OPER) (width count : Nat) : Nat :=
  if op = .ror then (width - count % width) % width else count % width

theorem rotation_lt (op : OPER) {width : Nat} (positive : 0 < width) (count : Nat) :
    rotation op width count < width := by
  unfold rotation
  split_ifs
  · exact Nat.mod_lt _ positive
  · exact Nat.mod_lt _ positive

theorem toNat_rotation (op : OPER) {power : Nat} (small : power ≤ 6) (width : tym.bits = 2 ^ power)
    {ones : BitVec 32} (mask : ones.toNat = 2 ^ power - 1) :
    ((if op = .ror then -(elTolong tym e2).setWidth 32 else (elTolong tym e2).setWidth 32) &&&
      ones).toNat = rotation op tym.bits (valueOf tym e2).toNat := by
  have widths : rotation op tym.bits (valueOf tym e2).toNat =
      rotation op (2 ^ power) (valueOf tym e2).toNat :=
    congrArg (rotation op · _) width
  have divides : 2 ^ power ∣ 2 ^ 32 := Nat.pow_dvd_pow 2 (by omega)
  have least := tym.eight_le_bits
  have bound : power ≤ tym.bits := width ▸ Nat.le_of_lt Nat.lt_two_pow_self
  have same : ((elTolong tym e2).setWidth 32).toNat % 2 ^ power =
      (valueOf tym e2).toNat % 2 ^ power := by
    rw [BitVec.toNat_setWidth, toNat_valueOf, Nat.mod_mod_of_dvd _ divides,
      Nat.mod_mod_of_dvd _ (Nat.pow_dvd_pow 2 bound)]
  rw [widths, BitVec.toNat_and, mask, Nat.and_two_pow_sub_one_eq_mod]
  unfold rotation
  split_ifs
  · rw [← same, BitVec.toNat_neg, Nat.mod_mod_of_dvd _ divides]
    have inside := ((elTolong tym e2).setWidth 32).isLt
    obtain ⟨turns, whole⟩ := divides
    generalize ((elTolong tym e2).setWidth 32).toNat = count at inside ⊢
    have split := Nat.div_add_mod count (2 ^ power)
    have rest := Nat.mod_lt count (Nat.two_pow_pos power)
    have below : count / 2 ^ power < turns := Nat.div_lt_of_lt_mul (whole ▸ inside)
    obtain ⟨more, turned⟩ := Nat.exists_eq_add_of_lt below
    have total : 2 ^ 32 - count = 2 ^ power - count % 2 ^ power + 2 ^ power * more := by
      rw [whole, turned, Nat.mul_add, Nat.mul_add, Nat.mul_one]
      omega
    rw [total, Nat.add_mul_mod_self_left]
  · exact same

variable (e1) in
/-- The two shifts of the widened word put together, in the width of the type. -/
theorem setWidth_rotated {width host n : Nat} (same : tym.bits = width) (narrow : width ≤ host)
    (inside : n < tym.bits) {ones : BitVec host}
    (mask : ones = (BitVec.allOnes width).setWidth host) :
    (hostShl ((elTolong tym e1).setWidth host) n |||
      hostShr ((elTolong tym e1).setWidth host &&& ones) (width - n)).setWidth tym.bits =
        (valueOf tym e1).rotateLeft n := by
  subst same
  rw [setWidth_rotate narrow inside _ _ mask, BitVec.setWidth_setWidth_of_le _ narrow,
    setWidth_elTolong]

/-- The mask of a narrow rotation clears the sign bit. -/
theorem msb_masked {ones : BitVec 32} (positive : ones.msb = false) (word : BitVec 32) :
    (word &&& ones).msb = false := by
  rw [BitVec.msb_and, positive, Bool.and_false]

theorem rotate_byte (op : OPER) (width : tym.bits = 8) (e1 e2 ev : EV) :
    Yields (foldRotate op 1 (elTolong tym e1) ((elTolong tym e1).setWidth 32)
      ((elTolong tym e2).setWidth 32) ev) tym.bits
      ((valueOf tym e1).rotateLeft (rotation op tym.bits (valueOf tym e2).toNat)).toNat := by
  have inside : rotation op tym.bits (valueOf tym e2).toNat < tym.bits :=
    rotation_lt op (by omega) _
  have low := setWidth_rotated e1 width (by decide) inside
    (rfl : (0xFF : BitVec 32) = (BitVec.allOnes 8).setWidth 32)
  refine yields_store (le_of_eq width) (by decide) ?_
  rw [toNat_rotation op (by decide : 3 ≤ 6) width (by decide), hostSar_eq (msb_masked rfl _),
    BitVec.setWidth_setWidth_of_le _ (le_of_eq width), BitVec.ofNat_toNat, BitVec.setWidth_eq,
    ← low]

theorem rotate_short (op : OPER) (width : tym.bits = 16) (e1 e2 ev : EV) :
    Yields (foldRotate op 2 (elTolong tym e1) ((elTolong tym e1).setWidth 32)
      ((elTolong tym e2).setWidth 32) ev) tym.bits
      ((valueOf tym e1).rotateLeft (rotation op tym.bits (valueOf tym e2).toNat)).toNat := by
  have inside : rotation op tym.bits (valueOf tym e2).toNat < tym.bits :=
    rotation_lt op (by omega) _
  have low := setWidth_rotated e1 width (by decide) inside
    (rfl : (0xFFFF : BitVec 32) = (BitVec.allOnes 16).setWidth 32)
  refine yields_store (le_of_eq width) (by decide) ?_
  rw [toNat_rotation op (by decide : 4 ≤ 6) width (by decide), hostSar_eq (msb_masked rfl _),
    BitVec.setWidth_setWidth_of_le _ (le_of_eq width), BitVec.ofNat_toNat, BitVec.setWidth_eq,
    ← low]

theorem rotate_int (op : OPER) (width : tym.bits = 32) (e1 e2 ev : EV) :
    Yields (foldRotate op 4 (elTolong tym e1) ((elTolong tym e1).setWidth 32)
      ((elTolong tym e2).setWidth 32) ev) tym.bits
      ((valueOf tym e1).rotateLeft (rotation op tym.bits (valueOf tym e2).toNat)).toNat := by
  have inside : rotation op tym.bits (valueOf tym e2).toNat < tym.bits :=
    rotation_lt op (by omega) _
  have low := setWidth_rotated e1 width (by decide) inside
    (rfl : (0xFFFFFFFF : BitVec 32) = (BitVec.allOnes 32).setWidth 32)
  refine yields_store (le_of_eq width) (by decide) ?_
  rw [toNat_rotation op (by decide : 5 ≤ 6) width (by decide), BitVec.ofNat_toNat,
    BitVec.setWidth_eq, ← low]

theorem rotate_llong (op : OPER) (width : tym.bits = 64) (e1 e2 ev : EV) :
    Yields (foldRotate op 8 (elTolong tym e1) ((elTolong tym e1).setWidth 32)
      ((elTolong tym e2).setWidth 32) ev) tym.bits
      ((valueOf tym e1).rotateLeft (rotation op tym.bits (valueOf tym e2).toNat)).toNat := by
  have inside : rotation op tym.bits (valueOf tym e2).toNat < tym.bits :=
    rotation_lt op (by omega) _
  have low := setWidth_rotated e1 width (by decide) inside
    (rfl : (0xFFFFFFFFFFFFFFFF : BitVec 64) = (BitVec.allOnes 64).setWidth 64)
  refine yields_store (le_of_eq width) (by decide) ?_
  rw [toNat_rotation op (by decide : 6 ≤ 6) width (by decide), BitVec.ofNat_toNat,
    BitVec.setWidth_eq, ← low, BitVec.setWidth_eq]

theorem foldRotate_yields (op : OPER) (tym : TYM) (e1 e2 ev : EV) :
    Yields (foldRotate op tym.size (elTolong tym e1) ((elTolong tym e1).setWidth 32)
      ((elTolong tym e2).setWidth 32) ev) tym.bits
      ((valueOf tym e1).rotateLeft (rotation op tym.bits (valueOf tym e2).toNat)).toNat := by
  cases tym with
  | bool | char | schar | uchar => exact rotate_byte op rfl e1 e2 ev
  | short | ushort | wchar_t | char16 => exact rotate_short op rfl e1 e2 ev
  | int | uint | long | ulong | dchar => exact rotate_int op rfl e1 e2 ev
  | llong | ullong => exact rotate_llong op rfl e1 e2 ev

theorem fold_rol (tym : TYM) (e1 e2 ev : EV) : FoldsExactly .rol tym e1 e2 ev tym.bits :=
  foldsExactly_of_total rfl (foldRotate_yields .rol tym e1 e2 ev)

theorem fold_ror (tym : TYM) (e1 e2 ev : EV) : FoldsExactly .ror tym e1 e2 ev tym.bits := by
  have least := tym.eight_le_bits
  have turned : (valueOf tym e1).rotateRight ((valueOf tym e2).toNat % tym.bits) =
      (valueOf tym e1).rotateLeft (rotation .ror tym.bits (valueOf tym e2).toNat) :=
    rotateRight_eq _ (Nat.mod_lt _ (by omega))
  refine foldsExactly_of_total rfl ?_
  show Yields _ _ ((valueOf tym e1).rotateRight ((valueOf tym e2).toNat % tym.bits)).toNat
  rw [turned]
  exact foldRotate_yields .ror tym e1 e2 ev

end LaserD.Evalu8
