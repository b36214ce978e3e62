/-
This file proves the folds of the operators that do not divide and do not shift: arithmetic, bits,
comparisons, conversions, the exchange of bytes and the count of bits.
-/

import LaserD.Evalu8.Widening

namespace LaserD.Evalu8

variable {tym : TYM} {e1 e2 ev : EV}

/-! ### Arithmetic and bits -/

section Words

variable (tym e1 e2 ev)

theorem fold_add : FoldsExactly .add tym e1 e2 ev tym.bits := by
  refine foldsExactly_of_total rfl (yields_narrow ?_)
  rw [BitVec.setWidth_add _ _ tym.bits_le]
  exact congrArg₂ _ (setWidth_elTolong tym e1) (setWidth_elTolong tym e2)

theorem fold_min : FoldsExactly .min tym e1 e2 ev tym.bits := by
  refine foldsExactly_of_total rfl (yields_narrow ?_)
  rw [BitVec.sub_eq_add_neg, BitVec.setWidth_add _ _ tym.bits_le,
    BitVec.setWidth_neg_of_le tym.bits_le, BitVec.sub_eq_add_neg]
  exact congrArg₂ _ (setWidth_elTolong tym e1) (congrArg _ (setWidth_elTolong tym e2))

theorem fold_mul : FoldsExactly .mul tym e1 e2 ev tym.bits := by
  refine foldsExactly_of_total rfl (yields_narrow ?_)
  rw [BitVec.setWidth_mul _ _ tym.bits_le]
  exact congrArg₂ _ (setWidth_elTolong tym e1) (setWidth_elTolong tym e2)

theorem fold_neg : FoldsExactly .neg tym e1 e2 ev tym.bits := by
  refine foldsExactly_of_total rfl (yields_narrow ?_)
  rw [BitVec.setWidth_neg_of_le tym.bits_le]
  exact congrArg _ (setWidth_elTolong tym e1)

theorem fold_com : FoldsExactly .com tym e1 e2 ev tym.bits := by
  refine foldsExactly_of_total rfl (yields_narrow ?_)
  rw [BitVec.setWidth_not tym.bits_le]
  exact congrArg _ (setWidth_elTolong tym e1)

theorem fold_and : FoldsExactly .and_ tym e1 e2 ev tym.bits := by
  refine foldsExactly_of_total rfl (yields_narrow ?_)
  rw [BitVec.setWidth_and]
  exact congrArg₂ _ (setWidth_elTolong tym e1) (setWidth_elTolong tym e2)

theorem fold_or : FoldsExactly .or_ tym e1 e2 ev tym.bits := by
  refine foldsExactly_of_total rfl (yields_narrow ?_)
  rw [BitVec.setWidth_or]
  exact congrArg₂ _ (setWidth_elTolong tym e1) (setWidth_elTolong tym e2)

theorem fold_xor : FoldsExactly .xor_ tym e1 e2 ev tym.bits := by
  refine foldsExactly_of_total rfl (yields_narrow ?_)
  rw [BitVec.setWidth_xor]
  exact congrArg₂ _ (setWidth_elTolong tym e1) (setWidth_elTolong tym e2)

end Words

/-! ### Comparisons -/

theorem lessEqual_iff (a b : BitVec tym.bits) :
    lessEqual tym.signed a b = decide (number tym a ≤ number tym b) := by
  unfold lessEqual number
  cases tym.signed
  · simp [BitVec.ule]
  · rfl

theorem less_iff (a b : BitVec tym.bits) :
    less tym.signed a b = decide (number tym a < number tym b) := by
  unfold less number
  cases tym.signed
  · simp [BitVec.ult]
  · rfl

/-- The order of the widened words is the order of the words. -/
theorem lessEqual_elTolong (e1 e2 : EV) :
    (if tym.tyuns then (elTolong tym e1).ule (elTolong tym e2)
      else (elTolong tym e1).sle (elTolong tym e2)) =
      lessEqual tym.signed (valueOf tym e1) (valueOf tym e2) := by
  rw [lessEqual_iff]
  cases uns : tym.tyuns
  · rw [if_neg Bool.false_ne_true, BitVec.sle_eq_decide, toInt_elTolong uns, toInt_elTolong uns]
  · rw [if_pos rfl, BitVec.ule_eq_decide, ← toNat_elTolong uns, ← toNat_elTolong uns]
    simp

theorem less_elTolong (e1 e2 : EV) :
    (if tym.tyuns then (elTolong tym e1).ult (elTolong tym e2)
      else (elTolong tym e1).slt (elTolong tym e2)) =
      less tym.signed (valueOf tym e1) (valueOf tym e2) := by
  rw [less_iff]
  cases uns : tym.tyuns
  · rw [if_neg Bool.false_ne_true, BitVec.slt_eq_decide, toInt_elTolong uns, toInt_elTolong uns]
  · rw [if_pos rfl, BitVec.ult_eq_decide, ← toNat_elTolong uns, ← toNat_elTolong uns]
    simp

theorem setWidth_truth {stored bits : Nat} (narrow : bits ≤ stored) (holds : Bool) :
    (truth holds : BitVec stored).setWidth bits = .ofNat bits holds.toNat := by
  cases holds with
  | false => simp [truth]
  | true =>
    refine BitVec.eq_of_toNat_eq ?_
    simp only [truth, if_true, Bool.toNat_true, BitVec.toNat_setWidth, BitVec.toNat_ofNat]
    show 1 % 2 ^ stored % 2 ^ bits = 1 % 2 ^ bits
    exact Nat.mod_mod_of_dvd 1 (Nat.pow_dvd_pow 2 narrow)

/-- A truth value in the four bytes of an `int`. -/
theorem yields_truth {bits : Nat} (narrow : bits ≤ 32) (holds : Bool) :
    Yields (.folded (store ev (truth holds : BitVec 32))) bits holds.toNat :=
  yields_store narrow (by decide) (setWidth_truth narrow holds)

variable (tym) in
/-- The operators that are evaluated through `OPle`: the two that are right, and the negated one
that is evaluated as if it were not negated. -/
theorem foldLe_yields (op : OPER) {bits : Nat} (narrow : bits ≤ 32) (e1 e2 ev : EV) :
    Yields (foldLe op tym.tyuns (elTolong tym e1) (elTolong tym e2) ev) bits
      (xor (op ≠ .le) (lessEqual tym.signed (valueOf tym e1) (valueOf tym e2))).toNat := by
  rw [← lessEqual_elTolong e1 e2]
  exact yields_truth narrow _

variable (tym) in
theorem foldLt_yields (op : OPER) {bits : Nat} (narrow : bits ≤ 32) (e1 e2 ev : EV) :
    Yields (foldLt op tym.tyuns (elTolong tym e1) (elTolong tym e2) ev) bits
      (xor (op ≠ .lt) (less tym.signed (valueOf tym e1) (valueOf tym e2))).toNat := by
  rw [← less_elTolong e1 e2]
  exact yields_truth narrow _

theorem eq_elTolong (e1 e2 : EV) :
    (elTolong tym e1 == elTolong tym e2) = (valueOf tym e1 == valueOf tym e2) := by
  rw [Bool.eq_iff_iff, beq_iff_eq, beq_iff_eq, elTolong_inj]

/-! ### Conversions -/

/-- The low bits of the widened word are those of the word. -/
theorem setWidth_elTolong_of_le {bits : Nat} (narrow : bits ≤ tym.bits) (ev : EV) :
    (elTolong tym ev).setWidth bits = (valueOf tym ev).setWidth bits := by
  rw [← setWidth_elTolong, BitVec.setWidth_setWidth_of_le _ narrow]

theorem toNat_valueOf (tym : TYM) (ev : EV) :
    (valueOf tym ev).toNat = (elTolong tym ev).toNat % 2 ^ tym.bits := by
  rw [← setWidth_elTolong, BitVec.toNat_setWidth]

/-- Narrowing a sign extension is a sign extension to fewer bits. -/
theorem setWidth_signExtend_of_le {w stored bits : Nat} (narrow : bits ≤ stored)
    (word : BitVec w) : (word.signExtend stored).setWidth bits = word.signExtend bits := by
  ext index inside
  rw [BitVec.getElem_setWidth, BitVec.getLsbD_signExtend, BitVec.getElem_signExtend]
  have below : index < stored := Nat.lt_of_lt_of_le inside narrow
  by_cases low : index < w
  · simp [below, low]
  · simp [below, low]

/-- A word of the same width under another name of the width. -/
theorem signExtend_setWidth_self {w width : Nat} (same : w = width) (word : BitVec w) (bits : Nat) :
    (word.setWidth width).signExtend bits = word.signExtend bits := by
  subst same
  rw [BitVec.setWidth_eq]

/-- A conversion with the sign of the low bits. -/
theorem yields_signExtend {width stored bits : Nat} (same : tym.bits = width)
    (narrow : bits ≤ stored) (fits : stored ≤ 128) {word : BitVec width}
    (low : word = (elTolong tym e1).setWidth width) :
    Yields (.folded (store ev (word.signExtend stored))) bits
      ((valueOf tym e1).signExtend bits).toNat := by
  refine yields_store narrow fits ?_
  rw [setWidth_signExtend_of_le narrow, low, setWidth_elTolong_of_le (le_of_eq same.symm),
    signExtend_setWidth_self same, BitVec.ofNat_toNat, BitVec.setWidth_eq]

/-- A conversion that keeps the low bits of the word. -/
theorem yields_toNat {stored bits : Nat} (narrow : bits ≤ stored) (fits : stored ≤ 128)
    {word : BitVec stored} (low : word.toNat % 2 ^ bits = (valueOf tym e1).toNat % 2 ^ bits) :
    Yields (.folded (store ev word)) bits (valueOf tym e1).toNat := by
  refine yields_store narrow fits (BitVec.eq_of_toNat_eq ?_)
  rw [BitVec.toNat_setWidth, BitVec.toNat_ofNat, low]

theorem fold_s8_16 (size : tym.size = 1) (e1 e2 ev : EV) : FoldsExactly .s8_16 tym e1 e2 ev 16 := by
  have width : tym.bits = 8 := by rw [TYM.bits, size]
  exact foldsExactly_of_total rfl (yields_signExtend width (by decide) (by decide)
    (BitVec.setWidth_setWidth_of_le _ (by decide)))

theorem fold_s16_32 (size : tym.size = 2) (e1 e2 ev : EV) :
    FoldsExactly .s16_32 tym e1 e2 ev 32 := by
  have width : tym.bits = 16 := by rw [TYM.bits, size]
  exact foldsExactly_of_total rfl (yields_signExtend width (by decide) (by decide)
    (BitVec.setWidth_setWidth_of_le _ (by decide)))

theorem fold_s32_64 (size : tym.size = 4) (e1 e2 ev : EV) :
    FoldsExactly .s32_64 tym e1 e2 ev 64 := by
  have width : tym.bits = 32 := by rw [TYM.bits, size]
  exact foldsExactly_of_total rfl (yields_signExtend width (by decide) (by decide) rfl)

theorem fold_u8_16 (size : tym.size = 1) (e1 e2 ev : EV) : FoldsExactly .u8_16 tym e1 e2 ev 16 := by
  have width : tym.bits = 8 := by rw [TYM.bits, size]
  refine foldsExactly_of_total rfl (yields_toNat (by decide) (by decide) ?_)
  have mask : (0xFF : BitVec 32).toNat = 2 ^ 8 - 1 := by decide
  rw [BitVec.toNat_and, mask, Nat.and_two_pow_sub_one_eq_mod, BitVec.toNat_setWidth, toNat_valueOf,
    width]
  omega

theorem fold_u16_32 (size : tym.size = 2) (e1 e2 ev : EV) :
    FoldsExactly .u16_32 tym e1 e2 ev 32 := by
  have width : tym.bits = 16 := by rw [TYM.bits, size]
  refine foldsExactly_of_total rfl (yields_toNat (by decide) (by decide) ?_)
  rw [BitVec.toNat_setWidth, BitVec.toNat_setWidth, BitVec.toNat_setWidth, toNat_valueOf, width]
  omega

theorem fold_u32_64 (size : tym.size = 4) (e1 e2 ev : EV) :
    FoldsExactly .u32_64 tym e1 e2 ev 64 := by
  have width : tym.bits = 32 := by rw [TYM.bits, size]
  refine foldsExactly_of_total rfl (yields_toNat (by decide) (by decide) ?_)
  rw [BitVec.toNat_setWidth, BitVec.toNat_setWidth, toNat_valueOf, width]
  omega

theorem fold_x16_8 (size : tym.size = 2) (e1 e2 ev : EV) : FoldsExactly .x16_8 tym e1 e2 ev 8 := by
  have width : tym.bits = 16 := by rw [TYM.bits, size]
  refine foldsExactly_of_total rfl (yields_toNat (by decide) (by decide) ?_)
  rw [BitVec.toNat_setWidth, toNat_valueOf, width]
  omega

theorem fold_x32_16 (size : tym.size = 4) (e1 e2 ev : EV) :
    FoldsExactly .x32_16 tym e1 e2 ev 16 := by
  have width : tym.bits = 32 := by rw [TYM.bits, size]
  refine foldsExactly_of_total rfl (yields_toNat (by decide) (by decide) ?_)
  have low : (valueOf tym e1).toNat = (elTolong tym e1).toNat % 2 ^ 32 := by
    rw [toNat_valueOf, width]
  exact low ▸ congrArg (· % 2 ^ 16) (BitVec.toNat_setWidth 32 _)

theorem fold_x64_32 (size : tym.size = 8) (e1 e2 ev : EV) :
    FoldsExactly .x64_32 tym e1 e2 ev 32 := by
  have width : tym.bits = 64 := by rw [TYM.bits, size]
  refine foldsExactly_of_total rfl (yields_toNat (by decide) (by decide) ?_)
  have low : (valueOf tym e1).toNat = (elTolong tym e1).toNat % 2 ^ 64 := by
    rw [toNat_valueOf, width]
  have wide := (elTolong tym e1).isLt
  rw [low, Nat.mod_eq_of_lt wide, BitVec.toNat_setWidth, Nat.mod_mod]

theorem fold_s64_128 (size : tym.size = 8) (e1 e2 ev : EV) :
    FoldsExactly .s64_128 tym e1 e2 ev 128 := by
  have width : tym.bits = 64 := by rw [TYM.bits, size]
  have low : member e1 64 = (valueOf tym e1).setWidth 64 :=
    (BitVec.setWidth_setWidth_of_le e1 (le_of_eq width.symm)).symm
  refine foldsExactly_of_total rfl ⟨_, rfl, ?_⟩
  show (_ ++ member e1 64 : BitVec 128).setWidth 128 =
    BitVec.ofNat 128 ((valueOf tym e1).signExtend 128).toNat
  rw [BitVec.setWidth_eq, BitVec.ofNat_toNat, BitVec.setWidth_eq,
    ← signExtend_setWidth_self width, ← low]
  ext index inside
  rw [BitVec.getElem_append, BitVec.getElem_signExtend]
  by_cases below : index < 64
  · rw [dif_pos below, dif_pos below]
  · rw [dif_neg below, dif_neg below]
    have sign : (member e1 64).slt 0 = (member e1 64).msb := BitVec.slt_zero_eq_msb
    rw [sign]
    have ones : ~~~(0 : BitVec 64) = BitVec.allOnes 64 := rfl
    cases (member e1 64).msb
    · simp
    · rw [if_pos rfl, ones, BitVec.getElem_allOnes]

theorem fold_u64_128 (size : tym.size = 8) (e1 e2 ev : EV) :
    FoldsExactly .u64_128 tym e1 e2 ev 128 := by
  have width : tym.bits = 64 := by rw [TYM.bits, size]
  have low : member e1 64 = (valueOf tym e1).setWidth 64 :=
    (BitVec.setWidth_setWidth_of_le e1 (le_of_eq width.symm)).symm
  refine foldsExactly_of_total rfl ⟨_, rfl, BitVec.eq_of_toNat_eq ?_⟩
  have small : (valueOf tym e1).toNat < 2 ^ 64 := width ▸ (valueOf tym e1).isLt
  have whole : ((0 : BitVec 64) ++ member e1 64).toNat = (valueOf tym e1).toNat := by
    rw [BitVec.toNat_append, low, BitVec.toNat_setWidth, Nat.mod_eq_of_lt small]
    simp
  rw [member, BitVec.toNat_setWidth, whole, BitVec.toNat_ofNat]
  rfl

/-! ### Bytes and bits -/

/-- A word that is extended with zeros has as many one bits. -/
theorem hostPopcnt_setWidth {w : Nat} (narrow : w ≤ 64) (word : BitVec w) :
    hostPopcnt (word.setWidth 64) = (List.range w).countP word.getLsbD := by
  obtain ⟨rest, split⟩ := Nat.exists_eq_add_of_le narrow
  unfold hostPopcnt
  rw [split, List.range_add, List.countP_append]
  have upper : ((List.range rest).map (w + ·)).countP (word.setWidth (w + rest)).getLsbD = 0 := by
    rw [List.countP_eq_zero]
    intro index member
    obtain ⟨above, _, rfl⟩ := List.mem_map.mp member
    simp [BitVec.getLsbD_setWidth]
  rw [upper, Nat.add_zero]
  refine List.countP_congr fun index member => ?_
  have inside := List.mem_range.mp member
  simp [Nat.lt_add_right rest inside]

theorem yields_bswap_four (tym : TYM) (e1 : EV) (width : tym.bits = 32) :
    Yields (foldBswap 4 (elTolong tym e1) ((elTolong tym e1).setWidth 32) e1 ev) 32
      (reverseBytes 4 (valueOf tym e1).toNat) := by
  refine yields_store (by decide) (by decide) ?_
  rw [toNat_valueOf, width, BitVec.setWidth_eq, hostBswap, BitVec.toNat_setWidth]

theorem yields_bswap_two (tym : TYM) (e1 : EV) (width : tym.bits = 16) :
    Yields (foldBswap 2 (elTolong tym e1) ((elTolong tym e1).setWidth 32) e1 ev) 16
      (reverseBytes 2 (valueOf tym e1).toNat) := by
  have low : (valueOf tym e1).toNat = (elTolong tym e1).toNat % 2 ^ 16 := by
    rw [toNat_valueOf, width]
  refine yields_store (by decide) (by decide) ?_
  have swapped : BitVec.ofNat 16 (reverseBytes 2 (valueOf tym e1).toNat) =
      (elTolong tym e1).extractLsb' 0 8 ++ (elTolong tym e1).extractLsb' 8 8 := by
    refine BitVec.eq_of_toNat_eq ?_
    rw [BitVec.toNat_append, BitVec.extractLsb'_toNat, BitVec.extractLsb'_toNat,
      BitVec.toNat_ofNat, ← Nat.shiftLeft_add_eq_or_of_lt (Nat.mod_lt _ (by decide)), low]
    generalize (elTolong tym e1).toNat = word
    simp only [reverseBytes, Nat.shiftRight_eq_div_pow, Nat.shiftLeft_eq, Nat.pow_zero,
      Nat.pow_one, Nat.mul_one, Nat.div_one, Nat.add_zero]
    have lowByte : word % 2 ^ 16 % 256 = word % 256 := Nat.mod_mod_of_dvd _ (by decide)
    have highByte : word % 2 ^ 16 / 256 = word / 256 % 256 :=
      Nat.mod_mul_right_div_self word 256 256
    rw [lowByte, highByte, Nat.mod_mod]
    show (word % 256 * 256 + word / 256 % 256) % 65536 = word % 256 * 256 + word / 256 % 256
    omega
  rw [swapped]
  ext index inside
  have lowMask : ∀ index < 16, (0x00FF : BitVec 32).getLsbD index = decide (index < 8) := by
    decide
  have highMask : ∀ index < 16, (0xFF00 : BitVec 32).getLsbD index = !decide (index < 8) := by
    decide
  rw [BitVec.getElem_setWidth, BitVec.getLsbD_or, BitVec.getLsbD_and, BitVec.getLsbD_and,
    lowMask index inside, highMask index inside, BitVec.getElem_append]
  by_cases low : index < 8
  · rw [dif_pos low, BitVec.getElem_extractLsb', hostSar, BitVec.getLsbD_sshiftRight]
    have shifted : 8 + index < 32 := by omega
    simp [low, shifted]
    omega
  · rw [dif_neg low, BitVec.getElem_extractLsb', hostShl, BitVec.getLsbD_shiftLeft]
    have narrow : index - 8 < 32 := by omega
    simp [low, narrow]
    omega

theorem fold_popcnt {bits : Nat} (narrow : bits ≤ 64) (e1 e2 ev : EV) :
    FoldsExactly .popcnt tym e1 e2 ev bits := by
  have count : hostPopcnt ((valueOf tym e1).setWidth 64) =
      (List.range tym.bits).countP (valueOf tym e1).getLsbD := hostPopcnt_setWidth tym.bits_le _
  have masked (mask : BitVec 64) (low : mask.toNat = 2 ^ tym.bits - 1) :
      elTolong tym e1 &&& mask = (valueOf tym e1).setWidth 64 := by
    refine BitVec.eq_of_toNat_eq ?_
    rw [BitVec.toNat_and, low, Nat.and_two_pow_sub_one_eq_mod, ← toNat_valueOf,
      BitVec.toNat_setWidth_of_le tym.bits_le]
  have outcome : evalu8 .popcnt tym e1 e2 ev =
      .folded (store ev (BitVec.ofNat 64 (hostPopcnt ((valueOf tym e1).setWidth 64)))) := by
    cases tym with
    | bool | char | schar | uchar => rw [← masked 0xFF (by decide)]; rfl
    | short | ushort | wchar_t | char16 => rw [← masked 0xFFFF (by decide)]; rfl
    | int | uint | long | ulong | dchar => rw [← masked 0xFFFFFFFF (by decide)]; rfl
    | llong | ullong => rw [← masked (BitVec.allOnes 64) (by decide), BitVec.and_allOnes]; rfl
  refine foldsExactly_of_total rfl ?_
  rw [outcome, count]
  refine yields_store narrow (by decide) (BitVec.eq_of_toNat_eq ?_)
  rw [BitVec.toNat_setWidth, BitVec.toNat_ofNat, BitVec.toNat_ofNat]
  exact Nat.mod_mod_of_dvd _ (Nat.pow_dvd_pow 2 narrow)

theorem fold_bswap (size : 2 ≤ tym.size) (e1 e2 ev : EV) :
    FoldsExactly .bswap tym e1 e2 ev tym.bits := by
  refine foldsExactly_of_total rfl ?_
  cases tym with
  | bool | char | schar | uchar => exact absurd size (by decide)
  | short | ushort | wchar_t | char16 => exact yields_bswap_two _ e1 rfl
  | int | uint | long | ulong | dchar =>
    exact yields_bswap_four _ e1 rfl
  | llong | ullong =>
    exact yields_store (Nat.le_refl 64) (by decide) (BitVec.setWidth_eq _)

end LaserD.Evalu8
