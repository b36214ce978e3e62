/-
This file proves that the division of 128-bit integers is exact.

A divisor of one word is shifted up until its highest bit is set, and two digits of 32
bits are estimated one after the other. A divisor of two words is cut to its upper 64
bits; the quotient by them is right or too large by one, so the code takes one away and
compares the remainder with the divisor to give it back. A signed division is the one of
the absolute values.
-/

import Mathlib.Data.Int.ModEq
import Mathlib.Data.Nat.Log
import LaserD.Lib.QuotientDigits
import LaserD.Int128.Cent

namespace LaserD.Int128

open QuotientDigits

/-! ### The code -/

/-- `bsr`: the index of the highest bit that is set. -/
def bsr (v : BitVec 64) : Nat := Nat.log2 v.toNat

/-- `base` -/
def base : BitVec 64 := 1#64 <<< 32

/-- `udiv96_64`: `[num1 num0] / den`. The source's `divmask` is the number `mulmask`. -/
def udiv96_64 (num1 : BitVec 64) (num0 : BitVec 32) (den : BitVec 64) : BitVec 32 :=
  let den1 := (den >>> 32).setWidth 32
  let den0 := (den &&& mulmask).setWidth 32
  let ret := num1 / den1.setWidth 64
  let t2 := num1 % den1.setWidth 64 * base + num0.setWidth 64
  let t1 := ret * den0.setWidth 64
  let ret := if t2 < t1 then ret - if den < t1 - t2 then 2 else 1 else ret
  ret.setWidth 32

/-- `udivmod128_64`: the quotient and the remainder of a division by one word. -/
def udivmod128_64 (c1 : Cent) (c2 : BitVec 64) : BitVec 64 × BitVec 64 :=
  if c2 ≤ c1.hi then (~~~0, 0)
  else
    let shift := Ubits - 1 - bsr c2
    let c2 := c2 <<< shift
    let num2 := c1.hi <<< shift
    let num2 := num2 ||| ((c1.lo >>> (-BitVec.ofNat 32 shift &&& 63).toNat) &&&
      (-BitVec.ofNat 64 shift).sshiftRight 63)
    let lo := c1.lo <<< shift
    let num1 : BitVec 32 := (lo >>> 32).setWidth 32
    let num0 : BitVec 32 := (lo &&& mulmask).setWidth 32
    let q1 := udiv96_64 num2 num1 c2
    let rem := num2 * base + num1.setWidth 64 - q1.setWidth 64 * c2
    let q0 := udiv96_64 rem num0 c2
    let modulus := (rem * base + num0.setWidth 64 - q0.setWidth 64 * c2) >>> shift
    ((q1.setWidth 64 <<< 32) ||| q0.setWidth 64, modulus)

/-- `udivmod`: the quotient and the modulus. -/
def udivmod (c1 c2 : Cent) : Cent × Cent :=
  if tst c2 = false then (com Zero, Zero)
  else if c1.hi = 0 ∧ c2.hi = 0 then
    ({ lo := c1.lo / c2.lo, hi := 0 }, { lo := c1.lo % c2.lo, hi := 0 })
  else if c1.hi = 0 then (Zero, c1)
  else if c2.hi = 0 then
    let q1 := if c1.hi < c2.lo then 0 else c1.hi / c2.lo
    let hi := if q1 ≠ 0 then c1.hi % c2.lo else c1.hi
    let (q0, rem) := udivmod128_64 { c1 with hi := hi } c2.lo
    ({ lo := q0, hi := q1 }, { lo := rem, hi := 0 })
  else
    let shift := Ubits - 1 - bsr c2.hi
    let v1 := (shl c2 shift).hi
    let u1 := shr1 c1
    let (q1, _) := udivmod128_64 u1 v1
    let quotient := shr (shl { lo := q1, hi := 0 } shift) 63
    let quotient := if tst quotient then dec quotient else quotient
    let rem := sub c1 (mul quotient c2)
    if uge rem c2 then (inc quotient, sub rem c2) else (quotient, rem)

/-- `divmod` -/
def divmod (c1 c2 : Cent) : Cent × Cent :=
  if c1.hi.slt 0 then
    if c2.hi.slt 0 then
      let (r, modulus) := udivmod (neg c1) (neg c2)
      (r, neg modulus)
    else
      let (r, modulus) := udivmod (neg c1) c2
      (neg r, neg modulus)
  else if c2.hi.slt 0 then
    let (r, modulus) := udivmod c1 (neg c2)
    (neg r, modulus)
  else udivmod c1 c2

/-! ### One digit -/

theorem toNat_half (x : BitVec 64) : (((x >>> 32).setWidth 32).setWidth 64).toNat = x.toNat / 2 ^ 32 := by
  have small := x.isLt
  rw [BitVec.toNat_setWidth, BitVec.toNat_setWidth, BitVec.toNat_ushiftRight,
    Nat.shiftRight_eq_div_pow]
  omega

theorem toNat_lower (x : BitVec 64) :
    (((x &&& mulmask).setWidth 32).setWidth 64).toNat = x.toNat % 2 ^ 32 := by
  rw [BitVec.toNat_setWidth, BitVec.toNat_setWidth, toNat_and_mulmask]
  omega

theorem toNat_wide (x : BitVec 32) : (x.setWidth 64).toNat = x.toNat := by
  have small := x.isLt
  rw [BitVec.toNat_setWidth]
  omega

/-- A digit of a quotient by a divisor whose highest bit is set. -/
theorem toNat_udiv96_64 {num1 den : BitVec 64} (num0 : BitVec 32) (normalized : 2 ^ 63 ≤ den.toNat)
    (small : num1.toNat < den.toNat) :
    (udiv96_64 num1 num0 den).toNat = (num1.toNat * 2 ^ 32 + num0.toNat) / den.toNat := by
  have denSmall := den.isLt
  have numSmall := num0.isLt
  have split : den.toNat / 2 ^ 32 * 2 ^ 32 + den.toNat % 2 ^ 32 = den.toNat := by omega
  have digit := @estimate_eq (2 ^ 32) num1.toNat num0.toNat (den.toNat / 2 ^ 32)
    (den.toNat % 2 ^ 32) (by omega) (Nat.mod_lt _ (by decide)) numSmall (by omega)
  have most := @quotient_le (2 ^ 32) num1.toNat (den.toNat / 2 ^ 32)
    (den.toNat % 2 ^ 32) (by omega) (Nat.mod_lt _ (by decide)) (by omega)
  have left : num1.toNat % (den.toNat / 2 ^ 32) < den.toNat / 2 ^ 32 := Nat.mod_lt _ (by omega)
  have below : (num1.toNat * 2 ^ 32 + num0.toNat) / den.toNat < 2 ^ 32 := by
    rw [Nat.div_lt_iff_lt_mul (by omega)]
    omega
  have product : num1.toNat / (den.toNat / 2 ^ 32) * (den.toNat % 2 ^ 32) ≤
      (2 ^ 32 + 1) * (2 ^ 32 - 1) := Nat.mul_le_mul most (by omega)
  unfold udiv96_64
  extract_lets den1 den0 ret t2 t1 ret'
  have isRet : ret.toNat = num1.toNat / (den.toNat / 2 ^ 32) := by
    rw [BitVec.toNat_udiv, toNat_half]
  have isT2 : t2.toNat = num1.toNat % (den.toNat / 2 ^ 32) * 2 ^ 32 + num0.toNat := by
    rw [BitVec.toNat_add, BitVec.toNat_mul, BitVec.toNat_umod, toNat_half, toNat_wide,
      show base.toNat = 2 ^ 32 from rfl]
    omega
  have isT1 : t1.toNat = ret.toNat * (den.toNat % 2 ^ 32) := by
    rw [BitVec.toNat_mul, toNat_lower, isRet]
    omega
  have same : ret'.toNat = (num1.toNat * 2 ^ 32 + num0.toNat) / den.toNat := by
    rw [split] at digit
    rw [← digit, estimate, split, ← isRet, ← isT2, ← isT1]
    have bound := ret.isLt
    have t1Small := t1.isLt
    by_cases beyond : t2.toNat < t1.toNat
    · have some : ret.toNat ≠ 0 := by
        intro zero
        rw [isT1, zero, Nat.zero_mul] at beyond
        exact Nat.not_lt_zero _ beyond
      have difference : (t1 - t2).toNat = t1.toNat - t2.toNat := BitVec.toNat_sub_of_le (Nat.le_of_lt beyond)
      have shown : ret' = ret - if den < t1 - t2 then 2 else 1 := if_pos beyond
      rw [if_pos beyond, shown]
      by_cases far : den.toNat < t1.toNat - t2.toNat
      · have many : 2 ≤ ret.toNat := by
          by_contra few
          have one : ret.toNat = 1 := by omega
          rw [isT1, one] at far
          omega
        rw [if_pos far, if_pos (by rw [BitVec.lt_def, difference]; exact far)]
        exact BitVec.toNat_sub_of_le many
      · rw [if_neg far, if_neg (by rw [BitVec.lt_def, difference]; exact far)]
        exact BitVec.toNat_sub_of_le (Nat.one_le_iff_ne_zero.mpr some)
    · have shown : ret' = ret := if_neg beyond
      rw [if_neg beyond, shown]
  rw [BitVec.toNat_setWidth, same, Nat.mod_eq_of_lt below]

/-! ### One word -/

theorem shift_bounds {c : BitVec 64} (positive : c.toNat ≠ 0) :
    Ubits - 1 - bsr c < 64 ∧ 2 ^ 63 ≤ c.toNat * 2 ^ (Ubits - 1 - bsr c) ∧
      c.toNat * 2 ^ (Ubits - 1 - bsr c) < 2 ^ 64 := by
  have small := c.isLt
  have lower := Nat.log2_self_le positive
  have upper := @Nat.lt_log2_self c.toNat
  have index : Nat.log2 c.toNat < 64 := (Nat.log2_lt positive).mpr small
  unfold Ubits bsr
  have room : 2 ^ 63 = 2 ^ Nat.log2 c.toNat * 2 ^ (64 - 1 - Nat.log2 c.toNat) := by
    rw [← Nat.pow_add]
    congr 1
    omega
  have whole : 2 ^ 64 = 2 ^ (Nat.log2 c.toNat + 1) * 2 ^ (64 - 1 - Nat.log2 c.toNat) := by
    rw [← Nat.pow_add]
    congr 1
    omega
  refine ⟨by omega, ?_, ?_⟩
  · rw [room]
    exact Nat.mul_le_mul_right _ lower
  · rw [whole]
    exact Nat.mul_lt_mul_of_pos_right upper (Nat.two_pow_pos _)

/-- The mask makes the shift of the lower word vanish where nothing is shifted. -/
theorem masked_shift (lo : BitVec 64) {shift : Nat} (small : shift < 64) :
    (lo >>> (-BitVec.ofNat 32 shift &&& 63).toNat) &&&
        (-BitVec.ofNat 64 shift).sshiftRight 63 = lo >>> (Ubits - shift - 1) >>> 1 := by
  have counts : ∀ s < 64, (-BitVec.ofNat 32 s &&& 63).toNat = (64 - s) % 64 := by decide
  have masks : ∀ s < 64, 0 < s →
      (-BitVec.ofNat 64 s).sshiftRight 63 = BitVec.allOnes 64 := by decide
  rw [counts shift small, ← BitVec.shiftRight_add]
  rcases Nat.eq_zero_or_pos shift with rfl | positive
  · refine BitVec.eq_of_toNat_eq ?_
    have none : lo.toNat / 2 ^ 64 = 0 := Nat.div_eq_of_lt lo.isLt
    rw [show (-BitVec.ofNat 64 0).sshiftRight 63 = 0#64 by decide, BitVec.and_zero,
      BitVec.toNat_ushiftRight, Nat.shiftRight_eq_div_pow]
    exact none.symm
  · rw [masks shift small positive, BitVec.and_allOnes, Nat.mod_eq_of_lt (by omega)]
    congr 1
    unfold Ubits
    omega

/-- What is left of two digits, in one word. -/
theorem toNat_left {a d q : BitVec 64} {b : BitVec 64} {r : Nat}
    (split : a.toNat * 2 ^ 32 + b.toNat = q.toNat * d.toNat + r) (small : r < 2 ^ 64) :
    (a * base + b - q * d).toNat = r := by
  rw [BitVec.toNat_sub, BitVec.toNat_add, BitVec.toNat_mul, BitVec.toNat_mul,
    show base.toNat = 2 ^ 32 from rfl]
  generalize a.toNat * 2 ^ 32 = x at split ⊢
  generalize q.toNat * d.toNat = y at split ⊢
  omega

theorem udivmod128_64_eq {c1 : Cent} {c2 : BitVec 64} (fits : c1.hi.toNat < c2.toNat) :
    (udivmod128_64 c1 c2).1.toNat = c1.value / c2.toNat ∧
      (udivmod128_64 c1 c2).2.toNat = c1.value % c2.toNat := by
  obtain ⟨below, normalized, room⟩ := shift_bounds (c := c2) (by omega)
  have loSmall := c1.lo.isLt
  unfold udivmod128_64
  rw [if_neg (by rw [BitVec.le_def]; omega)]
  extract_lets shift d num2 num2' lo num1 num0 q1 rem q0 modulus
  have isD : d.toNat = c2.toNat * 2 ^ shift := by
    rw [BitVec.toNat_shiftLeft, Nat.shiftLeft_eq, Nat.mod_eq_of_lt room]
  have word : shl c1 shift = { lo := lo, hi := num2' } := by
    unfold shl
    rw [if_neg (by unfold Ubits; omega), if_neg (by unfold Ubits; omega)]
    exact congrArg (Cent.mk lo) (congrArg (num2 ||| ·) (masked_shift c1.lo below).symm)
  have scaled : num2'.toNat * 2 ^ 64 + lo.toNat = c1.value * 2 ^ shift := by
    have value := value_shl c1 below
    have fit : c1.value * 2 ^ shift < 2 ^ 128 := by
      calc c1.value * 2 ^ shift < c2.toNat * 2 ^ 64 * 2 ^ shift := by
            refine Nat.mul_lt_mul_of_pos_right ?_ (Nat.two_pow_pos _)
            unfold Cent.value
            omega
        _ = c2.toNat * 2 ^ shift * 2 ^ 64 := Nat.mul_right_comm _ _ _
        _ ≤ 2 ^ 128 := by
            have most := Nat.mul_le_mul_right (2 ^ 64) (Nat.le_of_lt room)
            omega
    rw [word, Nat.mod_eq_of_lt fit] at value
    exact value
  have digits : num2'.toNat * 2 ^ 64 + lo.toNat =
      (num2'.toNat * 2 ^ 32 + num1.toNat) * 2 ^ 32 + num0.toNat := by
    have one : num1.toNat = lo.toNat / 2 ^ 32 := (toNat_wide num1).symm.trans (toNat_half lo)
    have zero : num0.toNat = lo.toNat % 2 ^ 32 := (toNat_wide num0).symm.trans (toNat_lower lo)
    omega
  have start : num2'.toNat < d.toNat := by
    have most : c1.value * 2 ^ shift < d.toNat * 2 ^ 64 := by
      rw [isD, Nat.mul_right_comm]
      refine Nat.mul_lt_mul_of_pos_right ?_ (Nat.two_pow_pos _)
      unfold Cent.value
      omega
    omega
  have positive : 0 < d.toNat := Nat.zero_lt_of_lt start
  have high : 2 ^ 63 ≤ d.toNat := by
    rw [isD]
    exact normalized
  have isQ1 : q1.toNat = (num2'.toNat * 2 ^ 32 + num1.toNat) / d.toNat :=
    toNat_udiv96_64 num1 high start
  have isRem : rem.toNat = (num2'.toNat * 2 ^ 32 + num1.toNat) % d.toNat := by
    have split := Nat.div_add_mod' (num2'.toNat * 2 ^ 32 + num1.toNat) d.toNat
    refine toNat_left ?_ (Nat.lt_of_lt_of_le (Nat.mod_lt _ positive) (Nat.le_of_lt d.isLt))
    rw [toNat_wide, toNat_wide, isQ1]
    exact split.symm
  have goesOn : rem.toNat < d.toNat := by
    rw [isRem]
    exact Nat.mod_lt _ positive
  have isQ0 : q0.toNat = (rem.toNat * 2 ^ 32 + num0.toNat) / d.toNat :=
    toNat_udiv96_64 num0 high goesOn
  have isLeft : (rem * base + num0.setWidth 64 - q0.setWidth 64 * d).toNat =
      (rem.toNat * 2 ^ 32 + num0.toNat) % d.toNat := by
    have split := Nat.div_add_mod' (rem.toNat * 2 ^ 32 + num0.toNat) d.toNat
    refine toNat_left ?_ (Nat.lt_of_lt_of_le (Nat.mod_lt _ positive) (Nat.le_of_lt d.isLt))
    rw [toNat_wide, toNat_wide, isQ0]
    exact split.symm
  have both := @next_digit (2 ^ 32) (num2'.toNat * 2 ^ 32 + num1.toNat) num0.toNat d.toNat positive
  rw [← isRem, ← isQ1, ← isQ0, ← digits, scaled, isD] at both
  constructor
  · have joined : ((q1.setWidth 64 <<< 32) ||| q0.setWidth 64).toNat =
        q1.toNat * 2 ^ 32 + q0.toNat := by
      have q1Small := q1.isLt
      rw [BitVec.toNat_or, BitVec.toNat_shiftLeft, toNat_wide, toNat_wide, Nat.shiftLeft_eq,
        Nat.mod_eq_of_lt (by omega), ← Nat.shiftLeft_eq, shiftLeft_or _ q0.isLt,
        Nat.shiftLeft_eq]
    refine joined.trans (both.1.symm.trans ?_)
    exact Nat.mul_div_mul_right _ _ (Nat.two_pow_pos shift)
  · show ((rem * base + num0.setWidth 64 - q0.setWidth 64 * d) >>> shift).toNat = _
    rw [BitVec.toNat_ushiftRight, isLeft, isD, ← both.2, Nat.mul_mod_mul_right,
      Nat.shiftRight_eq_div_pow]
    exact Nat.mul_div_cancel _ (Nat.two_pow_pos shift)

/-! ### Two words -/

/-- The quotient by the upper 64 bits of a divisor that is shifted up, which is right or too large
by one. -/
theorem upper_quotient {x c shift : Nat} (small : x < 2 ^ 128) (below : shift < 64)
    (normalized : 2 ^ 127 ≤ c * 2 ^ shift) :
    let quotient := x / 2 / (c * 2 ^ shift / 2 ^ 64) * 2 ^ shift / 2 ^ 63
    quotient = x / c ∨ quotient = x / c + 1 := by
  have words := words_split (Nat.le_of_lt below)
  have positive := Nat.two_pow_pos shift
  have cPositive : 0 < c := by
    rcases Nat.eq_zero_or_pos c with rfl | some
    · rw [Nat.zero_mul] at normalized
      exact absurd normalized (by decide)
    · exact some
  generalize isV : c * 2 ^ shift / 2 ^ 64 = v
  have high : 2 ^ 63 ≤ v := by omega
  have isQuotient : x / 2 / v * 2 ^ shift / 2 ^ 63 = x / (v * 2 ^ (64 - shift)) := by
    have scaled : x / 2 / v * 2 ^ shift / 2 ^ 63 = x / 2 / v / 2 ^ (63 - shift) := by
      rw [show 2 ^ 63 = 2 ^ (63 - shift) * 2 ^ shift by rw [← Nat.pow_add]; congr 1; omega]
      exact Nat.mul_div_mul_right _ _ positive
    rw [scaled, Nat.div_div_eq_div_mul, Nat.div_div_eq_div_mul, show 64 - shift = 63 - shift + 1 by omega, Nat.pow_succ]
    congr 1
    ring
  have kept : v * 2 ^ (64 - shift) ≤ c := by
    refine Nat.le_of_mul_le_mul_right ?_ positive
    rw [Nat.mul_assoc, ← words, ← isV]
    exact Nat.div_mul_le_self _ _
  obtain ⟨dropped, rfl⟩ := Nat.exists_eq_add_of_le kept
  have few : dropped < 2 ^ (64 - shift) := by
    refine Nat.lt_of_mul_lt_mul_right (a := 2 ^ shift) ?_
    rw [← words]
    have split := Nat.div_add_mod' ((v * 2 ^ (64 - shift) + dropped) * 2 ^ shift) (2 ^ 64)
    have left := Nat.mod_lt ((v * 2 ^ (64 - shift) + dropped) * 2 ^ shift) (Nat.two_pow_pos 64)
    rw [isV, Nat.add_mul, Nat.mul_assoc, ← words] at split
    omega
  have many : x / (v * 2 ^ (64 - shift) + dropped) + 1 ≤ 2 ^ (shift + 1) := by
    refine (Nat.div_lt_iff_lt_mul cPositive).mpr ?_
    rw [Nat.pow_succ, Nat.mul_comm (2 ^ shift), Nat.mul_assoc, Nat.mul_comm (2 ^ shift)]
    omega
  show x / 2 / v * 2 ^ shift / 2 ^ 63 = _ ∨ x / 2 / v * 2 ^ shift / 2 ^ 63 = _
  rw [isQuotient]
  refine div_dropped x (Nat.mul_pos (by omega) (Nat.two_pow_pos _)) ?_
  have product : 2 ^ (shift + 1) * 2 ^ (64 - shift) = 2 ^ 65 := by
    rw [← Nat.pow_add]
    congr 1
    omega
  calc (x / (v * 2 ^ (64 - shift) + dropped) + 1) * dropped
      ≤ 2 ^ (shift + 1) * (2 ^ (64 - shift) - 1) := Nat.mul_le_mul many (by omega)
    _ = 2 ^ 65 - 2 ^ (shift + 1) := by rw [Nat.mul_sub, product, Nat.mul_one]
    _ ≤ 2 ^ 63 * 2 ^ (64 - shift) := by
      rw [← Nat.pow_add]
      rcases Nat.lt_or_ge shift 63 with less | most
      · have larger : 2 ^ 65 ≤ 2 ^ (63 + (64 - shift)) :=
          Nat.pow_le_pow_right Nat.two_pos (by omega)
        omega
      · obtain rfl : shift = 63 := by omega
        decide
    _ ≤ v * 2 ^ (64 - shift) := Nat.mul_le_mul_right _ high

/-- The quotient that the code corrects. -/
theorem value_estimate {c1 c2 : Cent} (wide : c2.hi.toNat ≠ 0) :
    let shift := Ubits - 1 - bsr c2.hi
    let q1 := (udivmod128_64 (shr1 c1) (shl c2 shift).hi).1
    let quotient := (shr (shl { lo := q1, hi := 0 } shift) 63).value
    quotient = c1.value / c2.value ∨ quotient = c1.value / c2.value + 1 := by
  intro shift q1 quotient
  obtain ⟨below, normalized, room⟩ : shift < 64 ∧ 2 ^ 63 ≤ c2.hi.toNat * 2 ^ shift ∧
      c2.hi.toNat * 2 ^ shift < 2 ^ 64 := shift_bounds wide
  have loSmall := c2.lo.isLt
  have hiSmall := c1.hi.isLt
  have whole : c2.value * 2 ^ shift = c2.hi.toNat * 2 ^ shift * 2 ^ 64 + c2.lo.toNat * 2 ^ shift := by
    rw [Cent.value]
    ring
  have fit : c2.value * 2 ^ shift < 2 ^ 128 := by
    have least : c2.hi.toNat * 2 ^ shift + 2 ^ shift ≤ 2 ^ 64 := by
      have inside := room
      rw [words_split (Nat.le_of_lt below)] at inside ⊢
      rw [← Nat.succ_mul]
      exact Nat.mul_le_mul_right _ (Nat.lt_of_mul_lt_mul_right inside)
    have lower : c2.lo.toNat * 2 ^ shift < 2 ^ shift * 2 ^ 64 := by
      rw [Nat.mul_comm]
      exact Nat.mul_lt_mul_of_pos_left loSmall (Nat.two_pow_pos _)
    omega
  have isV : (shl c2 shift).hi.toNat = c2.value * 2 ^ shift / 2 ^ 64 := by
    have value := value_shl c2 below
    have low := (shl c2 shift).lo.isLt
    rw [Nat.mod_eq_of_lt fit, Cent.value] at value
    omega
  have isQ1 : q1.toNat = c1.value / 2 / (c2.value * 2 ^ shift / 2 ^ 64) := by
    have half : (shr1 c1).hi.toNat = c1.hi.toNat / 2 := BitVec.toNat_ushiftRight c1.hi 1
    have fits : (shr1 c1).hi.toNat < (shl c2 shift).hi.toNat := by omega
    show (udivmod128_64 (shr1 c1) (shl c2 shift).hi).1.toNat = _
    rw [(udivmod128_64_eq fits).1, value_shr1, isV]
  have isQuotient : quotient = q1.toNat * 2 ^ shift / 2 ^ 63 := by
    have plain : ({ lo := q1, hi := 0 } : Cent).value = q1.toNat := by
      show 0 * 2 ^ 64 + q1.toNat = q1.toNat
      omega
    have inside : q1.toNat * 2 ^ shift < 2 ^ 128 := by
      calc q1.toNat * 2 ^ shift < 2 ^ 64 * 2 ^ shift :=
            Nat.mul_lt_mul_of_pos_right q1.isLt (Nat.two_pow_pos _)
        _ ≤ 2 ^ 64 * 2 ^ 64 :=
            Nat.mul_le_mul_left _ (Nat.pow_le_pow_right Nat.two_pos (Nat.le_of_lt below))
    show (shr (shl { lo := q1, hi := 0 } shift) 63).value = _
    rw [value_shr _ (by decide), value_shl _ below, plain, Nat.mod_eq_of_lt inside]
  rw [isQuotient, isQ1]
  exact upper_quotient c1.value_lt below (by omega)

/-! ### The division -/

theorem value_word (lo : BitVec 64) : ({ lo := lo, hi := 0 } : Cent).value = lo.toNat := by
  show 0 * 2 ^ 64 + lo.toNat = lo.toNat
  rw [Nat.zero_mul, Nat.zero_add]

theorem value_of_hi {c : Cent} (zero : c.hi = 0) : c.value = c.lo.toNat := by
  rw [← value_word, ← zero]

/-- The division by one word, where the upper word of the dividend is divided first. -/
theorem value_udivmod_word (c1 : Cent) {c2 : Cent} (one : c2.hi = 0) (nonzero : c2.value ≠ 0) :
    let q1 := if c1.hi < c2.lo then 0 else c1.hi / c2.lo
    let hi := if q1 ≠ 0 then c1.hi % c2.lo else c1.hi
    let result := udivmod128_64 { c1 with hi := hi } c2.lo
    ({ lo := result.1, hi := q1 } : Cent).value = c1.value / c2.value ∧
      ({ lo := result.2, hi := 0 } : Cent).value = c1.value % c2.value := by
  intro q1 hi result
  rw [value_of_hi one] at nonzero ⊢
  have positive : 0 < c2.lo.toNat := Nat.pos_of_ne_zero nonzero
  have isQ1 : q1.toNat = c1.hi.toNat / c2.lo.toNat := by
    show (if c1.hi < c2.lo then (0 : BitVec 64) else c1.hi / c2.lo).toNat = _
    split_ifs with less
    · exact (Nat.div_eq_of_lt less).symm
    · exact BitVec.toNat_udiv
  have isHi : hi.toNat = c1.hi.toNat % c2.lo.toNat := by
    show (if q1 ≠ 0 then c1.hi % c2.lo else c1.hi).toNat = _
    split_ifs with some
    · exact BitVec.toNat_umod
    · have zero : c1.hi.toNat / c2.lo.toNat = 0 := by
        rw [← isQ1, not_not.mp some]
        rfl
      have less : c1.hi.toNat < c2.lo.toNat := (Nat.div_eq_zero_iff_lt positive).mp zero
      exact (Nat.mod_eq_of_lt less).symm
  have fits : ({ c1 with hi := hi } : Cent).hi.toNat < c2.lo.toNat := by
    show hi.toNat < _
    rw [isHi]
    exact Nat.mod_lt _ positive
  obtain ⟨isQ0, isRem⟩ := udivmod128_64_eq fits
  have value : ({ c1 with hi := hi } : Cent).value =
      c1.hi.toNat % c2.lo.toNat * 2 ^ 64 + c1.lo.toNat := by
    rw [← isHi]
    rfl
  obtain ⟨quotient, remainder⟩ := @next_digit (2 ^ 64) c1.hi.toNat c1.lo.toNat c2.lo.toNat positive
  rw [value] at isQ0 isRem
  constructor
  · show q1.toNat * 2 ^ 64 + result.1.toNat = (c1.hi.toNat * 2 ^ 64 + c1.lo.toNat) / _
    rw [quotient, isQ1, isQ0]
  · show _ = (c1.hi.toNat * 2 ^ 64 + c1.lo.toNat) % _
    rw [value_word, remainder, isRem]

/-- A quotient that is right or too large by one becomes right. -/
theorem value_corrected {c1 c2 estimate : Cent} (nonzero : c2.value ≠ 0)
    (close : estimate.value = c1.value / c2.value ∨ estimate.value = c1.value / c2.value + 1) :
    let quotient := if tst estimate then dec estimate else estimate
    let rem := sub c1 (mul quotient c2)
    let result := if uge rem c2 then (inc quotient, sub rem c2) else (quotient, rem)
    result.1.value = c1.value / c2.value ∧ result.2.value = c1.value % c2.value := by
  intro quotient rem result
  have positive : 0 < c2.value := Nat.pos_of_ne_zero nonzero
  have small := c1.value_lt
  have split := Nat.div_add_mod' c1.value c2.value
  have left := Nat.mod_lt c1.value positive
  have below : quotient.value = c1.value / c2.value ∨
      quotient.value + 1 = c1.value / c2.value := by
    show (if tst estimate then dec estimate else estimate).value = _ ∨
      (if tst estimate then dec estimate else estimate).value + 1 = _
    split_ifs with some
    · have least : One.value ≤ estimate.value :=
        Nat.one_le_iff_ne_zero.mpr ((tst_iff estimate).mp some)
      rw [dec, value_sub least]
      rw [value_One] at least ⊢
      rcases close with same | beyond
      · exact Or.inr (by rw [Nat.sub_add_cancel least, same])
      · exact Or.inl (by rw [beyond, Nat.add_sub_cancel])
    · have zero : estimate.value = 0 := by
        by_contra some'
        exact some ((tst_iff estimate).mpr some')
      rcases close with same | beyond
      · exact Or.inl same
      · exact absurd (zero.symm.trans beyond) (Nat.succ_ne_zero _).symm
  have lower : quotient.value * c2.value ≤ c1.value := by
    have most : quotient.value ≤ c1.value / c2.value := by omega
    exact (Nat.mul_le_mul_right _ most).trans (Nat.div_mul_le_self _ _)
  have isRem : rem.value = c1.value - quotient.value * c2.value := by
    have product : (mul quotient c2).value = quotient.value * c2.value := by
      rw [value_mul, Nat.mod_eq_of_lt (by omega)]
    show (sub c1 (mul quotient c2)).value = _
    rw [value_sub (by rw [product]; exact lower), product]
  show (if uge rem c2 then (inc quotient, sub rem c2) else (quotient, rem)).1.value = _ ∧
    (if uge rem c2 then (inc quotient, sub rem c2) else (quotient, rem)).2.value = _
  rcases below with same | less
  · have inside : ¬ uge rem c2 = true := by
      rw [value_uge, isRem, same, not_le]
      omega
    rw [if_neg inside, isRem, same]
    exact ⟨rfl, by omega⟩
  · have more : quotient.value * c2.value + c2.value = c1.value / c2.value * c2.value := by
      rw [← less, Nat.succ_mul]
    have beyond : uge rem c2 = true := by
      rw [value_uge, isRem]
      omega
    have room : c1.value / c2.value ≤ c1.value := Nat.div_le_self _ _
    rw [if_pos beyond, inc, value_add, value_One, less, Nat.mod_eq_of_lt (by omega),
      value_sub ((value_uge rem c2).mp beyond), isRem]
    exact ⟨rfl, by omega⟩

/-- The unsigned division is exact. -/
theorem value_udivmod {c1 c2 : Cent} (nonzero : c2.value ≠ 0) :
    (udivmod c1 c2).1.value = c1.value / c2.value ∧
      (udivmod c1 c2).2.value = c1.value % c2.value := by
  have loSmall := c1.lo.isLt
  unfold udivmod
  rw [if_neg (by rw [(tst_iff c2).mpr nonzero]; decide)]
  by_cases first : c1.hi = 0
  · by_cases second : c2.hi = 0
    · rw [if_pos ⟨first, second⟩, value_word, value_word, value_of_hi first, value_of_hi second,
        BitVec.toNat_udiv, BitVec.toNat_umod]
      exact ⟨rfl, rfl⟩
    · have some : c2.hi.toNat ≠ 0 := fun zero => second (BitVec.eq_of_toNat_eq zero)
      have less : c1.value < c2.value := by
        rw [value_of_hi first, Cent.value]
        omega
      rw [if_neg fun both => second both.2, if_pos first]
      rw [value_Zero, Nat.div_eq_of_lt less, Nat.mod_eq_of_lt less]
      exact ⟨rfl, rfl⟩
  · rw [if_neg fun both => first both.1, if_neg first]
    by_cases second : c2.hi = 0
    · rw [if_pos second]
      exact value_udivmod_word c1 second nonzero
    · rw [if_neg second]
      have some : c2.hi.toNat ≠ 0 := fun zero => second (BitVec.eq_of_toNat_eq zero)
      exact value_corrected nonzero (value_estimate some)

/-! ### The signed division -/

theorem slt_zero_iff (c : Cent) : c.hi.slt 0 = true ↔ 2 ^ 127 ≤ c.value := by
  have loSmall := c.lo.isLt
  have hiSmall := c.hi.isLt
  rw [BitVec.slt_iff_toInt_lt, BitVec.toInt_eq_toNat_cond, Cent.value]
  show (if 2 * c.hi.toNat < 2 ^ 64 then _ else _) < (0 : Int) ↔ _
  split_ifs <;> omega

theorem signed_of_lt {c : Cent} (below : c.value < 2 ^ 127) : c.signed = c.value := by
  unfold Cent.signed
  rw [Int.bmod_eq_of_le] <;> omega

theorem signed_of_le {c : Cent} (above : 2 ^ 127 ≤ c.value) :
    c.signed = c.value - 2 ^ 128 := by
  have small := c.value_lt
  unfold Cent.signed
  rw [← Int.sub_bmod_right, Int.bmod_eq_of_le] <;> push_cast <;> omega

/-- The number that the unsigned division is given for a negative one. -/
theorem value_neg_of_le {c : Cent} (above : 2 ^ 127 ≤ c.value) :
    ((neg c).value : Int) = -c.signed := by
  have small := c.value_lt
  rw [value_neg, signed_of_le above]
  omega

theorem signed_neg (c : Cent) : (neg c).signed = Int.bmod (-c.value) (2 ^ 128) := by
  have small := c.value_lt
  unfold Cent.signed
  rw [value_neg, Int.natCast_emod, Nat.cast_sub (Nat.le_of_lt small), Int.emod_bmod,
    Int.sub_bmod_left]

/-- A remainder that is negated. -/
theorem signed_neg_of_lt {c : Cent} (below : c.value < 2 ^ 127) : (neg c).signed = -c.value := by
  rw [signed_neg, Int.bmod_eq_of_le] <;> omega

/-- The signed division truncates, and its remainder has the sign of the dividend. -/
theorem signed_divmod {c1 c2 : Cent} (nonzero : c2.value ≠ 0) :
    (divmod c1 c2).1.signed = Int.bmod (c1.signed.tdiv c2.signed) (2 ^ 128) ∧
      (divmod c1 c2).2.signed = c1.signed.tmod c2.signed := by
  have small := c2.value_lt
  unfold divmod
  by_cases first : 2 ^ 127 ≤ c1.value
  · have dividend : c1.signed = -((neg c1).value : Int) := by rw [value_neg_of_le first, Int.neg_neg]
    rw [if_pos ((slt_zero_iff c1).mpr first), dividend]
    by_cases second : 2 ^ 127 ≤ c2.value
    · have divisor : c2.signed = -((neg c2).value : Int) := by
        rw [value_neg_of_le second, Int.neg_neg]
      have range : (neg c2).value ≤ 2 ^ 127 ∧ (neg c2).value ≠ 0 := by
        rw [value_neg]
        omega
      obtain ⟨quotient, remainder⟩ := @value_udivmod (neg c1) _ range.2
      have left := Nat.mod_lt (neg c1).value (Nat.pos_of_ne_zero range.2)
      rw [if_pos ((slt_zero_iff c2).mpr second), divisor, Int.neg_tdiv_neg, Int.neg_tmod,
        Int.tmod_neg, ← Int.ofNat_tdiv, ← Int.ofNat_tmod, ← quotient, ← remainder]
      exact ⟨rfl, signed_neg_of_lt (by omega)⟩
    · have divisor : c2.signed = (c2.value : Int) := signed_of_lt (Nat.lt_of_not_le second)
      obtain ⟨quotient, remainder⟩ := @value_udivmod (neg c1) _ nonzero
      have left := Nat.mod_lt (neg c1).value (Nat.pos_of_ne_zero nonzero)
      rw [if_neg (fun negative => second ((slt_zero_iff c2).mp negative)), divisor, Int.neg_tdiv,
        Int.neg_tmod, ← Int.ofNat_tdiv, ← Int.ofNat_tmod, ← quotient, ← remainder]
      exact ⟨signed_neg _, signed_neg_of_lt (by omega)⟩
  · have dividend : c1.signed = (c1.value : Int) := signed_of_lt (Nat.lt_of_not_le first)
    rw [if_neg (fun negative => first ((slt_zero_iff c1).mp negative)), dividend]
    by_cases second : 2 ^ 127 ≤ c2.value
    · have divisor : c2.signed = -((neg c2).value : Int) := by
        rw [value_neg_of_le second, Int.neg_neg]
      have range : (neg c2).value ≤ 2 ^ 127 ∧ (neg c2).value ≠ 0 := by
        rw [value_neg]
        omega
      obtain ⟨quotient, remainder⟩ := @value_udivmod c1 _ range.2
      have left := Nat.mod_lt c1.value (Nat.pos_of_ne_zero range.2)
      rw [if_pos ((slt_zero_iff c2).mpr second), divisor, Int.tdiv_neg, Int.tmod_neg,
        ← Int.ofNat_tdiv, ← Int.ofNat_tmod, ← quotient, ← remainder]
      refine ⟨signed_neg _, ?_⟩
      show (udivmod c1 (neg c2)).2.signed = _
      exact signed_of_lt (by omega)
    · have divisor : c2.signed = (c2.value : Int) := signed_of_lt (Nat.lt_of_not_le second)
      obtain ⟨quotient, remainder⟩ := @value_udivmod c1 _ nonzero
      have left := Nat.mod_le c1.value c2.value
      rw [if_neg (fun negative => second ((slt_zero_iff c2).mp negative)), divisor,
        ← Int.ofNat_tdiv, ← Int.ofNat_tmod, ← quotient, ← remainder]
      exact ⟨rfl, signed_of_lt (by omega)⟩

/-- A number is its signed reading, modulo `2 ^ 128`. -/
theorem value_modEq_signed (c : Cent) : (c.value : Int) ≡ c.signed [ZMOD 2 ^ 128] := by
  have divides := Int.dvd_bmod_sub_self (x := c.value) (m := 2 ^ 128)
  exact Int.modEq_iff_dvd.mpr divides

/-- The two divisions: the unsigned one gives the quotient and the remainder, and the signed one the
truncated quotient, wrapped where it does not fit, and the remainder with the sign of the
dividend. -/
theorem udivmod_divmod_exact (c1 : Cent) {c2 : Cent} (nonzero : c2 ≠ Zero) :
    (c1.value = (udivmod c1 c2).1.value * c2.value + (udivmod c1 c2).2.value ∧
      (udivmod c1 c2).2.value < c2.value) ∧
    ((divmod c1 c2).1.signed = Int.bmod (c1.signed.tdiv c2.signed) (2 ^ 128) ∧
      (divmod c1 c2).2.signed = c1.signed.tmod c2.signed ∧
      c1.value = ((divmod c1 c2).1.value * c2.value + (divmod c1 c2).2.value) % 2 ^ 128) := by
  have some : c2.value ≠ 0 := fun zero => nonzero (Cent.value_injective (zero.trans value_Zero.symm))
  obtain ⟨quotient, remainder⟩ := @value_udivmod c1 _ some
  obtain ⟨signedQuotient, signedRemainder⟩ := @signed_divmod c1 _ some
  refine ⟨⟨?_, ?_⟩, signedQuotient, signedRemainder, ?_⟩
  · rw [quotient, remainder]
    exact (Nat.div_add_mod' _ _).symm
  · rw [remainder]
    exact Nat.mod_lt _ (Nat.pos_of_ne_zero some)
  · have first := value_modEq_signed c1
    have second := (value_modEq_signed c2).symm
    have wrapped : Int.bmod (c1.signed.tdiv c2.signed) (2 ^ 128) ≡ c1.signed.tdiv c2.signed
        [ZMOD 2 ^ 128] := (Int.modEq_iff_dvd.mpr (Int.dvd_bmod_sub_self (m := 2 ^ 128))).symm
    have q := (value_modEq_signed (divmod c1 c2).1).symm
    have m := (value_modEq_signed (divmod c1 c2).2).symm
    rw [signedQuotient] at q
    rw [signedRemainder] at m
    have whole := Int.tdiv_mul_add_tmod c1.signed c2.signed
    have sum := ((wrapped.symm.trans q).mul second).add m
    rw [whole] at sum
    have both : c1.value % 2 ^ 128 =
        ((divmod c1 c2).1.value * c2.value + (divmod c1 c2).2.value) % 2 ^ 128 := by
      exact_mod_cast first.trans sum
    rwa [Nat.mod_eq_of_lt c1.value_lt] at both

/-- Ten by three, and minus ten by three. -/
theorem udivmod_divmod_ten :
    let ten : Cent := { lo := 10, hi := 0 }
    let three : Cent := { lo := 3, hi := 0 }
    ten.value = (udivmod ten three).1.value * three.value + (udivmod ten three).2.value ∧
      (divmod (neg ten) three).2.signed = (neg ten).signed.tmod three.signed :=
  ⟨(@udivmod_divmod_exact { lo := 10, hi := 0 } { lo := 3, hi := 0 } (by decide)).1.1,
    (@udivmod_divmod_exact (neg { lo := 10, hi := 0 }) { lo := 3, hi := 0 } (by decide)).2.2.1⟩

end LaserD.Int128
