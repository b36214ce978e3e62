/-
This file models the 128-bit integers of `common/int128.d` and proves what the helpers of
the division compute.

A `Cent` is a pair of 64-bit words. Sums, differences, shifts and products of pairs are
those of the numbers they hold, modulo `2 ^ 128`.
-/

import Mathlib.Data.Nat.Bitwise
import Mathlib.Tactic.Ring
import Mathlib.Tactic.SplitIfs

namespace LaserD.Int128

/-- `Ubits` -/
def Ubits : Nat := 64

/-- `Cent` -/
structure Cent where
  lo : BitVec 64
  hi : BitVec 64
  deriving DecidableEq, Repr

/-- The number that a `Cent` holds. -/
def Cent.value (c : Cent) : Nat := c.hi.toNat * 2 ^ 64 + c.lo.toNat

/-- The signed reading of a `Cent`. -/
def Cent.signed (c : Cent) : Int := Int.bmod c.value (2 ^ 128)

def One : Cent := { lo := 1, hi := 0 }
def Zero : Cent := { lo := 0, hi := 0 }

/-- `tst` -/
def tst (c : Cent) : Bool := c.hi != 0 || c.lo != 0

/-- `com` -/
def com (c : Cent) : Cent := { lo := ~~~c.lo, hi := ~~~c.hi }

/-- `neg` -/
def neg (c : Cent) : Cent :=
  if c.lo = 0 then { c with hi := -c.hi } else { lo := -c.lo, hi := ~~~c.hi }

/-- `add` -/
def add (c1 c2 : Cent) : Cent :=
  let r := c1.lo + c2.lo
  { lo := r, hi := c1.hi + c2.hi + if r < c1.lo then 1 else 0 }

/-- `sub` -/
def sub (c1 c2 : Cent) : Cent := add c1 (neg c2)

/-- `inc` -/
def inc (c : Cent) : Cent := add c One

/-- `dec` -/
def dec (c : Cent) : Cent := sub c One

/-- `shr1` -/
def shr1 (c : Cent) : Cent :=
  { lo := (c.lo >>> 1) ||| ((c.hi &&& 1) <<< (Ubits - 1)), hi := c.hi >>> 1 }

/-- `shl` -/
def shl (c : Cent) (n : Nat) : Cent :=
  if Ubits * 2 ≤ n then Zero
  else if Ubits ≤ n then { lo := 0, hi := c.lo <<< (n - Ubits) }
  else { lo := c.lo <<< n, hi := (c.hi <<< n) ||| (c.lo >>> (Ubits - n - 1) >>> 1) }

/-- `shr` -/
def shr (c : Cent) (n : Nat) : Cent :=
  if Ubits * 2 ≤ n then Zero
  else if Ubits ≤ n then { lo := c.hi >>> (n - Ubits), hi := 0 }
  else { lo := (c.lo >>> n) ||| (c.hi <<< (Ubits - n - 1) <<< 1), hi := c.hi >>> n }

/-- `mulmask` and `mulshift` -/
def mulmask : BitVec 64 := (1#64 <<< 32) - 1
@[inherit_doc mulmask] def mulshift : Nat := 32

/-- `mul`: the partial products of words of 32 bits. -/
def mul (c1 c2 : Cent) : Cent :=
  let c2l0 := c2.lo &&& mulmask
  let c2l1 := c2.lo >>> mulshift
  let c2h0 := c2.hi &&& mulmask
  let c2h1 := c2.hi >>> mulshift
  let c1l0 := c1.lo &&& mulmask
  let r0 := c1l0 * c2l0
  let r1 := c1l0 * c2l1 + (r0 >>> mulshift)
  let r2 := c1l0 * c2h0 + (r1 >>> mulshift)
  let r3 := c1l0 * c2h1 + (r2 >>> mulshift)
  let c1l1 := c1.lo >>> mulshift
  let r1 := c1l1 * c2l0 + (r1 &&& mulmask)
  let r2 := c1l1 * c2l1 + (r2 &&& mulmask) + (r1 >>> mulshift)
  let r3 := c1l1 * c2h0 + (r3 &&& mulmask) + (r2 >>> mulshift)
  let c1h0 := c1.hi &&& mulmask
  let r2 := c1h0 * c2l0 + (r2 &&& mulmask)
  let r3 := c1h0 * c2l1 + (r3 &&& mulmask) + (r2 >>> mulshift)
  let c1h1 := c1.hi >>> mulshift
  let r3 := c1h1 * c2l0 + (r3 &&& mulmask)
  { lo := (r0 &&& mulmask) + (r1 &&& mulmask) * (mulmask + 1)
    hi := (r2 &&& mulmask) + (r3 &&& mulmask) * (mulmask + 1) }

/-- `ugt` -/
def ugt (c1 c2 : Cent) : Bool :=
  if c1.hi = c2.hi then c2.lo < c1.lo else c2.hi < c1.hi

/-- `uge` -/
def uge (c1 c2 : Cent) : Bool := !ugt c2 c1

/-! ### Numbers -/

theorem Cent.value_lt (c : Cent) : c.value < 2 ^ 128 := by
  have lo := c.lo.isLt
  have hi := c.hi.isLt
  unfold Cent.value
  omega

theorem Cent.value_injective {c c' : Cent} (same : c.value = c'.value) : c = c' := by
  obtain ⟨lo, hi⟩ := c
  obtain ⟨lo', hi'⟩ := c'
  unfold Cent.value at same
  have loSmall := lo.isLt
  have loSmall' := lo'.isLt
  dsimp only at same
  have his : hi = hi' := BitVec.eq_of_toNat_eq (by omega)
  have los : lo = lo' := BitVec.eq_of_toNat_eq (by omega)
  rw [his, los]

@[simp] theorem value_Zero : Zero.value = 0 := rfl

@[simp] theorem value_One : One.value = 1 := rfl

theorem tst_iff (c : Cent) : tst c = true ↔ c.value ≠ 0 := by
  have zero : c = Zero ↔ c.value = 0 :=
    ⟨fun same => same ▸ rfl, fun same => Cent.value_injective (same.trans value_Zero.symm)⟩
  rw [Ne, ← zero]
  obtain ⟨lo, hi⟩ := c
  simp [tst, Zero]
  tauto

theorem value_neg (c : Cent) : (neg c).value = (2 ^ 128 - c.value) % 2 ^ 128 := by
  have lo := c.lo.isLt
  have hi := c.hi.isLt
  unfold neg Cent.value
  split_ifs with zero
  · have none : c.lo.toNat = 0 := congrArg BitVec.toNat zero
    simp only [BitVec.toNat_neg, none]
    omega
  · have positive : c.lo.toNat ≠ 0 := fun same => zero (BitVec.eq_of_toNat_eq same)
    simp only [BitVec.toNat_neg, BitVec.toNat_not]
    omega

theorem value_add (c1 c2 : Cent) : (add c1 c2).value = (c1.value + c2.value) % 2 ^ 128 := by
  have lo1 := c1.lo.isLt
  have hi1 := c1.hi.isLt
  have lo2 := c2.lo.isLt
  have hi2 := c2.hi.isLt
  unfold add Cent.value
  dsimp only
  simp only [BitVec.toNat_add, BitVec.lt_def]
  split_ifs with carry
  · rw [show (1 : BitVec 64).toNat = 1 from rfl]
    omega
  · rw [show (0 : BitVec 64).toNat = 0 from rfl]
    omega

theorem value_sub {c1 c2 : Cent} (fits : c2.value ≤ c1.value) :
    (sub c1 c2).value = c1.value - c2.value := by
  have first := c1.value_lt
  rw [sub, value_add, value_neg]
  omega

theorem value_ugt (c1 c2 : Cent) : ugt c1 c2 = true ↔ c2.value < c1.value := by
  have lo1 := c1.lo.isLt
  have lo2 := c2.lo.isLt
  unfold ugt Cent.value
  split_ifs with same
  · rw [same, decide_eq_true_eq, BitVec.lt_def]
    omega
  · have apart : c1.hi.toNat ≠ c2.hi.toNat := fun equal => same (BitVec.eq_of_toNat_eq equal)
    rw [decide_eq_true_eq, BitVec.lt_def]
    omega

theorem value_uge (c1 c2 : Cent) : uge c1 c2 = true ↔ c2.value ≤ c1.value := by
  rw [uge, Bool.not_eq_true', Bool.eq_false_iff, Ne, value_ugt, not_lt]

/-! ### Shifts -/

/-- The upper part of a sum of a multiple of a power of two and something below it. -/
theorem shiftLeft_or {n low : Nat} (high : Nat) (small : low < 2 ^ n) :
    high <<< n ||| low = high * 2 ^ n + low := by
  rw [← Nat.shiftLeft_add_eq_or_of_lt small, Nat.shiftLeft_eq]

theorem value_shr1 (c : Cent) : (shr1 c).value = c.value / 2 := by
  have lo := c.lo.isLt
  have half : c.lo.toNat / 2 < 2 ^ 63 := by omega
  have bit : ((c.hi &&& 1) <<< (Ubits - 1)).toNat = (c.hi.toNat % 2) <<< 63 := by
    have below : c.hi.toNat % 2 * 2 ^ 63 < 2 ^ 64 := by omega
    rw [BitVec.toNat_shiftLeft, BitVec.toNat_and]
    show (c.hi.toNat &&& 1) <<< 63 % 2 ^ 64 = _
    rw [Nat.and_one_is_mod, Nat.shiftLeft_eq, Nat.mod_eq_of_lt below]
  unfold shr1 Cent.value
  dsimp only
  rw [BitVec.toNat_or, bit, BitVec.toNat_ushiftRight, BitVec.toNat_ushiftRight,
    Nat.shiftRight_eq_div_pow, Nat.shiftRight_eq_div_pow, Nat.pow_one, Nat.or_comm,
    shiftLeft_or _ half]
  omega

theorem words_split {n : Nat} (small : n ≤ 64) : 2 ^ 64 = 2 ^ (64 - n) * 2 ^ n := by
  rw [← Nat.pow_add, Nat.sub_add_cancel small]

theorem shiftLeft_mod {n : Nat} (small : n ≤ 64) (x : Nat) :
    x <<< n % 2 ^ 64 = (x % 2 ^ (64 - n)) * 2 ^ n := by
  rw [Nat.shiftLeft_eq, words_split small, Nat.mul_mod_mul_right]

theorem value_shl (c : Cent) {n : Nat} (small : n < 64) :
    (shl c n).value = c.value * 2 ^ n % 2 ^ 128 := by
  have words := words_split (Nat.le_of_lt small)
  have less := (shl c n).value_lt
  have shifted : c.lo.toNat >>> (Ubits - n - 1) >>> 1 = c.lo.toNat / 2 ^ (64 - n) := by
    rw [← Nat.shiftRight_add, Nat.shiftRight_eq_div_pow]
    congr 2
    unfold Ubits
    omega
  have low : c.lo.toNat / 2 ^ (64 - n) < 2 ^ n :=
    (Nat.div_lt_iff_lt_mul (Nat.two_pow_pos _)).mpr (by rw [Nat.mul_comm, ← words]; exact c.lo.isLt)
  have value : (shl c n).value =
      (c.hi.toNat % 2 ^ (64 - n) * 2 ^ n + c.lo.toNat / 2 ^ (64 - n)) * 2 ^ 64 +
        c.lo.toNat % 2 ^ (64 - n) * 2 ^ n := by
    unfold shl
    rw [if_neg (by unfold Ubits; omega), if_neg (by unfold Ubits; omega)]
    unfold Cent.value
    dsimp only
    rw [BitVec.toNat_or, BitVec.toNat_shiftLeft, BitVec.toNat_shiftLeft, BitVec.toNat_ushiftRight,
      BitVec.toNat_ushiftRight, shifted, shiftLeft_mod (Nat.le_of_lt small),
      shiftLeft_mod (Nat.le_of_lt small), ← Nat.shiftLeft_eq (c.hi.toNat % 2 ^ (64 - n)),
      shiftLeft_or _ low, Nat.shiftLeft_eq]
  have hiSplit := Nat.div_add_mod c.hi.toNat (2 ^ (64 - n))
  have loSplit := Nat.div_add_mod c.lo.toNat (2 ^ (64 - n))
  have whole : c.value * 2 ^ n = (shl c n).value + 2 ^ 128 * (c.hi.toNat / 2 ^ (64 - n)) := by
    rw [value, Cent.value]
    generalize c.hi.toNat / 2 ^ (64 - n) = a at hiSplit ⊢
    generalize c.hi.toNat % 2 ^ (64 - n) = b at hiSplit ⊢
    generalize c.lo.toNat / 2 ^ (64 - n) = d at loSplit ⊢
    generalize c.lo.toNat % 2 ^ (64 - n) = e at loSplit ⊢
    rw [← hiSplit, ← loSplit, show (2 : Nat) ^ 128 = 2 ^ 64 * 2 ^ 64 by norm_num, words]
    ring
  rw [whole, Nat.add_mul_mod_self_left, Nat.mod_eq_of_lt less]

theorem value_shr (c : Cent) {n : Nat} (small : n < 64) :
    (shr c n).value = c.value / 2 ^ n := by
  have words := words_split (Nat.le_of_lt small)
  have shifted : (c.hi.toNat <<< (Ubits - n - 1) % 2 ^ 64) <<< 1 % 2 ^ 64 =
      c.hi.toNat % 2 ^ n * 2 ^ (64 - n) := by
    have back : 64 - (64 - n) = n := by omega
    have twice := shiftLeft_mod (n := 64 - n) (by omega) c.hi.toNat
    rw [back] at twice
    rw [← twice, show Ubits - n - 1 = 63 - n by unfold Ubits; omega, Nat.shiftLeft_eq,
      Nat.shiftLeft_eq, Nat.shiftLeft_eq, Nat.mod_mul_mod, Nat.mul_assoc, ← Nat.pow_add,
      show 63 - n + 1 = 64 - n by omega]
  have low : c.lo.toNat / 2 ^ n < 2 ^ (64 - n) :=
    (Nat.div_lt_iff_lt_mul (Nat.two_pow_pos _)).mpr (by rw [← words]; exact c.lo.isLt)
  have hiSplit := Nat.div_add_mod c.hi.toNat (2 ^ n)
  have whole : c.value / 2 ^ n =
      c.hi.toNat * 2 ^ (64 - n) + c.lo.toNat / 2 ^ n := by
    rw [Cent.value, words, ← Nat.mul_assoc, Nat.mul_comm _ (2 ^ n),
      Nat.mul_add_div (Nat.two_pow_pos n)]
  unfold shr
  rw [if_neg (by unfold Ubits; omega), if_neg (by unfold Ubits; omega), whole]
  unfold Cent.value
  dsimp only
  rw [BitVec.toNat_or, BitVec.toNat_shiftLeft, BitVec.toNat_shiftLeft, BitVec.toNat_ushiftRight,
    BitVec.toNat_ushiftRight, shifted, Nat.or_comm, ← Nat.shiftLeft_eq (_ % _),
    Nat.shiftRight_eq_div_pow, Nat.shiftRight_eq_div_pow, shiftLeft_or _ low]
  generalize c.hi.toNat / 2 ^ n = a at hiSplit ⊢
  generalize c.hi.toNat % 2 ^ n = b at hiSplit ⊢
  rw [← hiSplit, words]
  ring

/-! ### Products -/

theorem toNat_and_mulmask (x : BitVec 64) : (x &&& mulmask).toNat = x.toNat % 2 ^ 32 := by
  rw [BitVec.toNat_and]
  exact Nat.and_two_pow_sub_one_eq_mod x.toNat 32

theorem toNat_shift_mulshift (x : BitVec 64) : (x >>> mulshift).toNat = x.toNat / 2 ^ 32 := by
  rw [BitVec.toNat_ushiftRight]
  exact Nat.shiftRight_eq_div_pow x.toNat 32

/-- Two words of 32 bits, one above the other. -/
theorem toNat_words (x y : BitVec 64) :
    ((x &&& mulmask) + (y &&& mulmask) * (mulmask + 1)).toNat =
      x.toNat % 2 ^ 32 + y.toNat % 2 ^ 32 * 2 ^ 32 := by
  rw [BitVec.toNat_add, BitVec.toNat_mul, toNat_and_mulmask, toNat_and_mulmask,
    show (mulmask + 1).toNat = 2 ^ 32 from rfl]
  omega

/-- A product of two words of 32 bits and a carry fit a word of 64 bits. -/
theorem toNat_mul_add {a b z : BitVec 64} (aSmall : a.toNat < 2 ^ 32) (bSmall : b.toNat < 2 ^ 32)
    (carry : z.toNat ≤ 2 * (2 ^ 32 - 1)) :
    (a * b + z).toNat = a.toNat * b.toNat + z.toNat := by
  have product : a.toNat * b.toNat ≤ (2 ^ 32 - 1) * (2 ^ 32 - 1) :=
    Nat.mul_le_mul (by omega) (by omega)
  rw [BitVec.toNat_add, BitVec.toNat_mul]
  omega

theorem toNat_mul_add_add {a b z z' : BitVec 64} (aSmall : a.toNat < 2 ^ 32)
    (bSmall : b.toNat < 2 ^ 32) (carry : z.toNat < 2 ^ 32) (carry' : z'.toNat < 2 ^ 32) :
    (a * b + z + z').toNat = a.toNat * b.toNat + z.toNat + z'.toNat := by
  have sum : (z + z').toNat = z.toNat + z'.toNat := by
    rw [BitVec.toNat_add]
    omega
  rw [BitVec.add_assoc, toNat_mul_add aSmall bSmall (by omega), sum, Nat.add_assoc]

theorem and_mulmask_lt (x : BitVec 64) : (x &&& mulmask).toNat < 2 ^ 32 := by
  rw [toNat_and_mulmask]
  exact Nat.mod_lt _ (by decide)

theorem shift_mulshift_lt (x : BitVec 64) : (x >>> mulshift).toNat < 2 ^ 32 := by
  have small := x.isLt
  rw [toNat_shift_mulshift]
  omega

/-- The columns of the product of two numbers of four digits, with their carries. -/
theorem columns {a0 a1 a2 a3 b0 b1 b2 b3 B : Nat} :
    ((a3 * B + a2) * (B * B) + (a1 * B + a0)) * ((b3 * B + b2) * (B * B) + (b1 * B + b0)) =
      a0 * b0 + (a0 * b1 + a1 * b0) * B + (a0 * b2 + a1 * b1 + a2 * b0) * (B * B) +
        (a0 * b3 + a1 * b2 + a2 * b1 + a3 * b0) * (B * B * B) +
        (a1 * b3 + a2 * b2 + a3 * b1 + (a2 * b3 + a3 * b2) * B + a3 * b3 * (B * B)) *
          (B * B * B * B) := by
  ring

/-- Four digits and the carries between their columns. -/
theorem digits_of_columns {p0 s1 s2 s3 rest c0 c1 c2 c3 d0 d1 d2 d3 : Nat}
    (column0 : p0 = 2 ^ 32 * c0 + d0) (column1 : s1 + c0 = 2 ^ 32 * c1 + d1)
    (column2 : s2 + c1 = 2 ^ 32 * c2 + d2) (column3 : s3 + c2 = 2 ^ 32 * c3 + d3)
    (small0 : d0 < 2 ^ 32) (small1 : d1 < 2 ^ 32) (small2 : d2 < 2 ^ 32) (small3 : d3 < 2 ^ 32) :
    (d2 + d3 * 2 ^ 32) * 2 ^ 64 + (d0 + d1 * 2 ^ 32) =
      (p0 + s1 * 2 ^ 32 + s2 * (2 ^ 32 * 2 ^ 32) + s3 * (2 ^ 32 * 2 ^ 32 * 2 ^ 32) +
        rest * (2 ^ 32 * 2 ^ 32 * 2 ^ 32 * 2 ^ 32)) % 2 ^ 128 := by
  have total : p0 + s1 * 2 ^ 32 + s2 * (2 ^ 32 * 2 ^ 32) + s3 * (2 ^ 32 * 2 ^ 32 * 2 ^ 32) +
      rest * (2 ^ 32 * 2 ^ 32 * 2 ^ 32 * 2 ^ 32) =
        (d2 + d3 * 2 ^ 32) * 2 ^ 64 + (d0 + d1 * 2 ^ 32) + (c3 + rest) * 2 ^ 128 := by
    omega
  rw [total, Nat.add_mul_mod_self_right]
  exact (Nat.mod_eq_of_lt (by omega)).symm

/-- The partial products added up column by column. -/
theorem carried_columns {p00 p01 p02 p03 p10 p11 p12 p20 p21 p30 rest r0 r1 r2 r3 r1' r2' r3' r2''
    r3'' r3''' : Nat} (e0 : r0 = p00) (e1 : r1 = p01 + r0 / 2 ^ 32) (e2 : r2 = p02 + r1 / 2 ^ 32)
    (e3 : r3 = p03 + r2 / 2 ^ 32) (f1 : r1' = p10 + r1 % 2 ^ 32)
    (f2 : r2' = p11 + r2 % 2 ^ 32 + r1' / 2 ^ 32) (f3 : r3' = p12 + r3 % 2 ^ 32 + r2' / 2 ^ 32)
    (g2 : r2'' = p20 + r2' % 2 ^ 32) (g3 : r3'' = p21 + r3' % 2 ^ 32 + r2'' / 2 ^ 32)
    (h3 : r3''' = p30 + r3'' % 2 ^ 32) :
    (r2'' % 2 ^ 32 + r3''' % 2 ^ 32 * 2 ^ 32) * 2 ^ 64 + (r0 % 2 ^ 32 + r1' % 2 ^ 32 * 2 ^ 32) =
      (p00 + (p01 + p10) * 2 ^ 32 + (p02 + p11 + p20) * (2 ^ 32 * 2 ^ 32) +
        (p03 + p12 + p21 + p30) * (2 ^ 32 * 2 ^ 32 * 2 ^ 32) +
        rest * (2 ^ 32 * 2 ^ 32 * 2 ^ 32 * 2 ^ 32)) % 2 ^ 128 := by
  have column0 : p00 = 2 ^ 32 * (r0 / 2 ^ 32) + r0 % 2 ^ 32 := by
    rw [← e0, Nat.div_add_mod]
  have column1 : p01 + p10 + r0 / 2 ^ 32 = 2 ^ 32 * (r1 / 2 ^ 32 + r1' / 2 ^ 32) + r1' % 2 ^ 32 := by
    omega
  have column2 : p02 + p11 + p20 + (r1 / 2 ^ 32 + r1' / 2 ^ 32) =
      2 ^ 32 * (r2 / 2 ^ 32 + r2' / 2 ^ 32 + r2'' / 2 ^ 32) + r2'' % 2 ^ 32 := by
    omega
  have column3 : p03 + p12 + p21 + p30 + (r2 / 2 ^ 32 + r2' / 2 ^ 32 + r2'' / 2 ^ 32) =
      2 ^ 32 * (r3 / 2 ^ 32 + r3' / 2 ^ 32 + r3'' / 2 ^ 32 + r3''' / 2 ^ 32) + r3''' % 2 ^ 32 := by
    omega
  have small (r : Nat) : r % 2 ^ 32 < 2 ^ 32 := Nat.mod_lt _ (Nat.two_pow_pos 32)
  exact digits_of_columns column0 column1 column2 column3 (small _) (small _) (small _) (small _)
theorem value_mul (c1 c2 : Cent) : (mul c1 c2).value = c1.value * c2.value % 2 ^ 128 := by
  unfold mul
  extract_lets c2l0 c2l1 c2h0 c2h1 c1l0 r0 r1 r2 r3 c1l1 r1' r2' r3' c1h0 r2'' r3'' c1h1 r3'''
  have b0 : c2l0.toNat < 2 ^ 32 := and_mulmask_lt _
  have b1 : c2l1.toNat < 2 ^ 32 := shift_mulshift_lt _
  have b2 : c2h0.toNat < 2 ^ 32 := and_mulmask_lt _
  have b3 : c2h1.toNat < 2 ^ 32 := shift_mulshift_lt _
  have a0 : c1l0.toNat < 2 ^ 32 := and_mulmask_lt _
  have a1 : c1l1.toNat < 2 ^ 32 := shift_mulshift_lt _
  have a2 : c1h0.toNat < 2 ^ 32 := and_mulmask_lt _
  have a3 : c1h1.toNat < 2 ^ 32 := shift_mulshift_lt _
  have carry (x : BitVec 64) : (x >>> mulshift).toNat ≤ 2 * (2 ^ 32 - 1) := by
    have small := shift_mulshift_lt x
    omega
  have kept (x : BitVec 64) : (x &&& mulmask).toNat ≤ 2 * (2 ^ 32 - 1) := by
    have small := and_mulmask_lt x
    omega
  have e0 : r0.toNat = c1l0.toNat * c2l0.toNat := by
    have plain := @toNat_mul_add c1l0 c2l0 0#64 a0 b0 (Nat.zero_le _)
    rwa [BitVec.add_zero] at plain
  have e1 : r1.toNat = c1l0.toNat * c2l1.toNat + r0.toNat / 2 ^ 32 :=
    (toNat_mul_add a0 b1 (carry r0)).trans (by rw [toNat_shift_mulshift r0])
  have e2 : r2.toNat = c1l0.toNat * c2h0.toNat + r1.toNat / 2 ^ 32 :=
    (toNat_mul_add a0 b2 (carry r1)).trans (by rw [toNat_shift_mulshift r1])
  have e3 : r3.toNat = c1l0.toNat * c2h1.toNat + r2.toNat / 2 ^ 32 :=
    (toNat_mul_add a0 b3 (carry r2)).trans (by rw [toNat_shift_mulshift r2])
  have f1 : r1'.toNat = c1l1.toNat * c2l0.toNat + r1.toNat % 2 ^ 32 :=
    (toNat_mul_add a1 b0 (kept r1)).trans (by rw [toNat_and_mulmask r1])
  have f2 : r2'.toNat = c1l1.toNat * c2l1.toNat + r2.toNat % 2 ^ 32 + r1'.toNat / 2 ^ 32 :=
    (toNat_mul_add_add a1 b1 (and_mulmask_lt r2) (shift_mulshift_lt r1')).trans
      (by rw [toNat_and_mulmask r2, toNat_shift_mulshift r1'])
  have f3 : r3'.toNat = c1l1.toNat * c2h0.toNat + r3.toNat % 2 ^ 32 + r2'.toNat / 2 ^ 32 :=
    (toNat_mul_add_add a1 b2 (and_mulmask_lt r3) (shift_mulshift_lt r2')).trans
      (by rw [toNat_and_mulmask r3, toNat_shift_mulshift r2'])
  have g2 : r2''.toNat = c1h0.toNat * c2l0.toNat + r2'.toNat % 2 ^ 32 :=
    (toNat_mul_add a2 b0 (kept r2')).trans (by rw [toNat_and_mulmask r2'])
  have g3 : r3''.toNat = c1h0.toNat * c2l1.toNat + r3'.toNat % 2 ^ 32 + r2''.toNat / 2 ^ 32 :=
    (toNat_mul_add_add a2 b1 (and_mulmask_lt r3') (shift_mulshift_lt r2'')).trans
      (by rw [toNat_and_mulmask r3', toNat_shift_mulshift r2''])
  have h3 : r3'''.toNat = c1h1.toNat * c2l0.toNat + r3''.toNat % 2 ^ 32 :=
    (toNat_mul_add a3 b0 (kept r3'')).trans (by rw [toNat_and_mulmask r3''])
  have first : c1.value = (c1h1.toNat * 2 ^ 32 + c1h0.toNat) * (2 ^ 32 * 2 ^ 32) +
      (c1l1.toNat * 2 ^ 32 + c1l0.toNat) := by
    rw [Cent.value, toNat_shift_mulshift, toNat_and_mulmask, toNat_shift_mulshift,
      toNat_and_mulmask]
    omega
  have second : c2.value = (c2h1.toNat * 2 ^ 32 + c2h0.toNat) * (2 ^ 32 * 2 ^ 32) +
      (c2l1.toNat * 2 ^ 32 + c2l0.toNat) := by
    rw [Cent.value, toNat_shift_mulshift, toNat_and_mulmask, toNat_shift_mulshift,
      toNat_and_mulmask]
    omega
  rw [first, second, columns, Cent.value]
  dsimp only
  rw [toNat_words, toNat_words]
  exact carried_columns e0 e1 e2 e3 f1 f2 f3 g2 g3 h3

end LaserD.Int128
