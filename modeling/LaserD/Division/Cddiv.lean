/-
This file models the code `cddiv` emits for a division by a constant and proves
when the code divides.

The registers of the unsigned sequence are numbers below `2 ^ N`, those of the
signed sequence are the balanced representatives of the same residues; every
instruction reduces its result. A shift instruction takes its count modulo the
operand width.

The unsigned sequence divides exactly for the divisors below `2 ^ (N - 1)`. At
a longer divisor the shift counts of `choose_multiplier` leave the word and the
code returns zero for every dividend. A signed divisor is never that long, and
the signed sequence divides for all of them.
-/

import LaserD.Division.Coefficients

namespace LaserD.Division

open InvariantDivision

/-! ### The unsigned sequence -/

/-- The high word of an unsigned product. -/
def muluh (N left right : Nat) : Nat := left * right / 2 ^ N

/-- A logical right shift of a register. -/
def shr (N register count : Nat) : Nat := register / 2 ^ (count % N)

/-- The sequence `cddiv` emits for `n / d` from the coefficients of `d`. -/
def udivSequence (N n : Nat) (coefficients : UdivCoefficients) : Nat :=
  if coefficients.mhighbit then
    let t1 := muluh N coefficients.m n
    let eax := shr N ((n + 2 ^ N - t1) % 2 ^ N) 1
    let r3 := (eax + t1) % 2 ^ N
    if coefficients.shpost = 1 then r3 else shr N r3 (coefficients.shpost - 1)
  else
    let eax := if coefficients.shpre = 0 then n else shr N n coefficients.shpre
    let edx := muluh N coefficients.m eax
    if coefficients.shpost = 0 then edx else shr N edx coefficients.shpost

/-- The unsigned quotient the emitted code computes. A failed assertion is `none`. -/
def cddivUnsigned (N d n : Nat) : Option Nat := do
  let coefficients ← udivCoefficients N d
  if coefficients.mhighbit ∧ coefficients.shpre ≠ 0 then none
  else some (udivSequence N n coefficients)

example : cddivUnsigned 32 7 4294967295 = some 613566756 := by decide +kernel

section

variable {N d n : Nat}

/-- The sequence with the bit above the word divides. -/
theorem udivSequence_high {m shpost : Nat} (wide : 2 ≤ N) (divisor : 2 ≤ d) (word : m < 2 ^ N)
    (accurate : Accurate N N d (m + 2 ^ N) shpost) (inside : shpost < N) (small : n < 2 ^ N) :
    udivSequence N n { mhighbit := true, shpre := 0, m := m, shpost := shpost } = n / d := by
  have unit : 0 < 2 ^ N := by positivity
  have shifted : shpost ≠ 0 := by
    rintro rfl
    have below := accurate.below
    rw [Nat.add_zero, Nat.sub_self, pow_zero] at below
    have grows : 2 ^ N * 2 ≤ (m + 2 ^ N) * d := Nat.mul_le_mul (Nat.le_add_left _ _) divisor
    have power : 2 ^ 2 ≤ 2 ^ N := Nat.pow_le_pow_right (by decide) wide
    omega
  have high : m * n / 2 ^ N ≤ n := by
    calc m * n / 2 ^ N ≤ 2 ^ N * n / 2 ^ N :=
          Nat.div_le_div_right (Nat.mul_le_mul_right _ word.le)
      _ = n := Nat.mul_div_cancel_left _ unit
  have quotient := accurate.mul_div_eq le_rfl (by omega) small
  rw [pow_add, ← Nat.div_div_eq_div_mul, Nat.add_mul, Nat.add_mul_div_left _ _ unit] at quotient
  unfold udivSequence shr muluh
  simp only [if_true]
  have one : 1 % N = 1 := Nat.mod_eq_of_lt (by omega)
  have difference : (n + 2 ^ N - m * n / 2 ^ N) % 2 ^ N = n - m * n / 2 ^ N := by
    rw [Nat.sub_add_comm high, Nat.add_mod_right]
    exact Nat.mod_eq_of_lt (lt_of_le_of_lt (Nat.sub_le _ _) small)
  rw [one, difference, pow_one]
  generalize m * n / 2 ^ N = t1 at high quotient ⊢
  have average : ((n - t1) / 2 + t1) % 2 ^ N = (t1 + n) / 2 := by
    rw [Nat.mod_eq_of_lt (by omega)]
    omega
  rw [average, ← quotient]
  obtain ⟨rest, rfl⟩ := Nat.exists_eq_succ_of_ne_zero shifted
  rw [Nat.succ_eq_add_one, Nat.add_sub_cancel, Nat.mod_eq_of_lt (by omega : rest < N)]
  by_cases last : rest + 1 = 1
  · rw [if_pos last, last, pow_one]
  · rw [if_neg last, Nat.div_div_eq_div_mul, pow_succ, Nat.mul_comm]

/-- The sequence with a pre-shift divides by the shifted divisor. -/
theorem udivSequence_low {prec shpre m shpost : Nat} (divisor : 0 < d) (preShift : shpre < N)
    (precision : prec + shpre = N) (accurate : Accurate N prec d m shpost) (inside : shpost < N)
    (small : n < 2 ^ N) :
    udivSequence N n { mhighbit := false, shpre := shpre, m := m, shpost := shpost } =
      n / (d * 2 ^ shpre) := by
  have reduced : n / 2 ^ shpre < 2 ^ prec := by
    rw [Nat.div_lt_iff_lt_mul (by positivity), ← pow_add, precision]
    exact small
  have quotient := accurate.mul_div_eq (by omega) divisor reduced
  rw [pow_add, ← Nat.div_div_eq_div_mul] at quotient
  have pre : (if shpre = 0 then n else shr N n shpre) = n / 2 ^ shpre := by
    by_cases none : shpre = 0
    · rw [if_pos none, none, pow_zero, Nat.div_one]
    · rw [if_neg none, shr, Nat.mod_eq_of_lt preShift]
  have post (edx : Nat) : (if shpost = 0 then edx else shr N edx shpost) = edx / 2 ^ shpost := by
    by_cases none : shpost = 0
    · rw [if_pos none, none, pow_zero, Nat.div_one]
    · rw [if_neg none, shr, Nat.mod_eq_of_lt inside]
  show (if shpost = 0 then muluh N m (if shpre = 0 then n else shr N n shpre)
    else shr N (muluh N m (if shpre = 0 then n else shr N n shpre)) shpost) = _
  rw [post, pre, muluh, quotient, Nat.div_div_eq_div_mul, Nat.mul_comm]

/-- Stripping the zeros of a nonzero word splits off its largest power of two. -/
theorem stripZeros_spec (rounds e : Nat) (nonzero : d ≠ 0) (fits : d < 2 ^ rounds) :
    ∃ strip, stripZeros rounds d e = (d / 2 ^ strip, e + strip) ∧
      d = d / 2 ^ strip * 2 ^ strip ∧ (d / 2 ^ strip) % 2 = 1 := by
  induction rounds generalizing d e with
  | zero =>
    rw [pow_zero] at fits
    exact absurd (Nat.lt_one_iff.mp fits) nonzero
  | succ rounds inductionHypothesis =>
    rw [stripZeros]
    by_cases even : d % 2 = 0
    · rw [if_pos even]
      obtain ⟨strip, result, split, odd⟩ :=
        inductionHypothesis (d := d / 2) (e + 1) (by omega) (by rw [pow_succ] at fits; omega)
      have quotient : d / 2 / 2 ^ strip = d / 2 ^ (strip + 1) := by
        rw [Nat.div_div_eq_div_mul, pow_succ, Nat.mul_comm]
      rw [quotient] at result split odd
      refine ⟨strip + 1, ?_, ?_, odd⟩
      · rw [result]
        congr 1
        omega
      · calc d = d / 2 * 2 := by omega
          _ = d / 2 ^ (strip + 1) * 2 ^ strip * 2 := by rw [← split]
          _ = d / 2 ^ (strip + 1) * 2 ^ (strip + 1) := by rw [Nat.mul_assoc, ← pow_succ]
    · rw [if_neg even]
      refine ⟨0, ?_, ?_, ?_⟩ <;> rw [pow_zero, Nat.div_one]
      · rw [Nat.add_zero]
      · rw [Nat.mul_one]
      · omega

/-- The odd part of a number that is no power of two is no power of two. -/
theorem notPower_of_mul {odd strip : Nat} (notPower : d &&& (d - 1) ≠ 0)
    (split : d = odd * 2 ^ strip) : odd &&& (odd - 1) ≠ 0 := by
  intro power
  have nonzero : d ≠ 0 := by
    rintro rfl
    exact notPower rfl
  have oddNonzero : odd ≠ 0 := by
    rintro rfl
    exact nonzero (by rw [split, Nat.zero_mul])
  obtain ⟨exponent, equal⟩ := (Nat.and_sub_one_eq_zero_iff_isPowerOfTwo oddNonzero).mp power
  refine notPower ((Nat.and_sub_one_eq_zero_iff_isPowerOfTwo nonzero).mpr ⟨exponent + strip, ?_⟩)
  rw [split, equal, pow_add]

/-- The coefficients of a division by a short divisor: either a multiplier with the bit above
the word, or a word multiplier of the divisor with its pre-shift split off. -/
inductive Usable (N d : Nat) (coefficients : UdivCoefficients) : Prop
  | high (mhighbit : coefficients.mhighbit = true) (shpre : coefficients.shpre = 0)
      (word : coefficients.m < 2 ^ N)
      (accurate : Accurate N N d (coefficients.m + 2 ^ N) coefficients.shpost)
      (inside : coefficients.shpost < N)
  | low (rest prec : Nat) (mhighbit : coefficients.mhighbit = false)
      (split : d = rest * 2 ^ coefficients.shpre) (preShift : coefficients.shpre < N)
      (precision : prec + coefficients.shpre = N)
      (accurate : Accurate N prec rest coefficients.m coefficients.shpost)
      (inside : coefficients.shpost < N)

/-- The first multiplier is usable as it stands. -/
theorem Chosen.usable {first : Multiplier} (chosen : Chosen N N d first) (wide : 0 < N)
    (inside : first.shpost < N) :
    Usable N d { mhighbit := first.mhighbit, shpre := 0, m := first.m, shpost := first.shpost } := by
  have accurate := chosen.accurate
  cases highbit : first.mhighbit with
  | true =>
    rw [highbit, Bool.toNat_true, Nat.one_mul] at accurate
    exact .high rfl rfl chosen.word accurate inside
  | false =>
    rw [highbit, Bool.toNat_false, Nat.zero_mul, Nat.add_zero] at accurate
    exact .low d N rfl (by rw [pow_zero, Nat.mul_one]) wide rfl accurate inside

/-- A short divisor has usable coefficients, and no assertion of their search fails. -/
theorem udivCoefficients_usable (width : N = 32 ∨ N = 64) (notPower : d &&& (d - 1) ≠ 0)
    (short : d < 2 ^ (N - 1)) :
    ∃ coefficients, udivCoefficients N d = some coefficients ∧ Usable N d coefficients := by
  have nonzero : d ≠ 0 := by
    rintro rfl
    exact notPower rfl
  have word : d < 2 ^ N := lt_trans short (Nat.pow_lt_pow_right (by decide) (by omega))
  obtain ⟨first, chosen, spec⟩ := chooseMultiplier_chosen width notPower le_rfl word short
  have inside : first.shpost < N :=
    lt_of_le_of_lt (spec.shpost_le.trans (Nat.size_le.mpr short)) (by omega)
  unfold udivCoefficients
  rw [chosen, Option.bind_eq_bind, Option.bind_some]
  by_cases again : (first.mhighbit && d % 2 == 0) = true
  · obtain ⟨strip, stripped, split, odd⟩ := stripZeros_spec 64 0 nonzero
      (lt_of_lt_of_le word (Nat.pow_le_pow_right (by decide) (by omega)))
    have even : d % 2 = 0 := by simpa using (Bool.and_eq_true_iff.mp again).2
    rw [if_pos again, stripped, Nat.zero_add]
    generalize d / 2 ^ strip = rest at split odd ⊢
    have positive : strip ≠ 0 := by
      rintro rfl
      rw [pow_zero, Nat.mul_one] at split
      omega
    have stripLt : strip < N - 1 := by
      refine (Nat.pow_lt_pow_iff_right (by decide : 1 < 2)).mp (lt_of_le_of_lt ?_ short)
      rw [split]
      exact Nat.le_mul_of_pos_left _ (by omega)
    have restShort : rest < 2 ^ (N - strip) := by
      refine Nat.lt_of_mul_lt_mul_right (a := 2 ^ strip) ?_
      rw [← split, ← pow_add, Nat.sub_add_cancel (by omega)]
      exact word
    have restBounded : rest < 2 ^ (N - 1) :=
      lt_of_lt_of_le restShort (Nat.pow_le_pow_right (by decide) (by omega))
    obtain ⟨second, chosenAgain, specAgain⟩ := chooseMultiplier_chosen width
      (notPower_of_mul notPower split) (Nat.sub_le N strip) restShort restBounded
    have fits := specAgain.fits (by omega)
    have accurate := specAgain.accurate
    rw [fits, Bool.toNat_false, Nat.zero_mul, Nat.add_zero] at accurate
    have insideAgain : second.shpost < N :=
      lt_of_le_of_lt (specAgain.shpost_le.trans (Nat.size_le.mpr restBounded)) (by omega)
    dsimp only
    rw [chosenAgain, Option.bind_some, fits]
    exact ⟨_, rfl, .low rest (N - strip) rfl split (by dsimp only; omega) (by dsimp only; omega)
      accurate insideAgain⟩
  · rw [if_neg again]
    exact ⟨_, rfl, spec.usable (by omega) inside⟩

/-- The unsigned sequence divides by every divisor shorter than the word. -/
theorem cddivUnsigned_of_short (width : N = 32 ∨ N = 64) (notPower : d &&& (d - 1) ≠ 0)
    (short : d < 2 ^ (N - 1)) (small : n < 2 ^ N) : cddivUnsigned N d n = some (n / d) := by
  obtain ⟨_, lower, _⟩ := size_bounds notPower
  have divisor : 2 ≤ d := Nat.succ_le_of_lt (lt_of_le_of_lt Nat.one_le_two_pow lower)
  obtain ⟨⟨mhighbit, shpre, m, shpost⟩, found, usable⟩ :=
    udivCoefficients_usable width notPower short
  unfold cddivUnsigned
  rw [found, Option.bind_eq_bind, Option.bind_some]
  cases usable with
  | high highbit pre word accurate inside =>
    dsimp only at highbit pre word accurate inside
    rw [highbit, pre, if_neg (by simp), udivSequence_high (by omega) divisor word accurate inside
      small]
  | low rest prec highbit split preShift precision accurate inside =>
    dsimp only at highbit split preShift precision accurate inside
    have positive : 0 < rest := by
      rcases Nat.eq_zero_or_pos rest with rfl | positive
      · rw [Nat.zero_mul] at split
        omega
      · exact positive
    rw [highbit, if_neg (by simp), udivSequence_low positive preShift precision accurate inside
      small, ← split]

/-! ### Divisors of full length -/

/-- At a divisor of full length the shift counts of the 32-bit search reach the word width,
and both quotients degenerate. -/
theorem chooseMultiplier_full32 (notPower : d &&& (d - 1) ≠ 0) (long : 2 ^ 31 ≤ d)
    (word : d < 2 ^ 32) :
    chooseMultiplier 32 d 32 = some { mhighbit := false, m := 1, shpost := 32 } := by
  obtain ⟨_, lower, _⟩ := size_bounds notPower
  have size : d.size = 32 :=
    le_antisymm (Nat.size_le.mpr word) (Nat.lt_size.mpr long)
  rw [size] at lower
  have low : shl64 1 (32 + 32) / d = 0 := Nat.div_eq_of_lt (by rw [show shl64 1 64 = 1 from rfl]; omega)
  have high : (shl64 1 (32 + 32) + shl64 1 (32 + 32 - 32)) % 2 ^ 64 / d = 1 := by
    rw [show (shl64 1 (32 + 32) + shl64 1 (32 + 32 - 32)) % 2 ^ 64 = 4294967297 from rfl]
    exact Nat.div_eq_of_lt_le (by omega) (by omega)
  unfold chooseMultiplier
  rw [if_pos ⟨Or.inl rfl, le_rfl, by omega, notPower⟩,
    significantBits_eq 64 d 0 (by omega), Nat.zero_add, size]
  dsimp only
  rw [if_pos rfl]
  unfold chooseMultiplier32
  rw [low, high]
  rfl

/-- The 64-bit search degenerates alike: both dividends are `2 ^ 64`. -/
theorem chooseMultiplier_full64 (notPower : d &&& (d - 1) ≠ 0) (long : 2 ^ 63 ≤ d)
    (word : d < 2 ^ 64) :
    chooseMultiplier 64 d 64 = some { mhighbit := false, m := 1, shpost := 64 } := by
  obtain ⟨_, lower, _⟩ := size_bounds notPower
  have size : d.size = 64 :=
    le_antisymm (Nat.size_le.mpr word) (Nat.lt_size.mpr long)
  rw [size] at lower
  have dividendValid : ({ high := 1, low := 0 } : Wide).Valid := ⟨by decide, Nat.two_pow_pos 64⟩
  have divisorValid : ({ high := 0, low := d } : Wide).Valid := ⟨Nat.two_pow_pos 64, word⟩
  have divisorValue : ({ high := 0, low := d } : Wide).value = d := by
    show 0 * 2 ^ 64 + d = d
    omega
  have quotient := u128Div_value dividendValid divisorValid (by rw [divisorValue]; omega)
  have valid := u128Div_valid dividendValid divisorValid (by rw [divisorValue]; omega)
  rw [divisorValue, show ({ high := 1, low := 0 } : Wide).value = 2 ^ 64 from rfl] at quotient
  have one : (2 ^ 64 - 1) / d = 1 := Nat.div_eq_of_lt_le (by omega) (by omega)
  rw [one] at quotient
  have result : u128Div { high := 1, low := 0 } { high := 0, low := d } =
      { high := 0, low := 1 } := by
    generalize u128Div { high := 1, low := 0 } { high := 0, low := d } = wide at quotient valid ⊢
    obtain ⟨high, low⟩ := wide
    have lowLt := valid.low_lt
    unfold Wide.value at quotient
    dsimp only at quotient lowLt
    rw [Wide.mk.injEq]
    omega
  unfold chooseMultiplier
  rw [if_pos ⟨Or.inr rfl, le_rfl, by omega, notPower⟩,
    significantBits_eq 64 d 0 word, Nat.zero_add, size]
  dsimp only
  rw [if_neg (by decide)]
  unfold chooseMultiplier64
  rw [show upperDividend64 64 64 = { high := 1, low := 0 } by decide,
    show shl64 1 64 = 1 from rfl, result]
  rfl

/-- At a divisor of full length the emitted code returns zero for every dividend. -/
theorem cddivUnsigned_of_long (width : N = 32 ∨ N = 64) (notPower : d &&& (d - 1) ≠ 0)
    (long : 2 ^ (N - 1) ≤ d) (word : d < 2 ^ N) (small : n < 2 ^ N) :
    cddivUnsigned N d n = some 0 := by
  have chosen : chooseMultiplier N d N = some { mhighbit := false, m := 1, shpost := N } := by
    rcases width with rfl | rfl
    · exact chooseMultiplier_full32 notPower long word
    · exact chooseMultiplier_full64 notPower long word
  have found : udivCoefficients N d =
      some { mhighbit := false, shpre := 0, m := 1, shpost := N } := by
    unfold udivCoefficients
    rw [chosen]
    rfl
  have none : muluh N 1 n = 0 := by
    rw [muluh, Nat.one_mul]
    exact Nat.div_eq_of_lt small
  unfold cddivUnsigned
  rw [found, Option.bind_eq_bind, Option.bind_some, if_neg (by simp)]
  show some (if N = 0 then muluh N 1 n else shr N (muluh N 1 n) N) = some 0
  rw [none, if_neg (by omega), shr, Nat.zero_div]

/-- The code emitted for an unsigned division by a constant computes the quotient of every
dividend, with no assertion failing, exactly when the divisor is shorter than the word. -/
theorem cddivUnsigned_iff (N d : Nat) (width : N = 32 ∨ N = 64) (notPower : d &&& (d - 1) ≠ 0)
    (above : 2 < d) (word : d < 2 ^ N) :
    (∀ n, n < 2 ^ N → cddivUnsigned N d n = some (n / d)) ↔ d < 2 ^ (N - 1) := by
  constructor
  · intro divides
    by_contra long
    have exact := divides d word
    rw [cddivUnsigned_of_long width notPower (not_lt.mp long) word word,
      Nat.div_self (by omega)] at exact
    exact absurd exact (by decide)
  · intro short n small
    exact cddivUnsigned_of_short width notPower short small

end

theorem cddivUnsigned_iff_seven :
    (∀ n, n < 2 ^ 32 → cddivUnsigned 32 7 n = some (n / 7)) ↔ 7 < 2 ^ (32 - 1) :=
  cddivUnsigned_iff 32 7 (Or.inl rfl) (by decide) (by decide) (by decide)

theorem cddivUnsigned_three_billion :
    3000000000 &&& (3000000000 - 1) ≠ 0 ∧ 3000000000 < 2 ^ 32 ∧
      cddivUnsigned 32 3000000000 3000000000 ≠ some (3000000000 / 3000000000) := by
  decide +kernel

/-! ### The signed sequence -/

/-- The operators `cddiv` handles. -/
inductive Oper
  | opDiv
  | opMod
  | opRemquo
  deriving Repr, DecidableEq

/-- A register holds the balanced representative of a residue. -/
def wrap (N : Nat) (value : Int) : Int := value.bmod (2 ^ N)

/-- The high word of a signed product. -/
def mulsh (N : Nat) (left right : Int) : Int := left * right / 2 ^ N

/-- An arithmetic right shift of a register. -/
def sar (N : Nat) (register : Int) (count : Nat) : Int := register / 2 ^ (count % N)

/-- The registers that hold the result of the sequence `cddiv` emits for a signed operation
on `n` and a constant `c`: quotient or remainder, or both for `opRemquo`. A failed assertion
is `none`. -/
def cddivSigned (N : Nat) (oper : Oper) (c n : Int) : Option (List Int) := do
  let neg := decide (c < 0)
  let d := c.natAbs
  let multiplier ← chooseMultiplier N d (N - 1)
  let mgt := multiplier.mhighbit || decide (2 ^ (N - 1) ≤ multiplier.m)
  let edx := mulsh N (wrap N multiplier.m) n
  let edx := if mgt then wrap N (edx + n) else edx
  let eax := sar N n (N - 1)
  let edx := if multiplier.shpost = 0 then edx else sar N edx multiplier.shpost
  let r3 := if neg && oper == .opDiv then wrap N (eax - edx) else wrap N (edx - eax)
  match oper with
  | .opDiv => some [r3]
  | .opMod => some [wrap N (n - wrap N (r3 * d))]
  | .opRemquo => some [if neg then wrap N (-r3) else r3, wrap N (n - wrap N (r3 * d))]

section

variable {N : Nat}

theorem wrap_eq {value : Int} (positive : 0 < N) (lower : -2 ^ (N - 1) ≤ value)
    (upper : value < 2 ^ (N - 1)) : wrap N value = value := by
  obtain ⟨rest, rfl⟩ := Nat.exists_eq_succ_of_ne_zero (Nat.pos_iff_ne_zero.mp positive)
  rw [Nat.succ_eq_add_one, Nat.add_sub_cancel] at lower upper
  refine Int.bmod_eq_of_le_mul_two ?_ ?_ <;> push_cast <;> rw [pow_succ] <;> linarith

/-- The corrected high product is the high word of the product with the unsigned
multiplier. -/
theorem corrected_mulsh {m : Nat} {n : Int} (positive : 0 < N) (word : m < 2 ^ N)
    (lower : -2 ^ (N - 1) ≤ n) (upper : n < 2 ^ (N - 1)) :
    (if decide (2 ^ (N - 1) ≤ m) then wrap N (mulsh N (wrap N m) n + n)
      else mulsh N (wrap N m) n) = m * n / 2 ^ N := by
  have unit : (0 : Int) < 2 ^ N := by positivity
  have half : (2 : Int) ^ N = 2 * 2 ^ (N - 1) := by
    rw [← pow_succ', Nat.sub_add_cancel positive]
  have wordInt : (m : Int) < 2 ^ N := by exact_mod_cast word
  have nonneg : (0 : Int) ≤ m := Int.natCast_nonneg m
  by_cases large : 2 ^ (N - 1) ≤ m
  · have largeInt : (2 : Int) ^ (N - 1) ≤ m := by exact_mod_cast large
    have negative : wrap N m = m - 2 ^ N := by
      have shifted : wrap N m = wrap N (m - 2 ^ N) := by
        unfold wrap
        rw [show ((m : Int) - 2 ^ N) = m - ((2 ^ N : Nat) : Int) by push_cast; rfl,
          Int.sub_bmod_right]
      rw [shifted]
      exact wrap_eq positive (by linarith) (by linarith)
    have product : mulsh N (m - 2 ^ N) n + n = m * n / 2 ^ N := by
      unfold mulsh
      rw [show ((m : Int) - 2 ^ N) * n = m * n + 2 ^ N * (-n) by ring,
        Int.add_mul_ediv_left _ _ unit.ne']
      ring
    rw [if_pos (decide_eq_true large), negative, product]
    refine wrap_eq positive ?_ ?_
    · rw [Int.le_ediv_iff_mul_le unit]
      nlinarith
    · rw [Int.ediv_lt_iff_lt_mul unit]
      nlinarith
  · have smallInt : (m : Int) < 2 ^ (N - 1) := by exact_mod_cast not_le.mp large
    rw [if_neg (by simpa using large), wrap_eq positive (by linarith) smallInt]
    rfl

/-- The shifted product, less the sign mask, is the truncated quotient by a positive
divisor. -/
theorem shifted_product_tdiv {d m shpost : Nat} {n : Int} (wide : 1 < N) (positive : 0 < d)
    (accurate : Accurate N (N - 1) d m shpost) (lower : -2 ^ (N - 1) ≤ n)
    (upper : n < 2 ^ (N - 1)) :
    m * n / 2 ^ N / 2 ^ shpost - sar N n (N - 1) = n.tdiv d := by
  have unit : (0 : Int) < 2 ^ (N - 1) := by positivity
  have count : (N - 1) % N = N - 1 := Nat.mod_eq_of_lt (by omega)
  rw [Int.ediv_ediv_of_nonneg (by positivity), ← pow_add, sar, count]
  rcases Int.eq_nat_or_neg n with ⟨k, rfl | rfl⟩
  · have small : k < 2 ^ (N - 1) := by exact_mod_cast upper
    have quotient := accurate.mul_div_eq (Nat.sub_le N 1) positive small
    rw [Int.ediv_eq_zero_of_lt (Int.natCast_nonneg k) upper, sub_zero,
      Int.natCast_tdiv_eq_ediv]
    exact_mod_cast quotient
  · rcases Nat.eq_zero_or_pos k with rfl | nonzero
    · simp
    · have small : k ≤ 2 ^ (N - 1) := by
        have : (k : Int) ≤ 2 ^ (N - 1) := by linarith
        exact_mod_cast this
      have quotient := accurate.neg_mul_div_eq (Nat.sub_le N 1) positive nonzero small
      have mask : (-(k : Int)) / 2 ^ (N - 1) = -1 := by
        refine (Int.ediv_eq_iff_of_pos unit).mpr ⟨by linarith, ?_⟩
        have : (0 : Int) < k := by exact_mod_cast nonzero
        linarith
      rw [mask, show (m : Int) * -(k : Int) = -((m * k : Nat) : Int) by push_cast; ring, quotient,
        Int.neg_tdiv]
      push_cast
      rw [Int.natCast_tdiv_eq_ediv]
      ring

/-- The quotient and the remainder by a divisor of at least two stay in the register. -/
theorem tdiv_bounds {d : Nat} {n : Int} (divisor : 2 ≤ d) (lower : -2 ^ (N - 1) ≤ n)
    (upper : n < 2 ^ (N - 1)) :
    -2 ^ (N - 1) < n.tdiv d ∧ n.tdiv d < 2 ^ (N - 1) := by
  have magnitude : (n.tdiv d).natAbs * 2 ≤ n.natAbs := by
    rw [Int.natAbs_tdiv]
    calc n.natAbs / (d : Int).natAbs * 2 ≤ n.natAbs / d * d := Nat.mul_le_mul_left _ divisor
      _ ≤ n.natAbs := Nat.div_mul_le_self _ _
  have unit : (0 : Int) < 2 ^ (N - 1) := by positivity
  omega

/-- The registers after the emitted instructions, in terms of the truncated quotient by the
magnitude of the divisor. -/
theorem cddivSigned_registers (oper : Oper) {c n : Int} (width : N = 32 ∨ N = 64)
    (notPower : c.natAbs &&& (c.natAbs - 1) ≠ 0) (short : c.natAbs < 2 ^ (N - 1))
    (lower : -2 ^ (N - 1) ≤ n) (upper : n < 2 ^ (N - 1)) :
    cddivSigned N oper c n =
      match oper with
      | .opDiv => some [if c < 0 then -n.tdiv c.natAbs else n.tdiv c.natAbs]
      | .opMod => some [n.tmod c.natAbs]
      | .opRemquo =>
          some [if c < 0 then -n.tdiv c.natAbs else n.tdiv c.natAbs, n.tmod c.natAbs] := by
  obtain ⟨_, sizeLower, _⟩ := size_bounds notPower
  have divisor : 2 ≤ c.natAbs := Nat.succ_le_of_lt (lt_of_le_of_lt Nat.one_le_two_pow sizeLower)
  obtain ⟨⟨mhighbit, m, shpost⟩, chosen, spec⟩ :=
    chooseMultiplier_chosen width notPower (Nat.sub_le N 1) short short
  obtain rfl : mhighbit = false := spec.fits (by omega)
  have accurate := spec.accurate
  have word := spec.word
  have shpostLe := spec.shpost_le.trans (Nat.size_le.mpr short)
  dsimp only at accurate word shpostLe
  rw [Bool.toNat_false, Nat.zero_mul, Nat.add_zero] at accurate
  have product := corrected_mulsh (by omega : 0 < N) word lower upper
  have shifted : (if shpost = 0 then (m : Int) * n / 2 ^ N else sar N (m * n / 2 ^ N) shpost) =
      m * n / 2 ^ N / 2 ^ shpost := by
    by_cases none : shpost = 0
    · rw [if_pos none, none, pow_zero, Int.ediv_one]
    · rw [if_neg none, sar, Nat.mod_eq_of_lt (by omega)]
  have quotient := shifted_product_tdiv (by omega) (by omega) accurate lower upper
  obtain ⟨quotientLower, quotientUpper⟩ := tdiv_bounds (N := N) divisor lower upper
  have direct : wrap N (m * n / 2 ^ N / 2 ^ shpost - sar N n (N - 1)) = n.tdiv c.natAbs := by
    rw [quotient]
    exact wrap_eq (by omega) quotientLower.le quotientUpper
  have reversed : wrap N (sar N n (N - 1) - m * n / 2 ^ N / 2 ^ shpost) = -n.tdiv c.natAbs := by
    rw [← neg_sub, quotient]
    exact wrap_eq (by omega) (by linarith) (by linarith)
  have negated : wrap N (-n.tdiv c.natAbs) = -n.tdiv c.natAbs :=
    wrap_eq (by omega) (by linarith) (by linarith)
  have remainder : wrap N (n - wrap N (n.tdiv c.natAbs * c.natAbs)) = n.tmod c.natAbs := by
    have reduced : wrap N (n - wrap N (n.tdiv c.natAbs * c.natAbs)) = wrap N (n.tmod c.natAbs) := by
      unfold wrap
      rw [Int.sub_bmod_bmod, Int.tmod_def, mul_comm]
    have magnitude : (n.tmod c.natAbs).natAbs < c.natAbs := by
      rw [Int.natAbs_tmod]
      exact Nat.mod_lt _ (by omega)
    have shortInt : (c.natAbs : Int) < 2 ^ (N - 1) := by exact_mod_cast short
    rw [reduced]
    exact wrap_eq (by omega) (by omega) (by omega)
  unfold cddivSigned
  simp only [chosen, Option.bind_eq_bind, Option.bind_some, Bool.false_or, product, shifted,
    direct, reversed]
  generalize c.natAbs = d at negated remainder ⊢
  cases oper with
  | opDiv => simp
  | opMod => simp [remainder]
  | opRemquo => simp [remainder, negated]

/-- The signed sequence computes truncated quotient and remainder for every dividend and every
divisor whose magnitude is neither zero nor a power of two. -/
theorem cddivSigned_eq (N : Nat) (c n : Int) (width : N = 32 ∨ N = 64)
    (cLower : -2 ^ (N - 1) ≤ c) (cUpper : c < 2 ^ (N - 1))
    (notPower : c.natAbs &&& (c.natAbs - 1) ≠ 0)
    (lower : -2 ^ (N - 1) ≤ n) (upper : n < 2 ^ (N - 1)) :
    cddivSigned N .opDiv c n = some [n.tdiv c] ∧ cddivSigned N .opMod c n = some [n.tmod c] ∧
      cddivSigned N .opRemquo c n = some [n.tdiv c, n.tmod c] := by
  have nonzero : c.natAbs ≠ 0 := by
    intro zero
    rw [zero] at notPower
    exact notPower rfl
  have short : c.natAbs < 2 ^ (N - 1) := by
    have magnitude : (c.natAbs : Int) ≤ 2 ^ (N - 1) := by omega
    refine lt_of_le_of_ne (by exact_mod_cast magnitude) fun power => notPower ?_
    exact (Nat.and_sub_one_eq_zero_iff_isPowerOfTwo nonzero).mpr ⟨_, power⟩
  have quotient : (if c < 0 then -n.tdiv c.natAbs else n.tdiv c.natAbs) = n.tdiv c := by
    by_cases negative : c < 0
    · rw [if_pos negative, ← Int.tdiv_neg, Int.ofNat_natAbs_of_nonpos negative.le, neg_neg]
    · rw [if_neg negative, Int.natAbs_of_nonneg (not_lt.mp negative)]
  have remainder : n.tmod c.natAbs = n.tmod c := by
    rcases Int.natAbs_eq c with same | same
    · rw [← same]
    · rw [← Int.tmod_neg, ← same]
  refine ⟨?_, ?_, ?_⟩ <;>
    rw [cddivSigned_registers _ width notPower short lower upper] <;>
    simp only [quotient, remainder]

end

theorem cddivSigned_eq_minus_seven :
    cddivSigned 32 .opDiv (-7) (-2147483648) = some [306783378] ∧
      cddivSigned 32 .opMod (-7) (-2147483648) = some [-2] ∧
      cddivSigned 32 .opRemquo (-7) (-2147483648) = some [306783378, -2] :=
  cddivSigned_eq 32 (-7) (-2147483648) (Or.inl rfl) (by decide) (by decide) (by decide)
    (by decide) (by decide)

end LaserD.Division
