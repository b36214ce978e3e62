/-
This file models the 128-bit helpers of `backend/divcoeff.d` on pairs of 64-bit
words, and proves what its shift-and-subtract division computes.

The division loop subtracts the shifted divisor only when it is strictly below
the remainder. The remainder it leaves therefore lies in `(0, y]` and not in
`[0, y)`, and the quotient of a dividend `x` is `(x - 1) / y`: one too small at
an exact multiple, exact everywhere else.
-/

import Mathlib.Tactic.Ring
import Mathlib.Tactic.Linarith
import Mathlib.Data.Nat.Size

namespace LaserD.Division

/-! ### Pairs of words -/

/-- A 128-bit number held as two 64-bit words. -/
structure Wide where
  high : Nat
  low : Nat
  deriving Repr, DecidableEq

/-- The number a pair of words holds. -/
def Wide.value (wide : Wide) : Nat := wide.high * 2 ^ 64 + wide.low

/-- Both words are 64-bit words. -/
structure Wide.Valid (wide : Wide) : Prop where
  high_lt : wide.high < 2 ^ 64
  low_lt : wide.low < 2 ^ 64

theorem Wide.Valid.value_lt {wide : Wide} (valid : wide.Valid) : wide.value < 2 ^ 128 := by
  have high := valid.high_lt
  have low := valid.low_lt
  unfold Wide.value
  omega

/-- The sign bit of a word. -/
def sign64 (word : Nat) : Bool := 2 ^ 63 ≤ word

/-- A left shift of a pair by one bit. -/
def shl128 (wide : Wide) : Wide where
  high := (wide.high * 2 % 2 ^ 64) ||| (sign64 wide.low).toNat
  low := wide.low * 2 % 2 ^ 64

/-- A right shift of a pair by one bit. -/
def shr128 (wide : Wide) : Wide where
  high := wide.high / 2
  low := (wide.low / 2) ||| (wide.high % 2 * 2 ^ 63)

/-- The strict order of two pairs. -/
def xltY128 (left right : Wide) : Bool :=
  left.high < right.high || (left.high == right.high && left.low < right.low)

/-- The difference of two pairs with the borrow taken by hand. -/
def sub128 (left right : Wide) : Wide :=
  if left.low < right.low then
    { high := (left.high + 2 ^ 64 - (right.high + 1)) % 2 ^ 64
      low := (left.low + 2 ^ 64 - right.low) % 2 ^ 64 }
  else
    { high := (left.high + 2 ^ 64 - right.high) % 2 ^ 64
      low := left.low - right.low }

theorem even_or_bit (half : Nat) (bit : Bool) :
    2 * half ||| bit.toNat = 2 * half + bit.toNat := by
  have small : bit.toNat < 2 ^ 1 := by cases bit <;> decide
  have joined := Nat.two_pow_add_eq_or_of_lt small half
  rw [Nat.pow_one] at joined
  exact joined.symm

theorem shl128_high (wide : Wide) :
    (shl128 wide).high = wide.high * 2 % 2 ^ 64 + (sign64 wide.low).toNat := by
  have even : wide.high * 2 % 2 ^ 64 = 2 * (wide.high % 2 ^ 63) := by omega
  show wide.high * 2 % 2 ^ 64 ||| (sign64 wide.low).toNat = _
  rw [even, even_or_bit]

theorem shl128_valid (wide : Wide) : (shl128 wide).Valid where
  high_lt := by
    rw [shl128_high]
    cases sign64 wide.low <;> simp only [Bool.toNat_true, Bool.toNat_false] <;> omega
  low_lt := Nat.mod_lt _ (by decide)

theorem shl128_value {wide : Wide} (valid : wide.Valid) (room : wide.value < 2 ^ 127) :
    (shl128 wide).value = 2 * wide.value := by
  have low := valid.low_lt
  unfold Wide.value at room ⊢
  rw [shl128_high]
  show (wide.high * 2 % 2 ^ 64 + (sign64 wide.low).toNat) * 2 ^ 64 + wide.low * 2 % 2 ^ 64 = _
  by_cases sign : 2 ^ 63 ≤ wide.low
  · have bit : (sign64 wide.low).toNat = 1 := by rw [sign64, decide_eq_true sign, Bool.toNat_true]
    rw [bit]
    omega
  · have bit : (sign64 wide.low).toNat = 0 := by rw [sign64, decide_eq_false sign, Bool.toNat_false]
    rw [bit]
    omega

theorem shr128_low {wide : Wide} (valid : wide.Valid) :
    (shr128 wide).low = wide.high % 2 * 2 ^ 63 + wide.low / 2 := by
  have low := valid.low_lt
  have half : wide.low / 2 < 2 ^ 63 := by omega
  have joined := Nat.two_pow_add_eq_or_of_lt half (wide.high % 2)
  show wide.low / 2 ||| wide.high % 2 * 2 ^ 63 = _
  rw [Nat.or_comm, Nat.mul_comm, ← joined]

theorem shr128_valid {wide : Wide} (valid : wide.Valid) : (shr128 wide).Valid where
  high_lt := by
    have high := valid.high_lt
    show wide.high / 2 < 2 ^ 64
    omega
  low_lt := by
    have low := valid.low_lt
    rw [shr128_low valid]
    omega

theorem shr128_value {wide : Wide} (valid : wide.Valid) :
    (shr128 wide).value = wide.value / 2 := by
  unfold Wide.value
  rw [shr128_low valid]
  show wide.high / 2 * 2 ^ 64 + _ = _
  omega

theorem xltY128_iff {left right : Wide} (leftValid : left.Valid) (rightValid : right.Valid) :
    xltY128 left right = true ↔ left.value < right.value := by
  have leftLow := leftValid.low_lt
  have rightLow := rightValid.low_lt
  unfold xltY128 Wide.value
  simp only [Bool.or_eq_true, Bool.and_eq_true, decide_eq_true_eq, beq_iff_eq]
  omega

theorem sub128_valid {left right : Wide} (valid : left.Valid) : (sub128 left right).Valid := by
  have low := valid.low_lt
  unfold sub128
  split
  · exact ⟨Nat.mod_lt _ (by decide), Nat.mod_lt _ (by decide)⟩
  · exact ⟨Nat.mod_lt _ (by decide), by dsimp only; omega⟩

theorem sub128_value {left right : Wide} (leftValid : left.Valid) (rightValid : right.Valid)
    (ordered : right.value ≤ left.value) :
    (sub128 left right).value = left.value - right.value := by
  have leftHigh := leftValid.high_lt
  have leftLow := leftValid.low_lt
  have rightHigh := rightValid.high_lt
  have rightLow := rightValid.low_lt
  unfold Wide.value at ordered ⊢
  unfold sub128
  split
  · dsimp only
    omega
  · dsimp only
    omega

/-! ### Left justification of the divisor -/

/-- The loop `while (!SIGN64(yh))`, with the count of the shifts made. A nonzero high word
is justified after at most 63 rounds. -/
def leftJustify : Nat → Wide → Nat → Wide × Nat
  | 0, y, shiftcount => (y, shiftcount)
  | rounds + 1, y, shiftcount =>
      if sign64 y.high then (y, shiftcount) else leftJustify rounds (shl128 y) (shiftcount + 1)

/-- Justification multiplies the divisor by a power of two, counts the power, and stops with
the sign bit set. -/
theorem leftJustify_spec (rounds : Nat) (y : Wide) (shiftcount : Nat) (valid : y.Valid)
    (enough : 2 ^ 127 ≤ y.value * 2 ^ rounds) :
    ∃ shift, (leftJustify rounds y shiftcount).2 = shiftcount + shift ∧
      (leftJustify rounds y shiftcount).1.Valid ∧
      (leftJustify rounds y shiftcount).1.value = y.value * 2 ^ shift ∧
      2 ^ 127 ≤ (leftJustify rounds y shiftcount).1.value := by
  induction rounds generalizing y shiftcount with
  | zero =>
    refine ⟨0, rfl, valid, ?_, ?_⟩
    · show y.value = y.value * 2 ^ 0
      rw [pow_zero, Nat.mul_one]
    · rw [pow_zero, Nat.mul_one] at enough
      exact enough
  | succ rounds inductionHypothesis =>
    rw [leftJustify]
    by_cases sign : sign64 y.high
    · rw [if_pos sign]
      refine ⟨0, rfl, valid, ?_, ?_⟩
      · show y.value = y.value * 2 ^ 0
        rw [pow_zero, Nat.mul_one]
      · have justified : 2 ^ 63 ≤ y.high := by simpa [sign64] using sign
        show 2 ^ 127 ≤ y.high * 2 ^ 64 + y.low
        omega
    · rw [if_neg sign]
      have unjustified : y.high < 2 ^ 63 := by simpa [sign64] using sign
      have room : y.value < 2 ^ 127 := by
        have low := valid.low_lt
        unfold Wide.value
        omega
      have doubled := shl128_value valid room
      have enoughNext : 2 ^ 127 ≤ (shl128 y).value * 2 ^ rounds := by
        rw [doubled]
        calc 2 ^ 127 ≤ y.value * 2 ^ (rounds + 1) := enough
          _ = 2 * y.value * 2 ^ rounds := by ring
      obtain ⟨shift, count, justifiedValid, scaled, justified⟩ :=
        inductionHypothesis (shl128 y) (shiftcount + 1) (shl128_valid _) enoughNext
      refine ⟨shift + 1, ?_, justifiedValid, ?_, justified⟩
      · rw [count]
        omega
      · rw [scaled, doubled]
        ring

/-! ### The division loop -/

/-- One round of the division loop on quotient, remainder and divisor. -/
def divideRound (state : Wide × Wide × Wide) : Wide × Wide × Wide :=
  let (q, x, y) := state
  let q := shl128 q
  if xltY128 y x then
    ({ q with low := q.low ||| 1 }, sub128 x y, shr128 y)
  else
    (q, x, shr128 y)

/-- The `do .. while (--shiftcount)` loop. -/
def divideLoop : Nat → Wide × Wide × Wide → Wide × Wide × Wide
  | 0, state => state
  | shiftcount + 1, state => divideLoop shiftcount (divideRound state)

/-- The quotient of two pairs. The divisor is nonzero. -/
def u128Div (x y : Wide) : Wide :=
  let start := if y.high = 0 then ({ high := y.low, low := 0 }, 1 + 64) else (y, 1)
  let (y, shiftcount) := leftJustify 64 start.1 start.2
  (divideLoop shiftcount ({ high := 0, low := 0 }, x, y)).1

/-- The state of the division loop with `count` rounds to go: the quotient so far accounts
for the dividend up to a remainder of at most `y * 2 ^ count`, and the remainder is zero only
at a zero dividend. -/
structure DivideInvariant (dividend divisor count : Nat) (state : Wide × Wide × Wide) : Prop where
  quotient_valid : state.1.Valid
  remainder_valid : state.2.1.Valid
  divisor_valid : state.2.2.Valid
  shifted : count ≠ 0 → state.2.2.value = divisor * 2 ^ (count - 1)
  split : dividend = state.1.value * (divisor * 2 ^ count) + state.2.1.value
  remainder_le : state.2.1.value ≤ divisor * 2 ^ count
  remainder_pos : 0 < dividend → 0 < state.2.1.value

theorem or_one_value {q : Wide} (valid : q.Valid) (room : q.value < 2 ^ 127) :
    ({ shl128 q with low := (shl128 q).low ||| 1 } : Wide).value = 2 * q.value + 1 := by
  have doubled := shl128_value valid room
  have even : (shl128 q).low = 2 * (q.low % 2 ^ 63) := by
    show q.low * 2 % 2 ^ 64 = _
    omega
  have bit : (shl128 q).low ||| 1 = (shl128 q).low + 1 := by
    rw [even]
    exact even_or_bit _ true
  unfold Wide.value at doubled ⊢
  dsimp only
  rw [bit]
  omega

theorem or_one_valid (q : Wide) :
    ({ shl128 q with low := (shl128 q).low ||| 1 } : Wide).Valid where
  high_lt := (shl128_valid _).high_lt
  low_lt := Nat.or_lt_two_pow (shl128_valid _).low_lt (by decide)

/-- One round keeps the division invariant. -/
theorem divideRound_invariant {dividend divisor count : Nat} {state : Wide × Wide × Wide}
    (positive : 0 < divisor) (fits : dividend < 2 ^ 128)
    (invariant : DivideInvariant dividend divisor (count + 1) state) :
    DivideInvariant dividend divisor count (divideRound state) := by
  obtain ⟨q, x, y⟩ := state
  have shifted : y.value = divisor * 2 ^ count := invariant.shifted (Nat.succ_ne_zero count)
  have qValid : q.Valid := invariant.quotient_valid
  have xValid : x.Valid := invariant.remainder_valid
  have yValid : y.Valid := invariant.divisor_valid
  have split : dividend = q.value * (divisor * 2 ^ (count + 1)) + x.value := invariant.split
  have bound : x.value ≤ divisor * 2 ^ (count + 1) := invariant.remainder_le
  have doubled : divisor * 2 ^ (count + 1) = 2 * y.value := by
    rw [shifted]
    ring
  have unit : 0 < y.value := by
    rw [shifted]
    positivity
  have room : q.value < 2 ^ 127 := by
    rw [doubled] at split
    have grows : q.value * 2 ≤ q.value * (2 * y.value) := Nat.mul_le_mul_left _ (by omega)
    omega
  have nextShift : count ≠ 0 → (shr128 y).value = divisor * 2 ^ (count - 1) := by
    intro more
    obtain ⟨rest, rfl⟩ := Nat.exists_eq_succ_of_ne_zero more
    rw [shr128_value yValid, shifted, Nat.succ_eq_add_one, pow_succ, ← Nat.mul_assoc,
      Nat.mul_div_cancel _ (by decide : 0 < 2), Nat.add_sub_cancel]
  unfold divideRound
  dsimp only
  by_cases less : xltY128 y x = true
  · rw [if_pos less]
    have strict := (xltY128_iff yValid xValid).mp less
    have difference := sub128_value xValid yValid strict.le
    refine ⟨or_one_valid q, sub128_valid xValid, shr128_valid yValid, nextShift, ?_, ?_, ?_⟩
    · rw [or_one_value qValid room, difference, ← shifted]
      rw [doubled] at split
      have expand : (2 * q.value + 1) * y.value = q.value * (2 * y.value) + y.value := by ring
      omega
    · rw [difference, ← shifted]
      omega
    · intro _
      rw [difference]
      omega
  · rw [if_neg less]
    have weak : x.value ≤ y.value := by
      by_contra above
      exact less ((xltY128_iff yValid xValid).mpr (by omega))
    refine ⟨shl128_valid q, xValid, shr128_valid yValid, nextShift, ?_, ?_,
      invariant.remainder_pos⟩
    · rw [shl128_value qValid room, ← shifted]
      rw [doubled] at split
      have expand : 2 * q.value * y.value = q.value * (2 * y.value) := by ring
      dsimp only
      omega
    · rw [← shifted]
      exact weak

/-- The loop runs the invariant down to no rounds to go. -/
theorem divideLoop_invariant {dividend divisor count : Nat} {state : Wide × Wide × Wide}
    (positive : 0 < divisor) (fits : dividend < 2 ^ 128)
    (invariant : DivideInvariant dividend divisor count state) :
    DivideInvariant dividend divisor 0 (divideLoop count state) := by
  induction count generalizing state with
  | zero => exact invariant
  | succ count inductionHypothesis =>
    exact inductionHypothesis (divideRound_invariant positive fits invariant)

/-- With no rounds to go, the quotient is that of the predecessor of the dividend. -/
theorem DivideInvariant.quotient_eq {dividend divisor : Nat} {state : Wide × Wide × Wide}
    (positive : 0 < divisor) (invariant : DivideInvariant dividend divisor 0 state) :
    state.1.value = (dividend - 1) / divisor := by
  have split := invariant.split
  have bound := invariant.remainder_le
  rw [pow_zero, Nat.mul_one] at split bound
  rcases Nat.eq_zero_or_pos dividend with zero | nonzero
  · rw [zero] at split ⊢
    have product : state.1.value * divisor = 0 := by omega
    rcases Nat.mul_eq_zero.mp product with none | absurdZero
    · rw [none, Nat.zero_sub, Nat.zero_div]
    · omega
  · have remainder := invariant.remainder_pos nonzero
    refine (Nat.div_eq_of_lt_le ?_ ?_).symm
    · omega
    · rw [Nat.add_mul, Nat.one_mul]
      omega

/-- The divisor the loop starts from is justified, and the count of rounds is one more than
the shift that justified it. -/
theorem justified_start {y : Wide} (valid : y.Valid) (positive : 0 < y.value) :
    ∃ y' shift,
      leftJustify 64
          (if y.high = 0 then (({ high := y.low, low := 0 } : Wide), 1 + 64) else (y, 1)).1
          (if y.high = 0 then (({ high := y.low, low := 0 } : Wide), 1 + 64) else (y, 1)).2 =
        (y', shift + 1) ∧
      y'.Valid ∧ y'.value = y.value * 2 ^ shift ∧ 2 ^ 127 ≤ y'.value := by
  by_cases narrow : y.high = 0
  · rw [if_pos narrow]
    have value : y.value = y.low := by
      unfold Wide.value
      omega
    have startValid : ({ high := y.low, low := 0 } : Wide).Valid :=
      ⟨valid.low_lt, Nat.two_pow_pos 64⟩
    have startValue : ({ high := y.low, low := 0 } : Wide).value = y.value * 2 ^ 64 := by
      show y.low * 2 ^ 64 + 0 = _
      rw [value, Nat.add_zero]
    obtain ⟨shift, count, justifiedValid, scaled, big⟩ :=
      leftJustify_spec 64 { high := y.low, low := 0 } (1 + 64) startValid (by
        rw [startValue]
        omega)
    refine ⟨_, 64 + shift, Prod.ext rfl ?_, justifiedValid, ?_, big⟩
    · show _ = 64 + shift + 1
      rw [count]
      omega
    · rw [scaled, startValue, pow_add, ← Nat.mul_assoc]
  · rw [if_neg narrow]
    have wide : 2 ^ 64 ≤ y.value := by
      unfold Wide.value
      omega
    obtain ⟨shift, count, justifiedValid, scaled, big⟩ :=
      leftJustify_spec 64 y 1 valid (by omega)
    refine ⟨_, shift, Prod.ext rfl ?_, justifiedValid, scaled, big⟩
    show _ = shift + 1
    rw [count, Nat.add_comm]

/-- The division ends in a state that satisfies the division invariant. -/
theorem u128Div_invariant {x y : Wide} (xValid : x.Valid) (yValid : y.Valid)
    (positive : 0 < y.value) :
    ∃ state, u128Div x y = state.1 ∧ DivideInvariant x.value y.value 0 state := by
  obtain ⟨y', shift, start, valid, scaled, big⟩ := justified_start yValid positive
  have fits := xValid.value_lt
  have initial : DivideInvariant x.value y.value (shift + 1)
      (({ high := 0, low := 0 } : Wide), x, y') := by
    refine ⟨⟨Nat.two_pow_pos 64, Nat.two_pow_pos 64⟩, xValid, valid, fun _ => scaled, ?_, ?_,
      fun nonzero => nonzero⟩
    · show x.value = (0 * 2 ^ 64 + 0) * _ + x.value
      omega
    · show x.value ≤ y.value * 2 ^ (shift + 1)
      rw [pow_succ, ← Nat.mul_assoc, ← scaled]
      omega
  refine ⟨_, ?_, divideLoop_invariant positive fits initial⟩
  unfold u128Div
  dsimp only
  rw [start]

/-- The shift-and-subtract division returns the quotient of the predecessor of the
dividend. -/
theorem u128Div_value {x y : Wide} (xValid : x.Valid) (yValid : y.Valid)
    (positive : 0 < y.value) : (u128Div x y).value = (x.value - 1) / y.value := by
  obtain ⟨state, result, invariant⟩ := u128Div_invariant xValid yValid positive
  rw [result]
  exact invariant.quotient_eq positive

/-- The quotient of two pairs of words is a pair of words. -/
theorem u128Div_valid {x y : Wide} (xValid : x.Valid) (yValid : y.Valid)
    (positive : 0 < y.value) : (u128Div x y).Valid := by
  obtain ⟨state, result, invariant⟩ := u128Div_invariant xValid yValid positive
  rw [result]
  exact invariant.quotient_valid

/-- The predecessor of a number has another quotient than the number exactly at the nonzero
multiples of the divisor. -/
theorem pred_div_eq_div_iff {x y : Nat} :
    (x - 1) / y = x / y ↔ x = 0 ∨ ¬ y ∣ x := by
  cases x with
  | zero => exact ⟨fun _ => Or.inl rfl, fun _ => rfl⟩
  | succ x =>
    rw [Nat.add_sub_cancel, Nat.succ_div]
    by_cases multiple : y ∣ x + 1
    · rw [if_pos multiple]
      exact ⟨fun same => absurd same (by omega),
        fun impossible => absurd multiple (impossible.resolve_left (Nat.succ_ne_zero x))⟩
    · rw [if_neg multiple]
      exact ⟨fun _ => Or.inr multiple, fun _ => rfl⟩

/-- The division is exact unless the dividend is a nonzero multiple of the divisor: there the
remainder equals a shifted divisor, which the strict comparison does not subtract. -/
theorem u128Div_exact_iff (x y : Wide) (xValid : x.Valid) (yValid : y.Valid)
    (positive : 0 < y.value) :
    (u128Div x y).value = x.value / y.value ↔ x.value = 0 ∨ ¬ y.value ∣ x.value := by
  rw [u128Div_value xValid yValid positive]
  exact pred_div_eq_div_iff

theorem u128Div_exact_iff_seven :
    (u128Div { high := 0, low := 7 } { high := 0, low := 3 }).value = 7 / 3 :=
  (u128Div_exact_iff { high := 0, low := 7 } { high := 0, low := 3 }
    ⟨by decide, by decide⟩ ⟨by decide, by decide⟩ (by decide)).mpr (Or.inr (by decide))

/-- A multiple of the divisor gets a quotient that is one too small. -/
theorem u128Div_multiple :
    ¬ ∀ x y : Wide, x.Valid → y.Valid → 0 < y.value →
      (u128Div x y).value = x.value / y.value := by
  intro exact
  have six := exact { high := 0, low := 6 } { high := 0, low := 3 }
    ⟨by decide, by decide⟩ ⟨by decide, by decide⟩ (by decide)
  exact absurd six (by decide +kernel)

example : u128Div { high := 0, low := 6 } { high := 0, low := 3 } = { high := 0, low := 1 } := by
  decide +kernel

end LaserD.Division
