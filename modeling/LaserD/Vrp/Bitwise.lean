/-
This file proves the bitwise operators of the ranges sound.

The two loops walk the bits of the ends from the highest down. What they return is
at least the or, or the and, of any two values between the ends; the smallest or and
and come from these by complement. The signs of the ends are then a case distinction,
in which the complement of the largest number, which is zero, needs its own word.
-/

import LaserD.Lib.BitBounds
import LaserD.Vrp.IntRange

namespace LaserD.Vrp.IntRange

open SignExtendedNumber BitBounds

/-! ### The loops -/

/-- What the loop of `maxOr` returns stays within the bits it may set. -/
theorem maxOrLoop_lt (lmax rmax : Nat) :
    ∀ (bits lmin rmin x : Nat), 2 ^ bits ∣ x →
      x ≤ maxOrLoop lmax rmax bits lmin rmin x ∧
        maxOrLoop lmax rmax bits lmin rmin x < x + 2 ^ bits := by
  intro bits
  induction bits with
  | zero =>
    intro lmin rmin x _
    exact ⟨Nat.le_refl _, Nat.lt_succ_self _⟩
  | succ bits inductionHypothesis =>
    intro lmin rmin x above
    have power : 2 ^ (bits + 1) = 2 ^ bits + 2 ^ bits := by rw [Nat.pow_succ, Nat.mul_two]
    have above' : 2 ^ bits ∣ x := dvd_trans (pow_dvd_pow 2 (Nat.le_succ bits)) above
    have bit : x ||| 2 ^ bits = x + 2 ^ bits :=
      or_eq_add above (Nat.pow_lt_pow_right Nat.one_lt_two (Nat.lt_succ_self bits))
    have ones : x ||| (2 ^ (bits + 1) - 1) = x + (2 ^ (bits + 1) - 1) :=
      or_eq_add above (Nat.sub_lt (Nat.two_pow_pos _) Nat.one_pos)
    have aboveBit : 2 ^ bits ∣ x + 2 ^ bits := Nat.dvd_add above' (dvd_refl _)
    have positive := Nat.two_pow_pos bits
    unfold maxOrLoop
    rw [bit, ones]
    split_ifs
    · obtain ⟨lower, upper⟩ := inductionHypothesis lmin rmin _ aboveBit
      omega
    · obtain ⟨lower, upper⟩ := inductionHypothesis 0 rmin _ aboveBit
      omega
    · obtain ⟨lower, upper⟩ := inductionHypothesis lmin rmin _ aboveBit
      omega
    · obtain ⟨lower, upper⟩ := inductionHypothesis lmin 0 _ aboveBit
      omega
    · obtain ⟨lower, upper⟩ := inductionHypothesis lmin rmin _ aboveBit
      omega
    · omega
    · obtain ⟨lower, upper⟩ := inductionHypothesis lmin rmin _ above'
      omega

/-- A value at or above the topmost bit is that bit and a value below it, between what
the bit leaves of the ends. -/
theorem low_part {bits low high p : Nat} (lower : low % 2 ^ (bits + 1) ≤ p)
    (upper : p ≤ high % 2 ^ (bits + 1)) (large : 2 ^ bits ≤ p) :
    ∃ q, p = 2 ^ bits + q ∧ q < 2 ^ bits ∧ high.testBit bits = true ∧ q ≤ high % 2 ^ bits ∧
      (if low.testBit bits then low else 0) % 2 ^ bits ≤ q ∧
      (low.testBit bits = true → low % 2 ^ bits ≤ q) := by
  have top : high.testBit bits = true :=
    (testBit_iff_le_mod high bits).mpr (Nat.le_trans large upper)
  rw [mod_of_testBit top] at upper
  have small : high % 2 ^ bits < 2 ^ bits := Nat.mod_lt _ (Nat.two_pow_pos bits)
  have set : low.testBit bits = true → low % 2 ^ bits ≤ p - 2 ^ bits := by
    intro lowTop
    rw [mod_of_testBit lowTop] at lower
    omega
  refine ⟨p - 2 ^ bits, by omega, by omega, top, by omega, ?_, set⟩
  by_cases lowTop : low.testBit bits = true
  · rw [if_pos lowTop]
    exact set lowTop
  · rw [if_neg lowTop, Nat.zero_mod]
    exact Nat.zero_le _

/-- A value below the topmost bit is between the ends without the bit. -/
theorem low_bounds {bits low high p : Nat} (lower : low % 2 ^ (bits + 1) ≤ p)
    (upper : p ≤ high % 2 ^ (bits + 1)) (small : p < 2 ^ bits) :
    low.testBit bits ≠ true ∧ low % 2 ^ bits ≤ p ∧
      (high.testBit bits ≠ true → p ≤ high % 2 ^ bits) := by
  have clear : low.testBit bits ≠ true := by
    intro top
    have := (testBit_iff_le_mod low bits).mp top
    omega
  refine ⟨clear, ?_, ?_⟩
  · rw [mod_of_not_testBit clear] at lower
    exact lower
  · intro highClear
    rw [mod_of_not_testBit highClear] at upper
    exact upper

/-- The loop of `maxOr` is at least the or of any two values between the ends. -/
theorem le_maxOrLoop (lmax rmax : Nat) :
    ∀ (bits lmin rmin x p q : Nat), 2 ^ bits ∣ x →
      lmin % 2 ^ bits ≤ p → p ≤ lmax % 2 ^ bits → rmin % 2 ^ bits ≤ q → q ≤ rmax % 2 ^ bits →
      x + (p ||| q) ≤ maxOrLoop lmax rmax bits lmin rmin x := by
  intro bits
  induction bits with
  | zero =>
    intro lmin rmin x p q _ _ pUpper _ qUpper
    rw [Nat.pow_zero, Nat.mod_one] at pUpper qUpper
    rw [Nat.le_zero.mp pUpper, Nat.le_zero.mp qUpper]
    exact Nat.le_refl _
  | succ bits inductionHypothesis =>
    intro lmin rmin x p q above pLower pUpper qLower qUpper
    have power : 2 ^ (bits + 1) = 2 ^ bits + 2 ^ bits := by rw [Nat.pow_succ, Nat.mul_two]
    have above' : 2 ^ bits ∣ x := dvd_trans (pow_dvd_pow 2 (Nat.le_succ bits)) above
    have bit : x ||| 2 ^ bits = x + 2 ^ bits :=
      or_eq_add above (Nat.pow_lt_pow_right Nat.one_lt_two (Nat.lt_succ_self bits))
    have ones : x ||| (2 ^ (bits + 1) - 1) = x + (2 ^ (bits + 1) - 1) :=
      or_eq_add above (Nat.sub_lt (Nat.two_pow_pos _) Nat.one_pos)
    have aboveBit : 2 ^ bits ∣ x + 2 ^ bits := Nat.dvd_add above' (dvd_refl _)
    have pSmall : p < 2 ^ (bits + 1) :=
      Nat.lt_of_le_of_lt pUpper (Nat.mod_lt _ (Nat.two_pow_pos _))
    have qSmall : q < 2 ^ (bits + 1) :=
      Nat.lt_of_le_of_lt qUpper (Nat.mod_lt _ (Nat.two_pow_pos _))
    have orSmall := Nat.or_lt_two_pow pSmall qSmall
    have atLeast : ∀ lmin rmin, x + 2 ^ bits ≤ maxOrLoop lmax rmax bits lmin rmin (x + 2 ^ bits) :=
      fun lmin rmin => (maxOrLoop_lt lmax rmax bits lmin rmin _ aboveBit).1
    unfold maxOrLoop
    rw [bit, ones]
    by_cases pLarge : 2 ^ bits ≤ p
    · obtain ⟨p, rfl, pLow, lTop, pUpper, pFrom, pKept⟩ := low_part pLower pUpper pLarge
      by_cases qLarge : 2 ^ bits ≤ q
      · obtain ⟨q, rfl, qLow, rTop, qUpper, qFrom, qKept⟩ := low_part qLower qUpper qLarge
        rw [if_neg (by rw [lTop, rTop]; exact fun differ => differ rfl)]
        by_cases mins : lmin.testBit bits = true ∧ rmin.testBit bits = true
        · rw [if_pos mins, top_or_top pLow qLow, ← Nat.add_assoc]
          exact inductionHypothesis _ _ _ _ _ aboveBit (pKept mins.1) pUpper (qKept mins.2) qUpper
        · rw [if_neg mins, if_pos ⟨lTop, rTop⟩]
          omega
      · have qLow := Nat.lt_of_not_le qLarge
        obtain ⟨rminClear, qFrom, qTo⟩ := low_bounds qLower qUpper qLow
        by_cases rTop : rmax.testBit bits = true
        · rw [if_neg (by rw [lTop, rTop]; exact fun differ => differ rfl),
            if_neg (fun mins => rminClear mins.2), if_pos ⟨lTop, rTop⟩]
          omega
        · rw [if_pos (by rw [lTop]; exact fun equal => rTop equal.symm), if_pos lTop,
            top_or pLow qLow, ← Nat.add_assoc]
          exact inductionHypothesis _ _ _ _ _ aboveBit pFrom pUpper qFrom (qTo rTop)
    · have pLow := Nat.lt_of_not_le pLarge
      obtain ⟨lminClear, pFrom, pTo⟩ := low_bounds pLower pUpper pLow
      by_cases qLarge : 2 ^ bits ≤ q
      · obtain ⟨q, rfl, qLow, rTop, qUpper, qFrom, qKept⟩ := low_part qLower qUpper qLarge
        by_cases lTop : lmax.testBit bits = true
        · rw [if_neg (by rw [lTop, rTop]; exact fun differ => differ rfl),
            if_neg (fun mins => lminClear mins.1), if_pos ⟨lTop, rTop⟩]
          omega
        · rw [if_pos (by rw [rTop]; exact lTop), if_neg lTop, Nat.or_comm, top_or qLow pLow,
            Nat.or_comm, ← Nat.add_assoc]
          exact inductionHypothesis _ _ _ _ _ aboveBit pFrom (pTo lTop) qFrom qUpper
      · have qLow := Nat.lt_of_not_le qLarge
        have low := Nat.or_lt_two_pow pLow qLow
        obtain ⟨rminClear, qFrom, qTo⟩ := low_bounds qLower qUpper qLow
        by_cases lTop : lmax.testBit bits = true
        · by_cases rTop : rmax.testBit bits = true
          · rw [if_neg (by rw [lTop, rTop]; exact fun differ => differ rfl),
              if_neg (fun mins => lminClear mins.1), if_pos ⟨lTop, rTop⟩]
            omega
          · rw [if_pos (by rw [lTop]; exact fun equal => rTop equal.symm), if_pos lTop]
            have := atLeast (if lmin.testBit bits then lmin else 0) rmin
            omega
        · by_cases rTop : rmax.testBit bits = true
          · rw [if_pos (by rw [rTop]; exact lTop), if_neg lTop]
            have := atLeast lmin (if rmin.testBit bits then rmin else 0)
            omega
          · rw [if_neg (by rw [Bool.eq_false_of_not_eq_true lTop, Bool.eq_false_of_not_eq_true rTop]
                           exact fun differ => differ rfl),
              if_neg (fun mins => lminClear mins.1), if_neg (fun tops => lTop tops.1)]
            exact inductionHypothesis _ _ _ _ _ above' pFrom (pTo lTop) qFrom (qTo rTop)

/-- What the loop of `maxOr` returns is the or of two values between the ends. -/
theorem exists_maxOrLoop (lmax rmax : Nat) :
    ∀ (bits lmin rmin x : Nat), 2 ^ bits ∣ x → lmin % 2 ^ bits ≤ lmax % 2 ^ bits →
      rmin % 2 ^ bits ≤ rmax % 2 ^ bits →
      ∃ p q, lmin % 2 ^ bits ≤ p ∧ p ≤ lmax % 2 ^ bits ∧ rmin % 2 ^ bits ≤ q ∧
        q ≤ rmax % 2 ^ bits ∧ maxOrLoop lmax rmax bits lmin rmin x = x + (p ||| q) := by
  intro bits
  induction bits with
  | zero =>
    intro lmin rmin x _ lOrder rOrder
    exact ⟨_, _, Nat.le_refl _, lOrder, Nat.le_refl _, rOrder, by simp [maxOrLoop, Nat.mod_one]⟩
  | succ bits inductionHypothesis =>
    intro lmin rmin x above lOrder rOrder
    have positive := Nat.two_pow_pos bits
    have power : 2 ^ (bits + 1) = 2 ^ bits + 2 ^ bits := by rw [Nat.pow_succ, Nat.mul_two]
    have above' : 2 ^ bits ∣ x := dvd_trans (pow_dvd_pow 2 (Nat.le_succ bits)) above
    have bit : x ||| 2 ^ bits = x + 2 ^ bits :=
      or_eq_add above (Nat.pow_lt_pow_right Nat.one_lt_two (Nat.lt_succ_self bits))
    have ones : x ||| (2 ^ (bits + 1) - 1) = x + (2 ^ (bits + 1) - 1) :=
      or_eq_add above (Nat.sub_lt (Nat.two_pow_pos _) Nat.one_pos)
    have aboveBit : 2 ^ bits ∣ x + 2 ^ bits := Nat.dvd_add above' (dvd_refl _)
    have small (n : Nat) : n % 2 ^ bits < 2 ^ bits := Nat.mod_lt n positive
    have clear {low high : Nat} (order : low % 2 ^ (bits + 1) ≤ high % 2 ^ (bits + 1))
        (top : ¬ high.testBit bits = true) : ¬ low.testBit bits = true := by
      rw [testBit_iff_le_mod] at top ⊢
      omega
    have lowered {low high : Nat} (order : low % 2 ^ (bits + 1) ≤ high % 2 ^ (bits + 1))
        (top : high.testBit bits = true) :
        (if low.testBit bits then low else 0) % 2 ^ bits ≤ high % 2 ^ bits := by
      split_ifs with lowTop
      · rw [mod_of_testBit lowTop, mod_of_testBit top] at order
        omega
      · rw [Nat.zero_mod]
        exact Nat.zero_le _
    have raised {low p : Nat} (lower : (if low.testBit bits then low else 0) % 2 ^ bits ≤ p) :
        low % 2 ^ (bits + 1) ≤ 2 ^ bits + p := by
      have lowSmall := small low
      split_ifs at lower with lowTop
      · rw [mod_of_testBit lowTop]
        omega
      · rw [mod_of_not_testBit lowTop]
        omega
    unfold maxOrLoop
    rw [bit, ones]
    by_cases lTop : lmax.testBit bits = true
    · by_cases rTop : rmax.testBit bits = true
      · rw [if_neg (not_not_intro (lTop.trans rTop.symm))]
        by_cases both : lmin.testBit bits = true ∧ rmin.testBit bits = true
        · rw [if_pos both]
          obtain ⟨p, q, pLower, pUpper, qLower, qUpper, same⟩ := inductionHypothesis lmin rmin _
            aboveBit (by have := lowered lOrder lTop; rwa [if_pos both.1] at this)
            (by have := lowered rOrder rTop; rwa [if_pos both.2] at this)
          refine ⟨2 ^ bits + p, 2 ^ bits + q, ?_, ?_, ?_, ?_, ?_⟩
          · rw [mod_of_testBit both.1]
            omega
          · rw [mod_of_testBit lTop]
            omega
          · rw [mod_of_testBit both.2]
            omega
          · rw [mod_of_testBit rTop]
            omega
          · rw [same, top_or_top (pUpper.trans_lt (small _)) (qUpper.trans_lt (small _)),
              Nat.add_assoc]
        · rw [if_neg both, if_pos ⟨lTop, rTop⟩]
          have full {p : Nat} (pSmall : p < 2 ^ bits) :
              (2 ^ bits + p) ||| (2 ^ bits - 1) = 2 ^ (bits + 1) - 1 := by
            have whole : p ||| (2 ^ bits - 1) = 2 ^ bits - 1 := by
              refine Nat.le_antisymm ?_ Nat.right_le_or
              exact Nat.le_sub_one_of_lt (Nat.or_lt_two_pow pSmall (by omega))
            rw [top_or pSmall (by omega), whole]
            omega
          by_cases lLow : lmin.testBit bits = true
          · have rLow : ¬ rmin.testBit bits = true := fun rLow => both ⟨lLow, rLow⟩
            refine ⟨lmax % 2 ^ (bits + 1), 2 ^ bits - 1, lOrder, Nat.le_refl _, ?_, ?_, ?_⟩
            · rw [mod_of_not_testBit rLow]
              exact Nat.le_sub_one_of_lt (small _)
            · rw [mod_of_testBit rTop]
              omega
            · rw [mod_of_testBit lTop, full (small _)]
          · refine ⟨2 ^ bits - 1, rmax % 2 ^ (bits + 1), ?_, ?_, rOrder, Nat.le_refl _, ?_⟩
            · rw [mod_of_not_testBit lLow]
              exact Nat.le_sub_one_of_lt (small _)
            · rw [mod_of_testBit lTop]
              omega
            · rw [mod_of_testBit rTop, Nat.or_comm, full (small _)]
      · have rLow := clear rOrder rTop
        rw [if_pos (fun same => rTop (same.symm.trans lTop)), if_pos lTop]
        rw [mod_of_not_testBit rTop, mod_of_not_testBit rLow] at *
        obtain ⟨p, q, pLower, pUpper, qLower, qUpper, same⟩ := inductionHypothesis _ rmin _
          aboveBit (lowered lOrder lTop) rOrder
        refine ⟨2 ^ bits + p, q, raised pLower, ?_, qLower, qUpper, ?_⟩
        · rw [mod_of_testBit lTop]
          omega
        · rw [same, top_or (pUpper.trans_lt (small _)) (qUpper.trans_lt (small _)), Nat.add_assoc]
    · have lLow := clear lOrder lTop
      by_cases rTop : rmax.testBit bits = true
      · rw [if_pos (fun same => lTop (same.trans rTop)), if_neg lTop]
        rw [mod_of_not_testBit lTop, mod_of_not_testBit lLow] at *
        obtain ⟨p, q, pLower, pUpper, qLower, qUpper, same⟩ := inductionHypothesis lmin _ _
          aboveBit lOrder (lowered rOrder rTop)
        refine ⟨p, 2 ^ bits + q, pLower, pUpper, raised qLower, ?_, ?_⟩
        · rw [mod_of_testBit rTop]
          omega
        · rw [same, Nat.or_comm p, Nat.or_comm p,
            top_or (qUpper.trans_lt (small _)) (pUpper.trans_lt (small _)), Nat.add_assoc]
      · have rLow := clear rOrder rTop
        rw [mod_of_not_testBit lTop, mod_of_not_testBit lLow] at lOrder ⊢
        rw [mod_of_not_testBit rTop, mod_of_not_testBit rLow] at rOrder ⊢
        rw [if_neg (not_not_intro ((Bool.eq_false_of_not_eq_true lTop).trans
          (Bool.eq_false_of_not_eq_true rTop).symm)), if_neg (fun both => lLow both.1),
          if_neg (fun both => lTop both.1)]
        exact inductionHypothesis lmin rmin x above' lOrder rOrder

/-- The loop of `maxAnd` stays below both upper ends. -/
theorem maxAndLoop_le :
    ∀ (bits lmin lmax rmin rmax x : Nat), 2 ^ bits ∣ x →
      x ≤ maxAndLoop bits lmin lmax rmin rmax x ∧
        maxAndLoop bits lmin lmax rmin rmax x ≤ x + lmax % 2 ^ bits ∧
        maxAndLoop bits lmin lmax rmin rmax x ≤ x + rmax % 2 ^ bits := by
  intro bits
  induction bits with
  | zero =>
    intro lmin lmax rmin rmax x _
    exact ⟨Nat.le_refl _, Nat.le_add_right _ _, Nat.le_add_right _ _⟩
  | succ bits inductionHypothesis =>
    intro lmin lmax rmin rmax x above
    have above' : 2 ^ bits ∣ x := dvd_trans (pow_dvd_pow 2 (Nat.le_succ bits)) above
    have bit : x ||| 2 ^ bits = x + 2 ^ bits :=
      or_eq_add above (Nat.pow_lt_pow_right Nat.one_lt_two (Nat.lt_succ_self bits))
    have positive := Nat.two_pow_pos bits
    have low : ∀ n, n % 2 ^ bits < 2 ^ bits := fun n => Nat.mod_lt n positive
    have mono : ∀ n, n % 2 ^ bits ≤ n % 2 ^ (bits + 1) := by
      intro n
      rw [Nat.mod_pow_succ]
      exact Nat.le_add_right _ _
    unfold maxAndLoop
    rw [bit]
    by_cases tops : lmax.testBit bits = true ∧ rmax.testBit bits = true
    · rw [if_pos tops, mod_of_testBit tops.1, mod_of_testBit tops.2, ← Nat.add_assoc,
        ← Nat.add_assoc]
      have bounds := inductionHypothesis (if lmin.testBit bits then lmin else 0) lmax
        (if rmin.testBit bits then rmin else 0) rmax _ (Nat.dvd_add above' (dvd_refl (2 ^ bits)))
      omega
    · rw [if_neg tops]
      by_cases lFree : ¬ lmin.testBit bits = true ∧ lmax.testBit bits = true
      · rw [if_pos lFree, mod_of_testBit lFree.2]
        have bounds := inductionHypothesis lmin (lmax ||| (2 ^ bits - 1)) rmin rmax x above'
        have := low (lmax ||| (2 ^ bits - 1))
        have := mono rmax
        omega
      · rw [if_neg lFree]
        by_cases rFree : ¬ rmin.testBit bits = true ∧ rmax.testBit bits = true
        · rw [if_pos rFree, mod_of_testBit rFree.2]
          have bounds := inductionHypothesis lmin lmax rmin (rmax ||| (2 ^ bits - 1)) x above'
          have := low (rmax ||| (2 ^ bits - 1))
          have := mono lmax
          omega
        · rw [if_neg rFree]
          have bounds := inductionHypothesis lmin lmax rmin rmax x above'
          have := mono lmax
          have := mono rmax
          omega

/-- The lower bits of a number whose lower bits have been set. -/
theorem or_ones_mod (n bits : Nat) : (n ||| (2 ^ bits - 1)) % 2 ^ bits = 2 ^ bits - 1 := by
  have positive := Nat.two_pow_pos bits
  rw [Nat.or_mod_two_pow, Nat.mod_eq_of_lt (Nat.sub_lt positive Nat.one_pos), Nat.or_comm,
    ← Nat.and_two_pow_sub_one_eq_mod n bits]
  exact Nat.eq_of_testBit_eq fun index => by
    rw [Nat.testBit_or, Nat.testBit_and]
    cases (2 ^ bits - 1).testBit index <;> simp

/-- The loop of `maxAnd` is at least the and of any two values between the ends. -/
theorem le_maxAndLoop :
    ∀ (bits lmin lmax rmin rmax x p q : Nat), 2 ^ bits ∣ x →
      lmin % 2 ^ bits ≤ p → p ≤ lmax % 2 ^ bits → rmin % 2 ^ bits ≤ q → q ≤ rmax % 2 ^ bits →
      x + (p &&& q) ≤ maxAndLoop bits lmin lmax rmin rmax x := by
  intro bits
  induction bits with
  | zero =>
    intro lmin lmax rmin rmax x p q _ _ pUpper _ qUpper
    rw [Nat.pow_zero, Nat.mod_one] at pUpper
    rw [Nat.le_zero.mp pUpper, Nat.zero_and]
    exact Nat.le_refl _
  | succ bits inductionHypothesis =>
    intro lmin lmax rmin rmax x p q above pLower pUpper qLower qUpper
    have above' : 2 ^ bits ∣ x := dvd_trans (pow_dvd_pow 2 (Nat.le_succ bits)) above
    have bit : x ||| 2 ^ bits = x + 2 ^ bits :=
      or_eq_add above (Nat.pow_lt_pow_right Nat.one_lt_two (Nat.lt_succ_self bits))
    have aboveBit : 2 ^ bits ∣ x + 2 ^ bits := Nat.dvd_add above' (dvd_refl _)
    have positive := Nat.two_pow_pos bits
    unfold maxAndLoop
    rw [bit]
    by_cases tops : lmax.testBit bits = true ∧ rmax.testBit bits = true
    · rw [if_pos tops]
      have atLeast := (maxAndLoop_le bits (if lmin.testBit bits then lmin else 0) lmax
        (if rmin.testBit bits then rmin else 0) rmax _ aboveBit).1
      by_cases pLarge : 2 ^ bits ≤ p
      · obtain ⟨p, rfl, pLow, _, pUpper, pFrom, _⟩ := low_part pLower pUpper pLarge
        by_cases qLarge : 2 ^ bits ≤ q
        · obtain ⟨q, rfl, qLow, _, qUpper, qFrom, _⟩ := low_part qLower qUpper qLarge
          rw [top_and_top pLow qLow, ← Nat.add_assoc]
          exact inductionHypothesis _ _ _ _ _ _ _ aboveBit pFrom pUpper qFrom qUpper
        · have small := Nat.and_lt_two_pow (2 ^ bits + p) (Nat.lt_of_not_le qLarge)
          omega
      · have small : p &&& q < 2 ^ bits :=
          Nat.lt_of_le_of_lt Nat.and_le_left (Nat.lt_of_not_le pLarge)
        omega
    · rw [if_neg tops]
      by_cases lFree : ¬ lmin.testBit bits = true ∧ lmax.testBit bits = true
      · rw [if_pos lFree]
        have rClear : ¬ rmax.testBit bits = true := fun rTop => tops ⟨lFree.2, rTop⟩
        rw [mod_of_not_testBit rClear] at qUpper
        have qLow := Nat.lt_of_le_of_lt qUpper (Nat.mod_lt _ positive)
        have qFrom := Nat.le_trans (Nat.mod_pow_succ ▸ Nat.le_add_right _ _) qLower
        have widest := inductionHypothesis lmin (lmax ||| (2 ^ bits - 1)) rmin rmax x (2 ^ bits - 1)
          q above' (Nat.le_sub_one_of_lt (Nat.mod_lt _ positive))
          (Nat.le_of_eq (or_ones_mod lmax bits).symm) qFrom qUpper
        rw [ones_and qLow] at widest
        exact Nat.le_trans (Nat.add_le_add_left Nat.and_le_right x) widest
      · rw [if_neg lFree]
        by_cases rFree : ¬ rmin.testBit bits = true ∧ rmax.testBit bits = true
        · rw [if_pos rFree]
          have lClear : ¬ lmax.testBit bits = true := fun lTop => tops ⟨lTop, rFree.2⟩
          rw [mod_of_not_testBit lClear] at pUpper
          have pLow := Nat.lt_of_le_of_lt pUpper (Nat.mod_lt _ positive)
          have pFrom := Nat.le_trans (Nat.mod_pow_succ ▸ Nat.le_add_right _ _) pLower
          have widest := inductionHypothesis lmin lmax rmin (rmax ||| (2 ^ bits - 1)) x p
            (2 ^ bits - 1) above' pFrom pUpper (Nat.le_sub_one_of_lt (Nat.mod_lt _ positive))
            (Nat.le_of_eq (or_ones_mod rmax bits).symm)
          rw [Nat.and_comm, ones_and pLow] at widest
          exact Nat.le_trans (Nat.add_le_add_left Nat.and_le_left x) widest
        · rw [if_neg rFree]
          by_cases pLarge : 2 ^ bits ≤ p
          · obtain ⟨p, rfl, pLow, lTop, pUpper, _, pKept⟩ := low_part pLower pUpper pLarge
            have lminTop : lmin.testBit bits = true := by
              by_contra clear
              exact lFree ⟨clear, lTop⟩
            have rClear : ¬ rmax.testBit bits = true := fun rTop => tops ⟨lTop, rTop⟩
            rw [mod_of_not_testBit rClear] at qUpper
            have qLow := Nat.lt_of_le_of_lt qUpper (Nat.mod_lt _ positive)
            obtain ⟨_, qFrom, _⟩ := low_bounds qLower
              (Nat.le_trans qUpper (Nat.mod_pow_succ ▸ Nat.le_add_right _ _)) qLow
            rw [top_and pLow qLow]
            exact inductionHypothesis _ _ _ _ _ _ _ above' (pKept lminTop) pUpper qFrom qUpper
          · have pLow := Nat.lt_of_not_le pLarge
            obtain ⟨lminClear, pFrom, pTo⟩ := low_bounds pLower pUpper pLow
            have lClear : ¬ lmax.testBit bits = true := fun lTop => lFree ⟨lminClear, lTop⟩
            by_cases qLarge : 2 ^ bits ≤ q
            · obtain ⟨q, rfl, qLow, rTop, qUpper, _, qKept⟩ := low_part qLower qUpper qLarge
              have rminTop : rmin.testBit bits = true := by
                by_contra clear
                exact rFree ⟨clear, rTop⟩
              rw [Nat.and_comm, top_and qLow pLow, Nat.and_comm]
              exact inductionHypothesis _ _ _ _ _ _ _ above' pFrom (pTo lClear) (qKept rminTop)
                qUpper
            · obtain ⟨rminClear, qFrom, qTo⟩ := low_bounds qLower qUpper (Nat.lt_of_not_le qLarge)
              have rClear : ¬ rmax.testBit bits = true := fun rTop => rFree ⟨rminClear, rTop⟩
              exact inductionHypothesis _ _ _ _ _ _ _ above' pFrom (pTo lClear) qFrom (qTo rClear)

/-! ### The values of the ends -/

/-- A number is below another when its value is and it is negative with it. -/
theorem toInt_le_of_value {first second : SignExtendedNumber}
    (values : first.value.toNat ≤ second.value.toNat)
    (signs : second.negative = true → first.negative = true) : first.toInt ≤ second.toInt := by
  rcases first with ⟨first, firstNegative⟩
  rcases second with ⟨second, secondNegative⟩
  have firstSmall := first.isLt
  have secondSmall := second.isLt
  cases firstNegative with
  | true =>
    cases secondNegative <;> simp only [toInt_positive, toInt_negative] <;> dsimp only at * <;>
      omega
  | false =>
    cases secondNegative with
    | true => exact absurd (signs rfl) Bool.false_ne_true
    | false =>
      simp only [toInt_positive]
      exact_mod_cast values

/-- A value between the values of the ends. -/
def Between (range : IntRange) (value : BitVec 64) : Prop :=
  range.imin.value.toNat ≤ value.toNat ∧ value.toNat ≤ range.imax.value.toNat

theorem complement_value (number : SignExtendedNumber) :
    number.complement.value = ~~~number.value := by
  unfold SignExtendedNumber.complement
  split_ifs <;> rfl

theorem complement_negative (number : SignExtendedNumber) :
    number.complement.negative = (!number.negative && number.value != BitVec.allOnes 64) := by
  unfold SignExtendedNumber.complement
  by_cases ones : ~~~number.value = 0
  · rw [if_pos ones]
    have all : number.value = BitVec.allOnes 64 := by
      rw [← BitVec.not_not (b := number.value), ones]
      rfl
    rw [all]
    simp [ofValue]
  · rw [if_neg ones]
    have notAll : number.value ≠ BitVec.allOnes 64 := by
      intro all
      rw [all] at ones
      exact ones (by decide)
    rw [bne_iff_ne.mpr notAll, Bool.and_true]

theorem not_toNat (value : BitVec 64) : (~~~value).toNat = 2 ^ 64 - 1 - value.toNat :=
  BitVec.toNat_not

/-- The complements of the values between the ends are between the complements. -/
theorem Between.complement {range : IntRange} {value : BitVec 64} (between : range.Between value) :
    range.complement.Between (~~~value) := by
  obtain ⟨lower, upper⟩ := between
  unfold Between IntRange.complement
  dsimp only
  rw [complement_value, complement_value, not_toNat, not_toNat, not_toNat]
  omega

theorem maxOrLoop_toNat (lmax rmax lmin rmin : Nat) :
    (BitVec.ofNat 64 (maxOrLoop lmax rmax 64 lmin rmin 0)).toNat =
      maxOrLoop lmax rmax 64 lmin rmin 0 := by
  have := (maxOrLoop_lt lmax rmax 64 lmin rmin 0 (dvd_zero _)).2
  rw [BitVec.toNat_ofNat, Nat.mod_eq_of_lt (by omega)]

/-- The largest or is at least the or of values between the ends. -/
theorem le_maxOr {l r : IntRange} {p q : BitVec 64} (pBetween : l.Between p)
    (qBetween : r.Between q) : (p ||| q).toNat ≤ (maxOr l r).value.toNat := by
  have weaker : ∀ lmin rmin : BitVec 64, lmin.toNat ≤ p.toNat → rmin.toNat ≤ q.toNat →
      (p ||| q).toNat ≤ (BitVec.ofNat 64 (maxOrLoop l.imax.value.toNat r.imax.value.toNat 64
        lmin.toNat rmin.toNat 0)).toNat := by
    intro lmin rmin pLower qLower
    rw [maxOrLoop_toNat, BitVec.toNat_or]
    have bound := le_maxOrLoop l.imax.value.toNat r.imax.value.toNat 64 lmin.toNat rmin.toNat 0
      p.toNat q.toNat (dvd_zero _)
    rw [Nat.mod_eq_of_lt lmin.isLt, Nat.mod_eq_of_lt rmin.isLt, Nat.mod_eq_of_lt l.imax.value.isLt,
      Nat.mod_eq_of_lt r.imax.value.isLt, Nat.zero_add] at bound
    exact bound pLower pBetween.2 qLower qBetween.2
  unfold maxOr
  dsimp only
  split_ifs
  · exact weaker 0 0 (Nat.zero_le _) (Nat.zero_le _)
  · exact weaker 0 _ (Nat.zero_le _) qBetween.1
  · exact weaker _ 0 pBetween.1 (Nat.zero_le _)
  · exact weaker _ _ pBetween.1 qBetween.1
  · exact weaker _ _ pBetween.1 qBetween.1
  · exact weaker _ _ pBetween.1 qBetween.1
  · show _ ≤ (BitVec.allOnes 64).toNat
    rw [allOnes_toNat]
    exact Nat.le_sub_one_of_lt (BitVec.isLt _)
  · exact weaker _ _ pBetween.1 qBetween.1

theorem maxOr_negative (l r : IntRange) :
    (maxOr l r).negative =
      (l.imax.negative != r.imax.negative || l.imin.negative && r.imin.negative) := by
  unfold maxOr
  dsimp only
  cases l.imax.negative <;> cases r.imax.negative <;> cases l.imin.negative <;>
    cases r.imin.negative <;> rfl

/-- Where no upper end and not both lower ends are negative, the largest or is the or of values
between the ends. -/
theorem exists_maxOr {l r : IntRange} (lOrder : l.imin.value.toNat ≤ l.imax.value.toNat)
    (rOrder : r.imin.value.toNat ≤ r.imax.value.toNat) (lSign : l.imax.negative = false)
    (rSign : r.imax.negative = false) (signs : (l.imin.negative && r.imin.negative) = false) :
    ∃ p q : BitVec 64, l.Between p ∧ r.Between q ∧ (maxOr l r).value = p ||| q := by
  obtain ⟨p, q, pLower, pUpper, qLower, qUpper, same⟩ := exists_maxOrLoop l.imax.value.toNat
    r.imax.value.toNat 64 l.imin.value.toNat r.imin.value.toNat 0 (dvd_zero _)
    (by rwa [Nat.mod_eq_of_lt (BitVec.isLt _), Nat.mod_eq_of_lt (BitVec.isLt _)])
    (by rwa [Nat.mod_eq_of_lt (BitVec.isLt _), Nat.mod_eq_of_lt (BitVec.isLt _)])
  rw [Nat.mod_eq_of_lt (BitVec.isLt _)] at pLower pUpper qLower qUpper
  have pSmall : (BitVec.ofNat 64 p).toNat = p := by
    rw [BitVec.toNat_ofNat, Nat.mod_eq_of_lt (pUpper.trans_lt (BitVec.isLt _))]
  have qSmall : (BitVec.ofNat 64 q).toNat = q := by
    rw [BitVec.toNat_ofNat, Nat.mod_eq_of_lt (qUpper.trans_lt (BitVec.isLt _))]
  refine ⟨BitVec.ofNat 64 p, BitVec.ofNat 64 q, ?_, ?_, ?_⟩
  · unfold Between
    rw [pSmall]
    exact ⟨pLower, pUpper⟩
  · unfold Between
    rw [qSmall]
    exact ⟨qLower, qUpper⟩
  · unfold maxOr
    rw [lSign, rSign, signs, if_neg (not_not_intro rfl)]
    refine BitVec.eq_of_toNat_eq ?_
    show (BitVec.ofNat 64 _).toNat = _
    rw [maxOrLoop_toNat, same, Nat.zero_add, BitVec.toNat_or, pSmall, qSmall]

theorem maxAndLoop_toNat (lmin rmin rmax : Nat) (lmax : BitVec 64) :
    (BitVec.ofNat 64 (maxAndLoop 64 lmin lmax.toNat rmin rmax 0)).toNat =
      maxAndLoop 64 lmin lmax.toNat rmin rmax 0 := by
  have bound := (maxAndLoop_le 64 lmin lmax.toNat rmin rmax 0 (dvd_zero _)).2.1
  have small := Nat.mod_lt lmax.toNat (Nat.two_pow_pos 64)
  rw [BitVec.toNat_ofNat, Nat.mod_eq_of_lt (by omega)]

/-- The largest and is at least the and of values between the ends. -/
theorem le_maxAnd {l r : IntRange} {p q : BitVec 64} (pBetween : l.Between p)
    (qBetween : r.Between q) : (p &&& q).toNat ≤ (maxAnd l r).value.toNat := by
  show _ ≤ (BitVec.ofNat 64 _).toNat
  rw [maxAndLoop_toNat, BitVec.toNat_and]
  have bound := le_maxAndLoop 64 l.imin.value.toNat l.imax.value.toNat r.imin.value.toNat
    r.imax.value.toNat 0 p.toNat q.toNat (dvd_zero _)
  rw [Nat.mod_eq_of_lt (BitVec.isLt _), Nat.mod_eq_of_lt (BitVec.isLt _),
    Nat.mod_eq_of_lt (BitVec.isLt _), Nat.mod_eq_of_lt (BitVec.isLt _), Nat.zero_add] at bound
  exact bound pBetween.1 pBetween.2 qBetween.1 qBetween.2

/-- The largest and is at most either upper end. -/
theorem maxAnd_le (l r : IntRange) :
    (maxAnd l r).value.toNat ≤ l.imax.value.toNat ∧
      (maxAnd l r).value.toNat ≤ r.imax.value.toNat := by
  have bounds := (maxAndLoop_le 64 l.imin.value.toNat l.imax.value.toNat r.imin.value.toNat
    r.imax.value.toNat 0 (dvd_zero _)).2
  rw [Nat.mod_eq_of_lt (BitVec.isLt _), Nat.mod_eq_of_lt (BitVec.isLt _), Nat.zero_add,
    Nat.zero_add] at bounds
  show (BitVec.ofNat 64 _).toNat ≤ _ ∧ (BitVec.ofNat 64 _).toNat ≤ _
  rw [maxAndLoop_toNat]
  exact bounds

/-- The smallest and is at most the and of values between the ends. -/
theorem minAnd_le {l r : IntRange} {p q : BitVec 64} (pBetween : l.Between p)
    (qBetween : r.Between q) : (minAnd l r).value.toNat ≤ (p &&& q).toNat := by
  unfold minAnd
  have bound := le_maxOr pBetween.complement qBetween.complement
  rw [← BitVec.not_and, not_toNat] at bound
  rw [complement_value, not_toNat]
  have := (p &&& q).isLt
  omega

/-- The smallest or is at most the or of values between the ends. -/
theorem minOr_le {l r : IntRange} {p q : BitVec 64} (pBetween : l.Between p)
    (qBetween : r.Between q) : (minOr l r).value.toNat ≤ (p ||| q).toNat := by
  unfold minOr
  have bound := le_maxAnd pBetween.complement qBetween.complement
  rw [← BitVec.not_or, not_toNat] at bound
  rw [complement_value, not_toNat]
  have := (p ||| q).isLt
  omega

/-! ### Signs -/

/-- Bitwise and of two numbers, signs included. -/
def bitAnd (first second : SignExtendedNumber) : SignExtendedNumber :=
  { value := first.value &&& second.value, negative := first.negative && second.negative }

/-- Bitwise or of two numbers, signs included. -/
def bitOr (first second : SignExtendedNumber) : SignExtendedNumber :=
  { value := first.value ||| second.value, negative := first.negative || second.negative }

/-- A number in a range whose ends have one sign has that sign, and its value is between
theirs. -/
theorem Contains.between {range : IntRange} {number : SignExtendedNumber}
    (inside : range.Contains number.toInt) (plain : range.spans = false) :
    range.Between number.value ∧ range.imin.negative = number.negative ∧
      range.imax.negative = number.negative := by
  obtain ⟨lower, upper⟩ := inside
  rcases range with ⟨⟨lowValue, lowSign⟩, ⟨highValue, highSign⟩⟩
  rcases number with ⟨value, sign⟩
  have lowSmall := lowValue.isLt
  have highSmall := highValue.isLt
  have small := value.isLt
  unfold Between
  unfold spans at plain
  dsimp only at plain lower upper ⊢
  cases lowSign <;> cases highSign <;> cases sign <;>
    simp only [toInt_positive, toInt_negative] at lower upper <;>
    first
    | exact absurd plain (by decide)
    | (refine ⟨⟨?_, ?_⟩, rfl, rfl⟩ <;> omega)
    | (exfalso; omega)

/-- A number in a range whose ends have different signs is between the end of its own sign
and zero. -/
theorem Contains.spanning {range : IntRange} {number : SignExtendedNumber}
    (inside : range.Contains number.toInt) (spanning : range.spans = true) :
    range.imin.negative = true ∧ range.imax.negative = false ∧
      (number.negative = true → range.imin.value.toNat ≤ number.value.toNat) ∧
      (number.negative = false → number.value.toNat ≤ range.imax.value.toNat) := by
  obtain ⟨lower, upper⟩ := inside
  rcases range with ⟨⟨lowValue, lowSign⟩, ⟨highValue, highSign⟩⟩
  rcases number with ⟨value, sign⟩
  have lowSmall := lowValue.isLt
  have highSmall := highValue.isLt
  have small := value.isLt
  unfold spans at spanning
  dsimp only at spanning lower upper ⊢
  cases lowSign <;> cases highSign <;> cases sign <;>
    simp only [toInt_positive, toInt_negative] at lower upper <;>
    first
    | exact absurd spanning (by decide)
    | (exfalso; omega)
    | (refine ⟨rfl, rfl, fun sign => ?_, fun sign => ?_⟩ <;>
        first
        | omega
        | exact absurd sign (by decide))

/-- The complements of negative ends are nonnegative. -/
theorem complement_nonnegative {range : IntRange} (low : range.imin.negative = true)
    (top : range.imax.negative = true ∨ range.imax.value = BitVec.allOnes 64) :
    range.complement.imin.negative = false ∧ range.complement.imax.negative = false := by
  unfold IntRange.complement
  dsimp only
  rw [complement_negative, complement_negative, low]
  refine ⟨?_, rfl⟩
  rcases top with negative | ones
  · rw [negative]
    rfl
  · rw [ones, bne_self_eq_false, Bool.and_false]

/-- A value between the complements of the ends is the complement of one between the ends. -/
theorem Between.of_complement {range : IntRange} {value : BitVec 64}
    (between : range.complement.Between value) : range.Between (~~~value) := by
  obtain ⟨lower, upper⟩ := between
  have minSmall := range.imin.value.isLt
  have maxSmall := range.imax.value.isLt
  have small := value.isLt
  unfold IntRange.complement at lower upper
  dsimp only at lower upper
  rw [complement_value, not_toNat] at lower upper
  unfold Between
  rw [not_toNat]
  omega

/-- The smallest and of two negative ranges is negative when no two values between the ends
have disjoint bits. -/
theorem minAnd_negative {l r : IntRange} (lSign : l.imin.negative = true)
    (rSign : r.imin.negative = true)
    (lTop : l.imax.negative = true ∨ l.imax.value = BitVec.allOnes 64)
    (rTop : r.imax.negative = true ∨ r.imax.value = BitVec.allOnes 64)
    (lOrder : l.imin.value.toNat ≤ l.imax.value.toNat)
    (rOrder : r.imin.value.toNat ≤ r.imax.value.toNat)
    (meet : ∀ p q : BitVec 64, l.Between p → r.Between q → p &&& q ≠ 0) :
    (minAnd l r).negative = true := by
  obtain ⟨lMin, lMax⟩ := complement_nonnegative lSign lTop
  obtain ⟨rMin, rMax⟩ := complement_nonnegative rSign rTop
  have order {range : IntRange} (le : range.imin.value.toNat ≤ range.imax.value.toNat) :
      range.complement.imin.value.toNat ≤ range.complement.imax.value.toNat := by
    unfold IntRange.complement
    dsimp only
    rw [complement_value, complement_value, not_toNat, not_toNat]
    omega
  obtain ⟨p, q, pBetween, qBetween, attained⟩ := exists_maxOr (order lOrder) (order rOrder) lMax
    rMax (by rw [lMin, rMin]; rfl)
  unfold minAnd
  rw [complement_negative, maxOr_negative, lMin, rMin, lMax, rMax]
  refine Bool.and_eq_true_iff.mpr ⟨rfl, bne_iff_ne.mpr fun ones => ?_⟩
  refine meet _ _ pBetween.of_complement qBetween.of_complement ?_
  rw [← BitVec.not_or, ← attained, ones]
  decide

/-- The smallest or is negative when one of the lower ends is, and not both have the value
zero. -/
theorem minOr_negative {l r : IntRange} (sign : l.imin.negative = true ∨ r.imin.negative = true)
    (nonzero : l.imin.value ≠ 0 ∨ r.imin.value ≠ 0) : (minOr l r).negative = true := by
  have bound := maxAnd_le l.complement r.complement
  have small {number : SignExtendedNumber} (nonzero : number.value ≠ 0) :
      number.complement.value.toNat < 2 ^ 64 - 1 := by
    rw [complement_value, not_toNat]
    have positive : number.value.toNat ≠ 0 := fun zero => nonzero (BitVec.eq_of_toNat_eq zero)
    have := number.value.isLt
    omega
  have positive : (maxAnd l.complement r.complement).negative = false := by
    show (l.imin.complement.negative && r.imin.complement.negative) = false
    rw [complement_negative, complement_negative]
    rcases sign with negative | negative
    · rw [negative]
      rfl
    · rw [negative]
      exact Bool.and_false _
  unfold minOr
  rw [complement_negative, positive]
  refine Bool.and_eq_true_iff.mpr ⟨rfl, bne_iff_ne.mpr fun ones => ?_⟩
  rw [ones, allOnes_toNat] at bound
  rcases nonzero with nonzero | nonzero
  · exact absurd bound.1 (Nat.not_le_of_lt (small nonzero))
  · exact absurd bound.2 (Nat.not_le_of_lt (small nonzero))

/-! ### The operators -/

theorem smaller_le (first second : SignExtendedNumber) :
    (smaller first second).toInt ≤ first.toInt ∧ (smaller first second).toInt ≤ second.toInt := by
  unfold smaller
  by_cases less : first.lt second = true
  · rw [if_pos less]
    exact ⟨Int.le_refl _, Int.le_of_lt ((lt_iff first second).mp less)⟩
  · rw [if_neg less]
    rw [lt_iff] at less
    exact ⟨Int.not_lt.mp less, Int.le_refl _⟩

theorem le_larger (first second : SignExtendedNumber) :
    first.toInt ≤ (larger first second).toInt ∧ second.toInt ≤ (larger first second).toInt := by
  unfold larger
  by_cases less : second.lt first = true
  · rw [if_pos less]
    exact ⟨Int.le_refl _, Int.le_of_lt ((lt_iff second first).mp less)⟩
  · rw [if_neg less]
    rw [lt_iff] at less
    exact ⟨Int.not_lt.mp less, Int.le_refl _⟩

/-- The and of numbers whose values are between the ends. -/
theorem minAnd_maxAnd_bounds {l r : IntRange} {p q : SignExtendedNumber}
    (pBetween : l.Between p.value) (qBetween : r.Between q.value)
    (low : p.negative = true → q.negative = true → (minAnd l r).negative = true)
    (high : l.imax.negative = true → r.imax.negative = true →
      p.negative = true ∧ q.negative = true) :
    (minAnd l r).toInt ≤ (bitAnd p q).toInt ∧ (bitAnd p q).toInt ≤ (maxAnd l r).toInt := by
  constructor
  · refine toInt_le_of_value (minAnd_le pBetween qBetween) fun sign => ?_
    obtain ⟨pSign, qSign⟩ := Bool.and_eq_true_iff.mp sign
    exact low pSign qSign
  · refine toInt_le_of_value (le_maxAnd pBetween qBetween) fun sign => ?_
    obtain ⟨lSign, rSign⟩ := Bool.and_eq_true_iff.mp sign
    obtain ⟨pSign, qSign⟩ := high lSign rSign
    exact Bool.and_eq_true_iff.mpr ⟨pSign, qSign⟩

/-- The or of numbers whose values are between the ends. -/
theorem minOr_maxOr_bounds {l r : IntRange} {p q : SignExtendedNumber}
    (pBetween : l.Between p.value) (qBetween : r.Between q.value)
    (low : (p.negative || q.negative) = true → (minOr l r).negative = true)
    (high : (maxOr l r).negative = true → (p.negative || q.negative) = true) :
    (minOr l r).toInt ≤ (bitOr p q).toInt ∧ (bitOr p q).toInt ≤ (maxOr l r).toInt :=
  ⟨toInt_le_of_value (minOr_le pBetween qBetween) low,
    toInt_le_of_value (le_maxOr pBetween qBetween) high⟩

theorem bitAnd_comm (p q : SignExtendedNumber) : bitAnd p q = bitAnd q p := by
  unfold bitAnd
  rw [BitVec.and_comm, Bool.and_comm]

theorem bitOr_comm (p q : SignExtendedNumber) : bitOr p q = bitOr q p := by
  unfold bitOr
  rw [BitVec.or_comm, Bool.or_comm]

/-- `&` of a range of one sign with a range that spans zero. -/
theorem andOneSpans_contains {l r : IntRange} {p q : SignExtendedNumber}
    (pBetween : l.Between p.value) (lMin : l.imin.negative = p.negative)
    (lMax : l.imax.negative = p.negative)
    (meet : p.negative = true → r.imin.negative = true ∧ ∀ s t : BitVec 64, l.Between s →
      r.imin.value.toNat ≤ t.toNat → s &&& t ≠ 0)
    (part : r.imin.value.toNat ≤ q.value.toNat ∨
      q.negative = false ∧ q.value.toNat ≤ r.imax.value.toNat ∧ r.imax.negative = false) :
    (andOneSpans l r).Contains (bitAnd p q).toInt := by
  have mins := smaller_le (minAnd l r.negativePart) (minAnd l r.nonnegativePart)
  have maxs := le_larger (maxAnd l r.negativePart) (maxAnd l r.nonnegativePart)
  rcases part with below | ⟨qSign, above, rSign⟩
  · have top : q.value.toNat ≤ (BitVec.allOnes 64).toNat := by
      rw [allOnes_toNat]
      exact Nat.le_sub_one_of_lt q.value.isLt
    have bounds : (minAnd l r.negativePart).toInt ≤ (bitAnd p q).toInt ∧
        (bitAnd p q).toInt ≤ (maxAnd l r.negativePart).toInt := by
      refine minAnd_maxAnd_bounds pBetween ⟨below, top⟩ ?_ fun _ sign => ?_
      · intro pSign _
        obtain ⟨rMin, apart⟩ := meet pSign
        exact minAnd_negative (lMin.trans pSign) rMin (Or.inl (lMax.trans pSign)) (Or.inr rfl)
          (Nat.le_trans pBetween.1 pBetween.2) (Nat.le_trans below top)
          fun s t sBetween tBetween => apart s t sBetween tBetween.1
      · exact absurd sign Bool.false_ne_true
    exact ⟨Int.le_trans mins.1 bounds.1, Int.le_trans bounds.2 maxs.1⟩
  · have bounds : (minAnd l r.nonnegativePart).toInt ≤ (bitAnd p q).toInt ∧
        (bitAnd p q).toInt ≤ (maxAnd l r.nonnegativePart).toInt := by
      refine minAnd_maxAnd_bounds pBetween ⟨Nat.zero_le _, above⟩ ?_ fun _ sign => ?_
      · intro _ sign
        rw [qSign] at sign
        exact absurd sign Bool.false_ne_true
      · rw [show r.nonnegativePart.imax.negative = false from rSign] at sign
        exact absurd sign Bool.false_ne_true
    exact ⟨Int.le_trans mins.2 bounds.1, Int.le_trans bounds.2 maxs.2⟩

/-- Two negative numbers of 64 signed bits have the top bit in common. -/
theorem meet_of_top {l r : IntRange} (low : l.imin.negative = true → r.imin.negative = true →
      2 ^ 63 ≤ l.imin.value.toNat ∧ 2 ^ 63 ≤ r.imin.value.toNat)
    (s t : SignExtendedNumber) (sInside : l.Contains s.toInt) (tInside : r.Contains t.toInt)
    (sSign : s.negative = true) (tSign : t.negative = true) : s.value &&& t.value ≠ 0 := by
  have lower {range : IntRange} {number : SignExtendedNumber}
      (inside : range.Contains number.toInt) (sign : number.negative = true) :
      range.imin.negative = true ∧ range.imin.value.toNat ≤ number.value.toNat := by
    cases spans : range.spans with
    | false =>
      obtain ⟨between, low, -⟩ := inside.between spans
      exact ⟨low.trans sign, between.1⟩
    | true =>
      obtain ⟨low, -, below, -⟩ := inside.spanning spans
      exact ⟨low, below sign⟩
  obtain ⟨lSign, sLower⟩ := lower sInside sSign
  obtain ⟨rSign, tLower⟩ := lower tInside tSign
  obtain ⟨lLow, rLow⟩ := low lSign rSign
  intro zero
  have top {value : BitVec 64} (large : 2 ^ 63 ≤ value.toNat) : value.getLsbD 63 = true := by
    rw [← BitVec.testBit_toNat]
    exact Nat.testBit_of_two_pow_le_and_two_pow_add_one_gt large value.isLt
  have bit : (s.value &&& t.value).getLsbD 63 = true := by
    rw [BitVec.getLsbD_and, top (lLow.trans sLower), top (rLow.trans tLower)]
    rfl
  rw [zero] at bit
  exact absurd bit (by decide)

/-- A value between the ends of a negative range is that of a number in it. -/
theorem contains_of_between {range : IntRange} {value : BitVec 64} {sign : Bool}
    (between : range.Between value) (low : range.imin.negative = sign)
    (high : range.imax.negative = sign) :
    range.Contains (SignExtendedNumber.toInt { value := value, negative := sign }) :=
  ⟨toInt_le_of_value between.1 fun negative => low.trans negative,
    toInt_le_of_value between.2 fun negative => high.symm.trans negative⟩

/-- A value above that of the lower end of a range that spans zero is that of a negative number
in it. -/
theorem contains_of_le {range : IntRange} {value : BitVec 64}
    (lower : range.imin.value.toNat ≤ value.toNat) (low : range.imin.negative = true)
    (high : range.imax.negative = false) :
    range.Contains (SignExtendedNumber.toInt { value := value, negative := true }) := by
  have below := (negative_iff { value := value, negative := true }).mp rfl
  have above : ¬ range.imax.toInt < 0 := by
    rw [← negative_iff, high]
    exact Bool.false_ne_true
  exact ⟨toInt_le_of_value lower fun _ => low, by omega⟩

/-- `&` is sound where no two negative numbers of the ranges have disjoint bits. -/
theorem and_contains {l r : IntRange} {p q : SignExtendedNumber} (pInside : l.Contains p.toInt)
    (qInside : r.Contains q.toInt)
    (meet : ∀ s t : SignExtendedNumber, l.Contains s.toInt → r.Contains t.toInt →
      s.negative = true → t.negative = true → s.value &&& t.value ≠ 0) :
    (l.and r).Contains (bitAnd p q).toInt := by
  unfold IntRange.and
  cases lSpans : l.spans with
  | false =>
    obtain ⟨pBetween, lMin, lMax⟩ := pInside.between lSpans
    cases rSpans : r.spans with
    | false =>
      obtain ⟨qBetween, rMin, rMax⟩ := qInside.between rSpans
      refine minAnd_maxAnd_bounds pBetween qBetween ?_ ?_
      · intro pSign qSign
        exact minAnd_negative (lMin.trans pSign) (rMin.trans qSign) (Or.inl (lMax.trans pSign))
          (Or.inl (rMax.trans qSign)) (Nat.le_trans pBetween.1 pBetween.2)
          (Nat.le_trans qBetween.1 qBetween.2) fun s t sBetween tBetween =>
            meet _ _ (contains_of_between sBetween (lMin.trans pSign) (lMax.trans pSign))
              (contains_of_between tBetween (rMin.trans qSign) (rMax.trans qSign)) rfl rfl
      · intro lSign rSign
        exact ⟨lMax.symm.trans lSign, rMax.symm.trans rSign⟩
    | true =>
      obtain ⟨rMin, rMax, below, above⟩ := qInside.spanning rSpans
      refine andOneSpans_contains pBetween lMin lMax (fun pSign => ⟨rMin, ?_⟩) ?_
      · intro s t sBetween tLower
        exact meet _ _ (contains_of_between sBetween (lMin.trans pSign) (lMax.trans pSign))
          (contains_of_le tLower rMin rMax) rfl rfl
      · cases qSign : q.negative with
        | true => exact Or.inl (below qSign)
        | false => exact Or.inr ⟨rfl, above qSign, rMax⟩
  | true =>
    obtain ⟨lMin, lMax, pBelow, pAbove⟩ := pInside.spanning lSpans
    cases rSpans : r.spans with
    | false =>
      obtain ⟨qBetween, rMin, rMax⟩ := qInside.between rSpans
      rw [bitAnd_comm]
      refine andOneSpans_contains qBetween rMin rMax (fun qSign => ⟨lMin, ?_⟩) ?_
      · intro s t sBetween tLower
        rw [BitVec.and_comm]
        exact meet _ _ (contains_of_le tLower lMin lMax)
          (contains_of_between sBetween (rMin.trans qSign) (rMax.trans qSign)) rfl rfl
      · cases pSign : p.negative with
        | true => exact Or.inl (pBelow pSign)
        | false => exact Or.inr ⟨rfl, pAbove pSign, lMax⟩
    | true =>
      obtain ⟨rMin, rMax, qBelow, qAbove⟩ := qInside.spanning rSpans
      have top : ∀ value : BitVec 64, value.toNat ≤ (BitVec.allOnes 64).toNat := by
        intro value
        rw [allOnes_toNat]
        exact Nat.le_sub_one_of_lt value.isLt
      constructor
      · have negative := minAnd_negative
          (l := { l with imax := { value := BitVec.allOnes 64, negative := true } })
          (r := { r with imax := { value := BitVec.allOnes 64, negative := true } })
          lMin rMin (Or.inl rfl) (Or.inl rfl) (top _) (top _) fun s t sBetween tBetween =>
            meet _ _ (contains_of_le sBetween.1 lMin lMax) (contains_of_le tBetween.1 rMin rMax)
              rfl rfl
        show (minAnd _ _).toInt ≤ _
        cases sign : (bitAnd p q).negative with
        | true =>
          obtain ⟨pSign, qSign⟩ := Bool.and_eq_true_iff.mp sign
          exact toInt_le_of_value (minAnd_le ⟨pBelow pSign, top _⟩ ⟨qBelow qSign, top _⟩)
            fun _ => negative
        | false =>
          have below := (negative_iff _).mp negative
          have above : ¬ (bitAnd p q).toInt < 0 := by
            rw [← negative_iff, sign]
            exact Bool.false_ne_true
          omega
      · show _ ≤ SignExtendedNumber.toInt (if r.imax.value < l.imax.value then l.imax else r.imax)
        have larger : l.imax.value.toNat ≤
              (if r.imax.value < l.imax.value then l.imax else r.imax).value.toNat ∧
            r.imax.value.toNat ≤
              (if r.imax.value < l.imax.value then l.imax else r.imax).value.toNat ∧
            (if r.imax.value < l.imax.value then l.imax else r.imax).negative = false := by
          by_cases less : r.imax.value < l.imax.value
          · rw [if_pos less]
            exact ⟨Nat.le_refl _, Nat.le_of_lt (BitVec.lt_def.mp less), lMax⟩
          · rw [if_neg less]
            exact ⟨Nat.le_of_not_lt fun lt => less (BitVec.lt_def.mpr lt), Nat.le_refl _, rMax⟩
        cases pSign : p.negative with
        | false =>
          refine toInt_le_of_value ?_ fun sign => ?_
          · refine Nat.le_trans ?_ (Nat.le_trans (pAbove pSign) larger.1)
            show (p.value &&& q.value).toNat ≤ _
            rw [BitVec.toNat_and]
            exact Nat.and_le_left
          · rw [larger.2.2] at sign
            exact absurd sign Bool.false_ne_true
        | true =>
          cases qSign : q.negative with
          | false =>
            refine toInt_le_of_value ?_ fun sign => ?_
            · refine Nat.le_trans ?_ (Nat.le_trans (qAbove qSign) larger.2.1)
              show (p.value &&& q.value).toNat ≤ _
              rw [BitVec.toNat_and]
              exact Nat.and_le_right
            · rw [larger.2.2] at sign
              exact absurd sign Bool.false_ne_true
          | true =>
            have below := (negative_iff (bitAnd p q)).mp (Bool.and_eq_true_iff.mpr ⟨pSign, qSign⟩)
            have above : ¬ (if r.imax.value < l.imax.value then l.imax else r.imax).toInt < 0 := by
              rw [← negative_iff, larger.2.2]
              exact Bool.false_ne_true
            omega

/-- `&` of a nonnegative range with any range that has the value between its ends, whatever
its signs. -/
theorem and_contains_of_nonnegative {l r : IntRange} {p q : SignExtendedNumber}
    (pInside : l.Contains p.toInt) (nonnegative : l.imin.negative = false)
    (qBetween : r.Between q.value) :
    (l.and r).Contains (bitAnd p q).toInt ∧ (r.and l).Contains (bitAnd p q).toInt := by
  have lSpans : l.spans = false := by
    cases spans : l.spans with
    | false => rfl
    | true =>
      have sign := (pInside.spanning spans).1
      rw [nonnegative] at sign
      exact absurd sign Bool.false_ne_true
  obtain ⟨pBetween, lMin, lMax⟩ := pInside.between lSpans
  have pSign : p.negative = false := lMin.symm.trans nonnegative
  have pNot : p.negative ≠ true := by
    rw [pSign]
    exact Bool.false_ne_true
  have lNot : l.imax.negative ≠ true := by
    rw [lMax]
    exact pNot
  have spanning : (andOneSpans l r).Contains (bitAnd p q).toInt :=
    andOneSpans_contains pBetween lMin lMax (fun sign => absurd sign pNot) (Or.inl qBetween.1)
  unfold IntRange.and
  rw [lSpans]
  cases rSpans : r.spans with
  | false =>
    refine ⟨?_, ?_⟩
    · exact minAnd_maxAnd_bounds pBetween qBetween (fun sign => absurd sign pNot)
        fun sign => absurd sign lNot
    · rw [bitAnd_comm]
      exact minAnd_maxAnd_bounds qBetween pBetween (fun _ sign => absurd sign pNot)
        fun _ sign => absurd sign lNot
  | true => exact ⟨spanning, spanning⟩

/-- A lower end that is not the smallest number. -/
def Bounded (range : IntRange) : Prop := range.imin.negative = true → range.imin.value ≠ 0

theorem complement_bounded {number : SignExtendedNumber}
    (sign : number.complement.negative = true) : number.complement.value ≠ 0 := by
  rw [complement_negative] at sign
  rw [complement_value]
  intro zero
  refine bne_iff_ne.mp (Bool.and_eq_true_iff.mp sign).2 ?_
  rw [← BitVec.not_not (b := number.value), zero]
  rfl

/-- `&` never returns the smallest number as a lower end. -/
theorem and_bounded (l r : IntRange) : (l.and r).Bounded := by
  have smallerBounded : ∀ (first second : SignExtendedNumber),
      (smaller first.complement second.complement).negative = true →
        (smaller first.complement second.complement).value ≠ 0 := by
    intro first second
    unfold smaller
    split_ifs
    · exact complement_bounded
    · exact complement_bounded
  unfold Bounded IntRange.and
  split_ifs
  · exact complement_bounded
  · exact complement_bounded
  · exact complement_bounded
  · exact smallerBounded _ _
  · exact smallerBounded _ _

/-- The lower end of a range that holds a number is in it. -/
theorem Contains.imin {range : IntRange} {x : Int} (inside : range.Contains x) :
    range.Contains range.imin.toInt := ⟨Int.le_refl _, Int.le_trans inside.1 inside.2⟩

/-- Two numbers whose values are zero, one of them negative. -/
theorem bitOr_eq_min {s t : SignExtendedNumber} (sZero : s.value = 0) (tZero : t.value = 0)
    (sign : (s.negative || t.negative) = true) : bitOr s t = SignExtendedNumber.min := by
  unfold bitOr SignExtendedNumber.min
  rw [sZero, tZero, sign]
  rfl

/-- The or of two numbers in the ranges is never the smallest number. -/
def OrAboveMin (l r : IntRange) : Prop :=
  ∀ s t : SignExtendedNumber, l.Contains s.toInt → r.Contains t.toInt →
    bitOr s t ≠ SignExtendedNumber.min

theorem OrAboveMin.symm {l r : IntRange} (above : OrAboveMin l r) : OrAboveMin r l := by
  intro s t sInside tInside
  rw [bitOr_comm]
  exact above t s tInside sInside

/-- Where the or is never the smallest number, not both lower ends have the value zero and one
of them is negative. -/
theorem OrAboveMin.nonzero {l r : IntRange} (above : OrAboveMin l r) {x y : Int}
    (xInside : l.Contains x) (yInside : r.Contains y)
    (sign : (l.imin.negative || r.imin.negative) = true) :
    l.imin.value ≠ 0 ∨ r.imin.value ≠ 0 := by
  by_contra! zero
  exact above _ _ xInside.imin yInside.imin (bitOr_eq_min zero.1 zero.2 sign)

/-- `|` of a range of one sign with a range that spans zero. -/
theorem orOneSpans_contains {l r : IntRange} {p q : SignExtendedNumber}
    (pInside : l.Contains p.toInt) (qInside : r.Contains q.toInt) (lSpans : l.spans = false)
    (rSpans : r.spans = true) (aboveMin : OrAboveMin l r) :
    (orOneSpans l r).Contains (bitOr p q).toInt := by
  obtain ⟨pBetween, lMin, lMax⟩ := pInside.between lSpans
  obtain ⟨rMin, rMax, below, above⟩ := qInside.spanning rSpans
  have mins := smaller_le (minOr l r.negativePart) (minOr l r.nonnegativePart)
  have maxs := le_larger (maxOr l r.negativePart) (maxOr l r.nonnegativePart)
  cases qSign : q.negative with
  | true =>
    have top : q.value.toNat ≤ (BitVec.allOnes 64).toNat := by
      rw [allOnes_toNat]
      exact Nat.le_sub_one_of_lt q.value.isLt
    have sign : (p.negative || q.negative) = true := by
      rw [qSign]
      exact Bool.or_true _
    have bounds : (minOr l r.negativePart).toInt ≤ (bitOr p q).toInt ∧
        (bitOr p q).toInt ≤ (maxOr l r.negativePart).toInt :=
      minOr_maxOr_bounds pBetween ⟨below qSign, top⟩
        (fun _ => minOr_negative (Or.inr rMin) (aboveMin.nonzero pInside qInside (by
          rw [rMin]
          exact Bool.or_true _))) fun _ => sign
    exact ⟨Int.le_trans mins.1 bounds.1, Int.le_trans bounds.2 maxs.1⟩
  | false =>
    have bounds : (minOr l r.nonnegativePart).toInt ≤ (bitOr p q).toInt ∧
        (bitOr p q).toInt ≤ (maxOr l r.nonnegativePart).toInt := by
      refine minOr_maxOr_bounds pBetween ⟨Nat.zero_le _, above qSign⟩ ?_ ?_
      · intro sign
        rw [qSign, Bool.or_false] at sign
        have lSign := lMin.trans sign
        refine minOr_negative (Or.inl lSign) (Or.inl fun zero => ?_)
        refine aboveMin _ (ofValue 0) pInside.imin ?_ (bitOr_eq_min zero rfl ?_)
        · exact ⟨Int.le_trans (Int.le_of_lt ((negative_iff _).mp rMin)) (by decide), by
            have nonnegative : ¬ r.imax.toInt < 0 := by
              rw [← negative_iff, rMax]
              exact Bool.false_ne_true
            rw [toInt_ofValue]
            exact Int.not_lt.mp nonnegative⟩
        · rw [lSign]
          rfl
      · intro sign
        rw [maxOr_negative, show r.nonnegativePart.imax.negative = false from rMax,
          show r.nonnegativePart.imin.negative = false from rfl, Bool.and_false, Bool.or_false,
          Bool.bne_false, lMax] at sign
        rw [sign]
        rfl
    exact ⟨Int.le_trans mins.2 bounds.1, Int.le_trans bounds.2 maxs.2⟩

/-- `|` is sound where both ranges span zero, and where the or is never the smallest number. -/
theorem or_contains {l r : IntRange} {p q : SignExtendedNumber} (pInside : l.Contains p.toInt)
    (qInside : r.Contains q.toInt)
    (condition : l.spans = true ∧ r.spans = true ∨ OrAboveMin l r) :
    (l.or r).Contains (bitOr p q).toInt := by
  have aboveMin (plain : ¬ (l.spans = true ∧ r.spans = true)) := condition.resolve_left plain
  unfold IntRange.or
  cases lSpans : l.spans with
  | false =>
    rw [lSpans] at aboveMin
    have aboveMin := aboveMin fun both => Bool.false_ne_true both.1
    cases rSpans : r.spans with
    | false =>
      obtain ⟨pBetween, lMin, lMax⟩ := pInside.between lSpans
      obtain ⟨qBetween, rMin, rMax⟩ := qInside.between rSpans
      refine minOr_maxOr_bounds pBetween qBetween ?_ ?_
      · intro sign
        rw [← lMin, ← rMin] at sign
        exact minOr_negative (Bool.or_eq_true_iff.mp sign) (aboveMin.nonzero pInside qInside sign)
      · intro sign
        rw [maxOr_negative, lMin, lMax, rMin, rMax] at sign
        cases pSign : p.negative with
        | true => rfl
        | false =>
          rw [pSign] at sign
          cases qSign : q.negative with
          | true => rfl
          | false =>
            rw [qSign] at sign
            exact sign
    | true => exact orOneSpans_contains pInside qInside lSpans rSpans aboveMin
  | true =>
    cases rSpans : r.spans with
    | false =>
      rw [bitOr_comm]
      rw [rSpans] at aboveMin
      exact orOneSpans_contains qInside pInside rSpans lSpans
        (aboveMin fun both => Bool.false_ne_true both.2).symm
    | true =>
      obtain ⟨lMin, lMax, pBelow, pAbove⟩ := pInside.spanning lSpans
      obtain ⟨rMin, rMax, qBelow, qAbove⟩ := qInside.spanning rSpans
      constructor
      · show SignExtendedNumber.toInt (if l.imin.value < r.imin.value then l.imin else r.imin) ≤ _
        have smallest : (if l.imin.value < r.imin.value then l.imin else r.imin).value.toNat ≤
              l.imin.value.toNat ∧
            (if l.imin.value < r.imin.value then l.imin else r.imin).value.toNat ≤
              r.imin.value.toNat ∧
            (if l.imin.value < r.imin.value then l.imin else r.imin).negative = true := by
          by_cases less : l.imin.value < r.imin.value
          · rw [if_pos less]
            exact ⟨Nat.le_refl _, Nat.le_of_lt (BitVec.lt_def.mp less), lMin⟩
          · rw [if_neg less]
            exact ⟨Nat.le_of_not_lt fun lt => less (BitVec.lt_def.mpr lt), Nat.le_refl _, rMin⟩
        cases pSign : p.negative with
        | true =>
          refine toInt_le_of_value ?_ fun _ => smallest.2.2
          refine Nat.le_trans (Nat.le_trans smallest.1 (pBelow pSign)) ?_
          show _ ≤ (p.value ||| q.value).toNat
          rw [BitVec.toNat_or]
          exact Nat.left_le_or
        | false =>
          cases qSign : q.negative with
          | true =>
            refine toInt_le_of_value ?_ fun _ => smallest.2.2
            refine Nat.le_trans (Nat.le_trans smallest.2.1 (qBelow qSign)) ?_
            show _ ≤ (p.value ||| q.value).toNat
            rw [BitVec.toNat_or]
            exact Nat.right_le_or
          | false =>
            have below := (negative_iff _).mp smallest.2.2
            have above : ¬ (bitOr p q).toInt < 0 := by
              rw [← negative_iff, show (bitOr p q).negative = false by
                show (p.negative || q.negative) = false
                rw [pSign, qSign]
                rfl]
              exact Bool.false_ne_true
            omega
      · have positive : (maxOr l.nonnegativePart r.nonnegativePart).negative = false := by
          rw [maxOr_negative, show l.nonnegativePart.imax.negative = false from lMax,
            show r.nonnegativePart.imax.negative = false from rMax]
          rfl
        show _ ≤ (maxOr l.nonnegativePart r.nonnegativePart).toInt
        cases sign : (bitOr p q).negative with
        | true =>
          have below := (negative_iff (bitOr p q)).mp sign
          have above : ¬ (maxOr l.nonnegativePart r.nonnegativePart).toInt < 0 := by
            rw [← negative_iff, positive]
            exact Bool.false_ne_true
          omega
        | false =>
          obtain ⟨pSign, qSign⟩ := Bool.or_eq_false_iff.mp sign
          refine toInt_le_of_value (le_maxOr ⟨Nat.zero_le _, pAbove pSign⟩
            ⟨Nat.zero_le _, qAbove qSign⟩) fun negative => ?_
          rw [positive] at negative
          exact absurd negative Bool.false_ne_true

/-- Where neither lower end is the smallest number, no or is. -/
theorem Bounded.orAboveMin {l r : IntRange} (lBounded : l.Bounded) (rBounded : r.Bounded) :
    OrAboveMin l r := by
  have above {range : IntRange} (bounded : range.Bounded) {number : SignExtendedNumber}
      (inside : range.Contains number.toInt) (sign : number.negative = true) : number.value ≠ 0 := by
    intro zero
    have lower := inside.1
    have least := toInt_bounds range.imin
    have smallest := (isMinimum_iff number).mp (by rw [isMinimum, sign, zero]; rfl)
    have minimum := (isMinimum_iff range.imin).mpr (by omega)
    obtain ⟨minSign, minZero⟩ := Bool.and_eq_true_iff.mp minimum
    exact bounded minSign (beq_iff_eq.mp minZero)
  intro s t sInside tInside same
  have value : s.value ||| t.value = 0 := congrArg SignExtendedNumber.value same
  have sign : (s.negative || t.negative) = true := congrArg SignExtendedNumber.negative same
  obtain ⟨sZero, tZero⟩ := BitVec.or_eq_zero_iff.mp value
  rcases Bool.or_eq_true_iff.mp sign with sSign | tSign
  · exact above lBounded sInside sSign sZero
  · exact above rBounded tInside tSign tZero

/-- Bitwise exclusive or of two numbers, signs included. -/
def bitXor (first second : SignExtendedNumber) : SignExtendedNumber :=
  { value := first.value ^^^ second.value, negative := first.negative != second.negative }

/-- All bits of a number flipped, the sign included. -/
def flip (number : SignExtendedNumber) : SignExtendedNumber :=
  { value := ~~~number.value, negative := !number.negative }

theorem bitXor_eq (p q : SignExtendedNumber) :
    bitXor p q = bitOr (bitAnd p (flip q)) (bitAnd (flip p) q) := by
  rcases p with ⟨p, pSign⟩
  rcases q with ⟨q, qSign⟩
  have values : p ^^^ q = (p &&& ~~~q) ||| (~~~p &&& q) := by
    ext index inside
    simp only [BitVec.getElem_xor, BitVec.getElem_or, BitVec.getElem_and, BitVec.getElem_not]
    cases p[index] <;> cases q[index] <;> rfl
  have signs : (pSign != qSign) = (pSign && !qSign || !pSign && qSign) := by
    cases pSign <;> cases qSign <;> rfl
  unfold bitXor bitOr bitAnd flip
  dsimp only
  rw [values, signs]

theorem flip_toInt (number : SignExtendedNumber) : (flip number).toInt = -number.toInt - 1 := by
  rcases number with ⟨value, sign⟩
  have small := value.isLt
  have flipped := not_toNat value
  unfold flip
  cases sign <;> simp only [Bool.not_true, Bool.not_false, toInt_positive, toInt_negative] <;> omega

/-- `^` is sound on ranges of 64-bit signed numbers. -/
theorem xor_contains_signed {l r : IntRange} {p q : SignExtendedNumber}
    (pInside : l.Contains p.toInt) (qInside : r.Contains q.toInt) (lLow : -2 ^ 63 ≤ l.imin.toInt)
    (lHigh : l.imax.toInt < 2 ^ 63) (rLow : -2 ^ 63 ≤ r.imin.toInt)
    (rHigh : r.imax.toInt < 2 ^ 63) : (l.xor r).Contains (bitXor p q).toInt := by
  have plain : ∀ {number : SignExtendedNumber}, number.toInt < 2 ^ 63 →
      number.value ≠ BitVec.allOnes 64 ∨ number.negative = true := by
    intro number high
    by_contra! neither
    rcases number with ⟨value, sign⟩
    dsimp only at neither
    rw [neither.1, Bool.eq_false_of_not_eq_true neither.2, toInt_positive, allOnes_toNat] at high
    exact absurd high (by decide)
  have complemented : ∀ {range : IntRange} {number : SignExtendedNumber},
      range.Contains number.toInt → range.imax.toInt < 2 ^ 63 →
        range.complement.Contains (flip number).toInt ∧
          range.complement.imin.toInt = -range.imax.toInt - 1 := by
    intro range number inside high
    have low : range.imin.toInt < 2 ^ 63 :=
      Int.lt_of_le_of_lt (Int.le_trans inside.1 inside.2) high
    unfold Contains IntRange.complement
    dsimp only
    rw [complement_toInt (plain high), complement_toInt (plain low), flip_toInt]
    have := inside.1
    have := inside.2
    exact ⟨⟨by omega, by omega⟩, rfl⟩
  have large : ∀ {number : SignExtendedNumber}, -2 ^ 63 ≤ number.toInt → number.negative = true →
      2 ^ 63 ≤ number.value.toNat := by
    intro number low sign
    rcases number with ⟨value, negative⟩
    dsimp only at sign ⊢
    rw [sign, toInt_negative] at low
    omega
  obtain ⟨lFlipped, lEnd⟩ := complemented pInside lHigh
  obtain ⟨rFlipped, rEnd⟩ := complemented qInside rHigh
  rw [bitXor_eq]
  refine or_contains (and_contains pInside rFlipped (meet_of_top fun lSign rSign => ?_))
    (and_contains lFlipped qInside (meet_of_top fun lSign rSign => ?_))
    (Or.inr ((and_bounded _ _).orAboveMin (and_bounded _ _)))
  · exact ⟨large lLow lSign, large (by omega) rSign⟩
  · exact ⟨large (by omega) lSign, large rLow rSign⟩

/-- `^` is sound on nonnegative ranges. -/
theorem xor_contains_unsigned {l r : IntRange} {p q : SignExtendedNumber}
    (pInside : l.Contains p.toInt) (qInside : r.Contains q.toInt)
    (lSign : l.imin.negative = false) (rSign : r.imin.negative = false) :
    (l.xor r).Contains (bitXor p q).toInt := by
  have between : ∀ {range : IntRange} {number : SignExtendedNumber},
      range.Contains number.toInt → range.imin.negative = false →
        range.Between number.value := by
    intro range number inside nonnegative
    refine (inside.between ?_).1
    cases spans : range.spans with
    | false => rfl
    | true =>
      have sign := (inside.spanning spans).1
      rw [nonnegative] at sign
      exact absurd sign Bool.false_ne_true
  rw [bitXor_eq, bitAnd_comm (flip p)]
  refine or_contains ?_ ?_ (Or.inr ((and_bounded _ _).orAboveMin (and_bounded _ _)))
  · exact (and_contains_of_nonnegative pInside lSign (q := flip q)
      (between qInside rSign).complement).1
  · exact (and_contains_of_nonnegative qInside rSign (q := flip p)
      (between pInside lSign).complement).2

end LaserD.Vrp.IntRange
