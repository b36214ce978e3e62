/-
This file settles when the bitwise operators of the ranges are sound.

The complement of the largest number is zero and not the smallest number, and the
operators are built on complements. `&` and `|` therefore never return the smallest
number as a lower end, and are sound exactly where no and, or no or, of elements is
that number; `|` of two ranges that span zero needs no complement and is always
sound. `^` is the or of two ands with a complement and inherits the condition of each,
with one pair of ranges on which two wrong signs meet.
-/

import Mathlib.Data.Int.Bitwise
import LaserD.Vrp.Bitwise

namespace LaserD.Vrp.IntRange

open SignExtendedNumber

/-! ### Numbers as integers in two's complement -/

theorem toInt_eq_smallest (number : SignExtendedNumber) :
    number.toInt = -2 ^ 64 ↔ number = SignExtendedNumber.min := by
  rw [← isMinimum_iff]
  rcases number with ⟨value, sign⟩
  unfold isMinimum SignExtendedNumber.min
  rw [Bool.and_eq_true_iff, beq_iff_eq, SignExtendedNumber.mk.injEq]
  exact and_comm

theorem toInt_eq_largest (number : SignExtendedNumber) :
    number.toInt = 2 ^ 64 - 1 ↔ number = SignExtendedNumber.max := by
  constructor
  · intro same
    rcases number with ⟨value, sign⟩
    have bound := value.isLt
    cases sign with
    | true =>
      rw [toInt_negative] at same
      omega
    | false =>
      rw [toInt_positive] at same
      have full : value = BitVec.allOnes 64 := BitVec.eq_of_toNat_eq (by
        rw [allOnes_toNat]
        omega)
      rw [full]
      rfl
  · rintro rfl
    decide

/-- Every integer of a range is a number. -/
theorem Contains.exists_number {range : IntRange} {x : Int} (inside : range.Contains x) :
    ∃ number : SignExtendedNumber, number.toInt = x := by
  have low := (toInt_bounds range.imin).1.trans inside.1
  have high := inside.2.trans (toInt_bounds range.imax).2
  by_cases sign : x < 0
  · refine ⟨{ value := BitVec.ofNat 64 (x + 2 ^ 64).toNat, negative := true }, ?_⟩
    rw [toInt_negative, BitVec.toNat_ofNat, Nat.mod_eq_of_lt (by omega)]
    omega
  · refine ⟨{ value := BitVec.ofNat 64 x.toNat, negative := false }, ?_⟩
    rw [toInt_positive, BitVec.toNat_ofNat, Nat.mod_eq_of_lt (by omega)]
    omega

theorem toInt_negSucc (value : BitVec 64) :
    SignExtendedNumber.toInt { value := value, negative := true } =
      Int.negSucc (~~~value).toNat := by
  have bound := value.isLt
  rw [toInt_negative, not_toNat, Int.negSucc_eq]
  omega

theorem ldiff_not (p q : BitVec 64) : Nat.ldiff p.toNat (~~~q).toNat = (p &&& q).toNat := by
  refine Nat.eq_of_testBit_eq fun index => ?_
  rw [Nat.testBit_ldiff, BitVec.testBit_toNat, BitVec.testBit_toNat, BitVec.testBit_toNat,
    BitVec.getLsbD_not, BitVec.getLsbD_and]
  by_cases inside : index < 64
  · rw [decide_eq_true inside, Bool.true_and, Bool.not_not]
  · rw [BitVec.getLsbD_of_ge p index (Nat.le_of_not_lt inside), Bool.false_and, Bool.false_and]

theorem bitAnd_toInt (p q : SignExtendedNumber) :
    (bitAnd p q).toInt = Int.land p.toInt q.toInt := by
  rcases p with ⟨p, pSign⟩
  rcases q with ⟨q, qSign⟩
  unfold bitAnd
  dsimp only
  cases pSign with
  | true =>
    cases qSign with
    | true =>
      rw [Bool.and_self, toInt_negSucc, toInt_negSucc, toInt_negSucc, BitVec.not_and,
        BitVec.toNat_or]
      rfl
    | false =>
      rw [Bool.and_false, toInt_negSucc, toInt_positive, toInt_positive, BitVec.and_comm,
        ← ldiff_not]
      rfl
  | false =>
    cases qSign with
    | true =>
      rw [Bool.false_and, toInt_negSucc, toInt_positive, toInt_positive, ← ldiff_not]
      rfl
    | false =>
      rw [Bool.and_self, toInt_positive, toInt_positive, toInt_positive, BitVec.toNat_and]
      rfl

theorem bitOr_toInt (p q : SignExtendedNumber) :
    (bitOr p q).toInt = Int.lor p.toInt q.toInt := by
  have mixed (p q : BitVec 64) : (~~~(p ||| q)).toNat = Nat.ldiff (~~~p).toNat q.toNat := by
    rw [BitVec.not_or, ← ldiff_not, BitVec.not_not]
  rcases p with ⟨p, pSign⟩
  rcases q with ⟨q, qSign⟩
  unfold bitOr
  dsimp only
  cases pSign with
  | true =>
    cases qSign with
    | true =>
      rw [Bool.or_self, toInt_negSucc, toInt_negSucc, toInt_negSucc, BitVec.not_or,
        BitVec.toNat_and]
      rfl
    | false =>
      rw [Bool.or_false, toInt_negSucc, toInt_negSucc, toInt_positive, mixed]
      rfl
  | false =>
    cases qSign with
    | true =>
      rw [Bool.or_true, toInt_negSucc, toInt_negSucc, toInt_positive, BitVec.or_comm, mixed]
      rfl
    | false =>
      rw [Bool.or_self, toInt_positive, toInt_positive, toInt_positive, BitVec.toNat_or]
      rfl

theorem bitXor_toInt (p q : SignExtendedNumber) :
    (bitXor p q).toInt = Int.xor p.toInt q.toInt := by
  have not_not_xor (p q : BitVec 64) : ~~~p ^^^ ~~~q = p ^^^ q := by
    ext index inside
    simp
  rcases p with ⟨p, pSign⟩
  rcases q with ⟨q, qSign⟩
  unfold bitXor
  dsimp only
  cases pSign with
  | true =>
    cases qSign with
    | true =>
      rw [bne_self_eq_false, toInt_negSucc, toInt_negSucc, toInt_positive, ← not_not_xor,
        BitVec.toNat_xor]
      rfl
    | false =>
      rw [show (true != false) = true from rfl, toInt_negSucc, toInt_negSucc, toInt_positive,
        BitVec.not_xor_left, BitVec.toNat_xor]
      rfl
  | false =>
    cases qSign with
    | true =>
      rw [show (false != true) = true from rfl, toInt_negSucc, toInt_negSucc, toInt_positive,
        BitVec.not_xor_right, BitVec.toNat_xor]
      rfl
    | false =>
      rw [bne_self_eq_false, toInt_positive, toInt_positive, toInt_positive, BitVec.toNat_xor]
      rfl

theorem flip_toInt_lnot (number : SignExtendedNumber) :
    (flip number).toInt = Int.lnot number.toInt := by
  rw [flip_toInt]
  cases number.toInt with
  | ofNat n =>
    rw [Int.lnot, Int.negSucc_eq, Int.ofNat_eq_natCast]
    omega
  | negSucc n =>
    rw [Int.lnot, Int.negSucc_eq]
    omega

/-! ### `&` and `|` -/

/-- An operator of ranges holds every result of its elements. -/
def Sound (operator : IntRange → IntRange → IntRange) (exact : Int → Int → Int)
    (l r : IntRange) : Prop :=
  ∀ x y, l.Contains x → r.Contains y → (operator l r).Contains (exact x y)

/-- An operation on elements of the ranges never gives the smallest number. -/
def AboveSmallest (exact : Int → Int → Int) (l r : IntRange) : Prop :=
  ∀ x y, l.Contains x → r.Contains y → exact x y ≠ -2 ^ 64

/-- A range whose lower end is not the smallest number does not hold that number. -/
theorem Bounded.not_contains {range : IntRange} (bounded : range.Bounded) :
    ¬ range.Contains (-2 ^ 64) := by
  intro inside
  have least := toInt_bounds range.imin
  have same := (toInt_eq_smallest _).mp (Int.le_antisymm inside.1 least.1)
  unfold Bounded at bounded
  rw [same] at bounded
  exact bounded rfl rfl

/-- What is sound and never returns the smallest number as a lower end needs operands on which
the operation never gives it. -/
theorem Sound.aboveSmallest {operator : IntRange → IntRange → IntRange} {exact : Int → Int → Int}
    {l r : IntRange} (sound : Sound operator exact l r) (bounded : (operator l r).Bounded) :
    AboveSmallest exact l r := by
  intro x y xInside yInside same
  have inside := sound x y xInside yInside
  rw [same] at inside
  exact bounded.not_contains inside

/-- `&` is sound exactly where no and of elements is the smallest number. -/
theorem and_sound_iff (l r : IntRange) :
    Sound IntRange.and Int.land l r ↔ AboveSmallest Int.land l r := by
  constructor
  · exact fun sound => sound.aboveSmallest (and_bounded l r)
  · intro above x y xInside yInside
    obtain ⟨p, rfl⟩ := xInside.exists_number
    obtain ⟨q, rfl⟩ := yInside.exists_number
    rw [← bitAnd_toInt]
    refine and_contains xInside yInside fun s t sInside tInside sSign tSign disjoint => ?_
    refine above s.toInt t.toInt sInside tInside ?_
    rw [← bitAnd_toInt, toInt_eq_smallest]
    unfold bitAnd
    rw [disjoint, sSign, tSign]
    rfl

/-- `|` of ranges that do not both span zero never returns the smallest number as a lower end. -/
theorem or_bounded {l r : IntRange} (plain : ¬ (l.spans = true ∧ r.spans = true)) :
    (l.or r).Bounded := by
  have smallerBounded : ∀ (first second : SignExtendedNumber),
      (smaller first.complement second.complement).negative = true →
        (smaller first.complement second.complement).value ≠ 0 := by
    intro first second
    unfold smaller
    split_ifs
    · exact complement_bounded
    · exact complement_bounded
  unfold Bounded IntRange.or
  cases lSpans : l.spans with
  | false =>
    cases r.spans with
    | false => exact complement_bounded
    | true => exact smallerBounded _ _
  | true =>
    cases rSpans : r.spans with
    | false => exact smallerBounded _ _
    | true => exact absurd ⟨lSpans, rSpans⟩ plain

/-- `|` is sound exactly where both ranges span zero and where no or of elements is the smallest
number. -/
theorem or_sound_iff (l r : IntRange) :
    Sound IntRange.or Int.lor l r ↔
      l.spans = true ∧ r.spans = true ∨ AboveSmallest Int.lor l r := by
  constructor
  · intro sound
    by_cases spanning : l.spans = true ∧ r.spans = true
    · exact Or.inl spanning
    · exact Or.inr (sound.aboveSmallest (or_bounded spanning))
  · intro condition x y xInside yInside
    obtain ⟨p, rfl⟩ := xInside.exists_number
    obtain ⟨q, rfl⟩ := yInside.exists_number
    rw [← bitOr_toInt]
    refine or_contains xInside yInside (condition.imp_right fun above s t sInside tInside same => ?_)
    refine above s.toInt t.toInt sInside tInside ?_
    rw [← bitOr_toInt, toInt_eq_smallest]
    exact same

/-! ### The order of the operands -/

theorem maxOrLoop_comm (lmax rmax : Nat) :
    ∀ bits lmin rmin x, maxOrLoop lmax rmax bits lmin rmin x =
      maxOrLoop rmax lmax bits rmin lmin x := by
  intro bits
  induction bits with
  | zero =>
    intro lmin rmin x
    rfl
  | succ bits inductionHypothesis =>
    intro lmin rmin x
    unfold maxOrLoop
    cases lTop : lmax.testBit bits <;> cases rTop : rmax.testBit bits <;>
      simp [inductionHypothesis, and_comm]

theorem maxAndLoop_comm :
    ∀ bits lmin lmax rmin rmax x, maxAndLoop bits lmin lmax rmin rmax x =
      maxAndLoop bits rmin rmax lmin lmax x := by
  intro bits
  induction bits with
  | zero =>
    intro lmin lmax rmin rmax x
    rfl
  | succ bits inductionHypothesis =>
    intro lmin lmax rmin rmax x
    unfold maxAndLoop
    cases lTop : lmax.testBit bits <;> cases rTop : rmax.testBit bits <;>
      simp [inductionHypothesis]

/-- Where one upper end only is negative, the loop drops the lower ends for one order of the
operands only; elsewhere the order is immaterial. -/
theorem maxOr_comm {l r : IntRange} (same : l.imax.negative = r.imax.negative) :
    maxOr l r = maxOr r l := by
  unfold maxOr
  dsimp only
  rw [if_neg (not_not_intro same), if_neg (not_not_intro same.symm),
    maxOrLoop_comm l.imax.value.toNat, Bool.and_comm l.imin.negative, Bool.and_comm l.imax.negative]

theorem maxAnd_comm (l r : IntRange) : maxAnd l r = maxAnd r l := by
  unfold maxAnd
  rw [maxAndLoop_comm, Bool.and_comm]

theorem minAnd_comm {l r : IntRange}
    (same : l.complement.imax.negative = r.complement.imax.negative) :
    minAnd l r = minAnd r l := by
  unfold minAnd
  rw [maxOr_comm same]

/-! ### The branches of `&` and `|` -/

theorem and_of_plain {l r : IntRange} (lSpans : l.spans = false) (rSpans : r.spans = false) :
    l.and r = { imin := minAnd l r, imax := maxAnd l r } := by
  unfold IntRange.and
  rw [lSpans, rSpans]
  rfl

theorem and_of_left {l r : IntRange} (lSpans : l.spans = true) (rSpans : r.spans = false) :
    l.and r = andOneSpans r l := by
  unfold IntRange.and
  rw [lSpans, rSpans]
  rfl

theorem and_of_right {l r : IntRange} (lSpans : l.spans = false) (rSpans : r.spans = true) :
    l.and r = andOneSpans l r := by
  unfold IntRange.and
  rw [lSpans, rSpans]
  rfl

theorem or_of_left {l r : IntRange} (lSpans : l.spans = true) (rSpans : r.spans = false) :
    l.or r = orOneSpans r l := by
  unfold IntRange.or
  rw [lSpans, rSpans]
  rfl

theorem or_of_right {l r : IntRange} (lSpans : l.spans = false) (rSpans : r.spans = true) :
    l.or r = orOneSpans l r := by
  unfold IntRange.or
  rw [lSpans, rSpans]
  rfl

/-! ### `^` -/

/-- No negative number of the first range has all its bits in a nonnegative number of the second:
the difference of the bits is never the smallest number. -/
def Apart (l r : IntRange) : Prop :=
  ∀ s t : SignExtendedNumber, l.Contains s.toInt → r.Contains t.toInt → s.negative = true →
    t.negative = false → s.value &&& ~~~t.value ≠ 0

/-- A range that holds a number and does not span zero has ends of the number's sign. -/
theorem Contains.signs {range : IntRange} {number : SignExtendedNumber}
    (inside : range.Contains number.toInt) (plain : range.spans = false) :
    range.imin.negative = number.negative ∧ range.imax.negative = number.negative :=
  (inside.between plain).2

/-- The upper end of a range that holds a nonnegative number is nonnegative. -/
theorem Contains.imax_nonnegative {range : IntRange} {number : SignExtendedNumber}
    (inside : range.Contains number.toInt) (sign : number.negative = false) :
    range.imax.negative = false := by
  rw [Bool.eq_false_iff, Ne, negative_iff, Int.not_lt] at sign ⊢
  exact sign.trans inside.2

/-- The lower end of a range that holds a negative number is negative. -/
theorem Contains.imin_negative {range : IntRange} {number : SignExtendedNumber}
    (inside : range.Contains number.toInt) (sign : number.negative = true) :
    range.imin.negative = true := by
  rw [negative_iff] at sign ⊢
  exact Int.lt_of_le_of_lt inside.1 sign

/-- The smallest and of ranges is nonnegative where the complement of one has a negative upper
end. -/
theorem minAnd_nonnegative {l r : IntRange}
    (top : l.complement.imax.negative = true ∨ r.complement.imax.negative = true) :
    (minAnd l r).negative = false := by
  unfold minAnd
  rw [complement_negative]
  by_cases sign : (maxOr l.complement r.complement).negative = true
  · rw [sign]
    rfl
  · have full : maxOr l.complement r.complement = ofValue (BitVec.allOnes 64) := by
      rw [maxOr_negative, Bool.or_eq_true_iff, not_or, bne_iff_ne, not_not] at sign
      have both : l.complement.imax.negative = true ∧ r.complement.imax.negative = true :=
        top.elim (fun left => ⟨left, sign.1 ▸ left⟩) fun right => ⟨sign.1 ▸ right, right⟩
      unfold maxOr
      rw [if_neg (not_not_intro sign.1), if_neg sign.2, if_pos (Bool.and_eq_true_iff.mpr both)]
    rw [full]
    decide

/-- The complement of a number other than the largest has the other sign. -/
theorem complement_sign {number : SignExtendedNumber} (plain : number ≠ SignExtendedNumber.max) :
    number.complement.negative = !number.negative := by
  rw [complement_negative]
  cases sign : number.negative with
  | true => rfl
  | false =>
    refine Bool.and_eq_true_iff.mpr ⟨rfl, bne_iff_ne.mpr fun full => plain ?_⟩
    rcases number with ⟨value, negative⟩
    dsimp only at sign full
    rw [sign, full]
    rfl

theorem complement_eq_flip {number : SignExtendedNumber} (plain : number ≠ SignExtendedNumber.max) :
    number.complement.toInt = -number.toInt - 1 := by
  rw [← flip_toInt]
  refine congrArg toInt ?_
  rcases same : number.complement with ⟨value, sign⟩
  have values := complement_value number
  have signs := complement_sign plain
  rw [same] at values signs
  unfold flip
  rw [← values, ← signs]

/-- A range that starts at the largest number ends there. -/
theorem imin_ne_max {range : IntRange} (ordered : range.imin.toInt ≤ range.imax.toInt)
    (plain : range.imax ≠ SignExtendedNumber.max) : range.imin ≠ SignExtendedNumber.max := by
  intro same
  rw [same, show SignExtendedNumber.max.toInt = 2 ^ 64 - 1 by decide] at ordered
  exact plain ((toInt_eq_largest _).mp (Int.le_antisymm (toInt_bounds _).2 ordered))

/-- Below the largest number, complementing a range is flipping the bits of its elements. -/
theorem complement_contains_iff {range : IntRange} (ordered : range.imin.toInt ≤ range.imax.toInt)
    (plain : range.imax ≠ SignExtendedNumber.max) (number : SignExtendedNumber) :
    range.complement.Contains (flip number).toInt ↔ range.Contains number.toInt := by
  have low := imin_ne_max ordered plain
  unfold Contains IntRange.complement
  dsimp only
  rw [complement_eq_flip plain, complement_eq_flip low, flip_toInt]
  omega

theorem Contains.ordered {range : IntRange} {x : Int} (inside : range.Contains x) :
    range.imin.toInt ≤ range.imax.toInt := inside.1.trans inside.2

theorem flip_flip (number : SignExtendedNumber) : flip (flip number) = number := by
  unfold flip
  rw [BitVec.not_not, Bool.not_not]

/-- `&` with the complement of a range below the largest number. -/
theorem and_complement_contains {l r : IntRange} {p q : SignExtendedNumber}
    (pInside : l.Contains p.toInt) (qInside : r.Contains q.toInt)
    (plain : r.imax ≠ SignExtendedNumber.max) (apart : Apart l r) :
    (l.and r.complement).Contains (bitAnd p (flip q)).toInt ∧
      (r.complement.and l).Contains (bitAnd (flip q) p).toInt := by
  have flipped := (complement_contains_iff qInside.ordered plain q).mpr qInside
  have meet : ∀ s t : SignExtendedNumber, l.Contains s.toInt → r.complement.Contains t.toInt →
      s.negative = true → t.negative = true → s.value &&& t.value ≠ 0 := by
    intro s t sInside tInside sSign tSign
    rw [← flip_flip t, complement_contains_iff qInside.ordered plain] at tInside
    have different := apart s (flip t) sInside tInside sSign (by
      show (!t.negative) = false
      rw [tSign]
      rfl)
    rwa [show ~~~(flip t).value = t.value from BitVec.not_not] at different
  refine ⟨and_contains pInside flipped meet, and_contains flipped pInside ?_⟩
  intro t s tInside sInside tSign sSign
  rw [BitVec.and_comm]
  exact meet s t sInside tInside sSign tSign

/-- `^` is sound where neither upper end is the largest number and the differences are never the
smallest one. -/
theorem xor_contains_of_apart {l r : IntRange} {p q : SignExtendedNumber}
    (pInside : l.Contains p.toInt) (qInside : r.Contains q.toInt)
    (lPlain : l.imax ≠ SignExtendedNumber.max) (rPlain : r.imax ≠ SignExtendedNumber.max)
    (lApart : Apart l r) (rApart : Apart r l) : (l.xor r).Contains (bitXor p q).toInt := by
  rw [bitXor_eq]
  exact or_contains (and_complement_contains pInside qInside rPlain lApart).1
    (and_complement_contains qInside pInside lPlain rApart).2
    (Or.inr ((and_bounded _ _).orAboveMin (and_bounded _ _)))

/-- The largest or of ranges one of which ends at the word of all bits has all bits. -/
theorem maxOr_of_full {l r : IntRange} (lOrder : l.imin.value.toNat ≤ l.imax.value.toNat)
    (rOrder : r.imin.value.toNat ≤ r.imax.value.toNat) (full : r.imax.value = BitVec.allOnes 64) :
    (maxOr l r).value = BitVec.allOnes 64 := by
  have bound := le_maxOr (l := l) (r := r) (p := l.imax.value) (q := r.imax.value)
    ⟨lOrder, Nat.le_refl _⟩ ⟨rOrder, Nat.le_refl _⟩
  have small := (maxOr l r).value.isLt
  rw [full, BitVec.or_allOnes, allOnes_toNat] at bound
  refine BitVec.eq_of_toNat_eq ?_
  rw [allOnes_toNat]
  omega

/-- The ends of a range of numbers that are all nonnegative. -/
theorem spans_of_nonnegative {range : IntRange} (low : range.imin.negative = false)
    (high : range.imax.negative = false) : range.spans = false := by
  unfold spans
  rw [low, high]
  rfl

theorem Contains.nonnegative {range : IntRange} {x : Int} (inside : range.Contains x)
    (low : range.imin.negative = false) : range.imax.negative = false := by
  rw [Bool.eq_false_iff, Ne, negative_iff, Int.not_lt] at low ⊢
  exact low.trans inside.ordered

/-- The upper end of the or of a nonnegative range with one that spans zero is the largest
number. -/
theorem orOneSpans_imax {l r : IntRange} (lMin : l.imin.negative = false)
    (lMax : l.imax.negative = false) (lOrder : l.imin.value.toNat ≤ l.imax.value.toNat) :
    2 ^ 64 - 1 ≤ (orOneSpans l r).imax.toInt := by
  have top : r.imin.value.toNat ≤ (BitVec.allOnes 64).toNat := by
    rw [allOnes_toNat]
    exact Nat.le_sub_one_of_lt r.imin.value.isLt
  have full : maxOr l r.negativePart = SignExtendedNumber.max := by
    have value : (maxOr l r.negativePart).value = BitVec.allOnes 64 :=
      maxOr_of_full lOrder top rfl
    have sign := maxOr_negative l r.negativePart
    rw [lMin, lMax, show r.negativePart.imax.negative = false from rfl, Bool.false_and] at sign
    rcases same : maxOr l r.negativePart with ⟨bits, negative⟩
    rw [same] at value sign
    dsimp only at value sign
    rw [value, sign]
    rfl
  have bounds := le_larger (maxOr l r.negativePart) (maxOr l r.nonnegativePart)
  rw [full, show SignExtendedNumber.max.toInt = 2 ^ 64 - 1 by decide] at bounds
  rw [← full] at bounds
  exact bounds.1

/-- A nonnegative range below the largest number and a range that spans zero up to the largest
number, with no negative number of the second apart from the first. -/
structure TopPair (l r : IntRange) : Prop where
  ordered : l.imin.toInt ≤ l.imax.toInt
  low : l.imin.negative = false
  plain : l.imax ≠ SignExtendedNumber.max
  sign : r.imin.negative = true
  top : r.imax = SignExtendedNumber.max
  apart : Apart r l

namespace TopPair

variable {l r : IntRange} {p q : SignExtendedNumber}

theorem lower (pair : TopPair l r) : l.Contains l.imin.toInt := ⟨Int.le_refl _, pair.ordered⟩

theorem high (pair : TopPair l r) : l.imax.negative = false := pair.lower.nonnegative pair.low

theorem spans (pair : TopPair l r) : l.spans = false := spans_of_nonnegative pair.low pair.high

theorem positive (pair : TopPair l r) (inside : l.Contains p.toInt) : p.negative = false :=
  (inside.signs pair.spans).1.symm.trans pair.low

theorem least (pair : TopPair l r) : r.Contains r.imin.toInt := by
  refine ⟨Int.le_refl _, ?_⟩
  rw [pair.top]
  exact (toInt_bounds _).2

theorem greatest (pair : TopPair l r) : r.Contains r.imax.toInt :=
  ⟨pair.least.2, Int.le_refl _⟩

theorem lowPlain (pair : TopPair l r) : l.imin ≠ SignExtendedNumber.max :=
  imin_ne_max pair.ordered pair.plain

/-- The complement of the second range starts at zero: that of the largest number. -/
theorem complement_imin (pair : TopPair l r) : r.complement.imin = ofValue 0 := by
  show r.imax.complement = ofValue 0
  rw [pair.top]
  decide

theorem complement_imax (pair : TopPair l r) : r.complement.imax.negative = false := by
  show r.imin.complement.negative = false
  rw [complement_negative, pair.sign]
  rfl

theorem complement_spans (pair : TopPair l r) : r.complement.spans = false :=
  spans_of_nonnegative (by rw [pair.complement_imin]; rfl) pair.complement_imax

theorem and_complement (pair : TopPair l r) : l.and r.complement =
    { imin := minAnd l r.complement, imax := maxAnd l r.complement } :=
  and_of_plain pair.spans pair.complement_spans

/-- The and with the complement of the second range is nonnegative. -/
theorem and_complement_signs (pair : TopPair l r) :
    (l.and r.complement).imin.negative = false ∧ (l.and r.complement).imax.negative = false := by
  rw [pair.and_complement]
  constructor
  · refine minAnd_nonnegative (Or.inl ((complement_sign pair.lowPlain).trans ?_))
    rw [pair.low]
    rfl
  · show (l.imax.negative && _) = false
    rw [pair.high]
    rfl

theorem and_complement_plain (pair : TopPair l r) : (l.and r.complement).spans = false :=
  spans_of_nonnegative pair.and_complement_signs.1 pair.and_complement_signs.2

theorem complement_and_contains (pair : TopPair l r) (pInside : l.Contains p.toInt)
    (qInside : r.Contains q.toInt) :
    (l.complement.and r).Contains (bitAnd (flip p) q).toInt :=
  (and_complement_contains qInside pInside pair.plain pair.apart).2

/-- The and with the complement of the first range spans zero. -/
theorem complement_and_spans (pair : TopPair l r) : (l.complement.and r).spans = true := by
  have low := (pair.complement_and_contains pair.lower pair.least).imin_negative (by
    show (!l.imin.negative && r.imin.negative) = true
    rw [pair.low, pair.sign]
    rfl)
  have high := (pair.complement_and_contains pair.lower pair.greatest).imax_nonnegative (by
    show (!l.imin.negative && r.imax.negative) = false
    rw [pair.top]
    exact Bool.and_false _)
  unfold IntRange.spans
  rw [low, high]
  rfl

/-- `^` of the pair is an or one operand of which spans zero. -/
theorem xor_eq (pair : TopPair l r) :
    l.xor r = orOneSpans (l.and r.complement) (l.complement.and r) :=
  or_of_right pair.and_complement_plain pair.complement_and_spans

/-- The negative numbers of the second range have their complements in its complement. -/
theorem complement_contains (pair : TopPair l r) (qInside : r.Contains q.toInt)
    (qSign : q.negative = true) : r.complement.Contains (flip q).toInt := by
  have negative := (negative_iff q).mp qSign
  have low : r.imin.complement.toInt = -r.imin.toInt - 1 :=
    complement_toInt (Or.inr pair.sign)
  have order := qInside.1
  constructor
  · rw [pair.complement_imin, flip_toInt, toInt_ofValue]
    show (0 : Int) ≤ _
    omega
  · show _ ≤ r.imin.complement.toInt
    rw [low, flip_toInt]
    omega

theorem and_complement_contains (pair : TopPair l r) (pInside : l.Contains p.toInt)
    (qInside : r.Contains q.toInt) (qSign : q.negative = true) :
    (l.and r.complement).Contains (bitAnd p (flip q)).toInt := by
  refine and_contains pInside (pair.complement_contains qInside qSign) fun s _ sInside _ sSign => ?_
  rw [pair.positive sInside] at sSign
  exact absurd sSign Bool.false_ne_true

/-- `^` of the pair holds the results of negative numbers of the second range. -/
theorem xor_contains_negative (pair : TopPair l r) (pInside : l.Contains p.toInt)
    (qInside : r.Contains q.toInt) (qSign : q.negative = true) :
    (l.xor r).Contains (bitXor p q).toInt := by
  rw [bitXor_eq]
  exact or_contains (pair.and_complement_contains pInside qInside qSign)
    (pair.complement_and_contains pInside qInside)
    (Or.inr ((and_bounded _ _).orAboveMin (and_bounded _ _)))

/-- `^` of the pair is sound: its lower end is negative and its upper end the largest number. -/
theorem xor_contains (pair : TopPair l r) (pInside : l.Contains p.toInt)
    (qInside : r.Contains q.toInt) : (l.xor r).Contains (bitXor p q).toInt := by
  cases qSign : q.negative with
  | true => exact pair.xor_contains_negative pInside qInside qSign
  | false =>
    have lowest := pair.xor_contains_negative pInside pair.least pair.sign
    have negative := (negative_iff (bitXor p r.imin)).mp (by
      show (p.negative != r.imin.negative) = true
      rw [pair.positive pInside, pair.sign]
      rfl)
    have nonnegative : ¬ (bitXor p q).toInt < 0 := by
      rw [← negative_iff, show (bitXor p q).negative = (p.negative != q.negative) from rfl,
        pair.positive pInside, qSign]
      exact Bool.false_ne_true
    refine ⟨lowest.1.trans (by omega), ?_⟩
    obtain ⟨low, high⟩ := pair.and_complement_signs
    have between := ((pair.and_complement_contains pInside pair.least pair.sign).between
      (spans_of_nonnegative low high)).1
    rw [pair.xor_eq]
    exact (toInt_bounds _).2.trans (orOneSpans_imax low high (between.1.trans between.2))

/-- The order of the pair is immaterial. -/
theorem xor_comm (pair : TopPair l r) : r.xor l = l.xor r := by
  have rSpans : r.spans = true := by
    unfold IntRange.spans
    rw [pair.sign, pair.top]
    rfl
  have lcSpans : l.complement.spans = false := by
    show (l.imax.complement.negative != l.imin.complement.negative) = false
    rw [complement_sign pair.plain, complement_sign pair.lowPlain, pair.low, pair.high]
    rfl
  have first : r.and l.complement = l.complement.and r :=
    (and_of_left rSpans lcSpans).trans (and_of_right lcSpans rSpans).symm
  have second : r.complement.and l = l.and r.complement := by
    have ends : l.complement.imax.negative = r.complement.complement.imax.negative := by
      show l.imin.complement.negative = r.complement.imin.complement.negative
      rw [complement_sign pair.lowPlain, pair.low, pair.complement_imin]
      rfl
    rw [pair.and_complement, and_of_plain pair.complement_spans pair.spans, minAnd_comm ends,
      maxAnd_comm]
  show (r.and l.complement).or (r.complement.and l) = _
  rw [first, second, pair.xor_eq]
  exact or_of_left pair.complement_and_spans pair.and_complement_plain

end TopPair

theorem bitXor_comm (p q : SignExtendedNumber) : bitXor p q = bitXor q p := by
  unfold bitXor
  rw [BitVec.xor_comm, bne_comm]

/-- A range apart from one that reaches the largest number is nonnegative. -/
theorem Apart.nonnegative {l r : IntRange} (apart : Apart l r) {x y : Int} (xInside : l.Contains x)
    (yInside : r.Contains y) (top : r.imax = SignExtendedNumber.max) : l.imin.negative = false := by
  rw [Bool.eq_false_iff]
  intro sign
  refine apart l.imin r.imax xInside.imin ⟨yInside.ordered, Int.le_refl _⟩ sign (by rw [top]; rfl) ?_
  rw [top]
  show l.imin.value &&& ~~~(BitVec.allOnes 64) = 0
  rw [BitVec.not_allOnes]
  exact BitVec.and_zero

theorem Apart.topPair {l r : IntRange} (apart : Apart r l) {x y : Int} (xInside : l.Contains x)
    (yInside : r.Contains y) (low : l.imin.negative = false) (sign : r.imin.negative = true)
    (top : r.imax = SignExtendedNumber.max) : TopPair l r := by
  refine ⟨xInside.ordered, low, fun same => ?_, sign, top, apart⟩
  have nonnegative := apart.nonnegative yInside xInside same
  rw [sign] at nonnegative
  exact absurd nonnegative.symm Bool.false_ne_true

/-- `^` is sound where each range is apart from the other. -/
theorem xor_contains {l r : IntRange} {p q : SignExtendedNumber} (pInside : l.Contains p.toInt)
    (qInside : r.Contains q.toInt) (lApart : Apart l r) (rApart : Apart r l) :
    (l.xor r).Contains (bitXor p q).toInt := by
  by_cases rTop : r.imax = SignExtendedNumber.max
  · have lSign := lApart.nonnegative pInside qInside rTop
    cases rSign : r.imin.negative with
    | false => exact xor_contains_unsigned pInside qInside lSign rSign
    | true => exact (rApart.topPair pInside qInside lSign rSign rTop).xor_contains pInside qInside
  · by_cases lTop : l.imax = SignExtendedNumber.max
    · have rSign := rApart.nonnegative qInside pInside lTop
      cases lSign : l.imin.negative with
      | false => exact xor_contains_unsigned pInside qInside lSign rSign
      | true =>
        have pair := lApart.topPair qInside pInside rSign lSign lTop
        rw [bitXor_comm, pair.xor_comm]
        exact pair.xor_contains qInside pInside
    · exact xor_contains_of_apart pInside qInside lTop rTop lApart rApart

theorem Bounded.or {l r : IntRange} (lBounded : l.Bounded) (rBounded : r.Bounded) :
    (l.or r).Bounded := by
  by_cases spanning : l.spans = true ∧ r.spans = true
  · have shape : (l.or r).imin = if l.imin.value < r.imin.value then l.imin else r.imin := by
      unfold IntRange.or
      rw [spanning.1, spanning.2]
      rfl
    unfold Bounded
    rw [shape]
    split_ifs
    · exact lBounded
    · exact rBounded
  · exact or_bounded spanning

/-- `^` never returns the smallest number as a lower end. -/
theorem xor_bounded (l r : IntRange) : (l.xor r).Bounded :=
  (and_bounded l r.complement).or (and_bounded l.complement r)

/-- The smallest and of ranges with disjoint values is zero. -/
theorem minAnd_eq_zero {l r : IntRange} {p q : BitVec 64} (pBetween : l.Between p)
    (qBetween : r.Between q) (disjoint : p &&& q = 0) : minAnd l r = ofValue 0 := by
  have bound := minAnd_le pBetween qBetween
  rw [disjoint] at bound
  have value : (minAnd l r).value = 0 := BitVec.eq_of_toNat_eq (Nat.le_zero.mp bound)
  have sign : (minAnd l r).negative = false :=
    Bool.eq_false_iff.mpr fun negative => complement_bounded negative value
  rcases same : minAnd l r with ⟨bits, negative⟩
  rw [same] at value sign
  dsimp only at value sign
  rw [value, sign]
  rfl

/-- The smallest or of ranges whose lower ends have negative complements is nonnegative. -/
theorem minOr_nonnegative {l r : IntRange} (lMin : l.imin.complement.negative = true)
    (rMin : r.imin.complement.negative = true) : (minOr l r).negative = false := by
  have sign : (maxAnd l.complement r.complement).negative = true :=
    Bool.and_eq_true_iff.mpr ⟨lMin, rMin⟩
  unfold minOr
  rw [complement_negative, sign]
  rfl

theorem smaller_self (number : SignExtendedNumber) : smaller number number = number := by
  unfold smaller
  split_ifs <;> rfl

theorem smaller_nonnegative {first second : SignExtendedNumber} (left : first.negative = false)
    (right : second.negative = false) : (smaller first second).negative = false := by
  unfold smaller
  split_ifs
  · exact left
  · exact right

/-- The or of a range that starts at zero with a nonnegative range below the largest number is
nonnegative. -/
theorem or_imin_nonnegative {l r : IntRange} (lMin : l.imin = ofValue 0) (rSpans : r.spans = false)
    (rMin : r.imin.complement.negative = true) :
    (l.or r).imin.negative = false ∧ (r.or l).imin.negative = false := by
  have zero : (ofValue 0).complement.negative = true := by decide
  unfold IntRange.or
  rw [rSpans]
  cases l.spans with
  | false =>
    exact ⟨minOr_nonnegative (by rw [lMin]; exact zero) rMin,
      minOr_nonnegative rMin (by rw [lMin]; exact zero)⟩
  | true =>
    have lowest : (orOneSpans r l).imin.negative = false :=
      smaller_nonnegative (minOr_nonnegative rMin (by rw [negativePart, lMin]; exact zero))
        (minOr_nonnegative rMin zero)
    exact ⟨lowest, lowest⟩

/-- A negative range and a nonnegative range. -/
structure SignPair (l r : IntRange) : Prop where
  negative : l.imin.negative = true
  negativeTop : l.imax.negative = true
  nonnegative : r.imin.negative = false
  nonnegativeTop : r.imax.negative = false

namespace SignPair

variable {l r : IntRange}

theorem spans (pair : SignPair l r) : l.spans = false ∧ r.spans = false := by
  unfold IntRange.spans
  rw [pair.negative, pair.negativeTop, pair.nonnegative, pair.nonnegativeTop]
  exact ⟨rfl, rfl⟩

theorem complement_signs (pair : SignPair l r) :
    l.complement.imin.negative = false ∧ l.complement.imax.negative = false :=
  complement_nonnegative pair.negative (Or.inl pair.negativeTop)

/-- Where the complement of a nonnegative range has ends of different signs, its lower end is
zero, the complement of the largest number. -/
theorem complement_imin (pair : SignPair l r) (order : r.imin.toInt ≤ r.imax.toInt)
    (spanning : r.complement.spans = true) : r.complement.imin = ofValue 0 := by
  show r.imax.complement = ofValue 0
  by_cases top : r.imax = SignExtendedNumber.max
  · rw [top]
    decide
  · have bottom := imin_ne_max order top
    have plain : (r.imax.complement.negative != r.imin.complement.negative) = true := spanning
    rw [complement_sign top, complement_sign bottom, pair.nonnegative, pair.nonnegativeTop] at plain
    exact absurd plain (by decide)

/-- The and of the negative range with the complement of the other starts at zero when the values
have disjoint bits. -/
theorem and_complement_imin (pair : SignPair l r) {p q : BitVec 64} (pBetween : l.Between p)
    (qBetween : r.Between q) (order : r.imin.toInt ≤ r.imax.toInt) (disjoint : p &&& ~~~q = 0) :
    (l.and r.complement).imin = ofValue 0 ∧ (r.complement.and l).imin = ofValue 0 := by
  unfold IntRange.and
  rw [pair.spans.1]
  cases spanning : r.complement.spans with
  | false =>
    exact ⟨minAnd_eq_zero pBetween qBetween.complement disjoint,
      minAnd_eq_zero qBetween.complement pBetween ((BitVec.and_comm _ _).trans disjoint)⟩
  | true =>
    have low := pair.complement_imin order spanning
    have parts : (andOneSpans l r.complement).imin = ofValue 0 := by
      have left : minAnd l r.complement.negativePart = ofValue 0 :=
        minAnd_eq_zero pBetween (q := 0) ⟨by rw [negativePart, low]; exact Nat.le_refl _,
          Nat.zero_le _⟩ BitVec.and_zero
      have right : minAnd l r.complement.nonnegativePart = ofValue 0 :=
        minAnd_eq_zero pBetween (q := 0) ⟨Nat.le_refl _, Nat.zero_le _⟩ BitVec.and_zero
      unfold andOneSpans
      rw [left, right]
      exact smaller_self (ofValue 0)
    exact ⟨parts, parts⟩

/-- Unless the negative range ends at the smallest number and the other starts at the largest
one, the and of the complement of the first with the second is nonnegative and does not start at
the largest number. -/
theorem complement_and_imin (pair : SignPair l r) {p q : BitVec 64} (pBetween : l.Between p)
    (qBetween : r.Between q) (inner : l.imax.value ≠ 0 ∨ r.imin.value ≠ BitVec.allOnes 64) :
    ((l.complement.and r).spans = false ∧
        (l.complement.and r).imin.complement.negative = true) ∧
      (r.and l.complement).spans = false ∧
        (r.and l.complement).imin.complement.negative = true := by
  obtain ⟨low, high⟩ := pair.complement_signs
  have plain := spans_of_nonnegative low high
  have top : l.complement.complement.imax.negative = true ∨ r.complement.imax.negative = true := by
    refine inner.imp (fun nonzero => ?_) fun plain => ?_
    · show l.imax.complement.complement.negative = true
      rw [complement_negative, complement_value, complement_negative, pair.negativeTop]
      refine Bool.and_eq_true_iff.mpr ⟨rfl, bne_iff_ne.mpr fun full => nonzero ?_⟩
      rw [← BitVec.not_not (b := l.imax.value), full]
      rfl
    · show r.imin.complement.negative = true
      rw [complement_negative, pair.nonnegative]
      exact Bool.and_eq_true_iff.mpr ⟨rfl, bne_iff_ne.mpr plain⟩
  have lowest : l.complement.Between l.complement.imin.value :=
    ⟨Nat.le_refl _, pBetween.complement.1.trans pBetween.complement.2⟩
  have least : r.Between r.imin.value := ⟨Nat.le_refl _, qBetween.1.trans qBetween.2⟩
  have below : (~~~l.imax.value &&& r.imin.value).toNat ≠ 2 ^ 64 - 1 := by
    intro full
    have ones : ~~~l.imax.value &&& r.imin.value = BitVec.allOnes 64 :=
      BitVec.eq_of_toNat_eq (full.trans allOnes_toNat.symm)
    obtain ⟨left, right⟩ := BitVec.and_eq_allOnes_iff.mp ones
    refine inner.elim (fun nonzero => nonzero ?_) fun plain => plain right
    rw [← BitVec.not_not (b := l.imax.value), left]
    rfl
  have inside {number : SignExtendedNumber} (sign : number.negative = false)
      (bound : number.value.toNat ≤ (~~~l.imax.value &&& r.imin.value).toNat) :
      number.complement.negative = true := by
    rw [complement_negative, sign]
    refine Bool.and_eq_true_iff.mpr ⟨rfl, bne_iff_ne.mpr fun full => below ?_⟩
    rw [full, allOnes_toNat] at bound
    exact Nat.le_antisymm (Nat.le_sub_one_of_lt (BitVec.isLt _)) bound
  have first := minAnd_le lowest least
  have second := minAnd_le least lowest
  rw [show l.complement.imin.value = ~~~l.imax.value from complement_value _] at first second
  rw [BitVec.and_comm] at second
  have firstSign := minAnd_nonnegative top
  have secondSign := minAnd_nonnegative top.symm
  unfold IntRange.and
  rw [plain, pair.spans.2]
  refine ⟨⟨spans_of_nonnegative firstSign ?_, inside firstSign first⟩,
    spans_of_nonnegative secondSign ?_, inside secondSign second⟩
  · show (l.complement.imax.negative && _) = false
    rw [high]
    rfl
  · show (r.imax.negative && _) = false
    rw [pair.nonnegativeTop]
    rfl

/-- `^` of the pair in either order starts at a nonnegative number, although its exact results are
negative. -/
theorem xor_imin (pair : SignPair l r) {p q : BitVec 64} (pBetween : l.Between p)
    (qBetween : r.Between q) (order : r.imin.toInt ≤ r.imax.toInt) (disjoint : p &&& ~~~q = 0)
    (inner : l.imax.value ≠ 0 ∨ r.imin.value ≠ BitVec.allOnes 64) :
    (l.xor r).imin.negative = false ∧ (r.xor l).imin.negative = false := by
  obtain ⟨⟨firstSpans, firstLow⟩, secondSpans, secondLow⟩ :=
    pair.complement_and_imin pBetween qBetween inner
  obtain ⟨firstZero, secondZero⟩ := pair.and_complement_imin pBetween qBetween order disjoint
  exact ⟨(or_imin_nonnegative firstZero firstSpans firstLow).1,
    (or_imin_nonnegative secondZero secondSpans secondLow).2⟩

end SignPair

/-- A range that holds every exclusive or of elements and never starts at the smallest number
forces the first operand to be apart from the second. -/
theorem apart_of_contains {l r range : IntRange} (bounded : range.Bounded)
    (holds : ∀ s t : SignExtendedNumber, l.Contains s.toInt → r.Contains t.toInt →
      range.Contains (bitXor s t).toInt)
    (low : ∀ p q : BitVec 64, SignPair l r → l.Between p → r.Between q →
      r.imin.toInt ≤ r.imax.toInt → p &&& ~~~q = 0 →
      (l.imax.value ≠ 0 ∨ r.imin.value ≠ BitVec.allOnes 64) → range.imin.negative = false)
    (other : ¬ (l = single SignExtendedNumber.min ∧ r = single SignExtendedNumber.max)) :
    Apart l r := by
  intro s t sInside tInside sSign tSign disjoint
  have never : ∀ p q : SignExtendedNumber, l.Contains p.toInt → r.Contains q.toInt →
      p.value = q.value → p.negative = true → q.negative = false → False := by
    intro p q pInside qInside values pSign qSign
    refine bounded.not_contains ?_
    rw [← (toInt_eq_smallest (bitXor p q)).mpr ?_]
    · exact holds p q pInside qInside
    · unfold bitXor
      rw [values, pSign, qSign, BitVec.xor_self]
      rfl
  have subset : s.value.toNat ≤ t.value.toNat := by
    have within : s.value &&& t.value = s.value := by
      refine BitVec.eq_of_getElem_eq fun index inside => ?_
      have bit : (s.value &&& ~~~t.value)[index] = (0#64)[index] := by rw [disjoint]; rfl
      rw [BitVec.getElem_and, BitVec.getElem_not, BitVec.getElem_zero] at bit
      rw [BitVec.getElem_and]
      cases left : s.value[index] with
      | false => rfl
      | true =>
        rw [left, Bool.true_and, Bool.not_eq_false'] at bit
        rw [bit]
        rfl
    rw [← within, BitVec.toNat_and]
    exact Nat.and_le_right
  cases rSpans : r.spans with
  | true =>
    obtain ⟨rMin, rMax, -, above⟩ := tInside.spanning rSpans
    refine never s (ofValue s.value) sInside ⟨?_, ?_⟩ rfl sSign rfl
    · rw [toInt_ofValue]
      exact (Int.le_of_lt ((negative_iff _).mp rMin)).trans (Int.natCast_nonneg _)
    · exact toInt_le_of_value (subset.trans (above tSign)) fun negative =>
        absurd (rMax.symm.trans negative) Bool.false_ne_true
  | false =>
    cases lSpans : l.spans with
    | true =>
      obtain ⟨lMin, lMax, below, -⟩ := sInside.spanning lSpans
      exact never { value := t.value, negative := true } t
        (contains_of_le ((below sSign).trans subset) lMin lMax) tInside rfl rfl tSign
    | false =>
      obtain ⟨sBetween, lMin, lMax⟩ := sInside.between lSpans
      obtain ⟨tBetween, rMin, rMax⟩ := tInside.between rSpans
      have pair : SignPair l r :=
        ⟨lMin.trans sSign, lMax.trans sSign, rMin.trans tSign, rMax.trans tSign⟩
      by_cases inner : l.imax.value ≠ 0 ∨ r.imin.value ≠ BitVec.allOnes 64
      · have lowest := low s.value t.value pair sBetween tBetween tInside.ordered disjoint inner
        have inside := (holds s t sInside tInside).imin_negative (by
          show (s.negative != t.negative) = true
          rw [sSign, tSign]
          rfl)
        rw [lowest] at inside
        exact absurd inside Bool.false_ne_true
      · push Not at inner
        have lEnd : l.imax = SignExtendedNumber.min := by
          rcases same : l.imax with ⟨value, negative⟩
          have sign := pair.negativeTop
          have zero := inner.1
          rw [same] at sign zero
          dsimp only at sign zero
          rw [sign, zero]
          rfl
        have rEnd : r.imin = SignExtendedNumber.max := by
          rcases same : r.imin with ⟨value, negative⟩
          have sign := pair.nonnegative
          have full := inner.2
          rw [same] at sign full
          dsimp only at sign full
          rw [sign, full]
          rfl
        refine other ⟨?_, ?_⟩
        · have order := sInside.ordered
          rw [lEnd, (toInt_eq_smallest _).mpr rfl] at order
          have same := (toInt_eq_smallest _).mp (Int.le_antisymm order (toInt_bounds l.imin).1)
          rcases l with ⟨low, high⟩
          dsimp only at same lEnd
          rw [same, lEnd]
          rfl
        · have order := tInside.ordered
          rw [rEnd, (toInt_eq_largest _).mpr rfl] at order
          have same := (toInt_eq_largest _).mp (Int.le_antisymm (toInt_bounds r.imax).2 order)
          rcases r with ⟨low, high⟩
          dsimp only at same rEnd
          rw [same, rEnd]
          rfl

/-- Being apart, in terms of the integers of the ranges. -/
theorem apart_iff (l r : IntRange) :
    Apart l r ↔ AboveSmallest (fun x y => Int.land x (Int.lnot y)) l r := by
  have same (s t : SignExtendedNumber) : Int.land s.toInt (Int.lnot t.toInt) = -2 ^ 64 ↔
      s.value &&& ~~~t.value = 0 ∧ s.negative = true ∧ t.negative = false := by
    rw [← flip_toInt_lnot, ← bitAnd_toInt, toInt_eq_smallest]
    unfold bitAnd flip SignExtendedNumber.min
    rw [SignExtendedNumber.mk.injEq, Bool.and_eq_true_iff, Bool.not_eq_true']
  constructor
  · intro apart x y xInside yInside
    obtain ⟨s, rfl⟩ := xInside.exists_number
    obtain ⟨t, rfl⟩ := yInside.exists_number
    intro smallest
    obtain ⟨disjoint, sSign, tSign⟩ := (same s t).mp smallest
    exact apart s t xInside yInside sSign tSign disjoint
  · intro above s t sInside tInside sSign tSign disjoint
    exact above s.toInt t.toInt sInside tInside ((same s t).mpr ⟨disjoint, sSign, tSign⟩)

theorem land_comm (x y : Int) : Int.land x y = Int.land y x := by
  cases x <;> cases y <;> simp [Int.land, Nat.land_comm, Nat.lor_comm]

theorem aboveSmallest_swap (l r : IntRange) :
    AboveSmallest (fun x y => Int.land (Int.lnot x) y) l r ↔
      AboveSmallest (fun x y => Int.land x (Int.lnot y)) r l := by
  constructor
  · intro above x y xInside yInside
    show Int.land x (Int.lnot y) ≠ _
    rw [land_comm]
    exact above y x yInside xInside
  · intro above x y xInside yInside
    show Int.land (Int.lnot x) y ≠ _
    rw [land_comm]
    exact above y x yInside xInside

/-- `^` is sound exactly where neither difference of elements is the smallest number, and on the
smallest and the largest number alone. -/
theorem xor_sound_iff (l r : IntRange) :
    Sound IntRange.xor Int.xor l r ↔
      (AboveSmallest (fun x y => Int.land x (Int.lnot y)) l r ∧
          AboveSmallest (fun x y => Int.land (Int.lnot x) y) l r) ∨
        (l = single SignExtendedNumber.min ∧ r = single SignExtendedNumber.max) ∨
        (l = single SignExtendedNumber.max ∧ r = single SignExtendedNumber.min) := by
  rw [aboveSmallest_swap, ← apart_iff, ← apart_iff]
  constructor
  · intro sound
    by_cases first : l = single SignExtendedNumber.min ∧ r = single SignExtendedNumber.max
    · exact Or.inr (Or.inl first)
    · by_cases second : l = single SignExtendedNumber.max ∧ r = single SignExtendedNumber.min
      · exact Or.inr (Or.inr second)
      · have holds : ∀ s t : SignExtendedNumber, l.Contains s.toInt → r.Contains t.toInt →
            (l.xor r).Contains (bitXor s t).toInt := by
          intro s t sInside tInside
          rw [bitXor_toInt]
          exact sound _ _ sInside tInside
        refine Or.inl ⟨?_, ?_⟩
        · refine apart_of_contains (xor_bounded l r) holds ?_ first
          intro p q pair pBetween qBetween order disjoint inner
          exact (pair.xor_imin pBetween qBetween order disjoint inner).1
        · refine apart_of_contains (xor_bounded l r) ?_ ?_ fun both => second ⟨both.2, both.1⟩
          · intro s t sInside tInside
            rw [bitXor_comm]
            exact holds t s tInside sInside
          · intro p q pair pBetween qBetween order disjoint inner
            exact (pair.xor_imin pBetween qBetween order disjoint inner).2
  · intro condition x y xInside yInside
    have point {number : SignExtendedNumber} {z : Int} (inside : (single number).Contains z) :
        z = number.toInt := Int.le_antisymm inside.2 inside.1
    rcases condition with ⟨lApart, rApart⟩ | ⟨rfl, rfl⟩ | ⟨rfl, rfl⟩
    · obtain ⟨p, rfl⟩ := xInside.exists_number
      obtain ⟨q, rfl⟩ := yInside.exists_number
      rw [← bitXor_toInt]
      exact xor_contains xInside yInside lApart rApart
    · rw [point xInside, point yInside]
      exact ⟨by decide, by decide⟩
    · rw [point xInside, point yInside]
      exact ⟨by decide, by decide⟩

/-- Every operator at once: what it takes for the ranges computed for `&`, `|` and `^` to hold
the results of all elements. -/
theorem bitwise_sound_iff (l r : IntRange) :
    (Sound IntRange.and Int.land l r ↔ AboveSmallest Int.land l r) ∧
      (Sound IntRange.or Int.lor l r ↔
        l.spans = true ∧ r.spans = true ∨ AboveSmallest Int.lor l r) ∧
      (Sound IntRange.xor Int.xor l r ↔
        (AboveSmallest (fun x y => Int.land x (Int.lnot y)) l r ∧
            AboveSmallest (fun x y => Int.land (Int.lnot x) y) l r) ∨
          (l = single SignExtendedNumber.min ∧ r = single SignExtendedNumber.max) ∨
          (l = single SignExtendedNumber.max ∧ r = single SignExtendedNumber.min)) :=
  ⟨and_sound_iff l r, or_sound_iff l r, xor_sound_iff l r⟩

/-- The smallest number alone: its and with itself, its or with zero and its exclusive or with
zero are computed to be nonnegative. -/
theorem bitwise_smallest_unsound :
    (single SignExtendedNumber.min).Contains (-2 ^ 64) ∧ (single (ofValue 0)).Contains 0 ∧
      ¬ ((single SignExtendedNumber.min).and (single SignExtendedNumber.min)).Contains
        (Int.land (-2 ^ 64) (-2 ^ 64)) ∧
      ¬ ((single SignExtendedNumber.min).or (single (ofValue 0))).Contains
        (Int.lor (-2 ^ 64) 0) ∧
      ¬ ((single SignExtendedNumber.min).xor (single (ofValue 0))).Contains
        (Int.xor (-2 ^ 64) 0) := by
  unfold Contains
  decide

end LaserD.Vrp.IntRange
