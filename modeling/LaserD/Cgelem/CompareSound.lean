/-
This file settles what the rewriting of comparisons preserves.

A narrower comparison of operands that were extended alike says the same. The rules for
a constant are sound but for one, which reads the upper half of a signed operand as if it
were unsigned. The rule for two conversions takes the order of the narrower comparison
from the types of the operands and not from the conversion, and the loop of the rule for
a bit test never reaches a size of eight bytes.
-/

import LaserD.Cgelem.Truth

namespace LaserD.Cgelem

/-! ### Constants of one byte -/

/-- A constant without bits above the lowest byte. -/
theorem toNat_lt_of_mask {word : BitVec 64} (clear : word &&& ~~~CHARMASK = 0) :
    word.toNat < 2 ^ 8 := by
  have whole : word = word &&& CHARMASK := by
    have split : word = (word &&& CHARMASK) ||| (word &&& ~~~CHARMASK) := by
      ext index inside
      simp only [BitVec.getElem_or, BitVec.getElem_and, BitVec.getElem_not]
      cases word[index] <;> cases CHARMASK[index] <;> rfl
    rw [clear] at split
    exact split.trans BitVec.or_zero
  rw [whole, BitVec.toNat_and]
  exact Nat.lt_of_le_of_lt Nat.and_le_right (by decide)

/-- A byte is below every width. -/
theorem two_pow_char_le (size : Size) : 2 ^ 8 ≤ 2 ^ size.bits := by
  cases size <;> decide

theorem low_of_mask {ty : Ty} {c : BitVec 64} (clear : elTolong ty c &&& ~~~CHARMASK = 0) :
    low ty.size c.toNat = low .char c.toNat ∧ low .char c.toNat < 2 ^ 8 := by
  have small := toNat_lt_of_mask clear
  have value := low_of_elTolong (Nat.lt_of_lt_of_le small (two_pow_char_le ty.size))
  refine ⟨?_, low_lt .char _⟩
  have divides : 2 ^ Size.char.bits ∣ 2 ^ ty.size.bits :=
    pow_dvd_pow 2 (by cases ty.size <;> decide)
  have lower : low .char (low ty.size c.toNat) = low .char c.toNat := Nat.mod_mod_of_dvd _ divides
  rw [← lower, value]
  exact (low_of_lt small).symm

/-! ### The rules for a constant -/

section Rules

variable {World : Type} {env : Environment World} {state : State World}
variable {op : Relation} {Ety ty2 : Ty} {e1 t : Tree} {c : BitVec 64}

/-- The value of a constant that is a sign extension of its lower bits. -/
theorem Vuns_signExtend {narrow : Size} (within : narrow.bits ≤ 32)
    (fits : Vuns c = ((Vuns c).setWidth narrow.bits).signExtend 32) :
    low .long c.toNat = wrap .long (signed narrow (low narrow c.toNat)) := by
  have extended := toNat_signExtend narrow .long ((Vuns c).setWidth narrow.bits)
  have lower : ((Vuns c).setWidth narrow.bits).toNat = low narrow c.toNat := by
    unfold Vuns
    rw [low_eq_toNat, BitVec.setWidth_setWidth_of_le _ within]
  rw [lower] at extended
  rw [← extended]
  exact (low_eq_toNat .long c).trans (congrArg BitVec.toNat fits)

/-- A comparison of an extended operand with a constant of its size is one of the operand with the
lower bits of the constant. -/
theorem truth_narrow {conversion : Unary} {ty1 : Ty} {x : Tree} {narrow : Size} {uns : Bool}
    (pure : sideEffect x = false) (xSize : x.size = narrow) (ySize : ty2.size = ty1.size)
    (down : Unary) (lowers : ∀ (size operand : Size) (y : Nat),
      unary down size operand y state = y)
    (narrower : ∀ y, low narrow (low ty1.size y) = low narrow y)
    (same : ∀ v < 2 ^ narrow.bits,
      relation op ty1.size (ty1.isUnsigned || ty2.isUnsigned)
          (low ty1.size (unary conversion ty1.size narrow v state)) (low ty1.size c.toNat) =
        relation op narrow uns v (low narrow c.toNat)) :
    truth env state (.bin (.rel op) Ety (x.setTy { size := narrow, isUnsigned := uns })
        (.una down { size := narrow, isUnsigned := uns } (.const ty2 c))) =
      truth env state (.bin (.rel op) Ety (.una conversion ty1 x) (.const ty2 c)) := by
  have pure' := (sideEffect_setTy { size := narrow, isUnsigned := uns } x).trans pure
  rw [truth_rel pure' rfl,
    truth_rel_const (show sideEffect (.una conversion ty1 x) = false from pure),
    value_setTy xSize.symm, value_una pure, value_una rfl, value_const]
  have small {v : Nat} (has : value env state x = some v) : v < 2 ^ narrow.bits := by
    have bound := value_lt has
    rwa [xSize] at bound
  cases has : value env state x with
  | none => rfl
  | some v =>
    refine congrArg some ?_
    show relation op (x.setTy _).size ((x.setTy _).uns || uns) v
      (low narrow (unary down narrow ty2.size (low ty2.size c.toNat) state)) = _
    have root : (x.setTy { size := narrow, isUnsigned := uns }).ty =
        { size := narrow, isUnsigned := uns } := Tree.ty_setTy _ _
    unfold Tree.size Tree.uns
    rw [root, lowers, ySize, narrower, Bool.or_self, ← same v (small has), xSize.symm]
    rfl

theorem low_of_Vuns_lt {narrow : Size} (within : narrow.bits ≤ 32)
    (small : (Vuns c).toNat < 2 ^ narrow.bits) : (Vuns c).toNat = low narrow c.toNat := by
  have divides : 2 ^ narrow.bits ∣ 2 ^ Size.long.bits := pow_dvd_pow 2 within
  have lower : low narrow (low .long c.toNat) = low narrow c.toNat :=
    Nat.mod_mod_of_dvd _ divides
  rw [← lower, low_long_eq, low_of_lt small]

/-- The rules for an operand that was extended to its size. -/
theorem truth_extended {conversion down : Unary} {ty1 : Ty} {x : Tree} {narrow : Size} {uns : Bool}
    (pure : sideEffect x = false) (xSize : x.size = narrow) (ySize : ty2.size = ty1.size)
    (wider : narrow.bits < ty1.size.bits) (within : ty1.size.bits ≤ 32)
    (lowers : ∀ (size operand : Size) (y : Nat), unary down size operand y state = y)
    (extends_ : (∀ (size operand : Size) (y : Nat), unary conversion size operand y state = y) ∧
        uns = true ∧ (Vuns c).toNat < 2 ^ narrow.bits ∨
      (∀ (size operand : Size) (y : Nat),
          unary conversion size operand y state = wrap size (signed narrow y)) ∧
        uns = (ty1.isUnsigned || ty2.isUnsigned) ∧
          Vuns c = ((Vuns c).setWidth narrow.bits).signExtend 32) :
    truth env state (.bin (.rel op) Ety (x.setTy { size := narrow, isUnsigned := uns })
        (.una down { size := narrow, isUnsigned := uns } (.const ty2 c))) =
      truth env state (.bin (.rel op) Ety (.una conversion ty1 x) (.const ty2 c)) := by
  have narrower := Nat.le_of_lt wider
  have inside : narrow.bits ≤ 32 := narrower.trans within
  refine truth_narrow pure xSize ySize down lowers (low_narrower narrower) fun v small => ?_
  have lower : low ty1.size c.toNat = low ty1.size (low .long c.toNat) :=
    (low_narrower within c.toNat).symm
  rcases extends_ with ⟨widens, rfl, fits⟩ | ⟨widens, rfl, fits⟩
  · have value := low_of_Vuns_lt inside fits
    rw [widens, low_wider narrower small, lower, low_long_eq, value,
      low_wider narrower (low_lt _ _)]
    exact relation_zeroExtend wider op _ small (low_lt _ _)
  · rw [widens, low_of_lt (wrap_lt _ _), lower, Vuns_signExtend inside fits]
    rw [low_wrap within]
    exact relation_signExtend wider op _ small (low_lt _ _)

/-- `shortRule` says the same. -/
theorem shortRule_truth (formed : WellFormed e1) (sizes : ty2.size = e1.size)
    (pure : sideEffect e1 = false) (applies : shortRule op Ety e1 ty2 c = some t) :
    truth env state t = truth env state (.bin (.rel op) Ety e1 (.const ty2 c)) := by
  unfold shortRule at applies
  split at applies
  next conversion ty1 x =>
    split_ifs at applies with fits
    obtain rfl := Option.some.inj applies
    rcases fits with ⟨rfl, small⟩ | ⟨rfl, fits⟩
    · obtain ⟨-, xSize, wide⟩ := formed
      refine truth_extended (show sideEffect x = false from pure) xSize sizes (by rw [wide]; decide)
        (by rw [wide]; decide) (fun _ _ _ => rfl) (Or.inl ⟨fun _ _ _ => rfl, ?_, ?_⟩)
      · exact Bool.or_true _
      · exact Nat.lt_succ_of_le small
    · obtain ⟨-, xSize, wide⟩ := formed
      refine truth_extended (show sideEffect x = false from pure) xSize sizes (by rw [wide]; decide)
        (by rw [wide]; decide) (fun _ _ _ => rfl) (Or.inr ⟨fun _ _ _ => rfl, ?_, fits⟩)
      exact Bool.or_false _
  next => cases applies

/-- `byteRule` says the same. -/
theorem byteRule_truth (formed : WellFormed e1) (sizes : ty2.size = e1.size)
    (pure : sideEffect e1 = false) (applies : byteRule op Ety e1 ty2 c = some t) :
    truth env state t = truth env state (.bin (.rel op) Ety e1 (.const ty2 c)) := by
  unfold byteRule at applies
  split at applies
  next conversion ty1 x =>
    split_ifs at applies with fits
    obtain rfl := Option.some.inj applies
    rcases fits with ⟨rfl, small⟩ | ⟨rfl, fits⟩
    · obtain ⟨-, xSize, wide⟩ := formed
      refine truth_extended (show sideEffect x = false from pure) xSize sizes
        (by rcases wide with wide | wide <;> rw [wide] <;> decide)
        (by rcases wide with wide | wide <;> rw [wide] <;> decide)
        (fun _ _ _ => rfl) (Or.inl ⟨fun _ _ _ => rfl, Bool.or_true _, small⟩)
    · obtain ⟨-, xSize, wide⟩ := formed
      refine truth_extended (show sideEffect x = false from pure) xSize sizes
        (by rcases wide with wide | wide <;> rw [wide] <;> decide)
        (by rcases wide with wide | wide <;> rw [wide] <;> decide)
        (fun _ _ _ => rfl) (Or.inr ⟨fun _ _ _ => rfl, Bool.or_false _, fits⟩)
  next => cases applies

theorem value_toByte {x : Tree} {sz : Size} (pure : sideEffect x = false) (xSize : x.size = sz)
    (wide : sz ≠ .char) (narrow : sz ≠ .cent) :
    value env state (toByte sz x) = (value env state x).map (low .char) := by
  have bound {v : Nat} (has : value env state x = some v) : v < 2 ^ sz.bits := by
    rw [← xSize]
    exact value_lt has
  unfold toByte
  cases sz with
  | char => exact absurd rfl wide
  | cent => exact absurd rfl narrow
  | short =>
    rw [value_una pure]
    rfl
  | long =>
    rw [value_una (show sideEffect (.una .of32_16 TYushort x) = false from pure), value_una pure]
    cases value env state x with
    | none => rfl
    | some v => exact congrArg some (@low_narrower .char .short (by decide) v)
  | llong =>
    have half : sideEffect (.una .of32_16 TYushort (.una .of64_32 TYulong x)) = false := pure
    rw [value_una half,
      value_una (show sideEffect (.una .of64_32 TYulong x) = false from pure), value_una pure]
    cases value env state x with
    | none => rfl
    | some v =>
      refine congrArg some ?_
      show low .char (low .short (low .long v)) = low .char v
      rw [@low_narrower .char .short (by decide),
        @low_narrower .char .long (by decide)]

/-- `maskRule` says the same. -/
theorem maskRule_truth {config : Config} (formed : WellFormed e1) (sizes : ty2.size = e1.size)
    (narrow : e1.size ≠ .cent) (pure : sideEffect e1 = false)
    (applies : maskRule config op Ety e1 ty2 c = some t) :
    truth env state t = truth env state (.bin (.rel op) Ety e1 (.const ty2 c)) := by
  unfold maskRule at applies
  split at applies
  next ty1 x ty12 k =>
    split_ifs at applies with fits
    obtain rfl := Option.some.inj applies
    obtain ⟨-, wide, dClear, kClear⟩ := fits
    obtain ⟨-, -, xSize, kSize⟩ := formed
    have kSize : ty12.size = ty1.size := kSize rfl
    have sizes : ty2.size = ty1.size := sizes
    have xPure : sideEffect x = false := by
      rw [sideEffect, sideEffect, Bool.or_false] at pure
      exact (Bool.or_eq_false_iff.mp pure).2
    obtain ⟨kValue, kSmall⟩ := low_of_mask kClear
    obtain ⟨dValue, dSmall⟩ := low_of_mask dClear
    have toBytePure : sideEffect (toByte ty2.size x) = false := by
      unfold toByte
      cases ty2.size <;> exact xPure
    have wider : Size.char.bits < ty1.size.bits := by
      rw [← sizes]
      revert wide
      cases ty2.size <;> decide
    have byteSize : (toByte ty2.size x).size = .char := by
      unfold toByte
      cases ty2.size <;> rfl
    have andPure : sideEffect (.bin (.arith .and) TYuchar (toByte ty2.size x) (.const TYuchar k)) =
        false := by
      rw [sideEffect, toBytePure]
      rfl
    rw [truth_rel_const andPure, truth_rel_const pure, value_arith toBytePure rfl,
      value_arith xPure rfl, value_toByte xPure (xSize.trans sizes.symm) wide (sizes ▸ narrow),
      value_const, value_const]
    cases value env state x with
    | none => rfl
    | some v =>
      refine congrArg some ?_
      show relation op .char true (low .char (low .char v &&& low .char k.toNat))
          (low .char c.toNat) =
        relation op ty1.size _ (low ty1.size (v &&& low ty12.size k.toNat)) (low ty2.size c.toNat)
      have masked : low .char v &&& low .char k.toNat = v &&& low .char k.toNat := by
        have within : v &&& low .char k.toNat < 2 ^ 8 := Nat.lt_of_le_of_lt Nat.and_le_right kSmall
        rw [← Nat.mod_eq_of_lt within, Nat.and_mod_two_pow, Nat.mod_eq_of_lt kSmall]
        rfl
      have small : v &&& low .char k.toNat < 2 ^ Size.char.bits :=
        Nat.lt_of_le_of_lt Nat.and_le_right kSmall
      rw [kValue, dValue, masked, low_of_lt small, low_wider (Nat.le_of_lt wider) small]
      exact (relation_zeroExtend wider op _ small dSmall).symm
  next => cases applies

/-- `mswRule` says the same but for a negative operand. -/
theorem mswRule_truth_iff {config : Config} (sizes : ty2.size = e1.size)
    (pure : sideEffect e1 = false) (applies : mswRule config op Ety e1 ty2 c = some t) :
    truth env state t = truth env state (.bin (.rel op) Ety e1 (.const ty2 c)) ↔
      (e1.uns || ty2.isUnsigned) = true ∨ ∀ v, value env state e1 = some v → v < 2 ^ 63 := by
  unfold mswRule at applies
  split_ifs at applies with fits
  obtain ⟨-, -, rfl, wide, rfl⟩ := fits
  obtain rfl := Option.some.inj applies
  have e1Size : e1.size = .llong := sizes.symm.trans wide
  have upperPure : sideEffect (.una .msw TYulong e1) = false := pure
  rw [truth_rel_const upperPure, truth_rel_const pure, value_una pure]
  cases has : value env state e1 with
  | none => exact iff_of_true rfl (Or.inr fun _ impossible => by cases impossible)
  | some v =>
    have bound : v < 2 ^ 64 := by
      have small := value_lt has
      rwa [e1Size] at small
    have upper : v / 2 ^ 32 < 2 ^ 32 := by
      rw [Nat.div_lt_iff_lt_mul (by decide)]
      exact bound
    have left : relation .ne .long true (low .long (unary .msw .long e1.size v state))
        (low .long (setVuns 0xFFFFFFFF#64 0).toNat) = decide (2 ^ 32 ≤ v) := by
      rw [e1Size]
      show (low .long (v / 2 ^ 32) != 0) = _
      rw [@low_of_lt .long _ upper, Bool.eq_iff_iff, bne_iff_ne, decide_eq_true_iff]
      omega
    have right : relation .gt e1.size (e1.uns || ty2.isUnsigned) v
        (low ty2.size (0xFFFFFFFF#64 : BitVec 64).toNat) =
          decide (2 ^ 32 ≤ v ∧ ((e1.uns || ty2.isUnsigned) = true ∨ v < 2 ^ 63)) := by
      rw [wide, e1Size, show low .llong (0xFFFFFFFF#64 : BitVec 64).toNat = 2 ^ 32 - 1 by decide]
      show less .llong (e1.uns || ty2.isUnsigned) (2 ^ 32 - 1) v = _
      cases (e1.uns || ty2.isUnsigned) with
      | true =>
        rw [less_unsigned, decide_eq_decide]
        simp only [true_or, and_true]
        omega
      | false =>
        rw [less_signed, decide_eq_decide, show signed .llong (2 ^ 32 - 1) = 2 ^ 32 - 1 by decide,
          show signed .llong v = if v < 2 ^ 63 then (v : Int) else v - 2 ^ 64 from rfl]
        simp only [Bool.false_eq_true, false_or]
        split_ifs <;> omega
    show some (relation .ne .long true (low .long (unary .msw .long e1.size v state))
      (low .long (setVuns 0xFFFFFFFF#64 0).toNat)) = some (relation .gt e1.size _ v _) ↔ _
    rw [left, right, Option.some_inj, decide_eq_decide]
    constructor
    · intro same
      by_cases large : 2 ^ 32 ≤ v
      · rcases (same.mp large).2 with uns | small
        · exact Or.inl uns
        · refine Or.inr fun w is => ?_
          rw [← Option.some.inj is]
          exact small
      · refine Or.inr fun w is => ?_
        rw [← Option.some.inj is]
        omega
    · rintro (uns | small)
      · exact ⟨fun large => ⟨large, Or.inl uns⟩, fun both => both.1⟩
      · exact ⟨fun large => ⟨large, Or.inr (small v rfl)⟩, fun both => both.1⟩

/-- `zeroRule` says the same. -/
theorem zeroRule_truth {config : Config} (sizes : ty2.size = e1.size) (narrow : e1.size ≠ .cent)
    (pure : sideEffect e1 = false) (zero : elTolong ty2 c = 0) :
    truth env state (zeroRule config op Ety e1 ty2 c) =
      truth env state (.bin (.rel op) Ety e1 (.const ty2 c)) := by
  have value : low ty2.size c.toNat = 0 := by
    rw [← low_elTolong, zero]
    exact Nat.zero_mod _
  have original : truth env state (.bin (.rel op) Ety e1 (.const ty2 c)) =
      (Cgelem.value env state e1).map fun x =>
        relation op e1.size (e1.uns || ty2.isUnsigned) x 0 := by
    rw [truth_rel_const pure, value]
  have constant (i : BitVec 32) (small : i.toNat < 2) :
      truth env state (.bin .comma Ety e1 (.const TYint (setVuns c i))) =
        (Cgelem.value env state e1).map fun _ => i.toNat != 0 := by
    have one := one_lt_two_pow_bits Ety.size
    rw [truth, value_comma pure rfl, value_const]
    show Option.map _ (Option.bind _ fun _ => some (low Ety.size (low .long _))) = _
    rw [low_long_eq, Vuns_setVuns, low_of_lt (Nat.lt_of_lt_of_le small one)]
    cases Cgelem.value env state e1 <;> rfl
  have signedSound : (e1.uns || ty2.isUnsigned) = false → (op = .lt ∨ op = .ge) →
      truth env state (if ty2.size.bits = 2 * config.regsize.bits then
          .bin (.rel op) Ety (.una .msw (if ty2.size = .llong then TYint else TYlong) e1)
            (.const (if ty2.size = .llong then TYint else TYlong) c)
        else .bin (.rel op) Ety e1 (.const ty2 c)) =
      truth env state (.bin (.rel op) Ety e1 (.const ty2 c)) := by
    intro uns order
    split_ifs with twice wide
    · have e1Size : e1.size = .llong := sizes.symm.trans wide
      have upperPure : sideEffect (.una .msw TYint e1) = false := pure
      rw [truth_rel_const upperPure, original, value_una pure, uns, e1Size]
      have zeroes : low .long c.toNat = 0 := by
        have lower := @low_narrower .long .llong (by decide) c.toNat
        rw [wide] at value
        rw [← lower, value]
        rfl
      cases has : Cgelem.value env state e1 with
      | none => rfl
      | some v =>
        have bound : v < 2 ^ 64 := by
          have small := value_lt has
          rwa [e1Size] at small
        have upper : v / 2 ^ 32 < 2 ^ 32 := by
          rw [Nat.div_lt_iff_lt_mul (by decide)]
          exact bound
        have below : less .long false (v / 2 ^ 32) 0 = less .llong false v 0 := by
          rw [less_signed, less_signed, decide_eq_decide,
            show signed .long (v / 2 ^ 32) = if v / 2 ^ 32 < 2 ^ 31 then ((v / 2 ^ 32 : Nat) : Int)
              else ((v / 2 ^ 32 : Nat) : Int) - 2 ^ 32 from rfl,
            show signed .llong v = if v < 2 ^ 63 then (v : Int) else v - 2 ^ 64 from rfl,
            show signed .long 0 = 0 by decide, show signed .llong 0 = 0 by decide]
          split_ifs <;> omega
        refine congrArg some ?_
        show relation op .long false (low .long (v / 2 ^ 32)) (low .long c.toNat) =
          relation op .llong false v 0
        rw [zeroes, @low_of_lt .long _ upper]
        rcases order with rfl | rfl
        · exact below
        · exact congrArg not below
    · exfalso
      rw [sizes] at twice
      revert twice wide narrow
      rw [sizes]
      unfold Config.regsize
      cases e1.size <;> cases config.is64 <;> decide
    · rfl
  unfold zeroRule
  dsimp only
  cases op with
  | eqeq =>
    rw [original]
    exact truth_not pure Ety
  | ne =>
    rw [original]
    exact truth_bool pure Ety
  | le =>
    cases uns : e1.uns || ty2.isUnsigned with
    | false => rfl
    | true =>
      rw [if_pos rfl, original, uns]
      refine (truth_not pure Ety).trans (congrArg (Option.map · _) (funext fun x => ?_))
      show (x == 0) = !decide (0 < x)
      rw [Bool.eq_iff_iff, beq_iff_eq, Bool.not_eq_true', decide_eq_false_iff_not]
      omega
  | gt =>
    cases uns : e1.uns || ty2.isUnsigned with
    | false => rfl
    | true =>
      rw [if_pos rfl, original, uns]
      refine (truth_bool pure Ety).trans (congrArg (Option.map · _) (funext fun x => ?_))
      show (x != 0) = decide (0 < x)
      rw [Bool.eq_iff_iff, bne_iff_ne, decide_eq_true_iff]
      omega
  | ge =>
    cases uns : e1.uns || ty2.isUnsigned with
    | false => exact signedSound uns (Or.inr rfl)
    | true =>
      rw [if_pos rfl, original, uns]
      refine (constant 1 (by decide)).trans (congrArg (Option.map · _) (funext fun x => ?_))
      show true = !decide (x < 0)
      rw [decide_eq_false (Nat.not_lt_zero x)]
      rfl
  | lt =>
    cases uns : e1.uns || ty2.isUnsigned with
    | false => exact signedSound uns (Or.inl rfl)
    | true =>
      rw [if_pos rfl, original, uns]
      refine (constant 0 (by decide)).trans (congrArg (Option.map · _) (funext fun x => ?_))
      exact (decide_eq_false (Nat.not_lt_zero x)).symm

/-- `halfRule` says the same. -/
theorem halfRule_truth {config : Config} (sizes : ty2.size = e1.size) (pure : sideEffect e1 = false)
    (applies : halfRule config op Ety e1 ty2 c = some t) :
    truth env state t = truth env state (.bin (.rel op) Ety e1 (.const ty2 c)) := by
  unfold halfRule at applies
  split_ifs at applies with fits
  obtain ⟨-, uns, wide, half, order⟩ := fits
  obtain rfl := Option.some.inj applies
  have e1Size : e1.size = .short := sizes.symm.trans wide
  have pure' := (sideEffect_setTy TYshort e1).trans pure
  have value : low .short c.toNat = 2 ^ 15 := by
    have lower := @low_narrower .short .long (by decide) c.toNat
    rw [low_long_eq] at lower
    rw [← lower]
    exact (BitVec.toNat_setWidth 16 (Vuns c)).symm.trans (congrArg BitVec.toNat half)
  have zero : low .short (setVuns c 0).toNat = 0 := by
    have lower := @low_narrower .short .long (by decide) (setVuns c 0).toNat
    rw [low_long_eq, Vuns_setVuns] at lower
    rw [← lower]
    rfl
  rw [truth_rel_const pure', truth_rel_const pure, value_setTy e1Size.symm, uns, wide, value,
    e1Size]
  cases has : Cgelem.value env state e1 with
  | none => rfl
  | some v =>
    have bound : v < 2 ^ 16 := by
      have small := value_lt has
      rwa [e1Size] at small
    have below : less .short false v 0 = !less .short true v (2 ^ 15) := by
      rw [less_signed, less_unsigned, show signed .short 0 = 0 by decide,
        show signed .short v = if v < 2 ^ 15 then (v : Int) else v - 2 ^ 16 from rfl,
        Bool.eq_iff_iff, decide_eq_true_iff, Bool.not_eq_true', decide_eq_false_iff_not]
      split_ifs <;> omega
    refine congrArg some ?_
    have root : (e1.setTy TYshort).ty = TYshort := Tree.ty_setTy _ _
    unfold Tree.size Tree.uns
    rw [root]
    show relation (switchRelation op) .short false v (low .short (setVuns c 0).toNat) = _
    rw [zero]
    rcases order with rfl | rfl
    · show (!less .short false v 0) = less .short true v (2 ^ 15)
      rw [below, Bool.not_not]
    · exact below

/-- No side effect, no assignment. -/
theorem assignRule_none {config : Config} (pure : sideEffect e1 = false) :
    assignRule config op Ety e1 ty2 c = none := by
  unfold assignRule
  split
  next => cases pure
  next => rfl

/-- `x > 0xFFFFFFFF` of eight bytes on a target of 32 bits, where the operand is signed and
negative. -/
def MswMisread (config : Config) (env : Environment World) (state : State World) (op : Relation)
    (e1 e2 : Tree) : Prop :=
  config.optimizer = true ∧ config.is64 = false ∧ op = .gt ∧ e2.size = .llong ∧
    (∃ ty, e2 = .const ty 0xFFFFFFFF#64) ∧ (e1.uns || e2.uns) = false ∧
      ∃ v, value env state e1 = some v ∧ 2 ^ 63 ≤ v

/-- The rules for a constant say the same but for a negative operand of `mswRule`. -/
theorem constantRules_truth_iff {config : Config} (formed : WellFormed e1)
    (sizes : ty2.size = e1.size) (narrow : e1.size ≠ .cent) (pure : sideEffect e1 = false) :
    truth env state (constantRules config op Ety e1 ty2 c) =
        truth env state (.bin (.rel op) Ety e1 (.const ty2 c)) ↔
      ¬ MswMisread config env state op e1 (.const ty2 c) := by
  have fine {t : Tree} (same : truth env state t =
        truth env state (.bin (.rel op) Ety e1 (.const ty2 c)))
      (missed : mswRule config op Ety e1 ty2 c = none) :
      truth env state t = truth env state (.bin (.rel op) Ety e1 (.const ty2 c)) ↔
        ¬ MswMisread config env state op e1 (.const ty2 c) := by
    refine iff_of_true same ?_
    rintro ⟨optimizer, is32, gt, wide, ⟨ty, same⟩, -⟩
    obtain ⟨-, rfl⟩ := Tree.const.inj same
    unfold mswRule at missed
    rw [if_pos ⟨optimizer, is32, gt, wide, rfl⟩] at missed
    cases missed
  have shortMissed {t : Tree} (hit : shortRule op Ety e1 ty2 c = some t) :
      mswRule config op Ety e1 ty2 c = none := by
    refine if_neg fun ⟨_, _, _, wide, _⟩ => ?_
    unfold shortRule at hit
    split at hit
    next conversion ty1 x =>
      split_ifs at hit with fits
      have e1Size : ty1.size = .long := by
        rcases fits with ⟨rfl, -⟩ | ⟨rfl, -⟩
        · exact formed.2.2
        · exact formed.2.2
      have same : ty2.size = ty1.size := sizes
      rw [wide, e1Size] at same
      cases same
    next => cases hit
  have maskMissed {t : Tree} (hit : maskRule config op Ety e1 ty2 c = some t) :
      mswRule config op Ety e1 ty2 c = none := by
    refine if_neg fun ⟨_, _, _, wide, value⟩ => ?_
    unfold maskRule at hit
    split at hit
    next =>
      split_ifs at hit with fits
      have small := (low_of_mask fits.2.2.1).1
      rw [wide, value] at small
      exact absurd small (by decide)
    next => cases hit
  unfold constantRules
  cases shortHit : shortRule op Ety e1 ty2 c with
  | some t => exact fine (shortRule_truth formed sizes pure shortHit) (shortMissed shortHit)
  | none =>
    cases maskHit : maskRule config op Ety e1 ty2 c with
    | some t =>
      exact fine (maskRule_truth formed sizes narrow pure maskHit) (maskMissed maskHit)
    | none =>
      cases mswHit : mswRule config op Ety e1 ty2 c with
      | some t =>
        refine (mswRule_truth_iff sizes pure mswHit).trans ?_
        have hit := mswHit
        unfold mswRule at hit
        split_ifs at hit with fits
        obtain ⟨optimizer, is32, gt, wide, value⟩ := fits
        constructor
        · rintro (uns | small) ⟨-, -, -, -, -, signed, v, has, large⟩
          · exact absurd (uns.symm.trans signed) (by decide)
          · exact absurd (small v has) (Nat.not_lt_of_le large)
        · intro read
          by_contra! neither
          obtain ⟨v, has, large⟩ := neither.2
          exact read ⟨optimizer, is32, gt, wide, ⟨ty2, by rw [value]⟩,
            Bool.eq_false_of_not_eq_true neither.1, v, has, large⟩
      | none =>
        cases byteHit : byteRule op Ety e1 ty2 c with
        | some t => exact fine (byteRule_truth formed sizes pure byteHit) mswHit
        | none =>
          by_cases zero : elTolong ty2 c = 0
          · rw [if_pos zero]
            exact fine (zeroRule_truth sizes narrow pure zero) mswHit
          · rw [if_neg zero, assignRule_none pure]
            cases halfHit : halfRule config op Ety e1 ty2 c with
            | some t => exact fine (halfRule_truth sizes pure halfHit) mswHit
            | none => exact fine rfl mswHit

/-! ### Two conversions -/

/-- The conversions that extend by the sign. -/
def signExtends : Unary → Bool
  | .s8_16 => true
  | .s16_32 => true
  | _ => false

/-- A comparison of two operands extended alike is one of the operands: unsigned after a zero
extension, and as it stands after a sign extension. -/
theorem relation_extended {conversion : Unary} {narrow wide : Size}
    (isConversion : isNarrow conversion = true) (fits : unaryFits wide narrow conversion)
    (op : Relation) (uns : Bool) {v w : Nat} (vSmall : v < 2 ^ narrow.bits)
    (wSmall : w < 2 ^ narrow.bits) :
    relation op wide uns (low wide (unary conversion wide narrow v state))
        (low wide (unary conversion wide narrow w state)) =
      relation op narrow (uns || !signExtends conversion) v w := by
  have zero (wider : narrow.bits < wide.bits) :
      relation op wide uns (low wide v) (low wide w) = relation op narrow (uns || true) v w := by
    rw [low_wider (Nat.le_of_lt wider) vSmall, low_wider (Nat.le_of_lt wider) wSmall, Bool.or_true]
    exact relation_zeroExtend wider op uns vSmall wSmall
  have sign (wider : narrow.bits < wide.bits) :
      relation op wide uns (low wide (wrap wide (signed narrow v)))
        (low wide (wrap wide (signed narrow w))) = relation op narrow (uns || false) v w := by
    rw [low_of_lt (wrap_lt _ _), low_of_lt (wrap_lt _ _), Bool.or_false]
    exact relation_signExtend wider op uns vSmall wSmall
  cases conversion with
  | u8_16 =>
    obtain ⟨rfl, rfl | rfl⟩ := fits
    · exact zero (by decide)
    · exact zero (by decide)
  | s8_16 =>
    obtain ⟨rfl, rfl | rfl⟩ := fits
    · exact sign (by decide)
    · exact sign (by decide)
  | u16_32 =>
    obtain ⟨rfl, rfl⟩ := fits
    exact zero (by decide)
  | s16_32 =>
    obtain ⟨rfl, rfl⟩ := fits
    exact sign (by decide)
  | _ => exact absurd isConversion (by decide)

/-- Operands compared below their conversions. -/
theorem conversions_truth_iff {conversion : Unary} {ty1 ty2 : Ty} {x y x' y' : Tree}
    (xPure : sideEffect x = false) (yPure : sideEffect y = false)
    (xPure' : sideEffect x' = false) (yPure' : sideEffect y' = false) (wide : ty1.size = ty2.size)
    (below : x.size = y.size) (narrow : isNarrow conversion = true)
    (fits : unaryFits ty1.size x.size conversion) (xSize : x'.size = x.size)
    (xValue : value env state x' = value env state x)
    (yValue : value env state y' = value env state y) :
    truth env state (.bin (.rel op) Ety x' y') =
        truth env state (.bin (.rel op) Ety (.una conversion ty1 x) (.una conversion ty2 y)) ↔
      ∀ v w, value env state x = some v → value env state y = some w →
        relation op x.size (x'.uns || y'.uns) v w =
          relation op x.size (ty1.isUnsigned || ty2.isUnsigned || !signExtends conversion) v w := by
  rw [truth_rel xPure' yPure',
    truth_rel (show sideEffect (.una conversion ty1 x) = false from xPure)
      (show sideEffect (.una conversion ty2 y) = false from yPure),
    value_una xPure, value_una yPure, xValue, yValue]
  cases hasX : value env state x with
  | none => exact iff_of_true rfl fun _ _ impossible => by cases impossible
  | some v =>
    cases hasY : value env state y with
    | none => exact iff_of_true rfl fun _ _ _ impossible => by cases impossible
    | some w =>
      have vSmall := value_lt hasX
      have wSmall := value_lt hasY
      rw [← below] at wSmall
      have extended := @relation_extended World state conversion x.size ty1.size narrow fits op
        (ty1.isUnsigned || ty2.isUnsigned) v w vSmall wSmall
      show some (relation op x'.size (x'.uns || y'.uns) v w) =
          some (relation op ty1.size (ty1.isUnsigned || ty2.isUnsigned)
            (low ty1.size (unary conversion ty1.size x.size v state))
            (low ty2.size (unary conversion ty2.size y.size w state))) ↔ _
      rw [← wide, ← below, extended, xSize, Option.some_inj]
      constructor
      · intro same first second isFirst isSecond
        rw [← Option.some.inj isFirst, ← Option.some.inj isSecond]
        exact same
      · exact fun holds => holds v w rfl rfl

/-- An ordered comparison, signed as it stands, of two operands extended alike, where the types
below a zero extension are both signed, or one of those below a sign extension is unsigned, and
the values below are in different halves. -/
def ConversionsMisread (env : Environment World) (state : State World) (op : Relation)
    (e1 e2 : Tree) : Prop :=
  ∃ conversion ty1 ty2 x y, e1 = .una conversion ty1 x ∧ e2 = .una conversion ty2 y ∧
    isNarrow conversion = true ∧ op.isOrder = true ∧ (e1.uns || e2.uns) = false ∧
      (x.uns || y.uns) = signExtends conversion ∧
        ∃ v w, value env state x = some v ∧ value env state y = some w ∧
          ¬ (v < 2 ^ (x.size.bits - 1) ↔ w < 2 ^ (x.size.bits - 1))

/-- The rule for two conversions says the same but where the types below mislead it. -/
theorem conversionsRule_truth_iff {e2 : Tree} (formed₁ : WellFormed e1) (formed₂ : WellFormed e2)
    (sizes : e1.size = e2.size) (pure₁ : sideEffect e1 = false) (pure₂ : sideEffect e2 = false) :
    truth env state ((conversionsRule op Ety e1 e2).getD (.bin (.rel op) Ety e1 e2)) =
        truth env state (.bin (.rel op) Ety e1 e2) ↔
      ¬ ConversionsMisread env state op e1 e2 := by
  cases hit : conversionsRule op Ety e1 e2 with
  | none =>
    refine iff_of_true rfl ?_
    rintro ⟨conversion, ty1, ty2, x, y, rfl, rfl, narrow, -⟩
    unfold conversionsRule at hit
    dsimp only at hit
    rw [if_pos ⟨narrow, rfl⟩] at hit
    split_ifs at hit
  | some t =>
    unfold conversionsRule at hit
    split at hit
    next conversion₁ ty1 x conversion₂ ty2 y =>
      split_ifs at hit with fits uns
      all_goals
        obtain rfl := Option.some.inj hit
        obtain ⟨narrow, rfl⟩ := fits
        obtain ⟨-, xFits⟩ := formed₁
        obtain ⟨-, yFits⟩ := formed₂
        have wide : ty1.size = ty2.size := sizes
        have xPure : sideEffect x = false := pure₁
        have yPure : sideEffect y = false := pure₂
        have below : x.size = y.size := by
          revert narrow xFits yFits
          cases conversion₁ <;> intro narrow xFits yFits <;>
            first
            | exact xFits.1.trans yFits.1.symm
            | exact absurd narrow (by decide)
      · have xSize : (x.setTy (touns x.ty)).size = x.size :=
          show (x.setTy (touns x.ty)).ty.size = (touns x.ty).size by rw [Tree.ty_setTy]
        have xValue : value env state (x.setTy (touns x.ty)) = value env state x := value_setTy rfl
        have yValue : value env state (y.setTy (touns y.ty)) = value env state y := value_setTy rfl
        rw [Option.getD_some, conversions_truth_iff xPure yPure
          ((sideEffect_setTy _ x).trans xPure) ((sideEffect_setTy _ y).trans yPure) wide below
          narrow xFits xSize xValue yValue]
        have root : (x.setTy (touns x.ty)).uns = true :=
          congrArg Ty.isUnsigned (Tree.ty_setTy (touns x.ty) x)
        have uns : (ty1.isUnsigned || ty2.isUnsigned) = true := uns
        refine iff_of_true (fun v w _ _ => ?_) ?_
        · rw [root, uns]
          rfl
        · rintro ⟨conversion, ty1', ty2', x', y', same₁, same₂, -, -, signed, -⟩
          exact absurd (uns.symm.trans signed) (by decide)
      · rw [Option.getD_some, conversions_truth_iff xPure yPure xPure yPure wide below narrow xFits
          rfl rfl rfl]
        have signed : (ty1.isUnsigned || ty2.isUnsigned) = false := Bool.eq_false_of_not_eq_true uns
        rw [signed, Bool.false_or]
        constructor
        · rintro agree ⟨conversion, ty1', ty2', x', y', same₁, same₂, -, order, -, types, v, w,
            hasX, hasY, halves⟩
          obtain ⟨rfl, -, rfl⟩ := Tree.una.inj same₁
          obtain ⟨-, -, rfl⟩ := Tree.una.inj same₂
          have wSmall := value_lt hasY
          rw [← below] at wSmall
          refine halves ((relation_sign_iff op (value_lt hasX) wSmall).mp ?_ order)
          have agrees := agree v w hasX hasY
          rw [types] at agrees
          revert agrees
          cases signExtends conversion₁ with
          | false => exact id
          | true => exact Eq.symm
        · intro read v w hasX hasY
          have wSmall := value_lt hasY
          rw [← below] at wSmall
          by_cases types : (x.uns || y.uns) = signExtends conversion₁
          · have agree := (relation_sign_iff op (value_lt hasX) wSmall).mpr fun order => by
              by_contra halves
              exact read ⟨conversion₁, ty1, ty2, x, y, rfl, rfl, narrow, order, signed, types, v, w,
                hasX, hasY, halves⟩
            rw [types]
            revert agree
            cases signExtends conversion₁ with
            | false => exact id
            | true => exact Eq.symm
          · rw [Bool.eq_not_of_ne types]
    next => cases hit

/-! ### The bit test -/

/-- Sizes in their order. -/
def Size.index : Size → Nat
  | .char => 0
  | .short => 1
  | .long => 2
  | .llong => 3
  | .cent => 4

/-- A step of the loop towards a size of at most four bytes comes closer to it, and keeps a value
that is a single bit. -/
theorem resizeStep_closer {sz : Size} {e : Tree} (small : sz.bits ≤ 32) (different : e.size ≠ sz)
    (narrow : e.size ≠ .cent) (pure : sideEffect e = false)
    (bit : ∀ v, value env state e = some v → v < 2) :
    ∃ t, resizeStep sz e = some t ∧
      (t.size.index - sz.index) + (sz.index - t.size.index) <
        (e.size.index - sz.index) + (sz.index - e.size.index) ∧
      t.size ≠ .cent ∧ sideEffect t = false ∧ value env state t = value env state e := by
  have keeps (conversion : Unary) (ty : Ty)
      (plain : ∀ v, unary conversion ty.size e.size v state = v) :
      value env state (.una conversion ty e) = value env state e := by
    rw [value_una pure]
    cases has : value env state e with
    | none => rfl
    | some v =>
      refine congrArg some ?_
      show low ty.size (unary conversion ty.size e.size v state) = v
      rw [plain, low_of_lt (Nat.lt_of_lt_of_le (bit v has) (one_lt_two_pow_bits ty.size))]
  unfold resizeStep
  cases eSize : e.size with
  | char =>
    refine ⟨_, rfl, ?_, fun same => (by cases same), pure, keeps .u8_16 TYshort fun _ => rfl⟩
    rw [eSize] at different
    show (Size.index .short - sz.index) + (sz.index - Size.index .short) < _
    revert small different
    cases sz <;> decide
  | short =>
    dsimp only
    by_cases wide : 16 < sz.bits
    · rw [if_pos wide]
      refine ⟨_, rfl, ?_, fun same => (by cases same), pure, keeps .u16_32 TYlong fun _ => rfl⟩
      show (Size.index .long - sz.index) + (sz.index - Size.index .long) < _
      revert small wide
      cases sz <;> decide
    · rw [if_neg wide]
      refine ⟨_, rfl, ?_, fun same => (by cases same), pure, keeps .of16_8 TYuchar fun _ => rfl⟩
      show (Size.index .char - sz.index) + (sz.index - Size.index .char) < _
      rw [eSize] at different
      revert small wide different
      cases sz <;> decide
  | long =>
    dsimp only
    by_cases wide : 16 < sz.bits
    · exfalso
      rw [eSize] at different
      revert small wide different
      cases sz <;> decide
    · rw [if_neg wide]
      refine ⟨_, rfl, ?_, fun same => (by cases same), pure, keeps .of32_16 TYshort fun _ => rfl⟩
      show (Size.index .short - sz.index) + (sz.index - Size.index .short) < _
      revert small wide
      cases sz <;> decide
  | llong =>
    refine ⟨_, rfl, ?_, fun same => (by cases same), pure, keeps .of64_32 TYlong fun _ => rfl⟩
    show (Size.index .long - sz.index) + (sz.index - Size.index .long) < _
    revert small
    cases sz <;> decide
  | cent => exact absurd eSize narrow

/-- The loop ends at a size of at most four bytes. -/
theorem resize_some {sz : Size} (small : sz.bits ≤ 32) :
    ∀ (distance : Nat) (e : Tree),
      (e.size.index - sz.index) + (sz.index - e.size.index) ≤ distance → e.size ≠ .cent →
      sideEffect e = false → (∀ v, value env state e = some v → v < 2) →
      ∃ rounds t, resize sz rounds e = some t ∧ t.size = sz ∧ sideEffect t = false ∧
        value env state t = value env state e := by
  intro distance
  induction distance with
  | zero =>
    intro e near _ pure _
    have same : e.size = sz := by
      revert near
      cases e.size <;> cases sz <;> decide
    exact ⟨0, e, if_pos same, same, pure, rfl⟩
  | succ distance inductionHypothesis =>
    intro e near narrow pure bit
    by_cases same : e.size = sz
    · exact ⟨0, e, if_pos same, same, pure, rfl⟩
    · obtain ⟨t, step, closer, narrow', pure', kept⟩ :=
        resizeStep_closer small same narrow pure bit
      obtain ⟨rounds, result, found, size, resultPure, resultKept⟩ :=
        inductionHypothesis t (by omega) narrow' pure' (by rw [kept]; exact bit)
      refine ⟨rounds + 1, result, ?_, size, resultPure, resultKept.trans kept⟩
      rw [resize, if_neg same, step]
      exact found

/-- The loop does not end at a larger size that it did not start from. -/
theorem resize_none {sz : Size} (large : 32 < sz.bits) :
    ∀ (rounds : Nat) (e : Tree), e.size ≠ sz → resize sz rounds e = none := by
  intro rounds
  induction rounds with
  | zero =>
    intro e different
    exact if_neg different
  | succ rounds inductionHypothesis =>
    intro e different
    rw [resize, if_neg different]
    cases step : resizeStep sz e with
    | none => rfl
    | some t =>
      refine inductionHypothesis t fun same => ?_
      have wide : 16 < sz.bits := Nat.lt_trans (by decide) large
      unfold resizeStep at step
      split at step
      · obtain rfl := Option.some.inj step
        rw [← same] at large
        exact Nat.not_lt_of_le (show Size.short.bits ≤ 32 by decide) large
      · rw [if_pos wide] at step
        obtain rfl := Option.some.inj step
        rw [← same] at large
        exact Nat.not_lt_of_le (show Size.long.bits ≤ 32 by decide) large
      · rw [if_pos wide] at step
        obtain rfl := Option.some.inj step
        rw [← same] at large
        exact Nat.not_lt_of_le (show Size.short.bits ≤ 32 by decide) large
      · obtain rfl := Option.some.inj step
        rw [← same] at large
        exact Nat.not_lt_of_le (show Size.long.bits ≤ 32 by decide) large
      · cases step

/-- `(e & 1) == 1` where the loop that brings the and to the size of the comparison does not
end: the comparison has more than four bytes, and not those of the and. -/
def BitTestLoops (config : Config) (op : Relation) (Ety : Ty) (e1 e2 : Tree) : Prop :=
  config.optimizer = true ∧ isBitTest op e1 e2 = true ∧ 32 < Ety.size.bits ∧ e1.size ≠ Ety.size

/-- The three ways in which the rewriting of a comparison goes wrong. -/
def Misjudged (config : Config) (env : Environment World) (state : State World) (op : Relation)
    (Ety : Ty) (e1 e2 : Tree) : Prop :=
  BitTestLoops config op Ety e1 e2 ∨ MswMisread config env state op e1 e2 ∨
    ConversionsMisread env state op e1 e2

/-- The operands of a bit test. -/
theorem isBitTest_value {e2 : Tree} (formed : WellFormed e1) (sizes : e1.size = e2.size)
    (pure : sideEffect e1 = false) (test : isBitTest op e1 e2 = true) :
    (∀ v, value env state e1 = some v → v < 2) ∧
      truth env state (.bin (.rel op) Ety e1 e2) = truth env state e1 := by
  unfold isBitTest at test
  split at test
  next ty1 x ty12 c12 ty2 c2 =>
    obtain ⟨second, first⟩ := (Bool.and_eq_true _ _).mp test
    have one {ty : Ty} {c : BitVec 64} (isOne : (elTolong ty c == 1) = true) :
        low ty.size c.toNat = 1 := by
      have same := eq_of_beq isOne
      rw [low_of_elTolong (by rw [same]; exact one_lt_two_pow_bits _), same]
      rfl
    have xPure : sideEffect x = false := by
      rw [sideEffect, sideEffect, Bool.or_false] at pure
      exact (Bool.or_eq_false_iff.mp pure).2
    have bit {v : Nat}
        (has : value env state (.bin (.arith .and) ty1 x (.const ty12 c12)) = some v) : v < 2 := by
      rw [value_arith xPure rfl, value_const, one first] at has
      obtain ⟨u, -, rest⟩ := Option.bind_eq_some_iff.mp has
      obtain rfl : low ty1.size (u &&& 1) = v := Option.some.inj rest
      rw [low_of_lt (Nat.lt_of_le_of_lt Nat.and_le_right (one_lt_two_pow_bits _))]
      exact Nat.lt_succ_of_le Nat.and_le_right
    refine ⟨fun v => bit, ?_⟩
    rw [truth_rel_const pure, truth, one second]
    cases has : value env state (.bin (.arith .and) ty1 x (.const ty12 c12)) with
    | none => rfl
    | some v =>
      have small := bit has
      refine congrArg some ?_
      show (v == 1) = (v != 0)
      rw [Bool.eq_iff_iff, beq_iff_eq, bne_iff_ne]
      omega
  next => cases test

/-- The bit test says the same exactly where its loop ends. -/
theorem bitTest_truth_iff {config : Config} {e2 : Tree} (formed : WellFormed e1)
    (sizes : e1.size = e2.size) (narrow : e1.size ≠ .cent) (pure : sideEffect e1 = false)
    (optimizer : config.optimizer = true) (test : isBitTest op e1 e2 = true) :
    (∃ rounds t, (resize Ety.size rounds e1).map (Tree.setTy Ety) = some t ∧
        truth env state t = truth env state (.bin (.rel op) Ety e1 e2)) ↔
      ¬ BitTestLoops config op Ety e1 e2 := by
  obtain ⟨bit, same⟩ := @isBitTest_value World env state op Ety e1 e2 formed sizes pure test
  have found {rounds : Nat} {t : Tree} (ends : resize Ety.size rounds e1 = some t)
      (size : t.size = Ety.size) (kept : value env state t = value env state e1) :
      ∃ rounds t, (resize Ety.size rounds e1).map (Tree.setTy Ety) = some t ∧
        truth env state t = truth env state (.bin (.rel op) Ety e1 e2) := by
    refine ⟨rounds, t.setTy Ety, by rw [ends]; rfl, ?_⟩
    rw [same, truth, truth, value_setTy size.symm, kept]
  by_cases large : 32 < Ety.size.bits
  · by_cases there : e1.size = Ety.size
    · exact iff_of_true (@found 0 e1 (if_pos there) there rfl) fun loops => loops.2.2.2 there
    · refine iff_of_false ?_ fun fine => fine ⟨optimizer, test, large, there⟩
      rintro ⟨rounds, t, ends, -⟩
      rw [resize_none large rounds e1 there] at ends
      cases ends
  · obtain ⟨rounds, t, ends, size, -, kept⟩ :=
      resize_some (Nat.le_of_not_lt large) _ e1 le_rfl narrow pure bit
    exact iff_of_true (found ends size kept) fun loops => large loops.2.2.1

/-- A comparison is rewritten to one with the same truth value exactly where it is not one of the
three that go wrong. -/
theorem elcmp_sound_iff (config : Config) (env : Environment World) (state : State World)
    (op : Relation) (Ety : Ty) {e1 e2 : Tree} (formed₁ : WellFormed e1) (formed₂ : WellFormed e2)
    (sizes : e1.size = e2.size) (narrow : e1.size ≠ .cent) (pure₁ : sideEffect e1 = false)
    (pure₂ : sideEffect e2 = false) :
    (∃ rounds t, elcmp config rounds op Ety e1 e2 = some t ∧
        truth env state t = truth env state (.bin (.rel op) Ety e1 e2)) ↔
      ¬ Misjudged config env state op Ety e1 e2 := by
  by_cases test : config.optimizer = true ∧ isBitTest op e1 e2 = true
  · have others : Misjudged config env state op Ety e1 e2 ↔ BitTestLoops config op Ety e1 e2 := by
      refine ⟨?_, Or.inl⟩
      have isTest := test.2
      rintro (loops | ⟨-, -, rfl, -⟩ | ⟨_, _, _, _, _, -, rfl, -⟩)
      · exact loops
      · cases isTest
      · unfold isBitTest at isTest
        split at isTest
        next _ _ _ _ _ _ _ same => cases same
        next => cases isTest
    unfold elcmp
    rw [others]
    simp only [if_pos test]
    exact bitTest_truth_iff formed₁ sizes narrow pure₁ test.1 test.2
  · have result (t : Tree) (is : ∀ rounds, elcmp config rounds op Ety e1 e2 = some t) :
        (∃ rounds t, elcmp config rounds op Ety e1 e2 = some t ∧
          truth env state t = truth env state (.bin (.rel op) Ety e1 e2)) ↔
        truth env state t = truth env state (.bin (.rel op) Ety e1 e2) := by
      constructor
      · rintro ⟨rounds, t', ends, same⟩
        obtain rfl := Option.some.inj ((is rounds).symm.trans ends)
        exact same
      · exact fun same => ⟨0, t, is 0, same⟩
    have noLoop : ¬ BitTestLoops config op Ety e1 e2 :=
      fun ⟨optimizer, isTest, _⟩ => test ⟨optimizer, isTest⟩
    cases constant : e2 with
    | const ty2 c =>
      subst constant
      have tySizes : ty2.size = e1.size := sizes.symm
      rw [result (constantRules config op Ety e1 ty2 c) fun _ => if_neg test,
        constantRules_truth_iff formed₁ tySizes narrow pure₁, not_iff_not]
      refine ⟨fun read => Or.inr (Or.inl read), ?_⟩
      rintro (loops | read | ⟨_, _, _, _, _, -, same, -⟩)
      · exact absurd loops noLoop
      · exact read
      · cases same
    | _ =>
      rw [← constant]
      rw [result ((conversionsRule op Ety e1 e2).getD (.bin (.rel op) Ety e1 e2)) fun _ => by
          rw [constant]
          rw [constant] at test
          exact if_neg test,
        conversionsRule_truth_iff formed₁ formed₂ sizes pure₁ pure₂, not_iff_not]
      refine ⟨fun read => Or.inr (Or.inr read), ?_⟩
      rintro (loops | ⟨-, -, -, -, ⟨_, same⟩, -⟩ | read)
      · exact absurd loops noLoop
      · cases constant.symm.trans same
      · exact read

/-- An unsigned operand of eight bytes, compared with the largest value of four. -/
theorem elcmp_sound_unsigned :
    ∃ rounds t, elcmp { is64 := false, optimizer := true } rounds .gt TYint (.leaf TYullong 0)
        (.const TYullong 0xFFFFFFFF#64) = some t ∧
      truth onesEnvironment onesState t = truth onesEnvironment onesState
        (.bin (.rel .gt) TYint (.leaf TYullong 0) (.const TYullong 0xFFFFFFFF#64)) := by
  have size : (Tree.leaf TYullong 0).size ≠ .cent := by decide
  have formed : WellFormed (.leaf TYullong 0) := trivial
  have constantFormed : WellFormed (.const TYullong 0xFFFFFFFF#64) := trivial
  refine (elcmp_sound_iff { is64 := false, optimizer := true } onesEnvironment onesState .gt TYint
    formed constantFormed rfl size rfl rfl).mpr ?_
  rintro (⟨-, test, -⟩ | ⟨-, -, -, -, -, signed, -⟩ | ⟨_, _, _, _, _, same, -⟩)
  · cases test
  · cases signed
  · cases same

/-- `-1` is not above the largest value of four bytes, and its upper half is not zero. -/
theorem elcmp_msw_unsound :
    ∃ t, elcmp { is64 := false, optimizer := true } 0 .gt TYint (.leaf TYllong 0)
        (.const TYllong 0xFFFFFFFF#64) = some t ∧
      truth onesEnvironment onesState t = some true ∧
      truth onesEnvironment onesState
        (.bin (.rel .gt) TYint (.leaf TYllong 0) (.const TYllong 0xFFFFFFFF#64)) = some false := by
  refine ⟨.bin (.rel .ne) TYint (.una .msw TYulong (.leaf TYllong 0)) (.const TYulong 0#64), ?_, ?_,
    ?_⟩
  · decide
  · rw [truth_rel_const rfl, value_una rfl, value, run]
    decide
  · rw [truth_rel_const rfl, value, run]
    decide

end Rules

end LaserD.Cgelem

