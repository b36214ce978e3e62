/-
This file decides for every two compile-time strings whether they are ordered as their
code units are.

Where the units first differ, the interpreter's loops over units are right, and `memcmp`
is right if the bytes of the two units, compared from the lowest up, are ordered as the
units; the constant folder compares a literal with itself, so that only the lengths
decide. Where the units do not differ, the lengths decide everywhere, through an `int`.
-/

import LaserD.Strings.Ctfe
import Mathlib.Data.List.Basic
import Mathlib.Tactic.SplitIfs

namespace LaserD.Strings

/-! ### The first difference -/

/-- The first two units at one position that differ. -/
def firstDifference : List Nat → List Nat → Option (Nat × Nat)
  | u :: us, v :: vs => if u = v then firstDifference us vs else some (u, v)
  | _, _ => none

theorem firstDifference_cons (u v : Nat) (us vs : List Nat) :
    firstDifference (u :: us) (v :: vs) = if u = v then firstDifference us vs else some (u, v) :=
  rfl

theorem compare_of_firstDifference_none :
    ∀ {us vs : List Nat}, firstDifference us vs = none →
      compare us vs = compare us.length vs.length := by
  intro us
  induction us with
  | nil =>
    intro vs _
    cases vs
    · rfl
    · exact (Nat.compare_eq_lt.mpr (Nat.succ_pos _)).symm
  | cons u us inductionHypothesis =>
    intro vs same
    cases vs with
    | nil => exact (Nat.compare_eq_gt.mpr (Nat.succ_pos _)).symm
    | cons v vs =>
      rw [firstDifference_cons] at same
      split_ifs at same with equal
      subst equal
      rw [List.compare_cons_cons, Nat.compare_eq_eq.mpr rfl, Ordering.then, inductionHypothesis same,
        List.length_cons, List.length_cons]
      rw [Nat.compare_eq_ite_lt, Nat.compare_eq_ite_lt]
      simp only [Nat.add_lt_add_iff_right]

theorem firstDifference_ne {us vs : List Nat} {u v : Nat} :
    firstDifference us vs = some (u, v) → u ≠ v := by
  induction us generalizing vs with
  | nil => exact nofun
  | cons u' us inductionHypothesis =>
    cases vs with
    | nil => exact nofun
    | cons v' vs =>
      intro found
      rw [firstDifference_cons] at found
      split_ifs at found with equal
      · exact inductionHypothesis found
      · cases found
        exact equal

theorem firstDifference_mem {us vs : List Nat} {u v : Nat} :
    firstDifference us vs = some (u, v) → u ∈ us ∧ v ∈ vs := by
  induction us generalizing vs with
  | nil => exact nofun
  | cons u' us inductionHypothesis =>
    cases vs with
    | nil => exact nofun
    | cons v' vs =>
      intro found
      rw [firstDifference_cons] at found
      split_ifs at found with equal
      · obtain ⟨left, right⟩ := inductionHypothesis found
        exact ⟨List.mem_cons_of_mem _ left, List.mem_cons_of_mem _ right⟩
      · cases found
        exact ⟨List.mem_cons_self, List.mem_cons_self⟩

theorem compare_of_firstDifference {us vs : List Nat} {u v : Nat} :
    firstDifference us vs = some (u, v) → compare us vs = compare u v := by
  induction us generalizing vs with
  | nil => exact nofun
  | cons u' us inductionHypothesis =>
    cases vs with
    | nil => exact nofun
    | cons v' vs =>
      intro found
      rw [firstDifference_cons] at found
      split_ifs at found with equal
      · subst equal
        rw [List.compare_cons_cons, Nat.compare_eq_eq.mpr rfl, Ordering.then,
          inductionHypothesis found]
      · cases found
        rw [List.compare_cons_cons]
        rcases Nat.lt_or_gt_of_ne equal with less | greater
        · rw [Nat.compare_eq_lt.mpr less]
          rfl
        · rw [Nat.compare_eq_gt.mpr greater]
          rfl

/-- The first difference lies within the shorter length. -/
theorem firstDifference_take :
    ∀ (us vs : List Nat) {n : Nat}, min us.length vs.length ≤ n →
      firstDifference (us.take n) (vs.take n) = firstDifference us vs := by
  intro us
  induction us with
  | nil =>
    intro vs n _
    rw [List.take_nil]
    cases vs.take n <;> cases vs <;> rfl
  | cons u us inductionHypothesis =>
    intro vs n covered
    cases vs with
    | nil => cases n <;> rfl
    | cons v vs =>
      cases n with
      | zero => simp at covered
      | succ n =>
        have covered' : min us.length vs.length ≤ n := by
          simp only [List.length_cons] at covered
          omega
        rw [List.take_succ_cons, List.take_succ_cons, firstDifference_cons, firstDifference_cons,
          inductionHypothesis vs covered']

theorem firstDifference_swap :
    ∀ us vs : List Nat, firstDifference vs us = (firstDifference us vs).map Prod.swap := by
  intro us
  induction us with
  | nil =>
    intro vs
    cases vs <;> rfl
  | cons u us inductionHypothesis =>
    intro vs
    cases vs with
    | nil => rfl
    | cons v vs =>
      rw [firstDifference_cons, firstDifference_cons]
      by_cases equal : u = v
      · rw [if_pos equal, if_pos equal.symm, inductionHypothesis]
      · rw [if_neg equal, if_neg (Ne.symm equal)]
        rfl

/-- Equal units are units without a difference and of one length. -/
theorem eq_iff_firstDifference {us vs : List Nat} :
    us = vs ↔ firstDifference us vs = none ∧ us.length = vs.length := by
  induction us generalizing vs with
  | nil =>
    cases vs with
    | nil => exact ⟨fun _ => ⟨rfl, rfl⟩, fun _ => rfl⟩
    | cons v vs => exact ⟨nofun, fun both => nomatch both.2⟩
  | cons u us inductionHypothesis =>
    cases vs with
    | nil => exact ⟨nofun, fun both => nomatch both.2⟩
    | cons v vs =>
      rw [firstDifference_cons]
      by_cases equal : u = v
      · rw [if_pos equal, List.cons.injEq, List.length_cons, List.length_cons, Nat.succ_inj,
          inductionHypothesis]
        exact ⟨And.right, fun both => ⟨equal, both⟩⟩
      · rw [if_neg equal]
        exact ⟨fun same => absurd (List.cons.inj same).1 equal, fun both => nomatch both.1⟩

/-! ### The loops -/

/-- The order of two numbers, as the loops return it. -/
def orderValue (u v : Nat) : Int :=
  if u < v then -1 else if v < u then 1 else 0

theorem compare_orderValue (u v : Nat) : compare (orderValue u v) 0 = compare u v := by
  unfold orderValue
  rcases Nat.lt_trichotomy u v with less | rfl | greater
  · rw [if_pos less, Nat.compare_eq_lt.mpr less]
    decide
  · rw [if_neg (Nat.lt_irrefl u), if_neg (Nat.lt_irrefl u), Nat.compare_eq_eq.mpr rfl]
    decide
  · rw [if_neg (Nat.lt_asymm greater), if_pos greater, Nat.compare_eq_gt.mpr greater]
    decide

theorem neg_orderValue (u v : Nat) : -orderValue v u = orderValue u v := by
  unfold orderValue
  split_ifs <;> omega

theorem orderValue_ne_zero {u v : Nat} (differ : u ≠ v) : orderValue u v ≠ 0 := by
  unfold orderValue
  split_ifs <;> omega

/-- What a comparison of units returns: the order of the first two that differ. -/
def unitsValue (us vs : List Nat) : Int :=
  match firstDifference us vs with
  | none => 0
  | some (u, v) => orderValue u v

theorem cmpUnits_eq : ∀ us vs : List Nat, cmpUnits us vs = unitsValue us vs := by
  intro us
  induction us with
  | nil =>
    intro vs
    cases vs <;> rfl
  | cons u us inductionHypothesis =>
    intro vs
    cases vs with
    | nil => rfl
    | cons v vs =>
      unfold cmpUnits unitsValue
      rw [firstDifference_cons]
      rcases Nat.lt_trichotomy u v with less | rfl | greater
      · rw [if_neg (Nat.ne_of_lt less)]
        simp [orderValue, less, Nat.lt_asymm less]
      · rw [if_pos rfl, inductionHypothesis]
        simp [unitsValue]
      · rw [if_neg (Nat.ne_of_gt greater)]
        simp [orderValue, greater, Nat.lt_asymm greater]

theorem signedDifference_eq {u v : Nat} (left : u < 2 ^ 32) (right : v < 2 ^ 32) :
    signedDifference u v = (u : Int) - v := by
  unfold signedDifference
  apply Int.bmod_eq_of_le
  · omega
  · omega

theorem cmpElements_eq :
    ∀ us vs : List Nat, (∀ u ∈ us, u < 2 ^ 32) → (∀ v ∈ vs, v < 2 ^ 32) →
      cmpElements us vs = unitsValue us vs := by
  intro us
  induction us with
  | nil =>
    intro vs _ _
    cases vs <;> rfl
  | cons u us inductionHypothesis =>
    intro vs left right
    cases vs with
    | nil => rfl
    | cons v vs =>
      have value := signedDifference_eq (left u List.mem_cons_self) (right v List.mem_cons_self)
      unfold cmpElements unitsValue
      rw [firstDifference_cons]
      rw [value]
      rcases Nat.lt_trichotomy u v with less | rfl | greater
      · rw [if_neg (by omega), if_pos (by omega), if_neg (Nat.ne_of_lt less)]
        simp [orderValue, less]
      · rw [if_neg (by omega), if_neg (by omega), if_pos rfl,
          inductionHypothesis vs (fun w member => left w (List.mem_cons_of_mem _ member))
            (fun w member => right w (List.mem_cons_of_mem _ member))]
        rfl
      · rw [if_pos (by omega), if_neg (Nat.ne_of_gt greater)]
        simp [orderValue, greater, Nat.lt_asymm greater]

/-! ### Bytes -/

theorem length_bytes (sz u : Nat) : (bytes sz u).length = sz := by
  induction sz generalizing u with
  | zero => rfl
  | succ sz inductionHypothesis => rw [bytes, List.length_cons, inductionHypothesis]

theorem memcmp_self (as : List Nat) : memcmp as as = 0 := by
  induction as with
  | nil => rfl
  | cons a as inductionHypothesis =>
    rw [memcmp, if_neg (Nat.lt_irrefl a), if_neg (Nat.lt_irrefl a), inductionHypothesis]

/-- The bytes in front decide, unless they are the same. -/
theorem memcmp_append {as bs cs ds : List Nat} (sameLength : as.length = bs.length) :
    memcmp (as ++ cs) (bs ++ ds) = if memcmp as bs = 0 then memcmp cs ds else memcmp as bs := by
  induction as generalizing bs with
  | nil =>
    cases bs with
    | nil => rfl
    | cons b bs => cases sameLength
  | cons a as inductionHypothesis =>
    cases bs with
    | nil => cases sameLength
    | cons b bs =>
      rw [List.cons_append, List.cons_append, memcmp, memcmp]
      rcases Nat.lt_trichotomy a b with less | rfl | greater
      · rw [if_pos less, if_pos less]
        rfl
      · rw [if_neg (Nat.lt_irrefl a), if_neg (Nat.lt_irrefl a), if_neg (Nat.lt_irrefl a),
          if_neg (Nat.lt_irrefl a), inductionHypothesis (Nat.succ_inj.mp sameLength)]
      · rw [if_neg (Nat.lt_asymm greater), if_neg (Nat.lt_asymm greater), if_pos greater,
          if_pos greater]
        rfl

/-- Units that differ have bytes that differ. -/
theorem eq_of_memcmp_bytes {sz u v : Nat} (left : u < 2 ^ (8 * sz)) (right : v < 2 ^ (8 * sz))
    (same : memcmp (bytes sz u) (bytes sz v) = 0) : u = v := by
  induction sz generalizing u v with
  | zero => omega
  | succ sz inductionHypothesis =>
    have power : 2 ^ (8 * (sz + 1)) = 2 ^ (8 * sz) * 256 := by rw [Nat.mul_succ, Nat.pow_add]
    rw [power] at left right
    rw [bytes, bytes, memcmp] at same
    by_cases less : u % 256 < v % 256
    · rw [if_pos less] at same
      cases same
    by_cases greater : v % 256 < u % 256
    · rw [if_neg less, if_pos greater] at same
      cases same
    rw [if_neg less, if_neg greater] at same
    have higher := inductionHypothesis (Nat.div_lt_of_lt_mul (by rwa [Nat.mul_comm]))
      (Nat.div_lt_of_lt_mul (by rwa [Nat.mul_comm])) same
    omega

/-- What `memcmp` returns on the bytes of units: the order of the bytes of the first two
units that differ. -/
def bytesValue (sz : Nat) (us vs : List Nat) : Int :=
  match firstDifference us vs with
  | none => 0
  | some (u, v) => memcmp (bytes sz u) (bytes sz v)

theorem memcmp_peekData {sz : Nat} :
    ∀ us vs : List Nat, (∀ u ∈ us, u < 2 ^ (8 * sz)) → (∀ v ∈ vs, v < 2 ^ (8 * sz)) →
      memcmp (peekData sz us) (peekData sz vs) = bytesValue sz us vs := by
  intro us
  induction us with
  | nil =>
    intro vs _ _
    cases vs with
    | nil => rfl
    | cons v vs => cases sz <;> rfl
  | cons u us inductionHypothesis =>
    intro vs left right
    cases vs with
    | nil =>
      show memcmp (peekData sz (u :: us)) [] = 0
      cases peekData sz (u :: us) <;> rfl
    | cons v vs =>
      rw [peekData, peekData, List.flatMap_cons, List.flatMap_cons,
        memcmp_append ((length_bytes sz u).trans (length_bytes sz v).symm)]
      unfold bytesValue
      rw [firstDifference_cons]
      by_cases equal : u = v
      · subst equal
        rw [memcmp_self, if_pos rfl, if_pos rfl]
        exact inductionHypothesis vs (fun w member => left w (List.mem_cons_of_mem _ member))
          (fun w member => right w (List.mem_cons_of_mem _ member))
      · have differ : memcmp (bytes sz u) (bytes sz v) ≠ 0 := by
          intro same
          exact equal (eq_of_memcmp_bytes (left u List.mem_cons_self) (right v List.mem_cons_self)
            same)
        rw [if_neg differ, if_neg equal]

theorem peekData_drop (sz : Nat) (us : List Nat) (lo : Nat) :
    (peekData sz us).drop (sz * lo) = peekData sz (us.drop lo) := by
  induction us generalizing lo with
  | nil => rw [List.drop_nil, peekData, List.flatMap_nil, List.drop_nil]
  | cons u us inductionHypothesis =>
    cases lo with
    | zero => rfl
    | succ lo =>
      rw [List.drop_succ_cons, ← inductionHypothesis, peekData, List.flatMap_cons, Nat.mul_succ,
        Nat.add_comm, ← List.drop_drop]
      congr 1
      exact List.drop_left' (length_bytes sz u)

theorem peekData_take (sz : Nat) (us : List Nat) (len : Nat) :
    (peekData sz us).take (sz * len) = peekData sz (us.take len) := by
  induction us generalizing len with
  | nil => rw [List.take_nil, peekData, List.flatMap_nil, List.take_nil]
  | cons u us inductionHypothesis =>
    cases len with
    | zero => rfl
    | succ len =>
      rw [List.take_succ_cons, peekData, List.flatMap_cons, peekData, List.flatMap_cons,
        Nat.mul_succ, Nat.add_comm]
      rw [show sz + sz * len = (bytes sz u).length + sz * len by rw [length_bytes],
        List.take_length_add_append]
      congr 1
      exact inductionHypothesis len

/-! ### The two comparisons -/

section Comparisons

variable {type : CodeUnit}

/-- A string literal or a slice of one. -/
def CtfeArray.ofString (a : CtfeArray type) : Bool :=
  match a.resolve with
  | none => false
  | some (x, _) => x.isString

/-- A string literal. -/
def CtfeArray.isStringExp : CtfeArray type → Bool
  | .literal e => e.isString
  | _ => false

theorem length_units (a : CtfeArray type) : a.units.length = a.resolveArrayLength := by
  cases a with
  | null => rfl
  | literal e => rfl
  | slice e1 lwr upr ordered within =>
    rw [CtfeArray.units, CtfeArray.resolveArrayLength, List.length_take, List.length_drop]
    omega

theorem units_inRange (a : CtfeArray type) : ∀ u ∈ a.units, u < 2 ^ (8 * type.sz) := by
  cases a with
  | null => nofun
  | literal e => exact e.inRange
  | slice e1 lwr upr ordered within =>
    intro u member
    exact e1.inRange u (List.mem_of_mem_drop (List.mem_of_mem_take member))

theorem sz_le (type : CodeUnit) : 2 ^ (8 * type.sz) ≤ 2 ^ 32 := by
  cases type <;> decide

/-- What the resolved literal has in front is what the array has. -/
theorem take_of_resolve {a : CtfeArray type} {x : Literal type} {lo len : Nat}
    (resolved : a.resolve = some (x, lo)) (within : len ≤ a.resolveArrayLength) :
    (x.units.drop lo).take len = a.units.take len := by
  cases a with
  | null => cases resolved
  | literal e =>
    cases resolved
    rfl
  | slice e1 lwr upr ordered _ =>
    obtain ⟨rfl, rfl⟩ : e1 = x ∧ lwr = lo := by
      cases resolved
      exact ⟨rfl, rfl⟩
    have within' : len ≤ upr - lwr := within
    rw [CtfeArray.units, List.take_take, Nat.min_eq_left within']

/-- The comparison of two runs of units, by what the literals are. -/
theorem ctfeCmpArrays_eq (x1 x2 : Literal type) (lo1 lo2 len : Nat) :
    ctfeCmpArrays x1 x2 lo1 lo2 len =
      if x1.isString = true ∧ x2.isString = true then
        bytesValue type.sz ((x1.units.drop lo1).take len) ((x2.units.drop lo2).take len)
      else unitsValue ((x1.units.drop lo1).take len) ((x2.units.drop lo2).take len) := by
  have range1 : ∀ u ∈ (x1.units.drop lo1).take len, u < 2 ^ (8 * type.sz) := by
    intro u member
    exact x1.inRange u (List.mem_of_mem_drop (List.mem_of_mem_take member))
  have range2 : ∀ u ∈ (x2.units.drop lo2).take len, u < 2 ^ (8 * type.sz) := by
    intro u member
    exact x2.inRange u (List.mem_of_mem_drop (List.mem_of_mem_take member))
  unfold ctfeCmpArrays
  cases x1.isString <;> cases x2.isString
  · exact cmpElements_eq _ _ (fun u member => Nat.lt_of_lt_of_le (range1 u member) (sz_le type))
      (fun u member => Nat.lt_of_lt_of_le (range2 u member) (sz_le type))
  · show -sliceCmpStringWithArray _ _ _ _ _ = unitsValue _ _
    rw [sliceCmpStringWithArray, cmpUnits_eq, unitsValue, unitsValue, firstDifference_swap]
    cases firstDifference ((x1.units.drop lo1).take len) ((x2.units.drop lo2).take len) with
    | none => rfl
    | some pair => exact neg_orderValue pair.1 pair.2
  · exact cmpUnits_eq _ _
  · show sliceCmpStringWithString _ _ _ _ _ _ = bytesValue _ _ _
    rw [sliceCmpStringWithString, peekData_drop, peekData_drop, peekData_take, peekData_take,
      memcmp_peekData _ _ range1 range2]

theorem units_of_resolve_none {a : CtfeArray type} (resolved : a.resolve = none) :
    a.units = [] := by
  cases a
  · rfl
  · cases resolved
  · cases resolved

theorem firstDifference_nil_right (us : List Nat) : firstDifference us [] = none := by
  cases us <;> rfl

/-- `ctfeRawCmp`: the order at the first difference, or the difference of the lengths. -/
theorem ctfeRawCmp_eq (a b : CtfeArray type) :
    ctfeRawCmp a b =
      match firstDifference a.units b.units with
      | none => intDifference a.units.length b.units.length
      | some (u, v) =>
        if a.ofString = true ∧ b.ofString = true then
          memcmp (bytes type.sz u) (bytes type.sz v)
        else orderValue u v := by
  unfold ctfeRawCmp CtfeArray.ofString
  rw [length_units, length_units]
  cases resolvedA : a.resolve with
  | none =>
    have emptyA := units_of_resolve_none resolvedA
    have zeroA : a.resolveArrayLength = 0 := by rw [← length_units, emptyA, List.length_nil]
    rw [emptyA, zeroA]
    cases resolvedB : b.resolve with
    | none =>
      have emptyB := units_of_resolve_none resolvedB
      have zeroB : b.resolveArrayLength = 0 := by rw [← length_units, emptyB, List.length_nil]
      rw [emptyB, zeroB]
      show 0 = intDifference 0 0
      decide
    | some y => rfl
  | some x =>
    cases resolvedB : b.resolve with
    | none =>
      have emptyB := units_of_resolve_none resolvedB
      rw [emptyB, firstDifference_nil_right]
    | some y =>
      obtain ⟨x1, lo1⟩ := x
      obtain ⟨x2, lo2⟩ := y
      have cut := firstDifference_take a.units b.units
        (n := min a.resolveArrayLength b.resolveArrayLength)
        (by rw [length_units, length_units])
      dsimp only
      rw [ctfeCmpArrays_eq, take_of_resolve resolvedA (Nat.min_le_left _ _),
        take_of_resolve resolvedB (Nat.min_le_right _ _), bytesValue, unitsValue, cut]
      cases found : firstDifference a.units b.units with
      | none =>
        dsimp only
        rw [ite_self, if_neg (not_not.mpr rfl), ite_self]
      | some pair =>
        obtain ⟨u, v⟩ := pair
        obtain ⟨memberA, memberB⟩ := firstDifference_mem found
        have differ := firstDifference_ne found
        have positiveA : a.resolveArrayLength > 0 :=
          length_units a ▸ List.length_pos_of_mem memberA
        have positiveB : b.resolveArrayLength > 0 :=
          length_units b ▸ List.length_pos_of_mem memberB
        dsimp only
        rw [if_pos ⟨positiveA, positiveB⟩]
        refine if_pos ?_
        split_ifs
        · intro same
          exact differ (eq_of_memcmp_bytes (units_inRange a u memberA) (units_inRange b v memberB)
            same)
        · exact orderValue_ne_zero differ

/-- What `Cmp` returns on two string literals: the order of their lengths. -/
theorem Cmp_eq (op : Relation) (a b : CtfeArray type) :
    Cmp op a b =
      if a.isStringExp = true ∧ b.isStringExp = true then
        some (specificCmp op (intDifference a.units.length b.units.length))
      else none := by
  cases a <;> cases b
  case literal.literal es1 es2 =>
    unfold Cmp CtfeArray.isStringExp CtfeArray.units
    dsimp only
    rw [memcmp_self, if_pos rfl]
  all_goals
    unfold Cmp CtfeArray.isStringExp
    simp

theorem specificCmp_eq (op : Relation) (raw : Int) :
    specificCmp op raw = op.holds (compare raw 0) := by
  rcases Int.lt_trichotomy raw 0 with less | rfl | greater
  · rw [Int.compare_eq_lt.mpr less]
    cases op <;> simp [specificCmp, Relation.holds] <;> omega
  · cases op <;> rfl
  · rw [Int.compare_eq_gt.mpr greater]
    cases op <;> simp [specificCmp, Relation.holds] <;> omega

/-- The four relations tell any two orders apart. -/
theorem order_eq_of_holds {order order' : Ordering}
    (same : ∀ op : Relation, op.holds order = op.holds order') : order = order' := by
  have less := same .lessThan
  have greater := same .greaterThan
  revert less greater
  cases order <;> cases order' <;> decide

theorem eq_iff_zip_all {us vs : List Nat} :
    us = vs ↔ us.length = vs.length ∧ ((us.zip vs).all fun pair => pair.1 = pair.2) = true := by
  induction us generalizing vs with
  | nil =>
    cases vs
    · exact ⟨fun _ => ⟨rfl, rfl⟩, fun _ => rfl⟩
    · exact ⟨nofun, fun both => nomatch both.1⟩
  | cons u us inductionHypothesis =>
    cases vs with
    | nil => exact ⟨nofun, fun both => nomatch both.1⟩
    | cons v vs =>
      rw [List.cons.injEq, inductionHypothesis, List.length_cons, List.length_cons, Nat.succ_inj,
        List.zip_cons_cons, List.all_cons, Bool.and_eq_true, decide_eq_true_iff]
      exact ⟨fun both => ⟨both.2.1, both.1, both.2.2⟩, fun both => ⟨both.2.1, both.1, both.2.2⟩⟩

theorem memcmp_peekData_eq_zero {sz : Nat} {us vs : List Nat}
    (left : ∀ u ∈ us, u < 2 ^ (8 * sz)) (right : ∀ v ∈ vs, v < 2 ^ (8 * sz)) :
    memcmp (peekData sz us) (peekData sz vs) = 0 ↔ firstDifference us vs = none := by
  rw [memcmp_peekData us vs left right, bytesValue]
  cases found : firstDifference us vs with
  | none => exact iff_of_true rfl rfl
  | some pair =>
    obtain ⟨u, v⟩ := pair
    obtain ⟨memberU, memberV⟩ := firstDifference_mem found
    refine iff_of_false ?_ nofun
    intro same
    exact firstDifference_ne found (eq_of_memcmp_bytes (left u memberU) (right v memberV) same)

/-- `Equal` says whether the units are the same, where it says anything. -/
theorem Equal_eq {a b : CtfeArray type} {result : Bool} (folded : Equal a b = some result) :
    result = decide (a.units = b.units) := by
  cases a <;> cases b
  case null.null =>
    cases folded
    rfl
  case null.literal es2 =>
    cases folded
    exact decide_eq_decide.mpr ⟨fun empty => (List.length_eq_zero_iff.mp empty).symm,
      fun empty => List.length_eq_zero_iff.mpr empty.symm⟩
  case literal.null es1 =>
    cases folded
    exact decide_eq_decide.mpr List.length_eq_zero_iff
  case literal.literal es1 es2 =>
    rw [Equal] at folded
    split_ifs at folded with strings
    · cases folded
      refine decide_eq_decide.mpr ?_
      show _ ↔ es1.units = es2.units
      rw [memcmp_peekData_eq_zero es1.inRange es2.inRange, eq_iff_firstDifference, and_comm]
    · cases folded
      exact decide_eq_decide.mpr eq_iff_zip_all.symm
  all_goals cases folded

/-! ### The property and its condition -/

/-- Exactly one of three. -/
def ExactlyOne (p q r : Bool) : Prop :=
  (p = true ∧ q = false ∧ r = false) ∨ (p = false ∧ q = true ∧ r = false) ∨
    (p = false ∧ q = false ∧ r = true)

/-- Two arrays are compared as their code units are: by the interpreter for every
relation, by the constant folder wherever it folds, and exactly one of less, equal and
greater holds in each of them. -/
structure Right (a b : CtfeArray type) : Prop where
  interpreted : ∀ op, ctfeCmp op a b = op.holds (compare a.units b.units)
  folded : ∀ op result, Cmp op a b = some result → result = op.holds (compare a.units b.units)
  one : ExactlyOne (ctfeCmp .lessThan a b) (ctfeEqual a b) (ctfeCmp .greaterThan a b)
  oneFolded : ∀ less equal greater, Cmp .lessThan a b = some less → Equal a b = some equal →
    Cmp .greaterThan a b = some greater → ExactlyOne less equal greater

/-- The condition under which two arrays are compared as their code units are. Without a
difference in their units, the difference of their lengths keeps its sign in an `int`.
With one, the first two units that differ are ordered as their bytes from the lowest up
if both arrays are strings or slices of strings, and as the lengths are, in an `int`, if
both are string literals. -/
def Ordered (a b : CtfeArray type) : Prop :=
  match firstDifference a.units b.units with
  | none =>
    compare (intDifference a.units.length b.units.length) 0 =
      compare a.units.length b.units.length
  | some (u, v) =>
    (a.ofString = true ∧ b.ofString = true →
      compare (memcmp (bytes type.sz u) (bytes type.sz v)) 0 = compare u v) ∧
    (a.isStringExp = true ∧ b.isStringExp = true →
      compare (intDifference a.units.length b.units.length) 0 = compare u v)

/-- The interpreter is right where the raw comparison has the order of the units. -/
theorem compare_ctfeRawCmp_iff (a b : CtfeArray type) :
    (compare (ctfeRawCmp a b) 0 = compare a.units b.units ∧
      (a.isStringExp = true ∧ b.isStringExp = true →
        compare (intDifference a.units.length b.units.length) 0 = compare a.units b.units)) ↔
      Ordered a b := by
  rw [ctfeRawCmp_eq, Ordered]
  cases found : firstDifference a.units b.units with
  | none =>
    dsimp only
    rw [compare_of_firstDifference_none found]
    exact ⟨And.left, fun same => ⟨same, fun _ => same⟩⟩
  | some pair =>
    obtain ⟨u, v⟩ := pair
    dsimp only
    rw [compare_of_firstDifference found]
    by_cases strings : a.ofString = true ∧ b.ofString = true
    · rw [if_pos strings]
      exact ⟨fun both => ⟨fun _ => both.1, both.2⟩, fun both => ⟨both.1 strings, both.2⟩⟩
    · rw [if_neg strings]
      exact ⟨fun both => ⟨fun both' => absurd both' strings, both.2⟩,
        fun both => ⟨compare_orderValue u v, both.2⟩⟩

/-- Arrays that are ordered as their units are equal where their units are. -/
theorem ctfeEqual_eq {a b : CtfeArray type}
    (order : compare (ctfeRawCmp a b) 0 = compare a.units b.units) :
    ctfeEqual a b = decide (a.units = b.units) := by
  refine decide_eq_decide.mpr ?_
  rw [← Int.compare_eq_eq, order]
  exact Std.LawfulEqCmp.compare_eq_iff_eq

/-- One order is exactly one of less, equal and greater. -/
theorem exactlyOne_of_order {us vs : List Nat} :
    ExactlyOne (Relation.lessThan.holds (compare us vs)) (decide (us = vs))
      (Relation.greaterThan.holds (compare us vs)) := by
  have equal : compare us vs = .eq ↔ us = vs := Std.LawfulEqCmp.compare_eq_iff_eq
  cases order : compare us vs
  · exact Or.inl ⟨rfl, decide_eq_false (fun same => by rw [equal.mpr same] at order; cases order), rfl⟩
  · exact Or.inr (Or.inl ⟨rfl, decide_eq_true (equal.mp order), rfl⟩)
  · exact Or.inr (Or.inr ⟨rfl,
      decide_eq_false (fun same => by rw [equal.mpr same] at order; cases order), rfl⟩)

/-- Two arrays are compared as their units exactly under the condition. -/
theorem right_iff_ordered (a b : CtfeArray type) : Right a b ↔ Ordered a b := by
  rw [← compare_ctfeRawCmp_iff]
  constructor
  · intro right
    constructor
    · apply order_eq_of_holds
      intro op
      rw [← specificCmp_eq]
      exact right.interpreted op
    · intro literals
      apply order_eq_of_holds
      intro op
      rw [← specificCmp_eq]
      refine right.folded op _ ?_
      rw [Cmp_eq, if_pos literals]
  · rintro ⟨order, lengths⟩
    have interpreted : ∀ op, ctfeCmp op a b = op.holds (compare a.units b.units) := by
      intro op
      rw [ctfeCmp, specificCmp_eq, order]
    have folded : ∀ op result, Cmp op a b = some result →
        result = op.holds (compare a.units b.units) := by
      intro op result found
      rw [Cmp_eq] at found
      split_ifs at found with literals
      rw [← Option.some.inj found, specificCmp_eq, lengths literals]
    refine ⟨interpreted, folded, ?_, ?_⟩
    · rw [interpreted, interpreted, ctfeEqual_eq order]
      exact exactlyOne_of_order
    · intro less equal greater foundLess foundEqual foundGreater
      rw [folded _ _ foundLess, folded _ _ foundGreater, Equal_eq foundEqual]
      exact exactlyOne_of_order

/-- Strings are compared as their units exactly under the condition, and where it holds
no representation of the same units changes a result. -/
theorem strings_ordered_as_units :
    (∀ a b : CtfeArray type, Right a b ↔ Ordered a b) ∧
      ∀ a b a' b' : CtfeArray type, a.units = a'.units → b.units = b'.units → Ordered a b →
        Ordered a' b' →
          (∀ op, ctfeCmp op a b = ctfeCmp op a' b') ∧ ctfeEqual a b = ctfeEqual a' b' ∧
            (∀ op result, Cmp op a b = some result → result = ctfeCmp op a' b') ∧
            ∀ result, Equal a b = some result → result = ctfeEqual a' b' := by
  refine ⟨right_iff_ordered, ?_⟩
  intro a b a' b' sameA sameB ordered ordered'
  have right := (right_iff_ordered a b).mpr ordered
  have right' := (right_iff_ordered a' b').mpr ordered'
  have order := ((compare_ctfeRawCmp_iff a b).mpr ordered).1
  have order' := ((compare_ctfeRawCmp_iff a' b').mpr ordered').1
  refine ⟨?_, ?_, ?_, ?_⟩
  · intro op
    rw [right.interpreted, right'.interpreted, sameA, sameB]
  · rw [ctfeEqual_eq order, ctfeEqual_eq order', sameA, sameB]
  · intro op result found
    rw [right.folded op result found, right'.interpreted, sameA, sameB]
  · intro result found
    rw [Equal_eq found, ctfeEqual_eq order', sameA, sameB]

end Comparisons

/-! ### Four strings -/

/-- The string literal `"a"`, and the array literal of its characters. -/
def letterA (isString : Bool) : Literal .char where
  isString := isString
  units := [97]
  inRange := by decide
  addressable := by decide

/-- The string literal `"xab"`. -/
def letters : Literal .char where
  isString := true
  units := [120, 97, 98]
  inRange := by decide
  addressable := by decide

/-- The string literal `"b"`. -/
def letterB : Literal .char where
  isString := true
  units := [98]
  inRange := by decide
  addressable := by decide

/-- A `wchar` string literal of one unit. -/
def wide (u : Nat) (small : u < 2 ^ 16) : Literal .wchar where
  isString := true
  units := [u]
  inRange := by
    intro v member
    rw [List.mem_singleton] at member
    rwa [member]
  addressable := show 1 < 2 ^ 64 by decide

/-- `['a'] < "xab"[1 .. 3]`, whatever the representation of the first. -/
theorem strings_ordered_as_units_prefix :
    ctfeCmp .lessThan (.literal (letterA false)) (.slice letters 1 3 (by decide) (by decide)) =
        ctfeCmp .lessThan (.literal (letterA true))
          (.slice letters 1 3 (by decide) (by decide)) ∧
      ctfeCmp .lessThan (.literal (letterA true))
        (.slice letters 1 3 (by decide) (by decide)) = true :=
  ⟨((@strings_ordered_as_units .char).2 (.literal (letterA false))
      (.slice letters 1 3 (by decide) (by decide)) (.literal (letterA true))
      (.slice letters 1 3 (by decide) (by decide)) rfl rfl
      (show compare (intDifference 1 2) 0 = compare 1 2 by decide)
      (show compare (intDifference 1 2) 0 = compare 1 2 by decide)).1 .lessThan, by decide⟩

/-- The constant folder finds `"a" < "b"` false, and the interpreter finds a `wchar` of
256 below a `wchar` of 1. -/
theorem strings_misordered :
    ¬ Right (.literal (letterA true)) (.literal letterB) ∧
      ¬ Right (.literal (wide 256 (by decide))) (.literal (wide 1 (by decide))) := by
  constructor
  · intro right
    exact absurd (right.folded .lessThan false (by decide)) (by decide)
  · intro right
    exact absurd (right.interpreted .lessThan) (by decide)

end LaserD.Strings
