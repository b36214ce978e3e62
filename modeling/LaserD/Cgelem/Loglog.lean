/-
This file proves that a range check with a bit test replaces a run of comparisons.

The scan finds a run of comparisons of one operand with constants, behind some operands of
the chain and before others. The run decides by membership of the value in the set of the
constants. The distances of the constants from the least of them are the bits of the
bitmap, and the distance of the value is one of them where the value is a constant.
-/

import LaserD.Cgelem.Chain

namespace LaserD.Cgelem

section Sound

variable {World : Type} {env : Environment World}

/-! ### The scan -/

/-- A comparison of an operand with a constant between two bounds. -/
def InRun (op : Binary) (x0 : Tree) (emin emax : BitVec 64) (eq : Tree) : Prop :=
  ∃ x m, candidate op eq = some (x, m) ∧ (x = x0 ∨ elMatch x0 x = true) ∧ emin ≤ m ∧ m ≤ emax

theorem InRun.mono {op : Binary} {x0 eq : Tree} {emin emax emin' emax' : BitVec 64}
    (inRun : InRun op x0 emin emax eq) (lower : emin' ≤ emin) (upper : emax ≤ emax') :
    InRun op x0 emin' emax' eq := by
  obtain ⟨x, m, is, same, low, high⟩ := inRun
  exact ⟨x, m, is, same, BitVec.le_trans lower low, BitVec.le_trans high upper⟩

/-- A list is the run that the variables of the scan describe, behind another list. -/
structure IsRun (op : Binary) (before run : List Tree) (s : Scan) : Prop where
  first : before.length = s.first
  length : run.length = s.last - s.first + 1
  order : s.first ≤ s.last
  operand : ∃ x0 m0 eq0 rest, run = eq0 :: rest ∧ candidate op eq0 = some (x0, m0) ∧
    ∀ eq ∈ run, InRun op x0 s.emin s.emax eq

/-- A run of one comparison. -/
theorem isRun_start {op : Binary} {eq x : Tree} {m : BitVec 64} (before : List Tree)
    (is : candidate op eq = some (x, m)) :
    IsRun op before [eq] (Scan.start before.length m) where
  first := rfl
  length := by
    show 1 = before.length - before.length + 1
    rw [Nat.sub_self]
  order := le_rfl
  operand := by
    refine ⟨x, m, eq, [], rfl, is, fun eq' member => ?_⟩
    obtain rfl := List.mem_singleton.mp member
    exact ⟨x, m, is, Or.inl rfl, BitVec.le_refl m, BitVec.le_refl m⟩

/-- A run and one more comparison of its operand. -/
theorem isRun_extend {op : Binary} {before run : List Tree} {s : Scan} {eq x : Tree} {m : BitVec 64}
    (isRun : IsRun op before run s) (is : candidate op eq = some (x, m))
    (same : ((run.head?).bind (candidate op)).any (fun first => elMatch first.1 x) = true) :
    IsRun op before (run ++ [eq]) (s.extend (s.last + 1) m) where
  first := isRun.first
  length := by
    have order := isRun.order
    show (run ++ [eq]).length = s.last + 1 - s.first + 1
    rw [List.length_append, isRun.length, List.length_singleton]
    omega
  order := Nat.le_succ_of_le isRun.order
  operand := by
    obtain ⟨x0, m0, eq0, rest, rfl, isFirst, all⟩ := isRun.operand
    have lower : (s.extend (s.last + 1) m).emin ≤ s.emin ∧ (s.extend (s.last + 1) m).emin ≤ m := by
      show (if m < s.emin then m else s.emin) ≤ s.emin ∧ (if m < s.emin then m else s.emin) ≤ m
      simp only [BitVec.le_def, BitVec.lt_def]
      split_ifs <;> omega
    have upper : s.emax ≤ (s.extend (s.last + 1) m).emax ∧ m ≤ (s.extend (s.last + 1) m).emax := by
      show s.emax ≤ (if s.emax < m then m else s.emax) ∧ m ≤ (if s.emax < m then m else s.emax)
      simp only [BitVec.le_def, BitVec.lt_def]
      split_ifs <;> omega
    refine ⟨x0, m0, eq0, rest ++ [eq], rfl, isFirst, fun eq' member => ?_⟩
    rcases List.mem_append.mp member with old | new
    · exact (all eq' old).mono lower.1 upper.1
    · obtain rfl := List.mem_singleton.mp new
      simp only [List.head?_cons, Option.bind_some, isFirst, Option.any_some] at same
      exact ⟨x, m, is, Or.inr same, lower.2, upper.2⟩

/-- What the scan finds is a run of the operands. -/
theorem scan_isRun (op : Binary) (rest : List Tree) : ∀ (pre : List Tree) (s : Scan),
    (s.any = true → ∃ before run, pre = before ++ run ∧ IsRun op before run s) →
    (scan op (pre ++ rest) pre.length rest s).any = true →
    ∃ before run after, pre ++ rest = before ++ run ++ after ∧
      IsRun op before run (scan op (pre ++ rest) pre.length rest s) := by
  induction rest with
  | nil =>
    intro pre s invariant any
    obtain ⟨before, run, split, isRun⟩ := invariant any
    exact ⟨before, run, [], by rw [split, List.append_nil], isRun⟩
  | cons eq rest inductionHypothesis =>
    intro pre s invariant any
    have shift : pre ++ eq :: rest = (pre ++ [eq]) ++ rest := by
      rw [List.append_assoc]
      rfl
    have size : pre.length + 1 = (pre ++ [eq]).length := by
      rw [List.length_append]
      rfl
    have stop (anyRun : s.any = true) : ∃ before run after,
        pre ++ eq :: rest = before ++ run ++ after ∧ IsRun op before run s := by
      obtain ⟨before, run, split, isRun⟩ := invariant anyRun
      exact ⟨before, run, eq :: rest, by rw [split], isRun⟩
    have start {x : Tree} {m : BitVec 64} (is : candidate op eq = some (x, m))
        (any : (scan op (pre ++ eq :: rest) (pre.length + 1) rest
          (Scan.start pre.length m)).any = true) :
        ∃ before run after, pre ++ eq :: rest = before ++ run ++ after ∧
          IsRun op before run (scan op (pre ++ eq :: rest) (pre.length + 1) rest
            (Scan.start pre.length m)) := by
      rw [shift, size] at any ⊢
      exact inductionHypothesis _ _ (fun _ => ⟨pre, [eq], rfl, isRun_start pre is⟩) any
    rw [scan] at any ⊢
    cases is : candidate op eq with
    | some found =>
      obtain ⟨x, m⟩ := found
      rw [is] at any
      dsimp only at any ⊢
      by_cases anyRun : s.any = true
      · rw [if_pos anyRun] at any ⊢
        split_ifs at any ⊢ with same long
        · obtain ⟨before, run, split, isRun⟩ := invariant anyRun
          have position : pre.length = s.last + 1 := by
            have order := isRun.order
            rw [split, List.length_append, isRun.first, isRun.length]
            omega
          have head : (pre ++ eq :: rest)[s.first]? = run.head? := by
            obtain ⟨_, _, eq0, others, rfl, -⟩ := isRun.operand
            rw [split, ← isRun.first, List.append_assoc, List.getElem?_append_right le_rfl,
              Nat.sub_self]
            rfl
          rw [head] at same
          have extended := isRun_extend isRun is same
          rw [← position] at extended
          rw [shift, size] at any ⊢
          refine inductionHypothesis _ _ (fun _ => ⟨before, run ++ [eq], ?_, extended⟩) any
          rw [split, List.append_assoc]
        · exact stop anyRun
        · exact start is any
      · rw [if_neg anyRun] at any ⊢
        exact start is any
    | none =>
      rw [is] at any
      dsimp only at any ⊢
      split_ifs at any ⊢ with long
      · exact stop long.1
      · rw [shift, size] at any ⊢
        exact inductionHypothesis _ _ (fun impossible => nomatch impossible) any

/-! ### The run and the range test -/

/-- The trees of a chain are well formed where the chain is. -/
theorem wellFormed_opArray (isOr : Bool) (e : Tree) (formed : WellFormed e) :
    ∀ operand ∈ opArray (logical isOr) e, WellFormed operand := by
  induction e with
  | bin Eoper Ety E1 E2 first second =>
    rw [opArray]
    split_ifs
    · intro operand member
      rcases List.mem_append.mp member with left | right
      · exact first formed.1 operand left
      · exact second formed.2.1 operand right
    · intro operand member
      rwa [List.mem_singleton.mp member]
  | _ =>
    intro operand member
    rwa [List.mem_singleton.mp member]

theorem candidate_eq {isOr : Bool} {eq x : Tree} {m : BitVec 64}
    (is : candidate (logical isOr) eq = some (x, m)) :
    ∃ Ety ty c, eq = .bin (.rel (if isOr then .eqeq else .ne)) Ety x (.const ty c) ∧
      sideEffect x = false ∧ m = elTolong ty c := by
  unfold candidate at is
  split at is
  next relation Ety x' ty c =>
    split_ifs at is with fits
    obtain ⟨rfl, pure⟩ := fits
    obtain ⟨rfl, rfl⟩ := Prod.mk.inj (Option.some.inj is)
    refine ⟨Ety, ty, c, ?_, pure, rfl⟩
    cases isOr <;> rfl
  next => exact nomatch is

/-- A comparison of the run decides by the value of the operand. -/
theorem run_candidate {isOr : Bool} {eq x : Tree} {m : BitVec 64}
    (is : candidate (logical isOr) eq = some (x, m)) (formed : WellFormed eq)
    (state : State World) :
    WellFormed x ∧ sideEffect x = false ∧
      run env eq state = (value env state x).map fun v =>
        (ofBool (decide (v = low x.size m.toNat) == isOr), state) := by
  obtain ⟨Ety, ty, c, rfl, pure, rfl⟩ := candidate_eq is
  have sizes : x.size = ty.size := formed.2.2
  refine ⟨formed.1, pure, ?_⟩
  have comparisonPure : sideEffect (.bin (.rel (if isOr then .eqeq else .ne)) Ety x (.const ty c)) =
      false := by
    rw [sideEffect, pure]
    rfl
  rw [run_eq_value comparisonPure, value_rel pure rfl, value_const, sizes, low_elTolong]
  cases value env state x with
  | none => rfl
  | some v =>
    refine congrArg (fun b => some (ofBool b, state)) ?_
    cases isOr with
    | true =>
      show (v == low ty.size c.toNat) = (decide (v = low ty.size c.toNat) == true)
      rw [beq_true]
      rfl
    | false =>
      show (v != low ty.size c.toNat) = (decide (v = low ty.size c.toNat) == false)
      rw [beq_false]
      rfl

/-- Whether a value is one of the constants of a run. -/
def Hits (op : Binary) (size : Size) (run : List Tree) (v : Nat) : Prop :=
  ∃ eq ∈ run, ∃ x m, candidate op eq = some (x, m) ∧ v = low size m.toNat

/-- A run decides by whether the value of its operand is one of its constants. -/
theorem chain_run {isOr : Bool} {x0 : Tree} {emin emax : BitVec 64} {state : State World} {v : Nat}
    (formed0 : WellFormed x0) (has : value env state x0 = some v) (eqs : List Tree)
    (formed : ∀ eq ∈ eqs, WellFormed eq)
    (all : ∀ eq ∈ eqs, InRun (logical isOr) x0 emin emax eq) :
    ∃ b, chain env isOr eqs state = some (ofBool b, state) ∧
      (b = isOr ↔ Hits (logical isOr) x0.size eqs v) := by
  induction eqs with
  | nil =>
    refine ⟨!isOr, rfl, iff_of_false (by cases isOr <;> decide) ?_⟩
    rintro ⟨_, member, -⟩
    exact nomatch member
  | cons eq rest inductionHypothesis =>
    obtain ⟨x, m, is, same, -⟩ := all eq List.mem_cons_self
    have decides := @run_candidate World env isOr eq x m is (formed eq List.mem_cons_self) state
    obtain ⟨formedX, -, runs⟩ := decides
    have alike : Alike env x0 x := by
      rcases same with rfl | matching
      · exact ⟨rfl, rfl, rfl, rfl, rfl⟩
      · exact alike_of_elMatch x0 x matching formed0 formedX
    have value : Cgelem.value env state x = some v := by
      rw [← has]
      unfold Cgelem.value
      rw [alike.runs]
    rw [value, ← alike.size] at runs
    obtain ⟨b, tail, hits⟩ := inductionHypothesis
      (fun eq member => formed eq (List.mem_cons_of_mem _ member))
      (fun eq member => all eq (List.mem_cons_of_mem _ member))
    have truth : decide (ofBool (decide (v = low x0.size m.toNat) == isOr) ≠ 0) =
        (decide (v = low x0.size m.toNat) == isOr) := by
      cases decide (v = low x0.size m.toNat) == isOr <;> rfl
    rw [chain, runs]
    show ∃ b, (if decide (ofBool (decide (v = low x0.size m.toNat) == isOr) ≠ 0) = isOr then
        some (ofBool isOr, state) else chain env isOr rest state) = some (ofBool b, state) ∧ _
    rw [truth]
    by_cases hit : v = low x0.size m.toNat
    · refine ⟨isOr, ?_, iff_of_true rfl ⟨eq, List.mem_cons_self, x, m, is, hit⟩⟩
      rw [decide_eq_true hit]
      cases isOr <;> rfl
    · refine ⟨b, ?_, hits.trans ?_⟩
      · rw [decide_eq_false hit, tail]
        cases isOr <;> rfl
      · constructor
        · rintro ⟨eq', member, rest⟩
          exact ⟨eq', List.mem_cons_of_mem _ member, rest⟩
        · rintro ⟨eq', member, x', m', is', hit'⟩
          rcases List.mem_cons.mp member with rfl | member
          · obtain ⟨-, rfl⟩ := Prod.mk.inj (Option.some.inj (is.symm.trans is'))
            exact absurd hit' hit
          · exact ⟨eq', member, x', m', is', hit'⟩

/-- The constants of a run are the bits of its bitmap. -/
theorem getLsbD_bitmap (op : Binary) (emin : BitVec 64) (eqs : List Tree) {d : Nat}
    (inside : d < 64) :
    (bitmap op emin eqs).getLsbD d = true ↔
      ∃ eq ∈ eqs, ∃ x m, candidate op eq = some (x, m) ∧ (m - emin).toNat = d := by
  have folded : ∀ bits : BitVec 64, (eqs.foldl (fun bits eq =>
      (candidate op eq).elim bits fun found => bits ||| 1#64 <<< (found.2 - emin)) bits).getLsbD d =
        true ↔ bits.getLsbD d = true ∨
          ∃ eq ∈ eqs, ∃ x m, candidate op eq = some (x, m) ∧ (m - emin).toNat = d := by
    induction eqs with
    | nil => simp
    | cons eq rest inductionHypothesis =>
      intro bits
      rw [List.foldl_cons, inductionHypothesis]
      cases is : candidate op eq with
      | none =>
        refine or_congr Iff.rfl ?_
        simp [is]
      | some found =>
        obtain ⟨x, m⟩ := found
        have one : (1#64 <<< (m - emin)).getLsbD d = true ↔ (m - emin).toNat = d := by
          rw [BitVec.shiftLeft_eq', BitVec.getLsbD_shiftLeft, BitVec.getLsbD_one]
          simp only [Bool.and_eq_true, Bool.not_eq_true', decide_eq_true_eq,
            decide_eq_false_iff_not]
          omega
        simp only [Option.elim_some, BitVec.getLsbD_or, Bool.or_eq_true, one, List.mem_cons,
          exists_eq_or_imp, is, Option.some.injEq, Prod.mk.injEq]
        constructor
        · rintro ((old | new) | later)
          · exact Or.inl old
          · exact Or.inr (Or.inl ⟨x, m, ⟨rfl, rfl⟩, new⟩)
          · exact Or.inr (Or.inr later)
        · rintro (old | ⟨_, _, ⟨rfl, rfl⟩, new⟩ | later)
          · exact Or.inl (Or.inl old)
          · exact Or.inl (Or.inr new)
          · exact Or.inr later
  have spelled : bitmap op emin eqs = eqs.foldl (fun bits eq =>
      (candidate op eq).elim bits fun found => bits ||| 1#64 <<< (found.2 - emin)) 0 := by
    refine congrArg (List.foldl · 0 eqs) (funext fun bits => funext fun eq => ?_)
    cases candidate op eq <;> rfl
  have zero : (0 : BitVec 64).getLsbD d = false := BitVec.getLsbD_zero
  rw [spelled, folded, zero]
  simp only [Bool.false_eq_true, false_or]

/-- A value is a constant exactly where its distance from the least constant is. -/
theorem wrap_sub_eq_iff (size : Size) {v e d : Nat} (vSmall : v < 2 ^ size.bits)
    (dSmall : d < 2 ^ size.bits) :
    wrap size ((v : Int) - (low size e : Nat)) = d ↔ v = low size (e + d) := by
  unfold wrap low
  cases size <;> simp only [Size.bits] at vSmall dSmall ⊢ <;> omega

section Test

variable {x y : Tree} {state : State World} {v : Nat} {emin emax : BitVec 64}
variable (pureX : sideEffect x = false) (has : value env state x = some v)

include pureX has

/-- The distance of the operand from the least constant. -/
theorem value_distance :
    value env state (.bin (.arith .min) x.ty x (elLong x.ty emin)) =
      some (wrap x.size ((v : Int) - (low x.size emin.toNat : Nat))) := by
  unfold elLong
  rw [value_arith pureX rfl, has, Option.bind_some, value_const, Option.bind_some]
  exact congrArg some (low_of_lt (wrap_lt _ _))

/-- The shift count is the distance. -/
theorem value_countOf (narrow : x.size ≠ .cent)
    (small : wrap x.size ((v : Int) - (low x.size emin.toNat : Nat)) < 64) :
    sideEffect (countOf x.ty (.bin (.arith .min) x.ty x (elLong x.ty emin))) = false ∧
      value env state (countOf x.ty (.bin (.arith .min) x.ty x (elLong x.ty emin))) =
        some (wrap x.size ((v : Int) - (low x.size emin.toNat : Nat))) := by
  have distancePure : sideEffect (.bin (.arith .min) x.ty x (elLong x.ty emin)) = false := by
    rw [sideEffect, pureX]
    rfl
  have distance := @value_distance World env x state v emin pureX has
  have fits : low .long (wrap x.size ((v : Int) - (low x.size emin.toNat : Nat))) =
      wrap x.size ((v : Int) - (low x.size emin.toNat : Nat)) :=
    low_of_lt (Nat.lt_trans small (by decide))
  unfold countOf
  cases size : x.ty.size with
  | char =>
    refine ⟨distancePure, ?_⟩
    have firstPure : sideEffect
        (.una .u8_16 TYint (.bin (.arith .min) x.ty x (elLong x.ty emin))) = false := distancePure
    rw [value_una firstPure, value_una distancePure, distance]
    refine congrArg some ?_
    show low .long (low .long (wrap x.size ((v : Int) - (low x.size emin.toNat : Nat)))) =
      wrap x.size ((v : Int) - (low x.size emin.toNat : Nat))
    rw [fits, fits]
  | short =>
    refine ⟨distancePure, ?_⟩
    rw [value_una distancePure, distance]
    exact congrArg some fits
  | long => exact ⟨distancePure, distance⟩
  | llong =>
    refine ⟨distancePure, ?_⟩
    rw [value_una distancePure, distance]
    exact congrArg some fits
  | cent => exact absurd size narrow

/-- The range check. -/
theorem truthRun_rangeCheck (isOr : Bool) (fits : (emax - emin).toNat < 64) :
    truthRun env (.bin (.rel (if isOr then .le else .gt)) TYbool
        (.bin (.arith .min) x.ty x (elLong x.ty emin)) (elLong (touns x.ty) (emax - emin))) state =
      some (ofBool (decide (wrap x.size ((v : Int) - (low x.size emin.toNat : Nat)) ≤
        (emax - emin).toNat) == isOr), state) := by
  have distancePure : sideEffect (.bin (.arith .min) x.ty x (elLong x.ty emin)) = false := by
    rw [sideEffect, pureX]
    rfl
  have checkPure : sideEffect (.bin (.rel (if isOr then .le else .gt)) TYbool
      (.bin (.arith .min) x.ty x (elLong x.ty emin)) (elLong (touns x.ty) (emax - emin))) =
        false := by
    rw [sideEffect, distancePure]
    rfl
  have bound : low x.size (emax - emin).toNat = (emax - emin).toNat :=
    low_of_lt (Nat.lt_trans fits (by cases x.size <;> decide))
  have distance := @value_distance World env x state v emin pureX has
  rw [truthRun, run_eq_value checkPure, value_rel distancePure rfl, distance]
  unfold elLong
  rw [value_const]
  generalize wrap x.size ((v : Int) - (low x.size emin.toNat : Nat)) = w
  show some (ofBool (decide (ofBool (relation _ x.size (_ || true) w (low x.size _)) ≠ 0)), state) =
    _
  rw [bound, Bool.or_true]
  refine congrArg (fun b => some (ofBool b, state)) ?_
  have truth (b : Bool) : decide (ofBool b ≠ 0) = b := by cases b <;> rfl
  rw [truth]
  cases isOr with
  | true =>
    show (!decide ((emax - emin).toNat < w)) = (decide (w ≤ (emax - emin).toNat) == true)
    rw [beq_true, ← decide_not, decide_eq_decide]
    exact Nat.not_lt
  | false =>
    show decide ((emax - emin).toNat < w) = (decide (w ≤ (emax - emin).toNat) == false)
    rw [beq_false, ← decide_not, decide_eq_decide]
    exact Nat.not_le.symm

/-- The bit test, where the range check holds. -/
theorem truthRun_bitTest (narrow : x.size ≠ .cent) (fits : (emax - emin).toNat < 64)
    (bits : BitVec 64)
    (inside : wrap x.size ((v : Int) - (low x.size emin.toNat : Nat)) ≤ (emax - emin).toNat) :
    truthRun env (.bin .btst TYbool
        (elLong (if 32 ≤ (emax - emin).toNat then TYullong else TYuint) bits)
        (countOf x.ty (.bin (.arith .min) x.ty x (elLong x.ty emin)))) state =
      some (ofBool (bits.getLsbD (wrap x.size ((v : Int) - (low x.size emin.toNat : Nat)))),
        state) := by
  obtain ⟨countPure, count⟩ := @value_countOf World env x state v emin pureX has narrow
    (Nat.lt_of_le_of_lt inside fits)
  have truth (b : Bool) : decide (ofBool b ≠ 0) = b := by cases b <;> rfl
  unfold elLong at count countPure ⊢
  rw [truthRun, run, run]
  show (Option.bind _ _).map _ = _
  simp only [Option.bind_eq_bind, Option.bind_some, run_eq_value countPure, count, Option.map_some,
    truth]
  refine congrArg (fun b => some (ofBool b, state)) ?_
  generalize wrap x.size ((v : Int) - (low x.size emin.toNat : Nat)) = w at inside
  by_cases wide : 32 ≤ (emax - emin).toNat
  · rw [if_pos wide]
    show (low .llong bits.toNat).testBit (w % 64) = _
    rw [Nat.mod_eq_of_lt (Nat.lt_of_le_of_lt inside fits)]
    unfold low
    rw [show Size.llong.bits = 64 from rfl, Nat.mod_eq_of_lt bits.isLt, BitVec.testBit_toNat]
  · rw [if_neg wide]
    have small : w < 32 := Nat.lt_of_le_of_lt inside (Nat.lt_of_not_le wide)
    show (low .long bits.toNat).testBit (w % 32) = _
    rw [Nat.mod_eq_of_lt small]
    unfold low
    rw [show Size.long.bits = 32 from rfl, Nat.testBit_mod_two_pow, decide_eq_true small,
      Bool.true_and, BitVec.testBit_toNat]

end Test

section RangeTest

variable {x y : Tree} {state : State World} {v : Nat} {emin emax : BitVec 64}

/-- The range test decides by whether the distance is in the range and its bit is set. -/
theorem run_rangeTest {isOr : Bool} {bits : BitVec 64} {ty : Ty} (pureX : sideEffect x = false)
    (has : value env state x = some v) (alike : Alike env x y) (pureY : sideEffect y = false)
    (narrow : x.size ≠ .cent) (fits : (emax - emin).toNat < 64) :
    ∃ b, run env (rangeTest (logical isOr) ty x y emin emax (if isOr then bits else ~~~bits))
        state = some (ofBool b, state) ∧
      (b = isOr ↔ wrap x.size ((v : Int) - (low x.size emin.toNat : Nat)) ≤ (emax - emin).toNat ∧
        bits.getLsbD (wrap x.size ((v : Int) - (low x.size emin.toNat : Nat))) = true) := by
  have hasY : value env state y = some v := by
    rw [← has]
    unfold value
    rw [alike.runs]
  have test : rangeTest (logical isOr) ty x y emin emax (if isOr then bits else ~~~bits) =
      .bin (logical (!isOr)) ty (.bin (.rel (if isOr then .le else .gt)) TYbool
        (.bin (.arith .min) x.ty x (elLong x.ty emin)) (elLong (touns x.ty) (emax - emin)))
        (.bin .btst TYbool (elLong (if 32 ≤ (emax - emin).toNat then TYullong else TYuint)
          (if isOr then bits else ~~~bits))
          (countOf y.ty (.bin (.arith .min) y.ty y (elLong y.ty emin)))) := by
    unfold rangeTest
    rw [← alike.ty]
    cases isOr <;> rfl
  rw [test, run_logical, truthRun_rangeCheck pureX has isOr fits]
  by_cases inside : wrap x.size ((v : Int) - (low x.size emin.toNat : Nat)) ≤ (emax - emin).toNat
  · have insideY := inside
    rw [alike.size] at insideY
    have bitTest := truthRun_bitTest pureY hasY (alike.size ▸ narrow) fits
      (if isOr then bits else ~~~bits) insideY
    rw [decide_eq_true inside]
    refine ⟨bits.getLsbD (wrap x.size ((v : Int) - (low x.size emin.toNat : Nat))) == isOr, ?_, ?_⟩
    · show (if ofBool (true == isOr) = ofBool (!isOr) then _ else _) = _
      rw [if_neg (by cases isOr <;> decide), bitTest, ← alike.size]
      refine congrArg (fun b => some (ofBool b, state)) ?_
      have below : wrap x.size ((v : Int) - (low x.size emin.toNat : Nat)) < 64 :=
        Nat.lt_of_le_of_lt inside fits
      cases isOr with
      | true => rw [if_pos rfl, beq_true]
      | false =>
        rw [if_neg Bool.false_ne_true, beq_false, BitVec.getLsbD_not, decide_eq_true below,
          Bool.true_and]
    · rw [and_iff_right inside]
      cases isOr <;> simp
  · rw [decide_eq_false inside]
    refine ⟨!isOr, ?_, ?_⟩
    · show (if ofBool (false == isOr) = ofBool (!isOr) then _ else _) = _
      rw [if_pos (by cases isOr <;> rfl)]
      cases isOr <;> rfl
    · refine iff_of_false (by cases isOr <;> decide) fun both => inside both.1

end RangeTest

/-! ### The rewriting of a chain -/

/-- The value of the operand is a constant of the run exactly where its distance is in the range and
is a bit of the bitmap. -/
theorem hits_iff {op : Binary} {x0 : Tree} {emin emax : BitVec 64} {eqs : List Tree} {v : Nat}
    (small : v < 2 ^ x0.size.bits) (fits : (emax - emin).toNat < 64)
    (all : ∀ eq ∈ eqs, InRun op x0 emin emax eq) :
    Hits op x0.size eqs v ↔
      wrap x0.size ((v : Int) - (low x0.size emin.toNat : Nat)) ≤ (emax - emin).toNat ∧
        (bitmap op emin eqs).getLsbD
          (wrap x0.size ((v : Int) - (low x0.size emin.toNat : Nat))) = true := by
  have distance {eq x : Tree} {m : BitVec 64} (member : eq ∈ eqs)
      (is : candidate op eq = some (x, m)) :
      (m - emin).toNat ≤ (emax - emin).toNat ∧ m.toNat = emin.toNat + (m - emin).toNat := by
    obtain ⟨x', m', is', -, lower, upper⟩ := all eq member
    obtain ⟨-, rfl⟩ := Prod.mk.inj (Option.some.inj (is.symm.trans is'))
    have whole := BitVec.le_trans lower upper
    rw [BitVec.toNat_sub_of_le lower, BitVec.toNat_sub_of_le whole]
    rw [BitVec.le_def] at lower upper
    omega
  have fitsSize {d : Nat} (within : d ≤ (emax - emin).toNat) : d < 2 ^ x0.size.bits :=
    Nat.lt_trans (Nat.lt_of_le_of_lt within fits) (by cases x0.size <;> decide)
  constructor
  · rintro ⟨eq, member, x, m, is, hit⟩
    obtain ⟨within, exact_⟩ := distance member is
    rw [exact_] at hit
    have isDistance := (wrap_sub_eq_iff x0.size small (fitsSize within)).mpr hit
    rw [isDistance]
    exact ⟨within, (getLsbD_bitmap op emin eqs (Nat.lt_of_le_of_lt within fits)).mpr
      ⟨eq, member, x, m, is, rfl⟩⟩
  · rintro ⟨within, bit⟩
    obtain ⟨eq, member, x, m, is, isDistance⟩ :=
      (getLsbD_bitmap op emin eqs (Nat.lt_of_le_of_lt within fits)).mp bit
    obtain ⟨inside, exact_⟩ := distance member is
    refine ⟨eq, member, x, m, is, ?_⟩
    rw [exact_]
    exact (wrap_sub_eq_iff x0.size small (fitsSize inside)).mp isDistance.symm

/-- Operands without a value leave neither test a value. -/
theorem run_rangeTest_none {isOr : Bool} {ty : Ty} {x y : Tree} {emin emax bits : BitVec 64}
    {state : State World} (pureX : sideEffect x = false) (undefined : value env state x = none) :
    run env (rangeTest (logical isOr) ty x y emin emax bits) state = none := by
  have distancePure : sideEffect (.bin (.arith .min) x.ty x (elLong x.ty emin)) = false := by
    rw [sideEffect, pureX]
    rfl
  have checkPure (relation : Relation) : sideEffect (.bin (.rel relation) TYbool
      (.bin (.arith .min) x.ty x (elLong x.ty emin)) (elLong (touns x.ty) (emax - emin))) =
        false := by
    rw [sideEffect, distancePure]
    rfl
  have check (relation : Relation) : truthRun env (.bin (.rel relation) TYbool
      (.bin (.arith .min) x.ty x (elLong x.ty emin)) (elLong (touns x.ty) (emax - emin))) state =
        none := by
    rw [truthRun, run_eq_value (checkPure relation), value_rel distancePure rfl,
      value_arith pureX rfl, undefined]
    rfl
  have root : (if logical isOr = .andand then Binary.oror else .andand) = logical (!isOr) := by
    cases isOr <;> rfl
  unfold rangeTest
  dsimp only
  rw [root, run_logical, check]
  rfl

/-- A range test is zero or one. -/
theorem truthRun_rangeTest {isOr : Bool} {ty : Ty} {x y : Tree} {emin emax bits : BitVec 64}
    (state : State World) :
    truthRun env (rangeTest (logical isOr) ty x y emin emax bits) state =
      run env (rangeTest (logical isOr) ty x y emin emax bits) state := by
  have root : (if logical isOr = .andand then Binary.oror else .andand) = logical (!isOr) := by
    cases isOr <;> rfl
  unfold rangeTest
  dsimp only
  rw [root]
  exact truthRun_logical (!isOr) ty _ _ state

/-- A run and its range test decide alike. -/
theorem chain_run_eq {isOr : Bool} {ty : Ty} {x0 y : Tree} {emin emax : BitVec 64}
    {eq0 : Tree} {m0 : BitVec 64} {rest : List Tree} (state : State World)
    (formed : ∀ eq ∈ eq0 :: rest, WellFormed eq)
    (isFirst : candidate (logical isOr) eq0 = some (x0, m0))
    (all : ∀ eq ∈ eq0 :: rest, InRun (logical isOr) x0 emin emax eq) (alike : Alike env x0 y)
    (pureY : sideEffect y = false) (narrow : x0.size ≠ .cent) (fits : (emax - emin).toNat < 64) :
    chain env isOr (eq0 :: rest) state =
      run env (rangeTest (logical isOr) ty x0 y emin emax
        (if isOr then bitmap (logical isOr) emin (eq0 :: rest)
          else ~~~bitmap (logical isOr) emin (eq0 :: rest))) state := by
  obtain ⟨formedX, pureX, runs⟩ := @run_candidate World env isOr eq0 x0 m0 isFirst
    (formed eq0 List.mem_cons_self) state
  cases has : value env state x0 with
  | none =>
    rw [run_rangeTest_none pureX has, chain, runs, has]
    rfl
  | some v =>
    obtain ⟨b, decides, isHit⟩ := chain_run formedX has (eq0 :: rest) formed all
    obtain ⟨b', decides', isHit'⟩ := @run_rangeTest World env x0 y state v emin emax isOr
      (bitmap (logical isOr) emin (eq0 :: rest)) ty pureX has alike pureY narrow fits
    have same : b = isOr ↔ b' = isOr := by
      rw [isHit, isHit', hits_iff (value_lt has) fits all]
    rw [decides, decides']
    refine congrArg (fun b => some (ofBool b, state)) ?_
    revert same
    cases b <;> cases b' <;> cases isOr <;> decide

theorem opCombine_logical {isOr : Bool} {ty : Ty} {e t : Tree} {rest : List Tree}
    (combined : opCombine (logical isOr) ty (e :: rest) = some t) :
    (rest = [] ∧ t = e) ∨ ∃ E1 E2, t = .bin (logical isOr) ty E1 E2 := by
  obtain rfl := Option.some.inj combined
  clear combined
  rcases List.eq_nil_or_concat rest with rfl | ⟨before, last, rfl⟩
  · exact Or.inl ⟨rfl, rfl⟩
  · rw [List.concat_eq_append, List.foldl_append]
    exact Or.inr ⟨_, _, rfl⟩

/-- The rewriting of a chain preserves its evaluation. -/
theorem optimLoglog_run {config : Config} {isOr : Bool} {ty : Ty} {E1 E2 t : Tree}
    (formed : WellFormed (.bin (logical isOr) ty E1 E2))
    (narrow : ∀ eq ∈ opArray (logical isOr) (.bin (logical isOr) ty E1 E2), ∀ x m,
      candidate (logical isOr) eq = some (x, m) → x.size ≠ .cent)
    (rewritten : optimLoglog config (logical isOr) (.bin (logical isOr) ty E1 E2) = some t)
    (state : State World) :
    run env t state = run env (.bin (logical isOr) ty E1 E2) state := by
  have formedAll := wellFormed_opArray isOr _ formed
  have original := @chain_opArray World env isOr (.bin (logical isOr) ty E1 E2) state
  rw [truthRun_logical] at original
  unfold optimLoglog at rewritten
  dsimp only at rewritten
  generalize opArray (logical isOr) (.bin (logical isOr) ty E1 E2) = array at *
  rw [← original]
  by_cases short : array.length ≤ 3
  · rw [if_pos short] at rewritten
    exact nomatch rewritten
  rw [if_neg short] at rewritten
  have found := scan_isRun (logical isOr) array []
    { any := false, first := 0, last := 0, emin := 0, emax := 0 } fun no => nomatch no
  rw [List.nil_append, List.length_nil] at found
  generalize scan (logical isOr) array 0 array
    { any := false, first := 0, last := 0, emin := 0, emax := 0 } = s at rewritten found
  by_cases runs : s.any = true ∧ 2 < s.last - s.first ∧
      (s.emax - s.emin).toNat < config.regsize.bits
  swap
  · rw [if_neg runs] at rewritten
    exact nomatch rewritten
  rw [if_pos runs] at rewritten
  obtain ⟨any, long, bounded⟩ := runs
  obtain ⟨before, eqs, after, split, isRun⟩ := found any
  obtain ⟨x0, m0, eq0, rest, rfl, isFirst, all⟩ := isRun.operand
  have first := isRun.first
  have length := isRun.length
  have order := isRun.order
  have dropped : array.drop s.first = (eq0 :: rest) ++ after := by
    rw [split, List.append_assoc, ← first, List.drop_left]
  have taken : (array.drop s.first).take (s.last - s.first + 1) = eq0 :: rest := by
    rw [dropped, ← length, List.take_left]
  have head : array.take s.first = before := by
    rw [split, List.append_assoc, ← first, List.take_left]
  have tail : array.drop (s.last + 1) = after := by
    have size : s.last + 1 = (before ++ (eq0 :: rest)).length := by
      rw [List.length_append, first, length]
      omega
    rw [split, size, List.drop_left]
  obtain ⟨eq1, others, rfl⟩ : ∃ eq1 others, rest = eq1 :: others := by
    cases rest with
    | nil =>
      rw [List.length_singleton] at length
      omega
    | cons eq1 others => exact ⟨eq1, others, rfl⟩
  rw [taken, head, tail] at rewritten
  obtain ⟨y, m1, isSecond, sameOperand, -⟩ :=
    all eq1 (List.mem_cons_of_mem _ List.mem_cons_self)
  dsimp only at rewritten
  unfold operands at rewritten
  rw [isFirst, isSecond, Option.bind_some, Option.map_some, Option.bind_some] at rewritten
  have lower : (if s.emax.toNat < 32 then 0 else s.emin) ≤ s.emin := by
    split_ifs
    · exact BitVec.le_def.mpr (Nat.zero_le _)
    · exact BitVec.le_refl _
  have fits : (s.emax - if s.emax.toNat < 32 then 0 else s.emin).toNat < 64 := by
    split_ifs with small
    · rw [show (0 : BitVec 64) = 0#64 from rfl, BitVec.sub_zero]
      omega
    · refine Nat.lt_of_lt_of_le bounded ?_
      unfold Config.regsize
      cases config.is64 <;> decide
  generalize (if s.emax.toNat < 32 then 0 else s.emin) = emin at rewritten lower fits
  have allLower := fun eq member => (all eq member).mono lower (BitVec.le_refl s.emax)
  have member {eq : Tree} (inRun : eq ∈ eq0 :: eq1 :: others) : eq ∈ array := by
    rw [split]
    exact List.mem_append_left _ (List.mem_append_right _ inRun)
  have formedRun : ∀ eq ∈ eq0 :: eq1 :: others, WellFormed eq :=
    fun eq inRun => formedAll eq (member inRun)
  have firstFormed := (@run_candidate World env isOr eq0 x0 m0 isFirst
    (formedRun eq0 List.mem_cons_self) state).1
  obtain ⟨secondFormed, secondPure, -⟩ := @run_candidate World env isOr eq1 y m1 isSecond
    (formedRun eq1 (List.mem_cons_of_mem _ List.mem_cons_self)) state
  have alike : Alike env x0 y := by
    rcases sameOperand with rfl | matching
    · exact ⟨rfl, rfl, rfl, rfl, rfl⟩
    · exact alike_of_elMatch x0 y matching firstFormed secondFormed
  have bits : (if logical isOr = .andand then ~~~bitmap (logical isOr) emin (eq0 :: eq1 :: others)
      else bitmap (logical isOr) emin (eq0 :: eq1 :: others)) =
        if isOr then bitmap (logical isOr) emin (eq0 :: eq1 :: others)
        else ~~~bitmap (logical isOr) emin (eq0 :: eq1 :: others) := by
    cases isOr <;> rfl
  rw [bits] at rewritten
  change opCombine (logical isOr) ty (before ++ rangeTest (logical isOr) ty x0 y emin s.emax
    (if isOr then bitmap (logical isOr) emin (eq0 :: eq1 :: others)
      else ~~~bitmap (logical isOr) emin (eq0 :: eq1 :: others)) :: after) = some t at rewritten
  have segment : chain env isOr [rangeTest (logical isOr) ty x0 y emin s.emax
      (if isOr then bitmap (logical isOr) emin (eq0 :: eq1 :: others)
        else ~~~bitmap (logical isOr) emin (eq0 :: eq1 :: others))] =
      chain env isOr (eq0 :: eq1 :: others) := by
    funext state
    rw [chain_singleton, truthRun_rangeTest]
    exact (chain_run_eq state formedRun isFirst allLower alike secondPure
      (narrow eq0 (member List.mem_cons_self) x0 m0 isFirst) fits).symm
  have whole := @truthRun_opCombine World env isOr ty _ t rewritten state
  rw [← List.singleton_append, ← List.append_assoc, chain_append, chain_append, segment,
    ← chain_append, ← chain_append, ← split] at whole
  rw [← whole]
  cases before with
  | nil =>
    rcases opCombine_logical rewritten with ⟨-, rfl⟩ | ⟨_, _, rfl⟩
    · exact (truthRun_rangeTest state).symm
    · exact (truthRun_logical isOr ty _ _ state).symm
  | cons e before =>
    rcases opCombine_logical rewritten with ⟨none, -⟩ | ⟨_, _, rfl⟩
    · exact absurd none (List.append_ne_nil_of_right_ne_nil _ (List.cons_ne_nil _ _))
    · exact (truthRun_logical isOr ty _ _ state).symm

end Sound

end LaserD.Cgelem
