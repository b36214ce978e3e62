/-
This file decides for every tree and every assignment of values whether one application
of `elbitwise` keeps what the tree evaluates to.

The rules are tried in their order, and all but three keep the value. For the three that
do not, the condition under which the value, or the truth value, stays is a condition on
the operands: the sign of a shifted operand, the bits that a merged mask cuts off, and
the sign of a bit number.
-/

import LaserD.Trees.Rules

namespace LaserD.Trees

/-- What the goal asks of two values: that they are equal, or that both or none is zero. -/
def Agree : Goal → BitVec 64 → BitVec 64 → Prop
  | .value, v, w => v = w
  | .flags, v, w => v = 0 ↔ w = 0

theorem agree_of_eq {goal : Goal} {v w : BitVec 64} (same : v = w) : Agree goal v w := by
  subst same
  cases goal
  · rfl
  · exact Iff.rfl

/-! ### Where the value may change -/

/-- The operand of an arithmetic shift whose mask is dropped. -/
def maskedAshr : Elem → Option Elem
  | .bin .and _ (.bin .ashr _ x (.const tyk k)) (.const ty2 c) =>
    match ty2.size with
    | .long => if c.setWidth 32 = 0xFFFF#32 ∧ elTolong tyk k = 16 then some x else none
    | .short => if c.setWidth 16 = 0xFF#16 ∧ k.setWidth 32 = 8#32 then some x else none
    | _ => none
  | _ => none

/-- The operands `a`, `b`, `c` and `d` of `(((a & b) ^ c) & d)` for a mask `d` that is
not full. -/
def maskedXor : Elem → Option (Elem × BitVec 64 × Elem × BitVec 64)
  | .bin .and _ (.bin .xor _ (.bin .and _ a (.const _ b)) c) (.const ty2 d) =>
    if isFullMask ty2.size d then none else some (a, b, c, d)
  | _ => none

/-- The pointer and the bit number of a bit that is tested in memory. -/
def testedInMemory : Elem → Option (Elem × Elem)
  | .bin .and _ e1 e2 =>
    match maskBit e2.size (swapLoad e1 e2).1, loadBit e2.size (swapLoad e1 e2).2 with
    | some b₁, some (p, b₂) => if elMatch b₁ b₂ then some (p, b₁) else none
    | _, _ => none
  | _ => none

/-- The condition under which one application of `elbitwise` keeps what the goal asks
for. Where the value is used, the shifted operand of a dropped mask is not negative, and
the other operand of the exclusive or has no bit of the outer mask outside the inner one.
Where only the truth value is used the sign does not matter, a lost bit does not matter
if another one is left, and a bit number in memory is not negative, or the bit that is
tested in its place is the same. -/
structure Keeps (env : Environment) (goal : Goal) (e : Elem) : Prop where
  ashr : ∀ x, goal = .value → maskedAshr e = some x →
    (eval env x).getLsbD (x.size.bits - 1) = false
  xor : ∀ a b c d, maskedXor e = some (a, b, c, d) →
    eval env c &&& ~~~b &&& d = 0 ∨
      goal = .flags ∧ (eval env a ^^^ eval env c) &&& b &&& d ≠ 0
  memory : ∀ p b, goal = .flags → (e.size = .long ∨ e.size = .llong) →
    testedInMemory e = some (p, b) →
    bitNumber b (eval env b) = ((eval env b).toNat : Int) ∨
      env.bitAt p.size (eval env p) (bitNumber b (eval env b)) =
        env.bitAt p.size (eval env p) (eval env b).toNat

/-! ### Which rule applies -/

theorem swapLoad_cases (e1 e2 : Elem) :
    swapLoad e1 e2 = (e1, e2) ∨ swapLoad e1 e2 = (e2, e1) := by
  unfold swapLoad
  split
  · exact Or.inr rfl
  · exact Or.inl rfl

/-- A constant is no bit in memory. -/
theorem testedInMemory_const (Eoper : Binary) (Ety ty2 : Ty) (e1 : Elem) (c : BitVec 64) :
    testedInMemory (.bin Eoper Ety e1 (.const ty2 c)) = none := by
  cases Eoper
  case and =>
    rw [testedInMemory]
    rcases swapLoad_cases e1 (.const ty2 c) with order | order
    · rw [order]
      cases maskBit (Elem.const ty2 c).size e1 <;> rfl
    · rw [order]
      rfl
  all_goals rfl

/-- A condition under a constant is the test of a bit of the constant. -/
theorem conditionRules_const (target : Target) (goal : Goal) (Eoper : Binary) (Ety ty2 : Ty)
    (e1 : Elem) (c : BitVec 64) :
    conditionRules target goal Eoper Ety e1 (.const ty2 c) =
      if goal = .flags ∧ Eoper = .and ∧ (ty2.size = .long ∨ ty2.size = .llong) then
        conditionRule target e1.size (swapLoad e1 (.const ty2 c)).1
          (swapLoad e1 (.const ty2 c)).2
      else none := by
  have noMemory : memoryRule Ety ty2.size (swapLoad e1 (.const ty2 c)).1
      (swapLoad e1 (.const ty2 c)).2 = none := by
    rw [memoryRule]
    rcases swapLoad_cases e1 (.const ty2 c) with order | order
    · rw [order]
      cases maskBit ty2.size e1 <;> rfl
    · rw [order]
      rfl
  rw [conditionRules]
  show (if _ ∧ _ ∧ (ty2.size = .long ∨ ty2.size = .llong) then
    memoryRule Ety ty2.size _ _ <|> _ else none) = _
  rw [noMemory]
  rfl

/-- The test of a single bit keeps the truth value. -/
theorem conditionRule_agree {target : Target} {env : Environment} {Ety : Ty} {size1 : Size}
    {e1 e2 e' : Elem} (formed : WellFormed target env e1) (left : e1.size = Ety.size)
    (found : conditionRule target size1 e1 e2 = some e') :
    eval env e' = 0 ↔ eval env (.bin .and Ety e1 e2) = 0 := by
  unfold conditionRule at found
  split at found
  case h_2 => cases found
  case h_1 ty1 one a =>
  split_ifs at found with small
  cases found
  obtain ⟨-, -, operand, counts⟩ := formed
  have test : eval env (.bin .btst TYbool e2 a) =
      ofBit ((eval env e2).getLsbD (eval env a).toNat) := trunc_ofBit _ _
  rw [eval_single_eq_zero operand left small.1 (counts rfl), eval_widenBool env size1 _ test,
    ofBit_eq_zero]

/-- Swapping the operands of an and. -/
theorem eval_swapLoad (env : Environment) (Ety : Ty) (e1 e2 : Elem) :
    eval env (.bin .and Ety (swapLoad e1 e2).1 (swapLoad e1 e2).2) =
      eval env (.bin .and Ety e1 e2) := by
  unfold swapLoad
  split
  · exact eval_and_comm _ _ _ _
  · rfl

/-- The rule for a single bit, or no rule, keeps the truth value. -/
theorem conditionRule_swapped {target : Target} {env : Environment} {Ety : Ty} {e1 e2 : Elem}
    (formed : WellFormed target env (.bin .and Ety e1 e2)) :
    Agree .flags (eval env ((conditionRule target e1.size (swapLoad e1 e2).1
      (swapLoad e1 e2).2).getD (.bin .and Ety e1 e2))) (eval env (.bin .and Ety e1 e2)) := by
  obtain ⟨formed₁, formed₂, ⟨left, right⟩, -⟩ := formed
  cases found : conditionRule target e1.size (swapLoad e1 e2).1 (swapLoad e1 e2).2 with
  | none => exact agree_of_eq rfl
  | some e' =>
    rw [← eval_swapLoad]
    rcases swapLoad_cases e1 e2 with order | order
    · rw [order] at found ⊢
      exact conditionRule_agree formed₁ left found
    · rw [order] at found ⊢
      exact conditionRule_agree formed₂ right found

/-- The test of a bit in memory keeps the truth value exactly where the bit that the
instruction tests is the bit of the load. -/
theorem memoryRule_agree {target : Target} {env : Environment} {Ety : Ty} {size : Size}
    {e1 e2 p b₁ b₂ : Elem} (formed₁ : WellFormed target env e1)
    (formed₂ : WellFormed target env e2) (word : size = .long ∨ size = .llong)
    (left : e1.size = Ety.size) (right : e2.size = size) (mask : maskBit size e1 = some b₁)
    (load : loadBit size e2 = some (p, b₂)) (same : elMatch b₁ b₂ = true) :
    ((eval env (.bin .bt Ety p b₁) = 0 ↔ eval env (.bin .and Ety e1 e2) = 0) ↔
      env.bitAt p.size (eval env p) (bitNumber b₁ (eval env b₁)) =
        env.bitAt p.size (eval env p) (eval env b₁).toNat) := by
  obtain ⟨ty1, one, count, rfl, unit, operand, inWidth, counted⟩ :=
    maskBit_spec formed₁ word mask
  have value := (eval_of_elMatch env same).2.1
  have loaded := getLsbD_loaded formed₂ word right load
  rw [← value] at loaded
  rw [eval_single_eq_zero operand left unit inWidth, counted, loaded,
    show eval env (.bin .bt Ety p b₁) =
      ofBit (env.bitAt p.size (eval env p) (bitNumber b₁ (eval env b₁))) from trunc_ofBit _ _,
    ofBit_eq_zero]
  cases env.bitAt p.size (eval env p) (bitNumber b₁ (eval env b₁)) <;>
    cases env.bitAt p.size (eval env p) (eval env b₁).toNat <;> simp

/-- The constant of a shift by eight, read as an `int`, is the count. -/
theorem toNat_eval_int {env : Environment} {tyk : Ty} {k : BitVec 64}
    (eight : k.setWidth 32 = 8#32) (inWidth : (eval env (.const tyk k)).toNat < 16) :
    (eval env (.const tyk k)).toNat = 8 := by
  have low : k.toNat % 2 ^ 32 = 8 := by
    have value := congrArg BitVec.toNat eight
    rwa [BitVec.toNat_setWidth] at value
  rw [eval, toNat_trunc] at inWidth ⊢
  generalize k.toNat = n at *
  revert inWidth
  cases tyk.size
  all_goals
    simp only [Size.bits, Size.bytes]
    omega

/-- The rule for a masked shift applies to a shift by half the width. -/
theorem shiftRule_spec {target : Target} {env : Environment} {Eoper : Binary} {Ety ty2 : Ty}
    {e1 e' : Elem} {c : BitVec 64}
    (formed : WellFormed target env (.bin Eoper Ety e1 (.const ty2 c)))
    (found : shiftRule Eoper Ety e1 ty2 c = some e') :
    ∃ op ty1 x count, Eoper = .and ∧ e1 = .bin op ty1 x count ∧ ty1.size = Ety.size ∧
      HalfShift env Ety ty2 x count c ∧
      e' = (Elem.bin op ty1 (x.setTy (touns x.ty)) count).setTy Ety ∧
      ((op = .shr ∧ maskedAshr (.bin Eoper Ety e1 (.const ty2 c)) = none) ∨
        (op = .ashr ∧ maskedAshr (.bin Eoper Ety e1 (.const ty2 c)) = some x)) := by
  unfold shiftRule at found
  split at found
  case h_1 op ty1 x tyk k long =>
    split_ifs at found with condition
    obtain ⟨mask, rfl, kind, sixteen⟩ := condition
    cases found
    obtain ⟨⟨-, -, operand, -⟩, -, ⟨left, right⟩, -⟩ := formed
    have right' : ty2.size = Ety.size := right
    have left' : ty1.size = Ety.size := left
    have operand' : x.size = ty1.size := by rcases kind with rfl | rfl <;> exact operand
    have count : (eval env (.const tyk k)).toNat = 16 := toNat_eval_const sixteen (by decide)
    have bits : Ety.size.bits = 32 := by
      rw [← right', long]
      rfl
    have halves : HalfShift env Ety ty2 x (.const tyk k) c := by
      refine ⟨operand'.trans left', right', by rw [count, bits], ?_⟩
      intro i inside
      rw [bits] at inside
      rw [count]
      exact @getLsbD_of_half_ones c 32 16 mask i inside
    refine ⟨op, ty1, x, _, rfl, rfl, left', halves, rfl, ?_⟩
    rcases kind with rfl | rfl
    · exact Or.inl ⟨rfl, rfl⟩
    · refine Or.inr ⟨rfl, ?_⟩
      simp only [maskedAshr, long]
      rw [if_pos ⟨mask, sixteen⟩]
  case h_2 op ty1 x tyk k short =>
    split_ifs at found with condition
    obtain ⟨mask, rfl, kind, eight⟩ := condition
    cases found
    obtain ⟨⟨-, -, operand, counts⟩, -, ⟨left, right⟩, -⟩ := formed
    have right' : ty2.size = Ety.size := right
    have left' : ty1.size = Ety.size := left
    have operand' : x.size = ty1.size := by rcases kind with rfl | rfl <;> exact operand
    have bits : Ety.size.bits = 16 := by
      rw [← right', short]
      rfl
    have inWidth : (eval env (.const tyk k)).toNat < x.size.bits :=
      counts (by rcases kind with rfl | rfl <;> rfl)
    rw [operand', left', bits] at inWidth
    have count : (eval env (.const tyk k)).toNat = 8 := toNat_eval_int eight inWidth
    have halves : HalfShift env Ety ty2 x (.const tyk k) c := by
      refine ⟨operand'.trans left', right', by rw [count, bits], ?_⟩
      intro i inside
      rw [bits] at inside
      rw [count]
      exact @getLsbD_of_half_ones c 16 8 mask i inside
    refine ⟨op, ty1, x, _, rfl, rfl, left', halves, rfl, ?_⟩
    rcases kind with rfl | rfl
    · exact Or.inl ⟨rfl, rfl⟩
    · refine Or.inr ⟨rfl, ?_⟩
      simp only [maskedAshr, short]
      rw [if_pos ⟨mask, eight⟩]
  case h_3 => cases found

/-- Where the rule for a masked shift does not apply, no mask of a shift is dropped. -/
theorem maskedAshr_eq_none {Eoper : Binary} {Ety ty2 : Ty} {e1 : Elem} {c : BitVec 64}
    (refused : shiftRule Eoper Ety e1 ty2 c = none) :
    maskedAshr (.bin Eoper Ety e1 (.const ty2 c)) = none := by
  cases found : maskedAshr (.bin Eoper Ety e1 (.const ty2 c)) with
  | none => rfl
  | some x =>
    unfold maskedAshr at found
    split at found
    case h_2 => cases found
    case h_1 shape =>
    cases shape
    split at found
    · split_ifs at found with condition
      simp [shiftRule, *] at refused
    · split_ifs at found with condition
      simp [shiftRule, *] at refused
    · cases found

/-- A tree to which none of the three rules applies keeps its value. -/
theorem Keeps.of_none {env : Environment} {goal : Goal} {e : Elem} (ashr : maskedAshr e = none)
    (xor : maskedXor e = none) (memory : testedInMemory e = none) : Keeps env goal e where
  ashr x _ found := by
    rw [ashr] at found
    cases found
  xor a b c d found := by
    rw [xor] at found
    cases found
  memory p b _ _ found := by
    rw [memory] at found
    cases found

/-- The operands of a bitwise operator have its size. -/
theorem sizes_of_bitwise {target : Target} {env : Environment} {Eoper : Binary} {Ety : Ty}
    {e1 e2 : Elem} (bitwise : Eoper.isBitwise = true)
    (formed : WellFormed target env (.bin Eoper Ety e1 e2)) :
    e1.size = Ety.size ∧ e2.size = Ety.size := by
  obtain ⟨-, -, fits, -⟩ := formed
  cases Eoper
  case and => exact fits
  case or => exact fits
  case xor => exact fits
  all_goals cases bitwise

/-! ### The rules for a constant operand -/

section Constant

variable {target : Target} {env : Environment} {goal : Goal} {Eoper : Binary} {Ety ty2 : Ty}
  {e1 e' : Elem} {c : BitVec 64}

theorem maskRule_eval (bitwise : Eoper.isBitwise = true)
    (formed : WellFormed target env (.bin Eoper Ety e1 (.const ty2 c)))
    (found : maskRule Eoper Ety e1 ty2 c = some e') :
    eval env e' = eval env (.bin Eoper Ety e1 (.const ty2 c)) ∧
      isFullMask ty2.size c = true := by
  unfold maskRule at found
  split_ifs at found with full
  cases found
  obtain ⟨left, right⟩ := sizes_of_bitwise bitwise formed
  exact ⟨eval_fullMask bitwise left right full, full⟩

theorem byteRule_eval (formed : WellFormed target env (.bin Eoper Ety e1 (.const ty2 c)))
    (found : byteRule Eoper Ety e1 ty2 c = some e') :
    eval env e' = eval env (.bin Eoper Ety e1 (.const ty2 c)) ∧ ∃ op ty1 e11, e1 = .una op ty1 e11 := by
  unfold byteRule at found
  split at found
  case h_1 op ty1 e11 long =>
    split_ifs at found with condition
    obtain ⟨mask, rfl, kind⟩ := condition
    cases found
    obtain ⟨left, right⟩ := sizes_of_bitwise rfl formed
    have bits : Ety.size.bits = 32 := by
      rw [← right, Elem.size, Elem.ty, long]
      rfl
    have source : ∃ signed, op.source = some (.char, signed) := by
      rcases kind with rfl | rfl
      · exact ⟨true, rfl⟩
      · exact ⟨false, rfl⟩
    obtain ⟨signed, source⟩ := source
    refine ⟨eval_byteRule formed.1.2 left right source ?_, op, ty1, e11, rfl⟩
    intro i inside
    rw [bits] at inside
    exact @getLsbD_of_half_ones c 32 8 mask i inside
  case h_2 op ty1 e11 short =>
    split_ifs at found with condition
    obtain ⟨mask, rfl, rfl⟩ := condition
    cases found
    obtain ⟨left, right⟩ := sizes_of_bitwise rfl formed
    have bits : Ety.size.bits = 16 := by
      rw [← right, Elem.size, Elem.ty, short]
      rfl
    refine ⟨@eval_byteRule _ _ _ _ _ _ _ _ true formed.1.2 left right rfl ?_, _, ty1, e11, rfl⟩
    intro i inside
    rw [bits] at inside
    exact @getLsbD_of_half_ones c 16 8 mask i inside
  case h_3 => cases found

theorem narrowRule_eval (bitwise : Eoper.isBitwise = true)
    (formed : WellFormed target env (.bin Eoper Ety e1 (.const ty2 c)))
    (found : narrowRule Eoper Ety e1 ty2 c = some e') :
    eval env e' = eval env (.bin Eoper Ety e1 (.const ty2 c)) ∧ ∃ op ty1 e11, e1 = .una op ty1 e11 := by
  unfold narrowRule at found
  split at found
  case h_1 op ty1 e11 short =>
    split_ifs at found with condition
    cases found
    obtain ⟨left, right⟩ := sizes_of_bitwise bitwise formed
    exact ⟨eval_narrowRule bitwise formed.1.2 left right short condition, op, ty1, e11, rfl⟩
  case h_2 => cases found

theorem extendRule_eval (bitwise : Eoper.isBitwise = true)
    (formed : WellFormed target env (.bin Eoper Ety e1 (.const ty2 c)))
    (found : extendRule Eoper Ety e1 ty2 c = some e') :
    eval env e' = eval env (.bin Eoper Ety e1 (.const ty2 c)) ∧ ∃ op ty1 e11, e1 = .una op ty1 e11 := by
  unfold extendRule at found
  split at found
  case h_1 op ty1 e11 =>
    by_cases below : belowSign op (elTolong ty2 c) = true
    · obtain ⟨left, right⟩ := sizes_of_bitwise bitwise formed
      rw [if_pos below] at found
      rw [← Option.some.inj found]
      exact ⟨eval_extendRule bitwise formed.1.2 left right below, op, ty1, e11, rfl⟩
    · rw [if_neg below] at found
      cases found
  case h_2 => cases found

/-- The nested call returns the operand of the full mask. -/
theorem elbitwiseBody_fullMask (target : Target) (nested : Elem → Elem) (ty1 tyk : Ty) (x : Elem)
    {k : BitVec 64} (full : isFullMask tyk.size k = true) :
    elbitwiseBody target nested .value (.bin .and ty1 x (.const tyk k)) = x.setTy ty1 := by
  simp [elbitwiseBody, constantRules, maskRule, full, fullMask]

theorem absorbRule_eval (formed : WellFormed target env (.bin Eoper Ety e1 (.const ty2 c)))
    (found : absorbRule (elbitwiseBody target id .value) Eoper Ety e1 ty2 c = some e') :
    eval env e' = eval env (.bin Eoper Ety e1 (.const ty2 c)) ∧ Eoper = .or := by
  unfold absorbRule at found
  split at found
  case h_1 ty1 x tyk k =>
    split_ifs at found with condition
    obtain ⟨rfl, full⟩ := condition
    cases found
    obtain ⟨left, right⟩ := sizes_of_bitwise rfl formed
    obtain ⟨inner, mask⟩ := sizes_of_bitwise rfl formed.1
    have mask' : tyk.size = ty2.size := by
      rw [show tyk.size = ty1.size from mask, show ty1.size = Ety.size from left, ← right]
      rfl
    refine ⟨?_, rfl⟩
    rw [elbitwiseBody_fullMask target id ty1 tyk x (by rwa [mask'])]
    exact eval_absorbed inner mask left right full
  case h_2 => cases found

theorem testRule_eval (formed : WellFormed target env (.bin Eoper Ety e1 (.const ty2 c)))
    (found : testRule target Eoper Ety e1 ty2 c = some e') :
    eval env e' = eval env (.bin Eoper Ety e1 (.const ty2 c)) := by
  unfold testRule at found
  split at found
  case h_1 op ty1 a b =>
    split_ifs at found with condition
    obtain ⟨rfl, one, kind, -, -⟩ := condition
    cases found
    obtain ⟨left, right⟩ := sizes_of_bitwise rfl formed
    obtain ⟨⟨-, -, operand, counts⟩, -⟩ := formed
    have operand' : a.size = ty1.size := by rcases kind with rfl | rfl <;> exact operand
    exact eval_testRule kind operand' left right one
      (counts (by rcases kind with rfl | rfl <;> rfl))
  case h_2 => cases found

/-- The dropped mask of a shift: the value stays where the condition says so. -/
theorem shiftRule_agree (formed : WellFormed target env (.bin Eoper Ety e1 (.const ty2 c)))
    (found : shiftRule Eoper Ety e1 ty2 c = some e') :
    (Agree goal (eval env e') (eval env (.bin Eoper Ety e1 (.const ty2 c))) ↔
      Keeps env goal (.bin Eoper Ety e1 (.const ty2 c))) := by
  obtain ⟨op, ty1, x, count, rfl, rfl, left, halves, rfl, kind⟩ := shiftRule_spec formed found
  have noMemory := testedInMemory_const .and Ety ty2 (.bin op ty1 x count) c
  rcases kind with ⟨rfl, unmasked⟩ | ⟨rfl, masked⟩
  · exact iff_of_true (agree_of_eq (halves.eval_shr left)) (Keeps.of_none unmasked rfl noMemory)
  · have keeps : (goal = .value → (eval env x).getLsbD (x.size.bits - 1) = false) ↔
        Keeps env goal (.bin .and Ety (.bin .ashr ty1 x count) (.const ty2 c)) := by
      constructor
      · intro sign
        refine ⟨?_, nofun, ?_⟩
        · intro x' isValue found'
          rw [masked] at found'
          cases found'
          exact sign isValue
        · intro p b _ _ found'
          rw [noMemory] at found'
          cases found'
      · intro keeps isValue
        exact keeps.ashr x isValue masked
    rw [← keeps]
    cases goal
    · exact (halves.eval_ashr left).trans ⟨fun sign _ => sign, fun sign => sign rfl⟩
    · refine iff_of_true ?_ nofun
      cases sign : (eval env x).getLsbD (x.size.bits - 1)
      · exact agree_of_eq ((halves.eval_ashr left).mpr sign)
      · obtain ⟨new, old⟩ := halves.eval_ashr_ne_zero left sign
        exact iff_of_false new old

/-- Bits outside a mask add nothing to bits inside it only where there are none. -/
theorem eq_or_iff (x y b d : BitVec 64) :
    y &&& b &&& d = (y &&& b &&& d) ||| (x &&& ~~~b &&& d) ↔ x &&& ~~~b &&& d = 0 := by
  constructor
  · intro same
    apply BitVec.eq_of_getLsbD_eq
    intro i inside
    have bit := congrArg (fun v => v.getLsbD i) same
    simp only [BitVec.getLsbD_and, BitVec.getLsbD_or, BitVec.getLsbD_not,
      decide_eq_true inside, Bool.true_and] at bit ⊢
    rw [show (0 : BitVec 64).getLsbD i = false from BitVec.getLsbD_zero]
    cases outside : b.getLsbD i
    · rw [outside] at bit
      simpa using bit.symm
    · simp
  · intro nothing
    rw [nothing]
    exact BitVec.or_zero.symm

/-- The merged masks of an exclusive or: the value stays where the condition says so. -/
theorem xorRule_agree (formed : WellFormed target env (.bin Eoper Ety e1 (.const ty2 c)))
    (partly : isFullMask ty2.size c = false) (found : xorRule Eoper Ety e1 ty2 c = some e') :
    (Agree goal (eval env e') (eval env (.bin Eoper Ety e1 (.const ty2 c))) ↔
      Keeps env goal (.bin Eoper Ety e1 (.const ty2 c))) := by
  unfold xorRule at found
  split at found
  case h_2 => cases found
  case h_1 ty1 ty11 a tyb b x =>
  split_ifs at found with isAnd
  subst isAnd
  cases found
  obtain ⟨left, right⟩ := sizes_of_bitwise rfl formed
  obtain ⟨first, other⟩ := sizes_of_bitwise rfl formed.1
  obtain ⟨operand, mask⟩ := sizes_of_bitwise rfl formed.1.1
  obtain ⟨new, old⟩ := @eval_mergedXor env Ety ty1 ty2 ty11 tyb a x b c operand mask first left
    right other
  have merged : maskedXor (.bin .and Ety (.bin .xor ty1 (.bin .and ty11 a (.const tyb b)) x)
      (.const ty2 c)) = some (a, b, x, c) := by
    rw [maskedXor, partly]
    rfl
  have keeps : (eval env x &&& ~~~b &&& c = 0 ∨
        goal = .flags ∧ (eval env a ^^^ eval env x) &&& b &&& c ≠ 0) ↔
      Keeps env goal (.bin .and Ety (.bin .xor ty1 (.bin .and ty11 a (.const tyb b)) x)
        (.const ty2 c)) := by
    constructor
    · intro condition
      refine ⟨nofun, ?_, ?_⟩
      · intro a' b' x' c' found'
        rw [merged] at found'
        cases found'
        exact condition
      · intro p b' _ _ found'
        rw [testedInMemory_const] at found'
        cases found'
    · intro keeps
      exact keeps.xor a b x c merged
  rw [← keeps, new, old]
  cases goal
  · exact (eq_or_iff _ _ _ _).trans ⟨Or.inl, fun cases => cases.elim id nofun⟩
  · have split : ∀ v w : BitVec 64, v ||| w = 0 ↔ v = 0 ∧ w = 0 := fun _ _ => BitVec.or_eq_zero_iff
    rw [Agree, split]
    constructor
    · intro same
      by_cases zero : (eval env a ^^^ eval env x) &&& b &&& c = 0
      · exact Or.inl (same.mp zero).2
      · exact Or.inr ⟨rfl, zero⟩
    · rintro (nothing | ⟨-, kept⟩)
      · exact ⟨fun zero => ⟨zero, nothing⟩, And.left⟩
      · exact iff_of_false kept fun both => kept both.1

/-- A merged mask is a mask that is not full under an exclusive or, where the rule
applies. -/
theorem maskedXor_eq_none (refused : xorRule Eoper Ety e1 ty2 c = none) :
    maskedXor (.bin Eoper Ety e1 (.const ty2 c)) = none := by
  cases found : maskedXor (.bin Eoper Ety e1 (.const ty2 c)) with
  | none => rfl
  | some operands =>
    unfold maskedXor at found
    split at found
    case h_2 => cases found
    case h_1 shape =>
    cases shape
    cases refused

/-- A full mask is none that is dropped from a shift. -/
theorem maskedAshr_of_full (full : isFullMask ty2.size c = true) :
    maskedAshr (.bin Eoper Ety e1 (.const ty2 c)) = none := by
  unfold maskedAshr
  split
  case h_2 => rfl
  case h_1 shape =>
  cases shape
  split
  case h_1 long =>
    rw [long] at full
    have ones : c.setWidth 32 = 0xFFFFFFFF#32 := of_decide_eq_true full
    rw [if_neg]
    rintro ⟨half, -⟩
    exact absurd (ones.symm.trans half) (by decide)
  case h_2 short =>
    rw [short] at full
    have ones : c.setWidth 16 = 0xFFFF#16 := of_decide_eq_true full
    rw [if_neg]
    rintro ⟨half, -⟩
    exact absurd (ones.symm.trans half) (by decide)
  case h_3 => rfl

/-- A full mask cuts nothing off an exclusive or. -/
theorem maskedXor_of_full (full : isFullMask ty2.size c = true) :
    maskedXor (.bin Eoper Ety e1 (.const ty2 c)) = none := by
  unfold maskedXor
  split
  case h_2 => rfl
  case h_1 shape =>
  cases shape
  rw [if_pos full]

/-- A conversion is no exclusive or. -/
theorem maskedXor_una (Eoper : Binary) (Ety ty1 ty2 : Ty) (op : Unary) (e11 : Elem)
    (c : BitVec 64) : maskedXor (.bin Eoper Ety (.una op ty1 e11) (.const ty2 c)) = none := by
  cases Eoper <;> rfl

/-- With a constant operand, one application keeps what the goal asks for exactly where
the condition says so. -/
theorem elbitwise_const_agree (bitwise : Eoper.isBitwise = true)
    (formed : WellFormed target env (.bin Eoper Ety e1 (.const ty2 c))) :
    (Agree goal (eval env (elbitwise target goal (.bin Eoper Ety e1 (.const ty2 c))))
        (eval env (.bin Eoper Ety e1 (.const ty2 c))) ↔
      Keeps env goal (.bin Eoper Ety e1 (.const ty2 c))) := by
  have noMemory := testedInMemory_const Eoper Ety ty2 e1 c
  rw [elbitwise, elbitwiseBody, constantRules]
  cases mask : maskRule Eoper Ety e1 ty2 c with
  | some e' =>
    obtain ⟨same, full⟩ := maskRule_eval bitwise formed mask
    exact iff_of_true (agree_of_eq same)
      (Keeps.of_none (maskedAshr_of_full full) (maskedXor_of_full full) noMemory)
  | none =>
  have partly : isFullMask ty2.size c = false := by
    unfold maskRule at mask
    split_ifs at mask with full
    exact Bool.eq_false_of_not_eq_true full
  cases shift : shiftRule Eoper Ety e1 ty2 c with
  | some e' => exact shiftRule_agree formed shift
  | none =>
  have noAshr := maskedAshr_eq_none shift
  cases byte : byteRule Eoper Ety e1 ty2 c with
  | some e' =>
    obtain ⟨same, op, ty1, e11, rfl⟩ := byteRule_eval formed byte
    exact iff_of_true (agree_of_eq same)
      (Keeps.of_none noAshr (maskedXor_una Eoper Ety ty1 ty2 op e11 c) noMemory)
  | none =>
  cases narrow : narrowRule Eoper Ety e1 ty2 c with
  | some e' =>
    obtain ⟨same, op, ty1, e11, rfl⟩ := narrowRule_eval bitwise formed narrow
    exact iff_of_true (agree_of_eq same)
      (Keeps.of_none noAshr (maskedXor_una Eoper Ety ty1 ty2 op e11 c) noMemory)
  | none =>
  cases absorb : absorbRule (elbitwiseBody target id .value) Eoper Ety e1 ty2 c with
  | some e' =>
    obtain ⟨same, rfl⟩ := absorbRule_eval formed absorb
    exact iff_of_true (agree_of_eq same) (Keeps.of_none noAshr rfl noMemory)
  | none =>
  cases extend : extendRule Eoper Ety e1 ty2 c with
  | some e' =>
    obtain ⟨same, op, ty1, e11, rfl⟩ := extendRule_eval bitwise formed extend
    exact iff_of_true (agree_of_eq same)
      (Keeps.of_none noAshr (maskedXor_una Eoper Ety ty1 ty2 op e11 c) noMemory)
  | none =>
  cases xor : xorRule Eoper Ety e1 ty2 c with
  | some e' => exact xorRule_agree formed partly xor
  | none =>
  have keeps : Keeps env goal (.bin Eoper Ety e1 (.const ty2 c)) :=
    Keeps.of_none noAshr (maskedXor_eq_none xor) noMemory
  refine iff_of_true ?_ keeps
  cases test : testRule target Eoper Ety e1 ty2 c with
  | some e' => exact agree_of_eq (testRule_eval formed test)
  | none =>
  show Agree goal (eval env ((conditionRules target goal Eoper Ety e1 (.const ty2 c)).getD _)) _
  rw [conditionRules_const]
  split_ifs with condition
  · obtain ⟨rfl, rfl, -⟩ := condition
    exact conditionRule_swapped formed
  · exact agree_of_eq rfl

end Constant

/-! ### One application -/

/-- The rule for a bit in memory applies where such a bit is tested. -/
theorem memoryRule_eq (Ety : Ty) (e1 e2 : Elem) :
    memoryRule Ety e2.size (swapLoad e1 e2).1 (swapLoad e1 e2).2 =
      (testedInMemory (.bin .and Ety e1 e2)).map fun tested => .bin .bt Ety tested.1 tested.2 := by
  rw [memoryRule, testedInMemory]
  cases maskBit e2.size (swapLoad e1 e2).1 with
  | none => rfl
  | some b₁ =>
    cases loadBit e2.size (swapLoad e1 e2).2 with
    | none => rfl
    | some load =>
      dsimp only
      split_ifs <;> rfl

/-- The rule for a bit in memory keeps the truth value where the condition says so. -/
theorem testedInMemory_agree {target : Target} {env : Environment} {Ety : Ty} {e1 e2 p b : Elem}
    (formed : WellFormed target env (.bin .and Ety e1 e2))
    (word : e2.size = .long ∨ e2.size = .llong)
    (found : testedInMemory (.bin .and Ety e1 e2) = some (p, b)) :
    (Agree .flags (eval env (.bin .bt Ety p b)) (eval env (.bin .and Ety e1 e2)) ↔
      env.bitAt p.size (eval env p) (bitNumber b (eval env b)) =
        env.bitAt p.size (eval env p) (eval env b).toNat) := by
  obtain ⟨formed₁, formed₂, ⟨left, right⟩, -⟩ := formed
  rw [testedInMemory] at found
  split at found
  case h_2 => cases found
  case h_1 b₁ p' b₂ mask load =>
  split_ifs at found with same
  cases found
  rw [← eval_swapLoad]
  rcases swapLoad_cases e1 e2 with order | order
  · rw [order] at mask load ⊢
    exact memoryRule_agree formed₁ formed₂ word left rfl mask load same
  · rw [order] at mask load ⊢
    exact memoryRule_agree formed₂ formed₁ word right (left.trans right.symm) mask load same

/-- Without a constant operand only a condition is rewritten. -/
theorem elbitwise_other_agree {target : Target} {env : Environment} {goal : Goal}
    {Eoper : Binary} {Ety : Ty} {e1 e2 : Elem}
    (formed : WellFormed target env (.bin Eoper Ety e1 e2)) (bitwise : Eoper.isBitwise = true)
    (variable' : ∀ ty2 c, e2 ≠ .const ty2 c) :
    (Agree goal (eval env (elbitwise target goal (.bin Eoper Ety e1 e2)))
        (eval env (.bin Eoper Ety e1 e2)) ↔ Keeps env goal (.bin Eoper Ety e1 e2)) := by
  have noConstant : constantRules target (elbitwiseBody target id .value) Eoper Ety e1 e2 = none := by
    cases e2
    case const ty2 c => exact absurd rfl (variable' ty2 c)
    all_goals rfl
  have noAshr : maskedAshr (.bin Eoper Ety e1 e2) = none := by
    unfold maskedAshr
    split
    case h_1 shape =>
      cases shape
      exact absurd rfl (variable' _ _)
    case h_2 => rfl
  have noXor : maskedXor (.bin Eoper Ety e1 e2) = none := by
    unfold maskedXor
    split
    case h_1 shape =>
      cases shape
      exact absurd rfl (variable' _ _)
    case h_2 => rfl
  rw [elbitwise, elbitwiseBody, noConstant]
  show (Agree goal (eval env ((conditionRules target goal Eoper Ety e1 e2).getD _)) _ ↔ _)
  unfold conditionRules
  by_cases condition : goal = .flags ∧ Eoper = .and ∧ (e2.size = .long ∨ e2.size = .llong)
  · rw [if_pos condition]
    obtain ⟨rfl, rfl, word⟩ := condition
    obtain ⟨left, right⟩ := sizes_of_bitwise bitwise formed
    rw [memoryRule_eq]
    cases found : testedInMemory (.bin .and Ety e1 e2) with
    | none =>
      exact iff_of_true (conditionRule_swapped formed) (Keeps.of_none noAshr noXor found)
    | some tested =>
      refine (testedInMemory_agree formed word found).trans ⟨?_, ?_⟩
      · intro same
        refine ⟨nofun, ?_, ?_⟩
        · intro a b c d merged
          rw [noXor] at merged
          cases merged
        · intro p b _ _ found'
          rw [found] at found'
          cases found'
          exact Or.inr same
      · intro keeps
        have word' : Ety.size = .long ∨ Ety.size = .llong := right ▸ word
        rcases keeps.memory tested.1 tested.2 rfl word' found with number | same
        · rw [number]
        · exact same
  · rw [if_neg condition]
    refine iff_of_true (agree_of_eq rfl) ⟨?_, ?_, ?_⟩
    · intro x _ found
      rw [noAshr] at found
      cases found
    · intro a b c d found
      rw [noXor] at found
      cases found
    · intro p b isFlags word found
      obtain ⟨left, right⟩ := sizes_of_bitwise bitwise formed
      have isAnd : Eoper = .and := by
        cases Eoper
        case and => rfl
        all_goals cases found
      refine absurd ⟨isFlags, isAnd, ?_⟩ condition
      rw [right]
      exact word

/-- One application of `elbitwise` keeps what a tree evaluates to, for every rule, every
tree and every assignment of values, exactly where the condition of the three rules
holds that are no identities. -/
theorem elbitwise_keeps_iff (target : Target) (env : Environment) (goal : Goal) (Eoper : Binary)
    (Ety : Ty) (e1 e2 : Elem) (bitwise : Eoper.isBitwise = true)
    (formed : WellFormed target env (.bin Eoper Ety e1 e2)) :
    (Agree goal (eval env (elbitwise target goal (.bin Eoper Ety e1 e2)))
        (eval env (.bin Eoper Ety e1 e2)) ↔ Keeps env goal (.bin Eoper Ety e1 e2)) := by
  by_cases constant : ∃ ty2 c, e2 = .const ty2 c
  · obtain ⟨ty2, c, rfl⟩ := constant
    exact elbitwise_const_agree bitwise formed
  · refine elbitwise_other_agree formed bitwise ?_
    intro ty2 c same
    exact constant ⟨ty2, c, same⟩

/-! ### Three trees -/

/-- An environment in which every leaf has one value, and a single byte of memory, at
this address, is not zero. -/
def sample (leaf : BitVec 64) (address : BitVec 64) : Environment where
  leaf _ := leaf
  memory a := if a = address then 0xFF else 0
  unary _ _ v := v
  binary _ _ _ v _ := v

/-- `(x >> 16) & 0xFFFF` for an `int`. -/
def upperHalf : Elem :=
  .bin .and ⟨.long, false⟩
    (.bin .ashr ⟨.long, false⟩ (.leaf ⟨.long, false⟩ 0) (.const ⟨.long, false⟩ 16))
    (.const ⟨.long, false⟩ 0xFFFF)

/-- `((x & 1) ^ x) & 2` for an `int`. -/
def secondBit : Elem :=
  .bin .and ⟨.long, false⟩
    (.bin .xor ⟨.long, false⟩
      (.bin .and ⟨.long, false⟩ (.leaf ⟨.long, false⟩ 0) (.const ⟨.long, false⟩ 1))
      (.leaf ⟨.long, false⟩ 1))
    (.const ⟨.long, false⟩ 2)

/-- `p[b >> 5] & (1 << (b & 31))` for a `uint` and a pointer of 32 bits. -/
def bitOfArray : Elem :=
  .bin .and TYulong
    (.una .ind TYulong
      (.bin .add TYulong
        (.bin .shl TYulong
          (.bin .shr TYulong (.leaf TYulong 0) (.const TYulong 5)) (.const TYulong 2))
        (.const TYulong 0)))
    (.bin .shl TYulong (.const TYulong 1)
      (.bin .and TYulong (.leaf TYulong 0) (.const TYulong 31)))

/-- A shifted operand that is not negative. -/
theorem elbitwise_keeps_upperHalf :
    WellFormed ⟨true⟩ (sample 0x50003 0) upperHalf ∧
      Agree .value (eval (sample 0x50003 0) (elbitwise ⟨true⟩ .value upperHalf))
        (eval (sample 0x50003 0) upperHalf) := by
  have formed : WellFormed ⟨true⟩ (sample 0x50003 0) upperHalf :=
    ⟨⟨trivial, trivial, rfl, fun _ => by decide⟩, trivial, ⟨rfl, rfl⟩, nofun⟩
  refine ⟨formed, (elbitwise_keeps_iff ⟨true⟩ (sample 0x50003 0) .value .and ⟨.long, false⟩ _ _ rfl
    formed).mpr ⟨?_, nofun, nofun⟩⟩
  intro x _ found
  cases found
  decide

/-- An arithmetic shift of a negative number, an exclusive or with a bit that only the
outer mask has, and a bit number with its highest bit set. -/
theorem elbitwise_changes_values :
    (WellFormed ⟨true⟩ (sample 0xFFFFFFFF 0) upperHalf ∧
      ¬ Agree .value (eval (sample 0xFFFFFFFF 0) (elbitwise ⟨true⟩ .value upperHalf))
        (eval (sample 0xFFFFFFFF 0) upperHalf)) ∧
    (WellFormed ⟨true⟩ (sample 2 0) secondBit ∧
      ¬ Agree .value (eval (sample 2 0) (elbitwise ⟨true⟩ .value secondBit))
        (eval (sample 2 0) secondBit)) ∧
    (WellFormed ⟨false⟩ (sample 0x80000000 0x10000000) bitOfArray ∧
      ¬ Agree .flags (eval (sample 0x80000000 0x10000000) (elbitwise ⟨false⟩ .flags bitOfArray))
        (eval (sample 0x80000000 0x10000000) bitOfArray)) := by
  refine ⟨⟨?_, ?_⟩, ⟨?_, ?_⟩, ⟨?_, ?_⟩⟩
  · exact ⟨⟨trivial, trivial, rfl, fun _ => by decide⟩, trivial, ⟨rfl, rfl⟩, nofun⟩
  · show ¬ (eval _ _ = eval _ _)
    decide +kernel
  · exact ⟨⟨⟨trivial, trivial, ⟨rfl, rfl⟩, nofun⟩, trivial, ⟨rfl, rfl⟩, nofun⟩, trivial,
      ⟨rfl, rfl⟩, nofun⟩
  · show ¬ (eval _ _ = eval _ _)
    decide +kernel
  · exact ⟨⟨⟨⟨⟨trivial, trivial, rfl, fun _ => by decide⟩, trivial, rfl, fun _ => by decide⟩,
      trivial, ⟨rfl, rfl⟩, nofun⟩, rfl⟩, ⟨trivial, ⟨trivial, trivial, ⟨rfl, rfl⟩, nofun⟩, rfl,
      fun _ => by decide +kernel⟩, ⟨rfl, rfl⟩, nofun⟩
  · show ¬ (eval _ _ = 0 ↔ eval _ _ = 0)
    decide +kernel

end LaserD.Trees
