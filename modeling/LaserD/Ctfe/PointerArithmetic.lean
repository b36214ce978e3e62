/-
This file proves what the arithmetic on the pointers of the interpreter computes.

The byte offset is a two's complement integer, but it is divided by the size of an element as a
natural number. A nonnegative offset moves the index by the right number of elements, and so does
every offset into a block of bytes. A negative offset into a block of larger elements becomes a
number of elements so large that the index always leaves the block, and the pointer is rejected.
-/

import LaserD.Ctfe.Pointers
import Mathlib.Tactic.Linarith
import Mathlib.Tactic.Ring

namespace LaserD.Ctfe

/-! ### Blocks -/

/-- Where the elements of a block are. -/
inductive Storage
  | string_ (object data : Nat)
  | arrayLiteral (object : Nat)
  | sarrayVariable (var : Nat)
  deriving DecidableEq

/-- A memory block of `len` elements of `sz` bytes; one element past its end is within half of the
address space. -/
structure Block where
  storage : Storage
  len : Nat
  sz : Nat
  positive : 1 ≤ sz
  fits : (len + 1) * sz ≤ 2 ^ 63

namespace Block

/-- What a pointer to an element of the block is decoded to. -/
def Decoded (block : Block) (i : Nat) (decoded : Expression × BitVec 64) : Prop :=
  match block.storage with
  | .string_ object data =>
    decoded = (.string_ object data (.ofNat 64 block.len) (.ofNat 64 block.sz), .ofNat 64 i)
  | .arrayLiteral object =>
    decoded = (.arrayLiteral object (.ofNat 64 block.len) (.ofNat 64 block.sz), .ofNat 64 i)
  | .sarrayVariable var => ∃ object,
    decoded = (.symbolOffset object var (some (.ofNat 64 block.len)) (.ofNat 64 block.sz)
      (.ofNat 64 (i * block.sz)), .ofNat 64 (i * block.sz))

end Block

/-- The expression is a pointer to an element of the block or to its end. -/
structure PointsTo (e : Expression) (block : Block) (i : Nat) : Prop where
  decoded : block.Decoded i (getAggregateFromPointer e)
  inside : i ≤ block.len

section Arithmetic

variable {block : Block}

theorem Block.len_lt (block : Block) : block.len < 2 ^ 63 := by
  have fits := block.fits
  have positive := block.positive
  nlinarith

theorem Block.sz_lt (block : Block) : block.sz ≤ 2 ^ 63 := by
  have fits := block.fits
  nlinarith [Nat.zero_le (block.len * block.sz)]

/-- An element inside of the block is at a byte offset within half of the address space. -/
theorem Block.mul_lt (block : Block) {i : Nat} (inside : i ≤ block.len) :
    i * block.sz < 2 ^ 63 := by
  have fits := block.fits
  have positive := block.positive
  have below : i * block.sz ≤ block.len * block.sz := Nat.mul_le_mul_right _ inside
  rw [Nat.succ_mul] at fits
  omega

/-! ### The distance in elements -/

/-- The quotient of a byte offset by the size of an element as the source computes it. -/
theorem toNat_offset_div (block : Block) {distance : Int}
    (least : -2 ^ 63 ≤ distance * block.sz) (greatest : distance * block.sz < 2 ^ 63) :
    ((BitVec.ofInt 64 (distance * block.sz) / BitVec.ofNat 64 block.sz).toNat : Int) =
      if 0 ≤ distance then distance else 2 ^ 64 / block.sz + distance := by
  have positive : (block.sz : Int) ≠ 0 := by
    have positive := block.positive
    omega
  have size : (BitVec.ofNat 64 block.sz).toNat = block.sz := by
    rw [BitVec.toNat_ofNat, Nat.mod_eq_of_lt (by have := block.sz_lt; omega)]
  have offset : ((BitVec.ofInt 64 (distance * block.sz)).toNat : Int) =
      distance * block.sz % 2 ^ 64 := by
    rw [BitVec.toNat_ofInt, Int.toNat_of_nonneg (Int.emod_nonneg _ (by decide))]
    rfl
  rw [BitVec.toNat_udiv, Int.natCast_ediv, offset, size]
  split
  case isTrue nonnegative =>
    have product : 0 ≤ distance * block.sz := Int.mul_nonneg nonnegative (by omega)
    rw [Int.emod_eq_of_lt product (by omega), Int.mul_ediv_cancel _ positive]
  case isFalse negative =>
    have product : distance * block.sz < 0 :=
      Int.mul_neg_of_neg_of_pos (by omega) (by omega)
    have wrapped : distance * block.sz % 2 ^ 64 = 2 ^ 64 + distance * block.sz := by
      rw [← Int.add_emod_left, Int.emod_eq_of_lt (by omega) (by omega)]
    rw [wrapped, Int.add_mul_ediv_right _ _ positive]

/-- The direction of an operator of pointer arithmetic. -/
def EXP.direction : EXP → Int
  | .add | .addAssign | .plusPlus => 1
  | .min | .minAssign | .minusMinus => -1
  | _ => 0

/-- The number of elements a byte offset of a distance is taken for. -/
def Block.elements (block : Block) (distance : Int) : Int :=
  if 0 ≤ distance then distance else 2 ^ 64 / block.sz + distance

theorem moveIndex_eq {op : EXP} (moves : op.direction ≠ 0) (i : Nat) {distance : Int}
    (least : -2 ^ 63 ≤ distance * block.sz) (greatest : distance * block.sz < 2 ^ 63) :
    moveIndex op (.ofNat 64 i) (.ofInt 64 (distance * block.sz)) (.ofNat 64 block.sz) =
      .ok (.ofInt 64 (i + op.direction * block.elements distance)) := by
  have quotient : BitVec.ofInt 64 (distance * block.sz) / BitVec.ofNat 64 block.sz =
      BitVec.ofInt 64 (block.elements distance) := by
    rw [Block.elements, ← toNat_offset_div block least greatest, BitVec.ofInt_natCast,
      BitVec.ofNat_toNat, BitVec.setWidth_eq]
  have forward : BitVec.ofNat 64 i + BitVec.ofInt 64 (block.elements distance) =
      BitVec.ofInt 64 (i + 1 * block.elements distance) := by
    rw [one_mul, BitVec.ofInt_add, BitVec.ofInt_natCast]
  have backward : BitVec.ofNat 64 i - BitVec.ofInt 64 (block.elements distance) =
      BitVec.ofInt 64 (i + -1 * block.elements distance) := by
    rw [neg_one_mul, BitVec.ofInt_add, BitVec.ofInt_neg, BitVec.ofInt_natCast,
      BitVec.sub_eq_add_neg]
  cases op with
  | add | addAssign | plusPlus => exact congrArg Except.ok (quotient ▸ forward)
  | min | minAssign | minusMinus => exact congrArg Except.ok (quotient ▸ backward)
  | lessThan | lessOrEqual | greaterThan | greaterOrEqual | identity | equal | notIdentity
  | notEqual => exact absurd rfl moves

/-- The offsets that are divided correctly. -/
def Block.Divides (block : Block) (distance : Int) : Prop :=
  0 ≤ distance ∨ block.sz = 1

/-- Such an offset moves the index by its distance. -/
theorem index_of_divides {distance : Int} (divides : block.Divides distance) (i : Nat)
    (direction : Int) :
    BitVec.ofInt 64 (i + direction * block.elements distance) =
      BitVec.ofInt 64 (i + direction * distance) := by
  unfold Block.elements
  split
  case isTrue => rfl
  case isFalse negative =>
    have bytes : block.sz = 1 := divides.resolve_left negative
    have wrapped : (2 : Int) ^ 64 / (block.sz : Nat) = 2 ^ 64 := by
      rw [bytes]
      rfl
    refine BitVec.eq_of_toInt_eq ?_
    rw [BitVec.toInt_ofInt, BitVec.toInt_ofInt, wrapped]
    have regroup : (i : Int) + direction * (2 ^ 64 + distance) =
        i + direction * distance + direction * ((2 ^ 64 : Nat) : Int) := by
      push_cast
      ring
    rw [regroup, Int.add_mul_bmod_self_right]

theorem direction_cases {op : EXP} (moves : op.direction ≠ 0) :
    op.direction = 1 ∨ op.direction = -1 := by
  cases op <;> simp [EXP.direction] at moves ⊢

/-- A distance whose bytes fit into a word fits into a word. -/
theorem distance_range (block : Block) {distance : Int} (least : -2 ^ 63 ≤ distance * block.sz)
    (greatest : distance * block.sz < 2 ^ 63) : -2 ^ 63 ≤ distance ∧ distance < 2 ^ 63 := by
  have positive : (1 : Int) ≤ block.sz := by
    have positive := block.positive
    omega
  constructor
  · nlinarith
  · nlinarith

/-- Any other offset moves the index out of the block. -/
theorem index_outside {op : EXP} (moves : op.direction ≠ 0) {distance : Int}
    (wrong : ¬block.Divides distance) {i : Nat} (inside : i ≤ block.len)
    (least : -2 ^ 63 ≤ distance * block.sz) {target : Int}
    (moved : target = i + op.direction * block.elements distance) :
    -2 ^ 63 ≤ target ∧ target < 2 ^ 64 ∧ ¬(0 ≤ target ∧ target ≤ block.len) := by
  obtain ⟨negative, larger⟩ := not_or.mp wrong
  have size : (2 : Int) ≤ block.sz := by
    have positive := block.positive
    omega
  have fits : (block.len : Int) * block.sz + block.sz ≤ 2 ^ 63 := by
    have fits := block.fits
    rw [Nat.succ_mul] at fits
    exact_mod_cast fits
  have start : (i : Int) * block.sz ≤ block.len * block.sz :=
    Int.mul_le_mul_of_nonneg_right (by omega) (by omega)
  have start' : 0 ≤ (i : Int) * block.sz := Int.mul_nonneg (by omega) (by omega)
  have length := block.len_lt
  rw [Block.elements, if_neg negative] at moved
  generalize round : (2 : Int) ^ 64 / (block.sz : Int) = quotient at moved
  have below : quotient * block.sz ≤ 2 ^ 64 := round ▸ Int.ediv_mul_le _ (by omega)
  have above : 2 ^ 64 < quotient * block.sz + block.sz := by
    have above := Int.lt_ediv_add_one_mul_self (2 ^ 64) (b := (block.sz : Int)) (by omega)
    rwa [round, Int.add_mul, one_mul] at above
  have half : quotient ≤ 2 ^ 63 := by
    have bound := Int.mul_le_mul_of_nonneg_left size (c := quotient)
      (round ▸ Int.ediv_nonneg (by decide) (by omega))
    omega
  have product : target * block.sz = i * block.sz +
      op.direction * (quotient * block.sz + distance * block.sz) := by
    rw [moved]
    ring
  rcases direction_cases moves with forward | backward
  · rw [forward] at moved product
    have past : (block.len : Int) < target := by
      refine Int.lt_of_mul_lt_mul_right (a := (block.sz : Int)) ?_ (by omega)
      omega
    exact ⟨by omega, by omega, by omega⟩
  · rw [backward] at moved product
    have before : target < 0 := by
      refine Int.lt_of_mul_lt_mul_right (a := (block.sz : Int)) ?_ (by omega)
      omega
    exact ⟨by omega, by omega, by omega⟩

/-- The test of the source on an index that is at most one round away. -/
theorem inRange_iff {target : Int} (least : -2 ^ 63 ≤ target) (greatest : target < 2 ^ 64)
    {len : Nat} (small : len < 2 ^ 63) :
    ((BitVec.ofInt 64 target).slt 0 || (BitVec.ofNat 64 len).ult (.ofInt 64 target)) = false ↔
      0 ≤ target ∧ target ≤ len := by
  have length : (BitVec.ofNat 64 len).toNat = len := by
    rw [BitVec.toNat_ofNat, Nat.mod_eq_of_lt (by omega)]
  have unsigned : ((BitVec.ofInt 64 target).toNat : Int) = target % 2 ^ 64 := by
    rw [BitVec.toNat_ofInt, Int.toNat_of_nonneg (Int.emod_nonneg _ (by decide))]
    rfl
  have zero : (0 : BitVec 64).toInt = 0 := by decide
  rw [Bool.or_eq_false_iff, BitVec.slt_eq_decide, BitVec.ult_eq_decide, decide_eq_false_iff_not,
    decide_eq_false_iff_not, length, zero, BitVec.toInt_eq_toNat_cond]
  split <;> omega

/-! ### Decoding -/

/-- A pointer into a block stays one when the address is taken off. -/
theorem Block.Decoded.skipAddress {e : Expression} {i : Nat}
    (decoded : block.Decoded i (getAggregateFromPointer e)) :
    getAggregateFromPointer e.skipAddress = getAggregateFromPointer e := by
  cases e with
  | address object e1 =>
    cases e1 with
    | address inner e2 =>
      unfold Block.Decoded at decoded
      simp [getAggregateFromPointer, Expression.skipAddress, Expression.skipDotVar] at decoded
      split at decoded <;> simp at decoded
    | string_ | arrayLiteral | symbolOffset | variable_ | int64 | null_ | index | slice
    | dotVar => rfl
  | string_ | arrayLiteral | symbolOffset | variable_ | int64 | null_ | index | slice
  | dotVar => rfl

/-- The product of an index and the size of an element on 64-bit words. -/
theorem ofNat_mul_ofNat (i sz : Nat) :
    BitVec.ofNat 64 i * BitVec.ofNat 64 sz = BitVec.ofNat 64 (i * sz) :=
  (BitVec.ofNat_mul i sz).symm

/-- The difference of two indices on 64-bit words. -/
theorem ofNat_sub_ofNat (m i : Nat) :
    BitVec.ofNat 64 m - BitVec.ofNat 64 i = BitVec.ofInt 64 ((m : Int) - i) := by
  rw [Int.sub_eq_add_neg, BitVec.ofInt_add, BitVec.ofInt_neg, BitVec.sub_eq_add_neg,
    BitVec.ofInt_natCast, BitVec.ofInt_natCast]

/-- The block that a pointer is decoded to. -/
theorem blockOf_eq {i : Nat} (inside : i ≤ block.len) {decoded : Expression × BitVec 64}
    (points : block.Decoded i decoded) :
    blockOf decoded.1 decoded.2 =
      .ok (.ofNat 64 i, .ofNat 64 block.len, .ofNat 64 block.sz) := by
  unfold Block.Decoded at points
  split at points
  · rw [points]
    rfl
  · rw [points]
    rfl
  · obtain ⟨object, shape⟩ := points
    have bytes := block.mul_lt inside
    have size := block.sz_lt
    have positive := block.positive
    have start : i < 2 ^ 63 := Nat.lt_of_le_of_lt inside block.len_lt
    have quotient : BitVec.ofNat 64 (i * block.sz) / BitVec.ofNat 64 block.sz = .ofNat 64 i := by
      refine BitVec.eq_of_toNat_eq ?_
      rw [BitVec.toNat_udiv, BitVec.toNat_ofNat, BitVec.toNat_ofNat, BitVec.toNat_ofNat,
        Nat.mod_eq_of_lt (by omega), Nat.mod_eq_of_lt (by omega), Nat.mod_eq_of_lt (by omega),
        Nat.mul_div_cancel _ (by omega)]
    rw [shape]
    exact congrArg (fun word => Except.ok (word, _, _)) quotient

/-- The pointer that is built for an index of the block. -/
theorem pointsTo_pointerTo {i target : Nat} {decoded : Expression × BitVec 64}
    (points : block.Decoded i decoded) (inside : target ≤ block.len) (fresh : Nat)
    (pointee : Pointee) :
    PointsTo (pointerTo fresh pointee decoded.1 (.ofNat 64 target) (.ofNat 64 block.sz)) block
      target := by
  refine ⟨?_, inside⟩
  unfold Block.Decoded at points ⊢
  split at points
  · rw [points]
    cases pointee <;> rfl
  · rw [points]
    cases pointee <;> rfl
  · obtain ⟨object, shape⟩ := points
    rw [shape]
    refine ⟨fresh, ?_⟩
    rw [← ofNat_mul_ofNat target]
    rfl

/-- What the arithmetic leaves behind on a pointer into a block. -/
theorem pointerArithmetic_eq {e : Expression} {i : Nat} (pointer : PointsTo e block i)
    {pointee : Pointee} (known : pointee ≠ .void_) {op : EXP} (moves : op.direction ≠ 0)
    {distance : Int} (least : -2 ^ 63 ≤ distance * block.sz)
    (greatest : distance * block.sz < 2 ^ 63) (fresh : Nat) :
    let indx := BitVec.ofInt 64 (i + op.direction * block.elements distance)
    let len := BitVec.ofNat 64 block.len
    pointerArithmetic fresh op pointee e (.ofInt 64 (distance * block.sz)) =
      if indx.slt 0 || len.ult indx then .error (.outside indx.toInt len.toInt)
      else .ok (pointerTo fresh pointee (getAggregateFromPointer e).1 indx
        (.ofNat 64 block.sz)) := by
  intro indx len
  have moved := moveIndex_eq moves i least greatest
  have found := blockOf_eq pointer.inside pointer.decoded
  unfold pointerArithmetic
  rw [if_neg known]
  simp only [pointer.decoded.skipAddress, found, bind, Except.bind, moved]
  by_cases outside : (indx.slt 0 || len.ult indx) = true
  · rw [if_pos outside, if_pos outside]
    rfl
  · rw [if_neg outside, if_neg outside]
    rfl

/-- An offset that is divided correctly leads to the element at its distance, and is rejected
when there is none. -/
theorem pointerArithmetic_of_divides {e : Expression} {i : Nat} (pointer : PointsTo e block i)
    {pointee : Pointee} (known : pointee ≠ .void_) {op : EXP} (moves : op.direction ≠ 0)
    {distance : Int} (least : -2 ^ 63 ≤ distance * block.sz)
    (greatest : distance * block.sz < 2 ^ 63) (divides : block.Divides distance) (fresh : Nat) :
    let target := (i : Int) + op.direction * distance
    (0 ≤ target ∧ target ≤ block.len → pointerArithmetic fresh op pointee e
        (.ofInt 64 (distance * block.sz)) = .ok (pointerTo fresh pointee
          (getAggregateFromPointer e).1 (.ofNat 64 target.toNat) (.ofNat 64 block.sz))) ∧
    (¬(0 ≤ target ∧ target ≤ block.len) → ∃ rejection, pointerArithmetic fresh op pointee e
        (.ofInt 64 (distance * block.sz)) = .error rejection) := by
  intro target
  have result := pointerArithmetic_eq pointer known moves least greatest fresh
  have range : -2 ^ 63 ≤ target ∧ target < 2 ^ 64 := by
    have start : i < 2 ^ 63 := Nat.lt_of_le_of_lt pointer.inside block.len_lt
    have small := distance_range block least greatest
    rcases direction_cases moves with forward | backward
    · simp only [target, forward]
      omega
    · simp only [target, backward]
      omega
  have test := inRange_iff range.1 range.2 block.len_lt
  rw [index_of_divides divides] at result
  refine ⟨fun inside => ?_, fun outside => ?_⟩
  · rw [result, if_neg (by rw [test.mpr inside]; decide)]
    have natural : target = (target.toNat : Int) := (Int.toNat_of_nonneg inside.1).symm
    show Except.ok (pointerTo _ _ _ (BitVec.ofInt 64 target) _) = _
    rw [natural, BitVec.ofInt_natCast, Int.toNat_natCast]
  · refine ⟨_, result.trans (if_pos ?_)⟩
    rw [← Bool.not_eq_false, test]
    exact outside

/-- Any other offset is rejected. -/
theorem pointerArithmetic_of_not_divides {e : Expression} {i : Nat} (pointer : PointsTo e block i)
    {pointee : Pointee} (known : pointee ≠ .void_) {op : EXP} (moves : op.direction ≠ 0)
    {distance : Int} (least : -2 ^ 63 ≤ distance * block.sz)
    (greatest : distance * block.sz < 2 ^ 63) (wrong : ¬block.Divides distance) (fresh : Nat) :
    ∃ rejection, pointerArithmetic fresh op pointee e (.ofInt 64 (distance * block.sz)) =
      .error rejection := by
  obtain ⟨least', greatest', outside⟩ := index_outside moves wrong pointer.inside least rfl
  refine ⟨_, (pointerArithmetic_eq pointer known moves least greatest fresh).trans (if_pos ?_)⟩
  rw [← Bool.not_eq_false, inRange_iff least' greatest' block.len_lt]
  exact outside

/-! ### Difference and comparison -/

/-- The bytes between two pointers into one block, whose offset nodes are different objects when
the block is a variable. -/
theorem pointerDifference_eq {e1 e2 : Expression} {m i : Nat} (first : PointsTo e1 block m)
    (second : PointsTo e2 block i)
    (distinct : ∀ var, block.storage = .sarrayVariable var →
      (getAggregateFromPointer e1).1.object ≠ (getAggregateFromPointer e2).1.object) :
    pointerDifference e1 e2 = some (.ofInt 64 (((m : Int) - i) * block.sz)) := by
  have bytes : BitVec.ofNat 64 (m * block.sz) - BitVec.ofNat 64 (i * block.sz) =
      BitVec.ofInt 64 (((m : Int) - i) * block.sz) := by
    rw [ofNat_sub_ofNat, sub_mul]
    norm_cast
  have elements : (BitVec.ofNat 64 m - BitVec.ofNat 64 i) * BitVec.ofNat 64 block.sz =
      BitVec.ofInt 64 (((m : Int) - i) * block.sz) := by
    rw [ofNat_sub_ofNat, BitVec.ofInt_mul, BitVec.ofInt_natCast]
  have firstShape := first.decoded
  have secondShape := second.decoded
  unfold Block.Decoded at firstShape secondShape
  unfold pointerDifference
  cases storage : block.storage with
  | string_ object data =>
    rw [storage] at firstShape secondShape
    rw [firstShape, secondShape]
    simp [Expression.sameObject, Expression.object, elementSize, elements]
  | arrayLiteral object =>
    rw [storage] at firstShape secondShape
    rw [firstShape, secondShape]
    simp [Expression.sameObject, Expression.object, elementSize, elements]
  | sarrayVariable var =>
    rw [storage] at firstShape secondShape
    obtain ⟨object1, shape1⟩ := firstShape
    obtain ⟨object2, shape2⟩ := secondShape
    have different := distinct var storage
    rw [shape1, shape2] at different ⊢
    have nodes : ¬object1 = object2 := fun same => different (congrArg some same)
    simp [Expression.sameObject, Expression.object, nodes, bytes]

/-- The order of two elements as a comparison operator asks for it. -/
def EXP.orders (op : EXP) (first second : Nat) : Option Bool :=
  match op with
  | .lessThan => some (first < second)
  | .lessOrEqual => some (first ≤ second)
  | .greaterThan => some (second < first)
  | .greaterOrEqual => some (second ≤ first)
  | .identity | .equal => some (first == second)
  | .notIdentity | .notEqual => some (first != second)
  | _ => none

/-- Words of numbers below the modulus compare as the numbers. -/
theorem compareOffsets_eq (op : EXP) {first second : Nat} (small : first < 2 ^ 64)
    (small' : second < 2 ^ 64) :
    compareOffsets op (.ofNat 64 first) (.ofNat 64 second) = op.orders first second := by
  have word : (BitVec.ofNat 64 first).toNat = first := by
    rw [BitVec.toNat_ofNat, Nat.mod_eq_of_lt small]
  have word' : (BitVec.ofNat 64 second).toNat = second := by
    rw [BitVec.toNat_ofNat, Nat.mod_eq_of_lt small']
  have same : (BitVec.ofNat 64 first == BitVec.ofNat 64 second) = (first == second) := by
    rw [Bool.eq_iff_iff, beq_iff_eq, beq_iff_eq, ← BitVec.toNat_inj, word, word']
  cases op with
  | lessThan | lessOrEqual | greaterThan | greaterOrEqual =>
    simp only [compareOffsets, EXP.orders, BitVec.ult_eq_decide, BitVec.ule_eq_decide, word, word']
  | identity | equal | notIdentity | notEqual =>
    simp only [compareOffsets, EXP.orders, bne, same]
  | add | addAssign | plusPlus | min | minAssign | minusMinus => rfl

/-- The multiplication by the size of an element keeps the order. -/
theorem EXP.orders_mul (op : EXP) (block : Block) (first second : Nat) :
    op.orders (first * block.sz) (second * block.sz) = op.orders first second := by
  have positive : 0 < block.sz := block.positive
  have same : (first * block.sz == second * block.sz) = (first == second) := by
    rw [Bool.eq_iff_iff, beq_iff_eq, beq_iff_eq, Nat.mul_left_inj positive.ne']
  cases op with
  | lessThan | greaterThan =>
    simp only [EXP.orders, Nat.mul_lt_mul_right positive]
  | lessOrEqual | greaterOrEqual =>
    simp only [EXP.orders, Nat.mul_le_mul_right_iff positive]
  | identity | equal | notIdentity | notEqual => simp only [EXP.orders, bne, same]
  | add | addAssign | plusPlus | min | minAssign | minusMinus => rfl

/-- Pointers into one block compare as their indices. -/
theorem comparePointers_eq {e1 e2 : Expression} {j k : Nat} (first : PointsTo e1 block j)
    (second : PointsTo e2 block k) (op : EXP) :
    comparePointers op (getAggregateFromPointer e1).1 (getAggregateFromPointer e1).2
      (getAggregateFromPointer e2).1 (getAggregateFromPointer e2).2 =
      (op.orders j k).map fun n => if n then 1 else 0 := by
  have length := block.len_lt
  have firstInside := first.inside
  have secondInside := second.inside
  have firstBytes := block.mul_lt firstInside
  have secondBytes := block.mul_lt secondInside
  have firstShape := first.decoded
  have secondShape := second.decoded
  have indices : compareOffsets op (.ofNat 64 j) (.ofNat 64 k) = op.orders j k :=
    compareOffsets_eq op (by omega) (by omega)
  have bytes : compareOffsets op (.ofNat 64 (j * block.sz)) (.ofNat 64 (k * block.sz)) =
      op.orders j k := by
    rw [compareOffsets_eq op (by omega) (by omega), op.orders_mul block]
  unfold Block.Decoded at firstShape secondShape
  unfold comparePointers
  cases storage : block.storage with
  | string_ object data =>
    rw [storage] at firstShape secondShape
    rw [firstShape, secondShape]
    simp [pointToSameMemoryBlock, Expression.sameObject, Expression.object, indices]
  | arrayLiteral object =>
    rw [storage] at firstShape secondShape
    rw [firstShape, secondShape]
    simp [pointToSameMemoryBlock, Expression.sameObject, Expression.object, indices]
  | sarrayVariable var =>
    rw [storage] at firstShape secondShape
    obtain ⟨object1, shape1⟩ := firstShape
    obtain ⟨object2, shape2⟩ := secondShape
    rw [shape1, shape2]
    simp [pointToSameMemoryBlock, bytes]

/-! ### Pointer arithmetic as index arithmetic -/

/-- The operator that undoes another one. -/
def EXP.opposite : EXP → EXP
  | .add => .min
  | .addAssign => .minAssign
  | .plusPlus => .minusMinus
  | .min => .add
  | .minAssign => .addAssign
  | .minusMinus => .plusPlus
  | op => op

theorem direction_opposite {op : EXP} (moves : op.direction ≠ 0) :
    op.opposite.direction = -op.direction := by
  cases op with
  | add | addAssign | plusPlus | min | minAssign | minusMinus => rfl
  | lessThan | lessOrEqual | greaterThan | greaterOrEqual | identity | equal | notIdentity
  | notEqual => exact absurd rfl moves

/-- The move of a pointer by `k` elements is exact: it leads to the element at index `i + k`, the
opposite move leads back, the difference is `k` elements, and pointers into the block compare as
their indices; and it is rejected when there is no such element. -/
structure ExactMove (op : EXP) (pointee : Pointee) (e : Expression) (block : Block) (i : Nat)
    (k : Int) : Prop where
  moved : ∀ fresh, (getAggregateFromPointer e).1.object ≠ some fresh →
    0 ≤ i + k → i + k ≤ block.len → ∃ q,
      pointerArithmetic fresh op pointee e (.ofInt 64 (op.direction * k * block.sz)) = .ok q ∧
      PointsTo q block (i + k).toNat ∧
      (∀ fresh', ∃ back, pointerArithmetic fresh' op.opposite pointee q
        (.ofInt 64 (op.direction * k * block.sz)) = .ok back ∧ PointsTo back block i) ∧
      pointerDifference q e = some (.ofInt 64 (k * block.sz)) ∧
      ∀ (j : Nat) (r : Expression), PointsTo r block j → ∀ comparison,
        comparePointers comparison (getAggregateFromPointer r).1 (getAggregateFromPointer r).2
          (getAggregateFromPointer q).1 (getAggregateFromPointer q).2 =
          (comparison.orders j (i + k).toNat).map fun n => if n then 1 else 0
  rejected : ∀ fresh, ¬(0 ≤ i + k ∧ i + k ≤ block.len) → ∃ rejection,
    pointerArithmetic fresh op pointee e (.ofInt 64 (op.direction * k * block.sz)) =
      .error rejection

/-- The node that is built for a variable is the fresh object. -/
theorem object_pointerTo {i : Nat} {decoded : Expression × BitVec 64}
    (points : block.Decoded i decoded) {var : Nat} (storage : block.storage = .sarrayVariable var)
    (fresh : Nat) (pointee : Pointee) (indx sz : BitVec 64) :
    (getAggregateFromPointer (pointerTo fresh pointee decoded.1 indx sz)).1.object =
      some fresh := by
  unfold Block.Decoded at points
  rw [storage] at points
  obtain ⟨object, shape⟩ := points
  rw [shape]
  rfl

theorem exists_unused (agg : Expression) : ∃ fresh, agg.object ≠ some fresh := by
  cases object : agg.object with
  | none => exact ⟨0, by simp⟩
  | some id => exact ⟨id + 1, fun same => Nat.succ_ne_self id (Option.some.inj same).symm⟩

/-- The move is exact if and only if the byte offset is not negative, the elements are bytes, or
there is no element to move to. -/
theorem pointerArithmetic_iff (block : Block) {e : Expression} {i : Nat}
    (pointer : PointsTo e block i) {pointee : Pointee} (known : pointee ≠ .void_) {op : EXP}
    (moves : op.direction ≠ 0) {k : Int}
    (least : -2 ^ 63 ≤ op.direction * k * block.sz)
    (greatest : op.direction * k * block.sz < 2 ^ 63) :
    ExactMove op pointee e block i k ↔
      0 ≤ op.direction * k ∨ block.sz = 1 ∨ ¬(0 ≤ i + k ∧ i + k ≤ block.len) := by
  have target : (i : Int) + op.direction * (op.direction * k) = i + k := by
    rcases direction_cases moves with forward | backward
    · rw [forward, one_mul, one_mul]
    · rw [backward, neg_one_mul, neg_one_mul, neg_neg]
  constructor
  · intro exactMove
    by_contra wrong
    rw [not_or, not_or, not_not] at wrong
    obtain ⟨negative, larger, inside⟩ := wrong
    obtain ⟨fresh, unused⟩ := exists_unused (getAggregateFromPointer e).1
    obtain ⟨q, accepted, _⟩ := exactMove.moved fresh unused inside.1 inside.2
    obtain ⟨rejection, refused⟩ := pointerArithmetic_of_not_divides pointer known moves least
      greatest (not_or.mpr ⟨negative, larger⟩) fresh
    rw [refused] at accepted
    exact absurd accepted (by simp)
  · intro condition
    refine ⟨fun fresh unused first last => ?_, fun fresh outside => ?_⟩
    · have divides : block.Divides (op.direction * k) := by
        rcases condition with nonnegative | bytes | outside
        · exact Or.inl nonnegative
        · exact Or.inr bytes
        · exact absurd ⟨first, last⟩ outside
      have natural : ((i + k).toNat : Int) = i + k := Int.toNat_of_nonneg first
      have inside : (i + k).toNat ≤ block.len := by omega
      have accepted := (pointerArithmetic_of_divides pointer known moves least greatest divides
        fresh).1 (target ▸ ⟨first, last⟩)
      rw [target] at accepted
      have points := pointsTo_pointerTo pointer.decoded inside fresh pointee
      refine ⟨_, accepted, points, fun fresh' => ?_, ?_, ?_⟩
      · have opposite := direction_opposite moves
        have moves' : op.opposite.direction ≠ 0 := by
          rw [opposite]
          exact neg_ne_zero.mpr moves
        have start : ((i + k).toNat : Int) + op.opposite.direction * (op.direction * k) = i := by
          rw [opposite, natural, neg_mul, ← target]
          ring
        have back := (pointerArithmetic_of_divides points known moves' least greatest divides
          fresh').1 (by
            rw [start]
            exact ⟨by omega, by exact_mod_cast pointer.inside⟩)
        rw [start, Int.toNat_natCast] at back
        exact ⟨_, back, pointsTo_pointerTo points.decoded pointer.inside fresh' pointee⟩
      · have bytes := pointerDifference_eq points pointer (fun var storage => by
          rw [object_pointerTo pointer.decoded storage]
          exact Ne.symm unused)
        rw [bytes, natural, add_sub_cancel_left]
      · intro j r pointer' comparison
        exact comparePointers_eq pointer' points comparison
    · by_cases divides : block.Divides (op.direction * k)
      · exact (pointerArithmetic_of_divides pointer known moves least greatest divides fresh).2
          (target ▸ outside)
      · exact pointerArithmetic_of_not_divides pointer known moves least greatest divides fresh

end Arithmetic

/-- A block of four `int` elements. -/
def fourInts : Block := ⟨.arrayLiteral 0, 4, 4, by decide, by decide⟩

/-- The pointer to the element with index `1`. -/
def secondInt : Expression := .address 2 (.index 1 (.arrayLiteral 0 4 4) 1 false)

theorem pointsTo_secondInt : PointsTo secondInt fourInts 1 := ⟨rfl, by decide⟩

/-- Adding two elements to the pointer to the second of four. -/
theorem pointerArithmetic_forward : ExactMove .add .other secondInt fourInts 1 2 :=
  (pointerArithmetic_iff fourInts pointsTo_secondInt (by decide) (by decide) (by decide)
    (by decide)).mpr (Or.inl (by decide))

/-- Adding minus one element, as the byte offset `-4`, is rejected although there is an element
in front. -/
theorem pointerArithmetic_negative : ¬ExactMove .add .other secondInt fourInts 1 (-1) := by
  intro exactMove
  obtain ⟨q, accepted, _⟩ := exactMove.moved 3 (by decide) (by decide) (by decide)
  have refused : pointerArithmetic 3 .add .other secondInt (.ofInt 64 (-4)) =
      .error (.outside 4611686018427387904 4) := by decide
  have bytes : EXP.add.direction * -1 * (fourInts.sz : Int) = -4 := by decide
  rw [bytes, refused] at accepted
  exact absurd accepted (by simp)

end LaserD.Ctfe
