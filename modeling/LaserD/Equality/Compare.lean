/-
This file models how the interpreter and the constant folder compare values.

The interpreter's comparison `ctfeRawCmp` dispatches on what the two expressions are. Two arrays are
compared over the length of the shorter one and then by their lengths, once slices are resolved;
the fields of two structs are compared in turn; the entries of an associative array are looked for
among the entries of the other one that are not used yet. The constant folder's `Equal` has its own
cases, and leaves slices and associative arrays alone.
-/

import LaserD.Strings.Ctfe
import LaserD.Equality.Values
import Mathlib.Tactic.NormNum

namespace LaserD.Equality

open Strings (peekData memcmp intDifference)

/-- How a comparison can fail: a null pointer is dereferenced, an assertion is reached, or an
element is asked for that there is not. -/
inductive Failure
  | dereference
  | assertion
  | range
  deriving DecidableEq

namespace Expr

/-- `isArray`. -/
def isArray : Expr → Bool
  | arrayLiteral _ _ | string _ _ _ | slice _ _ _ | null _ => true
  | _ => false

/-- `e.type.isIntegral()`: of the values, the integers have an integral type. -/
def isIntegral : Expr → Bool
  | integer _ => true
  | _ => false

/-- `toInteger`. -/
def toInteger : Expr → BitVec 64
  | integer value => value
  | _ => 0

/-- `resolveArrayLength`. -/
def resolveArrayLength : Expr → Nat
  | string _ _ units => units.length
  | arrayLiteral _ elements => elements.length
  | slice _ lwr upr => upr - lwr
  | assocArrayLiteral entries => entries.length
  | _ => 0

/-- The lower bound that the comparison of two arrays starts with. -/
def lower : Expr → Nat
  | slice _ lwr _ => lwr
  | _ => 0

/-- The array that the comparison of two arrays goes on with once a slice is resolved. -/
def resolved : Expr → Expr
  | slice e1 _ _ => e1
  | e => e

end Expr

/-- `==` and `!=`. -/
inductive EqualityOp
  | equal
  | notEqual
  deriving DecidableEq

/-! ### The arrays without a comparison of elements -/

/-- `sliceCmpStringWithString`. -/
def sliceCmpStringWithString (sz sz' : Nat) (units1 units2 : List Nat) (lo1 lo2 len : Nat) :
    Except Failure Int :=
  if sz = sz' then .ok (Strings.sliceCmpStringWithString sz units1 units2 lo1 lo2 len)
  else .error .assertion

/-- The loop of `sliceCmpStringWithArray`. -/
def cmpUnits (sz : Nat) (unsigned : Bool) : List Nat → List Expr → Int
  | u :: units, e :: elements =>
    let val1 := (getIndex sz unsigned u).toNat
    let val2 := e.toInteger.toNat
    let c := (if val1 > val2 then 1 else 0) - (if val1 < val2 then 1 else 0)
    if c ≠ (0 : Int) then c else cmpUnits sz unsigned units elements
  | _, _ => 0

/-- `sliceCmpStringWithArray`. -/
def sliceCmpStringWithArray (sz : Nat) (unsigned : Bool) (units1 : List Nat)
    (elements2 : List Expr) (lo1 lo2 len : Nat) : Int :=
  cmpUnits sz unsigned ((units1.drop lo1).take len) ((elements2.drop lo2).take len)

/-- The loop of `ctfeCmpArrays` over elements of an integral type. -/
def cmpIntegers : List Expr → List Expr → Int
  | ee1 :: elements1, ee2 :: elements2 =>
    let c := (ee1.toInteger - ee2.toInteger).toInt
    if c > 0 then 1 else if c < 0 then -1 else cmpIntegers elements1 elements2
  | _, _ => 0

/-! ### The comparison -/

theorem sizeOf_take_drop (elements : List Expr) (lo len : Nat) :
    sizeOf ((elements.drop lo).take len) ≤ sizeOf elements := by
  have shorter (n : Nat) (es : List Expr) : sizeOf (es.take n) ≤ sizeOf es := by
    induction es generalizing n with
    | nil => rw [List.take_nil]
    | cons e es inductionHypothesis =>
      cases n with
      | zero =>
        rw [List.take_zero, List.cons.sizeOf_spec, List.nil.sizeOf_spec]
        omega
      | succ n =>
        rw [List.take_succ_cons, List.cons.sizeOf_spec, List.cons.sizeOf_spec]
        exact Nat.add_le_add_left (inductionHypothesis n) _
  have later (n : Nat) (es : List Expr) : sizeOf (es.drop n) ≤ sizeOf es := by
    induction es generalizing n with
    | nil => rw [List.drop_nil]
    | cons e es inductionHypothesis =>
      cases n with
      | zero => exact le_rfl
      | succ n =>
        rw [List.drop_succ_cons, List.cons.sizeOf_spec]
        exact (inductionHypothesis n).trans (by omega)
  exact (shorter len _).trans (later lo elements)

theorem sizeOf_resolved (e : Expr) : sizeOf e.resolved ≤ sizeOf e := by
  cases e with
  | slice e1 lwr upr =>
    rw [Expr.resolved, Expr.slice.sizeOf_spec]
    omega
  | _ => exact le_rfl

mutual

/-- `ctfeRawCmp`: zero for values that are equal. -/
def ctfeRawCmp (e1 e2 : Expr) : Except Failure Int :=
  match e1, e2 with
  | .null _, .null _ => .ok 0
  | e1, e2 =>
    if e1.isArray && e2.isArray then
      let len1 := e1.resolveArrayLength
      let len2 := e2.resolveArrayLength
      if len1 > 0 ∧ len2 > 0 then do
        let len := if len1 < len2 then len1 else len2
        let res ← ctfeCmpArrays e1.resolved e2.resolved e1.lower e2.lower len
        if res ≠ 0 then return res
        return intDifference len1 len2
      else .ok (intDifference len1 len2)
    else if e1.isIntegral then .ok (if e1.toInteger ≠ e2.toInteger then 1 else 0)
    else match e1, e2 with
      | .structLiteral sd1 elements1, .structLiteral sd2 elements2 =>
        if sd1 ≠ sd2 then .ok 1
        else if elements1.length ≠ elements2.length then .ok 1
        else cmpFields elements1 elements2
      | .assocArrayLiteral entries1, .assocArrayLiteral entries2 =>
        if entries2.length ≠ entries1.length then .ok 1
        else cmpEntries entries1 entries2 (List.replicate entries1.length false)
      | .assocArrayLiteral entries1, .null _ => .ok (if entries1.length ≠ 0 then 1 else 0)
      | .null _, .assocArrayLiteral entries2 => .ok (if entries2.length ≠ 0 then 1 else 0)
      | _, _ => .error .assertion
termination_by (sizeOf e1, 2, 0)
decreasing_by
  · rcases (sizeOf_resolved e1).lt_or_eq with smaller | same
    · exact Prod.Lex.left _ _ smaller
    · rw [same]
      exact Prod.Lex.right _ (Prod.Lex.left _ _ (by omega))
  · exact Prod.Lex.left _ _ (by rw [Expr.structLiteral.sizeOf_spec]; omega)
  · exact Prod.Lex.left _ _ (by rw [Expr.assocArrayLiteral.sizeOf_spec]; omega)

/-- `ctfeCmpArrays`, on the arrays and the lower bounds that slices are resolved to. -/
def ctfeCmpArrays (x1 x2 : Expr) (lo1 lo2 len : Nat) : Except Failure Int :=
  match x1, x2 with
  | .string sz1 _ units1, .string sz2 _ units2 =>
    sliceCmpStringWithString sz1 sz2 units1 units2 lo1 lo2 len
  | .string sz1 unsigned units1, .arrayLiteral _ elements2 =>
    .ok (sliceCmpStringWithArray sz1 unsigned units1 elements2 lo1 lo2 len)
  | .arrayLiteral _ elements1, .string sz2 unsigned units2 =>
    .ok (-sliceCmpStringWithArray sz2 unsigned units2 elements1 lo2 lo1 len)
  | .arrayLiteral type1 elements1, .arrayLiteral _ elements2 =>
    if type1.nextOf.any Ty.isIntegral then
      .ok (cmpIntegers ((elements1.drop lo1).take len) ((elements2.drop lo2).take len))
    else cmpElements ((elements1.drop lo1).take len) ((elements2.drop lo2).take len)
  | _, _ => .error .assertion
termination_by (sizeOf x1, 1, 0)
decreasing_by
  have within := sizeOf_take_drop elements1 lo1 len
  refine Prod.Lex.left _ _ ?_
  rw [Expr.arrayLiteral.sizeOf_spec]
  omega

/-- The loop of `ctfeCmpArrays` over elements of another type. -/
def cmpElements (elements1 elements2 : List Expr) : Except Failure Int :=
  match elements1, elements2 with
  | ee1 :: elements1, ee2 :: elements2 => do
    if (← ctfeRawCmp ee1 ee2) ≠ 0 then return 1
    cmpElements elements1 elements2
  | _, _ => .ok 0
termination_by (sizeOf elements1, 0, 0)

/-- The loop over the fields of two structs. The left one is dereferenced before it is compared
with null. -/
def cmpFields (elements1 elements2 : List (Option (Nat × Expr))) : Except Failure Int :=
  match elements1, elements2 with
  | none :: _, _ :: _ => .error .dereference
  | some _ :: _, none :: _ => .ok 1
  | some (a1, ee1) :: elements1, some (a2, ee2) :: elements2 =>
    if a1 = a2 then cmpFields elements1 elements2
    else do
      if (← ctfeRawCmp ee1 ee2) ≠ 0 then return 1
      cmpFields elements1 elements2
  | _, _ => .ok 0
termination_by (sizeOf elements1, 0, 0)

/-- The loop over the entries of an associative array, with the marks of the entries of the other
one that are used. -/
def cmpEntries (entries1 entries2 : List (Expr × Expr)) (used : List Bool) :
    Except Failure Int :=
  match entries1 with
  | [] => .ok 0
  | (k1, v1) :: entries1 => do
    match ← findKey k1 entries2 used 0 with
    | none => return 1
    | some (j, v2) =>
      if (← ctfeRawCmp v1 v2) ≠ 0 then return 1
      cmpEntries entries1 entries2 (used.set j true)
termination_by (sizeOf entries1, 0, 0)

/-- The loop that looks for a key among the entries that are not used, and its place. -/
def findKey (k1 : Expr) (entries2 : List (Expr × Expr)) (used : List Bool) (j : Nat) :
    Except Failure (Option (Nat × Expr)) :=
  match entries2, used with
  | (k2, v2) :: entries2, mark :: used =>
    if mark then findKey k1 entries2 used (j + 1)
    else do
      if (← ctfeRawCmp k1 k2) ≠ 0 then findKey k1 entries2 used (j + 1)
      else return some (j, v2)
  | _, _ => .ok none
termination_by (sizeOf k1, 3, entries2.length)

end

/-- `ctfeEqual`. -/
def ctfeEqual (op : EqualityOp) (e1 e2 : Expr) : Except Failure Bool := do
  return (← ctfeRawCmp e1 e2) = 0 ^^ op = .notEqual

/-! ### The constant folder -/

/-- `isConst() == 1`. -/
def Expr.isConst : Expr → Bool
  | integer _ => true
  | _ => false

/-- The comparison of a string with an array literal in `Equal`. -/
def equalUnits (sz : Nat) (unsigned : Bool) : List Nat → List Expr → Option Bool
  | u :: units, ee2 :: elements =>
    if !ee2.isConst then none
    else if getIndex sz unsigned u ≠ ee2.toInteger then some false
    else equalUnits sz unsigned units elements
  | _, _ => some true

mutual

/-- `Equal`, where nothing means `cantExp`. -/
def Equal (op : EqualityOp) (e1 e2 : Expr) : Option Bool :=
  Option.map (fun cmp => cmp ^^ op = .notEqual) <| match e1, e2 with
    | .null _, .null _ => some true
    | .null _, .string _ _ units => some (units.length = 0)
    | .null _, .arrayLiteral _ elements => some (elements.length = 0)
    | .string _ _ units, .null _ => some (units.length = 0)
    | .arrayLiteral _ elements, .null _ => some (elements.length = 0)
    | .string sz1 _ units1, .string sz2 _ units2 =>
      if sz1 ≠ sz2 then none
      else some (units1.length = units2.length ∧
        memcmp (peekData sz1 units1) (peekData sz2 units2) = 0)
    | .arrayLiteral _ elements1, .arrayLiteral _ elements2 =>
      if elements1.length ≠ elements2.length then some false
      else equalElements elements1 elements2
    | .arrayLiteral _ elements, .string sz unsigned units =>
      if units.length ≠ elements.length then some false
      else equalUnits sz unsigned units elements
    | .string sz unsigned units, .arrayLiteral _ elements =>
      if units.length ≠ elements.length then some false
      else equalUnits sz unsigned units elements
    | .structLiteral sd1 elements1, .structLiteral sd2 elements2 =>
      if sd1 ≠ sd2 then some false
      else if elements1.length ≠ elements2.length then some false
      else equalFields elements1 elements2
    | e1, e2 =>
      if !e1.isConst || !e2.isConst then none
      else if e1.isIntegral then some (e1.toInteger = e2.toInteger)
      else none
termination_by sizeOf e1

/-- The loop over the elements of two array literals in `Equal`. -/
def equalElements (elements1 elements2 : List Expr) : Option Bool :=
  match elements1, elements2 with
  | ee1 :: elements1, ee2 :: elements2 => do
    if (← Equal .equal ee1 ee2) = false then return false
    equalElements elements1 elements2
  | _, _ => some true
termination_by sizeOf elements1

/-- The loop over the fields of two structs in `Equal`. -/
def equalFields (elements1 elements2 : List (Option (Nat × Expr))) : Option Bool :=
  match elements1, elements2 with
  | none :: elements1, none :: elements2 => equalFields elements1 elements2
  | none :: _, some _ :: _ => some false
  | some _ :: _, none :: _ => some false
  | some (a1, ee1) :: elements1, some (a2, ee2) :: elements2 =>
    if a1 = a2 then equalFields elements1 elements2
    else do
      if (← Equal .equal ee1 ee2) = false then return false
      equalFields elements1 elements2
  | _, _ => some true
termination_by sizeOf elements1

end

end LaserD.Equality
