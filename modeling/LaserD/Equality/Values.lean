/-
This file models the compile-time values that are compared, and says when two of them are equal.

An array is a string literal, an array literal, a slice of either, or null; a struct literal has an
entry for each field, and the entry of a field that is skipped is missing. What a value stands for
does not depend on the representation: an array is the list of its elements, an associative array
the list of its entries, of which only what they map matters, and not their order. An element of a
struct literal is an object of its own, known by its address.
-/

import Mathlib.Data.List.Forall2

namespace LaserD.Equality

/-! ### Types and expressions -/

/-- The types of the values. The fields of a struct are looked up by its declaration. -/
inductive Ty
  | integral (sz : Nat) (unsigned : Bool)
  | array (next : Ty)
  | struct (sd : Nat)
  | assocArray (index next : Ty)
  deriving DecidableEq

/-- `isIntegral`. -/
def Ty.isIntegral : Ty → Bool
  | integral _ _ => true
  | _ => false

/-- `nextOf`: the type of the elements. -/
def Ty.nextOf : Ty → Option Ty
  | array next => some next
  | assocArray _ next => some next
  | _ => none

/-- The expressions that are values. The units of a string are of `sz` bytes, and of a signed type
where it is a hex string of such a type; a missing entry of a struct literal is a null pointer. -/
inductive Expr
  | integer (value : BitVec 64)
  | null (type : Ty)
  | string (sz : Nat) (unsigned : Bool) (units : List Nat)
  | arrayLiteral (type : Ty) (elements : List Expr)
  | slice (e1 : Expr) (lwr upr : Nat)
  | structLiteral (sd : Nat) (elements : List (Option (Nat × Expr)))
  | assocArrayLiteral (entries : List (Expr × Expr))

theorem sizeOf_arrayLiteral {type : Ty} {elements : List Expr} {e : Expr}
    (member : e ∈ elements) : sizeOf e < sizeOf (Expr.arrayLiteral type elements) := by
  have smaller := List.sizeOf_lt_of_mem member
  rw [Expr.arrayLiteral.sizeOf_spec]
  omega

theorem sizeOf_structLiteral {sd : Nat} {elements : List (Option (Nat × Expr))} {a : Nat}
    {e : Expr} (member : some (a, e) ∈ elements) :
    sizeOf e < sizeOf (Expr.structLiteral sd elements) := by
  have smaller := List.sizeOf_lt_of_mem member
  rw [Option.some.sizeOf_spec, Prod.mk.sizeOf_spec] at smaller
  rw [Expr.structLiteral.sizeOf_spec]
  omega

theorem sizeOf_assocArrayLiteral {entries : List (Expr × Expr)} {p : Expr × Expr}
    (member : p ∈ entries) : sizeOf p.1 < sizeOf (Expr.assocArrayLiteral entries) ∧
      sizeOf p.2 < sizeOf (Expr.assocArrayLiteral entries) := by
  have smaller := List.sizeOf_lt_of_mem member
  obtain ⟨key, value⟩ := p
  rw [Prod.mk.sizeOf_spec] at smaller
  rw [Expr.assocArrayLiteral.sizeOf_spec]
  dsimp only
  omega

/-- A case for each kind of expression, with the elements for the induction. -/
theorem Expr.cases_on_elements {motive : Expr → Prop} (integer : ∀ value, motive (.integer value))
    (null : ∀ type, motive (.null type))
    (string : ∀ sz unsigned units, motive (.string sz unsigned units))
    (arrayLiteral : ∀ type elements, (∀ e ∈ elements, motive e) →
      motive (.arrayLiteral type elements))
    (slice : ∀ e1 lwr upr, motive e1 → motive (.slice e1 lwr upr))
    (structLiteral : ∀ sd elements, (∀ a e, some (a, e) ∈ elements → motive e) →
      motive (.structLiteral sd elements))
    (assocArrayLiteral : ∀ entries, (∀ p ∈ entries, motive p.1 ∧ motive p.2) →
      motive (.assocArrayLiteral entries)) (e : Expr) : motive e := by
  match e with
  | .integer value => exact integer value
  | .null type => exact null type
  | .string sz unsigned units => exact string sz unsigned units
  | .arrayLiteral type elements =>
    refine arrayLiteral type elements fun e member => ?_
    exact cases_on_elements integer null string ‹_› slice structLiteral assocArrayLiteral e
  | .slice e1 lwr upr =>
    refine slice e1 lwr upr ?_
    exact cases_on_elements integer null string arrayLiteral slice structLiteral
      assocArrayLiteral e1
  | .structLiteral sd elements =>
    refine structLiteral sd elements fun a e member => ?_
    exact cases_on_elements integer null string arrayLiteral slice ‹_› assocArrayLiteral e
  | .assocArrayLiteral entries =>
    refine assocArrayLiteral entries fun p member => ⟨?_, ?_⟩
    · exact cases_on_elements integer null string arrayLiteral slice structLiteral ‹_› p.1
    · exact cases_on_elements integer null string arrayLiteral slice structLiteral ‹_› p.2
termination_by sizeOf e
decreasing_by
  · exact sizeOf_arrayLiteral member
  · rw [Expr.slice.sizeOf_spec]
    omega
  · exact sizeOf_structLiteral member
  · exact (sizeOf_assocArrayLiteral member).1
  · exact (sizeOf_assocArrayLiteral member).2

/-! ### What values stand for -/

/-- What an expression stands for. The addresses are those of the elements of struct literals. -/
inductive Value
  | integer (value : BitVec 64)
  | array (items : List Value)
  | struct (fields : List (Option (Nat × Value)))
  | assoc (entries : List (Value × Value))

/-- The elements from a lower to an upper bound. -/
def Value.sliced (lwr upr : Nat) : Value → Value
  | array items => array ((items.drop lwr).take (upr - lwr))
  | v => v

section

variable (element : Nat → Bool → Nat → BitVec 64)

mutual

/-- What an expression stands for, where `element` is the integer that a unit of a string is. -/
def denoteWith : Expr → Value
  | .integer value => .integer value
  | .null (.assocArray _ _) => .assoc []
  | .null _ => .array []
  | .string sz unsigned units => .array (units.map fun u => .integer (element sz unsigned u))
  | .arrayLiteral _ elements => .array (denoteAll elements)
  | .slice e1 lwr upr => (denoteWith e1).sliced lwr upr
  | .structLiteral _ elements => .struct (denoteFields elements)
  | .assocArrayLiteral entries => .assoc (denoteEntries entries)
termination_by structural e => e

/-- What the elements of an array literal stand for. -/
def denoteAll : List Expr → List Value
  | [] => []
  | e :: rest => denoteWith e :: denoteAll rest
termination_by structural elements => elements

/-- What the elements of a struct literal stand for. -/
def denoteFields : List (Option (Nat × Expr)) → List (Option (Nat × Value))
  | [] => []
  | none :: rest => none :: denoteFields rest
  | some (a, e) :: rest => some (a, denoteWith e) :: denoteFields rest
termination_by structural elements => elements

/-- What the entries of an associative array literal stand for. -/
def denoteEntries : List (Expr × Expr) → List (Value × Value)
  | [] => []
  | (key, value) :: rest => (denoteWith key, denoteWith value) :: denoteEntries rest
termination_by structural entries => entries

end

theorem denoteAll_eq (elements : List Expr) :
    denoteAll element elements = elements.map (denoteWith element) := by
  induction elements with
  | nil => rfl
  | cons e rest inductionHypothesis => rw [denoteAll, inductionHypothesis, List.map_cons]

theorem denoteFields_eq (elements : List (Option (Nat × Expr))) :
    denoteFields element elements =
      elements.map (Option.map (Prod.map id (denoteWith element))) := by
  induction elements with
  | nil => rfl
  | cons field rest inductionHypothesis =>
    rw [List.map_cons, ← inductionHypothesis]
    cases field with
    | none => rfl
    | some field => rfl

theorem denoteEntries_eq (entries : List (Expr × Expr)) :
    denoteEntries element entries =
      entries.map (Prod.map (denoteWith element) (denoteWith element)) := by
  induction entries with
  | nil => rfl
  | cons entry rest inductionHypothesis =>
    rw [List.map_cons, ← inductionHypothesis]
    rfl

end

/-- The integer that a unit of a string is: a unit of a signed type is extended with its sign. -/
def unitValue (sz : Nat) (unsigned : Bool) (u : Nat) : BitVec 64 :=
  if unsigned then .ofNat 64 u else (BitVec.ofNat (8 * sz) u).signExtend 64

/-- `getIndex`: a unit of a string, which is never extended with its sign. -/
def getIndex (_sz : Nat) (_unsigned : Bool) (u : Nat) : BitVec 64 :=
  .ofNat 64 u

/-- What an expression stands for. -/
def denote : Expr → Value :=
  denoteWith unitValue

/-- What the comparisons take an expression to stand for, which read strings with `getIndex`. -/
def seen : Expr → Value :=
  denoteWith getIndex

/-! ### Equality of values -/

mutual

/-- Two values are equal: integers of one value, arrays with equal elements, structs with equal
fields of which the same are missing, associative arrays that map the same keys to equal values. -/
def Same : Value → Value → Prop
  | .integer a, .integer b => a = b
  | .array xs, .array ys => SameItems xs ys
  | .struct xs, .struct ys => SameFields xs ys
  | .assoc xs, .assoc ys => Covered xs ys ∧ ∀ q ∈ ys, Covers xs q
  | _, _ => False
termination_by structural v => v

/-- The elements are equal in pairs. -/
def SameItems : List Value → List Value → Prop
  | [], [] => True
  | x :: xs, y :: ys => Same x y ∧ SameItems xs ys
  | _, _ => False
termination_by structural items => items

/-- The fields are equal in pairs. -/
def SameFields : List (Option (Nat × Value)) → List (Option (Nat × Value)) → Prop
  | [], [] => True
  | none :: xs, none :: ys => SameFields xs ys
  | some (_, x) :: xs, some (_, y) :: ys => Same x y ∧ SameFields xs ys
  | _, _ => False
termination_by structural fields => fields

/-- Each entry is equal to one of the others. -/
def Covered : List (Value × Value) → List (Value × Value) → Prop
  | [], _ => True
  | (key, value) :: xs, ys => (∃ q ∈ ys, Same key q.1 ∧ Same value q.2) ∧ Covered xs ys
termination_by structural entries => entries

/-- One of the entries is equal to another one. -/
def Covers : List (Value × Value) → Value × Value → Prop
  | [], _ => False
  | (key, value) :: xs, q => (Same key q.1 ∧ Same value q.2) ∨ Covers xs q
termination_by structural entries => entries

end

/-- Values of different kinds are not equal. -/
example (a : Int) (xs : List Value) : ¬Same (.integer a) (.array xs) := by
  unfold Same
  exact id

end LaserD.Equality
