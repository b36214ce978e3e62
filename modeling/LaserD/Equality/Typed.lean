/-
This file says which expressions are well formed, and what the comparisons see of an array.

Two values that are compared have one type, so the file fixes the types of the fields of each struct
and the object at each address, and types the expressions. A typed array is null, a literal, or a
part of a literal, and it stands for a part of what the literal stands for.
-/

import LaserD.Equality.Compare

namespace LaserD.Equality

/-- A string or an array literal. -/
def Expr.isLiteral : Expr → Bool
  | string _ _ _ | arrayLiteral _ _ => true
  | _ => false

section

variable (fields : Nat → List Ty) (heap : Nat → Expr)

mutual

/-- An expression is a value of a type. The object at an address is the one on the heap, a slice is
a part of a literal, and no two keys of an associative array literal are equal. -/
inductive Typed : Expr → Ty → Prop
  | integer (value : BitVec 64) (sz : Nat) (unsigned : Bool) :
      Typed (.integer value) (.integral sz unsigned)
  | nullArray (next : Ty) : Typed (.null (.array next)) (.array next)
  | nullAssocArray (index next : Ty) :
      Typed (.null (.assocArray index next)) (.assocArray index next)
  | string (sz : Nat) (unsigned : Bool) (units : List Nat) (size : sz ≤ 8)
      (inRange : ∀ u ∈ units, u < 2 ^ (8 * sz)) (addressable : units.length < 2 ^ 64) :
      Typed (.string sz unsigned units) (.array (.integral sz unsigned))
  | arrayLiteral (next : Ty) (elements : List Expr) (typed : ∀ e ∈ elements, Typed e next)
      (addressable : elements.length < 2 ^ 64) :
      Typed (.arrayLiteral (.array next) elements) (.array next)
  | slice (next : Ty) (e1 : Expr) (lwr upr : Nat) (typed : Typed e1 (.array next))
      (literal : e1.isLiteral) (ordered : lwr ≤ upr) (within : upr ≤ e1.resolveArrayLength) :
      Typed (.slice e1 lwr upr) (.array next)
  | structLiteral (sd : Nat) (elements : List (Option (Nat × Expr)))
      (typed : TypedFields elements (fields sd)) :
      Typed (.structLiteral sd elements) (.struct sd)
  | assocArrayLiteral (index next : Ty) (entries : List (Expr × Expr))
      (keys : ∀ p ∈ entries, Typed p.1 index) (values : ∀ p ∈ entries, Typed p.2 next)
      (distinct : entries.Pairwise fun p q => ¬Same (denote p.1) (denote q.1)) :
      Typed (.assocArrayLiteral entries) (.assocArray index next)

/-- The elements of a struct literal are values of the types of the fields. -/
inductive TypedFields : List (Option (Nat × Expr)) → List Ty → Prop
  | nil (types : List Ty) : TypedFields [] types
  | missing (type : Ty) (elements : List (Option (Nat × Expr))) (types : List Ty)
      (rest : TypedFields elements types) : TypedFields (none :: elements) (type :: types)
  | field (a : Nat) (e : Expr) (type : Ty) (elements : List (Option (Nat × Expr)))
      (types : List Ty) (located : heap a = e) (typed : Typed e type)
      (rest : TypedFields elements types) :
      TypedFields (some (a, e) :: elements) (type :: types)

end

end

variable {fields : Nat → List Ty} {heap : Nat → Expr} {e : Expr} {next : Ty}

/-- A value of an integral type is an integer. -/
theorem Typed.eq_integer {sz : Nat} {unsigned : Bool}
    (typed : Typed fields heap e (.integral sz unsigned)) : e = .integer e.toInteger := by
  cases typed
  rfl

/-- A value of an array type is an array. -/
theorem Typed.isArray (typed : Typed fields heap e (.array next)) : e.isArray = true := by
  cases typed <;> rfl

/-! ### The items of a literal -/

section

variable (element : Nat → Bool → Nat → BitVec 64)

/-- The items of an array. -/
def items (e : Expr) : List Value :=
  match denoteWith element e with
  | .array items => items
  | _ => []

theorem items_string (sz : Nat) (unsigned : Bool) (units : List Nat) :
    items element (.string sz unsigned units) =
      (units.map (element sz unsigned)).map .integer := by
  rw [List.map_map]
  rfl

theorem items_arrayLiteral (type : Ty) (elements : List Expr) :
    items element (.arrayLiteral type elements) = elements.map (denoteWith element) :=
  denoteAll_eq element elements

/-- Elements of an integral type are integers. -/
theorem map_denoteWith_of_integral {sz : Nat} {unsigned : Bool} {elements : List Expr}
    (typed : ∀ e ∈ elements, Typed fields heap e (.integral sz unsigned)) :
    elements.map (denoteWith element) = (elements.map Expr.toInteger).map .integer := by
  rw [List.map_map]
  refine List.map_congr_left fun e member => ?_
  rw [(typed e member).eq_integer]
  rfl

theorem Typed.denoteWith_eq (typed : Typed fields heap e (.array next)) :
    denoteWith element e = .array (items element e) := by
  cases typed with
  | slice _ e1 _ _ typed literal _ _ => cases typed <;> first | rfl | cases literal
  | _ => rfl

theorem items_slice {lwr upr : Nat} (typed : Typed fields heap e (.array next)) :
    items element (.slice e lwr upr) = ((items element e).drop lwr).take (upr - lwr) := by
  rw [items, denoteWith, typed.denoteWith_eq]
  rfl

/-- The number of items of a literal is its length, and fits the machine's words. -/
theorem Typed.length_literal (typed : Typed fields heap e (.array next))
    (literal : e.isLiteral = true) :
    (items element e).length = e.resolveArrayLength ∧ e.resolveArrayLength < 2 ^ 64 := by
  cases typed with
  | nullArray => cases literal
  | string sz unsigned units size inRange addressable =>
    refine ⟨?_, addressable⟩
    rw [items_string, List.length_map, List.length_map]
    rfl
  | arrayLiteral next elements typed addressable =>
    refine ⟨?_, addressable⟩
    rw [items_arrayLiteral, List.length_map]
    rfl
  | slice => cases literal

/-- The number of items of an array is its length, and fits the machine's words. -/
theorem Typed.length_items (typed : Typed fields heap e (.array next)) :
    (items element e).length = e.resolveArrayLength ∧ e.resolveArrayLength < 2 ^ 64 := by
  by_cases whole : e.isLiteral = true
  · exact typed.length_literal element whole
  · cases typed with
    | nullArray => exact ⟨rfl, Nat.two_pow_pos 64⟩
    | string => exact absurd rfl whole
    | arrayLiteral => exact absurd rfl whole
    | slice next e1 lwr upr typed literal ordered within =>
      obtain ⟨length, addressable⟩ := typed.length_literal element literal
      refine ⟨?_, (Nat.sub_le upr lwr).trans_lt (within.trans_lt addressable)⟩
      rw [items_slice element typed, List.length_take, List.length_drop, length]
      exact min_eq_left (Nat.sub_le_sub_right within lwr)

/-- An array that is not empty is a part of a literal. -/
theorem Typed.resolved (typed : Typed fields heap e (.array next))
    (filled : 0 < e.resolveArrayLength) :
    Typed fields heap e.resolved (.array next) ∧ e.resolved.isLiteral = true ∧
      e.lower + e.resolveArrayLength ≤ e.resolved.resolveArrayLength ∧
      items element e =
        ((items element e.resolved).drop e.lower).take e.resolveArrayLength := by
  have length := (typed.length_items element).1
  cases typed with
  | nullArray => exact absurd filled (Nat.lt_irrefl 0)
  | string sz unsigned units size inRange addressable =>
    refine ⟨.string sz unsigned units size inRange addressable, rfl, ?_, ?_⟩
    · exact (Nat.zero_add _).le
    · exact (List.take_of_length_le length.le).symm
  | arrayLiteral next elements typed addressable =>
    refine ⟨.arrayLiteral next elements typed addressable, rfl, ?_, ?_⟩
    · exact (Nat.zero_add _).le
    · exact (List.take_of_length_le length.le).symm
  | slice next e1 lwr upr typed literal ordered within =>
    exact ⟨typed, literal, (Nat.add_sub_of_le ordered).trans_le within, items_slice element typed⟩

end

end LaserD.Equality
