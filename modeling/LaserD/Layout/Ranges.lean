/-
This file states what a sound layout is. The leaves of a layout are the ranges of
bits of its fields and bit-fields. Two members of a struct, or two leaves below
them, have disjoint ranges, while the members of a union may share theirs.

The states that a layout runs through are reached by `Visits`: it says that a
predicate holds of every member that is visited, also inside of anonymous
aggregates, with the state in which it is visited. `Regular` is the predicate that
excludes the states in which the layout goes wrong.
-/

import LaserD.Layout.Placement

namespace LaserD.Layout

/-! ### Ranges of bits -/

/-- The bits of a field, from the first one up to the one behind the last. -/
structure Range where
  start : Nat
  stop : Nat

/-- Two ranges share no bit. -/
def Range.Apart (a b : Range) : Prop := a.stop ≤ b.start ∨ b.stop ≤ a.start

mutual

/-- The ranges of the fields and bit-fields of a member. A bit-field of width zero has none. -/
def Placed.leaves : Placed → List Range
  | .varDeclaration f offset => [{ start := 8 * offset, stop := 8 * (offset + f.memsize) }]
  | .bitFieldDeclaration b offset bitOffset =>
    if b.fieldWidth = 0 then []
    else [{ start := 8 * offset + bitOffset, stop := 8 * offset + bitOffset + b.fieldWidth }]
  | .anonDeclaration _ _ decl => decl.leaves

/-- The ranges of the members of a list. -/
def PlacedList.leaves : PlacedList → List Range
  | .nil => []
  | .cons member rest => member.leaves ++ rest.leaves

end

mutual

/-- The members of every anonymous struct have disjoint ranges. -/
def Placed.Disjoint : Placed → Prop
  | .varDeclaration _ _ => True
  | .bitFieldDeclaration _ _ _ => True
  | .anonDeclaration isunion _ decl => decl.Disjoint isunion

/-- The members of a struct have disjoint ranges, and so do those of every anonymous struct in
it. -/
def PlacedList.Disjoint (isunion : Bool) : PlacedList → Prop
  | .nil => True
  | .cons member rest =>
    member.Disjoint ∧ rest.Disjoint isunion ∧
      (isunion = false → ∀ a ∈ member.leaves, ∀ b ∈ rest.leaves, a.Apart b)

end

mutual

/-- A bit-field lies inside of its type, at least when the whole units of alignment in front of
it are taken off its bit offset, as they are where it is read and written. -/
def Placed.Encloses : Placed → Prop
  | .varDeclaration _ _ => True
  | .bitFieldDeclaration b _ bitOffset =>
    bitOffset + b.fieldWidth ≤ b.memsize * 8 ∨
      bitOffset % (b.memalignsize * 8) + b.fieldWidth ≤ b.memsize * 8
  | .anonDeclaration _ _ decl => decl.Encloses

/-- The bit-fields of a list lie inside of their types. -/
def PlacedList.Encloses : PlacedList → Prop
  | .nil => True
  | .cons member rest => member.Encloses ∧ rest.Encloses

end

mutual

/-- The fields of default alignment, if the anonymous aggregates around them have default
alignment too, begin at a multiple of their natural alignment, which is at most `bound`. -/
def Placed.Aligned (bound : Nat) : Placed → Prop
  | .varDeclaration f offset =>
    f.alignment = .default → f.memalignsize ∣ offset ∧ f.memalignsize ≤ bound
  | .bitFieldDeclaration _ _ _ => True
  | .anonDeclaration _ alignment decl => alignment = .default → decl.Aligned bound

/-- The fields of a list are aligned. -/
def PlacedList.Aligned (bound : Nat) : PlacedList → Prop
  | .nil => True
  | .cons member rest => member.Aligned bound ∧ rest.Aligned bound

end

/-! ### Visits -/

variable (u : Nat → Nat) (target : Target)

/-- The aggregate before the members of an anonymous one are visited. -/
def Aggregate.hijacked (ad : Aggregate) : Aggregate :=
  { structsize := 0, alignsize := 0, fields := ad.fields }

mutual

/-- A predicate holds of a member and the state before it, and of every member below it. -/
def Member.Visits (P : Bool → Member → Aggregate → FieldState → Prop) (isunion : Bool) :
    Member → Aggregate → FieldState → Prop
  | .varDeclaration f, ad, fs => P isunion (.varDeclaration f) ad fs
  | .bitFieldDeclaration b, ad, fs => P isunion (.bitFieldDeclaration b) ad fs
  | .anonDeclaration anonunion alignment decl, ad, fs =>
    P isunion (.anonDeclaration anonunion alignment decl) ad fs ∧
      decl.Visits P anonunion anonunion ad.hijacked .init

/-- A predicate holds of all members of a list, each with the state before it. -/
def Members.Visits (P : Bool → Member → Aggregate → FieldState → Prop) (isunion restart : Bool) :
    Members → Aggregate → FieldState → Prop
  | .nil, _, _ => True
  | .cons member rest, ad, fs =>
    member.Visits P isunion ad fs ∧
      ∀ ad' fs' placed, member.setFieldOffset u target isunion ad fs = some (ad', fs', placed) →
        rest.Visits P isunion restart ad' (if restart then { fs' with offset := 0 } else fs')

end

/-- Placing the member does not lower the size of the aggregate. -/
def Grows (isunion : Bool) (member : Member) (ad : Aggregate) (fs : FieldState) : Prop :=
  ∀ ad' fs' placed, member.setFieldOffset u target isunion ad fs = some (ad', fs', placed) →
    ad.structsize ≤ ad'.structsize

/-- The states in which the layout does not go wrong. A bit-field that continues the one in flight
stands right behind it, and the field begins at a multiple of the alignment of its type or has
room for it. Neither the end of such a bit-field nor the rounding up of one of width zero leaves 32
bits. An anonymous aggregate without fields has no bit-fields either, and one of size zero needs no
alignment. -/
def Regular (isunion : Bool) (member : Member) (ad : Aggregate) (fs : FieldState) : Prop :=
  match member with
  | .varDeclaration _ => True
  | .bitFieldDeclaration b =>
    if b.fieldWidth = 0 then isunion = false → fs.offset + b.memsize - 1 < 2 ^ 32
    else startsField u target b fs = false →
      (isunion = false → fs.offset = fs.fieldOffset + fs.fieldSize) ∧
        (target.microsoft = false → b.memalignsize ∣ fs.fieldOffset ∨
          fs.bitOffset + b.fieldWidth ≤ b.memsize * 8) ∧
        fs.bitOffset + b.fieldWidth + 7 < 2 ^ 32 ∧
        fs.fieldOffset + (fs.bitOffset + b.fieldWidth + 7) / 8 < 2 ^ 32
  | .anonDeclaration anonunion _ decl =>
    ∀ inner fs' placed,
      decl.setFieldOffset u target anonunion anonunion ad.hijacked .init =
        some (inner, fs', placed) →
      (inner.fields = ad.fields → placed.leaves = []) ∧
        (inner.fields ≠ ad.fields → inner.structsize = 0 → inner.alignsize ≤ 1)

end LaserD.Layout
