/-
This file models how the members of a struct are laid out. A member is an
ordinary field, a bit-field or an anonymous struct or union with members of its
own. The visitor goes over the members with the size and the alignment of the
aggregate so far and a field state, which says where the next field goes and
whether a bit-field is in flight, that is, whether the next bit-field may continue
it. An anonymous aggregate is laid out from offset 0 with the size and alignment
of the enclosing one hijacked for it, and is then placed like a field.

All numbers of the code are 32 bits wide. The model takes the reduction of a sum
as a parameter `u`: it is `uint` for the code, and the identity for the same
layout in exact arithmetic. A struct that does not fit is an error, and the layout
is then `none`.
-/

import Mathlib.Algebra.Group.Nat.Defs
import Mathlib.Data.Nat.Log
import Mathlib.Order.Basic

namespace LaserD.Layout

/-! ### Alignment -/

/-- Reduction to 32 bits. -/
def uint (x : Nat) : Nat := x % 2 ^ 32

/-- The alignment in effect for a member, which is a power of two: the default one, that of
`#pragma pack`, or an explicit one. -/
inductive StructAlign where
  | default
  | pack (log : Nat)
  | explicit (log : Nat)
  deriving DecidableEq, Repr

variable (u : Nat → Nat)

/-- `(offset + alignvalue - 1) & ~(alignvalue - 1)` for a power of two. -/
def roundUp (offset alignvalue : Nat) : Nat := u (offset + alignvalue - 1) / alignvalue * alignvalue

/-- Do byte or word alignment as necessary. -/
def alignmember (alignment : StructAlign) (memalignsize offset : Nat) : Nat :=
  match alignment with
  | .default => roundUp u offset memalignsize
  | .pack log =>
    let alignvalue := 2 ^ log
    roundUp u offset (if memalignsize < alignvalue then memalignsize else alignvalue)
  | .explicit log => if 2 ^ log > 1 then roundUp u offset (2 ^ log) else offset

/-- The alignment that a member contributes to its aggregate. -/
def actualAlignment (alignment : StructAlign) (memalignsize : Nat) : Nat :=
  match alignment with
  | .default => memalignsize
  | .pack log => if memalignsize < 2 ^ log then memalignsize else 2 ^ log
  | .explicit log => 2 ^ log

/-! ### Members -/

/-- An ordinary field: its size, its natural alignment and the alignment in effect for it. -/
structure Field where
  memsize : Nat
  memalignlog : Nat
  alignment : StructAlign

/-- The natural alignment of a field. -/
def Field.memalignsize (f : Field) : Nat := 2 ^ f.memalignlog

/-- A bit-field of an integral type. Its width is at most that of its type, and only an unnamed
one has the width zero. -/
structure BitField where
  anon : Bool
  memsizelog : Nat
  memalignlog : Nat
  fieldWidth : Nat
  alignment : StructAlign
  integral : memalignlog ≤ memsizelog ∧ memsizelog ≤ 4
  fits : fieldWidth ≤ 2 ^ memsizelog * 8
  named : fieldWidth ≠ 0 ∨ anon = true

/-- The size of the type of a bit-field. -/
def BitField.memsize (b : BitField) : Nat := 2 ^ b.memsizelog

/-- The natural alignment of the type of a bit-field. -/
def BitField.memalignsize (b : BitField) : Nat := 2 ^ b.memalignlog

mutual

/-- A member of an aggregate. -/
inductive Member where
  | varDeclaration (f : Field)
  | bitFieldDeclaration (b : BitField)
  | anonDeclaration (isunion : Bool) (alignment : StructAlign) (decl : Members)

/-- The members of an aggregate, first member first. -/
inductive Members where
  | nil
  | cons (member : Member) (rest : Members)

end

mutual

/-- A member with the offsets that it has been given. -/
inductive Placed where
  | varDeclaration (f : Field) (offset : Nat)
  | bitFieldDeclaration (b : BitField) (offset bitOffset : Nat)
  | anonDeclaration (isunion : Bool) (alignment : StructAlign) (decl : PlacedList)

/-- Members with their offsets. -/
inductive PlacedList where
  | nil
  | cons (member : Placed) (rest : PlacedList)

end

/-! ### The state -/

/-- What is known of the aggregate so far: its size, its alignment and the number of its
fields. -/
structure Aggregate where
  structsize : Nat
  alignsize : Nat
  fields : Nat

/-- Where the next field goes, and the bit-field in flight. -/
structure FieldState where
  offset : Nat
  fieldOffset : Nat
  fieldSize : Nat
  bitOffset : Nat
  inFlight : Bool

/-- The state at the beginning of an aggregate. -/
def FieldState.init : FieldState :=
  { offset := 0, fieldOffset := 0, fieldSize := 0, bitOffset := 0, inFlight := false }

/-- What `placeField` answers: the offset of the member, the offset of the next one, and the size
and alignment of the aggregate. -/
structure Placement where
  memoffset : Nat
  nextoffset : Nat
  aggsize : Nat
  aggalignsize : Nat

/-- Place a field into an aggregate. It is an error when the sum of the sizes does not fit. -/
def placeField (nextoffset memsize memalignsize : Nat) (alignment : StructAlign)
    (aggsize aggalignsize : Nat) (isunion : Bool) : Option Placement :=
  let actual := actualAlignment alignment memalignsize
  if memsize + actual + nextoffset < 2 ^ 32 then
    let memoffset := alignmember u alignment memalignsize nextoffset
    let ofs := u (memoffset + memsize)
    some
      { memoffset := memoffset
        nextoffset := if isunion then nextoffset else ofs
        aggsize := if ofs > aggsize then ofs else aggsize
        aggalignsize := if aggalignsize < actual then actual else aggalignsize }
  else none

/-- The two ways of laying out bit-fields, and what else depends on the target: whether an unnamed
bit-field contributes to the alignment of its aggregate. -/
structure Target where
  microsoft : Bool
  anonContributes : Bool

/-- Whether a bit-field contributes to the alignment of its aggregate. -/
def Target.contributesToAggregateAlignment (target : Target) (b : BitField) : Bool :=
  target.microsoft || !b.anon || target.anonContributes

variable (target : Target)

/-- The alignment of a bit-field that starts a new field. -/
def newFieldAlign (b : BitField) : Nat :=
  if target.microsoft then b.memsize
  else if b.fieldWidth > 32 then b.memalignsize
  else if b.fieldWidth > 16 then 4
  else if b.fieldWidth > 8 then 2
  else 1

/-- Start a new field with a bit-field. -/
def startNewField (isunion : Bool) (b : BitField) (ad : Aggregate) (fs : FieldState) :
    Option (Aggregate × FieldState) :=
  (placeField u fs.offset b.memsize (newFieldAlign target b) b.alignment ad.structsize ad.alignsize
    isunion).map fun placed =>
      ({ ad with
          structsize := placed.aggsize
          alignsize :=
            if target.contributesToAggregateAlignment b then placed.aggalignsize
            else ad.alignsize },
        { offset := placed.nextoffset
          fieldOffset := placed.memoffset
          fieldSize := b.memsize
          bitOffset := 0
          inFlight := true })

/-- Whether a bit-field cannot continue the one in flight. -/
def startsField (b : BitField) (fs : FieldState) : Bool :=
  if !fs.inFlight then true
  else if !target.microsoft then
    if fs.bitOffset % (b.memalignsize * 8) = 0 ∧
        u (fs.bitOffset + b.fieldWidth) > b.memsize * 8 then true
    else
      let start := u (u (fs.fieldOffset * 8) + fs.bitOffset) % (b.memalignsize * 8)
      start / (b.memsize * 8) ≠ (start + b.fieldWidth - 1) / (b.memsize * 8)
  else b.memsize ≠ fs.fieldSize ∨ u (fs.bitOffset + b.fieldWidth) > fs.fieldSize * 8

/-- The alignment of the aggregate before a bit-field is placed. -/
def bitFieldAlign (b : BitField) (ad : Aggregate) : Aggregate :=
  let ad := { ad with fields := if b.anon then ad.fields else ad.fields + 1 }
  let ad := { ad with alignsize := if ad.alignsize = 0 then 1 else ad.alignsize }
  if !target.microsoft && target.contributesToAggregateAlignment b &&
      decide (ad.alignsize < b.memalignsize) then
    { ad with alignsize := b.memalignsize }
  else ad

/-- A bit-field of width zero aligns the next field. -/
def zeroWidth (isunion : Bool) (b : BitField) (ad : Aggregate) (fs : FieldState) :
    Aggregate × FieldState :=
  if !target.microsoft && !isunion then
    let offset := roundUp u fs.offset b.memalignsize
    ({ ad with structsize := offset }, { fs with offset := offset, inFlight := false })
  else if target.microsoft && fs.inFlight && !isunion then
    let offset := roundUp u fs.offset b.memsize
    ({ ad with structsize := offset }, { fs with offset := offset, inFlight := false })
  else (ad, { fs with inFlight := false })

/-- The state after a bit-field that lies in the field in flight. -/
def continueField (isunion : Bool) (b : BitField) (ad : Aggregate) (fs : FieldState) :
    Aggregate × FieldState :=
  let pastField := u (fs.bitOffset + b.fieldWidth)
  let size := u (pastField + 7) / 8
  let fieldSize := if target.microsoft then b.memsize else size
  let ad :=
    if target.microsoft then ad
    else if isunion then
      { ad with
        structsize :=
          if u (fs.fieldOffset + size) > ad.structsize then u (fs.fieldOffset + size)
          else ad.structsize }
    else { ad with structsize := u (fs.fieldOffset + size) }
  let fs := { fs with fieldSize := fieldSize }
  (ad,
    if isunion then fs
    else { fs with offset := u (fs.fieldOffset + fieldSize), bitOffset := pastField })

/-- Place a bit-field. -/
def visitBitField (isunion : Bool) (b : BitField) (ad : Aggregate) (fs : FieldState) :
    Option (Aggregate × FieldState × Placed) :=
  let ad := bitFieldAlign target b ad
  if b.fieldWidth = 0 then
    let (ad, fs) := zeroWidth u target isunion b ad fs
    some (ad, fs, .bitFieldDeclaration b 0 0)
  else
    (if startsField u target b fs then startNewField u target isunion b ad fs
      else some (ad, fs)).map fun (ad, fs) =>
        let placed := Placed.bitFieldDeclaration b fs.fieldOffset fs.bitOffset
        let (ad, fs) := continueField u target isunion b ad fs
        (ad, fs, placed)

/-- Place an ordinary field. -/
def visitVar (isunion : Bool) (f : Field) (ad : Aggregate) (fs : FieldState) :
    Option (Aggregate × FieldState × Placed) :=
  (placeField u fs.offset f.memsize f.memalignsize f.alignment ad.structsize ad.alignsize
    isunion).map fun placed =>
      ({ structsize := placed.aggsize, alignsize := placed.aggalignsize, fields := ad.fields + 1 },
        { fs with offset := placed.nextoffset, inFlight := false },
        .varDeclaration f placed.memoffset)

mutual

/-- Adds `offset` as the new base offset of all field members. -/
def Placed.adjustBaseOffset (offset : Nat) : Placed → Placed
  | .varDeclaration f own => .varDeclaration f (u (own + offset))
  | .bitFieldDeclaration b own bitOffset => .bitFieldDeclaration b (u (own + offset)) bitOffset
  | .anonDeclaration isunion alignment decl =>
    .anonDeclaration isunion alignment (decl.adjustBaseOffset offset)

/-- Adds `offset` as the new base offset of all field members of a list. -/
def PlacedList.adjustBaseOffset (offset : Nat) : PlacedList → PlacedList
  | .nil => .nil
  | .cons member rest => .cons (member.adjustBaseOffset offset) (rest.adjustBaseOffset offset)

end

/-- Place an anonymous aggregate whose members have been laid out from offset 0. One without
fields gets no place. -/
def visitAnon (isunion : Bool) (anonunion : Bool) (alignment : StructAlign) (inner : Aggregate)
    (decl : PlacedList) (ad : Aggregate) (fs : FieldState) :
    Option (Aggregate × FieldState × Placed) :=
  if inner.fields = ad.fields then
    some (ad, { fs with offset := ad.structsize }, .anonDeclaration anonunion alignment decl)
  else
    let anonstructsize := if inner.structsize = 0 then 1 else inner.structsize
    let anonalignsize := if inner.structsize = 0 then 1 else inner.alignsize
    (placeField u fs.offset anonstructsize anonalignsize alignment ad.structsize ad.alignsize
      isunion).map fun placed =>
        ({ structsize := placed.aggsize, alignsize := placed.aggalignsize, fields := inner.fields },
          { fs with offset := placed.nextoffset },
          .anonDeclaration anonunion alignment (decl.adjustBaseOffset u placed.memoffset))

mutual

/-- Set the offset of a member. -/
def Member.setFieldOffset (isunion : Bool) :
    Member → Aggregate → FieldState → Option (Aggregate × FieldState × Placed)
  | .varDeclaration f, ad, fs => visitVar u isunion f ad fs
  | .bitFieldDeclaration b, ad, fs => visitBitField u target isunion b ad fs
  | .anonDeclaration anonunion alignment decl, ad, fs =>
    (decl.setFieldOffset anonunion anonunion { structsize := 0, alignsize := 0, fields := ad.fields }
      .init).bind fun (inner, _, placed) =>
        visitAnon u isunion anonunion alignment inner placed ad fs

/-- Set the offsets of members in order. In an anonymous union every member begins at offset 0. -/
def Members.setFieldOffset (isunion : Bool) (restart : Bool) :
    Members → Aggregate → FieldState → Option (Aggregate × FieldState × PlacedList)
  | .nil, ad, fs => some (ad, fs, .nil)
  | .cons member rest, ad, fs =>
    (member.setFieldOffset isunion ad fs).bind fun (ad, fs, placed) =>
      (rest.setFieldOffset isunion restart ad
        (if restart then { fs with offset := 0 } else fs)).map fun (ad, fs, others) =>
          (ad, fs, .cons placed others)

end

/-- The kinds of structs, for the size of one without contents. -/
inductive ClassKind where
  | d | cpp | c
  deriving DecidableEq, Repr

/-- The size of a struct that came out as zero. -/
def emptySize (kind : ClassKind) (ad : Aggregate) : Nat :=
  match kind with
  | .d => 1
  | .cpp => if ad.fields = 0 || target.microsoft then 1 else 0
  | .c => if target.microsoft then 4 else 0

/-- The size and alignment of a struct or union before its size is rounded up. -/
def Aggregate.sized (kind : ClassKind) (ad : Aggregate) : Aggregate :=
  if ad.structsize = 0 then
    { ad with
      alignsize := if ad.alignsize = 0 then 1 else ad.alignsize
      structsize := emptySize target kind ad }
  else ad

/-- What the size of a struct or union is rounded up to. -/
def Aggregate.boundary (alignment : StructAlign) (ad : Aggregate) : Nat :=
  match alignment with
  | .default => ad.alignsize
  | .pack _ => ad.alignsize
  | .explicit log => 2 ^ log

/-- Lay out the members of a struct or union, and round its size up. -/
def finalizeSize (kind : ClassKind) (isunion : Bool) (alignment : StructAlign)
    (members : Members) : Option (Aggregate × PlacedList) :=
  (members.setFieldOffset u target isunion false { structsize := 0, alignsize := 0, fields := 0 }
    .init).map fun (ad, _, placed) =>
      let ad := ad.sized target kind
      ({ ad with structsize := roundUp u ad.structsize (ad.boundary alignment) }, placed)

end LaserD.Layout
