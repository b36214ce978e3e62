/-
This file models how an argument type is broken down into registers for the System V
x86-64 ABI.

A type is a scalar, a static array, a struct or union with its fields at their offsets,
or an enum over a type. The visitor accumulates the classes of all members into one
vector of eightbytes, leaves the loop over the members of one aggregate at the first
member that is not aligned, and then applies the post-merger rules. A member of an enum
type is classified by a visitor of its own, with post-merger rules of its own. A failed
assertion, or an index outside the vector, is `none`.
-/

import Mathlib.Data.Nat.Bitwise
import Mathlib.Data.List.Basic

namespace LaserD.Abi

/-! ### Types -/

/-- The scalar types of a target with pointers of 64 bits. A class reference, an
associative array and `typeof(null)` are passed as a pointer, a delegate as a slice. -/
inductive Scalar
  | integral8
  | integral16
  | integral32
  | integral64
  | pointer
  | slice
  | float
  | double
  | real
  | vector16
  | vector32
  deriving DecidableEq, Repr

/-- The size of a scalar. -/
def Scalar.size : Scalar → Nat
  | integral8 => 1
  | integral16 => 2
  | integral32 | float => 4
  | integral64 | pointer | double => 8
  | slice | real | vector16 => 16
  | vector32 => 32

/-- `alignsize` of a scalar. -/
def Scalar.alignsize : Scalar → Nat
  | integral8 => 1
  | integral16 => 2
  | integral32 | float => 4
  | integral64 | pointer | double | slice => 8
  | real | vector16 => 16
  | vector32 => 32

mutual

/-- A type. Structs and unions are plain old data; a union has all its fields at 0. -/
inductive Ty
  | scalar (s : Scalar)
  | sarray (next : Ty) (dim : Nat)
  | struct (fields : Fields) (structsize alignsize : Nat)
  | enum (base : Ty)

/-- The fields of a struct, in their order. -/
inductive Fields
  | nil
  | cons (offset : Nat) (type : Ty) (rest : Fields)

end

/-- `size` of a type. -/
def Ty.size : Ty → Nat
  | scalar s => s.size
  | sarray next dim => dim * next.size
  | struct _ structsize _ => structsize
  | enum base => base.size

/-- `alignsize` of a type. -/
def Ty.alignsize : Ty → Nat
  | scalar s => s.alignsize
  | sarray next _ => next.alignsize
  | struct _ _ alignsize => alignsize
  | enum base => base.alignsize

/-! ### Classes -/

/-- `Class`: the class of an eightbyte. -/
inductive Class
  | integer
  | sse
  | sseUp
  | x87
  | x87Up
  | complexX87
  | noClass
  | memory
  deriving DecidableEq, Repr

/-- `merge`. -/
def merge (a b : Class) : Class :=
  if a = b then a
  else if a = .noClass then b
  else if b = .noClass then a
  else if a = .memory ∨ b = .memory then .memory
  else if a = .integer ∨ b = .integer then .integer
  else if (a = .x87 ∨ b = .x87) ∨ (a = .x87Up ∨ b = .x87Up) ∨ a = .complexX87 ∨ b = .complexX87 then
    .memory
  else .sse

/-- The classes that the visitor gives to the eightbytes of a scalar. -/
def Scalar.classes : Scalar → List Class
  | integral8 | integral16 | integral32 | integral64 | pointer => [.integer]
  | slice => [.integer, .integer]
  | float | double => [.sse]
  | real => [.x87, .x87Up]
  | vector16 => [.sse, .sseUp]
  | vector32 => [.sse, .sseUp, .sseUp, .sseUp]

/-- `result` of the visitor: the classes by eightbyte. -/
abbrev Result := Nat → Class

/-- `memory`: the first eightbytes become memory. -/
def memory (numEightbytes : Nat) (result : Result) : Result :=
  fun i => if i < numEightbytes then .memory else result i

/-- An assignment to one eightbyte. -/
def setClass (result : Result) (i : Nat) (c : Class) : Result :=
  fun j => if j = i then c else result j

/-- `Classification`. -/
structure Classification where
  classes : Result
  numEightbytes : Nat

/-- `slice`. -/
def Classification.slice (classification : Classification) : List Class :=
  (List.range classification.numEightbytes).map classification.classes

/-- The number of eightbytes of a size. -/
def eightbytes (size : Nat) : Nat :=
  (size + 7) / 8

/-! ### The visitor -/

/-- The result of a fresh visitor for a scalar. -/
def scalarResult (s : Scalar) : Result :=
  fun i => (s.classes[i]?).getD .noClass

/-- Merging the classes of a member into the eightbytes from `start` on. -/
def mergeSlice (start : Nat) : List Class → Result → Option Result
  | [], result => some result
  | fclass :: rest, result =>
    if start < 4 then mergeSlice (start + 1) rest (setClass result start (merge (result start) fclass))
    else none

/-- The last branch of `classifyFields`: a member that is neither a struct nor a static
array. -/
def classifyOther (fsize foffset : Nat) (classification : Option Classification)
    (result : Result) : Option Result :=
  if foffset % 8 = 0 ∨ (foffset + fsize + 7) / 8 - foffset / 8 ≤ 1 then
    match classification with
    | none => none
    | some found => mergeSlice (foffset / 8) found.slice result
  else none

/-- The loop of `classifyFields` over the elements of a static array, from an index on. -/
def elementLoop (classifyElement : Nat → Result → Option Result)
    (numEightbytes baseOffset elemSize elemTypeAlignment : Nat) :
    Nat → Nat → Result → Option Result
  | 0, _, result => some result
  | left + 1, n, result =>
    if (baseOffset + n * elemSize) &&& (elemTypeAlignment - 1) ≠ 0 then
      some (memory numEightbytes result)
    else
      match classifyElement (baseOffset + n * elemSize) result with
      | none => none
      | some result' =>
        elementLoop classifyElement numEightbytes baseOffset elemSize elemTypeAlignment left
          (n + 1) result'

/-- The first loop of `finalizeAggregate`, from an eightbyte on: whether it went to
memory, and the classes it left. -/
def finalizeLoop : Nat → Nat → Result → Bool × Result
  | 0, _, result => (false, result)
  | left + 1, i, result =>
    if result i = .memory ∨ (result i = .x87Up ∧ ¬ (i > 0 ∧ result (i - 1) = .x87)) then
      (true, result)
    else if result i = .sseUp ∧
        ¬ (i > 0 ∧ (result (i - 1) = .sse ∨ result (i - 1) = .sseUp)) then
      finalizeLoop left (i + 1) (setClass result i .sse)
    else finalizeLoop left (i + 1) result

/-- `finalizeAggregate`. -/
def finalizeAggregate (numEightbytes : Nat) (result : Result) : Classification :=
  let (isMemory, result') := finalizeLoop 4 0 result
  if isMemory then ⟨memory numEightbytes result', numEightbytes⟩
  else if numEightbytes > 2 ∧
      (result' 0 ≠ .sse ∨ ∃ i ∈ List.range numEightbytes, i ≥ 1 ∧ result' i ≠ .sseUp) then
    ⟨memory numEightbytes result', numEightbytes⟩
  else if numEightbytes = 2 ∧ result' 1 = .noClass then ⟨result', 1⟩
  else ⟨result', numEightbytes⟩

/-- Whether there are no fields. -/
def Fields.isNil : Fields → Bool
  | nil => true
  | cons _ _ _ => false

/-- `classifyFields`: the loop over the members, and memory where there is none. -/
def classifyFields (isEmpty : Bool) (numEightbytes : Nat) (loop : Result → Option Result)
    (result : Result) : Option Result :=
  if isEmpty then some (memory numEightbytes result) else loop result

mutual

/-- `classify`: a visitor of its own for a type. -/
def classify : Ty → Nat → Option Classification
  | .scalar s, size => some ⟨scalarResult s, eightbytes size⟩
  | .enum base, size => classify base size
  | .sarray next dim, size =>
    (classifyFields (dim = 0) (eightbytes size)
      (elementLoop (classifyMember next (eightbytes size)) (eightbytes size) 0 next.size
        next.alignsize dim 0) fun _ => .noClass).map (finalizeAggregate (eightbytes size))
  | .struct fields _ _, size =>
    (classifyFields fields.isNil (eightbytes size) (fieldLoop fields (eightbytes size) 0)
      fun _ => .noClass).map (finalizeAggregate (eightbytes size))

/-- The body of the loop of `classifyFields` for an aligned member: a struct
(`classifyStructFields`) and a static array (`classifyStaticArrayElements`) are walked
through, anything else is classified and merged. -/
def classifyMember : Ty → Nat → Nat → Result → Option Result
  | .struct fields _ _, numEightbytes, foffset, result =>
    classifyFields fields.isNil numEightbytes (fieldLoop fields numEightbytes foffset) result
  | .sarray next dim, numEightbytes, foffset, result =>
    classifyFields (dim = 0) numEightbytes
      (elementLoop (classifyMember next numEightbytes) numEightbytes foffset next.size
        next.alignsize dim 0) result
  | .scalar s, _, foffset, result =>
    classifyOther s.size foffset (some ⟨scalarResult s, eightbytes s.size⟩) result
  | .enum base, _, foffset, result =>
    classifyOther base.size foffset (classify base base.size) result

/-- The loop of `classifyFields` over the fields of a struct. -/
def fieldLoop : Fields → Nat → Nat → Result → Option Result
  | .nil, _, _, result => some result
  | .cons offset type rest, numEightbytes, baseOffset, result =>
    if (baseOffset + offset) &&& (type.alignsize - 1) ≠ 0 then some (memory numEightbytes result)
    else
      match classifyMember type numEightbytes (baseOffset + offset) result with
      | none => none
      | some result' => fieldLoop rest numEightbytes baseOffset result'

end

/-! ### Register types -/

/-- The types that a register may have. -/
inductive RegisterType
  | tint8
  | tint16
  | tint32
  | tint64
  | tfloat32
  | tfloat64
  | tfloat80
  | vector (eightbytes : Nat)
  deriving DecidableEq, Repr

/-- What `toArgTypes_sysv_x64` returns: null for a void, or a tuple, which is empty for a
type that goes to memory. -/
inductive ArgTypes
  | void
  | tuple (types : List RegisterType)
  deriving DecidableEq, Repr

/-- The register type of an eightbyte of which so many bytes are filled. -/
def argtype (sizeInEightbyte : Nat) : Class → Option RegisterType
  | .integer =>
    some (if sizeInEightbyte > 4 then .tint64 else if sizeInEightbyte > 2 then .tint32
      else if sizeInEightbyte > 1 then .tint16 else .tint8)
  | .sse => some (if sizeInEightbyte > 4 then .tfloat64 else .tfloat32)
  | _ => none

/-- The bytes that are filled in the last eightbyte. -/
def lastSize (size : Nat) : Nat :=
  if size % 8 = 0 then 8 else size % 8

/-- The part of `toArgTypes_sysv_x64` behind the classification. -/
def argTypesOf (size : Nat) (classes : List Class) : Option ArgTypes :=
  match classes with
  | [] => none
  | .memory :: _ => some (.tuple [])
  | .x87 :: _ => some (.tuple [.tfloat80])
  | .complexX87 :: _ => some (.tuple [.tfloat80, .tfloat80])
  | c0 :: rest =>
    if classes.length > 2 ∨ rest = [.sseUp] then
      if c0 = .sse ∧ (∀ c ∈ rest, c = .sseUp) ∧ size % 8 = 0 then
        some (.tuple [.vector classes.length])
      else none
    else
      match rest with
      | [] => (argtype (lastSize size) c0).map fun type => .tuple [type]
      | c1 :: _ =>
        match argtype 8 c0, argtype (lastSize size) c1 with
        | some first, some second => some (.tuple [first, second])
        | _, _ => none

/-- `toArgTypes_sysv_x64`. -/
def toArgTypes (t : Ty) : Option ArgTypes :=
  if t.size = 0 then some .void
  else if t.size > 32 then some (.tuple [])
  else
    match classify t t.size with
    | none => none
    | some classification => argTypesOf t.size classification.slice

end LaserD.Abi
