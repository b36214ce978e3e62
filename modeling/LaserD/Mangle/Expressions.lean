/-
This file models the mangling of template value arguments.

An integer is written as a sign letter and decimal digits. An array, an associative array or a
struct literal is written as a letter, the number of its elements and the elements. A string is
written as the bytes of its UTF-8 form, and as an array of its units where it has no such form. The
numbers have no end mark.
-/

import LaserD.Root.Utf

namespace LaserD.Mangle

open Root.Utf

/-- The units of a string literal, by their size in bytes. -/
inductive Units
  | char (units : List (BitVec 8))
  | wchar (units : List (BitVec 16))
  | dchar (units : List (BitVec 32))
  | long (units : List (BitVec 64))
  deriving DecidableEq

/-- The expressions that are written. A missing field of a struct literal is a null pointer. -/
inductive Expression
  | integer (value : BitVec 64)
  | null
  | string (units : Units)
  | array (elements : List Expression)
  | assoc (entries : List (Expression × Expression))
  | struct_ (elements : List (Option Expression))

/-- `print`: the decimal digits of an unsigned number. -/
def print (u : Nat) : List Char :=
  Nat.toDigits 10 u

/-- `mangleInteger`. -/
def mangleInteger (v : BitVec 64) : List Char :=
  if v.toInt < 0 then 'N' :: print (-v).toNat else 'i' :: print v.toNat

/-! ### Strings -/

/-- A hexadecimal digit. -/
def hexDigit (digit : BitVec 8) (upperCase : Bool) : Char :=
  let a := if upperCase then 'A' else 'a'
  if digit.toNat < 10 then Char.ofNat (digit.toNat + '0'.toNat)
  else Char.ofNat (digit.toNat - 10 + a.toNat)

/-- `writeHexString`. -/
def writeHexString (data : List (BitVec 8)) (upperCase : Bool) : List Char :=
  data.flatMap fun c : BitVec 8 =>
    [hexDigit ((c >>> 4) &&& 0xF#8) upperCase, hexDigit (c &&& 0xF#8) upperCase]

/-- `len`. -/
def Units.len : Units → Nat
  | .char units => units.length
  | .wchar units => units.length
  | .dchar units => units.length
  | .long units => units.length

/-- `getIndex`, at every index. -/
def Units.indices : Units → List (BitVec 64)
  | .char units => units.map (·.setWidth 64)
  | .wchar units => units.map (·.setWidth 64)
  | .dchar units => units.map (·.setWidth 64)
  | .long units => units

/-- `mangleAsArray`. -/
def mangleAsArray (units : Units) : List Char :=
  'A' :: (print units.len ++ units.indices.flatMap mangleInteger)

/-- A string that is written in UTF-8: its letter and its bytes. -/
def mangleBytes (m : Char) (q : List (BitVec 8)) : List Char :=
  m :: (print q.length ++ '_' :: writeHexString q false)

/-- A buffer before anything is written. -/
def emptyBuffer : OutBuffer where
  data := []
  offset := 0
  inside := Nat.le_refl 0

section
variable (fresh : Nat → BitVec 8)

/-- The loop over units of two bytes: what is in the buffer, or that a sequence was not decoded.
Nothing means a failed assertion or a read outside of the slice. -/
def decodeWide (slice : List (BitVec 16)) : Nat → Nat → OutBuffer → Option (Option OutBuffer)
  | 0, u, tmp => if u < slice.length then none else some (some tmp)
  | fuel + 1, u, tmp =>
    if u < slice.length then do
      let decoded ← utfDecodeWchar slice u
      match decoded.error with
      | some _ => some none
      | none => decodeWide slice fuel decoded.ridx (← tmp.writeUTF8 decoded.rresult fresh)
    else some (some tmp)

/-- The loop over units of four bytes. -/
def encodeWide : List (BitVec 32) → OutBuffer → Option (Option OutBuffer)
  | [], tmp => some (some tmp)
  | c :: slice, tmp =>
    if !utfIsValidDchar c then some none
    else do encodeWide slice (← tmp.writeUTF8 c fresh)

/-- `visit(StringExp)`. -/
def mangleString (units : Units) : Option (List Char) :=
  match units with
  | .char q => some (mangleBytes 'a' q)
  | .wchar slice => do
    match ← decodeWide fresh slice slice.length 0 emptyBuffer with
    | none => return mangleAsArray units
    | some tmp => return mangleBytes 'w' tmp.written
  | .dchar slice => do
    match ← encodeWide fresh slice emptyBuffer with
    | none => return mangleAsArray units
    | some tmp => return mangleBytes 'd' tmp.written
  | .long _ => some (mangleAsArray units)

/-! ### Expressions -/

mutual

/-- The `visit` functions of the expressions. -/
def mangleExpression : Expression → Option (List Char)
  | .integer value => some (mangleInteger value)
  | .null => some ['n']
  | .string units => mangleString fresh units
  | .array elements => do return 'A' :: (print elements.length ++ (← mangleElements elements))
  | .assoc entries => do return 'A' :: (print entries.length ++ (← mangleEntries entries))
  | .struct_ elements => do return 'S' :: (print elements.length ++ (← mangleFields elements))

/-- The elements of an array literal. -/
def mangleElements : List Expression → Option (List Char)
  | [] => some []
  | e :: es => do return (← mangleExpression e) ++ (← mangleElements es)

/-- The keys and values of an associative array literal. -/
def mangleEntries : List (Expression × Expression) → Option (List Char)
  | [] => some []
  | (key, value) :: entries => do
    return (← mangleExpression key) ++ (← mangleExpression value) ++ (← mangleEntries entries)

/-- The fields of a struct literal. -/
def mangleFields : List (Option Expression) → Option (List Char)
  | [] => some []
  | some ex :: elements => do return (← mangleExpression ex) ++ (← mangleFields elements)
  | none :: elements => do return 'v' :: (← mangleFields elements)

end

end

/-! ### Kinds -/

/-- Strings of the same type: their units are of the same size. -/
def Units.sz : Units → Nat
  | .char _ => 1
  | .wchar _ => 2
  | .dchar _ => 4
  | .long _ => 8

/-- Two values of one type that are represented by the same kind of expression at every level. -/
inductive SameKind : Expression → Expression → Prop
  | integer (v w : BitVec 64) : SameKind (.integer v) (.integer w)
  | null : SameKind .null .null
  | string {units units' : Units} (sz : units.sz = units'.sz) :
      SameKind (.string units) (.string units')
  | array {xs ys : List Expression} (each : ∀ x y, (x, y) ∈ xs.zip ys → SameKind x y) :
      SameKind (.array xs) (.array ys)
  | assoc {xs ys : List (Expression × Expression)}
      (keys : ∀ p q, (p, q) ∈ xs.zip ys → SameKind p.1 q.1)
      (values : ∀ p q, (p, q) ∈ xs.zip ys → SameKind p.2 q.2) : SameKind (.assoc xs) (.assoc ys)
  | struct_ {xs ys : List (Option Expression)}
      (each : ∀ x y, (some x, some y) ∈ xs.zip ys → SameKind x y) :
      SameKind (.struct_ xs) (.struct_ ys)

/-- A string of two-byte units is written in UTF-8 only where no high surrogate is followed by a
unit that is taken for a low one and is none. -/
def Units.Placed (fresh : Nat → BitVec 8) : Units → Prop
  | .wchar slice =>
    ∀ tmp, decodeWide fresh slice slice.length 0 emptyBuffer = some (some tmp) →
      ∀ i, ¬ Displaced slice i
  | _ => True

/-- The strings in a value are so. -/
inductive Placed (fresh : Nat → BitVec 8) : Expression → Prop
  | integer (value : BitVec 64) : Placed fresh (.integer value)
  | null : Placed fresh .null
  | string {units : Units} (placed : units.Placed fresh) : Placed fresh (.string units)
  | array {elements : List Expression} (each : ∀ e ∈ elements, Placed fresh e) :
      Placed fresh (.array elements)
  | assoc {entries : List (Expression × Expression)} (keys : ∀ p ∈ entries, Placed fresh p.1)
      (values : ∀ p ∈ entries, Placed fresh p.2) : Placed fresh (.assoc entries)
  | struct_ {elements : List (Option Expression)} (each : ∀ e, some e ∈ elements → Placed fresh e) :
      Placed fresh (.struct_ elements)

end LaserD.Mangle
