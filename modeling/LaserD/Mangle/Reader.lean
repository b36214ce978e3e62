/-
This file is a reader of mangled types.

It stands at a position of the whole text. At a `Q` it jumps back by the distance that
follows and reads there, under the qualifiers that apply at the `Q`; a target that begins
with a digit is an identifier. A name goes on as long as another name or the signature of a
function follows.

The readers call each other through `Readers`, one level of them for each level of fuel.
-/

import LaserD.Mangle.Writer

namespace LaserD.Mangle

open Numerals

/-! ### Letters -/

def Basic.ofLetter? : Char → Option Basic
  | 'a' => some .char_
  | 'b' => some .bool_
  | 'c' => some .complex80
  | 'd' => some .float64
  | 'e' => some .float80
  | 'f' => some .float32
  | 'g' => some .int8
  | 'h' => some .uns8
  | 'i' => some .int32
  | 'j' => some .imaginary80
  | 'k' => some .uns32
  | 'l' => some .int64
  | 'm' => some .uns64
  | 'o' => some .imaginary32
  | 'p' => some .imaginary64
  | 'q' => some .complex32
  | 'r' => some .complex64
  | 's' => some .int16
  | 't' => some .uns16
  | 'u' => some .wchar_
  | 'v' => some .void_
  | 'w' => some .dchar_
  | _ => none

def Linkage.ofLetter? : Char → Option Linkage
  | 'F' => some .d
  | 'U' => some .c
  | 'W' => some .windows
  | 'R' => some .cpp
  | 'Y' => some .objc
  | _ => none

def VarArg.ofLetter? : Char → Option VarArg
  | 'Z' => some .none
  | 'Y' => some .variadic
  | 'X' => some .typesafe
  | 'W' => some .krVariadic
  | _ => Option.none

/-- The attributes of which the letters have been read. -/
def Attributes.ofLetters (letters : List Char) : Attributes where
  purity := if 'a' ∈ letters then .weak else .impure
  isNothrow := 'b' ∈ letters
  isRef := 'c' ∈ letters
  isProperty := 'd' ∈ letters
  isNogc := 'i' ∈ letters
  isReturnScope := (letters.filter fun letter => letter = 'j' ∨ letter = 'l') = ['j', 'l']
  isScopeQual := 'l' ∈ letters
  isReturn := 'j' ∈ letters
  isLive := 'm' ∈ letters
  trust := if 'e' ∈ letters then .trusted else if 'f' ∈ letters then .safe else .default_

/-- The letters that may follow the `N` of an attribute. -/
def attributeSet : List Char :=
  ['a', 'b', 'c', 'd', 'e', 'f', 'i', 'j', 'l', 'm']

/-- The letters of attributes at the beginning of a text. -/
def attributeLetters : List Char → List Char
  | 'N' :: letter :: rest =>
      if letter ∈ attributeSet then letter :: attributeLetters rest else []
  | _ => []

/-- The storage classes of which the codes have been read. -/
def Storage.ofCodes (codes : List Code) : Storage where
  in_ := Code.in_ ∈ codes
  ref_ := Code.ref_ ∈ codes
  out_ := Code.out_ ∈ codes
  lazy_ := Code.lazy_ ∈ codes
  scope_ := Code.scope_ ∈ codes
  return_ := Code.return_ ∈ codes
  returnScope := [Code.return_, Code.scope_].isPrefixOf codes ∧
    (Code.ref_ ∈ codes ∨ Code.out_ ∈ codes)

/-- The codes of storage classes at the beginning of a text. -/
def storageCodes : List Char → List Code
  | 'M' :: rest => .scope_ :: storageCodes rest
  | 'N' :: 'k' :: rest => .return_ :: storageCodes rest
  | 'I' :: rest => .in_ :: storageCodes rest
  | 'J' :: rest => .out_ :: storageCodes rest
  | 'K' :: rest => .ref_ :: storageCodes rest
  | 'L' :: rest => .lazy_ :: storageCodes rest
  | _ => []

/-- The identifier of the given letters. -/
def Ident.ofLetters? : List Char → Option Ident
  | [] => none
  | c :: rest => if digit : c.isDigit = false then some ⟨c :: rest, c, rest, rfl, digit⟩ else none

/-! ### Positions -/

section

variable (text : List Char)

/-- The qualifiers at a position, and where they end. -/
def readMod (pos : Nat) : Option Mod × Nat :=
  match text[pos]? with
  | some 'x' => (some .const_, pos + 1)
  | some 'y' => (some .immutable_, pos + 1)
  | some 'O' =>
      if text[pos + 1]? = some 'x' then (some .sharedConst, pos + 2)
      else if text[pos + 1]? = some 'N' ∧ text[pos + 2]? = some 'g' then
        if text[pos + 3]? = some 'x' then (some .sharedWildconst, pos + 4)
        else (some .sharedWild, pos + 3)
      else (some .shared_, pos + 1)
  | some 'N' =>
      if text[pos + 1]? = some 'g' then
        if text[pos + 2]? = some 'x' then (some .wildconst, pos + 3) else (some .wild, pos + 2)
      else (none, pos)
  | _ => (none, pos)

/-- Reading at a position, or where a reference at it refers to. -/
def refer {A : Type} (pos : Nat) (read : Nat → Option (A × Nat)) : Option (A × Nat) :=
  if text[pos]? = some 'Q' then do
    let (distance, after) ← readMarked text (pos + 1)
    let (value, _) ← read (pos - distance)
    return (value, after)
  else read pos

/-- The letter at a position, or where a reference at it refers to. -/
def headAt (pos : Nat) : Option Char :=
  if text[pos]? = some 'Q' then
    (readMarked text (pos + 1)).bind fun (distance, _) => text[pos - distance]?
  else text[pos]?

def isLinkage (c : Char) : Bool :=
  (Linkage.ofLetter? c).isSome

/-- A name begins at a position. -/
def nameStart (pos : Nat) : Bool :=
  (headAt text pos).any fun c => c.isDigit || c = '_'

/-- The signature of a function begins at a position. `W` and `Y` by themselves end the parameters
of another function. -/
def signatureStart (pos : Nat) : Bool :=
  let (_, after) := readMod text (if text[pos]? = some 'M' then pos + 1 else pos)
  text[after]?.any fun c => isLinkage c && (pos < after || (c ≠ 'W' && c ≠ 'Y'))

/-- A function type comes next. -/
def functionStart (pos : Nat) : Bool :=
  (headAt text (readMod text pos).2).any isLinkage

/-- An identifier. -/
def readIdent (pos : Nat) : Option (Ident × Nat) :=
  refer text pos fun pos =>
    let (length, after) := readDecimal text pos
    (Ident.ofLetters? ((text.drop after).take length)).map fun ident => (ident, after + length)

/-! ### Types -/

/-- The readers of one level. -/
structure Readers where
  body : Mod → Nat → Option (Ty × Nat)
  fn : Mod → Nat → Option (Fn × Nat)
  params : Nat → Option (Params × Nat)
  args : Nat → Option (Args × Nat)
  names : Nat → Option (Names × Nat)

variable (r : Readers)

/-- A type under qualifiers that apply to it. -/
def readTy (mask : Mod) (pos : Nat) : Option (Ty × Nat) :=
  let (mod, after) := readMod text pos
  refer text after (r.body (mod.getD mask))

/-- A function type. -/
def readFn (pos : Nat) : Option (Fn × Nat) :=
  let (mod, after) := readMod text pos
  refer text after (r.fn (mod.getD .none))

/-- A type with a next type. -/
def readNext (kind : NextKind) (mod : Mod) (pos : Nat) : Option (Ty × Nat) :=
  (readTy text r mod pos).map fun (next, after) => (.next kind mod next, after)

def readCall (kind : CallKind) (mod : Mod) (pos : Nat) : Option (Ty × Nat) :=
  (readFn text r pos).map fun (function, after) => (.call kind mod function, after)

def readNamed (kind : NamedKind) (mod : Mod) (pos : Nat) : Option (Ty × Nat) :=
  (r.names pos).map fun (names, after) => (.named kind mod .d names, after)

def readVector (mod : Mod) (pos : Nat) : Option (Ty × Nat) := do
  let (base, after) ← readTy text r .none pos
  match base with
  | .next (.sarray dim) baseMod (.basic element _) =>
      return (.vector mod (baseMod = .shared_) dim element, after)
  | _ => none

/-- A type behind its qualifiers. -/
def bodyStep (mod : Mod) (pos : Nat) : Option (Ty × Nat) :=
  match text[pos]? with
  | some 'n' => some (.single .null_ mod, pos + 1)
  | some 'N' =>
      if text[pos + 1]? = some 'n' then some (.single .noreturn_ mod, pos + 2)
      else readVector text r mod (pos + 2)
  | some 'z' =>
      if text[pos + 1]? = some 'i' then some (.basic .int128 mod, pos + 2)
      else some (.basic .uns128 mod, pos + 2)
  | some 'A' => readNext text r .darray mod (pos + 1)
  | some 'G' =>
      let (dim, after) := readDecimal text (pos + 1)
      readNext text r (.sarray dim) mod after
  | some 'P' =>
      if functionStart text (pos + 1) then readCall text r .pointer mod (pos + 1)
      else readNext text r .pointer mod (pos + 1)
  | some 'D' => readCall text r .delegate_ mod (pos + 1)
  | some 'H' => do
      let (index, after) ← readTy text r .none (pos + 1)
      let (next, after) ← readTy text r mod after
      return (.aarray mod index next, after)
  | some 'S' => readNamed r .struct_ mod (pos + 1)
  | some 'C' => readNamed r .class_ mod (pos + 1)
  | some 'E' => readNamed r .enum_ mod (pos + 1)
  | some c => (Basic.ofLetter? c).map fun ty => (.basic ty mod, pos + 1)
  | none => none

/-- A signature with its parameters. -/
def readSignature (mod : Mod) (pos : Nat) : Option (Signature × Params × Nat) := do
  let linkage ← text[pos]?.bind Linkage.ofLetter?
  let letters := attributeLetters (text.drop (pos + 1))
  let (params, after) ← r.params (pos + 1 + 2 * letters.length)
  let varargs ← text[after]?.bind VarArg.ofLetter?
  return (⟨mod, linkage, .ofLetters letters, varargs⟩, params, after + 1)

def fnStep (mod : Mod) (pos : Nat) : Option (Fn × Nat) := do
  let (signature, params, after) ← readSignature text r mod pos
  let (result, after) ← readTy text r .none after
  return (.mk signature params result, after)

def paramsStep (pos : Nat) : Option (Params × Nat) :=
  if (text[pos]?.bind VarArg.ofLetter?).isSome then some (.nil, pos)
  else do
    let codes := storageCodes (text.drop pos)
    let storage := Storage.ofCodes codes
    let (ty, after) ← readTy text r (if storage.in_ then .const_ else .none)
      (pos + (codes.flatMap Code.text).length)
    let (rest, after) ← r.params after
    return (.cons storage ty rest, after)

def argsStep (pos : Nat) : Option (Args × Nat) :=
  if text[pos]? = some 'Z' then some (.nil, pos)
  else do
    let specialized := text[pos]? = some 'H'
    let (ty, after) ← readTy text r .none (if specialized then pos + 2 else pos + 1)
    let (rest, after) ← r.args after
    return (.cons specialized ty rest, after)

/-- What follows an identifier in a name. -/
def readParent (ident : Ident) (pos : Nat) : Option (Names × Nat) :=
  if ident.isLocal then
    (r.names pos).map fun (rest, after) =>
      (.localNum (Nat.ofDigitChars 10 (ident.letters.drop 3) 0) rest, after)
  else if signatureStart text pos then do
    let needThis := text[pos]? = some 'M'
    let (mod, after) := readMod text (if needThis then pos + 1 else pos)
    let (signature, params, after) ← readSignature text r (mod.getD .none) after
    let (rest, after) ← r.names after
    return (.function ident needThis signature params rest, after)
  else if nameStart text pos then
    (r.names pos).map fun (rest, after) => (.parent ident rest, after)
  else some (.symbol ident, pos)

def namesStep (pos : Nat) : Option (Names × Nat) :=
  match text[pos]? with
  | some '0' => (r.names (pos + 1)).map fun (rest, after) => (.anonymous rest, after)
  | some '_' => do
      let (ident, after) ← readIdent text (pos + 3)
      let (args, after) ← r.args after
      let (rest, after) ← r.names (after + 1)
      return (.template (text[pos + 2]? = some 'U') ident args rest, after)
  | _ => do
      let (ident, after) ← readIdent text pos
      readParent text r ident after

/-- The readers of a level of fuel. -/
def readers : Nat → Readers
  | 0 => ⟨fun _ _ => none, fun _ _ => none, fun _ => none, fun _ => none, fun _ => none⟩
  | fuel + 1 =>
      let r := readers fuel
      ⟨bodyStep text r, fnStep text r, paramsStep text r, argsStep text r, namesStep text r⟩

/-- A whole type. -/
def demangle (fuel : Nat) : Option AnyTy :=
  if functionStart text 0 then
    (readFn text (readers text fuel) 0).map fun (function, _) => .fn function
  else (readTy text (readers text fuel) .none 0).map fun (ty, _) => .ty ty

end

end LaserD.Mangle
