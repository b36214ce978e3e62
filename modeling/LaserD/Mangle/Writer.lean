/-
This file models the mangling of types by `dmd/mangle`.

A type is written to a buffer together with two tables: where types and where identifiers
were written first. A type or identifier that is in its table is not written again; `Q` and
the distance to where it stands take its place. The qualifiers of a type are written before
it, unless they are those that already apply, and are not part of what a reference refers to.

Types are looked up by their canonical form: the compiler keeps one `Type` for each spelling.
Where the source stops with an error or an assertion the writer fails.
-/

import LaserD.Lib.Numerals
import LaserD.Mangle.Types

namespace LaserD.Mangle

open Numerals

/-! ### Letters -/

/-- `MODtoDecoBuffer`. -/
def Mod.text : Mod → List Char
  | .none => []
  | .const_ => ['x']
  | .immutable_ => ['y']
  | .shared_ => ['O']
  | .sharedConst => ['O', 'x']
  | .wild => ['N', 'g']
  | .wildconst => ['N', 'g', 'x']
  | .sharedWild => ['O', 'N', 'g']
  | .sharedWildconst => ['O', 'N', 'g', 'x']

/-- The qualifiers as far as they do not apply already. -/
def Mod.under (mask mod : Mod) : List Char :=
  if mask ≠ mod then mod.text else []

/-- `tyToDecoBuffer` with `mangleChar`. -/
def Basic.text : Basic → List Char
  | .char_ => ['a']
  | .bool_ => ['b']
  | .complex80 => ['c']
  | .float64 => ['d']
  | .float80 => ['e']
  | .float32 => ['f']
  | .int8 => ['g']
  | .uns8 => ['h']
  | .int32 => ['i']
  | .imaginary80 => ['j']
  | .uns32 => ['k']
  | .int64 => ['l']
  | .uns64 => ['m']
  | .imaginary32 => ['o']
  | .imaginary64 => ['p']
  | .complex32 => ['q']
  | .complex64 => ['r']
  | .int16 => ['s']
  | .uns16 => ['t']
  | .wchar_ => ['u']
  | .void_ => ['v']
  | .dchar_ => ['w']
  | .int128 => ['z', 'i']
  | .uns128 => ['z', 'k']

def Single.text : Single → List Char
  | .null_ => ['n']
  | .noreturn_ => ['N', 'n']

def NextKind.text : NextKind → List Char
  | .pointer => ['P']
  | .darray => ['A']
  | .sarray dim => 'G' :: Nat.toDigits 10 dim

def CallKind.letter : CallKind → Char
  | .pointer => 'P'
  | .delegate_ => 'D'

def NamedKind.letter : NamedKind → Char
  | .struct_ => 'S'
  | .class_ => 'C'
  | .enum_ => 'E'

def Linkage.letter? : Linkage → Option Char
  | .default_ => some 'F'
  | .d => some 'F'
  | .c => some 'U'
  | .windows => some 'W'
  | .cpp => some 'R'
  | .objc => some 'Y'
  | .system => none

def VarArg.letter : VarArg → Char
  | .none => 'Z'
  | .variadic => 'Y'
  | .typesafe => 'X'
  | .krVariadic => 'W'

/-- The letters of the attributes, each of which is written after an `N`. -/
def Attributes.letters (a : Attributes) : List Char :=
  (if a.purity ≠ .impure then ['a'] else []) ++ (if a.isNothrow then ['b'] else []) ++
  (if a.isRef then ['c'] else []) ++ (if a.isProperty then ['d'] else []) ++
  (if a.isNogc then ['i'] else []) ++
  (if a.isReturnScope && !a.isReturnInferred then ['j', 'l']
    else (if a.isScopeQual && !a.isScopeInferred then ['l'] else []) ++
      (if a.isReturn && !a.isReturnInferred then ['j'] else [])) ++
  (if a.isLive then ['m'] else []) ++
  match a.trust with
  | .trusted => ['e']
  | .safe => ['f']
  | _ => []

def Attributes.text (a : Attributes) : List Char :=
  a.letters.flatMap fun letter => ['N', letter]

/-! ### Storage classes -/

/-- `ScopeRef`. -/
inductive ScopeRef
  | none | scope_ | returnScope | ref_ | returnRef | refScope | returnRefScope | refReturnScope
  | return_

/-- `buildScopeRef`. -/
def buildScopeRef (s : Storage) : ScopeRef :=
  match s.return_, s.ref_ || s.out_, s.scope_ with
  | false, false, false => .none
  | true, false, false => .return_
  | false, true, false => .ref_
  | false, false, true => .scope_
  | true, true, false => .returnRef
  | true, false, true => .returnScope
  | false, true, true => .refScope
  | true, true, true => if s.returnScope then .refReturnScope else .returnRefScope

/-- What is written for a storage class. -/
inductive Code
  | scope_ | return_ | in_ | out_ | ref_ | lazy_
  deriving DecidableEq

def Code.text : Code → List Char
  | .scope_ => ['M']
  | .return_ => ['N', 'k']
  | .in_ => ['I']
  | .out_ => ['J']
  | .ref_ => ['K']
  | .lazy_ => ['L']

/-- The last switch of `mangleParameter`. -/
def Storage.direction (s : Storage) : Option (List Code) :=
  match s.in_, s.ref_, s.out_, s.lazy_ with
  | false, false, false, false => some []
  | true, false, false, false => some [.in_]
  | true, true, false, false => some [.in_, .ref_]
  | false, false, true, false => some [.out_]
  | false, true, false, false => some [.ref_]
  | false, false, false, true => some [.lazy_]
  | _, _, _, _ => none

/-- The storage classes of `mangleParameter`. -/
def Storage.codes (s : Storage) : Option (List Code) :=
  let s := if s.scopeinferred then { s with scope_ := false, scopeinferred := false } else s
  let s := if s.returninferred then { s with return_ := false, returninferred := false } else s
  let direct := if s.out_ then Code.out_ else Code.ref_
  let rrs : List Code := match buildScopeRef s with
    | .returnScope => [.return_, .scope_]
    | .returnRef => [.return_, direct]
    | .returnRefScope => [.scope_, .return_, direct]
    | .refReturnScope => [.return_, .scope_, direct]
    | _ => []
  let s := if rrs = [] then s
    else { s with out_ := false, scope_ := false, ref_ := false, return_ := false }
  s.direction.map fun direction =>
    rrs ++ (if s.scope_ then [Code.scope_] else []) ++ (if s.return_ then [Code.return_] else []) ++
      direction

/-! ### References -/

/-- The first loop of `writeBackRef`: the largest power of 26 up to a number. -/
def scale : Nat → Nat → Nat → Nat
  | 0, _, mul => mul
  | fuel + 1, pos, mul => if pos ≥ mul * 26 then scale fuel pos (mul * 26) else mul

/-- The second loop of `writeBackRef`. -/
def backRefDigits : Nat → Nat → Nat → List Char
  | 0, _, _ => []
  | fuel + 1, pos, mul =>
      if mul ≥ 26 then
        let dig := pos / mul % 2 ^ 8
        letter 'A' dig :: backRefDigits fuel (pos - dig * mul) (mul / 26)
      else [letter 'a' pos]

/-- `writeBackRef`. -/
def writeBackRef (pos : Nat) : List Char :=
  'Q' :: backRefDigits (pos + 1) pos (scale pos pos 1)

/-- The buffer and the tables of `Backref`. -/
structure State where
  buf : List Char := []
  types : List (AnyTy × Nat) := []
  idents : List (Ident × Nat) := []

namespace State

def write (st : State) (text : List Char) : State :=
  { st with buf := st.buf ++ text }

/-- `addRefToType`, and what is written for a type that is not there yet. -/
def addRefToType (st : State) (t : AnyTy) (body : State → Option State) : Option State :=
  match st.types.lookup t with
  | some offset => some (st.write (writeBackRef (st.buf.length - offset)))
  | none => body { st with types := (t, st.buf.length) :: st.types }

/-- `mangleIdentifier` with `toBuffer`. -/
def mangleIdentifier (st : State) (id : Ident) : Option State :=
  match st.idents.lookup id with
  | some offset => some (st.write (writeBackRef (st.buf.length - offset)))
  | none =>
      if st.buf.length + id.letters.length ≥ 8 * 1024 * 1024 then none
      else some ({ st with idents := (id, st.buf.length) :: st.idents }.write
        (Nat.toDigits 10 id.letters.length ++ id.letters))

/-- The beginning of `mangleFuncType`, up to the parameters. -/
def writeSignature (st : State) (signature : Signature) : Option State :=
  signature.linkage.letter?.map fun letter =>
    st.write (letter :: signature.attributes.text)

/-- The storage classes of a parameter. -/
def writeStorage (st : State) (storage : Storage) : Option State :=
  storage.codes.map fun codes => st.write (codes.flatMap Code.text)

end State

/-- `writeLocalParent`. -/
def localParent (number : Nat) : List Char :=
  Nat.toDigits 10 ((Nat.toDigits 10 number).length + 3) ++ "__S".toList ++ Nat.toDigits 10 number

/-! ### Types -/

mutual

/-- `mangleType` for a type that is no function type. -/
def mangleTy : Ty → Mod → State → Option State
  | .basic ty mod, mask, st => some (st.write (mask.under mod ++ ty.text))
  | .single ty mod, mask, st =>
      (st.write (mask.under mod)).addRefToType (.ty (.single ty mod)) fun st =>
        some (st.write ty.text)
  | .next kind mod next, mask, st =>
      (st.write (mask.under mod)).addRefToType (.ty (Ty.next kind mod next).canonical) fun st =>
        mangleTy next mod (st.write kind.text)
  | .aarray mod index next, mask, st =>
      (st.write (mask.under mod)).addRefToType (.ty (Ty.aarray mod index next).canonical) fun st =>
        do
          let st ← mangleTy index .none (st.write ['H'])
          mangleTy next mod st
  | .vector mod sharedBase dim element, mask, st =>
      (st.write (mask.under mod)).addRefToType (.ty (.vector mod sharedBase dim element)) fun st =>
        (st.write (['N', 'h'] ++ mod.under (baseMod sharedBase))).addRefToType
          (.ty (vectorBase sharedBase dim element)) fun st =>
            some (st.write ((NextKind.sarray dim).text ++ element.text))
  | .call kind mod function, mask, st =>
      (st.write (mask.under mod)).addRefToType (.ty (Ty.call kind mod function).canonical) fun st =>
        let st := st.write (kind.letter :: mod.under function.signature.mod)
        st.addRefToType (.fn function.canonical) fun st => mangleFn function st
  | .named kind mod origin names, mask, st =>
      (st.write (mask.under mod)).addRefToType (.ty (Ty.named kind mod origin names).canonical)
        fun st =>
          if kind = .class_ ∧ reserved origin names then
            (st.write [kind.letter]).mangleIdentifier names.ident
          else if origin = .c then do
            let st ← (st.write [kind.letter]).mangleIdentifier importC
            st.mangleIdentifier names.ident
          else mangleNames names (st.write [kind.letter])

/-- `mangleFuncType` with the qualifiers of the function written. -/
def mangleFn : Fn → State → Option State
  | .mk signature params result, st => do
      let st ← st.writeSignature signature
      let st ← mangleParams params st
      mangleTy result .none (st.write [signature.varargs.letter])

/-- `mangleParameter` for each parameter. -/
def mangleParams : Params → State → Option State
  | .nil, st => some st
  | .cons storage ty rest, st => do
      let st ← st.writeStorage storage
      let st ← mangleTy ty (if storage.in_ then .const_ else .none) st
      mangleParams rest st

/-- The arguments of `mangleTemplateInstance`. -/
def mangleArgs : Args → State → Option State
  | .nil, st => some st
  | .cons specialized ty rest, st => do
      let st ← mangleTy ty .none (st.write ((if specialized then ['H'] else []) ++ ['T']))
      mangleArgs rest st

/-- `mangleParent` and the symbol. -/
def mangleNames : Names → State → Option State
  | .symbol ident, st => st.mangleIdentifier ident
  | .parent ident rest, st => do
      let st ← st.mangleIdentifier ident
      mangleNames rest st
  | .function ident needThis signature params rest, st => do
      let st ← st.mangleIdentifier ident
      let st := st.write ((if needThis then ['M'] else []) ++ Mod.under .none signature.mod)
      let st ← st.writeSignature signature
      let st ← mangleParams params st
      mangleNames rest (st.write [signature.varargs.letter])
  | .template inConstraint ident args rest, st => do
      let st ← (st.write ['_', '_', if inConstraint then 'U' else 'T']).mangleIdentifier ident
      let st ← mangleArgs args st
      mangleNames rest (st.write ['Z'])
  | .anonymous rest, st => mangleNames rest (st.write ['0'])
  | .localNum number rest, st => mangleNames rest (st.write (localParent number))

end

/-- `mangleType` under the given qualifiers. -/
def mangleType : AnyTy → Mod → State → Option State
  | .ty t, mask, st => mangleTy t mask st
  | .fn f, mask, st =>
      (st.write (mask.under f.signature.mod)).addRefToType (.fn f.canonical) (mangleFn f)

/-- `mangleToBuffer` into an empty buffer. -/
def mangleToBuffer (t : AnyTy) : Option (List Char) :=
  (mangleType t .none {}).map State.buf

end LaserD.Mangle
