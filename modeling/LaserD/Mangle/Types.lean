/-
This file models the types that `dmd/mangle` writes, with what they carry there.

A function type stands only under a pointer or a delegate or by itself: the front end rejects
parameters, results and elements of function type. The base of a vector is a static array of
a basic type, not qualified but perhaps shared. A name is the chain of parents of a symbol
with the symbol at its end; a parent may be a function, which is named with its parameters, or
a template instance.

`canonical` is the type that all types of one spelling share: what is inferred, the level of
purity and the unspelled defaults are left out, and so are the parents of the classes that
are reserved to the compiler and of symbols of C files.
-/

import Mathlib.Data.List.Basic

namespace LaserD.Mangle

/-! ### Parts of types -/

/-- `MOD`: the qualifiers of a type. -/
inductive Mod
  | none | const_ | immutable_ | shared_ | sharedConst | wild | wildconst | sharedWild
  | sharedWildconst
  deriving DecidableEq

/-- The types that `TypeBasic` stands for. -/
inductive Basic
  | char_ | bool_ | complex80 | float64 | float80 | float32 | int8 | uns8 | int32 | imaginary80
  | uns32 | int64 | uns64 | imaginary32 | imaginary64 | complex32 | complex64 | int16 | uns16
  | wchar_ | void_ | dchar_ | int128 | uns128
  deriving DecidableEq

/-- `TypeNull` and `TypeNoreturn`. -/
inductive Single
  | null_ | noreturn_
  deriving DecidableEq

/-- The types that have just a next type. -/
inductive NextKind
  | pointer | darray | sarray (dim : Nat)
  deriving DecidableEq

/-- The types whose next type is a function type. -/
inductive CallKind
  | pointer | delegate_
  deriving DecidableEq

/-- The types of named symbols. -/
inductive NamedKind
  | struct_ | class_ | enum_
  deriving DecidableEq

/-- Where a symbol is declared: in a D file, at the top of a C file, or as one of the classes the
compiler refers to (`ClassDeclaration.object`, `Type.typeinfoclass`, `Module.moduleinfo`). -/
inductive Origin
  | d | c | builtin
  deriving DecidableEq

/-- `LINK`. -/
inductive Linkage
  | default_ | d | c | cpp | windows | objc | system
  deriving DecidableEq

/-- `PURE`. -/
inductive Purity
  | impure | fwdref | weak | const_
  deriving DecidableEq

/-- `TRUST`. -/
inductive Trust
  | default_ | system | trusted | safe
  deriving DecidableEq

/-- `VarArg`. -/
inductive VarArg
  | none | variadic | typesafe | krVariadic
  deriving DecidableEq

/-- An identifier: letters of which the first is no digit. -/
structure Ident where
  letters : List Char
  first : ∃ c rest, letters = c :: rest ∧ c.isDigit = false
  deriving DecidableEq

/-- The identifier has the form of a local number. -/
def Ident.isLocal (ident : Ident) : Bool :=
  "__S".toList.isPrefixOf ident.letters ∧ ident.letters.drop 3 ≠ [] ∧
    (ident.letters.drop 3).all Char.isDigit

/-- The attributes of a `TypeFunction`. -/
structure Attributes where
  purity : Purity := .impure
  isNothrow : Bool := false
  isRef : Bool := false
  isProperty : Bool := false
  isNogc : Bool := false
  isReturnScope : Bool := false
  isReturnInferred : Bool := false
  isScopeQual : Bool := false
  isScopeInferred : Bool := false
  isReturn : Bool := false
  isLive : Bool := false
  trust : Trust := .default_
  deriving DecidableEq

/-- A `TypeFunction` without its parameters and result. -/
structure Signature where
  mod : Mod := .none
  linkage : Linkage := .d
  attributes : Attributes := {}
  varargs : VarArg := .none
  deriving DecidableEq

/-- The storage classes of a parameter that are mangled. -/
structure Storage where
  in_ : Bool := false
  ref_ : Bool := false
  out_ : Bool := false
  lazy_ : Bool := false
  scope_ : Bool := false
  scopeinferred : Bool := false
  return_ : Bool := false
  returninferred : Bool := false
  returnScope : Bool := false
  deriving DecidableEq

/-! ### Types -/

mutual

/-- A type that is no function type. -/
inductive Ty
  | basic (ty : Basic) (mod : Mod)
  | single (ty : Single) (mod : Mod)
  | next (kind : NextKind) (mod : Mod) (next : Ty)
  | aarray (mod : Mod) (index next : Ty)
  | vector (mod : Mod) (sharedBase : Bool) (dim : Nat) (element : Basic)
  | call (kind : CallKind) (mod : Mod) (function : Fn)
  | named (kind : NamedKind) (mod : Mod) (origin : Origin) (names : Names)

/-- A function type. -/
inductive Fn
  | mk (signature : Signature) (params : Params) (result : Ty)

/-- The parameters of a function. -/
inductive Params
  | nil
  | cons (storage : Storage) (ty : Ty) (rest : Params)

/-- The type arguments of a template instance, with whether the parameter is specialized. -/
inductive Args
  | nil
  | cons (specialized : Bool) (ty : Ty) (rest : Args)

/-- A symbol after its parents, from the outermost on. `localNum` comes before a symbol that has
a number other than 0. -/
inductive Names
  | symbol (ident : Ident)
  | parent (ident : Ident) (rest : Names)
  | function (ident : Ident) (needThis : Bool) (signature : Signature) (params : Params)
      (rest : Names)
  | template (inConstraint : Bool) (ident : Ident) (args : Args) (rest : Names)
  | anonymous (rest : Names)
  | localNum (number : Nat) (rest : Names)

end

deriving instance DecidableEq for Ty, Fn, Params, Args, Names

/-- A type: `Type`. -/
inductive AnyTy
  | ty (t : Ty)
  | fn (f : Fn)
  deriving DecidableEq

/-- `t.mod`. -/
def Ty.mod : Ty → Mod
  | .basic _ mod => mod
  | .single _ mod => mod
  | .next _ mod _ => mod
  | .aarray mod _ _ => mod
  | .vector mod _ _ _ => mod
  | .call _ mod _ => mod
  | .named _ mod _ _ => mod

def Fn.signature : Fn → Signature
  | .mk signature _ _ => signature

/-- The qualifier of the base of a vector. -/
def baseMod (sharedBase : Bool) : Mod :=
  if sharedBase then .shared_ else .none

/-- The base of a vector. -/
def vectorBase (sharedBase : Bool) (dim : Nat) (element : Basic) : Ty :=
  .next (.sarray dim) (baseMod sharedBase) (.basic element (baseMod sharedBase))

/-! ### Names that are written without their parents -/

/-- The symbol at the end of a name. -/
def Names.ident : Names → Ident
  | .symbol ident => ident
  | .parent _ rest => rest.ident
  | .function _ _ _ _ rest => rest.ident
  | .template _ _ _ rest => rest.ident
  | .anonymous rest => rest.ident
  | .localNum _ rest => rest.ident

/-- The name of the parent of the symbol at the end, where `last` is that of the parent so far. -/
def Names.parentIdent : Option Ident → Names → Option Ident
  | last, .symbol _ => last
  | _, .parent ident rest => rest.parentIdent (some ident)
  | _, .function ident _ _ _ rest => rest.parentIdent (some ident)
  | _, .template _ ident _ rest => rest.parentIdent (some ident)
  | _, .anonymous rest => rest.parentIdent none
  | last, .localNum _ rest => rest.parentIdent last

/-- The letters of a word of the compiler. -/
def Ident.Is (ident : Ident) (word : String) : Prop :=
  ident.letters = word.toList

instance (ident : Ident) (word : String) : Decidable (ident.Is word) :=
  inferInstanceAs (Decidable (_ = _))

/-- The classes that are reserved to the compiler. -/
def reserved (origin : Origin) (names : Names) : Bool :=
  (names.ident.Is "Exception" ∧ ∃ parent ∈ names.parentIdent none, parent.Is "object") ∨
  names.ident.Is "TypeInfo" ∨ names.ident.Is "TypeInfo_Struct" ∨ names.ident.Is "TypeInfo_Class" ∨
  names.ident.Is "TypeInfo_Tuple" ∨ origin = .builtin ∨
  "TypeInfo_".toList.isPrefixOf names.ident.letters

/-- `Id.ImportC`. -/
def importC : Ident :=
  ⟨"__C".toList, '_', "_C".toList, rfl, rfl⟩

/-- The chain of names that stands for a symbol. -/
def spelled (kind : NamedKind) (origin : Origin) (names : Names) : Names :=
  if kind = .class_ ∧ reserved origin names then .symbol names.ident
  else if origin = .c then .parent importC (.symbol names.ident)
  else names

/-! ### Types of one spelling -/

def Linkage.canonical (linkage : Linkage) : Linkage :=
  if linkage = .default_ then .d else linkage

/-- What is inferred is not spelled, and `return scope` is spelled as such. -/
def Attributes.canonical (a : Attributes) : Attributes :=
  let returnScope := a.isReturnScope && !a.isReturnInferred
  { a with
    purity := if a.purity = .impure then .impure else .weak
    isReturnScope := returnScope
    isReturnInferred := false
    isScopeQual := returnScope || (a.isScopeQual && !a.isScopeInferred)
    isScopeInferred := false
    isReturn := returnScope || (a.isReturn && !a.isReturnInferred)
    trust := if a.trust = .system then .default_ else a.trust }

def Signature.canonical (s : Signature) : Signature :=
  { s with linkage := s.linkage.canonical, attributes := s.attributes.canonical }

/-- What is inferred is not spelled; the order of `return` and `scope` counts with `ref` only. -/
def Storage.canonical (s : Storage) : Storage :=
  let scope_ := s.scope_ && !s.scopeinferred
  let return_ := s.return_ && !s.returninferred
  { s with
    ref_ := s.ref_ && !(s.out_ && return_)
    scope_ := scope_
    scopeinferred := false
    return_ := return_
    returninferred := false
    returnScope := s.returnScope && return_ && scope_ && (s.ref_ || s.out_) }

mutual

/-- The type that all types of one spelling share. -/
def Ty.canonical : Ty → Ty
  | .basic ty mod => .basic ty mod
  | .single ty mod => .single ty mod
  | .next kind mod next => .next kind mod next.canonical
  | .aarray mod index next => .aarray mod index.canonical next.canonical
  | .vector mod sharedBase dim element => .vector mod sharedBase dim element
  | .call kind mod function => .call kind mod function.canonical
  | .named kind mod origin names => .named kind mod .d (spelled kind origin names.canonical)

def Fn.canonical : Fn → Fn
  | .mk signature params result => .mk signature.canonical params.canonical result.canonical

def Params.canonical : Params → Params
  | .nil => .nil
  | .cons storage ty rest => .cons storage.canonical ty.canonical rest.canonical

def Args.canonical : Args → Args
  | .nil => .nil
  | .cons specialized ty rest => .cons specialized ty.canonical rest.canonical

def Names.canonical : Names → Names
  | .symbol ident => .symbol ident
  | .parent ident rest => .parent ident rest.canonical
  | .function ident needThis signature params rest =>
      .function ident needThis signature.canonical params.canonical rest.canonical
  | .template inConstraint ident args rest =>
      .template inConstraint ident args.canonical rest.canonical
  | .anonymous rest => .anonymous rest.canonical
  | .localNum number rest => .localNum number rest.canonical

end

def AnyTy.canonical : AnyTy → AnyTy
  | .ty t => .ty t.canonical
  | .fn f => .fn f.canonical

end LaserD.Mangle
