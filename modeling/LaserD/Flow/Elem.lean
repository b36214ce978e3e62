/-
This file models the expression trees that the data-flow analyses walk over, with the
tables of their operators, and the symbols of a function.

The operators are those that are left after the trees have been optimised for the first
time: references to bit fields, `&` of an operand, `va_start` and the like are gone then. The
colon of a condition stands with the condition, since it stands nowhere else.
-/

import LaserD.Flow.Graph

namespace LaserD.Flow

/-! ### Operators -/

/-- The operators without operands, apart from variables and assembly code. -/
inductive Leaf
  | const | relconst | nullptr | strthis | mark | dctor | halt | frameptr | got
  deriving DecidableEq

/-- `Eunary`: the operators of one operand. -/
inductive Una
  | not | com | ind | neg | abs | rndtol | rint | bool | strlen
  | b_8 | s16_32 | u16_32 | d_s32 | d_u32 | s32_d | u32_d | d_s16 | s16_d | o32_16 | d_f | f_d
  | u8_16 | s8_16 | o16_8 | d_ld | ld_d | c_r | c_i | u32_64 | s32_64 | o64_32 | msw | d_s64
  | s64_d | d_u64 | u64_d | ld_u64 | o128_64 | s64_128 | u64_128
  | ucall | ucallns | strpar | u16_d | d_u16 | negass | toprec | ctor | dtor | void | bsf | bsr
  | bswap | popcnt | ddtor | vector | vecfill | sqrt | sin | cos | inp
  | vp_fp | cvp_fp | np_fp | np_f16p | f16p_np | offset
  deriving DecidableEq

/-- `Ebinary`: the operators of two operands. -/
inductive Bin
  | add | mul | and | min | comma | div | mod | xor | or | oror | andand | shl | shr | ashr
  | streq | strcpy | strcat | strcmp | postinc | postdec | eq | addass | minass | mulass | divass
  | modass | shrass | ashrass | shlass | andass | xorass | orass | le | gt | lt | ge | eqeq | ne
  | param | call | callns | memcpy | memcmp | memset
  | unord | lg | leg | ule | ul | uge | ug | ue | ngt | nge | nlt | nle | ord | nlg | nleg | nule
  | nul | nuge | nug | nue
  | info | pair | rpair | bt | btc | btr | bts | ror | rol | btst | remquo | cmpxchg | outp | scale
  | yl2x | yl2xp1 | vecsto | prefetch
  deriving DecidableEq

/-- `Ertol`: the right operand is evaluated first. -/
def Bin.OTrtol (op : Bin) : Bool :=
  op ∈ [eq, streq, strcpy, memcpy, postinc, postdec, addass, minass, mulass, divass, modass, andass,
    orass, xorass, shlass, shrass, ashrass, call, callns, info, memset, vecsto, cmpxchg]

/-- The operators `op=`. -/
def Bin.OTopeq (op : Bin) : Bool :=
  op ∈ [addass, minass, mulass, divass, modass, shrass, shlass, andass, xorass, orass, ashrass]

/-- `Eassign`: the left operand is assigned to. -/
def Bin.OTassign (op : Bin) : Bool :=
  op ∈ [streq, eq, addass, minass, mulass, divass, modass, shrass, ashrass, shlass, andass, xorass,
    orass, postinc, postdec, vecsto, cmpxchg]

/-! ### Trees -/

/-- What the analyses read of the type of an elem. -/
structure Ty where
  tysize : Nat
  tyfloating : Bool := false
  /-- `mTYvolatile` or `mTYshared`. -/
  isVolatile : Bool := false
  /-- `TYstruct` or `TYarray`. -/
  isAggregate : Bool := false
  /-- `TYimmutPtr`. -/
  isImmutPtr : Bool := false
  deriving DecidableEq

/-- What every elem has besides its operator and operands. `ET` is the size of the type of a
structure, `Eexp` the index of the elem among the expressions of an analysis. -/
structure Node where
  Ety : Ty
  ET : Nat := 0
  Eexp : Nat := 0
  deriving DecidableEq

/-- `elem`. -/
inductive Elem (Sym : Type)
  | var (n : Node) (Vsym : Sym) (Voffset : Nat)
  | leaf (op : Leaf) (n : Node) (value : Nat)
  | asm_ (code : Nat)
  | una (op : Una) (n : Node) (E1 : Elem Sym)
  | bin (op : Bin) (n : Node) (E1 E2 : Elem Sym)
  | cond (n : Node) (E1 whenTrue whenFalse : Elem Sym)
  deriving DecidableEq

/-- The type of an elem. -/
def Elem.Ety {Sym : Type} : Elem Sym → Ty
  | .var n _ _ => n.Ety
  | .leaf _ n _ => n.Ety
  | .asm_ _ => { tysize := 0 }
  | .una _ n _ => n.Ety
  | .bin _ n _ _ => n.Ety
  | .cond n _ _ _ => n.Ety

/-- Right to left evaluation. `inline8087` is the option of the compiler. -/
def ERTOL (inline8087 : Bool) (op : Bin) (n : Node) : Bool :=
  op.OTrtol && (!op.OTopeq || inline8087 || !n.Ety.tyfloating)

/-! ### Symbols -/

/-- The symbols of a function: those in its table are local, the others are accessible from
everywhere. -/
structure Symtab (Sym : Type) [DecidableEq Sym] where
  globsym : Finset Sym
  typeSize : Sym → Nat
  SFLunambig : Sym → Bool
  SFLlivexit : Sym → Bool
  SFLexit : Sym → Bool
  tyfloating : Sym → Bool
  outside : ∀ s, s ∉ globsym → SFLunambig s = false

/-- A function: its graph and the trees of its blocks. -/
structure Program (Sym : Type) (n : Nat) where
  graph : Flowgraph n
  Belem : Fin n → Option (Elem Sym)

end LaserD.Flow
