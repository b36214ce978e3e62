/-
This file models the checks of the arguments of `printf` and `scanf` against their formats.

An argument is known by its type. A check adds what it reports to the messages, where an argument
is named by its index. The loop over a format reads a specifier after the other and takes the next
argument for each width, precision and conversion that needs one; it ends early where the arguments
do.
-/

import LaserD.Chkformat.Specifiers

namespace LaserD.Chkformat

/-! ### Types -/

/-- The basic types. -/
inductive Basic
  | void_ | int8 | uns8 | int16 | uns16 | int32 | uns32 | int64 | uns64 | int128 | uns128 | float32
  | float64 | float80 | imaginary32 | imaginary64 | imaginary80 | complex32 | complex64 | complex80
  | bool_ | char_ | wchar_ | dchar_
  deriving DecidableEq

/-- The types. -/
inductive Ty
  | basic (b : Basic) (isMutable : Bool)
  | pointer (next : Ty)
  | array (next : Ty)
  | sarray (next : Ty)
  | aarray (next : Ty)
  | enum_ (memType : Ty)
  | vector (element : Basic) (size : Nat)
  | null | class_ | struct_ | delegate_ | function_
  deriving DecidableEq

/-- `ty` is that of a basic type. -/
def Ty.isBasic (t : Ty) (b : Basic) : Bool :=
  match t with
  | .basic b' _ => b' = b
  | _ => false

/-- `toBasetype`. -/
def Ty.toBasetype : Ty → Ty
  | .enum_ memType => memType.toBasetype
  | t => t

/-- `nextOf`, for the types that have one. -/
def Ty.nextOf : Ty → Option Ty
  | .pointer next | .array next | .sarray next | .aarray next => some next
  | _ => none

/-- `TFlags.integral`. -/
def Basic.isIntegral : Basic → Bool
  | .int8 | .uns8 | .int16 | .uns16 | .int32 | .uns32 | .int64 | .uns64 | .int128 | .uns128 => true
  | .bool_ | .char_ | .wchar_ | .dchar_ => true
  | _ => false

/-- `TFlags.unsigned`. -/
def Basic.isUnsigned : Basic → Bool
  | .uns8 | .uns16 | .uns32 | .uns64 | .uns128 | .bool_ | .char_ | .wchar_ | .dchar_ => true
  | _ => false

/-- The sizes of the integral types. -/
def Basic.size : Basic → Nat
  | .int8 | .uns8 | .bool_ | .char_ => 1
  | .int16 | .uns16 | .wchar_ => 2
  | .int32 | .uns32 | .dchar_ => 4
  | .int64 | .uns64 => 8
  | .int128 | .uns128 => 16
  | _ => 0

/-- `isIntegral`. -/
def Ty.isIntegral : Ty → Bool
  | .basic b _ => b.isIntegral
  | .vector element _ => element.isIntegral
  | .enum_ memType => memType.isIntegral
  | _ => false

/-- `isUnsigned`. -/
def Ty.isUnsigned : Ty → Bool
  | .basic b _ => b.isUnsigned
  | .vector element _ => element.isUnsigned
  | .enum_ memType => memType.isUnsigned
  | _ => false

/-- `size`, of the types that are integral. -/
def Ty.size : Ty → Nat
  | .basic b _ => b.size
  | .vector _ size => size
  | .enum_ memType => memType.size
  | _ => 0

/-- `isSomeChar`. -/
def Ty.isSomeChar (t : Ty) : Bool :=
  t.isBasic .char_ || t.isBasic .wchar_ || t.isBasic .dchar_

/-- `isMutable`, of the basic types. -/
def Ty.isMutable : Ty → Bool
  | .basic _ isMutable => isMutable
  | _ => true

/-- The sizes of the target, and whether its C library has the extensions of GNU. -/
structure Target where
  c_longsize : Nat
  ptrsize : Nat
  wchar_tsize : Nat
  useGNUExts : Bool

/-! ### Messages -/

/-- What a check reports: an invalid specifier, too few arguments, an argument of another type than
the expected one with its index and the specifier, and the size of `long`. -/
inductive Message
  | invalid (slice : Text)
  | more (n : Nat)
  | argument (pre : String) (index : Nat) (slice : Text) (texpect : String) (tactual : Ty)
  | longSize (index : Nat) (c_longsize : Nat)
  deriving DecidableEq

/-- A message for an argument that is not accepted, and none for one that is. -/
def orMessage (accepted : Bool) (index : Nat) (slice : Text) (texpect : String) (t : Ty) :
    List Message :=
  if accepted then [] else [.argument "" index slice texpect t]

/-- The width or the precision of printf is an `int`. -/
def checkStar (pre : String) (index : Nat) (slice : Text) (type : Ty) : List Message :=
  let t := type.toBasetype
  if !t.isBasic .int32 && !t.isBasic .uns32 then [.argument pre index slice "int" t] else []

/-- The pointee satisfies a test. -/
def Ty.pointsTo (t : Ty) (test : Ty → Bool) : Bool :=
  match t with
  | .pointer tnext => test tnext
  | _ => false

/-- The argument of a conversion of printf. Nothing means a failed assertion. -/
def checkPrintfArgument (target : Target) (fmt : Format) (index : Nat) (slice : Text)
    (type : Ty) : Option (List Message) :=
  let t := type.toBasetype
  let c_longsize := target.c_longsize
  let ptrsize := target.ptrsize
  let int := t.isBasic .int32 || t.isBasic .uns32
  match fmt with
  | .u | .d => some (orMessage int index slice (if fmt = .u then "uint" else "int") t)
  | .hhu | .hhd =>
    some (orMessage (int || t.isBasic .int8 || t.isBasic .uns8) index slice
      (if fmt = .hhu then "ubyte" else "byte") t)
  | .hu | .hd =>
    some (orMessage (int || t.isBasic .int16 || t.isBasic .uns16) index slice
      (if fmt = .hu then "ushort" else "short") t)
  | .lu | .ld =>
    if t.isIntegral && t.size = c_longsize then some []
    else
      let texpect := if fmt = .lu then (if c_longsize = 4 then "uint" else "ulong")
        else if c_longsize = 4 then "int" else "long"
      some (.argument "" index slice texpect t ::
        if t.isIntegral && t.size ≠ c_longsize then [.longSize index c_longsize] else [])
  | .llu | .lld =>
    some (orMessage (t.isBasic .int64 || t.isBasic .uns64) index slice
      (if fmt = .llu then "ulong" else "long") t)
  | .ju | .jd =>
    some (orMessage (t.isBasic .int64 || t.isBasic .uns64) index slice
      (if fmt = .ju then "core.stdc.stdint.uintmax_t" else "core.stdc.stdint.intmax_t") t)
  | .zd => some (orMessage (t.isIntegral && t.size = ptrsize) index slice "size_t" t)
  | .td => some (orMessage (t.isIntegral && t.size = ptrsize) index slice "ptrdiff_t" t)
  | .lg | .g =>
    some (orMessage (t.isBasic .float64 || t.isBasic .imaginary64) index slice "double" t)
  | .Lg => some (orMessage (t.isBasic .float80 || t.isBasic .imaginary80) index slice "real" t)
  | .p =>
    let accepted := match t with
      | .pointer _ | .null | .class_ | .delegate_ | .aarray _ => true
      | _ => false
    some (orMessage accepted index slice "void*" t)
  | .n => some (orMessage (t.pointsTo fun tnext => tnext.isBasic .int32 && tnext.isMutable) index
      slice "int*" t)
  | .ln => some (orMessage (t.pointsTo fun tnext => tnext.isIntegral && tnext.size = c_longsize)
      index slice (if c_longsize = 4 then "int*" else "long*") t)
  | .lln => some (orMessage (t.pointsTo (·.isBasic .int64)) index slice "long*" t)
  | .hn => some (orMessage (t.pointsTo (·.isBasic .int16)) index slice "short*" t)
  | .hhn => some (orMessage (t.pointsTo (·.isBasic .int16)) index slice "byte*" t)
  | .jn => some (orMessage (t.pointsTo (·.isBasic .int64)) index slice
      "core.stdc.stdint.intmax_t*" t)
  | .zn => some (orMessage (t.pointsTo fun tnext => tnext.isIntegral && tnext.isUnsigned &&
      tnext.size = ptrsize) index slice "size_t*" t)
  | .tn => some (orMessage (t.pointsTo fun tnext => tnext.isIntegral && !tnext.isUnsigned &&
      tnext.size = ptrsize) index slice "ptrdiff_t*" t)
  | .c => some (orMessage int index slice "char" t)
  | .lc => some (orMessage int index slice "wchar_t" t)
  | .s => some (orMessage (t.pointsTo fun tnext => tnext.isBasic .char_ || tnext.isBasic .int8 ||
      tnext.isBasic .uns8) index slice "char*" t)
  | .ls => some (orMessage (t.pointsTo fun tnext => tnext.isSomeChar &&
      tnext.size = target.wchar_tsize) index slice "wchar_t*" t)
  | .error => some [.invalid slice]
  | .GNU_m | .POSIX_ms | .POSIX_mls | .percent => none

/-- Whether scanf stores into what an argument points to. Nothing means a failed assertion. -/
def scanfAccepts (target : Target) (fmt : Format) (t : Ty) : Option Bool :=
  match fmt with
  | .n | .d => some (t.pointsTo (·.isBasic .int32))
  | .hhn | .hhd => some (t.pointsTo (·.isBasic .int16))
  | .hn | .hd => some (t.pointsTo (·.isBasic .int16))
  | .ln | .ld => some (t.pointsTo fun tnext => tnext.isIntegral && !tnext.isUnsigned &&
      tnext.size = target.c_longsize)
  | .lln | .lld => some (t.pointsTo (·.isBasic .int64))
  | .jn | .jd => some (t.pointsTo (·.isBasic .int64))
  | .zn | .zd => some (t.pointsTo fun tnext => tnext.isIntegral && tnext.isUnsigned &&
      tnext.size = target.ptrsize)
  | .tn | .td => some (t.pointsTo fun tnext => tnext.isIntegral && !tnext.isUnsigned &&
      tnext.size = target.ptrsize)
  | .u => some (t.pointsTo (·.isBasic .uns32))
  | .hhu => some (t.pointsTo (·.isBasic .uns8))
  | .hu => some (t.pointsTo (·.isBasic .uns16))
  | .lu => some (t.pointsTo fun tnext => tnext.isIntegral && tnext.isUnsigned &&
      tnext.size = target.c_longsize)
  | .llu => some (t.pointsTo (·.isBasic .uns64))
  | .ju => some (t.pointsTo (·.isBasic .uns64))
  | .g => some (t.pointsTo (·.isBasic .float32))
  | .lg => some (t.pointsTo (·.isBasic .float64))
  | .Lg => some (t.pointsTo (·.isBasic .float80))
  | .c | .s => some (t.pointsTo fun tnext => tnext.isBasic .char_ || tnext.isBasic .int8 ||
      tnext.isBasic .uns8)
  | .lc | .ls => some (t.pointsTo fun tnext => tnext.isSomeChar && tnext.size = target.wchar_tsize)
  | .p => some (t.pointsTo fun tnext => tnext.pointsTo fun _ => true)
  | .POSIX_ms => some (t.pointsTo (·.pointsTo fun tnext2 => tnext2.isBasic .char_ ||
      tnext2.isBasic .int8 || tnext2.isBasic .uns8))
  | .POSIX_mls => some (t.pointsTo (·.pointsTo fun tnext2 => tnext2.isSomeChar &&
      tnext2.size = target.wchar_tsize))
  | .error | .GNU_m | .percent => none

/-- The type that a conversion of scanf stores through, as the message names it. -/
def scanfExpects (target : Target) : Format → String
  | .n | .d => "int*"
  | .hhn | .hhd => "byte*"
  | .hn | .hd => "short*"
  | .ln | .ld => if target.c_longsize = 4 then "int*" else "long*"
  | .lln | .lld => "long*"
  | .jn | .jd => "core.stdc.stdint.intmax_t*"
  | .zn | .zd => "size_t*"
  | .tn | .td => "ptrdiff_t*"
  | .u => "uint*"
  | .hhu => "ubyte*"
  | .hu => "ushort*"
  | .lu => if target.c_longsize = 4 then "uint*" else "ulong*"
  | .llu => "ulong*"
  | .ju => "core.stdc.stdint.uintmax_t*"
  | .g => "float*"
  | .lg => "double*"
  | .Lg => "real*"
  | .c | .s => "char*"
  | .lc | .ls => "wchar_t*"
  | .p => "void**"
  | .POSIX_ms => "char**"
  | .POSIX_mls => "wchar_t**"
  | .error | .GNU_m | .percent => ""

/-- The argument of a conversion of scanf. Nothing means a failed assertion. -/
def checkScanfArgument (target : Target) (fmt : Format) (index : Nat) (slice : Text)
    (type : Ty) : Option (List Message) :=
  let t := type.toBasetype
  if fmt = .error then some [.invalid slice]
  else (scanfAccepts target fmt t).map fun accepted =>
    orMessage accepted index slice (scanfExpects target fmt) t

/-! ### The loops -/

/-- How a check ends: whether it stopped for want of arguments, and its messages. -/
abbrev Checked := Bool × List Message

/-- Messages come before those of the rest. -/
def andThen (messages : List Message) (rest : Option Checked) : Option Checked :=
  rest.map fun checked => (checked.1, messages ++ checked.2)

/-- `getNextArg` with the test for an argument: the check goes on with the next argument, or ends
with a message. -/
def withArgument (args : List Ty) (n : Nat) (check : Ty → Option (List Message))
    (rest : Nat → Option Checked) : Option Checked :=
  match args[n]? with
  | none => some (true, [.more n])
  | some e => (check e).bind fun messages => andThen messages (rest (n + 1))

/-- The part of a format that a specifier is. -/
def sliceOf (format rest : Text) : Text :=
  format.take (format.length - rest.length)

/-- The loop over a format: what is not a percent sign is passed over, and what is found at a
percent sign is checked together with what follows it. Nothing means a failed assertion or a read
past the end of the format. -/
def formatLoop {Found : Type} (parse : Text → Option Found) (restOf : Found → Text)
    (check : Found → Text → (Nat → Option Checked) → Nat → Option Checked) :
    Nat → Text → Nat → Option Checked
  | _, [], _ => some (false, [])
  | 0, _ :: _, _ => none
  | fuel + 1, c :: format, n =>
    if c ≠ '%' then formatLoop parse restOf check fuel format n
    else
      (parse (c :: format)).bind fun found =>
        check found (sliceOf (c :: format) (restOf found))
          (formatLoop parse restOf check fuel (restOf found)) n

/-- The checks of the arguments of a specifier of printf, and of what follows. -/
def checkPrintfSpecifier (target : Target) (args : List Ty) (isVa_list : Bool)
    (found : PrintfSpecifier) (slice : Text) (rest : Nat → Option Checked) (n : Nat) :
    Option Checked :=
  if found.specifier = .percent ∨ found.specifier = .GNU_m then rest n
  else if isVa_list then
    andThen (if found.specifier = .error then [.invalid slice] else []) (rest n)
  else
    let conversion := fun n =>
      withArgument args n (checkPrintfArgument target found.specifier n slice) rest
    let precision := fun n =>
      if found.precisionStar then
        withArgument args n (fun e => some (checkStar "precision " n slice e)) conversion
      else conversion n
    if found.widthStar then
      withArgument args n (fun e => some (checkStar "width " n slice e)) precision
    else precision n

/-- The loop of `checkPrintfFormat`. -/
def printfLoop (target : Target) (args : List Ty) (isVa_list : Bool) :
    Nat → Text → Nat → Option Checked :=
  formatLoop (parsePrintfFormatSpecifier target.useGNUExts) PrintfSpecifier.rest
    (checkPrintfSpecifier target args isVa_list)

/-- `checkPrintfFormat`. -/
def checkPrintfFormat (target : Target) (format : Text) (args : List Ty) (isVa_list : Bool) :
    Option Checked :=
  printfLoop target args isVa_list format.length format 0

/-- The check of the argument of a specifier of scanf, and of what follows. -/
def checkScanfSpecifier (target : Target) (args : List Ty) (isVa_list : Bool)
    (found : ScanfSpecifier) (slice : Text) (rest : Nat → Option Checked) (n : Nat) :
    Option Checked :=
  if found.specifier = .percent ∨ found.asterisk then rest n
  else if isVa_list then
    andThen (if found.specifier = .error then [.invalid slice] else []) (rest n)
  else withArgument args n (checkScanfArgument target found.specifier n slice) rest

/-- The loop of `checkScanfFormat`. -/
def scanfLoop (target : Target) (args : List Ty) (isVa_list : Bool) :
    Nat → Text → Nat → Option Checked :=
  formatLoop parseScanfFormatSpecifier ScanfSpecifier.rest
    (checkScanfSpecifier target args isVa_list)

/-- `checkScanfFormat`. -/
def checkScanfFormat (target : Target) (format : Text) (args : List Ty) (isVa_list : Bool) :
    Option Checked :=
  scanfLoop target args isVa_list format.length format 0

end LaserD.Chkformat
