/-
This file models how `chkformat` reads the specifiers of the formats of `printf` and `scanf`.

A position in a format is what is left of the format there. A specifier is read from its percent
sign on; where the format ends too early the specifier is an error, and the position is the end.
Reading past the end fails.
-/

import Mathlib.Data.List.Basic

namespace LaserD.Chkformat

/-- What is left of a format. -/
abbrev Text := List Char

/-- The different kinds of conversion modifiers. -/
inductive Modifier
  | none | h | hh | j | l | ll | L | m | ml | t | z
  deriving DecidableEq

/-- The different kinds of formatting specifications. -/
inductive Format
  | d | hhd | hd | ld | lld | jd | zd | td | u | hhu | hu | lu | llu | ju | g | lg | Lg | s | ls | c
  | lc | p | n | hhn | hn | ln | lln | jn | zn | tn | GNU_m | POSIX_ms | POSIX_mls | percent | error
  deriving DecidableEq

/-- `isdigit`. -/
def isdigit (c : Char) : Bool :=
  '0' ≤ c ∧ c ≤ '9'

/-! ### Length and specifier -/

/-- The length modifier. -/
def readModifier : Text → Modifier × Text
  | 'j' :: rest => (.j, rest)
  | 'z' :: rest => (.z, rest)
  | 't' :: rest => (.t, rest)
  | 'L' :: rest => (.L, rest)
  | 'h' :: 'h' :: rest => (.hh, rest)
  | 'h' :: rest => (.h, rest)
  | 'l' :: 'l' :: rest => (.ll, rest)
  | 'l' :: rest => (.l, rest)
  | rest => (.none, rest)

/-- The formats of the signed integers. -/
def signedFormat : Modifier → Format
  | .none => .d
  | .hh => .hhd
  | .h => .hd
  | .ll => .lld
  | .l => .ld
  | .j => .jd
  | .z => .zd
  | .t => .td
  | _ => .error

/-- The formats of the unsigned integers. -/
def unsignedFormat : Modifier → Format
  | .none => .u
  | .hh => .hhu
  | .h => .hu
  | .ll => .llu
  | .l => .lu
  | .j => .ju
  | .z => .zd
  | .t => .td
  | _ => .error

/-- The formats of the floating point numbers. -/
def floatFormat : Modifier → Format
  | .none => .g
  | .L => .Lg
  | .l => .lg
  | _ => .error

/-- The formats of the numbers of characters. -/
def countFormat : Modifier → Format
  | .none => .n
  | .ll => .lln
  | .l => .ln
  | .hh => .hhn
  | .h => .hn
  | .j => .jn
  | .z => .zn
  | .t => .tn
  | _ => .error

/-- The specifier, by the length modifier and its letter. -/
def specifierOf (flags : Modifier) (sc : Char) : Format :=
  match sc with
  | 'd' | 'i' => signedFormat flags
  | 'u' | 'o' | 'x' | 'X' => unsignedFormat flags
  | 'f' | 'F' | 'e' | 'E' | 'g' | 'G' | 'a' | 'A' => floatFormat flags
  | 'c' => if flags = .none then .c else if flags = .l then .lc else .error
  | 's' => if flags = .none then .s else if flags = .l then .ls else .error
  | 'p' => if flags = .none then .p else .error
  | 'n' => countFormat flags
  | 'C' => if flags = .none then .lc else .error
  | 'S' => if flags = .none then .ls else .error
  | _ => .error

/-- `parseGenericFormatSpecifier`: the specifier, its letter and the position behind it. -/
def parseGenericFormatSpecifier (format : Text) : Option (Format × Char × Text) :=
  if format = [] then none
  else
    match readModifier format with
    | (_, []) => some (.error, '\xff', [])
    | (flags, sc :: rest) => some (specifierOf flags sc, sc, rest)

/-! ### Specifiers of scanf -/

/-- What `parseScanfFormatSpecifier` returns: the specifier, whether there is an asterisk, and the
position behind the specifier. -/
structure ScanfSpecifier where
  specifier : Format
  asterisk : Bool
  rest : Text
  deriving DecidableEq

/-- The specifier of a scanset by the modifier. -/
def scansetFormat : Modifier → Format
  | .none => .s
  | .l => .ls
  | .m => .POSIX_ms
  | .ml => .POSIX_mls
  | _ => .error

/-- A character that a scanset may begin with is passed over. -/
def passOver (c : Char) : Text → Text
  | d :: rest => if d = c then rest else d :: rest
  | [] => []

/-- A scanset behind its opening bracket. -/
def parseScanset (flags : Modifier) (asterisk : Bool) (rest : Text) : ScanfSpecifier :=
  match (passOver ']' (passOver '^' rest)).dropWhile (· ≠ ']') with
  | [] => ⟨.error, asterisk, []⟩
  | _ :: rest => ⟨scansetFormat flags, asterisk, rest⟩

/-- The letter of a conversion that allocates. -/
def parseAllocated (flags : Modifier) (asterisk : Bool) : Text → ScanfSpecifier
  | [] => ⟨.error, asterisk, []⟩
  | c :: rest =>
    if c = 'c' ∨ c = 's' then
      ⟨if flags = .ml then .POSIX_mls else .POSIX_ms, asterisk, rest⟩
    else if c = 'C' ∨ c = 'S' then
      ⟨if flags = .m then .POSIX_mls else .error, asterisk, rest⟩
    else if c = '[' then parseScanset flags asterisk rest
    else ⟨.error, asterisk, rest⟩

/-- The conversions behind an `m`. -/
def parseAllocating (asterisk : Bool) : Text → ScanfSpecifier
  | 'l' :: rest => parseAllocated .ml asterisk rest
  | rest => parseAllocated .m asterisk rest

/-- The specifier of scanf behind the asterisk and the width. -/
def parseScanfConversion (asterisk : Bool) (rest : Text) : Option ScanfSpecifier :=
  match rest with
  | [] => none
  | 'm' :: rest => some (parseAllocating asterisk rest)
  | 'l' :: '[' :: rest => some (parseScanset .l asterisk rest)
  | '[' :: rest => some (parseScanset .none asterisk rest)
  | rest => (parseGenericFormatSpecifier rest).map fun found => ⟨found.1, asterisk, found.2.2⟩

/-- The width and the specifier of scanf. -/
def parseScanfWidth (asterisk : Bool) (rest : Text) : Option ScanfSpecifier :=
  if rest = [] then none
  else
    match rest.dropWhile isdigit with
    | [] => some ⟨.error, asterisk, []⟩
    | rest => parseScanfConversion asterisk rest

/-- The specifier of scanf behind the percent sign. -/
def parseScanfBehind : Text → Option ScanfSpecifier
  | [] => some ⟨.error, false, []⟩
  | '%' :: rest => some ⟨.percent, false, rest⟩
  | ['*'] => some ⟨.error, false, []⟩
  | '*' :: rest => parseScanfWidth true rest
  | rest => parseScanfWidth false rest

/-- `parseScanfFormatSpecifier`. -/
def parseScanfFormatSpecifier : Text → Option ScanfSpecifier
  | '%' :: rest => parseScanfBehind rest
  | _ => none

/-! ### Specifiers of printf -/

/-- What `parsePrintfFormatSpecifier` returns: the specifier, whether the width and the precision
are arguments, and the position behind the specifier. -/
structure PrintfSpecifier where
  specifier : Format
  widthStar : Bool
  precisionStar : Bool
  rest : Text
  deriving DecidableEq

/-- The flags that were read. -/
structure Flags where
  hash : Bool
  zero : Bool
  flags : Bool
  deriving DecidableEq

/-- A width or a precision: none, an argument, or a number. -/
inductive Field
  | absent
  | star
  | number
  deriving DecidableEq

/-- The loop over the flags. -/
def readFlags : Flags → Text → Flags × Text
  | found, c :: rest =>
    if c = '-' ∨ c = '+' ∨ c = ' ' then readFlags { found with flags := true } rest
    else if c = '#' then readFlags { found with hash := true } rest
    else if c = '0' then readFlags { found with zero := true } rest
    else (found, c :: rest)
  | found, [] => (found, [])

/-- The field width. -/
def readWidth : Text → Field × Text
  | c :: rest =>
    if c = '*' then (.star, rest)
    else if '1' ≤ c ∧ c ≤ '9' then (.number, rest.dropWhile isdigit)
    else (.absent, c :: rest)
  | [] => (.absent, [])

/-- The precision. -/
def readPrecision : Text → Field × Text
  | '.' :: rest =>
    match rest with
    | '*' :: rest => (.star, rest)
    | rest => (.number, rest.dropWhile isdigit)
  | rest => (.absent, rest)

/-- The combinations that are undefined. -/
def isUndefined (flags : Flags) (width precision : Field) (genSpec : Char) : Bool :=
  match genSpec with
  | 'c' | 's' | 'C' | 'S' => flags.hash || flags.zero
  | 'd' | 'i' => flags.hash
  | 'm' => flags.hash || flags.zero || flags.flags
  | 'n' => flags.hash || flags.zero || precision ≠ .absent || width ≠ .absent || flags.flags
  | _ => false

/-- The specifier of printf without the test for undefined combinations. -/
def readSpecifier (useGNUExts : Bool) : Text → Option (Format × Char × Text)
  | 'm' :: rest =>
    if useGNUExts then some (.GNU_m, 'm', rest) else parseGenericFormatSpecifier ('m' :: rest)
  | rest => parseGenericFormatSpecifier rest

/-- The specifier of printf behind the precision. -/
def parsePrintfConversion (useGNUExts : Bool) (flags : Flags) (width precision : Field)
    (rest : Text) : Option PrintfSpecifier :=
  (readSpecifier useGNUExts rest).map fun found =>
    if found.1 = .error ∨ isUndefined flags width precision found.2.1 then
      ⟨.error, width = .star, precision = .star, found.2.2⟩
    else ⟨found.1, width = .star, precision = .star, found.2.2⟩

/-- The precision and the specifier of printf. -/
def parsePrintfPrecision (useGNUExts : Bool) (flags : Flags) (width : Field) (rest : Text) :
    Option PrintfSpecifier :=
  match readPrecision rest with
  | (precision, []) => some ⟨.error, width = .star, precision = .star, []⟩
  | (precision, rest) => parsePrintfConversion useGNUExts flags width precision rest

/-- The field width, the precision and the specifier of printf. -/
def parsePrintfWidth (useGNUExts : Bool) (flags : Flags) (rest : Text) :
    Option PrintfSpecifier :=
  match readWidth rest with
  | (width, []) => some ⟨.error, width = .star, false, []⟩
  | (width, rest) => parsePrintfPrecision useGNUExts flags width rest

/-- The specifier of printf from the flags on. -/
def parsePrintfFlags (useGNUExts : Bool) (rest : Text) : Option PrintfSpecifier :=
  match readFlags ⟨false, false, false⟩ rest with
  | (_, []) => some ⟨.error, false, false, []⟩
  | (flags, rest) => parsePrintfWidth useGNUExts flags rest

/-- The specifier of printf behind the percent sign. -/
def parsePrintfBehind (useGNUExts : Bool) : Text → Option PrintfSpecifier
  | [] => some ⟨.error, false, false, []⟩
  | '%' :: rest => some ⟨.percent, false, false, rest⟩
  | rest => parsePrintfFlags useGNUExts rest

/-- `parsePrintfFormatSpecifier`. -/
def parsePrintfFormatSpecifier (useGNUExts : Bool) : Text → Option PrintfSpecifier
  | '%' :: rest => parsePrintfBehind useGNUExts rest
  | _ => none

end LaserD.Chkformat
