/-
This file models how a number is lexed.

The digits are gathered in 64 bits. As long as no multiplication can overflow nothing is checked;
from then on a flag is set at the first overflow and stays set. Letters and dots may turn the number
into a floating point literal, for which the lexing starts again at its first digit. In C the
suffixes are read elsewhere; in D they are `u`, `U` and `L`.
-/

import LaserD.Lexer.CNumber

namespace LaserD.Lexer

/-- The errors of a number. -/
inductive NumberError
  | embeddedUnderscore
  | digitExpected (base : Nat) (errorDigit : Byte)
  | integerOverflow
  | notValid (literal leading : List Byte)
  | lowerCaseSuffix
  | repeatedSuffix (c : Byte)
  | octal
  | octalLiteral (n : Nat) (suffix : List Byte)
  | signedIntegerOverflow
  | suffix (error : CNumber.SuffixError)
  deriving DecidableEq

/-- What the lexing of an integer leaves: its value, its token, where nothing means that an
assertion is reached, the errors, and the text after it. -/
structure Number where
  unsvalue : BitVec 64
  result : Option IntegerTok
  errors : List NumberError
  rest : List Byte
  deriving DecidableEq

/-- `isAlphaASCII`. -/
def isAlphaASCII (c : Byte) : Bool :=
  (byte 'a' ≤ c && c ≤ byte 'z') || (byte 'A' ≤ c && c ≤ byte 'Z')

/-- A byte after a dot that begins the name of a member. -/
def startsMember (c : Byte) : Bool :=
  isAlphaASCII c || c = byte '_' || 0x80 ≤ c

/-! ### Digits -/

/-- `mulu`: the product, and whether it overflows. -/
def mulu (x y : BitVec 64) : BitVec 64 × Bool :=
  (x * y, decide (2 ^ 64 ≤ x.toNat * y.toNat))

/-- `addu`: the sum, and whether it overflows. -/
def addu (x y : BitVec 64) : BitVec 64 × Bool :=
  (x + y, decide (x + y < x))

/-- What has been read of the digits: the value, whether it has overflowed, the first digit that is
not one of the base, and whether there are digits. -/
structure Digits where
  n : BitVec 64
  overflow : Bool
  errorDigit : Option Byte
  anyDigits : Bool

/-- No digits have been read. -/
def Digits.start (errorDigit : Option Byte) : Digits where
  n := 0
  overflow := false
  errorDigit := errorDigit
  anyDigits := false

/-- A digit is read. -/
def Digits.digit (s : Digits) (base : Nat) (c : Byte) (d : Nat) : Digits :=
  let errorDigit := if s.errorDigit.isNone ∧ d ≥ base then some c else s.errorDigit
  if s.n ≤ 0x0FFFFFFFFFFFFFFF then ⟨s.n * .ofNat 64 base + .ofNat 64 d, s.overflow, errorDigit, true⟩
  else
    let product := mulu s.n (.ofNat 64 base)
    let sum := addu product.1 (.ofNat 64 d)
    ⟨sum.1, s.overflow || product.2 || sum.2, errorDigit, true⟩

/-- The loop over the digits, where nothing means that the number is a floating point literal. -/
def digitsLoop (Ccompile : Bool) (base : Nat) (s : Digits) : List Byte → Option (Digits × List Byte)
  | [] => some (s, [])
  | c :: rest =>
    let next := peek rest 0
    if isHexDigit c then
      if base ≠ 16 ∧ (c = byte 'e' ∨ c = byte 'E' ∨ c = byte 'f' ∨ c = byte 'F') then none
      else digitsLoop Ccompile base (s.digit base c (digitValue c).toNat) rest
    else if c = byte 'L' then if next = byte 'i' then none else some (s, c :: rest)
    else if c = byte '.' then
      if next = byte '.' then some (s, c :: rest)
      else if base ≤ 10 ∧ s.n > 0 ∧ startsMember next then
        if Ccompile ∧ base = 10 ∧ (next = byte 'e' ∨ next = byte 'E' ∨ next = byte 'f' ∨
            next = byte 'F' ∨ next = byte 'l' ∨ next = byte 'L') then none
        else some (s, c :: rest)
      else if base = 16 ∧ (¬isHexDigit next ∨ next = byte '_' ∨ 0x80 ≤ next) then some (s, c :: rest)
      else if base = 2 then some (s, c :: rest)
      else none
    else if c = byte 'i' then if Ccompile then some (s, c :: rest) else none
    else if c = byte 'p' ∨ c = byte 'P' then none
    else if c = byte '_' then
      if Ccompile then some (s, c :: rest) else digitsLoop Ccompile base s rest
    else some (s, c :: rest)

/-! ### The base -/

/-- What the first bytes of a number say. -/
inductive Start
  | real
  | done (rest : List Byte)
  | digits (base : Nat) (errorDigit : Option Byte) (errors : List NumberError) (rest : List Byte)

/-- The switch over the byte after a zero. -/
def start (Ccompile : Bool) (text : List Byte) : Start :=
  if peek text 0 = byte '0' then
    let rest := text.drop 1
    let c := peek rest 0
    let next := peek rest 1
    if byte '0' ≤ c ∧ c ≤ byte '7' then .digits 8 none [] rest
    else if c = byte '8' ∨ c = byte '9' then .digits 8 (some c) [] rest
    else if c = byte 'x' ∨ c = byte 'X' then .digits 16 none [] (rest.drop 1)
    else if c = byte 'b' ∨ c = byte 'B' then .digits 2 none [] (rest.drop 1)
    else if c = byte '.' then
      if next = byte '.' then .done rest
      else if startsMember next then
        if Ccompile ∧ (next = byte 'f' ∨ next = byte 'F' ∨ next = byte 'l' ∨ next = byte 'L') then
          .real
        else .done rest
      else .real
    else if c = byte 'i' ∨ c = byte 'f' ∨ c = byte 'F' then .real
    else if c = byte '_' then
      .digits 8 none (if Ccompile then [.embeddedUnderscore] else []) (rest.drop 1)
    else if c = byte 'L' ∧ next = byte 'i' then .real
    else .digits 10 none [] rest
  else .digits 10 none [] text

/-! ### The suffix -/

/-- `FLAGS`. -/
abbrev NumberFlags := Nat

namespace NumberFlags

def none : NumberFlags := 0
def decimal : NumberFlags := 1
def unsigned : NumberFlags := 2
def long_ : NumberFlags := 4

end NumberFlags

/-- The flags of the base. -/
def baseNumberFlags (base : Nat) : NumberFlags :=
  if base = 10 then NumberFlags.decimal else NumberFlags.none

/-- The flag of a byte of the suffix, and the errors for the byte. -/
def suffixFlag (c : Byte) : Option (NumberFlags × List NumberError) :=
  if c = byte 'U' ∨ c = byte 'u' then some (NumberFlags.unsigned, [])
  else if c = byte 'l' then some (NumberFlags.long_, [.lowerCaseSuffix])
  else if c = byte 'L' then some (NumberFlags.long_, [])
  else none

/-- The loop over the suffix: the flags, whether an error was reported, the errors, and the text
after the suffix. -/
def suffixLoop (flags : NumberFlags) (err : Bool) (errors : List NumberError) :
    List Byte → NumberFlags × Bool × List NumberError × List Byte
  | [] => (flags, err, errors, [])
  | c :: rest =>
    match suffixFlag c with
    | none => (flags, err, errors, c :: rest)
    | some (f, bad) =>
      let repeated := decide (flags &&& f ≠ 0) && !err
      suffixLoop (flags ||| f) (err || repeated)
        (errors ++ bad ++ if repeated then [.repeatedSuffix c] else []) rest

/-- The switch over the flags: the token, and the errors. -/
def numberResult (flags : NumberFlags) (err : Bool) (n : BitVec 64) :
    Option IntegerTok × List NumberError :=
  if flags = NumberFlags.none then
    if n &&& 0x8000000000000000 ≠ 0 then (some .uns64Literal, [])
    else if n &&& 0xFFFFFFFF00000000 ≠ 0 then (some .int64Literal, [])
    else if n &&& 0x80000000 ≠ 0 then (some .uns32Literal, [])
    else (some .int32Literal, [])
  else if flags = NumberFlags.decimal then
    if n &&& 0x8000000000000000 ≠ 0 then (some .uns64Literal, [])
    else if n &&& 0xFFFFFFFF80000000 ≠ 0 then (some .int64Literal, [])
    else (some .int32Literal, [])
  else if flags = NumberFlags.unsigned ∨ flags = NumberFlags.decimal ||| NumberFlags.unsigned then
    if n &&& 0xFFFFFFFF00000000 ≠ 0 then (some .uns64Literal, []) else (some .uns32Literal, [])
  else if flags = NumberFlags.decimal ||| NumberFlags.long_ then
    if n &&& 0x8000000000000000 ≠ 0 then
      (some .uns64Literal, if err then [] else [.signedIntegerOverflow])
    else (some .int64Literal, [])
  else if flags = NumberFlags.long_ then
    if n &&& 0x8000000000000000 ≠ 0 then (some .uns64Literal, []) else (some .int64Literal, [])
  else if flags = NumberFlags.unsigned ||| NumberFlags.long_ ∨
      flags = NumberFlags.decimal ||| NumberFlags.unsigned ||| NumberFlags.long_ then
    (some .uns64Literal, [])
  else (none, [])

/-! ### The number -/

/-- The part after `Ldone`: the errors of the digits, the suffix and the token. -/
def finish (Ccompile : Bool) (longsize long_longsize base : Nat) (s : Digits)
    (errors : List NumberError) (text rest : List Byte) : Number :=
  let errors := errors ++ match s.errorDigit with
    | some c => [.digitExpected base c]
    | none => []
  let overflows := s.overflow && s.errorDigit.isNone
  let errors := errors ++ if overflows then [.integerOverflow] else []
  let err := s.errorDigit.isSome || overflows
  let errors := errors ++ if (base = 2 ∨ base = 16) ∧ s.anyDigits = false then
      [.notValid (text.take (text.length - rest.length)) (text.take 2)] else []
  if Ccompile then
    let (result, error, rest) := CNumber.cnumber longsize long_longsize base s.n rest
    ⟨s.n, result, errors ++ (error.map NumberError.suffix).toList, rest⟩
  else
    let (flags, err, errors, rest') := suffixLoop (baseNumberFlags base) err errors rest
    let errors := errors ++ if base = 8 ∧ s.n ≥ 8 then
        if err then [.octal]
        else [.octalLiteral s.n.toNat (rest.take (rest.length - rest'.length))]
      else []
    let (result, more) := numberResult flags err s.n
    ⟨s.n, result, errors ++ more, rest'⟩

/-- `number`, where nothing means that `inreal` reads a floating point literal. -/
def number (Ccompile : Bool) (longsize long_longsize : Nat) (text : List Byte) : Option Number :=
  match start Ccompile text with
  | .real => none
  | .done rest => some (finish Ccompile longsize long_longsize 10 (.start none) [] text rest)
  | .digits base errorDigit errors rest =>
    (digitsLoop Ccompile base (.start errorDigit) rest).map fun (s, rest) =>
      finish Ccompile longsize long_longsize base s errors text rest

end LaserD.Lexer
