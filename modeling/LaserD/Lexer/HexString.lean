/-
This file models how a hex string is printed and how it is lexed.

The printer writes the units of the string one after the other, each as the hexadecimal number that
it is, filled up with zeros to as many digits as the unit has bytes. The lexer takes the digits in
pairs, whatever unit they come from. So a unit is read back as it was only when it is printed with
twice as many digits as it has bytes, that is, when its first digit is not zero.
-/

import LaserD.Root.Utf

namespace LaserD.Lexer

/-- A byte of a text. -/
abbrev Byte := BitVec 8

/-- The byte of a character. -/
def byte (c : Char) : Byte :=
  .ofNat 8 c.toNat

/-! ### Decoding -/

/-- `isBidiControl`. -/
def isBidiControl (c : BitVec 32) : Bool :=
  c = 0x061C || c = 0x200E || c = 0x200F || (0x202A ≤ c && c ≤ 0x202E) ||
    (0x2066 ≤ c && c ≤ 0x2069)

/-- `LS`. -/
def LS : BitVec 32 := 0x2028

/-- `PS`. -/
def PS : BitVec 32 := 0x2029

/-- The bytes up to the end of the text, three at most. -/
def untilZero : Nat → List Byte → List Byte
  | len + 1, b :: rest => if b = 0 then [] else b :: untilZero len rest
  | _, _ => []

/-- `decodeUTF` at a byte and the rest of the text: the text of the error if there is one, the code
point, and the text after it. -/
def decodeUTF (b : Byte) (rest : List Byte) : Option String × BitVec 32 × List Byte :=
  match Root.Utf.utfDecodeChar (b :: untilZero 3 rest) 0 with
  | none => (none, 0, rest)
  | some decoded =>
    (match decoded.error with
      | some msg => some msg
      | none =>
        if isBidiControl decoded.rresult then
          some "Bidirectional control characters are disallowed for security reasons."
        else none,
      decoded.rresult, rest.drop (decoded.ridx - 1))

theorem length_decodeUTF_le (b : Byte) (rest : List Byte) :
    (decodeUTF b rest).2.2.length ≤ rest.length := by
  unfold decodeUTF
  split
  · exact le_rfl
  · rw [List.length_drop]
    exact Nat.sub_le _ _

/-! ### The lexer -/

/-- The errors of a hex string. -/
inductive HexError
  | unterminated
  | odd (n : Nat)
  | nonHexCharacter (c : Byte)
  | nonHexCodePoint (u : BitVec 32)
  | utf (msg : String)

/-- What the lexing of a hex string leaves: the bytes of the token, its postfix, the errors, the
number of lines that have ended, and the text after the token. -/
structure HexToken where
  ustring : List Byte
  postfix_ : Option Byte
  errors : List HexError
  lines : Nat
  rest : List Byte

/-- `setString`: the length of a token is a `uint`. -/
def setString (buffer : List Byte) : List Byte :=
  buffer.take (buffer.length % 2 ^ 32)

/-- `stringPostfix`: the postfix and the text after it. -/
def stringPostfix : List Byte → Option Byte × List Byte
  | b :: rest =>
    if b = byte 'c' || b = byte 'w' || b = byte 'd' then (some b, rest) else (none, b :: rest)
  | [] => (none, [])

/-- The value of a digit; any other byte stands for itself. -/
def digitValue (c : Byte) : BitVec 32 :=
  if byte '0' ≤ c ∧ c ≤ byte '9' then (c - byte '0').setWidth 32
  else if byte 'a' ≤ c ∧ c ≤ byte 'f' then (c - byte 'a').setWidth 32 + 10
  else if byte 'A' ≤ c ∧ c ≤ byte 'F' then (c - byte 'A').setWidth 32 + 10
  else c.setWidth 32

/-- A hexadecimal digit. -/
def isHexDigit (c : Byte) : Bool :=
  (byte '0' ≤ c && c ≤ byte '9') || (byte 'a' ≤ c && c ≤ byte 'f') ||
    (byte 'A' ≤ c && c ≤ byte 'F')

/-- What has been read of a hex string: the number of digits, the pair that is being read, the
bytes, the errors and the lines. -/
structure HexState where
  n : Nat
  v : BitVec 32
  stringbuffer : List Byte
  errors : List HexError
  lines : Nat

/-- A digit is read. -/
def HexState.digit (state : HexState) (c : BitVec 32) : HexState :=
  if state.n % 2 = 1 then
    let v := (state.v <<< 4) ||| c
    { state with n := state.n + 1, v := v, stringbuffer := state.stringbuffer ++ [v.setWidth 8] }
  else { state with n := state.n + 1, v := c }

def HexState.error (state : HexState) (e : HexError) : HexState :=
  { state with errors := state.errors ++ [e] }

def HexState.endOfLine (state : HexState) : HexState :=
  { state with lines := state.lines + 1 }

/-- The loop of `hexStringConstant`. -/
def hexLoop (state : HexState) (text : List Byte) : HexToken :=
  match text with
  | [] => ⟨[], none, state.errors ++ [.unterminated], state.lines, []⟩
  | c :: rest =>
    if c = byte ' ' || c = byte '\t' || c = 11 || c = 12 then hexLoop state rest
    else if c = byte '\r' then
      if rest.head? = some (byte '\n') then hexLoop state rest
      else hexLoop state.endOfLine rest
    else if c = byte '\n' then hexLoop state.endOfLine rest
    else if c = 0 || c = 0x1A then
      ⟨[], none, state.errors ++ [.unterminated], state.lines, c :: rest⟩
    else if c = byte '"' then
      let closed := if state.n % 2 = 1 then
          { state.error (.odd (state.n % 2 ^ 32)) with
            stringbuffer := state.stringbuffer ++ [state.v.setWidth 8] }
        else state
      ⟨setString closed.stringbuffer, (stringPostfix rest).1, closed.errors, closed.lines,
        (stringPostfix rest).2⟩
    else if isHexDigit c then hexLoop (state.digit (digitValue c)) rest
    else if 0x80 ≤ c then
      let u := (decodeUTF c rest).2.1
      let state := match (decodeUTF c rest).1 with
        | some msg => state.error (.utf msg)
        | none => state
      let state := if u = PS || u = LS then state.endOfLine else state.error (.nonHexCodePoint u)
      hexLoop (state.digit (digitValue c)) (decodeUTF c rest).2.2
    else hexLoop ((state.error (.nonHexCharacter c)).digit (digitValue c)) rest
termination_by text.length
decreasing_by
  all_goals
    have shorter := length_decodeUTF_le c rest
    rw [List.length_cons]
    omega

/-- `hexStringConstant`, on the text from the opening quote on. -/
def hexStringConstant (text : List Byte) : HexToken :=
  hexLoop ⟨0, BitVec.allOnes 32, [], [], 0⟩ (text.drop 1)

/-! ### The printer -/

/-- What `printf` writes for `%0*llX`: the digits of a number, filled up with zeros on the left. -/
def printHex (width value : Nat) : List Byte :=
  (List.leftpad width '0' ((Nat.toDigits 16 value).map Char.toUpper)).map byte

/-- A string whose text is printed in hexadecimal digits: the size of a unit, the units, and the
postfix. -/
structure HexStringExp where
  sz : Nat
  size : sz = 1 ∨ sz = 2 ∨ sz = 4 ∨ sz = 8
  units : List Nat
  inRange : ∀ u ∈ units, u < 2 ^ (8 * sz)
  postfix_ : Option Byte
  known : ∀ b, postfix_ = some b → b = byte 'c' ∨ b = byte 'w' ∨ b = byte 'd'

/-- `visitString` on a hex string: the letter, the units between quotes, and the postfix. -/
def HexStringExp.visitString (e : HexStringExp) : List Byte :=
  byte 'x' :: byte '"' :: (e.units.flatMap (printHex e.sz) ++ byte '"' :: e.postfix_.toList)

/-- The bytes of a unit, the highest first. -/
def bigEndian : Nat → Nat → List Byte
  | 0, _ => []
  | sz + 1, u => bigEndian sz (u / 256) ++ [.ofNat 8 (u % 256)]

/-- The bytes of the string. -/
def HexStringExp.bytes (e : HexStringExp) : List Byte :=
  e.units.flatMap (bigEndian e.sz)

end LaserD.Lexer
