/-
This file models how strings and characters are printed between quotes, and how the lexer reads
them.

The printer writes escape sequences for what is not printable, by a letter or by two, four or eight
hexadecimal digits. A string literal is printed unit by unit, and a token code point by code point.
The lexer reads the escape sequences of D, and those of C where it compiles C; a text ends with
zeros. The table of the named entities is a parameter, and the segments of interpolated strings
are left out.
-/

import LaserD.Lexer.Number

namespace LaserD.Lexer

/-! ### Printing -/

/-- `isprint`. -/
def isprint (c : BitVec 32) : Bool :=
  0x20 ≤ c && c ≤ 0x7E

/-- What `printf` writes for `%0*x`. -/
def printLowerHex (width value : Nat) : List Byte :=
  (List.leftpad width '0' (Nat.toDigits 16 value)).map byte

/-- `writeCharLiteral`. -/
def writeCharLiteral (c : BitVec 32) : List Byte :=
  if c = 0 then [byte '\\', byte '0']
  else if c = 10 then [byte '\\', byte 'n']
  else if c = 13 then [byte '\\', byte 'r']
  else if c = 9 then [byte '\\', byte 't']
  else if c = 8 then [byte '\\', byte 'b']
  else if c = 12 then [byte '\\', byte 'f']
  else if c = 0x22 || c = 0x5C then [byte '\\', c.setWidth 8]
  else if c ≤ 0xFF then
    if isprint c then [c.setWidth 8] else byte '\\' :: byte 'x' :: printLowerHex 2 c.toNat
  else if c ≤ 0xFFFF then byte '\\' :: byte 'u' :: printLowerHex 4 c.toNat
  else byte '\\' :: byte 'U' :: printLowerHex 8 c.toNat

/-- `writeSingleCharLiteral`. -/
def writeSingleCharLiteral (c : BitVec 32) : List Byte :=
  byte '\'' :: ((if c = 0x27 then [byte '\\'] else []) ++
    (if c = 0x22 then [byte '"'] else writeCharLiteral c) ++ [byte '\''])

/-- `visitString` on a string of chars that is not a hex string. -/
def visitString (units : List Byte) (postfix_ : Option Byte) : List Byte :=
  byte '"' :: (units.flatMap (fun u => writeCharLiteral (u.setWidth 32)) ++
    byte '"' :: postfix_.toList)

/-- The code points that the loop of `toString` takes a string for, from an index on. -/
def codePoints (ustring : List Byte) : Nat → Nat → Option (List (BitVec 32))
  | 0, i => if i < ustring.length then none else some []
  | fuel + 1, i =>
    if i < ustring.length then do
      let decoded ← Root.Utf.utfDecodeChar ustring i
      let rest ← codePoints ustring fuel decoded.ridx
      some (decoded.rresult :: rest)
    else some []

/-- `toString` of a token that is a string. -/
def tokenToString (ustring : List Byte) (postfix_ : Option Byte) : Option (List Byte) :=
  (codePoints ustring ustring.length 0).map fun cs =>
    byte '"' :: (cs.flatMap writeCharLiteral ++ byte '"' :: postfix_.toList)

/-! ### Escape sequences -/

/-- `isoctal`. -/
def isoctal (c : Byte) : Bool :=
  byte '0' ≤ c && c ≤ byte '7'

def isdigit (c : Byte) : Bool :=
  byte '0' ≤ c && c ≤ byte '9'

/-- The errors of an escape sequence. -/
inductive EscapeError
  | hexDigits (n ndigits : Nat)
  | invalidCodePoint (v : BitVec 32)
  | undefinedHex (letter c : Byte)
  | unnamedEntity (name : List Byte)
  | unterminatedEntity (name : List Byte)
  | octal (c : BitVec 32)
  | undefined (c : Byte)
  deriving DecidableEq

/-- `dchar.init`. -/
def dcharInit : BitVec 32 := 0xFFFF

/-- What `escapeSequence` leaves: the character, a second one of a named entity, the errors, and the
text after the sequence. -/
structure Escape where
  c : BitVec 32
  c2 : BitVec 32 := dcharInit
  errors : List EscapeError := []
  rest : List Byte
  deriving DecidableEq

/-- The hexadecimal digits of an escape sequence of D, from a digit on, after `n` others. -/
def readHex (ndigits : Nat) : Nat → BitVec 32 → List Byte →
    BitVec 32 × List EscapeError × List Byte
  | n, v, c :: rest =>
    let v := v * 16 + digitValue c
    if n + 1 = ndigits then (v, [], rest)
    else if isHexDigit (rest.headD 0) then readHex ndigits (n + 1) v rest
    else (v, [.hexDigits (n + 1) ndigits], rest)
  | _, v, [] => (v, [], [])

/-- The hexadecimal digits of an escape sequence of C, from a digit on. -/
def readHexC : BitVec 32 → List Byte → BitVec 32 × List Byte
  | v, c :: rest =>
    let v := v * 16 + digitValue c
    if isHexDigit (rest.headD 0) then readHexC v rest else (v, rest)
  | v, [] => (v, [])

/-- An escape sequence behind the letter that says how many hexadecimal digits it has. -/
def escapeHex (Ccompile : Bool) (letter : Byte) (ndigits : Nat) (text : List Byte) : Escape :=
  if isHexDigit (text.headD 0) then
    if Ccompile && ndigits = 2 then
      let read := readHexC 0 text
      { c := read.1, rest := read.2 }
    else
      let read := readHex ndigits 0 0 text
      if ndigits ≠ 2 && !Root.Utf.utfIsValidDchar read.1 then
        { c := 0x3F, errors := read.2.1 ++ [.invalidCodePoint read.1], rest := read.2.2 }
      else { c := read.1, errors := read.2.1, rest := read.2.2 }
  else
    { c := (text.headD 0).setWidth 32, errors := [.undefinedHex letter (text.headD 0)],
      rest := text.drop 1 }

/-- The name of an entity and the text after it. A name does not begin with a digit. -/
def entityName : Bool → List Byte → List Byte × List Byte
  | start, c :: rest =>
    if isAlphaASCII c || (!start && isdigit c) then
      (c :: (entityName false rest).1, (entityName false rest).2)
    else ([], c :: rest)
  | _, [] => ([], [])

/-- A named entity behind the `&`. -/
def escapeEntity (HtmlNamedEntity : List Byte → BitVec 32 × BitVec 32) (text : List Byte) :
    Escape :=
  let name := (entityName true text).1
  let left := (entityName true text).2
  if left.headD 0 = byte ';' then
    let entity := HtmlNamedEntity name
    if entity = (0, 0) then
      { c := 0x3F, errors := [.unnamedEntity name], rest := left.drop 1 }
    else
      { c := entity.1, c2 := if entity.2 ≠ 0 then entity.2 else dcharInit, rest := left.drop 1 }
  else
    { c := 0x3F, errors := [.unterminatedEntity (name ++ [left.headD 0])], rest := left }

/-- The octal digits of an escape sequence, from a digit on, as many as are left at most. -/
def readOctal : Nat → BitVec 32 → List Byte → BitVec 32 × List Byte
  | left + 1, v, c :: rest =>
    let v := v * 8 + (c - byte '0').setWidth 32
    if left ≠ 0 && isoctal (rest.headD 0) then readOctal left v rest else (v, rest)
  | _, v, rest => (v, rest)

/-- The character that a single character stands for behind a backslash. -/
def letterEscape (c : Byte) : Option (BitVec 32) :=
  if c = byte '\'' || c = byte '"' || c = byte '?' || c = byte '\\' then some (c.setWidth 32)
  else if c = byte 'a' then some 7
  else if c = byte 'b' then some 8
  else if c = byte 'f' then some 12
  else if c = byte 'n' then some 10
  else if c = byte 'r' then some 13
  else if c = byte 't' then some 9
  else if c = byte 'v' then some 11
  else none

/-- `escapeSequence`, on the text behind the backslash. -/
def escapeSequence (Ccompile : Bool) (HtmlNamedEntity : List Byte → BitVec 32 × BitVec 32) :
    List Byte → Escape
  | [] => { c := 0x5C, rest := [] }
  | c :: rest =>
    match letterEscape c with
    | some value => { c := value, rest := rest }
    | none =>
      if c = byte 'u' then escapeHex Ccompile c 4 rest
      else if c = byte 'U' then escapeHex Ccompile c 8 rest
      else if c = byte 'x' then escapeHex Ccompile c 2 rest
      else if c = byte '&' && !Ccompile then escapeEntity HtmlNamedEntity rest
      else if c = 0 || c = 0x1A then { c := 0x5C, rest := c :: rest }
      else if isoctal c then
        let read := readOctal 3 0 (c :: rest)
        { c := read.1, errors := if 0xFF < read.1 then [.octal read.1] else [], rest := read.2 }
      else { c := c.setWidth 32, errors := [.undefined c], rest := rest }

/-! ### How much an escape sequence reads -/

theorem length_readHex_le (ndigits n : Nat) (v : BitVec 32) (text : List Byte) :
    (readHex ndigits n v text).2.2.length ≤ text.length := by
  induction text generalizing n v with
  | nil => rw [readHex]
  | cons c rest inductionHypothesis =>
    have left := inductionHypothesis (n + 1) (v * 16 + digitValue c)
    rw [readHex, List.length_cons]
    split_ifs
    · exact Nat.le_succ _
    · exact left.trans (Nat.le_succ _)
    · exact Nat.le_succ _

theorem length_readHexC_le (v : BitVec 32) (text : List Byte) :
    (readHexC v text).2.length ≤ text.length := by
  induction text generalizing v with
  | nil => rw [readHexC]
  | cons c rest inductionHypothesis =>
    have left := inductionHypothesis (v * 16 + digitValue c)
    rw [readHexC, List.length_cons]
    split_ifs
    · exact left.trans (Nat.le_succ _)
    · exact Nat.le_succ _

theorem length_escapeHex_le (Ccompile : Bool) (letter : Byte) (ndigits : Nat) (text : List Byte) :
    (escapeHex Ccompile letter ndigits text).rest.length ≤ text.length := by
  rw [escapeHex]
  dsimp only
  split_ifs
  · exact length_readHexC_le 0 text
  · exact length_readHex_le ndigits 0 0 text
  · exact length_readHex_le ndigits 0 0 text
  · exact (List.length_drop).trans_le (Nat.sub_le _ _)

theorem length_entityName_le (start : Bool) (text : List Byte) :
    (entityName start text).2.length ≤ text.length := by
  induction text generalizing start with
  | nil => rw [entityName]
  | cons c rest inductionHypothesis =>
    have left := inductionHypothesis false
    rw [entityName, List.length_cons]
    split_ifs <;> dsimp only [List.length_cons] <;> omega

theorem length_escapeEntity_le (HtmlNamedEntity : List Byte → BitVec 32 × BitVec 32)
    (text : List Byte) : (escapeEntity HtmlNamedEntity text).rest.length ≤ text.length := by
  have name := length_entityName_le true text
  have dropped : ((entityName true text).2.drop 1).length ≤ (entityName true text).2.length :=
    (List.length_drop).trans_le (Nat.sub_le _ _)
  rw [escapeEntity]
  dsimp only
  split
  · split
    · exact dropped.trans name
    · exact dropped.trans name
  · exact name

theorem length_readOctal_le (left : Nat) (v : BitVec 32) (text : List Byte) :
    (readOctal left v text).2.length ≤ text.length := by
  induction left generalizing v text with
  | zero => exact le_rfl
  | succ left inductionHypothesis =>
    cases text with
    | nil => exact le_rfl
    | cons c rest =>
      have shorter := inductionHypothesis (v * 8 + (c - byte '0').setWidth 32) rest
      rw [readOctal, List.length_cons]
      split_ifs
      · exact shorter.trans (Nat.le_succ _)
      · exact Nat.le_succ _

theorem length_escapeSequence_le (Ccompile : Bool)
    (HtmlNamedEntity : List Byte → BitVec 32 × BitVec 32) (text : List Byte) :
    (escapeSequence Ccompile HtmlNamedEntity text).rest.length ≤ text.length := by
  cases text with
  | nil => exact le_rfl
  | cons c rest =>
    have hex := fun ndigits => length_escapeHex_le Ccompile c ndigits rest
    have entity := length_escapeEntity_le HtmlNamedEntity rest
    have octal := length_readOctal_le 3 0 (c :: rest)
    rw [escapeSequence, List.length_cons]
    split
    · exact Nat.le_succ _
    · split_ifs
      · exact (hex 4).trans (Nat.le_succ _)
      · exact (hex 8).trans (Nat.le_succ _)
      · exact (hex 2).trans (Nat.le_succ _)
      · exact entity.trans (Nat.le_succ _)
      · exact le_rfl
      · exact octal
      · exact Nat.le_succ _

/-! ### String literals -/

/-- The errors of a string or of a character. -/
inductive QuotedError
  | escape (e : EscapeError)
  | utf (msg : String)
  | unterminatedString
  | twoCodeUnits
  | unterminatedCharacter
  | multipleCharacters (text : List Byte)
  deriving DecidableEq

/-- What the lexing of a string leaves: the bytes of the token, its postfix, the errors, the number
of lines that have ended, and the text after the token. -/
structure StringToken where
  ustring : List Byte
  postfix_ : Option Byte
  errors : List QuotedError
  lines : Nat
  rest : List Byte
  deriving DecidableEq

/-- What has been read of a string: the bytes, the errors and the lines. -/
structure StringState where
  stringbuffer : List Byte := []
  errors : List QuotedError := []
  lines : Nat := 0

namespace StringState

def write (state : StringState) (units : List Byte) : StringState :=
  { state with stringbuffer := state.stringbuffer ++ units }

def report (state : StringState) (es : List QuotedError) : StringState :=
  { state with errors := state.errors ++ es }

def endOfLine (state : StringState) : StringState :=
  { state with lines := state.lines + 1 }

/-- The end of the text is reached, or in C the end of a line. -/
def unterminated (state : StringState) (rest : List Byte) : StringToken :=
  ⟨[], none, state.errors ++ [.unterminatedString], state.lines, rest⟩

/-- The closing quote has been read. C has no postfix. -/
def close (state : StringState) (Ccompile : Bool) (rest : List Byte) : StringToken :=
  if Ccompile then ⟨setString state.stringbuffer, none, state.errors, state.lines, rest⟩
  else
    ⟨setString state.stringbuffer, (stringPostfix rest).1, state.errors, state.lines,
      (stringPostfix rest).2⟩

end StringState

/-- The bytes that `writeUTF8` appends. The assertion fails above the code space. -/
def writeUTF8 (c : BitVec 32) : Option (List Byte) :=
  (Root.Utf.OutBuffer.writeUTF8 ⟨[], 0, le_rfl⟩ c fun _ => 0).map Root.Utf.OutBuffer.written

/-- The bytes that are written for an escape sequence behind a letter: in UTF-8 for a code point
and for an entity, and one byte for any other. -/
def Escape.bytes (escape : Escape) (Ccompile : Bool) (letter : Byte) : Option (List Byte) :=
  if letter = byte '&' && !Ccompile then do
    let first ← writeUTF8 escape.c
    if escape.c2 ≠ dcharInit then
      let second ← writeUTF8 escape.c2
      some (first ++ second)
    else some first
  else if letter = byte 'u' || letter = byte 'U' then writeUTF8 escape.c
  else some [escape.c.setWidth 8]

/-- The errors of an escape sequence. -/
def Escape.reports (escape : Escape) : List QuotedError :=
  escape.errors.map .escape

/-- The error of `decodeUTF`. -/
def utfReports (msg : Option String) : List QuotedError :=
  msg.toList.map .utf

section

variable (Ccompile : Bool) (HtmlNamedEntity : List Byte → BitVec 32 × BitVec 32)

/-- The loop of `escapeStringConstant` behind the opening quote `tc`. -/
def quotedLoop (tc : Byte) (state : StringState) (text : List Byte) : Option StringToken :=
  match text with
  | [] => some (state.unterminated [])
  | c :: rest =>
    if c = byte '\\' then do
      let escape := escapeSequence Ccompile HtmlNamedEntity rest
      let units ← escape.bytes Ccompile (rest.headD 0)
      quotedLoop tc ((state.report escape.reports).write units)
        (escapeSequence Ccompile HtmlNamedEntity rest).rest
    else if c = byte '\n' then
      if Ccompile then some (state.endOfLine.unterminated rest)
      else quotedLoop tc (state.endOfLine.write [c]) rest
    else if c = byte '\r' then
      if rest.headD 0 = byte '\n' then quotedLoop tc state rest
      else if Ccompile then some (state.endOfLine.unterminated rest)
      else quotedLoop tc (state.endOfLine.write [byte '\n']) rest
    else if (c = byte '\'' || c = byte '"') && c = tc then some (state.close Ccompile rest)
    else if c = 0 || c = 0x1A then some (state.unterminated (c :: rest))
    else if 0x80 ≤ c then
      let u := (decodeUTF c rest).2.1
      let state := state.report (utfReports (decodeUTF c rest).1)
      if u = LS || u = PS then
        if Ccompile then some (state.endOfLine.unterminated (decodeUTF c rest).2.2)
        else
          quotedLoop tc (state.endOfLine.write [byte '\n'])
            (decodeUTF c rest).2.2
      else do
        let units ← writeUTF8 u
        quotedLoop tc (state.write units) (decodeUTF c rest).2.2
    else quotedLoop tc (state.write [c]) rest
termination_by text.length
decreasing_by
  all_goals
    first
      | exact Nat.lt_succ_self _
      | exact Nat.lt_succ_of_le (length_decodeUTF_le c rest)
      | exact Nat.lt_succ_of_le (length_escapeSequence_le _ _ rest)

/-- `escapeStringConstant` of a string that is not interpolated, on the text from the opening quote
on. -/
def escapeStringConstant : List Byte → Option StringToken
  | tc :: text => quotedLoop Ccompile HtmlNamedEntity tc {} text
  | [] => none

end

/-! ### Character literals -/

/-- The tokens of a character. -/
inductive CharKind
  | charLiteral
  | wcharLiteral
  | dcharLiteral
  deriving DecidableEq

/-- What the lexing of a character leaves. -/
structure CharToken where
  value : CharKind
  unsvalue : BitVec 64
  errors : List QuotedError := []
  lines : Nat := 0
  rest : List Byte
  deriving DecidableEq

/-- `issinglechar`. -/
def issinglechar (c : Byte) : Bool :=
  c < 0x80 && c ≠ byte '\\' && c ≠ byte '\n' && c ≠ byte '\r' && c ≠ 0 && c ≠ 0x1A &&
    c ≠ byte '\''

/-- Where the search for the closing quote ends. -/
def endsSearch (c : Byte) : Bool :=
  c = byte '\'' || c = 0x1A || c = 0 || c = byte '\n' || c = byte '\r' || c = byte ';' ||
    c = byte ')' || c = byte ']' || c = byte '}'

/-- The loop that looks for the closing quote behind the first character. -/
def searchQuote (text : List Byte) : List QuotedError × List Byte :=
  match text with
  | [] => ([], [])
  | c :: rest =>
    if endsSearch c then ([], c :: rest)
    else if 0x80 ≤ c then
      let u := (decodeUTF c rest).2.1
      let reports := utfReports (decodeUTF c rest).1
      if u = LS || u = PS then (reports, c :: rest)
      else
        (reports ++ (searchQuote (decodeUTF c rest).2.2).1,
          (searchQuote (decodeUTF c rest).2.2).2)
    else searchQuote rest
termination_by text.length
decreasing_by
  all_goals
    have shorter := length_decodeUTF_le c rest
    rw [List.length_cons]
    omega

/-- The end of `charConstant`, behind the first character of a text. -/
def closeCharacter (text : List Byte) (token : CharToken) : CharToken :=
  if token.rest.headD 0 = byte '\'' then { token with rest := token.rest.drop 1 }
  else
    let found := searchQuote token.rest
    if found.2.headD 0 = byte '\'' then
      let passed := text.take (text.length - found.2.length)
      let quoted := (passed.reverse.takeWhile (· ≠ byte '\'')).reverse
      { token with
        unsvalue := 0x3F
        errors := token.errors ++ found.1 ++ [.multipleCharacters quoted]
        rest := found.2.drop 1 }
    else
      { token with
        unsvalue := 0x3F
        errors := token.errors ++ found.1 ++ [.unterminatedCharacter]
        rest := found.2 }

/-- `charConstant`, on the text from the opening quote on. -/
def charConstant (HtmlNamedEntity : List Byte → BitVec 32 × BitVec 32) (text : List Byte) :
    CharToken :=
  let unterminated (token : CharToken) : CharToken :=
    { token with
      value := .charLiteral
      unsvalue := 0x3F
      errors := token.errors ++ [.unterminatedCharacter] }
  match text.drop 1 with
  | [] => unterminated { value := .charLiteral, unsvalue := 0, rest := [] }
  | c :: rest =>
    if c = byte '\\' then
      let escape := escapeSequence false HtmlNamedEntity rest
      let value : CharKind :=
        if rest.headD 0 = byte 'u' then .wcharLiteral
        else if rest.headD 0 = byte 'U' || rest.headD 0 = byte '&' then .dcharLiteral
        else .charLiteral
      closeCharacter text <|
        if escape.c2 ≠ dcharInit then
          { value := value, unsvalue := 0x3F, errors := escape.reports ++ [.twoCodeUnits],
            rest := escape.rest }
        else
          { value := value, unsvalue := escape.c.setWidth 64, errors := escape.reports,
            rest := escape.rest }
    else if c = byte '\n' then
      unterminated { value := .charLiteral, unsvalue := 0, lines := 1, rest := rest }
    else if c = byte '\r' || c = byte '\'' then
      unterminated { value := .charLiteral, unsvalue := 0, rest := rest }
    else if c = 0 || c = 0x1A then
      unterminated { value := .charLiteral, unsvalue := 0, rest := c :: rest }
    else if 0x80 ≤ c then
      let u := (decodeUTF c rest).2.1
      let reports := utfReports (decodeUTF c rest).1
      if u = LS || u = PS then
        unterminated
          { value := .charLiteral, unsvalue := 0, errors := reports, lines := 1,
            rest := (decodeUTF c rest).2.2 }
      else
        closeCharacter text
          { value := if u < 0xD800 || (0xE000 ≤ u && u < 0xFFFE) then .wcharLiteral
              else .dcharLiteral
            unsvalue := u.setWidth 64
            errors := reports
            rest := (decodeUTF c rest).2.2 }
    else
      closeCharacter text { value := .charLiteral, unsvalue := c.setWidth 64, rest := rest }

/-- The case of a single quote in `scan`, where D is compiled: a single character between quotes is
taken at once. -/
def scanCharacter (HtmlNamedEntity : List Byte → BitVec 32 × BitVec 32) (text : List Byte) :
    CharToken :=
  if issinglechar ((text.drop 1).headD 0) && (text.drop 2).headD 0 = byte '\'' then
    { value := .charLiteral, unsvalue := ((text.drop 1).headD 0).setWidth 64, rest := text.drop 3 }
  else charConstant HtmlNamedEntity text

end LaserD.Lexer
