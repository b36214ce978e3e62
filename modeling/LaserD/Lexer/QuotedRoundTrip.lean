/-
This file proves when a printed string and a printed character read back.

A character other than zero is written so that the lexer reads it alone: a letter behind a
backslash, or all the digits that the escape sequence takes. Zero is written as one octal digit,
and the lexer takes up to two more octal digits behind it. A code point up to `0xFF` is read as one
byte, also where its encoding has two. Whatever goes wrong makes the text that is read shorter, so
lengths decide whether it is the text that was printed.
-/

import Mathlib.Data.List.Chain
import LaserD.Lexer.HexRoundTrip
import LaserD.Lexer.QuotedLiteral

namespace LaserD.Lexer

open Root.Utf

/-! ### Hexadecimal digits -/

/-- The byte of a digit in lower case. -/
def lowerDigit (d : Nat) : Byte :=
  byte (Nat.digitChar d)

theorem lowerDigit_spec : ∀ d < 16,
    isHexDigit (lowerDigit d) = true ∧ digitValue (lowerDigit d) = BitVec.ofNat 32 d := by
  decide

theorem length_hexDigits (k n : Nat) : (hexDigits k n).length = k := by
  induction k generalizing n with
  | zero => rfl
  | succ k inductionHypothesis =>
    rw [hexDigits, List.length_append, inductionHypothesis, List.length_singleton]

theorem hexDigits_zero (k : Nat) : hexDigits k 0 = List.replicate k 0 := by
  induction k with
  | zero => rfl
  | succ k inductionHypothesis =>
    rw [hexDigits, Nat.zero_div, inductionHypothesis, Nat.zero_mod, List.replicate_succ']

/-- A number that fits is filled up to its last digits. -/
theorem leftpad_toDigits {k n : Nat} (positive : 0 < k) (fits : n < 16 ^ k) :
    List.leftpad k '0' (Nat.toDigits 16 n) = (hexDigits k n).map Nat.digitChar := by
  induction k generalizing n with
  | zero => exact absurd positive (Nat.lt_irrefl 0)
  | succ k inductionHypothesis =>
    rw [Nat.toDigits_eq_if (by decide), hexDigits, List.map_append, List.map_singleton]
    by_cases small : n < 16
    · rw [if_pos small, Nat.div_eq_of_lt small, hexDigits_zero, List.map_replicate,
        Nat.mod_eq_of_lt small, List.leftpad, List.length_singleton, Nat.add_sub_cancel]
      rfl
    · have shorter : n / 16 < 16 ^ k := Nat.div_lt_of_lt_mul (by rwa [Nat.pow_succ'] at fits)
      have several : 0 < k := Nat.pos_of_ne_zero fun zero => by
        rw [zero, Nat.pow_zero] at shorter
        omega
      rw [if_neg small, ← inductionHypothesis several shorter, List.leftpad, List.leftpad,
        List.length_append, List.length_singleton, Nat.add_sub_add_right, List.append_assoc]

theorem printLowerHex_eq {k n : Nat} (positive : 0 < k) (fits : n < 16 ^ k) :
    printLowerHex k n = (hexDigits k n).map lowerDigit := by
  rw [printLowerHex, leftpad_toDigits positive fits, List.map_map]
  rfl

/-- The value of digits behind others. -/
def joinDigits (v : BitVec 32) (digits : List Nat) : BitVec 32 :=
  digits.foldl (fun v d => v * 16 + BitVec.ofNat 32 d) v

theorem joinDigits_hexDigits (k n : Nat) :
    joinDigits 0 (hexDigits k n) = BitVec.ofNat 32 (n % 16 ^ k) := by
  induction k generalizing n with
  | zero => rw [Nat.pow_zero, Nat.mod_one]; rfl
  | succ k inductionHypothesis =>
    have joined : n % 16 ^ (k + 1) = n / 16 % 16 ^ k * 16 + n % 16 := by
      rw [Nat.pow_succ', Nat.mod_mul]
      omega
    have previous := inductionHypothesis (n / 16)
    rw [joinDigits] at previous
    rw [joinDigits, hexDigits, List.foldl_append, previous, List.foldl_cons, List.foldl_nil, joined,
      BitVec.ofNat_add, BitVec.ofNat_mul]
    rfl

/-- As many digits as an escape sequence has are read to the last. -/
theorem readHex_digits {ndigits n : Nat} (v : BitVec 32) {digits : List Nat} (more : List Byte)
    (nonempty : digits ≠ []) (complete : n + digits.length = ndigits)
    (small : ∀ d ∈ digits, d < 16) :
    readHex ndigits n v (digits.map lowerDigit ++ more) = (joinDigits v digits, [], more) := by
  induction digits generalizing n v with
  | nil => exact absurd rfl nonempty
  | cons d digits inductionHypothesis =>
    obtain ⟨head, tail⟩ := List.forall_mem_cons.mp small
    obtain ⟨digit, value⟩ := lowerDigit_spec d head
    rw [List.map_cons, List.cons_append, readHex, value]
    rw [List.length_cons] at complete
    cases digits with
    | nil =>
      rw [if_pos (by rw [← complete]; rfl)]
      rfl
    | cons e digits =>
      have next : isHexDigit (((e :: digits).map lowerDigit ++ more).headD 0) = true :=
        (lowerDigit_spec e (tail e List.mem_cons_self)).1
      rw [List.length_cons] at complete
      rw [if_neg (by omega), if_pos next,
        inductionHypothesis _ (List.cons_ne_nil _ _) (by rw [List.length_cons]; omega) tail]
      rfl

/-- The digits that are printed for a character are read as the character. -/
theorem escapeHex_printed (letter : Byte) {ndigits : Nat} {c : BitVec 32} (more : List Byte)
    (positive : 0 < ndigits) (fits : c.toNat < 16 ^ ndigits) :
    escapeHex false letter ndigits (printLowerHex ndigits c.toNat ++ more) =
      if ndigits ≠ 2 && !utfIsValidDchar c then
        { c := 0x3F, errors := [.invalidCodePoint c], rest := more }
      else { c := c, rest := more } := by
  have length := length_hexDigits ndigits c.toNat
  have small : ∀ d ∈ hexDigits ndigits c.toNat, d < 16 := fun _ => lt_of_mem_hexDigits
  have nonempty : hexDigits ndigits c.toNat ≠ [] :=
    List.ne_nil_of_length_pos (by omega)
  have value : joinDigits 0 (hexDigits ndigits c.toNat) = c := by
    rw [joinDigits_hexDigits, Nat.mod_eq_of_lt fits, BitVec.ofNat_toNat, BitVec.setWidth_eq]
  have digit :
      isHexDigit (((hexDigits ndigits c.toNat).map lowerDigit ++ more).headD 0) = true := by
    obtain ⟨d, digits, digitsEq⟩ := List.exists_cons_of_ne_nil nonempty
    rw [digitsEq]
    exact (lowerDigit_spec d (small d (digitsEq ▸ List.mem_cons_self))).1
  rw [printLowerHex_eq positive fits, escapeHex, if_pos digit, Bool.false_and, if_neg (by decide),
    readHex_digits 0 more nonempty (by omega) small, value]
  rfl

/-! ### The forms of a printed character -/

/-- A character is printed by a number of hexadecimal digits behind a letter. -/
def HexForm (c : BitVec 32) (letter : Byte) (ndigits : Nat) : Prop :=
  letter = byte 'x' ∧ ndigits = 2 ∧ c ≤ 0xFF ∧ ¬isprint c = true ∨
    letter = byte 'u' ∧ ndigits = 4 ∧ ¬c ≤ 0xFF ∧ c ≤ 0xFFFF ∨
    letter = byte 'U' ∧ ndigits = 8 ∧ ¬c ≤ 0xFFFF

/-- The ways in which a character is printed. -/
inductive Printed : BitVec 32 → List Byte → Prop
  | nul : Printed 0 [byte '\\', byte '0']
  | letter {c : BitVec 32} {letter : Byte} (value : letterEscape letter = some c)
      (narrow : c ≤ 0xFF) : Printed c [byte '\\', letter]
  | plain {b : Byte} (printable : isprint (b.setWidth 32) = true) (quote : b ≠ byte '"')
      (backslash : b ≠ byte '\\') : Printed (b.setWidth 32) [b]
  | hex {c : BitVec 32} {letter : Byte} {ndigits : Nat}
      (width : HexForm c letter ndigits) :
      Printed c (byte '\\' :: letter :: printLowerHex ndigits c.toNat)

theorem writeCharLiteral_printed (c : BitVec 32) : Printed c (writeCharLiteral c) := by
  rw [writeCharLiteral]
  split_ifs with nul newline carriageReturn tab backspace formFeed quoted narrow printable wide
  · rw [nul]
    exact .nul
  · rw [newline]
    exact .letter (by decide) (by decide)
  · rw [carriageReturn]
    exact .letter (by decide) (by decide)
  · rw [tab]
    exact .letter (by decide) (by decide)
  · rw [backspace]
    exact .letter (by decide) (by decide)
  · rw [formFeed]
    exact .letter (by decide) (by decide)
  · rw [Bool.or_eq_true, decide_eq_true_iff, decide_eq_true_iff] at quoted
    rcases quoted with quote | backslash
    · rw [quote]
      exact .letter (by decide) (by decide)
    · rw [backslash]
      exact .letter (by decide) (by decide)
  · have same : (c.setWidth 8).setWidth 32 = c := by
      bv_omega
    rw [Bool.or_eq_true, decide_eq_true_iff, decide_eq_true_iff, not_or] at quoted
    have result : Printed ((c.setWidth 8).setWidth 32) [c.setWidth 8] := by
      refine .plain (same.symm ▸ printable) (fun quote => quoted.1 ?_) fun backslash => quoted.2 ?_
      · rw [← same, quote]
        rfl
      · rw [← same, backslash]
        rfl
    rwa [same] at result
  · exact .hex (.inl ⟨rfl, rfl, narrow, printable⟩)
  · exact .hex (.inr (.inl ⟨rfl, rfl, narrow, wide⟩))
  · exact .hex (.inr (.inr ⟨rfl, rfl, wide⟩))

theorem plain_spec : ∀ b : Byte, isprint (b.setWidth 32) = true →
    b ≠ byte '\n' ∧ b ≠ byte '\r' ∧ (b = 0 || b = 0x1A) = false ∧ ¬0x80 ≤ b := by
  decide

theorem letterEscape_spec : ∀ letter : Byte, (letterEscape letter).isSome = true →
    letter ≠ byte '&' ∧ letter ≠ byte 'u' ∧ letter ≠ byte 'U' := by
  decide

/-- A code point that is printed as an octal digit. -/
def IsOctal (c : BitVec 32) : Prop :=
  0x30 ≤ c ∧ c ≤ 0x37

instance (c : BitVec 32) : Decidable (IsOctal c) :=
  inferInstanceAs (Decidable (_ ∧ _))

theorem isoctal_iff (b : Byte) : isoctal b = true ↔ IsOctal (b.setWidth 32) := by
  revert b
  decide

/-- Where the text of a character begins with an octal digit, the character is one. -/
theorem Printed.isoctal_head {c : BitVec 32} {text : List Byte} (printed : Printed c text)
    (more : List Byte) : isoctal ((text ++ more).headD 0) = true ↔ IsOctal c := by
  have backslash : ¬isoctal (byte '\\') = true := by decide
  cases printed with
  | nul => exact iff_of_false backslash (by decide)
  | @letter _ name value narrow =>
    refine iff_of_false backslash fun octal => ?_
    have none : ∀ letter : Byte,
        (letterEscape letter).any (fun c => decide (IsOctal c)) = false := by
      decide
    have excluded := none name
    rw [value, Option.any_some, decide_eq_false_iff_not] at excluded
    exact excluded octal
  | plain printable quote backslash => exact isoctal_iff _
  | hex width =>
    refine iff_of_false backslash fun octal => ?_
    obtain ⟨low, high⟩ := octal
    rcases width with ⟨-, -, -, unprintable⟩ | ⟨-, -, wide, -⟩ | ⟨-, -, wide⟩
    · refine unprintable ?_
      rw [isprint, Bool.and_eq_true, decide_eq_true_iff, decide_eq_true_iff]
      exact ⟨BitVec.le_trans (y := 0x30) (by decide) low,
        BitVec.le_trans (y := 0x37) high (by decide)⟩
    · exact wide (BitVec.le_trans (y := 0x37) high (by decide))
    · exact wide (BitVec.le_trans (y := 0x37) high (by decide))

/-! ### The sequences that are read -/

variable {HtmlNamedEntity : List Byte → BitVec 32 × BitVec 32} {c : BitVec 32}

theorem escapeSequence_letter {letter : Byte} (more : List Byte)
    (value : letterEscape letter = some c) :
    escapeSequence false HtmlNamedEntity (letter :: more) = { c := c, rest := more } := by
  rw [escapeSequence, value]

/-- What the lexer makes of the digits of a character. -/
theorem escapeSequence_hex {letter : Byte} {ndigits : Nat} (more : List Byte)
    (width : HexForm c letter ndigits) :
    escapeSequence false HtmlNamedEntity
        (letter :: (printLowerHex ndigits c.toNat ++ more)) =
      if utfIsValidDchar c then { c := c, rest := more }
      else { c := 0x3F, errors := [.invalidCodePoint c], rest := more } := by
  have hex : escapeSequence false HtmlNamedEntity
      (letter :: (printLowerHex ndigits c.toNat ++ more)) =
        escapeHex false letter ndigits (printLowerHex ndigits c.toNat ++ more) := by
    rcases width with ⟨rfl, rfl, -⟩ | ⟨rfl, rfl, -⟩ | ⟨rfl, rfl, -⟩ <;> rfl
  have fits : c.toNat < 16 ^ ndigits := by
    rcases width with ⟨-, rfl, narrow, -⟩ | ⟨-, rfl, -, narrow⟩ | ⟨-, rfl, -⟩
    · exact Nat.lt_succ_of_le narrow
    · exact Nat.lt_succ_of_le narrow
    · exact c.isLt
  have positive : 0 < ndigits := by
    rcases width with ⟨-, rfl, -⟩ | ⟨-, rfl, -⟩ | ⟨-, rfl, -⟩ <;> decide
  rw [hex, escapeHex_printed letter more positive fits]
  rcases width with ⟨-, rfl, narrow, -⟩ | ⟨-, rfl, -⟩ | ⟨-, rfl, -⟩
  · have valid : utfIsValidDchar c = true :=
      (utfIsValidDchar_iff c).mpr (.inl (lt_of_le_of_lt narrow (by decide)))
    rw [valid]
    rfl
  · cases utfIsValidDchar c <;> rfl
  · cases utfIsValidDchar c <;> rfl

theorem escapeSequence_zero (text : List Byte) :
    escapeSequence false HtmlNamedEntity (byte '0' :: text) =
      { c := (readOctal 3 0 (byte '0' :: text)).1
        errors := if 0xFF < (readOctal 3 0 (byte '0' :: text)).1 then
          [.octal (readOctal 3 0 (byte '0' :: text)).1] else []
        rest := (readOctal 3 0 (byte '0' :: text)).2 } :=
  rfl

/-- Zero is read alone where no octal digit follows. -/
theorem escapeSequence_nul {more : List Byte} (clear : ¬isoctal (more.headD 0) = true) :
    escapeSequence false HtmlNamedEntity (byte '0' :: more) = { c := 0, rest := more } := by
  have read : readOctal 3 0 (byte '0' :: more) = (0, more) := by
    rw [readOctal, Bool.eq_false_iff.mpr clear]
    rfl
  rw [escapeSequence_zero, read]
  rfl

/-- One octal digit behind a zero is read with it, and a second one too. -/
theorem escapeSequence_nul_octal {d : Byte} (more : List Byte) (octal : isoctal d = true) :
    ∃ c, escapeSequence false HtmlNamedEntity (byte '0' :: d :: more) =
      { c := c, rest := more.drop (if isoctal (more.headD 0) then 1 else 0) } := by
  have second : ∀ d : Byte, isoctal d = true →
      (0 : BitVec 32) * 8 + (d - byte '0').setWidth 32 ≤ 7 := by decide
  have third : ∀ v : BitVec 32, v ≤ 7 → ∀ d : Byte, isoctal d = true →
      ¬0xFF < v * 8 + (d - byte '0').setWidth 32 := by
    intro v small d digit
    have low := (isoctal_iff d).mp digit
    have zero : byte '0' = 48#8 := rfl
    rw [IsOctal] at low
    rw [zero]
    bv_omega
  have first : readOctal 3 0 (byte '0' :: d :: more) = readOctal 2 0 (d :: more) := by
    rw [readOctal, List.headD_cons, octal]
    rfl
  have value := second d octal
  have narrow := third 0 (by decide) d octal
  rw [escapeSequence_zero, first, readOctal]
  cases next : isoctal (more.headD 0) with
  | false =>
    rw [Bool.and_false, if_neg Bool.false_ne_true, if_neg narrow]
    exact ⟨_, rfl⟩
  | true =>
    obtain ⟨e, more, rfl⟩ := List.exists_cons_of_ne_nil (l := more) fun empty => by
      rw [empty] at next
      exact absurd next (by decide)
    have last (v : BitVec 32) : readOctal 1 v (e :: more) =
        (v * 8 + (e - byte '0').setWidth 32, more) := rfl
    rw [Bool.and_true, if_pos (by decide), last, if_neg (third _ value e next)]
    exact ⟨_, rfl⟩

/-! ### A string is read character by character -/

/-- The bytes that a code point is read as: one up to `0xFF`, its encoding above. -/
def literalBytes (c : BitVec 32) : List Byte :=
  if c ≤ 0xFF then [c.setWidth 8] else (utfEncodeChar c).getD []

theorem writeUTF8_eq (valid : utfIsValidDchar c = true) :
    ∃ units, utfEncodeChar c = some units ∧ writeUTF8 c = some units := by
  obtain ⟨units, after, encoded, written, result⟩ :=
    OutBuffer.writeUTF8_spec ⟨[], 0, le_rfl⟩ (fun _ => 0) valid
  refine ⟨units, encoded, ?_⟩
  rw [writeUTF8, written, Option.map_some, result]
  rfl

theorem StringState.report_nil (state : StringState) : state.report [] = state := by
  rw [StringState.report, List.append_nil]

variable (state : StringState)

theorem quotedLoop_escape {letter : Byte} {rest more units : List Byte}
    (read : escapeSequence false HtmlNamedEntity (letter :: rest) = { c := c, rest := more })
    (written : Escape.bytes { c := c, rest := more } false letter = some units) :
    quotedLoop false HtmlNamedEntity (byte '"') state (byte '\\' :: letter :: rest) =
      quotedLoop false HtmlNamedEntity (byte '"') (state.write units) more := by
  rw [quotedLoop, if_pos rfl]
  simp only [read, List.headD_cons, written]
  rw [Escape.reports, List.map_nil, state.report_nil]
  rfl

theorem bytes_narrow {letter : Byte} {more : List Byte} (entity : letter ≠ byte '&')
    (four : letter ≠ byte 'u') (eight : letter ≠ byte 'U') :
    Escape.bytes { c := c, rest := more } false letter = some [c.setWidth 8] := by
  rw [Escape.bytes, if_neg (by simp [entity]), if_neg (by simp [four, eight])]

/-- A character is read alone, and zero is where no octal digit follows. -/
theorem quotedLoop_printed {text : List Byte} (printed : Printed c text)
    (scalar : utfIsValidDchar c = true) {more : List Byte}
    (clear : c = 0 → ¬isoctal (more.headD 0) = true) :
    quotedLoop false HtmlNamedEntity (byte '"') state (text ++ more) =
      quotedLoop false HtmlNamedEntity (byte '"') (state.write (literalBytes c)) more := by
  cases printed with
  | nul =>
    exact quotedLoop_escape state (escapeSequence_nul (clear rfl))
      (bytes_narrow (by decide) (by decide) (by decide))
  | @letter _ name value narrow =>
    obtain ⟨entity, four, eight⟩ := letterEscape_spec name (Option.isSome_of_eq_some value)
    rw [literalBytes, if_pos narrow]
    exact quotedLoop_escape state (escapeSequence_letter more value)
      (bytes_narrow entity four eight)
  | @plain b printable quote backslash =>
    obtain ⟨newline, carriageReturn, ending, low⟩ := plain_spec b printable
    have narrow : b.setWidth 32 ≤ (0xFF : BitVec 32) := by bv_omega
    have same : (b.setWidth 32).setWidth 8 = b := by bv_omega
    rw [literalBytes, if_pos narrow, same, List.singleton_append, quotedLoop, if_neg backslash,
      if_neg newline, if_neg carriageReturn, if_neg (by simp [quote]),
      if_neg (Bool.eq_false_iff.mp ending), if_neg low]
  | @hex _ letter ndigits width =>
    have read := @escapeSequence_hex HtmlNamedEntity c letter ndigits more width
    rw [if_pos scalar] at read
    refine quotedLoop_escape state read ?_
    rcases width with ⟨rfl, -, narrow, -⟩ | ⟨rfl, -, wide, -⟩ | ⟨rfl, -, wide⟩
    · rw [literalBytes, if_pos narrow]
      exact bytes_narrow (by decide) (by decide) (by decide)
    · obtain ⟨units, encoded, written⟩ := writeUTF8_eq scalar
      rw [literalBytes, if_neg wide, encoded]
      exact written
    · have wider : ¬c ≤ 0xFF := fun narrow => wide (BitVec.le_trans (y := 0xFF) narrow (by decide))
      obtain ⟨units, encoded, written⟩ := writeUTF8_eq scalar
      rw [literalBytes, if_neg wider, encoded]
      exact written

/-- Zero is not followed by a character that is printed as an octal digit. -/
def Apart (a b : BitVec 32) : Prop :=
  a = 0 → ¬IsOctal b

theorem length_literalBytes_zero : (literalBytes 0).length = 1 :=
  rfl

theorem literalBytes_octal {d : BitVec 32} (octal : IsOctal d) : (literalBytes d).length = 1 := by
  rw [literalBytes, if_pos (BitVec.le_trans (y := 0x37) octal.2 (by decide))]
  rfl

/-- The text of characters begins with an octal digit where the first of them does. -/
theorem isoctal_printed_iff (cs : List (BitVec 32)) (rest : List Byte) :
    isoctal ((cs.flatMap writeCharLiteral ++ byte '"' :: rest).headD 0) = true ↔
      ∃ d ∈ cs.head?, IsOctal d := by
  cases cs with
  | nil =>
    rw [List.flatMap_nil, List.nil_append, List.headD_cons]
    exact iff_of_false (by decide) (by simp)
  | cons d cs =>
    rw [List.flatMap_cons, List.append_assoc, (writeCharLiteral_printed d).isoctal_head]
    simp

/-- An octal digit is printed as itself. -/
theorem writeCharLiteral_octal {d : BitVec 32} (octal : IsOctal d) :
    writeCharLiteral d = [d.setWidth 8] ∧ isoctal (d.setWidth 8) = true := by
  have below : ∀ i < 8, writeCharLiteral (BitVec.ofNat 32 (0x30 + i)) =
      [(BitVec.ofNat 32 (0x30 + i)).setWidth 8] ∧
        isoctal ((BitVec.ofNat 32 (0x30 + i)).setWidth 8) = true := by decide
  have number : d = BitVec.ofNat 32 (0x30 + (d.toNat - 0x30)) := by
    rw [IsOctal] at octal
    bv_omega
  have few : d.toNat - 0x30 < 8 := by
    rw [IsOctal] at octal
    bv_omega
  rw [number]
  exact below _ few

/-- A zero takes the octal digit behind it, and a second one if there is one. -/
theorem quotedLoop_joined {d : BitVec 32} (octal : IsOctal d) (cs : List (BitVec 32))
    (rest : List Byte) : ∃ b left, (left = cs ∨ ∃ e, cs = e :: left ∧ IsOctal e) ∧
      quotedLoop false HtmlNamedEntity (byte '"') state
          ((0 :: d :: cs).flatMap writeCharLiteral ++ byte '"' :: rest) =
        quotedLoop false HtmlNamedEntity (byte '"') (state.write [b])
          (left.flatMap writeCharLiteral ++ byte '"' :: rest) := by
  obtain ⟨printed, digit⟩ := writeCharLiteral_octal octal
  obtain ⟨c, read⟩ := @escapeSequence_nul_octal HtmlNamedEntity (d.setWidth 8)
    (cs.flatMap writeCharLiteral ++ byte '"' :: rest) digit
  have text : (0 :: d :: cs).flatMap writeCharLiteral ++ byte '"' :: rest = byte '\\' ::
      byte '0' :: d.setWidth 8 :: (cs.flatMap writeCharLiteral ++ byte '"' :: rest) := by
    rw [List.flatMap_cons, List.flatMap_cons, printed]
    rfl
  have step := quotedLoop_escape state read (bytes_narrow (by decide) (by decide) (by decide))
  rw [text, step]
  by_cases next : ∃ e ∈ cs.head?, IsOctal e
  · obtain ⟨e, member, second⟩ := next
    obtain ⟨left, rfl⟩ := List.head?_eq_some_iff.mp member
    refine ⟨c.setWidth 8, left, .inr ⟨e, rfl, second⟩, ?_⟩
    rw [if_pos ((isoctal_printed_iff _ rest).mpr ⟨e, member, second⟩), List.flatMap_cons,
      (writeCharLiteral_octal second).1]
    rfl
  · refine ⟨c.setWidth 8, cs, .inl rfl, ?_⟩
    rw [if_neg fun octal => next ((isoctal_printed_iff cs rest).mp octal), List.drop_zero]

/-- The characters of a string are read in turn. The bytes are fewer than the characters stand for
where a digit is joined to a zero. -/
theorem quotedLoop_literals (rest : List Byte) (n : Nat) : ∀ (cs : List (BitVec 32))
    (state : StringState), cs.length ≤ n → (∀ c ∈ cs, utfIsValidDchar c = true) →
    ∃ bytes, quotedLoop false HtmlNamedEntity (byte '"') state
        (cs.flatMap writeCharLiteral ++ byte '"' :: rest) =
          quotedLoop false HtmlNamedEntity (byte '"') (state.write bytes) (byte '"' :: rest) ∧
      bytes.length ≤ (cs.flatMap literalBytes).length ∧
      (bytes.length = (cs.flatMap literalBytes).length ↔ cs.IsChain Apart) ∧
      (cs.IsChain Apart → bytes = cs.flatMap literalBytes) := by
  induction n with
  | zero =>
    intro cs state short valid
    rw [List.length_eq_zero_iff.mp (Nat.le_zero.mp short)]
    refine ⟨[], ?_, le_rfl, iff_of_true rfl .nil, fun _ => rfl⟩
    rw [StringState.write, List.append_nil]
    rfl
  | succ n inductionHypothesis =>
    intro cs state short valid
    cases cs with
    | nil => exact inductionHypothesis [] state (Nat.zero_le n) valid
    | cons c cs =>
      obtain ⟨scalar, scalars⟩ := List.forall_mem_cons.mp valid
      rw [List.length_cons] at short
      by_cases joined : c = 0 ∧ ∃ d ∈ cs.head?, IsOctal d
      · obtain ⟨rfl, d, member, octal⟩ := joined
        obtain ⟨cs, rfl⟩ := List.head?_eq_some_iff.mp member
        obtain ⟨b, left, which, read⟩ := quotedLoop_joined state octal cs rest
        have inside : left.length ≤ cs.length ∧ (∀ c ∈ left, c ∈ cs) ∧
            (left.flatMap literalBytes).length ≤ (cs.flatMap literalBytes).length := by
          rcases which with rfl | ⟨e, rfl, -⟩
          · exact ⟨le_rfl, fun c member => member, le_rfl⟩
          · refine ⟨Nat.le_succ _, fun c member => List.mem_cons_of_mem e member, ?_⟩
            rw [List.flatMap_cons, List.length_append]
            exact Nat.le_add_left _ _
        rw [List.length_cons] at short
        obtain ⟨bytes, further, most, -⟩ := inductionHypothesis left (state.write [b]) (by omega)
          fun c member => scalars c (List.mem_cons_of_mem d (inside.2.1 c member))
        have fewer : (b :: bytes).length < ((0 :: d :: cs).flatMap literalBytes).length := by
          rw [List.flatMap_cons, List.flatMap_cons, List.length_append, List.length_append,
            literalBytes_octal octal, length_literalBytes_zero, List.length_cons]
          omega
        have close : ¬(0 :: d :: cs).IsChain Apart := fun chain =>
          (List.isChain_cons_cons.mp chain).1 rfl octal
        refine ⟨b :: bytes, ?_, fewer.le, iff_of_false fewer.ne close, fun chain =>
          absurd chain close⟩
        rw [read, further, StringState.write, StringState.write, StringState.write,
          List.append_assoc, List.singleton_append]
      · rw [List.flatMap_cons, List.append_assoc, List.flatMap_cons, List.length_append,
          List.isChain_cons]
        have clear : c = 0 →
            ¬isoctal ((cs.flatMap writeCharLiteral ++ byte '"' :: rest).headD 0) = true :=
          fun zero octal => joined ⟨zero, (isoctal_printed_iff cs rest).mp octal⟩
        have apart : ∀ d ∈ cs.head?, Apart c d := fun d member zero octal =>
          joined ⟨zero, d, member, octal⟩
        obtain ⟨bytes, read, most, all, same⟩ := inductionHypothesis cs
          (state.write (literalBytes c)) (by omega) scalars
        refine ⟨literalBytes c ++ bytes, ?_, ?_, ?_, fun chain => ?_⟩
        · rw [quotedLoop_printed state (writeCharLiteral_printed c) scalar clear, read,
            StringState.write, StringState.write, StringState.write, List.append_assoc]
        · rw [List.length_append]
          omega
        · rw [List.length_append, Nat.add_left_cancel_iff, all]
          exact (and_iff_right apart).symm
        · rw [same chain.2]

/-! ### Strings read back -/

theorem quotedLoop_close (rest : List Byte) :
    quotedLoop false HtmlNamedEntity (byte '"') state (byte '"' :: rest) =
      some (state.close false rest) := by
  rw [quotedLoop, if_neg (by decide), if_neg (by decide), if_neg (by decide), if_pos (by decide)]

/-- A printed string is read without an error, up to the postfix, and the bytes of the token are
the text that the characters stand for only where no digit is joined to a zero. -/
theorem escapeStringConstant_literals (HtmlNamedEntity : List Byte → BitVec 32 × BitVec 32)
    {cs : List (BitVec 32)} (rest : List Byte) {text : List Byte}
    (scalars : ∀ c ∈ cs, utfIsValidDchar c = true)
    (most : (cs.flatMap literalBytes).length ≤ text.length)
    (same : (cs.flatMap literalBytes).length = text.length → cs.flatMap literalBytes = text) :
    ∃ token, escapeStringConstant false HtmlNamedEntity
        (byte '"' :: (cs.flatMap writeCharLiteral ++ byte '"' :: rest)) = some token ∧
      token.errors = [] ∧ token.lines = 0 ∧ (token.postfix_, token.rest) = stringPostfix rest ∧
      (token.ustring = text ↔ (cs.flatMap literalBytes).length = text.length ∧ cs.IsChain Apart ∧
        text.length < 2 ^ 32) := by
  obtain ⟨bytes, read, fewer, all, equal⟩ :=
    @quotedLoop_literals HtmlNamedEntity rest cs.length cs {} le_rfl scalars
  have token : escapeStringConstant false HtmlNamedEntity
      (byte '"' :: (cs.flatMap writeCharLiteral ++ byte '"' :: rest)) =
        some (StringState.close { stringbuffer := bytes } false rest) := by
    rw [escapeStringConstant, read, quotedLoop_close]
    rfl
  refine ⟨_, token, rfl, rfl, rfl, ?_⟩
  have ustring : (StringState.close { stringbuffer := bytes } false rest).ustring =
      bytes.take (bytes.length % 2 ^ 32) := rfl
  rw [ustring]
  constructor
  · intro back
    have lengths := congrArg List.length back
    rw [List.length_take] at lengths
    have wrapped := Nat.mod_le bytes.length (2 ^ 32)
    have bound := Nat.mod_lt bytes.length (Nat.two_pow_pos 32)
    exact ⟨by omega, all.mp (by omega), by omega⟩
  · rintro ⟨complete, chain, addressable⟩
    rw [equal chain, complete, Nat.mod_eq_of_lt addressable, ← complete, List.take_length]
    exact same complete

/-- No zero is followed by an octal digit. -/
def NulClear (a b : Byte) : Prop :=
  a = 0 → ¬isoctal b = true

/-- A string literal is printed so that the lexer reads it without an error; it reads the units of
the string exactly when no zero among them is followed by an octal digit, and they are as many as a
token can have. -/
theorem visitString_reads_back_iff (HtmlNamedEntity : List Byte → BitVec 32 × BitVec 32)
    (units : List Byte) (postfix_ : Option Byte) (rest : List Byte) :
    ∃ token, escapeStringConstant false HtmlNamedEntity (visitString units postfix_ ++ rest) =
        some token ∧
      token.errors = [] ∧ token.lines = 0 ∧
      (token.postfix_, token.rest) = stringPostfix (postfix_.toList ++ rest) ∧
      (token.ustring = units ↔ units.IsChain NulClear ∧ units.length < 2 ^ 32) := by
  have narrow (u : Byte) : u.setWidth 32 ≤ (0xFF : BitVec 32) := by bv_omega
  have bytes : (units.map (BitVec.setWidth 32)).flatMap literalBytes = units := by
    rw [List.flatMap_map]
    refine (List.flatMap_congr fun u _ => ?_).trans (List.flatMap_singleton' units)
    rw [literalBytes, if_pos (narrow u)]
    exact congrArg (fun b => [b]) (by bv_omega)
  have scalars : ∀ c ∈ units.map (BitVec.setWidth 32), utfIsValidDchar c = true := by
    intro c member
    obtain ⟨u, -, rfl⟩ := List.mem_map.mp member
    exact (utfIsValidDchar_iff _).mpr (.inl (lt_of_le_of_lt (narrow u) (by decide)))
  obtain ⟨token, read, errors, lines, end_, back⟩ := escapeStringConstant_literals HtmlNamedEntity
    (postfix_.toList ++ rest) scalars (congrArg List.length bytes).le fun _ => bytes
  have chain : (units.map (BitVec.setWidth 32)).IsChain Apart ↔ units.IsChain NulClear := by
    rw [List.isChain_map]
    have link (a b : Byte) : Apart (a.setWidth 32) (b.setWidth 32) ↔ NulClear a b := by
      rw [Apart, NulClear, isoctal_iff]
      exact imp_congr ⟨fun zero => by bv_omega, fun zero => by rw [zero]; rfl⟩ Iff.rfl
    exact ⟨List.IsChain.imp fun a b => (link a b).mp, List.IsChain.imp fun a b => (link a b).mpr⟩
  refine ⟨token, ?_, errors, lines, end_, ?_⟩
  · rw [← read, visitString, List.flatMap_map, List.cons_append, List.append_assoc,
      List.cons_append]
  · rw [back, chain, bytes, and_iff_right rfl]

/-! ### Tokens read back -/

/-- A failed decoding takes the byte for the code point. -/
theorem utfDecodeChar_failed {s tail : List Byte} {i : Nat} {u : Byte} {result : Decoded}
    (units : s.drop i = u :: tail) (decoded : utfDecodeChar s i = some result)
    (failed : result.error ≠ none) : result.rresult = u.setWidth 32 := by
  have first : s[i]? = some u := by
    rw [← Nat.add_zero i, ← List.getElem?_drop, units]
    rfl
  rw [utfDecodeChar, first] at decoded
  simp only [Option.bind_eq_bind, Option.bind_some] at decoded
  split_ifs at decoded
  · rw [← Option.some.inj decoded]
  · rw [← Option.some.inj decoded]
  · rw [← Option.some.inj decoded]
  · obtain ⟨u2, -, decoded⟩ := Option.bind_eq_some_iff.mp decoded
    split_ifs at decoded
    · rw [← Option.some.inj decoded]
    · obtain ⟨value, -, decoded⟩ := Option.bind_eq_some_iff.mp decoded
      cases value with
      | none => rw [← Option.some.inj decoded]
      | some c =>
        dsimp only at decoded
        split_ifs at decoded
        · exact absurd (congrArg Decoded.error (Option.some.inj decoded)).symm failed
        · rw [← Option.some.inj decoded]

/-- Two bytes that encode a code point up to `0xFF`. -/
def IsLatin (a b : Byte) : Prop :=
  (a = 0xC2 ∨ a = 0xC3) ∧ IsTrailer b.toNat

/-- A byte is taken for a code point, or some bytes that encode one above the bytes. -/
theorem utfDecodeChar_step {s tail : List Byte} {i : Nat} {u : Byte}
    (units : s.drop i = u :: tail) : ∃ result, utfDecodeChar s i = some result ∧
      (result.rresult = u.setWidth 32 ∧ result.ridx = i + 1 ∧ (∀ b ∈ tail.head?, ¬IsLatin u b) ∨
        ∃ trailers more, tail = trailers ++ more ∧ result.ridx = i + 1 + trailers.length ∧
          IsScalar result.rresult.toNat ∧ 0x7F < result.rresult.toNat ∧
          utf8 result.rresult.toNat = (u :: trailers).map BitVec.toNat) := by
  have inside : i < s.length := by
    have length := congrArg List.length units
    rw [List.length_drop, List.length_cons] at length
    omega
  obtain ⟨result, decoded, exactly, failed⟩ := utfDecodeChar_spec inside
  rw [units] at exactly
  refine ⟨result, decoded, ?_⟩
  by_cases done : result.error = none
  · obtain ⟨valid, starts, index⟩ := exactly.sound done
    by_cases ascii : result.rresult.toNat ≤ 0x7F
    · rw [utf8, if_pos ascii] at starts index
      have same := (List.cons_prefix_cons.mp starts).1
      refine .inl ⟨by bv_omega, index, fun b _ latin => ?_⟩
      rcases latin.1 with rfl | rfl
      · exact absurd (same ▸ ascii) (by decide)
      · exact absurd (same ▸ ascii) (by decide)
    · obtain ⟨left, joined⟩ := starts
      obtain ⟨front, more, tailEq, frontEq, -⟩ := List.map_eq_append_iff.mp joined.symm
      have nonempty : front ≠ [] := fun empty => by
        rw [empty, List.map_nil, utf8] at frontEq
        split_ifs at frontEq
      obtain ⟨v, trailers, rfl⟩ := List.exists_cons_of_ne_nil nonempty
      obtain ⟨rfl, behind⟩ := List.cons.inj tailEq
      refine .inr ⟨trailers, more, behind, ?_, valid, by omega, frontEq.symm⟩
      rw [index, ← frontEq, List.length_map, List.length_cons]
      omega
  · refine .inl ⟨utfDecodeChar_failed units decoded done, failed done, fun b member latin => ?_⟩
    obtain ⟨lead, trailer⟩ := latin
    obtain ⟨more, rfl⟩ := List.head?_eq_some_iff.mp member
    have range : 0xC2 ≤ u.toNat ∧ u.toNat < 0xE0 := by
      rcases lead with rfl | rfl <;> decide
    have encoded := utf8_two range.1 range.2 trailer
    have small : u.toNat % 32 * 64 + b.toNat % 64 < 0xD800 := by omega
    refine done (exactly.complete _ (.inl small) ?_).1
    rw [encoded]
    exact ⟨more.map BitVec.toNat, rfl⟩

/-- No zero is followed by an octal digit, and no two bytes encode a code point up to `0xFF`. -/
def Kept (a b : Byte) : Prop :=
  NulClear a b ∧ ¬IsLatin a b

theorem isChain_append_of_kept {front more : List Byte}
    (free : ∀ a ∈ front, ∀ b, Kept a b) :
    (front ++ more).IsChain Kept ↔ more.IsChain Kept := by
  induction front with
  | nil => rfl
  | cons a front inductionHypothesis =>
    obtain ⟨head, tail⟩ := List.forall_mem_cons.mp free
    rw [List.cons_append, List.isChain_cons, and_iff_right fun b _ => head b,
      inductionHypothesis tail]

/-- The bytes of a code point of several bytes: they are read back where it is above `0xFF`, and
otherwise they are the two bytes that are not. -/
theorem literalBytes_several {c : BitVec 32} {u : Byte} {trailers : List Byte}
    (scalar : IsScalar c.toNat) (several : 0x7F < c.toNat)
    (encoded : utf8 c.toNat = (u :: trailers).map BitVec.toNat) :
    c ≤ 0xFF ∧ (∃ b, trailers = [b] ∧ IsLatin u b) ∨
      literalBytes c = u :: trailers ∧ ∀ a ∈ u :: trailers, ∀ b, Kept a b := by
  by_cases narrow : c ≤ 0xFF
  · refine .inl ⟨narrow, ?_⟩
    have low : c.toNat ≤ 0xFF := narrow
    rw [utf8, if_neg (by omega), if_pos (by omega), List.map_cons] at encoded
    obtain ⟨lead, rest⟩ := List.cons.inj encoded
    obtain ⟨b, rfl, trailer⟩ := List.map_eq_singleton_iff.mp rest.symm
    refine ⟨b, rfl, ?_, ?_⟩
    · have which : u.toNat = 0xC2 ∨ u.toNat = 0xC3 := by omega
      exact which.imp BitVec.eq_of_toNat_eq BitVec.eq_of_toNat_eq
    · rw [IsTrailer]
      omega
  · refine .inr ⟨?_, fun a member b => ?_⟩
    · obtain ⟨units, written, numbers, -⟩ := utfEncodeChar_spec scalar
      rw [literalBytes, if_neg narrow, written, Option.getD_some]
      exact List.map_injective_iff.mpr (fun _ _ => BitVec.eq_of_toNat_eq) (numbers.trans encoded)
    · have number : a.toNat ∈ utf8 c.toNat := encoded ▸ List.mem_map_of_mem member
      have high : 0xFF < c.toNat := by bv_omega
      have apart : a.toNat ≠ 0 ∧ a.toNat ≠ 0xC2 ∧ a.toNat ≠ 0xC3 := by
        rw [IsScalar] at scalar
        rw [utf8] at number
        split_ifs at number <;> simp only [List.mem_cons, List.not_mem_nil, or_false] at number <;>
          omega
      refine ⟨fun zero => absurd (congrArg BitVec.toNat zero) apart.1, fun latin => ?_⟩
      rcases latin.1 with rfl | rfl
      · exact apart.2.1 rfl
      · exact apart.2.2 rfl

/-- What the code points of the rest of a string are read as. -/
structure Readable (units : List Byte) (cs : List (BitVec 32)) : Prop where
  scalars : ∀ c ∈ cs, utfIsValidDchar c = true
  most : (cs.flatMap literalBytes).length ≤ units.length
  same : (cs.flatMap literalBytes).length = units.length → cs.flatMap literalBytes = units
  chain : (cs.flatMap literalBytes).length = units.length ∧ cs.IsChain Apart ↔ units.IsChain Kept
  head : (∃ d ∈ cs.head?, IsOctal d) ↔ ∃ b ∈ units.head?, isoctal b = true

/-- A byte that is taken for a code point. -/
theorem Readable.cons {u : Byte} {units : List Byte} {cs : List (BitVec 32)}
    (behind : Readable units cs) (apart : ∀ b ∈ units.head?, ¬IsLatin u b) :
    Readable (u :: units) (u.setWidth 32 :: cs) := by
  have narrow : u.setWidth 32 ≤ (0xFF : BitVec 32) := by bv_omega
  have bytes : (u.setWidth 32 :: cs).flatMap literalBytes = u :: cs.flatMap literalBytes := by
    rw [List.flatMap_cons, literalBytes, if_pos narrow, List.singleton_append]
    exact congrArg (· :: _) (by bv_omega)
  have zero : u.setWidth 32 = (0 : BitVec 32) ↔ u = 0 :=
    ⟨fun none => by bv_omega, fun none => by rw [none]; rfl⟩
  have link : (∀ d ∈ cs.head?, Apart (u.setWidth 32) d) ↔ ∀ b ∈ units.head?, Kept u b := by
    constructor
    · intro all b member
      refine ⟨fun none octal => ?_, apart b member⟩
      obtain ⟨d, first, digit⟩ := behind.head.mpr ⟨b, member, octal⟩
      exact all d first (zero.mpr none) digit
    · intro all d member none digit
      obtain ⟨b, first, octal⟩ := behind.head.mp ⟨d, member, digit⟩
      exact (all b first).1 (zero.mp none) octal
  refine ⟨List.forall_mem_cons.mpr ⟨?_, behind.scalars⟩, ?_, fun complete => ?_, ?_, ?_⟩
  · exact (utfIsValidDchar_iff _).mpr (.inl (lt_of_le_of_lt narrow (by decide)))
  · rw [bytes, List.length_cons, List.length_cons]
    exact Nat.succ_le_succ behind.most
  · rw [bytes, List.length_cons, List.length_cons] at complete
    rw [bytes, behind.same (Nat.succ.inj complete)]
  · rw [bytes, List.length_cons, List.length_cons, Nat.add_right_cancel_iff, List.isChain_cons,
      List.isChain_cons, ← behind.chain, link]
    exact and_left_comm
  · rw [List.head?_cons, List.head?_cons]
    simp [isoctal_iff]

/-- Bytes that encode a code point of several bytes. -/
theorem Readable.append {c : BitVec 32} {u : Byte} {trailers units : List Byte}
    {cs : List (BitVec 32)} (behind : Readable units cs) (scalar : IsScalar c.toNat)
    (several : 0x7F < c.toNat) (encoded : utf8 c.toNat = (u :: trailers).map BitVec.toNat) :
    Readable (u :: (trailers ++ units)) (c :: cs) := by
  have valid := (utfIsValidDchar_iff c).mpr scalar
  have neither : ¬IsOctal c ∧ ¬isoctal u = true := by
    have first : u.toNat = c.toNat ∨ 0xC0 ≤ u.toNat := by
      rw [utf8] at encoded
      split_ifs at encoded <;> rw [List.map_cons] at encoded <;>
        have lead := (List.cons.inj encoded).1 <;> omega
    rw [isoctal_iff, IsOctal, IsOctal]
    constructor <;> bv_omega
  have heads : (∃ d ∈ (c :: cs).head?, IsOctal d) ↔
      ∃ b ∈ (u :: (trailers ++ units)).head?, isoctal b = true := by
    rw [List.head?_cons, List.head?_cons]
    simp [neither]
  have nonzero : ∀ d ∈ cs.head?, Apart c d := fun d _ zero => by
    rw [zero] at several
    exact absurd several (by decide)
  rw [← List.cons_append] at heads ⊢
  rcases literalBytes_several scalar several encoded with ⟨narrow, b, rfl, latin⟩ | ⟨bytes, kept⟩
  · have shorter : ((c :: cs).flatMap literalBytes).length < ([u, b] ++ units).length := by
      have most := behind.most
      rw [List.flatMap_cons, literalBytes, if_pos narrow, List.singleton_append, List.length_cons,
        List.length_append, List.length_cons, List.length_singleton]
      omega
    refine ⟨List.forall_mem_cons.mpr ⟨valid, behind.scalars⟩, shorter.le, fun complete =>
      absurd complete shorter.ne, iff_of_false (fun complete => shorter.ne complete.1) ?_, heads⟩
    exact fun chain => (List.isChain_cons_cons.mp chain).1.2 latin
  · refine ⟨List.forall_mem_cons.mpr ⟨valid, behind.scalars⟩, ?_, fun complete => ?_, ?_, heads⟩
    · rw [List.flatMap_cons, bytes, List.length_append, List.length_append]
      exact Nat.add_le_add_left behind.most _
    · rw [List.flatMap_cons, bytes, List.length_append, List.length_append] at complete
      rw [List.flatMap_cons, bytes, behind.same (Nat.add_left_cancel complete)]
    · rw [List.flatMap_cons, bytes, List.length_append, List.length_append,
        Nat.add_left_cancel_iff, List.isChain_cons, and_iff_right nonzero, behind.chain,
        isChain_append_of_kept kept]

theorem codePoints_readable (s : List Byte) (fuel : Nat) : ∀ i, s.length ≤ i + fuel →
    ∃ cs, codePoints s fuel i = some cs ∧ Readable (s.drop i) cs := by
  have done (i : Nat) (beyond : s.length ≤ i) : Readable (s.drop i) [] := by
    rw [List.drop_eq_nil_of_le beyond]
    exact ⟨fun c member => absurd member List.not_mem_nil, le_rfl, fun _ => rfl,
      iff_of_true ⟨rfl, .nil⟩ .nil, by simp⟩
  induction fuel with
  | zero =>
    intro i enough
    exact ⟨[], by rw [codePoints, if_neg (by omega)], done i enough⟩
  | succ fuel inductionHypothesis =>
    intro i enough
    by_cases inside : i < s.length
    · obtain ⟨u, tail, units⟩ : ∃ u tail, s.drop i = u :: tail :=
        ⟨_, _, List.drop_eq_getElem_cons inside⟩
      have next (k : Nat) : s.drop (i + 1 + k) = tail.drop k := by
        rw [← List.drop_drop, ← List.drop_drop, units]
        rfl
      obtain ⟨result, decoded, step⟩ := utfDecodeChar_step units
      obtain ⟨cs, further, behind⟩ := inductionHypothesis result.ridx (by
        rcases step with ⟨-, index, -⟩ | ⟨trailers, more, -, index, -⟩ <;> omega)
      refine ⟨result.rresult :: cs, ?_, ?_⟩
      · rw [codePoints, if_pos inside, decoded, Option.bind_eq_bind, Option.bind_some, further]
        rfl
      · rw [units]
        rcases step with ⟨value, index, apart⟩ |
          ⟨trailers, more, rfl, index, scalar, several, encoded⟩
        · rw [index, ← Nat.add_zero (i + 1), next, List.drop_zero] at behind
          rw [value]
          exact behind.cons apart
        · rw [index, next, List.drop_left] at behind
          exact behind.append scalar several encoded
    · exact ⟨[], by rw [codePoints, if_neg inside], done i (Nat.le_of_not_lt inside)⟩

/-- The text of a string token is read by the lexer without an error; it is read as the bytes of the
token exactly when no zero among them is followed by an octal digit, no two of them encode a code
point up to `0xFF`, and they are as many as a token can have. -/
theorem tokenToString_reads_back_iff (HtmlNamedEntity : List Byte → BitVec 32 × BitVec 32)
    (ustring : List Byte) (postfix_ : Option Byte) (rest : List Byte) :
    ∃ text token, tokenToString ustring postfix_ = some text ∧
      escapeStringConstant false HtmlNamedEntity (text ++ rest) = some token ∧
      token.errors = [] ∧ token.lines = 0 ∧
      (token.postfix_, token.rest) = stringPostfix (postfix_.toList ++ rest) ∧
      (token.ustring = ustring ↔ ustring.IsChain Kept ∧ ustring.length < 2 ^ 32) := by
  obtain ⟨cs, decoded, readable⟩ := codePoints_readable ustring ustring.length 0 (by omega)
  rw [List.drop_zero] at readable
  obtain ⟨token, read, errors, lines, end_, back⟩ := escapeStringConstant_literals HtmlNamedEntity
    (postfix_.toList ++ rest) readable.scalars readable.most readable.same
  refine ⟨_, token, by rw [tokenToString, decoded, Option.map_some], ?_, errors, lines, end_, ?_⟩
  · rw [← read, List.cons_append, List.append_assoc, List.cons_append]
  · rw [back, ← and_assoc, readable.chain]

/-! ### Characters read back -/

theorem issinglechar_spec : ∀ c : Byte, issinglechar c = true →
    c ≠ byte '\\' ∧ c ≠ byte '\n' ∧ (c = byte '\r' || c = byte '\'') = false ∧
      (c = 0 || c = 0x1A) = false ∧ ¬0x80 ≤ c := by
  decide

theorem charConstant_single {text rest : List Byte} {b : Byte} (behind : text.drop 1 = b :: rest)
    (single : issinglechar b = true) (closed : rest.headD 0 = byte '\'') :
    charConstant HtmlNamedEntity text =
      { value := .charLiteral, unsvalue := b.setWidth 64, rest := rest.drop 1 } := by
  obtain ⟨backslash, newline, quote, ending, low⟩ := issinglechar_spec b single
  rw [charConstant, behind]
  dsimp only
  rw [if_neg backslash, if_neg newline, if_neg (Bool.eq_false_iff.mp quote),
    if_neg (Bool.eq_false_iff.mp ending), if_neg low, closeCharacter, if_pos closed]

/-- The way without an escape sequence agrees with `charConstant`. -/
theorem scanCharacter_eq (HtmlNamedEntity : List Byte → BitVec 32 × BitVec 32) (text : List Byte) :
    scanCharacter HtmlNamedEntity text = charConstant HtmlNamedEntity text := by
  rw [scanCharacter]
  split_ifs with taken
  · rw [Bool.and_eq_true, decide_eq_true_iff] at taken
    obtain ⟨single, closed⟩ := taken
    have nonempty : text.drop 1 ≠ [] := fun empty => by
      rw [empty] at single
      exact absurd single (by decide)
    obtain ⟨b, rest, behind⟩ := List.exists_cons_of_ne_nil nonempty
    have second : text.drop 2 = rest := by
      rw [show 2 = 1 + 1 from rfl, ← List.drop_drop, behind]
      rfl
    have third : text.drop 3 = rest.drop 1 := by
      rw [show 3 = 2 + 1 from rfl, ← List.drop_drop, second]
    rw [behind, List.headD_cons] at single ⊢
    rw [charConstant_single behind single (second ▸ closed), third]
  · rfl

/-- The token that a character is read as. -/
def charKind (c : BitVec 32) : CharKind :=
  if c ≤ 0xFF then .charLiteral else if c ≤ 0xFFFF then .wcharLiteral else .dcharLiteral

theorem charConstant_escape {letter : Byte} {text rest : List Byte} {errors : List EscapeError}
    (read : escapeSequence false HtmlNamedEntity (letter :: text) =
      { c := c, errors := errors, rest := byte '\'' :: rest }) :
    charConstant HtmlNamedEntity (byte '\'' :: byte '\\' :: letter :: text) =
      { value := if letter = byte 'u' then .wcharLiteral
          else if letter = byte 'U' || letter = byte '&' then .dcharLiteral else .charLiteral
        unsvalue := c.setWidth 64
        errors := errors.map .escape
        rest := rest } := by
  rw [charConstant, List.drop_one, List.tail_cons]
  dsimp only
  rw [if_pos rfl, read, List.headD_cons, if_neg (not_not_intro rfl), closeCharacter,
    List.headD_cons, if_pos rfl]
  rfl

end LaserD.Lexer
