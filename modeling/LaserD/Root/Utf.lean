/-
This file models the encodings of `dmd/root/utf.d` and `OutBuffer.writeUTF8`, and compares
decoding with encoding.

A code point is a `dchar` of 32 bits. Encoding writes one to four code units; decoding
reads them at an index with bounds checks, advances the index and answers the code point
or the text of an error. The code units are compared through their numbers: `utf8` and
`utf16` are the units of a code point by division, and both directions meet there.

Decoding of UTF-8 accepts exactly what encoding writes. Decoding of UTF-16 tests the
first unit of a pair where the second is meant, so that a high surrogate followed by a
unit above the surrogates is accepted whenever the sum is a code point.
-/

import Mathlib.Data.List.Infix
import Mathlib.Data.Nat.Bitwise
import Mathlib.Tactic.IntervalCases
import LaserD.Lib.Overwrite

namespace LaserD.Root.Utf

open Overwrite

/-! ### Code points -/

/-- `dchar`. -/
abbrev Dchar := BitVec 32

/-- `utf_isValidDchar`. -/
def utfIsValidDchar (c : Dchar) : Bool :=
  if c < 0xD800 then true
  else if c > 0xDFFF ∧ c ≤ 0x10FFFF then true
  else false

/-- `utf_codeLengthChar`; the assertion fails outside of the code space. -/
def utfCodeLengthChar (c : Dchar) : Option Nat :=
  if c ≤ 0x7F then some 1
  else if c ≤ 0x7FF then some 2
  else if c ≤ 0xFFFF then some 3
  else if c ≤ 0x10FFFF then some 4
  else none

/-- `utf_codeLengthWchar`. -/
def utfCodeLengthWchar (c : Dchar) : Nat :=
  if c ≤ 0xFFFF then 1 else 2

/-! ### Encoding -/

/-- The conversion of a computed unit to `char`. -/
def castChar (unit : BitVec 32) : BitVec 8 := unit.setWidth 8

/-- The conversion of a computed unit to `wchar`. -/
def castWchar (unit : BitVec 32) : BitVec 16 := unit.setWidth 16

/-- `utf_encodeChar`: the units written, or a failed assertion. -/
def utfEncodeChar (c : Dchar) : Option (List (BitVec 8)) :=
  if ¬ utfIsValidDchar c then none
  else if c ≤ 0x7F then some [castChar c]
  else if c ≤ 0x07FF then
    some [castChar (0xC0#32 ||| (c >>> 6)), castChar (0x80#32 ||| (c &&& 0x3F#32))]
  else if c ≤ 0xFFFF then
    some [castChar (0xE0#32 ||| (c >>> 12)), castChar (0x80#32 ||| ((c >>> 6) &&& 0x3F#32)),
      castChar (0x80#32 ||| (c &&& 0x3F#32))]
  else if c ≤ 0x10FFFF then
    some [castChar (0xF0#32 ||| (c >>> 18)), castChar (0x80#32 ||| ((c >>> 12) &&& 0x3F#32)),
      castChar (0x80#32 ||| ((c >>> 6) &&& 0x3F#32)), castChar (0x80#32 ||| (c &&& 0x3F#32))]
  else none

/-- `utf_encodeWchar`: the units written, or a failed assertion. -/
def utfEncodeWchar (c : Dchar) : Option (List (BitVec 16)) :=
  if ¬ utfIsValidDchar c then none
  else if c ≤ 0xFFFF then some [castWchar c]
  else
    some [castWchar ((((c - 0x010000#32) >>> 10) &&& 0x03FF#32) + 0xD800#32),
      castWchar (((c - 0x010000#32) &&& 0x03FF#32) + 0xDC00#32)]

/-- An `OutBuffer`: the storage and how much of it is written. -/
structure OutBuffer where
  data : List (BitVec 8)
  offset : Nat
  inside : offset ≤ data.length

namespace OutBuffer

/-- What is written. -/
def written (buffer : OutBuffer) : List (BitVec 8) :=
  buffer.data.take buffer.offset

/-- The size of the storage that `reserve` takes. -/
def reservedSize (minSize : Nat) : Nat :=
  (minSize * 3 + 30) / 2 / 16 * 16

/-- `reserve`. What new storage holds before the room asked for ends is `fresh`. -/
def reserve (buffer : OutBuffer) (nbytes : Nat) (fresh : Nat → BitVec 8) : OutBuffer :=
  let minSize := buffer.offset + nbytes
  if minSize ≤ buffer.data.length then buffer
  else
    { data := buffer.data ++ (List.range (minSize - buffer.data.length)).map fresh ++
        List.replicate (reservedSize minSize - minSize) 0xff
      offset := buffer.offset
      inside := by
        rw [List.append_assoc, List.length_append]
        exact Nat.le_add_right_of_le buffer.inside }

/-- Units stored from the offset on, with bounds checks, and the offset advanced. -/
def put (buffer : OutBuffer) (units : List (BitVec 8)) : Option OutBuffer :=
  if fits : buffer.offset + units.length ≤ buffer.data.length then
    some {
      data := overwrite buffer.data buffer.offset units
      offset := buffer.offset + units.length
      inside := by rw [length_overwrite fits]; exact fits }
  else none

/-- `writeUTF8`. -/
def writeUTF8 (buffer : OutBuffer) (b : BitVec 32) (fresh : Nat → BitVec 8) : Option OutBuffer :=
  let buffer := buffer.reserve 6 fresh
  if b ≤ 0x7F then buffer.put [castChar b]
  else if b ≤ 0x7FF then
    buffer.put [castChar ((b >>> 6) ||| 0xC0#32), castChar ((b &&& 0x3F#32) ||| 0x80#32)]
  else if b ≤ 0xFFFF then
    buffer.put [castChar ((b >>> 12) ||| 0xE0#32), castChar (((b >>> 6) &&& 0x3F#32) ||| 0x80#32),
      castChar ((b &&& 0x3F#32) ||| 0x80#32)]
  else if b ≤ 0x1FFFFF then
    buffer.put [castChar ((b >>> 18) ||| 0xF0#32), castChar (((b >>> 12) &&& 0x3F#32) ||| 0x80#32),
      castChar (((b >>> 6) &&& 0x3F#32) ||| 0x80#32), castChar ((b &&& 0x3F#32) ||| 0x80#32)]
  else none

end OutBuffer

/-! ### Decoding -/

/-- What decoding leaves: the text of the error if there is one, the index and the result. -/
structure Decoded where
  error : Option String
  ridx : Nat
  rresult : Dchar
  deriving DecidableEq

/-- `UTF8_STRIDE`: the length of a sequence by its first unit. -/
def utf8Stride : List Nat :=
  List.replicate 128 1 ++ List.replicate 64 0xFF ++ List.replicate 32 2 ++ List.replicate 16 3 ++
    List.replicate 8 4 ++ [5, 5, 5, 5, 6, 6, 0xFF, 0xFF]

/-- The combinations of first and second unit that are overlong. -/
def isOverlong (u u2 : BitVec 8) : Bool :=
  u &&& 0xFE = 0xC0 || (u = 0xE0 && u2 &&& 0xE0 = 0x80) || (u = 0xF0 && u2 &&& 0xF0 = 0x80) ||
    (u = 0xF8 && u2 &&& 0xF8 = 0x80) || (u = 0xFC && u2 &&& 0xFC = 0x80)

/-- The loop over the trailing units: the code point, or nothing after an invalid one. A read
outside of `s` fails. -/
def decodeTrailers (s : List (BitVec 8)) : Nat → Nat → Dchar → Option (Option Dchar)
  | _, 0, c => some (some c)
  | i, remaining + 1, c => do
      let u3 ← s[i]?
      if u3 &&& 0xC0#8 ≠ 0x80#8 then some none
      else decodeTrailers s (i + 1) remaining ((c <<< 6) ||| (u3 &&& 0x3F#8).setWidth 32)

/-- `utf_decodeChar`. A read outside of `s` fails. -/
def utfDecodeChar (s : List (BitVec 8)) (ridx : Nat) : Option Decoded := do
  let i := ridx
  let ridx := ridx + 1
  let u ← s[i]?
  let failed (message : String) : Decoded := ⟨some message, ridx, u.setWidth 32⟩
  let n := utf8Stride.getD u.toNat 0
  if n = 1 then some ⟨none, ridx, u.setWidth 32⟩
  else if n ≠ 2 ∧ n ≠ 3 ∧ n ≠ 4 then some (failed "Outside Unicode code space")
  else if s.length < i + n then some (failed "Truncated UTF-8 sequence")
  else do
    let c : Dchar := u.setWidth 32 &&& ((1#32 <<< (7 - n)) - 1#32)
    let i := i + 1
    let u2 ← s[i]?
    if isOverlong u u2 then some (failed "Overlong UTF-8 sequence")
    else
      match ← decodeTrailers s i (n - 1) c with
      | none => some (failed "Invalid trailing code unit")
      | some c =>
          if ¬ utfIsValidDchar c then some (failed "Invalid code point decoded")
          else some ⟨none, i + (n - 1), c⟩

/-- `utf_decodeWchar`. A read outside of `s` fails. -/
def utfDecodeWchar (s : List (BitVec 16)) (ridx : Nat) : Option Decoded := do
  let i := ridx
  let ridx := ridx + 1
  let unit ← s[i]?
  let u : Dchar := unit.setWidth 32
  let failed (ridx : Nat) (message : String) : Decoded := ⟨some message, ridx, u⟩
  let finish (ridx : Nat) (c : Dchar) : Decoded :=
    if ¬ utfIsValidDchar c then failed ridx "Invalid code point decoded"
    else ⟨none, ridx, c⟩
  if u < 0xD800 then some ⟨none, ridx, u⟩
  else if 0xD800 ≤ u ∧ u ≤ 0xDBFF then
    if s.length ≤ i + 1 then some (failed ridx "Truncated UTF-16 sequence")
    else do
      let u2 ← s[i + 1]?
      if u2 < 0xDC00 ∨ 0xDFFF < u then some (failed ridx "Invalid low surrogate")
      else some (finish (ridx + 1) (((u - 0xD7C0#32) <<< 10) + (u2.setWidth 32 - 0xDC00#32)))
  else if 0xDC00 ≤ u ∧ u ≤ 0xDFFF then some (failed ridx "Unpaired surrogate")
  else some (finish ridx u)

/-! ### The units by their numbers -/

/-- The number of a code point is one of the code space. -/
def IsScalar (c : Nat) : Prop :=
  c < 0xD800 ∨ 0xDFFF < c ∧ c ≤ 0x10FFFF

instance (c : Nat) : Decidable (IsScalar c) :=
  inferInstanceAs (Decidable (_ ∨ _))

/-- The units of UTF-8 by division. -/
def utf8 (c : Nat) : List Nat :=
  if c ≤ 0x7F then [c]
  else if c ≤ 0x7FF then [0xC0 + c / 64, 0x80 + c % 64]
  else if c ≤ 0xFFFF then [0xE0 + c / 4096, 0x80 + c / 64 % 64, 0x80 + c % 64]
  else [0xF0 + c / 262144, 0x80 + c / 4096 % 64, 0x80 + c / 64 % 64, 0x80 + c % 64]

/-- The units of UTF-16 by division. -/
def utf16 (c : Nat) : List Nat :=
  if c ≤ 0xFFFF then [c]
  else [0xD800 + (c - 0x10000) / 1024, 0xDC00 + (c - 0x10000) % 1024]

theorem utfIsValidDchar_iff (c : Dchar) : utfIsValidDchar c = true ↔ IsScalar c.toNat := by
  have low : c < 0xD800 ↔ c.toNat < 0xD800 := Iff.rfl
  have above : c > 0xDFFF ↔ 0xDFFF < c.toNat := Iff.rfl
  have high : c ≤ 0x10FFFF ↔ c.toNat ≤ 0x10FFFF := Iff.rfl
  simp only [utfIsValidDchar, IsScalar, low, above, high]
  split
  · simp [*]
  · split <;> simp [*]

theorem toNat_castChar (unit : BitVec 32) (small : unit.toNat < 256) :
    (castChar unit).toNat = unit.toNat := by
  rw [castChar, BitVec.toNat_setWidth, Nat.mod_eq_of_lt small]

theorem toNat_castWchar (unit : BitVec 32) (small : unit.toNat < 65536) :
    (castWchar unit).toNat = unit.toNat := by
  rw [castWchar, BitVec.toNat_setWidth, Nat.mod_eq_of_lt small]

/-- A lead of high bits joined with lower bits. -/
theorem toNat_lead_or (lead k a : Nat) {x : BitVec 32} (high : lead = 2 ^ k * a)
    (small : lead < 2 ^ 32) (low : x.toNat < 2 ^ k) :
    (BitVec.ofNat 32 lead ||| x).toNat = lead + x.toNat := by
  rw [BitVec.toNat_or, BitVec.toNat_ofNat, Nat.mod_eq_of_lt small, high,
    Nat.two_pow_add_eq_or_of_lt low]

theorem toNat_lowSix (x : BitVec 32) : (x &&& 0x3F#32).toNat = x.toNat % 64 := by
  rw [BitVec.toNat_and]
  exact Nat.and_two_pow_sub_one_eq_mod x.toNat 6

theorem toNat_shift (x : BitVec 32) (count : Nat) : (x >>> count).toNat = x.toNat / 2 ^ count := by
  rw [BitVec.toNat_ushiftRight, Nat.shiftRight_eq_div_pow]

/-- A trailing unit. -/
theorem toNat_trailer (x : BitVec 32) :
    (castChar (0x80#32 ||| (x &&& 0x3F#32))).toNat = 0x80 + x.toNat % 64 := by
  have six := toNat_lowSix x
  have joined := toNat_lead_or 0x80 6 2 rfl (by decide)
    (show (x &&& 0x3F#32).toNat < 2 ^ 6 by rw [six]; exact Nat.mod_lt _ (by decide))
  rw [six] at joined
  rw [toNat_castChar]
  · exact joined
  · show (BitVec.ofNat 32 0x80 ||| _).toNat < _
    rw [joined]
    omega

/-- A first unit of two, three or four. -/
theorem toNat_first (lead k a : Nat) (x : BitVec 32) (high : lead = 2 ^ k * a)
    (low : x.toNat < 2 ^ k) (small : lead + x.toNat < 256) :
    (castChar (BitVec.ofNat 32 lead ||| x)).toNat = lead + x.toNat := by
  have joined := toNat_lead_or lead k a high (by omega) low
  rw [toNat_castChar _ (by rw [joined]; exact small), joined]

/-- Encoding writes the units by division, as many as the code length says. -/
theorem utfEncodeChar_spec {c : Dchar} (valid : IsScalar c.toNat) :
    ∃ units, utfEncodeChar c = some units ∧ units.map BitVec.toNat = utf8 c.toNat ∧
      utfCodeLengthChar c = some units.length := by
  have one : c ≤ 0x7F ↔ c.toNat ≤ 0x7F := Iff.rfl
  have two : c ≤ 0x7FF ↔ c.toNat ≤ 0x7FF := Iff.rfl
  have three : c ≤ 0xFFFF ↔ c.toNat ≤ 0xFFFF := Iff.rfl
  have four : c ≤ 0x10FFFF ↔ c.toNat ≤ 0x10FFFF := Iff.rfl
  have accepted := (utfIsValidDchar_iff c).mpr valid
  have shifted := toNat_shift c
  simp only [utfEncodeChar, utfCodeLengthChar, accepted, not_true_eq_false, if_false, utf8, one,
    two, three, four]
  rw [IsScalar] at valid
  by_cases within1 : c.toNat ≤ 0x7F
  · rw [if_pos within1, if_pos within1, if_pos within1]
    refine ⟨_, rfl, ?_, rfl⟩
    rw [List.map_singleton, toNat_castChar _ (by omega)]
  rw [if_neg within1, if_neg within1, if_neg within1]
  by_cases within2 : c.toNat ≤ 0x7FF
  · rw [if_pos within2, if_pos within2, if_pos within2]
    refine ⟨_, rfl, ?_, rfl⟩
    have first := toNat_first 0xC0 6 3 (c >>> 6) rfl
      (by rw [shifted]; omega) (by rw [shifted]; omega)
    simp only [List.map_cons, List.map_nil, toNat_trailer]
    rw [shifted] at first
    exact congrArg (· :: _) first
  rw [if_neg within2, if_neg within2, if_neg within2]
  by_cases within3 : c.toNat ≤ 0xFFFF
  · rw [if_pos within3, if_pos within3, if_pos within3]
    refine ⟨_, rfl, ?_, rfl⟩
    have first := toNat_first 0xE0 5 7 (c >>> 12) rfl
      (by rw [shifted]; omega) (by rw [shifted]; omega)
    simp only [List.map_cons, List.map_nil, toNat_trailer, shifted 6]
    rw [shifted] at first
    exact congrArg (· :: _) first
  rw [if_neg within3, if_neg within3, if_neg within3]
  rw [if_pos (by omega), if_pos (by omega)]
  refine ⟨_, rfl, ?_, rfl⟩
  have first := toNat_first 0xF0 4 15 (c >>> 18) rfl
    (by rw [shifted]; omega) (by rw [shifted]; omega)
  simp only [List.map_cons, List.map_nil, toNat_trailer, shifted 6, shifted 12]
  rw [shifted] at first
  exact congrArg (· :: _) first

/-! ### Decoding of UTF-8 -/

/-- A number that a trailing unit has. -/
def IsTrailer (u : Nat) : Prop :=
  0x80 ≤ u ∧ u < 0xC0

instance (u : Nat) : Decidable (IsTrailer u) :=
  inferInstanceAs (Decidable (_ ∧ _))

/-- The units that a run of the table covers, and those behind it. -/
theorem getD_replicate_append (count value : Nat) (rest : List Nat) (index : Nat) :
    (List.replicate count value ++ rest).getD index 0 =
      if index < count then value else rest.getD (index - count) 0 := by
  by_cases within : index < count
  · rw [if_pos within, List.getD_append _ _ _ _ (by rwa [List.length_replicate]),
      List.getD_replicate _ within]
  · rw [if_neg within, List.getD_append_right _ _ _ _ (by rw [List.length_replicate]; omega),
      List.length_replicate]

theorem utf8Stride_eq (u : BitVec 8) : utf8Stride.getD u.toNat 0 =
    if u.toNat < 0x80 then 1 else if u.toNat < 0xC0 then 0xFF else if u.toNat < 0xE0 then 2
    else if u.toNat < 0xF0 then 3 else if u.toNat < 0xF8 then 4 else if u.toNat < 0xFC then 5
    else if u.toNat < 0xFE then 6 else 0xFF := by
  have bound := u.isLt
  have runs : utf8Stride = List.replicate 128 1 ++ (List.replicate 64 0xFF ++
      (List.replicate 32 2 ++ (List.replicate 16 3 ++ (List.replicate 8 4 ++
        (List.replicate 4 5 ++ (List.replicate 2 6 ++ List.replicate 2 0xFF)))))) := by
    simp only [utf8Stride, List.append_assoc]
    rfl
  simp only [runs, getD_replicate_append]
  rw [List.getD_replicate _ (by omega)]
  exact if_congr Iff.rfl rfl <| if_congr (by omega) rfl <| if_congr (by omega) rfl <|
    if_congr (by omega) rfl <| if_congr (by omega) rfl <| if_congr (by omega) rfl <|
    if_congr (by omega) rfl rfl

/-- The bits of a unit above the lowest `k`. -/
theorem toNat_highBits (u : BitVec 8) (k : Nat) :
    (u &&& BitVec.allOnes 8 <<< k).toNat = u.toNat / 2 ^ k * 2 ^ k := by
  rw [← BitVec.shiftLeft_ushiftRight, BitVec.toNat_shiftLeft, BitVec.toNat_ushiftRight,
    Nat.shiftLeft_eq, Nat.shiftRight_eq_div_pow]
  exact Nat.mod_eq_of_lt ((Nat.div_mul_le_self _ _).trans_lt u.isLt)

/-- A unit has given high bits exactly when it lies in the range that starts at them. -/
theorem highBits_eq_iff (u value : BitVec 8) {k a : Nat} (low : value.toNat = a * 2 ^ k) :
    u &&& BitVec.allOnes 8 <<< k = value ↔
      value.toNat ≤ u.toNat ∧ u.toNat < value.toNat + 2 ^ k := by
  have positive := Nat.two_pow_pos k
  rw [← BitVec.toNat_inj, toNat_highBits, low, Nat.mul_left_inj positive.ne',
    Nat.div_eq_iff positive]
  omega

theorem trailer_iff (u : BitVec 8) : u &&& 0xC0#8 = 0x80#8 ↔ IsTrailer u.toNat :=
  highBits_eq_iff u 0x80 (k := 6) (a := 2) rfl

theorem toNat_trailer_bits (u : BitVec 8) : (u &&& 0x3F#8).toNat = u.toNat % 64 := by
  rw [BitVec.toNat_and]
  exact Nat.and_two_pow_sub_one_eq_mod u.toNat 6

theorem overlong_two_iff (u : BitVec 8) : u &&& 0xFE = 0xC0 ↔ 0xC0 ≤ u.toNat ∧ u.toNat < 0xC2 :=
  highBits_eq_iff u 0xC0 (k := 1) (a := 96) rfl

theorem overlong_three_iff (u : BitVec 8) : u &&& 0xE0 = 0x80 ↔ 0x80 ≤ u.toNat ∧ u.toNat < 0xA0 :=
  highBits_eq_iff u 0x80 (k := 5) (a := 4) rfl

theorem overlong_four_iff (u : BitVec 8) : u &&& 0xF0 = 0x80 ↔ 0x80 ≤ u.toNat ∧ u.toNat < 0x90 :=
  highBits_eq_iff u 0x80 (k := 4) (a := 8) rfl

/-- The overlong combinations among the first units of two, three or four. -/
theorem isOverlong_iff (u u2 : BitVec 8) (lead : u.toNat < 0xF8) :
    isOverlong u u2 = true ↔ 0xC0 ≤ u.toNat ∧ u.toNat < 0xC2 ∨
      u.toNat = 0xE0 ∧ 0x80 ≤ u2.toNat ∧ u2.toNat < 0xA0 ∨
      u.toNat = 0xF0 ∧ 0x80 ≤ u2.toNat ∧ u2.toNat < 0x90 := by
  have three : u = 0xE0 ↔ u.toNat = 0xE0 := BitVec.toNat_inj.symm
  have four : u = 0xF0 ↔ u.toNat = 0xF0 := BitVec.toNat_inj.symm
  have five : u ≠ 0xF8 := by
    rintro rfl
    exact absurd lead (by decide)
  have six : u ≠ 0xFC := by
    rintro rfl
    exact absurd lead (by decide)
  simp only [isOverlong, overlong_two_iff, overlong_three_iff, overlong_four_iff, three, four,
    five, six, Bool.or_eq_true, Bool.and_eq_true, decide_eq_true_iff, decide_false,
    Bool.false_and, Bool.or_false, or_assoc]

/-- The number that leading bits and trailing units make. -/
def joined (c : Nat) (units : List (BitVec 8)) : Nat :=
  units.foldl (fun c u => c * 64 + u.toNat % 64) c

theorem toNat_join {c : Dchar} {u : BitVec 8} (small : (c.toNat + 1) * 64 ≤ 2 ^ 32) :
    ((c <<< 6) ||| (u &&& 0x3F#8).setWidth 32).toNat = c.toNat * 64 + u.toNat % 64 := by
  have low : u.toNat % 64 < 2 ^ 6 := Nat.mod_lt _ (by decide)
  rw [BitVec.toNat_or, BitVec.toNat_shiftLeft, BitVec.toNat_setWidth, toNat_trailer_bits,
    Nat.shiftLeft_eq, Nat.mod_eq_of_lt (show c.toNat * 2 ^ 6 < 2 ^ 32 by omega),
    Nat.mod_eq_of_lt (show u.toNat % 64 < 2 ^ 32 by omega), Nat.mul_comm,
    ← Nat.two_pow_add_eq_or_of_lt low, Nat.mul_comm]

/-- The loop reads its units inside of `s` and joins them. -/
theorem decodeTrailers_spec (s : List (BitVec 8)) (i remaining : Nat) (c : Dchar)
    (inside : i + remaining ≤ s.length) (small : (c.toNat + 1) * 64 ^ remaining ≤ 2 ^ 32) :
    (∃ value, decodeTrailers s i remaining c = some (some value) ∧
      (∀ u ∈ (s.drop i).take remaining, IsTrailer u.toNat) ∧
      value.toNat = joined c.toNat ((s.drop i).take remaining)) ∨
    (decodeTrailers s i remaining c = some none ∧
      ∃ u ∈ (s.drop i).take remaining, ¬ IsTrailer u.toNat) := by
  induction remaining generalizing i c with
  | zero => exact Or.inl ⟨c, rfl, by simp, by simp [joined]⟩
  | succ remaining inductionHypothesis =>
    have bound : i < s.length := by omega
    have split : (s.drop i).take (remaining + 1) = s[i] :: (s.drop (i + 1)).take remaining := by
      rw [List.drop_eq_getElem_cons bound, List.take_succ_cons]
    rw [decodeTrailers, List.getElem?_eq_getElem bound, Option.bind_eq_bind, Option.bind_some, split]
    by_cases trailer : s[i] &&& 0xC0#8 = 0x80#8
    · have power : (c.toNat + 1) * 64 * 64 ^ remaining ≤ 2 ^ 32 := by
        rwa [Nat.pow_succ', ← Nat.mul_assoc] at small
      have positive : 0 < 64 ^ remaining := Nat.pow_pos (by decide)
      have narrow : (c.toNat + 1) * 64 ≤ 2 ^ 32 :=
        (Nat.le_mul_of_pos_right _ positive).trans power
      have value := toNat_join (u := s[i]) narrow
      rw [if_neg (not_not_intro trailer)]
      have further := inductionHypothesis (i + 1) ((c <<< 6) ||| (s[i] &&& 0x3F#8).setWidth 32)
        (by omega) (by
          refine (Nat.mul_le_mul_right _ ?_).trans power
          rw [value]
          omega)
      rw [value] at further
      rcases further with ⟨result, done, trailers, joins⟩ | ⟨failed, u, member, wrong⟩
      · refine Or.inl ⟨result, done, fun u member => ?_, joins⟩
        rcases List.mem_cons.mp member with rfl | member
        · exact (trailer_iff _).mp trailer
        · exact trailers u member
      · exact Or.inr ⟨failed, u, List.mem_cons_of_mem _ member, wrong⟩
    · rw [if_pos trailer]
      exact Or.inr ⟨rfl, s[i], List.mem_cons_self, mt (trailer_iff _).mpr trailer⟩

theorem toNat_leading (u : BitVec 8) {n : Nat} (low : 2 ≤ n) (high : n ≤ 4) :
    (u.setWidth 32 &&& ((1#32 <<< (7 - n)) - 1#32)).toNat = u.toNat % 2 ^ (7 - n) := by
  have bound := u.isLt
  have mask : ((1#32 <<< (7 - n)) - 1#32).toNat = 2 ^ (7 - n) - 1 := by
    interval_cases n <;> decide
  rw [BitVec.toNat_and, mask, Nat.and_two_pow_sub_one_eq_mod, BitVec.toNat_setWidth,
    Nat.mod_eq_of_lt (show u.toNat < 2 ^ 32 by omega)]

/-- What decoding makes of a sequence of `n` units that is not truncated. -/
theorem utfDecodeChar_multi {s : List (BitVec 8)} {i n : Nat} {u u2 : BitVec 8}
    {rest : List (BitVec 8)} (units : s.drop i = u :: u2 :: rest)
    (stride : utf8Stride.getD u.toNat 0 = n) (low : 2 ≤ n) (high : n ≤ 4)
    (inside : i + n ≤ s.length) (trailing : List (BitVec 8))
    (trailing_eq : trailing = (u2 :: rest).take (n - 1)) :
    (∃ value : Dchar, utfDecodeChar s i = some ⟨none, i + n, value⟩ ∧
      isOverlong u u2 = false ∧ (∀ u ∈ trailing, IsTrailer u.toNat) ∧
      value.toNat = joined (u.toNat % 2 ^ (7 - n)) trailing ∧ IsScalar value.toNat) ∨
    (∃ message, utfDecodeChar s i = some ⟨some message, i + 1, u.setWidth 32⟩ ∧
      (isOverlong u u2 = true ∨ (∃ u ∈ trailing, ¬ IsTrailer u.toNat) ∨
        ¬ IsScalar (joined (u.toNat % 2 ^ (7 - n)) trailing))) := by
  have first : s[i]? = some u := by
    rw [← Nat.add_zero i, ← List.getElem?_drop, units]
    rfl
  have second : s[i + 1]? = some u2 := by
    rw [← List.getElem?_drop, units]
    rfl
  have dropped : s.drop (i + 1) = u2 :: rest := by
    rw [← List.tail_drop, units, List.tail_cons]
  have leading := toNat_leading u low high
  have small : ((u.setWidth 32 &&& ((1#32 <<< (7 - n)) - 1#32)).toNat + 1) * 64 ^ (n - 1) ≤
      2 ^ 32 := by
    rw [leading]
    have bound := u.isLt
    interval_cases n <;> omega
  have loop := decodeTrailers_spec s (i + 1) (n - 1) _ (by omega) small
  rw [dropped, ← trailing_eq, leading] at loop
  rw [utfDecodeChar, first, Option.bind_eq_bind, Option.bind_some]
  dsimp only
  rw [stride, if_neg (by omega), if_neg (by omega), if_neg (by omega), second,
    Option.bind_eq_bind, Option.bind_some]
  by_cases overlong : isOverlong u u2 = true
  · rw [if_pos overlong]
    exact Or.inr ⟨_, rfl, Or.inl overlong⟩
  rw [if_neg overlong]
  rcases loop with ⟨value, done, trailers, joins⟩ | ⟨failed, bad⟩
  · rw [done, Option.bind_some]
    dsimp only
    by_cases scalar : IsScalar value.toNat
    · rw [if_neg (by rw [(utfIsValidDchar_iff value).mpr scalar]; simp)]
      refine Or.inl ⟨value, ?_, by simpa using overlong, trailers, joins, scalar⟩
      rw [show i + 1 + (n - 1) = i + n by omega]
    · rw [if_pos (mt (utfIsValidDchar_iff value).mp scalar)]
      exact Or.inr ⟨_, rfl, Or.inr (Or.inr (joins ▸ scalar))⟩
  · rw [failed, Option.bind_some]
    exact Or.inr ⟨_, rfl, Or.inr (Or.inl bad)⟩

/-- The units of a code point by the range of its first unit. -/
theorem utf8_cases {c : Nat} (valid : IsScalar c) {u : Nat} {rest : List Nat}
    (starts : utf8 c <+: u :: rest) :
    c ≤ 0x7F ∧ u = c ∨
    (0x7F < c ∧ c ≤ 0x7FF ∧ u = 0xC0 + c / 64 ∧ [0x80 + c % 64] <+: rest) ∨
    (0x7FF < c ∧ c ≤ 0xFFFF ∧ u = 0xE0 + c / 4096 ∧ [0x80 + c / 64 % 64, 0x80 + c % 64] <+: rest) ∨
    (0xFFFF < c ∧ c ≤ 0x10FFFF ∧ u = 0xF0 + c / 262144 ∧
      [0x80 + c / 4096 % 64, 0x80 + c / 64 % 64, 0x80 + c % 64] <+: rest) := by
  rw [IsScalar] at valid
  rw [utf8] at starts
  by_cases within1 : c ≤ 0x7F
  · rw [if_pos within1] at starts
    exact Or.inl ⟨within1, (List.cons_prefix_cons.mp starts).1.symm⟩
  rw [if_neg within1] at starts
  by_cases within2 : c ≤ 0x7FF
  · rw [if_pos within2] at starts
    have parts := List.cons_prefix_cons.mp starts
    exact Or.inr (Or.inl ⟨by omega, within2, parts.1.symm, parts.2⟩)
  rw [if_neg within2] at starts
  by_cases within3 : c ≤ 0xFFFF
  · rw [if_pos within3] at starts
    have parts := List.cons_prefix_cons.mp starts
    exact Or.inr (Or.inr (Or.inl ⟨by omega, within3, parts.1.symm, parts.2⟩))
  rw [if_neg within3] at starts
  have parts := List.cons_prefix_cons.mp starts
  exact Or.inr (Or.inr (Or.inr ⟨by omega, by omega, parts.1.symm, parts.2⟩))

/-- Decoding at an index agrees with an encoding by numbers: it succeeds exactly on the units
of a code point, with that code point and the index behind them. -/
structure Exact (encoding : Nat → List Nat) (units : List Nat) (i : Nat) (result : Decoded) :
    Prop where
  sound : result.error = none → IsScalar result.rresult.toNat ∧
    encoding result.rresult.toNat <+: units ∧
    result.ridx = i + (encoding result.rresult.toNat).length
  complete : ∀ c, IsScalar c → encoding c <+: units →
    result.error = none ∧ result.rresult.toNat = c

theorem Exact.of_failure {encoding : Nat → List Nat} {units : List Nat} {i : Nat}
    {result : Decoded} (failed : result.error ≠ none)
    (none_starts : ∀ c, IsScalar c → ¬ encoding c <+: units) :
    Exact encoding units i result :=
  ⟨fun done => absurd done failed, fun c valid starts => absurd starts (none_starts c valid)⟩

theorem Exact.of_success {encoding : Nat → List Nat} {units : List Nat} {i ridx : Nat}
    {value : Dchar} (valid : IsScalar value.toNat) (starts : encoding value.toNat <+: units)
    (index : ridx = i + (encoding value.toNat).length)
    (unique : ∀ c, IsScalar c → encoding c <+: units → c = value.toNat) :
    Exact encoding units i ⟨none, ridx, value⟩ :=
  ⟨fun _ => ⟨valid, starts, index⟩, fun c scalar begins => ⟨rfl, (unique c scalar begins).symm⟩⟩

/-- The number of a sequence of two units. -/
theorem utf8_two {u x : Nat} (lead : 0xC2 ≤ u) (lead' : u < 0xE0) (trailer : IsTrailer x) :
    utf8 (u % 32 * 64 + x % 64) = [u, x] := by
  rw [IsTrailer] at trailer
  rw [utf8, if_neg (by omega), if_pos (by omega), List.cons.injEq, List.cons.injEq]
  exact ⟨by omega, by omega, rfl⟩

/-- The number of a sequence of three units. -/
theorem utf8_three {u x y : Nat} (lead : 0xE0 ≤ u) (lead' : u < 0xF0) (trailer : IsTrailer x)
    (trailer' : IsTrailer y) (shortest : u = 0xE0 → 0xA0 ≤ x) :
    utf8 ((u % 16 * 64 + x % 64) * 64 + y % 64) = [u, x, y] := by
  rw [IsTrailer] at trailer trailer'
  rw [utf8, if_neg (by omega), if_neg (by omega), if_pos (by omega), List.cons.injEq,
    List.cons.injEq, List.cons.injEq]
  exact ⟨by omega, by omega, by omega, rfl⟩

/-- The number of a sequence of four units. -/
theorem utf8_four {u x y z : Nat} (lead : 0xF0 ≤ u) (lead' : u < 0xF8) (trailer : IsTrailer x)
    (trailer' : IsTrailer y) (trailer'' : IsTrailer z) (shortest : u = 0xF0 → 0x90 ≤ x) :
    utf8 (((u % 8 * 64 + x % 64) * 64 + y % 64) * 64 + z % 64) = [u, x, y, z] := by
  rw [IsTrailer] at trailer trailer' trailer''
  rw [utf8, if_neg (by omega), if_neg (by omega), if_neg (by omega), List.cons.injEq,
    List.cons.injEq, List.cons.injEq, List.cons.injEq]
  exact ⟨by omega, by omega, by omega, by omega, rfl⟩

/-- Decoding of a sequence of `n` units is exact when its tests accept the units of code points
and no others. -/
theorem utfDecodeChar_exact_of_multi {s : List (BitVec 8)} {i n : Nat} {u u2 : BitVec 8}
    {rest : List (BitVec 8)} (units : s.drop i = u :: u2 :: rest)
    (stride : utf8Stride.getD u.toNat 0 = n) (low : 2 ≤ n) (high : n ≤ 4)
    (inside : i + n ≤ s.length) (trailing : List (BitVec 8))
    (trailing_eq : trailing = (u2 :: rest).take (n - 1))
    (accepts : isOverlong u u2 = false → (∀ u ∈ trailing, IsTrailer u.toNat) →
      utf8 (joined (u.toNat % 2 ^ (7 - n)) trailing) = u.toNat :: trailing.map BitVec.toNat)
    (requires : ∀ c, IsScalar c → utf8 c <+: (u :: u2 :: rest).map BitVec.toNat →
      isOverlong u u2 = false ∧ (∀ u ∈ trailing, IsTrailer u.toNat) ∧
        joined (u.toNat % 2 ^ (7 - n)) trailing = c) :
    ∃ result, utfDecodeChar s i = some result ∧
      Exact utf8 ((s.drop i).map BitVec.toNat) i result ∧
      (result.error ≠ none → result.ridx = i + 1) := by
  have whole : n - 1 ≤ (u2 :: rest).length := by
    have length := congrArg List.length units
    rw [List.length_drop, List.length_cons] at length
    omega
  rw [units]
  rcases utfDecodeChar_multi units stride low high inside trailing trailing_eq with
    ⟨value, decoded, shortest, trailers, joins, scalar⟩ | ⟨message, decoded, reason⟩
  · have encoded := accepts shortest trailers
    rw [← joins] at encoded
    refine ⟨_, decoded, Exact.of_success scalar ?_ ?_ fun c valid starts => ?_,
      fun failed => absurd rfl failed⟩
    · rw [encoded, trailing_eq, List.map_take, List.map_cons (l := u2 :: rest), List.prefix_cons_inj]
      exact List.take_prefix _ _
    · rw [encoded, List.length_cons, List.length_map, trailing_eq, List.length_take]
      omega
    · rw [joins, (requires c valid starts).2.2]
  · refine ⟨_, decoded, Exact.of_failure (Option.some_ne_none _) fun c valid starts => ?_,
      fun _ => rfl⟩
    obtain ⟨shortest, trailers, number⟩ := requires c valid starts
    rcases reason with long | ⟨unit, member, wrong⟩ | wrong
    · rw [shortest] at long
      cases long
    · exact wrong (trailers unit member)
    · rw [number] at wrong
      exact wrong valid

theorem isOverlong_eq_false_iff (u u2 : BitVec 8) (lead : u.toNat < 0xF8) :
    isOverlong u u2 = false ↔ ¬ (0xC0 ≤ u.toNat ∧ u.toNat < 0xC2 ∨
      u.toNat = 0xE0 ∧ 0x80 ≤ u2.toNat ∧ u2.toNat < 0xA0 ∨
      u.toNat = 0xF0 ∧ 0x80 ≤ u2.toNat ∧ u2.toNat < 0x90) := by
  rw [← isOverlong_iff u u2 lead, Bool.not_eq_true]

theorem forall_trailer_two {x : BitVec 8} :
    (∀ u ∈ [x], IsTrailer u.toNat) ↔ IsTrailer x.toNat := by
  simp

theorem forall_trailer_three {x y : BitVec 8} :
    (∀ u ∈ [x, y], IsTrailer u.toNat) ↔ IsTrailer x.toNat ∧ IsTrailer y.toNat := by
  simp

theorem forall_trailer_four {x y z : BitVec 8} :
    (∀ u ∈ [x, y, z], IsTrailer u.toNat) ↔
      IsTrailer x.toNat ∧ IsTrailer y.toNat ∧ IsTrailer z.toNat := by
  simp

theorem utfDecodeChar_truncated {s : List (BitVec 8)} {i n : Nat} {u : BitVec 8}
    (first : s[i]? = some u) (stride : utf8Stride.getD u.toNat 0 = n) (low : 2 ≤ n) (high : n ≤ 4)
    (short : s.length < i + n) :
    utfDecodeChar s i = some ⟨some "Truncated UTF-8 sequence", i + 1, u.setWidth 32⟩ := by
  rw [utfDecodeChar, first, Option.bind_eq_bind, Option.bind_some]
  dsimp only
  rw [stride, if_neg (by omega), if_neg (by omega), if_pos short]

/-- The sequences of two units. -/
theorem utfDecodeChar_two {s : List (BitVec 8)} {i : Nat} {u x : BitVec 8}
    {rest : List (BitVec 8)} (units : s.drop i = u :: x :: rest) (lead : 0xC0 ≤ u.toNat)
    (lead' : u.toNat < 0xE0) (stride : utf8Stride.getD u.toNat 0 = 2) (inside : i + 2 ≤ s.length) :
    ∃ result, utfDecodeChar s i = some result ∧
      Exact utf8 ((s.drop i).map BitVec.toNat) i result ∧
      (result.error ≠ none → result.ridx = i + 1) := by
  have overlong := isOverlong_eq_false_iff u x (by omega)
  refine utfDecodeChar_exact_of_multi units stride (by decide) (by decide) inside [x] rfl ?_ ?_
  · intro shortest trailers
    rw [overlong] at shortest
    rw [forall_trailer_two] at trailers
    exact utf8_two (by omega) lead' trailers
  · intro c valid starts
    rw [List.map_cons, List.map_cons] at starts
    rw [overlong, forall_trailer_two, IsTrailer]
    rcases utf8_cases valid starts with h | ⟨low, high, first, second⟩ | h | h
    · omega
    · have unit := (List.cons_prefix_cons.mp second).1
      refine ⟨by omega, by omega, ?_⟩
      show u.toNat % 32 * 64 + x.toNat % 64 = c
      omega
    · omega
    · omega

/-- The sequences of three units. -/
theorem utfDecodeChar_three {s : List (BitVec 8)} {i : Nat} {u x y : BitVec 8}
    {rest : List (BitVec 8)} (units : s.drop i = u :: x :: y :: rest) (lead : 0xE0 ≤ u.toNat)
    (lead' : u.toNat < 0xF0) (stride : utf8Stride.getD u.toNat 0 = 3) (inside : i + 3 ≤ s.length) :
    ∃ result, utfDecodeChar s i = some result ∧
      Exact utf8 ((s.drop i).map BitVec.toNat) i result ∧
      (result.error ≠ none → result.ridx = i + 1) := by
  have overlong := isOverlong_eq_false_iff u x (by omega)
  refine utfDecodeChar_exact_of_multi units stride (by decide) (by decide) inside [x, y] rfl ?_ ?_
  · intro shortest trailers
    rw [overlong] at shortest
    rw [forall_trailer_three] at trailers
    refine utf8_three lead lead' trailers.1 trailers.2 fun equal => ?_
    have second := trailers.1
    rw [IsTrailer] at second
    omega
  · intro c valid starts
    rw [List.map_cons, List.map_cons, List.map_cons] at starts
    rw [overlong, forall_trailer_three, IsTrailer, IsTrailer]
    rcases utf8_cases valid starts with h | h | ⟨low, high, first, further⟩ | h
    · omega
    · omega
    · obtain ⟨second, further⟩ := List.cons_prefix_cons.mp further
      have third := (List.cons_prefix_cons.mp further).1
      refine ⟨by omega, by omega, ?_⟩
      show (u.toNat % 16 * 64 + x.toNat % 64) * 64 + y.toNat % 64 = c
      omega
    · omega

/-- The sequences of four units. -/
theorem utfDecodeChar_four {s : List (BitVec 8)} {i : Nat} {u x y z : BitVec 8}
    {rest : List (BitVec 8)} (units : s.drop i = u :: x :: y :: z :: rest) (lead : 0xF0 ≤ u.toNat)
    (lead' : u.toNat < 0xF8) (stride : utf8Stride.getD u.toNat 0 = 4) (inside : i + 4 ≤ s.length) :
    ∃ result, utfDecodeChar s i = some result ∧
      Exact utf8 ((s.drop i).map BitVec.toNat) i result ∧
      (result.error ≠ none → result.ridx = i + 1) := by
  have overlong := isOverlong_eq_false_iff u x lead'
  refine utfDecodeChar_exact_of_multi units stride (by decide) (by decide) inside [x, y, z] rfl
    ?_ ?_
  · intro shortest trailers
    rw [overlong] at shortest
    rw [forall_trailer_four] at trailers
    refine utf8_four lead lead' trailers.1 trailers.2.1 trailers.2.2 fun equal => ?_
    have second := trailers.1
    rw [IsTrailer] at second
    omega
  · intro c valid starts
    rw [List.map_cons, List.map_cons, List.map_cons, List.map_cons] at starts
    rw [overlong, forall_trailer_four, IsTrailer, IsTrailer, IsTrailer]
    rcases utf8_cases valid starts with h | h | h | ⟨low, high, first, further⟩
    · omega
    · omega
    · omega
    · obtain ⟨second, further⟩ := List.cons_prefix_cons.mp further
      obtain ⟨third, further⟩ := List.cons_prefix_cons.mp further
      have fourth := (List.cons_prefix_cons.mp further).1
      refine ⟨by omega, by omega, ?_⟩
      show ((u.toNat % 8 * 64 + x.toNat % 64) * 64 + y.toNat % 64) * 64 + z.toNat % 64 = c
      omega

/-- The result of decoding at an index inside of `s`. -/
theorem utfDecodeChar_spec {s : List (BitVec 8)} {i : Nat} (bound : i < s.length) :
    ∃ result, utfDecodeChar s i = some result ∧
      Exact utf8 ((s.drop i).map BitVec.toNat) i result ∧
      (result.error ≠ none → result.ridx = i + 1) := by
  obtain ⟨u, rest, units⟩ : ∃ u rest, s.drop i = u :: rest :=
    ⟨_, _, List.drop_eq_getElem_cons bound⟩
  have first : s[i]? = some u := by
    rw [← Nat.add_zero i, ← List.getElem?_drop, units]
    rfl
  have length : s.length = i + (rest.length + 1) := by
    have dropped := congrArg List.length units
    rw [List.length_drop, List.length_cons] at dropped
    omega
  have stride := utf8Stride_eq u
  have early : ∀ result, utfDecodeChar s i = some result →
      result.error ≠ none → result.ridx = i + 1 →
      (∀ c, IsScalar c → ¬ utf8 c <+: (u :: rest).map BitVec.toNat) →
      ∃ result, utfDecodeChar s i = some result ∧
        Exact utf8 ((s.drop i).map BitVec.toNat) i result ∧
        (result.error ≠ none → result.ridx = i + 1) := by
    intro result decoded failed index none_starts
    rw [units]
    exact ⟨result, decoded, Exact.of_failure failed none_starts, fun _ => index⟩
  by_cases ascii : u.toNat < 0x80
  · rw [if_pos ascii] at stride
    have wide : (u.setWidth 32).toNat = u.toNat := by
      rw [BitVec.toNat_setWidth, Nat.mod_eq_of_lt (by omega)]
    have decoded : utfDecodeChar s i = some ⟨none, i + 1, u.setWidth 32⟩ := by
      rw [utfDecodeChar, first, Option.bind_eq_bind, Option.bind_some]
      dsimp only
      rw [stride, if_pos rfl]
    have encoded : utf8 (u.setWidth 32).toNat = [u.toNat] := by
      rw [wide, utf8, if_pos (by omega)]
    refine ⟨_, decoded, Exact.of_success ?_ ?_ ?_ fun c valid starts => ?_,
      fun failed => absurd rfl failed⟩
    · rw [wide, IsScalar]
      omega
    · rw [encoded, units]
      exact ⟨_, rfl⟩
    · rw [encoded]
      rfl
    · rw [units, List.map_cons] at starts
      have parts := utf8_cases valid starts
      omega
  rw [if_neg ascii] at stride
  by_cases lead : 0xC0 ≤ u.toNat ∧ u.toNat < 0xF8
  swap
  · have outside : utf8Stride.getD u.toNat 0 ≠ 1 ∧ utf8Stride.getD u.toNat 0 ≠ 2 ∧
        utf8Stride.getD u.toNat 0 ≠ 3 ∧ utf8Stride.getD u.toNat 0 ≠ 4 := by
      rw [stride]
      repeat' split
      all_goals omega
    refine early ⟨some "Outside Unicode code space", i + 1, u.setWidth 32⟩ ?_
      (Option.some_ne_none _) rfl fun c valid starts => ?_
    · rw [utfDecodeChar, first, Option.bind_eq_bind, Option.bind_some]
      dsimp only
      rw [if_neg outside.1, if_pos outside.2]
    · rw [List.map_cons] at starts
      have parts := utf8_cases valid starts
      rw [IsScalar] at valid
      omega
  have lengths : ∀ c, IsScalar c → utf8 c <+: (u :: rest).map BitVec.toNat →
      (u.toNat < 0xE0 → 1 ≤ rest.length) ∧ (0xE0 ≤ u.toNat → 2 ≤ rest.length) ∧
      (0xF0 ≤ u.toNat → 3 ≤ rest.length) := by
    intro c valid starts
    rw [List.map_cons] at starts
    rcases utf8_cases valid starts with h | ⟨low, high, first, further⟩ |
      ⟨low, high, first, further⟩ | ⟨low, high, first, further⟩
    · omega
    all_goals
      have long := further.length_le
      rw [List.length_map] at long
      simp only [List.length_cons, List.length_nil] at long
      omega
  have truncated : ∀ n, utf8Stride.getD u.toNat 0 = n → 2 ≤ n → n ≤ 4 → s.length < i + n →
      (∀ c, IsScalar c → ¬ utf8 c <+: (u :: rest).map BitVec.toNat) → _ :=
    fun n strides low high short => early _ (utfDecodeChar_truncated first strides low high short)
      (Option.some_ne_none _) rfl
  rw [if_neg (by omega)] at stride
  by_cases two : u.toNat < 0xE0
  · rw [if_pos two] at stride
    cases rest with
    | nil =>
      refine truncated 2 stride (by decide) (by decide) (by rw [length]; simp)
        fun c valid starts => ?_
      exact absurd ((lengths c valid starts).1 two) (by simp)
    | cons x rest =>
      exact utfDecodeChar_two units lead.1 two stride (by rw [length, List.length_cons]; omega)
  rw [if_neg two] at stride
  by_cases three : u.toNat < 0xF0
  · rw [if_pos three] at stride
    by_cases short : rest.length < 2
    · refine truncated 3 stride (by decide) (by decide) (by omega) fun c valid starts => ?_
      have long := (lengths c valid starts).2.1 (by omega)
      omega
    · obtain ⟨x, y, tail, rfl⟩ : ∃ x y tail, rest = x :: y :: tail := by
        match rest, short with
        | x :: y :: tail, _ => exact ⟨x, y, tail, rfl⟩
        | [_], short => exact absurd (by simp) short
        | [], short => exact absurd (by simp) short
      exact utfDecodeChar_three units (by omega) three stride (by omega)
  rw [if_neg three, if_pos lead.2] at stride
  by_cases short : rest.length < 3
  · refine truncated 4 stride (by decide) (by decide) (by omega) fun c valid starts => ?_
    have long := (lengths c valid starts).2.2 (by omega)
    omega
  · obtain ⟨x, y, z, tail, rfl⟩ : ∃ x y z tail, rest = x :: y :: z :: tail := by
      match rest, short with
      | x :: y :: z :: tail, _ => exact ⟨x, y, z, tail, rfl⟩
      | [_, _], short => exact absurd (by simp) short
      | [_], short => exact absurd (by simp) short
      | [], short => exact absurd (by simp) short
    exact utfDecodeChar_four units (by omega) lead.2 stride (by omega)

/-! ### Decoding and encoding -/

/-- Lists of units are compared by their numbers. -/
theorem map_toNat_prefix_iff {w : Nat} {first second : List (BitVec w)} :
    first.map BitVec.toNat <+: second.map BitVec.toNat ↔ first <+: second :=
  List.prefix_map_iff_of_injective fun _ _ => BitVec.eq_of_toNat_eq

/-- Decoding that is exact by numbers accepts what an encoder writes, and nothing else. -/
theorem Exact.iff_encodes {w : Nat} {encoding : Nat → List Nat} {i : Nat} {result : Decoded}
    {encoder : Dchar → Option (List (BitVec w))} {s : List (BitVec w)}
    (exactly : Exact encoding (s.map BitVec.toNat) i result)
    (writes : ∀ c : Dchar, IsScalar c.toNat →
      ∃ units, encoder c = some units ∧ units.map BitVec.toNat = encoding c.toNat)
    (c : Dchar) :
    (result.error = none ∧ result.rresult = c) ↔
      utfIsValidDchar c = true ∧ ∃ units, encoder c = some units ∧ units <+: s := by
  constructor
  · rintro ⟨done, rfl⟩
    obtain ⟨valid, starts, -⟩ := exactly.sound done
    obtain ⟨units, written, numbers⟩ := writes _ valid
    refine ⟨(utfIsValidDchar_iff _).mpr valid, units, written, ?_⟩
    rw [← map_toNat_prefix_iff, numbers]
    exact starts
  · rintro ⟨accepted, units, written, starts⟩
    have valid := (utfIsValidDchar_iff c).mp accepted
    obtain ⟨expected, writtenToo, numbers⟩ := writes c valid
    obtain rfl := Option.some.inj (written.symm.trans writtenToo)
    rw [← map_toNat_prefix_iff, numbers] at starts
    obtain ⟨done, same⟩ := exactly.complete _ valid starts
    exact ⟨done, BitVec.eq_of_toNat_eq same⟩

namespace OutBuffer

theorem reserve_spec (buffer : OutBuffer) (nbytes : Nat) (fresh : Nat → BitVec 8) :
    (buffer.reserve nbytes fresh).offset = buffer.offset ∧
      (buffer.reserve nbytes fresh).written = buffer.written ∧
      buffer.offset + nbytes ≤ (buffer.reserve nbytes fresh).data.length := by
  rw [reserve]
  by_cases room : buffer.offset + nbytes ≤ buffer.data.length
  · rw [if_pos room]
    exact ⟨rfl, rfl, room⟩
  · rw [if_neg room]
    refine ⟨rfl, ?_, ?_⟩
    · rw [written, written]
      dsimp only
      rw [List.append_assoc, List.take_append_of_le_length buffer.inside]
    · simp only [List.length_append, List.length_map, List.length_range]
      omega

theorem put_spec {buffer : OutBuffer} {units : List (BitVec 8)}
    (fits : buffer.offset + units.length ≤ buffer.data.length) :
    ∃ after, buffer.put units = some after ∧ after.written = buffer.written ++ units := by
  refine ⟨_, dif_pos fits, ?_⟩
  rw [written, written]
  exact take_overwrite fits

/-- `writeUTF8` appends what `utf_encodeChar` writes. -/
theorem writeUTF8_spec (buffer : OutBuffer) (fresh : Nat → BitVec 8) {c : Dchar}
    (valid : utfIsValidDchar c = true) :
    ∃ units after, utfEncodeChar c = some units ∧ buffer.writeUTF8 c fresh = some after ∧
      after.written = buffer.written ++ units := by
  obtain ⟨offset, kept, room⟩ := buffer.reserve_spec 6 fresh
  have puts : ∀ units : List (BitVec 8), units.length ≤ 6 →
      ∃ units' after, some units = some units' ∧ (buffer.reserve 6 fresh).put units = some after ∧
        after.written = buffer.written ++ units' := by
    intro units short
    rw [← kept]
    have fits : (buffer.reserve 6 fresh).offset + units.length ≤
        (buffer.reserve 6 fresh).data.length := by omega
    obtain ⟨after, put, result⟩ := put_spec fits
    exact ⟨units, after, rfl, put, result⟩
  have scalar := (utfIsValidDchar_iff c).mp valid
  have highest : c ≤ 0x10FFFF ↔ c.toNat ≤ 0x10FFFF := Iff.rfl
  have wider : c ≤ 0x1FFFFF ↔ c.toNat ≤ 0x1FFFFF := Iff.rfl
  rw [IsScalar] at scalar
  rw [writeUTF8, utfEncodeChar]
  simp only [valid, not_true_eq_false, if_false]
  simp only [BitVec.or_comm _ 0xC0#32, BitVec.or_comm _ 0xE0#32, BitVec.or_comm _ 0xF0#32,
    BitVec.or_comm _ 0x80#32]
  by_cases within1 : c ≤ 0x7F
  · rw [if_pos within1, if_pos within1]
    exact puts _ (by simp)
  rw [if_neg within1, if_neg within1]
  by_cases within2 : c ≤ 0x7FF
  · rw [if_pos within2, if_pos within2]
    exact puts _ (by simp)
  rw [if_neg within2, if_neg within2]
  by_cases within3 : c ≤ 0xFFFF
  · rw [if_pos within3, if_pos within3]
    exact puts _ (by simp)
  rw [if_neg within3, if_neg within3, if_pos (highest.mpr (by omega)),
    if_pos (wider.mpr (by omega))]
  exact puts _ (by simp)

end OutBuffer

/-- Decoding of UTF-8 accepts exactly what encoding writes, reads inside of `s` only and
advances by the code length, or by one on failure; `writeUTF8` writes as encoding does. -/
theorem utf8_exact (s : List (BitVec 8)) (i : Nat) (inside : i < s.length) :
    (∃ result, utfDecodeChar s i = some result ∧
      (∀ c, (result.error = none ∧ result.rresult = c) ↔
        utfIsValidDchar c = true ∧ ∃ units, utfEncodeChar c = some units ∧ units <+: s.drop i) ∧
      (result.error = none →
        ∃ length, utfCodeLengthChar result.rresult = some length ∧ result.ridx = i + length) ∧
      (result.error ≠ none → result.ridx = i + 1)) ∧
    ∀ (buffer : OutBuffer) (fresh : Nat → BitVec 8) (c : Dchar), utfIsValidDchar c = true →
      ∃ units after, utfEncodeChar c = some units ∧ buffer.writeUTF8 c fresh = some after ∧
        after.written = buffer.written ++ units := by
  refine ⟨?_, fun buffer fresh c valid => buffer.writeUTF8_spec fresh valid⟩
  obtain ⟨result, decoded, exactly, failed⟩ := utfDecodeChar_spec inside
  refine ⟨result, decoded, fun c => ?_, fun done => ?_, failed⟩
  · refine exactly.iff_encodes (fun c valid => ?_) c
    obtain ⟨units, written, numbers, -⟩ := utfEncodeChar_spec valid
    exact ⟨units, written, numbers⟩
  · obtain ⟨valid, -, index⟩ := exactly.sound done
    obtain ⟨units, -, numbers, length⟩ := utfEncodeChar_spec valid
    refine ⟨units.length, length, ?_⟩
    rw [index, ← numbers, List.length_map]

/-- The euro sign is decoded. -/
theorem utf8_exact_euro :
    utfDecodeChar [0x61, 0xE2, 0x82, 0xAC] 1 = some ⟨none, 4, 0x20AC⟩ ∧
    ∃ result, utfDecodeChar [0x61, 0xE2, 0x82, 0xAC] 1 = some result ∧
      (result.error = none ∧ result.rresult = 0x20AC ↔ utfIsValidDchar 0x20AC = true ∧
        ∃ units, utfEncodeChar 0x20AC = some units ∧ units <+: [0xE2, 0x82, 0xAC]) := by
  refine ⟨by decide, ?_⟩
  obtain ⟨result, decoded, accepted, -⟩ := (utf8_exact [0x61, 0xE2, 0x82, 0xAC] 1 (by decide)).1
  exact ⟨result, decoded, accepted 0x20AC⟩

/-! ### UTF-16 -/

theorem toNat_surrogates {c : Dchar} (low : 0xFFFF < c.toNat) (high : c.toNat ≤ 0x10FFFF) :
    (castWchar ((((c - 0x010000#32) >>> 10) &&& 0x03FF#32) + 0xD800#32)).toNat =
        0xD800 + (c.toNat - 0x10000) / 1024 ∧
      (castWchar (((c - 0x010000#32) &&& 0x03FF#32) + 0xDC00#32)).toNat =
        0xDC00 + (c.toNat - 0x10000) % 1024 := by
  have difference : (c - 0x010000#32).toNat = c.toNat - 0x10000 := by bv_omega
  have tenBits : ∀ x : BitVec 32, (x &&& 0x03FF#32).toNat = x.toNat % 1024 := by
    intro x
    rw [BitVec.toNat_and]
    exact Nat.and_two_pow_sub_one_eq_mod x.toNat 10
  have sum : ∀ (x : BitVec 32) (base : Nat), base ≤ 0xDC00 →
      ((x &&& 0x03FF#32) + BitVec.ofNat 32 base).toNat = base + x.toNat % 1024 := by
    intro x base small
    rw [BitVec.toNat_add, tenBits, BitVec.toNat_ofNat]
    omega
  have first := sum ((c - 0x010000#32) >>> 10) 0xD800 (by decide)
  have second := sum (c - 0x010000#32) 0xDC00 (by decide)
  rw [toNat_shift, difference] at first
  rw [difference] at second
  constructor
  · rw [toNat_castWchar _ (by rw [first]; omega), first]
    omega
  · rw [toNat_castWchar _ (by rw [second]; omega), second]

/-- Encoding writes the units by division, as many as the code length says. -/
theorem utfEncodeWchar_spec {c : Dchar} (valid : IsScalar c.toNat) :
    ∃ units, utfEncodeWchar c = some units ∧ units.map BitVec.toNat = utf16 c.toNat ∧
      utfCodeLengthWchar c = units.length := by
  have one : c ≤ 0xFFFF ↔ c.toNat ≤ 0xFFFF := Iff.rfl
  have accepted := (utfIsValidDchar_iff c).mpr valid
  simp only [utfEncodeWchar, utfCodeLengthWchar, accepted, not_true_eq_false, if_false, utf16, one]
  rw [IsScalar] at valid
  by_cases within : c.toNat ≤ 0xFFFF
  · rw [if_pos within, if_pos within, if_pos within]
    refine ⟨_, rfl, ?_, rfl⟩
    rw [List.map_singleton, toNat_castWchar _ (by omega)]
  · rw [if_neg within, if_neg within, if_neg within]
    obtain ⟨first, second⟩ := toNat_surrogates (c := c) (by omega) (by omega)
    refine ⟨_, rfl, ?_, rfl⟩
    rw [List.map_cons, List.map_singleton, first, second]

/-- Decoding of UTF-16 at an index accepts exactly what encoding writes, advances by the code
length, and rejects a high surrogate that is not followed by a low one. -/
def WcharExact (s : List (BitVec 16)) (i : Nat) : Prop :=
  ∃ result, utfDecodeWchar s i = some result ∧
    (∀ c, (result.error = none ∧ result.rresult = c) ↔
      utfIsValidDchar c = true ∧ ∃ units, utfEncodeWchar c = some units ∧ units <+: s.drop i) ∧
    (result.error = none → result.ridx = i + utfCodeLengthWchar result.rresult) ∧
    (∀ u u2 rest, s.drop i = u :: u2 :: rest → 0xD800 ≤ u.toNat → u.toNat ≤ 0xDBFF →
      ¬ (0xDC00 ≤ u2.toNat ∧ u2.toNat ≤ 0xDFFF) → result.error ≠ none)

/-- A high surrogate is followed by a unit above the surrogates, and the number they make is in
the code space. -/
def Displaced (s : List (BitVec 16)) (i : Nat) : Prop :=
  ∃ u u2 rest, s.drop i = u :: u2 :: rest ∧ 0xD800 ≤ u.toNat ∧ u.toNat ≤ 0xDBFF ∧
    0xDFFF < u2.toNat ∧ (u.toNat - 0xD7C0) * 1024 + (u2.toNat - 0xDC00) ≤ 0x10FFFF

theorem utf16_cases {c : Nat} {u : Nat} {rest : List Nat} (starts : utf16 c <+: u :: rest) :
    c ≤ 0xFFFF ∧ u = c ∨
    (0xFFFF < c ∧ u = 0xD800 + (c - 0x10000) / 1024 ∧ [0xDC00 + (c - 0x10000) % 1024] <+: rest) := by
  rw [utf16] at starts
  by_cases within : c ≤ 0xFFFF
  · rw [if_pos within] at starts
    exact Or.inl ⟨within, (List.cons_prefix_cons.mp starts).1.symm⟩
  · rw [if_neg within] at starts
    have parts := List.cons_prefix_cons.mp starts
    exact Or.inr ⟨by omega, parts.1.symm, parts.2⟩

/-- The number of a pair as decoding computes it. -/
theorem toNat_pair {u u2 : BitVec 16} (low : 0xD800 ≤ u.toNat) (high : u.toNat ≤ 0xDBFF)
    (second : 0xDC00 ≤ u2.toNat) :
    (((u.setWidth 32 - 0xD7C0#32) <<< 10) + (u2.setWidth 32 - 0xDC00#32)).toNat =
      (u.toNat - 0xD7C0) * 1024 + (u2.toNat - 0xDC00) := by
  have bound := u2.isLt
  have first : (u.setWidth 32 - 0xD7C0#32).toNat = u.toNat - 0xD7C0 := by bv_omega
  have last : (u2.setWidth 32 - 0xDC00#32).toNat = u2.toNat - 0xDC00 := by bv_omega
  rw [BitVec.toNat_add, BitVec.toNat_shiftLeft, first, last, Nat.shiftLeft_eq]
  omega

section

variable {s : List (BitVec 16)} {i : Nat} {u : BitVec 16} {rest : List (BitVec 16)}
  (units : s.drop i = u :: rest)
include units

theorem utfDecodeWchar_start :
    s[i]? = some u ∧ s.length = i + (rest.length + 1) ∧ s[i + 1]? = rest[0]? := by
  refine ⟨?_, ?_, ?_⟩
  · rw [← Nat.add_zero i, ← List.getElem?_drop, units]
    rfl
  · have dropped := congrArg List.length units
    rw [List.length_drop, List.length_cons] at dropped
    omega
  · rw [← List.getElem?_drop, units]
    rfl

/-- A unit that is no surrogate. -/
theorem utfDecodeWchar_single (single : IsScalar u.toNat) :
    utfDecodeWchar s i = some ⟨none, i + 1, u.setWidth 32⟩ := by
  obtain ⟨first, -, -⟩ := utfDecodeWchar_start units
  have wide : (u.setWidth 32).toNat = u.toNat := by
    have bound := u.isLt
    rw [BitVec.toNat_setWidth, Nat.mod_eq_of_lt (by omega)]
  have valid : utfIsValidDchar (u.setWidth 32) = true := by
    rw [utfIsValidDchar_iff, wide]
    exact single
  have low : u.setWidth 32 < 0xD800 ↔ (u.setWidth 32).toNat < 0xD800 := Iff.rfl
  have upper : u.setWidth 32 ≤ 0xDBFF ↔ (u.setWidth 32).toNat ≤ 0xDBFF := Iff.rfl
  have last : u.setWidth 32 ≤ 0xDFFF ↔ (u.setWidth 32).toNat ≤ 0xDFFF := Iff.rfl
  rw [wide] at low upper last
  rw [IsScalar] at single
  rw [utfDecodeWchar, first, Option.bind_eq_bind, Option.bind_some]
  dsimp only
  by_cases below : u.toNat < 0xD800
  · rw [if_pos (low.mpr below)]
  · rw [if_neg (mt low.mp below), if_neg (fun both => absurd (upper.mp both.2) (by omega)),
      if_neg (fun both => absurd (last.mp both.2) (by omega)), valid]
    rfl

/-- A low surrogate that follows no high one. -/
theorem utfDecodeWchar_unpaired (low : 0xDC00 ≤ u.toNat) (high : u.toNat ≤ 0xDFFF) :
    utfDecodeWchar s i = some ⟨some "Unpaired surrogate", i + 1, u.setWidth 32⟩ := by
  obtain ⟨first, -, -⟩ := utfDecodeWchar_start units
  have wide : (u.setWidth 32).toNat = u.toNat := by
    rw [BitVec.toNat_setWidth, Nat.mod_eq_of_lt (by omega)]
  have below : u.setWidth 32 < 0xD800 ↔ (u.setWidth 32).toNat < 0xD800 := Iff.rfl
  have upper : u.setWidth 32 ≤ 0xDBFF ↔ (u.setWidth 32).toNat ≤ 0xDBFF := Iff.rfl
  have least : 0xDC00 ≤ u.setWidth 32 ↔ 0xDC00 ≤ (u.setWidth 32).toNat := Iff.rfl
  have last : u.setWidth 32 ≤ 0xDFFF ↔ (u.setWidth 32).toNat ≤ 0xDFFF := Iff.rfl
  rw [wide] at below upper least last
  rw [utfDecodeWchar, first, Option.bind_eq_bind, Option.bind_some]
  dsimp only
  rw [if_neg (fun less => absurd (below.mp less) (by omega)),
    if_neg (fun both => absurd (upper.mp both.2) (by omega)),
    if_pos ⟨least.mpr low, last.mpr high⟩]

/-- A high surrogate: truncated, rejected for its second unit, or made into a number. -/
theorem utfDecodeWchar_pair (low : 0xD800 ≤ u.toNat) (high : u.toNat ≤ 0xDBFF) :
    (rest = [] ∧ ∃ message, utfDecodeWchar s i = some ⟨some message, i + 1, u.setWidth 32⟩) ∨
    ∃ u2 further, rest = u2 :: further ∧
      ((u2.toNat < 0xDC00 ∧
        ∃ message, utfDecodeWchar s i = some ⟨some message, i + 1, u.setWidth 32⟩) ∨
      (0xDC00 ≤ u2.toNat ∧ ∃ value : Dchar,
        value.toNat = (u.toNat - 0xD7C0) * 1024 + (u2.toNat - 0xDC00) ∧
        utfDecodeWchar s i = some (if IsScalar value.toNat then ⟨none, i + 2, value⟩
          else ⟨some "Invalid code point decoded", i + 2, u.setWidth 32⟩))) := by
  obtain ⟨first, length, next⟩ := utfDecodeWchar_start units
  have wide : (u.setWidth 32).toNat = u.toNat := by
    rw [BitVec.toNat_setWidth, Nat.mod_eq_of_lt (by omega)]
  have below : u.setWidth 32 < 0xD800 ↔ (u.setWidth 32).toNat < 0xD800 := Iff.rfl
  have least : 0xD800 ≤ u.setWidth 32 ↔ 0xD800 ≤ (u.setWidth 32).toNat := Iff.rfl
  have upper : u.setWidth 32 ≤ 0xDBFF ↔ (u.setWidth 32).toNat ≤ 0xDBFF := Iff.rfl
  have past : 0xDFFF < u.setWidth 32 ↔ 0xDFFF < (u.setWidth 32).toNat := Iff.rfl
  rw [wide] at below least upper past
  rw [utfDecodeWchar, first, Option.bind_eq_bind, Option.bind_some]
  dsimp only
  rw [if_neg (fun less => absurd (below.mp less) (by omega)),
    if_pos ⟨least.mpr low, upper.mpr high⟩]
  cases rest with
  | nil =>
    rw [if_pos (by rw [length]; rfl)]
    exact Or.inl ⟨rfl, _, rfl⟩
  | cons u2 further =>
    refine Or.inr ⟨u2, further, rfl, ?_⟩
    rw [if_neg (by rw [length, List.length_cons]; omega), next, List.getElem?_cons_zero,
      Option.bind_some]
    have second : u2 < 0xDC00 ↔ u2.toNat < 0xDC00 := Iff.rfl
    by_cases small : u2.toNat < 0xDC00
    · rw [if_pos (Or.inl (second.mpr small))]
      exact Or.inl ⟨small, _, rfl⟩
    · have tests : ¬ (u2 < 0xDC00 ∨ 0xDFFF < u.setWidth 32) := by
        rw [second, past]
        omega
      rw [if_neg tests]
      refine Or.inr ⟨Nat.le_of_not_lt small, _, toNat_pair low high (Nat.le_of_not_lt small), ?_⟩
      generalize (u.setWidth 32 - 0xD7C0#32) <<< 10 + (u2.setWidth 32 - 0xDC00#32) = value
      by_cases scalar : IsScalar value.toNat
      · rw [if_pos scalar, (utfIsValidDchar_iff value).mpr scalar]
        rfl
      · rw [if_neg scalar, if_pos (mt (utfIsValidDchar_iff value).mp scalar)]

end

/-- Decoding by numbers gives decoding by units. -/
theorem wcharExact_of_exact {s : List (BitVec 16)} {i : Nat} {result : Decoded}
    (decoded : utfDecodeWchar s i = some result)
    (exactly : Exact utf16 ((s.drop i).map BitVec.toNat) i result) : WcharExact s i := by
  refine ⟨result, decoded, fun c => ?_, fun done => ?_, fun u u2 rest units low high outside done => ?_⟩
  · refine exactly.iff_encodes (fun c valid => ?_) c
    obtain ⟨written, writes, numbers, -⟩ := utfEncodeWchar_spec valid
    exact ⟨written, writes, numbers⟩
  · obtain ⟨valid, -, index⟩ := exactly.sound done
    obtain ⟨written, -, numbers, length⟩ := utfEncodeWchar_spec valid
    rw [index, ← numbers, List.length_map, length]
  · obtain ⟨valid, starts, -⟩ := exactly.sound done
    rw [units, List.map_cons, List.map_cons] at starts
    rw [IsScalar] at valid
    rcases utf16_cases starts with single | ⟨pair, first, second⟩
    · omega
    · have unit := (List.cons_prefix_cons.mp second).1
      omega

/-- Decoding of UTF-16 is exact unless a high surrogate is followed by a unit above the
surrogates with which it makes a number in the code space. -/
theorem wcharExact_iff (s : List (BitVec 16)) (i : Nat) (inside : i < s.length) :
    WcharExact s i ↔ ¬ Displaced s i := by
  constructor
  · rintro ⟨result, decoded, -, -, rejects⟩ ⟨u, u2, rest, units, low, high, above, small⟩
    refine rejects u u2 rest units low high (by omega) ?_
    rcases utfDecodeWchar_pair units low high with
      ⟨absurdity, -⟩ | ⟨unit, further, same, ⟨below, -⟩ | ⟨-, value, number, made⟩⟩
    · cases absurdity
    · obtain ⟨rfl, -⟩ := List.cons.inj same
      omega
    · obtain ⟨rfl, -⟩ := List.cons.inj same
      rw [if_pos (by rw [IsScalar]; omega)] at made
      rw [Option.some.inj (decoded.symm.trans made)]
  · intro placed
    obtain ⟨u, rest, units⟩ : ∃ u rest, s.drop i = u :: rest :=
      ⟨_, _, List.drop_eq_getElem_cons inside⟩
    by_cases single : IsScalar u.toNat
    · have wide : (u.setWidth 32).toNat = u.toNat := by
        have bound := u.isLt
        rw [BitVec.toNat_setWidth, Nat.mod_eq_of_lt (by omega)]
      have encoded : utf16 (u.setWidth 32).toNat = [u.toNat] := by
        have bound := u.isLt
        rw [wide, utf16, if_pos (by omega)]
      refine wcharExact_of_exact (utfDecodeWchar_single units single)
        (Exact.of_success (by rw [wide]; exact single) ?_ ?_ fun c valid starts => ?_)
      · rw [encoded, units]
        exact ⟨_, rfl⟩
      · rw [encoded]
        rfl
      · rw [units, List.map_cons] at starts
        have parts := utf16_cases starts
        rw [IsScalar] at valid single
        omega
    rw [IsScalar] at single
    by_cases lower : 0xDC00 ≤ u.toNat
    · refine wcharExact_of_exact (utfDecodeWchar_unpaired units lower (by have := u.isLt; omega))
        (Exact.of_failure (Option.some_ne_none _) fun c valid starts => ?_)
      rw [units, List.map_cons] at starts
      have parts := utf16_cases starts
      rw [IsScalar] at valid
      omega
    have required : ∀ c, IsScalar c → utf16 c <+: (s.drop i).map BitVec.toNat →
        0xFFFF < c ∧ u.toNat = 0xD800 + (c - 0x10000) / 1024 ∧
          [0xDC00 + (c - 0x10000) % 1024] <+: rest.map BitVec.toNat := by
      intro c valid starts
      rw [units, List.map_cons] at starts
      rw [IsScalar] at valid
      rcases utf16_cases starts with h | h
      · omega
      · exact h
    rcases utfDecodeWchar_pair units (by omega) (by omega) with
      ⟨rfl, message, decoded⟩ | ⟨u2, further, rfl, ⟨below, message, decoded⟩ |
        ⟨above, value, number, decoded⟩⟩
    · refine wcharExact_of_exact decoded
        (Exact.of_failure (Option.some_ne_none _) fun c valid starts => ?_)
      have long := (required c valid starts).2.2.length_le
      simp at long
    · refine wcharExact_of_exact decoded
        (Exact.of_failure (Option.some_ne_none _) fun c valid starts => ?_)
      have unit := (List.cons_prefix_cons.mp (required c valid starts).2.2).1
      omega
    · by_cases scalar : IsScalar value.toNat
      · rw [if_pos scalar] at decoded
        have inRange : u2.toNat ≤ 0xDFFF := by
          by_contra outside
          refine placed ⟨u, u2, further, units, by omega, by omega, by omega, ?_⟩
          rw [IsScalar] at scalar
          omega
        have encoded : utf16 value.toNat = [u.toNat, u2.toNat] := by
          rw [utf16, if_neg (by omega), List.cons.injEq, List.cons.injEq]
          exact ⟨by omega, by omega, rfl⟩
        refine wcharExact_of_exact decoded (Exact.of_success scalar ?_ ?_ fun c valid starts => ?_)
        · rw [encoded, units]
          exact ⟨_, rfl⟩
        · rw [encoded]
          rfl
        · obtain ⟨wide, first, second⟩ := required c valid starts
          have unit := (List.cons_prefix_cons.mp second).1
          omega
      · rw [if_neg scalar] at decoded
        refine wcharExact_of_exact decoded
          (Exact.of_failure (Option.some_ne_none _) fun c valid starts => ?_)
        obtain ⟨wide, first, second⟩ := required c valid starts
        have unit := (List.cons_prefix_cons.mp second).1
        have same : value.toNat = c := by omega
        rw [same] at scalar
        exact scalar valid

/-- A surrogate pair is decoded exactly. -/
theorem wcharExact_iff_pair : WcharExact [0xD83D, 0xDE00] 0 := by
  refine (wcharExact_iff _ _ (by decide)).mpr ?_
  rintro ⟨u, u2, rest, units, -, -, above, -⟩
  obtain ⟨-, tail⟩ := List.cons.inj units
  obtain ⟨rfl, -⟩ := List.cons.inj tail
  revert above
  decide

/-- A high surrogate followed by a private-use unit is decoded as the code point `U+10400`,
whose units are others. -/
theorem wchar_displaced_accepted :
    utfDecodeWchar [0xD800, 0xE000] 0 = some ⟨none, 2, 0x10400⟩ ∧
      utfEncodeWchar 0x10400 = some [0xD801, 0xDC00] ∧ ¬ WcharExact [0xD800, 0xE000] 0 := by
  refine ⟨by decide, by decide, ?_⟩
  rintro ⟨result, decoded, -, -, rejects⟩
  have made : utfDecodeWchar [0xD800, 0xE000] 0 = some ⟨none, 2, 0x10400⟩ := by decide
  obtain rfl := Option.some.inj (decoded.symm.trans made)
  exact rejects 0xD800 0xE000 [] rfl (by decide) (by decide) (by decide) rfl

end LaserD.Root.Utf
