/-
This file models the suffixes of an integer literal in C, and proves when they are diagnosed.

The suffixes are gathered in a set of flags. Only a suffix whose flag is there already is reported;
the sets of flags that a literal may have are then listed by hand, and any other set reaches an
assertion. Two suffixes that say different sizes have different flags, so together they are neither
reported nor listed.
-/

import LaserD.Lexer.HexString

namespace LaserD.Lexer

/-- The tokens of integer literals. -/
inductive IntegerTok
  | int32Literal
  | uns32Literal
  | int64Literal
  | uns64Literal
  deriving DecidableEq

/-- The byte at an offset; the text ends with zeros. -/
def peek (text : List Byte) (i : Nat) : Byte :=
  text.getD i 0

namespace CNumber

/-! ### The flags -/

/-- `FLAGS`. -/
abbrev Flags := Nat

def octalhex : Flags := 1
def decimal : Flags := 2
def unsigned : Flags := 4
def long_ : Flags := 8
def llong : Flags := 0x10
def i8 : Flags := 0x20
def i16 : Flags := 0x40
def i32 : Flags := 0x80
def i64 : Flags := 0x100

/-- The errors of a suffix. -/
inductive SuffixError
  | invalid
  | duplicate
  deriving DecidableEq

/-- The flag of the suffix at the front of a text and its length, and whether it is one of the
extensions with a number of bits. -/
def suffix (text : List Byte) : Option (Flags × Nat × Bool) :=
  let cs := peek text 0
  if cs = byte 'U' || cs = byte 'u' then some (unsigned, 1, false)
  else if cs = byte 'l' || cs = byte 'L' then
    if cs = peek text 1 then some (long_ ||| llong, 2, false) else some (long_, 1, false)
  else if cs = byte 'i' || cs = byte 'I' then
    if peek text 1 = byte '8' then some (i8, 2, true)
    else if peek text 1 = byte '1' && peek text 2 = byte '6' then some (i16, 3, true)
    else if peek text 1 = byte '3' && peek text 2 = byte '2' then some (i32, 3, true)
    else if peek text 1 = byte '6' && peek text 2 = byte '4' then some (i64, 3, true)
    else none
  else none

theorem suffix_nil : suffix [] = none := by
  decide

/-- The error after a suffix, which is followed by a byte: a number of bits that goes on, or a
flag that is there already. Only the first error is reported. -/
def report (flags f : Flags) (extension : Bool) (next : Byte) (err : Option SuffixError) :
    Option SuffixError :=
  let err := if extension && byte '0' ≤ next && next ≤ byte '9' && err.isNone then some .invalid
    else err
  if flags &&& f ≠ 0 ∧ err.isNone then some .duplicate else err

/-- The loop over the suffixes: the flags, the error if there is one, and the text after them. -/
def loop (flags : Flags) (err : Option SuffixError) (text : List Byte) :
    Flags × Option SuffixError × List Byte :=
  match _found : suffix text with
  | none => (flags, err, text)
  | some (f, len, extension) =>
    loop (flags ||| f) (report flags f extension (peek text len) err) (text.drop len)
termination_by text.length
decreasing_by
  rcases text with - | ⟨b, text⟩
  · rw [suffix_nil] at _found
    cases _found
  · have positive : 0 < len := by
      rw [suffix] at _found
      split_ifs at _found <;> cases _found <;> decide
    rw [List.length_drop, List.length_cons]
    omega

/-- The switch over the flags, where nothing means that the assertion is reached. -/
def result (longsize long_longsize : Nat) (flags : Flags) (n : BitVec 64) : Option IntegerTok :=
  if flags = octalhex then
    if n &&& 0x8000000000000000 ≠ 0 then some .uns64Literal
    else if n &&& 0xFFFFFFFF00000000 ≠ 0 then some .int64Literal
    else if n &&& 0x80000000 ≠ 0 then some .uns32Literal
    else some .int32Literal
  else if flags = decimal then
    if n &&& 0x8000000000000000 ≠ 0 then some .uns64Literal
    else if n &&& 0xFFFFFFFF80000000 ≠ 0 then some .int64Literal
    else some .int32Literal
  else if flags = octalhex ||| unsigned ∨ flags = decimal ||| unsigned then
    if n &&& 0xFFFFFFFF00000000 ≠ 0 then some .uns64Literal else some .uns32Literal
  else if flags = decimal ||| long_ then
    if longsize = 4 ∨ long_longsize = 4 then
      if n &&& 0xFFFFFFFF80000000 ≠ 0 then some .int64Literal else some .int32Literal
    else some .int64Literal
  else if flags = octalhex ||| long_ then
    if longsize = 4 ∨ long_longsize = 4 then
      if n &&& 0x8000000000000000 ≠ 0 then some .uns64Literal
      else if n &&& 0xFFFFFFFF00000000 ≠ 0 then some .int64Literal
      else if n &&& 0x80000000 ≠ 0 then some .uns32Literal
      else some .int32Literal
    else if n &&& 0x8000000000000000 ≠ 0 then some .uns64Literal
    else some .int64Literal
  else if flags = octalhex ||| unsigned ||| long_ ∨ flags = decimal ||| unsigned ||| long_ then
    if longsize = 4 ∨ long_longsize = 4 then
      if n &&& 0xFFFFFFFF00000000 ≠ 0 then some .uns64Literal else some .uns32Literal
    else some .uns64Literal
  else if flags = octalhex ||| long_ ||| llong then
    if n &&& 0x8000000000000000 ≠ 0 then some .uns64Literal else some .int64Literal
  else if flags = decimal ||| long_ ||| llong then some .int64Literal
  else if flags = octalhex ||| long_ ||| unsigned ||| llong ∨
      flags = decimal ||| long_ ||| unsigned ||| llong then some .uns64Literal
  else if flags = octalhex ||| i8 ∨ flags = octalhex ||| i16 ∨ flags = octalhex ||| i32 ∨
      flags = octalhex ||| unsigned ||| i8 ∨ flags = octalhex ||| unsigned ||| i16 ∨
      flags = octalhex ||| unsigned ||| i32 ∨ flags = decimal ||| unsigned ||| i8 ∨
      flags = decimal ||| unsigned ||| i16 ∨ flags = decimal ||| unsigned ||| i32 then
    some .uns32Literal
  else if flags = decimal ||| i8 ∨ flags = decimal ||| i16 ∨ flags = decimal ||| i32 then
    some .int32Literal
  else if flags = octalhex ||| i64 ∨ flags = octalhex ||| unsigned ||| i64 ∨
      flags = decimal ||| unsigned ||| i64 then some .uns64Literal
  else if flags = decimal ||| i64 then some .int64Literal
  else none

/-- The flags of a literal of a base. -/
def baseFlags (base : Nat) : Flags :=
  if base = 10 then decimal else octalhex

/-- `cnumber`, on the text after the digits: the token, the error, and the text after the suffixes.
-/
def cnumber (longsize long_longsize base : Nat) (n : BitVec 64) (text : List Byte) :
    Option IntegerTok × Option SuffixError × List Byte :=
  let (flags, err, rest) := loop (baseFlags base) none text
  (result longsize long_longsize flags n, err, rest)

/-! ### The suffixes of a text -/

/-- What a suffix says: that the literal is unsigned, or its size. -/
inductive Suffix
  | unsigned
  | long
  | longLong
  | i8
  | i16
  | i32
  | i64
  deriving DecidableEq

/-- The ways in which a suffix is written. -/
def Suffix.spellings : Suffix → List (List Byte)
  | unsigned => [[byte 'u'], [byte 'U']]
  | long => [[byte 'l'], [byte 'L']]
  | longLong => [[byte 'l', byte 'l'], [byte 'L', byte 'L']]
  | i8 => [[byte 'i', byte '8'], [byte 'I', byte '8']]
  | i16 => [[byte 'i', byte '1', byte '6'], [byte 'I', byte '1', byte '6']]
  | i32 => [[byte 'i', byte '3', byte '2'], [byte 'I', byte '3', byte '2']]
  | i64 => [[byte 'i', byte '6', byte '4'], [byte 'I', byte '6', byte '4']]

/-- A text begins with a suffix. -/
def Begins (text : List Byte) (s : Suffix) (rest : List Byte) : Prop :=
  ∃ w ∈ s.spellings, text = w ++ rest

/-- The suffixes at the front of a text, each as long as it can be, and the text after them. -/
inductive Suffixes : List Byte → List Suffix → List Byte → Prop
  | nil (text : List Byte) (none : ∀ s rest, ¬Begins text s rest) : Suffixes text [] text
  | cons (text rest rest' : List Byte) (s : Suffix) (more : List Suffix) (begins : Begins text s rest)
      (longest : ∀ s' rest', Begins text s' rest' → rest.length ≤ rest'.length)
      (suffixes : Suffixes rest more rest') : Suffixes text (s :: more) rest'

/-- What a suffix says about the size, where `l` and `ll` are of one kind. -/
def Suffix.kind : Suffix → Option (Fin 5)
  | unsigned => none
  | long => some 0
  | longLong => some 0
  | i8 => some 1
  | i16 => some 2
  | i32 => some 3
  | i64 => some 4

/-- The suffixes that a literal may have, in any order: at most one says that it is unsigned, and
at most one its size. -/
def Allowed (suffixes : List Suffix) : Prop :=
  (suffixes.filter fun s => s.kind = none).length ≤ 1 ∧
    (suffixes.filter fun s => s.kind ≠ none).length ≤ 1

/-- No two suffixes say different kinds of sizes. -/
def OneKind (suffixes : List Suffix) : Prop :=
  ∀ s ∈ suffixes, ∀ s' ∈ suffixes, s.kind ≠ none → s'.kind ≠ none → s.kind = s'.kind

/-- The flags of a suffix. -/
def Suffix.flags : Suffix → Flags
  | unsigned => CNumber.unsigned
  | long => long_
  | longLong => long_ ||| llong
  | i8 => CNumber.i8
  | i16 => CNumber.i16
  | i32 => CNumber.i32
  | i64 => CNumber.i64

/-! ### The loop reads the suffixes -/

/-- A suffix is read, and no shorter than it is. -/
theorem Begins.suffix_eq {text rest : List Byte} {s : Suffix} (begins : Begins text s rest) :
    ∃ f len extension, suffix text = some (f, len, extension) ∧
      text.length ≤ len + rest.length := by
  obtain ⟨w, member, rfl⟩ := begins
  have lower : suffix (byte 'l' :: rest) = some (long_ ||| llong, 2, false) ∨
      suffix (byte 'l' :: rest) = some (long_, 1, false) := by
    by_cases twice : byte 'l' = peek (byte 'l' :: rest) 1
    · exact .inl (if_pos twice)
    · exact .inr (if_neg twice)
  have upper : suffix (byte 'L' :: rest) = some (long_ ||| llong, 2, false) ∨
      suffix (byte 'L' :: rest) = some (long_, 1, false) := by
    by_cases twice : byte 'L' = peek (byte 'L' :: rest) 1
    · exact .inl (if_pos twice)
    · exact .inr (if_neg twice)
  rw [List.length_append]
  cases s with
  | long =>
    rcases List.mem_pair.mp member with rfl | rfl
    · rcases lower with found | found
      · exact ⟨_, _, _, found, Nat.add_le_add_right (by decide) _⟩
      · exact ⟨_, _, _, found, Nat.add_le_add_right (by decide) _⟩
    · rcases upper with found | found
      · exact ⟨_, _, _, found, Nat.add_le_add_right (by decide) _⟩
      · exact ⟨_, _, _, found, Nat.add_le_add_right (by decide) _⟩
  | _ => rcases List.mem_pair.mp member with rfl | rfl <;> exact ⟨_, _, _, rfl, le_rfl⟩

theorem drop_eq_cons_of_peek {text : List Byte} {i : Nat} {b : Byte} (found : peek text i = b)
    (filled : b ≠ 0) : text.drop i = b :: text.drop (i + 1) := by
  rw [peek, List.getD_eq_getElem?_getD] at found
  cases at_ : text[i]? with
  | none =>
    rw [at_] at found
    exact absurd found.symm filled
  | some b' =>
    rw [at_] at found
    obtain ⟨inside, same⟩ := List.getElem?_eq_some_iff.mp at_
    rw [List.drop_eq_getElem_cons inside, same]
    exact congrArg (· :: _) found

theorem eq_of_peek {text : List Byte} {b c d : Byte} (first : peek text 0 = b)
    (filled : b ≠ 0) :
    text = [b] ++ text.drop 1 ∧
      (peek text 1 = c → c ≠ 0 → text = [b, c] ++ text.drop 2 ∧
        (peek text 2 = d → d ≠ 0 → text = [b, c, d] ++ text.drop 3)) := by
  have one : text = b :: text.drop 1 := drop_eq_cons_of_peek first filled
  refine ⟨one, fun second filledSecond => ?_⟩
  have two : text = b :: c :: text.drop 2 := by
    rw [← drop_eq_cons_of_peek second filledSecond]
    exact one
  refine ⟨two, fun third filledThird => ?_⟩
  show text = b :: c :: d :: text.drop 3
  rw [← drop_eq_cons_of_peek third filledThird]
  exact two

/-- What is read is a suffix. -/
theorem begins_of_suffix {text : List Byte} {f : Flags} {len : Nat} {extension : Bool}
    (found : suffix text = some (f, len, extension)) :
    ∃ s : Suffix, f = s.flags ∧ Begins text s (text.drop len) := by
  have either {b c : Byte} (test : (peek text 0 = b || peek text 0 = c) = true) :
      peek text 0 = b ∨ peek text 0 = c := by
    rwa [Bool.or_eq_true, decide_eq_true_iff, decide_eq_true_iff] at test
  have both {b c : Byte} (test : (peek text 1 = b && peek text 2 = c) = true) :
      peek text 1 = b ∧ peek text 2 = c := by
    rwa [Bool.and_eq_true, decide_eq_true_iff, decide_eq_true_iff] at test
  rw [suffix] at found
  split_ifs at found with isU isL twice isI is8 is16 is32 is64 <;> cases found
  · refine ⟨.unsigned, rfl, ?_⟩
    rcases either isU with upper | lower
    · exact ⟨_, by decide, (eq_of_peek (c := 0) (d := 0) upper (by decide)).1⟩
    · exact ⟨_, by decide, (eq_of_peek (c := 0) (d := 0) lower (by decide)).1⟩
  · refine ⟨.longLong, rfl, ?_⟩
    rcases either isL with lower | upper
    · rw [lower] at twice
      exact ⟨_, by decide,
        ((eq_of_peek (d := 0) lower (by decide)).2 twice.symm (by decide)).1⟩
    · rw [upper] at twice
      exact ⟨_, by decide,
        ((eq_of_peek (d := 0) upper (by decide)).2 twice.symm (by decide)).1⟩
  · refine ⟨.long, rfl, ?_⟩
    rcases either isL with lower | upper
    · exact ⟨_, by decide, (eq_of_peek (c := 0) (d := 0) lower (by decide)).1⟩
    · exact ⟨_, by decide, (eq_of_peek (c := 0) (d := 0) upper (by decide)).1⟩
  · refine ⟨.i8, rfl, ?_⟩
    rcases either isI with lower | upper
    · exact ⟨_, by decide, ((eq_of_peek (d := 0) lower (by decide)).2 is8 (by decide)).1⟩
    · exact ⟨_, by decide, ((eq_of_peek (d := 0) upper (by decide)).2 is8 (by decide)).1⟩
  · refine ⟨.i16, rfl, ?_⟩
    obtain ⟨second, third⟩ := both is16
    rcases either isI with lower | upper
    · exact ⟨_, by decide,
        ((eq_of_peek lower (by decide)).2 second (by decide)).2 third (by decide)⟩
    · exact ⟨_, by decide,
        ((eq_of_peek upper (by decide)).2 second (by decide)).2 third (by decide)⟩
  · refine ⟨.i32, rfl, ?_⟩
    obtain ⟨second, third⟩ := both is32
    rcases either isI with lower | upper
    · exact ⟨_, by decide,
        ((eq_of_peek lower (by decide)).2 second (by decide)).2 third (by decide)⟩
    · exact ⟨_, by decide,
        ((eq_of_peek upper (by decide)).2 second (by decide)).2 third (by decide)⟩
  · refine ⟨.i64, rfl, ?_⟩
    obtain ⟨second, third⟩ := both is64
    rcases either isI with lower | upper
    · exact ⟨_, by decide,
        ((eq_of_peek lower (by decide)).2 second (by decide)).2 third (by decide)⟩
    · exact ⟨_, by decide,
        ((eq_of_peek upper (by decide)).2 second (by decide)).2 third (by decide)⟩

/-! ### The flags and the error -/

/-- The flags of a base and of suffixes. -/
def gathered (flags : Flags) (suffixes : List Suffix) : Flags :=
  suffixes.foldl (fun flags s => flags ||| s.flags) flags

/-- A suffix comes after another one with a flag of its own. -/
def Repeats (flags : Flags) : List Suffix → Prop
  | [] => False
  | s :: suffixes => flags &&& s.flags ≠ 0 ∨ Repeats (flags ||| s.flags) suffixes

/-- An error stays, and a flag that is there already is one. -/
theorem report_isSome (flags f : Flags) (extension : Bool) (next : Byte)
    (err : Option SuffixError) (either : err.isSome = true ∨ flags &&& f ≠ 0) :
    (report flags f extension next err).isSome = true := by
  rw [report]
  split_ifs with isInvalid isDuplicate isDuplicate
  · rfl
  · rfl
  · rfl
  · rcases either with given | again
    · exact given
    · rw [not_and, Option.isNone_iff_eq_none] at isDuplicate
      exact Option.isSome_iff_ne_none.mpr (isDuplicate again)

/-- The loop reads the suffixes of the text, gathers their flags, and reports a suffix that comes
again. -/
theorem loop_spec (flags : Flags) (err : Option SuffixError) (text : List Byte) :
    ∃ suffixes, Suffixes text suffixes (loop flags err text).2.2 ∧
      (loop flags err text).1 = gathered flags suffixes ∧
      (err.isSome = true ∨ Repeats flags suffixes → (loop flags err text).2.1.isSome = true) := by
  rw [loop]
  split
  next none =>
    refine ⟨[], .nil text fun s rest begins => ?_, rfl, fun either => either.elim id False.elim⟩
    obtain ⟨f, len, extension, found, -⟩ := begins.suffix_eq
    rw [none] at found
    cases found
  next f len extension found =>
    obtain ⟨s, rfl, begins⟩ := begins_of_suffix found
    have longest : ∀ s' rest', Begins text s' rest' → (text.drop len).length ≤ rest'.length := by
      intro s' rest' begins'
      obtain ⟨f', len', extension', found', within⟩ := begins'.suffix_eq
      rw [found] at found'
      cases found'
      rw [List.length_drop]
      omega
    have shorter : (text.drop len).length < text.length := by
      obtain ⟨w, member, whole⟩ := begins
      have filled : 0 < w.length := by
        cases s <;> rcases List.mem_pair.mp member with rfl | rfl <;> decide
      have lengths := congrArg List.length whole
      rw [List.length_append] at lengths
      omega
    have reported := report_isSome flags s.flags extension (peek text len) err
    obtain ⟨suffixes, read, flagsEq, error⟩ := loop_spec (flags ||| s.flags)
      (report flags s.flags extension (peek text len) err) (text.drop len)
    refine ⟨s :: suffixes, .cons _ _ _ s suffixes begins longest read, flagsEq, ?_⟩
    rintro (given | again | later)
    · exact error (.inl (reported (.inl given)))
    · exact error (.inl (reported (.inr again)))
    · exact error (.inr later)
termination_by text.length
decreasing_by exact shorter

/-! ### The sets of flags that are listed -/

/-- The sets of flags that the switch lists, in its order. -/
def legal : List Flags :=
  [octalhex, decimal, octalhex ||| unsigned, decimal ||| unsigned, decimal ||| long_,
    octalhex ||| long_, octalhex ||| unsigned ||| long_, decimal ||| unsigned ||| long_,
    octalhex ||| long_ ||| llong, decimal ||| long_ ||| llong,
    octalhex ||| long_ ||| unsigned ||| llong, decimal ||| long_ ||| unsigned ||| llong,
    octalhex ||| i8, octalhex ||| i16, octalhex ||| i32, octalhex ||| unsigned ||| i8,
    octalhex ||| unsigned ||| i16, octalhex ||| unsigned ||| i32, decimal ||| unsigned ||| i8,
    decimal ||| unsigned ||| i16, decimal ||| unsigned ||| i32, decimal ||| i8, decimal ||| i16,
    decimal ||| i32, octalhex ||| i64, octalhex ||| unsigned ||| i64, decimal ||| unsigned ||| i64,
    decimal ||| i64]

theorem result_isSome_iff (longsize long_longsize : Nat) (flags : Flags) (n : BitVec 64) :
    (result longsize long_longsize flags n).isSome = true ↔ flags ∈ legal := by
  simp only [result, apply_ite Option.isSome, Option.isSome_some, Option.isSome_none, ite_self,
    Bool.if_true_left, Bool.or_eq_true, decide_eq_true_iff, Bool.or_false]
  simp only [legal, List.mem_cons, List.not_mem_nil, or_false, or_assoc]

/-- The flags of sizes of one kind. -/
def kindFlags : Fin 5 → List Flags
  | 0 => [0, long_, long_ ||| llong]
  | 1 => [0, i8]
  | 2 => [0, i16]
  | 3 => [0, i32]
  | 4 => [0, i64]

/-- The sets of flags that a base, the suffix for unsigned literals and sizes of one kind make. -/
def closure (base : Flags) (kind : Fin 5) : List Flags :=
  (kindFlags kind).flatMap fun size => [base ||| size, base ||| size ||| unsigned]

theorem closure_legal : ∀ base ∈ [octalhex, decimal], ∀ kind,
    base ∈ closure base kind ∧ ∀ flags ∈ closure base kind, flags ∈ legal := by
  decide

/-- The suffixes of a kind, and the one for unsigned literals. -/
def kindSuffixes : Fin 5 → List Suffix
  | 0 => [.unsigned, .long, .longLong]
  | 1 => [.unsigned, .i8]
  | 2 => [.unsigned, .i16]
  | 3 => [.unsigned, .i32]
  | 4 => [.unsigned, .i64]

theorem mem_kindSuffixes {s : Suffix} {kind : Fin 5} (ofKind : s.kind = none ∨ s.kind = some kind) :
    s ∈ kindSuffixes kind := by
  revert kind
  cases s <;> decide

theorem closure_closed : ∀ base ∈ [octalhex, decimal], ∀ kind, ∀ flags ∈ closure base kind,
    ∀ s ∈ kindSuffixes kind, flags ||| s.flags ∈ closure base kind := by
  decide

theorem gathered_legal {base flags : Flags} (known : base ∈ [octalhex, decimal])
    {kind : Fin 5} (member : flags ∈ closure base kind) {suffixes : List Suffix}
    (ofKind : ∀ s ∈ suffixes, s.kind = none ∨ s.kind = some kind) :
    gathered flags suffixes ∈ legal := by
  induction suffixes generalizing flags with
  | nil => exact (closure_legal base known kind).2 flags member
  | cons s suffixes inductionHypothesis =>
    obtain ⟨head, tail⟩ := List.forall_mem_cons.mp ofKind
    exact inductionHypothesis
      (closure_closed base known kind flags member s (mem_kindSuffixes head)) tail

/-- Flags that are gathered stay. -/
theorem gathered_or (flags : Flags) (suffixes : List Suffix) :
    gathered flags suffixes ||| flags = gathered flags suffixes ∧
      ∀ s ∈ suffixes, gathered flags suffixes ||| s.flags = gathered flags suffixes := by
  induction suffixes generalizing flags with
  | nil => exact ⟨Nat.or_self _, nofun⟩
  | cons s suffixes inductionHypothesis =>
    obtain ⟨start, rest⟩ := inductionHypothesis (flags ||| s.flags)
    have unfolded : gathered flags (s :: suffixes) = gathered (flags ||| s.flags) suffixes := rfl
    rw [unfolded]
    refine ⟨?_, List.forall_mem_cons.mpr ⟨?_, rest⟩⟩
    · conv_lhs => rw [← start]
      rw [Nat.or_assoc, Nat.or_assoc, Nat.or_comm s.flags flags, ← Nat.or_assoc flags,
        Nat.or_self _, start]
    · conv_lhs => rw [← start]
      rw [Nat.or_assoc, Nat.or_assoc, Nat.or_self _, start]

/-- The suffixes that say a size. -/
def sizes : List Suffix :=
  [.long, .longLong, .i8, .i16, .i32, .i64]

theorem mem_sizes {s : Suffix} (size : s.kind ≠ none) : s ∈ sizes := by
  cases s with
  | unsigned => exact absurd rfl size
  | _ => decide

/-- No listed set has the flags of two kinds of sizes. -/
theorem kind_eq_of_legal : ∀ flags ∈ legal, ∀ s ∈ sizes, ∀ s' ∈ sizes,
    flags ||| s.flags = flags → flags ||| s'.flags = flags → s.kind = s'.kind := by
  decide

/-- The flags of suffixes are listed exactly when the suffixes say sizes of one kind. -/
theorem gathered_legal_iff (base : Nat) (suffixes : List Suffix) :
    gathered (baseFlags base) suffixes ∈ legal ↔ OneKind suffixes := by
  have known : baseFlags base ∈ [octalhex, decimal] := by
    rw [baseFlags]
    split <;> decide
  constructor
  · intro member s left s' right size size'
    have stays := (gathered_or (baseFlags base) suffixes).2
    exact kind_eq_of_legal _ member s (mem_sizes size) s' (mem_sizes size') (stays s left)
      (stays s' right)
  · intro oneKind
    obtain ⟨kind, ofKind⟩ : ∃ kind : Fin 5, ∀ s ∈ suffixes, s.kind = none ∨ s.kind = some kind := by
      by_cases sizes : ∃ s ∈ suffixes, s.kind ≠ none
      · obtain ⟨s, member, size⟩ := sizes
        obtain ⟨kind, kindEq⟩ := Option.ne_none_iff_exists'.mp size
        refine ⟨kind, fun s' member' => ?_⟩
        by_cases size' : s'.kind = none
        · exact .inl size'
        · exact .inr ((oneKind s' member' s member size' size).trans kindEq)
      · exact ⟨0, fun s member => .inl (not_not.mp fun size => sizes ⟨s, member, size⟩)⟩
    exact gathered_legal known (closure_legal _ known kind).1 ofKind

/-! ### What is reported -/

theorem repeats_of_mem {flags : Flags} {suffixes : List Suffix} {s : Suffix}
    (member : s ∈ suffixes) (meets : flags &&& s.flags ≠ 0) : Repeats flags suffixes := by
  induction suffixes generalizing flags with
  | nil => exact absurd member List.not_mem_nil
  | cons t suffixes inductionHypothesis =>
    rcases List.mem_cons.mp member with rfl | later
    · exact .inl meets
    · refine .inr (inductionHypothesis later fun apart => meets ?_)
      rw [Nat.and_or_distrib_right] at apart
      exact (Nat.or_eq_zero_iff.mp apart).1

theorem pairwise_of_not_repeats {flags : Flags} {suffixes : List Suffix}
    (never : ¬Repeats flags suffixes) :
    suffixes.Pairwise fun s s' => s.flags &&& s'.flags = 0 := by
  induction suffixes generalizing flags with
  | nil => exact .nil
  | cons t suffixes inductionHypothesis =>
    obtain ⟨-, rest⟩ := not_or.mp never
    refine .cons (fun s member => ?_) (inductionHypothesis rest)
    by_contra meets
    refine rest (repeats_of_mem member fun apart => meets ?_)
    rw [Nat.and_or_distrib_right] at apart
    exact (Nat.or_eq_zero_iff.mp apart).2

theorem length_le_one {α : Type} {R : α → α → Prop} {xs : List α} (pairwise : xs.Pairwise R)
    (never : ∀ x ∈ xs, ∀ y ∈ xs, ¬R x y) : xs.length ≤ 1 := by
  rcases xs with - | ⟨x, - | ⟨y, xs⟩⟩
  · exact Nat.zero_le 1
  · exact le_rfl
  · have related := (List.pairwise_cons.mp pairwise).1 y List.mem_cons_self
    exact absurd related (never x List.mem_cons_self y (List.mem_cons_of_mem _ List.mem_cons_self))

theorem flags_meet {s s' : Suffix} (sameKind : s.kind = s'.kind) : s.flags &&& s'.flags ≠ 0 := by
  revert sameKind
  cases s <;> cases s' <;> decide

/-- Suffixes with sizes of one kind that are not allowed come again. -/
theorem repeats_of_not_allowed {flags : Flags} {suffixes : List Suffix}
    (oneKind : OneKind suffixes) (other : ¬Allowed suffixes) : Repeats flags suffixes := by
  by_contra never
  have pairwise := pairwise_of_not_repeats never
  refine other ⟨length_le_one (pairwise.filter _) ?_, length_le_one (pairwise.filter _) ?_⟩
  · intro s left s' right apart
    have kind := of_decide_eq_true (List.mem_filter.mp left).2
    have kind' := of_decide_eq_true (List.mem_filter.mp right).2
    exact flags_meet (kind.trans kind'.symm) apart
  · intro s left s' right apart
    obtain ⟨member, size⟩ := List.mem_filter.mp left
    obtain ⟨member', size'⟩ := List.mem_filter.mp right
    exact flags_meet (oneKind s member s' member' (of_decide_eq_true size)
      (of_decide_eq_true size')) apart

/-- The suffixes of an integer literal in C are read and nothing else. The assertion is never
reached, and suffixes that are not allowed are reported, exactly when no two of them say sizes of
different kinds. -/
theorem cnumber_diagnoses_iff (longsize long_longsize base : Nat) (n : BitVec 64)
    (text : List Byte) : ∃ suffixes,
    Suffixes text suffixes (cnumber longsize long_longsize base n text).2.2 ∧
      (((cnumber longsize long_longsize base n text).1.isSome = true ∧
          (¬Allowed suffixes →
            (cnumber longsize long_longsize base n text).2.1.isSome = true)) ↔
        OneKind suffixes) := by
  obtain ⟨suffixes, read, flagsEq, error⟩ := loop_spec (baseFlags base) none text
  refine ⟨suffixes, read, ?_⟩
  show (result longsize long_longsize (loop (baseFlags base) none text).1 n).isSome = true ∧ _ ↔ _
  rw [result_isSome_iff, flagsEq, gathered_legal_iff]
  exact and_iff_left_of_imp fun oneKind other => error (.inr (repeats_of_not_allowed oneKind other))

/-- The assertion is reached in `1i8i16`. -/
theorem cnumber_asserts :
    cnumber 8 8 10 1 [byte 'i', byte '8', byte 'i', byte '1', byte '6'] = (none, none, []) := by
  decide +kernel

end CNumber

end LaserD.Lexer
