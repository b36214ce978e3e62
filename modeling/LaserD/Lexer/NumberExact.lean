/-
This file proves that the integer literals of D are lexed exactly.

What the loop keeps is that its 64 bits are the value of the digits so far modulo `2 ^ 64`, and that
the flag is set when that value has reached `2 ^ 64`: the value only grows, so a flag that stays set
is right to do so. The type is then the first one of a list that can represent the value. The one
literal below `2 ^ 64` that is reported is the decimal one with `L` and without `u` that does not
fit a `long`.
-/

import LaserD.Lexer.Number

namespace LaserD.Lexer

/-! ### Integer literals -/

/-- The bases of the integer literals of D. -/
inductive Base
  | decimal
  | hexadecimal
  | binary
  deriving DecidableEq

namespace Base

def radix : Base → Nat
  | decimal => 10
  | hexadecimal => 16
  | binary => 2

/-- The ways in which a literal of the base begins. -/
def leads : Base → List (List Byte)
  | decimal => [[]]
  | hexadecimal => [[byte '0', byte 'x'], [byte '0', byte 'X']]
  | binary => [[byte '0', byte 'b'], [byte '0', byte 'B']]

/-- The digits of the base. -/
def IsDigit : Base → Byte → Prop
  | decimal, c => byte '0' ≤ c ∧ c ≤ byte '9'
  | hexadecimal, c => isHexDigit c = true
  | binary, c => c = byte '0' ∨ c = byte '1'

end Base

/-- The suffixes of `u` or `U` and of `L`, without repetition. -/
def suffixTexts : List (List Byte) :=
  [[], [byte 'u'], [byte 'U'], [byte 'L'], [byte 'u', byte 'L'], [byte 'U', byte 'L'],
    [byte 'L', byte 'u'], [byte 'L', byte 'U']]

/-- An integer literal. Underscores may stand among the digits; a decimal literal is `0` or does not
begin with a zero or an underscore. -/
structure Literal where
  base : Base
  lead : List Byte
  leads : lead ∈ base.leads
  digits : List Byte
  each : ∀ c ∈ digits, c = byte '_' ∨ base.IsDigit c
  any : ∃ c ∈ digits, c ≠ byte '_'
  first : base = .decimal → digits = [byte '0'] ∨
    ∃ c rest, digits = c :: rest ∧ byte '1' ≤ c ∧ c ≤ byte '9'
  suffix : List Byte
  known : suffix ∈ suffixTexts

namespace Literal

/-- The text of a literal. -/
def text (l : Literal) : List Byte :=
  l.lead ++ l.digits ++ l.suffix

/-- The integer that a literal denotes. -/
def value (l : Literal) : Nat :=
  (l.digits.filter (· ≠ byte '_')).foldl
    (fun n c => n * l.base.radix + (digitValue c).toNat) 0

def isUnsigned (l : Literal) : Bool :=
  l.suffix.any fun c => c = byte 'u' || c = byte 'U'

def isLong (l : Literal) : Bool :=
  l.suffix.any (· = byte 'L')

/-- The text after a literal does not go on with it: there is no more of a suffix, and after a
literal without one no digit, underscore, exponent or fraction. A dot begins no fraction before
another dot or the name of a member. -/
structure Ends (l : Literal) (rest : List Byte) : Prop where
  suffix : peek rest 0 ∉ [byte 'u', byte 'U', byte 'L', byte 'l']
  imaginary : l.suffix = [byte 'L'] → peek rest 0 ≠ byte 'i'
  digit : l.suffix = [] → isHexDigit (peek rest 0) = false ∧
    peek rest 0 ∉ [byte '_', byte 'i', byte 'p', byte 'P']
  lead : l.base = .decimal → l.suffix = [] → l.digits = [byte '0'] →
    peek rest 0 ∉ [byte 'x', byte 'X']
  fraction : l.suffix = [] → peek rest 0 = byte '.' → peek rest 1 = byte '.' ∨
    match l.base with
    | .decimal => startsMember (peek rest 1) = true ∧
        (l.digits = [byte '0'] ∨ l.value % 2 ^ 64 ≠ 0)
    | .hexadecimal => isHexDigit (peek rest 1) = false
    | .binary => True

end Literal

/-- The integers that the type of a token can represent are those below a bound. -/
def IntegerTok.bound : IntegerTok → Nat
  | int32Literal => 2 ^ 31
  | uns32Literal => 2 ^ 32
  | int64Literal => 2 ^ 63
  | uns64Literal => 2 ^ 64

def IntegerTok.isUnsigned : IntegerTok → Bool
  | uns32Literal | uns64Literal => true
  | int32Literal | int64Literal => false

def IntegerTok.isLong : IntegerTok → Bool
  | int64Literal | uns64Literal => true
  | int32Literal | uns32Literal => false

/-- The types that a literal may have, in the order in which they are tried. -/
def Literal.candidates (l : Literal) : List IntegerTok :=
  if l.base = .decimal ∧ l.suffix = [] then [.int32Literal, .int64Literal, .uns64Literal]
  else [IntegerTok.int32Literal, .uns32Literal, .int64Literal, .uns64Literal].filter fun tok =>
    (!l.isUnsigned || tok.isUnsigned) && (!l.isLong || tok.isLong)

/-- A decimal literal with `L` and without `u`. -/
def Literal.isSignedLong (l : Literal) : Bool :=
  l.base = .decimal && l.isLong && !l.isUnsigned

/-! ### The digits -/

/-- What the digits so far mean: a value modulo `2 ^ 64`, and whether it has overflowed. -/
structure Digits.Reads (s : Digits) (value : Nat) (anyDigits : Bool) : Prop where
  n : s.n.toNat = value % 2 ^ 64
  overflow : s.overflow = decide (2 ^ 64 ≤ value)
  errorDigit : s.errorDigit = none
  anyDigits : s.anyDigits = anyDigits

theorem Digits.reads_start : (Digits.start none).Reads 0 false where
  n := rfl
  overflow := rfl
  errorDigit := rfl
  anyDigits := rfl

/-- The value is kept modulo `2 ^ 64`. -/
theorem toNat_digit {n : BitVec 64} {value base d : Nat} (reads : n.toNat = value % 2 ^ 64) :
    (n * .ofNat 64 base + .ofNat 64 d).toNat = (value * base + d) % 2 ^ 64 := by
  rw [BitVec.toNat_add, BitVec.toNat_mul, reads, BitVec.toNat_ofNat, BitVec.toNat_ofNat,
    ← Nat.mul_mod, ← Nat.add_mod]

theorem Digits.Reads.digit {s : Digits} {value base d : Nat} {anyDigits : Bool}
    (reads : s.Reads value anyDigits) (positive : 0 < base) (small : base ≤ 16) (c : Byte)
    (below : d < base) : (s.digit base c d).Reads (value * base + d) true := by
  obtain ⟨n, overflow, errorDigit, -⟩ := reads
  have kept : (if s.errorDigit.isNone ∧ d ≥ base then some c else s.errorDigit) = none := by
    rw [if_neg fun bad => absurd below (not_lt.mpr bad.2), errorDigit]
  have baseNat : (BitVec.ofNat 64 base).toNat = base := by
    rw [BitVec.toNat_ofNat, Nat.mod_eq_of_lt (by omega)]
  have digitNat : (BitVec.ofNat 64 d).toNat = d := by
    rw [BitVec.toNat_ofNat, Nat.mod_eq_of_lt (by omega)]
  have grows : value ≤ value * base + d :=
    (Nat.le_mul_of_pos_right value positive).trans (Nat.le_add_right _ _)
  rw [Digits.digit]
  by_cases few : s.n ≤ 0x0FFFFFFFFFFFFFFF
  · rw [if_pos few, kept]
    refine ⟨toNat_digit n, ?_, rfl, rfl⟩
    have bound : s.n.toNat ≤ 0x0FFFFFFFFFFFFFFF := few
    rw [n] at bound
    show s.overflow = _
    rw [overflow, decide_eq_decide]
    constructor
    · exact fun reached => reached.trans grows
    · intro reached
      by_contra below
      rw [Nat.mod_eq_of_lt (not_le.mp below)] at bound
      have product : value * base ≤ 0x0FFFFFFFFFFFFFFF * 16 := Nat.mul_le_mul bound small
      omega
  · rw [if_neg few, kept]
    refine ⟨toNat_digit n, ?_, rfl, rfl⟩
    show (s.overflow || (mulu s.n (.ofNat 64 base)).2 ||
      (addu (s.n * .ofNat 64 base) (.ofNat 64 d)).2) = _
    by_cases reached : 2 ^ 64 ≤ value
    · rw [overflow, decide_eq_true reached, decide_eq_true (reached.trans grows)]
      rfl
    · have exact_ : s.n.toNat = value := n.trans (Nat.mod_eq_of_lt (not_le.mp reached))
      have product : (mulu s.n (.ofNat 64 base)).2 = decide (2 ^ 64 ≤ value * base) := by
        rw [mulu, exact_, baseNat]
      rw [overflow, decide_eq_false reached, product, Bool.false_or]
      by_cases product : 2 ^ 64 ≤ value * base
      · rw [decide_eq_true product, decide_eq_true (product.trans (Nat.le_add_right _ _))]
        rfl
      · have productNat : (s.n * BitVec.ofNat 64 base).toNat = value * base := by
          rw [BitVec.toNat_mul, exact_, baseNat, Nat.mod_eq_of_lt (not_le.mp product)]
        rw [decide_eq_false product, Bool.false_or]
        refine decide_eq_decide.mpr ?_
        rw [BitVec.lt_def, BitVec.toNat_add, productNat, digitNat]
        omega

theorem Base.isDigit_spec (base : Base) : ∀ c, base.IsDigit c → isHexDigit c = true ∧
    c ≠ byte '_' ∧ (digitValue c).toNat < base.radix ∧ ¬(base.radix ≠ 16 ∧
      (c = byte 'e' ∨ c = byte 'E' ∨ c = byte 'f' ∨ c = byte 'F')) := by
  cases base with
  | decimal =>
    show ∀ c, byte '0' ≤ c ∧ c ≤ byte '9' → _
    decide +kernel
  | hexadecimal =>
    show ∀ c, isHexDigit c = true → _
    decide +kernel
  | binary =>
    show ∀ c, c = byte '0' ∨ c = byte '1' → _
    decide +kernel

theorem Base.radix_spec (base : Base) : 0 < base.radix ∧ base.radix ≤ 16 := by
  cases base <;> decide

theorem digitsLoop_digit (base : Base) (s : Digits) (rest : List Byte) {c : Byte}
    (digit : base.IsDigit c) : digitsLoop false base.radix s (c :: rest) =
      digitsLoop false base.radix (s.digit base.radix c (digitValue c).toNat) rest := by
  obtain ⟨hex, -, -, integral⟩ := base.isDigit_spec c digit
  rw [digitsLoop, if_pos hex, if_neg integral]

/-- The digits and underscores of a literal are read. -/
theorem digitsLoop_digits (base : Base) (rest : List Byte) {digits : List Byte}
    (each : ∀ c ∈ digits, c = byte '_' ∨ base.IsDigit c) {s : Digits} {value : Nat}
    {anyDigits : Bool} (reads : s.Reads value anyDigits) : ∃ s' : Digits,
    digitsLoop false base.radix s (digits ++ rest) = digitsLoop false base.radix s' rest ∧
      s'.Reads ((digits.filter (· ≠ byte '_')).foldl
        (fun n c => n * base.radix + (digitValue c).toNat) value)
        (anyDigits || digits.any (· ≠ byte '_')) := by
  induction digits generalizing s value anyDigits with
  | nil =>
    refine ⟨s, rfl, ?_⟩
    rw [List.any_nil, Bool.or_false]
    exact reads
  | cons c digits inductionHypothesis =>
    obtain ⟨head, tail⟩ := List.forall_mem_cons.mp each
    rcases head with rfl | digit
    · obtain ⟨s', loop, reads'⟩ := inductionHypothesis tail reads
      exact ⟨s', loop, reads'⟩
    · obtain ⟨-, notUnderscore, below, -⟩ := base.isDigit_spec c digit
      obtain ⟨s', loop, reads'⟩ := inductionHypothesis tail
        (reads.digit base.radix_spec.1 base.radix_spec.2 c below)
      refine ⟨s', ?_, ?_⟩
      · rw [List.cons_append, digitsLoop_digit base s _ digit, loop]
      · rw [List.filter_cons_of_pos (by exact decide_eq_true notUnderscore), List.foldl_cons,
          List.any_cons, decide_eq_true notUnderscore, Bool.true_or, Bool.or_true]
        rwa [Bool.true_or] at reads'

/-! ### The end of the digits -/

/-- The loop ends at a suffix. -/
theorem digitsLoop_suffix (base : Nat) (s : Digits) (rest : List Byte) {suffix : List Byte}
    (known : suffix ∈ suffixTexts) (filled : suffix ≠ [])
    (imaginary : suffix = [byte 'L'] → peek rest 0 ≠ byte 'i') :
    digitsLoop false base s (suffix ++ rest) = some (s, suffix ++ rest) := by
  simp only [suffixTexts, List.mem_cons, List.not_mem_nil, or_false] at known
  rcases known with rfl | rfl | rfl | rfl | rfl | rfl | rfl | rfl
  · exact absurd rfl filled
  · rfl
  · rfl
  · exact if_neg (imaginary rfl)
  all_goals rfl

/-- The loop ends at a byte that does not go on with the digits. -/
theorem digitsLoop_ends (base : Nat) (s : Digits) (rest : List Byte)
    (digit : isHexDigit (peek rest 0) = false)
    (other : peek rest 0 ∉ [byte '_', byte 'i', byte 'p', byte 'P', byte 'L'])
    (fraction : peek rest 0 = byte '.' → peek rest 1 = byte '.' ∨
      (base ≤ 10 ∧ s.n > 0 ∧ startsMember (peek rest 1) = true) ∨
      (base = 16 ∧ isHexDigit (peek rest 1) = false) ∨ base = 2) :
    digitsLoop false base s rest = some (s, rest) := by
  cases rest with
  | nil => rfl
  | cons c rest =>
    have first : peek (c :: rest) 0 = c := rfl
    have second : peek (c :: rest) 1 = peek rest 0 := rfl
    rw [first] at digit other fraction
    rw [second] at fraction
    simp only [List.mem_cons, List.not_mem_nil, or_false, not_or] at other
    obtain ⟨underscore, imaginary, power, power', long⟩ := other
    rw [digitsLoop, if_neg (Bool.eq_false_iff.mp digit), if_neg long, if_neg imaginary,
      if_neg (not_or.mpr ⟨power, power'⟩), if_neg underscore]
    by_cases dot : c = byte '.'
    · rw [if_pos dot]
      by_cases range : peek rest 0 = byte '.'
      · rw [if_pos range]
      · rw [if_neg range]
        by_cases member : base ≤ 10 ∧ s.n > 0 ∧ startsMember (peek rest 0) = true
        · rw [if_pos member, if_neg fun inC => Bool.false_ne_true inC.1]
        · rw [if_neg member]
          rcases fraction dot with another | member' | ⟨sixteen, hex⟩ | two
          · exact absurd another range
          · exact absurd member' member
          · rw [if_pos ⟨sixteen, .inl (Bool.eq_false_iff.mp hex)⟩]
          · rw [if_pos two, ite_self]
    · rw [if_neg dot]

/-! ### The suffix -/

/-- The flags of a suffix. -/
def suffixFlags (suffix : List Byte) : NumberFlags :=
  (if suffix.any fun c => c = byte 'u' || c = byte 'U' then NumberFlags.unsigned
    else NumberFlags.none) |||
  (if suffix.any (· = byte 'L') then NumberFlags.long_ else NumberFlags.none)

theorem suffixLoop_ends (flags : NumberFlags) (err : Bool) (errors : List NumberError)
    (rest : List Byte) (ends : peek rest 0 ∉ [byte 'u', byte 'U', byte 'L', byte 'l']) :
    suffixLoop flags err errors rest = (flags, err, errors, rest) := by
  cases rest with
  | nil => rfl
  | cons c rest =>
    have first : peek (c :: rest) 0 = c := rfl
    rw [first] at ends
    simp only [List.mem_cons, List.not_mem_nil, or_false, not_or] at ends
    obtain ⟨lower, upper, long, wrong⟩ := ends
    have none : suffixFlag c = none := by
      rw [suffixFlag, if_neg (not_or.mpr ⟨upper, lower⟩), if_neg wrong, if_neg long]
    rw [suffixLoop, none]

theorem suffixLoop_cons {flags f : NumberFlags} (err : Bool) (errors : List NumberError)
    {c : Byte} (rest : List Byte) (flag : suffixFlag c = some (f, [])) (apart : flags &&& f = 0) :
    suffixLoop flags err errors (c :: rest) = suffixLoop (flags ||| f) err errors rest := by
  have once : (decide (flags &&& f ≠ 0) && !err) = false := by
    rw [decide_eq_false (not_not.mpr apart), Bool.false_and]
  rw [suffixLoop, flag]
  simp only [once, Bool.or_false, List.append_nil, Bool.false_eq_true, if_false]

theorem baseNumberFlags_mem (base : Nat) :
    baseNumberFlags base ∈ [NumberFlags.none, NumberFlags.decimal] := by
  rw [baseNumberFlags]
  split <;> decide

/-- The suffix of a literal is read without an error. -/
theorem suffixLoop_suffix (base : Nat) (err : Bool) (errors : List NumberError)
    (rest : List Byte) (ends : peek rest 0 ∉ [byte 'u', byte 'U', byte 'L', byte 'l'])
    {suffix : List Byte} (known : suffix ∈ suffixTexts) :
    suffixLoop (baseNumberFlags base) err errors (suffix ++ rest) =
      (baseNumberFlags base ||| suffixFlags suffix, err, errors, rest) := by
  have stops (flags : NumberFlags) := suffixLoop_ends flags err errors rest ends
  have one {c : Byte} {f : NumberFlags} (flag : suffixFlag c = some (f, []))
      (apart : ∀ flags ∈ [NumberFlags.none, NumberFlags.decimal], flags &&& f = 0) :
      suffixLoop (baseNumberFlags base) err errors (c :: rest) =
        (baseNumberFlags base ||| f, err, errors, rest) := by
    rw [suffixLoop_cons err errors rest flag (apart _ (baseNumberFlags_mem base)), stops]
  have two {c c' : Byte} {f f' : NumberFlags} (flag : suffixFlag c = some (f, []))
      (flag' : suffixFlag c' = some (f', []))
      (apart : ∀ flags ∈ [NumberFlags.none, NumberFlags.decimal],
        flags &&& f = 0 ∧ (flags ||| f) &&& f' = 0) :
      suffixLoop (baseNumberFlags base) err errors (c :: c' :: rest) =
        (baseNumberFlags base ||| f ||| f', err, errors, rest) := by
    obtain ⟨first, second⟩ := apart _ (baseNumberFlags_mem base)
    rw [suffixLoop_cons err errors _ flag first, suffixLoop_cons err errors _ flag' second, stops]
  simp only [suffixTexts, List.mem_cons, List.not_mem_nil, or_false] at known
  rcases known with rfl | rfl | rfl | rfl | rfl | rfl | rfl | rfl
  · rw [show suffixFlags [] = 0 from rfl, Nat.or_zero]
    exact stops (baseNumberFlags base)
  · exact one rfl (by decide)
  · exact one rfl (by decide)
  · exact one rfl (by decide)
  all_goals
    refine (two rfl rfl (by decide)).trans ?_
    rw [Nat.or_assoc]
    rfl

/-! ### The type -/

/-- A mask of the high bits tests a bound. -/
theorem and_high_ne_zero_iff (n mask : BitVec 64) (k : Nat) (high : mask = BitVec.allOnes 64 <<< k) :
    n &&& mask ≠ 0 ↔ 2 ^ k ≤ n.toNat := by
  have bit (i : Nat) : (n &&& mask).getLsbD i = (n.getLsbD i && decide (k ≤ i)) := by
    by_cases inside : i < 64
    · rw [high, BitVec.getLsbD_and, BitVec.getLsbD_shiftLeft, decide_eq_true inside, Bool.true_and,
        BitVec.getLsbD_allOnes]
      by_cases above : k ≤ i
      · rw [decide_eq_false (not_lt.mpr above), decide_eq_true above,
          decide_eq_true (by omega : i - k < 64)]
        rfl
      · rw [decide_eq_true (not_le.mp above), decide_eq_false above]
        rfl
    · rw [BitVec.getLsbD_of_ge _ _ (not_lt.mp inside), BitVec.getLsbD_of_ge _ _ (not_lt.mp inside),
        Bool.false_and]
  rw [← not_lt, not_iff_not]
  constructor
  · intro zero
    refine Nat.lt_pow_two_of_testBit _ fun i above => ?_
    have clear := bit i
    rw [zero, decide_eq_true above, Bool.and_true] at clear
    exact clear.symm.trans BitVec.getLsbD_zero
  · intro small
    refine BitVec.eq_of_getLsbD_eq fun i _ => ?_
    rw [bit]
    refine Eq.trans ?_ BitVec.getLsbD_zero.symm
    by_cases above : k ≤ i
    · rw [BitVec.getLsbD, Nat.testBit_eq_false_of_lt
        (Nat.lt_of_lt_of_le small (Nat.pow_le_pow_right (by decide) above)), Bool.false_and]
    · rw [decide_eq_false above, Bool.and_false]

theorem mask63 (n : BitVec 64) : n &&& 0x8000000000000000 ≠ 0 ↔ 2 ^ 63 ≤ n.toNat :=
  and_high_ne_zero_iff n _ 63 (by decide)

theorem mask32 (n : BitVec 64) : n &&& 0xFFFFFFFF00000000 ≠ 0 ↔ 2 ^ 32 ≤ n.toNat :=
  and_high_ne_zero_iff n _ 32 (by decide)

theorem mask31 (n : BitVec 64) : n &&& 0xFFFFFFFF80000000 ≠ 0 ↔ 2 ^ 31 ≤ n.toNat :=
  and_high_ne_zero_iff n _ 31 (by decide)

theorem bit31 {n : BitVec 64} (small : n.toNat < 2 ^ 32) :
    n &&& 0x80000000 ≠ 0 ↔ 2 ^ 31 ≤ n.toNat := by
  have high : n &&& 0xFFFFFFFF00000000 = 0 :=
    not_not.mp fun other => absurd ((mask32 n).mp other) (not_le.mpr small)
  have parts : (0xFFFFFFFF80000000 : BitVec 64) = 0xFFFFFFFF00000000 ||| 0x80000000 := by decide
  rw [← mask31, parts, BitVec.and_or_distrib_left, high]
  exact not_congr (congrArg (· = 0) (BitVec.zero_or).symm).to_iff

/-- The candidates by what the literal says. -/
def candidatesOf (decimal isUnsigned isLong : Bool) : List IntegerTok :=
  if decimal && !isUnsigned && !isLong then [.int32Literal, .int64Literal, .uns64Literal]
  else [IntegerTok.int32Literal, .uns32Literal, .int64Literal, .uns64Literal].filter fun tok =>
    (!isUnsigned || tok.isUnsigned) && (!isLong || tok.isLong)

/-- The flags by what the literal says. -/
def flagsOf (decimal isUnsigned isLong : Bool) : NumberFlags :=
  (if decimal then NumberFlags.decimal else NumberFlags.none) |||
    ((if isUnsigned then NumberFlags.unsigned else NumberFlags.none) |||
      (if isLong then NumberFlags.long_ else NumberFlags.none))

theorem find_cons (v : Nat) (tok : IntegerTok) (toks : List IntegerTok) :
    (tok :: toks).find? (fun tok => v < tok.bound) =
      if tok.bound ≤ v then toks.find? (fun tok => v < tok.bound) else some tok := by
  by_cases fits : v < tok.bound
  · rw [List.find?_cons_of_pos (by exact decide_eq_true fits), if_neg (not_le.mpr fits)]
  · rw [List.find?_cons_of_neg (by simpa using not_lt.mp fits), if_pos (not_lt.mp fits)]

/-- The tests of the switch are those of the bounds. -/
theorem four_types (n : BitVec 64) {α : Type} (a b c d : α) :
    (if n &&& 0x8000000000000000 ≠ 0 then a else if n &&& 0xFFFFFFFF00000000 ≠ 0 then b
      else if n &&& 0x80000000 ≠ 0 then c else d) =
    if 2 ^ 31 ≤ n.toNat then if 2 ^ 32 ≤ n.toNat then if 2 ^ 63 ≤ n.toNat then a else b else c
      else d := by
  simp only [mask63, mask32]
  by_cases above : 2 ^ 32 ≤ n.toNat
  · have low : 2 ^ 31 ≤ n.toNat := le_trans (by decide) above
    rw [if_pos above, if_pos above, if_pos low]
  · have high : ¬2 ^ 63 ≤ n.toNat := fun more => above (le_trans (by decide) more)
    rw [if_neg above, if_neg above, if_neg high]
    simp only [bit31 (not_le.mp above)]

theorem three_types (n : BitVec 64) {α : Type} (a b c : α) :
    (if n &&& 0x8000000000000000 ≠ 0 then a else if n &&& 0xFFFFFFFF80000000 ≠ 0 then b else c) =
    if 2 ^ 31 ≤ n.toNat then if 2 ^ 63 ≤ n.toNat then a else b else c := by
  simp only [mask63, mask31]
  by_cases above : 2 ^ 31 ≤ n.toNat
  · rw [if_pos above, if_pos above]
  · have high : ¬2 ^ 63 ≤ n.toNat := fun more => above (le_trans (by decide) more)
    rw [if_neg above, if_neg above, if_neg high]

/-- The last candidate can represent every value. -/
theorem find_last (n : BitVec 64) :
    [IntegerTok.uns64Literal].find? (fun tok => n.toNat < tok.bound) = some .uns64Literal :=
  List.find?_cons_of_pos (by exact decide_eq_true n.isLt)

theorem numberResult_unsigned (decimal err : Bool) (n : BitVec 64) :
    numberResult (flagsOf decimal true false) err n =
      ((candidatesOf decimal true false).find? fun tok => n.toNat < tok.bound, []) := by
  have switch : numberResult (flagsOf decimal true false) err n =
      if n &&& 0xFFFFFFFF00000000 ≠ 0 then (some .uns64Literal, [])
      else (some .uns32Literal, []) := by
    cases decimal <;> rfl
  have list : candidatesOf decimal true false = [.uns32Literal, .uns64Literal] := by
    cases decimal <;> rfl
  rw [switch, list, find_cons, find_last]
  simp only [mask32]
  show _ = (if 2 ^ 32 ≤ n.toNat then _ else _, _)
  split <;> rfl

theorem numberResult_unsignedLong (decimal err : Bool) (n : BitVec 64) :
    numberResult (flagsOf decimal true true) err n =
      ((candidatesOf decimal true true).find? fun tok => n.toNat < tok.bound, []) := by
  have list : candidatesOf decimal true true = [.uns64Literal] := by
    cases decimal <;> rfl
  rw [list, find_last]
  cases decimal <;> rfl

theorem numberResult_long (decimal err : Bool) (n : BitVec 64) :
    numberResult (flagsOf decimal false true) err n =
      ((candidatesOf decimal false true).find? fun tok => n.toNat < tok.bound,
        if decimal ∧ 2 ^ 63 ≤ n.toNat ∧ err = false then [.signedIntegerOverflow] else []) := by
  have list : candidatesOf decimal false true = [.int64Literal, .uns64Literal] := by
    cases decimal <;> rfl
  have switch : numberResult (flagsOf decimal false true) err n =
      if n &&& 0x8000000000000000 ≠ 0 then
        (some .uns64Literal, if decimal then if err then [] else [.signedIntegerOverflow] else [])
      else (some .int64Literal, []) := by
    cases decimal <;> rfl
  rw [switch, list, find_cons, find_last]
  simp only [mask63]
  show _ = (if 2 ^ 63 ≤ n.toNat then _ else _, _)
  by_cases high : 2 ^ 63 ≤ n.toNat
  · rw [if_pos high, if_pos high]
    have bound : (2 ^ 63 ≤ n.toNat) = True := eq_true high
    cases decimal <;> cases err <;> simp only [bound, and_true, and_false,
      Bool.true_eq_false, Bool.false_eq_true, if_true, if_false]
  · rw [if_neg high, if_neg high, if_neg fun all => high all.2.1]

theorem numberResult_plain (decimal err : Bool) (n : BitVec 64) :
    numberResult (flagsOf decimal false false) err n =
      ((candidatesOf decimal false false).find? fun tok => n.toNat < tok.bound, []) := by
  cases decimal with
  | true =>
    have list : candidatesOf true false false = [.int32Literal, .int64Literal, .uns64Literal] := rfl
    have switch : numberResult (flagsOf true false false) err n =
        if n &&& 0x8000000000000000 ≠ 0 then (some .uns64Literal, [])
        else if n &&& 0xFFFFFFFF80000000 ≠ 0 then (some .int64Literal, [])
        else (some .int32Literal, []) := rfl
    rw [switch, list, find_cons, find_cons, find_last, three_types]
    show _ = (if 2 ^ 31 ≤ n.toNat then if 2 ^ 63 ≤ n.toNat then _ else _ else _, _)
    split_ifs <;> rfl
  | false =>
    have list : candidatesOf false false false =
        [.int32Literal, .uns32Literal, .int64Literal, .uns64Literal] := rfl
    have switch : numberResult (flagsOf false false false) err n =
        if n &&& 0x8000000000000000 ≠ 0 then (some .uns64Literal, [])
        else if n &&& 0xFFFFFFFF00000000 ≠ 0 then (some .int64Literal, [])
        else if n &&& 0x80000000 ≠ 0 then (some .uns32Literal, [])
        else (some .int32Literal, []) := rfl
    rw [switch, list, find_cons, find_cons, find_cons, find_last, four_types]
    show _ = (if 2 ^ 31 ≤ n.toNat then if 2 ^ 32 ≤ n.toNat then if 2 ^ 63 ≤ n.toNat then _ else _
      else _ else _, _)
    split_ifs <;> rfl

/-- The type is the first of the candidates that can represent the value, and only a signed long
literal that does not fit is reported. -/
theorem numberResult_flagsOf (decimal isUnsigned isLong err : Bool) (n : BitVec 64) :
    numberResult (flagsOf decimal isUnsigned isLong) err n =
      ((candidatesOf decimal isUnsigned isLong).find? fun tok => n.toNat < tok.bound,
        if (decimal && isLong && !isUnsigned) ∧ 2 ^ 63 ≤ n.toNat ∧ err = false then
          [.signedIntegerOverflow] else []) := by
  cases isUnsigned with
  | true =>
    rw [Bool.not_true, Bool.and_false, if_neg fun all => Bool.false_ne_true all.1]
    cases isLong with
    | true => exact numberResult_unsignedLong decimal err n
    | false => exact numberResult_unsigned decimal err n
  | false =>
    cases isLong with
    | true =>
      rw [Bool.and_true, Bool.not_false, Bool.and_true]
      exact numberResult_long decimal err n
    | false =>
      rw [Bool.and_false, Bool.false_and, if_neg fun all => Bool.false_ne_true all.1]
      exact numberResult_plain decimal err n

/-! ### Literals -/

namespace Literal

variable (l : Literal)

theorem suffixFlags_eq : baseNumberFlags l.base.radix ||| suffixFlags l.suffix =
    flagsOf (decide (l.base = .decimal)) l.isUnsigned l.isLong := by
  have base : baseNumberFlags l.base.radix =
      if decide (l.base = .decimal) then NumberFlags.decimal else NumberFlags.none := by
    cases l.base <;> rfl
  rw [base]
  rfl

theorem candidates_eq :
    l.candidates = candidatesOf (decide (l.base = .decimal)) l.isUnsigned l.isLong := by
  have plain : l.suffix = [] ↔ l.isUnsigned = false ∧ l.isLong = false := by
    rw [isUnsigned, isLong]
    have known := l.known
    revert known
    generalize l.suffix = suffix
    intro known
    revert suffix
    decide
  rw [candidates, candidatesOf]
  refine if_congr ?_ rfl rfl
  rw [plain, Bool.and_eq_true, Bool.and_eq_true, decide_eq_true_iff, Bool.not_eq_true',
    Bool.not_eq_true', and_assoc]

/-- The digits end where the literal says. -/
theorem digitsLoop_rest {rest : List Byte} (ends : l.Ends rest) {s : Digits} {anyDigits : Bool}
    (reads : s.Reads l.value anyDigits)
    (zero : l.base = .decimal → l.digits = [byte '0'] → l.suffix = [] → peek rest 0 ≠ byte '.') :
    digitsLoop false l.base.radix s (l.suffix ++ rest) = some (s, l.suffix ++ rest) := by
  by_cases plain : l.suffix = []
  · rw [plain, List.nil_append]
    obtain ⟨digit, other⟩ := ends.digit plain
    refine digitsLoop_ends _ _ _ digit ?_ fun dot => ?_
    · have long := ends.suffix
      simp only [List.mem_cons, List.not_mem_nil, or_false, not_or] at other long ⊢
      exact ⟨other.1, other.2.1, other.2.2.1, other.2.2.2, long.2.2.1⟩
    · refine (ends.fraction plain dot).imp_right fun fraction => ?_
      cases base : l.base with
      | decimal =>
        rw [base] at fraction
        obtain ⟨member, either⟩ := fraction
        refine .inl ⟨le_rfl, ?_, member⟩
        rcases either with isZero | nonzero
        · exact absurd dot (zero base isZero plain)
        · show 0 < s.n.toNat
          rw [reads.n]
          exact Nat.pos_of_ne_zero nonzero
      | hexadecimal =>
        rw [base] at fraction
        exact .inr (.inl ⟨rfl, fraction⟩)
      | binary => exact .inr (.inr rfl)
  · exact digitsLoop_suffix _ _ _ l.known plain ends.imaginary

/-- A zero alone is followed by a suffix, by the name of a member or another dot, or by something
else that does not go on with it. -/
theorem start_zero {rest : List Byte} (ends : l.Ends rest) (digits : l.digits = [byte '0'])
    (decimal : l.base = .decimal) :
    start false (byte '0' :: (l.suffix ++ rest)) = .digits 10 none [] (l.suffix ++ rest) ∧
        (l.suffix = [] → peek rest 0 ≠ byte '.') ∨
      start false (byte '0' :: (l.suffix ++ rest)) = .done (l.suffix ++ rest) := by
  by_cases plain : l.suffix = []
  · rw [plain, List.nil_append]
    obtain ⟨digit, other⟩ := ends.digit plain
    have lead := ends.lead decimal plain digits
    have suffix := ends.suffix
    simp only [List.mem_cons, List.not_mem_nil, or_false, not_or] at other lead suffix
    have notDigits : ∀ c : Byte, isHexDigit c = false → ¬(byte '0' ≤ c ∧ c ≤ byte '7') ∧
        ¬(c = byte '8' ∨ c = byte '9') ∧ ¬(c = byte 'b' ∨ c = byte 'B') ∧
        ¬(c = byte 'f' ∨ c = byte 'F') := by
      decide +kernel
    obtain ⟨octal, eight, binary, float⟩ := notDigits _ digit
    have unfolded : start false (byte '0' :: rest) =
        if peek rest 0 = byte '.' then
          if peek rest 1 = byte '.' then .done rest
          else if startsMember (peek rest 1) then .done rest else .real
        else .digits 10 none [] rest := by
      have before : peek (byte '0' :: rest) 0 = byte '0' := rfl
      have notLong : ¬(peek rest 0 = byte 'L' ∧ peek rest 1 = byte 'i') := fun both =>
        suffix.2.2.1 both.1
      rw [start, if_pos before]
      simp only [List.drop_succ_cons, List.drop_zero]
      rw [if_neg octal, if_neg eight, if_neg (not_or.mpr lead), if_neg binary,
        if_neg (not_or.mpr ⟨other.2.1, float⟩), if_neg other.1, if_neg notLong]
      simp only [Bool.false_eq_true, false_and, if_false]
    rw [unfolded]
    by_cases dot : peek rest 0 = byte '.'
    · rw [if_pos dot]
      right
      rcases ends.fraction plain dot with range | member
      · rw [if_pos range]
      · rw [decimal] at member
        rw [if_pos member.1, ite_self]
    · rw [if_neg dot]
      exact .inl ⟨rfl, fun _ => dot⟩
  · left
    refine ⟨?_, fun none => absurd none plain⟩
    have known := l.known
    simp only [suffixTexts, List.mem_cons, List.not_mem_nil, or_false] at known
    have imaginary := ends.imaginary
    rcases known with none | same | same | same | same | same | same | same
    · exact absurd none plain
    · rw [same]; rfl
    · rw [same]; rfl
    · rw [same]
      have notImaginary : ¬(byte 'L' = byte 'L' ∧ peek rest 0 = byte 'i') := fun both =>
        imaginary same both.2
      exact if_neg notImaginary
    all_goals rw [same]; rfl

/-- The digits of a literal are read to their end. -/
theorem number_eq_finish {rest : List Byte} (ends : l.Ends rest) (longsize long_longsize : Nat) :
    ∃ (s : Digits) (anyDigits : Bool), number false longsize long_longsize (l.text ++ rest) =
        some (finish false longsize long_longsize l.base.radix s [] (l.text ++ rest)
          (l.suffix ++ rest)) ∧
      s.Reads l.value anyDigits ∧ (l.base ≠ .decimal → anyDigits = true) := by
  have split : l.text ++ rest = l.lead ++ (l.digits ++ (l.suffix ++ rest)) := by
    rw [text, List.append_assoc, List.append_assoc]
  obtain ⟨s, loop, reads⟩ := digitsLoop_digits l.base (l.suffix ++ rest) l.each Digits.reads_start
  have any : l.digits.any (· ≠ byte '_') = true := by
    obtain ⟨c, member, filled⟩ := l.any
    exact List.any_eq_true.mpr ⟨c, member, decide_eq_true filled⟩
  by_cases zero : l.digits = [byte '0'] ∧ l.base = .decimal
  · obtain ⟨digits, decimal⟩ := zero
    have lead : l.lead = [] := by
      have leads := l.leads
      rw [decimal] at leads
      exact List.mem_singleton.mp leads
    have value : l.value = 0 := by
      rw [Literal.value, digits, decimal]
      rfl
    have start_ : (Digits.start none).Reads l.value false := value ▸ Digits.reads_start
    have radix : l.base.radix = 10 := congrArg Base.radix decimal
    refine ⟨.start none, false, ?_, start_, fun other => absurd decimal other⟩
    have whole : l.text ++ rest = byte '0' :: (l.suffix ++ rest) := by
      rw [split, lead, digits]
      rfl
    rw [number, radix, whole]
    rcases l.start_zero ends digits decimal with ⟨begins, noDot⟩ | done
    · have ended := l.digitsLoop_rest ends start_ fun _ _ => noDot
      rw [radix] at ended
      rw [begins]
      show Option.map _ (digitsLoop false 10 _ _) = _
      rw [ended]
      rfl
    · rw [done]
  · have begins : start false (l.text ++ rest) =
        .digits l.base.radix none [] (l.digits ++ (l.suffix ++ rest)) := by
      rw [split]
      have leads := l.leads
      have first := l.first
      cases base : l.base with
      | decimal =>
        rw [base] at leads
        rw [List.mem_singleton.mp leads, List.nil_append]
        rcases first base with isZero | ⟨c, more, digits, low, high⟩
        · exact absurd ⟨isZero, base⟩ zero
        · have notZero : ∀ c : Byte, byte '1' ≤ c → c ≠ byte '0' := by decide +kernel
          rw [digits]
          exact if_neg (notZero c low)
      | hexadecimal =>
        rw [base] at leads
        rcases List.mem_pair.mp leads with lead | lead <;> rw [lead] <;> rfl
      | binary =>
        rw [base] at leads
        rcases List.mem_pair.mp leads with lead | lead <;> rw [lead] <;> rfl
    have ended := l.digitsLoop_rest ends reads fun decimal digits =>
      absurd ⟨digits, decimal⟩ zero
    refine ⟨s, _, ?_, reads, fun _ => by rw [any, Bool.or_true]⟩
    rw [number, begins]
    show Option.map _ (digitsLoop false l.base.radix _ _) = _
    rw [loop, ended]
    rfl

/-- What is reported for a literal. -/
def reported : List NumberError :=
  if 2 ^ 64 ≤ l.value then [.integerOverflow]
  else if l.isSignedLong ∧ 2 ^ 63 ≤ l.value then [.signedIntegerOverflow]
  else []

end Literal

/-- What is left to do after the digits of a literal. -/
theorem finish_eq (longsize long_longsize base : Nat) {s : Digits} (text rest : List Byte)
    {suffix : List Byte} (errorDigit : s.errorDigit = none)
    (valid : ¬((base = 2 ∨ base = 16) ∧ s.anyDigits = false)) (notOctal : base ≠ 8)
    (known : suffix ∈ suffixTexts)
    (ends : peek rest 0 ∉ [byte 'u', byte 'U', byte 'L', byte 'l']) :
    finish false longsize long_longsize base s [] text (suffix ++ rest) =
      ⟨s.n, (numberResult (baseNumberFlags base ||| suffixFlags suffix) s.overflow s.n).1,
        (if s.overflow then [.integerOverflow] else []) ++
          (numberResult (baseNumberFlags base ||| suffixFlags suffix) s.overflow s.n).2, rest⟩ := by
  have octal : ¬(base = 8 ∧ s.n ≥ 8) := fun both => notOctal both.1
  simp only [finish, errorDigit, Option.isNone_none, Option.isSome_none, Bool.and_true,
    Bool.false_or, List.nil_append, if_neg valid, List.append_nil, Bool.false_eq_true, if_false,
    suffixLoop_suffix base _ _ rest ends known, if_neg octal]

/-- An integer literal is read to its end. An overflow is reported exactly when the integer does not
fit 64 bits, or does not fit a `long` where the literal is a decimal one with `L` and without `u`;
nothing else is reported. An integer that fits is stored exactly, and its type is the first of the
candidates that can represent it. -/
theorem number_literal (l : Literal) (rest : List Byte) (ends : l.Ends rest)
    (longsize long_longsize : Nat) : ∃ read,
    number false longsize long_longsize (l.text ++ rest) = some read ∧ read.rest = rest ∧
      read.errors = l.reported ∧
      (l.value < 2 ^ 64 → read.unsvalue.toNat = l.value ∧
        read.result = l.candidates.find? fun tok => l.value < tok.bound) := by
  obtain ⟨s, anyDigits, finished, reads, any⟩ := l.number_eq_finish ends longsize long_longsize
  obtain ⟨n, overflow, errorDigit, anyRead⟩ := reads
  have valid : ¬((l.base.radix = 2 ∨ l.base.radix = 16) ∧ s.anyDigits = false) := by
    rintro ⟨power, none⟩
    have other : l.base ≠ .decimal := by
      intro decimal
      rw [decimal] at power
      revert power
      decide
    rw [anyRead, any other] at none
    cases none
  have notOctal : l.base.radix ≠ 8 := by
    cases l.base <;> decide
  rw [finish_eq longsize long_longsize _ _ rest errorDigit valid notOctal l.known ends.suffix,
    l.suffixFlags_eq, numberResult_flagsOf, ← l.candidates_eq, overflow] at finished
  have small (below : l.value < 2 ^ 64) : s.n.toNat = l.value := n.trans (Nat.mod_eq_of_lt below)
  refine ⟨_, finished, rfl, ?_, fun below => ⟨small below, ?_⟩⟩
  · rw [Literal.reported]
    by_cases above : 2 ^ 64 ≤ l.value
    · rw [decide_eq_true above, if_pos rfl, if_pos above, if_neg fun all => nomatch all.2.2]
      rfl
    · rw [decide_eq_false above, if_neg above, small (not_le.mp above)]
      refine if_congr ?_ rfl rfl
      exact and_congr_right fun _ => and_iff_left rfl
  · show l.candidates.find? (fun tok => s.n.toNat < tok.bound) = _
    rw [small below]

/-- A property of every byte of a text is checked byte by byte. -/
theorem forall_mem_of_bytes {p : Byte → Prop} [DecidablePred p] {bytes : List Byte}
    (all : (bytes.all fun c => decide (p c)) = true) : ∀ c ∈ bytes, p c :=
  fun c member => of_decide_eq_true (List.all_eq_true.mp all c member)

/-- `0x_ffu`. -/
def hexLiteral : Literal where
  base := .hexadecimal
  lead := [byte '0', byte 'x']
  leads := by decide
  digits := [byte '_', byte 'f', byte 'f']
  each := by
    show ∀ c ∈ [byte '_', byte 'f', byte 'f'], c = byte '_' ∨ isHexDigit c = true
    exact forall_mem_of_bytes (by decide)
  any := ⟨byte 'f', by decide, by decide⟩
  first := nofun
  suffix := [byte 'u']
  known := by decide

theorem number_literal_hex : ∃ read,
    number false 8 8 (hexLiteral.text ++ [byte ';']) = some read ∧ read.rest = [byte ';'] ∧
      read.errors = hexLiteral.reported ∧
      (hexLiteral.value < 2 ^ 64 → read.unsvalue.toNat = hexLiteral.value ∧
        read.result = hexLiteral.candidates.find? fun tok => hexLiteral.value < tok.bound) :=
  number_literal hexLiteral [byte ';']
    { suffix := by decide
      imaginary := fun _ => by decide
      digit := nofun
      lead := nofun
      fraction := nofun } 8 8

/-- `9223372036854775808L`. -/
def signedLongLiteral : Literal where
  base := .decimal
  lead := []
  leads := by decide
  digits := "9223372036854775808".toList.map byte
  each := by
    show ∀ c ∈ "9223372036854775808".toList.map byte,
      c = byte '_' ∨ byte '0' ≤ c ∧ c ≤ byte '9'
    exact forall_mem_of_bytes (by decide +kernel)
  any := ⟨byte '9', by decide, by decide⟩
  first := fun _ => .inr ⟨byte '9', "223372036854775808".toList.map byte, by decide, by decide,
    by decide⟩
  suffix := [byte 'L']
  known := by decide

/-- An overflow is reported for `9223372036854775808L`, which fits 64 bits. -/
theorem signed_long_reported :
    (number false 8 8 (signedLongLiteral.text ++ [byte ';'])).map Number.errors =
        some [.signedIntegerOverflow] ∧
      signedLongLiteral.value < 2 ^ 64 := by
  decide +kernel

end LaserD.Lexer
