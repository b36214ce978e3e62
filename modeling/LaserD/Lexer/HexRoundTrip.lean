/-
This file proves when a printed hex string reads back.

The lexer joins the digits in pairs, so the digits of a unit make the bytes of the unit when there
are two for each byte. The printer writes no more than that and may write fewer, and the bytes that
are read are half the digits, so a single unit with fewer digits leaves a byte too few or an odd
number of digits.
-/

import LaserD.Lexer.HexString

namespace LaserD.Lexer

/-! ### What the digits of a number are -/

/-- The last digits of a number. -/
def hexDigits : Nat → Nat → List Nat
  | 0, _ => []
  | k + 1, n => hexDigits k (n / 16) ++ [n % 16]

/-- The byte of a digit. -/
def digitByte (d : Nat) : Byte :=
  byte (Nat.digitChar d).toUpper

theorem digitByte_spec : ∀ d < 16,
    isHexDigit (digitByte d) = true ∧ digitValue (digitByte d) = BitVec.ofNat 32 d := by
  decide

theorem lt_of_mem_hexDigits {k n d : Nat} (member : d ∈ hexDigits k n) : d < 16 := by
  induction k generalizing n with
  | zero => exact absurd member List.not_mem_nil
  | succ k inductionHypothesis =>
    rcases List.mem_append.mp member with earlier | last
    · exact inductionHypothesis earlier
    · rw [List.mem_singleton.mp last]
      exact Nat.mod_lt n (by decide)

/-- The digits that are written for a number are its last digits. -/
theorem toDigits_eq_hexDigits (n : Nat) :
    Nat.toDigits 16 n = (hexDigits (Nat.toDigits 16 n).length n).map Nat.digitChar := by
  induction n using Nat.strong_induction_on with
  | _ n inductionHypothesis =>
    rw [Nat.toDigits_eq_if (by decide)]
    by_cases small : n < 16
    · rw [if_pos small, List.length_singleton, hexDigits, hexDigits, Nat.mod_eq_of_lt small]
      rfl
    · have smaller : n / 16 < n := Nat.div_lt_self (by omega) (by decide)
      rw [if_neg small, List.length_append, List.length_singleton, hexDigits, List.map_append,
        ← inductionHypothesis (n / 16) smaller]
      rfl

/-- A number is printed as a run of digits. -/
theorem printHex_eq (width value : Nat) : ∃ digits : List Nat,
    (∀ d ∈ digits, d < 16) ∧ printHex width value = digits.map digitByte ∧
      ((Nat.toDigits 16 value).length = max width (Nat.toDigits 16 value).length →
        digits = hexDigits (Nat.toDigits 16 value).length value) := by
  refine ⟨List.replicate (width - (Nat.toDigits 16 value).length) 0 ++
    hexDigits (Nat.toDigits 16 value).length value, fun d member => ?_, ?_, fun wide => ?_⟩
  · rcases List.mem_append.mp member with filled | digit
    · rw [List.eq_of_mem_replicate filled]
      decide
    · exact lt_of_mem_hexDigits digit
  · rw [printHex, List.leftpad, List.length_map, List.map_append, List.map_append,
      List.map_replicate, List.map_replicate, List.map_map]
    refine congrArg₂ (· ++ ·) rfl ?_
    conv_lhs => rw [toDigits_eq_hexDigits value]
    rw [List.map_map]
    rfl
  · have none : width - (Nat.toDigits 16 value).length = 0 := by omega
    rw [none, List.replicate_zero, List.nil_append]

theorem length_printHex (width value : Nat) :
    (printHex width value).length = max width (Nat.toDigits 16 value).length := by
  rw [printHex, List.length_map, List.length_leftpad, List.length_map]

/-! ### Reading digits -/

theorem hexDigit_not_special : ∀ c : Byte, isHexDigit c = true →
    (c = byte ' ' || c = byte '\t' || c = 11 || c = 12) = false ∧ c ≠ byte '\r' ∧
      c ≠ byte '\n' ∧ (c = 0 || c = 0x1A) = false ∧ c ≠ byte '"' := by
  decide

theorem hexLoop_digit (state : HexState) {c : Byte} (rest : List Byte)
    (digit : isHexDigit c = true) :
    hexLoop state (c :: rest) = hexLoop (state.digit (digitValue c)) rest := by
  obtain ⟨blank, carriageReturn, newline, ending, quote⟩ := hexDigit_not_special c digit
  rw [hexLoop, if_neg (Bool.eq_false_iff.mp blank), if_neg carriageReturn, if_neg newline,
    if_neg (Bool.eq_false_iff.mp ending), if_neg quote, if_pos digit]

/-- Digits are read one after the other. -/
theorem hexLoop_digits (state : HexState) {digits : List Nat} (rest : List Byte)
    (small : ∀ d ∈ digits, d < 16) : hexLoop state (digits.map digitByte ++ rest) =
      hexLoop (digits.foldl (fun state d => state.digit (BitVec.ofNat 32 d)) state) rest := by
  induction digits generalizing state with
  | nil => rfl
  | cons d digits inductionHypothesis =>
    obtain ⟨head, tail⟩ := List.forall_mem_cons.mp small
    obtain ⟨digit, value⟩ := digitByte_spec d head
    rw [List.map_cons, List.cons_append, hexLoop_digit state _ digit, value,
      inductionHypothesis _ tail]
    rfl

/-- The bytes that pairs of digits make. -/
def pairs : List Nat → List Byte
  | a :: b :: digits => .ofNat 8 (16 * a + b) :: pairs digits
  | _ => []

theorem length_pairs : ∀ digits : List Nat, (pairs digits).length = digits.length / 2
  | [] => rfl
  | [_] => by
    rw [List.length_singleton]
    rfl
  | _ :: _ :: digits => by
    rw [pairs, List.length_cons, length_pairs digits, List.length_cons, List.length_cons]
    omega

theorem pairs_append : ∀ (digits : List Nat) (rest : List Nat), digits.length % 2 = 0 →
    pairs (digits ++ rest) = pairs digits ++ pairs rest
  | [], _, _ => rfl
  | [_], _, even => by
    rw [List.length_singleton] at even
    cases even
  | a :: b :: digits, rest, even => by
    rw [List.length_cons, List.length_cons] at even
    rw [List.cons_append, List.cons_append, pairs, pairs,
      pairs_append digits rest (by omega), List.cons_append]

theorem pair_value : ∀ a < 16, ∀ b < 16,
    ((BitVec.ofNat 32 a <<< 4) ||| BitVec.ofNat 32 b).setWidth 8 = BitVec.ofNat 8 (16 * a + b) := by
  decide

/-- What has been read after some digits, from an even number of digits on. -/
theorem foldl_digit : ∀ (digits : List Nat) (state : HexState), (∀ d ∈ digits, d < 16) →
    state.n % 2 = 0 →
    (digits.foldl (fun state d => state.digit (BitVec.ofNat 32 d)) state).n =
        state.n + digits.length ∧
      (digits.foldl (fun state d => state.digit (BitVec.ofNat 32 d)) state).stringbuffer =
        state.stringbuffer ++ pairs digits ∧
      (digits.foldl (fun state d => state.digit (BitVec.ofNat 32 d)) state).errors = state.errors
  | [], state, _, _ => ⟨rfl, (List.append_nil _).symm, rfl⟩
  | [d], state, _, even => by
    have first : state.digit (BitVec.ofNat 32 d) =
        { state with n := state.n + 1, v := BitVec.ofNat 32 d } :=
      if_neg (by omega)
    rw [List.foldl_cons, List.foldl_nil, first]
    exact ⟨rfl, (List.append_nil _).symm, rfl⟩
  | a :: b :: digits, state, small, even => by
    obtain ⟨smallA, small⟩ := List.forall_mem_cons.mp small
    obtain ⟨smallB, small⟩ := List.forall_mem_cons.mp small
    have first : state.digit (BitVec.ofNat 32 a) =
        { state with n := state.n + 1, v := BitVec.ofNat 32 a } :=
      if_neg (by omega)
    have second : (state.digit (BitVec.ofNat 32 a)).digit (BitVec.ofNat 32 b) =
        { state with
          n := state.n + 2
          v := (BitVec.ofNat 32 a <<< 4) ||| BitVec.ofNat 32 b
          stringbuffer := state.stringbuffer ++ [.ofNat 8 (16 * a + b)] } := by
      rw [first, ← pair_value a smallA b smallB]
      refine if_pos ?_
      dsimp only
      omega
    obtain ⟨count, buffer, errors⟩ := foldl_digit digits
      ((state.digit (BitVec.ofNat 32 a)).digit (BitVec.ofNat 32 b)) small (by
        rw [second]
        exact (Nat.add_mod_right state.n 2).trans even)
    rw [List.foldl_cons, List.foldl_cons, count, buffer, errors, second, List.length_cons,
      List.length_cons, pairs]
    refine ⟨?_, ?_, rfl⟩
    · dsimp only
      omega
    · rw [List.append_assoc, List.singleton_append]

/-- What the closing quote makes of digits. -/
theorem hexStringConstant_digits {digits : List Nat} (rest : List Byte)
    (small : ∀ d ∈ digits, d < 16) :
    (digits.length % 2 = 0 → (hexStringConstant (byte '"' :: (digits.map digitByte ++
        byte '"' :: rest))).ustring = setString (pairs digits) ∧
      (hexStringConstant (byte '"' :: (digits.map digitByte ++ byte '"' :: rest))).errors = []) ∧
    (digits.length % 2 = 1 →
      (hexStringConstant (byte '"' :: (digits.map digitByte ++ byte '"' :: rest))).errors ≠ []) := by
  obtain ⟨count, buffer, errors⟩ := foldl_digit digits ⟨0, BitVec.allOnes 32, [], [], 0⟩ small rfl
  rw [Nat.zero_add] at count
  rw [hexStringConstant, List.drop_one, List.tail_cons, hexLoop_digits _ _ small, hexLoop,
    if_neg (by decide), if_neg (by decide), if_neg (by decide), if_neg (by decide), if_pos rfl,
    count]
  constructor
  · intro even
    rw [if_neg (by omega)]
    exact ⟨congrArg setString buffer, errors⟩
  · intro odd
    rw [if_pos odd]
    exact List.append_ne_nil_of_right_ne_nil _ (List.cons_ne_nil _ _)

/-! ### The units of a string -/

/-- The highest unit whose first digit is zero is one less than this. -/
theorem length_printHex_eq {sz u : Nat} (positive : 0 < sz) (inRange : u < 2 ^ (8 * sz)) :
    (printHex sz u).length ≤ 2 * sz ∧
      ((printHex sz u).length = 2 * sz ↔ 2 ^ (8 * sz - 4) ≤ u) := by
  have whole : 2 ^ (8 * sz) = 16 ^ (2 * sz) := by
    rw [show (16 : Nat) = 2 ^ 4 from rfl, ← Nat.pow_mul]
    congr 1
    omega
  have partly : 2 ^ (8 * sz - 4) = 16 ^ (2 * sz - 1) := by
    rw [show (16 : Nat) = 2 ^ 4 from rfl, ← Nat.pow_mul]
    congr 1
    omega
  have most : (Nat.toDigits 16 u).length ≤ 2 * sz :=
    (Nat.length_toDigits_le_iff (by decide) (by omega)).mpr (whole ▸ inRange)
  have fewer : (Nat.toDigits 16 u).length ≤ 2 * sz - 1 ↔ u < 2 ^ (8 * sz - 4) := by
    rw [partly]
    exact Nat.length_toDigits_le_iff (by decide) (by omega)
  rw [length_printHex, ← Nat.not_lt (a := u), ← fewer]
  omega

/-- Two digits for each byte make the bytes of a unit. -/
theorem pairs_hexDigits (sz u : Nat) : pairs (hexDigits (2 * sz) u) = bigEndian sz u := by
  induction sz generalizing u with
  | zero => rfl
  | succ sz inductionHypothesis =>
    have even (k n : Nat) : (hexDigits k n).length = k := by
      induction k generalizing n with
      | zero => rfl
      | succ k shorter => rw [hexDigits, List.length_append, shorter, List.length_singleton]
    rw [Nat.mul_succ, hexDigits, hexDigits, List.append_assoc, pairs_append, inductionHypothesis,
      Nat.div_div_eq_div_mul, bigEndian]
    · have joined : 16 * (u / 16 % 16) + u % 16 = u % 256 := by omega
      rw [← joined]
      rfl
    · rw [even]
      omega

theorem length_bigEndian (sz u : Nat) : (bigEndian sz u).length = sz := by
  induction sz generalizing u with
  | zero => rfl
  | succ sz inductionHypothesis =>
    rw [bigEndian, List.length_append, inductionHypothesis, List.length_singleton]

variable {sz : Nat} {units : List Nat}

theorem length_flatMap_bigEndian : (units.flatMap (bigEndian sz)).length = sz * units.length := by
  induction units with
  | nil => rfl
  | cons u units inductionHypothesis =>
    rw [List.flatMap_cons, List.length_append, length_bigEndian, inductionHypothesis,
      List.length_cons, Nat.mul_succ, Nat.add_comm]

/-- The units are printed as one run of digits, whose pairs are the bytes when each unit has all its
digits. -/
theorem flatMap_printHex (positive : 0 < sz) (inRange : ∀ u ∈ units, u < 2 ^ (8 * sz)) :
    ∃ digits : List Nat, (∀ d ∈ digits, d < 16) ∧
      units.flatMap (printHex sz) = digits.map digitByte ∧
      digits.length ≤ 2 * (sz * units.length) ∧
      (digits.length = 2 * (sz * units.length) ↔ ∀ u ∈ units, 2 ^ (8 * sz - 4) ≤ u) ∧
      (digits.length = 2 * (sz * units.length) → pairs digits = units.flatMap (bigEndian sz)) := by
  induction units with
  | nil => exact ⟨[], nofun, rfl, le_rfl, iff_of_true rfl nofun, fun _ => rfl⟩
  | cons u units inductionHypothesis =>
    obtain ⟨head, tail⟩ := List.forall_mem_cons.mp inRange
    obtain ⟨digits, small, printed, most, full, read⟩ := inductionHypothesis tail
    obtain ⟨mostHead, fullHead⟩ := length_printHex_eq positive head
    obtain ⟨first, smallFirst, printedFirst, wide⟩ := printHex_eq sz u
    have lengthFirst : (printHex sz u).length = first.length := by
      rw [printedFirst, List.length_map]
    rw [lengthFirst] at mostHead fullHead
    have total : (first ++ digits).length = 2 * (sz * (units.length + 1)) ↔
        first.length = 2 * sz ∧ digits.length = 2 * (sz * units.length) := by
      rw [List.length_append, Nat.mul_succ]
      omega
    refine ⟨first ++ digits, fun d member => ?_, ?_, ?_, ?_, fun complete => ?_⟩
    · exact (List.mem_append.mp member).elim (smallFirst d) (small d)
    · rw [List.flatMap_cons, printedFirst, printed, List.map_append]
    · rw [List.length_append, List.length_cons, Nat.mul_succ]
      omega
    · rw [List.length_cons, total, fullHead, full, List.forall_mem_cons]
    · obtain ⟨completeFirst, completeRest⟩ := total.mp complete
      have digitsOfUnit : (Nat.toDigits 16 u).length = 2 * sz := by
        rw [← completeFirst, ← lengthFirst, length_printHex]
        rw [← lengthFirst, length_printHex] at completeFirst
        omega
      have exactly : first = hexDigits (2 * sz) u := by
        rw [← digitsOfUnit]
        exact wide (by rw [digitsOfUnit]; omega)
      rw [List.flatMap_cons, pairs_append first digits (by omega), exactly, pairs_hexDigits,
        read completeRest]

/-- A printed string is lexed without an error, to the bytes that it has, with two digits for each
of them. -/
def ReadsBack (e : HexStringExp) (rest : List Byte) : Prop :=
  (hexStringConstant (e.visitString.tail ++ rest)).ustring = e.bytes ∧
    (hexStringConstant (e.visitString.tail ++ rest)).errors = [] ∧
    ∀ u ∈ e.units, (printHex e.sz u).length = 2 * e.sz

/-- A printed hex string reads back exactly when no unit begins with a zero digit, and the bytes
are as many as a token can have. -/
theorem printed_reads_back_iff (e : HexStringExp) (rest : List Byte) :
    ReadsBack e rest ↔
      (∀ u ∈ e.units, 2 ^ (8 * e.sz - 4) ≤ u) ∧ e.sz * e.units.length < 2 ^ 32 := by
  have positive : 0 < e.sz := by
    have size := e.size
    omega
  obtain ⟨digits, small, printed, most, full, read⟩ := flatMap_printHex positive e.inRange
  have text : e.visitString.tail ++ rest =
      byte '"' :: (digits.map digitByte ++ byte '"' :: (e.postfix_.toList ++ rest)) := by
    rw [HexStringExp.visitString, printed, List.tail_cons, List.cons_append, List.append_assoc,
      List.cons_append]
  obtain ⟨even, odd⟩ := hexStringConstant_digits (e.postfix_.toList ++ rest) small
  have lengthBytes : e.bytes.length = e.sz * e.units.length := length_flatMap_bigEndian
  rw [ReadsBack, text]
  constructor
  · rintro ⟨bytes, none, -⟩
    have parity : digits.length % 2 = 0 := by
      by_contra other
      exact odd (by omega) none
    rw [(even parity).1, setString] at bytes
    have lengths := congrArg List.length bytes
    rw [List.length_take, length_pairs, lengthBytes] at lengths
    have wrapped := Nat.mod_le (digits.length / 2) (2 ^ 32)
    have bound := Nat.mod_lt (digits.length / 2) (Nat.two_pow_pos 32)
    refine ⟨full.mp (by omega), ?_⟩
    omega
  · rintro ⟨leading, addressable⟩
    have complete := full.mpr leading
    obtain ⟨bytes, none⟩ := even (by omega)
    refine ⟨?_, none, fun u member => ?_⟩
    · rw [bytes, read complete, setString, length_flatMap_bigEndian,
        Nat.mod_eq_of_lt addressable, ← lengthBytes]
      exact List.take_length
    · exact (length_printHex_eq positive (e.inRange u member)).2.mpr (leading u member)

/-- The two bytes 1 and 2 are printed as `x"12"`. -/
def smallBytes : HexStringExp where
  sz := 1
  size := .inl rfl
  units := [1, 2]
  inRange := by decide
  postfix_ := none
  known := nofun

/-- They are read back as the one byte `0x12`. -/
theorem printed_runs_together :
    (hexStringConstant smallBytes.visitString.tail).ustring = [0x12] ∧
      ¬ReadsBack smallBytes [] := by
  have printed : smallBytes.visitString.tail =
      byte '"' :: ([1, 2].map digitByte ++ byte '"' :: []) := by
    decide
  refine ⟨?_, fun back => ?_⟩
  · rw [printed, ((hexStringConstant_digits [] (by decide)).1 rfl).1]
    decide
  · have leading := ((printed_reads_back_iff smallBytes []).mp back).1
    exact absurd (leading 1 (by decide)) (by decide)

end LaserD.Lexer
