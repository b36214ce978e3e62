/-
This file models the comparison and the hash of the case-insensitive string
tables of `laserd.hash`, and shows that they keep the contract of a table.

A string is its text and a terminating zero byte. The functions read from the
bytes of a string one by one; a read beyond the terminating byte is `none`, and
so is the call that makes it. Both fold the ASCII capitals to small letters, the
comparison by a test of the range, the hash in unsigned arithmetic that wraps.
-/

import LaserD.Hash.Invariant

namespace LaserD.Hash

/-! ### Strings -/

abbrev Byte := BitVec 8

/-- A string that ends with a zero byte, and is not as long as the address space. -/
structure CString where
  text : List Byte
  terminated : 0 ∉ text
  addressable : text.length + 1 < 2 ^ 64

/-- The bytes of a string, the terminating one included. -/
def CString.bytes (string : CString) : List Byte := string.text ++ [0]

/-- `strlen`. -/
def strlen : List Byte → Option Nat
  | [] => none
  | byte :: rest => if byte = 0 then some 0 else (strlen rest).map Nat.succ

/-! ### The comparison -/

/-- `ascii_lower`. -/
def asciiLower (value : Byte) : Byte :=
  if 0x41 ≤ value ∧ value ≤ 0x5a then value + (0x61 - 0x41) else value

/-- The loop of `st_locale_insensitive_strncasecmp`: the bytes that remain to be compared, and
the index of the next one. -/
def strncasecmpLoop (left right : List Byte) : Nat → Nat → Option Int
  | 0, _ => some 0
  | remaining + 1, index => do
      let leftValue := asciiLower (← left[index]?)
      let rightValue := asciiLower (← right[index]?)
      if leftValue ≠ rightValue then some (if leftValue > rightValue then 1 else -1)
      else if leftValue = 0 then some 0
      else strncasecmpLoop left right remaining (index + 1)

/-- `st_locale_insensitive_strncasecmp`. -/
def strncasecmp (left right : List Byte) (count : Nat) : Option Int :=
  strncasecmpLoop left right count 0

/-- `st_locale_insensitive_strcasecmp`. -/
def strcasecmp (left right : List Byte) : Option Int := do
  let leftLength ← strlen left
  let rightLength ← strlen right
  let count := if leftLength > rightLength then leftLength else rightLength
  strncasecmp left right ((count + 1) % 2 ^ 64)

/-- `string_case_compare`. -/
def stringCaseCompare (left right : List Byte) : Option Int := strcasecmp left right

/-! ### The hash -/

/-- A round of the hash: the character goes in, then the FNV prime is multiplied. -/
def fnvRound (value : Word) (character : BitVec 32) : Word :=
  (value ^^^ character.setWidth 64) * 0x01000193

/-- The loop of `string_case_hash`. -/
def stringCaseHashLoop : List Byte → Word → Option Word
  | [], _ => none
  | byte :: rest, value =>
      if byte = 0 then some value
      else
        let character : BitVec 32 := byte.setWidth 32
        let character :=
          if character - 0x41 ≤ 0x5a - 0x41 then character + (0x61 - 0x41) else character
        stringCaseHashLoop rest (fnvRound value character)

/-- `string_case_hash`. -/
def stringCaseHash (key : List Byte) : Option Word := stringCaseHashLoop key 0x811c9dc5

/-! ### Folding -/

/-- The text in small letters. -/
def CString.lower (string : CString) : List Byte := string.text.map asciiLower

theorem asciiLower_eq_zero : ∀ value : Byte, asciiLower value = 0 ↔ value = 0 := by decide

/-- The wrapped test of the hash folds the same bytes as the test of the range. -/
theorem foldedCharacter_eq : ∀ byte : Byte,
    (let character : BitVec 32 := byte.setWidth 32
      if character - 0x41 ≤ 0x5a - 0x41 then character + (0x61 - 0x41) else character) =
      (asciiLower byte).setWidth 32 := by decide

theorem strlen_bytes (string : CString) : strlen string.bytes = some string.text.length := by
  obtain ⟨text, terminated, addressable⟩ := string
  unfold CString.bytes
  dsimp only
  clear addressable
  induction text with
  | nil => rfl
  | cons byte rest inductionHypothesis =>
    rw [List.mem_cons, not_or] at terminated
    rw [List.cons_append, strlen, if_neg (Ne.symm terminated.1), inductionHypothesis terminated.2]
    rfl

/-! ### The sign of the comparison -/

/-- What a comparison of two lists returns. -/
def Compares (left right : List Byte) (result : Int) : Prop :=
  result = 0 ∧ left = right ∨ result = -1 ∧ left < right ∨ result = 1 ∧ right < left

/-- A byte more in front of both. -/
theorem Compares.cons {left right : List Byte} {result : Int} (compares : Compares left right result)
    (byte : Byte) : Compares (byte :: left) (byte :: right) result := by
  unfold Compares at compares ⊢
  simpa [List.cons_lt_cons_iff] using compares

/-- The byte at the front of what is left of a string. -/
theorem getElem?_of_drop {bytes rest : List Byte} {byte : Byte} {index : Nat}
    (left : bytes.drop index = byte :: rest) :
    bytes[index]? = some byte ∧ bytes.drop (index + 1) = rest := by
  refine ⟨?_, ?_⟩
  · rw [← Nat.add_zero index, ← List.getElem?_drop, left]
    rfl
  · rw [← List.drop_drop, left]
    rfl

/-- One round of the loop. -/
theorem strncasecmpLoop_succ {left right leftRest rightRest : List Byte} {first second : Byte}
    {index : Nat} (leftNext : left.drop index = first :: leftRest)
    (rightNext : right.drop index = second :: rightRest) (remaining : Nat) :
    strncasecmpLoop left right (remaining + 1) index =
      if asciiLower first ≠ asciiLower second then
        some (if asciiLower first > asciiLower second then 1 else -1)
      else if asciiLower first = 0 then some 0
      else strncasecmpLoop left right remaining (index + 1) := by
  rw [strncasecmpLoop, (getElem?_of_drop leftNext).1, (getElem?_of_drop rightNext).1]
  rfl

/-- The loop compares what is left of both texts, when it may read to the end of the longer. -/
theorem strncasecmpLoop_compares {left right leftText rightText : List Byte} {remaining : Nat}
    (index : Nat) (leftNext : left.drop index = leftText ++ [0])
    (rightNext : right.drop index = rightText ++ [0]) (leftTerminated : 0 ∉ leftText)
    (rightTerminated : 0 ∉ rightText) (leftEnough : leftText.length < remaining)
    (rightEnough : rightText.length < remaining) :
    ∃ result, strncasecmpLoop left right remaining index = some result ∧
      Compares (leftText.map asciiLower) (rightText.map asciiLower) result := by
  have nonzero {byte : Byte} {text : List Byte} (terminated : 0 ∉ byte :: text) :
      asciiLower byte ≠ 0 := by
    rw [Ne, asciiLower_eq_zero]
    rintro rfl
    exact terminated List.mem_cons_self
  induction leftText generalizing rightText index remaining with
  | nil =>
    cases remaining with
    | zero => exact absurd leftEnough (Nat.not_lt_zero _)
    | succ remaining =>
      cases rightText with
      | nil =>
        rw [strncasecmpLoop_succ leftNext rightNext]
        exact ⟨0, rfl, Or.inl ⟨rfl, rfl⟩⟩
      | cons second rightText =>
        rw [strncasecmpLoop_succ leftNext rightNext]
        have different : asciiLower 0 ≠ asciiLower second := (nonzero rightTerminated).symm
        have least : ¬ asciiLower 0 > asciiLower second := BitVec.not_lt_zero
        rw [if_pos different, if_neg least]
        exact ⟨-1, rfl, Or.inr (Or.inl ⟨rfl, List.nil_lt_cons _ _⟩)⟩
  | cons first leftText inductionHypothesis =>
    cases remaining with
    | zero => exact absurd leftEnough (Nat.not_lt_zero _)
    | succ remaining =>
      cases rightText with
      | nil =>
        rw [strncasecmpLoop_succ leftNext rightNext]
        have different : asciiLower first ≠ asciiLower 0 := nonzero leftTerminated
        have greater : asciiLower first > asciiLower 0 :=
          BitVec.lt_of_le_ne (BitVec.not_lt.mp BitVec.not_lt_zero) different.symm
        rw [if_pos different, if_pos greater]
        exact ⟨1, rfl, Or.inr (Or.inr ⟨rfl, List.nil_lt_cons _ _⟩)⟩
      | cons second rightText =>
        rw [strncasecmpLoop_succ leftNext rightNext]
        by_cases same : asciiLower first = asciiLower second
        · rw [if_neg (not_not_intro same), if_neg (nonzero leftTerminated)]
          obtain ⟨result, compared, compares⟩ := inductionHypothesis (index + 1)
            (getElem?_of_drop leftNext).2 (getElem?_of_drop rightNext).2
            (fun zero => leftTerminated (List.mem_cons_of_mem _ zero))
            (fun zero => rightTerminated (List.mem_cons_of_mem _ zero))
            (Nat.lt_of_succ_lt_succ leftEnough) (Nat.lt_of_succ_lt_succ rightEnough)
          refine ⟨result, compared, ?_⟩
          rw [List.map_cons, List.map_cons, same]
          exact compares.cons _
        · rw [if_pos same]
          by_cases greater : asciiLower first > asciiLower second
          · rw [if_pos greater]
            exact ⟨1, rfl, Or.inr (Or.inr ⟨rfl, List.cons_lt_cons_iff.mpr (Or.inl greater)⟩)⟩
          · have less : asciiLower first < asciiLower second :=
              BitVec.lt_of_le_ne (BitVec.not_lt.mp greater) same
            rw [if_neg greater]
            exact ⟨-1, rfl, Or.inr (Or.inl ⟨rfl, List.cons_lt_cons_iff.mpr (Or.inl less)⟩)⟩

/-- The comparison of two strings reads no byte behind the terminating ones and compares the
texts in small letters. -/
theorem strcasecmp_compares (left right : CString) :
    ∃ result, strcasecmp left.bytes right.bytes = some result ∧
      Compares left.lower right.lower result := by
  have leftFits := left.addressable
  have rightFits := right.addressable
  unfold strcasecmp
  rw [strlen_bytes, strlen_bytes]
  refine strncasecmpLoop_compares 0 rfl rfl left.terminated right.terminated ?_ ?_
  · split <;> rw [Nat.mod_eq_of_lt] <;> omega
  · split <;> rw [Nat.mod_eq_of_lt] <;> omega

/-! ### The hash -/

/-- The hash of the bytes of a text. -/
def fnv (text : List Byte) (value : Word) : Word :=
  text.foldl (fun value byte => fnvRound value (byte.setWidth 32)) value

theorem stringCaseHashLoop_bytes {text : List Byte} (terminated : 0 ∉ text) (value : Word) :
    stringCaseHashLoop (text ++ [0]) value = some (fnv (text.map asciiLower) value) := by
  induction text generalizing value with
  | nil => rfl
  | cons byte rest inductionHypothesis =>
    rw [List.mem_cons, not_or] at terminated
    have folded := foldedCharacter_eq byte
    dsimp only at folded
    rw [List.cons_append, stringCaseHashLoop, if_neg (Ne.symm terminated.1), List.map_cons]
    dsimp only
    rw [folded, inductionHypothesis terminated.2, fnv, fnv, List.foldl_cons]

/-- The hash reads no byte behind the terminating one and is a function of the text in small
letters. -/
theorem stringCaseHash_bytes (string : CString) :
    stringCaseHash string.bytes = some (fnv string.lower 0x811c9dc5) :=
  stringCaseHashLoop_bytes string.terminated _

/-! ### The contract of a table -/

/-- The comparison of two strings is zero exactly when they agree in small letters. -/
theorem strcasecmp_eq_zero (left right : CString) :
    strcasecmp left.bytes right.bytes = some 0 ↔ left.lower = right.lower := by
  obtain ⟨result, compared, compares⟩ := strcasecmp_compares left right
  rw [compared, Option.some.injEq]
  rcases compares with ⟨rfl, same⟩ | ⟨rfl, less⟩ | ⟨rfl, less⟩
  · exact iff_of_true rfl same
  · exact iff_of_false (by decide) fun same => List.lt_irrefl _ (same ▸ less)
  · exact iff_of_false (by decide) fun same => List.lt_irrefl _ (same ▸ less)

/-- The comparison and the hash of the case-insensitive tables. They never read beyond the end
of a string; the sign of the comparison is that of the texts in small letters; zero is an
equivalence; and strings that compare as zero have one hash. -/
theorem strcase_contract :
    (∀ left right : CString, ∃ result, strcasecmp left.bytes right.bytes = some result ∧
      (result < 0 ↔ left.lower < right.lower) ∧ (result = 0 ↔ left.lower = right.lower) ∧
      (0 < result ↔ right.lower < left.lower)) ∧
    Equivalence (fun left right : CString => stringCaseCompare left.bytes right.bytes = some 0) ∧
    (∀ string : CString, ∃ value, stringCaseHash string.bytes = some value) ∧
    ∀ left right : CString, stringCaseCompare left.bytes right.bytes = some 0 →
      stringCaseHash left.bytes = stringCaseHash right.bytes := by
  refine ⟨fun left right => ?_, ⟨fun string => ?_, fun {left right} => ?_,
    fun {left middle right} => ?_⟩, fun string => ⟨_, stringCaseHash_bytes string⟩,
    fun left right => ?_⟩
  · obtain ⟨result, compared, compares⟩ := strcasecmp_compares left right
    refine ⟨result, compared, ?_⟩
    rcases compares with ⟨rfl, same⟩ | ⟨rfl, less⟩ | ⟨rfl, less⟩
    · simp [same, List.lt_irrefl]
    · have different : left.lower ≠ right.lower := fun same => List.lt_irrefl _ (same ▸ less)
      simp [less, List.lt_asymm less, different]
    · have different : left.lower ≠ right.lower := fun same => List.lt_irrefl _ (same ▸ less)
      simp [less, List.lt_asymm less, different]
  · exact (strcasecmp_eq_zero string string).mpr rfl
  · unfold stringCaseCompare
    rw [strcasecmp_eq_zero, strcasecmp_eq_zero]
    exact Eq.symm
  · unfold stringCaseCompare
    rw [strcasecmp_eq_zero, strcasecmp_eq_zero, strcasecmp_eq_zero]
    exact Eq.trans
  · unfold stringCaseCompare
    rw [strcasecmp_eq_zero, stringCaseHash_bytes, stringCaseHash_bytes]
    exact congrArg fun text => some (fnv text 0x811c9dc5)

/-- The callbacks of the case-insensitive tables, where every key is the address of a string. -/
def strcaseType (string : Word → CString) : HashType where
  compare left right := (stringCaseCompare (string left).bytes (string right).bytes).getD 0
  hash key := (stringCaseHash (string key).bytes).getD 0

theorem strcaseType_compare_eq_zero (string : Word → CString) (left right : Word) :
    (strcaseType string).compare left right = 0 ↔ (string left).lower = (string right).lower := by
  obtain ⟨result, compared, -⟩ := strcasecmp_compares (string left) (string right)
  rw [← strcasecmp_eq_zero]
  simp [strcaseType, stringCaseCompare, compared]

/-- The case-insensitive callbacks are what every table may rely on. -/
theorem strcaseType_lawful (string : Word → CString) : (strcaseType string).Lawful where
  refl key := (strcaseType_compare_eq_zero string key key).mpr rfl
  symm {left right} := by
    rw [strcaseType_compare_eq_zero, strcaseType_compare_eq_zero]
    exact Eq.symm
  trans {left middle right} := by
    rw [strcaseType_compare_eq_zero, strcaseType_compare_eq_zero, strcaseType_compare_eq_zero]
    exact Eq.trans
  hash {left right} := by
    rw [strcaseType_compare_eq_zero]
    intro same
    show (stringCaseHash _).getD 0 = (stringCaseHash _).getD 0
    rw [stringCaseHash_bytes, stringCaseHash_bytes, same]

end LaserD.Hash
