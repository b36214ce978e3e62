/-
This file is about texts in which decimal numbers stand without an end mark. Such a number is only
ended by what follows it, so one text may go on where another ends, and then it goes on with digits.

Two texts tell a fact when it holds wherever both are followed by something that makes them the
same, the second one by no digit; up to digits with which the first one may be followed besides.
The facts that two lists of texts tell are those of their members, if every text begins with a
character that is no digit: then a digit can follow the last text only.
-/

import Mathlib.Data.List.Forall2
import Mathlib.Data.List.TakeDrop

namespace NumberedTexts

/-- No digit follows. -/
def Delimited (rest : List Char) : Prop :=
  ∀ c, rest.head? = some c → c.isDigit = false

/-- Every character is a digit. -/
def Digits (text : List Char) : Prop :=
  ∀ c ∈ text, c.isDigit = true

/-- A text begins with a character that is no digit. -/
def Marked (text : List Char) : Prop :=
  ∃ c rest, text = c :: rest ∧ c.isDigit = false

/-- Two texts that become the same, the second one followed by no digit, make the fact true, up to
digits behind the first one. -/
def Tells (first second : List Char) (fact : Prop) : Prop :=
  ∀ after behind, Delimited behind → first ++ after = second ++ behind →
    ∃ digits, Digits digits ∧ after = digits ++ behind ∧ (digits = [] → fact)

theorem Marked.delimited_append {text : List Char} (marked : Marked text) (rest : List Char) :
    Delimited (text ++ rest) := by
  obtain ⟨c, tail, rfl, noDigit⟩ := marked
  intro d head
  rw [← Option.some.inj head]
  exact noDigit

theorem delimited_nil : Delimited [] := fun _ head => absurd head.symm (Option.some_ne_none _)

/-- Digits that a text without a digit at its start ends with are none. -/
theorem Marked.digits_eq_nil {text digits rest after : List Char} (marked : Marked text)
    (isDigits : Digits digits) (same : text ++ after = digits ++ rest) : digits = [] := by
  obtain ⟨c, tail, rfl, noDigit⟩ := marked
  cases digits with
  | nil => rfl
  | cons d digits =>
    have head : c = d := (List.cons.inj same).1
    have digit := isDigits d List.mem_cons_self
    rw [← head, noDigit] at digit
    exact absurd digit Bool.false_ne_true

namespace Tells

variable {first second first' second' : List Char} {fact fact' : Prop}

theorem mono (tells : Tells first second fact) (weaker : fact → fact') :
    Tells first second fact' := by
  intro after behind delimited same
  obtain ⟨digits, isDigits, split, holds⟩ := tells after behind delimited same
  exact ⟨digits, isDigits, split, fun none => weaker (holds none)⟩

/-- What the texts tell when neither goes on. -/
theorem of_eq (tells : Tells first second fact) (same : first = second) : fact := by
  obtain ⟨digits, _, split, holds⟩ := tells [] [] delimited_nil (by rw [same])
  exact holds (List.append_eq_nil_iff.mp split.symm).1

/-- Where the first text is a prefix of the second, digits are left. -/
theorem digits_of_prefix (tells : Tells first second fact) {rest : List Char}
    (same : first ++ rest = second) : Digits rest := by
  obtain ⟨digits, isDigits, split, _⟩ := tells rest [] delimited_nil (by rw [List.append_nil, same])
  rw [split, List.append_nil]
  exact isDigits

theorem nil : Tells [] [] True :=
  fun _ _ _ same => ⟨[], fun _ member => absurd member List.not_mem_nil, same, fun _ => trivial⟩

/-- The same character in front. -/
theorem cons (c : Char) (tells : Tells first second fact) :
    Tells (c :: first) (c :: second) fact :=
  fun after behind delimited same => tells after behind delimited (List.cons.inj same).2

/-- Different characters in front. -/
theorem of_ne {c d : Char} (differ : c ≠ d) : Tells (c :: first) (d :: second) fact :=
  fun _ _ _ same => absurd (List.cons.inj same).1 differ

/-- Texts of the same length. -/
theorem of_length (lengths : first.length = second.length) :
    Tells first second (first = second) := by
  intro after behind _ same
  obtain ⟨texts, rests⟩ := List.append_inj same lengths
  exact ⟨[], fun _ member => absurd member List.not_mem_nil, rests, fun _ => texts⟩

/-- A second pair of texts behind the first, when no digit is at their start. -/
theorem append (tells : Tells first second fact) (marked : Marked first') (marked' : Marked second')
    (tells' : fact → Tells first' second' fact') :
    Tells (first ++ first') (second ++ second') (fact ∧ fact') := by
  intro after behind delimited same
  rw [List.append_assoc, List.append_assoc] at same
  obtain ⟨digits, isDigits, split, holds⟩ :=
    tells (first' ++ after) (second' ++ behind) (marked'.delimited_append behind) same
  have none := marked.digits_eq_nil isDigits split
  rw [none, List.nil_append] at split
  obtain ⟨digits', isDigits', split', holds'⟩ := tells' (holds none) after behind delimited split
  exact ⟨digits', isDigits', split', fun none' => ⟨holds none, holds' none'⟩⟩

end Tells

/-! ### Decimal numbers -/

theorem digits_toDigits (n : Nat) : Digits (Nat.toDigits 10 n) :=
  fun _ member => Nat.isDigit_of_mem_toDigits (by decide) (by decide) member

theorem toDigits_injective {n m : Nat} (same : Nat.toDigits 10 n = Nat.toDigits 10 m) : n = m := by
  rw [← Nat.ofDigitChars_ten_toDigits (n := n), same, Nat.ofDigitChars_ten_toDigits]

/-- Numbers are told by their digits. -/
theorem tells_toDigits (n m : Nat) : Tells (Nat.toDigits 10 n) (Nat.toDigits 10 m) (n = m) := by
  intro after behind delimited same
  have taken := congrArg (List.takeWhile Char.isDigit) same
  have dropped := congrArg (List.dropWhile Char.isDigit) same
  have behindTaken : behind.takeWhile Char.isDigit = [] := by
    cases behind with
    | nil => rfl
    | cons c rest =>
      exact List.takeWhile_cons_of_neg (by rw [delimited c rfl]; exact Bool.false_ne_true)
  have behindDropped : behind.dropWhile Char.isDigit = behind := by
    cases behind with
    | nil => rfl
    | cons c rest =>
      exact List.dropWhile_cons_of_neg (by rw [delimited c rfl]; exact Bool.false_ne_true)
  rw [List.takeWhile_append_of_pos (digits_toDigits n),
    List.takeWhile_append_of_pos (digits_toDigits m), behindTaken, List.append_nil] at taken
  rw [List.dropWhile_append_of_pos (digits_toDigits n),
    List.dropWhile_append_of_pos (digits_toDigits m), behindDropped] at dropped
  refine ⟨after.takeWhile Char.isDigit, fun c member =>
    List.all_eq_true.mp List.all_takeWhile c member, ?_, ?_⟩
  · rw [← dropped, List.takeWhile_append_dropWhile]
  · intro none
    rw [none, List.append_nil] at taken
    exact toDigits_injective taken

/-- The first digit of a number other than zero is none. -/
theorem head_toDigits_ne_zero {n : Nat} (positive : 0 < n) :
    (Nat.toDigits 10 n).head? ≠ some '0' := by
  induction n using Nat.strongRecOn with
  | ind n inductionHypothesis =>
    by_cases small : n < 10
    · rw [Nat.toDigits_of_lt_base small]
      have each : ∀ k : Fin 10, 0 < k.val → [Nat.digitChar k.val].head? ≠ some '0' := by decide
      exact each ⟨n, small⟩ positive
    · rw [Nat.toDigits_of_base_le (by decide) (Nat.not_lt.mp small),
        List.head?_append_of_ne_nil _ Nat.toDigits_ne_nil]
      exact inductionHypothesis (n / 10) (Nat.div_lt_self positive (by decide))
        (Nat.div_pos (Nat.not_lt.mp small) (by decide))

/-! ### Lists of texts -/

/-- Pairs of texts that tell facts, one behind the other. -/
theorem tells_flatten {α β : Type} {fact : α → β → Prop} {left : α → List Char}
    {right : β → List Char} {as : List α} {bs : List β} (lengths : as.length = bs.length)
    (each : ∀ pair ∈ as.zip bs, Marked (left pair.1) ∧ Marked (right pair.2) ∧
      Tells (left pair.1) (right pair.2) (fact pair.1 pair.2)) :
    Tells (as.flatMap left) (bs.flatMap right) (List.Forall₂ fact as bs) := by
  induction as generalizing bs with
  | nil =>
    obtain rfl : bs = [] := List.length_eq_zero_iff.mp lengths.symm
    exact Tells.nil.mono fun _ => .nil
  | cons a as inductionHypothesis =>
    cases bs with
    | nil => exact absurd lengths (Nat.succ_ne_zero _)
    | cons b bs =>
      obtain ⟨⟨marked, marked', tells⟩, rest⟩ := List.forall_mem_cons.mp each
      have lengths' : as.length = bs.length := Nat.succ.inj lengths
      have tail := inductionHypothesis lengths' rest
      rw [List.flatMap_cons, List.flatMap_cons]
      cases as with
      | nil =>
        obtain rfl : bs = [] := List.length_eq_zero_iff.mp lengths'.symm
        rw [List.flatMap_nil, List.flatMap_nil, List.append_nil, List.append_nil]
        exact tells.mono fun head => .cons head .nil
      | cons a' as =>
        cases bs with
        | nil => exact absurd lengths' (Nat.succ_ne_zero _)
        | cons b' bs =>
          have next := rest (a', b') List.mem_cons_self
          have starts : ∀ {text : List Char} (more : List Char), Marked text →
              Marked (text ++ more) := by
            rintro _ more ⟨c, tail, rfl, noDigit⟩
            exact ⟨c, tail ++ more, rfl, noDigit⟩
          exact (tells.append (starts _ next.1) (starts _ next.2.1) fun _ => tail).mono
            fun facts => .cons facts.1 facts.2

/-- A number of texts in front of them. -/
theorem tells_numbered {n m : Nat} {first second : List Char} {fact : Prop}
    (firstEmpty : n = 0 → first = []) (firstMarked : n ≠ 0 → Marked first)
    (secondEmpty : m = 0 → second = []) (secondMarked : m ≠ 0 → Marked second)
    (tells : n = m → Tells first second fact) :
    Tells (Nat.toDigits 10 n ++ first) (Nat.toDigits 10 m ++ second) (n = m ∧ fact) := by
  have nonzero : ∀ {k : Nat} (text rest : List Char) {fact : Prop}, k ≠ 0 →
      Tells (Nat.toDigits 10 0 ++ text) (Nat.toDigits 10 k ++ rest) fact ∧
        Tells (Nat.toDigits 10 k ++ rest) (Nat.toDigits 10 0 ++ text) fact := by
    intro k text rest fact positive
    have head := head_toDigits_ne_zero (Nat.pos_of_ne_zero positive)
    rw [Nat.toDigits_zero]
    cases digits : Nat.toDigits 10 k with
    | nil => exact absurd digits Nat.toDigits_ne_nil
    | cons d ds =>
      rw [digits, List.head?_cons] at head
      have differ : '0' ≠ d := fun same => head (congrArg some same.symm)
      exact ⟨Tells.of_ne differ, Tells.of_ne (Ne.symm differ)⟩
  by_cases zero : n = 0
  · by_cases zero' : m = 0
    · have told := tells (zero.trans zero'.symm)
      rw [firstEmpty zero, secondEmpty zero'] at told
      rw [zero, zero', firstEmpty zero, secondEmpty zero', Nat.toDigits_zero]
      exact (told.cons '0').mono fun holds => ⟨rfl, holds⟩
    · rw [zero]
      exact (nonzero first second zero').1
  · by_cases zero' : m = 0
    · rw [zero']
      exact (nonzero second first zero).2
    · exact (tells_toDigits n m).append (firstMarked zero) (secondMarked zero') tells

end NumberedTexts
