/-
This file is about numbers that are written in a text without an end mark: decimal numbers,
which end where the digits end, and numbers in base 26, whose last digit is a letter of
another case. A reader stands at a position of the whole text, and finds the number that was
written there.
-/

import Mathlib.Algebra.Order.Ring.Nat
import Mathlib.Data.List.TakeDrop

namespace Numerals

/-- A word stands in a text at a position. -/
def Stands (text : List Char) (pos : Nat) (word : List Char) : Prop :=
  word <+: text.drop pos

variable {text : List Char} {pos : Nat}

theorem stands_append {first second : List Char} :
    Stands text pos (first ++ second) ↔
      Stands text pos first ∧ Stands text (pos + first.length) second := by
  constructor
  · rintro ⟨rest, whole⟩
    refine ⟨⟨second ++ rest, by rw [← List.append_assoc, whole]⟩, ⟨rest, ?_⟩⟩
    rw [← List.drop_drop, ← whole, List.append_assoc, List.drop_left]
  · rintro ⟨⟨rest, whole⟩, ⟨rest', whole'⟩⟩
    refine ⟨rest', ?_⟩
    rw [← List.drop_drop, ← whole, List.drop_left] at whole'
    rw [← whole, ← whole', List.append_assoc]

theorem stands_cons {c : Char} {word : List Char} :
    Stands text pos (c :: word) ↔ text[pos]? = some c ∧ Stands text (pos + 1) word := by
  rw [← List.singleton_append, stands_append, List.length_singleton]
  refine and_congr_left fun _ => ?_
  rw [Stands, List.prefix_iff_eq_take, List.length_singleton, List.take_one, List.head?_drop]
  cases text[pos]? with
  | none => simp
  | some d => simp [eq_comm]

/-- The longest word at a position of which all letters are of a kind. -/
def span (text : List Char) (kind : Char → Bool) (pos : Nat) : List Char :=
  (text.drop pos).takeWhile kind

theorem span_eq {kind : Char → Bool} {word : List Char} (stands : Stands text pos word)
    (all : ∀ c ∈ word, kind c = true)
    (next : ∀ c, text[pos + word.length]? = some c → kind c = false) :
    span text kind pos = word := by
  obtain ⟨rest, whole⟩ := stands
  rw [span, ← whole, List.takeWhile_append_of_pos all]
  cases rest with
  | nil => simp
  | cons c rest =>
    have at_ : text[pos + word.length]? = some c := by
      rw [← List.getElem?_drop, ← whole, List.getElem?_append_right le_rfl, Nat.sub_self]
      rfl
    rw [List.takeWhile_cons_of_neg (by rw [next c at_]; exact Bool.false_ne_true), List.append_nil]

/-! ### Decimal numbers -/

/-- A decimal number at a position, and where it ends. -/
def readDecimal (text : List Char) (pos : Nat) : Nat × Nat :=
  let digits := span text Char.isDigit pos
  (Nat.ofDigitChars 10 digits 0, pos + digits.length)

theorem readDecimal_eq {n : Nat} (stands : Stands text pos (Nat.toDigits 10 n))
    (next : ∀ c, text[pos + (Nat.toDigits 10 n).length]? = some c → c.isDigit = false) :
    readDecimal text pos = (n, pos + (Nat.toDigits 10 n).length) := by
  have all : ∀ c ∈ Nat.toDigits 10 n, c.isDigit = true := fun c member =>
    Nat.isDigit_of_mem_toDigits (by decide) (by decide) member
  rw [readDecimal, span_eq stands all next, Nat.ofDigitChars_toDigits (by decide) (by decide)]

/-! ### Base 26 -/

/-- The letter of a digit, counted from a first letter. -/
def letter (first : Char) (digit : Nat) : Char :=
  Char.ofNat (first.toNat + digit)

/-- The digits of a number from the given power of 26 on. All are upper case but the last. -/
def marked : Nat → Nat → List Char
  | 0, n => [letter 'a' n]
  | power + 1, n => letter 'A' (n / 26 ^ (power + 1)) :: marked power (n % 26 ^ (power + 1))

/-- The number whose upper case digits have been read up to here. -/
def upperValue (digits : List Char) (value : Nat) : Nat :=
  digits.foldl (fun value c => 26 * value + (c.toNat - 'A'.toNat)) value

/-- A number in base 26 at a position, and where it ends. -/
def readMarked (text : List Char) (pos : Nat) : Option (Nat × Nat) :=
  let digits := span text Char.isUpper pos
  (text[pos + digits.length]?).map fun last =>
    (26 * upperValue digits 0 + (last.toNat - 'a'.toNat), pos + digits.length + 1)

theorem toNat_letter (first : Char) (small : first.toNat ≤ 128) {digit : Nat} (below : digit < 26) :
    (letter first digit).toNat = first.toNat + digit := by
  have valid : (first.toNat + digit).isValidChar := Or.inl (by omega)
  rw [letter, Char.ofNat, dif_pos valid]
  rfl

theorem isUpper_iff (c : Char) : c.isUpper = true ↔ 65 ≤ c.toNat ∧ c.toNat ≤ 90 :=
  decide_eq_true_iff

theorem isUpper_letter {digit : Nat} (below : digit < 26) : (letter 'A' digit).isUpper = true := by
  have value := toNat_letter 'A' (by decide) below
  rw [isUpper_iff, value]
  change 65 ≤ 65 + digit ∧ 65 + digit ≤ 90
  omega

theorem isUpper_letter_lower {digit : Nat} (below : digit < 26) :
    (letter 'a' digit).isUpper = false := by
  have value := toNat_letter 'a' (by decide) below
  rw [← Bool.not_eq_true, isUpper_iff, value]
  change ¬ (65 ≤ 97 + digit ∧ 97 + digit ≤ 90)
  omega

/-- The digits are upper case digits and a last one, and have the value of the number. -/
theorem marked_split (power n : Nat) (below : n < 26 ^ (power + 1)) (value : Nat) :
    ∃ digits last, marked power n = digits ++ [letter 'a' last] ∧ last < 26 ∧
      (∀ c ∈ digits, c.isUpper = true) ∧
      26 * upperValue digits value + last = 26 ^ (power + 1) * value + n := by
  induction power generalizing n value with
  | zero =>
    refine ⟨[], n, rfl, by simpa using below, by simp, ?_⟩
    rw [upperValue, List.foldl_nil]
    omega
  | succ power inductionHypothesis =>
    have positive : 0 < 26 ^ (power + 1) := Nat.pow_pos (by decide)
    have top : n / 26 ^ (power + 1) < 26 := by
      rw [Nat.div_lt_iff_lt_mul positive, ← Nat.pow_succ']
      exact below
    have letterValue : (letter 'A' (n / 26 ^ (power + 1))).toNat - 'A'.toNat =
        n / 26 ^ (power + 1) := by
      rw [toNat_letter 'A' (by decide) top, Nat.add_sub_cancel_left]
    obtain ⟨digits, last, split, small, upper, sum⟩ := inductionHypothesis
      (n % 26 ^ (power + 1)) (Nat.mod_lt _ positive) (26 * value + n / 26 ^ (power + 1))
    refine ⟨letter 'A' (n / 26 ^ (power + 1)) :: digits, last, ?_, small, ?_, ?_⟩
    · rw [marked, split, List.cons_append]
    · intro c member
      rcases List.mem_cons.mp member with rfl | later
      · exact isUpper_letter top
      · exact upper c later
    · rw [upperValue, List.foldl_cons, letterValue, ← upperValue, sum, Nat.mul_add,
        Nat.add_assoc, Nat.div_add_mod, Nat.pow_succ 26 (power + 1), Nat.mul_assoc]

theorem readMarked_eq {power n : Nat} (below : n < 26 ^ (power + 1))
    (stands : Stands text pos (marked power n)) :
    readMarked text pos = some (n, pos + (marked power n).length) := by
  obtain ⟨digits, last, split, small, upper, sum⟩ := marked_split power n below 0
  rw [split] at stands ⊢
  obtain ⟨before, lastStands⟩ := stands_append.mp stands
  have lastAt := (stands_cons.mp lastStands).1
  have spanned : span text Char.isUpper pos = digits := by
    refine span_eq before upper fun c at_ => ?_
    rw [lastAt, Option.some.injEq] at at_
    rw [← at_]
    exact isUpper_letter_lower small
  have lastValue : (letter 'a' last).toNat - 'a'.toNat = last := by
    rw [toNat_letter 'a' (by decide) small, Nat.add_sub_cancel_left]
  rw [Nat.mul_zero, Nat.zero_add] at sum
  rw [readMarked, spanned, lastAt, Option.map_some, lastValue, sum, List.length_append, List.length_singleton,
    Nat.add_assoc]

end Numerals
