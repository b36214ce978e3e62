/-
This file is about numbers written in groups of seven bits, the lowest group first, where the upper
bit of a byte tells that another byte follows.

What the last group stands for is a parameter: itself where numbers have no sign, and the number
that its sixth bit extends where they have one. A byte sequence that stands for a number is not the
beginning of another one, so a sequence of numbers is read back from their bytes. A sequence is the
shortest one for its number if it ends as soon as a last group can stand for what is left.
-/

import Mathlib.Data.List.Basic
import Mathlib.Algebra.Order.Ring.Int
import Mathlib.Tactic.Ring

namespace Leb128

abbrev Byte := BitVec 8

/-- The bits of a byte that belong to the number. -/
def group (b : Byte) : Nat := b.toNat % 128

/-- Another byte follows. -/
def continues (b : Byte) : Bool := 128 ≤ b.toNat

theorem group_lt (b : Byte) : group b < 128 := Nat.mod_lt _ (by decide)

/-- The last group of a number without a sign. -/
def unsigned (group : Nat) : Int := group

/-- The last group of a number with a sign. -/
def signed (group : Nat) : Int := if 64 ≤ group then (group : Int) - 128 else group

section Reading

variable (read : Nat → Int)

/-- The number at the start of a byte sequence, and the bytes behind it. -/
def decode : List Byte → Option (Int × List Byte)
  | [] => none
  | b :: rest =>
    if continues b then (decode rest).map fun found => (group b + 128 * found.1, found.2)
    else some (read (group b), rest)

/-- The bytes that stand for a number. -/
inductive Word : Int → List Byte → Prop
  | last (b : Byte) (ends : continues b = false) : Word (read (group b)) [b]
  | next (b : Byte) (more : continues b = true) (z : Int) (bytes : List Byte)
      (rest : Word z bytes) : Word (group b + 128 * z) (b :: bytes)

/-- The bytes that stand for a number and end as soon as they can. -/
inductive Shortest : Int → List Byte → Prop
  | last (b : Byte) (ends : continues b = false) : Shortest (read (group b)) [b]
  | next (b : Byte) (more : continues b = true) (z : Int) (bytes : List Byte)
      (needed : ∀ group < 128, read group ≠ Leb128.group b + 128 * z)
      (rest : Shortest z bytes) : Shortest (group b + 128 * z) (b :: bytes)

end Reading

variable {read : Nat → Int} {z z' : Int} {bytes bytes' : List Byte}

/-! ### Reading back -/

theorem Shortest.word (shortest : Shortest read z bytes) : Word read z bytes := by
  induction shortest with
  | last b ends => exact Word.last b ends
  | next b more z bytes _ _ inductionHypothesis =>
    exact Word.next b more z bytes inductionHypothesis

/-- A number is read back in front of any bytes. -/
theorem Word.decode_append (word : Word read z bytes) (rest : List Byte) :
    decode read (bytes ++ rest) = some (z, rest) := by
  induction word with
  | last b ends =>
    show decode read (b :: rest) = _
    rw [decode, ends, if_neg Bool.false_ne_true]
  | next b more z bytes _ inductionHypothesis =>
    rw [List.cons_append, decode, more, if_pos rfl, inductionHypothesis]
    rfl

/-- What is read is a word and what follows it. -/
theorem word_of_decode {rest : List Byte} (read_ : decode read bytes = some (z, rest)) :
    ∃ front, bytes = front ++ rest ∧ Word read z front := by
  induction bytes generalizing z with
  | nil => exact absurd read_ (by simp [decode])
  | cons b bytes inductionHypothesis =>
    rw [decode] at read_
    by_cases more : continues b = true
    · rw [if_pos more, Option.map_eq_some_iff] at read_
      obtain ⟨⟨tail, left⟩, found, same⟩ := read_
      obtain ⟨rfl, rfl⟩ := Prod.mk.inj same
      obtain ⟨front, rfl, word⟩ := inductionHypothesis found
      exact ⟨b :: front, rfl, Word.next b more tail front word⟩
    · rw [if_neg more] at read_
      obtain ⟨rfl, rfl⟩ := Prod.mk.inj (Option.some.inj read_)
      exact ⟨[b], rfl, Word.last b (Bool.eq_false_iff.mpr more)⟩

theorem Word.ne_nil (word : Word read z bytes) : bytes ≠ [] := by
  cases word with
  | last b ends => exact List.cons_ne_nil _ _
  | next b more z bytes rest => exact List.cons_ne_nil _ _

/-- Words in front of the same bytes are the same. -/
theorem Word.unique (word : Word read z bytes) (word' : Word read z' bytes')
    {rest rest' : List Byte} (same : bytes ++ rest = bytes' ++ rest') :
    z = z' ∧ bytes = bytes' ∧ rest = rest' := by
  have first := word.decode_append rest
  rw [same, word'.decode_append rest'] at first
  obtain ⟨rfl, rfl⟩ := Prod.mk.inj (Option.some.inj first)
  exact ⟨rfl, List.append_cancel_right same, rfl⟩

/-- No word is the beginning of another one. -/
theorem Word.eq_of_begins (word : Word read z bytes) (word' : Word read z' bytes')
    (begins : bytes <+: bytes') : z = z' ∧ bytes = bytes' := by
  obtain ⟨rest, same⟩ := begins
  obtain ⟨numbers, words, _⟩ := word.unique word' (same.trans (List.append_nil bytes').symm)
  exact ⟨numbers, words⟩

/-! ### The shortest bytes -/

/-- A word that ends as soon as it can is no longer than any other word of its number. -/
theorem Shortest.length_le (shortest : Shortest read z bytes) (word : Word read z bytes') :
    bytes.length ≤ bytes'.length := by
  induction word generalizing bytes with
  | last b ends =>
    generalize same : read (group b) = z at shortest
    cases shortest with
    | last b' ends' => exact Nat.le_refl _
    | next b' more' z' bytes needed rest => exact absurd same (needed _ (group_lt b))
  | next b more z bytes' _ inductionHypothesis =>
    generalize same : (group b : Int) + 128 * z = whole at shortest
    cases shortest with
    | last b' ends' => exact Nat.succ_le_succ (Nat.zero_le _)
    | next b' more' z' bytes needed rest =>
      have low := group_lt b
      have low' := group_lt b'
      obtain rfl : z = z' := by omega
      exact Nat.succ_le_succ (inductionHypothesis rest)

/-! ### Writers -/

section Writing

variable {Number : Type}

/-- The numbers of a list are written one behind the other. -/
def writeAll (write : Number → List Byte → Option (List Byte)) :
    List Number → List Byte → Option (List Byte)
  | [], data => some data
  | number :: numbers, data => (write number data).bind (writeAll write numbers)

/-- A writer appends a code for each number. -/
structure Codes (read : Nat → Int) (value : Number → Int)
    (write : Number → List Byte → Option (List Byte)) : Prop where
  /-- Something is appended that is read back as the number, whatever follows, and no other bytes
  of which this is true are fewer. -/
  appends : ∀ number data, ∃ bytes, write number data = some (data ++ bytes) ∧
    (∀ rest, decode read (bytes ++ rest) = some (value number, rest)) ∧
    ∀ other, decode read other = some (value number, []) → bytes.length ≤ other.length
  /-- No code begins with another one. -/
  prefixFree : ∀ number number' bytes bytes', write number [] = some bytes →
    write number' [] = some bytes' → bytes <+: bytes' → number = number'
  /-- The codes of a list of numbers are those of no other list. -/
  unique : ∀ numbers numbers' data, writeAll write numbers data = writeAll write numbers' data →
    numbers = numbers'

variable {read : Nat → Int} {value : Number → Int}
  {write : Number → List Byte → Option (List Byte)}

/-- What is written for a list of numbers is read back. -/
theorem writeAll_words (writes : ∀ number data, ∃ bytes, write number data = some (data ++ bytes) ∧
      Word read (value number) bytes) (numbers : List Number) (data : List Byte) :
    ∃ bytes, writeAll write numbers data = some (data ++ bytes) := by
  induction numbers generalizing data with
  | nil => exact ⟨[], by rw [writeAll, List.append_nil]⟩
  | cons number numbers inductionHypothesis =>
    obtain ⟨bytes, written, _⟩ := writes number data
    obtain ⟨rest, left⟩ := inductionHypothesis (data ++ bytes)
    exact ⟨bytes ++ rest, by rw [writeAll, written, Option.bind_some, left, List.append_assoc]⟩

/-- A list of numbers is told by what is written for it. -/
theorem writeAll_unique (injective : Function.Injective value)
    (writes : ∀ number data, ∃ bytes, write number data = some (data ++ bytes) ∧
      Word read (value number) bytes) (numbers numbers' : List Number) (data : List Byte)
    (same : writeAll write numbers data = writeAll write numbers' data) : numbers = numbers' := by
  induction numbers generalizing numbers' data with
  | nil =>
    cases numbers' with
    | nil => rfl
    | cons number' numbers' =>
      obtain ⟨bytes, written, word⟩ := writes number' data
      obtain ⟨rest, left⟩ := writeAll_words writes numbers' (data ++ bytes)
      rw [writeAll, writeAll, written, Option.bind_some, left, List.append_assoc] at same
      have none := List.append_eq_nil_iff.mp (List.self_eq_append_right.mp (Option.some.inj same))
      exact absurd none.1 word.ne_nil
  | cons number numbers inductionHypothesis =>
    obtain ⟨bytes, written, word⟩ := writes number data
    obtain ⟨rest, left⟩ := writeAll_words writes numbers (data ++ bytes)
    cases numbers' with
    | nil =>
      rw [writeAll, writeAll, written, Option.bind_some, left, List.append_assoc] at same
      have none := List.append_eq_nil_iff.mp
        (List.self_eq_append_right.mp (Option.some.inj same).symm)
      exact absurd none.1 word.ne_nil
    | cons number' numbers' =>
      obtain ⟨bytes', written', word'⟩ := writes number' data
      obtain ⟨rest', left'⟩ := writeAll_words writes numbers' (data ++ bytes')
      rw [writeAll, writeAll, written, written', Option.bind_some, Option.bind_some] at same
      have together := same
      rw [left, left', List.append_assoc, List.append_assoc] at together
      obtain ⟨values, rfl, _⟩ :=
        word.unique word' (List.append_cancel_left (Option.some.inj together))
      rw [injective values, inductionHypothesis numbers' _ same]

/-- A writer of shortest words appends codes. -/
theorem codes_of_shortest (injective : Function.Injective value)
    (writes : ∀ number data, ∃ bytes, write number data = some (data ++ bytes) ∧
      Shortest read (value number) bytes) : Codes read value write where
  appends number data := by
    obtain ⟨bytes, written, shortest⟩ := writes number data
    refine ⟨bytes, written, shortest.word.decode_append, fun other read_ => ?_⟩
    obtain ⟨front, rfl, word⟩ := word_of_decode read_
    rw [List.append_nil]
    exact shortest.length_le word
  prefixFree number number' bytes bytes' written written' begins := by
    obtain ⟨word, same, shortest⟩ := writes number []
    obtain ⟨word', same', shortest'⟩ := writes number' []
    obtain rfl : word = bytes := Option.some.inj (same.symm.trans written)
    obtain rfl : word' = bytes' := Option.some.inj (same'.symm.trans written')
    exact injective (shortest.word.eq_of_begins shortest'.word begins).1
  unique := writeAll_unique injective fun number data => by
    obtain ⟨bytes, written, shortest⟩ := writes number data
    exact ⟨bytes, written, shortest.word⟩

end Writing

end Leb128
