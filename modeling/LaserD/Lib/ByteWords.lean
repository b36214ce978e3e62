/-
This file is about words of several bytes in a memory of bytes, the lowest byte first.

A word that was written is read back as far as its width goes, and words that do not overlap do not
change each other.
-/

import Mathlib.Data.BitVec
import Mathlib.Logic.Function.Basic

namespace ByteWords

/-- A memory of bytes. -/
abbrev Bytes := Nat → BitVec 8

/-- The word of a width at an address. -/
def readWord (bytes : Bytes) : (width address : Nat) → Nat
  | 0, _ => 0
  | width + 1, address =>
    (bytes address).toNat + 256 * readWord bytes width (address + 1)

/-- The memory with a word of a width at an address. -/
def writeWord : (width address value : Nat) → Bytes → Bytes
  | 0, _, _, bytes => bytes
  | width + 1, address, value, bytes =>
    writeWord width (address + 1) (value / 256)
      (Function.update bytes address (BitVec.ofNat 8 value))

/-- Bytes outside a word are as before. -/
theorem writeWord_other (width address value i : Nat) (bytes : Bytes)
    (outside : i < address ∨ address + width ≤ i) :
    writeWord width address value bytes i = bytes i := by
  induction width generalizing address value bytes with
  | zero => rfl
  | succ width inductionHypothesis =>
    rw [writeWord, inductionHypothesis (address + 1) (value / 256) _ (by omega),
      Function.update_of_ne (by omega)]

theorem readWord_congr {bytes bytes' : Bytes} (width address : Nat)
    (same : ∀ i, address ≤ i → i < address + width → bytes i = bytes' i) :
    readWord bytes width address = readWord bytes' width address := by
  induction width generalizing address with
  | zero => rfl
  | succ width inductionHypothesis =>
    rw [readWord, readWord, same address (Nat.le_refl _) (by omega),
      inductionHypothesis (address + 1) fun i low high => same i (by omega) (by omega)]

/-- A word is read back modulo its width. -/
theorem readWord_writeWord (width address value : Nat) (bytes : Bytes) :
    readWord (writeWord width address value bytes) width address = value % 256 ^ width := by
  induction width generalizing address value bytes with
  | zero => rw [Nat.pow_zero, Nat.mod_one, readWord]
  | succ width inductionHypothesis =>
    have first : (BitVec.ofNat 8 value).toNat = value % 256 := BitVec.toNat_ofNat value 8
    rw [readWord, writeWord, inductionHypothesis, writeWord_other _ _ _ _ _ (by omega),
      Function.update_self, first, Nat.pow_succ', Nat.mod_mul]

/-- A word is read as before where another one was written beside it. -/
theorem readWord_writeWord_of_disjoint (width address width' address' value : Nat) (bytes : Bytes)
    (apart : address' + width' ≤ address ∨ address + width ≤ address') :
    readWord (writeWord width' address' value bytes) width address =
      readWord bytes width address :=
  readWord_congr width address fun i low high =>
    writeWord_other width' address' value i bytes (by omega)

end ByteWords
