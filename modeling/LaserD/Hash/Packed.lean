/-
This file models the packed bins of a table as the bytes behind its entries, and proves that a table
whose features were set has the sizes that its exponent tells.

The bins follow the entries in one block, each as wide as the exponent asks for. What is stored in a
bin is the index of an entry above the two reserved values, which fits the width. A copy asks for
the size of its original less one, and so comes to the same exponent.
-/

import LaserD.Hash.Calls
import LaserD.Lib.ByteWords

namespace LaserD.Hash

open ByteWords

/-! ### Packed bins -/

namespace Table

variable (table : Table)

/-- Where a bin is in the block of a table. -/
def binAddress (index : Nat) : Nat :=
  table.entriesSize + index * binElementSize table.sizeInd

/-- `get_bin` on the bytes of the block. -/
def getPackedBin (block : Bytes) (index : Nat) : Nat :=
  readWord block (binElementSize table.sizeInd) (table.binAddress index)

/-- `set_bin` on the bytes of the block. -/
def setPackedBin (index value : Nat) (block : Bytes) : Bytes :=
  writeWord (binElementSize table.sizeInd) (table.binAddress index) value block

end Table

theorem getPackedBin_setPackedBin (table : Table) (index value : Nat) (block : Bytes) :
    table.getPackedBin (table.setPackedBin index value block) index =
      value % 256 ^ binElementSize table.sizeInd :=
  readWord_writeWord _ _ value block

theorem binAddress_apart (table : Table) {index other : Nat} (apart : other ≠ index) :
    table.binAddress index + binElementSize table.sizeInd ≤ table.binAddress other ∨
      table.binAddress other + binElementSize table.sizeInd ≤ table.binAddress index := by
  unfold Table.binAddress
  rcases Nat.lt_or_gt_of_ne apart with less | greater
  · have next := Nat.mul_le_mul_right (binElementSize table.sizeInd) less
    rw [Nat.succ_mul] at next
    omega
  · have next := Nat.mul_le_mul_right (binElementSize table.sizeInd) greater
    rw [Nat.succ_mul] at next
    omega

theorem getPackedBin_setPackedBin_of_ne (table : Table) {index other : Nat} (apart : other ≠ index)
    (value : Nat) (block : Bytes) :
    table.getPackedBin (table.setPackedBin index value block) other =
      table.getPackedBin block other :=
  readWord_writeWord_of_disjoint _ _ _ _ value block (binAddress_apart table apart)

/-- The bins of a block are those of the storage. -/
def Packs (table : Table) (block : Bytes) (storage : Storage) : Prop :=
  ∀ index, table.getPackedBin block index = getBin storage index

/-- Storing in the packed bins is storing in the bins. -/
theorem Packs.set {table : Table} {block : Bytes} {storage : Storage}
    (packs : Packs table block storage) (index value : Nat) :
    Packs table (table.setPackedBin index value block) (setBin table index value storage) := by
  intro other
  unfold getBin setBin
  dsimp only
  by_cases same : other = index
  · rw [same, getPackedBin_setPackedBin, Function.update_self, Nat.pow_mul]
  · rw [getPackedBin_setPackedBin_of_ne table same, Function.update_of_ne same]
    exact packs other

/-! ### Sizes -/

/-- The exact sizes for each exponent that a table can have. -/
theorem sizes_of_power : ∀ power < 59,
    2 ^ power * entrySize % 2 ^ 64 = 24 * 2 ^ power ∧
    2 ^ (power + 1) * binElementSize (sizeIndexForPower power) % 2 ^ 64 =
      2 ^ (power + 1) * binElementSize (sizeIndexForPower power) ∧
    24 * 2 ^ power + 2 ^ (power + 1) * binElementSize (sizeIndexForPower power) < 2 ^ 64 := by
  decide +kernel

/-- The value of the bin of the last entry fits the width of the bins. -/
theorem width_of_power : ∀ power < 59,
    2 ^ power + 2 ≤ 256 ^ binElementSize (sizeIndexForPower power) := by
  decide +kernel

theorem Featured.entriesSize {table : Table} (featured : Featured table) :
    table.entriesSize = 24 * 2 ^ table.entryPower :=
  (sizes_of_power table.entryPower (Nat.lt_succ_of_le featured.high)).1

theorem Featured.binsSize {table : Table} (featured : Featured table) :
    table.binsSize = if maxPower2WithoutBins < table.entryPower then
      2 ^ (table.entryPower + 1) * binElementSize table.sizeInd else 0 := by
  unfold Table.binsSize Table.hasBins Table.binsCount
  rw [featured.binPower, featured.sizeInd,
    (sizes_of_power table.entryPower (Nat.lt_succ_of_le featured.high)).2.1]
  simp only [decide_eq_true_eq]

theorem Featured.size_lt {table : Table} (featured : Featured table) :
    table.entriesSize + table.binsSize < 2 ^ 64 := by
  have whole := (sizes_of_power table.entryPower (Nat.lt_succ_of_le featured.high)).2.2
  rw [featured.entriesSize, featured.binsSize, featured.sizeInd]
  split <;> omega

/-- A bin is within the storage. -/
theorem Featured.binAddress_le {table : Table} (featured : Featured table)
    (bins : maxPower2WithoutBins < table.entryPower) {index : Nat}
    (inside : index < table.binsCount) :
    table.binAddress index + binElementSize table.sizeInd ≤
      table.entriesSize + table.binsSize := by
  have next := Nat.mul_le_mul_right (binElementSize table.sizeInd) inside
  rw [Nat.succ_mul, Table.binsCount, featured.binPower] at next
  rw [Table.binAddress, featured.binsSize, if_pos bins]
  omega

/-- The size of the entries of a table less one leads to its features. -/
theorem Featured.setFeatures_again {table : Table} (featured : Featured table) (fresh : Table) :
    fresh.setFeatures (table.allocatedEntries - 1) =
      some { fresh with
        entryPower := table.entryPower, binPower := table.binPower, sizeInd := table.sizeInd } := by
  have bounds := featured.allocated_bounds
  obtain ⟨copy, set, valid⟩ := setFeatures_some fresh
    (show table.allocatedEntries - 1 < 2 ^ 58 by omega)
  obtain ⟨power, found, made⟩ := Option.bind_eq_some_iff.mp set
  rw [set, ← made, getPower2_pred featured.low found, featured.binPower, featured.sizeInd]
  rfl

theorem Featured.stCopy {table copy : Table} {storage storage' : Storage} {before after : Arena}
    (featured : Featured table)
    (copied : stCopy table storage before = (some (copy, storage'), after)) :
    copy.entryPower = table.entryPower ∧ copy.binPower = table.binPower ∧
      copy.sizeInd = table.sizeInd := by
  unfold LaserD.Hash.stCopy at copied
  cases allocated : allocateTable (table.allocatedEntries - 1) before with
  | mk made arena =>
    obtain ⟨_, _, ⟨rfl, _⟩ | ⟨found, rfl, created⟩⟩ := allocateTable_spec allocated
    · rw [allocated] at copied
      cases copied
    · rw [allocated] at copied
      cases copied
      have power := getPower2_pred featured.low created.power
      exact ⟨power, created.featured.binPower.trans (power ▸ featured.binPower.symm),
        created.featured.sizeInd.trans (power ▸ featured.sizeInd.symm)⟩

/-- A table whose features were set and whose storage size was accepted: its storage has the exact
size without wrapping, its copies have the same features, and each bin value fits its bin and is
read back, with the entries and the other bins as they were. -/
theorem table_storage (header table : Table) (size : Nat)
    (set : header.setFeatures size = some table) (valid : table.validStorageSize = true) :
    ((table.entriesSize + table.binsSize) % 2 ^ 64 =
      24 * 2 ^ table.entryPower + if 4 < table.entryPower then
        2 ^ (table.entryPower + 1) * binElementSize table.sizeInd else 0) ∧
    (∀ fresh : Table, fresh.setFeatures (table.allocatedEntries - 1) =
      some { fresh with
        entryPower := table.entryPower, binPower := table.binPower, sizeInd := table.sizeInd }) ∧
    (∀ (storage storage' : Storage) (copy : Table) (before after : Arena),
      stCopy table storage before = (some (copy, storage'), after) →
        copy.entryPower = table.entryPower ∧ copy.binPower = table.binPower ∧
          copy.sizeInd = table.sizeInd) ∧
    ∀ index < 2 ^ table.entryPower, index + 2 < 256 ^ binElementSize table.sizeInd ∧
      ∀ (bin : Nat) (block : Bytes),
        table.getPackedBin (table.setPackedBin bin (index + 2) block) bin = index + 2 ∧
        (∀ other, other ≠ bin →
          table.getPackedBin (table.setPackedBin bin (index + 2) block) other =
            table.getPackedBin block other) ∧
        (4 < table.entryPower → bin < table.binsCount → ∀ address,
          address < table.entriesSize ∨ table.entriesSize + table.binsSize ≤ address →
            table.setPackedBin bin (index + 2) block address = block address) := by
  obtain ⟨featured, _, _⟩ := setFeatures_spec set valid
  refine ⟨?_, featured.setFeatures_again, fun storage storage' copy before after copied =>
    featured.stCopy copied, fun index inside => ?_⟩
  · rw [Nat.mod_eq_of_lt featured.size_lt, featured.entriesSize, featured.binsSize]
    rfl
  · have fits : index + 2 < 256 ^ binElementSize table.sizeInd := by
      have width := width_of_power table.entryPower (Nat.lt_succ_of_le featured.high)
      rw [featured.sizeInd]
      omega
    refine ⟨fits, fun bin block => ⟨?_, fun other apart =>
      getPackedBin_setPackedBin_of_ne table apart _ block, fun bins within address outside => ?_⟩⟩
    · rw [getPackedBin_setPackedBin, Nat.mod_eq_of_lt fits]
    · have upper := featured.binAddress_le bins within
      have lower : table.entriesSize ≤ table.binAddress bin := Nat.le_add_right _ _
      exact writeWord_other _ _ _ _ block (by omega)

/-- The table for 128 entries, as `test_storage_representations` expects it. -/
theorem table_storage_words :
    (({ entryPower := 8, binPower := 9, sizeInd := 1, numEntries := 0, entriesStart := 0,
        entriesBound := 0, rebuildsNum := 0, entries := 0 } : Table).entriesSize +
      ({ entryPower := 8, binPower := 9, sizeInd := 1, numEntries := 0, entriesStart := 0,
         entriesBound := 0, rebuildsNum := 0, entries := 0 } : Table).binsSize) % 2 ^ 64 =
      24 * 2 ^ 8 + 2 ^ 9 * 2 :=
  (table_storage
    { entryPower := 0, binPower := 0, sizeInd := 0, numEntries := 0, entriesStart := 0,
      entriesBound := 0, rebuildsNum := 0, entries := 0 }
    { entryPower := 8, binPower := 9, sizeInd := 1, numEntries := 0, entriesStart := 0,
      entriesBound := 0, rebuildsNum := 0, entries := 0 } 128 (by decide) (by decide +kernel)).1

end LaserD.Hash
