/-
This file states what a well-formed table is, and proves what the searches find in one.

The live entries, in the order of the entries array, are what a table is about. With
bins, every live entry is in exactly one bin, and that bin is on the probe sequence of
its hash with no empty bin before it. Deleted bins are not empty, so they keep the later
bins reachable, and as many bins as entries ever appended can be filled, which leaves
half of them empty. Every search therefore ends.
-/

import LaserD.Hash.Operations
import LaserD.Lib.ProbeCycle
import Mathlib.Algebra.Order.BigOperators.Group.Finset
import Mathlib.Data.Finset.Card
import Mathlib.Data.Finset.Range
import Mathlib.Data.List.Range

namespace LaserD.Hash

/-! ### Probe sequences -/

namespace Table

variable (table : Table) (hash : Word)

/-- The bins from one on, with what is left of the hash at each. -/
def follow (index perturb : Nat) : Nat → Nat × Nat
  | 0 => (index, perturb)
  | n + 1 => table.secondaryHash (follow index perturb n).1 (follow index perturb n).2

theorem follow_snd (index perturb n : Nat) :
    (table.follow index perturb n).2 = perturb / 2 ^ (11 * n) := by
  induction n with
  | zero =>
    rw [Nat.mul_zero, Nat.pow_zero, Nat.div_one]
    rfl
  | succ n inductionHypothesis =>
    show (table.follow index perturb n).2 >>> 11 = _
    rw [inductionHypothesis, Nat.shiftRight_eq_div_pow, Nat.div_div_eq_div_mul, ← Nat.pow_add,
      Nat.mul_succ]

theorem follow_succ (index perturb n : Nat) :
    (table.follow index perturb (n + 1)).1 =
      (((table.follow index perturb n).1 <<< 2) + (table.follow index perturb n).1 +
        perturb / 2 ^ (11 * (n + 1)) + 1) % 2 ^ 64 % 2 ^ table.binPower := by
  have rest := table.follow_snd index perturb (n + 1)
  show (((table.follow index perturb n).1 <<< 2) + (table.follow index perturb n).1 +
    (table.follow index perturb (n + 1)).2 + 1) % 2 ^ 64 &&& (2 ^ table.binPower - 1) = _
  rw [Nat.and_two_pow_sub_one_eq_mod, rest]

theorem follow_lt {index : Nat} (inside : index < table.binsCount) (perturb n : Nat) :
    (table.follow index perturb n).1 < table.binsCount := by
  cases n with
  | zero => exact inside
  | succ n =>
    rw [follow_succ]
    exact Nat.mod_lt _ (Nat.two_pow_pos _)

/-- Once the hash is used up, the bins follow the full-cycle recurrence. -/
theorem follow_step {index perturb n : Nat} (word : perturb < 2 ^ 64) (late : 5 ≤ n)
    (narrow : table.binPower ≤ 64) :
    (table.follow index perturb (n + 1)).1 =
      ProbeCycle.step table.binPower (table.follow index perturb n).1 := by
  have used : perturb / 2 ^ (11 * (n + 1)) = 0 := by
    refine Nat.div_eq_of_lt (Nat.lt_of_lt_of_le word ?_)
    exact Nat.pow_le_pow_right Nat.two_pos (by omega)
  rw [follow_succ, used, Nat.add_zero, Nat.shiftLeft_eq,
    Nat.mod_mod_of_dvd _ (pow_dvd_pow 2 narrow), ProbeCycle.step]
  congr 1
  ring

theorem follow_iterate {index perturb : Nat} (word : perturb < 2 ^ 64)
    (narrow : table.binPower ≤ 64) (n : Nat) :
    (table.follow index perturb (5 + n)).1 =
      (ProbeCycle.step table.binPower)^[n] (table.follow index perturb 5).1 := by
  induction n with
  | zero => rfl
  | succ n inductionHypothesis =>
    rw [← Nat.add_assoc, follow_step table word (Nat.le_add_right 5 n) narrow,
      inductionHypothesis, Function.iterate_succ_apply']

/-- From any bin on, and whatever is left of the hash, every bin is visited. -/
theorem exists_follow {index perturb bin : Nat} (start : index < table.binsCount)
    (word : perturb < 2 ^ 64) (narrow : table.binPower ≤ 64) (inside : bin < table.binsCount) :
    ∃ n < 5 + table.binsCount, (table.follow index perturb n).1 = bin := by
  obtain ⟨n, small, reached⟩ :=
    ProbeCycle.exists_iterate (table.follow_lt start perturb 5) inside
  refine ⟨5 + n, Nat.add_lt_add_left small 5, ?_⟩
  rw [follow_iterate table word narrow, reached]

/-- A bin of a probe sequence with what is left of the hash there. -/
def probeState : Nat → Nat × Nat
  | 0 => (table.firstBin hash, hash.toNat)
  | n + 1 => table.secondaryHash (probeState n).1 (probeState n).2

/-- The bins of a probe sequence. -/
def probe (n : Nat) : Nat := (table.probeState hash n).1

theorem probeState_eq (n : Nat) :
    table.probeState hash n = table.follow (table.firstBin hash) hash.toNat n := by
  induction n with
  | zero => rfl
  | succ n inductionHypothesis =>
    show table.secondaryHash (table.probeState hash n).1 (table.probeState hash n).2 = _
    rw [inductionHypothesis]
    rfl

theorem firstBin_lt : table.firstBin hash < table.binsCount := by
  show hash.toNat &&& (2 ^ table.binPower - 1) < 2 ^ table.binPower
  rw [Nat.and_two_pow_sub_one_eq_mod]
  exact Nat.mod_lt _ (Nat.two_pow_pos _)

theorem probe_lt (n : Nat) : table.probe hash n < table.binsCount := by
  rw [probe, probeState_eq]
  exact table.follow_lt (table.firstBin_lt hash) hash.toNat n

/-- A probe sequence visits every bin. -/
theorem exists_probe (narrow : table.binPower ≤ 64) {bin : Nat} (inside : bin < table.binsCount) :
    ∃ n < 5 + table.binsCount, table.probe hash n = bin := by
  obtain ⟨n, small, reached⟩ :=
    table.exists_follow (table.firstBin_lt hash) hash.isLt narrow inside
  refine ⟨n, small, ?_⟩
  rw [probe, probeState_eq]
  exact reached

end Table

/-! ### Well-formed tables -/

/-- Callbacks as their users promise them: equality is an equivalence, and equal keys have
equal hashes. -/
structure HashType.Lawful (type : HashType) : Prop where
  refl : ∀ key, type.compare key key = 0
  symm : ∀ {left right}, type.compare left right = 0 → type.compare right left = 0
  trans : ∀ {left middle right}, type.compare left middle = 0 → type.compare middle right = 0 →
    type.compare left right = 0
  hash : ∀ {left right}, type.compare left right = 0 → type.hash left = type.hash right

theorem doHash_ne_deleted (type : HashType) (key : Word) : doHash type key ≠ deletedHash := by
  unfold doHash normalizeHash
  by_cases reserved : type.hash key = deletedHash
  · rw [if_pos reserved]
    decide
  · rw [if_neg reserved]
    exact reserved

/-- The entries that have been appended, in order, deleted ones included. -/
def segment (table : Table) (storage : Storage) : List Entry :=
  (List.range table.entriesBound).map storage.entries

/-- Whether an entry is live. -/
def Entry.live (entry : Entry) : Bool := decide (entry.hash ≠ deletedHash)

/-- The live entries, in the order of their insertion. -/
def liveEntries (table : Table) (storage : Storage) : List Entry :=
  (segment table storage).filter Entry.live

/-- The bins of the entries below a bound. -/
structure BinsOk (table : Table) (storage : Storage) (bound : Nat) : Prop where
  entry : ∀ {bin}, bin < table.binsCount → entryBase ≤ storage.bins bin →
    storage.bins bin - entryBase < bound ∧
      (storage.entries (storage.bins bin - entryBase)).live = true
  unique : ∀ {first second}, first < table.binsCount → second < table.binsCount →
    entryBase ≤ storage.bins first → storage.bins first = storage.bins second → first = second
  reach : ∀ {index}, index < bound → (storage.entries index).live = true →
    ∃ n, storage.bins (table.probe (storage.entries index).hash n) = index + entryBase ∧
      ∀ m < n, storage.bins (table.probe (storage.entries index).hash m) ≠ emptyBin
  sparse : ((Finset.range table.binsCount).filter
    fun bin => storage.bins bin ≠ emptyBin).card ≤ bound

/-- The powers and the bin width of a table belong together. -/
structure Featured (table : Table) : Prop where
  low : minimalPower2 ≤ table.entryPower
  high : table.entryPower ≤ 58
  binPower : table.binPower = table.entryPower + 1
  sizeInd : table.sizeInd = sizeIndexForPower table.entryPower

/-- A well-formed table. -/
structure WellFormed (type : HashType) (table : Table) (storage : Storage) : Prop where
  featured : Featured table
  start_le : table.entriesStart ≤ table.entriesBound
  bound_le : table.entriesBound ≤ table.allocatedEntries
  before : ∀ index < table.entriesStart, (storage.entries index).live = false
  first : table.entriesStart < table.entriesBound →
    (storage.entries table.entriesStart).live = true
  count : table.numEntries = (liveEntries table storage).length
  hashed : ∀ entry ∈ liveEntries table storage, entry.hash = doHash type entry.key
  distinct : (liveEntries table storage).Pairwise fun first second =>
    type.compare first.key second.key ≠ 0
  bins : table.hasBins = true → BinsOk table storage table.entriesBound

/-- What is well formed about a table whatever its callbacks do. -/
structure Sane (table : Table) (storage : Storage) : Prop where
  featured : Featured table
  start_le : table.entriesStart ≤ table.entriesBound
  bound_le : table.entriesBound ≤ table.allocatedEntries
  before : ∀ index < table.entriesStart, (storage.entries index).live = false
  first : table.entriesStart < table.entriesBound →
    (storage.entries table.entriesStart).live = true
  count : table.numEntries = (liveEntries table storage).length
  bins : table.hasBins = true → BinsOk table storage table.entriesBound

theorem WellFormed.sane {type : HashType} {table : Table} {storage : Storage}
    (ok : WellFormed type table storage) : Sane table storage :=
  ⟨ok.featured, ok.start_le, ok.bound_le, ok.before, ok.first, ok.count, ok.bins⟩

theorem Sane.wellFormed {type : HashType} {table : Table} {storage : Storage}
    (sane : Sane table storage)
    (hashed : ∀ entry ∈ liveEntries table storage, entry.hash = doHash type entry.key)
    (distinct : (liveEntries table storage).Pairwise fun first second =>
      type.compare first.key second.key ≠ 0) : WellFormed type table storage :=
  ⟨sane.featured, sane.start_le, sane.bound_le, sane.before, sane.first, sane.count, hashed,
    distinct, sane.bins⟩

/-- A state whose table is well formed. -/
def State.Ok (type : HashType) (state : State) : Prop :=
  WellFormed type state.table state.storage

theorem live_iff (entry : Entry) : entry.live = true ↔ entry.hash ≠ deletedHash :=
  decide_eq_true_iff

theorem mem_liveEntries {table : Table} {storage : Storage} {entry : Entry} :
    entry ∈ liveEntries table storage ↔
      ∃ index < table.entriesBound, storage.entries index = entry ∧ entry.live = true := by
  unfold liveEntries segment
  rw [List.mem_filter, List.mem_map]
  constructor
  · rintro ⟨⟨index, inside, rfl⟩, live⟩
    exact ⟨index, List.mem_range.mp inside, rfl, live⟩
  · rintro ⟨index, inside, rfl, live⟩
    exact ⟨⟨index, List.mem_range.mpr inside, rfl⟩, live⟩

/-- A relation between the live entries in order, by their indices. -/
theorem pairwise_liveEntries {table : Table} {storage : Storage} {relation : Entry → Entry → Prop} :
    (liveEntries table storage).Pairwise relation ↔
      ∀ first second, first < second → second < table.entriesBound →
        (storage.entries first).live = true → (storage.entries second).live = true →
          relation (storage.entries first) (storage.entries second) := by
  unfold liveEntries segment
  rw [List.pairwise_filter, List.pairwise_map, List.pairwise_iff_getElem]
  simp only [List.getElem_range, List.length_range]
  constructor
  · intro pairs first second less inside firstLive secondLive
    exact pairs first second (Nat.lt_trans less inside) inside less firstLive secondLive
  · intro pairs first second _ inside less firstLive secondLive
    exact pairs first second less inside firstLive secondLive

/-- Whether the code takes two keys for equal. -/
def keysEqual (type : HashType) (left right : Word) : Prop :=
  left = right ∨ type.compare left right = 0

namespace WellFormed

variable {type : HashType} {table : Table} {storage : Storage} (lawful : type.Lawful)
  (ok : WellFormed type table storage)

include lawful in
theorem keysEqual_iff (left right : Word) :
    keysEqual type left right ↔ type.compare left right = 0 := by
  constructor
  · rintro (rfl | equal)
    · exact lawful.refl left
    · exact equal
  · exact Or.inr

include lawful in
theorem doHash_eq {left right : Word} (equal : keysEqual type left right) :
    doHash type left = doHash type right := by
  unfold doHash
  rw [lawful.hash ((keysEqual_iff lawful left right).mp equal)]

include ok in
theorem hash_eq {index : Nat} (inside : index < table.entriesBound)
    (live : (storage.entries index).live = true) :
    (storage.entries index).hash = doHash type (storage.entries index).key :=
  ok.hashed _ (mem_liveEntries.mpr ⟨index, inside, rfl, live⟩)

include lawful ok in
/-- No two live entries have equal keys. -/
theorem index_eq {first second : Nat} (firstInside : first < table.entriesBound)
    (secondInside : second < table.entriesBound)
    (firstLive : (storage.entries first).live = true)
    (secondLive : (storage.entries second).live = true)
    (equal : type.compare (storage.entries first).key (storage.entries second).key = 0) :
    first = second := by
  have pairs := pairwise_liveEntries.mp ok.distinct
  rcases Nat.lt_trichotomy first second with less | same | greater
  · exact absurd equal (pairs first second less secondInside firstLive secondLive)
  · exact same
  · exact absurd (lawful.symm equal) (pairs second first greater firstInside secondLive firstLive)

include ok in
/-- A live entry is not before the start. -/
theorem start_le_of_live {index : Nat} (live : (storage.entries index).live = true) :
    table.entriesStart ≤ index := by
  by_contra below
  rw [ok.before index (Nat.lt_of_not_le below)] at live
  exact Bool.false_ne_true live

end WellFormed

/-! ### Comparisons that re-enter the table -/

/-- What may happen to a table under a search that goes on: entries are deleted, with their
bins, and records are overwritten. -/
structure Drift (before after : State) : Prop where
  entryPower : after.table.entryPower = before.table.entryPower
  binPower : after.table.binPower = before.table.binPower
  bound : after.table.entriesBound = before.table.entriesBound
  key : ∀ index < before.table.entriesBound,
    (after.storage.entries index).key = (before.storage.entries index).key
  hash : ∀ index < before.table.entriesBound,
    (after.storage.entries index).hash = (before.storage.entries index).hash ∨
      (after.storage.entries index).hash = deletedHash
  bins : ∀ bin < before.table.binsCount,
    after.storage.bins bin = before.storage.bins bin ∨
      entryBase ≤ before.storage.bins bin ∧ after.storage.bins bin = deletedBin

/-- A comparison of the key of an operation with that of a live entry is tolerated when it
rebuilds the table, or adds no entry and, if the keys are equal, keeps the entry it is
asked about. -/
def Tolerated (type : HashType) (left right : Word) (before after : State) : Prop :=
  before.table.rebuildsNum ≠ after.table.rebuildsNum ∨
    Drift before after ∧ (type.compare left right = 0 →
      ∃ index < after.table.entriesBound, (after.storage.entries index).live = true ∧
        (after.storage.entries index).key = right)

/-- Comparisons that keep tables well formed and are tolerated. -/
def Tolerant (type : HashType) (call : Comparison) : Prop :=
  ∀ {left right : Word} {before after : State}, before.Ok type →
    (∃ index < before.table.entriesBound, (before.storage.entries index).live = true ∧
      (before.storage.entries index).key = right) →
    call left right before = some after → after.Ok type ∧ Tolerated type left right before after

namespace Drift

theorem refl (state : State) : Drift state state where
  entryPower := rfl
  binPower := rfl
  bound := rfl
  key _ _ := rfl
  hash _ _ := Or.inl rfl
  bins _ _ := Or.inl rfl

variable {before middle after : State} (drift : Drift before after)

include drift in
theorem binsCount_eq : after.table.binsCount = before.table.binsCount := by
  unfold Table.binsCount
  rw [drift.binPower]

include drift in
theorem hasBins_eq : after.table.hasBins = before.table.hasBins := by
  unfold Table.hasBins
  rw [drift.entryPower]

include drift in
theorem probeState_eq (hash : Word) (n : Nat) :
    after.table.probeState hash n = before.table.probeState hash n := by
  have next : ∀ index perturb,
      after.table.secondaryHash index perturb = before.table.secondaryHash index perturb := by
    intro index perturb
    unfold Table.secondaryHash
    rw [drift.binsCount_eq]
  induction n with
  | zero =>
    show (after.table.firstBin hash, _) = (before.table.firstBin hash, _)
    unfold Table.firstBin
    rw [drift.binsCount_eq]
  | succ n inductionHypothesis =>
    show after.table.secondaryHash _ _ = before.table.secondaryHash _ _
    rw [inductionHypothesis, next]

include drift in
theorem probe_eq (hash : Word) (n : Nat) : after.table.probe hash n = before.table.probe hash n := by
  unfold Table.probe
  rw [drift.probeState_eq]

include drift in
/-- What is live afterwards was live before, with the same hash. -/
theorem live_before {index : Nat} (inside : index < before.table.entriesBound)
    (live : (after.storage.entries index).live = true) :
    (before.storage.entries index).live = true ∧
      (after.storage.entries index).hash = (before.storage.entries index).hash := by
  rw [live_iff] at live ⊢
  rcases drift.hash index inside with same | deleted
  · rw [same] at live
    exact ⟨live, same⟩
  · exact absurd deleted live

include drift in
/-- An empty bin stays empty, and no other becomes empty. -/
theorem empty_iff {bin : Nat} (inside : bin < before.table.binsCount) :
    after.storage.bins bin = emptyBin ↔ before.storage.bins bin = emptyBin := by
  rcases drift.bins bin inside with same | ⟨entry, deleted⟩
  · rw [same]
  · rw [deleted]
    unfold emptyBin deletedBin entryBase at *
    omega

include drift in
/-- A deleted bin stays deleted. -/
theorem deleted_of_deleted {bin : Nat} (inside : bin < before.table.binsCount)
    (deleted : before.storage.bins bin = deletedBin) : after.storage.bins bin = deletedBin := by
  rcases drift.bins bin inside with same | ⟨_, deleted⟩
  · rw [same, deleted]
  · exact deleted

include drift in
/-- A bin with an entry had it before. -/
theorem entry_before {bin index : Nat} (inside : bin < before.table.binsCount)
    (entry : after.storage.bins bin = index + entryBase) :
    before.storage.bins bin = index + entryBase := by
  rcases drift.bins bin inside with same | ⟨_, deleted⟩
  · rw [← same, entry]
  · rw [deleted] at entry
    unfold deletedBin entryBase at entry
    omega

theorem trans (first : Drift before middle) (second : Drift middle after) : Drift before after where
  entryPower := second.entryPower.trans first.entryPower
  binPower := second.binPower.trans first.binPower
  bound := second.bound.trans first.bound
  key index inside := by
    rw [second.key index (first.bound ▸ inside), first.key index inside]
  hash index inside := by
    rcases second.hash index (first.bound ▸ inside) with same | deleted
    · rw [same]
      exact first.hash index inside
    · exact Or.inr deleted
  bins bin inside := by
    have middleInside : bin < middle.table.binsCount := first.binsCount_eq ▸ inside
    rcases first.bins bin inside with same | ⟨entry, deleted⟩
    · rw [← same]
      exact second.bins bin middleInside
    · exact Or.inr ⟨entry, second.deleted_of_deleted middleInside deleted⟩

end Drift

theorem quiet_tolerant (type : HashType) : Tolerant type quiet := by
  intro left right before after ok stored called
  obtain rfl := Option.some.inj called
  exact ⟨ok, Or.inr ⟨Drift.refl before, fun _ => stored⟩⟩

end LaserD.Hash
