/-
This file proves what the writes of the operations do to a well-formed table: a new entry
is the last live one, a deleted entry is gone, and an overwritten record changes nothing
else. Each is stated on the list of live entries.
-/

import LaserD.Hash.Search

namespace LaserD.Hash

variable {type : HashType}

/-! ### Bins -/

theorem probe_congr {first second : Table} (same : first.binPower = second.binPower)
    (hash : Word) (n : Nat) : first.probe hash n = second.probe hash n := by
  have counts : first.binsCount = second.binsCount := by
    unfold Table.binsCount
    rw [same]
  have states : first.probeState hash n = second.probeState hash n := by
    induction n with
    | zero =>
      show (first.firstBin hash, _) = (second.firstBin hash, _)
      unfold Table.firstBin
      rw [counts]
    | succ n inductionHypothesis =>
      show first.secondaryHash _ _ = second.secondaryHash _ _
      unfold Table.secondaryHash
      rw [inductionHypothesis, counts]
  unfold Table.probe
  rw [states]

/-- The bins are about the hashes below the bound and the number of bins. -/
theorem BinsOk.congr {first second : Table} {before after : Storage} {bound : Nat}
    (bins : BinsOk first before bound) (same : second.binPower = first.binPower)
    (hashes : ∀ index < bound, (after.entries index).hash = (before.entries index).hash)
    (unchanged : after.bins = before.bins) : BinsOk second after bound := by
  have counts : second.binsCount = first.binsCount := by
    unfold Table.binsCount
    rw [same]
  have lives : ∀ index < bound, (after.entries index).live = (before.entries index).live := by
    intro index inside
    unfold Entry.live
    rw [hashes index inside]
  constructor
  · intro bin inside entry
    rw [unchanged] at entry ⊢
    rw [counts] at inside
    obtain ⟨below, live⟩ := bins.entry inside entry
    exact ⟨below, (lives _ below).trans live⟩
  · intro firstBin secondBin firstInside secondInside
    rw [counts] at firstInside secondInside
    rw [unchanged]
    exact bins.unique firstInside secondInside
  · intro index inside live
    rw [lives index inside] at live
    obtain ⟨n, filled, earlier⟩ := bins.reach inside live
    refine ⟨n, ?_, fun m less => ?_⟩
    · rw [unchanged, hashes index inside, probe_congr same]
      exact filled
    · rw [unchanged, hashes index inside, probe_congr same]
      exact earlier m less
  · rw [unchanged, counts]
    exact bins.sparse

/-- The width of the bins holds the indices of the entries. -/
theorem Featured.fits {table : Table} (featured : Featured table) {index : Nat}
    (inside : index < table.allocatedEntries) :
    (index + entryBase) % 2 ^ (8 * binElementSize table.sizeInd) = index + entryBase := by
  refine Nat.mod_eq_of_lt (Nat.lt_of_lt_of_le (Nat.add_lt_add_right inside entryBase) ?_)
  have low := featured.low
  have high := featured.high
  unfold Table.allocatedEntries entryBase
  rw [featured.sizeInd]
  unfold minimalPower2 at low
  generalize table.entryPower = power at low high
  have width : power + 1 ≤ 8 * binElementSize (sizeIndexForPower power) := by
    unfold sizeIndexForPower
    by_cases small : power < 8
    · rw [if_pos small]
      exact small
    · rw [if_neg small]
      by_cases medium : power < 16
      · rw [if_pos medium]
        exact medium
      · rw [if_neg medium]
        by_cases large : power < 32
        · rw [if_pos large]
          exact large
        · rw [if_neg large]
          show power + 1 ≤ 64
          omega
  have two : 2 ^ 1 ≤ 2 ^ power := Nat.pow_le_pow_right Nat.two_pos (by omega)
  calc 2 ^ power + 2 ≤ 2 ^ power + 2 ^ power := Nat.add_le_add_left two _
    _ = 2 ^ (power + 1) := by rw [Nat.pow_succ, Nat.mul_two]
    _ ≤ 2 ^ (8 * binElementSize (sizeIndexForPower power)) :=
      Nat.pow_le_pow_right Nat.two_pos width

/-- A new entry in a reserved bin. -/
theorem BinsOk.fill {table : Table} {storage : Storage} {bound bin : Nat}
    (bins : BinsOk table storage bound) (live : (storage.entries bound).live = true)
    (reserves : Reserves table storage (storage.entries bound).hash bin)
    (fits : (bound + entryBase) % 2 ^ (8 * binElementSize table.sizeInd) = bound + entryBase) :
    BinsOk table (setBin table bin (bound + entryBase) storage) (bound + 1) := by
  have place : ∀ other, (setBin table bin (bound + entryBase) storage).bins other =
      if other = bin then bound + entryBase else storage.bins other := by
    intro other
    show Function.update storage.bins bin _ other = _
    rw [fits, Function.update_apply]
  have entries : (setBin table bin (bound + entryBase) storage).entries = storage.entries := rfl
  have below : ∀ {other}, other < table.binsCount → entryBase ≤ storage.bins other →
      storage.bins other ≠ bound + entryBase := by
    intro other inside entry same
    have := (bins.entry inside entry).1
    rw [same, Nat.add_sub_cancel] at this
    exact Nat.lt_irrefl bound this
  constructor
  · intro other inside entry
    rw [place] at entry ⊢
    rw [entries]
    by_cases same : other = bin
    · rw [if_pos same, Nat.add_sub_cancel]
      exact ⟨Nat.lt_succ_self bound, live⟩
    · rw [if_neg same] at entry ⊢
      obtain ⟨lower, otherLive⟩ := bins.entry inside entry
      exact ⟨lower.trans (Nat.lt_succ_self bound), otherLive⟩
  · intro first second firstInside secondInside entry equal
    rw [place] at entry equal
    rw [place] at equal
    by_cases firstSame : first = bin
    · by_cases secondSame : second = bin
      · rw [firstSame, secondSame]
      · rw [if_pos firstSame, if_neg secondSame] at equal
        exact absurd equal.symm
          (below secondInside (equal ▸ Nat.le_add_left entryBase bound))
    · rw [if_neg firstSame] at entry equal
      by_cases secondSame : second = bin
      · rw [if_pos secondSame] at equal
        exact absurd equal (below firstInside entry)
      · rw [if_neg secondSame] at equal
        exact bins.unique firstInside secondInside entry equal
  · intro index inside indexLive
    rw [entries] at indexLive ⊢
    rcases Nat.lt_succ_iff_lt_or_eq.mp inside with lower | rfl
    · obtain ⟨n, filled, earlier⟩ := bins.reach lower indexLive
      refine ⟨n, ?_, fun m less => ?_⟩
      · rw [place, if_neg, filled]
        intro same
        have free := reserves.free
        rw [← same, filled] at free
        exact absurd free (Nat.not_lt_of_le (Nat.le_add_left _ _))
      · rw [place]
        by_cases same : table.probe (storage.entries index).hash m = bin
        · rw [if_pos same]
          exact Nat.ne_of_gt (Nat.lt_of_lt_of_le (by decide) (Nat.le_add_left entryBase bound))
        · rw [if_neg same]
          exact earlier m less
    · obtain ⟨n, reached, earlier⟩ := reserves.reached
      refine ⟨n, ?_, fun m less => ?_⟩
      · rw [place, if_pos reached]
      · rw [place]
        by_cases same : table.probe (storage.entries index).hash m = bin
        · rw [if_pos same]
          exact Nat.ne_of_gt (Nat.lt_of_lt_of_le (by decide) (Nat.le_add_left entryBase index))
        · rw [if_neg same]
          exact earlier m less
  · have subset : ((Finset.range table.binsCount).filter fun other =>
        (setBin table bin (bound + entryBase) storage).bins other ≠ emptyBin) ⊆
        insert bin ((Finset.range table.binsCount).filter fun other =>
          storage.bins other ≠ emptyBin) := by
      intro other member
      rw [Finset.mem_filter, place] at member
      rw [Finset.mem_insert, Finset.mem_filter]
      by_cases same : other = bin
      · exact Or.inl same
      · rw [if_neg same] at member
        exact Or.inr member
    exact Nat.le_trans (Finset.card_le_card subset)
      (Nat.le_trans (Finset.card_insert_le _ _) (Nat.succ_le_succ bins.sparse))

/-- A deleted entry, with its bin. -/
theorem BinsOk.remove {table : Table} {before after : Storage} {bound bin index : Nat}
    (bins : BinsOk table before bound) (inside : bin < table.binsCount)
    (filled : before.bins bin = index + entryBase)
    (unchanged : ∀ other ≠ index, (after.entries other).hash = (before.entries other).hash)
    (deleted : (after.entries index).live = false)
    (place : ∀ other, after.bins other = if other = bin then deletedBin else before.bins other) :
    BinsOk table after bound := by
  have lives : ∀ other ≠ index, (after.entries other).live = (before.entries other).live := by
    intro other different
    unfold Entry.live
    rw [unchanged other different]
  constructor
  · intro other otherInside entry
    rw [place] at entry ⊢
    by_cases same : other = bin
    · rw [if_pos same] at entry
      exact absurd entry (by decide)
    · rw [if_neg same] at entry ⊢
      obtain ⟨lower, live⟩ := bins.entry otherInside entry
      refine ⟨lower, ?_⟩
      rw [lives, live]
      intro isIndex
      refine same (bins.unique otherInside inside entry ?_)
      rw [filled, ← isIndex, Nat.sub_add_cancel entry]
  · intro first second firstInside secondInside entry equal
    rw [place] at entry equal
    rw [place] at equal
    by_cases firstSame : first = bin
    · rw [if_pos firstSame] at entry
      exact absurd entry (by decide)
    · rw [if_neg firstSame] at entry equal
      by_cases secondSame : second = bin
      · rw [if_pos secondSame] at equal
        rw [equal] at entry
        exact absurd entry (by decide)
      · rw [if_neg secondSame] at equal
        exact bins.unique firstInside secondInside entry equal
  · intro other otherInside live
    have different : other ≠ index := by
      rintro rfl
      rw [deleted] at live
      exact Bool.false_ne_true live
    rw [lives other different] at live
    obtain ⟨n, otherFilled, earlier⟩ := bins.reach otherInside live
    rw [unchanged other different]
    refine ⟨n, ?_, fun m less => ?_⟩
    · rw [place, if_neg, otherFilled]
      intro same
      rw [same, filled] at otherFilled
      exact different (Nat.add_right_cancel otherFilled).symm
    · rw [place]
      by_cases same : table.probe (before.entries other).hash m = bin
      · rw [if_pos same]
        decide
      · rw [if_neg same]
        exact earlier m less
  · refine Nat.le_trans (Finset.card_le_card ?_) bins.sparse
    intro other member
    rw [Finset.mem_filter, place] at member
    rw [Finset.mem_filter]
    by_cases same : other = bin
    · refine ⟨member.1, ?_⟩
      rw [same, filled]
      exact Nat.ne_of_gt (Nat.lt_of_lt_of_le (by decide) (Nat.le_add_left entryBase index))
    · rw [if_neg same] at member
      exact member

/-! ### Live entries by index -/

theorem liveEntries_eq (table : Table) (storage : Storage) :
    liveEntries table storage =
      ((List.range table.entriesBound).filter fun index => (storage.entries index).live).map
        storage.entries := by
  unfold liveEntries segment
  rw [List.filter_map]
  rfl

/-- The live entries are about the entries below the bound. -/
theorem liveEntries_congr {first second : Table} {before after : Storage}
    (bound : second.entriesBound = first.entriesBound)
    (same : ∀ index < first.entriesBound, after.entries index = before.entries index) :
    liveEntries second after = liveEntries first before := by
  unfold liveEntries segment
  rw [bound]
  congr 1
  refine List.map_congr_left fun index member => ?_
  exact same index (List.mem_range.mp member)

/-- One more live entry. -/
theorem liveEntries_append {first second : Table} {before after : Storage}
    (bound : second.entriesBound = first.entriesBound + 1)
    (same : ∀ index < first.entriesBound, after.entries index = before.entries index)
    (live : (after.entries first.entriesBound).live = true) :
    liveEntries second after =
      liveEntries first before ++ [after.entries first.entriesBound] := by
  unfold liveEntries segment
  rw [bound, List.range_succ, List.map_append, List.filter_append]
  congr 1
  · congr 1
    refine List.map_congr_left fun index member => ?_
    exact same index (List.mem_range.mp member)
  · rw [List.map_singleton, List.filter_singleton, live]
    rfl

/-- The one live entry with an equal key. -/
theorem Present.compare_iff (lawful : type.Lawful) {key : Word} {state : State} {index : Nat}
    (ok : state.Ok type) (present : Present type key state index) {other : Nat}
    (inside : other < state.table.entriesBound)
    (live : (state.storage.entries other).live = true) :
    type.compare key (state.storage.entries other).key = 0 ↔ other = index := by
  have equal := (WellFormed.keysEqual_iff lawful _ _).mp present.equal
  constructor
  · intro otherEqual
    exact WellFormed.index_eq lawful ok inside present.inside live present.live
      (lawful.trans (lawful.symm otherEqual) equal)
  · rintro rfl
    exact equal

/-! ### Overwriting -/

@[simp]
theorem setKeyRecord_hash (index : Nat) (key value : Word) (state : State) (other : Nat) :
    ((setKeyRecord index key value state).storage.entries other).hash =
      (state.storage.entries other).hash := by
  show (Function.update state.storage.entries index _ other).hash = _
  rw [Function.update_apply]
  by_cases same : other = index
  · rw [if_pos same, same]
  · rw [if_neg same]

@[simp]
theorem setKeyRecord_live (index : Nat) (key value : Word) (state : State) (other : Nat) :
    ((setKeyRecord index key value state).storage.entries other).live =
      (state.storage.entries other).live := by
  unfold Entry.live
  rw [setKeyRecord_hash]

/-- Overwriting a key and a record leaves the hashes as they are. -/
theorem Sane.setKeyRecord {state : State} (sane : Sane state.table state.storage) (index : Nat)
    (key value : Word) :
    Sane (setKeyRecord index key value state).table (setKeyRecord index key value state).storage := by
  constructor
  · exact sane.featured
  · exact sane.start_le
  · exact sane.bound_le
  · intro other less
    rw [setKeyRecord_live]
    exact sane.before other less
  · intro less
    rw [setKeyRecord_live]
    exact sane.first less
  · have counted := sane.count
    rw [liveEntries_eq, List.length_map] at counted ⊢
    simp only [setKeyRecord_live]
    exact counted
  · intro hasBins
    exact (sane.bins hasBins).congr rfl (fun other _ => setKeyRecord_hash _ _ _ _ _) rfl

theorem setKeyRecord_spec (lawful : type.Lawful) {key stored value : Word} {state : State}
    {index : Nat} (ok : state.Ok type) (present : Present type key state index)
    (equal : keysEqual type key stored) :
    (setKeyRecord index stored value state).Ok type ∧
      liveEntries (setKeyRecord index stored value state).table
          (setKeyRecord index stored value state).storage =
        (liveEntries state.table state.storage).map fun entry =>
          if type.compare key entry.key = 0 then { entry with key := stored, record := value }
          else entry := by
  have entries : ∀ other, (setKeyRecord index stored value state).storage.entries other =
      if other = index then
        { state.storage.entries index with key := stored, record := value }
      else state.storage.entries other := by
    intro other
    show Function.update state.storage.entries index _ other = _
    rw [Function.update_apply]
  have list : liveEntries (setKeyRecord index stored value state).table
      (setKeyRecord index stored value state).storage =
      (liveEntries state.table state.storage).map fun entry =>
        if type.compare key entry.key = 0 then { entry with key := stored, record := value }
        else entry := by
    rw [liveEntries_eq, liveEntries_eq, List.map_map]
    simp only [setKeyRecord_live]
    refine List.map_congr_left fun other member => ?_
    obtain ⟨inside, live⟩ := List.mem_filter.mp member
    have iff := present.compare_iff lawful ok (List.mem_range.mp inside) live
    rw [entries, Function.comp_apply]
    by_cases same : other = index
    · rw [if_pos same, if_pos (iff.mpr same), same]
    · rw [if_neg same, if_neg fun equal => same (iff.mp equal)]
  have keys : ∀ other < state.table.entriesBound, (state.storage.entries other).live = true →
      type.compare (state.storage.entries other).key
        ((setKeyRecord index stored value state).storage.entries other).key = 0 := by
    intro other inside live
    rw [entries]
    by_cases same : other = index
    · rw [if_pos same]
      exact lawful.trans (lawful.symm ((present.compare_iff lawful ok inside live).mpr same))
        ((WellFormed.keysEqual_iff lawful _ _).mp equal)
    · rw [if_neg same]
      exact lawful.refl _
  refine ⟨(ok.sane.setKeyRecord index stored value).wellFormed ?_ ?_, list⟩
  · intro entry member
    obtain ⟨other, inside, rfl, live⟩ := mem_liveEntries.mp member
    rw [setKeyRecord_live] at live
    rw [setKeyRecord_hash, WellFormed.hash_eq ok inside live]
    exact WellFormed.doHash_eq lawful (Or.inr (keys other inside live))
  · rw [pairwise_liveEntries]
    intro first second less inside firstLive secondLive same
    rw [setKeyRecord_live] at firstLive secondLive
    have firstInside : first < state.table.entriesBound := less.trans inside
    refine pairwise_liveEntries.mp ok.distinct first second less inside firstLive secondLive ?_
    exact lawful.trans (lawful.trans (keys first firstInside firstLive) same)
      (lawful.symm (keys second inside secondLive))

/-! ### Appending -/

theorem Sane.numEntries_le {table : Table} {storage : Storage} (sane : Sane table storage) :
    table.numEntries ≤ table.entriesBound := by
  rw [sane.count]
  unfold liveEntries segment
  refine Nat.le_trans (List.length_filter_le _ _) ?_
  rw [List.length_map, List.length_range]

theorem Sane.bound_le_two_pow {table : Table} {storage : Storage} (sane : Sane table storage) :
    table.entriesBound ≤ 2 ^ 58 :=
  Nat.le_trans sane.bound_le (Nat.pow_le_pow_right Nat.two_pos sane.featured.high)

/-- A new live entry, in a bin that is reserved for it. -/
theorem Sane.append {state : State} {entry : Entry} {bin : Nat}
    (sane : Sane state.table state.storage)
    (room : state.table.entriesBound < state.table.allocatedEntries)
    (entryLive : entry.live = true)
    (place : state.table.hasBins = true →
      bin ≠ noIndex ∧ Reserves state.table state.storage entry.hash bin) :
    Sane (appendEntry entry bin state).table (appendEntry entry bin state).storage ∧
      liveEntries (appendEntry entry bin state).table (appendEntry entry bin state).storage =
        liveEntries state.table state.storage ++ [entry] := by
  set after := appendEntry entry bin state with afterEq
  have bound : after.table.entriesBound = state.table.entriesBound + 1 := rfl
  have entries : after.storage.entries =
      Function.update state.storage.entries state.table.entriesBound entry := by
    rw [afterEq]
    unfold appendEntry
    dsimp only
    split_ifs <;> rfl
  have old : ∀ index < state.table.entriesBound,
      after.storage.entries index = state.storage.entries index := by
    intro index inside
    rw [entries, Function.update_of_ne (Nat.ne_of_lt inside)]
  have new : after.storage.entries state.table.entriesBound = entry := by
    rw [entries, Function.update_self]
  have list : liveEntries after.table after.storage =
      liveEntries state.table state.storage ++ [entry] := by
    rw [liveEntries_append bound old (new ▸ entryLive), new]
  refine ⟨?_, list⟩
  constructor
  · exact ⟨sane.featured.low, sane.featured.high, sane.featured.binPower, sane.featured.sizeInd⟩
  · exact Nat.le_succ_of_le sane.start_le
  · exact room
  · intro index less
    rw [old index (Nat.lt_of_lt_of_le less sane.start_le)]
    exact sane.before index less
  · intro _
    rcases Nat.lt_or_eq_of_le sane.start_le with less | same
    · show (after.storage.entries state.table.entriesStart).live = true
      rw [old _ less]
      exact sane.first less
    · show (after.storage.entries state.table.entriesStart).live = true
      rw [same, new]
      exact entryLive
  · rw [list, List.length_append, ← sane.count]
    show (state.table.numEntries + 1) % 2 ^ 64 = state.table.numEntries + 1
    refine Nat.mod_eq_of_lt ?_
    have length := sane.numEntries_le
    have small := sane.bound_le_two_pow
    omega
  · intro hasBins
    have hasBins' : state.table.hasBins = true := hasBins
    obtain ⟨isBin, reserves⟩ := place hasBins'
    have middle : BinsOk state.table { state.storage with entries := after.storage.entries }
        state.table.entriesBound :=
      (sane.bins hasBins').congr rfl (fun index inside => by rw [old index inside]) rfl
    have filled := @BinsOk.fill _ _ _ bin middle (by rw [new]; exact entryLive)
      (by rw [new]; exact ⟨reserves.free, reserves.reached⟩) (sane.featured.fits room)
    refine filled.congr rfl (fun _ _ => rfl) ?_
    rw [afterEq]
    unfold appendEntry
    dsimp only
    rw [if_pos isBin]
    rfl

theorem appendEntry_spec (lawful : type.Lawful) {key stored value : Word} {state : State}
    {bin : Nat} (ok : state.Ok type) (room : state.table.entriesBound < state.table.allocatedEntries)
    (absent : Absent type key state) (equal : keysEqual type key stored)
    (place : Place type key state bin) :
    (appendEntry { hash := doHash type key, key := stored, record := value } bin state).Ok type ∧
      liveEntries
          (appendEntry { hash := doHash type key, key := stored, record := value } bin state).table
          (appendEntry { hash := doHash type key, key := stored, record := value } bin state).storage =
        liveEntries state.table state.storage ++
          [{ hash := doHash type key, key := stored, record := value }] := by
  have entryLive : ({ hash := doHash type key, key := stored, record := value } : Entry).live =
      true := (live_iff _).mpr (doHash_ne_deleted type key)
  obtain ⟨sane, list⟩ := @Sane.append state { hash := doHash type key, key := stored, record := value }
    bin ok.sane room entryLive fun hasBins => by
      unfold Place at place
      rw [hasBins, if_pos rfl] at place
      exact place
  refine ⟨sane.wellFormed ?_ ?_, list⟩
  · intro other member
    rw [list, List.mem_append, List.mem_singleton] at member
    rcases member with earlier | rfl
    · exact ok.hashed other earlier
    · exact WellFormed.doHash_eq lawful equal
  · rw [list, List.pairwise_append]
    refine ⟨ok.distinct, List.pairwise_singleton _ _, fun other member last isLast same => ?_⟩
    rw [List.mem_singleton] at isLast
    obtain ⟨index, inside, rfl, live⟩ := mem_liveEntries.mp member
    rw [isLast] at same
    refine absent index inside live (Or.inr ?_)
    exact lawful.trans ((WellFormed.keysEqual_iff lawful _ _).mp equal) (lawful.symm same)

/-! ### Deleting -/

/-- The start moves over deleted entries to the first live one. -/
theorem updateStartLoop_spec (entries : Nat → Entry) :
    ∀ (remaining start : Nat),
      start ≤ updateStartLoop entries remaining start ∧
        updateStartLoop entries remaining start ≤ start + remaining ∧
        (∀ index, start ≤ index → index < updateStartLoop entries remaining start →
          (entries index).live = false) ∧
        (updateStartLoop entries remaining start < start + remaining →
          (entries (updateStartLoop entries remaining start)).live = true) := by
  intro remaining
  induction remaining with
  | zero =>
    intro start
    exact ⟨Nat.le_refl _, Nat.le_refl _, fun index low high => absurd high (Nat.not_lt_of_le low),
      fun less => absurd less (Nat.lt_irrefl _)⟩
  | succ remaining inductionHypothesis =>
    intro start
    unfold updateStartLoop
    by_cases deleted : (entries start).hash = deletedHash
    · rw [if_pos deleted]
      obtain ⟨low, high, before, first⟩ := inductionHypothesis (start + 1)
      refine ⟨by omega, by omega, fun index lower upper => ?_, fun less => first (by omega)⟩
      rcases Nat.lt_or_eq_of_le lower with less | rfl
      · exact before index less upper
      · exact decide_eq_false (not_not.mpr deleted)
    · rw [if_neg deleted]
      refine ⟨Nat.le_refl _, Nat.le_add_right _ _,
        fun index low high => absurd high (Nat.not_lt_of_le low), fun _ => ?_⟩
      exact (live_iff _).mpr deleted

theorem deleteEntry_table (index bin : Nat) (state : State) :
    (deleteEntry index bin state).table = { state.table with
      numEntries := decrement state.table.numEntries,
      entriesStart := updateStartLoop (deleteEntry index bin state).storage.entries
        (state.table.entriesBound - state.table.entriesStart) state.table.entriesStart } := by
  unfold deleteEntry updateStartAfterDelete
  dsimp only

theorem deleteEntry_entries (index bin : Nat) (state : State) :
    (deleteEntry index bin state).storage.entries = Function.update state.storage.entries index
      { state.storage.entries index with hash := deletedHash } := by
  unfold deleteEntry updateStartAfterDelete
  dsimp only
  split_ifs <;> rfl

theorem deleteEntry_bins {state : State} (hasBins : state.table.hasBins = true)
    (index bin other : Nat) :
    (deleteEntry index bin state).storage.bins other =
      if other = bin then deletedBin else state.storage.bins other := by
  have fits : deletedBin % 2 ^ (8 * binElementSize state.table.sizeInd) = deletedBin := by
    refine Nat.mod_eq_of_lt (Nat.one_lt_two_pow ?_)
    unfold binElementSize
    split_ifs <;> decide
  unfold deleteEntry updateStartAfterDelete
  dsimp only
  rw [if_pos hasBins]
  show Function.update state.storage.bins bin _ other = _
  rw [Function.update_apply, fits]

/-- A live entry is marked as deleted, with its bin. -/
theorem Sane.delete {state : State} {index bin : Nat} (sane : Sane state.table state.storage)
    (isInside : index < state.table.entriesBound)
    (isLive : (state.storage.entries index).live = true)
    (filled : state.table.hasBins = true →
      bin < state.table.binsCount ∧ state.storage.bins bin = index + entryBase) :
    Sane (deleteEntry index bin state).table (deleteEntry index bin state).storage ∧
      ((List.range state.table.entriesBound).filter fun other =>
          ((deleteEntry index bin state).storage.entries other).live) =
        ((List.range state.table.entriesBound).filter fun other =>
          (state.storage.entries other).live).filter fun other => decide (other ≠ index) := by
  have tableEq := deleteEntry_table index bin state
  have entriesEq := deleteEntry_entries index bin state
  have binsEq := fun hasBins => @deleteEntry_bins state hasBins index bin
  generalize deleteEntry index bin state = after at tableEq entriesEq binsEq ⊢
  have bound : after.table.entriesBound = state.table.entriesBound := by rw [tableEq]
  have start : after.table.entriesStart = updateStartLoop after.storage.entries
      (state.table.entriesBound - state.table.entriesStart) state.table.entriesStart := by
    rw [tableEq]
  have entries : ∀ other ≠ index, after.storage.entries other = state.storage.entries other := by
    intro other different
    rw [entriesEq, Function.update_of_ne different]
  have gone : (after.storage.entries index).live = false := by
    rw [entriesEq, Function.update_self]
    exact decide_eq_false (not_not.mpr rfl)
  have whole := Nat.add_sub_cancel' sane.start_le
  obtain ⟨startLow, startHigh, startBefore, startFirst⟩ := updateStartLoop_spec
    after.storage.entries (state.table.entriesBound - state.table.entriesStart)
    state.table.entriesStart
  rw [← start, whole] at startHigh
  rw [← start] at startLow startBefore startFirst
  rw [whole] at startFirst
  have indices : ((List.range state.table.entriesBound).filter fun other =>
      (after.storage.entries other).live) =
      ((List.range state.table.entriesBound).filter fun other =>
        (state.storage.entries other).live).filter fun other => decide (other ≠ index) := by
    rw [List.filter_filter]
    refine List.filter_congr fun other _ => ?_
    by_cases same : other = index
    · rw [same, gone, decide_eq_false (not_not.mpr rfl)]
      rfl
    · rw [entries other same, decide_eq_true same, Bool.true_and]
  have length : (liveEntries after.table after.storage).length + 1 =
      (liveEntries state.table state.storage).length := by
    rw [liveEntries_eq, liveEntries_eq, List.length_map, List.length_map, bound]
    have nodup : ((List.range state.table.entriesBound).filter fun other =>
        (state.storage.entries other).live).Nodup := List.Nodup.filter _ List.nodup_range
    have member : index ∈ (List.range state.table.entriesBound).filter fun other =>
        (state.storage.entries other).live :=
      List.mem_filter.mpr ⟨List.mem_range.mpr isInside, isLive⟩
    rw [indices, ← List.length_erase_add_one member, nodup.erase_eq_filter]
    refine congrArg (fun list : List Nat => list.length + 1) (List.filter_congr fun other _ => ?_)
    rw [Bool.eq_iff_iff, decide_eq_true_iff, bne_iff_ne]
  refine ⟨?_, indices⟩
  constructor
  · rw [tableEq]
    exact ⟨sane.featured.low, sane.featured.high, sane.featured.binPower, sane.featured.sizeInd⟩
  · rw [bound]
    exact startHigh
  · rw [tableEq]
    exact sane.bound_le
  · intro other less
    by_cases same : other = index
    · rw [same]
      exact gone
    · by_cases earlier : other < state.table.entriesStart
      · rw [entries other same]
        exact sane.before other earlier
      · exact startBefore other (Nat.le_of_not_lt earlier) less
  · rw [bound]
    exact startFirst
  · have positive : 0 < state.table.numEntries := by
      rw [sane.count]
      omega
    have number : after.table.numEntries = decrement state.table.numEntries := by rw [tableEq]
    rw [number, decrement, if_neg positive.ne', sane.count]
    omega
  · have sameBins : after.table.hasBins = state.table.hasBins := by
      rw [tableEq]
      rfl
    intro hasBins
    rw [sameBins] at hasBins
    obtain ⟨inside, holds⟩ := filled hasBins
    have removed : BinsOk state.table after.storage state.table.entriesBound :=
      (sane.bins hasBins).remove inside holds
        (fun other different => by rw [entries other different]) gone (binsEq hasBins)
    rw [bound]
    exact removed.congr (by rw [tableEq]) (fun _ _ => rfl) rfl

theorem deleteEntry_spec (lawful : type.Lawful) {key : Word} {state : State} {index bin : Nat}
    (ok : state.Ok type) (present : Present type key state index)
    (filled : state.table.hasBins = true →
      bin < state.table.binsCount ∧ state.storage.bins bin = index + entryBase) :
    (deleteEntry index bin state).Ok type ∧
      liveEntries (deleteEntry index bin state).table (deleteEntry index bin state).storage =
        (liveEntries state.table state.storage).filter fun entry =>
          decide (type.compare key entry.key ≠ 0) := by
  obtain ⟨sane, indices⟩ := ok.sane.delete present.inside present.live filled
  have bound : (deleteEntry index bin state).table.entriesBound = state.table.entriesBound := by
    rw [deleteEntry_table]
  have list : liveEntries (deleteEntry index bin state).table (deleteEntry index bin state).storage =
      (liveEntries state.table state.storage).filter fun entry =>
        decide (type.compare key entry.key ≠ 0) := by
    rw [liveEntries_eq, liveEntries_eq, List.filter_map, bound, indices]
    have tests : ((List.range state.table.entriesBound).filter fun other =>
        (state.storage.entries other).live).filter (fun other => decide (other ≠ index)) =
        ((List.range state.table.entriesBound).filter fun other =>
          (state.storage.entries other).live).filter
            ((fun entry => decide (type.compare key entry.key ≠ 0)) ∘ state.storage.entries) := by
      refine List.filter_congr fun other member => ?_
      obtain ⟨inside, live⟩ := List.mem_filter.mp member
      rw [Function.comp_apply, decide_eq_decide, Ne, Ne,
        present.compare_iff lawful ok (List.mem_range.mp inside) live]
    rw [← tests]
    refine List.map_congr_left fun other member => ?_
    rw [deleteEntry_entries,
      Function.update_of_ne (of_decide_eq_true (List.mem_filter.mp member).2)]
  refine ⟨sane.wellFormed ?_ ?_, list⟩
  · intro entry member
    rw [list] at member
    exact ok.hashed entry (List.mem_of_mem_filter member)
  · rw [list]
    exact ok.distinct.filter _

end LaserD.Hash
