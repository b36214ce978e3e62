/-
This file proves that rebuilding keeps the live entries of a table, in their order, and
that it makes room.

In place or into a replacement, the live entries are moved to the front of the entries
array and the bins are built anew, one entry after another. Only half of the bins are
ever filled, so the search for a bin ends. A replacement has room for twice the live
entries; a table that keeps its allocation is at most half full, or nearly empty.
-/

import LaserD.Hash.Entries

namespace LaserD.Hash

variable {type : HashType}

/-! ### Empty bins end searches -/

/-- More rounds than any search needs. -/
def searchRounds : Nat := 2 ^ 60

theorem BinsOk.exists_empty {table : Table} {storage : Storage} {bound : Nat}
    (bins : BinsOk table storage bound) (few : bound < table.binsCount) :
    ∃ bin < table.binsCount, storage.bins bin = emptyBin := by
  by_contra! full
  have all : ((Finset.range table.binsCount).filter fun bin => storage.bins bin ≠ emptyBin) =
      Finset.range table.binsCount :=
    Finset.filter_true_of_mem fun bin member => full bin (Finset.mem_range.mp member)
  have sparse := bins.sparse
  rw [all, Finset.card_range] at sparse
  omega

theorem Featured.binsCount_eq {table : Table} (featured : Featured table) :
    table.binsCount = 2 * table.allocatedEntries := by
  unfold Table.binsCount Table.allocatedEntries
  rw [featured.binPower, Nat.pow_succ, Nat.mul_comm]

theorem Featured.allocated_bounds {table : Table} (featured : Featured table) :
    4 ≤ table.allocatedEntries ∧ table.allocatedEntries ≤ 2 ^ 58 :=
  ⟨Nat.pow_le_pow_right Nat.two_pos featured.low, Nat.pow_le_pow_right Nat.two_pos featured.high⟩

/-- Every probe sequence meets an empty bin within the rounds of a search. -/
theorem BinsOk.exists_probe_empty {table : Table} {storage : Storage} {bound : Nat}
    (bins : BinsOk table storage bound) (featured : Featured table)
    (few : bound ≤ table.allocatedEntries) (hash : Word) :
    ∃ n < searchRounds, storage.bins (table.probe hash n) = emptyBin := by
  have allocated := featured.allocated_bounds
  have counts := featured.binsCount_eq
  obtain ⟨bin, inside, empty⟩ := bins.exists_empty (by omega)
  have narrow : table.binPower ≤ 64 := by
    rw [featured.binPower]
    have := featured.high
    omega
  obtain ⟨n, small, reached⟩ := table.exists_probe hash narrow inside
  refine ⟨n, ?_, ?_⟩
  · unfold searchRounds
    omega
  · rw [reached]
    exact empty

/-- A search for a bin ends at the first empty one. -/
theorem findInsertionBinLoop_some {table : Table} {storage : Storage} {hash : Word} :
    ∀ (distance fuel n firstDeleted : Nat), distance < fuel →
      storage.bins (table.probe hash (n + distance)) = emptyBin →
      ∃ bin, findInsertionBinLoop table storage fuel (table.probeState hash n).1
        (table.probeState hash n).2 firstDeleted = some bin := by
  intro distance
  induction distance with
  | zero =>
    intro fuel n firstDeleted enough empty
    obtain ⟨fuel, rfl⟩ := Nat.exists_eq_succ_of_ne_zero enough.ne'
    have isEmpty : getBin storage (table.probeState hash n).1 = emptyBin := empty
    unfold findInsertionBinLoop
    dsimp only
    rw [if_pos isEmpty]
    exact ⟨_, rfl⟩
  | succ distance inductionHypothesis =>
    intro fuel n firstDeleted enough empty
    obtain ⟨fuel, rfl⟩ := Nat.exists_eq_succ_of_ne_zero (Nat.ne_of_gt (Nat.lt_of_le_of_lt
      (Nat.zero_le _) enough))
    unfold findInsertionBinLoop
    dsimp only
    by_cases isEmpty : getBin storage (table.probeState hash n).1 = emptyBin
    · rw [if_pos isEmpty]
      exact ⟨_, rfl⟩
    · rw [if_neg isEmpty]
      refine inductionHypothesis fuel (n + 1) _ (Nat.lt_of_succ_lt_succ enough) ?_
      rw [Nat.add_right_comm]
      exact empty

theorem BinsOk.findInsertionBin_some {table : Table} {storage : Storage} {bound fuel : Nat}
    (bins : BinsOk table storage bound) (featured : Featured table)
    (few : bound ≤ table.allocatedEntries) (enough : searchRounds ≤ fuel) (hash : Word) :
    ∃ bin, findInsertionBin fuel table storage hash = some bin := by
  obtain ⟨n, small, empty⟩ := bins.exists_probe_empty featured few hash
  refine findInsertionBinLoop_some n fuel 0 noIndex (Nat.lt_of_lt_of_le small enough) ?_
  rw [Nat.zero_add]
  exact empty

/-! ### Building the bins -/

/-- An entry that is not live needs no bin. -/
theorem BinsOk.skip {table : Table} {storage : Storage} {bound : Nat}
    (bins : BinsOk table storage bound) (deleted : (storage.entries bound).live = false) :
    BinsOk table storage (bound + 1) where
  entry inside entry := by
    obtain ⟨below, live⟩ := bins.entry inside entry
    exact ⟨below.trans (Nat.lt_succ_self bound), live⟩
  unique := bins.unique
  reach inside live := by
    rcases Nat.lt_succ_iff_lt_or_eq.mp inside with below | rfl
    · exact bins.reach below live
    · rw [deleted] at live
      exact absurd live Bool.false_ne_true
  sparse := Nat.le_succ_of_le bins.sparse

theorem buildBinsLoop_spec {fuel : Nat} {table : Table} (featured : Featured table) :
    ∀ (remaining index : Nat) {before after : Storage}, BinsOk table before index →
      index + remaining ≤ table.allocatedEntries →
      buildBinsLoop fuel table remaining index before = some after →
      BinsOk table after (index + remaining) ∧ after.entries = before.entries := by
  intro remaining
  induction remaining with
  | zero =>
    intro index before after bins _ built
    obtain rfl := Option.some.inj built
    exact ⟨bins, rfl⟩
  | succ remaining inductionHypothesis =>
    intro index before after bins room built
    rw [Nat.add_succ, ← Nat.succ_add] at room ⊢
    unfold buildBinsLoop at built
    by_cases live : (before.entries index).hash ≠ deletedHash
    · rw [if_pos live] at built
      obtain ⟨bin, found, built⟩ := Option.bind_eq_some_iff.mp built
      have filled := bins.fill ((live_iff _).mpr live) (findInsertionBin_spec found)
        (featured.fits (by omega))
      obtain ⟨afterBins, same⟩ := inductionHypothesis (index + 1) filled room built
      exact ⟨afterBins, same⟩
    · rw [if_neg live] at built
      exact inductionHypothesis (index + 1) (bins.skip (decide_eq_false live)) room built

theorem buildBinsLoop_some {fuel : Nat} {table : Table} (featured : Featured table)
    (enough : searchRounds ≤ fuel) :
    ∀ (remaining index : Nat) {storage : Storage}, BinsOk table storage index →
      index + remaining ≤ table.allocatedEntries →
      ∃ after, buildBinsLoop fuel table remaining index storage = some after := by
  intro remaining
  induction remaining with
  | zero =>
    intro index storage _ _
    exact ⟨storage, rfl⟩
  | succ remaining inductionHypothesis =>
    intro index storage bins room
    rw [Nat.add_succ, ← Nat.succ_add] at room
    unfold buildBinsLoop
    by_cases live : (storage.entries index).hash ≠ deletedHash
    · obtain ⟨bin, found⟩ := bins.findInsertionBin_some featured (by omega) enough
        (storage.entries index).hash
      have filled := bins.fill ((live_iff _).mpr live) (findInsertionBin_spec found)
        (featured.fits (by omega))
      obtain ⟨after, built⟩ := inductionHypothesis (index + 1) filled room
      refine ⟨after, ?_⟩
      rw [if_pos live, found]
      exact built
    · obtain ⟨after, built⟩ :=
        inductionHypothesis (index + 1) (bins.skip (decide_eq_false live)) room
      exact ⟨after, (if_neg live).trans built⟩

theorem initializeBins_ok {table : Table} (storage : Storage) (hasBins : table.hasBins = true) :
    BinsOk table (initializeBins table storage) 0 := by
  have noEntry : ¬ entryBase ≤ emptyBin := by decide
  unfold initializeBins
  rw [if_pos hasBins]
  refine ⟨fun _ entry => ?_, fun _ _ entry => ?_, fun inside => ?_, ?_⟩
  · exact absurd entry noEntry
  · exact absurd entry noEntry
  · exact absurd inside (Nat.not_lt_zero _)
  · rw [Finset.filter_false_of_mem fun _ _ => not_not.mpr rfl]
    exact Nat.le_refl _

theorem initializeBins_entries (table : Table) (storage : Storage) :
    (initializeBins table storage).entries = storage.entries := by
  unfold initializeBins
  split_ifs <;> rfl

/-- A list of live entries with fresh bins is a table. -/
theorem buildBins_sane {fuel : Nat} {table : Table} {before after : Storage} {entries : List Entry}
    (built : buildBins fuel table before = some after) (featured : Featured table)
    (start : table.entriesStart = 0) (room : table.entriesBound ≤ table.allocatedEntries)
    (whole : segment table before = entries) (live : ∀ entry ∈ entries, entry.live = true)
    (count : table.numEntries = entries.length) :
    Sane table after ∧ liveEntries table after = entries := by
  have initial := initializeBins_entries table before
  have outcome : after.entries = before.entries ∧
      (table.hasBins = true → BinsOk table after table.entriesBound) := by
    unfold buildBins at built
    dsimp only at built
    cases hasBins : table.hasBins with
    | false =>
      rw [hasBins, if_pos (by decide)] at built
      obtain rfl := Option.some.inj built
      exact ⟨initial, fun impossible => absurd impossible Bool.false_ne_true⟩
    | true =>
      rw [hasBins, if_neg (by decide), start, Nat.sub_zero] at built
      obtain ⟨bins, same⟩ := buildBinsLoop_spec featured _ _
        (initializeBins_ok before hasBins) (by rwa [Nat.zero_add]) built
      rw [Nat.zero_add] at bins
      exact ⟨same.trans initial, fun _ => bins⟩
  have segmentEq : segment table after = entries := by
    rw [← whole]
    unfold segment
    rw [outcome.1]
  have list : liveEntries table after = entries := by
    unfold liveEntries
    rw [segmentEq]
    exact List.filter_eq_self.mpr live
  refine ⟨?_, list⟩
  constructor
  · exact featured
  · rw [start]
    exact Nat.zero_le _
  · exact room
  · intro index less
    rw [start] at less
    exact absurd less (Nat.not_lt_zero index)
  · intro less
    refine live _ ?_
    rw [← segmentEq]
    exact List.mem_map_of_mem (List.mem_range.mpr less)
  · rw [list]
    exact count
  · exact outcome.2

theorem buildBins_some {fuel : Nat} {table : Table} (storage : Storage) (featured : Featured table)
    (start : table.entriesStart = 0) (room : table.entriesBound ≤ table.allocatedEntries)
    (enough : searchRounds ≤ fuel) : ∃ after, buildBins fuel table storage = some after := by
  unfold buildBins
  dsimp only
  cases hasBins : table.hasBins with
  | false =>
    rw [if_pos (by decide)]
    exact ⟨_, rfl⟩
  | true =>
    rw [if_neg (by decide), start, Nat.sub_zero]
    exact buildBinsLoop_some featured enough _ _ (initializeBins_ok storage hasBins)
      (by rwa [Nat.zero_add])

/-! ### Moving the live entries -/

theorem map_range_update (bound : Nat) (target : Nat → Entry) (entry : Entry) :
    (List.range (bound + 1)).map (Function.update target bound entry) =
      (List.range bound).map target ++ [entry] := by
  rw [List.range_succ, List.map_append, List.map_singleton, Function.update_self]
  congr 1
  refine List.map_congr_left fun index member => ?_
  rw [Function.update_of_ne (Nat.ne_of_lt (List.mem_range.mp member))]

/-- The live entries from an index on, behind those already in the target. -/
theorem copyLiveLoop_spec (source : Nat → Entry) :
    ∀ (remaining index bound : Nat) (target : Nat → Entry),
      (List.range (copyLiveLoop source remaining index bound target).2).map
          (copyLiveLoop source remaining index bound target).1 =
        (List.range bound).map target ++
          ((List.range' index remaining).map source).filter Entry.live := by
  intro remaining
  induction remaining with
  | zero =>
    intro index bound target
    rw [List.range'_zero, List.map_nil, List.filter_nil, List.append_nil]
    rfl
  | succ remaining inductionHypothesis =>
    intro index bound target
    unfold copyLiveLoop
    rw [List.range'_succ, List.map_cons]
    by_cases live : (source index).hash ≠ deletedHash
    · rw [if_pos live, inductionHypothesis, map_range_update,
        List.filter_cons_of_pos ((live_iff _).mpr live), List.append_assoc]
      rfl
    · rw [if_neg live, inductionHypothesis, List.filter_cons_of_neg]
      exact fun isLive => live ((live_iff _).mp isLive)

/-- Moving down in place reads each entry before it is overwritten. -/
theorem compactLoop_eq (source : Nat → Entry) :
    ∀ (remaining index destination : Nat) (entries : Nat → Entry), destination ≤ index →
      (∀ other, index ≤ other → entries other = source other) →
      compactLoop remaining index destination entries =
        copyLiveLoop source remaining index destination entries := by
  intro remaining
  induction remaining with
  | zero =>
    intro index destination entries _ _
    rfl
  | succ remaining inductionHypothesis =>
    intro index destination entries below same
    unfold compactLoop copyLiveLoop
    rw [same index (Nat.le_refl index)]
    by_cases live : (source index).hash ≠ deletedHash
    · rw [if_pos live, if_pos live]
      refine inductionHypothesis (index + 1) (destination + 1) _ (Nat.succ_le_succ below) ?_
      intro other later
      rw [Function.update_of_ne (by omega), same other (by omega)]
    · rw [if_neg live, if_neg live]
      exact inductionHypothesis (index + 1) destination entries (Nat.le_succ_of_le below)
        fun other later => same other (by omega)

/-- The entries before the start are not live. -/
theorem Sane.liveEntries_from_start {table : Table} {storage : Storage}
    (ok : Sane table storage) :
    ((List.range' table.entriesStart (table.entriesBound - table.entriesStart)).map
      storage.entries).filter Entry.live = liveEntries table storage := by
  have split : List.range table.entriesBound = List.range' 0 table.entriesStart ++
      List.range' table.entriesStart (table.entriesBound - table.entriesStart) := by
    rw [List.range_eq_range', ← Nat.add_sub_cancel' ok.start_le, Nat.add_sub_cancel_left]
    have appended : List.range' 0 table.entriesStart ++
        List.range' (0 + 1 * table.entriesStart) (table.entriesBound - table.entriesStart) =
        List.range' 0 (table.entriesStart + (table.entriesBound - table.entriesStart)) :=
      List.range'_append
    rw [Nat.zero_add, Nat.one_mul] at appended
    exact appended.symm
  have none : ((List.range' 0 table.entriesStart).map storage.entries).filter Entry.live = [] := by
    refine List.filter_eq_nil_iff.mpr fun entry member => ?_
    obtain ⟨index, inside, rfl⟩ := List.mem_map.mp member
    rw [← List.range_eq_range', List.mem_range] at inside
    rw [ok.before index inside]
    exact Bool.false_ne_true
  unfold liveEntries segment
  rw [split, List.map_append, List.filter_append, none, List.nil_append]

/-! ### Features -/

theorem getPower2Loop_spec {size : Nat} :
    ∀ (rounds power : Nat) {result : Nat}, getPower2Loop size rounds power = some result →
      power ≤ result ∧ result < power + rounds ∧ size < 2 ^ result ∧
        (result = power ∨ 2 ^ (result - 1) ≤ size) := by
  intro rounds
  induction rounds with
  | zero =>
    intro power result found
    cases found
  | succ rounds inductionHypothesis =>
    intro power result found
    unfold getPower2Loop at found
    by_cases small : 2 ^ power ≤ size
    · rw [if_pos small] at found
      obtain ⟨low, high, above, minimal⟩ := inductionHypothesis (power + 1) found
      refine ⟨by omega, by omega, above, Or.inr ?_⟩
      rcases minimal with rfl | minimal
      · exact small
      · exact minimal
    · rw [if_neg small] at found
      obtain rfl := Option.some.inj found
      exact ⟨Nat.le_refl _, by omega, Nat.lt_of_not_le small, Or.inl rfl⟩

theorem getPower2Loop_none {size : Nat} :
    ∀ (rounds power : Nat), getPower2Loop size (rounds + 1) power = none →
      2 ^ (power + rounds) ≤ size := by
  intro rounds
  induction rounds with
  | zero =>
    intro power missing
    unfold getPower2Loop at missing
    by_cases small : 2 ^ power ≤ size
    · exact small
    · rw [if_neg small] at missing
      cases missing
  | succ rounds inductionHypothesis =>
    intro power missing
    unfold getPower2Loop at missing
    by_cases small : 2 ^ power ≤ size
    · rw [if_pos small] at missing
      rw [← Nat.add_assoc, Nat.add_right_comm]
      exact inductionHypothesis (power + 1) missing
    · rw [if_neg small] at missing
      cases missing

/-- The storage of an exponent can be computed in a machine word up to 58. -/
theorem valid_iff_power_le : ∀ power < minimalPower2 + (maxPower2 + 1 - minimalPower2),
    (if 2 ^ power > (2 ^ 64 - 1) / entrySize then false
    else
      decide ((if decide (maxPower2WithoutBins < power) then
          2 ^ (power + 1) * binElementSize (sizeIndexForPower power) % 2 ^ 64
        else 0) ≤ 2 ^ 64 - 1 - 2 ^ power * entrySize % 2 ^ 64)) = true ↔ power ≤ 58 := by
  decide +kernel

/-- The features a requested size leads to, when the storage can be computed. -/
theorem setFeatures_spec {empty table : Table} {size : Nat}
    (set : empty.setFeatures size = some table) (valid : table.validStorageSize = true) :
    Featured table ∧ size < table.allocatedEntries ∧
      table = { empty with
        entryPower := table.entryPower, binPower := table.binPower, sizeInd := table.sizeInd } := by
  obtain ⟨power, found, made⟩ := Option.bind_eq_some_iff.mp set
  obtain rfl := Option.some.inj made
  obtain ⟨low, high, above, _⟩ := getPower2Loop_spec _ _ found
  have narrow : power ≤ 58 := (valid_iff_power_le power high).mp valid
  exact ⟨⟨low, narrow, rfl, rfl⟩, above, rfl⟩

/-- A size below the maximum has features, and storage for them can be computed. -/
theorem setFeatures_some (empty : Table) {size : Nat} (small : size < 2 ^ 58) :
    ∃ table, empty.setFeatures size = some table ∧ table.validStorageSize = true := by
  cases found : getPower2 size with
  | none =>
    have large := getPower2Loop_none 60 minimalPower2 found
    have above : 2 ^ 58 ≤ 2 ^ (minimalPower2 + 60) := Nat.pow_le_pow_right Nat.two_pos (by decide)
    omega
  | some power =>
    refine ⟨_, Option.bind_eq_some_iff.mpr ⟨power, found, rfl⟩, ?_⟩
    obtain ⟨low, high, _, minimal⟩ := getPower2Loop_spec _ _ found
    refine (valid_iff_power_le power high).mpr ?_
    rcases minimal with rfl | below
    · decide
    · have less := (Nat.pow_lt_pow_iff_right Nat.one_lt_two).mp (Nat.lt_of_le_of_lt below small)
      omega

/-! ### Rebuilding -/

/-- The same block, or one that was just granted. -/
def SameOrFresh (before after : State) : Prop :=
  after.arena.granted = before.arena.granted ∧
    (after.table.entries = before.table.entries ∧ after.arena.requests = before.arena.requests ∨
      after.table.entries = before.arena.requests ∧
        after.arena.requests = before.arena.requests + 1)

/-- What a rebuild that succeeds leaves behind, whatever the callbacks do. -/
structure Relaid (before after : State) : Prop where
  sane : Sane after.table after.storage
  live : liveEntries after.table after.storage = liveEntries before.table before.storage
  room : after.table.entriesBound < after.table.allocatedEntries
  bound : after.table.entriesBound ≤ before.table.entriesBound
  rebuilds : after.table.rebuildsNum = (before.table.rebuildsNum + 1) % 2 ^ 32
  scripts : after.scripts = before.scripts
  block : SameOrFresh before after

/-- What a rebuild that succeeds leaves behind. -/
structure Rebuilt (type : HashType) (before after : State) : Prop where
  ok : after.Ok type
  live : liveEntries after.table after.storage = liveEntries before.table before.storage
  room : after.table.entriesBound < after.table.allocatedEntries
  bound : after.table.entriesBound ≤ before.table.entriesBound
  rebuilds : after.table.rebuildsNum = (before.table.rebuildsNum + 1) % 2 ^ 32
  scripts : after.scripts = before.scripts
  block : SameOrFresh before after

/-- One of the requests made between two states of the arena was refused. -/
def Arena.Refuses (before after : Arena) : Prop :=
  ∃ request, before.requests ≤ request ∧ request < after.requests ∧
    before.granted request = false

/-- What an operation leaves behind that could not get room for more entries: the arena
refused, or there are too many entries already. -/
structure Refused (before after : State) : Prop where
  table : after.table = before.table
  storage : after.storage = before.storage
  scripts : after.scripts = before.scripts
  granted : after.arena.granted = before.arena.granted
  requests : before.arena.requests ≤ after.arena.requests
  cause : before.arena.Refuses after.arena ∨ 2 ^ 57 < before.table.numEntries

/-- The entries a compaction or a copy moves. -/
theorem Sane.moved {table : Table} {storage : Storage} (ok : Sane table storage)
    (target : Nat → Entry) :
    (List.range (copyLiveLoop storage.entries (table.entriesBound - table.entriesStart)
        table.entriesStart 0 target).2).map
      (copyLiveLoop storage.entries (table.entriesBound - table.entriesStart)
        table.entriesStart 0 target).1 = liveEntries table storage := by
  rw [copyLiveLoop_spec, List.range_zero, List.map_nil, List.nil_append]
  exact ok.liveEntries_from_start

theorem Sane.moved_length {table : Table} {storage : Storage}
    (ok : Sane table storage) (target : Nat → Entry) :
    (copyLiveLoop storage.entries (table.entriesBound - table.entriesStart) table.entriesStart 0
      target).2 = table.numEntries := by
  have lengths := congrArg List.length (ok.moved target)
  rw [List.length_map, List.length_range, ← ok.count] at lengths
  exact lengths

theorem live_of_mem {table : Table} {storage : Storage} :
    ∀ entry ∈ liveEntries table storage, entry.live = true :=
  fun _ member => (List.mem_filter.mp member).2

/-- The number of rebuilds and the block are nothing a table must agree with. -/
theorem Sane.retable {first second : Table} {storage : Storage}
    (ok : Sane first storage) (powers : second.entryPower = first.entryPower)
    (binPowers : second.binPower = first.binPower) (sizes : second.sizeInd = first.sizeInd)
    (counts : second.numEntries = first.numEntries)
    (starts : second.entriesStart = first.entriesStart)
    (bounds : second.entriesBound = first.entriesBound) : Sane second storage := by
  have live : liveEntries second storage = liveEntries first storage :=
    liveEntries_congr bounds fun _ _ => rfl
  constructor
  · refine ⟨?_, ?_, ?_, ?_⟩
    · rw [powers]
      exact ok.featured.low
    · rw [powers]
      exact ok.featured.high
    · rw [powers, binPowers]
      exact ok.featured.binPower
    · rw [powers, sizes]
      exact ok.featured.sizeInd
  · rw [starts, bounds]
    exact ok.start_le
  · unfold Table.allocatedEntries
    rw [bounds, powers]
    exact ok.bound_le
  · rw [starts]
    exact ok.before
  · rw [starts, bounds]
    exact ok.first
  · rw [counts, live]
    exact ok.count
  · unfold Table.hasBins
    rw [powers, bounds]
    exact fun hasBins => (ok.bins hasBins).congr binPowers (fun _ _ => rfl) rfl

/-- Moved entries do not change the powers. -/
theorem Featured.moved {table : Table} (featured : Featured table) {bound : Nat} :
    Featured { table with entriesStart := 0, entriesBound := bound } :=
  ⟨featured.low, featured.high, featured.binPower, featured.sizeInd⟩

theorem Relaid.rebuilt {before after : State} (relaid : Relaid before after)
    (ok : before.Ok type) : Rebuilt type before after := by
  refine ⟨relaid.sane.wellFormed ?_ ?_, relaid.live, relaid.room, relaid.bound, relaid.rebuilds,
    relaid.scripts, relaid.block⟩
  · rw [relaid.live]
    exact ok.hashed
  · rw [relaid.live]
    exact ok.distinct

theorem compactInPlace_spec {fuel : Nat} {before after : State}
    (ok : Sane before.table before.storage)
    (fewer : before.table.numEntries < before.table.allocatedEntries)
    (compacted : compactInPlace fuel before = some after) : Relaid before after := by
  unfold compactInPlace at compacted
  dsimp only at compacted
  rw [compactLoop_eq before.storage.entries _ _ _ _ (Nat.zero_le _) fun _ _ => rfl] at compacted
  obtain ⟨storage, built, returned⟩ := Option.bind_eq_some_iff.mp compacted
  obtain rfl := Option.some.inj returned
  have length := ok.moved_length before.storage.entries
  obtain ⟨afterOk, live⟩ := buildBins_sane built ok.featured.moved rfl (length.trans_le fewer.le)
    (ok.moved before.storage.entries) live_of_mem ok.count
  exact ⟨afterOk.retable rfl rfl rfl rfl rfl rfl,
    (liveEntries_congr rfl fun _ _ => rfl).trans live, length.trans_lt fewer,
    length.trans_le ok.numEntries_le, rfl, rfl, rfl, Or.inl ⟨rfl, rfl⟩⟩

theorem compactInPlace_some {fuel : Nat} {before : State} (ok : Sane before.table before.storage)
    (fewer : before.table.numEntries < before.table.allocatedEntries)
    (enough : searchRounds ≤ fuel) : ∃ after, compactInPlace fuel before = some after := by
  unfold compactInPlace
  dsimp only
  rw [compactLoop_eq before.storage.entries _ _ _ _ (Nat.zero_le _) fun _ _ => rfl]
  have length := ok.moved_length before.storage.entries
  obtain ⟨storage, built⟩ := buildBins_some _ ok.featured.moved rfl (length.trans_le fewer.le) enough
  exact ⟨_, Option.bind_eq_some_iff.mpr ⟨storage, built, rfl⟩⟩

theorem Sane.counts {table : Table} {storage : Storage} (ok : Sane table storage) :
    table.numEntries ≤ table.allocatedEntries ∧ 4 ≤ table.allocatedEntries ∧
      table.allocatedEntries ≤ 2 ^ 58 :=
  ⟨Nat.le_trans ok.numEntries_le ok.bound_le, ok.featured.allocated_bounds⟩

/-- A table that keeps its allocation is not full of live entries. -/
theorem Sane.fewer_of_keeps {table : Table} {storage : Storage}
    (ok : Sane table storage) (keeps : keepsAllocation table = true) :
    table.numEntries < table.allocatedEntries := by
  obtain ⟨count, low, high⟩ := ok.counts
  unfold keepsAllocation rebuildThreshold minimalPower2 at keeps
  rw [Bool.or_eq_true_iff, decide_eq_true_eq, decide_eq_true_eq] at keeps
  omega

/-- A table that does not keep its allocation has live entries. -/
theorem many_of_not_keeps {table : Table} (keeps : keepsAllocation table ≠ true) :
    4 ≤ table.numEntries := by
  unfold keepsAllocation minimalPower2 at keeps
  rw [Ne, Bool.or_eq_true_iff, not_or, decide_eq_true_eq, decide_eq_true_eq] at keeps
  omega

/-- The size requested for a replacement. -/
theorem Sane.requested {table : Table} {storage : Storage}
    (ok : Sane table storage) (keeps : keepsAllocation table ≠ true) :
    decrement (2 * table.numEntries % 2 ^ 64) = 2 * table.numEntries - 1 := by
  obtain ⟨count, low, high⟩ := ok.counts
  have many := many_of_not_keeps keeps
  have whole : 2 * table.numEntries % 2 ^ 64 = 2 * table.numEntries := Nat.mod_eq_of_lt (by omega)
  rw [whole, decrement, if_neg (by omega)]

theorem allocateStorage_cases (table : Table) (arena : Arena) :
    (∃ after, allocateStorage table arena = (none, after) ∧ after.granted = arena.granted ∧
        arena.requests ≤ after.requests ∧
        (table.validStorageSize ≠ true ∨ arena.Refuses after)) ∨
      table.validStorageSize = true ∧
        allocateStorage table arena =
          (some arena.requests, { arena with requests := arena.requests + 1 }) := by
  unfold allocateStorage
  by_cases valid : table.validStorageSize = true
  · rw [if_pos valid]
    unfold Arena.alloc
    by_cases granted : arena.granted arena.requests = true
    · rw [if_pos granted]
      exact Or.inr ⟨valid, rfl⟩
    · rw [if_neg granted]
      exact Or.inl ⟨_, rfl, rfl, Nat.le_succ _, Or.inr ⟨_, Nat.le_refl _, Nat.lt_succ_self _,
        eq_false_of_ne_true granted⟩⟩
  · rw [if_neg valid]
    exact Or.inl ⟨_, rfl, rfl, Nat.le_refl _, Or.inl valid⟩

theorem rebuild_relaid {fuel : Nat} {before after : State} {code : Int}
    (ok : Sane before.table before.storage)
    (rebuilt : rebuild fuel before = some (code, after)) :
    code = stError ∧ Refused before after ∨ code = 0 ∧ Relaid before after := by
  unfold rebuild at rebuilt
  dsimp only at rebuilt
  by_cases keeps : keepsAllocation before.table = true
  · rw [if_pos keeps] at rebuilt
    obtain ⟨state, compacted, returned⟩ := Option.bind_eq_some_iff.mp rebuilt
    cases returned
    exact Or.inr ⟨rfl, compactInPlace_spec ok (ok.fewer_of_keeps keeps) compacted⟩
  · rw [if_neg keeps, ok.requested keeps] at rebuilt
    have many := many_of_not_keeps keeps
    have small : before.table.numEntries ≤ 2 ^ 57 → 2 * before.table.numEntries - 1 < 2 ^ 58 := by
      omega
    split at rebuilt
    · rename_i missing
      cases rebuilt
      refine Or.inl ⟨rfl, rfl, rfl, rfl, rfl, Nat.le_refl _, Or.inr (Nat.lt_of_not_le fun few => ?_)⟩
      obtain ⟨table, made, _⟩ := setFeatures_some _ (small few)
      rw [missing] at made
      cases made
    · rename_i replacement set
      rcases allocateStorage_cases replacement before.arena with
        ⟨arena, refused, granted, requests, cause⟩ | ⟨valid, allocated⟩
      · rw [refused] at rebuilt
        cases rebuilt
        refine Or.inl ⟨rfl, rfl, rfl, rfl, granted, requests, ?_⟩
        rcases cause with invalid | refuses
        · refine Or.inr (Nat.lt_of_not_le fun few => invalid ?_)
          obtain ⟨table, made, valid⟩ := setFeatures_some _ (small few)
          rw [set] at made
          cases made
          exact valid
        · exact Or.inl refuses
      · rw [allocated] at rebuilt
        obtain ⟨storage, built, returned⟩ := Option.bind_eq_some_iff.mp rebuilt
        cases returned
        obtain ⟨featured, above, isReplacement⟩ := setFeatures_spec set valid
        have length := ok.moved_length freshStorage.entries
        have start : replacement.entriesStart = 0 := by rw [isReplacement]
        have room : before.table.numEntries < replacement.allocatedEntries := by omega
        obtain ⟨afterOk, live⟩ := buildBins_sane built
          ⟨featured.low, featured.high, featured.binPower, featured.sizeInd⟩ start
          (length.trans_le room.le) (ok.moved freshStorage.entries) live_of_mem ok.count
        refine Or.inr ⟨rfl, afterOk.retable rfl rfl rfl rfl start.symm rfl,
          (liveEntries_congr rfl fun _ _ => rfl).trans live, length.trans_lt room,
          length.trans_le ok.numEntries_le, rfl, rfl, rfl, Or.inr ⟨rfl, rfl⟩⟩

theorem rebuild_spec {fuel : Nat} {before after : State} {code : Int} (ok : before.Ok type)
    (rebuilt : rebuild fuel before = some (code, after)) :
    code = stError ∧ Refused before after ∨ code = 0 ∧ Rebuilt type before after :=
  (rebuild_relaid ok.sane rebuilt).imp_right fun ⟨zero, relaid⟩ => ⟨zero, relaid.rebuilt ok⟩

theorem rebuild_some {fuel : Nat} {before : State} (ok : Sane before.table before.storage)
    (enough : searchRounds ≤ fuel) : ∃ result, rebuild fuel before = some result := by
  unfold rebuild
  dsimp only
  by_cases keeps : keepsAllocation before.table = true
  · rw [if_pos keeps]
    obtain ⟨after, compacted⟩ := compactInPlace_some ok (ok.fewer_of_keeps keeps) enough
    exact ⟨_, Option.bind_eq_some_iff.mpr ⟨after, compacted, rfl⟩⟩
  · rw [if_neg keeps, ok.requested keeps]
    have many := many_of_not_keeps keeps
    split
    · exact ⟨_, rfl⟩
    · rename_i replacement set
      rcases allocateStorage_cases replacement before.arena with
        ⟨arena, refused, _⟩ | ⟨valid, allocated⟩
      · rw [refused]
        exact ⟨_, rfl⟩
      · rw [allocated]
        obtain ⟨featured, above, isReplacement⟩ := setFeatures_spec set valid
        have length := ok.moved_length freshStorage.entries
        have start : replacement.entriesStart = 0 := by rw [isReplacement]
        have room : before.table.numEntries < replacement.allocatedEntries := by omega
        have features : Featured { replacement with
            entries := before.arena.requests,
            entriesBound := (copyLiveLoop before.storage.entries
              (before.table.entriesBound - before.table.entriesStart) before.table.entriesStart 0
              freshStorage.entries).2,
            numEntries := before.table.numEntries,
            rebuildsNum := (before.table.rebuildsNum + 1) % 2 ^ 32 } :=
          ⟨featured.low, featured.high, featured.binPower, featured.sizeInd⟩
        obtain ⟨storage, built⟩ :=
          buildBins_some _ features start (length.trans_le room.le) enough
        exact ⟨_, Option.bind_eq_some_iff.mpr ⟨storage, built, rfl⟩⟩

/-! ### Room for an entry -/

/-- A state with room for an entry: the same, or a rebuilt one. -/
structure Roomy (type : HashType) (before after : State) : Prop where
  ok : after.Ok type
  live : liveEntries after.table after.storage = liveEntries before.table before.storage
  room : after.table.entriesBound < after.table.allocatedEntries
  step : after = before ∨ Rebuilt type before after

theorem ensureInsertCapacity_spec {fuel : Nat} {before after : State} {code : Int}
    (ok : before.Ok type) (ensured : ensureInsertCapacity fuel before = some (code, after)) :
    code = stError ∧ Refused before after ∨ code = 0 ∧ Roomy type before after := by
  unfold ensureInsertCapacity at ensured
  by_cases room : before.table.entriesBound < before.table.allocatedEntries
  · rw [if_pos room] at ensured
    cases ensured
    exact Or.inr ⟨rfl, ok, rfl, room, Or.inl rfl⟩
  · rw [if_neg room] at ensured
    rcases rebuild_spec ok ensured with refused | ⟨zero, rebuilt⟩
    · exact Or.inl refused
    · exact Or.inr ⟨zero, rebuilt.ok, rebuilt.live, rebuilt.room, Or.inr rebuilt⟩

theorem ensureInsertCapacity_some {fuel : Nat} {before : State}
    (ok : Sane before.table before.storage)
    (enough : searchRounds ≤ fuel) :
    ∃ result, ensureInsertCapacity fuel before = some result := by
  unfold ensureInsertCapacity
  by_cases room : before.table.entriesBound < before.table.allocatedEntries
  · rw [if_pos room]
    exact ⟨_, rfl⟩
  · rw [if_neg room]
    exact rebuild_some ok enough

end LaserD.Hash
