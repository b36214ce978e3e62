/-
This file proves that the loops without a bound end, whatever the callbacks compute. A table
is sane when its counters, its entries and its bins belong together; whether equal keys have
equal hashes plays no part in it. Every operation keeps a table sane, since an entry that is
appended fills at most one bin, and a table with room for an entry has twice as many bins as
entries. So an empty bin is left in every state, every probe sequence meets it, and every
operation returns.
-/

import LaserD.Hash.Refinement

namespace LaserD.Hash

variable {type : HashType} {fuel : Nat}

/-! ### Searches in a sane table -/

/-- How a search along a probe sequence ends in a sane table. -/
def Settled (hash : Word) (state : State) : Probe → Prop
  | .absent bin => Reserves state.table state.storage hash bin
  | .found bin index => bin < state.table.binsCount ∧ state.storage.bins bin = index + entryBase ∧
      (state.storage.entries index).hash = hash
  | .rebuilt => False

/-- A search that finds nothing reserves the bin that the search for a bin finds. -/
theorem probeLoop_absent {hash key : Word} {state after : State} :
    ∀ (fuel index perturb firstDeleted : Nat) {bin : Nat},
      probeLoop type quiet hash key fuel index perturb firstDeleted state =
        some (.absent bin, after) →
      findInsertionBinLoop state.table state.storage fuel index perturb firstDeleted =
        some bin := by
  intro fuel
  induction fuel with
  | zero =>
    intro index perturb firstDeleted bin searched
    cases searched
  | succ fuel inductionHypothesis =>
    intro index perturb firstDeleted bin searched
    rw [probeLoop] at searched
    rw [findInsertionBinLoop]
    dsimp only at searched ⊢
    by_cases empty : getBin state.storage index = emptyBin
    · rw [if_pos empty, Option.some.injEq, Prod.mk.injEq, Probe.absent.injEq] at searched
      rw [if_pos empty, searched.1]
    · rw [if_neg empty] at searched ⊢
      by_cases deleted : getBin state.storage index = deletedBin
      · rw [if_pos deleted] at searched
        simp only [deleted, true_and]
        exact inductionHypothesis _ _ _ searched
      · rw [if_neg deleted] at searched
        simp only [deleted, false_and, if_false]
        obtain ⟨equal, matched, _⟩ := @entryMatches_quiet type
          (getBin state.storage index - entryBase) hash key state
        rw [matched, Option.bind_eq_bind, Option.bind_some] at searched
        dsimp only at searched
        rw [if_neg Bool.false_ne_true] at searched
        cases equal with
        | true => cases searched
        | false => exact inductionHypothesis _ _ _ searched

/-- What a search finds is in a bin of the table, and has the hash. -/
theorem probeLoop_found {hash key : Word} {state after : State} :
    ∀ (fuel index perturb firstDeleted : Nat) {bin entry : Nat},
      index < state.table.binsCount →
      probeLoop type quiet hash key fuel index perturb firstDeleted state =
        some (.found bin entry, after) →
      bin < state.table.binsCount ∧ state.storage.bins bin = entry + entryBase ∧
        (state.storage.entries entry).hash = hash := by
  intro fuel
  induction fuel with
  | zero =>
    intro index perturb firstDeleted bin entry inside searched
    cases searched
  | succ fuel inductionHypothesis =>
    intro index perturb firstDeleted bin entry inside searched
    have next : (state.table.secondaryHash index perturb).1 < state.table.binsCount :=
      state.table.follow_lt inside perturb 1
    rw [probeLoop] at searched
    dsimp only at searched
    by_cases empty : getBin state.storage index = emptyBin
    · rw [if_pos empty] at searched
      cases searched
    · rw [if_neg empty] at searched
      by_cases deleted : getBin state.storage index = deletedBin
      · rw [if_pos deleted] at searched
        exact inductionHypothesis _ _ _ next searched
      · rw [if_neg deleted] at searched
        obtain ⟨equal, matched, sameHash⟩ := @entryMatches_quiet type
          (getBin state.storage index - entryBase) hash key state
        rw [matched, Option.bind_eq_bind, Option.bind_some] at searched
        dsimp only at searched
        rw [if_neg Bool.false_ne_true] at searched
        cases equal with
        | true =>
          cases searched
          refine ⟨inside, (Nat.sub_add_cancel ?_).symm, sameHash rfl⟩
          have notEmpty : state.storage.bins index ≠ 0 := empty
          have notDeleted : state.storage.bins index ≠ 1 := deleted
          show 2 ≤ state.storage.bins index
          omega
        | false => exact inductionHypothesis _ _ _ next searched

/-- A search along a probe sequence ends, for every hash and key. -/
theorem probeFor_settles {state : State} (sane : Sane state.table state.storage)
    (hasBins : state.table.hasBins = true) (enough : searchRounds ≤ fuel) (hash key : Word) :
    ∃ probe, probeFor type quiet fuel hash key state = some (probe, state) ∧
      Settled hash state probe := by
  obtain ⟨probe, searched, last⟩ := probeFor_quiet sane hasBins enough hash key
  refine ⟨probe, searched, ?_⟩
  cases probe with
  | absent bin => exact findInsertionBin_spec (probeLoop_absent _ _ _ _ searched)
  | found bin index => exact probeLoop_found _ _ _ _ (state.table.firstBin_lt hash) searched
  | rebuilt => exact absurd rfl last

/-- The entry in a bin of a sane table. -/
theorem Sane.settled_found {state : State} (sane : Sane state.table state.storage)
    (hasBins : state.table.hasBins = true) {hash : Word} {bin index : Nat}
    (settled : Settled hash state (.found bin index)) :
    index < state.table.entriesBound ∧ (state.storage.entries index).live = true := by
  obtain ⟨inside, filled, -⟩ := settled
  have entry := (sane.bins hasBins).entry inside (by rw [filled]; exact Nat.le_add_left _ _)
  rw [filled, Nat.add_sub_cancel] at entry
  exact entry

theorem Sane.binsCount_le {table : Table} {storage : Storage} (sane : Sane table storage) :
    table.binsCount ≤ 2 ^ 59 := by
  rw [sane.featured.binsCount_eq]
  have := sane.featured.allocated_bounds
  omega

/-- Whatever is found is a live entry, and whatever is not found has a bin reserved for it. -/
theorem findEntryAndReserve_settles {state : State} (sane : Sane state.table state.storage)
    (enough : searchRounds ≤ fuel) (hash key : Word) :
    ∃ index bin, findEntryAndReserve type quiet fuel hash key state = some (index, bin, state) ∧
      index ≠ rebuiltIndex ∧ (index = noIndex → state.table.hasBins = true →
        bin ≠ noIndex ∧ Reserves state.table state.storage hash bin) := by
  rw [findEntryAndReserve]
  cases hasBins : state.table.hasBins with
  | false =>
    obtain ⟨found, searched, last, -⟩ := @findEntryLinear_quiet type _ sane hash key
    rw [if_pos (by decide), searched]
    exact ⟨found, noIndex, rfl, last, fun _ => nofun⟩
  | true =>
    obtain ⟨probe, probed, settled⟩ := @probeFor_settles type _ _ sane hasBins enough hash key
    rw [if_neg (by decide), probed]
    cases probe with
    | absent bin =>
      refine ⟨noIndex, bin, rfl, by decide, fun _ _ => ⟨?_, settled⟩⟩
      have inside := Reserves.inside settled
      have small := sane.binsCount_le
      unfold noIndex
      omega
    | found bin index =>
      have small := (sane.settled_found hasBins settled).1
      have bound := sane.bound_le_two_pow
      refine ⟨index, bin, rfl, ?_, fun none => ?_⟩
      · unfold rebuiltIndex
        omega
      · unfold noIndex at none
        omega
    | rebuilt => exact settled.elim

theorem findEntryIndex_settles {state : State} (sane : Sane state.table state.storage)
    (enough : searchRounds ≤ fuel) (hash key : Word) :
    ∃ index, findEntryIndex type quiet fuel hash key state = some (index, state) ∧
      index ≠ rebuiltIndex := by
  rw [findEntryIndex]
  cases hasBins : state.table.hasBins with
  | false =>
    obtain ⟨found, searched, last, -⟩ := @findEntryLinear_quiet type _ sane hash key
    rw [if_neg Bool.false_ne_true]
    exact ⟨found, searched, last⟩
  | true =>
    obtain ⟨probe, probed, settled⟩ := @probeFor_settles type _ _ sane hasBins enough hash key
    rw [if_pos rfl, findEntryBinned, probed]
    cases probe with
    | absent bin => exact ⟨noIndex, rfl, by decide⟩
    | found bin index =>
      have small := (sane.settled_found hasBins settled).1
      have bound := sane.bound_le_two_pow
      refine ⟨index, rfl, ?_⟩
      unfold rebuiltIndex
      omega
    | rebuilt => exact settled.elim

/-- The search for the bin of an entry ends at a bin with an entry, or finds none. -/
theorem findBinForEntry_settles {state : State} (sane : Sane state.table state.storage)
    (hasBins : state.table.hasBins = true) (enough : searchRounds ≤ fuel) (hash key : Word) :
    ∃ bin, findBinForEntry type quiet fuel hash key state = some (bin, state) ∧
      bin ≠ rebuiltIndex ∧ (bin ≠ noIndex → ∃ index, Settled hash state (.found bin index)) := by
  obtain ⟨probe, probed, settled⟩ := @probeFor_settles type _ _ sane hasBins enough hash key
  rw [findBinForEntry, probed]
  cases probe with
  | absent bin => exact ⟨noIndex, rfl, by decide, fun wrong => absurd rfl wrong⟩
  | found bin index =>
    refine ⟨bin, rfl, ?_, fun _ => ⟨index, settled⟩⟩
    have inside := settled.1
    have small := sane.binsCount_le
    unfold rebuiltIndex
    omega
  | rebuilt => exact settled.elim

theorem searchLoop_settles {state : State} (sane : Sane state.table state.storage)
    (enough : searchRounds ≤ fuel) (hash key : Word) :
    ∃ index, searchLoop type quiet fuel hash key fuel state = some (index, state) := by
  obtain ⟨index, searched, last⟩ := @findEntryIndex_settles type _ _ sane enough hash key
  obtain ⟨rounds, whole⟩ := positive_fuel enough
  have once : searchLoop type quiet fuel hash key (rounds + 1) state = some (index, state) := by
    rw [searchLoop, searched, Option.bind_eq_bind, Option.bind_some]
    dsimp only
    rw [if_neg last]
    rfl
  rw [← whole] at once
  exact ⟨index, once⟩

theorem lookupWith_settles {state : State} (sane : Sane state.table state.storage)
    (enough : searchRounds ≤ fuel) (field : Entry → Word) (key : Word) :
    ∃ word, lookupWith type quiet fuel field key state = some (word, state) := by
  obtain ⟨index, searched⟩ := @searchLoop_settles type _ _ sane enough (doHash type key) key
  rw [lookupWith, searched, Option.bind_eq_bind, Option.bind_some]
  dsimp only
  split
  · exact ⟨_, rfl⟩
  · exact ⟨_, rfl⟩

/-! ### Operations on a sane table -/

/-- Making room keeps a table sane, or leaves it as it is. -/
theorem ensureInsertCapacity_relaid {before after : State} {code : Int}
    (sane : Sane before.table before.storage)
    (ensured : ensureInsertCapacity fuel before = some (code, after)) :
    code = stError ∧ Refused before after ∨ code = 0 ∧ Sane after.table after.storage ∧
      after.table.entriesBound < after.table.allocatedEntries := by
  rw [ensureInsertCapacity] at ensured
  by_cases room : before.table.entriesBound < before.table.allocatedEntries
  · rw [if_pos room] at ensured
    cases ensured
    exact Or.inr ⟨rfl, sane, room⟩
  · rw [if_neg room] at ensured
    rcases rebuild_relaid sane ensured with refused | ⟨zero, relaid⟩
    · exact Or.inl refused
    · exact Or.inr ⟨zero, relaid.sane, relaid.room⟩

/-- An insertion returns, and it fails exactly when there is no room. -/
theorem insertLoop_settles {before : State} (sane : Sane before.table before.storage)
    (enough : searchRounds ≤ fuel) {hash : Word} (usable : hash ≠ deletedHash)
    (key value stored : Word) :
    ∃ code after,
      insertLoop type quiet fuel hash key value stored fuel before = some (code, after) ∧
        Sane after.table after.storage ∧
        (code = stError → ensureInsertCapacity fuel before = some (stError, after)) := by
  obtain ⟨rounds, whole⟩ := positive_fuel enough
  have once : ∃ code after,
      insertLoop type quiet fuel hash key value stored (rounds + 1) before = some (code, after) ∧
        Sane after.table after.storage ∧
        (code = stError → ensureInsertCapacity fuel before = some (stError, after)) := by
    obtain ⟨⟨ensured, roomy⟩, capacity⟩ := ensureInsertCapacity_some sane enough
    rw [insertLoop, capacity, Option.bind_eq_bind, Option.bind_some]
    dsimp only
    rcases ensureInsertCapacity_relaid sane capacity with ⟨rfl, refused⟩ | ⟨rfl, saneRoomy, room⟩
    · rw [if_pos rfl]
      refine ⟨_, _, rfl, ?_, fun _ => rfl⟩
      rw [refused.table, refused.storage]
      exact sane
    · rw [if_neg (by decide)]
      obtain ⟨index, bin, searched, last, reserved⟩ :=
        @findEntryAndReserve_settles type _ _ saneRoomy enough hash key
      rw [searched, Option.bind_eq_bind, Option.bind_some]
      dsimp only
      rw [if_neg last]
      by_cases none : index = noIndex
      · rw [if_neg (not_not.mpr none)]
        refine ⟨_, _, rfl, ?_, fun wrong => absurd wrong (by decide)⟩
        exact (saneRoomy.append room ((live_iff _).mpr usable) (reserved none)).1
      · rw [if_pos none]
        refine ⟨_, _, rfl, ?_, fun wrong => absurd wrong (by decide)⟩
        exact saneRoomy.setKeyRecord _ _ _
  rw [← whole] at once
  exact once

theorem stAddDirect_settles {before : State} (sane : Sane before.table before.storage)
    (enough : searchRounds ≤ fuel) (key value : Word) :
    ∃ code after, stAddDirect type fuel key value before = some (code, after) ∧
      Sane after.table after.storage ∧
      (code = stError → ensureInsertCapacity fuel before = some (stError, after)) := by
  have live : ({ hash := doHash type key, key := key, record := value } : Entry).live = true :=
    (live_iff _).mpr (doHash_ne_deleted type key)
  obtain ⟨⟨ensured, roomy⟩, capacity⟩ := ensureInsertCapacity_some sane enough
  rw [stAddDirect, capacity, Option.bind_eq_bind, Option.bind_some]
  dsimp only
  rcases ensureInsertCapacity_relaid sane capacity with ⟨rfl, refused⟩ | ⟨rfl, saneRoomy, room⟩
  · rw [if_pos rfl]
    refine ⟨_, _, rfl, ?_, fun _ => rfl⟩
    rw [refused.table, refused.storage]
    exact sane
  · rw [if_neg (by decide)]
    cases hasBins : roomy.table.hasBins with
    | true =>
      obtain ⟨bin, searched⟩ := (saneRoomy.bins hasBins).findInsertionBin_some
        saneRoomy.featured saneRoomy.bound_le enough (doHash type key)
      have reserves := findInsertionBin_spec searched
      rw [if_pos rfl, searched]
      refine ⟨_, _, rfl, (saneRoomy.append room live fun _ => ⟨?_, reserves⟩).1,
        fun wrong => absurd wrong (by decide)⟩
      have inside := reserves.inside
      have small := saneRoomy.binsCount_le
      unfold noIndex
      omega
    | false =>
      rw [if_neg Bool.false_ne_true]
      refine ⟨_, _, rfl, (saneRoomy.append room live fun hasBins' => ?_).1,
        fun wrong => absurd wrong (by decide)⟩
      rw [hasBins] at hasBins'
      exact absurd hasBins' Bool.false_ne_true

/-- A deletion returns and keeps the table sane. -/
theorem stDelete_settles {before : State} (sane : Sane before.table before.storage)
    (enough : searchRounds ≤ fuel) (key : Word) :
    ∃ deleted after, stDelete type quiet fuel key before = some (deleted, after) ∧
      Sane after.table after.storage := by
  obtain ⟨rounds, whole⟩ := positive_fuel enough
  have once : ∃ deleted after,
      deleteLoop type quiet fuel (doHash type key) key (rounds + 1) before =
        some (deleted, after) ∧ Sane after.table after.storage := by
    rw [deleteLoop]
    cases hasBins : before.table.hasBins with
    | true =>
      obtain ⟨bin, searched, last, found⟩ :=
        @findBinForEntry_settles type _ _ sane hasBins enough (doHash type key) key
      rw [if_pos rfl, searched, Option.bind_eq_bind, Option.bind_some]
      dsimp only
      rw [if_neg last]
      by_cases none : bin = noIndex
      · rw [if_pos none]
        exact ⟨_, _, rfl, sane⟩
      · rw [if_neg none]
        obtain ⟨index, settled⟩ := found none
        have isIndex : indexOfBin (getBin before.storage bin) = index := by
          show indexOfBin (before.storage.bins bin) = index
          rw [settled.2.1, indexOfBin, if_neg (Nat.not_lt_of_le (Nat.le_add_left _ _)),
            Nat.add_sub_cancel]
        obtain ⟨inside, live⟩ := sane.settled_found hasBins settled
        rw [isIndex]
        exact ⟨_, _, rfl, (sane.delete inside live fun _ => ⟨settled.1, settled.2.1⟩).1⟩
    | false =>
      obtain ⟨index, searched, last, found⟩ :=
        @findEntryLinear_quiet type _ sane (doHash type key) key
      rw [if_neg Bool.false_ne_true, searched, Option.bind_eq_bind, Option.bind_some]
      dsimp only
      rw [if_neg last]
      by_cases none : index = noIndex
      · rw [if_pos none]
        exact ⟨_, _, rfl, sane⟩
      · rw [if_neg none]
        obtain ⟨inside, sameHash⟩ := found.resolve_left none
        have live : (before.storage.entries index).live = true :=
          (live_iff _).mpr (sameHash ▸ doHash_ne_deleted type key)
        refine ⟨_, _, rfl, (sane.delete inside live fun hasBins' => ?_).1⟩
        rw [hasBins] at hasBins'
        exact absurd hasBins' Bool.false_ne_true
  rw [← whole] at once
  exact once

/-- An update returns and keeps the table sane. It fails only when it has to insert an entry and
there is no room. -/
theorem stUpdate_settles {before : State} (sane : Sane before.table before.storage)
    (enough : searchRounds ≤ fuel) (key : Word) (callback : UpdateCallback) :
    ∃ code after, stUpdate type quiet fuel key callback before = some (code, after) ∧
      Sane after.table after.storage ∧
      (code = stError → ensureInsertCapacity fuel before = some (stError, after) ∧
        searchLoop type quiet fuel (doHash type key) key fuel before = some (noIndex, before)) := by
  obtain ⟨index, searched⟩ := @searchLoop_settles type _ _ sane enough (doHash type key) key
  rw [stUpdate, searched, Option.bind_eq_bind, Option.bind_some]
  dsimp only
  by_cases none : index = noIndex
  · simp only [none, ne_eq, not_true_eq_false, decide_false, Bool.false_eq_true, ↓reduceIte]
    cases action : (callback key 0 false).2.2 with
    | delete => exact ⟨_, _, rfl, sane, fun wrong => absurd wrong (by decide)⟩
    | stop => exact ⟨_, _, rfl, sane, fun wrong => absurd wrong (by decide)⟩
    | cont =>
      obtain ⟨code, after, inserted, afterSane, refused⟩ := @insertLoop_settles type _ _ sane enough
        _ (doHash_ne_deleted type (callback key 0 false).1) (callback key 0 false).1
        (callback key 0 false).2.1 (callback key 0 false).1
      exact ⟨code, after, inserted, afterSane, fun failed => ⟨refused failed, trivial⟩⟩
  · simp only [ne_eq, none, not_false_eq_true, decide_true, ↓reduceIte]
    cases action : (callback (before.storage.entries index).key
        (before.storage.entries index).record true).2.2 with
    | delete =>
      obtain ⟨deleted, after, performed, afterSane⟩ := @stDelete_settles type _ _ sane enough key
      exact ⟨1, after, Option.bind_eq_some_iff.mpr ⟨_, performed, rfl⟩, afterSane,
        fun wrong => absurd wrong (by decide)⟩
    | stop => exact ⟨_, _, rfl, sane, fun wrong => absurd wrong (by decide)⟩
    | cont =>
      exact ⟨_, _, rfl, sane.setKeyRecord _ _ _, fun wrong => absurd wrong (by decide)⟩

/-- Every operation on a sane table returns and keeps it sane. It fails only when there is no room
for an entry, and an update only when its key is not there. -/
theorem Call.perform_settles {before : State} (sane : Sane before.table before.storage)
    (enough : searchRounds ≤ fuel) (call : Call) :
    ∃ reply after, call.perform type quiet fuel before = some (reply, after) ∧
      Sane after.table after.storage ∧ (reply = .code stError →
        ensureInsertCapacity fuel before = some (stError, after) ∧
          ∀ key callback, call = .update key callback →
            searchLoop type quiet fuel (doHash type key) key fuel before =
              some (noIndex, before)) := by
  cases call with
  | insert key value =>
    obtain ⟨code, after, inserted, afterSane, refused⟩ := @insertLoop_settles type _ _ sane enough
      _ (doHash_ne_deleted type key) key value key
    exact ⟨_, after, Option.bind_eq_some_iff.mpr ⟨_, inserted, rfl⟩, afterSane,
      fun failed => ⟨refused (Reply.code.inj failed), nofun⟩⟩
  | insert2 key value transform =>
    obtain ⟨code, after, inserted, afterSane, refused⟩ := @insertLoop_settles type _ _ sane enough
      _ (doHash_ne_deleted type key) key value (transform key)
    exact ⟨_, after, Option.bind_eq_some_iff.mpr ⟨_, inserted, rfl⟩, afterSane,
      fun failed => ⟨refused (Reply.code.inj failed), nofun⟩⟩
  | addDirect key value =>
    obtain ⟨code, after, added, afterSane, refused⟩ :=
      @stAddDirect_settles type _ _ sane enough key value
    exact ⟨_, after, Option.bind_eq_some_iff.mpr ⟨_, added, rfl⟩, afterSane,
      fun failed => ⟨refused (Reply.code.inj failed), nofun⟩⟩
  | delete key =>
    obtain ⟨deleted, after, performed, afterSane⟩ := @stDelete_settles type _ _ sane enough key
    exact ⟨_, after, Option.bind_eq_some_iff.mpr ⟨_, performed, rfl⟩, afterSane, nofun⟩
  | shift key =>
    by_cases empty : before.table.numEntries = 0
    · exact ⟨_, before, Option.bind_eq_some_iff.mpr ⟨_, if_pos empty, rfl⟩, sane, nofun⟩
    · obtain ⟨deleted, after, performed, afterSane⟩ := @stDelete_settles type _ _ sane enough
        (before.storage.entries before.table.entriesStart).key
      exact ⟨_, after, Option.bind_eq_some_iff.mpr ⟨_, (if_neg empty).trans performed, rfl⟩,
        afterSane, nofun⟩
  | update key callback =>
    obtain ⟨code, after, performed, afterSane, refused⟩ :=
      @stUpdate_settles type _ _ sane enough key callback
    refine ⟨_, after, Option.bind_eq_some_iff.mpr ⟨_, performed, rfl⟩, afterSane, fun failed => ?_⟩
    obtain ⟨room, absent⟩ := refused (Reply.code.inj failed)
    refine ⟨room, fun other callback' same => ?_⟩
    cases same
    exact absent
  | clear => exact ⟨_, _, rfl, sane.stClear, nofun⟩
  | lookup key =>
    obtain ⟨word, looked⟩ := @lookupWith_settles type _ _ sane enough Entry.record key
    exact ⟨.found word, before, Option.bind_eq_some_iff.mpr ⟨_, looked, rfl⟩, sane, nofun⟩
  | isMember key =>
    obtain ⟨word, looked⟩ := @lookupWith_settles type _ _ sane enough Entry.record key
    exact ⟨.member word.isSome, before, Option.bind_eq_some_iff.mpr
      ⟨_, Option.bind_eq_some_iff.mpr ⟨_, looked, rfl⟩, rfl⟩, sane, nofun⟩
  | getKey key =>
    obtain ⟨word, looked⟩ := @lookupWith_settles type _ _ sane enough Entry.key key
    exact ⟨.found word, before, Option.bind_eq_some_iff.mpr ⟨_, looked, rfl⟩, sane, nofun⟩
  | keys size => exact ⟨_, before, rfl, sane, nofun⟩
  | values size => exact ⟨_, before, rfl, sane, nofun⟩
  | tableSize => exact ⟨_, before, rfl, sane, nofun⟩

/-! ### Runs -/

/-- The tables a program can have, whatever its callbacks compute. Other tables of the program may
use the arena in between. -/
inductive TableRun (type : HashType) (fuel : Nat) : State → Prop
  | create {size : Nat} {before after : Arena} {table : Table} {storage : Storage}
      (allocated : allocateTable size before = (some (table, storage), after)) :
      TableRun type fuel { table := table, storage := storage, arena := after, scripts := [] }
  | copy {state : State} {before after : Arena} {table : Table} {storage : Storage}
      (run : TableRun type fuel state)
      (copied : stCopy state.table state.storage before = (some (table, storage), after)) :
      TableRun type fuel { table := table, storage := storage, arena := after, scripts := [] }
  | arena {state : State} (arena : Arena) (run : TableRun type fuel state) :
      TableRun type fuel { state with arena := arena }
  | step {before after : State} {reply : Reply} (call : Call) (run : TableRun type fuel before)
      (performed : call.perform type quiet fuel before = some (reply, after)) :
      TableRun type fuel after

theorem TableRun.sane (enough : searchRounds ≤ fuel) {state : State}
    (run : TableRun type fuel state) : Sane state.table state.storage := by
  induction run with
  | create allocated =>
    obtain ⟨-, -, ⟨missing, -⟩ | ⟨table, made, created⟩⟩ := allocateTable_spec allocated
    · cases missing
    · cases made
      exact created.sane
  | copy run copied inductionHypothesis =>
    obtain ⟨-, -, ⟨missing, -⟩ | ⟨table, made, sane, -⟩⟩ := stCopy_sane inductionHypothesis copied
    · cases missing
    · cases made
      exact sane
  | arena arena run inductionHypothesis => exact inductionHypothesis
  | step call run performed inductionHypothesis =>
    obtain ⟨reply, after, again, sane, -⟩ :=
      Call.perform_settles inductionHypothesis enough call
    rw [performed] at again
    cases again
    exact sane

/-- An operation that fails leaves all fields of the table, its entries and its bins as they were.
The entries were used up, and a request was refused or the table would be too large. An update
fails only for a key that is not there. -/
theorem error_leaves_table (enough : searchRounds ≤ fuel) {state after : State} {call : Call}
    (run : TableRun type fuel state)
    (failed : call.perform type quiet fuel state = some (.code stError, after)) :
    after.table = state.table ∧ after.storage = state.storage ∧
      state.table.entriesBound = state.table.allocatedEntries ∧
      (state.arena.Refuses after.arena ∨ 2 ^ 57 < state.table.numEntries) ∧
      ∀ key callback, call = .update key callback →
        stIsMember type quiet fuel key state = some (false, state) := by
  have sane := run.sane enough
  obtain ⟨reply, after', performed, -, refused⟩ := @Call.perform_settles type _ _ sane enough call
  rw [failed] at performed
  cases performed
  obtain ⟨capacity, absent⟩ := refused rfl
  obtain ⟨-, refusal⟩ : stError = stError ∧ Refused state after :=
    (ensureInsertCapacity_relaid sane capacity).resolve_right fun wrong =>
      absurd wrong.1 (by decide)
  refine ⟨refusal.table, refusal.storage, ?_, refusal.cause, fun key callback isUpdate => ?_⟩
  · refine Nat.le_antisymm sane.bound_le (Nat.le_of_not_lt fun room => ?_)
    rw [ensureInsertCapacity, if_pos room] at capacity
    cases capacity
  · rw [stIsMember, stLookup, lookupWith, absent key callback isUpdate]
    rfl

/-- Insertions one after another. -/
def insertEach (type : HashType) (fuel : Nat) : List (Word × Word) → State → Option State
  | [], state => some state
  | (key, value) :: rest, state => do
    let (_, state) ← (Call.insert key value).perform type quiet fuel state
    insertEach type fuel rest state

theorem insertEach_run : ∀ (elements : List (Word × Word)) {state after : State},
    TableRun type fuel state → insertEach type fuel elements state = some after →
      TableRun type fuel after := by
  intro elements
  induction elements with
  | nil =>
    intro state after run inserted
    obtain rfl := Option.some.inj inserted
    exact run
  | cons element rest inductionHypothesis =>
    intro state after run inserted
    obtain ⟨⟨reply, middle⟩, performed, others⟩ := Option.bind_eq_some_iff.mp inserted
    exact inductionHypothesis (run.step _ performed) others

/-- A table of numbers with room for four entries and no more, and four entries in it. -/
def fullTable : Option State :=
  (stInitTable (grantingFirst 2)).1.bind fun made =>
    insertEach stHashtypeNum searchRounds [(0, 10), (1, 11), (2, 12), (3, 13)]
      { table := made.1, storage := made.2, arena := (stInitTable (grantingFirst 2)).2,
        scripts := [] }

theorem fullTable_run {state : State} (made : fullTable = some state) :
    TableRun stHashtypeNum searchRounds state := by
  obtain ⟨⟨table, storage⟩, allocated, inserted⟩ := Option.bind_eq_some_iff.mp made
  exact insertEach_run _ (TableRun.create (Prod.ext allocated rfl)) inserted

/-- Insertion into the full table fails and leaves it as it is. -/
theorem error_leaves_table_full :
    ∃ state after, TableRun stHashtypeNum searchRounds state ∧
      (Call.insert 4 14).perform stHashtypeNum quiet searchRounds state =
        some (.code stError, after) ∧
      after.table = state.table ∧ after.storage = state.storage := by
  have evaluated : (fullTable.map fun state =>
      ((Call.insert 4 14).perform stHashtypeNum quiet searchRounds state).map Prod.fst) =
      some (some (.code stError)) := by
    decide +kernel
  obtain ⟨state, made, performed⟩ := Option.map_eq_some_iff.mp evaluated
  obtain ⟨⟨reply, after⟩, performed, replied⟩ := Option.map_eq_some_iff.mp performed
  have failed : (Call.insert 4 14).perform stHashtypeNum quiet searchRounds state =
      some (.code stError, after) := by
    rw [performed]
    exact congrArg (fun reply => some (reply, after)) replied
  obtain ⟨table, storage, -⟩ :=
    error_leaves_table (Nat.le_refl _) (fullTable_run made) failed
  exact ⟨state, after, fullTable_run made, failed, table, storage⟩

/-- Overwriting the record of a key that is there can fail. -/
theorem overwrite_fails :
    ¬ ∀ type state, TableRun type searchRounds state → ∀ key value,
      (stIsMember type quiet searchRounds key state).map Prod.fst = some true →
      (stInsert type quiet searchRounds key value state).map Prod.fst ≠ some stError := by
  intro succeeds
  have evaluated : (fullTable.map fun state =>
      ((stIsMember stHashtypeNum quiet searchRounds 0 state).map Prod.fst,
        (stInsert stHashtypeNum quiet searchRounds 0 20 state).map Prod.fst)) =
      some (some true, some stError) := by
    decide +kernel
  obtain ⟨state, made, outcome⟩ := Option.map_eq_some_iff.mp evaluated
  obtain ⟨member, failed⟩ := Prod.mk.inj outcome
  exact succeeds _ state (fullTable_run made) 0 20 member failed

end LaserD.Hash
