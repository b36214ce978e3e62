/-
This file proves what the operations return when the callbacks are pure: the searches end,
leave the table as it is and are never begun again, and every operation has the effect on
the association list that its name says.
-/

import LaserD.Hash.Calls

namespace LaserD.Hash

variable {type : HashType} {fuel : Nat}

/-! ### Searches -/

theorem entryMatches_quiet (index : Nat) (hash key : Word) (state : State) :
    ∃ equal, entryMatches type quiet index hash key state = some (equal, false, state) ∧
      (equal = true → (state.storage.entries index).hash = hash) := by
  unfold entryMatches
  dsimp only
  by_cases sameHash : (state.storage.entries index).hash = hash
  · rw [if_pos sameHash]
    by_cases sameKey : key = (state.storage.entries index).key
    · rw [if_pos sameKey]
      exact ⟨_, rfl, fun _ => sameHash⟩
    · rw [if_neg sameKey]
      refine ⟨decide (type.compare key (state.storage.entries index).key = 0), ?_,
        fun _ => sameHash⟩
      show some (_, decide (state.table.rebuildsNum ≠ state.table.rebuildsNum), state) = _
      rw [decide_eq_false (not_not.mpr rfl)]
  · rw [if_neg sameHash]
    exact ⟨_, rfl, fun wrong => absurd wrong Bool.false_ne_true⟩

theorem findEntryLinearLoop_quiet (hash key : Word) (state : State) :
    ∀ (remaining index : Nat), ∃ found,
      findEntryLinearLoop type quiet hash key remaining index state = some (found, state) ∧
        (found = noIndex ∨
          found < index + remaining ∧ (state.storage.entries found).hash = hash) := by
  intro remaining
  induction remaining with
  | zero => exact fun index => ⟨_, rfl, Or.inl rfl⟩
  | succ remaining inductionHypothesis =>
    intro index
    obtain ⟨equal, matched, sameHash⟩ := @entryMatches_quiet type index hash key state
    obtain ⟨found, searched, bound⟩ := inductionHypothesis (index + 1)
    unfold findEntryLinearLoop
    rw [matched, Option.bind_eq_bind, Option.bind_some]
    dsimp only
    rw [if_neg Bool.false_ne_true]
    cases equal with
    | true =>
      rw [if_pos rfl]
      exact ⟨_, rfl, Or.inr ⟨Nat.lt_add_of_pos_right (Nat.succ_pos _), sameHash rfl⟩⟩
    | false =>
      rw [if_neg Bool.false_ne_true]
      exact ⟨found, searched, bound.imp_right fun ⟨less, same⟩ => ⟨by omega, same⟩⟩

/-- A linear search ends and leaves the table alone. -/
theorem findEntryLinear_quiet {state : State} (sane : Sane state.table state.storage)
    (hash key : Word) :
    ∃ found, findEntryLinear type quiet hash key state = some (found, state) ∧
      found ≠ rebuiltIndex ∧ (found = noIndex ∨
        found < state.table.entriesBound ∧ (state.storage.entries found).hash = hash) := by
  obtain ⟨found, searched, outcome⟩ := @findEntryLinearLoop_quiet type hash key state
    (state.table.entriesBound - state.table.entriesStart) state.table.entriesStart
  rw [Nat.add_sub_cancel' sane.start_le] at outcome
  refine ⟨found, searched, ?_, outcome⟩
  rcases outcome with none | ⟨bound, _⟩
  · rw [none]
    decide
  · have small := sane.bound_le_two_pow
    unfold rebuiltIndex
    omega

theorem probeLoop_quiet (key : Word) {hash : Word} {state : State} :
    ∀ (distance fuel n firstDeleted : Nat), distance < fuel →
      state.storage.bins (state.table.probe hash (n + distance)) = emptyBin →
      ∃ probe, probeLoop type quiet hash key fuel (state.table.probeState hash n).1
        (state.table.probeState hash n).2 firstDeleted state = some (probe, state) ∧
          probe ≠ .rebuilt := by
  intro distance
  induction distance with
  | zero =>
    intro fuel n firstDeleted enough empty
    obtain ⟨fuel, rfl⟩ := Nat.exists_eq_succ_of_ne_zero enough.ne'
    have isEmpty : getBin state.storage (state.table.probeState hash n).1 = emptyBin := empty
    unfold probeLoop
    dsimp only
    rw [if_pos isEmpty]
    exact ⟨_, rfl, Probe.noConfusion⟩
  | succ distance inductionHypothesis =>
    intro fuel n firstDeleted enough empty
    obtain ⟨fuel, rfl⟩ := Nat.exists_eq_succ_of_ne_zero (Nat.ne_of_gt (Nat.zero_lt_of_lt enough))
    have later : ∀ firstDeleted, ∃ probe, probeLoop type quiet hash key fuel
        (state.table.probeState hash (n + 1)).1 (state.table.probeState hash (n + 1)).2
        firstDeleted state = some (probe, state) ∧ probe ≠ .rebuilt := by
      intro firstDeleted
      refine inductionHypothesis fuel (n + 1) firstDeleted (Nat.lt_of_succ_lt_succ enough) ?_
      rw [Nat.add_right_comm]
      exact empty
    unfold probeLoop
    dsimp only
    by_cases isEmpty : getBin state.storage (state.table.probeState hash n).1 = emptyBin
    · rw [if_pos isEmpty]
      exact ⟨_, rfl, Probe.noConfusion⟩
    · rw [if_neg isEmpty]
      by_cases isDeleted : getBin state.storage (state.table.probeState hash n).1 = deletedBin
      · rw [if_pos isDeleted]
        exact later _
      · rw [if_neg isDeleted]
        obtain ⟨equal, matched, _⟩ := @entryMatches_quiet type
          (getBin state.storage (state.table.probeState hash n).1 - entryBase) hash key state
        rw [matched, Option.bind_eq_bind, Option.bind_some]
        dsimp only
        rw [if_neg Bool.false_ne_true]
        cases equal with
        | true =>
          rw [if_pos rfl]
          exact ⟨_, rfl, Probe.noConfusion⟩
        | false =>
          rw [if_neg Bool.false_ne_true]
          exact later _

/-- A search along a probe sequence ends and leaves the table alone. -/
theorem probeFor_quiet {state : State} (ok : Sane state.table state.storage) (hasBins : state.table.hasBins = true)
    (enough : searchRounds ≤ fuel) (hash key : Word) :
    ∃ probe, probeFor type quiet fuel hash key state = some (probe, state) ∧
      probe ≠ .rebuilt := by
  obtain ⟨n, small, empty⟩ :=
    (ok.bins hasBins).exists_probe_empty ok.featured ok.bound_le hash
  refine probeLoop_quiet key n fuel 0 noIndex (Nat.lt_of_lt_of_le small enough) ?_
  rw [Nat.zero_add]
  exact empty

/-! ### Searches of the operations -/

theorem findEntryAndReserve_quiet (lawful : type.Lawful) {state : State} (ok : state.Ok type)
    (enough : searchRounds ≤ fuel) (key : Word) :
    ∃ index bin, findEntryAndReserve type quiet fuel (doHash type key) key state =
      some (index, bin, state) ∧ index ≠ rebuiltIndex := by
  unfold findEntryAndReserve
  cases hasBins : state.table.hasBins with
  | false =>
    rw [if_pos (by decide)]
    obtain ⟨found, searched, last, _⟩ := findEntryLinear_quiet ok.sane (doHash type key) key
    rw [searched]
    exact ⟨_, _, rfl, last⟩
  | true =>
    rw [if_neg (by decide)]
    obtain ⟨probe, probed, last⟩ := probeFor_quiet ok.sane hasBins enough (doHash type key) key
    have outcome := (probeFor_spec lawful (quiet_tolerant type) ok hasBins probed).2
    rw [probed]
    cases probe with
    | absent bin => exact ⟨_, _, rfl, by decide⟩
    | found bin index => exact ⟨_, _, rfl, (outcome.2.1.index_ne ok).2⟩
    | rebuilt => exact absurd rfl last

theorem findEntryIndex_quiet (lawful : type.Lawful) {state : State} (ok : state.Ok type)
    (enough : searchRounds ≤ fuel) (key : Word) :
    ∃ index, findEntryIndex type quiet fuel (doHash type key) key state = some (index, state) ∧
      index ≠ rebuiltIndex := by
  unfold findEntryIndex
  cases hasBins : state.table.hasBins with
  | false =>
    rw [if_neg Bool.false_ne_true]
    obtain ⟨found, searched, last, _⟩ := findEntryLinear_quiet ok.sane (doHash type key) key
    exact ⟨found, searched, last⟩
  | true =>
    rw [if_pos rfl]
    obtain ⟨probe, probed, last⟩ := probeFor_quiet ok.sane hasBins enough (doHash type key) key
    have outcome := (probeFor_spec lawful (quiet_tolerant type) ok hasBins probed).2
    unfold findEntryBinned
    rw [probed]
    cases probe with
    | absent bin => exact ⟨_, rfl, by decide⟩
    | found bin index => exact ⟨_, rfl, (outcome.2.1.index_ne ok).2⟩
    | rebuilt => exact absurd rfl last

theorem findForDelete_quiet {state : State} (ok : state.Ok type)
    (enough : searchRounds ≤ fuel) (lawful : type.Lawful) (key : Word) :
    ∃ found, findForDelete type quiet fuel key state = some (found, state) ∧
      found ≠ rebuiltIndex := by
  unfold findForDelete
  cases hasBins : state.table.hasBins with
  | false =>
    rw [if_neg Bool.false_ne_true]
    obtain ⟨found, searched, last, _⟩ := findEntryLinear_quiet ok.sane (doHash type key) key
    exact ⟨found, searched, last⟩
  | true =>
    rw [if_pos rfl]
    obtain ⟨probe, probed, last⟩ := probeFor_quiet ok.sane hasBins enough (doHash type key) key
    have outcome := (probeFor_spec lawful (quiet_tolerant type) ok hasBins probed).2
    unfold findBinForEntry
    rw [probed]
    cases probe with
    | absent bin => exact ⟨_, rfl, by decide⟩
    | found bin index =>
      refine ⟨_, rfl, ?_⟩
      have small := ok.bin_lt outcome.2.2.1
      unfold rebuiltIndex
      omega
    | rebuilt => exact absurd rfl last

/-! ### Lookup -/

theorem positive_fuel (enough : searchRounds ≤ fuel) : ∃ rounds, fuel = rounds + 1 := by
  refine Nat.exists_eq_succ_of_ne_zero (Nat.ne_of_gt (Nat.lt_of_lt_of_le ?_ enough))
  exact Nat.two_pow_pos 60

theorem searchLoop_quiet (lawful : type.Lawful) {state : State} (ok : state.Ok type)
    (enough : searchRounds ≤ fuel) (key : Word) :
    ∃ index, searchLoop type quiet fuel (doHash type key) key fuel state = some (index, state) ∧
      Answers type key state index := by
  obtain ⟨index, searched, last⟩ := findEntryIndex_quiet lawful ok enough key
  obtain ⟨rounds, whole⟩ := positive_fuel enough
  have once : searchLoop type quiet fuel (doHash type key) key (rounds + 1) state =
      some (index, state) := by
    unfold searchLoop
    rw [searched, Option.bind_eq_bind, Option.bind_some]
    dsimp only
    rw [if_neg last]
    rfl
  rw [← whole] at once
  exact ⟨index, once, (searchLoop_spec lawful (quiet_tolerant type) fuel ok once).2⟩

/-- A lookup returns what the association list has. -/
theorem lookupWith_quiet (lawful : type.Lawful) {field : Entry → Word}
    {project : Word × Word → Word}
    (projects : ∀ entry : Entry, project (entry.key, entry.record) = field entry) {state : State}
    (ok : state.Ok type) (enough : searchRounds ≤ fuel) (key : Word) :
    lookupWith type quiet fuel field key state =
      some ((AssociationList.find type.same key state.contents).map project, state) := by
  obtain ⟨index, searched, answers⟩ := searchLoop_quiet lawful ok enough key
  unfold lookupWith
  rw [searched, answers.find_eq lawful ok, Option.bind_eq_bind, Option.bind_some]
  dsimp only
  by_cases none : index = noIndex
  · rw [if_pos none, if_pos none]
    rfl
  · rw [if_neg none, if_neg none, Option.map_some, projects]
    rfl

/-! ### The block of a table -/

/-- The table kept its block, or has one that was granted in between. -/
structure Moves (before after : State) : Prop where
  granted : after.arena.granted = before.arena.granted
  requests : before.arena.requests ≤ after.arena.requests
  block : after.table.entries = before.table.entries ∨
    before.arena.requests ≤ after.table.entries ∧ after.table.entries < after.arena.requests

theorem Moves.refl (state : State) : Moves state state := ⟨rfl, Nat.le_refl _, Or.inl rfl⟩

theorem Refused.moves {before after : State} (refused : Refused before after) :
    Moves before after :=
  ⟨refused.granted, refused.requests, Or.inl (congrArg Table.entries refused.table)⟩

theorem Roomy.moves {before after : State} (roomy : Roomy type before after) :
    Moves before after := by
  rcases roomy.step with rfl | rebuilt
  · exact Moves.refl _
  · obtain ⟨granted, ⟨block, requests⟩ | ⟨block, requests⟩⟩ := rebuilt.block
    · exact ⟨granted, requests.ge, Or.inl block⟩
    · refine ⟨granted, by omega, Or.inr ⟨block.ge, by omega⟩⟩

/-! ### Insertion -/

/-- Changing entries and bins keeps the block and the arena. -/
theorem appendEntry_moves {before middle : State} (entry : Entry) (bin : Nat)
    (moves : Moves before middle) : Moves before (appendEntry entry bin middle) :=
  ⟨moves.granted, moves.requests, moves.block⟩

theorem setKeyRecord_moves {before middle : State} (index : Nat) (key value : Word)
    (moves : Moves before middle) : Moves before (setKeyRecord index key value middle) :=
  ⟨moves.granted, moves.requests, moves.block⟩

/-- How an insertion changed a state: not at all, or in one entry of a state with room. -/
def ChangesOne (type : HashType) (before after : State) : Prop :=
  Refused before after ∨ ∃ roomy, Roomy type before roomy ∧
    ((∃ index value, after = setRecord index value roomy) ∨
      ∃ entry bin, after = appendEntry entry bin roomy)

theorem ChangesOne.moves {before after : State} (changes : ChangesOne type before after) :
    Moves before after := by
  rcases changes with refused | ⟨roomy, isRoomy, ⟨index, value, rfl⟩ | ⟨entry, bin, rfl⟩⟩
  · exact refused.moves
  · exact setKeyRecord_moves _ _ _ isRoomy.moves
  · exact appendEntry_moves _ _ isRoomy.moves

theorem insertLoop_quiet (lawful : type.Lawful) {key stored value : Word}
    (equal : keysEqual type key stored) {before : State} (ok : before.Ok type)
    (enough : searchRounds ≤ fuel) :
    ∃ code after, insertLoop type quiet fuel (doHash type key) key value stored fuel before =
      some (code, after) ∧ Inserts type key stored value before code after ∧
        ChangesOne type before after := by
  obtain ⟨rounds, whole⟩ := positive_fuel enough
  have once : ∃ code after,
      insertLoop type quiet fuel (doHash type key) key value stored (rounds + 1) before =
        some (code, after) ∧ Inserts type key stored value before code after ∧
          ChangesOne type before after := by
    obtain ⟨⟨ensured, roomy⟩, capacity⟩ := ensureInsertCapacity_some ok.sane enough
    unfold insertLoop
    rw [capacity, Option.bind_eq_bind, Option.bind_some]
    dsimp only
    rcases ensureInsertCapacity_spec ok capacity with ⟨rfl, refused⟩ | ⟨rfl, isRoomy⟩
    · rw [if_pos rfl]
      exact ⟨_, _, rfl, ⟨refused.ok ok, Or.inl ⟨rfl, refused⟩⟩, Or.inl refused⟩
    · rw [if_neg (by decide)]
      obtain ⟨index, bin, searched, last⟩ :=
        findEntryAndReserve_quiet lawful isRoomy.ok enough key
      have round := @insertRound_spec type quiet fuel lawful (quiet_tolerant type) key stored value
        _ _ _ _ isRoomy.ok isRoomy.room equal searched last
      have same := contents_eq isRoomy.live
      rw [searched, Option.bind_eq_bind, Option.bind_some]
      dsimp only
      rw [if_neg last]
      by_cases none : index ≠ noIndex
      · rw [if_pos none] at round ⊢
        obtain ⟨afterOk, ⟨wrong, _⟩ | inserted⟩ := round
        · exact absurd wrong (by decide)
        · exact ⟨_, _, rfl, ⟨afterOk, Or.inr (same ▸ inserted)⟩,
            Or.inr ⟨_, isRoomy, Or.inl ⟨_, _, rfl⟩⟩⟩
      · rw [if_neg none] at round ⊢
        obtain ⟨afterOk, ⟨wrong, _⟩ | inserted⟩ := round
        · exact absurd wrong (by decide)
        · exact ⟨_, _, rfl, ⟨afterOk, Or.inr (same ▸ inserted)⟩,
            Or.inr ⟨_, isRoomy, Or.inr ⟨_, _, rfl⟩⟩⟩
  rw [← whole] at once
  exact once

theorem stAddDirect_some {key value : Word} {before : State}
    (ok : before.Ok type) (enough : searchRounds ≤ fuel) :
    ∃ code after, stAddDirect type fuel key value before = some (code, after) ∧
      Moves before after := by
  obtain ⟨⟨ensured, roomy⟩, capacity⟩ := ensureInsertCapacity_some ok.sane enough
  unfold stAddDirect
  rw [capacity, Option.bind_eq_bind, Option.bind_some]
  dsimp only
  rcases ensureInsertCapacity_spec ok capacity with ⟨rfl, refused⟩ | ⟨rfl, isRoomy⟩
  · rw [if_pos rfl]
    exact ⟨_, _, rfl, refused.moves⟩
  · rw [if_neg (by decide)]
    cases hasBins : roomy.table.hasBins with
    | true =>
      rw [if_pos rfl]
      obtain ⟨bin, searched⟩ := (isRoomy.ok.bins hasBins).findInsertionBin_some
        isRoomy.ok.featured isRoomy.ok.bound_le enough (doHash type key)
      rw [searched]
      exact ⟨_, _, rfl, appendEntry_moves _ _ isRoomy.moves⟩
    | false =>
      rw [if_neg Bool.false_ne_true]
      exact ⟨_, _, rfl, appendEntry_moves _ _ isRoomy.moves⟩

/-! ### Deletion -/

theorem deleteEntry_moves (index bin : Nat) (state : State) :
    Moves state (deleteEntry index bin state) := by
  refine ⟨?_, ?_, Or.inl ?_⟩
  · unfold deleteEntry updateStartAfterDelete
    rfl
  · unfold deleteEntry updateStartAfterDelete
    exact Nat.le_refl _
  · rw [deleteEntry_table]

theorem MarksOne.moves {key : Word} {before after : State} {deleted : Deleted}
    (marks : MarksOne type key before deleted after) : Moves before after := by
  rcases marks with ⟨_, rfl⟩ | ⟨index, bin, _, _, _, rfl⟩
  · exact Moves.refl _
  · exact deleteEntry_moves _ _ _

theorem deleteLoop_quiet (lawful : type.Lawful) {before : State} (ok : before.Ok type)
    (enough : searchRounds ≤ fuel) (key : Word) :
    ∃ deleted after, deleteLoop type quiet fuel (doHash type key) key fuel before =
      some (deleted, after) ∧ Deletes type key before deleted after := by
  obtain ⟨rounds, whole⟩ := positive_fuel enough
  obtain ⟨found, searched, last⟩ := findForDelete_quiet ok enough lawful key
  have some : ∃ deleted after, deleteLoop type quiet fuel (doHash type key) key (rounds + 1) before =
      some (deleted, after) := by
    unfold findForDelete at searched
    unfold deleteLoop
    cases hasBins : before.table.hasBins with
    | true =>
      rw [hasBins, if_pos rfl] at searched
      rw [if_pos rfl, searched, Option.bind_eq_bind, Option.bind_some]
      dsimp only
      rw [if_neg last]
      by_cases none : found = noIndex
      · rw [if_pos none]
        exact ⟨_, _, rfl⟩
      · rw [if_neg none]
        exact ⟨_, _, rfl⟩
    | false =>
      rw [hasBins, if_neg Bool.false_ne_true] at searched
      rw [if_neg Bool.false_ne_true, searched, Option.bind_eq_bind, Option.bind_some]
      dsimp only
      rw [if_neg last]
      by_cases none : found = noIndex
      · rw [if_pos none]
        exact ⟨_, _, rfl⟩
      · rw [if_neg none]
        exact ⟨_, _, rfl⟩
  obtain ⟨deleted, after, performed⟩ := some
  obtain ⟨other, middle, again, _, outcome⟩ :=
    deleteLoop_succ lawful (quiet_tolerant type) ok performed
  rw [searched] at again
  cases again
  rw [← whole] at performed
  refine ⟨deleted, after, performed, ?_⟩
  rcases outcome with ⟨rebuilt, _⟩ | ⟨_, deletes⟩
  · exact absurd rebuilt last
  · exact deletes

/-- The oldest live entry is the one at the start. -/
theorem WellFormed.contents_cons {table : Table} {storage : Storage}
    (ok : WellFormed type table storage) (some : table.numEntries ≠ 0) :
    ∃ rest, contents table storage =
      ((storage.entries table.entriesStart).key, (storage.entries table.entriesStart).record) ::
        rest := by
  have live := ok.sane.liveEntries_from_start
  have count := ok.count
  cases width : table.entriesBound - table.entriesStart with
  | zero =>
    rw [width] at live
    rw [← live] at count
    exact absurd count some
  | succ width' =>
    have first := ok.first (by omega)
    rw [width, List.range'_succ, List.map_cons, List.filter_cons_of_pos first] at live
    unfold contents
    rw [← live]
    exact ⟨_, rfl⟩

/-- What a deletion of the oldest entry returns, and what it leaves. -/
def shiftList (key : Word) : List (Word × Word) → Deleted × List (Word × Word)
  | [] => ({ code := 0, key := key, value := 0 }, [])
  | (stored, record) :: rest => ({ code := 1, key := stored, value := record }, rest)

theorem stShift_quiet (lawful : type.Lawful) {before : State} (ok : before.Ok type)
    (enough : searchRounds ≤ fuel) (key : Word) :
    ∃ deleted after, stShift type quiet fuel key before = some (deleted, after) ∧
      after.Ok type ∧ (deleted, after.contents) = shiftList key before.contents ∧
        Moves before after := by
  unfold stShift
  by_cases none : before.table.numEntries = 0
  · rw [if_pos none]
    have empty : before.contents = [] := by
      refine List.eq_nil_of_length_eq_zero ?_
      exact ok.length_contents.trans none
    refine ⟨_, _, rfl, ok, ?_, Moves.refl _⟩
    rw [empty]
    rfl
  · rw [if_neg none]
    obtain ⟨rest, whole⟩ := ok.contents_cons none
    have whole' : before.contents = _ := whole
    obtain ⟨deleted, after, performed, afterOk, returned, erased, marks⟩ :=
      deleteLoop_quiet lawful ok enough (before.storage.entries before.table.entriesStart).key
    refine ⟨deleted, after, performed, afterOk, ?_, marks.moves⟩
    have same : ∀ stored, type.same stored stored = true :=
      fun stored => (HashType.same_iff _ _).mpr (lawful.refl stored)
    have distinct := ok.distinct_contents
    rw [whole] at distinct
    rw [whole', AssociationList.erase_head (same _) distinct] at erased
    rw [returned, erased, whole']
    unfold deletedFrom
    rw [AssociationList.find_head (same _)]
    rfl

/-! ### Updates -/

/-- The code of an insertion that is not refused. -/
def insertCode (type : HashType) (key : Word) (elements : List (Word × Word)) : Int :=
  if (AssociationList.find type.same key elements).isSome then 1 else 0

/-- What an update returns, and what it leaves. -/
def updateList (type : HashType) (key : Word) (callback : UpdateCallback)
    (elements : List (Word × Word)) : Int × List (Word × Word) :=
  match AssociationList.find type.same key elements with
  | some (stored, record) =>
    let (updatedKey, updatedValue, action) := callback stored record true
    match action with
    | .delete => (1, AssociationList.erase type.same key elements)
    | .stop => (1, elements)
    | .cont => (1, AssociationList.replace type.same key updatedKey updatedValue elements)
  | none =>
    let (updatedKey, updatedValue, action) := callback key 0 false
    match action with
    | .delete => (0, elements)
    | .stop => (0, elements)
    | .cont => (insertCode type updatedKey elements,
        AssociationList.insert type.same updatedKey updatedKey updatedValue elements)

theorem stUpdate_quiet (lawful : type.Lawful) {callback : UpdateCallback}
    (honest : ∀ stored record, type.compare stored (callback stored record true).1 = 0)
    {before : State} (ok : before.Ok type) (enough : searchRounds ≤ fuel) (key : Word) :
    ∃ code after, stUpdate type quiet fuel key callback before = some (code, after) ∧
      after.Ok type ∧ (code = stError ∧ Refused before after ∨
        (code, after.contents) = updateList type key callback before.contents) ∧
          Moves before after := by
  obtain ⟨index, searched, answers⟩ := searchLoop_quiet lawful ok enough key
  have found := answers.find_eq lawful ok
  unfold stUpdate updateList
  rw [searched, found, Option.bind_eq_bind, Option.bind_some]
  dsimp only
  by_cases none : index = noIndex
  · simp only [none, ne_eq, not_true_eq_false, decide_false, Bool.false_eq_true, ↓reduceIte]
    cases action : (callback key 0 false).2.2 with
    | delete => exact ⟨_, _, rfl, ok, Or.inr rfl, Moves.refl _⟩
    | stop => exact ⟨_, _, rfl, ok, Or.inr rfl, Moves.refl _⟩
    | cont =>
      obtain ⟨code, after, inserted, ⟨afterOk, outcome⟩, changes⟩ :=
        @insertLoop_quiet type fuel lawful (callback key 0 false).1 (callback key 0 false).1
          (callback key 0 false).2.1 (Or.inl rfl) before ok enough
      refine ⟨code, after, inserted, afterOk, outcome.imp_right ?_, changes.moves⟩
      rintro ⟨rfl, contents⟩
      rw [contents]
      rfl
  · simp only [ne_eq, none, not_false_eq_true, decide_true, ↓reduceIte]
    have present := answers.resolve_left fun absent => none absent.1
    cases action : (callback (before.storage.entries index).key
        (before.storage.entries index).record true).2.2 with
    | delete =>
      obtain ⟨deleted, after, performed, afterOk, _, erased, marks⟩ :=
        deleteLoop_quiet lawful ok enough key
      refine ⟨1, after, Option.bind_eq_some_iff.mpr ⟨_, performed, rfl⟩, afterOk, Or.inr ?_,
        marks.moves⟩
      rw [erased]
    | stop => exact ⟨_, _, rfl, ok, Or.inr rfl, Moves.refl _⟩
    | cont =>
      have equal : keysEqual type key (callback (before.storage.entries index).key
          (before.storage.entries index).record true).1 := by
        rw [WellFormed.keysEqual_iff lawful]
        exact lawful.trans ((WellFormed.keysEqual_iff lawful _ _).mp present.equal) (honest _ _)
      obtain ⟨afterOk, replaced⟩ := @setKeyRecord_contents type lawful key _
        (callback (before.storage.entries index).key
          (before.storage.entries index).record true).2.1 before index ok present equal
      refine ⟨_, _, rfl, afterOk, Or.inr ?_, setKeyRecord_moves _ _ _ (Moves.refl _)⟩
      rw [replaced]

/-! ### Listings -/

theorem listLoop_eq (field : Entry → Word) (entries : Nat → Entry) (size : Nat) :
    ∀ (remaining index : Nat) (written : List Word), written.length ≤ size →
      listLoop field entries size remaining index written =
        written ++ ((((List.range' index remaining).map entries).filter Entry.live).map field).take
          (size - written.length) := by
  intro remaining
  induction remaining with
  | zero =>
    intro index written _
    rw [List.range'_zero, List.map_nil, List.filter_nil, List.map_nil, List.take_nil,
      List.append_nil]
    rfl
  | succ remaining inductionHypothesis =>
    intro index written fits
    unfold listLoop
    rw [List.range'_succ, List.map_cons]
    by_cases live : (entries index).hash ≠ deletedHash
    · rw [if_pos live, List.filter_cons_of_pos ((live_iff _).mpr live), List.map_cons]
      by_cases full : written.length = size
      · rw [if_pos full, full, Nat.sub_self, List.take_zero, List.append_nil]
      · rw [if_neg full, inductionHypothesis, List.append_assoc, List.length_append,
          List.length_singleton]
        · have rest : size - written.length = size - (written.length + 1) + 1 := by omega
          rw [rest, List.take_succ_cons]
          rfl
        · rw [List.length_append, List.length_singleton]
          omega
    · rw [if_neg live, List.filter_cons_of_neg fun isLive => live ((live_iff _).mp isLive)]
      exact inductionHypothesis _ _ fits

theorem WellFormed.listLoop_contents {table : Table} {storage : Storage}
    (ok : WellFormed type table storage) {field : Entry → Word} {project : Word × Word → Word}
    (projects : ∀ entry : Entry, project (entry.key, entry.record) = field entry) (size : Nat) :
    listLoop field storage.entries size (table.entriesBound - table.entriesStart)
      table.entriesStart [] = ((contents table storage).map project).take size := by
  rw [listLoop_eq _ _ _ _ _ _ (Nat.zero_le _), ok.sane.liveEntries_from_start, List.nil_append,
    List.length_nil, Nat.sub_zero]
  unfold contents
  rw [List.map_map]
  congr 1
  exact List.map_congr_left fun entry _ => (projects entry).symm

end LaserD.Hash
