/-
This file proves that the operations keep tables well formed, whatever the comparisons do
that are tolerated, and what they do to the association list.

A search that is begun again sees another table than the operation was called on, so the
effect is stated on the table as it is when the last search ends.
-/

import LaserD.Hash.Contents

namespace LaserD.Hash

variable {type : HashType} {call : Comparison} {fuel : Nat}

/-! ### Lookup -/

/-- What a search answers about a state. -/
def Answers (type : HashType) (key : Word) (state : State) (index : Nat) : Prop :=
  index = noIndex ∧ Absent type key state ∨ Present type key state index

theorem searchLoop_spec (lawful : type.Lawful) (tolerant : Tolerant type call) {key : Word} :
    ∀ (rounds : Nat) {before after : State} {index : Nat}, before.Ok type →
      searchLoop type call fuel (doHash type key) key rounds before = some (index, after) →
      after.Ok type ∧ Answers type key after index := by
  intro rounds
  induction rounds with
  | zero =>
    intro before after index _ searched
    cases searched
  | succ rounds inductionHypothesis =>
    intro before after index ok searched
    obtain ⟨⟨found, middle⟩, first, rest⟩ := Option.bind_eq_some_iff.mp searched
    obtain ⟨middleOk, finds⟩ := findEntryIndex_spec lawful tolerant ok first
    dsimp only at rest
    by_cases rebuilt : found = rebuiltIndex
    · rw [if_pos rebuilt] at rest
      exact inductionHypothesis middleOk rest
    · rw [if_neg rebuilt] at rest
      cases rest
      exact ⟨middleOk, (finds.resolve_left rebuilt).2⟩

/-- What an answer says about the association list. -/
theorem Answers.find_eq (lawful : type.Lawful) {key : Word} {state : State} {index : Nat}
    (ok : state.Ok type) (answers : Answers type key state index) :
    AssociationList.find type.same key state.contents =
      if index = noIndex then none
      else some ((state.storage.entries index).key, (state.storage.entries index).record) := by
  rcases answers with ⟨rfl, absent⟩ | present
  · rw [if_pos rfl]
    exact (absent_iff lawful).mp absent
  · rw [if_neg (present.index_ne ok).1]
    exact present.find_eq lawful ok

theorem lookupWith_spec (lawful : type.Lawful) (tolerant : Tolerant type call)
    {field : Entry → Word} {project : Word × Word → Word}
    (projects : ∀ entry : Entry, project (entry.key, entry.record) = field entry)
    {key : Word} {before after : State} {result : Option Word} (ok : before.Ok type)
    (looked : lookupWith type call fuel field key before = some (result, after)) :
    after.Ok type ∧
      result = (AssociationList.find type.same key after.contents).map project := by
  obtain ⟨⟨index, middle⟩, searched, returned⟩ := Option.bind_eq_some_iff.mp looked
  obtain ⟨middleOk, answers⟩ := searchLoop_spec lawful tolerant fuel ok searched
  have found := answers.find_eq lawful middleOk
  dsimp only at returned
  by_cases none : index = noIndex
  · rw [if_pos none] at returned found
    cases returned
    refine ⟨middleOk, ?_⟩
    rw [found]
    rfl
  · rw [if_neg none] at returned found
    cases returned
    refine ⟨middleOk, ?_⟩
    rw [found, Option.map_some, projects]

/-! ### Insertion -/

/-- What an insertion does: it changes the association list, or is refused and changes
nothing. -/
def Inserts (type : HashType) (key stored value : Word) (before : State) (code : Int)
    (after : State) : Prop :=
  after.Ok type ∧ (code = stError ∧ Refused before after ∨
    code = (if (AssociationList.find type.same key before.contents).isSome then 1 else 0) ∧
      after.contents = AssociationList.insert type.same key stored value before.contents)

theorem Refused.ok {before after : State} (refused : Refused before after)
    (ok : before.Ok type) : after.Ok type := by
  unfold State.Ok
  rw [refused.table, refused.storage]
  exact ok

theorem Refused.contents_eq {before after : State} (refused : Refused before after) :
    after.contents = before.contents := by
  unfold State.contents
  rw [refused.table, refused.storage]

/-- One round of an insertion, from a state with room to the end of a search that was not
interrupted by a rebuild. -/
theorem insertRound_spec (lawful : type.Lawful) (tolerant : Tolerant type call)
    {key stored value : Word} {before middle : State} {index bin : Nat} (ok : before.Ok type)
    (room : before.table.entriesBound < before.table.allocatedEntries)
    (equal : keysEqual type key stored)
    (searched : findEntryAndReserve type call fuel (doHash type key) key before =
      some (index, bin, middle)) (last : index ≠ rebuiltIndex) :
    if index ≠ noIndex then
      Inserts type key stored value middle 1 (setRecord index value middle)
    else
      Inserts type key stored value middle 0
        (appendEntry { hash := doHash type key, key := stored, record := value } bin middle) := by
  obtain ⟨middleOk, finds⟩ := findEntryAndReserve_spec lawful tolerant ok searched
  obtain ⟨drift, ⟨none, absent, place⟩ | present⟩ := finds.resolve_left last
  · rw [if_neg (not_not.mpr none)]
    have middleRoom : middle.table.entriesBound < middle.table.allocatedEntries := by
      unfold Table.allocatedEntries
      rw [drift.bound, drift.entryPower]
      exact room
    obtain ⟨afterOk, inserted⟩ :=
      @appendEntry_contents type lawful key stored value _ _ middleOk middleRoom absent equal place
    refine ⟨afterOk, Or.inr ⟨?_, inserted⟩⟩
    rw [(absent_iff lawful).mp absent]
    rfl
  · rw [if_pos (present.index_ne middleOk).1]
    obtain ⟨afterOk, inserted⟩ :=
      @setRecord_contents type lawful key value stored _ _ middleOk present
    refine ⟨afterOk, Or.inr ⟨?_, inserted⟩⟩
    rw [present.find_eq lawful middleOk]
    rfl

theorem insertLoop_ok (lawful : type.Lawful) (tolerant : Tolerant type call)
    {key stored value : Word} (equal : keysEqual type key stored) :
    ∀ (rounds : Nat) {before after : State} {code : Int}, before.Ok type →
      insertLoop type call fuel (doHash type key) key value stored rounds before =
        some (code, after) → after.Ok type := by
  intro rounds
  induction rounds with
  | zero =>
    intro before after code _ inserted
    cases inserted
  | succ rounds inductionHypothesis =>
    intro before after code ok inserted
    obtain ⟨⟨ensured, roomy⟩, capacity, rest⟩ := Option.bind_eq_some_iff.mp inserted
    dsimp only at rest
    rcases ensureInsertCapacity_spec ok capacity with ⟨rfl, refused⟩ | ⟨rfl, isRoomy⟩
    · rw [if_pos rfl] at rest
      cases rest
      exact refused.ok ok
    · rw [if_neg (by decide)] at rest
      obtain ⟨⟨index, bin, middle⟩, searched, rest⟩ := Option.bind_eq_some_iff.mp rest
      dsimp only at rest
      by_cases rebuilt : index = rebuiltIndex
      · rw [if_pos rebuilt] at rest
        exact inductionHypothesis
          (findEntryAndReserve_spec lawful tolerant isRoomy.ok searched).1 rest
      · rw [if_neg rebuilt] at rest
        have round := @insertRound_spec type call fuel lawful tolerant key stored value _ _ _ _
          isRoomy.ok isRoomy.room equal searched rebuilt
        by_cases none : index ≠ noIndex
        · rw [if_pos none] at rest round
          cases rest
          exact round.1
        · rw [if_neg none] at rest round
          cases rest
          exact round.1

/-- Insertion of an absent key without a search. -/
theorem stAddDirect_spec (lawful : type.Lawful) {key value : Word} {before after : State}
    {code : Int} (ok : before.Ok type) (absent : Absent type key before)
    (added : stAddDirect type fuel key value before = some (code, after)) :
    Inserts type key key value before code after := by
  obtain ⟨⟨ensured, roomy⟩, capacity, rest⟩ := Option.bind_eq_some_iff.mp added
  dsimp only at rest
  rcases ensureInsertCapacity_spec ok capacity with ⟨rfl, refused⟩ | ⟨rfl, isRoomy⟩
  · rw [if_pos rfl] at rest
    cases rest
    exact ⟨refused.ok ok, Or.inl ⟨rfl, refused⟩⟩
  · rw [if_neg (by decide)] at rest
    have same := contents_eq isRoomy.live
    have stillAbsent : Absent type key roomy := by
      rw [absent_iff lawful, same]
      exact (absent_iff lawful).mp absent
    have appended : ∀ bin, Place type key roomy bin → Inserts type key key value before 0
        (appendEntry { hash := doHash type key, key := key, record := value } bin roomy) := by
      intro bin place
      obtain ⟨afterOk, inserted⟩ := @appendEntry_contents type lawful key key value _ _ isRoomy.ok
        isRoomy.room stillAbsent (Or.inl rfl) place
      refine ⟨afterOk, Or.inr ⟨?_, same ▸ inserted⟩⟩
      rw [(absent_iff lawful).mp absent]
      rfl
    cases hasBins : roomy.table.hasBins with
    | true =>
      rw [hasBins, if_pos rfl] at rest
      obtain ⟨bin, searched, returned⟩ := Option.bind_eq_some_iff.mp rest
      cases returned
      have reserves := findInsertionBin_spec searched
      refine appended bin ?_
      unfold Place
      rw [hasBins, if_pos rfl]
      refine ⟨?_, reserves⟩
      have small := isRoomy.ok.bin_lt reserves.inside
      unfold noIndex
      omega
    | false =>
      rw [hasBins, if_neg Bool.false_ne_true] at rest
      cases rest
      refine appended noIndex ?_
      unfold Place
      rw [hasBins, if_neg Bool.false_ne_true]

/-! ### Deletion -/

theorem findBinForEntry_spec (lawful : type.Lawful) (tolerant : Tolerant type call) {key : Word}
    {bin : Nat} {before after : State} (ok : before.Ok type)
    (hasBins : before.table.hasBins = true)
    (searched : findBinForEntry type call fuel (doHash type key) key before = some (bin, after)) :
    after.Ok type ∧ (bin = rebuiltIndex ∨ Drift before after ∧
      (bin = noIndex ∧ Absent type key after ∨
        ∃ index, Present type key after index ∧ bin < after.table.binsCount ∧
          after.storage.bins bin = index + entryBase)) := by
  obtain ⟨⟨probe, middle⟩, probed, returned⟩ := Option.bind_eq_some_iff.mp searched
  obtain ⟨middleOk, outcome⟩ := probeFor_spec lawful tolerant ok hasBins probed
  cases probe with
  | absent reserved =>
    cases returned
    exact ⟨middleOk, Or.inr ⟨outcome.1, Or.inl ⟨rfl, outcome.2.1⟩⟩⟩
  | found reserved found =>
    cases returned
    exact ⟨middleOk, Or.inr ⟨outcome.1, Or.inr ⟨found, outcome.2⟩⟩⟩
  | rebuilt =>
    cases returned
    exact ⟨middleOk, Or.inl rfl⟩

/-- What a deletion of a key returns. -/
def deletedFrom (type : HashType) (key : Word) (elements : List (Word × Word)) : Deleted :=
  match AssociationList.find type.same key elements with
  | none => { code := 0, key := key, value := 0 }
  | some (stored, record) => { code := 1, key := stored, value := record }

/-- How a deletion changed a state: not at all, or by marking the entry of the key. -/
def MarksOne (type : HashType) (key : Word) (before : State) (deleted : Deleted)
    (after : State) : Prop :=
  deleted.code = 0 ∧ after = before ∨
    ∃ index bin, Present type key before index ∧ deleted.code = 1 ∧
      deleted.key = (before.storage.entries index).key ∧ after = deleteEntry index bin before

/-- What a deletion does. -/
def Deletes (type : HashType) (key : Word) (before : State) (deleted : Deleted)
    (after : State) : Prop :=
  after.Ok type ∧ deleted = deletedFrom type key before.contents ∧
    after.contents = AssociationList.erase type.same key before.contents ∧
    MarksOne type key before deleted after

theorem Absent.deletes (lawful : type.Lawful) {key : Word} {state : State} (ok : state.Ok type)
    (absent : Absent type key state) :
    Deletes type key state { code := 0, key := key, value := 0 } state := by
  refine ⟨ok, ?_, (absent.erase_eq lawful).symm, Or.inl ⟨rfl, rfl⟩⟩
  unfold deletedFrom
  rw [(absent_iff lawful).mp absent]

theorem Present.deletes (lawful : type.Lawful) {key : Word} {state : State} {index bin : Nat}
    (ok : state.Ok type) (present : Present type key state index)
    (filled : state.table.hasBins = true →
      bin < state.table.binsCount ∧ state.storage.bins bin = index + entryBase) :
    Deletes type key state
      { code := 1, key := (state.storage.entries index).key,
        value := (state.storage.entries index).record }
      (deleteEntry index bin state) := by
  obtain ⟨afterOk, erased⟩ := deleteEntry_contents lawful ok present filled
  refine ⟨afterOk, ?_, erased, Or.inr ⟨index, bin, present, rfl, rfl, rfl⟩⟩
  unfold deletedFrom
  rw [present.find_eq lawful ok]

/-- The search of a deletion: for a bin, or for an entry when there are no bins. -/
def findForDelete (type : HashType) (call : Comparison) (fuel : Nat) (key : Word) (state : State) :
    Option (Nat × State) :=
  if state.table.hasBins then findBinForEntry type call fuel (doHash type key) key state
  else findEntryLinear type call (doHash type key) key state

/-- One round of a deletion: its search was interrupted by a rebuild, or is the last. -/
theorem deleteLoop_succ (lawful : type.Lawful) (tolerant : Tolerant type call) {key : Word}
    {rounds : Nat} {before after : State} {deleted : Deleted} (ok : before.Ok type)
    (performed : deleteLoop type call fuel (doHash type key) key (rounds + 1) before =
      some (deleted, after)) :
    ∃ found middle, findForDelete type call fuel key before = some (found, middle) ∧
      middle.Ok type ∧
        (found = rebuiltIndex ∧
            deleteLoop type call fuel (doHash type key) key rounds middle = some (deleted, after) ∨
          found ≠ rebuiltIndex ∧ Deletes type key middle deleted after) := by
  unfold deleteLoop at performed
  unfold findForDelete
  cases hasBins : before.table.hasBins with
  | true =>
    rw [hasBins, if_pos rfl] at performed
    obtain ⟨⟨bin, middle⟩, searched, rest⟩ := Option.bind_eq_some_iff.mp performed
    obtain ⟨middleOk, finds⟩ := findBinForEntry_spec lawful tolerant ok hasBins searched
    dsimp only at rest
    refine ⟨bin, middle, searched, middleOk, ?_⟩
    by_cases rebuilt : bin = rebuiltIndex
    · rw [if_pos rebuilt] at rest
      exact Or.inl ⟨rebuilt, rest⟩
    · rw [if_neg rebuilt] at rest
      refine Or.inr ⟨rebuilt, ?_⟩
      obtain ⟨drift, ⟨none, absent⟩ | ⟨index, present, inside, filled⟩⟩ := finds.resolve_left rebuilt
      · rw [if_pos none] at rest
        cases rest
        exact absent.deletes lawful middleOk
      · have some : bin ≠ noIndex := by
          have small := middleOk.bin_lt inside
          unfold noIndex
          omega
        have place : indexOfBin (getBin middle.storage bin) = index := by
          unfold indexOfBin getBin
          rw [filled, if_neg (Nat.not_lt_of_le (Nat.le_add_left _ _)), Nat.add_sub_cancel]
        rw [if_neg some, place] at rest
        cases rest
        exact present.deletes lawful middleOk fun _ => ⟨inside, filled⟩
  | false =>
    rw [hasBins, if_neg Bool.false_ne_true] at performed
    obtain ⟨⟨index, middle⟩, searched, rest⟩ := Option.bind_eq_some_iff.mp performed
    obtain ⟨middleOk, finds⟩ := findEntryLinear_spec lawful tolerant ok searched
    dsimp only at rest
    refine ⟨index, middle, searched, middleOk, ?_⟩
    by_cases rebuilt : index = rebuiltIndex
    · rw [if_pos rebuilt] at rest
      exact Or.inl ⟨rebuilt, rest⟩
    · rw [if_neg rebuilt] at rest
      refine Or.inr ⟨rebuilt, ?_⟩
      obtain ⟨drift, ⟨none, absent⟩ | present⟩ := finds.resolve_left rebuilt
      · rw [if_pos none] at rest
        cases rest
        exact absent.deletes lawful middleOk
      · rw [if_neg (present.index_ne middleOk).1] at rest
        cases rest
        refine present.deletes lawful middleOk fun bins => ?_
        rw [drift.hasBins_eq, hasBins] at bins
        exact absurd bins Bool.false_ne_true

theorem deleteLoop_ok (lawful : type.Lawful) (tolerant : Tolerant type call) {key : Word} :
    ∀ (rounds : Nat) {before after : State} {deleted : Deleted}, before.Ok type →
      deleteLoop type call fuel (doHash type key) key rounds before = some (deleted, after) →
      after.Ok type := by
  intro rounds
  induction rounds with
  | zero =>
    intro before after deleted _ performed
    cases performed
  | succ rounds inductionHypothesis =>
    intro before after deleted ok performed
    obtain ⟨_, middle, _, middleOk, ⟨_, again⟩ | ⟨_, deletes⟩⟩ :=
      deleteLoop_succ lawful tolerant ok performed
    · exact inductionHypothesis middleOk again
    · exact deletes.1

/-! ### Clearing -/

theorem Sane.stClear {state : State} (sane : Sane state.table state.storage) :
    Sane (stClear state).table (stClear state).storage := by
  constructor
  · exact ⟨sane.featured.low, sane.featured.high, sane.featured.binPower, sane.featured.sizeInd⟩
  · exact Nat.le_refl _
  · exact Nat.zero_le _
  · exact fun index less => absurd less (Nat.not_lt_zero index)
  · exact fun less => absurd less (Nat.lt_irrefl _)
  · rfl
  · intro hasBins
    exact (initializeBins_ok state.storage hasBins).congr rfl (fun _ _ => rfl) rfl

theorem stClear_spec {state : State} (ok : state.Ok type) :
    (stClear state).Ok type ∧ (stClear state).contents = [] := by
  have none : liveEntries (stClear state).table (stClear state).storage = [] := rfl
  refine ⟨ok.sane.stClear.wellFormed ?_ ?_, ?_⟩
  · rw [none]
    exact fun entry member => absurd member List.not_mem_nil
  · rw [none]
    exact List.Pairwise.nil
  · unfold State.contents contents
    rw [none]
    rfl

/-! ### Creation and copies -/

/-- A header as `allocateTable` makes it, with a block of its own. -/
structure Created (size : Nat) (before after : Arena) (table : Table) : Prop where
  featured : Featured table
  power : getPower2 size = some table.entryPower
  numEntries : table.numEntries = 0
  entriesStart : table.entriesStart = 0
  entriesBound : table.entriesBound = 0
  fresh : before.requests ≤ table.entries
  used : table.entries < after.requests

theorem allocateTable_spec {size : Nat} {before after : Arena} {result : Option (Table × Storage)}
    (allocated : allocateTable size before = (result, after)) :
    after.granted = before.granted ∧ before.requests ≤ after.requests ∧
      (result = none ∧ (before.Refuses after ∨ 2 ^ 58 ≤ size) ∨
        ∃ table, result = some (table, initializeBins table freshStorage) ∧
          Created size before after table) := by
  unfold allocateTable Arena.alloc at allocated
  by_cases granted : before.granted before.requests = true
  · rw [if_pos granted] at allocated
    dsimp only at allocated
    split at allocated
    · rename_i missing
      cases allocated
      refine ⟨rfl, Nat.le_succ _, Or.inl ⟨rfl, Or.inr (Nat.le_of_not_lt fun small => ?_)⟩⟩
      obtain ⟨table, made, _⟩ := setFeatures_some _ small
      rw [missing] at made
      cases made
    · rename_i table set
      rcases allocateStorage_cases table { before with requests := before.requests + 1 } with
        ⟨arena, refused, same, requests, cause⟩ | ⟨valid, taken⟩
      · rw [refused] at allocated
        cases allocated
        refine ⟨same, Nat.le_of_succ_le requests, Or.inl ⟨rfl, ?_⟩⟩
        rcases cause with invalid | ⟨request, low, high, denied⟩
        · refine Or.inr (Nat.le_of_not_lt fun small => invalid ?_)
          obtain ⟨other, made, valid⟩ := setFeatures_some _ small
          rw [set] at made
          cases made
          exact valid
        · exact Or.inl ⟨request, Nat.le_of_succ_le low, high, denied⟩
      · rw [taken] at allocated
        cases allocated
        obtain ⟨featured, _, same⟩ := setFeatures_spec set valid
        obtain ⟨power, found, made⟩ := Option.bind_eq_some_iff.mp set
        obtain rfl := Option.some.inj made
        exact ⟨rfl, Nat.le_add_right _ 2, Or.inr ⟨_, rfl,
          ⟨featured.low, featured.high, featured.binPower, featured.sizeInd⟩, found, rfl, rfl, rfl,
          Nat.le_succ _, Nat.lt_succ_self _⟩⟩
  · rw [if_neg granted] at allocated
    cases allocated
    exact ⟨rfl, Nat.le_succ _, Or.inl ⟨rfl, Or.inl ⟨_, Nat.le_refl _, Nat.lt_succ_self _,
      eq_false_of_ne_true granted⟩⟩⟩

theorem Created.live {size : Nat} {before after : Arena} {table : Table}
    (created : Created size before after table) (storage : Storage) :
    liveEntries table storage = [] := by
  unfold liveEntries segment
  rw [created.entriesBound]
  rfl

theorem Created.sane {size : Nat} {before after : Arena} {table : Table}
    (created : Created size before after table) :
    Sane table (initializeBins table freshStorage) := by
  constructor
  · exact created.featured
  · rw [created.entriesStart]
    exact Nat.zero_le _
  · rw [created.entriesBound]
    exact Nat.zero_le _
  · rw [created.entriesStart]
    exact fun index less => absurd less (Nat.not_lt_zero index)
  · rw [created.entriesStart, created.entriesBound]
    exact fun less => absurd less (Nat.lt_irrefl _)
  · rw [created.live, created.numEntries]
    rfl
  · rw [created.entriesBound]
    exact initializeBins_ok freshStorage

theorem Created.ok {size : Nat} {before after : Arena} {table : Table}
    (created : Created size before after table) :
    WellFormed type table (initializeBins table freshStorage) ∧
      contents table (initializeBins table freshStorage) = [] := by
  refine ⟨created.sane.wellFormed ?_ ?_, ?_⟩
  · rw [created.live]
    exact fun entry member => absurd member List.not_mem_nil
  · rw [created.live]
    exact List.Pairwise.nil
  · unfold contents
    rw [created.live]
    rfl

/-- The size of the entries of a table leads to its own exponent. -/
theorem getPower2_pred {power found : Nat} (low : minimalPower2 ≤ power)
    (chosen : getPower2 (2 ^ power - 1) = some found) : found = power := by
  obtain ⟨_, _, above, minimal⟩ := getPower2Loop_spec _ _ chosen
  have positive := Nat.two_pow_pos power
  have atLeast : power ≤ found := by
    refine (Nat.pow_le_pow_iff_right Nat.one_lt_two).mp ?_
    omega
  rcases minimal with rfl | below
  · exact Nat.le_antisymm low atLeast
  · have less : found - 1 < power := by
      refine (Nat.pow_lt_pow_iff_right Nat.one_lt_two).mp ?_
      omega
    omega

/-- A copy is a table with the same entries and a block of its own. -/
theorem stCopy_sane {oldTable : Table} {oldStorage : Storage} {before after : Arena}
    {result : Option (Table × Storage)} (ok : Sane oldTable oldStorage)
    (copied : stCopy oldTable oldStorage before = (result, after)) :
    after.granted = before.granted ∧ before.requests ≤ after.requests ∧
      (result = none ∧ before.Refuses after ∨
        ∃ table, result = some (table, oldStorage) ∧ Sane table oldStorage ∧
          liveEntries table oldStorage = liveEntries oldTable oldStorage ∧
          before.requests ≤ table.entries ∧ table.entries < after.requests) := by
  have bounds := ok.featured.allocated_bounds
  unfold stCopy at copied
  cases allocated : allocateTable (oldTable.allocatedEntries - 1) before with
  | mk made arena =>
    obtain ⟨granted, requests, ⟨rfl, cause⟩ | ⟨table, rfl, created⟩⟩ := allocateTable_spec allocated
    · rw [allocated] at copied
      cases copied
      exact ⟨granted, requests, Or.inl ⟨rfl, cause.resolve_right (by omega)⟩⟩
    · rw [allocated] at copied
      cases copied
      have power := getPower2_pred ok.featured.low created.power
      refine ⟨granted, requests, Or.inr ⟨_, rfl, ?_, rfl, created.fresh, created.used⟩⟩
      refine ok.retable power ?_ ?_ rfl rfl rfl
      · exact created.featured.binPower.trans ((congrArg (· + 1) power).trans
          ok.featured.binPower.symm)
      · exact created.featured.sizeInd.trans ((congrArg sizeIndexForPower power).trans
          ok.featured.sizeInd.symm)

/-- A copy is a table with the same contents and a block of its own. -/
theorem stCopy_spec {oldTable : Table} {oldStorage : Storage} {before after : Arena}
    {result : Option (Table × Storage)} (ok : WellFormed type oldTable oldStorage)
    (copied : stCopy oldTable oldStorage before = (result, after)) :
    after.granted = before.granted ∧ before.requests ≤ after.requests ∧
      (result = none ∧ before.Refuses after ∨
        ∃ table, result = some (table, oldStorage) ∧ WellFormed type table oldStorage ∧
          contents table oldStorage = contents oldTable oldStorage ∧
          before.requests ≤ table.entries ∧ table.entries < after.requests) := by
  obtain ⟨granted, requests, refused | ⟨table, made, sane, live, fresh, used⟩⟩ :=
    stCopy_sane ok.sane copied
  · exact ⟨granted, requests, Or.inl refused⟩
  · refine ⟨granted, requests, Or.inr ⟨table, made, sane.wellFormed ?_ ?_, ?_, fresh, used⟩⟩
    · rw [live]
      exact ok.hashed
    · rw [live]
      exact ok.distinct
    · unfold contents
      rw [live]

/-! ### Updates -/

theorem stUpdate_ok (lawful : type.Lawful) (tolerant : Tolerant type call) {key : Word}
    {callback : UpdateCallback}
    (honest : ∀ stored record, type.compare stored (callback stored record true).1 = 0)
    {before after : State} {code : Int} (ok : before.Ok type)
    (updated : stUpdate type call fuel key callback before = some (code, after)) :
    after.Ok type := by
  obtain ⟨⟨index, middle⟩, searched, rest⟩ := Option.bind_eq_some_iff.mp updated
  obtain ⟨middleOk, answers⟩ := searchLoop_spec lawful tolerant fuel ok searched
  dsimp only at rest
  by_cases none : index = noIndex
  · simp only [none, ne_eq, not_true_eq_false, decide_false, Bool.false_eq_true, ↓reduceIte] at rest
    split at rest
    · cases rest
      exact middleOk
    · cases rest
      exact middleOk
    · exact insertLoop_ok lawful tolerant (Or.inl rfl) fuel middleOk rest
  · simp only [ne_eq, none, not_false_eq_true, decide_true, ↓reduceIte] at rest
    have present := answers.resolve_left fun absent => none absent.1
    split at rest
    · obtain ⟨⟨deleted, final⟩, performed, returned⟩ := Option.bind_eq_some_iff.mp rest
      cases returned
      exact deleteLoop_ok lawful tolerant fuel middleOk performed
    · cases rest
      exact middleOk
    · cases rest
      refine (setKeyRecord_contents lawful middleOk present ?_).1
      rw [WellFormed.keysEqual_iff lawful]
      exact lawful.trans ((WellFormed.keysEqual_iff lawful _ _).mp present.equal) (honest _ _)

end LaserD.Hash
