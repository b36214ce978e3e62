/-
This file proves what the searches find in a well-formed table: the live entry with an
equal key when there is one, a bin for a new entry when there is none, or that the table
was rebuilt under the search.

The comparisons may re-enter the table, as long as they are tolerated. The invariants of
the loops are about the entries and bins already passed, and deletions keep them.
-/

import LaserD.Hash.Invariant

namespace LaserD.Hash

variable {type : HashType} {call : Comparison}

/-! ### One entry -/

/-- No live entry has an equal key. -/
def Absent (type : HashType) (key : Word) (state : State) : Prop :=
  ∀ index < state.table.entriesBound, (state.storage.entries index).live = true →
    ¬ keysEqual type key (state.storage.entries index).key

/-- A live entry has an equal key. -/
structure Present (type : HashType) (key : Word) (state : State) (index : Nat) : Prop where
  inside : index < state.table.entriesBound
  live : (state.storage.entries index).live = true
  equal : keysEqual type key (state.storage.entries index).key

/-- One entry compared: unless the table was rebuilt, the answer is about the entry as it is
afterwards. -/
theorem entryMatches_spec (lawful : type.Lawful) (tolerant : Tolerant type call)
    {before after : State} {index : Nat} {key : Word} {equal rebuilt : Bool}
    (ok : before.Ok type) (inside : index < before.table.entriesBound)
    (matched : entryMatches type call index (doHash type key) key before =
      some (equal, rebuilt, after)) :
    after.Ok type ∧ (rebuilt = true ∨ rebuilt = false ∧ Drift before after ∧
      (equal = true → Present type key after index) ∧
      (equal = false → (after.storage.entries index).live = true →
        ¬ keysEqual type key (after.storage.entries index).key)) := by
  unfold entryMatches at matched
  dsimp only at matched
  by_cases sameHash : (before.storage.entries index).hash = doHash type key
  · rw [if_pos sameHash] at matched
    have live : (before.storage.entries index).live = true := by
      rw [live_iff, sameHash]
      exact doHash_ne_deleted type key
    by_cases sameKey : key = (before.storage.entries index).key
    · rw [if_pos sameKey] at matched
      cases matched
      exact ⟨ok, Or.inr ⟨rfl, Drift.refl _, fun _ => ⟨inside, live, Or.inl sameKey⟩,
        fun different => absurd different (by decide)⟩⟩
    · rw [if_neg sameKey] at matched
      obtain ⟨result, called, returned⟩ := Option.bind_eq_some_iff.mp matched
      cases returned
      obtain ⟨afterOk, tolerated⟩ := tolerant ok ⟨index, inside, live, rfl⟩ called
      refine ⟨afterOk, ?_⟩
      rcases tolerated with rebuilds | ⟨drift, kept⟩
      · exact Or.inl (decide_eq_true rebuilds)
      · by_cases rebuilds : before.table.rebuildsNum = after.table.rebuildsNum
        · refine Or.inr ⟨decide_eq_false (not_not.mpr rebuilds), drift, fun equal => ?_,
            fun different _ same => ?_⟩
          · obtain ⟨other, otherInside, otherLive, otherKey⟩ := kept (of_decide_eq_true equal)
            have otherBefore := drift.bound ▸ otherInside
            have same : other = index := by
              refine WellFormed.index_eq lawful ok otherBefore inside
                (drift.live_before otherBefore otherLive).1 live ?_
              rw [← drift.key other otherBefore, otherKey]
              exact lawful.refl _
            rw [same] at otherInside otherLive otherKey
            refine ⟨otherInside, otherLive, Or.inr ?_⟩
            rw [otherKey]
            exact of_decide_eq_true equal
          · rw [WellFormed.keysEqual_iff lawful, drift.key index inside] at same
            exact of_decide_eq_false different same
        · exact Or.inl (decide_eq_true rebuilds)
  · rw [if_neg sameHash] at matched
    cases matched
    refine ⟨ok, Or.inr ⟨rfl, Drift.refl _, fun equal => absurd equal (by decide),
      fun _ live same => sameHash ?_⟩⟩
    rw [WellFormed.hash_eq ok inside live, WellFormed.doHash_eq lawful same]

/-! ### Linear search -/

/-- What a search for the entry of a key returns. -/
def Finds (type : HashType) (key : Word) (before after : State) (index : Nat) : Prop :=
  index = rebuiltIndex ∨ Drift before after ∧
    (index = noIndex ∧ Absent type key after ∨ Present type key after index)

theorem findEntryLinearLoop_spec (lawful : type.Lawful) (tolerant : Tolerant type call)
    {key : Word} :
    ∀ (remaining index : Nat) {before after : State} {found : Nat}, before.Ok type →
      index + remaining = before.table.entriesBound →
      (∀ passed < index, (before.storage.entries passed).live = true →
        ¬ keysEqual type key (before.storage.entries passed).key) →
      findEntryLinearLoop type call (doHash type key) key remaining index before =
        some (found, after) →
      after.Ok type ∧ Finds type key before after found := by
  intro remaining
  induction remaining with
  | zero =>
    intro index before after found ok whole passed searched
    cases searched
    rw [Nat.add_zero] at whole
    exact ⟨ok, Or.inr ⟨Drift.refl _, Or.inl ⟨rfl, fun other inside => passed other (whole ▸ inside)⟩⟩⟩
  | succ remaining inductionHypothesis =>
    intro index before after found ok whole passed searched
    obtain ⟨⟨equal, rebuilt, middle⟩, matched, searched⟩ := Option.bind_eq_some_iff.mp searched
    obtain ⟨middleOk, outcome⟩ := entryMatches_spec lawful tolerant ok (by omega) matched
    dsimp only at searched
    rcases outcome with rfl | ⟨rfl, drift, present, different⟩
    · rw [if_pos rfl] at searched
      cases searched
      exact ⟨middleOk, Or.inl rfl⟩
    · rw [if_neg Bool.false_ne_true] at searched
      cases equal with
      | true =>
        rw [if_pos rfl] at searched
        cases searched
        exact ⟨middleOk, Or.inr ⟨drift, Or.inr (present rfl)⟩⟩
      | false =>
        rw [if_neg Bool.false_ne_true] at searched
        have passedNext : ∀ earlier < index + 1, (middle.storage.entries earlier).live = true →
            ¬ keysEqual type key (middle.storage.entries earlier).key := by
          intro earlier less live equal
          rcases Nat.lt_succ_iff_lt_or_eq.mp less with earlierLess | rfl
          · have inside : earlier < before.table.entriesBound := by omega
            rw [drift.key earlier inside] at equal
            exact passed earlier earlierLess (drift.live_before inside live).1 equal
          · exact different rfl live equal
        obtain ⟨afterOk, finds⟩ := inductionHypothesis (index + 1) middleOk
          (by rw [drift.bound]; omega) passedNext searched
        refine ⟨afterOk, ?_⟩
        rcases finds with rebuilt | ⟨later, outcome⟩
        · exact Or.inl rebuilt
        · exact Or.inr ⟨drift.trans later, outcome⟩

theorem findEntryLinear_spec (lawful : type.Lawful) (tolerant : Tolerant type call) {key : Word}
    {before after : State} {found : Nat} (ok : before.Ok type)
    (searched : findEntryLinear type call (doHash type key) key before = some (found, after)) :
    after.Ok type ∧ Finds type key before after found := by
  refine findEntryLinearLoop_spec lawful tolerant _ _ ok (Nat.add_sub_cancel' ok.start_le) ?_ searched
  intro passed less live
  exact absurd (WellFormed.start_le_of_live ok live) (Nat.not_le_of_lt less)

/-! ### Search along a probe sequence -/

/-- A bin a new entry of a hash may be put into: it holds none, and no bin before it on the
probe sequence is empty. -/
structure Reserves (table : Table) (storage : Storage) (hash : Word) (bin : Nat) : Prop where
  free : storage.bins bin < entryBase
  reached : ∃ n, table.probe hash n = bin ∧ ∀ m < n, storage.bins (table.probe hash m) ≠ emptyBin

theorem Reserves.inside {table : Table} {storage : Storage} {hash : Word} {bin : Nat}
    (reserves : Reserves table storage hash bin) : bin < table.binsCount := by
  obtain ⟨n, rfl, _⟩ := reserves.reached
  exact table.probe_lt hash n

/-- How a search along a probe sequence ends. -/
def Probed (type : HashType) (key : Word) (before after : State) : Probe → Prop
  | .absent bin => Drift before after ∧ Absent type key after ∧
      Reserves after.table after.storage (doHash type key) bin
  | .found bin index => Drift before after ∧ Present type key after index ∧
      bin < after.table.binsCount ∧ after.storage.bins bin = index + entryBase
  | .rebuilt => True

/-- What holds when a probe loop has passed the first bins of the sequence. -/
structure Passed (type : HashType) (key : Word) (state : State) (n firstDeleted : Nat) :
    Prop where
  nonempty : ∀ m < n, state.storage.bins (state.table.probe (doHash type key) m) ≠ emptyBin
  different : ∀ m < n, ∀ index,
    state.storage.bins (state.table.probe (doHash type key) m) = index + entryBase →
      ¬ keysEqual type key (state.storage.entries index).key
  deleted : firstDeleted = noIndex ∨
    ∃ m < n, firstDeleted = state.table.probe (doHash type key) m ∧
      state.storage.bins firstDeleted = deletedBin

theorem Passed.drift {key : Word} {before after : State} {n firstDeleted : Nat}
    (ok : before.Ok type) (hasBins : before.table.hasBins = true)
    (passed : Passed type key before n firstDeleted) (drift : Drift before after) :
    Passed type key after n firstDeleted where
  nonempty m less empty := by
    rw [drift.probe_eq, drift.empty_iff (before.table.probe_lt _ m)] at empty
    exact passed.nonempty m less empty
  different m less index entry equal := by
    rw [drift.probe_eq] at entry
    have was := drift.entry_before (before.table.probe_lt _ m) entry
    have inside := ((ok.bins hasBins).entry (before.table.probe_lt _ m)
      (was ▸ Nat.le_add_left _ _)).1
    rw [was, Nat.add_sub_cancel] at inside
    rw [drift.key index inside] at equal
    exact passed.different m less index was equal
  deleted := by
    rcases passed.deleted with none | ⟨m, less, place, deleted⟩
    · exact Or.inl none
    · refine Or.inr ⟨m, less, ?_, ?_⟩
      · rw [drift.probe_eq]
        exact place
      · exact drift.deleted_of_deleted (place ▸ before.table.probe_lt _ m) deleted

/-- One more bin passed. -/
theorem Passed.next {key : Word} {state : State} {n firstDeleted : Nat}
    (passed : Passed type key state n firstDeleted)
    (nonempty : state.storage.bins (state.table.probe (doHash type key) n) ≠ emptyBin)
    (different : ∀ index,
      state.storage.bins (state.table.probe (doHash type key) n) = index + entryBase →
        ¬ keysEqual type key (state.storage.entries index).key) :
    Passed type key state (n + 1) firstDeleted where
  nonempty m less := by
    rcases Nat.lt_succ_iff_lt_or_eq.mp less with earlier | rfl
    · exact passed.nonempty m earlier
    · exact nonempty
  different m less := by
    rcases Nat.lt_succ_iff_lt_or_eq.mp less with earlier | rfl
    · exact passed.different m earlier
    · exact different
  deleted := by
    rcases passed.deleted with none | ⟨m, less, place⟩
    · exact Or.inl none
    · exact Or.inr ⟨m, less.trans (Nat.lt_succ_self n), place⟩

/-- A search that meets an empty bin has passed every bin that could hold the key. -/
theorem Passed.absent (lawful : type.Lawful) {key : Word} {state : State} {n firstDeleted : Nat}
    (ok : state.Ok type) (hasBins : state.table.hasBins = true)
    (passed : Passed type key state n firstDeleted)
    (empty : state.storage.bins (state.table.probe (doHash type key) n) = emptyBin) :
    Absent type key state := by
  intro index inside live equal
  obtain ⟨place, entry, before⟩ := (ok.bins hasBins).reach inside live
  rw [WellFormed.hash_eq ok inside live, ← WellFormed.doHash_eq lawful equal] at entry before
  rcases Nat.lt_trichotomy place n with less | same | greater
  · exact passed.different place less index entry equal
  · rw [same, empty] at entry
    unfold emptyBin entryBase at entry
    omega
  · exact before n greater empty

theorem Passed.reserves {key : Word} {state : State} {n firstDeleted : Nat}
    (passed : Passed type key state n firstDeleted)
    (empty : state.storage.bins (state.table.probe (doHash type key) n) = emptyBin) :
    Reserves state.table state.storage (doHash type key)
      (if firstDeleted = noIndex then state.table.probe (doHash type key) n else firstDeleted) := by
  by_cases none : firstDeleted = noIndex
  · rw [if_pos none]
    refine ⟨?_, n, rfl, passed.nonempty⟩
    rw [empty]
    decide
  · rw [if_neg none]
    obtain ⟨m, less, place, deleted⟩ := passed.deleted.resolve_left none
    refine ⟨?_, m, place.symm, fun earlier before => passed.nonempty earlier (before.trans less)⟩
    rw [deleted]
    decide

theorem probeLoop_spec (lawful : type.Lawful) (tolerant : Tolerant type call) {key : Word} :
    ∀ (fuel n firstDeleted : Nat) {before after : State} {probe : Probe}, before.Ok type →
      before.table.hasBins = true → Passed type key before n firstDeleted →
      probeLoop type call (doHash type key) key fuel
        (before.table.probeState (doHash type key) n).1
        (before.table.probeState (doHash type key) n).2 firstDeleted before =
          some (probe, after) →
      after.Ok type ∧ Probed type key before after probe := by
  intro fuel
  induction fuel with
  | zero =>
    intro n firstDeleted before after probe _ _ _ searched
    cases searched
  | succ fuel inductionHypothesis =>
    intro n firstDeleted before after probe ok hasBins passed searched
    have inside := before.table.probe_lt (doHash type key) n
    unfold probeLoop at searched
    dsimp only at searched
    by_cases empty : getBin before.storage (before.table.probeState (doHash type key) n).1 = emptyBin
    · rw [if_pos empty] at searched
      cases searched
      exact ⟨ok, Drift.refl _, passed.absent lawful ok hasBins empty, passed.reserves empty⟩
    · rw [if_neg empty] at searched
      by_cases deleted :
          getBin before.storage (before.table.probeState (doHash type key) n).1 = deletedBin
      · rw [if_pos deleted] at searched
        have noEntry : ∀ index,
            before.storage.bins (before.table.probe (doHash type key) n) = index + entryBase →
              ¬ keysEqual type key (before.storage.entries index).key := by
          intro index entry
          rw [show before.storage.bins (before.table.probe (doHash type key) n) = deletedBin
            from deleted] at entry
          unfold deletedBin entryBase at entry
          omega
        have nextPassed := passed.next empty noEntry
        refine inductionHypothesis (n + 1) _ ok hasBins
          { nextPassed with deleted := ?_ } searched
        · by_cases none : firstDeleted = noIndex
          · rw [if_pos none]
            exact Or.inr ⟨n, Nat.lt_succ_self n, rfl, deleted⟩
          · rw [if_neg none]
            obtain ⟨m, less, place⟩ := passed.deleted.resolve_left none
            exact Or.inr ⟨m, less.trans (Nat.lt_succ_self n), place⟩
      · rw [if_neg deleted] at searched
        have entry : entryBase ≤ before.storage.bins (before.table.probe (doHash type key) n) := by
          have notEmpty : before.storage.bins (before.table.probe (doHash type key) n) ≠ 0 := empty
          have notDeleted : before.storage.bins (before.table.probe (doHash type key) n) ≠ 1 :=
            deleted
          unfold entryBase
          omega
        obtain ⟨entryInside, _⟩ := (ok.bins hasBins).entry inside entry
        obtain ⟨⟨equal, rebuilt, middle⟩, matched, searched⟩ := Option.bind_eq_some_iff.mp searched
        obtain ⟨middleOk, outcome⟩ := entryMatches_spec lawful tolerant ok entryInside matched
        dsimp only at searched
        rcases outcome with rfl | ⟨rfl, drift, present, different⟩
        · rw [if_pos rfl] at searched
          cases searched
          exact ⟨middleOk, trivial⟩
        · rw [if_neg Bool.false_ne_true] at searched
          have middleBins : middle.table.hasBins = true := drift.hasBins_eq.trans hasBins
          cases equal with
          | true =>
            rw [if_pos rfl] at searched
            cases searched
            refine ⟨middleOk, drift, present rfl, drift.binsCount_eq ▸ inside, ?_⟩
            obtain ⟨place, filled, _⟩ := (middleOk.bins middleBins).reach (present rfl).inside
              (present rfl).live
            have placeInside : ∀ hash, after.table.probe hash place < before.table.binsCount :=
              fun hash => drift.binsCount_eq ▸ after.table.probe_lt hash place
            have was := drift.entry_before (placeInside _) filled
            have same := (ok.bins hasBins).unique inside (placeInside _) entry
              ((Nat.sub_add_cancel entry).symm.trans was.symm)
            exact (congrArg after.storage.bins same).trans filled
          | false =>
            rw [if_neg Bool.false_ne_true, ← drift.probeState_eq] at searched
            have nextPassed : Passed type key middle (n + 1) firstDeleted := by
              refine (passed.drift ok hasBins drift).next ?_ ?_
              · rw [drift.probe_eq, Ne, drift.empty_iff inside]
                exact empty
              · intro index filled
                have live := ((middleOk.bins middleBins).entry (middle.table.probe_lt _ n)
                  (filled ▸ Nat.le_add_left _ _)).2
                rw [filled, Nat.add_sub_cancel] at live
                rw [drift.probe_eq] at filled
                rw [drift.entry_before inside filled, Nat.add_sub_cancel] at different
                exact different rfl live
            obtain ⟨afterOk, probed⟩ :=
              inductionHypothesis (n + 1) firstDeleted middleOk middleBins nextPassed searched
            refine ⟨afterOk, ?_⟩
            cases probe with
            | absent bin => exact ⟨drift.trans probed.1, probed.2⟩
            | found bin index => exact ⟨drift.trans probed.1, probed.2⟩
            | rebuilt => trivial

theorem probeFor_spec (lawful : type.Lawful) (tolerant : Tolerant type call) {key : Word}
    {fuel : Nat} {before after : State} {probe : Probe} (ok : before.Ok type)
    (hasBins : before.table.hasBins = true)
    (searched : probeFor type call fuel (doHash type key) key before = some (probe, after)) :
    after.Ok type ∧ Probed type key before after probe := by
  refine probeLoop_spec lawful tolerant fuel 0 noIndex ok hasBins ⟨?_, ?_, Or.inl rfl⟩ searched
  · exact fun m less => absurd less (Nat.not_lt_zero m)
  · exact fun m less => absurd less (Nat.not_lt_zero m)

/-! ### The searches of the operations -/

theorem findEntryIndex_spec (lawful : type.Lawful) (tolerant : Tolerant type call) {key : Word}
    {fuel index : Nat} {before after : State} (ok : before.Ok type)
    (searched : findEntryIndex type call fuel (doHash type key) key before = some (index, after)) :
    after.Ok type ∧ Finds type key before after index := by
  unfold findEntryIndex at searched
  cases hasBins : before.table.hasBins with
  | false =>
    rw [hasBins, if_neg Bool.false_ne_true] at searched
    exact findEntryLinear_spec lawful tolerant ok searched
  | true =>
    rw [hasBins, if_pos rfl] at searched
    obtain ⟨⟨probe, middle⟩, probed, returned⟩ := Option.bind_eq_some_iff.mp searched
    obtain ⟨middleOk, outcome⟩ := probeFor_spec lawful tolerant ok hasBins probed
    cases probe with
    | absent bin =>
      cases returned
      exact ⟨middleOk, Or.inr ⟨outcome.1, Or.inl ⟨rfl, outcome.2.1⟩⟩⟩
    | found bin found =>
      cases returned
      exact ⟨middleOk, Or.inr ⟨outcome.1, Or.inr outcome.2.1⟩⟩
    | rebuilt =>
      cases returned
      exact ⟨middleOk, Or.inl rfl⟩

/-- Where a new entry would go: a reserved bin, when there are bins. -/
def Place (type : HashType) (key : Word) (state : State) (bin : Nat) : Prop :=
  if state.table.hasBins then
    bin ≠ noIndex ∧ Reserves state.table state.storage (doHash type key) bin
  else bin = noIndex

/-- An index of a table is none of the reserved values. -/
theorem WellFormed.index_lt {table : Table} {storage : Storage}
    (ok : WellFormed type table storage) {index : Nat} (inside : index < table.entriesBound) :
    index < 2 ^ 58 := by
  refine Nat.lt_of_lt_of_le inside (Nat.le_trans ok.bound_le ?_)
  exact Nat.pow_le_pow_right Nat.two_pos ok.featured.high

theorem WellFormed.bin_lt {table : Table} {storage : Storage}
    (ok : WellFormed type table storage) {bin : Nat} (inside : bin < table.binsCount) :
    bin < 2 ^ 59 := by
  refine Nat.lt_of_lt_of_le inside ?_
  unfold Table.binsCount
  rw [ok.featured.binPower]
  exact Nat.pow_le_pow_right Nat.two_pos (Nat.succ_le_succ ok.featured.high)

theorem findEntryAndReserve_spec (lawful : type.Lawful) (tolerant : Tolerant type call)
    {key : Word} {fuel index bin : Nat} {before after : State} (ok : before.Ok type)
    (searched : findEntryAndReserve type call fuel (doHash type key) key before =
      some (index, bin, after)) :
    after.Ok type ∧ (index = rebuiltIndex ∨ Drift before after ∧
      (index = noIndex ∧ Absent type key after ∧ Place type key after bin ∨
        Present type key after index)) := by
  unfold findEntryAndReserve at searched
  cases hasBins : before.table.hasBins with
  | false =>
    rw [hasBins, if_pos (by decide)] at searched
    obtain ⟨⟨found, middle⟩, linear, returned⟩ := Option.bind_eq_some_iff.mp searched
    obtain ⟨middleOk, finds⟩ := findEntryLinear_spec lawful tolerant ok linear
    cases returned
    refine ⟨middleOk, ?_⟩
    rcases finds with rebuilt | ⟨drift, ⟨none, absent⟩ | present⟩
    · exact Or.inl rebuilt
    · refine Or.inr ⟨drift, Or.inl ⟨none, absent, ?_⟩⟩
      unfold Place
      rw [drift.hasBins_eq, hasBins, if_neg Bool.false_ne_true]
    · exact Or.inr ⟨drift, Or.inr present⟩
  | true =>
    rw [hasBins, if_neg (by decide)] at searched
    obtain ⟨⟨probe, middle⟩, probed, returned⟩ := Option.bind_eq_some_iff.mp searched
    obtain ⟨middleOk, outcome⟩ := probeFor_spec lawful tolerant ok hasBins probed
    cases probe with
    | absent reserved =>
      cases returned
      refine ⟨middleOk, Or.inr ⟨outcome.1, Or.inl ⟨rfl, outcome.2.1, ?_⟩⟩⟩
      unfold Place
      rw [outcome.1.hasBins_eq, hasBins, if_pos rfl]
      refine ⟨?_, outcome.2.2⟩
      have small := middleOk.bin_lt outcome.2.2.inside
      unfold noIndex
      omega
    | found reserved found =>
      cases returned
      exact ⟨middleOk, Or.inr ⟨outcome.1, Or.inr outcome.2.1⟩⟩
    | rebuilt =>
      cases returned
      exact ⟨middleOk, Or.inl rfl⟩

/-- A search for a bin to insert into. -/
theorem findInsertionBinLoop_spec {table : Table} {storage : Storage} {hash : Word} :
    ∀ (fuel n firstDeleted : Nat) {bin : Nat},
      (∀ m < n, storage.bins (table.probe hash m) ≠ emptyBin) →
      (firstDeleted = noIndex ∨ ∃ m < n, firstDeleted = table.probe hash m ∧
        storage.bins firstDeleted = deletedBin) →
      findInsertionBinLoop table storage fuel (table.probeState hash n).1
        (table.probeState hash n).2 firstDeleted = some bin →
      Reserves table storage hash bin := by
  intro fuel
  induction fuel with
  | zero =>
    intro n firstDeleted bin _ _ searched
    cases searched
  | succ fuel inductionHypothesis =>
    intro n firstDeleted bin nonempty first searched
    unfold findInsertionBinLoop at searched
    dsimp only at searched
    by_cases empty : getBin storage (table.probeState hash n).1 = emptyBin
    · rw [if_pos empty] at searched
      obtain rfl := Option.some.inj searched
      by_cases none : firstDeleted = noIndex
      · rw [if_pos none]
        refine ⟨?_, n, rfl, nonempty⟩
        rw [show storage.bins (table.probeState hash n).1 = emptyBin from empty]
        decide
      · rw [if_neg none]
        obtain ⟨m, less, place, deleted⟩ := first.resolve_left none
        refine ⟨?_, m, place.symm, fun earlier before => nonempty earlier (before.trans less)⟩
        rw [deleted]
        decide
    · rw [if_neg empty] at searched
      refine inductionHypothesis (n + 1) _ ?_ ?_ searched
      · intro m less
        rcases Nat.lt_succ_iff_lt_or_eq.mp less with earlier | rfl
        · exact nonempty m earlier
        · exact empty
      · by_cases deleted :
          getBin storage (table.probeState hash n).1 = deletedBin ∧ firstDeleted = noIndex
        · rw [if_pos deleted]
          exact Or.inr ⟨n, Nat.lt_succ_self n, rfl, deleted.1⟩
        · rw [if_neg deleted]
          rcases first with none | ⟨m, less, place⟩
          · exact Or.inl none
          · exact Or.inr ⟨m, less.trans (Nat.lt_succ_self n), place⟩

theorem findInsertionBin_spec {table : Table} {storage : Storage} {hash : Word} {fuel bin : Nat}
    (searched : findInsertionBin fuel table storage hash = some bin) :
    Reserves table storage hash bin := by
  refine findInsertionBinLoop_spec fuel 0 noIndex ?_ (Or.inl rfl) searched
  exact fun m less => absurd less (Nat.not_lt_zero m)

end LaserD.Hash
