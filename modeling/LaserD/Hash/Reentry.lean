/-
This file is about comparisons that re-enter the table they are made for.

What the comparisons of a run do is a list of scripts: each comparison, nested ones
included, takes the first script and performs its calls on the table. A search notices a
rebuild and begins again, but nothing else. It keeps the capacity, the bound and the bin it
has reserved from before the comparison, so a comparison that adds an entry without a
rebuild, or that removes the entry it is asked about, breaks the table. Comparisons that do
neither keep it well formed.
-/

import LaserD.Hash.Refinement

namespace LaserD.Hash

/-! ### Scripts -/

section Scripts

variable (type : HashType) (fuel : Nat)

/-- One call back into the table. -/
def Reentry.perform (call : Comparison) (reentry : Reentry) (state : State) : Option State :=
  match reentry with
  | .insert key value => do
    let (_, state) ← stInsert type call fuel key value state
    return state
  | .delete key => do
    let (_, state) ← stDelete type call fuel key state
    return state
  | .lookup key => do
    let (_, state) ← stLookup type call fuel key state
    return state

/-- The calls of a script, one after another. -/
def performScript (call : Comparison) : List Reentry → State → Option State
  | [], state => some state
  | reentry :: rest, state => do
    let state ← reentry.perform type fuel call state
    performScript call rest state

/-- A comparison takes the first script and performs it; the comparisons its calls make are
nested. -/
def reenterWith (nested : Comparison) : Comparison := fun _ _ state =>
  match state.scripts with
  | [] => some state
  | script :: rest => performScript type fuel nested script { state with scripts := rest }

/-- Comparisons that re-enter the table, nested up to a depth. -/
def reenter : (depth : Nat) → Comparison
  | 0 => fun _ _ _ => none
  | depth + 1 => reenterWith type fuel (reenter depth)

end Scripts

instance (before after : State) : Decidable (Drift before after) :=
  decidable_of_iff
    (after.table.entryPower = before.table.entryPower ∧
      after.table.binPower = before.table.binPower ∧
      after.table.entriesBound = before.table.entriesBound ∧
      (∀ index < before.table.entriesBound,
        (after.storage.entries index).key = (before.storage.entries index).key) ∧
      (∀ index < before.table.entriesBound,
        (after.storage.entries index).hash = (before.storage.entries index).hash ∨
          (after.storage.entries index).hash = deletedHash) ∧
      ∀ bin < before.table.binsCount,
        after.storage.bins bin = before.storage.bins bin ∨
          entryBase ≤ before.storage.bins bin ∧ after.storage.bins bin = deletedBin)
    ⟨fun ⟨entryPower, binPower, bound, key, hash, bins⟩ =>
        ⟨entryPower, binPower, bound, key, hash, fun bin inside => bins bin inside⟩,
      fun drift => ⟨drift.entryPower, drift.binPower, drift.bound, drift.key, drift.hash,
        drift.bins⟩⟩

instance (type : HashType) (left right : Word) (before after : State) :
    Decidable (Tolerated type left right before after) :=
  inferInstanceAs (Decidable (_ ∨ _ ∧ (_ → _)))

section Watching

variable (type : HashType) (fuel : Nat)

/-- The same comparisons, stopped when one is not tolerated. -/
def watch : (depth : Nat) → Comparison
  | 0 => fun _ _ _ => none
  | depth + 1 => fun left right state => do
    let after ← reenterWith type fuel (watch depth) left right state
    if Tolerated type left right state after then return after else none

end Watching

/-! ### Watched comparisons keep the table well formed -/

variable {type : HashType} {call : Comparison} {fuel : Nat}

theorem Reentry.perform_ok (lawful : type.Lawful) (tolerant : Tolerant type call)
    {reentry : Reentry} {before after : State} (ok : before.Ok type)
    (performed : reentry.perform type fuel call before = some after) : after.Ok type := by
  cases reentry with
  | insert key value =>
    obtain ⟨⟨code, state⟩, inserted, returned⟩ := Option.bind_eq_some_iff.mp performed
    obtain rfl := Option.some.inj returned
    exact insertLoop_ok lawful tolerant (Or.inl rfl) fuel ok inserted
  | delete key =>
    obtain ⟨⟨deleted, state⟩, deletion, returned⟩ := Option.bind_eq_some_iff.mp performed
    obtain rfl := Option.some.inj returned
    exact deleteLoop_ok lawful tolerant fuel ok deletion
  | lookup key =>
    obtain ⟨⟨record, state⟩, looked, returned⟩ := Option.bind_eq_some_iff.mp performed
    obtain rfl := Option.some.inj returned
    exact (@lookupWith_spec type call fuel lawful tolerant Entry.record Prod.snd (fun _ => rfl)
      _ _ _ _ ok looked).1

theorem performScript_ok (lawful : type.Lawful) (tolerant : Tolerant type call) :
    ∀ (script : List Reentry) {before after : State}, before.Ok type →
      performScript type fuel call script before = some after → after.Ok type := by
  intro script
  induction script with
  | nil =>
    intro before after ok performed
    obtain rfl := Option.some.inj performed
    exact ok
  | cons reentry rest inductionHypothesis =>
    intro before after ok performed
    obtain ⟨middle, first, rest⟩ := Option.bind_eq_some_iff.mp performed
    exact inductionHypothesis (reentry.perform_ok lawful tolerant ok first) rest

theorem watch_tolerant (lawful : type.Lawful) (depth : Nat) :
    Tolerant type (watch type fuel depth) := by
  induction depth with
  | zero =>
    intro left right before after _ _ called
    cases called
  | succ depth inductionHypothesis =>
    intro left right before after ok _ called
    obtain ⟨result, entered, rest⟩ := Option.bind_eq_some_iff.mp called
    by_cases tolerated : Tolerated type left right before result
    · rw [if_pos tolerated] at rest
      obtain rfl := Option.some.inj rest
      refine ⟨?_, tolerated⟩
      unfold reenterWith at entered
      cases scripts : before.scripts with
      | nil =>
        rw [scripts] at entered
        obtain rfl := Option.some.inj entered
        exact ok
      | cons script others =>
        rw [scripts] at entered
        have restOk : State.Ok type { before with scripts := others } := ok
        exact performScript_ok lawful inductionHypothesis script restOk entered
    · rw [if_neg tolerated] at rest
      cases rest

/-- Every operation keeps the table well formed under comparisons that are tolerated. -/
theorem Call.perform_ok (lawful : type.Lawful) (tolerant : Tolerant type call) {outer : Call}
    {before after : State} {reply : Reply} (ok : before.Ok type)
    (admissible : outer.Admissible type before.contents)
    (performed : outer.perform type call fuel before = some (reply, after)) : after.Ok type := by
  cases outer with
  | insert key value =>
    obtain ⟨⟨code, state⟩, inserted, returned⟩ := Option.bind_eq_some_iff.mp performed
    cases returned
    exact insertLoop_ok lawful tolerant (Or.inl rfl) fuel ok inserted
  | insert2 key value transform =>
    obtain ⟨⟨code, state⟩, inserted, returned⟩ := Option.bind_eq_some_iff.mp performed
    cases returned
    exact insertLoop_ok lawful tolerant (Or.inr admissible) fuel ok inserted
  | addDirect key value =>
    obtain ⟨⟨code, state⟩, added, returned⟩ := Option.bind_eq_some_iff.mp performed
    cases returned
    exact (stAddDirect_spec lawful ok ((absent_iff lawful).mpr admissible) added).1
  | delete key =>
    obtain ⟨⟨deleted, state⟩, performed, returned⟩ := Option.bind_eq_some_iff.mp performed
    cases returned
    exact deleteLoop_ok lawful tolerant fuel ok performed
  | shift key =>
    obtain ⟨⟨deleted, state⟩, performed, returned⟩ := Option.bind_eq_some_iff.mp performed
    cases returned
    unfold stShift at performed
    by_cases none : before.table.numEntries = 0
    · rw [if_pos none] at performed
      cases performed
      exact ok
    · rw [if_neg none] at performed
      exact deleteLoop_ok lawful tolerant fuel ok performed
  | update key callback =>
    obtain ⟨⟨code, state⟩, updated, returned⟩ := Option.bind_eq_some_iff.mp performed
    cases returned
    exact stUpdate_ok lawful tolerant admissible ok updated
  | clear =>
    cases performed
    exact (stClear_spec ok).1
  | lookup key =>
    obtain ⟨⟨record, state⟩, looked, returned⟩ := Option.bind_eq_some_iff.mp performed
    cases returned
    exact (@lookupWith_spec type call fuel lawful tolerant Entry.record Prod.snd (fun _ => rfl)
      _ _ _ _ ok looked).1
  | isMember key =>
    obtain ⟨⟨member, state⟩, isMember, returned⟩ := Option.bind_eq_some_iff.mp performed
    obtain ⟨⟨record, state⟩, looked, returned'⟩ := Option.bind_eq_some_iff.mp isMember
    cases returned
    cases returned'
    exact (@lookupWith_spec type call fuel lawful tolerant Entry.record Prod.snd (fun _ => rfl)
      _ _ _ _ ok looked).1
  | getKey key =>
    obtain ⟨⟨stored, state⟩, looked, returned⟩ := Option.bind_eq_some_iff.mp performed
    cases returned
    exact (@lookupWith_spec type call fuel lawful tolerant Entry.key Prod.fst (fun _ => rfl)
      _ _ _ _ ok looked).1
  | keys size =>
    cases performed
    exact ok
  | values size =>
    cases performed
    exact ok
  | tableSize =>
    cases performed
    exact ok

/-! ### A watched run is the run -/

/-- Whatever one comparison returns, the other returns. -/
def Within (first second : Comparison) : Prop :=
  ∀ {left right before after}, first left right before = some after →
    second left right before = some after

theorem bind_within {α β : Type} {first second : Option α} {next next' : α → Option β} {result : β}
    (same : ∀ {a}, first = some a → second = some a)
    (rest : ∀ {a}, next a = some result → next' a = some result)
    (bound : first.bind next = some result) : second.bind next' = some result := by
  obtain ⟨a, isFirst, isNext⟩ := Option.bind_eq_some_iff.mp bound
  exact Option.bind_eq_some_iff.mpr ⟨a, same isFirst, rest isNext⟩

theorem ite_within {α : Type} {condition : Prop} [Decidable condition]
    {first second first' second' : Option α} {result : α}
    (yes : first = some result → first' = some result)
    (no : second = some result → second' = some result)
    (chosen : (if condition then first else second) = some result) :
    (if condition then first' else second') = some result := by
  by_cases holds : condition
  · rw [if_pos holds] at chosen ⊢
    exact yes chosen
  · rw [if_neg holds] at chosen ⊢
    exact no chosen

section Within

variable {first second : Comparison} (within : Within first second)

include within

theorem entryMatches_within {index : Nat} {hash key : Word} {state : State}
    {result : Bool × Bool × State}
    (matched : entryMatches type first index hash key state = some result) :
    entryMatches type second index hash key state = some result :=
  ite_within (ite_within id (bind_within within id)) id matched

theorem findEntryLinearLoop_within {hash key : Word} :
    ∀ {remaining index : Nat} {state : State} {result : Nat × State},
      findEntryLinearLoop type first hash key remaining index state = some result →
      findEntryLinearLoop type second hash key remaining index state = some result := by
  intro remaining
  induction remaining with
  | zero => exact id
  | succ remaining inductionHypothesis =>
    intro index state result
    exact bind_within (entryMatches_within within)
      (ite_within id (ite_within id inductionHypothesis))

theorem probeLoop_within {hash key : Word} :
    ∀ {rounds binIndex perturb firstDeleted : Nat} {state : State} {result : Probe × State},
      probeLoop type first hash key rounds binIndex perturb firstDeleted state = some result →
      probeLoop type second hash key rounds binIndex perturb firstDeleted state =
        some result := by
  intro rounds
  induction rounds with
  | zero => exact id
  | succ rounds inductionHypothesis =>
    intro binIndex perturb firstDeleted state result
    refine ite_within id (ite_within inductionHypothesis ?_)
    exact bind_within (entryMatches_within within)
      (ite_within id (ite_within id inductionHypothesis))

theorem findEntryIndex_within {hash key : Word} {state : State} {result : Nat × State} :
    findEntryIndex type first fuel hash key state = some result →
    findEntryIndex type second fuel hash key state = some result :=
  ite_within (bind_within (probeLoop_within within) id) (findEntryLinearLoop_within within)

theorem findEntryAndReserve_within {hash key : Word} {state : State}
    {result : Nat × Nat × State} :
    findEntryAndReserve type first fuel hash key state = some result →
    findEntryAndReserve type second fuel hash key state = some result :=
  ite_within (bind_within (findEntryLinearLoop_within within) id)
    (bind_within (probeLoop_within within) id)

theorem searchLoop_within {hash key : Word} :
    ∀ {rounds : Nat} {state : State} {result : Nat × State},
      searchLoop type first fuel hash key rounds state = some result →
      searchLoop type second fuel hash key rounds state = some result := by
  intro rounds
  induction rounds with
  | zero => exact id
  | succ rounds inductionHypothesis =>
    intro state result
    exact bind_within (findEntryIndex_within within) (ite_within inductionHypothesis id)

theorem insertLoop_within {hash key value stored : Word} :
    ∀ {rounds : Nat} {state : State} {result : Int × State},
      insertLoop type first fuel hash key value stored rounds state = some result →
      insertLoop type second fuel hash key value stored rounds state = some result := by
  intro rounds
  induction rounds with
  | zero => exact id
  | succ rounds inductionHypothesis =>
    intro state result
    refine bind_within id (ite_within id ?_)
    exact bind_within (findEntryAndReserve_within within)
      (ite_within inductionHypothesis id)

theorem deleteLoop_within {hash key : Word} :
    ∀ {rounds : Nat} {state : State} {result : Deleted × State},
      deleteLoop type first fuel hash key rounds state = some result →
      deleteLoop type second fuel hash key rounds state = some result := by
  intro rounds
  induction rounds with
  | zero => exact id
  | succ rounds inductionHypothesis =>
    intro state result
    refine ite_within ?_ ?_
    · exact bind_within (bind_within (probeLoop_within within) id)
        (ite_within inductionHypothesis id)
    · exact bind_within (findEntryLinearLoop_within within) (ite_within inductionHypothesis id)

theorem lookupWith_within {field : Entry → Word} {key : Word} {state : State}
    {result : Option Word × State} :
    lookupWith type first fuel field key state = some result →
    lookupWith type second fuel field key state = some result :=
  bind_within (searchLoop_within within) id

theorem stUpdate_within {key : Word} {callback : UpdateCallback} {state : State}
    {result : Int × State} :
    stUpdate type first fuel key callback state = some result →
    stUpdate type second fuel key callback state = some result := by
  refine bind_within (searchLoop_within within) ?_
  rintro ⟨index, middle⟩ updated
  dsimp only at updated ⊢
  cases action : (callback (if decide (index ≠ noIndex) then (middle.storage.entries index).key
      else key) (if decide (index ≠ noIndex) then (middle.storage.entries index).record else 0)
      (decide (index ≠ noIndex))).2.2 with
  | delete =>
    rw [action] at updated
    exact ite_within (bind_within (deleteLoop_within within) id) id updated
  | stop =>
    rw [action] at updated
    exact updated
  | cont =>
    rw [action] at updated
    exact ite_within id (insertLoop_within within) updated

theorem Call.perform_within {outer : Call} {state : State} {result : Reply × State}
    (performed : outer.perform type first fuel state = some result) :
    outer.perform type second fuel state = some result := by
  cases outer with
  | insert key value => exact bind_within (insertLoop_within within) id performed
  | insert2 key value transform => exact bind_within (insertLoop_within within) id performed
  | addDirect key value => exact performed
  | delete key => exact bind_within (deleteLoop_within within) id performed
  | shift key => exact bind_within (ite_within id (deleteLoop_within within)) id performed
  | update key callback => exact bind_within (stUpdate_within within) id performed
  | clear => exact performed
  | lookup key => exact bind_within (lookupWith_within within) id performed
  | isMember key => exact bind_within (bind_within (lookupWith_within within) id) id performed
  | getKey key => exact bind_within (lookupWith_within within) id performed
  | keys size => exact performed
  | values size => exact performed
  | tableSize => exact performed

theorem Reentry.perform_within {reentry : Reentry} {state result : State}
    (performed : reentry.perform type fuel first state = some result) :
    reentry.perform type fuel second state = some result := by
  cases reentry with
  | insert key value => exact bind_within (insertLoop_within within) id performed
  | delete key => exact bind_within (deleteLoop_within within) id performed
  | lookup key => exact bind_within (lookupWith_within within) id performed

theorem performScript_within :
    ∀ {script : List Reentry} {state result : State},
      performScript type fuel first script state = some result →
      performScript type fuel second script state = some result := by
  intro script
  induction script with
  | nil => exact id
  | cons reentry rest inductionHypothesis =>
    intro state result
    exact bind_within (Reentry.perform_within within) inductionHypothesis

theorem reenterWith_within : Within (reenterWith type fuel first) (reenterWith type fuel second) := by
  intro left right before after entered
  unfold reenterWith at entered ⊢
  cases scripts : before.scripts with
  | nil =>
    rw [scripts] at entered
    exact entered
  | cons script others =>
    rw [scripts] at entered
    exact performScript_within within entered

end Within

/-- A watched comparison that returns is the comparison. -/
theorem watch_within (depth : Nat) : Within (watch type fuel depth) (reenter type fuel depth) := by
  induction depth with
  | zero =>
    intro left right before after called
    cases called
  | succ depth inductionHypothesis =>
    intro left right before after called
    obtain ⟨result, entered, rest⟩ := Option.bind_eq_some_iff.mp called
    by_cases tolerated : Tolerated type left right before result
    · rw [if_pos tolerated] at rest
      obtain rfl := Option.some.inj rest
      exact reenterWith_within inductionHypothesis entered
    · rw [if_neg tolerated] at rest
      cases rest

/-! ### Runs -/

/-- Every comparison an operation makes, nested ones included, is tolerated: it changes the
number of rebuilds, or adds no entry and keeps the entry it finds equal. -/
def AllTolerated (type : HashType) (fuel depth : Nat) (outer : Call) (state : State) : Prop :=
  (outer.perform type (watch type fuel depth) fuel state).isSome = true

/-- The states of a table in runs whose comparisons are all tolerated. Before every operation
the comparisons to come may be given any scripts. -/
inductive ReentrantRun (type : HashType) (fuel depth : Nat) : State → Prop
  | create {size : Nat} {before after : Arena} {table : Table} {storage : Storage}
      (scripts : List (List Reentry))
      (created : stInitTableWithSize size before = (some (table, storage), after)) :
      ReentrantRun type fuel depth
        { table := table, storage := storage, arena := after, scripts := scripts }
  | copy {state : State} {after : Arena} {table : Table} {storage : Storage}
      (run : ReentrantRun type fuel depth state)
      (copied : stCopy state.table state.storage state.arena = (some (table, storage), after)) :
      ReentrantRun type fuel depth
        { table := table, storage := storage, arena := after, scripts := state.scripts }
  | step {state after : State} {reply : Reply} (outer : Call) (scripts : List (List Reentry))
      (run : ReentrantRun type fuel depth state)
      (admissible : outer.Admissible type state.contents)
      (tolerated : AllTolerated type fuel depth outer { state with scripts := scripts })
      (performed : outer.perform type (reenter type fuel depth) fuel
        { state with scripts := scripts } = some (reply, after)) :
      ReentrantRun type fuel depth after

/-- The representation of a table: the entries are inside their array, the live ones are
counted and have different keys, and with bins each is in exactly one bin, which is on the
probe sequence of its hash with no empty bin before it. -/
structure Represented (type : HashType) (state : State) : Prop where
  inside : state.table.entriesBound ≤ 2 ^ state.table.entryPower
  count : state.table.numEntries = (((List.range' state.table.entriesStart
    (state.table.entriesBound - state.table.entriesStart)).map state.storage.entries).filter
      Entry.live).length
  binned : state.table.hasBins = true → ∀ index, state.table.entriesStart ≤ index →
    index < state.table.entriesBound → (state.storage.entries index).live = true →
      ∃ n, state.storage.bins (state.table.probe (state.storage.entries index).hash n) =
          index + entryBase ∧
        (∀ m < n, state.storage.bins (state.table.probe (state.storage.entries index).hash m) ≠
          emptyBin) ∧
        ∀ bin < state.table.binsCount, state.storage.bins bin = index + entryBase →
          bin = state.table.probe (state.storage.entries index).hash n
  distinct : ∀ first second, first < state.table.entriesBound →
    second < state.table.entriesBound → (state.storage.entries first).live = true →
      (state.storage.entries second).live = true →
        type.compare (state.storage.entries first).key (state.storage.entries second).key = 0 →
          first = second

theorem State.Ok.represented (lawful : type.Lawful) {state : State} (ok : state.Ok type) :
    Represented type state where
  inside := ok.bound_le
  count := by
    rw [ok.sane.liveEntries_from_start]
    exact ok.count
  binned hasBins index _ inside live := by
    obtain ⟨n, filled, nonempty⟩ := (ok.bins hasBins).reach inside live
    refine ⟨n, filled, nonempty, fun bin binInside same => ?_⟩
    exact (ok.bins hasBins).unique binInside (state.table.probe_lt _ n)
      (same ▸ Nat.le_add_left _ _) (same.trans filled.symm)
  distinct _ _ firstInside secondInside firstLive secondLive equal :=
    WellFormed.index_eq lawful ok firstInside secondInside firstLive secondLive equal

theorem ReentrantRun.ok (lawful : type.Lawful) {depth : Nat} {state : State}
    (run : ReentrantRun type fuel depth state) : state.Ok type := by
  induction run with
  | create scripts created =>
    obtain ⟨_, _, ⟨none, _⟩ | ⟨table, some, isCreated⟩⟩ := allocateTable_spec created
    · cases none
    · cases some
      exact (Created.ok isCreated).1
  | copy run copied inductionHypothesis =>
    obtain ⟨_, _, ⟨none, _⟩ | ⟨table, some, wellFormed, _⟩⟩ :=
      stCopy_spec inductionHypothesis copied
    · cases none
    · cases some
      exact wellFormed
  | step outer scripts run admissible tolerated performed inductionHypothesis =>
    obtain ⟨watched, returned⟩ := Option.isSome_iff_exists.mp tolerated
    have same := Call.perform_within (watch_within depth) returned
    rw [performed] at same
    cases same
    refine Call.perform_ok lawful (watch_tolerant lawful depth) ?_ ?_ returned
    · exact inductionHypothesis
    · exact admissible

/-- Callbacks under which all keys collide. -/
def colliding : HashType := { compare := numericCompare, hash := fun _ => 0 }

theorem colliding_lawful : colliding.Lawful :=
  { stHashtypeNum_lawful with hash := fun _ => rfl }

/-- Insertions whose comparisons leave the table alone. -/
def insertAll (fuel depth : Nat) : List (Word × Word) → State → Option State
  | [], state => some state
  | (key, value) :: rest, state => do
    let (_, state) ← (Call.insert key value).perform colliding (watch colliding fuel depth) fuel
      { state with scripts := [] }
    insertAll fuel depth rest state

theorem insertAll_run {depth : Nat} :
    ∀ (elements : List (Word × Word)) {state after : State},
      ReentrantRun colliding fuel depth state →
      insertAll fuel depth elements state = some after →
      ReentrantRun colliding fuel depth after := by
  intro elements
  induction elements with
  | nil =>
    intro state after run inserted
    obtain rfl := Option.some.inj inserted
    exact run
  | cons element rest inductionHypothesis =>
    intro state after run inserted
    obtain ⟨⟨reply, middle⟩, performed, inserted⟩ := Option.bind_eq_some_iff.mp inserted
    refine inductionHypothesis (run.step (Call.insert element.1 element.2) [] trivial ?_
      (Call.perform_within (watch_within depth) performed)) inserted
    exact Option.isSome_iff_exists.mpr ⟨_, performed⟩

/-- A table of four entries without bins. -/
def fourEntries : State where
  table :=
    { entryPower := 2, binPower := 3, sizeInd := 0, numEntries := 0, entriesStart := 0,
      entriesBound := 0, rebuildsNum := 0, entries := 1 }
  storage := freshStorage
  arena := { granted := fun _ => true, requests := 2 }
  scripts := []

theorem fourEntries_run (depth : Nat) : ReentrantRun colliding fuel depth fourEntries :=
  @ReentrantRun.create colliding fuel depth 0 { granted := fun _ => true, requests := 0 } _ _ _ []
    rfl

end LaserD.Hash
