/-
This file models the operations of `laserd.hash` on one table: rebuilding, insertion,
deletion, updates, copies and the listings of keys and values.

An operation that needs room asks the arena first and leaves the table as it is when the
arena refuses. A search under which the table was rebuilt is begun again.
-/

import LaserD.Hash.Table

namespace LaserD.Hash

/-! ### Machine words -/

/-- One less, in a machine word. -/
def decrement (n : Nat) : Nat := if n = 0 then 2 ^ 64 - 1 else n - 1

/-- The entry index in a bin, in a machine word. -/
def indexOfBin (bin : Nat) : Nat :=
  if bin < entryBase then bin + (2 ^ 64 - entryBase) else bin - entryBase

/-! ### Storage -/

/-- A request to the arena. -/
def Arena.alloc (arena : Arena) : Option Nat × Arena :=
  (if arena.granted arena.requests then some arena.requests else none,
    { arena with requests := arena.requests + 1 })

/-- A block for the entries and the bins of a table, when their size can be computed. -/
def allocateStorage (table : Table) (arena : Arena) : Option Nat × Arena :=
  if table.validStorageSize then arena.alloc else (none, arena)

/-- A block as the arena returns it. -/
def freshStorage : Storage := { entries := fun _ => default, bins := fun _ => 0 }

/-! ### Rebuilding -/

/-- The bins of the entries from an index on, one entry after another. -/
def buildBinsLoop (fuel : Nat) (table : Table) : (remaining index : Nat) → Storage →
    Option Storage
  | 0, _, storage => some storage
  | remaining + 1, index, storage =>
    if (storage.entries index).hash ≠ deletedHash then do
      let bin ← findInsertionBin fuel table storage (storage.entries index).hash
      buildBinsLoop fuel table remaining (index + 1)
        (setBin table bin (index + entryBase) storage)
    else buildBinsLoop fuel table remaining (index + 1) storage

def buildBins (fuel : Nat) (table : Table) (storage : Storage) : Option Storage :=
  let storage := initializeBins table storage
  if !table.hasBins then some storage
  else
    buildBinsLoop fuel table (table.entriesBound - table.entriesStart) table.entriesStart storage

/-- Move the live entries from an index on down to the places from `destination` on. -/
def compactLoop : (remaining source destination : Nat) → (Nat → Entry) → (Nat → Entry) × Nat
  | 0, _, destination, entries => (entries, destination)
  | remaining + 1, source, destination, entries =>
    if (entries source).hash ≠ deletedHash then
      compactLoop remaining (source + 1) (destination + 1)
        (Function.update entries destination (entries source))
    else compactLoop remaining (source + 1) destination entries

/-- Remove the deleted entries without changing the allocation. -/
def compactInPlace (fuel : Nat) (state : State) : Option State := do
  let table := state.table
  let (entries, destination) := compactLoop (table.entriesBound - table.entriesStart)
    table.entriesStart 0 state.storage.entries
  let table := { table with entriesStart := 0, entriesBound := destination }
  let storage ← buildBins fuel table { state.storage with entries := entries }
  return { state with
    table := { table with rebuildsNum := (table.rebuildsNum + 1) % 2 ^ 32 },
    storage := storage }

/-- Copy the live entries from an index on behind those of the replacement. -/
def copyLiveLoop (source : Nat → Entry) :
    (remaining index bound : Nat) → (Nat → Entry) → (Nat → Entry) × Nat
  | 0, _, bound, target => (target, bound)
  | remaining + 1, index, bound, target =>
    if (source index).hash ≠ deletedHash then
      copyLiveLoop source remaining (index + 1) (bound + 1)
        (Function.update target bound (source index))
    else copyLiveLoop source remaining (index + 1) bound target

/-- Whether a rebuild keeps the allocation. -/
def keepsAllocation (table : Table) : Bool :=
  decide (2 * table.numEntries % 2 ^ 64 ≤ table.allocatedEntries ∧
      table.allocatedEntries < rebuildThreshold * table.numEntries % 2 ^ 64) ||
    decide (table.numEntries < 2 ^ minimalPower2)

/-- Remove deleted bins and entries, in place or into a replacement. -/
def rebuild (fuel : Nat) (state : State) : Option (Int × State) :=
  let table := state.table
  if keepsAllocation table then do
    let state ← compactInPlace fuel state
    return (0, state)
  else
    let empty : Table :=
      { entryPower := 0, binPower := 0, sizeInd := 0, numEntries := 0, entriesStart := 0,
        entriesBound := 0, rebuildsNum := 0, entries := 0 }
    match empty.setFeatures (decrement (2 * table.numEntries % 2 ^ 64)) with
    | none => some (stError, state)
    | some replacement =>
      match allocateStorage replacement state.arena with
      | (none, arena) => some (stError, { state with arena := arena })
      | (some block, arena) => do
        let (entries, bound) := copyLiveLoop state.storage.entries
          (table.entriesBound - table.entriesStart) table.entriesStart 0 freshStorage.entries
        let replacement := { replacement with
          entries := block, entriesBound := bound, numEntries := table.numEntries,
          rebuildsNum := (table.rebuildsNum + 1) % 2 ^ 32 }
        let storage ← buildBins fuel replacement { freshStorage with entries := entries }
        return (0, { state with
          table := { table with
            entryPower := replacement.entryPower, binPower := replacement.binPower,
            sizeInd := replacement.sizeInd, entriesStart := 0,
            entriesBound := replacement.entriesBound, entries := replacement.entries,
            rebuildsNum := replacement.rebuildsNum },
          storage := storage, arena := arena })

def ensureInsertCapacity (fuel : Nat) (state : State) : Option (Int × State) :=
  if state.table.entriesBound < state.table.allocatedEntries then some (0, state)
  else rebuild fuel state

/-! ### Creation and copies -/

/-- A header and its storage from the arena; a refused request undoes the granted one. -/
def allocateTable (requestedSize : Nat) (arena : Arena) : Option (Table × Storage) × Arena :=
  match arena.alloc with
  | (none, arena) => (none, arena)
  | (some _, arena) =>
    let empty : Table :=
      { entryPower := 0, binPower := 0, sizeInd := 0, numEntries := 0, entriesStart := 0,
        entriesBound := 0, rebuildsNum := 0, entries := 0 }
    match empty.setFeatures requestedSize with
    | none => (none, arena)
    | some table =>
      match allocateStorage table arena with
      | (none, arena) => (none, arena)
      | (some block, arena) =>
        let table := { table with entries := block }
        (some (table, initializeBins table freshStorage), arena)

def stInitTable (arena : Arena) : Option (Table × Storage) × Arena := allocateTable 0 arena

def stInitTableWithSize (size : Nat) (arena : Arena) : Option (Table × Storage) × Arena :=
  allocateTable size arena

/-- A copy of the header and of all the storage. -/
def stCopy (oldTable : Table) (oldStorage : Storage) (arena : Arena) :
    Option (Table × Storage) × Arena :=
  match allocateTable (oldTable.allocatedEntries - 1) arena with
  | (none, arena) => (none, arena)
  | (some (table, _), arena) =>
    (some
      ({ table with
          numEntries := oldTable.numEntries, entriesStart := oldTable.entriesStart,
          entriesBound := oldTable.entriesBound, rebuildsNum := oldTable.rebuildsNum },
        oldStorage), arena)

def stTableSize (table : Table) : Nat := table.numEntries

/-! ### Lookup -/

section Operations

variable (type : HashType) (call : Comparison) (fuel : Nat)

/-- A search begun again for as long as the table is rebuilt under it. -/
def searchLoop (hash key : Word) : (rounds : Nat) → State → Option (Nat × State)
  | 0, _ => none
  | rounds + 1, state => do
    let (index, state) ← findEntryIndex type call fuel hash key state
    if index = rebuiltIndex then searchLoop hash key rounds state else return (index, state)

/-- What an entry holds, when there is one. -/
def lookupWith (field : Entry → Word) (key : Word) (state : State) :
    Option (Option Word × State) := do
  let (index, state) ← searchLoop type call fuel (doHash type key) key fuel state
  if index = noIndex then return (none, state)
  else return (some (field (state.storage.entries index)), state)

/-- The record of a key. -/
def stLookup (key : Word) (state : State) : Option (Option Word × State) :=
  lookupWith type call fuel Entry.record key state

/-- Whether a key is present. -/
def stIsMember (key : Word) (state : State) : Option (Bool × State) := do
  let (record, state) ← stLookup type call fuel key state
  return (record.isSome, state)

/-- The stored key equal to a key. -/
def stGetKey (key : Word) (state : State) : Option (Option Word × State) :=
  lookupWith type call fuel Entry.key key state

/-! ### Insertion -/

/-- Overwrite the key and the record of an entry. -/
def setKeyRecord (index : Nat) (key value : Word) (state : State) : State :=
  { state with storage := { state.storage with
      entries := Function.update state.storage.entries index
        { state.storage.entries index with key := key, record := value } } }

/-- Overwrite the record of an entry. -/
def setRecord (index : Nat) (value : Word) (state : State) : State :=
  setKeyRecord index (state.storage.entries index).key value state

/-- Put an entry behind the others, and its index into a bin. -/
def appendEntry (entry : Entry) (insertionBin : Nat) (state : State) : State :=
  let entryIndex := state.table.entriesBound
  let table := { state.table with entriesBound := state.table.entriesBound + 1 }
  let storage := { state.storage with
    entries := Function.update state.storage.entries entryIndex entry }
  let storage :=
    if insertionBin ≠ noIndex then setBin table insertionBin (entryIndex + entryBase) storage
    else storage
  { state with
    table := { table with numEntries := (table.numEntries + 1) % 2 ^ 64 }, storage := storage }

/-- The loop of both insertions; `stored` is the key a new entry gets. -/
def insertLoop (hash key value stored : Word) : (rounds : Nat) → State → Option (Int × State)
  | 0, _ => none
  | rounds + 1, state => do
    let (code, state) ← ensureInsertCapacity fuel state
    if code = stError then return (stError, state)
    else
      let (index, insertionBin, state) ← findEntryAndReserve type call fuel hash key state
      if index = rebuiltIndex then insertLoop hash key value stored rounds state
      else if index ≠ noIndex then return (1, setRecord index value state)
      else
        return (0,
          appendEntry { hash := hash, key := stored, record := value } insertionBin state)

def stInsert (key value : Word) (state : State) : Option (Int × State) :=
  insertLoop type call fuel (doHash type key) key value key fuel state

def stInsert2 (key value : Word) (transform : Word → Word) (state : State) :
    Option (Int × State) :=
  insertLoop type call fuel (doHash type key) key value (transform key) fuel state

/-- Insertion of a key known to be absent. -/
def stAddDirect (key value : Word) (state : State) : Option (Int × State) := do
  let (code, state) ← ensureInsertCapacity fuel state
  if code = stError then return (stError, state)
  else
    let hash := doHash type key
    let entry : Entry := { hash := hash, key := key, record := value }
    if state.table.hasBins then do
      let bin ← findInsertionBin fuel state.table state.storage hash
      return (0, appendEntry entry bin state)
    else return (0, appendEntry entry noIndex state)

/-! ### Deletion -/

/-- The first live entry from an index on. -/
def updateStartLoop (entries : Nat → Entry) : (remaining start : Nat) → Nat
  | 0, start => start
  | remaining + 1, start =>
    if (entries start).hash = deletedHash then updateStartLoop entries remaining (start + 1)
    else start

def updateStartAfterDelete (state : State) : State :=
  { state with table := { state.table with
      entriesStart := updateStartLoop state.storage.entries
        (state.table.entriesBound - state.table.entriesStart) state.table.entriesStart } }

/-- Mark an entry, and its bin, as deleted. -/
def deleteEntry (entryIndex binIndex : Nat) (state : State) : State :=
  let storage := { state.storage with
    entries := Function.update state.storage.entries entryIndex
      { state.storage.entries entryIndex with hash := deletedHash } }
  let storage :=
    if state.table.hasBins then setBin state.table binIndex deletedBin storage else storage
  updateStartAfterDelete { state with
    table := { state.table with numEntries := decrement state.table.numEntries },
    storage := storage }

/-- What a deletion returns: the code, and the key and the value stored through the
pointers. -/
structure Deleted where
  code : Int
  key : Word
  value : Word
  deriving Repr, DecidableEq

def deleteLoop (hash key : Word) : (rounds : Nat) → State → Option (Deleted × State)
  | 0, _ => none
  | rounds + 1, state =>
    if state.table.hasBins then do
      let (binIndex, state) ← findBinForEntry type call fuel hash key state
      if binIndex = rebuiltIndex then deleteLoop hash key rounds state
      else if binIndex = noIndex then return ({ code := 0, key := key, value := 0 }, state)
      else
        let entryIndex := indexOfBin (getBin state.storage binIndex)
        let entry := state.storage.entries entryIndex
        return ({ code := 1, key := entry.key, value := entry.record },
          deleteEntry entryIndex binIndex state)
    else do
      let (entryIndex, state) ← findEntryLinear type call hash key state
      if entryIndex = rebuiltIndex then deleteLoop hash key rounds state
      else if entryIndex = noIndex then return ({ code := 0, key := key, value := 0 }, state)
      else
        let entry := state.storage.entries entryIndex
        return ({ code := 1, key := entry.key, value := entry.record },
          deleteEntry entryIndex noIndex state)

def stDelete (key : Word) (state : State) : Option (Deleted × State) :=
  deleteLoop type call fuel (doHash type key) key fuel state

/-- Delete the oldest entry; the key is left alone when there is none. -/
def stShift (key : Word) (state : State) : Option (Deleted × State) :=
  if state.table.numEntries = 0 then some ({ code := 0, key := key, value := 0 }, state)
  else stDelete type call fuel (state.storage.entries state.table.entriesStart).key state

/-- Make the table empty in its allocation. -/
def stClear (state : State) : State :=
  { state with
    table := { state.table with
      numEntries := 0, entriesStart := 0, entriesBound := 0,
      rebuildsNum := (state.table.rebuildsNum + 1) % 2 ^ 32 },
    storage := initializeBins state.table state.storage }

/-! ### Updates -/

/-- The actions a callback can return. -/
inductive Action where
  | cont | stop | delete
  deriving Repr, DecidableEq

/-- What an update callback makes of a key, a value and whether they exist. -/
abbrev UpdateCallback := Word → Word → Bool → Word × Word × Action

/-- Apply a callback that does not touch the table to an entry or to a proposed one. -/
def stUpdate (key : Word) (callback : UpdateCallback) (state : State) :
    Option (Int × State) := do
  let (index, state) ← searchLoop type call fuel (doHash type key) key fuel state
  let existing := decide (index ≠ noIndex)
  let entry := state.storage.entries index
  let (updatedKey, updatedValue, action) :=
    callback (if existing then entry.key else key) (if existing then entry.record else 0) existing
  let code : Int := if existing then 1 else 0
  match action with
  | .delete =>
    if existing then do
      let (_, state) ← stDelete type call fuel key state
      return (code, state)
    else return (code, state)
  | .stop => return (code, state)
  | .cont =>
    if existing then return (1, setKeyRecord index updatedKey updatedValue state)
    else stInsert type call fuel updatedKey updatedValue state

end Operations

/-! ### Listings -/

/-- The live entries from an index on, up to a number of them. -/
def listLoop (field : Entry → Word) (entries : Nat → Entry) (size : Nat) :
    (remaining index : Nat) → List Word → List Word
  | 0, _, written => written
  | remaining + 1, index, written =>
    if (entries index).hash ≠ deletedHash then
      if written.length = size then written
      else listLoop field entries size remaining (index + 1) (written ++ [field (entries index)])
    else listLoop field entries size remaining (index + 1) written

/-- The keys `st_keys` writes. -/
def stKeys (size : Nat) (table : Table) (storage : Storage) : List Word :=
  listLoop Entry.key storage.entries size (table.entriesBound - table.entriesStart)
    table.entriesStart []

/-- The records `st_values` writes. -/
def stValues (size : Nat) (table : Table) (storage : Storage) : List Word :=
  listLoop Entry.record storage.entries size (table.entriesBound - table.entriesStart)
    table.entriesStart []

end LaserD.Hash
