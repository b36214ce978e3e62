/-
This file models the representation of `laserd.hash` tables and the searches in it.

A table is a header and a block of storage, the entries followed by the bins. Small
tables have no bins and are searched entry by entry; the others are searched along the
probe sequence of a hash. A comparison may re-enter the table it is made for, so every
search takes and returns the state, and what one comparison does to the state is a
parameter. The unbounded loops of the source run on fuel.
-/

import Mathlib.Data.BitVec
import Mathlib.Logic.Function.Basic

namespace LaserD.Hash

/-! ### Data -/

/-- Keys, records and hashes are machine words. -/
abbrev Word := BitVec 64

/-- The callbacks of a table: `compare` is zero on equal keys. -/
structure HashType where
  compare : Word → Word → Int
  hash : Word → Word

def emptyBin : Nat := 0

def deletedBin : Nat := 1

/-- Bins hold entry indices above the two reserved values. -/
def entryBase : Nat := 2

/-- The hash of a deleted entry. -/
def deletedHash : Word := BitVec.allOnes 64

/-- The largest index: an entry or a bin was not found. -/
def noIndex : Nat := 2 ^ 64 - 1

/-- The index before it: the table was rebuilt under a search. -/
def rebuiltIndex : Nat := 2 ^ 64 - 2

def minimalPower2 : Nat := 2

def maxPower2 : Nat := 62

def maxPower2WithoutBins : Nat := 4

def rebuildThreshold : Nat := 4

def stError : Int := -1

structure Entry where
  hash : Word
  key : Word
  record : Word
  deriving Repr, DecidableEq, Inhabited

/-- The header of a table. Its entries are in a block of the arena. -/
structure Table where
  entryPower : Nat
  binPower : Nat
  sizeInd : Nat
  numEntries : Nat
  entriesStart : Nat
  entriesBound : Nat
  rebuildsNum : Nat
  entries : Nat
  deriving Repr, DecidableEq

/-- The contents of a block: entries, and bins behind them. -/
structure Storage where
  entries : Nat → Entry
  bins : Nat → Nat

/-- The arena a table borrows: whether each of its requests is granted. A granted request
returns a block of its own, named by the request. -/
structure Arena where
  granted : Nat → Bool
  requests : Nat

/-- A call back into the table from a comparison. -/
inductive Reentry where
  | insert (key value : Word)
  | delete (key : Word)
  | lookup (key : Word)
  deriving Repr, DecidableEq

/-- A table with its storage and its arena, and what the comparisons to come will do: each
performs the first of the scripts. -/
structure State where
  table : Table
  storage : Storage
  arena : Arena
  scripts : List (List Reentry)

/-- What a comparison of two keys does to the state. -/
abbrev Comparison := Word → Word → State → Option State

/-- A comparison that leaves the state alone. -/
def quiet : Comparison := fun _ _ state => some state

/-! ### Features -/

def normalizeHash (value : Word) : Word := if value = deletedHash then 0 else value

def doHash (type : HashType) (key : Word) : Word := normalizeHash (type.hash key)

/-- The smallest exponent from `power` on whose power of two exceeds the size. -/
def getPower2Loop (size : Nat) : (rounds power : Nat) → Option Nat
  | 0, _ => none
  | rounds + 1, power =>
    if 2 ^ power ≤ size then getPower2Loop size rounds (power + 1) else some power

/-- The exponent for a size; nothing when it would pass the maximum. -/
def getPower2 (size : Nat) : Option Nat :=
  getPower2Loop size (maxPower2 + 1 - minimalPower2) minimalPower2

def sizeIndexForPower (power : Nat) : Nat :=
  if power < 8 then 0 else if power < 16 then 1 else if power < 32 then 2 else 3

def binElementSize (sizeIndex : Nat) : Nat :=
  if sizeIndex = 0 then 1 else if sizeIndex = 1 then 2 else if sizeIndex = 2 then 4 else 8

/-- The size of an entry in bytes. -/
def entrySize : Nat := 24

/-- The size of a table header in bytes. -/
def tableSize : Nat := 64

namespace Table

variable (table : Table)

def allocatedEntries : Nat := 2 ^ table.entryPower

def binsCount : Nat := 2 ^ table.binPower

def hasBins : Bool := decide (maxPower2WithoutBins < table.entryPower)

def entriesSize : Nat := table.allocatedEntries * entrySize % 2 ^ 64

def binsSize : Nat :=
  if table.hasBins then table.binsCount * binElementSize table.sizeInd % 2 ^ 64 else 0

/-- The powers and the bin width for a requested number of entries. -/
def setFeatures (requestedSize : Nat) : Option Table := do
  let power ← getPower2 requestedSize
  return { table with
    entryPower := power, binPower := power + 1, sizeInd := sizeIndexForPower power }

/-- Whether the size of the storage can be computed in a machine word. -/
def validStorageSize : Bool :=
  let count := table.allocatedEntries
  if count > (2 ^ 64 - 1) / entrySize then false
  else
    let entryBytes := count * entrySize % 2 ^ 64
    decide (table.binsSize ≤ 2 ^ 64 - 1 - entryBytes)

/-- The bin that follows another on a probe sequence, and what is left of the hash. -/
def secondaryHash (index perturb : Nat) : Nat × Nat :=
  let perturb := perturb >>> 11
  (((index <<< 2) + index + perturb + 1) % 2 ^ 64 &&& (table.binsCount - 1), perturb)

/-- The first bin of a probe sequence. -/
def firstBin (hash : Word) : Nat := hash.toNat &&& (table.binsCount - 1)

end Table

/-! ### Bins -/

def getBin (storage : Storage) (index : Nat) : Nat := storage.bins index

/-- Store a value in a bin of the table's width. -/
def setBin (table : Table) (index value : Nat) (storage : Storage) : Storage :=
  { storage with
    bins := Function.update storage.bins index
      (value % 2 ^ (8 * binElementSize table.sizeInd)) }

def initializeBins (table : Table) (storage : Storage) : Storage :=
  if table.hasBins then { storage with bins := fun _ => emptyBin } else storage

/-! ### Searches -/

section Searches

variable (type : HashType) (call : Comparison)

/-- Whether an entry has the hash and an equal key, and whether the table was rebuilt while
they were compared. Identical keys are not compared. -/
def entryMatches (entryIndex : Nat) (hash key : Word) (state : State) :
    Option (Bool × Bool × State) :=
  let entry := state.storage.entries entryIndex
  if entry.hash = hash then
    if key = entry.key then some (true, false, state)
    else do
      let after ← call key entry.key state
      return (decide (type.compare key entry.key = 0),
        decide (state.table.rebuildsNum ≠ after.table.rebuildsNum), after)
  else some (false, false, state)

/-- The linear search; the bound is that of the beginning. -/
def findEntryLinearLoop (hash key : Word) : (remaining index : Nat) → State →
    Option (Nat × State)
  | 0, _, state => some (noIndex, state)
  | remaining + 1, index, state => do
    let (equal, rebuilt, state) ← entryMatches type call index hash key state
    if rebuilt then return (rebuiltIndex, state)
    else if equal then return (index, state)
    else findEntryLinearLoop hash key remaining (index + 1) state

def findEntryLinear (hash key : Word) (state : State) : Option (Nat × State) :=
  findEntryLinearLoop type call hash key
    (state.table.entriesBound - state.table.entriesStart) state.table.entriesStart state

/-- How a search along a probe sequence ends. -/
inductive Probe where
  | absent (insertionBin : Nat)
  | found (binIndex entryIndex : Nat)
  | rebuilt
  deriving Repr, DecidableEq

/-- The search along a probe sequence. An empty bin ends it, a deleted one is passed, and
the first deleted one is where a new entry would go. -/
def probeLoop (hash key : Word) : (fuel binIndex perturb firstDeleted : Nat) → State →
    Option (Probe × State)
  | 0, _, _, _, _ => none
  | fuel + 1, binIndex, perturb, firstDeleted, state =>
    let bin := getBin state.storage binIndex
    if bin = emptyBin then
      some (.absent (if firstDeleted = noIndex then binIndex else firstDeleted), state)
    else if bin = deletedBin then
      let next := state.table.secondaryHash binIndex perturb
      probeLoop hash key fuel next.1 next.2
        (if firstDeleted = noIndex then binIndex else firstDeleted) state
    else do
      let (equal, rebuilt, state) ← entryMatches type call (bin - entryBase) hash key state
      if rebuilt then return (.rebuilt, state)
      else if equal then return (.found binIndex (bin - entryBase), state)
      else
        let next := state.table.secondaryHash binIndex perturb
        probeLoop hash key fuel next.1 next.2 firstDeleted state

variable (fuel : Nat)

/-- A probe sequence from its first bin. -/
def probeFor (hash key : Word) (state : State) : Option (Probe × State) :=
  probeLoop type call hash key fuel (state.table.firstBin hash) hash.toNat noIndex state

def findEntryBinned (hash key : Word) (state : State) : Option (Nat × State) := do
  let (probe, state) ← probeFor type call fuel hash key state
  match probe with
  | .absent _ => return (noIndex, state)
  | .found _ entryIndex => return (entryIndex, state)
  | .rebuilt => return (rebuiltIndex, state)

def findEntryIndex (hash key : Word) (state : State) : Option (Nat × State) :=
  if state.table.hasBins then findEntryBinned type call fuel hash key state
  else findEntryLinear type call hash key state

def findBinForEntry (hash key : Word) (state : State) : Option (Nat × State) := do
  let (probe, state) ← probeFor type call fuel hash key state
  match probe with
  | .absent _ => return (noIndex, state)
  | .found binIndex _ => return (binIndex, state)
  | .rebuilt => return (rebuiltIndex, state)

/-- The entry of a key, and the bin to use for a new one. -/
def findEntryAndReserve (hash key : Word) (state : State) : Option (Nat × Nat × State) :=
  if !state.table.hasBins then do
    let (index, state) ← findEntryLinear type call hash key state
    return (index, noIndex, state)
  else do
    let (probe, state) ← probeFor type call fuel hash key state
    match probe with
    | .absent insertionBin => return (noIndex, insertionBin, state)
    | .found binIndex entryIndex => return (entryIndex, binIndex, state)
    | .rebuilt => return (rebuiltIndex, noIndex, state)

end Searches

/-- The search for a bin to put an entry into, without comparisons. -/
def findInsertionBinLoop (table : Table) (storage : Storage) :
    (fuel binIndex perturb firstDeleted : Nat) → Option Nat
  | 0, _, _, _ => none
  | fuel + 1, binIndex, perturb, firstDeleted =>
    let bin := getBin storage binIndex
    if bin = emptyBin then some (if firstDeleted = noIndex then binIndex else firstDeleted)
    else
      let next := table.secondaryHash binIndex perturb
      findInsertionBinLoop table storage fuel next.1 next.2
        (if bin = deletedBin ∧ firstDeleted = noIndex then binIndex else firstDeleted)

def findInsertionBin (fuel : Nat) (table : Table) (storage : Storage) (hash : Word) : Option Nat :=
  findInsertionBinLoop table storage fuel (table.firstBin hash) hash.toNat noIndex

end LaserD.Hash
