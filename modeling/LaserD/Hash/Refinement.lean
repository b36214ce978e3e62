/-
This file proves that the tables of a program refine association lists.

A program has any number of tables, each with its callbacks, its header and a block of the
arena they share. An operation on a table loads its header and its block and stores them
back; when the table got another block, the old one is released. No two tables have the
same block, so an operation on one leaves the others as they are, copies included.
-/

import LaserD.Hash.Pure

namespace LaserD.Hash

/-! ### Operations on one table -/

/-- The operations on a table. -/
inductive Call where
  | insert (key value : Word)
  | insert2 (key value : Word) (transform : Word → Word)
  | addDirect (key value : Word)
  | delete (key : Word)
  | shift (key : Word)
  | update (key : Word) (callback : UpdateCallback)
  | clear
  | lookup (key : Word)
  | isMember (key : Word)
  | getKey (key : Word)
  | keys (size : Nat)
  | values (size : Nat)
  | tableSize

/-- What an operation returns. -/
inductive Reply where
  | code (result : Int)
  | deleted (result : Deleted)
  | found (word : Option Word)
  | member (result : Bool)
  | listed (words : List Word)
  | size (entries : Nat)
  | created (table : Option Nat)
  | done
  deriving Repr, DecidableEq

namespace Call

variable (type : HashType) (comparison : Comparison) (fuel : Nat)

/-- The operation on a table. -/
def perform (call : Call) (state : State) : Option (Reply × State) :=
  match call with
  | .insert key value => do
    let (code, state) ← stInsert type comparison fuel key value state
    return (.code code, state)
  | .insert2 key value transform => do
    let (code, state) ← stInsert2 type comparison fuel key value transform state
    return (.code code, state)
  | .addDirect key value => do
    let (code, state) ← stAddDirect type fuel key value state
    return (.code code, state)
  | .delete key => do
    let (deleted, state) ← stDelete type comparison fuel key state
    return (.deleted deleted, state)
  | .shift key => do
    let (deleted, state) ← stShift type comparison fuel key state
    return (.deleted deleted, state)
  | .update key callback => do
    let (code, state) ← stUpdate type comparison fuel key callback state
    return (.code code, state)
  | .clear => return (.done, stClear state)
  | .lookup key => do
    let (record, state) ← stLookup type comparison fuel key state
    return (.found record, state)
  | .isMember key => do
    let (member, state) ← stIsMember type comparison fuel key state
    return (.member member, state)
  | .getKey key => do
    let (stored, state) ← stGetKey type comparison fuel key state
    return (.found stored, state)
  | .keys size => return (.listed (stKeys size state.table state.storage), state)
  | .values size => return (.listed (stValues size state.table state.storage), state)
  | .tableSize => return (.size (stTableSize state.table), state)

/-- The operation on the association list a table stands for. -/
def onList (call : Call) (elements : List (Word × Word)) : Reply × List (Word × Word) :=
  match call with
  | .insert key value =>
    (.code (insertCode type key elements),
      AssociationList.insert type.same key key value elements)
  | .insert2 key value transform =>
    (.code (insertCode type key elements),
      AssociationList.insert type.same key (transform key) value elements)
  | .addDirect key value => (.code 0, elements ++ [(key, value)])
  | .delete key =>
    (.deleted (deletedFrom type key elements), AssociationList.erase type.same key elements)
  | .shift key => (.deleted (shiftList key elements).1, (shiftList key elements).2)
  | .update key callback =>
    (.code (updateList type key callback elements).1, (updateList type key callback elements).2)
  | .clear => (.done, [])
  | .lookup key =>
    (.found ((AssociationList.find type.same key elements).map Prod.snd), elements)
  | .isMember key => (.member (AssociationList.find type.same key elements).isSome, elements)
  | .getKey key =>
    (.found ((AssociationList.find type.same key elements).map Prod.fst), elements)
  | .keys size => (.listed ((elements.map Prod.fst).take size), elements)
  | .values size => (.listed ((elements.map Prod.snd).take size), elements)
  | .tableSize => (.size elements.length, elements)

/-- Whether an operation may need room for an entry. -/
def needsRoom : Call → Bool
  | .insert .. => true
  | .insert2 .. => true
  | .addDirect .. => true
  | .update .. => true
  | _ => false

/-- What a caller promises: a transformed or updated key is equal to the stored one, and a
key that is added directly is absent. -/
def Admissible (call : Call) (elements : List (Word × Word)) : Prop :=
  match call with
  | .insert2 key _ transform => type.compare key (transform key) = 0
  | .addDirect key _ => AssociationList.find type.same key elements = none
  | .update _ callback =>
    ∀ stored record, type.compare stored (callback stored record true).1 = 0
  | _ => True

end Call

variable {type : HashType} {fuel : Nat}

/-- What an operation on a table does: that on the association list, or nothing when there
was no room. -/
structure Call.Meets (call : Call) (type : HashType) (before : State) (reply : Reply)
    (after : State) : Prop where
  ok : after.Ok type
  moves : Moves before after
  outcome : (reply, after.contents) = call.onList type before.contents ∨
    call.needsRoom = true ∧ reply = .code stError ∧ Refused before after

theorem Call.meets_of_inserts {call : Call} {key stored value : Word} {before after : State}
    {code : Int} (inserts : Inserts type key stored value before code after)
    (moves : Moves before after) (needs : call.needsRoom = true)
    (means : call.onList type before.contents = (.code (insertCode type key before.contents),
      AssociationList.insert type.same key stored value before.contents)) :
    call.Meets type before (.code code) after := by
  obtain ⟨ok, ⟨rfl, refused⟩ | ⟨rfl, inserted⟩⟩ := inserts
  · exact ⟨ok, moves, Or.inr ⟨needs, rfl, refused⟩⟩
  · refine ⟨ok, moves, Or.inl ?_⟩
    rw [means, inserted]
    rfl

/-- Every operation returns, and does what it stands for. -/
theorem Call.perform_meets (lawful : type.Lawful) (enough : searchRounds ≤ fuel) {call : Call}
    {before : State} (ok : before.Ok type) (admissible : call.Admissible type before.contents) :
    ∃ reply after, call.perform type quiet fuel before = some (reply, after) ∧
      call.Meets type before reply after := by
  cases call with
  | insert key value =>
    obtain ⟨code, after, inserted, inserts, changes⟩ :=
      @insertLoop_quiet type fuel lawful key key value (Or.inl rfl) before ok enough
    exact ⟨_, after, Option.bind_eq_some_iff.mpr ⟨_, inserted, rfl⟩,
      meets_of_inserts inserts changes.moves rfl rfl⟩
  | insert2 key value transform =>
    obtain ⟨code, after, inserted, inserts, changes⟩ :=
      @insertLoop_quiet type fuel lawful key (transform key) value (Or.inr admissible) before ok
        enough
    exact ⟨_, after, Option.bind_eq_some_iff.mpr ⟨_, inserted, rfl⟩,
      meets_of_inserts inserts changes.moves rfl rfl⟩
  | addDirect key value =>
    obtain ⟨code, after, added, moves⟩ := @stAddDirect_some type fuel key value before ok enough
    have absent : AssociationList.find type.same key before.contents = none := admissible
    have inserts := stAddDirect_spec lawful ok ((absent_iff lawful).mpr absent) added
    refine ⟨_, after, Option.bind_eq_some_iff.mpr ⟨_, added, rfl⟩,
      meets_of_inserts inserts moves rfl ?_⟩
    unfold onList insertCode AssociationList.insert
    rw [absent, if_neg (by decide), if_neg (by decide)]
  | delete key =>
    obtain ⟨deleted, after, performed, afterOk, rfl, erased, marks⟩ :=
      deleteLoop_quiet lawful ok enough key
    refine ⟨_, after, Option.bind_eq_some_iff.mpr ⟨_, performed, rfl⟩, afterOk, marks.moves,
      Or.inl ?_⟩
    rw [erased]
    rfl
  | shift key =>
    obtain ⟨deleted, after, performed, afterOk, shifted, moves⟩ :=
      stShift_quiet lawful ok enough key
    refine ⟨_, after, Option.bind_eq_some_iff.mpr ⟨_, performed, rfl⟩, afterOk, moves, Or.inl ?_⟩
    show _ = (Reply.deleted (shiftList key before.contents).1, (shiftList key before.contents).2)
    rw [← shifted]
  | update key callback =>
    obtain ⟨code, after, performed, afterOk, outcome, moves⟩ :=
      stUpdate_quiet lawful admissible ok enough key
    refine ⟨_, after, Option.bind_eq_some_iff.mpr ⟨_, performed, rfl⟩, afterOk, moves, ?_⟩
    rcases outcome with ⟨rfl, refused⟩ | updated
    · exact Or.inr ⟨rfl, rfl, refused⟩
    · refine Or.inl ?_
      show _ = (Reply.code (updateList type key callback before.contents).1,
        (updateList type key callback before.contents).2)
      rw [← updated]
  | clear =>
    obtain ⟨afterOk, cleared⟩ := stClear_spec ok
    refine ⟨_, _, rfl, afterOk, ⟨rfl, Nat.le_refl _, Or.inl rfl⟩, Or.inl ?_⟩
    rw [cleared]
    rfl
  | lookup key =>
    have looked := @lookupWith_quiet type fuel lawful Entry.record Prod.snd (fun _ => rfl) before
      ok enough key
    exact ⟨_, before, Option.bind_eq_some_iff.mpr ⟨_, looked, rfl⟩, ok, Moves.refl _, Or.inl rfl⟩
  | isMember key =>
    have looked := @lookupWith_quiet type fuel lawful Entry.record Prod.snd (fun _ => rfl) before
      ok enough key
    refine ⟨_, before, Option.bind_eq_some_iff.mpr ⟨_, Option.bind_eq_some_iff.mpr
      ⟨_, looked, rfl⟩, rfl⟩, ok, Moves.refl _, Or.inl ?_⟩
    rw [Option.isSome_map]
    rfl
  | getKey key =>
    have looked := @lookupWith_quiet type fuel lawful Entry.key Prod.fst (fun _ => rfl) before
      ok enough key
    exact ⟨_, before, Option.bind_eq_some_iff.mpr ⟨_, looked, rfl⟩, ok, Moves.refl _, Or.inl rfl⟩
  | keys size =>
    refine ⟨_, before, rfl, ok, Moves.refl _, Or.inl ?_⟩
    unfold stKeys
    rw [@WellFormed.listLoop_contents _ _ _ ok Entry.key Prod.fst fun _ => rfl]
    rfl
  | values size =>
    refine ⟨_, before, rfl, ok, Moves.refl _, Or.inl ?_⟩
    unfold stValues
    rw [@WellFormed.listLoop_contents _ _ _ ok Entry.record Prod.snd fun _ => rfl]
    rfl
  | tableSize =>
    refine ⟨_, before, rfl, ok, Moves.refl _, Or.inl ?_⟩
    show (Reply.size before.table.numEntries, _) = (Reply.size before.contents.length, _)
    rw [← ok.length_contents]
    rfl

/-! ### The tables of a program -/

/-- A table with its callbacks. -/
structure Handle where
  type : HashType
  table : Table

/-- The tables of a program, numbered as they were created, with the blocks of the arena. -/
structure World where
  tables : List Handle
  blocks : Nat → Storage
  arena : Arena

namespace World

variable (world : World)

/-- A table with its block. -/
def load (handle : Handle) : State :=
  { table := handle.table, storage := world.blocks handle.table.entries, arena := world.arena,
    scripts := [] }

/-- Store a table and its block back, and release the block it had when it got another. -/
def store (number : Nat) (handle : Handle) (state : State) : World :=
  { tables := world.tables.set number { handle with table := state.table },
    blocks := fun block =>
      if block = state.table.entries then state.storage
      else if block = handle.table.entries then freshStorage
      else world.blocks block,
    arena := state.arena }

/-- Add a table and its block, when it was created. -/
def create (type : HashType) : Option (Table × Storage) × Arena → Reply × World
  | (none, arena) => (.created none, { world with arena := arena })
  | (some (table, storage), arena) =>
    (.created (some world.tables.length),
      { tables := world.tables ++ [{ type := type, table := table }],
        blocks := Function.update world.blocks table.entries storage,
        arena := arena })

/-- The callbacks and the association lists of the tables. -/
def view : List (HashType × List (Word × Word)) :=
  world.tables.map fun handle =>
    (handle.type, contents handle.table (world.blocks handle.table.entries))

end World

/-- The operations of a program. -/
inductive Operation where
  | initTable (type : HashType)
  | initTableWithSize (type : HashType) (size : Nat)
  | copy (number : Nat)
  | on (number : Nat) (call : Call)

namespace Operation

/-- The operation on the tables; nothing happens without the table it is about. -/
def perform (fuel : Nat) (operation : Operation) (world : World) : Option (Reply × World) :=
  match operation with
  | .initTable type => some (world.create type (stInitTable world.arena))
  | .initTableWithSize type size =>
    some (world.create type (stInitTableWithSize size world.arena))
  | .copy number => do
    let handle ← world.tables[number]?
    return world.create handle.type
      (stCopy handle.table (world.blocks handle.table.entries) world.arena)
  | .on number call => do
    let handle ← world.tables[number]?
    let (reply, state) ← call.perform handle.type quiet fuel (world.load handle)
    return (reply, world.store number handle state)

/-- The operation on the association lists. -/
def onLists (operation : Operation) (lists : List (HashType × List (Word × Word))) :
    Option (Reply × List (HashType × List (Word × Word))) :=
  match operation with
  | .initTable type => some (.created (some lists.length), lists ++ [(type, [])])
  | .initTableWithSize type _ => some (.created (some lists.length), lists ++ [(type, [])])
  | .copy number => do
    let (type, elements) ← lists[number]?
    return (.created (some lists.length), lists ++ [(type, elements)])
  | .on number call => do
    let (type, elements) ← lists[number]?
    return ((call.onList type elements).1,
      lists.set number (type, (call.onList type elements).2))

/-- The reply of an operation that got no room, if it can need some. -/
def refusal : Operation → Option Reply
  | .initTable _ => some (.created none)
  | .initTableWithSize .. => some (.created none)
  | .copy _ => some (.created none)
  | .on _ call => if call.needsRoom then some (.code stError) else none

/-- Whether an operation asks for more entries than a table can have. -/
def TooLarge (operation : Operation) (lists : List (HashType × List (Word × Word))) : Prop :=
  match operation with
  | .initTable _ => False
  | .initTableWithSize _ size => 2 ^ 58 ≤ size
  | .copy _ => False
  | .on number _ => ∃ type elements, lists[number]? = some (type, elements) ∧
      2 ^ 57 < elements.length

/-- The table of an operation exists, its callbacks are lawful, and its caller keeps the
promises. -/
def Admissible (operation : Operation) (lists : List (HashType × List (Word × Word))) : Prop :=
  match operation with
  | .initTable type => type.Lawful
  | .initTableWithSize type _ => type.Lawful
  | .copy number => number < lists.length
  | .on number call => ∃ type elements, lists[number]? = some (type, elements) ∧
      call.Admissible type elements

end Operation

/-- The worlds a program can reach, with any arena. -/
inductive Reachable (fuel : Nat) : World → Prop
  | start (blocks : Nat → Storage) (arena : Arena) :
      Reachable fuel { tables := [], blocks := blocks, arena := arena }
  | step {world after : World} {reply : Reply} (operation : Operation)
      (reachable : Reachable fuel world) (admissible : operation.Admissible world.view)
      (performed : operation.perform fuel world = some (reply, after)) : Reachable fuel after

/-- The tables are well formed and have different blocks. -/
structure World.Ok (world : World) : Prop where
  lawful : ∀ handle ∈ world.tables, handle.type.Lawful
  wellFormed : ∀ handle ∈ world.tables,
    WellFormed handle.type handle.table (world.blocks handle.table.entries)
  granted : ∀ handle ∈ world.tables, handle.table.entries < world.arena.requests
  apart : world.tables.Pairwise fun first second => first.table.entries ≠ second.table.entries

theorem World.view_getElem? (world : World) (number : Nat) :
    world.view[number]? = (world.tables[number]?).map fun handle =>
      (handle.type, contents handle.table (world.blocks handle.table.entries)) :=
  List.getElem?_map

/-- Two tables with different numbers have different blocks. -/
theorem World.Ok.entries_ne {world : World} (ok : world.Ok) {first second : Nat}
    {firstHandle secondHandle : Handle} (different : first ≠ second)
    (isFirst : world.tables[first]? = some firstHandle)
    (isSecond : world.tables[second]? = some secondHandle) :
    firstHandle.table.entries ≠ secondHandle.table.entries := by
  obtain ⟨firstInside, rfl⟩ := List.getElem?_eq_some_iff.mp isFirst
  obtain ⟨secondInside, rfl⟩ := List.getElem?_eq_some_iff.mp isSecond
  have pairs := List.pairwise_iff_getElem.mp ok.apart
  rcases Nat.lt_or_gt_of_ne different with less | greater
  · exact pairs first second firstInside secondInside less
  · exact (pairs second first secondInside firstInside greater).symm

/-- The tables after one of them was stored back. -/
theorem World.store_getElem? (world : World) {number : Nat} {handle : Handle}
    (isHandle : world.tables[number]? = some handle) (state : State) (other : Nat) :
    (world.store number handle state).tables[other]? =
      if other = number then some { handle with table := state.table }
      else world.tables[other]? := by
  have inside := (List.getElem?_eq_some_iff.mp isHandle).1
  show (world.tables.set number _)[other]? = _
  by_cases same : other = number
  · rw [if_pos same, same, List.getElem?_set_self inside]
  · rw [if_neg same, List.getElem?_set_ne (Ne.symm same)]

/-- A table that is stored back does not have the block of another. -/
theorem World.Ok.other_block {world : World} (ok : world.Ok) {number other : Nat}
    {handle otherHandle : Handle} (isHandle : world.tables[number]? = some handle)
    (isOther : world.tables[other]? = some otherHandle) (different : other ≠ number)
    {state : State} (moves : Moves (world.load handle) state) :
    otherHandle.table.entries ≠ state.table.entries ∧
      otherHandle.table.entries ≠ handle.table.entries := by
  have apart := ok.entries_ne different isOther isHandle
  refine ⟨fun same => ?_, apart⟩
  have below := ok.granted otherHandle (List.mem_of_getElem? isOther)
  rcases moves.block with kept | ⟨fresh, _⟩
  · exact apart (same.trans kept)
  · have above : world.arena.requests ≤ state.table.entries := fresh
    omega

theorem World.Ok.store {world : World} (ok : world.Ok) {number : Nat} {handle : Handle}
    (isHandle : world.tables[number]? = some handle) {state : State}
    (stateOk : state.Ok handle.type) (moves : Moves (world.load handle) state) :
    (world.store number handle state).Ok ∧ (world.store number handle state).view =
      world.view.set number (handle.type, state.contents) := by
  have member := List.mem_of_getElem? isHandle
  have requests : world.arena.requests ≤ state.arena.requests := moves.requests
  have own : (world.store number handle state).blocks state.table.entries = state.storage :=
    if_pos rfl
  have others : ∀ {other otherHandle}, world.tables[other]? = some otherHandle →
      other ≠ number → (world.store number handle state).blocks otherHandle.table.entries =
        world.blocks otherHandle.table.entries := by
    intro other otherHandle isOther different
    obtain ⟨notNew, notOld⟩ := ok.other_block isHandle isOther different moves
    exact (if_neg notNew).trans (if_neg notOld)
  have cases : ∀ stored ∈ (world.store number handle state).tables,
      stored = { handle with table := state.table } ∨
        ∃ other, other ≠ number ∧ world.tables[other]? = some stored := by
    intro stored isStored
    obtain ⟨other, at_⟩ := List.mem_iff_getElem?.mp isStored
    rw [world.store_getElem? isHandle] at at_
    by_cases same : other = number
    · rw [if_pos same] at at_
      exact Or.inl (Option.some.inj at_).symm
    · rw [if_neg same] at at_
      exact Or.inr ⟨other, same, at_⟩
  refine ⟨⟨?_, ?_, ?_, ?_⟩, ?_⟩
  · intro stored isStored
    rcases cases stored isStored with rfl | ⟨other, _, isOther⟩
    · exact ok.lawful handle member
    · exact ok.lawful stored (List.mem_of_getElem? isOther)
  · intro stored isStored
    rcases cases stored isStored with rfl | ⟨other, different, isOther⟩
    · show WellFormed handle.type state.table _
      rw [own]
      exact stateOk
    · rw [others isOther different]
      exact ok.wellFormed stored (List.mem_of_getElem? isOther)
  · intro stored isStored
    rcases cases stored isStored with rfl | ⟨other, _, isOther⟩
    · show state.table.entries < state.arena.requests
      rcases moves.block with kept | ⟨_, below⟩
      · rw [kept]
        exact Nat.lt_of_lt_of_le (ok.granted handle member) requests
      · exact below
    · exact Nat.lt_of_lt_of_le (ok.granted stored (List.mem_of_getElem? isOther)) requests
  · rw [List.pairwise_iff_getElem]
    intro first second firstInside secondInside less
    have isFirst := List.getElem?_eq_getElem firstInside
    have isSecond := List.getElem?_eq_getElem secondInside
    rw [world.store_getElem? isHandle] at isFirst isSecond
    by_cases firstSame : first = number
    · rw [if_pos firstSame] at isFirst
      rw [if_neg (by omega)] at isSecond
      rw [← Option.some.inj isFirst]
      exact (ok.other_block isHandle isSecond (by omega) moves).1.symm
    · rw [if_neg firstSame] at isFirst
      by_cases secondSame : second = number
      · rw [if_pos secondSame] at isSecond
        rw [← Option.some.inj isSecond]
        exact (ok.other_block isHandle isFirst firstSame moves).1
      · rw [if_neg secondSame] at isSecond
        exact ok.entries_ne (Nat.ne_of_lt less) isFirst isSecond
  · refine List.ext_getElem? fun other => ?_
    have inside := (List.getElem?_eq_some_iff.mp isHandle).1
    rw [World.view_getElem?, world.store_getElem? isHandle]
    by_cases same : other = number
    · rw [if_pos same, same, List.getElem?_set_self (by
        rw [World.view, List.length_map]
        exact inside), Option.map_some]
      show some (handle.type, contents state.table _) = _
      rw [own]
      rfl
    · rw [if_neg same, List.getElem?_set_ne (Ne.symm same), World.view_getElem?]
      cases isOther : world.tables[other]? with
      | none => rfl
      | some otherHandle => rw [Option.map_some, Option.map_some, others isOther same]

/-- A request that was refused changes nothing but the arena. -/
theorem World.Ok.refuse {world : World} (ok : world.Ok) {arena : Arena}
    (requests : world.arena.requests ≤ arena.requests) : World.Ok { world with arena := arena } :=
  ⟨ok.lawful, ok.wellFormed,
    fun handle member => Nat.lt_of_lt_of_le (ok.granted handle member) requests, ok.apart⟩

theorem World.Ok.create {world : World} (ok : world.Ok) {type : HashType} {table : Table}
    {storage : Storage} {arena : Arena} (lawful : type.Lawful)
    (wellFormed : WellFormed type table storage) (fresh : world.arena.requests ≤ table.entries)
    (used : table.entries < arena.requests) :
    (world.create type (some (table, storage), arena)).2.Ok ∧
      (world.create type (some (table, storage), arena)).2.view =
        world.view ++ [(type, contents table storage)] := by
  have others : ∀ handle ∈ world.tables,
      Function.update world.blocks table.entries storage handle.table.entries =
        world.blocks handle.table.entries := by
    intro handle member
    have below := ok.granted handle member
    exact Function.update_of_ne (by omega) _ _
  have cases : ∀ handle ∈ world.tables ++ [{ type := type, table := table }],
      handle ∈ world.tables ∨ handle = { type := type, table := table } := by
    intro handle member
    rwa [List.mem_append, List.mem_singleton] at member
  refine ⟨⟨?_, ?_, ?_, ?_⟩, ?_⟩
  · intro handle member
    rcases cases handle member with old | rfl
    · exact ok.lawful handle old
    · exact lawful
  · intro handle member
    show WellFormed handle.type handle.table
      (Function.update world.blocks table.entries storage handle.table.entries)
    rcases cases handle member with old | rfl
    · rw [others handle old]
      exact ok.wellFormed handle old
    · rw [Function.update_self]
      exact wellFormed
  · intro handle member
    rcases cases handle member with old | rfl
    · exact Nat.lt_trans (Nat.lt_of_lt_of_le (ok.granted handle old) fresh) used
    · exact used
  · show (world.tables ++ [Handle.mk type table]).Pairwise _
    rw [List.pairwise_append]
    refine ⟨ok.apart, List.pairwise_singleton _ _, ?_⟩
    intro first member second isSecond
    rw [List.mem_singleton.mp isSecond]
    exact Nat.ne_of_lt (Nat.lt_of_lt_of_le (ok.granted first member) fresh)
  · show (world.tables ++ [Handle.mk type table]).map _ = _
    rw [List.map_append, List.map_singleton]
    congr 1
    · refine List.map_congr_left fun handle member => ?_
      show (_, contents handle.table
        (Function.update world.blocks table.entries storage handle.table.entries)) = _
      rw [others handle member]
    · show [(type, contents table (Function.update world.blocks table.entries storage
        table.entries))] = _
      rw [Function.update_self]

/-! ### Refinement -/

/-- What an operation does: that on the association lists, or nothing when there was no
room. -/
structure Operation.Meets (operation : Operation) (before : World) (reply : Reply)
    (after : World) : Prop where
  ok : after.Ok
  outcome : operation.onLists before.view = some (reply, after.view) ∨
    operation.refusal = some reply ∧ after.view = before.view ∧
      (before.arena.Refuses after.arena ∨ operation.TooLarge before.view)

/-- Creating a table does what it stands for, or is refused. -/
theorem World.Ok.allocate {world : World} (ok : world.Ok) {type : HashType} {size : Nat}
    (lawful : type.Lawful) :
    (world.create type (allocateTable size world.arena)).2.Ok ∧
      ((world.create type (allocateTable size world.arena)).1 =
          .created (some world.view.length) ∧
        (world.create type (allocateTable size world.arena)).2.view = world.view ++ [(type, [])] ∨
      (world.create type (allocateTable size world.arena)).1 = .created none ∧
        (world.create type (allocateTable size world.arena)).2.view = world.view ∧
          (world.arena.Refuses (world.create type (allocateTable size world.arena)).2.arena ∨
            2 ^ 58 ≤ size)) := by
  cases allocated : allocateTable size world.arena with
  | mk result arena =>
    obtain ⟨_, requests, ⟨rfl, cause⟩ | ⟨table, rfl, created⟩⟩ := allocateTable_spec allocated
    · exact ⟨ok.refuse requests, Or.inr ⟨rfl, rfl, cause⟩⟩
    · obtain ⟨wellFormed, empty⟩ := @Created.ok type _ _ _ _ created
      obtain ⟨afterOk, viewed⟩ := ok.create lawful wellFormed created.fresh created.used
      refine ⟨afterOk, Or.inl ⟨?_, ?_⟩⟩
      · unfold World.view
        rw [List.length_map]
        rfl
      · rw [viewed, empty]

/-- Every operation returns, and does what it stands for. -/
theorem Operation.perform_meets (enough : searchRounds ≤ fuel) {operation : Operation}
    {world : World} (ok : world.Ok) (admissible : operation.Admissible world.view) :
    ∃ reply after, operation.perform fuel world = some (reply, after) ∧
      operation.Meets world reply after := by
  cases operation with
  | initTable type =>
    obtain ⟨afterOk, ⟨created, viewed⟩ | ⟨refused, viewed, cause⟩⟩ :=
      @World.Ok.allocate world ok type 0 admissible
    · refine ⟨(world.create type (allocateTable 0 world.arena)).1,
        (world.create type (allocateTable 0 world.arena)).2, rfl, afterOk, Or.inl ?_⟩
      rw [created, viewed]
      rfl
    · refine ⟨_, _, rfl, afterOk, Or.inr ⟨congrArg some refused.symm, viewed, Or.inl ?_⟩⟩
      exact cause.resolve_right (by decide)
  | initTableWithSize type size =>
    obtain ⟨afterOk, ⟨created, viewed⟩ | ⟨refused, viewed, cause⟩⟩ :=
      @World.Ok.allocate world ok type size admissible
    · refine ⟨(world.create type (allocateTable size world.arena)).1,
        (world.create type (allocateTable size world.arena)).2, rfl, afterOk, Or.inl ?_⟩
      rw [created, viewed]
      rfl
    · exact ⟨_, _, rfl, afterOk, Or.inr ⟨congrArg some refused.symm, viewed, cause⟩⟩
  | copy number =>
    have inside : number < world.tables.length := by
      have exists_ : number < world.view.length := admissible
      unfold World.view at exists_
      rwa [List.length_map] at exists_
    have isHandle := List.getElem?_eq_getElem inside
    generalize world.tables[number] = handle at isHandle
    have member := List.mem_of_getElem? isHandle
    have wellFormed := ok.wellFormed handle member
    have listed : (Operation.copy number).onLists world.view =
        some (.created (some world.view.length), world.view ++
          [(handle.type, contents handle.table (world.blocks handle.table.entries))]) := by
      show (world.view[number]?).bind _ = _
      rw [World.view_getElem?, isHandle]
      rfl
    refine ⟨(world.create handle.type (stCopy handle.table (world.blocks handle.table.entries)
      world.arena)).1, (world.create handle.type (stCopy handle.table
      (world.blocks handle.table.entries) world.arena)).2,
      Option.bind_eq_some_iff.mpr ⟨handle, isHandle, rfl⟩, ?_⟩
    cases copied : stCopy handle.table (world.blocks handle.table.entries) world.arena with
    | mk result arena =>
      obtain ⟨_, requests, ⟨rfl, refuses⟩ | ⟨table, rfl, copyOk, same, fresh, used⟩⟩ :=
        stCopy_spec wellFormed copied
      · exact ⟨ok.refuse requests, Or.inr ⟨rfl, rfl, Or.inl refuses⟩⟩
      · obtain ⟨afterOk, viewed⟩ :=
          ok.create (ok.lawful handle member) copyOk fresh used
        refine ⟨afterOk, Or.inl ?_⟩
        rw [listed, viewed, same]
        unfold World.view
        rw [List.length_map]
        rfl
  | on number call =>
    obtain ⟨type, elements, listed, keeps⟩ := admissible
    have viewed := listed
    rw [World.view_getElem?] at listed
    obtain ⟨handle, isHandle, pair⟩ := Option.map_eq_some_iff.mp listed
    cases pair
    have member := List.mem_of_getElem? isHandle
    have loaded : (world.load handle).Ok handle.type := ok.wellFormed handle member
    obtain ⟨reply, state, performed, meets⟩ :=
      Call.perform_meets (ok.lawful handle member) enough loaded keeps
    obtain ⟨afterOk, stored⟩ := ok.store isHandle meets.ok meets.moves
    refine ⟨reply, world.store number handle state, ?_, afterOk, ?_⟩
    · exact Option.bind_eq_some_iff.mpr ⟨handle, isHandle,
        Option.bind_eq_some_iff.mpr ⟨_, performed, rfl⟩⟩
    · rcases meets.outcome with listedOutcome | ⟨needs, rfl, refused⟩
      · refine Or.inl ?_
        rw [stored]
        show (world.view[number]?).bind _ = _
        rw [viewed]
        show some ((call.onList handle.type (world.load handle).contents).1, _) = _
        rw [← listedOutcome]
        show some (_, world.view.set number (_, (call.onList handle.type
          (world.load handle).contents).2)) = _
        rw [← listedOutcome]
      · refine Or.inr ⟨if_pos needs, ?_, refused.cause.imp_right fun many => ?_⟩
        · rw [stored, refused.contents_eq]
          obtain ⟨inside, same⟩ := List.getElem?_eq_some_iff.mp viewed
          show world.view.set number
            (handle.type, contents handle.table (world.blocks handle.table.entries)) = world.view
          rw [← same, List.set_getElem_self]
        · refine ⟨_, _, viewed, ?_⟩
          rw [(ok.wellFormed handle member).length_contents]
          exact many

theorem Reachable.ok (enough : searchRounds ≤ fuel) {world : World}
    (reachable : Reachable fuel world) : world.Ok := by
  induction reachable with
  | start blocks arena =>
    exact ⟨fun _ member => absurd member List.not_mem_nil,
      fun _ member => absurd member List.not_mem_nil,
      fun _ member => absurd member List.not_mem_nil, List.Pairwise.nil⟩
  | step operation _ admissible performed inductionHypothesis =>
    obtain ⟨reply, after, again, meets⟩ :=
      Operation.perform_meets enough inductionHypothesis admissible
    rw [performed] at again
    cases again
    exact meets.ok

def numericCompare (left right : Word) : Int := if left = right then 0 else 1

def numericHash (value : Word) : Word := (value >>> 11 ||| value <<< 3) ^^^ (value >>> 3)

/-- The callbacks for numbers. -/
def stHashtypeNum : HashType := { compare := numericCompare, hash := numericHash }

theorem numericCompare_eq_zero {left right : Word} :
    numericCompare left right = 0 ↔ left = right := by
  unfold numericCompare
  by_cases same : left = right
  · rw [if_pos same]
    exact ⟨fun _ => same, fun _ => rfl⟩
  · rw [if_neg same]
    exact ⟨fun wrong => absurd wrong (by decide), fun equal => absurd equal same⟩

theorem stHashtypeNum_lawful : stHashtypeNum.Lawful where
  refl _ := numericCompare_eq_zero.mpr rfl
  symm equal := numericCompare_eq_zero.mpr (numericCompare_eq_zero.mp equal).symm
  trans first second := numericCompare_eq_zero.mpr
    ((numericCompare_eq_zero.mp first).trans (numericCompare_eq_zero.mp second))
  hash equal := congrArg numericHash (numericCompare_eq_zero.mp equal)

/-- An arena that grants the first requests. -/
def grantingFirst (requests : Nat) : Arena :=
  { granted := fun request => decide (request < requests), requests := 0 }

def emptyWorld (arena : Arena) : World :=
  { tables := [], blocks := fun _ => freshStorage, arena := arena }

/-- The operations that fill a table of four entries. -/
def filling : List Operation :=
  [.initTable stHashtypeNum, .on 0 (.insert 0 10), .on 0 (.insert 1 11), .on 0 (.insert 2 12),
    .on 0 (.insert 3 13)]

/-- Operations one after another. -/
def runAll (fuel : Nat) : List Operation → World → Option World
  | [], world => some world
  | operation :: rest, world => do
    let (_, world) ← operation.perform fuel world
    runAll fuel rest world

/-- Operations without further promises than that the callbacks are lawful. -/
def Operation.Plain : Operation → Prop
  | .initTable type => type.Lawful
  | .on _ (.insert ..) => True
  | _ => False

theorem Operation.Plain.admissible {operation : Operation} (plain : operation.Plain)
    {world after : World} {reply : Reply}
    (performed : operation.perform fuel world = some (reply, after)) :
    operation.Admissible world.view := by
  cases operation with
  | initTable type => exact plain
  | initTableWithSize type size => exact plain.elim
  | copy number => exact plain.elim
  | on number call =>
    obtain ⟨handle, isHandle, _⟩ := Option.bind_eq_some_iff.mp performed
    refine ⟨handle.type, contents handle.table (world.blocks handle.table.entries), ?_, ?_⟩
    · rw [World.view_getElem?, isHandle]
      rfl
    · cases call with
      | insert key value => trivial
      | _ => exact plain.elim

theorem runAll_reachable :
    ∀ (operations : List Operation) {world after : World}, (∀ op ∈ operations, op.Plain) →
      Reachable fuel world → runAll fuel operations world = some after →
      Reachable fuel after := by
  intro operations
  induction operations with
  | nil =>
    intro world after _ reachable ran
    obtain rfl := Option.some.inj ran
    exact reachable
  | cons operation rest inductionHypothesis =>
    intro world after plain reachable ran
    obtain ⟨⟨reply, middle⟩, performed, ran⟩ := Option.bind_eq_some_iff.mp ran
    have first := plain operation List.mem_cons_self
    exact inductionHypothesis (fun op member => plain op (List.mem_cons_of_mem _ member))
      (reachable.step operation (first.admissible performed) performed) ran

/-- A program can fill a table of four entries. -/
theorem filling_reachable {world : World}
    (ran : runAll searchRounds filling (emptyWorld (grantingFirst 2)) = some world) :
    Reachable searchRounds world := by
  refine runAll_reachable filling ?_ (Reachable.start _ _) ran
  intro operation member
  simp only [filling, List.mem_cons, List.not_mem_nil, or_false] at member
  rcases member with rfl | rfl | rfl | rfl | rfl
  · exact stHashtypeNum_lawful
  all_goals trivial

end LaserD.Hash
