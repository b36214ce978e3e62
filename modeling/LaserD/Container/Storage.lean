/-
This file gives each primitive of the array model its meaning on lists.

The storage of an array is a list, its contents are the used part of it.
`Acts` says what an operation on one array leaves alone: every other array and
every block that does not belong to it. It is transitive and keeps the
well-formedness of the world, so each operation is followed primitive by
primitive, with only the storage list left to track.
-/

import LaserD.Lib.Overwrite
import LaserD.Container.Arrays

namespace LaserD.Container

open Overwrite

variable {T : Type}

/-! ### Well-formed worlds -/

/-- Every array uses at most its storage, a null storage is empty, and no two arrays share a
block. -/
structure World.Ok (world : World T) : Prop where
  used_le : ∀ state < world.states,
    (world.state state).used ≤ (world.state state).storage.length
  null : ∀ state < world.states, (world.state state).storage.block = none →
    (world.state state).storage.length = 0
  bounded : ∀ state < world.states, ∀ block, (world.state state).storage.block = some block →
    block < world.blocks
  apart : ∀ first < world.states, ∀ second < world.states, first ≠ second →
    ∀ block, (world.state first).storage.block = some block →
      (world.state second).storage.block ≠ some block

/-- The storage of an array. -/
def storage (world : World T) (state : Nat) : List T :=
  match (world.state state).storage.block with
  | none => []
  | some block => (List.range (world.state state).storage.length).map (world.cell block)

/-- The contents of an array. -/
def contents (world : World T) (state : Nat) : List T :=
  (storage world state).take (world.state state).used

theorem storage_of_block {world : World T} {state block : Nat}
    (present : (world.state state).storage.block = some block) :
    storage world state =
      (List.range (world.state state).storage.length).map (world.cell block) := by
  unfold storage
  rw [present]

theorem World.Ok.length_storage {world : World T} (ok : world.Ok) {state : Nat}
    (made : state < world.states) :
    (storage world state).length = (world.state state).storage.length := by
  unfold storage
  split
  · next null => exact (ok.null state made null).symm
  · rw [List.length_map, List.length_range]

theorem World.Ok.length_contents {world : World T} (ok : world.Ok) {state : Nat}
    (made : state < world.states) : (contents world state).length = (world.state state).used := by
  unfold contents
  rw [List.length_take, ok.length_storage made]
  exact Nat.min_eq_left (ok.used_le state made)

/-! ### What an operation leaves alone -/

/-- An operation on one array. -/
structure Acts (state : Nat) (before after : World T) : Prop where
  states : after.states = before.states
  blocks : before.blocks ≤ after.blocks
  other : ∀ another, another ≠ state → after.state another = before.state another
  cell : ∀ block < before.blocks, (before.state state).storage.block ≠ some block →
    after.cell block = before.cell block
  own : ∀ block, (after.state state).storage.block = some block →
    (before.state state).storage.block = some block ∨
      before.blocks ≤ block ∧ block < after.blocks

theorem Acts.refl (state : Nat) (world : World T) : Acts state world world :=
  ⟨rfl, le_rfl, fun _ _ => rfl, fun _ _ _ => rfl, fun _ same => Or.inl same⟩

theorem Acts.trans {state : Nat} {first second third : World T} (left : Acts state first second)
    (right : Acts state second third) : Acts state first third where
  states := right.states.trans left.states
  blocks := left.blocks.trans right.blocks
  other another different := (right.other another different).trans (left.other another different)
  cell block old foreign := by
    refine (right.cell block (old.trans_le left.blocks) fun same => ?_).trans
      (left.cell block old foreign)
    rcases left.own block same with before | ⟨fresh, -⟩
    · exact foreign before
    · exact absurd old (Nat.not_lt.mpr fresh)
  own block same := by
    rcases right.own block same with middle | ⟨lower, upper⟩
    · exact (left.own block middle).imp_right fun ⟨lower, upper⟩ =>
        ⟨lower, upper.trans_le right.blocks⟩
    · exact Or.inr ⟨left.blocks.trans lower, upper⟩

section

variable {state : Nat} {before after : World T}

/-- The contents of the other arrays stay. -/
theorem Acts.storage_other (acts : Acts state before after) (ok : before.Ok)
    (made : state < before.states) {another : Nat} (anotherMade : another < before.states)
    (different : another ≠ state) : storage after another = storage before another := by
  unfold storage
  rw [acts.other another different]
  split
  · rfl
  · next block present =>
    rw [acts.cell block (ok.bounded another anotherMade block present)
      (ok.apart another anotherMade state made different block present)]

theorem Acts.contents_other (acts : Acts state before after) (ok : before.Ok)
    (made : state < before.states) {another : Nat} (anotherMade : another < before.states)
    (different : another ≠ state) : contents after another = contents before another := by
  unfold contents
  rw [acts.storage_other ok made anotherMade different, acts.other another different]

/-- An operation that keeps its own array well formed keeps the world well formed. -/
theorem Acts.ok (acts : Acts state before after) (ok : before.Ok) (made : state < before.states)
    (used : (after.state state).used ≤ (after.state state).storage.length)
    (null : (after.state state).storage.block = none →
      (after.state state).storage.length = 0) : after.Ok := by
  have ownBound (block : Nat) (same : (after.state state).storage.block = some block) :
      block < after.blocks := by
    rcases acts.own block same with old | ⟨-, upper⟩
    · exact (ok.bounded state made block old).trans_le acts.blocks
    · exact upper
  have ownApart (another : Nat) (anotherMade : another < before.states)
      (different : another ≠ state) (block : Nat)
      (same : (after.state state).storage.block = some block) :
      (before.state another).storage.block ≠ some block := by
    intro shared
    rcases acts.own block same with old | ⟨lower, -⟩
    · exact ok.apart another anotherMade state made different block shared old
    · exact absurd (ok.bounded another anotherMade block shared) (Nat.not_lt.mpr lower)
  refine ⟨?_, ?_, ?_, ?_⟩
  · intro another anotherMade
    rw [acts.states] at anotherMade
    by_cases same : another = state
    · rw [same]
      exact used
    · rw [acts.other another same]
      exact ok.used_le another anotherMade
  · intro another anotherMade
    rw [acts.states] at anotherMade
    by_cases same : another = state
    · rw [same]
      exact null
    · rw [acts.other another same]
      exact ok.null another anotherMade
  · intro another anotherMade block present
    rw [acts.states] at anotherMade
    by_cases same : another = state
    · rw [same] at present
      exact ownBound block present
    · rw [acts.other another same] at present
      exact (ok.bounded another anotherMade block present).trans_le acts.blocks
  · intro first firstMade second secondMade different block present
    rw [acts.states] at firstMade secondMade
    by_cases firstSame : first = state
    · have secondDifferent : second ≠ state := fun same => different (firstSame.trans same.symm)
      rw [firstSame] at present
      rw [acts.other second secondDifferent]
      exact ownApart second secondMade secondDifferent block present
    · rw [acts.other first firstSame] at present
      by_cases secondSame : second = state
      · rw [secondSame]
        exact fun shared => ownApart first firstMade firstSame block shared present
      · rw [acts.other second secondSame]
        exact ok.apart first firstMade second secondMade different block present

end

/-! ### Primitives -/

@[simp] theorem setState_self (world : World T) (state : Nat) (record : State) :
    (world.setState state record).state state = record := Function.update_self ..

theorem setState_other (world : World T) {state another : Nat} (record : State)
    (different : another ≠ state) :
    (world.setState state record).state another = world.state another :=
  Function.update_of_ne different _ _

/-- Setting the used length changes nothing else. -/
theorem setUsed_acts (world : World T) (state used : Nat) :
    Acts state world (world.setState state { world.state state with used := used }) := by
  refine ⟨rfl, le_rfl, fun another different => setState_other _ _ different,
    fun _ _ _ => rfl, fun block same => Or.inl ?_⟩
  rw [setState_self] at same
  exact same

theorem setUsed_storage (world : World T) (state used : Nat) :
    storage (world.setState state { world.state state with used := used }) state =
      storage world state := by
  unfold storage
  rw [setState_self]
  rfl

/-- Replacing the elements of the own block. -/
theorem setBlock_acts {world : World T} {state block : Nat}
    (present : (world.state state).storage.block = some block) (cells : Nat → T) :
    Acts state world (world.setBlock block cells) := by
  refine ⟨rfl, le_rfl, fun _ _ => rfl, fun other _ foreign => ?_, fun _ same => Or.inl same⟩
  refine Function.update_of_ne ?_ _ _
  rintro rfl
  exact foreign present

theorem setBlock_storage {world : World T} {state block : Nat}
    (present : (world.state state).storage.block = some block) (cells : Nat → T) :
    storage (world.setBlock block cells) state =
      (List.range (world.state state).storage.length).map cells := by
  have same : ((world.setBlock block cells).state state).storage.block = some block := present
  rw [storage_of_block same]
  simp only [World.setBlock, Function.update_self]

/-- What an operation that only writes elements of one array does. -/
structure Writes (state : Nat) (before after : World T) (stored : List T) : Prop where
  acts : Acts state before after
  record : after.state state = before.state state
  stored : storage after state = stored

theorem Writes.refl (state : Nat) (world : World T) :
    Writes state world world (storage world state) :=
  ⟨Acts.refl state world, rfl, rfl⟩

section

variable {world : World T} {state : Nat}

/-- A position inside the storage has a block. -/
theorem World.Ok.block_of_lt (ok : world.Ok) (made : state < world.states) {index : Nat}
    (inside : index < (world.state state).storage.length) :
    ∃ block, (world.state state).storage.block = some block := by
  cases present : (world.state state).storage.block with
  | none =>
    rw [ok.null state made present] at inside
    exact absurd inside (Nat.not_lt_zero index)
  | some block => exact ⟨block, rfl⟩

/-- Writing elements keeps the world well formed. -/
theorem Writes.ok {after : World T} {stored : List T} (writes : Writes state world after stored)
    (ok : world.Ok) (made : state < world.states) : after.Ok := by
  refine writes.acts.ok ok made ?_ ?_
  · rw [writes.record]
    exact ok.used_le state made
  · rw [writes.record]
    exact ok.null state made

theorem storeStorage_writes (ok : world.Ok) (made : state < world.states) (index : Nat) (value : T)
    (inside : index < (world.state state).storage.length) :
    ∃ after, storeStorage state index value world = some after ∧
      Writes state world after (overwrite (storage world state) index [value]) := by
  obtain ⟨block, present⟩ := ok.block_of_lt made inside
  refine ⟨world.setBlock block (Function.update (world.cell block) index value), ?_,
    setBlock_acts present _, rfl, ?_⟩
  · unfold storeStorage
    dsimp only
    rw [present]
    dsimp only
    rw [if_pos inside]
  · rw [setBlock_storage present, storage_of_block present]
    refine List.ext_getElem? fun position => ?_
    rw [getElem?_map_range, getElem?_overwrite, getElem?_map_range, Function.update_apply]
    · simp only [List.length_singleton]
      grind
    · rw [List.length_singleton, List.length_map, List.length_range]
      exact inside

theorem loadStorage_eq (ok : world.Ok) (made : state < world.states) {index : Nat}
    (inside : index < (world.state state).storage.length) :
    loadStorage state index world = (storage world state)[index]? := by
  obtain ⟨block, present⟩ := ok.block_of_lt made inside
  unfold loadStorage
  dsimp only
  rw [present, storage_of_block present, getElem?_map_range]

/-- Writing after writing. -/
theorem Writes.trans {middle after : World T} {first second : List T}
    (left : Writes state world middle first) (right : Writes state middle after second) :
    Writes state world after second :=
  ⟨left.acts.trans right.acts, right.record.trans left.record, right.stored⟩

theorem memmoveStorage_writes (ok : world.Ok) (made : state < world.states)
    (target source count : Nat) (targetFits : target + count ≤ (world.state state).storage.length)
    (sourceFits : source + count ≤ (world.state state).storage.length) :
    ∃ after, memmoveStorage state target source count world = some after ∧
      Writes state world after
        (overwrite (storage world state) target (((storage world state).drop source).take count)) := by
  unfold memmoveStorage
  cases present : (world.state state).storage.block with
  | none =>
    have empty := ok.null state made present
    have nothing : count = 0 := by omega
    refine ⟨world, if_pos nothing, Acts.refl state world, rfl, ?_⟩
    rw [nothing, List.take_zero, overwrite_nil]
  | some block =>
    refine ⟨_, rfl, setBlock_acts present _, rfl, ?_⟩
    have total := ok.length_storage made
    rw [setBlock_storage present]
    refine List.ext_getElem? fun position => ?_
    rw [getElem?_map_range, getElem?_overwrite, List.getElem?_take, List.getElem?_drop,
      storage_of_block present, getElem?_map_range, getElem?_map_range, List.length_take,
      List.length_drop, List.length_map, List.length_range]
    · grind
    · rw [List.length_take, List.length_drop, total]
      omega

theorem fillLoop_writes (value : T) (index count : Nat) (ok : world.Ok)
    (made : state < world.states)
    (fits : index + count ≤ (world.state state).storage.length) :
    ∃ after, fillLoop state value count index world = some after ∧
      Writes state world after
        (overwrite (storage world state) index (List.replicate count value)) := by
  induction count generalizing index world with
  | zero =>
    refine ⟨world, rfl, ?_⟩
    rw [List.replicate_zero, overwrite_nil]
    exact Writes.refl state world
  | succ count inductionHypothesis =>
    obtain ⟨middle, stored, writes⟩ := storeStorage_writes ok made index value (by omega)
    have record := writes.record
    obtain ⟨after, filled, writesRest⟩ := inductionHypothesis (index + 1)
      (writes.ok ok made) (by rw [writes.acts.states]; exact made) (by rw [record]; omega)
    refine ⟨after, ?_, ?_⟩
    · rw [fillLoop, stored]
      exact filled
    · have both := writes.trans writesRest
      rw [writes.stored, overwrite_cons] at both
      · exact both
      · rw [List.length_replicate, ok.length_storage made]
        omega

end

/-! ### Appending -/

/-- The elements a slice shows. -/
def readSlice (world : World T) (block offset count : Nat) : List T :=
  (List.range count).map fun index => world.cell block (offset + index)

/-- What an operation that appends to an array with room does. -/
structure Appends (state : Nat) (before after : World T) (values : List T) : Prop where
  acts : Acts state before after
  slice : (after.state state).storage = (before.state state).storage
  used : (after.state state).used = (before.state state).used + values.length
  stored : storage after state =
    overwrite (storage before state) (before.state state).used values

section

variable {world : World T} {state : Nat}

/-- Appending keeps the world well formed. -/
theorem Appends.ok {after : World T} {values : List T} (appends : Appends state world after values)
    (ok : world.Ok) (made : state < world.states)
    (fits : (world.state state).used + values.length ≤ (world.state state).storage.length) :
    after.Ok := by
  refine appends.acts.ok ok made ?_ ?_
  · rw [appends.used, appends.slice]
    exact fits
  · rw [appends.slice]
    exact ok.null state made

/-- The contents after appending. -/
theorem Appends.contents_eq {after : World T} {values : List T}
    (appends : Appends state world after values) (ok : world.Ok) (made : state < world.states)
    (fits : (world.state state).used + values.length ≤ (world.state state).storage.length) :
    contents after state = contents world state ++ values := by
  unfold contents
  rw [appends.stored, appends.used, take_overwrite]
  rw [ok.length_storage made]
  exact fits

/-- Storing one element behind the used ones. -/
theorem push_appends (ok : world.Ok) (made : state < world.states) (value : T)
    (fits : (world.state state).used < (world.state state).storage.length) :
    ∃ middle, storeStorage state (world.state state).used value world = some middle ∧
      Appends state world (middle.setState state
        { middle.state state with used := (world.state state).used + 1 }) [value] := by
  obtain ⟨middle, stored, writes⟩ := storeStorage_writes ok made _ value fits
  refine ⟨middle, stored, writes.acts.trans (setUsed_acts middle state _), ?_, ?_, ?_⟩
  · rw [setState_self, writes.record]
  · rw [setState_self, List.length_singleton]
  · rw [setUsed_storage, writes.stored]

/-- A slice that an append does not overwrite: it lies in another block, or before the used
end. -/
def Untouched (world : World T) (state block offset count : Nat) : Prop :=
  (world.state state).storage.block ≠ some block ∧ block < world.blocks ∨
    (world.state state).storage.block = some block ∧ offset + count ≤ (world.state state).used

/-- Appending leaves such a slice as it was. -/
theorem Appends.readSlice_eq {after : World T} {values : List T} {block offset count : Nat}
    (appends : Appends state world after values) (ok : world.Ok) (made : state < world.states)
    (fits : (world.state state).used + values.length ≤ (world.state state).storage.length)
    (untouched : Untouched world state block offset count) :
    readSlice after block offset count = readSlice world block offset count := by
  unfold readSlice
  refine List.map_congr_left fun index inside => ?_
  rw [List.mem_range] at inside
  rcases untouched with ⟨different, old⟩ | ⟨same, before⟩
  · rw [appends.acts.cell block old different]
  · have sameAfter : (after.state state).storage.block = some block := by rw [appends.slice, same]
    have entry := congrArg (fun stored => stored[offset + index]?) appends.stored
    have below : ¬ ((world.state state).used ≤ offset + index ∧
        offset + index < (world.state state).used + values.length) := by omega
    have lengthAfter : offset + index < (after.state state).storage.length := by
      rw [appends.slice]
      omega
    rw [getElem?_overwrite (by rw [ok.length_storage made]; exact fits), if_neg below,
      storage_of_block sameAfter, storage_of_block same, getElem?_map_range, getElem?_map_range,
      if_pos lengthAfter, if_pos (by omega)] at entry
    exact Option.some.inj entry

theorem appendLoop_appends (length : Nat) {count offset block : Nat} (ok : world.Ok)
    (made : state < world.states)
    (fits : (world.state state).used + count ≤ (world.state state).storage.length)
    (untouched : Untouched world state block offset count) :
    ∃ after, appendLoop state count { block := some block, offset := offset, length := length }
        world = some after ∧
      Appends state world after (readSlice world block offset count) := by
  induction count generalizing offset world with
  | zero =>
    refine ⟨world, rfl, Acts.refl state world, rfl, rfl, ?_⟩
    exact (overwrite_nil _ _).symm
  | succ count inductionHypothesis =>
    obtain ⟨middle, stored, appends⟩ :=
      push_appends ok made (world.cell block offset) (by omega)
    have fitsOne : (world.state state).used + [world.cell block offset].length ≤
        (world.state state).storage.length := by
      rw [List.length_singleton]
      omega
    have rest : Untouched world state block (offset + 1) count :=
      untouched.imp_right fun ⟨same, before⟩ => ⟨same, by omega⟩
    have unread := appends.readSlice_eq ok made fitsOne rest
    have restAfter : Untouched (middle.setState state
        { middle.state state with used := (world.state state).used + 1 }) state block (offset + 1)
        count := by
      have blocks := appends.acts.blocks
      unfold Untouched at rest ⊢
      rw [appends.slice, appends.used]
      exact rest.imp (fun ⟨different, old⟩ => ⟨different, old.trans_le blocks⟩)
        fun ⟨same, before⟩ => ⟨same, before.trans (Nat.le_add_right _ _)⟩
    obtain ⟨after, appended, appendsRest⟩ := inductionHypothesis
      (appends.ok ok made fitsOne) (appends.acts.states.symm ▸ made)
      (by rw [appends.slice, appends.used, List.length_singleton]; omega) restAfter
    have split : readSlice world block offset (count + 1) =
        world.cell block offset :: readSlice world block (offset + 1) count := by
      unfold readSlice
      rw [List.range_succ_eq_map, List.map_cons, List.map_map]
      refine congrArg _ (List.map_congr_left fun index _ => ?_)
      show world.cell block (offset + (index + 1)) = _
      rw [Nat.add_right_comm, Nat.add_assoc]
    refine ⟨after, ?_, appends.acts.trans appendsRest.acts,
      appendsRest.slice.trans appends.slice, ?_, ?_⟩
    · rw [appendLoop]
      dsimp only
      rw [stored]
      exact appended
    · rw [appendsRest.used, appends.used, unread, split, List.length_singleton, List.length_cons,
        Nat.add_assoc, Nat.add_comm 1]
    · rw [appendsRest.stored, appends.stored, appends.used, unread, split]
      refine overwrite_cons ?_
      rw [ok.length_storage made, readSlice, List.length_map, List.length_range]
      exact fits

end

/-! ### Growth -/

/-- Only the number of requests differs. -/
structure Idle (before after : World T) : Prop where
  state : after.state = before.state
  cell : after.cell = before.cell
  states : after.states = before.states
  blocks : after.blocks = before.blocks

theorem Idle.refl (world : World T) : Idle world world := ⟨rfl, rfl, rfl, rfl⟩

theorem Idle.ok {before after : World T} (idle : Idle before after) (ok : before.Ok) :
    after.Ok := by
  obtain ⟨state, cell, states, blocks⟩ := idle
  refine ⟨?_, ?_, ?_, ?_⟩
  · rw [state, states]
    exact ok.used_le
  · rw [state, states]
    exact ok.null
  · rw [state, states, blocks]
    exact ok.bounded
  · rw [state, states]
    exact ok.apart

theorem Idle.acts {before after : World T} (idle : Idle before after) (state : Nat) :
    Acts state before after := by
  refine ⟨idle.states, idle.blocks.ge, fun another _ => ?_, fun block _ _ => ?_, fun block => ?_⟩
  · rw [idle.state]
  · rw [idle.cell]
  · rw [idle.state]
    exact Or.inl

theorem Idle.storage_eq {before after : World T} (idle : Idle before after) (state : Nat) :
    storage after state = storage before state := by
  unfold storage
  rw [idle.state, idle.cell]

theorem Idle.contents_eq {before after : World T} (idle : Idle before after) (state : Nat) :
    contents after state = contents before state := by
  unfold contents
  rw [idle.storage_eq, idle.state]

/-- Storage that was enlarged: the old storage followed by zeros. -/
structure Extends (element : Element T) (state : Nat) (before after : World T) : Prop where
  ok : after.Ok
  acts : Acts state before after
  used : (after.state state).used = (before.state state).used
  stored : ∃ count, storage after state =
    storage before state ++ List.replicate count element.zero

theorem Extends.refl (element : Element T) (state : Nat) {world : World T} (ok : world.Ok) :
    Extends element state world world :=
  ⟨ok, Acts.refl state world, rfl, 0, (List.append_nil _).symm⟩

/-- Enlarging the storage keeps the contents. -/
theorem Extends.contents_eq {element : Element T} {state : Nat} {before after : World T}
    (extends' : Extends element state before after) (ok : before.Ok)
    (made : state < before.states) : contents after state = contents before state := by
  obtain ⟨count, stored⟩ := extends'.stored
  unfold contents
  rw [stored, extends'.used, List.take_append_of_le_length]
  rw [ok.length_storage made]
  exact ok.used_le state made

/-- Why the arena refuses a number of elements. -/
def Refuses (element : Element T) (oracle : Oracle T) (world : World T) (elements : Nat) : Prop :=
  elements > sizeMax / element.sizeof ∨ oracle.grant world.requests = false

section

variable (element : Element T) (oracle : Oracle T) {world : World T} {state : Nat}

/-- A granted request moves the array to a new block. -/
theorem expandArray_granted (ok : world.Ok) (made : state < world.states) {elements : Nat}
    (more : (world.state state).storage.length < elements)
    (small : ¬ elements > sizeMax / element.sizeof) (granted : oracle.grant world.requests = true) :
    ∃ grown, expandArray element oracle (world.state state).storage elements world =
        ({ block := some world.blocks, offset := 0, length := elements }, grown) ∧
      grown.state = world.state ∧ grown.states = world.states ∧
      grown.blocks = world.blocks + 1 ∧
      (∀ block < world.blocks, (world.state state).storage.block ≠ some block →
        grown.cell block = world.cell block) ∧
      (List.range elements).map (grown.cell world.blocks) = storage world state ++
        List.replicate (elements - (world.state state).storage.length) element.zero := by
  unfold expandArray
  rw [if_neg (Nat.not_le.mpr more), if_neg small, if_pos granted]
  refine ⟨_, rfl, rfl, rfl, rfl, ?_, ?_⟩
  · intro block old foreign
    dsimp only
    rw [Function.update_of_ne (Nat.ne_of_lt old)]
    cases present : (world.state state).storage.block with
    | none => rfl
    | some own =>
      refine Function.update_of_ne ?_ _ _
      rintro rfl
      exact foreign present
  · have total := ok.length_storage made
    dsimp only
    rw [Function.update_self]
    refine List.ext_getElem? fun index => ?_
    rw [getElem?_map_range, List.getElem?_append, List.getElem?_replicate, total]
    cases present : (world.state state).storage.block with
    | none =>
      have empty := ok.null state made present
      grind
    | some block =>
      rw [storage_of_block present, getElem?_map_range]
      grind

theorem reserve_cases (ok : world.Ok) (made : state < world.states) (elements : Nat) :
    (∃ after, reserve element oracle (some state) elements world = (false, after) ∧
        Idle world after ∧ (world.state state).storage.length < elements ∧
        Refuses element oracle world elements) ∨
      ∃ after, reserve element oracle (some state) elements world = (true, after) ∧
        Extends element state world after ∧
        (after.state state).storage.length = max (world.state state).storage.length elements := by
  unfold reserve capacity
  dsimp only
  by_cases enough : elements ≤ (world.state state).storage.length
  · rw [if_pos enough]
    exact Or.inr ⟨world, rfl, Extends.refl element state ok, (Nat.max_eq_left enough).symm⟩
  · rw [if_neg enough]
    have more := Nat.not_le.mp enough
    by_cases large : elements > sizeMax / element.sizeof
    · have failed : expandArray element oracle (world.state state).storage elements world =
          (Slice.null, world) := by rw [expandArray, if_neg enough, if_pos large]
      rw [failed]
      exact Or.inl ⟨world, rfl, Idle.refl world, more, Or.inl large⟩
    · by_cases granted : oracle.grant world.requests = true
      · obtain ⟨grown, expanded, records, states, blocks, cells, stored⟩ :=
          expandArray_granted element oracle ok made more large granted
        rw [expanded]
        dsimp only
        rw [if_neg (Option.some_ne_none _)]
        refine Or.inr ⟨_, rfl, ?_, ?_⟩
        · have acts : Acts state world (grown.setState state { grown.state state with
              storage := { block := some world.blocks, offset := 0, length := elements } }) := by
            refine ⟨states, ?_, fun another different => ?_, cells, fun block same => ?_⟩
            · exact (Nat.le_succ _).trans blocks.ge
            · rw [setState_other _ _ different, records]
            · rw [setState_self, Option.some.injEq] at same
              refine Or.inr ⟨same.le, ?_⟩
              rw [← same]
              exact (Nat.lt_succ_self _).trans_le blocks.ge
          refine ⟨acts.ok ok made ?_ ?_, acts, ?_,
            elements - (world.state state).storage.length, ?_⟩
          · rw [setState_self, records]
            exact (ok.used_le state made).trans more.le
          · rw [setState_self]
            exact fun impossible => absurd impossible (Option.some_ne_none _)
          · rw [setState_self, records]
          · have moved : ((grown.setState state { grown.state state with
                storage := { block := some world.blocks, offset := 0, length := elements }
              }).state state).storage.block = some world.blocks := by rw [setState_self]
            rw [← stored, storage_of_block moved, setState_self]
            rfl
        · rw [setState_self]
          exact (Nat.max_eq_right more.le).symm
      · have failed : expandArray element oracle (world.state state).storage elements world =
            (Slice.null, { world with requests := world.requests + 1 }) := by
          rw [expandArray, if_neg enough, if_neg large, if_neg granted]
        rw [failed]
        exact Or.inl ⟨_, rfl, ⟨rfl, rfl, rfl, rfl⟩, more,
          Or.inr (Bool.eq_false_iff.mpr granted)⟩

/-- The number of elements an array asks for when it needs room for some more. -/
def grownCapacity (used count room : Nat) : Nat :=
  let grown := (room + room / 2 + 1) % 2 ^ 64
  if grown < room ∨ grown < used + count then used + count else grown

theorem le_grownCapacity (used count room : Nat) :
    used + count ≤ grownCapacity used count room := by
  unfold grownCapacity
  dsimp only
  split
  · exact le_rfl
  · next neither => exact Nat.not_lt.mp (not_or.mp neither).2

theorem ensureAdditional_eq (count : Nat) :
    ensureAdditional element oracle (some state) count world =
      if count > sizeMax - (world.state state).used then (false, world)
      else if (world.state state).used + count ≤ (world.state state).storage.length then
        (true, world)
      else reserve element oracle (some state) (grownCapacity (world.state state).used count
        (world.state state).storage.length) world := rfl

/-- Room for some more elements is made, or there was none and the arena refuses. -/
theorem ensureAdditional_cases (ok : world.Ok) (made : state < world.states) (count : Nat) :
    (∃ after, ensureAdditional element oracle (some state) count world = (false, after) ∧
        Idle world after ∧
        (count > sizeMax - (world.state state).used ∨
          (world.state state).storage.length < (world.state state).used + count ∧
          Refuses element oracle world (grownCapacity (world.state state).used count
            (world.state state).storage.length))) ∨
      ∃ after, ensureAdditional element oracle (some state) count world = (true, after) ∧
        Extends element state world after ∧
        (after.state state).used + count ≤ (after.state state).storage.length := by
  rw [ensureAdditional_eq]
  by_cases overflow : count > sizeMax - (world.state state).used
  · rw [if_pos overflow]
    exact Or.inl ⟨world, rfl, Idle.refl world, Or.inl overflow⟩
  · rw [if_neg overflow]
    by_cases room : (world.state state).used + count ≤ (world.state state).storage.length
    · rw [if_pos room]
      exact Or.inr ⟨world, rfl, Extends.refl element state ok, room⟩
    · rw [if_neg room]
      have enough := le_grownCapacity (world.state state).used count
        (world.state state).storage.length
      rcases reserve_cases element oracle ok made (grownCapacity (world.state state).used count
          (world.state state).storage.length) with
        ⟨after, reserved, idle, -, refuses⟩ | ⟨after, reserved, grown, total⟩
      · exact Or.inl ⟨after, reserved, idle, Or.inr ⟨Nat.not_le.mp room, refuses⟩⟩
      · refine Or.inr ⟨after, reserved, grown, ?_⟩
        rw [total, grown.used]
        exact enough.trans (Nat.le_max_right _ _)

end

/-! ### Outcomes -/

/-- An operation that gave an array new contents. -/
structure Becomes (state : Nat) (before after : World T) (xs : List T) : Prop where
  ok : after.Ok
  acts : Acts state before after
  contents_eq : contents after state = xs

/-- An operation that failed: nothing has changed, and the arena has refused room that was
needed. -/
structure Fails (element : Element T) (oracle : Oracle T) (state : Nat) (before after : World T)
    (demand : Nat) : Prop where
  idle : Idle before after
  cause : sizeMax < demand ∨ (before.state state).storage.length < demand ∧
    ∃ elements ≥ demand, Refuses element oracle before elements

section

variable {element : Element T} {oracle : Oracle T} {world : World T} {state : Nat}

theorem Writes.becomes {after : World T} {stored : List T}
    (writes : Writes state world after stored) (ok : world.Ok) (made : state < world.states) :
    Becomes state world after (stored.take (world.state state).used) := by
  refine ⟨writes.ok ok made, writes.acts, ?_⟩
  unfold contents
  rw [writes.stored, writes.record]

/-- Writing elements and then setting the used length. -/
theorem Writes.setUsed {after : World T} {stored : List T}
    (writes : Writes state world after stored) (ok : world.Ok) (made : state < world.states)
    (used : Nat) (fits : used ≤ (world.state state).storage.length) :
    Becomes state world (after.setState state { after.state state with used := used })
      (stored.take used) := by
  have acts := writes.acts.trans (setUsed_acts after state used)
  refine ⟨acts.ok ok made ?_ ?_, acts, ?_⟩
  · rw [setState_self, writes.record]
    exact fits
  · rw [setState_self, writes.record]
    exact ok.null state made
  · unfold contents
    rw [setUsed_storage, setState_self, writes.stored]

/-- An operation after the storage was enlarged. -/
theorem Becomes.of_extends {middle after : World T} {xs : List T}
    (becomes : Becomes state middle after xs) (grown : Extends element state world middle) :
    Becomes state world after xs :=
  ⟨becomes.ok, grown.acts.trans becomes.acts, becomes.contents_eq⟩

theorem Becomes.trans {middle after : World T} {xs ys : List T}
    (first : Becomes state world middle xs) (second : Becomes state middle after ys) :
    Becomes state world after ys :=
  ⟨second.ok, first.acts.trans second.acts, second.contents_eq⟩

theorem Appends.becomes {after : World T} {values : List T}
    (appends : Appends state world after values) (ok : world.Ok) (made : state < world.states)
    (fits : (world.state state).used + values.length ≤ (world.state state).storage.length) :
    Becomes state world after (contents world state ++ values) :=
  ⟨appends.ok ok made fits, appends.acts, appends.contents_eq ok made fits⟩

/-- Making room for some more elements, as an outcome. -/
theorem ensureAdditional_outcome (element : Element T) (oracle : Oracle T) (ok : world.Ok)
    (made : state < world.states) (count : Nat) :
    (∃ after, ensureAdditional element oracle (some state) count world = (false, after) ∧
        Fails element oracle state world after ((world.state state).used + count)) ∨
      ∃ after, ensureAdditional element oracle (some state) count world = (true, after) ∧
        Extends element state world after ∧
        (after.state state).used + count ≤ (after.state state).storage.length := by
  rcases ensureAdditional_cases element oracle ok made count with
    ⟨after, failed, idle, overflow | ⟨more, refuses⟩⟩ | granted
  · exact Or.inl ⟨after, failed, idle, Or.inl (by omega)⟩
  · exact Or.inl ⟨after, failed, idle,
      Or.inr ⟨more, _, le_grownCapacity _ count _, refuses⟩⟩
  · exact Or.inr granted

end

end LaserD.Container
