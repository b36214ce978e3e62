/-
This file follows `Array.insertBack` of a slice of the array itself.

The code compares the address of the slice with the address of each element in
use, before it makes room. A match gives the position in the storage, from which
the elements are read after the storage has moved. The values lie before the old
end and the copies behind it, so no copy overwrites a value that is still to be
read, in the old block as well as in a new one. What the arena makes of the old
block is left to the oracle.
-/

import LaserD.Container.Runs

namespace LaserD.Container

variable {T : Type}

/-! ### The scan -/

/-- The loop over the elements in use that remembers the one at the address of the slice. The
storage starts at its block. -/
def sourceOffsetLoop (values storage : Slice) : Nat → Nat → Nat → Nat
  | 0, _, sourceOffset => sourceOffset
  | count + 1, index, sourceOffset =>
      sourceOffsetLoop values storage count (index + 1)
        (if values.block = storage.block ∧ values.offset = index then index else sourceOffset)

/-- `Array.insertBack` of a slice that may be part of the storage. The position `sizeMax` stands
for a slice that is not. -/
def insertBackValues (element : Element T) (oracle : Oracle T) (array : Option Nat)
    (values : Slice) (world : World T) : Option (Nat × World T) :=
  if values.length = 0 then some (0, world)
  else
    match array with
    | none => some (0, (ensureAdditional element oracle none values.length world).2)
    | some state =>
        let storage := (world.state state).storage
        let sourceOffset := sourceOffsetLoop values storage (length (some state) world) 0 sizeMax
        match ensureAdditional element oracle (some state) values.length world with
        | (false, world) => some (0, world)
        | (true, world) => do
            let values := if sourceOffset ≠ sizeMax then
                { values with block := (world.state state).storage.block, offset := sourceOffset }
              else values
            let world ← appendLoop state values.length values world
            some (values.length, world)

/-- The loop finds the element in use at the address of the slice. -/
theorem sourceOffsetLoop_eq (values storage : Slice) (count index found : Nat) :
    sourceOffsetLoop values storage count index found =
      if values.block = storage.block ∧ index ≤ values.offset ∧ values.offset < index + count then
        values.offset
      else found := by
  induction count generalizing index found with
  | zero => exact (if_neg fun own => by omega).symm
  | succ count inductionHypothesis =>
    rw [sourceOffsetLoop, inductionHypothesis]
    by_cases here : values.offset = index
    · by_cases same : values.block = storage.block
      · rw [if_neg (by omega), if_pos ⟨same, here⟩, if_pos ⟨same, by omega⟩, here]
      · simp [same]
    · rw [if_neg fun own : values.block = storage.block ∧ values.offset = index => here own.2]
      refine if_congr (and_congr_right fun _ => ?_) rfl rfl
      omega

/-- Where the positions fit a `size_t`, the loop with its sentinel comes to the position
`sourceOffset` gives. -/
theorem sourceOffsetLoop_sourceOffset {world : World T} {state : Nat} (values : Slice)
    (block : Option Nat) (small : (world.state state).used ≤ sizeMax) :
    (let sourceOffset :=
        sourceOffsetLoop values (world.state state).storage (world.state state).used 0 sizeMax
      if sourceOffset ≠ sizeMax then { values with block := block, offset := sourceOffset }
      else values) =
      match sourceOffset state values world with
      | none => values
      | some offset => { values with block := block, offset := offset } := by
  unfold sourceOffset
  dsimp only
  rw [sourceOffsetLoop_eq]
  simp only [Nat.zero_le, true_and, Nat.zero_add]
  by_cases own : values.block = (world.state state).storage.block ∧
      values.offset < (world.state state).used
  · rw [if_pos own, if_pos own, if_pos (by omega)]
  · rw [if_neg own, if_neg own, if_neg (not_not_intro rfl)]

/-- The loop with its sentinel does what `insertBackSlice` says. -/
theorem insertBackValues_eq (element : Element T) (oracle : Oracle T) (array : Option Nat)
    (values : Slice) (world : World T) :
    insertBackValues element oracle array values world =
      insertBackSlice element oracle array values world := by
  unfold insertBackValues insertBackSlice
  cases array with
  | none => rfl
  | some state =>
    by_cases empty : values.length = 0
    · rw [if_pos empty, if_pos empty]
    · rw [if_neg empty, if_neg empty]
      dsimp only [length]
      cases ensured : ensureAdditional element oracle (some state) values.length world with
      | mk granted grown =>
        cases granted with
        | false => rfl
        | true =>
          have small : (world.state state).used ≤ sizeMax := by
            by_contra large
            rw [ensureAdditional_eq, if_pos (by omega)] at ensured
            cases ensured
          have rebased := sourceOffsetLoop_sourceOffset values (grown.state state).storage.block small
          dsimp only at rebased ⊢
          rw [rebased] <;> cases sourceOffset state values world <;> rfl

/-! ### The array's own elements -/

/-- A slice of the elements in use. -/
def World.data (world : World T) (state first pastLast : Nat) : Slice :=
  { block := (world.state state).storage.block, offset := first, length := pastLast - first }

/-- The elements a slice of the elements in use shows. -/
theorem readSlice_contents {world : World T} {state first pastLast block : Nat} (ok : world.Ok)
    (made : state < world.states) (inside : pastLast ≤ (world.state state).used)
    (present : (world.state state).storage.block = some block) :
    readSlice world block first (pastLast - first) =
      ((contents world state).drop first).take (pastLast - first) := by
  have bound := ok.used_le state made
  unfold contents readSlice
  rw [storage_of_block present]
  refine List.ext_getElem? fun index => ?_
  simp only [List.getElem?_map, List.getElem?_take, List.getElem?_drop]
  grind

/-- Appending a slice of an array's own elements puts their copies behind its contents, or
fails, with nothing changed, for want of room. -/
theorem insertBackValues_own (element : Element T) (oracle : Oracle T) {world : World T}
    (ok : world.Ok) {state : Nat} (made : state < world.states) {first pastLast : Nat}
    (inside : pastLast ≤ (world.state state).used) :
    (∃ after, insertBackValues element oracle (some state) (world.data state first pastLast)
          world = some (pastLast - first, after) ∧
        Becomes state world after
          (contents world state ++ ((contents world state).drop first).take (pastLast - first))) ∨
      ∃ after, insertBackValues element oracle (some state) (world.data state first pastLast)
          world = some (0, after) ∧
        Fails element oracle state world after
          ((world.state state).used + (pastLast - first)) := by
  rw [insertBackValues_eq]
  unfold insertBackSlice
  by_cases empty : pastLast - first = 0
  · rw [if_pos (show (world.data state first pastLast).length = 0 from empty), empty]
    refine Or.inl ⟨world, rfl, ok, Acts.refl state world, ?_⟩
    rw [List.take_zero, List.append_nil]
  · rw [if_neg (show (world.data state first pastLast).length ≠ 0 from empty)]
    rcases ensureAdditional_outcome element oracle ok made (pastLast - first) with
      ⟨after, ensured, fails⟩ | ⟨middle, ensured, grown, fits⟩
    · refine Or.inr ⟨after, ?_, fails⟩
      rw [show (world.data state first pastLast).length = pastLast - first from rfl, ensured]
    · have middleMade : state < middle.states := grown.acts.states.symm ▸ made
      have inside' : pastLast ≤ (middle.state state).used := by
        rw [grown.used]
        exact inside
      have own : sourceOffset state (world.data state first pastLast) world = some first :=
        if_pos ⟨rfl, by show first < _; omega⟩
      obtain ⟨block, present⟩ := grown.ok.block_of_lt middleMade
        (show (middle.state state).used < (middle.state state).storage.length by omega)
      have untouched : Untouched middle state block first (pastLast - first) :=
        Or.inr ⟨present, by omega⟩
      obtain ⟨after, appended, appends⟩ := appendLoop_appends (pastLast - first) grown.ok
        middleMade fits untouched
      have read : readSlice middle block first (pastLast - first) = _ :=
        readSlice_contents grown.ok middleMade inside' present
      have total : (readSlice middle block first (pastLast - first)).length = pastLast - first := by
        rw [readSlice, List.length_map, List.length_range]
      have becomes := (appends.becomes grown.ok middleMade (by rw [total]; exact fits)).of_extends
        grown
      rw [read, grown.contents_eq ok made] at becomes
      refine Or.inl ⟨after, ?_, becomes⟩
      rw [show (world.data state first pastLast).length = pastLast - first from rfl, ensured]
      dsimp only
      rw [own]
      dsimp only
      rw [present]
      show (appendLoop state (pastLast - first) _ middle).bind _ = _
      rw [appended]
      rfl

/-- The world of one array of bytes after a byte was inserted. -/
def firstByte : World UInt8 :=
  match insertBack byteElement grantingOracle (some 0) 5 firstArray with
  | none => firstArray
  | some (_, world) => world

theorem firstByte_reachable : Reachable byteElement grantingOracle firstByte :=
  firstArray_reachable.performs 0 (.insertBack 5) (by decide) trivial rfl

theorem insertBackValues_own_first :
    (∃ after, insertBackValues byteElement grantingOracle (some 0) (firstByte.data 0 0 1)
          firstByte = some (1 - 0, after) ∧
        Becomes 0 firstByte after
          (contents firstByte 0 ++ ((contents firstByte 0).drop 0).take (1 - 0))) ∨
      ∃ after, insertBackValues byteElement grantingOracle (some 0) (firstByte.data 0 0 1)
          firstByte = some (0, after) ∧
        Fails byteElement grantingOracle 0 firstByte after
          ((firstByte.state 0).used + (1 - 0)) :=
  insertBackValues_own byteElement grantingOracle firstByte_reachable.ok (by decide) (by decide)

end LaserD.Container
