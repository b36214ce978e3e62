/-
This file shows that the arrays of `laserd.array` refine lists over every run.

`Op.onList` is the operation on lists that an operation on an array stands for,
with the value it returns. An operation either does that, or reports failure and
changes nothing, and then the arena has refused a request the operation could not
do without. In both cases no other array is touched, so that arrays made by
duplication are independent, while the copies of an array are one state record.

Growing the length of an array inside its storage is the one operation that is
not a function of the contents: it shows what the storage holds.
-/

import LaserD.Container.Storage

namespace LaserD.Container

open Overwrite

variable {T : Type}

/-! ### Operations -/

/-- The operations on an array. -/
inductive Op (T : Type)
  | reserve (elements : Nat)
  | resize (newLength : Nat)
  | indexAssign (value : T) (index : Nat)
  | sliceAssign (value : T)
  | sliceAssignPart (value : T) (first pastLast : Nat)
  | rangeIndexAssign (range : Range) (value : T) (index : Nat)
  | rangeSliceAssign (range : Range) (value : T)
  | insertBack (value : T)
  | insertBackSlice (values : Slice)
  | insertBefore (range : Range) (value : T)
  | insertAfter (range : Range) (value : T)
  | removeAny
  | removeBack
  | removeBackCount (howMany : Nat)
  | linearRemove (range : Range)
  | replace (range : Range) (value : T)
  | clear

/-- What an operation returns. -/
inductive Result (T : Type)
  | done
  | flag (value : Bool)
  | count (value : Nat)
  | element (value : T)
  | range (value : Range)

/-- The operation on an array. -/
def Op.perform (element : Element T) (oracle : Oracle T) (array : Option Nat) (op : Op T)
    (world : World T) : Option (Result T × World T) :=
  let flag (result : Bool × World T) := some (Result.flag result.1, result.2)
  let done (result : Option (World T)) := result.map fun world => (Result.done, world)
  let count (result : Option (Nat × World T)) := result.map fun (value, world) =>
    (Result.count value, world)
  match op with
  | .reserve elements => flag (Container.reserve element oracle array elements world)
  | .resize newLength => flag (Container.resize element oracle array newLength world)
  | .indexAssign value index => done (opIndexAssign array value index world)
  | .sliceAssign value => done (opSliceAssign array value world)
  | .sliceAssignPart value first pastLast =>
      done (opSliceAssignPart array value first pastLast world)
  | .rangeIndexAssign range value index => done (range.opIndexAssign value index world)
  | .rangeSliceAssign range value => done (range.opSliceAssign value world)
  | .insertBack value => count (Container.insertBack element oracle array value world)
  | .insertBackSlice values => count (Container.insertBackSlice element oracle array values world)
  | .insertBefore range value => count (Container.insertBefore element oracle array range value world)
  | .insertAfter range value => count (Container.insertAfter element oracle array range value world)
  | .removeAny => (Container.removeAny element array world).map fun (value, world) =>
      (Result.element value, world)
  | .removeBack => done (Container.removeBack element array world)
  | .removeBackCount howMany => count (Container.removeBackCount element array howMany world)
  | .linearRemove range => (Container.linearRemove element array range world).map
      fun (value, world) => (Result.range value, world)
  | .replace range value => count (Container.replace element oracle array range value world)
  | .clear => some (Result.done, Container.clear oracle array world)

/-! ### Lists -/

/-- The operation on lists. `given` are the elements of a slice that is passed, `exposed` are
the elements that a longer length shows. -/
def Op.onList (op : Op T) (given : List T) (exposed : Nat → T) (xs : List T) : Result T × List T :=
  match op with
  | .reserve _ => (.flag true, xs)
  | .resize newLength =>
      (.flag true, xs.take newLength ++
        (List.range (newLength - xs.length)).map fun index => exposed (xs.length + index))
  | .indexAssign value index => (.done, xs.set index value)
  | .sliceAssign value => (.done, List.replicate xs.length value)
  | .sliceAssignPart value first pastLast =>
      (.done, xs.take first ++ List.replicate (pastLast - first) value ++ xs.drop pastLast)
  | .rangeIndexAssign range value index => (.done, xs.set (range.first + index) value)
  | .rangeSliceAssign range value =>
      (.done, xs.take range.first ++ List.replicate (range.pastLast - range.first) value ++
        xs.drop range.pastLast)
  | .insertBack value => (.count 1, xs ++ [value])
  | .insertBackSlice _ => (.count given.length, xs ++ given)
  | .insertBefore range value => (.count 1, xs.take range.first ++ value :: xs.drop range.first)
  | .insertAfter range value =>
      (.count 1, xs.take range.pastLast ++ value :: xs.drop range.pastLast)
  | .removeAny =>
      match xs.getLast? with
      | none => (.done, xs)
      | some value => (.element value, xs.dropLast)
  | .removeBack => (.done, xs.dropLast)
  | .removeBackCount howMany => (.count (min howMany xs.length), xs.take (xs.length - howMany))
  | .linearRemove range =>
      (.range ⟨range.state, range.first, xs.length - (range.pastLast - range.first)⟩,
        xs.take range.first ++ xs.drop range.pastLast)
  | .replace range value => (.count 1, xs.take range.first ++ value :: xs.drop range.pastLast)
  | .clear => (.done, [])

/-- The value by which an operation reports failure. -/
def Op.failure : Op T → Option (Result T)
  | .reserve _ | .resize _ => some (.flag false)
  | .insertBack _ | .insertBackSlice _ | .insertBefore _ _ | .insertAfter _ _ | .replace _ _ =>
      some (.count 0)
  | _ => none

/-- The length that an operation needs room for. -/
def Op.demand (op : Op T) (used : Nat) : Nat :=
  match op with
  | .reserve elements => elements
  | .resize newLength => newLength
  | .insertBack _ | .insertBefore _ _ | .insertAfter _ _ | .replace _ _ => used + 1
  | .insertBackSlice values => used + values.length
  | _ => used

/-- The elements of a slice. -/
def Slice.elements (values : Slice) (world : World T) : List T :=
  match values.block with
  | none => []
  | some block => readSlice world block values.offset values.length

/-- The elements that a longer length shows: what the storage holds, then zeros. -/
def exposed (element : Element T) (world : World T) (state index : Nat) : T :=
  (storage world state).getD index element.zero

/-- The slice an operation is passed. -/
def Op.given (op : Op T) (world : World T) : List T :=
  match op with
  | .insertBackSlice values => values.elements world
  | _ => []

/-! ### Contracts -/

/-- A range taken from the current state of an array. -/
def Range.Current (range : Range) (world : World T) (state : Nat) : Prop :=
  range.state = some state ∧ range.first ≤ range.pastLast ∧
    range.pastLast ≤ (world.state state).used

/-- A slice that is empty or lies outside the storage of an array. -/
def Slice.Outside (values : Slice) (world : World T) (state : Nat) : Prop :=
  values.length = 0 ∨ ∃ block, values.block = some block ∧ block < world.blocks ∧
    (world.state state).storage.block ≠ some block

/-- The assertions of an operation, and that a slice it is passed lies outside. -/
def Op.Admissible (op : Op T) (world : World T) (state : Nat) : Prop :=
  match op with
  | .indexAssign _ index => index < (world.state state).used
  | .sliceAssignPart _ first pastLast => first ≤ pastLast ∧ pastLast ≤ (world.state state).used
  | .rangeIndexAssign range _ index =>
      range.Current world state ∧ index < range.pastLast - range.first
  | .rangeSliceAssign range _ | .insertBefore range _ | .insertAfter range _ | .linearRemove range
  | .replace range _ => range.Current world state
  | .insertBackSlice values => values.Outside world state
  | .removeAny | .removeBack => (world.state state).used ≠ 0
  | _ => True

/-- What an operation promises. -/
structure Op.Meets (op : Op T) (element : Element T) (oracle : Oracle T) (world : World T)
    (state : Nat) (result : Result T) (after : World T) : Prop where
  ok : after.Ok
  acts : Acts state world after
  outcome :
    (result, contents after state) =
      op.onList (op.given world) (exposed element world state) (contents world state) ∨
    (op.failure = some result ∧ Idle world after ∧
      (sizeMax < op.demand (world.state state).used ∨
        (world.state state).storage.length < op.demand (world.state state).used ∧
        ∃ elements ≥ op.demand (world.state state).used, Refuses element oracle world elements))

/-! ### Operations that need no room -/

section

variable {element : Element T} {oracle : Oracle T} {world : World T} {state : Nat}

theorem storeStorage_becomes (ok : world.Ok) (made : state < world.states) (index : Nat)
    (value : T) (inside : index < (world.state state).used) :
    ∃ after, storeStorage state index value world = some after ∧
      Becomes state world after ((contents world state).set index value) := by
  have used := ok.used_le state made
  obtain ⟨after, stored, writes⟩ := storeStorage_writes ok made index value
    (inside.trans_le used)
  refine ⟨after, stored, ?_⟩
  have becomes := writes.becomes ok made
  rw [take_overwrite_of_ge (by exact inside) (by rw [ok.length_storage made]; exact used),
    overwrite_singleton] at becomes
  · exact becomes
  · exact (ok.length_contents made).symm ▸ inside

theorem fillLoop_becomes (ok : world.Ok) (made : state < world.states) {first pastLast : Nat}
    (ordered : first ≤ pastLast) (inside : pastLast ≤ (world.state state).used) (value : T) :
    ∃ after, fillLoop state value (pastLast - first) first world = some after ∧
      Becomes state world after ((contents world state).take first ++
        List.replicate (pastLast - first) value ++ (contents world state).drop pastLast) := by
  have used := ok.used_le state made
  obtain ⟨after, filled, writes⟩ :=
    fillLoop_writes value first (pastLast - first) ok made (by omega)
  refine ⟨after, filled, ?_⟩
  have becomes := writes.becomes ok made
  rw [take_overwrite_of_ge (by rw [List.length_replicate]; omega)
    (by rw [ok.length_storage made]; exact used), overwrite, List.length_replicate,
    Nat.add_sub_cancel' ordered] at becomes
  exact becomes

theorem removeBack_becomes (element : Element T) (ok : world.Ok) (made : state < world.states)
    (nonempty : (world.state state).used ≠ 0) :
    ∃ after, removeBack element (some state) world = some after ∧
      Becomes state world after (contents world state).dropLast := by
  have used := ok.used_le state made
  have shorter := Writes.setUsed (Writes.refl state world) ok made
    ((world.state state).used - 1) (by omega)
  have record := setState_self world state
    { world.state state with used := (world.state state).used - 1 }
  obtain ⟨after, stored, writes⟩ := storeStorage_writes shorter.ok made
    ((world.state state).used - 1) element.init
    (by rw [record]; exact Nat.lt_of_lt_of_le (by omega) used)
  refine ⟨after, ?_, ?_⟩
  · unfold removeBack
    dsimp only
    rw [if_neg (show length (some state) world ≠ 0 from nonempty)]
    exact stored
  · have becomes := shorter.trans (writes.becomes shorter.ok made)
    rw [record, take_overwrite_of_le _ le_rfl, setUsed_storage] at becomes
    · have same : (contents world state).dropLast =
          (storage world state).take ((world.state state).used - 1) := by
        rw [List.dropLast_eq_take, ok.length_contents made, contents, List.take_take,
          Nat.min_eq_left (Nat.sub_le _ _)]
      rw [same]
      exact becomes
    · rw [setUsed_storage, ok.length_storage made, List.length_singleton]
      dsimp only
      omega

theorem back_eq (ok : world.Ok) (made : state < world.states)
    (nonempty : (world.state state).used ≠ 0) :
    back (some state) world = (contents world state).getLast? := by
  have used := ok.used_le state made
  unfold back
  dsimp only
  rw [if_neg (show length (some state) world ≠ 0 from nonempty), loadStorage_eq ok made (by omega), List.getLast?_eq_getElem?,
    ok.length_contents made, contents, List.getElem?_take, if_pos (by omega)]

theorem removeAny_becomes (element : Element T) (ok : world.Ok) (made : state < world.states)
    (nonempty : (world.state state).used ≠ 0) :
    ∃ value after, (contents world state).getLast? = some value ∧
      removeAny element (some state) world = some (value, after) ∧
      Becomes state world after (contents world state).dropLast := by
  obtain ⟨after, removed, becomes⟩ := removeBack_becomes element ok made nonempty
  have nonemptyList : contents world state ≠ [] := by
    rw [← List.length_pos_iff_ne_nil, ok.length_contents made]
    exact Nat.pos_of_ne_zero nonempty
  have last := List.getLast?_eq_some_getLast nonemptyList
  refine ⟨_, after, last, ?_, becomes⟩
  unfold removeAny
  rw [back_eq ok made nonempty, last, removed]
  rfl

theorem removeBackCount_becomes (element : Element T) (ok : world.Ok)
    (made : state < world.states) (howMany : Nat) :
    ∃ after, removeBackCount element (some state) howMany world =
        some (min howMany (contents world state).length, after) ∧
      Becomes state world after
        ((contents world state).take ((contents world state).length - howMany)) := by
  have used := ok.used_le state made
  have total := ok.length_contents made
  have least : (if howMany > (world.state state).used then (world.state state).used else howMany) =
      min howMany (world.state state).used := by
    rw [Nat.min_comm]
    split
    · next many => exact (Nat.min_eq_left many.le).symm
    · next few => exact (Nat.min_eq_right (Nat.not_lt.mp few)).symm
  obtain ⟨after, filled, writes⟩ :=
    fillLoop_writes element.init ((world.state state).used - min howMany (world.state state).used)
      (min howMany (world.state state).used) ok made (by omega)
  refine ⟨after.setState state { after.state state with
    used := (world.state state).used - min howMany (world.state state).used }, ?_, ?_⟩
  · unfold removeBackCount
    dsimp only
    rw [show length (some state) world = (world.state state).used from rfl, least, filled, total]
    rfl
  · have becomes := writes.setUsed ok made
      ((world.state state).used - min howMany (world.state state).used) (by omega)
    rw [take_overwrite_of_le _ le_rfl] at becomes
    · have same : (contents world state).take ((contents world state).length - howMany) =
          (storage world state).take
            ((world.state state).used - min howMany (world.state state).used) := by
        rw [total, contents, List.take_take]
        congr 1
        omega
      rw [same]
      exact becomes
    · rw [ok.length_storage made, List.length_replicate]
      omega

theorem linearRemove_becomes (element : Element T) (ok : world.Ok) (made : state < world.states) {range : Range}
    (current : range.Current world state) :
    ∃ after, linearRemove element (some state) range world =
        some (⟨some state, range.first,
          (contents world state).length - (range.pastLast - range.first)⟩, after) ∧
      Becomes state world after
        ((contents world state).take range.first ++ (contents world state).drop range.pastLast) := by
  obtain ⟨same, ordered, inside⟩ := current
  have used := ok.used_le state made
  have total := ok.length_contents made
  have valid : validRange (some state) range world = true := by
    exact decide_eq_true ⟨same, ordered, inside⟩
  obtain ⟨moved, memmoved, writes⟩ := memmoveStorage_writes ok made
    range.first range.pastLast ((world.state state).used - range.pastLast) (by omega) (by omega)
  have shorter := writes.setUsed ok made
    ((world.state state).used - (range.pastLast - range.first)) (by omega)
  have record := setState_self moved state { moved.state state with
    used := (world.state state).used - (range.pastLast - range.first) }
  have shorterMade : state < (moved.setState state { moved.state state with
      used := (world.state state).used - (range.pastLast - range.first) }).states :=
    shorter.acts.states.symm ▸ made
  obtain ⟨after, filled, writesInit⟩ := fillLoop_writes element.init
    ((world.state state).used - (range.pastLast - range.first)) (range.pastLast - range.first)
    shorter.ok shorterMade (by rw [record, writes.record]; dsimp only; omega)
  refine ⟨after, ?_, ?_⟩
  · unfold linearRemove
    rw [if_pos valid]
    dsimp only
    rw [memmoved]
    dsimp only [Option.bind_eq_bind, Option.bind_some]
    rw [filled, total]
    rfl
  · have becomes := shorter.trans (writesInit.becomes shorter.ok shorterMade)
    have lengthStored := shorter.ok.length_storage shorterMade
    rw [record, take_overwrite_of_le _ le_rfl, setUsed_storage, writes.stored,
      take_overwrite_remove ordered inside (by rw [ok.length_storage made]; exact used)] at becomes
    · exact becomes
    · rw [lengthStored, record, writes.record, List.length_replicate]
      dsimp only
      omega

theorem validRange_of_current {range : Range} (current : range.Current world state) :
    validRange (some state) range world = true :=
  decide_eq_true current

theorem clear_becomes (oracle : Oracle T) (ok : world.Ok) (made : state < world.states) :
    Becomes state world (clear oracle (some state) world) [] := by
  have acts : Acts state world (clear oracle (some state) world) := by
    unfold clear
    refine ⟨rfl, le_rfl, fun another different => setState_other _ _ different,
      fun block _ foreign => ?_, fun block same => ?_⟩
    · dsimp only [World.setState]
      cases present : (world.state state).storage.block with
      | none => rfl
      | some own =>
        refine Function.update_of_ne ?_ _ _
        rintro rfl
        exact foreign present
    · dsimp only at same
      rw [setState_self] at same
      cases same
  have record : (clear oracle (some state) world).state state =
      { storage := Slice.null, used := 0 } := setState_self ..
  refine ⟨acts.ok ok made ?_ ?_, acts, ?_⟩
  · rw [record]
    exact Nat.zero_le _
  · rw [record]
    exact fun _ => rfl
  · rw [contents, record, List.take_zero]

/-! ### Operations that need room -/

theorem resize_cases (element : Element T) (oracle : Oracle T) (ok : world.Ok)
    (made : state < world.states) (newLength : Nat) :
    (∃ after, resize element oracle (some state) newLength world = (false, after) ∧
        Fails element oracle state world after newLength) ∨
      ∃ after, resize element oracle (some state) newLength world = (true, after) ∧
        Becomes state world after ((contents world state).take newLength ++
          (List.range (newLength - (contents world state).length)).map fun index =>
            exposed element world state ((contents world state).length + index)) := by
  have used := ok.used_le state made
  have total := ok.length_storage made
  have shown (middle : World T) (grown : Extends element state world middle)
      (fits : newLength ≤ (middle.state state).storage.length) :
      Becomes state world
        (middle.setState state { middle.state state with used := newLength })
        ((contents world state).take newLength ++
          (List.range (newLength - (contents world state).length)).map fun index =>
            exposed element world state ((contents world state).length + index)) := by
    have middleMade : state < middle.states := grown.acts.states.symm ▸ made
    have becomes := (Writes.setUsed (Writes.refl state middle) grown.ok middleMade newLength
      fits).of_extends grown
    rw [← grown.ok.length_storage middleMade] at fits
    obtain ⟨count, stored⟩ := grown.stored
    rw [stored] at becomes fits
    refine ⟨becomes.ok, becomes.acts, becomes.contents_eq.trans ?_⟩
    rw [List.length_append, List.length_replicate, total] at fits
    rw [contents, List.take_take]
    refine List.ext_getElem? fun index => ?_
    simp only [List.getElem?_append, List.getElem?_take, List.length_take, getElem?_map_range,
      List.getElem?_replicate, exposed, List.getD_eq_getElem?_getD, total]
    have inside := List.getElem?_eq_none_iff (l := storage world state) (i := index)
    grind
  unfold resize
  dsimp only
  by_cases more : newLength > capacity (some state) world
  · rw [if_pos more]
    rcases reserve_cases element oracle ok made newLength with
      ⟨after, reserved, idle, small, refuses⟩ | ⟨after, reserved, grown, length⟩
    · rw [reserved]
      exact Or.inl ⟨after, rfl, idle, Or.inr ⟨small, newLength, le_rfl, refuses⟩⟩
    · rw [reserved]
      exact Or.inr ⟨_, rfl, shown after grown (length ▸ Nat.le_max_right _ _)⟩
  · rw [if_neg more]
    exact Or.inr ⟨_, rfl, shown world (Extends.refl element state ok) (Nat.not_lt.mp more)⟩

theorem insertBack_cases (element : Element T) (oracle : Oracle T) (ok : world.Ok)
    (made : state < world.states) (value : T) :
    (∃ after, insertBack element oracle (some state) value world = some (0, after) ∧
        Fails element oracle state world after ((world.state state).used + 1)) ∨
      ∃ after, insertBack element oracle (some state) value world = some (1, after) ∧
        Becomes state world after (contents world state ++ [value]) := by
  unfold insertBack
  rcases ensureAdditional_outcome element oracle ok made 1 with
    ⟨after, ensured, fails⟩ | ⟨middle, ensured, grown, fits⟩
  · rw [ensured]
    exact Or.inl ⟨after, rfl, fails⟩
  · have middleMade : state < middle.states := grown.acts.states.symm ▸ made
    obtain ⟨stored, store, appends⟩ := push_appends grown.ok middleMade value fits
    rw [ensured]
    dsimp only
    rw [store]
    refine Or.inr ⟨_, rfl, ?_⟩
    rw [← grown.contents_eq ok made]
    exact (appends.becomes grown.ok middleMade fits).of_extends grown

theorem insertBackSlice_cases (element : Element T) (oracle : Oracle T) (ok : world.Ok)
    (made : state < world.states) {values : Slice} (outside : values.Outside world state) :
    (∃ after, insertBackSlice element oracle (some state) values world = some (0, after) ∧
        Fails element oracle state world after ((world.state state).used + values.length)) ∨
      ∃ after, insertBackSlice element oracle (some state) values world =
          some ((values.elements world).length, after) ∧
        Becomes state world after (contents world state ++ values.elements world) := by
  unfold insertBackSlice
  by_cases empty : values.length = 0
  · have nothing : values.elements world = [] := by
      unfold Slice.elements readSlice
      rw [empty]
      split <;> rfl
    rw [if_pos empty, nothing, List.append_nil]
    exact Or.inr ⟨world, rfl, ok, Acts.refl state world, rfl⟩
  · rw [if_neg empty]
    obtain ⟨block, present, old, foreign⟩ := outside.resolve_left empty
    rcases ensureAdditional_outcome element oracle ok made values.length with
      ⟨after, ensured, fails⟩ | ⟨middle, ensured, grown, fits⟩
    · rw [ensured]
      exact Or.inl ⟨after, rfl, fails⟩
    · have middleMade : state < middle.states := grown.acts.states.symm ▸ made
      have elements : values.elements world = readSlice middle block values.offset values.length := by
        unfold Slice.elements readSlice
        rw [present, grown.acts.cell block old foreign]
      have length : (readSlice middle block values.offset values.length).length = values.length := by
        rw [readSlice, List.length_map, List.length_range]
      have untouched : Untouched middle state block values.offset values.length := by
        refine Or.inl ⟨fun same => ?_, old.trans_le grown.acts.blocks⟩
        rcases grown.acts.own block same with before | ⟨fresh, -⟩
        · exact foreign before
        · exact absurd old (Nat.not_lt.mpr fresh)
      have noOffset : sourceOffset state values world = none := by
        refine if_neg fun own => ?_
        exact foreign (own.1.symm.trans present)
      obtain ⟨after, appended, appends⟩ := appendLoop_appends values.length grown.ok middleMade
        fits untouched
      rw [ensured]
      dsimp only
      rw [noOffset]
      dsimp only
      rw [← present] at appended
      rw [appended, elements, length, ← grown.contents_eq ok made]
      refine Or.inr ⟨after, rfl, (appends.becomes grown.ok middleMade ?_).of_extends grown⟩
      rw [length]
      exact fits

theorem insertBefore_cases (element : Element T) (oracle : Oracle T) (ok : world.Ok)
    (made : state < world.states) {range : Range} (current : range.Current world state)
    (value : T) :
    (∃ after, insertBefore element oracle (some state) range value world = some (0, after) ∧
        Fails element oracle state world after ((world.state state).used + 1)) ∨
      ∃ after, insertBefore element oracle (some state) range value world = some (1, after) ∧
        Becomes state world after ((contents world state).take range.first ++
          value :: (contents world state).drop range.first) := by
  unfold insertBefore
  rw [if_pos (validRange_of_current current)]
  obtain ⟨-, ordered, inside⟩ := current
  rcases ensureAdditional_outcome element oracle ok made 1 with
    ⟨after, ensured, fails⟩ | ⟨middle, ensured, grown, fits⟩
  · rw [ensured]
    exact Or.inl ⟨after, rfl, fails⟩
  · have middleMade : state < middle.states := grown.acts.states.symm ▸ made
    have position : range.first ≤ (middle.state state).used := by
      rw [grown.used]
      exact ordered.trans inside
    obtain ⟨moved, memmoved, writes⟩ := memmoveStorage_writes grown.ok middleMade
      (range.first + 1) range.first ((middle.state state).used - range.first) (by omega) (by omega)
    have movedMade : state < moved.states := writes.acts.states.symm ▸ middleMade
    obtain ⟨stored, store, writesValue⟩ := storeStorage_writes
      (writes.ok grown.ok middleMade) movedMade range.first value (by rw [writes.record]; omega)
    have becomes := (writes.trans writesValue).setUsed grown.ok middleMade
      ((middle.state state).used + 1) fits
    rw [writes.stored, take_overwrite_shift position
      (by rw [grown.ok.length_storage middleMade]; exact fits)] at becomes
    rw [ensured]
    dsimp only
    rw [memmoved]
    dsimp only [Option.bind_eq_bind, Option.bind_some]
    rw [store]
    refine Or.inr ⟨_, rfl, ?_⟩
    rw [← grown.contents_eq ok made]
    exact becomes.of_extends grown

theorem replace_cases (element : Element T) (oracle : Oracle T) (ok : world.Ok)
    (made : state < world.states) {range : Range} (current : range.Current world state)
    (value : T) :
    (∃ after, replace element oracle (some state) range value world = some (0, after) ∧
        Fails element oracle state world after ((world.state state).used + 1)) ∨
      ∃ after, replace element oracle (some state) range value world = some (1, after) ∧
        Becomes state world after ((contents world state).take range.first ++
          value :: (contents world state).drop range.pastLast) := by
  unfold replace
  rw [if_pos (validRange_of_current current)]
  by_cases empty : range.first ≥ range.pastLast
  · rw [if_pos empty]
    have same : range.pastLast = range.first := le_antisymm empty current.2.1
    rw [same]
    exact insertBefore_cases element oracle ok made current value
  · rw [if_neg empty]
    refine Or.inr ?_
    obtain ⟨isSame, ordered, inside⟩ := current
    have position : range.first < (contents world state).length := by
      rw [ok.length_contents made]
      omega
    obtain ⟨middle, stored, becomes⟩ := storeStorage_becomes ok made range.first value
      (by omega)
    have middleMade : state < middle.states := becomes.acts.states.symm ▸ made
    have total := becomes.ok.length_contents middleMade
    rw [becomes.contents_eq, List.length_set, ok.length_contents made] at total
    dsimp only
    rw [stored]
    dsimp only [Option.bind_eq_bind, Option.bind_some]
    by_cases many : range.pastLast - range.first > 1
    · rw [if_pos many]
      have behind : (⟨some state, range.first + 1, range.pastLast⟩ : Range).Current middle state :=
        ⟨rfl, by dsimp only; omega, by dsimp only; omega⟩
      obtain ⟨after, removed, shorter⟩ :=
        linearRemove_becomes element becomes.ok middleMade behind
      rw [removed]
      refine ⟨after, rfl, ?_⟩
      have both := becomes.trans shorter
      rw [becomes.contents_eq] at both
      rw [set_take_append_drop position (Nat.not_le.mp empty)] at both
      exact both
    · rw [if_neg many]
      have one : range.pastLast = range.first + 1 := by omega
      refine ⟨middle, rfl, ?_⟩
      rw [one]
      rw [List.set_eq_take_append_cons_drop, if_pos position] at becomes
      exact becomes

/-! ### Every operation -/

theorem Op.meets_of_becomes {op : Op T} {result : Result T} {after : World T} {xs : List T}
    (becomes : Becomes state world after xs)
    (same : op.onList (op.given world) (exposed element world state) (contents world state) =
      (result, xs)) : op.Meets element oracle world state result after := by
  refine ⟨becomes.ok, becomes.acts, Or.inl ?_⟩
  rw [same, becomes.contents_eq]

theorem Op.meets_of_fails {op : Op T} {result : Result T} {after : World T} {demand : Nat}
    (ok : world.Ok) (fails : Fails element oracle state world after demand)
    (failure : op.failure = some result) (same : op.demand (world.state state).used = demand) :
    op.Meets element oracle world state result after := by
  refine ⟨fails.idle.ok ok, fails.idle.acts state, Or.inr ⟨failure, fails.idle, ?_⟩⟩
  rw [same]
  exact fails.cause

/-- An operation on an array does what it stands for on lists, or fails and changes nothing. -/
theorem Op.perform_meets (element : Element T) (oracle : Oracle T) (ok : world.Ok)
    (made : state < world.states) {op : Op T} (admissible : op.Admissible world state) :
    ∃ result after, op.perform element oracle (some state) world = some (result, after) ∧
      op.Meets element oracle world state result after := by
  have total := ok.length_contents made
  cases op with
  | reserve elements =>
    rcases reserve_cases element oracle ok made elements with
      ⟨after, reserved, idle, small, refuses⟩ | ⟨after, reserved, grown, -⟩
    · refine ⟨.flag false, after, by simp only [Op.perform, reserved], ?_⟩
      exact Op.meets_of_fails ok ⟨idle, Or.inr ⟨small, elements, le_rfl, refuses⟩⟩ rfl rfl
    · refine ⟨.flag true, after, by simp only [Op.perform, reserved], ?_⟩
      exact Op.meets_of_becomes ⟨grown.ok, grown.acts, grown.contents_eq ok made⟩ rfl
  | resize newLength =>
    rcases resize_cases element oracle ok made newLength with
      ⟨after, resized, fails⟩ | ⟨after, resized, becomes⟩
    · exact ⟨.flag false, after, by simp only [Op.perform, resized],
        Op.meets_of_fails ok fails rfl rfl⟩
    · exact ⟨.flag true, after, by simp only [Op.perform, resized],
        Op.meets_of_becomes becomes rfl⟩
  | indexAssign value index =>
    obtain ⟨after, stored, becomes⟩ := storeStorage_becomes ok made index value admissible
    refine ⟨.done, after, ?_, Op.meets_of_becomes becomes rfl⟩
    simp only [Op.perform, opIndexAssign]
    rw [if_pos (show index < length (some state) world from admissible), stored]
    rfl
  | sliceAssign value =>
    obtain ⟨after, filled, becomes⟩ := fillLoop_becomes ok made (Nat.zero_le _) le_rfl value
    refine ⟨.done, after, ?_, Op.meets_of_becomes becomes ?_⟩
    · simp only [Op.perform, opSliceAssign]
      rw [show length (some state) world = (world.state state).used - 0 from rfl, filled]
      rfl
    · simp only [Op.onList, total, List.take_zero, List.nil_append, Nat.sub_zero]
      rw [List.drop_eq_nil_of_le total.le, List.append_nil]
  | sliceAssignPart value first pastLast =>
    obtain ⟨after, filled, becomes⟩ := fillLoop_becomes ok made admissible.1 admissible.2 value
    refine ⟨.done, after, ?_, Op.meets_of_becomes becomes rfl⟩
    simp only [Op.perform, opSliceAssignPart]
    rw [if_pos (show first ≤ pastLast ∧ pastLast ≤ length (some state) world from admissible),
      filled]
    rfl
  | rangeIndexAssign range value index =>
    obtain ⟨⟨same, ordered, inside⟩, small⟩ := admissible
    obtain ⟨after, stored, becomes⟩ := storeStorage_becomes ok made (range.first + index) value
      (by omega)
    refine ⟨.done, after, ?_, Op.meets_of_becomes becomes rfl⟩
    simp only [Op.perform, Range.opIndexAssign, same]
    rw [if_pos small, stored]
    rfl
  | rangeSliceAssign range value =>
    obtain ⟨same, ordered, inside⟩ := admissible
    obtain ⟨after, filled, becomes⟩ := fillLoop_becomes ok made ordered inside value
    refine ⟨.done, after, ?_, Op.meets_of_becomes becomes rfl⟩
    simp only [Op.perform, Range.opSliceAssign, same, filled]
    rfl
  | insertBack value =>
    rcases insertBack_cases element oracle ok made value with
      ⟨after, inserted, fails⟩ | ⟨after, inserted, becomes⟩
    · exact ⟨.count 0, after, by simp only [Op.perform, inserted, Option.map_some],
        Op.meets_of_fails ok fails rfl rfl⟩
    · exact ⟨.count 1, after, by simp only [Op.perform, inserted, Option.map_some],
        Op.meets_of_becomes becomes rfl⟩
  | insertBackSlice values =>
    rcases insertBackSlice_cases element oracle ok made admissible with
      ⟨after, inserted, fails⟩ | ⟨after, inserted, becomes⟩
    · exact ⟨.count 0, after, by simp only [Op.perform, inserted, Option.map_some],
        Op.meets_of_fails ok fails rfl rfl⟩
    · exact ⟨.count (values.elements world).length, after,
        by simp only [Op.perform, inserted, Option.map_some], Op.meets_of_becomes becomes rfl⟩
  | insertBefore range value =>
    rcases insertBefore_cases element oracle ok made admissible value with
      ⟨after, inserted, fails⟩ | ⟨after, inserted, becomes⟩
    · exact ⟨.count 0, after, by simp only [Op.perform, inserted, Option.map_some],
        Op.meets_of_fails ok fails rfl rfl⟩
    · exact ⟨.count 1, after, by simp only [Op.perform, inserted, Option.map_some],
        Op.meets_of_becomes becomes rfl⟩
  | insertAfter range value =>
    have behind : (⟨some state, range.pastLast, range.pastLast⟩ : Range).Current world state :=
      ⟨rfl, le_rfl, admissible.2.2⟩
    have valid := validRange_of_current admissible
    rcases insertBefore_cases element oracle ok made behind value with
      ⟨after, inserted, fails⟩ | ⟨after, inserted, becomes⟩
    · refine ⟨.count 0, after, ?_, Op.meets_of_fails ok fails rfl rfl⟩
      simp only [Op.perform, Container.insertAfter, if_pos valid, inserted, Option.map_some]
    · refine ⟨.count 1, after, ?_, Op.meets_of_becomes becomes rfl⟩
      simp only [Op.perform, Container.insertAfter, if_pos valid, inserted, Option.map_some]
  | removeAny =>
    obtain ⟨value, after, last, removed, becomes⟩ :=
      removeAny_becomes element ok made admissible
    refine ⟨.element value, after, by simp only [Op.perform, removed, Option.map_some],
      Op.meets_of_becomes becomes ?_⟩
    simp only [Op.onList, last]
  | removeBack =>
    obtain ⟨after, removed, becomes⟩ := removeBack_becomes element ok made admissible
    exact ⟨.done, after, by simp only [Op.perform, removed, Option.map_some],
      Op.meets_of_becomes becomes rfl⟩
  | removeBackCount howMany =>
    obtain ⟨after, removed, becomes⟩ :=
      removeBackCount_becomes element ok made howMany
    exact ⟨_, after, by simp only [Op.perform, removed, Option.map_some],
      Op.meets_of_becomes becomes rfl⟩
  | linearRemove range =>
    obtain ⟨after, removed, becomes⟩ := linearRemove_becomes element ok made admissible
    refine ⟨.range ⟨some state, range.first,
      (contents world state).length - (range.pastLast - range.first)⟩, after,
      by simp only [Op.perform, removed, Option.map_some], Op.meets_of_becomes becomes ?_⟩
    simp only [Op.onList]
    rw [admissible.1]
  | replace range value =>
    rcases replace_cases element oracle ok made admissible value with
      ⟨after, replaced, fails⟩ | ⟨after, replaced, becomes⟩
    · exact ⟨.count 0, after, by simp only [Op.perform, replaced, Option.map_some],
        Op.meets_of_fails ok fails rfl rfl⟩
    · exact ⟨.count 1, after, by simp only [Op.perform, replaced, Option.map_some],
        Op.meets_of_becomes becomes rfl⟩
  | clear => exact ⟨.done, _, rfl, Op.meets_of_becomes (clear_becomes oracle ok made) rfl⟩

end

/-! ### Construction and duplication -/

section

variable (element : Element T) (oracle : Oracle T) {world : World T}

/-- What making an array with given contents does: the arrays there were keep their records and
their contents. -/
structure Makes (before after : World T) (state : Nat) (xs : List T) : Prop where
  ok : after.Ok
  fresh : state = before.states
  states : after.states = before.states + 1
  contents_eq : contents after state = xs
  other : ∀ another < before.states, after.state another = before.state another ∧
    contents after another = contents before another

theorem construct_makes (ok : world.Ok) {state : Nat} {after : World T}
    (made : construct oracle world = some (state, after)) :
    Makes world after state [] ∧ after.blocks = world.blocks ∧ after.cell = world.cell ∧
      after.state state = { storage := Slice.null, used := 0 } := by
  unfold construct allocState at made
  by_cases granted : oracle.grant world.requests = true
  · rw [if_pos granted] at made
    cases made
    have record : (Function.update world.state world.states
        { storage := Slice.null, used := 0 }) world.states =
        { storage := Slice.null, used := 0 } := Function.update_self ..
    have kept (another : Nat) (old : another < world.states) :
        (Function.update world.state world.states { storage := Slice.null, used := 0 }) another =
          world.state another := Function.update_of_ne (Nat.ne_of_lt old) _ _
    refine ⟨⟨⟨?_, ?_, ?_, ?_⟩, rfl, rfl, ?_, ?_⟩, rfl, rfl, record⟩
    · intro another small
      dsimp only at small ⊢
      rcases Nat.lt_succ_iff_lt_or_eq.mp small with old | rfl
      · rw [kept another old]
        exact ok.used_le another old
      · rw [record]
        exact Nat.zero_le _
    · intro another small
      dsimp only at small ⊢
      rcases Nat.lt_succ_iff_lt_or_eq.mp small with old | rfl
      · rw [kept another old]
        exact ok.null another old
      · rw [record]
        exact fun _ => rfl
    · intro another small block present
      dsimp only at small present ⊢
      rcases Nat.lt_succ_iff_lt_or_eq.mp small with old | rfl
      · rw [kept another old] at present
        exact ok.bounded another old block present
      · rw [record] at present
        cases present
    · intro first firstSmall second secondSmall different block present
      dsimp only at firstSmall secondSmall present ⊢
      rcases Nat.lt_succ_iff_lt_or_eq.mp firstSmall with firstOld | rfl
      · rw [kept first firstOld] at present
        rcases Nat.lt_succ_iff_lt_or_eq.mp secondSmall with secondOld | rfl
        · rw [kept second secondOld]
          exact ok.apart first firstOld second secondOld different block present
        · rw [record]
          exact (Option.some_ne_none block).symm
      · rw [record] at present
        cases present
    · unfold contents
      dsimp only
      rw [record, List.take_zero]
    · intro another old
      refine ⟨kept another old, ?_⟩
      unfold contents storage
      dsimp only
      rw [kept another old]
  · rw [if_neg granted] at made
    cases made

/-- Making an array and then changing only its contents. -/
theorem Makes.becomes {middle after : World T} {state : Nat} {xs ys : List T}
    (makes : Makes world middle state xs) (becomes : Becomes state middle after ys) :
    Makes world after state ys := by
  have made : state < middle.states := by
    rw [makes.states, makes.fresh]
    exact Nat.lt_succ_self _
  refine ⟨becomes.ok, makes.fresh, becomes.acts.states.trans makes.states, becomes.contents_eq,
    fun another old => ?_⟩
  have different : another ≠ state := by
    rw [makes.fresh]
    exact Nat.ne_of_lt old
  have anotherMade : another < middle.states := by
    rw [makes.states]
    exact Nat.lt_succ_of_lt old
  obtain ⟨record, same⟩ := makes.other another old
  exact ⟨(becomes.acts.other another different).trans record,
    (becomes.acts.contents_other makes.ok made anotherMade different).trans same⟩

/-- Reserving room in a new array and copying a slice into it. -/
theorem appendNew_becomes (ok : world.Ok) {state : Nat} (made : state < world.states)
    (record : world.state state = { storage := Slice.null, used := 0 }) {middle after : World T}
    {block offset count length : Nat} (old : block < world.blocks)
    (reserved : reserve element oracle (some state) count world = (true, middle))
    (appended : appendLoop state count { block := some block, offset := offset, length := length }
      middle = some after) :
    Becomes state world after (readSlice world block offset count) := by
  rcases reserve_cases element oracle ok made count with ⟨_, failed, -⟩ | ⟨_, granted, grown, total⟩
  · cases failed.symm.trans reserved
  · cases granted.symm.trans reserved
    have middleMade : state < middle.states := grown.acts.states.symm ▸ made
    have unused : (middle.state state).used = 0 := by rw [grown.used, record]
    have foreign : (world.state state).storage.block ≠ some block := by
      rw [record]
      exact (Option.some_ne_none block).symm
    have fits : (middle.state state).used + count ≤ (middle.state state).storage.length := by
      rw [unused, total]
      exact (Nat.zero_add count).le.trans (Nat.le_max_right _ _)
    have untouched : Untouched middle state block offset count := by
      refine Or.inl ⟨fun same => ?_, old.trans_le grown.acts.blocks⟩
      rcases grown.acts.own block same with before | ⟨fresh, -⟩
      · exact foreign before
      · exact absurd old (Nat.not_lt.mpr fresh)
    obtain ⟨_, result, appends⟩ :=
      appendLoop_appends length grown.ok middleMade fits untouched
    cases result.symm.trans appended
    have read : readSlice middle block offset count = readSlice world block offset count := by
      unfold readSlice
      rw [grown.acts.cell block old foreign]
    have countEq : (readSlice middle block offset count).length = count := by
      rw [readSlice, List.length_map, List.length_range]
    have becomes := (appends.becomes grown.ok middleMade (by rw [countEq]; exact fits)).of_extends
      grown
    rw [contents, unused, List.take_zero, List.nil_append, read] at becomes
    exact becomes

theorem constructFrom_makes (ok : world.Ok) {values : Slice} {state : Nat} {after : World T}
    (bounded : ∀ block, values.block = some block → block < world.blocks)
    (made : constructFrom element oracle values world = some (state, after)) :
    Makes world after state (values.elements world) := by
  unfold constructFrom at made
  cases constructed : construct oracle world with
  | none =>
    rw [constructed] at made
    cases made
  | some pair =>
    obtain ⟨fresh, middle⟩ := pair
    obtain ⟨makes, blocks, cells, record⟩ := construct_makes oracle ok constructed
    have freshMade : fresh < middle.states := by
      rw [makes.states, makes.fresh]
      exact Nat.lt_succ_self _
    rw [constructed] at made
    dsimp only [Option.bind_eq_bind, Option.bind_some] at made
    by_cases empty : values.length = 0
    · rw [if_pos empty] at made
      cases made
      have nothing : values.elements world = [] := by
        unfold Slice.elements readSlice
        rw [empty]
        split <;> rfl
      rw [nothing]
      exact makes
    · rw [if_neg empty] at made
      cases reserved : reserve element oracle (some fresh) values.length middle with
      | mk granted grown =>
        rw [reserved] at made
        cases granted with
        | false => cases made
        | true =>
          dsimp only at made
          cases appended : appendLoop fresh values.length values grown with
          | none =>
            rw [appended] at made
            cases made
          | some final =>
            rw [appended] at made
            cases made
            obtain ⟨block, offset, count⟩ := values
            cases block with
            | none =>
              cases count with
              | zero => exact absurd rfl empty
              | succ count => cases appended
            | some block =>
              have becomes := appendNew_becomes element oracle makes.ok freshMade record
                (blocks.symm ▸ bounded block rfl) reserved appended
              have read : readSlice middle block offset count =
                  readSlice world block offset count := by
                unfold readSlice
                rw [cells]
              rw [read] at becomes
              exact makes.becomes becomes

/-- Duplicating an array makes a new one with the same contents. -/
theorem dup_makes (ok : world.Ok) {state copy : Nat} (made : state < world.states)
    {after : World T} (duplicated : dup element oracle (some state) world = some (copy, after)) :
    Makes world after copy (contents world state) := by
  unfold dup at duplicated
  dsimp only at duplicated
  cases constructed : construct oracle world with
  | none =>
    rw [constructed] at duplicated
    cases duplicated
  | some pair =>
    obtain ⟨fresh, middle⟩ := pair
    obtain ⟨makes, blocks, cells, record⟩ := construct_makes oracle ok constructed
    have freshMade : fresh < middle.states := by
      rw [makes.states, makes.fresh]
      exact Nat.lt_succ_self _
    have source := (makes.other state made).1
    have total := ok.length_contents made
    rw [constructed] at duplicated
    dsimp only [Option.bind_eq_bind, Option.bind_some] at duplicated
    rw [show length (some state) middle = (world.state state).used from
      congrArg State.used source] at duplicated
    by_cases empty : (world.state state).used = 0
    · rw [if_pos empty] at duplicated
      cases duplicated
      have nothing : contents world state = [] := by rw [contents, empty, List.take_zero]
      rw [nothing]
      exact makes
    · rw [if_neg empty] at duplicated
      obtain ⟨block, present⟩ := ok.block_of_lt made
        ((Nat.pos_of_ne_zero empty).trans_le (ok.used_le state made))
      cases reserved : reserve element oracle (some fresh) (world.state state).used middle with
      | mk granted grown =>
        rw [reserved] at duplicated
        cases granted with
        | false => cases duplicated
        | true =>
          dsimp only at duplicated
          have data : (grown.state state).storage.block = some block := by
            have different : state ≠ fresh := by
              rw [makes.fresh]
              exact Nat.ne_of_lt made
            rcases reserve_cases element oracle makes.ok freshMade (world.state state).used with
              ⟨_, failed, -⟩ | ⟨_, succeeded, extended, -⟩
            · cases failed.symm.trans reserved
            · cases succeeded.symm.trans reserved
              rw [extended.acts.other state different, source, present]
          rw [data] at duplicated
          cases appended : appendLoop fresh (world.state state).used
              { block := some block, offset := 0, length := (world.state state).used } grown with
          | none =>
            rw [appended] at duplicated
            cases duplicated
          | some final =>
            rw [appended] at duplicated
            cases duplicated
            have becomes := appendNew_becomes element oracle makes.ok freshMade record
              (blocks.symm ▸ ok.bounded state made block present) reserved appended
            have read : readSlice middle block 0 (world.state state).used =
                contents world state := by
              unfold readSlice contents
              rw [cells, storage_of_block present, ← List.map_take, List.take_range,
                Nat.min_eq_left (ok.used_le state made)]
              exact List.map_congr_left fun index _ => by rw [Nat.zero_add]
            rw [read] at becomes
            exact makes.becomes becomes

end

/-! ### Whole runs -/

/-- The worlds that programs reach: they construct arrays, operate on them through any copy,
duplicate them, and obtain and write memory of their own. -/
inductive Reachable (element : Element T) (oracle : Oracle T) : World T → Prop
  | start {world : World T} (none : world.states = 0) : Reachable element oracle world
  | construct {world after : World T} {state : Nat} (reachable : Reachable element oracle world)
      (made : construct oracle world = some (state, after)) : Reachable element oracle after
  | constructFrom {world after : World T} {values : Slice} {state : Nat}
      (reachable : Reachable element oracle world)
      (bounded : ∀ block, values.block = some block → block < world.blocks)
      (made : constructFrom element oracle values world = some (state, after)) :
      Reachable element oracle after
  | perform {world after : World T} {state : Nat} {op : Op T} {result : Result T}
      (reachable : Reachable element oracle world) (made : state < world.states)
      (admissible : op.Admissible world state)
      (performed : op.perform element oracle (some state) world = some (result, after)) :
      Reachable element oracle after
  | dup {world after : World T} {state copy : Nat} (reachable : Reachable element oracle world)
      (made : state < world.states)
      (duplicated : dup element oracle (some state) world = some (copy, after)) :
      Reachable element oracle after
  | obtain {world : World T} (cells : Nat → T) (reachable : Reachable element oracle world) :
      Reachable element oracle { world.setBlock world.blocks cells with blocks := world.blocks + 1 }
  | write {world : World T} {block : Nat} (cells : Nat → T)
      (reachable : Reachable element oracle world)
      (foreign : ∀ state < world.states, (world.state state).storage.block ≠ some block) :
      Reachable element oracle (world.setBlock block cells)

/-- Every world that is reached is well formed. -/
theorem Reachable.ok {element : Element T} {oracle : Oracle T} {world : World T}
    (reachable : Reachable element oracle world) : world.Ok := by
  induction reachable with
  | start none =>
    refine ⟨?_, ?_, ?_, ?_⟩ <;>
    · rw [none]
      exact fun _ impossible => absurd impossible (Nat.not_lt_zero _)
  | construct reachable made inductionHypothesis =>
    exact (construct_makes _ inductionHypothesis made).1.ok
  | constructFrom reachable bounded made inductionHypothesis =>
    exact (constructFrom_makes _ _ inductionHypothesis bounded made).ok
  | perform reachable made admissible performed inductionHypothesis =>
    obtain ⟨_, _, same, meets⟩ := Op.perform_meets element oracle inductionHypothesis made admissible
    cases performed.symm.trans same
    exact meets.ok
  | dup reachable made duplicated inductionHypothesis =>
    exact (dup_makes _ _ inductionHypothesis made duplicated).ok
  | obtain cells reachable inductionHypothesis =>
    exact ⟨inductionHypothesis.used_le, inductionHypothesis.null,
      fun state made block present =>
        Nat.lt_succ_of_lt (inductionHypothesis.bounded state made block present),
      inductionHypothesis.apart⟩
  | write cells reachable foreign inductionHypothesis =>
    exact ⟨inductionHypothesis.used_le, inductionHypothesis.null, inductionHypothesis.bounded,
      inductionHypothesis.apart⟩

/-- In every run an array refines a list: it uses at most its capacity; an operation does what
it stands for on the contents, or reports failure and changes nothing; the other arrays keep
their contents and capacities; and a duplicate is a new array with the same contents. -/
theorem array_refines_list (element : Element T) (oracle : Oracle T) {world : World T}
    (reachable : Reachable element oracle world) {state : Nat} (made : state < world.states) :
    length (some state) world ≤ capacity (some state) world ∧
    length (some state) world = (contents world state).length ∧
    (∀ op : Op T, op.Admissible world state →
      ∃ result after, op.perform element oracle (some state) world = some (result, after) ∧
        length (some state) after ≤ capacity (some state) after ∧
        ((result, contents after state) =
            op.onList (op.given world) (exposed element world state) (contents world state) ∨
          op.failure = some result ∧ contents after state = contents world state ∧
            length (some state) after = length (some state) world ∧
            capacity (some state) after = capacity (some state) world ∧
            (sizeMax < op.demand (length (some state) world) ∨
              capacity (some state) world < op.demand (length (some state) world) ∧
              ∃ elements ≥ op.demand (length (some state) world),
                Refuses element oracle world elements)) ∧
        ∀ another < world.states, another ≠ state →
          contents after another = contents world another ∧
          capacity (some another) after = capacity (some another) world) ∧
    ∀ copy after, dup element oracle (some state) world = some (copy, after) →
      copy ≠ state ∧ contents after copy = contents world state ∧
        ∀ another < world.states, contents after another = contents world another ∧
          capacity (some another) after = capacity (some another) world := by
  have ok := reachable.ok
  refine ⟨ok.used_le state made, (ok.length_contents made).symm, ?_, ?_⟩
  · intro op admissible
    obtain ⟨result, after, performed, meets⟩ :=
      Op.perform_meets element oracle ok made admissible
    refine ⟨result, after, performed, meets.ok.used_le state (meets.acts.states.symm ▸ made),
      meets.outcome.imp_right ?_, ?_⟩
    · rintro ⟨failure, idle, cause⟩
      refine ⟨failure, idle.contents_eq state, ?_, ?_, cause⟩
      · exact congrArg State.used (congrFun idle.state state)
      · exact congrArg (fun record => record.storage.length) (congrFun idle.state state)
    · intro another anotherMade different
      refine ⟨meets.acts.contents_other ok made anotherMade different, ?_⟩
      exact congrArg (fun record => record.storage.length) (meets.acts.other another different)
  · intro copy after duplicated
    have makes := dup_makes element oracle ok made duplicated
    refine ⟨?_, makes.contents_eq, fun another anotherMade => ?_⟩
    · rw [makes.fresh]
      exact Nat.ne_of_gt made
    · obtain ⟨record, same⟩ := makes.other another anotherMade
      exact ⟨same, congrArg (fun record => record.storage.length) record⟩

/-! ### Growing the length inside the storage -/

/-- Bytes as elements. -/
def byteElement : Element UInt8 := { zero := 0, init := 0, sizeof := 1 }

/-- An arena that refuses nothing. -/
def grantingOracle : Oracle UInt8 := { grant := fun _ => true, leftover := fun _ _ => 0 }

/-- A world without arrays. -/
def emptyWorld : World UInt8 where
  state _ := { storage := Slice.null, used := 0 }
  cell _ _ := 0
  states := 0
  blocks := 0
  requests := 0

/-- The world after one array was constructed. -/
def firstArray : World UInt8 := (allocState grantingOracle emptyWorld).2

theorem firstArray_reachable : Reachable byteElement grantingOracle firstArray :=
  Reachable.construct (Reachable.start rfl) rfl

theorem Reachable.performs {element : Element T} {oracle : Oracle T} {world after : World T}
    {result : Result T} (reachable : Reachable element oracle world) (state : Nat) (op : Op T)
    (made : state < world.states) (admissible : op.Admissible world state)
    (performed : op.perform element oracle (some state) world = some (result, after)) :
    Reachable element oracle after :=
  Reachable.perform reachable made admissible performed

theorem array_refines_list_first :
    length (some 0) firstArray ≤ capacity (some 0) firstArray ∧
      ∃ result after, (Op.insertBack 7).perform byteElement grantingOracle (some 0) firstArray =
        some (result, after) ∧ length (some 0) after ≤ capacity (some 0) after := by
  have made : 0 < firstArray.states := by decide
  have refines := array_refines_list byteElement grantingOracle firstArray_reachable made
  obtain ⟨result, after, performed, used, -⟩ := refines.2.2.1 (.insertBack 7) trivial
  exact ⟨refines.1, result, after, performed, used⟩

/-- An array of one byte that was shortened and an array with room for one byte have the same
contents and the same capacity, but lengthening shows the byte in one and zero in the other: no
function of the contents says what `resize` yields. -/
theorem resize_not_of_contents :
    ¬ ∃ onList : Nat → List UInt8 → List UInt8,
      ∀ world, Reachable byteElement grantingOracle world → ∀ state < world.states,
        ∀ newLength after, resize byteElement grantingOracle (some state) newLength world =
          (true, after) → contents after state = onList newLength (contents world state) := by
  rintro ⟨onList, explains⟩
  obtain ⟨shortened, shortenedReachable, shortenedMade, shortenedContents, shortenedAfter,
      shortenedResize, shows⟩ : ∃ world, Reachable byteElement grantingOracle world ∧
      0 < world.states ∧ contents world 0 = [] ∧ ∃ after,
        resize byteElement grantingOracle (some 0) 1 world = (true, after) ∧
        contents after 0 = [5] :=
    ⟨_, (firstArray_reachable.performs 0 (.insertBack 5) (by decide) trivial rfl).performs 0
      (.resize 0) (by decide) trivial rfl, by decide, rfl, _, rfl, rfl⟩
  obtain ⟨reserved, reservedReachable, reservedMade, reservedContents, reservedAfter,
      reservedResize, hides⟩ : ∃ world, Reachable byteElement grantingOracle world ∧
      0 < world.states ∧ contents world 0 = [] ∧ ∃ after,
        resize byteElement grantingOracle (some 0) 1 world = (true, after) ∧
        contents after 0 = [0] :=
    ⟨_, firstArray_reachable.performs 0 (.reserve 1) (by decide) trivial rfl, by decide, rfl, _,
      rfl, rfl⟩
  have first := explains shortened shortenedReachable 0 shortenedMade 1 _ shortenedResize
  have second := explains reserved reservedReachable 0 reservedMade 1 _ reservedResize
  rw [shows, shortenedContents] at first
  rw [hides, reservedContents] at second
  exact absurd (first.trans second.symm) (by decide)

end LaserD.Container
