/-
This file says what a table stands for: the association list of its live entries, in the
order of their insertion.

Overwriting a record, appending an entry and deleting one do to the association list what
their names say, and a search finds an entry exactly when the association list has one.
-/

import LaserD.Hash.Rebuild
import LaserD.Lib.AssociationList

namespace LaserD.Hash

variable {type : HashType}

/-! ### The association list of a table -/

/-- Whether the callbacks take two keys for the same. -/
def HashType.same (type : HashType) (left right : Word) : Bool :=
  decide (type.compare left right = 0)

/-- The keys and the records of the live entries, in order. -/
def contents (table : Table) (storage : Storage) : List (Word × Word) :=
  (liveEntries table storage).map fun entry => (entry.key, entry.record)

/-- The association list a state stands for. -/
def State.contents (state : State) : List (Word × Word) :=
  Hash.contents state.table state.storage

theorem HashType.same_iff (left right : Word) :
    type.same left right = true ↔ type.compare left right = 0 :=
  decide_eq_true_iff

theorem mem_contents {state : State} {element : Word × Word} :
    element ∈ state.contents ↔ ∃ index < state.table.entriesBound,
      (state.storage.entries index).live = true ∧
        element = ((state.storage.entries index).key, (state.storage.entries index).record) := by
  unfold State.contents contents
  rw [List.mem_map]
  constructor
  · rintro ⟨entry, member, rfl⟩
    obtain ⟨index, inside, rfl, live⟩ := mem_liveEntries.mp member
    exact ⟨index, inside, live, rfl⟩
  · rintro ⟨index, inside, live, rfl⟩
    exact ⟨_, mem_liveEntries.mpr ⟨index, inside, rfl, live⟩, rfl⟩

theorem WellFormed.length_contents {table : Table} {storage : Storage}
    (ok : WellFormed type table storage) :
    (Hash.contents table storage).length = table.numEntries := by
  unfold Hash.contents
  rw [List.length_map, ok.count]

theorem WellFormed.distinct_contents {table : Table} {storage : Storage}
    (ok : WellFormed type table storage) :
    AssociationList.Distinct type.same (Hash.contents table storage) := by
  unfold AssociationList.Distinct Hash.contents
  rw [List.pairwise_map]
  exact ok.distinct.imp fun different => decide_eq_false different

/-- The live entries decide the contents. -/
theorem contents_eq {before after : State}
    (live : liveEntries after.table after.storage = liveEntries before.table before.storage) :
    after.contents = before.contents := by
  unfold State.contents contents
  rw [live]

/-! ### Keys that are present or absent -/

theorem absent_iff (lawful : type.Lawful) {key : Word} {state : State} :
    Absent type key state ↔ AssociationList.find type.same key state.contents = none := by
  rw [AssociationList.find_eq_none]
  constructor
  · intro absent element member
    obtain ⟨index, inside, live, rfl⟩ := mem_contents.mp member
    refine decide_eq_false fun equal => absent index inside live ?_
    exact (WellFormed.keysEqual_iff lawful _ _).mpr equal
  · intro different index inside live equal
    have differs := different _ (mem_contents.mpr ⟨index, inside, live, rfl⟩)
    exact of_decide_eq_false differs ((WellFormed.keysEqual_iff lawful _ _).mp equal)

/-- The entry of a key is what the association list has for it. -/
theorem Present.find_eq (lawful : type.Lawful) {key : Word} {state : State} {index : Nat}
    (ok : state.Ok type) (present : Present type key state index) :
    AssociationList.find type.same key state.contents =
      some ((state.storage.entries index).key, (state.storage.entries index).record) := by
  refine AssociationList.find_eq_some
    (mem_contents.mpr ⟨index, present.inside, present.live, rfl⟩) ?_ ?_
  · exact (HashType.same_iff _ _).mpr ((WellFormed.keysEqual_iff lawful _ _).mp present.equal)
  · intro other member equal
    obtain ⟨otherIndex, inside, live, rfl⟩ := mem_contents.mp member
    rw [(present.compare_iff lawful ok inside live).mp ((HashType.same_iff _ _).mp equal)]

/-- The index of an entry is none of the reserved values. -/
theorem Present.index_ne {key : Word} {state : State} {index : Nat} (ok : state.Ok type)
    (present : Present type key state index) : index ≠ noIndex ∧ index ≠ rebuiltIndex := by
  have small := ok.index_lt present.inside
  unfold noIndex rebuiltIndex
  omega

/-! ### Changes of one entry -/

theorem setKeyRecord_contents (lawful : type.Lawful) {key stored value : Word} {state : State}
    {index : Nat} (ok : state.Ok type) (present : Present type key state index)
    (equal : keysEqual type key stored) :
    (setKeyRecord index stored value state).Ok type ∧
      (setKeyRecord index stored value state).contents =
        AssociationList.replace type.same key stored value state.contents := by
  obtain ⟨afterOk, live⟩ := @setKeyRecord_spec type lawful key stored value state index ok present equal
  refine ⟨afterOk, ?_⟩
  unfold State.contents contents AssociationList.replace
  rw [live, List.map_map, List.map_map]
  refine List.map_congr_left fun entry _ => ?_
  rw [Function.comp_apply, Function.comp_apply]
  by_cases same : type.compare key entry.key = 0
  · rw [if_pos same, if_pos ((HashType.same_iff _ _).mpr same)]
  · rw [if_neg same, if_neg fun equal => same ((HashType.same_iff _ _).mp equal)]

/-- Overwriting a record is insertion of a key that is present. -/
theorem setRecord_contents (lawful : type.Lawful) {key value : Word} (stored : Word) {state : State}
    {index : Nat} (ok : state.Ok type) (present : Present type key state index) :
    (setRecord index value state).Ok type ∧
      (setRecord index value state).contents =
        AssociationList.insert type.same key stored value state.contents := by
  have found := present.find_eq lawful ok
  obtain ⟨afterOk, replaced⟩ := @setKeyRecord_contents type lawful key _ value state index ok present present.equal
  refine ⟨afterOk, ?_⟩
  unfold AssociationList.insert
  rw [found, Option.isSome_some, if_pos rfl]
  refine replaced.trans ?_
  unfold AssociationList.replace AssociationList.assign
  refine List.map_congr_left fun element member => ?_
  by_cases same : type.same key element.1 = true
  · rw [if_pos same, if_pos same]
    obtain ⟨other, inside, live, rfl⟩ := mem_contents.mp member
    rw [(present.compare_iff lawful ok inside live).mp ((HashType.same_iff _ _).mp same)]
  · rw [if_neg same, if_neg same]

/-- Appending an entry is insertion of a key that is absent. -/
theorem appendEntry_contents (lawful : type.Lawful) {key stored value : Word} {state : State}
    {bin : Nat} (ok : state.Ok type) (room : state.table.entriesBound < state.table.allocatedEntries)
    (absent : Absent type key state) (equal : keysEqual type key stored)
    (place : Place type key state bin) :
    (appendEntry { hash := doHash type key, key := stored, record := value } bin state).Ok type ∧
      (appendEntry { hash := doHash type key, key := stored, record := value } bin state).contents =
        AssociationList.insert type.same key stored value state.contents := by
  obtain ⟨afterOk, live⟩ := @appendEntry_spec type lawful key stored value state bin ok room absent equal place
  refine ⟨afterOk, ?_⟩
  unfold AssociationList.insert
  rw [(absent_iff lawful).mp absent, if_neg (by decide)]
  unfold State.contents contents
  rw [live, List.map_append, List.map_singleton]

theorem deleteEntry_contents (lawful : type.Lawful) {key : Word} {state : State} {index bin : Nat}
    (ok : state.Ok type) (present : Present type key state index)
    (filled : state.table.hasBins = true →
      bin < state.table.binsCount ∧ state.storage.bins bin = index + entryBase) :
    (deleteEntry index bin state).Ok type ∧
      (deleteEntry index bin state).contents =
        AssociationList.erase type.same key state.contents := by
  obtain ⟨afterOk, live⟩ := deleteEntry_spec lawful ok present filled
  refine ⟨afterOk, ?_⟩
  unfold State.contents contents AssociationList.erase
  rw [live, List.filter_map]
  congr 1
  refine List.filter_congr fun entry _ => ?_
  rw [Function.comp_apply]
  exact decide_not

/-- Deleting an absent key changes nothing. -/
theorem Absent.erase_eq (lawful : type.Lawful) {key : Word} {state : State}
    (absent : Absent type key state) :
    AssociationList.erase type.same key state.contents = state.contents := by
  unfold AssociationList.erase
  rw [List.filter_eq_self]
  intro element member
  rw [AssociationList.find_eq_none.mp ((absent_iff lawful).mp absent) element member]
  rfl

end LaserD.Hash
