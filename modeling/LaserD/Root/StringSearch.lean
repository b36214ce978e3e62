/-
This file is about the slots of string tables. `slotString` reads the table as keys in
slots; `Indexed` says that the keys are placed by triangular probing, and that the handle
of a slot leads to the entry of its string. Then `findSlot` ends at the slot of a string,
or at the free slot where it goes, and `grow` places the same entries in a table of
double size.
-/

import LaserD.Lib.OpenAddressing
import LaserD.Root.StringMemory

namespace LaserD.Root.StringTable

open OpenAddressing

variable {T : Type} {sizes : Sizes} {calcHash : Str → BitVec 32}

/-! ### Handles -/

/-- The place a handle stands for. -/
def pointerAt (pools : List Nat) (vptr : BitVec 32) : Option Pointer :=
  (pools[((vptr >>> poolBits) - 1).toNat]?).map fun pool =>
    ⟨pool, (vptr &&& (BitVec.ofNat 32 poolSize - 1)).toNat⟩

theorem getValue_eq (t : Table T) {vptr : BitVec 32} (used : vptr ≠ 0) :
    getValue t vptr = (pointerAt t.pools vptr).map some := by
  rw [getValue, if_neg used, pointerAt]
  dsimp only
  cases t.pools[((vptr >>> poolBits) - 1).toNat]? <;> rfl

theorem pointerAt_of_prefix {pools after : List Nat} (grows : pools <+: after) {vptr : BitVec 32}
    {p : Pointer} (found : pointerAt pools vptr = some p) : pointerAt after vptr = some p := by
  obtain ⟨pool, inside, rfl⟩ := Option.map_eq_some_iff.mp found
  obtain ⟨rest, rfl⟩ := grows
  have bound := (List.getElem?_eq_some_iff.mp inside).1
  rw [pointerAt, List.getElem?_append_left bound, inside, Option.map_some]

/-- A handle keeps apart the number of the pool and the offset. -/
theorem pointerAt_handle {pools : List Nat} {p : Pointer} (last : pools.getLast? = some p.block)
    (few : pools.length < 2 ^ 20) (below : p.offset < poolSize) :
    BitVec.ofNat 32 (pools.length <<< poolBits ||| p.offset) ≠ 0 ∧
      pointerAt pools (BitVec.ofNat 32 (pools.length <<< poolBits ||| p.offset)) = some p := by
  have nonempty : pools ≠ [] := by
    rintro rfl
    cases last
  have positive := List.length_pos_iff.mpr nonempty
  have small : p.offset < 2 ^ 12 := below
  have joined : pools.length <<< poolBits ||| p.offset = pools.length * 4096 + p.offset := by
    rw [Nat.shiftLeft_eq, Nat.mul_comm]
    exact (Nat.two_pow_add_eq_or_of_lt small pools.length).symm.trans (by rw [Nat.mul_comm])
  have value : (BitVec.ofNat 32 (pools.length <<< poolBits ||| p.offset)).toNat =
      pools.length * 4096 + p.offset := by
    rw [joined, BitVec.toNat_ofNat, Nat.mod_eq_of_lt (by omega)]
  refine ⟨fun zero => ?_, ?_⟩
  · rw [zero] at value
    have none_ : (0 : BitVec 32).toNat = 0 := rfl
    omega
  · have number : (BitVec.ofNat 32 (pools.length <<< poolBits ||| p.offset) >>> poolBits).toNat =
        pools.length := by
      rw [BitVec.toNat_ushiftRight, value, Nat.shiftRight_eq_div_pow]
      show (pools.length * 4096 + p.offset) / 4096 = _
      omega
    have idx : (BitVec.ofNat 32 (pools.length <<< poolBits ||| p.offset) >>> poolBits - 1).toNat =
        pools.length - 1 := by
      have ordered : (1 : BitVec 32) ≤
          BitVec.ofNat 32 (pools.length <<< poolBits ||| p.offset) >>> poolBits := by
        rw [BitVec.le_def, number]
        exact positive
      rw [BitVec.toNat_sub_of_le ordered, number]
      rfl
    have offset : (BitVec.ofNat 32 (pools.length <<< poolBits ||| p.offset) &&&
        (BitVec.ofNat 32 poolSize - 1)).toNat = p.offset := by
      rw [BitVec.toNat_and, value]
      refine (Nat.and_two_pow_sub_one_eq_mod _ 12).trans ?_
      omega
    rw [pointerAt, idx, offset, ← List.getLast?_eq_getElem?, last]
    rfl

/-! ### Slots -/

/-- The string in a slot. -/
def slotString (pools : List Nat) (cell : Pointer → Option (Str × T)) (table : List StringEntry)
    (i : Nat) : Option Str := do
  let se ← table[i]?
  if se.vptr = 0 then none
  else do
    let p ← pointerAt pools se.vptr
    let entry ← cell p
    return entry.1

/-- The slots that are probed for a string. -/
def probe (calcHash : Str → BitVec 32) (bits : Nat) (str : Str) (n : Nat) : Nat :=
  triangular bits (calcHash str).toNat n

/-- The handles of the slots lead to the entries that `index` has, and strings are placed. -/
structure Indexed (calcHash : Str → BitVec 32) (bits : Nat) (pools : List Nat)
    (cell : Pointer → Option (Str × T)) (index : Str → Option Pointer)
    (table : List StringEntry) : Prop where
  length : table.length = 2 ^ bits
  slots : ∀ {se}, se ∈ table → se.vptr ≠ 0 → ∃ p s v, pointerAt pools se.vptr = some p ∧
    cell p = some (s, v) ∧ index s = some p ∧ se.hash = calcHash s
  placed : Placed (probe calcHash bits) (slotString pools cell table)
  indexed : ∀ {s p}, index s = some p →
    (∃ v, cell p = some (s, v)) ∧ ∃ i, slotString pools cell table i = some s

section

variable {bits : Nat} {pools : List Nat} {cell : Pointer → Option (Str × T)}
  {index : Str → Option Pointer} {table : List StringEntry}

/-- A slot is free, or its handle leads to the entry of its string. -/
theorem Indexed.slot_cases (indexed : Indexed calcHash bits pools cell index table) {i : Nat}
    {se : StringEntry} (found : table[i]? = some se) :
    (se.vptr = 0 ∧ slotString pools cell table i = none) ∨
    (se.vptr ≠ 0 ∧ ∃ p s v, pointerAt pools se.vptr = some p ∧ cell p = some (s, v) ∧
      index s = some p ∧ se.hash = calcHash s ∧ slotString pools cell table i = some s) := by
  by_cases free : se.vptr = 0
  · refine Or.inl ⟨free, ?_⟩
    rw [slotString, found, Option.bind_eq_bind, Option.bind_some, if_pos free]
  · obtain ⟨p, s, v, pointer, entry, listed, hash⟩ :=
      indexed.slots (List.mem_of_getElem? found) free
    refine Or.inr ⟨free, p, s, v, pointer, entry, listed, hash, ?_⟩
    rw [slotString, found, Option.bind_eq_bind, Option.bind_some, if_neg free, pointer,
      Option.bind_eq_bind, Option.bind_some, entry]
    rfl

/-- A string in a slot is one that `index` has. -/
theorem Indexed.of_slotString (indexed : Indexed calcHash bits pools cell index table) {i : Nat}
    {s : Str} (here : slotString pools cell table i = some s) :
    ∃ se p v, table[i]? = some se ∧ se.vptr ≠ 0 ∧ pointerAt pools se.vptr = some p ∧
      cell p = some (s, v) ∧ index s = some p := by
  cases found : table[i]? with
  | none =>
    rw [slotString, found] at here
    cases here
  | some se =>
    rcases indexed.slot_cases found with ⟨-, none_⟩ | ⟨used, p, t, v, pointer, entry, listed, -, same⟩
    · rw [none_] at here
      cases here
    · rw [same, Option.some.injEq] at here
      subst here
      exact ⟨se, p, v, rfl, used, pointer, entry, listed⟩

/-- Whether the entry of a handle has a string. -/
theorem sameString_eq {t : Table T} {vptr : BitVec 32} {p : Pointer} {s : Str} {v : T}
    (used : vptr ≠ 0) (pointer : pointerAt t.pools vptr = some p)
    (holds : Holds sizes t.blocks p s v) (str : Str) :
    sameString sizes t vptr str = some (decide (s = str)) := by
  rw [sameString, getValue_eq t used, pointer]
  simp only [Option.map_some, Option.bind_eq_bind, Option.bind_some, holds.readLength_eq]
  by_cases length : s.length = str.length
  · rw [if_pos length, ← length, holds.readChars_eq]
    rfl
  · rw [if_neg length, decide_eq_false fun same => length (by rw [same])]
    rfl

/-! ### Searching -/

section

variable {t : Table T} (apart : Apart sizes t.blocks cell)
  (indexed : Indexed calcHash bits t.pools cell index t.table)
include apart indexed

/-- The test of `findSlot` at a slot. -/
theorem slot_stops (str : Str) {i : Nat} (inside : i < 2 ^ bits) :
    ∃ se, t.table[i]? = some se ∧ stopsAt sizes t (calcHash str) str se =
      some (decide (slotString t.pools cell t.table i = none ∨
        slotString t.pools cell t.table i = some str)) := by
  have found := List.getElem?_eq_getElem (show i < t.table.length by rw [indexed.length]; exact inside)
  refine ⟨_, found, ?_⟩
  rw [stopsAt]
  rcases indexed.slot_cases found with
    ⟨free, empty⟩ | ⟨used, p, s, v, pointer, entry, -, hash, here⟩
  · rw [if_pos free, decide_eq_true (Or.inl empty)]
  · rw [if_neg used, here, hash]
    have same : (some s = none ∨ some s = some str) ↔ s = str := by simp
    rw [decide_eq_decide.mpr same]
    by_cases hashes : calcHash s = calcHash str
    · rw [if_pos hashes, sameString_eq used pointer (apart.holds entry)]
    · rw [if_neg hashes, decide_eq_false fun equal => hashes (by rw [equal])]

/-- The loop ends at the first slot that is free or has the string. -/
theorem findSlotFrom_eq {str : Str} {m : Nat}
    (passed : Passed (probe calcHash bits) (slotString t.pools cell t.table) str m)
    (stops : slotString t.pools cell t.table (probe calcHash bits str m) = none ∨
      slotString t.pools cell t.table (probe calcHash bits str m) = some str)
    (fuel n : Nat) (before : n ≤ m) (enough : m - n < fuel) :
    findSlotFrom sizes t (calcHash str) str fuel (probe calcHash bits str n) (n + 1) =
      some (probe calcHash bits str m) := by
  induction fuel generalizing n with
  | zero => exact absurd enough (Nat.not_lt_zero _)
  | succ fuel inductionHypothesis =>
    obtain ⟨se, found, test⟩ := slot_stops apart indexed str
      (show probe calcHash bits str n < 2 ^ bits from triangular_lt bits _ n)
    rw [findSlotFrom, found, Option.bind_eq_bind, Option.bind_some, test, Option.bind_eq_bind, Option.bind_some]
    by_cases last : n = m
    · subst last
      rw [if_pos (decide_eq_true stops)]
    · have going := passed n (by omega)
      rw [decide_eq_false (not_or.mpr going), if_neg Bool.false_ne_true, indexed.length,
        Nat.and_two_pow_sub_one_eq_mod]
      have next : (probe calcHash bits str n + (n + 1)) % 2 ^ bits =
          probe calcHash bits str (n + 1) := (triangular_succ bits _ n).symm
      rw [next]
      exact inductionHypothesis (n + 1) (by omega) (by omega)

/-- `findSlot` ends at the slot of the string, or at the free slot where it goes. -/
theorem findSlot_spec (str : Str) {free : StringEntry} (member : free ∈ t.table)
    (empty : free.vptr = 0) :
    ∃ n, findSlot sizes t (calcHash str) str = some (probe calcHash bits str n) ∧
      Passed (probe calcHash bits) (slotString t.pools cell t.table) str n ∧
      (slotString t.pools cell t.table (probe calcHash bits str n) = none ∨
        slotString t.pools cell t.table (probe calcHash bits str n) = some str) := by
  obtain ⟨i, bound, rfl⟩ := List.getElem_of_mem member
  have none_ : slotString t.pools cell t.table i = none := by
    rcases indexed.slot_cases (List.getElem?_eq_getElem bound) with ⟨-, none_⟩ | ⟨used, -⟩
    · exact none_
    · exact absurd empty used
  obtain ⟨k, small, reached⟩ := exists_triangular (calcHash str).toNat
    (show i < 2 ^ bits by rw [← indexed.length]; exact bound)
  obtain ⟨n, le, passed, stops⟩ := @exists_stop _ (probe calcHash bits)
    (slotString t.pools cell t.table) str k (by rw [probe, reached]; exact none_)
  refine ⟨n, ?_, passed, stops⟩
  have start : (calcHash str).toNat &&& (t.table.length - 1) = probe calcHash bits str 0 := by
    rw [indexed.length, Nat.and_two_pow_sub_one_eq_mod]
    rfl
  rw [findSlot, start]
  exact findSlotFrom_eq apart indexed passed stops _ 0 (Nat.zero_le n)
    (by rw [indexed.length]; omega)

/-- The slot that is found tells whether the string is there. -/
theorem findSlot_cases (str : Str) {free : StringEntry} (member : free ∈ t.table)
    (empty : free.vptr = 0) :
    ∃ n se, findSlot sizes t (calcHash str) str = some (probe calcHash bits str n) ∧
      t.table[probe calcHash bits str n]? = some se ∧
      ((∃ p, index str = some p ∧ se.vptr ≠ 0 ∧ pointerAt t.pools se.vptr = some p) ∨
      (index str = none ∧ se.vptr = 0 ∧
        Passed (probe calcHash bits) (slotString t.pools cell t.table) str n)) := by
  obtain ⟨n, found, passed, stops⟩ := findSlot_spec apart indexed str member empty
  have bound : probe calcHash bits str n < t.table.length := by
    rw [indexed.length]
    exact triangular_lt bits _ n
  refine ⟨n, _, found, List.getElem?_eq_getElem bound, ?_⟩
  rcases indexed.slot_cases (List.getElem?_eq_getElem bound) with
    ⟨unused, none_⟩ | ⟨used, p, s, v, pointer, -, listed, -, here⟩
  · refine Or.inr ⟨?_, unused, passed⟩
    by_contra some_
    obtain ⟨p, listed⟩ := Option.ne_none_iff_exists'.mp some_
    obtain ⟨-, i, here⟩ := indexed.indexed listed
    exact indexed.placed.not_free passed here none_
  · rw [here] at stops
    obtain rfl : s = str := by simpa using stops
    exact Or.inl ⟨p, listed, used, pointer⟩

end

/-! ### Placing an entry -/

/-- The number of slots in use. -/
def used (table : List StringEntry) : Nat :=
  table.countP fun se => se.vptr ≠ 0

theorem exists_free (room : used table < table.length) : ∃ se ∈ table, se.vptr = 0 := by
  by_contra none_
  have all : used table = table.length := by
    refine List.countP_eq_length.mpr fun se member => ?_
    rw [decide_eq_true_iff]
    exact fun zero => none_ ⟨se, member, zero⟩
  exact absurd room (by rw [all]; exact lt_irrefl _)

theorem used_set {i : Nat} {old se : StringEntry} (found : table[i]? = some old)
    (free : old.vptr = 0) (taken : se.vptr ≠ 0) : used (table.set i se) = used table + 1 := by
  obtain ⟨bound, rfl⟩ := List.getElem?_eq_some_iff.mp found
  rw [used, used, List.countP_set bound, if_neg (by simpa using free),
    if_pos (by simpa using taken), Nat.sub_zero]

theorem slotString_set {i : Nat} {se : StringEntry} {p : Pointer} {str : Str} {v : T}
    (bound : i < table.length) (taken : se.vptr ≠ 0) (pointer : pointerAt pools se.vptr = some p)
    (entry : cell p = some (str, v)) :
    slotString pools cell (table.set i se) =
      Function.update (slotString pools cell table) i (some str) := by
  funext j
  by_cases same : j = i
  · subst same
    rw [Function.update_self, slotString, List.getElem?_set_self bound, Option.bind_eq_bind,
      Option.bind_some, if_neg taken, pointer, Option.bind_eq_bind, Option.bind_some, entry]
    rfl
  · rw [Function.update_of_ne same, slotString, slotString, List.getElem?_set_ne (Ne.symm same)]

/-- An entry is put in the free slot where the search for its string ends. -/
theorem Indexed.place (indexed : Indexed calcHash bits pools cell index table) {str : Str} {n : Nat}
    {old se : StringEntry} {p : Pointer} {v : T} (absent : index str = none)
    (passed : Passed (probe calcHash bits) (slotString pools cell table) str n)
    (found : table[probe calcHash bits str n]? = some old) (free : old.vptr = 0)
    (taken : se.vptr ≠ 0) (pointer : pointerAt pools se.vptr = some p)
    (entry : cell p = some (str, v)) (hash : se.hash = calcHash str) :
    Indexed calcHash bits pools cell (Function.update index str (some p))
      (table.set (probe calcHash bits str n) se) := by
  have bound := (List.getElem?_eq_some_iff.mp found).1
  have view := slotString_set bound taken pointer entry
  have empty : slotString pools cell table (probe calcHash bits str n) = none := by
    rcases indexed.slot_cases found with ⟨-, empty⟩ | ⟨inUse, -⟩
    · exact empty
    · exact absurd free inUse
  refine ⟨by rw [List.length_set]; exact indexed.length, fun {other} member inUse => ?_, ?_,
    fun {s q} listed => ?_⟩
  · rcases List.mem_or_eq_of_mem_set member with before | rfl
    · obtain ⟨q, s, w, pointer', entry', listed, hash'⟩ := indexed.slots before inUse
      refine ⟨q, s, w, pointer', entry', ?_, hash'⟩
      rw [Function.update_of_ne, listed]
      rintro rfl
      rw [absent] at listed
      cases listed
    · exact ⟨p, str, v, pointer, entry, Function.update_self .., hash⟩
  · rw [view]
    exact indexed.placed.update passed empty
  · rw [view]
    by_cases same : s = str
    · subst same
      rw [Function.update_self, Option.some.injEq] at listed
      subst listed
      exact ⟨⟨v, entry⟩, _, Function.update_self ..⟩
    · rw [Function.update_of_ne same] at listed
      obtain ⟨exists_, i, here⟩ := indexed.indexed listed
      refine ⟨exists_, i, ?_⟩
      rw [Function.update_of_ne, here]
      rintro rfl
      rw [empty] at here
      cases here

/-- The slots stay as they are when pools and entries are added or values change. -/
theorem Indexed.mono (indexed : Indexed calcHash bits pools cell index table)
    {pools' : List Nat} (grows : pools <+: pools') {cell' : Pointer → Option (Str × T)}
    (keeps : ∀ {p s v}, cell p = some (s, v) → ∃ v', cell' p = some (s, v')) :
    Indexed calcHash bits pools' cell' index table ∧
      slotString pools' cell' table = slotString pools cell table := by
  have view : slotString pools' cell' table = slotString pools cell table := by
    funext i
    cases found : table[i]? with
    | none => rw [slotString, slotString, found]; rfl
    | some se =>
      rcases indexed.slot_cases found with ⟨free, empty⟩ | ⟨inUse, p, s, v, pointer, entry, -, -, here⟩
      · rw [empty, slotString, found, Option.bind_eq_bind, Option.bind_some, if_pos free]
      · obtain ⟨v', entry'⟩ := keeps entry
        rw [here, slotString, found, Option.bind_eq_bind, Option.bind_some, if_neg inUse,
          pointerAt_of_prefix grows pointer, Option.bind_eq_bind, Option.bind_some, entry']
        rfl
  refine ⟨⟨indexed.length, fun {se} member inUse => ?_, ?_, fun {s p} listed => ?_⟩, view⟩
  · obtain ⟨p, s, v, pointer, entry, listed, hash⟩ := indexed.slots member inUse
    obtain ⟨v', entry'⟩ := keeps entry
    exact ⟨p, s, v', pointerAt_of_prefix grows pointer, entry', listed, hash⟩
  · rw [view]
    exact indexed.placed
  · obtain ⟨⟨v, entry⟩, here⟩ := indexed.indexed listed
    rw [view]
    exact ⟨keeps entry, here⟩

/-- A table without entries. -/
theorem Indexed.empty (calcHash : Str → BitVec 32) (bits : Nat) (pools : List Nat)
    (cell : Pointer → Option (Str × T)) :
    Indexed calcHash bits pools cell (fun _ => none) (List.replicate (2 ^ bits) {}) := by
  refine ⟨List.length_replicate .., fun {se} member inUse => ?_, fun i s here => ?_,
    fun {s p} listed => absurd listed.symm (Option.some_ne_none p)⟩
  · rw [List.eq_of_mem_replicate member] at inUse
    exact absurd rfl inUse
  · rw [slotString, List.getElem?_replicate] at here
    split at here
    · cases here
    · cases here

theorem used_empty (size : Nat) : used (List.replicate size {}) = 0 := by
  simp [used, List.countP_replicate]

/-! ### Growing -/

/-- The slot belongs to a string. -/
def Slotted (pools : List Nat) (cell : Pointer → Option (Str × T)) (str : Str)
    (se : StringEntry) : Prop :=
  se.vptr ≠ 0 ∧ ∃ p v, pointerAt pools se.vptr = some p ∧ cell p = some (str, v)

theorem Slotted.unique {se : StringEntry} {s s' : Str} (first : Slotted pools cell s se)
    (second : Slotted pools cell s' se) : s = s' := by
  obtain ⟨-, p, v, pointer, entry⟩ := first
  obtain ⟨-, p', v', pointer', entry'⟩ := second
  obtain rfl := Option.some.inj (pointer.symm.trans pointer')
  exact congrArg Prod.fst (Option.some.inj (entry.symm.trans entry'))

theorem Slotted.slotString_eq {se : StringEntry} {s : Str} (slotted : Slotted pools cell s se)
    {i : Nat} (found : table[i]? = some se) : slotString pools cell table i = some s := by
  obtain ⟨inUse, p, v, pointer, entry⟩ := slotted
  rw [slotString, found, Option.bind_eq_bind, Option.bind_some, if_neg inUse, pointer,
    Option.bind_eq_bind, Option.bind_some, entry]
  rfl

/-- Two slots of a table do not belong to one string. -/
theorem Indexed.slotted_ne {done rest : List StringEntry} {se se' : StringEntry} {s : Str}
    (indexed : Indexed calcHash bits pools cell index (done ++ se :: rest)) (member : se' ∈ done)
    (slotted : Slotted pools cell s se) : ¬ Slotted pools cell s se' := by
  intro slotted'
  obtain ⟨i, bound, rfl⟩ := List.getElem_of_mem member
  have last : (done ++ se :: rest)[done.length]? = some se := by simp
  have before : (done ++ se :: rest)[i]? = some done[i] := by
    rw [List.getElem?_append_left bound, List.getElem?_eq_getElem bound]
  have same := indexed.placed.unique (slotted.slotString_eq last) (slotted'.slotString_eq before)
  omega

/-- The index of the entries that have been moved. -/
structure Moved (pools : List Nat) (cell : Pointer → Option (Str × T)) (done : List StringEntry)
    (index partly : Str → Option Pointer) : Prop where
  listed : ∀ {se s}, se ∈ done → Slotted pools cell s se → partly s = index s
  unlisted : ∀ {s}, (∀ se ∈ done, ¬ Slotted pools cell s se) → partly s = none

theorem Moved.skip {done : List StringEntry} {partly : Str → Option Pointer} {se : StringEntry}
    (moved : Moved pools cell done index partly) (free : se.vptr = 0) :
    Moved pools cell (done ++ [se]) index partly := by
  refine ⟨fun {other s} member slotted => ?_, fun {s} none_ => ?_⟩
  · rcases List.mem_append.mp member with before | last
    · exact moved.listed before slotted
    · rw [List.mem_singleton.mp last] at slotted
      exact absurd free slotted.1
  · exact moved.unlisted fun other member => none_ other (List.mem_append_left _ member)

theorem Moved.add {done : List StringEntry} {partly : Str → Option Pointer} {se : StringEntry}
    {str : Str} {p : Pointer} (moved : Moved pools cell done index partly)
    (slotted : Slotted pools cell str se) (listed : index str = some p) :
    Moved pools cell (done ++ [se]) index (Function.update partly str (some p)) := by
  refine ⟨fun {other s} member slotted' => ?_, fun {s} none_ => ?_⟩
  · by_cases same : s = str
    · rw [same, Function.update_self, listed]
    · rw [Function.update_of_ne same]
      rcases List.mem_append.mp member with before | last
      · exact moved.listed before slotted'
      · rw [List.mem_singleton.mp last] at slotted'
        exact absurd (slotted'.unique slotted) same
  · rw [Function.update_of_ne]
    · exact moved.unlisted fun other member => none_ other (List.mem_append_left _ member)
    · rintro rfl
      exact none_ se (by simp) slotted

theorem used_append (first second : List StringEntry) :
    used (first ++ second) = used first + used second :=
  List.countP_append

theorem used_singleton (se : StringEntry) : used [se] = if se.vptr = 0 then 0 else 1 := by
  by_cases free : se.vptr = 0
  · rw [used, List.countP_singleton, if_neg (by simpa using free), if_pos free]
  · rw [used, List.countP_singleton, if_pos (by simpa using free), if_neg free]

/-- The loop of `grow` puts the rest of the entries in the new slots. -/
theorem growFrom_spec {newBits : Nat} {t : Table T} (apart : Apart sizes t.blocks cell)
    (rest : List StringEntry) :
    ∀ (done : List StringEntry) (partly : Str → Option Pointer) (newTable : List StringEntry),
      Indexed calcHash bits t.pools cell index (done ++ rest) →
      Indexed calcHash newBits t.pools cell partly newTable →
      Moved t.pools cell done index partly →
      used newTable = used done → used (done ++ rest) < 2 ^ newBits →
      ∃ final, growFrom sizes rest { t with table := newTable } = some { t with table := final } ∧
        Indexed calcHash newBits t.pools cell index final ∧ used final = used (done ++ rest) := by
  induction rest with
  | nil =>
    intro done partly newTable old new moved count _
    rw [List.append_nil] at old ⊢
    have same : partly = index := by
      funext s
      by_cases exists_ : ∃ se ∈ done, Slotted t.pools cell s se
      · obtain ⟨se, member, slotted⟩ := exists_
        exact moved.listed member slotted
      · have none_ : ∀ se ∈ done, ¬ Slotted t.pools cell s se := by simpa using exists_
        rw [moved.unlisted none_]
        by_contra some_
        obtain ⟨p, listed⟩ := Option.ne_none_iff_exists'.mp (Ne.symm some_)
        obtain ⟨-, i, here⟩ := old.indexed listed
        obtain ⟨se, q, v, found, inUse, pointer, entry, -⟩ := old.of_slotString here
        exact none_ se (List.mem_of_getElem? found) ⟨inUse, q, v, pointer, entry⟩
    rw [same] at new
    exact ⟨newTable, rfl, new, count⟩
  | cons se rest inductionHypothesis =>
    intro done partly newTable old new moved count room
    have regroup : done ++ se :: rest = (done ++ [se]) ++ rest := by simp
    have total := room
    rw [used_append] at total
    by_cases free : se.vptr = 0
    · rw [growFrom, if_pos free, regroup]
      rw [regroup] at old room
      refine inductionHypothesis (done ++ [se]) partly newTable old new (moved.skip free) ?_ room
      rw [used_append, count, used_singleton, if_pos free, Nat.add_zero]
    · have member : se ∈ done ++ se :: rest := by simp
      obtain ⟨p, s, v, pointer, entry, listed, hash⟩ := old.slots member free
      have slotted : Slotted t.pools cell s se := ⟨free, p, v, pointer, entry⟩
      have absent : partly s = none := moved.unlisted fun other before =>
        old.slotted_ne before slotted
      have newRoom : used newTable < newTable.length := by
        rw [new.length, count]
        omega
      obtain ⟨empty, emptyMember, isFree⟩ := exists_free newRoom
      obtain ⟨n, slot, found, at_, outcome⟩ := findSlot_cases (t := { t with table := newTable })
        apart new s emptyMember isFree
      rcases outcome with ⟨q, present, -⟩ | ⟨-, slotFree, passed⟩
      · rw [absent] at present
        cases present
      have placed := new.place absent passed at_ slotFree free pointer entry hash
      rw [growFrom, if_neg free, getValue_eq _ free]
      simp only [pointer, Option.map_some, Option.bind_eq_bind, Option.bind_some,
        (apart.holds entry).svToString_eq, hash, found]
      rw [regroup]
      rw [regroup] at old room
      refine inductionHypothesis (done ++ [se]) (Function.update partly s (some p)) _ old placed
        (moved.add slotted listed) ?_ room
      rw [used_set at_ slotFree free, count, used_append, used_singleton, if_neg free]

end

end LaserD.Root.StringTable
