/-
This file models the bit arrays of `dmd/root/bitarray.d` and compares them with lists of
booleans over every run.

A bit array keeps its length in bits and a block of chunks of 64 bits. The operations
work on chunks: equality is `memcmp`, a shorter length masks the last chunk, and new
chunks are zeroed. `Op.perform` is an operation on numbered arrays, `Op.onLists` the
operation on lists that it stands for; both fail on a failed assertion. Storage bits
beyond the length stay zero in every run.

Writing false goes wrong: `opIndexAssign` complements the bit instead of clearing it, so
that false written to a false bit makes it true. A length above `2 ^ 64 - 64` also goes
wrong, because the number of chunks wraps to zero and the last chunk is then at index
`-1`. An operation does what it stands for exactly when it is neither.
-/

import LaserD.Lib.PackedBits

namespace LaserD.Root

open PackedBits

/-! ### The arrays -/

/-- The type of the chunks and of the lengths, `size_t`. -/
abbrev Chunk := BitVec 64

/-- A bit array: the length in bits and the block of chunks. -/
structure BitArray where
  len : Chunk := 0
  ptr : List Chunk := []
  deriving DecidableEq

namespace BitArray

/-- The number of chunks that store `len` bits. -/
def chunks (len : Chunk) : Chunk :=
  (len + 64 - 1) / 64

/-- `mem.xrealloc_noscan`. What the new part of the block holds is `fresh`. -/
def xreallocNoscan (ptr : List Chunk) (count : Nat) (fresh : Nat → Chunk) : List Chunk :=
  (List.range count).map fun i => if i < ptr.length then ptr.getD i 0 else fresh i

/-- `ptr[lower .. upper] = 0`. -/
def zeroSlice (ptr : List Chunk) (lower upper : Nat) : List Chunk :=
  ptr.take lower ++ List.replicate (upper - lower) 0 ++ ptr.drop upper

/-- A chunk written in place, which fails outside of the block. -/
def store (ptr : List Chunk) (i : Nat) (value : Chunk) : Option (List Chunk) :=
  if i < ptr.length then some (ptr.set i value) else none

/-- Sets the length. -/
def setLength (a : BitArray) (nlen : Chunk) (fresh : Nat → Chunk) : Option BitArray := do
  let ochunks := chunks a.len
  let nchunks := chunks nlen
  let ptr := if ochunks ≠ nchunks then xreallocNoscan a.ptr nchunks.toNat fresh else a.ptr
  let ptr := if ochunks < nchunks then zeroSlice ptr ochunks.toNat nchunks.toNat else ptr
  let ptr ←
    if nlen &&& 63 ≠ 0 then
      let last := (nchunks - 1).toNat
      store ptr last (ptr.getD last 0 &&& ((1#64 <<< (nlen &&& 63).toNat) - 1#64))
    else some ptr
  return ⟨nlen, ptr⟩

/-- The assignment of a bit array. -/
def opAssign (a b : BitArray) (fresh : Nat → Chunk) : Option BitArray := do
  let a ← if a.len = 0 then a.setLength b.len fresh else some a
  if a.len = b.len then
    let count := (chunks a.len).toNat
    return { a with ptr := b.ptr.take count ++ a.ptr.drop count }
  else none

/-- `bt`. -/
def bt (ptr : List Chunk) (idx : Nat) : Bool :=
  (ptr.getD (idx / 64) 0).getLsbD (idx % 64)

/-- `bts`. -/
def bts (ptr : List Chunk) (idx : Nat) : Option (List Chunk) :=
  store ptr (idx / 64) (ptr.getD (idx / 64) 0 ||| (1#64 <<< (idx % 64)))

/-- `btc`. -/
def btc (ptr : List Chunk) (idx : Nat) : Option (List Chunk) :=
  store ptr (idx / 64) (ptr.getD (idx / 64) 0 ^^^ (1#64 <<< (idx % 64)))

/-- Reads a bit. -/
def opIndex (a : BitArray) (idx : Chunk) : Option Bool :=
  if idx < a.len then some (bt a.ptr idx.toNat) else none

/-- Writes a bit. -/
def opIndexAssign (a : BitArray) (val : Bool) (idx : Chunk) : Option BitArray :=
  if idx < a.len then
    (if val then bts a.ptr idx.toNat else btc a.ptr idx.toNat).map fun ptr => { a with ptr }
  else none

/-- Equality, with `memcmp` of the chunks in use. -/
def opEquals (a b : BitArray) : Bool :=
  a.len = b.len &&
    a.ptr.take (chunks a.len).toNat = b.ptr.take (chunks a.len).toNat

/-- Clears all bits. -/
def zero (a : BitArray) : BitArray :=
  { a with ptr := zeroSlice a.ptr 0 (chunks a.len).toNat }

/-- Whether no bit is set. -/
def isZero (a : BitArray) : Bool :=
  (List.range (chunks a.len).toNat).all fun i => a.ptr.getD i 0 = 0

/-- Sets the bits that are set in `b`. -/
def or (a b : BitArray) : Option BitArray :=
  if a.len = b.len then
    some { a with
      ptr := (List.range (chunks a.len).toNat).foldl
        (fun ptr i => ptr.set i (ptr.getD i 0 ||| b.ptr.getD i 0)) a.ptr }
  else none

/-- Exchanges the contents. -/
def swap (a b : BitArray) : Option (BitArray × BitArray) :=
  if a.len = b.len then
    let ptrs := (List.range (chunks a.len).toNat).foldl
      (fun ptrs i => (ptrs.1.set i (ptrs.2.getD i 0), ptrs.2.set i (ptrs.1.getD i 0)))
      (a.ptr, b.ptr)
    some ({ a with ptr := ptrs.1 }, { b with ptr := ptrs.2 })
  else none

/-! ### Operations on numbered arrays -/

/-- An operation on arrays of a program. A new block holds anything. -/
inductive Op
  | setLength (a : Nat) (nlen : Chunk) (fresh : Nat → Chunk)
  | assign (a b : Nat) (fresh : Nat → Chunk)
  | index (a : Nat) (idx : Chunk)
  | indexAssign (a : Nat) (val : Bool) (idx : Chunk)
  | equals (a b : Nat)
  | zero (a : Nat)
  | isZero (a : Nat)
  | or (a b : Nat)
  | swap (a b : Nat)

/-- The arrays of a program by number. -/
abbrev Arrays := Nat → BitArray

/-- The operation, with the boolean it answers. -/
def Op.perform (op : Op) (arrays : Arrays) : Option (Arrays × Option Bool) :=
  let change (a : Nat) (result : Option BitArray) :=
    result.map fun after => (Function.update arrays a after, none)
  let answer (value : Bool) := some (arrays, some value)
  match op with
  | .setLength a nlen fresh => change a ((arrays a).setLength nlen fresh)
  | .assign a b fresh => change a ((arrays a).opAssign (arrays b) fresh)
  | .index a idx => ((arrays a).opIndex idx).bind answer
  | .indexAssign a val idx => change a ((arrays a).opIndexAssign val idx)
  | .equals a b => answer ((arrays a).opEquals (arrays b))
  | .zero a => change a (some (arrays a).zero)
  | .isZero a => answer (arrays a).isZero
  | .or a b => change a ((arrays a).or (arrays b))
  | .swap a b => ((arrays a).swap (arrays b)).map fun after =>
      (Function.update (Function.update arrays a after.1) b after.2, none)

/-! ### Operations on lists -/

/-- The lists of a program by number. -/
abbrev Lists := Nat → List Bool

/-- The operation on lists of booleans. -/
def Op.onLists (op : Op) (lists : Lists) : Option (Lists × Option Bool) :=
  let change (a : Nat) (after : List Bool) := some (Function.update lists a after, none)
  let answer (value : Bool) := some (lists, some value)
  match op with
  | .setLength a nlen _ =>
      change a ((lists a).take nlen.toNat ++
        List.replicate (nlen.toNat - (lists a).length) false)
  | .assign a b _ =>
      if lists a = [] ∨ (lists a).length = (lists b).length then change a (lists b) else none
  | .index a idx => (lists a)[idx.toNat]?.bind answer
  | .indexAssign a val idx =>
      if idx.toNat < (lists a).length then change a ((lists a).set idx.toNat val) else none
  | .equals a b => answer (lists a = lists b)
  | .zero a => change a (List.replicate (lists a).length false)
  | .isZero a => answer ((lists a).all fun bit => !bit)
  | .or a b =>
      if (lists a).length = (lists b).length then
        change a (List.zipWith (fun x y => x || y) (lists a) (lists b))
      else none
  | .swap a b =>
      if (lists a).length = (lists b).length then
        some (Function.update (Function.update lists a (lists b)) b (lists a), none)
      else none

/-- The list an array stands for. -/
def bits (a : BitArray) : List Bool :=
  (List.range a.len.toNat).map (bitAt a.ptr)

/-- The operation does on the arrays what it does on the lists they stand for. -/
def Op.Refines (op : Op) (arrays : Arrays) : Prop :=
  (op.perform arrays).map (fun result => (fun i => bits (result.1 i), result.2)) =
    op.onLists fun i => bits (arrays i)

/-- The condition under which an operation refines: false is written to a set bit, and a
length leaves the number of chunks within the words. -/
def Op.Condition (op : Op) (arrays : Arrays) : Prop :=
  match op with
  | .setLength _ nlen _ => nlen.toNat ≤ 2 ^ 64 - 64
  | .indexAssign a val idx =>
      val = false → idx < (arrays a).len → bt (arrays a).ptr idx.toNat = true
  | _ => True

/-! ### The invariant -/

/-- The block has the chunks of the length, and the storage bits beyond the length are zero. -/
structure Clear (a : BitArray) : Prop where
  small : a.len.toNat ≤ 2 ^ 64 - 64
  length : a.ptr.length = (chunks a.len).toNat
  beyond : ∀ index, a.len.toNat ≤ index → bitAt a.ptr index = false

theorem clear_empty : Clear {} where
  small := by decide
  length := by decide
  beyond _ _ := bitAt_beyond (Nat.zero_le _)

/-- The number of chunks, rounded up. -/
theorem toNat_chunks {len : Chunk} (small : len.toNat ≤ 2 ^ 64 - 64) :
    (chunks len).toNat = (len.toNat + 63) / 64 := by
  rw [chunks, BitVec.toNat_udiv]
  have sum : (len + 64 - 1).toNat = len.toNat + 63 := by bv_omega
  rw [sum]
  rfl

/-- The number of chunks wraps to zero. -/
theorem chunks_wrapped {len : Chunk} (large : 2 ^ 64 - 64 < len.toNat) : chunks len = 0 := by
  refine BitVec.eq_of_toNat_eq ?_
  rw [chunks, BitVec.toNat_udiv]
  have sum : (len + 64 - 1).toNat = len.toNat + 63 - 2 ^ 64 := by bv_omega
  have bound := len.isLt
  rw [sum]
  exact Nat.div_eq_of_lt (by show _ < 64; omega)

theorem toNat_lowBits (len : Chunk) : (len &&& 63).toNat = len.toNat % 64 := by
  rw [BitVec.toNat_and]
  exact Nat.and_two_pow_sub_one_eq_mod len.toNat 6

theorem lowBits_eq_zero_iff (len : Chunk) : len &&& 63 = 0 ↔ len.toNat % 64 = 0 := by
  rw [← BitVec.toNat_inj, toNat_lowBits]
  rfl

theorem Clear.bitAt_chunk_beyond {a : BitArray} (clear : Clear a) {index : Nat}
    (beyond : (chunks a.len).toNat ≤ index / 64) : bitAt a.ptr index = false :=
  bitAt_beyond (by rw [clear.length]; exact beyond)

/-- An index below the length lies in the block. -/
theorem Clear.word_inside {a : BitArray} (clear : Clear a) {index : Nat}
    (inside : index < a.len.toNat) : index / 64 < a.ptr.length := by
  rw [clear.length, toNat_chunks clear.small]
  omega

/-! ### The chunks after each operation -/

theorem length_xreallocNoscan (ptr : List Chunk) (count : Nat) (fresh : Nat → Chunk) :
    (xreallocNoscan ptr count fresh).length = count := by
  rw [xreallocNoscan, List.length_map, List.length_range]

theorem getD_xreallocNoscan (ptr : List Chunk) (count : Nat) (fresh : Nat → Chunk) (i : Nat)
    (inside : i < count) (kept : i < ptr.length) :
    (xreallocNoscan ptr count fresh).getD i 0 = ptr.getD i 0 := by
  rw [List.getD_eq_getElem _ _ (by rw [length_xreallocNoscan]; exact inside)]
  simp only [xreallocNoscan, List.getElem_map, List.getElem_range, if_pos kept]

theorem length_zeroSlice (ptr : List Chunk) (lower upper : Nat) (ordered : lower ≤ upper)
    (inside : upper ≤ ptr.length) : (zeroSlice ptr lower upper).length = ptr.length := by
  simp only [zeroSlice, List.length_append, List.length_take, List.length_replicate,
    List.length_drop]
  omega

theorem getD_zeroSlice (ptr : List Chunk) (lower upper i : Nat) (ordered : lower ≤ upper)
    (inside : upper ≤ ptr.length) :
    (zeroSlice ptr lower upper).getD i 0 =
      if lower ≤ i ∧ i < upper then 0 else ptr.getD i 0 := by
  have taken : (ptr.take lower).length = lower := by
    rw [List.length_take]
    omega
  simp only [zeroSlice, List.getD_eq_getElem?_getD, List.append_assoc]
  by_cases below : i < lower
  · rw [List.getElem?_append_left (by rw [taken]; exact below), List.getElem?_take_of_lt below,
      if_neg (by omega)]
  · rw [List.getElem?_append_right (by rw [taken]; omega), taken]
    by_cases within : i < upper
    · rw [List.getElem?_append_left (by rw [List.length_replicate]; omega),
        List.getElem?_replicate, if_pos (by omega), if_pos (by omega), Option.getD_some]
    · rw [List.getElem?_append_right (by rw [List.length_replicate]; omega),
        List.length_replicate, List.getElem?_drop, if_neg (by omega)]
      rw [show upper + (i - lower - (upper - lower)) = i by omega]

theorem store_eq_some {ptr : List Chunk} {i : Nat} (inside : i < ptr.length) (value : Chunk) :
    store ptr i value = some (ptr.set i value) :=
  if_pos inside

/-- One bit of a chunk is written. -/
theorem bitAt_set_bit {ptr : List Chunk} {idx : Nat} {value : Chunk} {bit : Bool}
    (inside : idx / 64 < ptr.length)
    (written : value.getLsbD (idx % 64) = bit)
    (kept : ∀ other < 64, other ≠ idx % 64 →
      value.getLsbD other = (ptr.getD (idx / 64) 0).getLsbD other) (index : Nat) :
    bitAt (ptr.set (idx / 64) value) index = if index = idx then bit else bitAt ptr index := by
  rw [bitAt, getD_set _ _ _ _ inside]
  by_cases same : index = idx
  · subst same
    rw [if_pos rfl, if_pos rfl, written]
  · rw [if_neg same]
    by_cases word : index / 64 = idx / 64
    · rw [if_pos word, kept _ (Nat.mod_lt _ (by decide)) (by omega), bitAt, word]
    · rw [if_neg word, bitAt]

/-- The array of a length that holds the given bits, with the rest of its storage zero. -/
structure Holds (a : BitArray) (len : Chunk) (bit : Nat → Bool) : Prop where
  clear : Clear a
  len_eq : a.len = len
  bit_eq : ∀ index, bitAt a.ptr index = bit index

/-- The block of `setLength` before the mask. -/
theorem resized_block {a : BitArray} (clear : Clear a) {nlen : Chunk} (fresh : Nat → Chunk)
    {ptr : List Chunk}
    (made : ptr =
      let block := if chunks a.len ≠ chunks nlen then
        xreallocNoscan a.ptr (chunks nlen).toNat fresh else a.ptr
      if chunks a.len < chunks nlen then
        zeroSlice block (chunks a.len).toNat (chunks nlen).toNat else block) :
    ptr.length = (chunks nlen).toNat ∧
      ∀ i < (chunks nlen).toNat, ptr.getD i 0 = a.ptr.getD i 0 := by
  by_cases same : chunks a.len = chunks nlen
  · rw [same, if_neg (BitVec.lt_irrefl _), if_neg (not_not_intro rfl)] at made
    rw [made, clear.length, same]
    exact ⟨rfl, fun _ _ => rfl⟩
  · rw [if_pos same] at made
    dsimp only at made
    have realloc := length_xreallocNoscan a.ptr (chunks nlen).toNat fresh
    by_cases grows : chunks a.len < chunks nlen
    · have ordered : (chunks a.len).toNat ≤ (chunks nlen).toNat := Nat.le_of_lt grows
      rw [if_pos grows] at made
      rw [made]
      refine ⟨by rw [length_zeroSlice _ _ _ ordered (by rw [realloc]), realloc],
        fun i inside => ?_⟩
      rw [getD_zeroSlice _ _ _ _ ordered (by rw [realloc])]
      by_cases old : i < (chunks a.len).toNat
      · rw [if_neg (by omega), getD_xreallocNoscan _ _ _ _ inside (by rw [clear.length]; exact old)]
      · rw [if_pos (by omega), List.getD_eq_default _ _ (by rw [clear.length]; omega)]
    · have ordered : (chunks nlen).toNat ≤ (chunks a.len).toNat := Nat.le_of_not_lt grows
      rw [if_neg grows] at made
      rw [made]
      refine ⟨realloc, fun i inside => ?_⟩
      exact getD_xreallocNoscan _ _ _ _ inside (by rw [clear.length]; omega)

/-- The mask leaves the bits below the length. -/
theorem bitAt_masked {ptr : List Chunk} {nlen : Chunk} (small : nlen.toNat ≤ 2 ^ 64 - 64)
    (length : ptr.length = (chunks nlen).toNat) (cut : nlen.toNat % 64 ≠ 0) (index : Nat) :
    bitAt (ptr.set (nlen.toNat / 64)
      (ptr.getD (nlen.toNat / 64) 0 &&& ((1#64 <<< (nlen &&& 63).toNat) - 1#64))) index =
      (decide (index < nlen.toNat) && bitAt ptr index) := by
  rw [toNat_chunks small] at length
  rw [bitAt, getD_set _ _ _ _ (by omega)]
  by_cases last : index / 64 = nlen.toNat / 64
  · rw [if_pos last, BitVec.getLsbD_and, toNat_lowBits,
      getLsbD_mask _ _ (Nat.mod_lt _ (by decide)), bitAt, last, Bool.and_comm]
    congr 1
    rw [decide_eq_decide]
    omega
  · rw [if_neg last, ← bitAt]
    by_cases below : index < nlen.toNat
    · rw [decide_eq_true below, Bool.true_and]
    · rw [decide_eq_false below, Bool.false_and]
      exact bitAt_beyond (by omega)

theorem setLength_holds {a : BitArray} (clear : Clear a) {nlen : Chunk}
    (small : nlen.toNat ≤ 2 ^ 64 - 64) (fresh : Nat → Chunk) :
    ∃ after, a.setLength nlen fresh = some after ∧
      Holds after nlen fun index => decide (index < nlen.toNat) && bitAt a.ptr index := by
  obtain ⟨length, words⟩ := resized_block clear fresh rfl
  rw [setLength]
  dsimp only
  generalize (if chunks a.len < chunks nlen then _ else _ : List Chunk) = block at length words ⊢
  have chunkCount := toNat_chunks small
  have bitsBelow : ∀ index < nlen.toNat, bitAt block index = bitAt a.ptr index :=
    fun index below => bitAt_of_word_eq (words _ (by omega))
  have bits : ∀ index, (decide (index < nlen.toNat) && bitAt block index) =
      (decide (index < nlen.toNat) && bitAt a.ptr index) := by
    intro index
    by_cases below : index < nlen.toNat
    · rw [bitsBelow index below]
    · rw [decide_eq_false below, Bool.false_and, Bool.false_and]
  by_cases cut : nlen.toNat % 64 = 0
  · rw [if_neg (by simpa using (lowBits_eq_zero_iff nlen).mpr cut)]
    refine ⟨⟨nlen, block⟩, rfl, ⟨⟨small, length, fun index beyond => ?_⟩, rfl, fun index => ?_⟩⟩
    · exact bitAt_beyond (by rw [length]; dsimp only at beyond; omega)
    · rw [← bits]
      by_cases below : index < nlen.toNat
      · rw [decide_eq_true below, Bool.true_and]
      · rw [decide_eq_false below, Bool.false_and]
        exact bitAt_beyond (by rw [length]; omega)
  · have last : (chunks nlen - 1).toNat = nlen.toNat / 64 := by
      have positive : 0 < (chunks nlen).toNat := by omega
      have ordered : (1 : Chunk) ≤ chunks nlen := positive
      rw [BitVec.toNat_sub_of_le ordered, chunkCount]
      show (nlen.toNat + 63) / 64 - 1 = _
      omega
    rw [if_pos (by simpa using mt (lowBits_eq_zero_iff nlen).mp cut), last,
      store_eq_some (by omega)]
    have masked := bitAt_masked small length cut
    refine ⟨_, rfl, ⟨⟨small, ?_, fun index beyond => ?_⟩, rfl, fun index => ?_⟩⟩
    · exact (List.length_set ..).trans length
    · refine (masked index).trans ?_
      rw [decide_eq_false (Nat.not_lt.mpr beyond), Bool.false_and]
    · exact (masked index).trans (bits index)

/-- A length whose number of chunks wraps makes the mask write outside of the block. -/
theorem setLength_wrapped {a : BitArray} (clear : Clear a) {nlen : Chunk}
    (large : 2 ^ 64 - 64 < nlen.toNat) (fresh : Nat → Chunk) :
    a.setLength nlen fresh = none := by
  obtain ⟨length, -⟩ := @resized_block a clear nlen fresh _ rfl
  rw [setLength]
  dsimp only
  generalize (if chunks a.len < chunks nlen then _ else _ : List Chunk) = block at length ⊢
  have wrapped := chunks_wrapped large
  have bound := nlen.isLt
  have cut : nlen.toNat % 64 ≠ 0 := by omega
  rw [if_pos (by simpa using mt (lowBits_eq_zero_iff nlen).mp cut), store, if_neg]
  · rfl
  · rw [length, wrapped]
    exact Nat.not_lt_zero _

theorem opAssign_holds {a b : BitArray} (clear : Clear a) (clearOther : Clear b)
    (admitted : a.len = 0 ∨ a.len = b.len) (fresh : Nat → Chunk) :
    ∃ after, a.opAssign b fresh = some after ∧ Holds after b.len (bitAt b.ptr) := by
  have copied : ∀ middle : BitArray, Clear middle → middle.len = b.len →
      Holds ⟨middle.len, b.ptr.take (chunks middle.len).toNat ++
        middle.ptr.drop (chunks middle.len).toNat⟩ b.len (bitAt b.ptr) := by
    intro middle clearMiddle same
    have block : b.ptr.take (chunks middle.len).toNat ++
        middle.ptr.drop (chunks middle.len).toNat = b.ptr := by
      rw [← clearMiddle.length, List.drop_length, List.append_nil, clearMiddle.length, same,
        ← clearOther.length, List.take_length]
    rw [block]
    refine ⟨⟨clearMiddle.small, ?_, ?_⟩, same, fun _ => rfl⟩
    · exact clearOther.length.trans (by rw [same])
    · exact fun index beyond => clearOther.beyond index (by rw [← same]; exact beyond)
  rw [opAssign]
  by_cases empty : a.len = 0
  · obtain ⟨middle, resized, holds⟩ := setLength_holds clear clearOther.small fresh
    rw [if_pos empty, resized]
    exact ⟨_, if_pos holds.len_eq, copied middle holds.clear holds.len_eq⟩
  · have same := admitted.resolve_left empty
    rw [if_neg empty]
    exact ⟨_, if_pos same, copied a clear same⟩

theorem getLsbD_oneBit (bit other : Nat) (inside : other < 64) :
    (1#64 <<< bit).getLsbD other = decide (other = bit) := by
  rw [← BitVec.twoPow_eq, BitVec.getLsbD_twoPow]
  by_cases same : other = bit
  · subst same
    simp [inside]
  · simp [same, Ne.symm same]

/-- Writing true sets the bit, writing false complements it. -/
theorem opIndexAssign_holds {a : BitArray} (clear : Clear a) {idx : Chunk} (inside : idx < a.len)
    (val : Bool) :
    ∃ after, a.opIndexAssign val idx = some after ∧ Holds after a.len fun index =>
      if index = idx.toNat then val || !bitAt a.ptr idx.toNat else bitAt a.ptr index := by
  have below : idx.toNat < a.len.toNat := inside
  have word := clear.word_inside below
  have remainder : idx.toNat % 64 < 64 := Nat.mod_lt _ (by decide)
  have done : ∀ value : Chunk,
      value.getLsbD (idx.toNat % 64) = (val || !bitAt a.ptr idx.toNat) →
      (∀ other < 64, other ≠ idx.toNat % 64 →
        value.getLsbD other = (a.ptr.getD (idx.toNat / 64) 0).getLsbD other) →
      Holds { a with ptr := a.ptr.set (idx.toNat / 64) value } a.len fun index =>
        if index = idx.toNat then val || !bitAt a.ptr idx.toNat else bitAt a.ptr index := by
    intro value written kept
    have bits := bitAt_set_bit word written kept
    refine ⟨⟨clear.small, ?_, fun index beyond => ?_⟩, rfl, bits⟩
    · exact (List.length_set ..).trans clear.length
    · refine (bits index).trans ?_
      have past : a.len.toNat ≤ index := beyond
      rw [if_neg (by omega), clear.beyond index past]
  rw [opIndexAssign, if_pos inside]
  cases val with
  | true =>
    refine ⟨_, by rw [if_pos rfl, bts, store_eq_some word]; rfl, done _ ?_ fun other bound differs => ?_⟩
    · rw [BitVec.getLsbD_or, getLsbD_oneBit _ _ remainder, decide_eq_true rfl, Bool.or_true,
        Bool.true_or]
    · rw [BitVec.getLsbD_or, getLsbD_oneBit _ _ bound, decide_eq_false differs, Bool.or_false]
  | false =>
    refine ⟨_, by rw [if_neg Bool.false_ne_true, btc, store_eq_some word]; rfl,
      done _ ?_ fun other bound differs => ?_⟩
    · rw [BitVec.getLsbD_xor, getLsbD_oneBit _ _ remainder, decide_eq_true rfl, Bool.xor_true,
        Bool.false_or, bitAt]
    · rw [BitVec.getLsbD_xor, getLsbD_oneBit _ _ bound, decide_eq_false differs, Bool.xor_false]

theorem zero_holds {a : BitArray} (clear : Clear a) :
    Holds a.zero a.len fun _ => false := by
  have whole : (chunks a.len).toNat ≤ a.ptr.length := clear.length.ge
  have length := length_zeroSlice a.ptr 0 _ (Nat.zero_le _) whole
  have bits : ∀ index, bitAt (zeroSlice a.ptr 0 (chunks a.len).toNat) index = false := by
    intro index
    refine bitAt_of_word_zero ?_
    rw [getD_zeroSlice _ _ _ _ (Nat.zero_le _) whole]
    by_cases inside : index / 64 < (chunks a.len).toNat
    · rw [if_pos ⟨Nat.zero_le _, inside⟩]
    · rw [if_neg fun both => inside both.2]
      exact List.getD_eq_default _ _ (by rw [clear.length]; exact Nat.le_of_not_lt inside)
  exact ⟨⟨clear.small, length.trans clear.length, fun index _ => bits index⟩, rfl, bits⟩

/-- The chunks of arrays of one length after a loop over them. -/
theorem holds_of_words {a b after : BitArray} (clear : Clear a) (clearOther : Clear b)
    (same : a.len = b.len) (len : after.len = a.len)
    (length : after.ptr.length = a.ptr.length)
    (combine : Chunk → Chunk → Chunk) (onBits : Bool → Bool → Bool)
    (pointwise : ∀ x y bit, bit < 64 →
      (combine x y).getLsbD bit = onBits (x.getLsbD bit) (y.getLsbD bit))
    (unset : onBits false false = false)
    (words : ∀ i, after.ptr.getD i 0 =
      if i < (chunks a.len).toNat then combine (a.ptr.getD i 0) (b.ptr.getD i 0)
      else after.ptr.getD i 0) :
    Holds after a.len fun index => onBits (bitAt a.ptr index) (bitAt b.ptr index) := by
  have bits : ∀ index, bitAt after.ptr index =
      onBits (bitAt a.ptr index) (bitAt b.ptr index) := by
    intro index
    by_cases inside : index / 64 < (chunks a.len).toNat
    · refine bitAt_zipWith combine onBits pointwise (by decide) ?_
      rw [words, if_pos inside]
    · have past := Nat.le_of_not_lt inside
      rw [bitAt_beyond (by rw [length, clear.length]; exact past), clear.bitAt_chunk_beyond past,
        clearOther.bitAt_chunk_beyond (by rw [← same]; exact past), unset]
  refine ⟨⟨by rw [len]; exact clear.small, by rw [len, length, clear.length], ?_⟩, len, bits⟩
  intro index beyond
  rw [len] at beyond
  rw [bits, clear.beyond _ beyond, clearOther.beyond _ (by rw [← same]; exact beyond), unset]

theorem or_holds {a b : BitArray} (clear : Clear a) (clearOther : Clear b)
    (same : a.len = b.len) :
    ∃ after, a.or b = some after ∧
      Holds after a.len fun index => bitAt a.ptr index || bitAt b.ptr index := by
  have loop := fun word => getD_foldl_set a.ptr (fun i chunk => chunk ||| b.ptr.getD i 0)
    (chunks a.len).toNat word clear.length.ge
  refine ⟨_, if_pos same, ?_⟩
  refine holds_of_words clear clearOther same ?_ ?_ (fun x y => x ||| y) _
    (fun x y bit _ => BitVec.getLsbD_or) rfl fun i => ?_
  · rfl
  · exact (loop 0).1
  by_cases inside : i < (chunks a.len).toNat
  · rw [if_pos inside]
    refine (loop i).2.trans ?_
    rw [if_pos inside]
  · rw [if_neg inside]

/-- The blocks after the loop of `swap`. -/
theorem swap_loop (first second : List Chunk) (same : first.length = second.length)
    (count : Nat) (inside : count ≤ first.length) :
    ∀ ptrs, ptrs = (List.range count).foldl (fun (ptrs : List Chunk × List Chunk) i =>
        (ptrs.1.set i (ptrs.2.getD i 0), ptrs.2.set i (ptrs.1.getD i 0))) (first, second) →
      ptrs.1.length = first.length ∧ ptrs.2.length = first.length ∧ ∀ word,
        ptrs.1.getD word 0 = (if word < count then second.getD word 0 else first.getD word 0) ∧
        ptrs.2.getD word 0 = (if word < count then first.getD word 0 else second.getD word 0) := by
  induction count with
  | zero =>
    rintro _ rfl
    exact ⟨rfl, same.symm, fun _ => ⟨rfl, rfl⟩⟩
  | succ count inductionHypothesis =>
    rintro _ rfl
    obtain ⟨length, length', words⟩ := inductionHypothesis (Nat.le_of_succ_le inside) _ rfl
    rw [List.range_succ, List.foldl_append, List.foldl_cons, List.foldl_nil]
    refine ⟨by rw [List.length_set, length], by rw [List.length_set, length'], fun word => ?_⟩
    rw [getD_set _ _ _ _ (by rw [length]; exact inside),
      getD_set _ _ _ _ (by rw [length']; exact inside), (words word).1, (words word).2]
    by_cases last : word = count
    · subst last
      rw [if_pos rfl, if_pos rfl, (words word).1, (words word).2]
      simp only [lt_irrefl, if_false, Nat.lt_succ_self, if_true, and_self]
    · rw [if_neg last, if_neg last]
      simp only [Nat.lt_succ_iff_lt_or_eq, last, or_false, and_self]

theorem swap_holds {a b : BitArray} (clear : Clear a) (clearOther : Clear b)
    (same : a.len = b.len) :
    ∃ after, a.swap b = some after ∧ Holds after.1 a.len (bitAt b.ptr) ∧
      Holds after.2 a.len (bitAt a.ptr) := by
  have lengths : a.ptr.length = b.ptr.length := by rw [clear.length, clearOther.length, same]
  obtain ⟨length, length', words⟩ := swap_loop a.ptr b.ptr lengths (chunks a.len).toNat
    clear.length.ge _ rfl
  refine ⟨_, if_pos same, ?_, ?_⟩
  · refine holds_of_words clear clearOther same ?_ ?_ (fun _ y => y) (fun _ y => y)
      (fun _ _ _ _ => rfl) rfl fun i => ?_
    · rfl
    · exact length
    by_cases inside : i < (chunks a.len).toNat
    · rw [if_pos inside]
      refine (words i).1.trans ?_
      rw [if_pos inside]
    · rw [if_neg inside]
  · refine holds_of_words clear clearOther same ?_ ?_ (fun x _ => x) (fun x _ => x)
      (fun _ _ _ _ => rfl) rfl fun i => ?_
    · exact same.symm
    · exact length'
    by_cases inside : i < (chunks a.len).toNat
    · rw [if_pos inside]
      refine (words i).2.trans ?_
      rw [if_pos inside]
    · rw [if_neg inside]

/-! ### The lists -/

theorem length_bits (a : BitArray) : (bits a).length = a.len.toNat := by
  rw [bits, List.length_map, List.length_range]

theorem getD_bits {a : BitArray} (clear : Clear a) (index : Nat) :
    (bits a).getD index false = bitAt a.ptr index := by
  by_cases inside : index < a.len.toNat
  · rw [List.getD_eq_getElem _ _ (by rw [length_bits]; exact inside)]
    simp only [bits, List.getElem_map, List.getElem_range]
  · have past := Nat.le_of_not_lt inside
    rw [List.getD_eq_default _ _ (by rw [length_bits]; exact past), clear.beyond index past]

theorem eq_of_getD {first second : List Bool} (length : first.length = second.length)
    (same : ∀ index, first.getD index false = second.getD index false) : first = second := by
  refine List.ext_getElem length fun index bound bound' => ?_
  rw [← List.getD_eq_getElem first false bound, ← List.getD_eq_getElem second false bound', same]

theorem Holds.bits_eq {a : BitArray} {len : Chunk} {bit : Nat → Bool} (holds : Holds a len bit)
    {list : List Bool} (length : list.length = len.toNat)
    (same : ∀ index, list.getD index false = bit index) : bits a = list := by
  refine eq_of_getD ?_ fun index => ?_
  · rw [length_bits, holds.len_eq, length]
  · rw [getD_bits holds.clear, holds.bit_eq, same]

theorem Holds.bits_eq_bits {a b : BitArray} {len : Chunk} (holds : Holds a len (bitAt b.ptr))
    (clear : Clear b) (same : b.len = len) : bits a = bits b :=
  holds.bits_eq (by rw [length_bits, same]) (getD_bits clear)

theorem bits_eq_nil_iff (a : BitArray) : bits a = [] ↔ a.len = 0 := by
  rw [← List.length_eq_zero_iff, length_bits, ← BitVec.toNat_inj]
  rfl

theorem length_bits_eq_iff (a b : BitArray) :
    (bits a).length = (bits b).length ↔ a.len = b.len := by
  rw [length_bits, length_bits, BitVec.toNat_inj]

theorem bits_eq_iff {a b : BitArray} (clear : Clear a) (clearOther : Clear b) :
    bits a = bits b ↔ a.len = b.len ∧ a.ptr = b.ptr := by
  refine ⟨fun same => ?_, fun same => by rw [bits, bits, same.1, same.2]⟩
  have len := (length_bits_eq_iff a b).mp (congrArg List.length same)
  refine ⟨len, eq_of_bitAt (by rw [clear.length, clearOther.length, len]) fun index => ?_⟩
  rw [← getD_bits clear, ← getD_bits clearOther, same]

theorem opEquals_eq {a b : BitArray} (clear : Clear a) (clearOther : Clear b) :
    a.opEquals b = decide (bits a = bits b) := by
  rw [Bool.eq_iff_iff, decide_eq_true_iff, bits_eq_iff clear clearOther, opEquals,
    Bool.and_eq_true, decide_eq_true_iff, decide_eq_true_iff]
  refine and_congr_right fun len => ?_
  have whole := List.take_length (l := b.ptr)
  rw [clearOther.length, ← len] at whole
  rw [whole, ← clear.length, List.take_length]

theorem isZero_eq {a : BitArray} (clear : Clear a) :
    a.isZero = (bits a).all fun bit => !bit := by
  rw [Bool.eq_iff_iff, isZero]
  simp only [List.all_eq_true, List.mem_range, decide_eq_true_iff, Bool.not_eq_true']
  constructor
  · intro words bit member
    obtain ⟨index, below, rfl⟩ := List.mem_map.mp member
    refine bitAt_of_word_zero (words _ ?_)
    have word := clear.word_inside (List.mem_range.mp below)
    rwa [clear.length] at word
  · intro unset i inside
    have same : ∀ index, bitAt a.ptr index = bitAt ([] : List Chunk) index := by
      intro index
      rw [show bitAt ([] : List Chunk) index = false from bitAt_beyond (Nat.zero_le _)]
      by_cases below : index < a.len.toNat
      · exact unset _ (List.mem_map.mpr ⟨index, List.mem_range.mpr below, rfl⟩)
      · exact clear.beyond index (Nat.le_of_not_lt below)
    exact getD_eq_of_bitAt fun bit _ => same _

theorem setLength_bits {a after : BitArray} (clear : Clear a) {nlen : Chunk}
    (holds : Holds after nlen fun index => decide (index < nlen.toNat) && bitAt a.ptr index) :
    bits after = (bits a).take nlen.toNat ++
      List.replicate (nlen.toNat - (bits a).length) false := by
  refine holds.bits_eq ?_ fun index => ?_
  · rw [List.length_append, List.length_take, List.length_replicate]
    omega
  · rw [← getD_bits clear]
    simp only [List.getD_eq_getElem?_getD]
    by_cases below : index < nlen.toNat
    · rw [decide_eq_true below, Bool.true_and]
      by_cases old : index < (bits a).length
      · rw [List.getElem?_append_left (by rw [List.length_take]; omega),
          List.getElem?_take_of_lt below]
      · rw [List.getElem?_append_right (by rw [List.length_take]; omega),
          List.getElem?_replicate, List.getElem?_eq_none (Nat.le_of_not_lt old)]
        split <;> rfl
    · rw [decide_eq_false below, Bool.false_and, List.getElem?_append_right, List.getElem?_replicate]
      · split <;> rfl
      · rw [List.length_take]
        omega

theorem getD_set_bool (list : List Bool) (written index : Nat) (value : Bool)
    (inside : written < list.length) :
    (list.set written value).getD index false =
      if index = written then value else list.getD index false := by
  by_cases same : index = written
  · subst same
    simp [inside]
  · simp [same, List.getElem?_set_ne (Ne.symm same)]

theorem getD_zipWith_or {first second : List Bool} (length : first.length = second.length)
    (index : Nat) :
    (List.zipWith (fun x y => x || y) first second).getD index false =
      (first.getD index false || second.getD index false) := by
  by_cases inside : index < first.length
  · rw [List.getD_eq_getElem _ _ (by rw [List.length_zipWith]; omega), List.getElem_zipWith,
      List.getD_eq_getElem _ _ inside, List.getD_eq_getElem _ _ (by omega)]
  · rw [List.getD_eq_default _ _ (by rw [List.length_zipWith]; omega),
      List.getD_eq_default _ _ (by omega), List.getD_eq_default _ _ (by omega), Bool.or_false]

theorem bits_update (arrays : Arrays) (a : Nat) (after : BitArray) :
    (fun i => bits (Function.update arrays a after i)) =
      Function.update (fun i => bits (arrays i)) a (bits after) :=
  Function.comp_update bits arrays a after

/-! ### One operation -/

section

variable {op : Op} {arrays : Arrays}

/-- An operation that changes one array refines exactly when that array holds the list. -/
theorem refines_change_iff {a : Nat} {after : BitArray} {list : List Bool}
    (performed : op.perform arrays = some (Function.update arrays a after, none))
    (listed : op.onLists (fun i => bits (arrays i)) =
      some (Function.update (fun i => bits (arrays i)) a list, none)) :
    op.Refines arrays ↔ bits after = list := by
  rw [Op.Refines, performed, listed, Option.map_some, bits_update]
  constructor
  · intro same
    have updates := congrFun (congrArg Prod.fst (Option.some.inj same)) a
    simpa only [Function.update_self] using updates
  · intro same
    rw [same]

theorem refines_of_change {a : Nat} {after : BitArray} {list : List Bool}
    (performed : op.perform arrays = some (Function.update arrays a after, none))
    (same : bits after = list)
    (listed : op.onLists (fun i => bits (arrays i)) =
      some (Function.update (fun i => bits (arrays i)) a list, none)) : op.Refines arrays :=
  (refines_change_iff performed listed).mpr same

theorem refines_of_answer {value : Bool}
    (performed : op.perform arrays = some (arrays, some value))
    (listed : op.onLists (fun i => bits (arrays i)) =
      some (fun i => bits (arrays i), some value)) : op.Refines arrays := by
  rw [Op.Refines, performed, listed, Option.map_some]

theorem refines_of_failure (performed : op.perform arrays = none)
    (listed : op.onLists (fun i => bits (arrays i)) = none) : op.Refines arrays := by
  rw [Op.Refines, performed, listed, Option.map_none]

variable (clear : ∀ i, Clear (arrays i))
include clear

theorem setLength_refines_iff (a : Nat) (nlen : Chunk) (fresh : Nat → Chunk) :
    (Op.setLength a nlen fresh).Refines arrays ↔ nlen.toNat ≤ 2 ^ 64 - 64 := by
  by_cases small : nlen.toNat ≤ 2 ^ 64 - 64
  · obtain ⟨after, made, holds⟩ := setLength_holds (clear a) small fresh
    refine iff_of_true (refines_of_change ?_ (setLength_bits (clear a) holds) rfl) small
    rw [Op.perform, made]
    rfl
  · refine iff_of_false (fun refines => ?_) small
    rw [Op.Refines, Op.perform, setLength_wrapped (clear a) (Nat.lt_of_not_le small)] at refines
    exact Option.some_ne_none _ refines.symm

theorem assign_refines (a b : Nat) (fresh : Nat → Chunk) :
    (Op.assign a b fresh).Refines arrays := by
  by_cases admitted : (arrays a).len = 0 ∨ (arrays a).len = (arrays b).len
  · obtain ⟨after, made, holds⟩ := opAssign_holds (clear a) (clear b) admitted fresh
    have performed : (Op.assign a b fresh).perform arrays =
        some (Function.update arrays a after, none) := by
      rw [Op.perform, made]
      rfl
    refine refines_of_change performed (holds.bits_eq_bits (clear b) rfl) ?_
    rw [← bits_eq_nil_iff, ← length_bits_eq_iff] at admitted
    exact if_pos admitted
  · refine refines_of_failure ?_ ?_
    · rw [Op.perform, opAssign, if_neg (not_or.mp admitted).1]
      show Option.map _ (if _ then _ else none) = none
      rw [if_neg (not_or.mp admitted).2]
      rfl
    · rw [← bits_eq_nil_iff, ← length_bits_eq_iff] at admitted
      exact if_neg admitted

theorem index_refines (a : Nat) (idx : Chunk) : (Op.index a idx).Refines arrays := by
  by_cases inside : idx < (arrays a).len
  · have below : idx.toNat < (bits (arrays a)).length := by
      rw [length_bits]
      exact inside
    have read : (bits (arrays a))[idx.toNat]? = some (bt (arrays a).ptr idx.toNat) := by
      rw [List.getElem?_eq_getElem below, ← List.getD_eq_getElem _ false below,
        getD_bits (clear a)]
      rfl
    have performed : (Op.index a idx).perform arrays =
        some (arrays, some (bt (arrays a).ptr idx.toNat)) := by
      rw [Op.perform, opIndex, if_pos inside]
      rfl
    refine refines_of_answer performed ?_
    rw [Op.onLists, read]
    rfl
  · refine refines_of_failure ?_ ?_
    · rw [Op.perform, opIndex, if_neg inside]
      rfl
    · have beyond : (bits (arrays a))[idx.toNat]? = none :=
        List.getElem?_eq_none (by rw [length_bits]; exact Nat.le_of_not_lt inside)
      rw [Op.onLists, beyond]
      rfl

/-- Writing a bit refines unless false is written to a false bit. -/
theorem indexAssign_refines_iff (a : Nat) (val : Bool) (idx : Chunk) :
    (Op.indexAssign a val idx).Refines arrays ↔
      (val = false → idx < (arrays a).len → bt (arrays a).ptr idx.toNat = true) := by
  by_cases inside : idx < (arrays a).len
  · have below : idx.toNat < (bits (arrays a)).length := by
      rw [length_bits]
      exact inside
    obtain ⟨after, made, holds⟩ := opIndexAssign_holds (clear a) inside val
    have performed : (Op.indexAssign a val idx).perform arrays =
        some (Function.update arrays a after, none) := by
      rw [Op.perform, made]
      rfl
    have listed : (Op.indexAssign a val idx).onLists (fun i => bits (arrays i)) =
        some (Function.update (fun i => bits (arrays i)) a
          ((bits (arrays a)).set idx.toNat val), none) := if_pos below
    rw [refines_change_iff performed listed]
    have written := getD_set_bool (bits (arrays a)) idx.toNat idx.toNat val below
    rw [if_pos rfl] at written
    constructor
    · rintro same rfl -
      rw [← same, getD_bits holds.clear, holds.bit_eq, if_pos rfl, Bool.false_or] at written
      rw [Bool.not_eq_false'] at written
      exact written
    · intro condition
      refine holds.bits_eq (by rw [List.length_set, length_bits]) fun index => ?_
      rw [getD_set_bool _ _ _ _ below, getD_bits (clear a)]
      by_cases same : index = idx.toNat
      · rw [if_pos same, if_pos same]
        cases val with
        | true => rfl
        | false =>
          have set : bitAt (arrays a).ptr idx.toNat = true := condition rfl inside
          rw [set]
          rfl
      · rw [if_neg same, if_neg same]
  · refine iff_of_true (refines_of_failure ?_ ?_) fun _ below => absurd below inside
    · rw [Op.perform, opIndexAssign, if_neg inside]
      rfl
    · exact if_neg (by rw [length_bits]; exact inside)

theorem equals_refines (a b : Nat) : (Op.equals a b).Refines arrays :=
  refines_of_answer rfl (by rw [opEquals_eq (clear a) (clear b)]; rfl)

theorem isZero_refines (a : Nat) : (Op.isZero a).Refines arrays :=
  refines_of_answer rfl (by rw [isZero_eq (clear a)]; rfl)

theorem zero_refines (a : Nat) : (Op.zero a).Refines arrays := by
  refine refines_of_change rfl ((zero_holds (clear a)).bits_eq ?_ fun index => ?_) rfl
  · rw [List.length_replicate, length_bits]
  · rw [List.getD_eq_getElem?_getD, List.getElem?_replicate]
    split <;> rfl

theorem or_refines (a b : Nat) : (Op.or a b).Refines arrays := by
  by_cases same : (arrays a).len = (arrays b).len
  · obtain ⟨after, made, holds⟩ := or_holds (clear a) (clear b) same
    have lengths := (length_bits_eq_iff _ _).mpr same
    refine refines_of_change (by rw [Op.perform, made]; rfl) (holds.bits_eq ?_ fun index => ?_)
      (if_pos lengths)
    · rw [List.length_zipWith, ← lengths, Nat.min_self, length_bits]
    · rw [getD_zipWith_or lengths, getD_bits (clear a), getD_bits (clear b)]
  · refine refines_of_failure ?_ (if_neg (mt (length_bits_eq_iff _ _).mp same))
    rw [Op.perform, BitArray.or, if_neg same]
    rfl

theorem swap_refines (a b : Nat) : (Op.swap a b).Refines arrays := by
  by_cases same : (arrays a).len = (arrays b).len
  · obtain ⟨after, made, first, second⟩ := swap_holds (clear a) (clear b) same
    rw [Op.Refines, Op.perform, made, Option.map_some, Option.map_some, bits_update, bits_update,
      first.bits_eq_bits (clear b) same.symm, second.bits_eq_bits (clear a) rfl]
    exact (if_pos ((length_bits_eq_iff _ _).mpr same)).symm
  · refine refines_of_failure ?_ (if_neg (mt (length_bits_eq_iff _ _).mp same))
    rw [Op.perform, BitArray.swap, if_neg same]
    rfl

/-- An operation refines the one on lists exactly under its condition. -/
theorem refines_iff_condition (op : Op) : op.Refines arrays ↔ op.Condition arrays := by
  cases op with
  | setLength a nlen fresh => exact setLength_refines_iff clear a nlen fresh
  | assign a b fresh => exact iff_of_true (assign_refines clear a b fresh) trivial
  | index a idx => exact iff_of_true (index_refines clear a idx) trivial
  | indexAssign a val idx => exact indexAssign_refines_iff clear a val idx
  | equals a b => exact iff_of_true (equals_refines clear a b) trivial
  | zero a => exact iff_of_true (zero_refines clear a) trivial
  | isZero a => exact iff_of_true (isZero_refines clear a) trivial
  | or a b => exact iff_of_true (or_refines clear a b) trivial
  | swap a b => exact iff_of_true (swap_refines clear a b) trivial

end

/-! ### Runs -/

theorem clear_update {arrays : Arrays} (clear : ∀ i, Clear (arrays i)) (a : Nat)
    {after : BitArray} (clearAfter : Clear after) (i : Nat) :
    Clear (Function.update arrays a after i) := by
  by_cases same : i = a
  · rw [same, Function.update_self]
    exact clearAfter
  · rw [Function.update_of_ne same]
    exact clear i

/-- Every operation keeps the storage bits beyond the length zero. -/
theorem Op.perform_clear {op : Op} {arrays : Arrays} (clear : ∀ i, Clear (arrays i))
    {result : Arrays × Option Bool} (performed : op.perform arrays = some result) (i : Nat) :
    Clear (result.1 i) := by
  have changed : ∀ a (made : Option BitArray), (∀ after, made = some after → Clear after) →
      (made.map fun after => (Function.update arrays a after, (none : Option Bool))) =
        some result → Clear (result.1 i) := by
    intro a made kept equal
    obtain ⟨after, produced, rfl⟩ := Option.map_eq_some_iff.mp equal
    exact clear_update clear a (kept after produced) i
  cases op with
  | setLength a nlen fresh =>
    refine changed a _ (fun after produced => ?_) performed
    by_cases small : nlen.toNat ≤ 2 ^ 64 - 64
    · obtain ⟨expected, made, holds⟩ := setLength_holds (clear a) small fresh
      rw [made] at produced
      exact Option.some.inj produced ▸ holds.clear
    · rw [setLength_wrapped (clear a) (Nat.lt_of_not_le small)] at produced
      cases produced
  | assign a b fresh =>
    refine changed a _ (fun after produced => ?_) performed
    by_cases admitted : (arrays a).len = 0 ∨ (arrays a).len = (arrays b).len
    · obtain ⟨expected, made, holds⟩ := opAssign_holds (clear a) (clear b) admitted fresh
      rw [made] at produced
      exact Option.some.inj produced ▸ holds.clear
    · rw [opAssign, if_neg (not_or.mp admitted).1] at produced
      exact absurd produced (by
        show (if _ then _ else none) ≠ _
        rw [if_neg (not_or.mp admitted).2]
        exact Option.some_ne_none _ ∘ Eq.symm)
  | index a idx =>
    obtain ⟨_, -, equal⟩ := Option.bind_eq_some_iff.mp performed
    rw [← Option.some.inj equal]
    exact clear i
  | indexAssign a val idx =>
    refine changed a _ (fun after produced => ?_) performed
    by_cases inside : idx < (arrays a).len
    · obtain ⟨expected, made, holds⟩ := opIndexAssign_holds (clear a) inside val
      rw [made] at produced
      exact Option.some.inj produced ▸ holds.clear
    · rw [opIndexAssign, if_neg inside] at produced
      cases produced
  | equals a b =>
    rw [← Option.some.inj performed]
    exact clear i
  | zero a =>
    refine changed a (some (arrays a).zero) (fun after produced => ?_) performed
    exact Option.some.inj produced ▸ (zero_holds (clear a)).clear
  | isZero a =>
    rw [← Option.some.inj performed]
    exact clear i
  | or a b =>
    refine changed a _ (fun after produced => ?_) performed
    by_cases same : (arrays a).len = (arrays b).len
    · obtain ⟨expected, made, holds⟩ := or_holds (clear a) (clear b) same
      rw [made] at produced
      exact Option.some.inj produced ▸ holds.clear
    · rw [BitArray.or, if_neg same] at produced
      cases produced
  | swap a b =>
    obtain ⟨after, produced, rfl⟩ := Option.map_eq_some_iff.mp performed
    by_cases same : (arrays a).len = (arrays b).len
    · obtain ⟨expected, made, first, second⟩ := swap_holds (clear a) (clear b) same
      rw [made] at produced
      obtain rfl := Option.some.inj produced
      exact clear_update (clear_update clear a first.clear) b second.clear i
    · rw [BitArray.swap, if_neg same] at produced
      cases produced

/-- A run of operations, with the answers. -/
def run : List Op → Arrays → Option (Arrays × List (Option Bool))
  | [], arrays => some (arrays, [])
  | op :: rest, arrays => do
      let (arrays, answer) ← op.perform arrays
      let (arrays, answers) ← run rest arrays
      return (arrays, answer :: answers)

/-- The run on lists. -/
def runOnLists : List Op → Lists → Option (Lists × List (Option Bool))
  | [], lists => some (lists, [])
  | op :: rest, lists => do
      let (lists, answer) ← op.onLists lists
      let (lists, answers) ← runOnLists rest lists
      return (lists, answer :: answers)

/-- The run on arrays ends as the run on the lists they stand for. -/
def RunRefines (ops : List Op) (arrays : Arrays) : Prop :=
  (run ops arrays).map (fun result => (fun i => bits (result.1 i), result.2)) =
    runOnLists ops fun i => bits (arrays i)

/-- Every operation of the run meets its condition in the state before it. -/
def RunCondition : List Op → Arrays → Prop
  | [], _ => True
  | op :: rest, arrays => op.Condition arrays ∧
      ∀ result, op.perform arrays = some result → RunCondition rest result.1

theorem runRefines_cons_iff {op : Op} {rest : List Op} {arrays : Arrays}
    (refines : op.Refines arrays) :
    RunRefines (op :: rest) arrays ↔
      ∀ result, op.perform arrays = some result → RunRefines rest result.1 := by
  rw [Op.Refines] at refines
  rw [RunRefines, run, runOnLists, ← refines]
  cases performed : op.perform arrays with
  | none => simp
  | some result =>
    obtain ⟨after, answer⟩ := result
    simp only [Option.bind_eq_bind, Option.bind_some, Option.map_some, Option.some.injEq,
      forall_eq', RunRefines]
    cases run rest after with
    | none => cases runOnLists rest fun i => bits (after i) <;> simp
    | some reached =>
      cases runOnLists rest fun i => bits (after i) with
      | none => simp
      | some expected => simp [Prod.ext_iff]

theorem run_clear {ops : List Op} {arrays : Arrays} (clear : ∀ i, Clear (arrays i))
    {result : Arrays × List (Option Bool)} (ran : run ops arrays = some result) (i : Nat) :
    Clear (result.1 i) := by
  induction ops generalizing arrays result with
  | nil =>
    obtain rfl := Option.some.inj ran
    exact clear i
  | cons op rest inductionHypothesis =>
    obtain ⟨⟨middle, answer⟩, performed, remainder⟩ := Option.bind_eq_some_iff.mp ran
    obtain ⟨⟨last, answers⟩, reached, equal⟩ := Option.bind_eq_some_iff.mp remainder
    obtain rfl := Option.some.inj equal
    have kept := inductionHypothesis (Op.perform_clear clear performed) reached
    exact kept

theorem runs_refine_iff_of_clear (ops : List Op) {arrays : Arrays}
    (clear : ∀ i, Clear (arrays i)) :
    (∀ part, part <+: ops → RunRefines part arrays) ↔ RunCondition ops arrays := by
  induction ops generalizing arrays with
  | nil =>
    refine iff_of_true (fun part before => ?_) trivial
    rw [List.prefix_nil.mp before]
    rfl
  | cons op rest inductionHypothesis =>
    have first : RunRefines [op] arrays ↔ op.Refines arrays := by
      simp only [RunRefines, run, runOnLists, Op.Refines]
      cases op.perform arrays <;> cases op.onLists (fun i => bits (arrays i)) <;>
        simp [Prod.ext_iff]
    rw [RunCondition, ← refines_iff_condition clear op]
    constructor
    · intro agrees
      have refines := first.mp (agrees [op] ⟨rest, rfl⟩)
      refine ⟨refines, fun result performed => ?_⟩
      refine (inductionHypothesis (Op.perform_clear clear performed)).mp fun part before => ?_
      refine (runRefines_cons_iff refines).mp (agrees (op :: part) ?_) result performed
      exact List.prefix_cons_inj op |>.mpr before
    · rintro ⟨refines, conditions⟩ part before
      cases part with
      | nil => rfl
      | cons head part =>
        obtain ⟨rfl, within⟩ := List.cons_prefix_cons.mp before
        refine (runRefines_cons_iff refines).mpr fun result performed => ?_
        exact (inductionHypothesis (Op.perform_clear clear performed)).mpr
          (conditions result performed) part within

/-- The arrays of a program that has not used them yet. -/
def emptyArrays : Arrays := fun _ => {}

/-- In every run the storage bits beyond the lengths are zero, and the run does step by step
what it does on lists of booleans exactly when no step writes false to a false bit or makes
an array longer than `2 ^ 64 - 64`. -/
theorem run_refines_iff (ops : List Op) :
    (∀ part result, part <+: ops → run part emptyArrays = some result →
      ∀ i, Clear (result.1 i)) ∧
    ((∀ part, part <+: ops → RunRefines part emptyArrays) ↔ RunCondition ops emptyArrays) :=
  ⟨fun _ _ _ ran => run_clear (fun _ => clear_empty) ran,
    runs_refine_iff_of_clear ops fun _ => clear_empty⟩

/-- A run that sets a bit, clears it and reads it. -/
theorem run_refines_iff_set_clear :
    RunRefines [Op.setLength 0 20 fun _ => 0, Op.indexAssign 0 true 10,
      Op.indexAssign 0 false 10, Op.index 0 10] emptyArrays := by
  refine (run_refines_iff _).2.mpr ?_ _ (List.prefix_refl _)
  refine ⟨show (20#64).toNat ≤ 2 ^ 64 - 64 by decide, fun first made => ?_⟩
  obtain rfl := Option.some.inj made
  refine ⟨fun equal => absurd equal (by decide), fun second made => ?_⟩
  obtain rfl := Option.some.inj made
  refine ⟨fun _ _ => by decide, fun third made => ?_⟩
  obtain rfl := Option.some.inj made
  exact ⟨trivial, fun _ _ => trivial⟩

/-- False written to a fresh array of twenty bits reads as true. -/
theorem indexAssign_false_sets :
    ¬ ∀ ops part, part <+: ops → RunRefines part emptyArrays := by
  intro agrees
  have refines := agrees _ _ (List.prefix_refl
    [Op.setLength 0 20 fun _ => 0, Op.indexAssign 0 false 10, Op.index 0 10])
  have answers := congrArg (Option.map Prod.snd) refines
  revert answers
  decide

end BitArray
end LaserD.Root
