/-
This file is about the memory of string tables: which entries lie in it, and what storing
a new entry or a new value does to them.

`cell` gives the entries by pointer, with string and value. They lie apart from each
other, and those of the pool that is filled lie before the fill mark, so that a new entry
overwrites none.
-/

import LaserD.Root.StringTable

namespace LaserD.Root.StringTable

open Overwrite

variable {T : Type} {sizes : Sizes}

/-! ### Cells -/

theorem peek_eq (blocks : Blocks T) (p : Pointer) {block : List (Cell T)}
    (found : blocks[p.block]? = some block) : peek blocks p = block[p.offset]? := by
  rw [peek, found]
  rfl

/-- The blocks keep their number and their lengths. -/
def SameShape (blocks after : Blocks T) : Prop :=
  after.length = blocks.length ∧
    ∀ (b : Nat) (block : List (Cell T)), blocks[b]? = some block →
      ∃ block' : List (Cell T), after[b]? = some block' ∧ block'.length = block.length

theorem SameShape.trans {first second third : Blocks T} (before : SameShape first second)
    (after : SameShape second third) : SameShape first third := by
  refine ⟨after.1.trans before.1, fun b block found => ?_⟩
  obtain ⟨block', found', length⟩ := before.2 b block found
  obtain ⟨block'', found'', length'⟩ := after.2 b block' found'
  exact ⟨block'', found'', length'.trans length⟩

/-- What storing cells does. -/
theorem poke_spec {blocks : Blocks T} {block : List (Cell T)} (p : Pointer)
    (cells : List (Cell T)) (found : blocks[p.block]? = some block) (fits : p.offset + cells.length ≤ block.length) :
    ∃ after, poke blocks p cells = some after ∧ SameShape blocks after ∧
      (∀ k < cells.length, peek after (p.advance k) = cells[k]?) ∧
      ∀ q, (q.block = p.block → p.offset ≤ q.offset → p.offset + cells.length ≤ q.offset) →
        peek after q = peek blocks q := by
  have bound : p.block < blocks.length := (List.getElem?_eq_some_iff.mp found).1
  have stored : (blocks.set p.block (overwrite block p.offset cells))[p.block]? =
      some (overwrite block p.offset cells) := List.getElem?_set_self bound
  refine ⟨blocks.set p.block (overwrite block p.offset cells), ?_, ⟨by simp, ?_⟩,
    fun k inside => ?_, fun q outside => ?_⟩
  · rw [poke, found, Option.bind_eq_bind, Option.bind_some, if_pos fits]
  · intro b other foundOther
    by_cases same : b = p.block
    · subst same
      refine ⟨_, stored, ?_⟩
      rw [length_overwrite fits, ← Option.some.inj (found.symm.trans foundOther)]
    · exact ⟨other, by rw [List.getElem?_set_ne (Ne.symm same), foundOther], rfl⟩
  · rw [peek_eq _ (p.advance k) stored, getElem?_overwrite fits]
    refine (if_pos ⟨Nat.le_add_right _ _, Nat.add_lt_add_left inside _⟩).trans ?_
    exact congrArg (fun index => cells[index]?) (Nat.add_sub_cancel_left ..)
  · by_cases same : q.block = p.block
    · have apart := outside same
      rw [peek_eq _ q (by rw [same]; exact stored), getElem?_overwrite fits, if_neg (by omega),
        peek_eq _ q (by rw [same]; exact found)]
    · rw [peek, peek, List.getElem?_set_ne (Ne.symm same)]

/-! ### Entries -/

/-- The bytes an entry takes. -/
def extent (sizes : Sizes) (str : Str) : Nat :=
  sizes.structSize + str.length + 1

/-- The entry at a place has the given string and value. -/
structure Holds (sizes : Sizes) (blocks : Blocks T) (p : Pointer) (str : Str) (v : T) : Prop where
  value : peek blocks p = some (.value v)
  length : peek blocks (p.advance sizes.lengthOffset) = some (.length str.length)
  chars : ∀ k (inside : k < str.length),
    peek blocks (p.advance (sizes.structSize + k)) = some (.char str[k])

section

variable {blocks : Blocks T} {p : Pointer} {str : Str} {v : T}

theorem Holds.readValue_eq (holds : Holds sizes blocks p str v) : readValue blocks p = some v := by
  rw [readValue, holds.value]

theorem Holds.readLength_eq (holds : Holds sizes blocks p str v) :
    readLength sizes blocks p = some str.length := by
  rw [readLength, holds.length]

theorem mapM_range_eq {A : Type} (list : List A) (f : Nat → Option A)
    (reads : ∀ k (inside : k < list.length), f k = some list[k]) :
    (List.range list.length).mapM f = some list := by
  induction list using List.reverseRecOn with
  | nil => rfl
  | append_singleton list last inductionHypothesis =>
    have before : (List.range list.length).mapM f = some list := by
      refine inductionHypothesis fun k inside => ?_
      rw [reads k (by simp; omega), List.getElem_append_left inside]
    have end_ : f list.length = some last := by
      rw [reads list.length (by simp)]
      simp
    rw [List.length_append, List.length_singleton, List.range_succ, List.mapM_append, before]
    simp [end_]

theorem Holds.readChars_eq (holds : Holds sizes blocks p str v) :
    readChars sizes blocks p str.length = some str := by
  refine mapM_range_eq str _ fun k inside => ?_
  rw [holds.chars k inside]

theorem Holds.svToString_eq (holds : Holds sizes blocks p str v) :
    svToString sizes blocks p = some str := by
  rw [svToString, holds.readLength_eq, Option.bind_eq_bind, Option.bind_some, holds.readChars_eq]

/-- An entry stays when the cells it takes do. -/
theorem Holds.of_same {after : Blocks T} (holds : Holds sizes blocks p str v)
    (same : ∀ q, q.block = p.block → p.offset ≤ q.offset →
      q.offset < p.offset + extent sizes str → peek after q = peek blocks q) :
    Holds sizes after p str v := by
  have lengthFits := sizes.length_fits
  refine ⟨?_, ?_, fun k inside => ?_⟩
  · rw [same p rfl le_rfl (by rw [extent]; omega), holds.value]
  · rw [same (p.advance sizes.lengthOffset) rfl (Nat.le_add_right _ _)
      (by simp only [Pointer.advance, extent]; omega), holds.length]
  · rw [same (p.advance (sizes.structSize + k)) rfl (Nat.le_add_right _ _)
      (by simp only [Pointer.advance, extent]; omega), holds.chars k inside]

end

theorem length_valueCells (sizes : Sizes) (v : T) :
    (valueCells sizes v).length = sizes.valueSize := by
  have positive := sizes.value_positive
  rw [valueCells, List.length_cons, List.length_replicate]
  omega

theorem length_lengthCells (n : Nat) : (lengthCells n : List (Cell T)).length = 8 := rfl

/-- A new entry is stored in four parts. -/
theorem store_entry {blocks : Blocks T} {p : Pointer} {block : List (Cell T)}
    (found : blocks[p.block]? = some block) (str : Str) (v : T)
    (fits : p.offset + extent sizes str ≤ block.length) :
    ∃ first second third after,
      poke blocks p (valueCells sizes v) = some first ∧
      poke first (p.advance sizes.lengthOffset) (lengthCells str.length) = some second ∧
      poke second (p.advance sizes.structSize) (str.map .char) = some third ∧
      poke third (p.advance (sizes.structSize + str.length)) [.char 0] = some after ∧
      SameShape blocks after ∧ Holds sizes after p str v ∧
      ∀ q, (q.block = p.block → p.offset ≤ q.offset → p.offset + extent sizes str ≤ q.offset) →
        peek after q = peek blocks q := by
  have valueFits := sizes.value_fits
  have positive := sizes.value_positive
  have lengthFits := sizes.length_fits
  rw [extent] at fits
  obtain ⟨first, poked1, shape1, written1, kept1⟩ := poke_spec p (valueCells sizes v) found
    (by rw [length_valueCells]; omega)
  obtain ⟨block1, found1, length1⟩ := shape1.2 _ _ found
  obtain ⟨second, poked2, shape2, written2, kept2⟩ := poke_spec (p.advance sizes.lengthOffset)
    (lengthCells str.length) found1
    (by rw [length_lengthCells, length1]; simp only [Pointer.advance]; omega)
  obtain ⟨block2, found2, length2⟩ := shape2.2 _ _ found1
  obtain ⟨third, poked3, shape3, written3, kept3⟩ := poke_spec (p.advance sizes.structSize)
    (str.map .char) found2
    (by rw [List.length_map, length2, length1]; simp only [Pointer.advance]; omega)
  obtain ⟨block3, found3, length3⟩ := shape3.2 _ _ found2
  obtain ⟨after, poked4, shape4, written4, kept4⟩ := poke_spec
    (p.advance (sizes.structSize + str.length)) [.char 0] found3
    (by rw [List.length_singleton, length3, length2, length1]; simp only [Pointer.advance]; omega)
  refine ⟨first, second, third, after, poked1, poked2, poked3, poked4,
    ((shape1.trans shape2).trans shape3).trans shape4, ⟨?_, ?_, fun k inside => ?_⟩,
    fun q outside => ?_⟩
  · rw [kept4 p (by dsimp only [Pointer.advance]; omega),
      kept3 p (by dsimp only [Pointer.advance]; omega),
      kept2 p (by dsimp only [Pointer.advance]; omega)]
    exact written1 0 (by rw [length_valueCells]; exact positive)
  · rw [kept4 _ (by dsimp only [Pointer.advance]; omega),
      kept3 _ (by dsimp only [Pointer.advance]; omega)]
    exact written2 0 (by rw [length_lengthCells]; decide)
  · have read := written3 k (by rw [List.length_map]; exact inside)
    rw [List.getElem?_map, List.getElem?_eq_getElem inside, Option.map_some] at read
    rw [kept4 _ (by dsimp only [Pointer.advance]; omega), ← read]
    dsimp only [Pointer.advance]
    rw [Nat.add_assoc]
  · rw [extent] at outside
    rw [kept4 q (by
        rw [List.length_singleton]
        dsimp only [Pointer.advance]
        intro same low
        have := outside same
        omega),
      kept3 q (by
        rw [List.length_map]
        dsimp only [Pointer.advance]
        intro same low
        have := outside same
        omega),
      kept2 q (by
        rw [length_lengthCells]
        dsimp only [Pointer.advance]
        intro same low
        have := outside same
        omega),
      kept1 q (by
        rw [length_valueCells]
        intro same low
        have := outside same
        omega)]

/-! ### The entries of a program -/

/-- The entries made so far: they lie in the blocks, apart from each other. -/
structure Apart (sizes : Sizes) (blocks : Blocks T) (cell : Pointer → Option (Str × T)) :
    Prop where
  inside : ∀ {p s v}, cell p = some (s, v) → p.block < blocks.length
  holds : ∀ {p s v}, cell p = some (s, v) → Holds sizes blocks p s v
  disjoint : ∀ {p q s t v w}, cell p = some (s, v) → cell q = some (t, w) → p ≠ q →
    p.block = q.block →
    p.offset + extent sizes s ≤ q.offset ∨ q.offset + extent sizes t ≤ p.offset

/-- The pools of a table: different blocks with room, of which the last is filled up to the
mark. -/
structure Filled (sizes : Sizes) (blocks : Blocks T) (cell : Pointer → Option (Str × T))
    (pools : List Nat) (nfill : Nat) : Prop where
  room : ∀ b ∈ pools, ∃ block : List (Cell T), blocks[b]? = some block ∧ poolSize ≤ block.length
  nodup : pools.Nodup
  mark : ∀ {b p s v}, pools.getLast? = some b → cell p = some (s, v) → p.block = b →
    p.offset + extent sizes s ≤ nfill

section

variable {blocks : Blocks T} {cell : Pointer → Option (Str × T)} {pools : List Nat} {nfill : Nat}

/-- Entries stay when the cells of each do. -/
theorem Apart.of_same (apart : Apart sizes blocks cell) {after : Blocks T}
    (length : blocks.length ≤ after.length)
    (same : ∀ {p s v}, cell p = some (s, v) → ∀ q, q.block = p.block → p.offset ≤ q.offset →
      q.offset < p.offset + extent sizes s → peek after q = peek blocks q) :
    Apart sizes after cell where
  inside entry := (apart.inside entry).trans_le length
  holds entry := (apart.holds entry).of_same (same entry)
  disjoint := apart.disjoint

theorem SameShape.filled {after : Blocks T} (shape : SameShape blocks after)
    (filled : Filled sizes blocks cell pools nfill) : Filled sizes after cell pools nfill where
  room b member := by
    obtain ⟨block, found, room⟩ := filled.room b member
    obtain ⟨block', found', length⟩ := shape.2 b block found
    exact ⟨block', found', by rw [length]; exact room⟩
  nodup := filled.nodup
  mark := filled.mark

/-- A new block changes no cell. -/
theorem peek_append (blocks : Blocks T) (block : List (Cell T)) {q : Pointer}
    (inside : q.block < blocks.length) : peek (blocks ++ [block]) q = peek blocks q := by
  rw [peek, peek, List.getElem?_append_left inside]

theorem update_entry_cases {p q : Pointer} {str s : Str} {v w : T}
    (entry : Function.update cell p (some (str, v)) q = some (s, w)) :
    (q = p ∧ s = str ∧ w = v) ∨ (q ≠ p ∧ cell q = some (s, w)) := by
  by_cases same : q = p
  · rw [same, Function.update_self, Option.some.injEq, Prod.mk.injEq] at entry
    exact Or.inl ⟨same, entry.1.symm, entry.2.symm⟩
  · rw [Function.update_of_ne same] at entry
    exact Or.inr ⟨same, entry⟩

/-- An entry added where no entry lies. -/
theorem Apart.add (apart : Apart sizes blocks cell) {p : Pointer} {str : Str} {v : T}
    (inside : p.block < blocks.length) (holds : Holds sizes blocks p str v)
    (away : ∀ {q s w}, cell q = some (s, w) → q.block = p.block →
      q.offset + extent sizes s ≤ p.offset) :
    Apart sizes blocks (Function.update cell p (some (str, v))) := by
  refine ⟨fun {q s w} entry => ?_, fun {q s w} entry => ?_, fun {q q' s t w w'} entry entry' => ?_⟩
  · rcases update_entry_cases entry with ⟨rfl, -, -⟩ | ⟨-, old⟩
    · exact inside
    · exact apart.inside old
  · rcases update_entry_cases entry with ⟨rfl, rfl, rfl⟩ | ⟨-, old⟩
    · exact holds
    · exact apart.holds old
  · intro different sameBlock
    rcases update_entry_cases entry with ⟨rfl, rfl, rfl⟩ | ⟨-, old⟩
    · rcases update_entry_cases entry' with ⟨rfl, -, -⟩ | ⟨-, old'⟩
      · exact absurd rfl different
      · exact Or.inr (away old' sameBlock.symm)
    · rcases update_entry_cases entry' with ⟨rfl, rfl, rfl⟩ | ⟨-, old'⟩
      · exact Or.inl (away old sameBlock)
      · exact apart.disjoint old old' different sameBlock

/-- A value stored through the pointer of an entry changes that entry only. -/
theorem writeValue_spec (apart : Apart sizes blocks cell)
    (filled : Filled sizes blocks cell pools nfill) {p : Pointer} {str : Str} {old : T}
    (entry : cell p = some (str, old)) (v : T) :
    ∃ after, writeValue sizes blocks p v = some after ∧
      Apart sizes after (Function.update cell p (some (str, v))) ∧
      Filled sizes after (Function.update cell p (some (str, v))) pools nfill := by
  have valueFits := sizes.value_fits
  have positive := sizes.value_positive
  have lengthFits := sizes.length_fits
  have holds := apart.holds entry
  obtain ⟨block, found⟩ : ∃ block, blocks[p.block]? = some block :=
    ⟨_, List.getElem?_eq_getElem (apart.inside entry)⟩
  have long : p.offset + sizes.lengthOffset < block.length := by
    have read := holds.length
    rw [peek_eq _ (p.advance _) found] at read
    exact (List.getElem?_eq_some_iff.mp read).1
  obtain ⟨after, poked, shape, written, kept⟩ := poke_spec p (valueCells sizes v) found
    (by rw [length_valueCells]; omega)
  rw [length_valueCells] at kept written
  have value : peek after p = some (.value v) := written 0 positive
  have old_entry : ∀ {q s w}, Function.update cell p (some (str, v)) q = some (s, w) →
      ∃ w', cell q = some (s, w') := by
    intro q s w here
    rcases update_entry_cases here with ⟨rfl, rfl, -⟩ | ⟨-, here⟩
    · exact ⟨old, entry⟩
    · exact ⟨w, here⟩
  refine ⟨after, poked, ⟨fun {q s w} here => ?_, fun {q s w} here => ?_, ?_⟩, ?_⟩
  · obtain ⟨w', here'⟩ := old_entry here
    rw [shape.1]
    exact apart.inside here'
  · rcases update_entry_cases here with ⟨rfl, rfl, rfl⟩ | ⟨different, here⟩
    · refine ⟨value, ?_, fun k bound => ?_⟩
      · rw [kept _ (by dsimp only [Pointer.advance]; omega), holds.length]
      · rw [kept _ (by dsimp only [Pointer.advance]; omega), holds.chars k bound]
    · refine (apart.holds here).of_same fun place sameBlock low high => kept place ?_
      intro sameBlock' low'
      have away := apart.disjoint here entry different (sameBlock.symm.trans sameBlock')
      rw [extent] at away
      rw [extent] at high
      rw [extent] at away
      omega
  · intro q q' s t w w' here here' different sameBlock
    obtain ⟨w₁, here₁⟩ := old_entry here
    obtain ⟨w₂, here₂⟩ := old_entry here'
    exact apart.disjoint here₁ here₂ different sameBlock
  · refine ⟨(shape.filled filled).room, filled.nodup, fun {b q s w} last here same => ?_⟩
    obtain ⟨w', here'⟩ := old_entry here
    exact filled.mark last here' same

end

/-! ### New entries -/

/-- How much of the pools is used, in bytes of handles. -/
def fill (t : Table T) : Nat :=
  t.pools.length * poolSize + min t.nfill poolSize

/-- The pool in which a new entry goes: it has room behind the entries it holds. -/
theorem choosePool_spec {t : Table T} {cell : Pointer → Option (Str × T)}
    (apart : Apart sizes t.blocks cell) (filled : Filled sizes t.blocks cell t.pools t.nfill)
    (nbytes : Nat) (positive : 0 < nbytes) :
    ∃ pool block, (choosePool t nbytes).pools.getLast? = some pool ∧
      (choosePool t nbytes).blocks[pool]? = some block ∧
      (choosePool t nbytes).nfill + nbytes ≤ block.length ∧
      (choosePool t nbytes).nfill < poolSize ∧
      t.pools <+: (choosePool t nbytes).pools ∧
      t.blocks.length ≤ (choosePool t nbytes).blocks.length ∧
      fill t ≤ fill (choosePool t nbytes) ∧
      ((choosePool t nbytes).nfill = 0 ∨ (choosePool t nbytes).nfill + nbytes ≤ poolSize) ∧
      Apart sizes (choosePool t nbytes).blocks cell ∧
      Filled sizes (choosePool t nbytes).blocks cell (choosePool t nbytes).pools
        (choosePool t nbytes).nfill := by
  by_cases full : t.pools.length = 0 ∨ poolSize < t.nfill + nbytes
  · rw [choosePool, if_pos full]
    refine ⟨t.blocks.length, _, List.getLast?_concat, List.getElem?_concat_length, ?_,
      show 0 < poolSize by decide, List.prefix_append _ _, ?_, ?_, Or.inl rfl, ?_, ?_⟩
    · rw [List.length_replicate]
      dsimp only
      split <;> omega
    · simp
    · simp only [fill, List.length_append, List.length_singleton, Nat.add_mul]
      omega
    · refine apart.of_same (by simp) fun {p s v} entry q sameBlock _ _ => peek_append _ _ ?_
      rw [sameBlock]
      exact apart.inside entry
    · refine ⟨fun b member => ?_, ?_, fun {b p s v} last entry same => ?_⟩
      · rcases List.mem_append.mp member with old | new
        · obtain ⟨block, found, room⟩ := filled.room b old
          refine ⟨block, ?_, room⟩
          rw [List.getElem?_append_left (List.getElem?_eq_some_iff.mp found).1, found]
        · rw [List.mem_singleton.mp new]
          refine ⟨_, List.getElem?_concat_length, ?_⟩
          rw [List.length_replicate]
          split <;> omega
      · refine List.nodup_append.mpr ⟨filled.nodup, List.pairwise_singleton _ _, ?_⟩
        rintro b old _ new rfl
        obtain ⟨block, found, -⟩ := filled.room b old
        have bound := (List.getElem?_eq_some_iff.mp found).1
        rw [List.mem_singleton.mp new] at bound
        exact lt_irrefl _ bound
      · rw [List.getLast?_concat, Option.some.injEq] at last
        have bound := apart.inside entry
        omega
  · rw [choosePool, if_neg full]
    have nonempty : t.pools ≠ [] := fun empty => full (Or.inl (by rw [empty]; rfl))
    have last := List.getLast?_eq_some_getLast nonempty
    obtain ⟨block, found, room⟩ := filled.room _ (List.getLast_mem nonempty)
    exact ⟨_, block, last, found, by omega, by omega, List.prefix_refl _, le_rfl, le_rfl,
      Or.inr (by omega), apart, filled⟩

/-- What `allocValue` does: a new entry lies in the last pool, and no other has changed. -/
theorem allocValue_spec {t : Table T} {cell : Pointer → Option (Str × T)}
    (apart : Apart sizes t.blocks cell) (filled : Filled sizes t.blocks cell t.pools t.nfill)
    (str : Str) (v : T) :
    ∃ p after, allocValue sizes t str v =
        some (BitVec.ofNat 32 (after.pools.length <<< poolBits ||| p.offset), after) ∧
      after.table = t.table ∧ after.count = t.count ∧ after.countTrigger = t.countTrigger ∧
      after.pools = (choosePool t (extent sizes str)).pools ∧ t.pools <+: after.pools ∧ after.pools.getLast? = some p.block ∧ p.offset < poolSize ∧
      cell p = none ∧ fill t + 1 ≤ fill after ∧
      Apart sizes after.blocks (Function.update cell p (some (str, v))) ∧
      Filled sizes after.blocks (Function.update cell p (some (str, v))) after.pools
        after.nfill := by
  obtain ⟨pool, block, last, found, fits, below, grows, longer, more, within, apartChosen,
    filledChosen⟩ := choosePool_spec apart filled (sizes.structSize + str.length + 1)
    (Nat.succ_pos _)
  have kept : (choosePool t (sizes.structSize + str.length + 1)).table = t.table ∧
      (choosePool t (sizes.structSize + str.length + 1)).count = t.count ∧
      (choosePool t (sizes.structSize + str.length + 1)).countTrigger = t.countTrigger := by
    rw [choosePool]
    split <;> exact ⟨rfl, rfl, rfl⟩
  rw [allocValue, extent]
  generalize choosePool t (sizes.structSize + str.length + 1) = chosen at *
  obtain ⟨first, second, third, after, poked1, poked2, poked3, poked4, shape, holds, same⟩ :=
    @store_entry _ sizes _ ⟨pool, chosen.nfill⟩ _ found str v fits
  dsimp only
  simp only [last, poked1, poked2, poked3, poked4, Option.bind_eq_bind, Option.bind_some]
  have away : ∀ {q s w}, cell q = some (s, w) → q.block = pool →
      q.offset + extent sizes s ≤ chosen.nfill := fun entry sameBlock =>
    filledChosen.mark last entry sameBlock
  have apartAfter : Apart sizes after cell := by
    refine apartChosen.of_same shape.1.ge fun {q s w} entry place sameBlock low high => ?_
    refine same place fun sameBlock' low' => ?_
    have mark := away entry (sameBlock.symm.trans sameBlock')
    dsimp only at low'
    omega
  have fresh : cell ⟨pool, chosen.nfill⟩ = none := by
    by_contra taken
    obtain ⟨⟨s, w⟩, entry⟩ := Option.ne_none_iff_exists'.mp taken
    have mark := away entry rfl
    rw [extent] at mark
    dsimp only at mark
    omega
  refine ⟨⟨pool, chosen.nfill⟩, { chosen with
    blocks := after
    nfill := chosen.nfill + (sizes.structSize + str.length + 1 +
      (-(BitVec.ofNat 64 (sizes.structSize + str.length + 1)) &&& 7).toNat) }, rfl, ?_⟩
  refine ⟨kept.1, kept.2.1, kept.2.2, rfl, grows, last, below, fresh, ?_, ?_, ?_⟩
  · refine (Nat.succ_le_succ more).trans ?_
    simp only [fill]
    omega
  · refine apartAfter.add ?_ holds away
    rw [shape.1]
    exact (List.getElem?_eq_some_iff.mp found).1
  · have filledAfter := shape.filled filledChosen
    refine ⟨filledAfter.room, filledAfter.nodup, fun {b q s w} lastPool entry sameBlock => ?_⟩
    rcases update_entry_cases entry with ⟨rfl, rfl, rfl⟩ | ⟨-, old⟩
    · rw [extent]
      dsimp only
      omega
    · have mark := filledChosen.mark lastPool old sameBlock
      dsimp only
      omega

end LaserD.Root.StringTable
