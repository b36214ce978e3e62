/-
This file keeps the blocks of the bit vectors of the back end apart.

The invariant says that the block of a vector that is held stores its set, and that the blocks on a
free list are not held and have the words that the list is for. Nothing is known of the bits of
those words: an allocation clears them, and a copy writes all of them.
-/

import LaserD.Dvec.Index

namespace LaserD.Dvec

open PackedBits

/-- The blocks store the sets of the vectors that are held, and the free lists are of use. -/
structure Inv (g : VecGlobal) (s : Vectors) : Prop where
  stores : ∀ p x, s p = some x → ∃ block, g.heap p = some block ∧ block.Stores x
  freed : ∀ dim, ∀ p ∈ g.freelist dim, s p = none ∧
    ∃ block, g.heap p = some block ∧ block.words.length = dim
  nodup : ∀ dim, (g.freelist dim).Nodup
  fresh : ∀ p, g.next ≤ p → g.heap p = none

theorem inv_start : Inv .empty fun _ => none where
  stores := fun _ _ held => by cases held
  freed := fun _ _ member => absurd member List.not_mem_nil
  nodup := fun _ => List.nodup_nil
  fresh := fun _ _ => rfl

namespace Inv

variable {g : VecGlobal} {s : Vectors}

theorem not_held (inv : Inv g s) {p : Nat} (none : g.heap p = none) : s p = .none := by
  cases held : s p with
  | none => rfl
  | some x =>
    obtain ⟨block, found, -⟩ := inv.stores p x held
    rw [none] at found
    cases found

/-- Only the null pointer has no bits. -/
theorem null_iff (inv : Inv g s) {v : vec_t} {x : VecSet} (value : s.value v = some x) :
    v = none ↔ x.numbits = 0 := by
  cases v with
  | none =>
    cases value
    exact ⟨fun _ => rfl, fun _ => rfl⟩
  | some p =>
    obtain ⟨block, -, stores⟩ := inv.stores p x value
    exact ⟨nofun, fun zero => absurd zero stores.positive.ne'⟩

/-! ### Blocks -/

/-- A block that is on no free list is given to a vector. -/
theorem write (inv : Inv g s) {p : Nat} (used : g.heap p ≠ none)
    (apart : ∀ dim, p ∉ g.freelist dim) {block : Block} {x : VecSet} (stores : block.Stores x) :
    Inv (g.write p block) (Function.update s p (some x)) where
  stores := by
    intro q y held
    by_cases same : q = p
    · subst same
      rw [Function.update_self] at held
      cases held
      exact ⟨block, Function.update_self .., stores⟩
    · rw [Function.update_of_ne same] at held
      obtain ⟨other, found, storesOther⟩ := inv.stores q y held
      exact ⟨other, (Function.update_of_ne same ..).trans found, storesOther⟩
  freed := by
    intro dim q member
    have different : q ≠ p := fun same => apart dim (same ▸ member)
    obtain ⟨free, other, found, length⟩ := inv.freed dim q member
    exact ⟨(Function.update_of_ne different ..).trans free, other,
      (Function.update_of_ne different ..).trans found, length⟩
  nodup := inv.nodup
  fresh := by
    intro q beyond
    have different : q ≠ p := fun same => used (same ▸ inv.fresh q beyond)
    exact (Function.update_of_ne different ..).trans (inv.fresh q beyond)

/-- The words of a vector that is held are written. -/
theorem rewrite (inv : Inv g s) {p : Nat} {x y : VecSet} (held : s p = some x) {block : Block}
    (stores : block.Stores y) : Inv (g.write p block) (Function.update s p (some y)) := by
  refine inv.write ?_ (fun dim member => ?_) stores
  · obtain ⟨old, found, -⟩ := inv.stores p x held
    rw [found]
    exact Option.some_ne_none old
  · obtain ⟨free, -⟩ := inv.freed dim p member
    rw [held] at free
    cases free

/-- A new block is given to a vector. -/
theorem calloc (inv : Inv g s) {dim numbits : Nat} {words : List Word} {x : VecSet}
    (stores : Block.Stores ⟨dim, numbits, words⟩ x) :
    Inv (g.calloc dim numbits words).2 (Function.update s g.next (some x)) where
  stores := by
    intro q y held
    by_cases same : q = g.next
    · subst same
      rw [Function.update_self] at held
      cases held
      exact ⟨_, Function.update_self .., stores⟩
    · rw [Function.update_of_ne same] at held
      obtain ⟨other, found, storesOther⟩ := inv.stores q y held
      exact ⟨other, (Function.update_of_ne same ..).trans found, storesOther⟩
  freed := by
    intro dim' q member
    obtain ⟨free, other, found, length⟩ := inv.freed dim' q member
    have different : q ≠ g.next := by
      rintro rfl
      rw [inv.fresh _ le_rfl] at found
      cases found
    exact ⟨(Function.update_of_ne different ..).trans free, other,
      (Function.update_of_ne different ..).trans found, length⟩
  nodup := inv.nodup
  fresh := by
    intro q beyond
    have after : g.next + 1 ≤ q := beyond
    exact (Function.update_of_ne (by omega) ..).trans (inv.fresh q (by omega))

/-- A block from a free list is not held, has the words that the list is for, and can be given to a
vector. -/
theorem take (inv : Inv g s) {dim p : Nat} {g' : VecGlobal} (taken : g.take dim = some (p, g')) :
    s p = none ∧ (∃ old, g'.heap p = some old ∧ old.words.length = dim) ∧
      ∀ (block : Block) (x : VecSet), block.Stores x →
        Inv (g'.write p block) (Function.update s p (some x)) := by
  rw [VecGlobal.take] at taken
  split_ifs at taken with listed
  split at taken
  · cases taken
  next p' rest first =>
    cases taken
    have member : p ∈ g.freelist dim := by
      rw [first]
      exact List.mem_cons_self
    obtain ⟨free, old, found, length⟩ := inv.freed dim p member
    obtain ⟨notRest, restNodup⟩ := List.nodup_cons.mp (first ▸ inv.nodup dim)
    have within (dim' q : Nat) (present : q ∈ Function.update g.freelist dim rest dim') :
        q ∈ g.freelist dim' := by
      by_cases same : dim' = dim
      · subst same
        rw [Function.update_self] at present
        rw [first]
        exact List.mem_cons_of_mem _ present
      · rwa [Function.update_of_ne same] at present
    have inv' : Inv { g with freelist := Function.update g.freelist dim rest } s := by
      refine ⟨inv.stores, fun dim' q present => inv.freed dim' q (within dim' q present),
        fun dim' => ?_, inv.fresh⟩
      by_cases same : dim' = dim
      · subst same
        show (Function.update g.freelist dim' rest dim').Nodup
        rwa [Function.update_self]
      · show (Function.update g.freelist dim rest dim').Nodup
        rw [Function.update_of_ne same]
        exact inv.nodup dim'
    refine ⟨free, ⟨old, found, length⟩, fun block x stores => inv'.write ?_ (fun dim' present => ?_)
      stores⟩
    · show g.heap p ≠ none
      rw [found]
      exact Option.some_ne_none old
    · by_cases same : dim' = dim
      · subst same
        have inRest : p ∈ Function.update g.freelist dim' rest dim' := present
        rw [Function.update_self] at inRest
        exact notRest inRest
      · obtain ⟨-, other, found', length'⟩ := inv.freed dim' p (within dim' p present)
        rw [found] at found'
        cases found'
        exact same (length'.symm.trans length)

end Inv

/-! ### Allocation -/

/-- The words that an operation leaves store the set it makes. -/
theorem Block.Stores.replace {block : Block} {x y : VecSet} (stores : block.Stores x)
    {words : List Word} (length : words.length = block.dim) (numbits : y.numbits = x.numbits)
    (bits : ∀ b, bitAt words b = true ↔ b ∈ y.bits) :
    Block.Stores { block with words := words } y where
  numbits := stores.numbits.trans numbits.symm
  positive := numbits ▸ stores.positive
  small := numbits ▸ stores.small
  dim := by
    rw [numbits]
    exact stores.dim
  length := length
  bits := bits

theorem stores_zeros {numbits : Nat} (positive : 0 < numbits) (small : numbits ≤ maxNumbits) :
    Block.Stores ⟨(numbits + 63) / 64, numbits, List.replicate ((numbits + 63) / 64) 0⟩
      (.empty numbits) where
  numbits := rfl
  positive := positive
  small := small
  dim := rfl
  length := List.length_replicate
  bits := fun b => by
    rw [bitAt_zeros]
    exact ⟨nofun, fun member => absurd member (Finset.notMem_empty b)⟩

namespace Inv

variable {g : VecGlobal} {s : Vectors}

theorem allocate_spec (inv : Inv g s) (numbits : Nat) (small : numbits ≤ maxNumbits) :
    ∃ v g' s', vec_calloc g numbits = some (v, g') ∧ s.Adds (.empty numbits) v s' ∧ Inv g' s' := by
  rw [vec_calloc, VecGlobal.allocate]
  by_cases zero : numbits = 0
  · subst zero
    exact ⟨none, g, s, rfl, ⟨rfl, rfl⟩, inv⟩
  · have positive : 0 < numbits := Nat.pos_of_ne_zero zero
    have dim : ((numbits + (VECBITS - 1)) % 2 ^ 64) >>> VECSHIFT = (numbits + 63) / 64 := by
      rw [maxNumbits, VECBITS_eq] at small
      rw [shiftRight_VECSHIFT, VECBITS_eq, Nat.mod_eq_of_lt (by omega)]
    rw [if_neg zero]
    simp only [dim]
    have stores := stores_zeros positive small
    cases taken : g.take ((numbits + 63) / 64) with
    | some pair =>
      obtain ⟨p, g'⟩ := pair
      obtain ⟨free, ⟨old, found, length⟩, placed⟩ := inv.take taken
      refine ⟨some p, _, _, ?_, ⟨zero, free, rfl⟩, placed _ _ stores⟩
      show ((g'.heap p).bind fun _ => _) = _
      rw [found]
      show Option.map _ (memset old.words 0 _) = _
      rw [memset_all length]
      rfl
    | none =>
      have noOverflow : ¬(numbits + 63) / 64 ≥ (2 ^ 64 - 1) / 8 - 1024 := by
        rw [maxNumbits, VECBITS_eq] at small
        omega
      refine ⟨some g.next, _, _, ?_, ⟨zero, inv.not_held (inv.fresh _ le_rfl), rfl⟩,
        inv.calloc stores⟩
      show (if (numbits + 63) / 64 ≥ (2 ^ 64 - 1) / 8 - 1024 then none else _) = _
      rw [if_neg noOverflow]
      rfl

theorem dup_spec (inv : Inv g s) {v : vec_t} {x : VecSet} (value : s.value v = some x) :
    ∃ v' g' s', vec_clone g v = some (v', g') ∧ s.Adds x v' s' ∧ Inv g' s' := by
  rw [vec_clone, VecGlobal.dup.eq_def]
  cases v with
  | none =>
    cases value
    exact ⟨none, g, s, rfl, ⟨rfl, rfl⟩, inv⟩
  | some p =>
    obtain ⟨block, found, stores⟩ := inv.stores p x value
    show ∃ v' g' s', ((g.heap p).bind fun _ => _) = _ ∧ _
    rw [found]
    have copied : Block.Stores ⟨block.dim, block.numbits, block.words⟩ x := stores
    cases taken : g.take block.dim with
    | some pair =>
      obtain ⟨vc, g'⟩ := pair
      obtain ⟨free, ⟨old, foundOld, length⟩, placed⟩ := inv.take taken
      refine ⟨some vc, _, _, ?_, ⟨stores.positive.ne', free, rfl⟩, placed _ _ copied⟩
      simp only [Option.bind_some, taken]
      rw [foundOld, Option.bind_some, memcpy_all length stores.length]
      rfl
    | none =>
      refine ⟨some g.next, _, _, ?_,
        ⟨stores.positive.ne', inv.not_held (inv.fresh _ le_rfl), rfl⟩, inv.calloc copied⟩
      simp only [Option.bind_some, taken]
      rw [memcpy_all List.length_replicate stores.length]
      rfl

theorem free_spec (inv : Inv g s) {v : vec_t} {x : VecSet} (value : s.value v = some x) :
    ∃ g', vec_free g v = some g' ∧ Inv g' (s.remove v) := by
  rw [vec_free, VecGlobal.free.eq_def]
  cases v with
  | none => exact ⟨g, rfl, inv⟩
  | some p =>
    obtain ⟨block, found, stores⟩ := inv.stores p x value
    have others (q : Nat) (y : VecSet) (held : s.remove (some p) q = some y) :
        q ≠ p ∧ s q = some y := by
      have different : q ≠ p := by
        rintro rfl
        rw [Vectors.remove, Function.update_self] at held
        cases held
      rw [Vectors.remove, Function.update_of_ne different] at held
      exact ⟨different, held⟩
    have still (q : Nat) (free : s q = none) : s.remove (some p) q = none := by
      rw [Vectors.remove, Function.update_apply]
      split
      · rfl
      · exact free
    have notFree (dim : Nat) : p ∉ g.freelist dim := by
      intro member
      obtain ⟨free, -⟩ := inv.freed dim p member
      rw [show s p = some x from value] at free
      cases free
    show ∃ g', Option.map _ (g.heap p) = _ ∧ _
    rw [found]
    refine ⟨_, rfl, ?_⟩
    dsimp only
    split
    · refine ⟨fun q y held => inv.stores q y (others q y held).2, fun dim q member => ?_,
        fun dim => ?_, inv.fresh⟩
      · have member' : q ∈ Function.update g.freelist block.dim (p :: g.freelist block.dim) dim :=
          member
        by_cases same : dim = block.dim
        · rw [same, Function.update_self] at member'
          rcases List.mem_cons.mp member' with rfl | earlier
          · refine ⟨?_, block, found, stores.length.trans same.symm⟩
            rw [Vectors.remove, Function.update_self]
          · rw [same]
            exact (inv.freed block.dim q earlier).imp_left (still q)
        · rw [Function.update_of_ne same] at member'
          exact (inv.freed dim q member').imp_left (still q)
      · show (Function.update g.freelist block.dim (p :: g.freelist block.dim) dim).Nodup
        by_cases same : dim = block.dim
        · rw [same, Function.update_self]
          exact List.nodup_cons.mpr ⟨notFree _, inv.nodup _⟩
        · rw [Function.update_of_ne same]
          exact inv.nodup dim
    · refine ⟨fun q y held => ?_, fun dim q member => ?_, inv.nodup, fun q beyond => ?_⟩
      · obtain ⟨different, heldBefore⟩ := others q y held
        obtain ⟨other, found', storesOther⟩ := inv.stores q y heldBefore
        exact ⟨other, (Function.update_of_ne different ..).trans found', storesOther⟩
      · have different : q ≠ p := fun same => notFree dim (same ▸ member)
        obtain ⟨free, other, found', length⟩ := inv.freed dim q member
        exact ⟨still q free, other, (Function.update_of_ne different ..).trans found', length⟩
      · show Function.update g.heap p none q = none
        rw [Function.update_apply]
        split
        · rfl
        · exact inv.fresh q beyond

end Inv

end LaserD.Dvec
