/-
This file models the process heap below `laserd.memory`: byte memory, the
records of the library's own types, and the blocks rpmalloc has handed out.

The allocator itself is a parameter. `Rpmalloc` answers every request from the
whole heap, which counts the requests, so that it may fail whenever it likes.
It carries the contract the library relies on: a block it returns is fresh, that
is, lies in the address space, has an address of its own and meets no live
block. Every block carries a serial number, and `rpfree` records the serial
numbers of the blocks it is passed; a call of `rpfree` with an address that is
not live is counted as wild. Over any sequence of requests and frees the live
and the freed serial numbers together are the numbers handed out, each once.
-/

import Mathlib.Algebra.Group.Nat.Defs
import LaserD.Lib.Chain
import Mathlib.Data.List.Perm.Basic
import Mathlib.Data.List.Range
import Mathlib.Data.List.Nodup

namespace LaserD.Memory

/-! ### Blocks -/

/-- A range of addresses. -/
structure Block where
  address : Nat
  size : Nat
  deriving Repr, DecidableEq

/-- An address lies in a block. -/
def Block.Contains (block : Block) (address : Nat) : Prop :=
  block.address ≤ address ∧ address < block.address + block.size

/-- Two blocks share no address. -/
def Block.Disjoint (first second : Block) : Prop :=
  first.address + first.size ≤ second.address ∨ second.address + second.size ≤ first.address

theorem Block.Disjoint.symm {first second : Block} (disjoint : first.Disjoint second) :
    second.Disjoint first := Or.symm disjoint

theorem Block.Disjoint.not_contains {first second : Block} (disjoint : first.Disjoint second)
    {address : Nat} (inside : first.Contains address) : ¬ second.Contains address := by
  unfold Block.Disjoint at disjoint
  unfold Block.Contains at inside ⊢
  omega

/-- A block that rpmalloc handed out, with its serial number. -/
structure LiveBlock where
  serial : Nat
  block : Block
  deriving Repr, DecidableEq

/-! ### The records of the library -/

/-- A fixed region: a buffer, the position up to which it is allocated, and the link to the
next region. -/
structure FixedRegionAllocator where
  memory : Block
  offset : Nat
  next : Option Nat
  deriving Repr, DecidableEq

/-- The list of fixed regions of a bump allocator and its current region. -/
structure BumpAllocator where
  head : Option Nat
  tail : Option Nat
  current : Option Nat
  deriving Repr, DecidableEq

/-- The function table an arena dispatches through. -/
inductive Vtable
  | rpmalloc
  | fixedregion
  | bump
  deriving Repr, DecidableEq

/-- The arena facade. -/
structure Arena where
  vtable : Option Vtable
  ctx : Option Nat
  deriving Repr, DecidableEq

/-- The record of a freshly zeroed bump allocator. -/
def BumpAllocator.zero : BumpAllocator := { head := none, tail := none, current := none }

/-! ### The heap -/

/-- The process heap: bytes, records by address, live blocks, the number of requests made, and
the account of the blocks handed out and given back. -/
structure Heap where
  byte : Nat → UInt8
  region : Nat → FixedRegionAllocator
  bump : Nat → BumpAllocator
  arena : Nat → Arena
  live : List LiveBlock
  requests : Nat
  serial : Nat
  freed : List Nat
  wild : Nat

/-- A block that rpmalloc may hand out. -/
structure Heap.Fresh (heap : Heap) (block : Block) : Prop where
  nonnull : 0 < block.address
  bounded : block.address + block.size ≤ 2 ^ 64
  address_ne : ∀ other ∈ heap.live, block.address ≠ other.block.address
  disjoint : ∀ other ∈ heap.live, block.Disjoint other.block

/-- rpmalloc: it places a request in the heap or fails, and what it places is fresh. An
aligned request is placed at a multiple of the alignment. Reallocation, which only the
rpmalloc backend uses, is left open but for the arena records, which it leaves alone. -/
structure Rpmalloc where
  zalloc : Heap → Nat → Option Nat
  alignedZalloc : Heap → Nat → Nat → Option Nat
  realloc : Heap → Option Nat → Nat → Nat → Option Nat × Heap
  zalloc_fresh : ∀ heap size address, zalloc heap size = some address →
    heap.Fresh { address := address, size := size }
  alignedZalloc_fresh : ∀ heap alignment size address,
    alignedZalloc heap alignment size = some address →
    heap.Fresh { address := address, size := size }
  alignedZalloc_dvd : ∀ heap alignment size address,
    alignedZalloc heap alignment size = some address → alignment ∣ address
  realloc_arena : ∀ heap pointer alignment size,
    (realloc heap pointer alignment size).2.arena = heap.arena

/-- The heap after a request that failed. -/
def Heap.refuse (heap : Heap) : Heap := { heap with requests := heap.requests + 1 }

/-- The heap with a block handed out and zeroed. -/
def Heap.obtain (heap : Heap) (block : Block) : Heap :=
  { heap with
    byte := fun address =>
      if block.address ≤ address ∧ address < block.address + block.size then 0
      else heap.byte address
    live := { serial := heap.serial, block := block } :: heap.live
    requests := heap.requests + 1
    serial := heap.serial + 1 }

/-- A zeroed block, or null. -/
def rpzalloc (rp : Rpmalloc) (size : Nat) (heap : Heap) : Option Nat × Heap :=
  match rp.zalloc heap size with
  | none => (none, heap.refuse)
  | some address => (some address, heap.obtain { address := address, size := size })

/-- A zeroed block at a multiple of the alignment, or null. -/
def rpalignedZalloc (rp : Rpmalloc) (alignment size : Nat) (heap : Heap) : Option Nat × Heap :=
  match rp.alignedZalloc heap alignment size with
  | none => (none, heap.refuse)
  | some address => (some address, heap.obtain { address := address, size := size })

/-- Gives a block back. -/
def rpfree (address : Nat) (heap : Heap) : Heap :=
  match heap.live.find? fun entry => entry.block.address == address with
  | none => { heap with wild := heap.wild + 1 }
  | some entry =>
      { heap with
        live := heap.live.eraseP fun entry => entry.block.address == address
        freed := entry.serial :: heap.freed }

/-- The record at one address replaced. -/
def Heap.setRegion (heap : Heap) (address : Nat) (region : FixedRegionAllocator) : Heap :=
  { heap with region := Function.update heap.region address region }

/-- The record at one address replaced. -/
def Heap.setBump (heap : Heap) (address : Nat) (bump : BumpAllocator) : Heap :=
  { heap with bump := Function.update heap.bump address bump }

/-- The record at one address replaced. -/
def Heap.setArena (heap : Heap) (address : Nat) (arena : Arena) : Heap :=
  { heap with arena := Function.update heap.arena address arena }

/-- A byte range copied to another address. -/
def Heap.memcpy (heap : Heap) (destination source count : Nat) : Heap :=
  { heap with
    byte := fun address =>
      if destination ≤ address ∧ address < destination + count then
        heap.byte (source + (address - destination))
      else heap.byte address }

/-! ### The account of the blocks -/

/-- The live blocks are apart, and the live and the freed serial numbers together are the
numbers handed out. -/
structure Heap.Ok (heap : Heap) : Prop where
  addresses : (heap.live.map fun entry => entry.block.address).Nodup
  disjoint : heap.live.Pairwise fun first second => first.block.Disjoint second.block
  bounded : ∀ entry ∈ heap.live,
    0 < entry.block.address ∧ entry.block.address + entry.block.size ≤ 2 ^ 64
  serials : (heap.live.map LiveBlock.serial ++ heap.freed).Perm (List.range heap.serial)
  tame : heap.wild = 0

theorem Heap.Ok.refuse {heap : Heap} (ok : heap.Ok) : heap.refuse.Ok :=
  ⟨ok.addresses, ok.disjoint, ok.bounded, ok.serials, ok.tame⟩

theorem Heap.Ok.obtain {heap : Heap} (ok : heap.Ok) {block : Block} (fresh : heap.Fresh block) :
    (heap.obtain block).Ok where
  addresses := by
    refine List.nodup_cons.mpr ⟨fun member => ?_, ok.addresses⟩
    obtain ⟨other, otherMember, same⟩ := List.mem_map.mp member
    exact fresh.address_ne other otherMember same.symm
  disjoint := List.pairwise_cons.mpr ⟨fresh.disjoint, ok.disjoint⟩
  bounded := by
    intro entry member
    rcases List.mem_cons.mp member with rfl | member
    · exact ⟨fresh.nonnull, fresh.bounded⟩
    · exact ok.bounded entry member
  serials := by
    show (heap.serial :: (heap.live.map LiveBlock.serial ++ heap.freed)).Perm
      (List.range (heap.serial + 1))
    rw [List.range_succ]
    exact (List.Perm.cons _ ok.serials).trans (List.perm_append_singleton _ _).symm
  tame := ok.tame

/-- Freeing a live block takes exactly that block out of the live blocks. -/
theorem rpfree_of_live {heap : Heap} (ok : heap.Ok) {entry : LiveBlock} {rest : List LiveBlock}
    (live : heap.live.Perm (entry :: rest)) :
    ∃ remaining, remaining.Perm rest ∧
      rpfree entry.block.address heap =
        { heap with live := remaining, freed := entry.serial :: heap.freed } := by
  have nodup := ok.addresses
  have member : entry ∈ heap.live := live.mem_iff.mpr List.mem_cons_self
  obtain ⟨before, after, split⟩ := List.append_of_mem member
  have others : ∀ other ∈ before, other.block.address ≠ entry.block.address := by
    intro other otherMember same
    rw [split, List.map_append, List.map_cons] at nodup
    have apart := (List.nodup_append.mp nodup).2.2
    exact apart _ (List.mem_map_of_mem otherMember) _ List.mem_cons_self same
  have found : heap.live.find? (fun other => other.block.address == entry.block.address) =
      some entry := by
    rw [split, List.find?_append, List.find?_eq_none.mpr, Option.none_or, List.find?_cons_of_pos]
    · simp
    · intro other otherMember
      simp [others other otherMember]
  have erased : heap.live.eraseP (fun other => other.block.address == entry.block.address) =
      before ++ after := by
    rw [split, List.eraseP_append_right, List.eraseP_cons_of_pos]
    · simp
    · intro other otherMember
      simp [others other otherMember]
  refine ⟨before ++ after, ?_, ?_⟩
  · have middle : (entry :: (before ++ after)).Perm (entry :: rest) :=
      (List.perm_middle.symm.trans (List.Perm.of_eq split.symm)).trans live
    exact (List.perm_cons entry).mp middle
  · unfold rpfree
    rw [found]
    simp only [erased]

/-- Freeing a live block keeps the account. -/
theorem rpfree_ok {heap : Heap} (ok : heap.Ok) {entry : LiveBlock} {rest : List LiveBlock}
    (live : heap.live.Perm (entry :: rest)) : (rpfree entry.block.address heap).Ok := by
  obtain ⟨remaining, perm, result⟩ := rpfree_of_live ok live
  have whole : heap.live.Perm (entry :: remaining) := live.trans (perm.symm.cons _)
  rw [result]
  refine ⟨?_, ?_, ?_, ?_, ok.tame⟩
  · exact (List.nodup_cons.mp ((whole.map _).nodup_iff.mp ok.addresses)).2
  · exact (List.pairwise_cons.mp ((whole.pairwise_iff Block.Disjoint.symm).mp ok.disjoint)).2
  · exact fun other member => ok.bounded other (whole.mem_iff.mpr (List.mem_cons_of_mem _ member))
  · have swapped := (whole.map LiveBlock.serial).append_right heap.freed
    exact (List.perm_middle.trans (swapped.symm.trans (List.Perm.refl _))).trans ok.serials

/-- Of the numbers handed out, the ones that are not live have been freed exactly once. -/
theorem Heap.Ok.freed_once {heap : Heap} (ok : heap.Ok) {serial : Nat}
    (given : serial < heap.serial) (dead : serial ∉ heap.live.map LiveBlock.serial) :
    heap.freed.count serial = 1 := by
  have total := ok.serials.count_eq serial
  rw [List.count_append, List.count_eq_zero_of_not_mem dead, Nat.zero_add] at total
  rw [total]
  exact List.count_eq_one_of_mem List.nodup_range (List.mem_range.mpr given)

/-! ### An allocator that meets the contract -/

/-- The first address behind every block of a list. -/
def topOf : List LiveBlock → Nat
  | [] => 1
  | entry :: rest => max (topOf rest) (entry.block.address + entry.block.size + 1)

theorem topOf_pos (live : List LiveBlock) : 0 < topOf live := by
  induction live with
  | nil => exact Nat.one_pos
  | cons entry rest inductionHypothesis =>
    exact Nat.lt_of_lt_of_le inductionHypothesis (Nat.le_max_left _ _)

theorem end_lt_topOf {live : List LiveBlock} {entry : LiveBlock} (member : entry ∈ live) :
    entry.block.address + entry.block.size < topOf live := by
  induction live with
  | nil => exact absurd member List.not_mem_nil
  | cons first rest inductionHypothesis =>
    rcases List.mem_cons.mp member with rfl | later
    · exact Nat.lt_of_lt_of_le (Nat.lt_succ_self _) (Nat.le_max_right _ _)
    · exact Nat.lt_of_lt_of_le (inductionHypothesis later) (Nat.le_max_left _ _)

/-- The first multiple of an alignment behind every live block, if the request fits there. -/
def stackPlace (heap : Heap) (alignment size : Nat) : Option Nat :=
  let address := alignment * (topOf heap.live / alignment + 1)
  if 0 < alignment ∧ address + size ≤ 2 ^ 64 then some address else none

theorem stackPlace_some {heap : Heap} {alignment size address : Nat}
    (placed : stackPlace heap alignment size = some address) :
    heap.Fresh { address := address, size := size } ∧ alignment ∣ address := by
  unfold stackPlace at placed
  dsimp only at placed
  split at placed
  · next fits =>
    cases placed
    have above : topOf heap.live < alignment * (topOf heap.live / alignment + 1) :=
      Nat.lt_mul_div_succ (topOf heap.live) fits.1
    refine ⟨⟨Nat.lt_trans (topOf_pos heap.live) above, fits.2, ?_, ?_⟩, Nat.dvd_mul_right _ _⟩
    · intro other member
      have lower := end_lt_topOf member
      dsimp only
      omega
    · intro other member
      have lower := end_lt_topOf member
      exact Or.inr (Nat.le_of_lt (Nat.lt_trans lower above))
  · cases placed

/-- An allocator that places every block behind all live ones, at a multiple of sixteen, and
reallocates nothing. -/
def stackRpmalloc : Rpmalloc where
  zalloc heap size := stackPlace heap 16 size
  alignedZalloc := stackPlace
  realloc heap _ _ _ := (none, heap)
  zalloc_fresh _ _ _ placed := (stackPlace_some placed).1
  alignedZalloc_fresh _ _ _ _ placed := (stackPlace_some placed).1
  alignedZalloc_dvd _ _ _ _ placed := (stackPlace_some placed).2
  realloc_arena _ _ _ _ := rfl

/-- The heap of a process that has allocated nothing. -/
def Heap.empty : Heap where
  byte _ := 0
  region _ := { memory := { address := 0, size := 0 }, offset := 0, next := none }
  bump _ := BumpAllocator.zero
  arena _ := { vtable := none, ctx := none }
  live := []
  requests := 0
  serial := 0
  freed := []
  wild := 0

theorem Heap.empty_ok : Heap.empty.Ok :=
  ⟨List.nodup_nil, List.Pairwise.nil, fun _ member => absurd member List.not_mem_nil,
    List.Perm.refl _, rfl⟩

end LaserD.Memory
