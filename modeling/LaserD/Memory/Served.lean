/-
This file shows that a bump arena serves every request it has memory for.

A dedicated region is larger than the block by one byte less than the alignment,
which is the most padding any base address can need, so the block fits there. A
request that fits neither the current region nor a new ordinary one comes to its
dedicated region. So a request that returns null has seen rpmalloc fail, or the
size of its dedicated region overflows.
-/

import LaserD.Memory.Runs
import Mathlib.Tactic.Ring

namespace LaserD.Memory

/-! ### Requests that fail -/

/-- The number of requests that rpmalloc has refused. -/
def Heap.failures (heap : Heap) : Int := heap.requests - heap.serial

/-- No request between two heaps was refused. -/
def Unfailing (before after : Heap) : Prop := after.failures ≤ before.failures

@[simp] theorem failures_refuse (heap : Heap) : heap.refuse.failures = heap.failures + 1 := by
  unfold Heap.failures Heap.refuse
  push_cast
  ring

@[simp] theorem failures_obtain (heap : Heap) (block : Block) :
    (heap.obtain block).failures = heap.failures := by
  unfold Heap.failures Heap.obtain
  push_cast
  ring

@[simp] theorem failures_setRegion (heap : Heap) (address : Nat) (region : FixedRegionAllocator) :
    (heap.setRegion address region).failures = heap.failures := rfl

@[simp] theorem failures_rpfree (address : Nat) (heap : Heap) :
    (rpfree address heap).failures = heap.failures := by
  unfold rpfree
  split <;> rfl

/-- A request that returns null is one more failure, any other is none. -/
theorem rpzalloc_failures (rp : Rpmalloc) (size : Nat) (heap : Heap) :
    (∃ after, rpzalloc rp size heap = (none, after) ∧ after.failures = heap.failures + 1) ∨
      ∃ address after, rpzalloc rp size heap = (some address, after) ∧
        after.failures = heap.failures := by
  unfold rpzalloc
  split
  · exact Or.inl ⟨_, rfl, failures_refuse heap⟩
  · exact Or.inr ⟨_, _, rfl, failures_obtain heap _⟩

/-! ### New regions -/

/-- A region is made without a failure, or rpmalloc has failed. -/
theorem fixedRegionArenaCreate_failures (rp : Rpmalloc) (size : Nat) (heap : Heap) :
    (∃ after, fixedRegionArenaCreate rp size heap = (none, after) ∧
        after.failures = heap.failures + 1) ∨
      ∃ region after memory, fixedRegionArenaCreate rp size heap = (some region, after) ∧
        after.failures = heap.failures ∧
        after.region region =
          { memory := { address := memory, size := size }, offset := 0, next := none } := by
  unfold fixedRegionArenaCreate
  rcases rpzalloc_failures rp FixedRegionAllocator.sizeof heap with
    ⟨middle, failed, first⟩ | ⟨region, middle, made, first⟩
  · rw [failed]
    exact Or.inl ⟨middle, rfl, first⟩
  · rw [made]
    dsimp only
    rcases rpzalloc_failures rp size middle with
      ⟨after, failed, second⟩ | ⟨memory, after, made, second⟩
    · rw [failed]
      refine Or.inl ⟨_, rfl, ?_⟩
      rw [failures_rpfree, second, first]
    · rw [made]
      refine Or.inr ⟨region, _, memory, rfl, ?_, Function.update_self ..⟩
      rw [failures_setRegion, second, first]

/-- The padding is less than the alignment, whatever the address. -/
theorem padding_le (address alignment : Nat) : padding address alignment ≤ alignment - 1 :=
  Nat.and_le_right

/-- A new region with room for the worst padding takes the block, whatever its address. -/
theorem regionPlace_new (memory : Block) (next : Option Nat) {alignment allocSize : Nat}
    (room : allocSize + (placedAlignment alignment - 1) ≤ memory.size) :
    (regionPlace { memory := memory, offset := 0, next := next } alignment allocSize).isSome := by
  have small := padding_le memory.address (placedAlignment alignment)
  unfold regionPlace
  dsimp only
  rw [if_neg (Nat.not_lt_zero _), Nat.add_zero, Nat.sub_zero,
    show (if alignment = 0 then defaultAlignment else alignment) = placedAlignment alignment
      from rfl, if_neg (by omega), if_neg (by omega)]
  rfl

/-- A request is answered, and if the answer is null rpmalloc has failed. -/
def Served (before : Heap) (result : Option (Option Nat × Heap)) : Prop :=
  ∃ answer after, result = some (answer, after) ∧ before.failures ≤ after.failures ∧
    (answer = none → before.failures < after.failures)

/-- A request that is tried again after an attempt without an answer. -/
theorem Served.of_le {before middle : Heap} {result : Option (Option Nat × Heap)}
    (served : Served middle result) (le : before.failures ≤ middle.failures) :
    Served before result := by
  obtain ⟨answer, after, same, kept, failed⟩ := served
  exact ⟨answer, after, same, le.trans kept, fun null => lt_of_le_of_lt le (failed null)⟩

/-- Linking a region that ends the list. -/
theorem bumpAppendRegion_failures (allocator region : Nat) {heap : Heap}
    (last : (heap.region region).next = none) :
    ∃ after, bumpAppendRegion allocator region heap = some after ∧
      after.failures = heap.failures := by
  unfold bumpAppendRegion
  rw [if_neg (not_not_intro last)]
  dsimp only
  split
  · exact ⟨_, rfl, rfl⟩
  · exact ⟨_, rfl, rfl⟩

section

variable {alignment allocSize : Nat} (rp : Rpmalloc) (allocator : Nat)
  (valid : validAlignment alignment = true) (positive : 0 < allocSize)
include valid positive

/-- A region made for a request answers it, and with room for the worst padding null means that
rpmalloc has failed. -/
theorem bumpCreateRegionAndAllocate_served (regionSize : Nat) (makeCurrent : Bool) (heap : Heap) :
    ∃ answer after,
      bumpCreateRegionAndAllocate rp allocator regionSize alignment allocSize makeCurrent heap =
        some (answer, after) ∧ heap.failures ≤ after.failures ∧
      (allocSize + (placedAlignment alignment - 1) ≤ regionSize → answer = none →
        heap.failures < after.failures) := by
  unfold bumpCreateRegionAndAllocate
  rcases fixedRegionArenaCreate_failures rp regionSize heap with
    ⟨after, failed, more⟩ | ⟨region, middle, memory, made, same, record⟩
  · rw [failed]
    exact ⟨none, after, rfl, by omega, fun _ _ => by omega⟩
  · rw [made]
    dsimp only
    unfold fixedRegionAlignedAlloc
    dsimp only
    rw [if_neg positive.ne', if_pos valid, record]
    cases place : regionPlace ⟨⟨memory, regionSize⟩, 0, none⟩ alignment allocSize with
    | none =>
      refine ⟨none, _, rfl, ?_, fun room => ?_⟩
      · unfold fixedRegionArenaDestroy
        dsimp only
        rw [failures_rpfree, failures_rpfree, same]
      · have fits := regionPlace_new { address := memory, size := regionSize } none room
        rw [place] at fits
        cases fits
    | some placed =>
      obtain ⟨pointer, placed⟩ := placed
      have last : ((middle.setRegion region placed).region region).next = none := by
        have spec := regionPlace_placed place
        rw [show (middle.setRegion region placed).region region = placed from
          Function.update_self .., spec.next]
      obtain ⟨linked, appended, kept⟩ := bumpAppendRegion_failures allocator region last
      have total : heap.failures ≤ linked.failures := by
        rw [kept, failures_setRegion, same]
      simp only [Option.bind_eq_bind, Option.bind_some, appended]
      cases makeCurrent with
      | false => exact ⟨some pointer, linked, rfl, total, fun _ null => by cases null⟩
      | true => exact ⟨some pointer, _, rfl, total, fun _ null => by cases null⟩

/-- A dedicated region takes the request. -/
theorem bumpDedicatedAlloc_served (nonzero : alignment ≠ 0)
    (fits : allocSize + alignment - 1 < 2 ^ 64) (heap : Heap) :
    Served heap (bumpDedicatedAlloc rp allocator alignment allocSize heap) := by
  have placed : placedAlignment alignment = alignment := if_neg nonzero
  unfold bumpDedicatedAlloc
  rw [if_neg (by omega)]
  obtain ⟨answer, after, result, kept, failed⟩ := bumpCreateRegionAndAllocate_served rp allocator
    valid positive (allocSize + alignment - 1) false heap
  exact ⟨answer, after, result, kept, failed (by rw [placed]; omega)⟩

/-- A request that fits no new ordinary region comes to its dedicated one. -/
theorem bumpOrdinaryAlloc_served (nonzero : alignment ≠ 0)
    (fits : allocSize + alignment - 1 < 2 ^ 64) (heap : Heap) :
    Served heap (bumpOrdinaryAlloc rp allocator alignment allocSize heap) := by
  unfold bumpOrdinaryAlloc
  split
  · obtain ⟨answer, after, result, kept, -⟩ := bumpCreateRegionAndAllocate_served rp allocator
      valid positive bumpRegionSize true heap
    rw [result]
    cases answer with
    | none =>
      exact (bumpDedicatedAlloc_served rp allocator valid positive nonzero fits after).of_le kept
    | some pointer => exact ⟨some pointer, after, rfl, kept, fun null => by cases null⟩
  · exact bumpDedicatedAlloc_served rp allocator valid positive nonzero fits heap

/-- A request to the bump backend is answered, and the answer is null only if rpmalloc has
failed. -/
theorem bumpAlignedAlloc_served_cases (fits : allocSize + placedAlignment alignment - 1 < 2 ^ 64)
    (heap : Heap) :
    Served heap (bumpAlignedAlloc rp (some allocator) alignment allocSize heap) := by
  have nonzero := placedAlignment_ne_zero alignment
  have placedValid := placedAlignment_valid valid
  unfold bumpAlignedAlloc
  dsimp only
  rw [if_neg positive.ne', if_pos valid]
  rw [show (if alignment = 0 then defaultAlignment else alignment) =
    placedAlignment alignment from rfl]
  cases (heap.bump allocator).current with
  | none => exact bumpOrdinaryAlloc_served rp allocator placedValid positive nonzero fits heap
  | some current =>
    dsimp only
    unfold fixedRegionAlignedAlloc
    dsimp only
    rw [if_neg positive.ne', if_pos placedValid]
    cases regionPlace (heap.region current) (placedAlignment alignment) allocSize with
    | none => exact bumpOrdinaryAlloc_served rp allocator placedValid positive nonzero fits heap
    | some placed => exact ⟨some placed.1, _, rfl, le_rfl, fun null => by cases null⟩

/-- In every state of a bump allocator a request that is not empty is answered, and not with
null unless rpmalloc fails, when its size and the worst padding of its alignment do not
overflow. The region made for it takes it whatever the base address. -/
theorem bumpAlignedAlloc_ne_none (fits : allocSize + placedAlignment alignment - 1 < 2 ^ 64)
    (heap : Heap) :
    (∀ address next,
        (regionPlace ⟨⟨address, allocSize + placedAlignment alignment - 1⟩, 0, next⟩ alignment
          allocSize).isSome) ∧
      ∃ answer after,
        bumpAlignedAlloc rp (some allocator) alignment allocSize heap = some (answer, after) ∧
        (Unfailing heap after → answer ≠ none) := by
  have nonzero := placedAlignment_ne_zero alignment
  refine ⟨fun address next => regionPlace_new _ next (by dsimp only; omega), ?_⟩
  obtain ⟨answer, after, result, -, failed⟩ :=
    bumpAlignedAlloc_served_cases rp allocator valid positive fits heap
  refine ⟨answer, after, result, fun unfailing null => ?_⟩
  exact absurd (failed null) (not_lt.mpr unfailing)

end

theorem bumpAlignedAlloc_ne_none_page :
    (∀ address next,
        (regionPlace ⟨⟨address, 8192 + placedAlignment 4096 - 1⟩, 0, next⟩ 4096 8192).isSome) ∧
      ∃ answer after,
        bumpAlignedAlloc stackRpmalloc (some 48) 4096 8192 Client.firstBump.heap =
          some (answer, after) ∧
        (Unfailing Client.firstBump.heap after → answer ≠ none) :=
  bumpAlignedAlloc_ne_none stackRpmalloc 48 (by decide) (by decide) (by decide) _

/-- At alignment zero the largest size is refused without asking rpmalloc, since the default
alignment is added to it. -/
theorem bumpAlignedAlloc_default_overflows :
    2 ^ 64 - 1 + max 0 1 - 1 < 2 ^ 64 ∧
      Reachable stackRpmalloc .bump Heap.empty 16 Client.firstBump ∧
      (Client.firstBump.heap.arena 16).ctx = some 48 ∧
      bumpAlignedAlloc stackRpmalloc (some 48) 0 (2 ^ 64 - 1) Client.firstBump.heap =
        some (none, Client.firstBump.heap) ∧
      Unfailing Client.firstBump.heap Client.firstBump.heap :=
  ⟨by decide, Client.firstBump_reachable, rfl, rfl, le_rfl⟩

end LaserD.Memory
