/-
This file models `laserd.memory`: the fixed-region and the bump backend, the
rpmalloc backend over the parameter `Rpmalloc`, and the arena facade that
dispatches to them.

Every operation takes the heap and returns a pointer, null being `none`, with
the heap after it. The outer option is `none` when an assertion fails and the
program stops.
-/

import LaserD.Memory.Heap

namespace LaserD.Memory

/-! ### Alignment -/

/-- The alignment applied when a caller requests zero. -/
def defaultAlignment : Nat := 8

/-- Zero or a power of two. -/
def validAlignment (alignment : Nat) : Bool :=
  alignment == 0 || alignment &&& (alignment - 1) == 0

/-- The distance from an address to the next multiple of a power of two, as the backends
compute it: `(0 - address) & (alignment - 1)`. -/
def padding (address alignment : Nat) : Nat := (2 ^ 64 - address) % 2 ^ 64 &&& (alignment - 1)

/-- A product of two sizes that a `size_t` cannot hold. -/
def productOverflows (count objectSize : Nat) : Bool :=
  objectSize != 0 && decide (count > (2 ^ 64 - 1) / objectSize)

/-! ### The fixed-region backend -/

/-- The size of the record in bytes. -/
def FixedRegionAllocator.sizeof : Nat := 32

/-- The size of the record in bytes. -/
def BumpAllocator.sizeof : Nat := 24

/-- The size of the record in bytes. -/
def Arena.sizeof : Nat := 16

/-- A region with a zeroed buffer. If the buffer cannot be had, the record is given back. -/
def fixedRegionArenaCreate (rp : Rpmalloc) (size : Nat) (heap : Heap) : Option Nat × Heap :=
  match rpzalloc rp FixedRegionAllocator.sizeof heap with
  | (none, heap) => (none, heap)
  | (some allocator, heap) =>
      match rpzalloc rp size heap with
      | (none, heap) => (none, rpfree allocator heap)
      | (some memory, heap) =>
          (some allocator, heap.setRegion allocator
            { memory := { address := memory, size := size }, offset := 0, next := none })

/-- Gives the buffer and the record of a region back. -/
def fixedRegionArenaDestroy (ctx : Option Nat) (heap : Heap) : Heap :=
  match ctx with
  | none => heap
  | some allocator => rpfree allocator (rpfree (heap.region allocator).memory.address heap)

/-- The placement of a request behind the cursor of a region: the address and the region with
its cursor moved. -/
def regionPlace (region : FixedRegionAllocator) (alignment allocSize : Nat) :
    Option (Nat × FixedRegionAllocator) :=
  let alignment := if alignment = 0 then defaultAlignment else alignment
  if region.offset > region.memory.size then none
  else
    let remaining := region.memory.size - region.offset
    let pad := padding (region.memory.address + region.offset) alignment
    if pad > remaining then none
    else if allocSize > remaining - pad then none
    else
      let offset := region.offset + pad
      some (region.memory.address + offset, { region with offset := offset + allocSize })

/-- Allocates behind the cursor of a region. -/
def fixedRegionAlignedAlloc (ctx : Option Nat) (alignment allocSize : Nat) (heap : Heap) :
    Option (Option Nat × Heap) :=
  match ctx with
  | none => some (none, heap)
  | some allocator =>
      if allocSize = 0 then some (none, heap)
      else if validAlignment alignment then
        match regionPlace (heap.region allocator) alignment allocSize with
        | none => some (none, heap)
        | some (pointer, region) => some (some pointer, heap.setRegion allocator region)
      else none

/-- The array allocation the two region backends share. -/
def regionAlignedCalloc (alignedAlloc : Nat → Heap → Option (Option Nat × Heap))
    (count objectSize : Nat) (heap : Heap) : Option (Option Nat × Heap) :=
  if productOverflows count objectSize then some (none, heap)
  else alignedAlloc (count * objectSize) heap

/-- The reallocation the two region backends share: a request the block already satisfies
keeps the block, a growing one copies it to a new block of the backend. -/
def regionAlignedRealloc (alignedAlloc : Nat → Heap → Option (Option Nat × Heap))
    (ctx pointer : Option Nat) (allocSize oldSize : Nat) (heap : Heap) :
    Option (Option Nat × Heap) :=
  match ctx with
  | none => some (none, heap)
  | some _ =>
      if pointer = none ∧ oldSize ≠ 0 then none
      else if allocSize ≤ oldSize then some (pointer, heap)
      else do
        match ← alignedAlloc allocSize heap with
        | (none, heap) => some (none, heap)
        | (some newPointer, heap) =>
            match pointer with
            | some old =>
                if oldSize ≠ 0 then some (some newPointer, heap.memcpy newPointer old oldSize)
                else some (some newPointer, heap)
            | none => some (some newPointer, heap)

/-- The aligned array allocation in a region. -/
def fixedRegionAlignedCalloc (ctx : Option Nat) (alignment count objectSize : Nat) :
    Heap → Option (Option Nat × Heap) :=
  regionAlignedCalloc (fixedRegionAlignedAlloc ctx alignment) count objectSize

/-- The aligned reallocation in a region. -/
def fixedRegionAlignedRealloc (ctx pointer : Option Nat) (alignment allocSize oldSize : Nat) :
    Heap → Option (Option Nat × Heap) :=
  regionAlignedRealloc (fixedRegionAlignedAlloc ctx alignment) ctx pointer allocSize oldSize

/-- The allocation in a region at the default alignment. -/
def fixedRegionAlloc (ctx : Option Nat) (size : Nat) : Heap → Option (Option Nat × Heap) :=
  fixedRegionAlignedAlloc ctx 0 size

/-- The array allocation in a region at the default alignment. -/
def fixedRegionCalloc (ctx : Option Nat) (count objectSize : Nat) :
    Heap → Option (Option Nat × Heap) :=
  regionAlignedCalloc (fixedRegionAlignedAlloc ctx 0) count objectSize

/-- The reallocation in a region at the default alignment. -/
def fixedRegionRealloc (ctx pointer : Option Nat) (allocSize oldSize : Nat) :
    Heap → Option (Option Nat × Heap) :=
  fixedRegionAlignedRealloc ctx pointer 0 allocSize oldSize

/-- A region keeps every block until its destruction. -/
def fixedRegionFree (heap : Heap) : Heap := heap

/-! ### The bump backend -/

/-- The size of an ordinary region. -/
def bumpRegionSize : Nat := 8 * 1024

/-- Links a region behind the last one. -/
def bumpAppendRegion (allocator region : Nat) (heap : Heap) : Option Heap :=
  if (heap.region region).next ≠ none then none
  else
    let bump := heap.bump allocator
    match bump.tail with
    | none => some (heap.setBump allocator { bump with head := some region, tail := some region })
    | some tail =>
        some ((heap.setRegion tail { heap.region tail with next := some region }).setBump allocator
          { bump with tail := some region })

/-- Allocates in a region made for the request. A region in which the request does not fit is
destroyed. -/
def bumpCreateRegionAndAllocate (rp : Rpmalloc) (allocator regionSize alignment allocSize : Nat)
    (makeCurrent : Bool) (heap : Heap) : Option (Option Nat × Heap) :=
  match fixedRegionArenaCreate rp regionSize heap with
  | (none, heap) => some (none, heap)
  | (some region, heap) => do
      match ← fixedRegionAlignedAlloc (some region) alignment allocSize heap with
      | (none, heap) => some (none, fixedRegionArenaDestroy (some region) heap)
      | (some pointer, heap) =>
          let heap ← bumpAppendRegion allocator region heap
          if makeCurrent then
            some (some pointer,
              heap.setBump allocator { heap.bump allocator with current := some region })
          else some (some pointer, heap)

/-- The dedicated region of a request that fits no ordinary one. -/
def bumpDedicatedAlloc (rp : Rpmalloc) (allocator alignment allocSize : Nat) (heap : Heap) :
    Option (Option Nat × Heap) :=
  if alignment - 1 > 2 ^ 64 - 1 - allocSize then some (none, heap)
  else
    bumpCreateRegionAndAllocate rp allocator (allocSize + alignment - 1) alignment allocSize false
      heap

/-- A new ordinary region for a request that is small enough, and a dedicated one otherwise or
when that fails. -/
def bumpOrdinaryAlloc (rp : Rpmalloc) (allocator alignment allocSize : Nat) (heap : Heap) :
    Option (Option Nat × Heap) :=
  if allocSize ≤ bumpRegionSize then do
    match ← bumpCreateRegionAndAllocate rp allocator bumpRegionSize alignment allocSize true heap with
    | (some pointer, heap) => some (some pointer, heap)
    | (none, heap) => bumpDedicatedAlloc rp allocator alignment allocSize heap
  else bumpDedicatedAlloc rp allocator alignment allocSize heap

/-- Allocates in the current region, else in a new one. -/
def bumpAlignedAlloc (rp : Rpmalloc) (ctx : Option Nat) (alignment allocSize : Nat) (heap : Heap) :
    Option (Option Nat × Heap) :=
  match ctx with
  | none => some (none, heap)
  | some allocator =>
      if allocSize = 0 then some (none, heap)
      else if validAlignment alignment then do
        let alignment := if alignment = 0 then defaultAlignment else alignment
        match (heap.bump allocator).current with
        | none => bumpOrdinaryAlloc rp allocator alignment allocSize heap
        | some current =>
            match ← fixedRegionAlignedAlloc (some current) alignment allocSize heap with
            | (some pointer, heap) => some (some pointer, heap)
            | (none, heap) => bumpOrdinaryAlloc rp allocator alignment allocSize heap
      else none

/-- The aligned array allocation of the bump backend. -/
def bumpAlignedCalloc (rp : Rpmalloc) (ctx : Option Nat) (alignment count objectSize : Nat) :
    Heap → Option (Option Nat × Heap) :=
  regionAlignedCalloc (bumpAlignedAlloc rp ctx alignment) count objectSize

/-- The aligned reallocation of the bump backend. -/
def bumpAlignedRealloc (rp : Rpmalloc) (ctx pointer : Option Nat)
    (alignment allocSize oldSize : Nat) : Heap → Option (Option Nat × Heap) :=
  regionAlignedRealloc (bumpAlignedAlloc rp ctx alignment) ctx pointer allocSize oldSize

/-- The allocation of the bump backend at the default alignment. -/
def bumpAlloc (rp : Rpmalloc) (ctx : Option Nat) (size : Nat) :
    Heap → Option (Option Nat × Heap) :=
  bumpAlignedAlloc rp ctx 0 size

/-- The array allocation of the bump backend at the default alignment. -/
def bumpCalloc (rp : Rpmalloc) (ctx : Option Nat) (count objectSize : Nat) :
    Heap → Option (Option Nat × Heap) :=
  regionAlignedCalloc (bumpAlignedAlloc rp ctx 0) count objectSize

/-- The reallocation of the bump backend at the default alignment. -/
def bumpRealloc (rp : Rpmalloc) (ctx pointer : Option Nat) (allocSize oldSize : Nat) :
    Heap → Option (Option Nat × Heap) :=
  bumpAlignedRealloc rp ctx pointer 0 allocSize oldSize

/-- The bump backend keeps every block until its destruction. -/
def bumpFree (heap : Heap) : Heap := heap

/-- The loop that destroys the regions of a bump allocator. `fuel` bounds the number of
regions; with too little of it the result is `none`. -/
def bumpDestroyLoop : Nat → Option Nat → Heap → Option Heap
  | _, none, heap => some heap
  | 0, some _, _ => none
  | fuel + 1, some region, heap =>
      bumpDestroyLoop fuel (heap.region region).next (fixedRegionArenaDestroy (some region) heap)

/-- Destroys every region and gives the record of the allocator back. -/
def bumpDestroy (fuel : Nat) (ctx : Option Nat) (heap : Heap) : Option Heap :=
  match ctx with
  | none => some heap
  | some allocator => do
      let heap ← bumpDestroyLoop fuel (heap.bump allocator).head heap
      some (rpfree allocator heap)

/-! ### The rpmalloc backend -/

/-- A request below the default alignment is raised to it. -/
def raisedAlignment (alignment : Nat) : Nat :=
  if alignment < defaultAlignment then defaultAlignment else alignment

/-- The allocation of the rpmalloc backend. -/
def arenaRpmallocAlloc (rp : Rpmalloc) (size : Nat) : Heap → Option Nat × Heap :=
  rpzalloc rp size

/-- The array allocation of the rpmalloc backend. -/
def arenaRpmallocCalloc (rp : Rpmalloc) (count size : Nat) : Heap → Option Nat × Heap :=
  rpzalloc rp (count * size % 2 ^ 64)

/-- The bytes past the old size set to zero. -/
def zeroReallocatedTail (pointer : Option Nat) (size oldSize : Nat) (heap : Heap) : Heap :=
  match pointer with
  | none => heap
  | some pointer =>
      { heap with
        byte := fun address =>
          if pointer + oldSize ≤ address ∧ address < pointer + size then 0
          else heap.byte address }

/-- A reallocation by rpmalloc with the new tail zeroed. -/
def arenaRpmallocRealloc (rp : Rpmalloc) (pointer : Option Nat) (size oldSize : Nat)
    (heap : Heap) : Option Nat × Heap :=
  match rp.realloc heap pointer 0 size with
  | (result, heap) => (result, zeroReallocatedTail result size oldSize heap)

/-- The aligned allocation of the rpmalloc backend. -/
def arenaRpmallocAlignedAlloc (rp : Rpmalloc) (alignment size : Nat) : Heap → Option Nat × Heap :=
  rpalignedZalloc rp (raisedAlignment alignment) size

/-- The aligned array allocation of the rpmalloc backend. -/
def arenaRpmallocAlignedCalloc (rp : Rpmalloc) (alignment count size : Nat) :
    Heap → Option Nat × Heap :=
  rpalignedZalloc rp (raisedAlignment alignment) (count * size % 2 ^ 64)

/-- The aligned reallocation of the rpmalloc backend. -/
def arenaRpmallocAlignedRealloc (rp : Rpmalloc) (pointer : Option Nat)
    (alignment size oldSize : Nat) (heap : Heap) : Option Nat × Heap :=
  match rp.realloc heap pointer (raisedAlignment alignment) size with
  | (result, heap) => (result, zeroReallocatedTail result size oldSize heap)

/-- The rpmalloc backend gives a block back at once. -/
def arenaRpmallocFree (pointer : Option Nat) (heap : Heap) : Heap :=
  match pointer with
  | none => heap
  | some pointer => rpfree pointer heap

/-! ### The function tables -/

section

variable (rp : Rpmalloc) (vtable : Vtable) (ctx pointer : Option Nat)

/-- The allocation of a function table. -/
def Vtable.allocImpl (size : Nat) (heap : Heap) : Option (Option Nat × Heap) :=
  match vtable with
  | .rpmalloc => some (arenaRpmallocAlloc rp size heap)
  | .fixedregion => fixedRegionAlloc ctx size heap
  | .bump => bumpAlloc rp ctx size heap

/-- The array allocation of a function table. -/
def Vtable.callocImpl (count size : Nat) (heap : Heap) : Option (Option Nat × Heap) :=
  match vtable with
  | .rpmalloc => some (arenaRpmallocCalloc rp count size heap)
  | .fixedregion => fixedRegionCalloc ctx count size heap
  | .bump => bumpCalloc rp ctx count size heap

/-- The reallocation of a function table. -/
def Vtable.reallocImpl (size oldSize : Nat) (heap : Heap) : Option (Option Nat × Heap) :=
  match vtable with
  | .rpmalloc => some (arenaRpmallocRealloc rp pointer size oldSize heap)
  | .fixedregion => fixedRegionRealloc ctx pointer size oldSize heap
  | .bump => bumpRealloc rp ctx pointer size oldSize heap

/-- The aligned allocation of a function table. -/
def Vtable.alignedAllocImpl (alignment size : Nat) (heap : Heap) : Option (Option Nat × Heap) :=
  match vtable with
  | .rpmalloc => some (arenaRpmallocAlignedAlloc rp alignment size heap)
  | .fixedregion => fixedRegionAlignedAlloc ctx alignment size heap
  | .bump => bumpAlignedAlloc rp ctx alignment size heap

/-- The aligned array allocation of a function table. -/
def Vtable.alignedCallocImpl (alignment count size : Nat) (heap : Heap) :
    Option (Option Nat × Heap) :=
  match vtable with
  | .rpmalloc => some (arenaRpmallocAlignedCalloc rp alignment count size heap)
  | .fixedregion => fixedRegionAlignedCalloc ctx alignment count size heap
  | .bump => bumpAlignedCalloc rp ctx alignment count size heap

/-- The aligned reallocation of a function table. -/
def Vtable.alignedReallocImpl (alignment size oldSize : Nat) (heap : Heap) :
    Option (Option Nat × Heap) :=
  match vtable with
  | .rpmalloc => some (arenaRpmallocAlignedRealloc rp pointer alignment size oldSize heap)
  | .fixedregion => fixedRegionAlignedRealloc ctx pointer alignment size oldSize heap
  | .bump => bumpAlignedRealloc rp ctx pointer alignment size oldSize heap

/-- The free function of a function table. -/
def Vtable.freeImpl (heap : Heap) : Heap :=
  match vtable with
  | .rpmalloc => arenaRpmallocFree pointer heap
  | .fixedregion => fixedRegionFree heap
  | .bump => bumpFree heap

/-- The destruction function of a function table. -/
def Vtable.destroyImpl (fuel : Nat) (heap : Heap) : Option Heap :=
  match vtable with
  | .rpmalloc => some heap
  | .fixedregion => some (fixedRegionArenaDestroy ctx heap)
  | .bump => bumpDestroy fuel ctx heap

end

/-! ### The arena facade -/

/-- One call of an arena. -/
inductive Call
  | alloc (size : Nat)
  | calloc (count size : Nat)
  | realloc (pointer : Option Nat) (size oldSize : Nat)
  | alignedAlloc (alignment size : Nat)
  | alignedCalloc (alignment count size : Nat)
  | alignedRealloc (pointer : Option Nat) (alignment size oldSize : Nat)
  | free (pointer : Option Nat)
  deriving Repr, DecidableEq

/-- The facade: assertions first, then the dispatch through the function table. -/
def Call.perform (rp : Rpmalloc) (arena : Nat) (call : Call) (heap : Heap) :
    Option (Option Nat × Heap) :=
  let dispatch (impl : Vtable → Option (Option Nat × Heap)) :=
    match (heap.arena arena).vtable with
    | none => some (none, heap)
    | some vtable => impl vtable
  let ctx := (heap.arena arena).ctx
  match call with
  | .alloc size => dispatch fun vtable => vtable.allocImpl rp ctx size heap
  | .calloc count size => dispatch fun vtable => vtable.callocImpl rp ctx count size heap
  | .realloc pointer size oldSize =>
      dispatch fun vtable => vtable.reallocImpl rp ctx pointer size oldSize heap
  | .alignedAlloc alignment size =>
      if validAlignment alignment then
        dispatch fun vtable => vtable.alignedAllocImpl rp ctx alignment size heap
      else none
  | .alignedCalloc alignment count size =>
      if validAlignment alignment ∧ (alignment = 0 ∨ size % alignment = 0) then
        dispatch fun vtable => vtable.alignedCallocImpl rp ctx alignment count size heap
      else none
  | .alignedRealloc pointer alignment size oldSize =>
      if validAlignment alignment then
        dispatch fun vtable => vtable.alignedReallocImpl rp ctx pointer alignment size oldSize heap
      else none
  | .free pointer => dispatch fun vtable => some (none, vtable.freeImpl pointer heap)

/-! ### Creation and destruction -/

/-- The three factories. -/
inductive Backend
  | rpmalloc
  | fixedregion (size : Nat)
  | bump
  deriving Repr, DecidableEq

/-- `Arena_create_rpmalloc`. -/
def arenaCreateRpmalloc (rp : Rpmalloc) (heap : Heap) : Option Nat × Heap :=
  match rpzalloc rp Arena.sizeof heap with
  | (none, heap) => (none, heap)
  | (some arena, heap) => (some arena, heap.setArena arena { vtable := some .rpmalloc, ctx := none })

/-- `Arena_create_fixedregion`. -/
def arenaCreateFixedregion (rp : Rpmalloc) (size : Nat) (heap : Heap) : Option Nat × Heap :=
  match rpzalloc rp Arena.sizeof heap with
  | (none, heap) => (none, heap)
  | (some arena, heap) =>
      match fixedRegionArenaCreate rp size heap with
      | (none, heap) => (none, rpfree arena heap)
      | (some ctx, heap) =>
          (some arena, heap.setArena arena { vtable := some .fixedregion, ctx := some ctx })

/-- `Arena_create_bump`. -/
def arenaCreateBump (rp : Rpmalloc) (heap : Heap) : Option Nat × Heap :=
  match rpzalloc rp Arena.sizeof heap with
  | (none, heap) => (none, heap)
  | (some arena, heap) =>
      match rpzalloc rp BumpAllocator.sizeof heap with
      | (none, heap) => (none, rpfree arena heap)
      | (some allocator, heap) =>
          (some arena, (heap.setBump allocator BumpAllocator.zero).setArena arena
            { vtable := some .bump, ctx := some allocator })

/-- The factory of a backend. -/
def arenaCreate (rp : Rpmalloc) (backend : Backend) (heap : Heap) : Option Nat × Heap :=
  match backend with
  | .rpmalloc => arenaCreateRpmalloc rp heap
  | .fixedregion size => arenaCreateFixedregion rp size heap
  | .bump => arenaCreateBump rp heap

/-- `Arena_destroy`: the facade is cleared first. No list of regions is longer than the list
of live blocks, which bounds the loop. -/
def arenaDestroy (arena : Option Nat) (heap : Heap) : Option Heap :=
  match arena with
  | none => some heap
  | some arena => do
      let facade := heap.arena arena
      let fuel := heap.live.length
      let heap := heap.setArena arena { vtable := none, ctx := none }
      let heap ← match facade.vtable with
        | none => some heap
        | some vtable => vtable.destroyImpl facade.ctx fuel heap
      some (rpfree arena heap)

end LaserD.Memory
