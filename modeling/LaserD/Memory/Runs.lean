/-
This file follows an arena of one of the region backends through a whole run.

A client creates the arena, calls it, and writes into the blocks it was given.
`Running` is the invariant of such a run: the facade still points to its
backend, the backend holds its regions, and the blocks given out lie before the
cursors of the regions. One call keeps it and meets `Call.Meets`: a fresh block
is zero, aligned, inside one region and apart from every earlier block; a grown
block is the old one followed by zeros; a null result changes nothing. From the
invariant, destroying the arena gives back every block that was obtained since
its creation, each exactly once.
-/

import LaserD.Memory.Bump

namespace LaserD.Memory

/-! ### Clients -/

/-- A heap and the blocks an arena has returned. -/
structure Client where
  heap : Heap
  returned : List Block

/-- The bytes a call asks for. -/
def Call.size : Call → Nat
  | .alloc size => size
  | .calloc count size => count * size
  | .realloc _ size _ => size
  | .alignedAlloc _ size => size
  | .alignedCalloc _ count size => count * size
  | .alignedRealloc _ _ size _ => size
  | .free _ => 0

/-- The alignment a call asks for. -/
def Call.alignment : Call → Nat
  | .alignedAlloc alignment _ => alignment
  | .alignedCalloc alignment _ _ => alignment
  | .alignedRealloc _ alignment _ _ => alignment
  | _ => 0

/-- The block a reallocation starts from. -/
def Call.previous : Call → Option (Option Nat × Nat)
  | .realloc pointer _ oldSize => some (pointer, oldSize)
  | .alignedRealloc pointer _ _ oldSize => some (pointer, oldSize)
  | _ => none

/-- A call that keeps the contract of the facade: the alignment is zero or a power of two, the
objects of an aligned array keep it, and a reallocation starts from null or from a block that
was returned. -/
structure Client.Admissible (client : Client) (call : Call) : Prop where
  alignment : validAlignment call.alignment = true ∧ call.alignment < 2 ^ 64
  objects : ∀ alignment count size, call = .alignedCalloc alignment count size →
    alignment = 0 ∨ size % alignment = 0
  previous : ∀ pointer oldSize, call.previous = some (pointer, oldSize) →
    (pointer = none ∧ oldSize = 0) ∨
      ∃ address, pointer = some address ∧ { address := address, size := oldSize } ∈ client.returned

theorem Client.admissible_alignedAlloc (client : Client) {alignment : Nat}
    (valid : validAlignment alignment = true) (word : alignment < 2 ^ 64) (size : Nat) :
    client.Admissible (.alignedAlloc alignment size) := by
  refine ⟨⟨valid, word⟩, ?_, ?_⟩
  · intro _ _ _ impossible
    cases impossible
  · intro _ _ impossible
    cases impossible

/-- The client after a call. -/
def Client.receive (client : Client) (call : Call) (result : Option Nat) (heap : Heap) : Client :=
  match result with
  | none => { client with heap := heap }
  | some pointer =>
      { heap := heap, returned := { address := pointer, size := call.size } :: client.returned }

/-- The client after writing a byte. -/
def Client.write (client : Client) (address : Nat) (value : UInt8) : Client :=
  { client with heap := { client.heap with
      byte := Function.update client.heap.byte address value } }

/-- The states of the runs of an arena. -/
inductive Reachable (rp : Rpmalloc) (backend : Backend) (start : Heap) (arena : Nat) :
    Client → Prop
  | create {heap : Heap} (created : arenaCreate rp backend start = (some arena, heap)) :
      Reachable rp backend start arena { heap := heap, returned := [] }
  | call {client : Client} {call : Call} {result : Option Nat} {heap : Heap}
      (reachable : Reachable rp backend start arena client) (admissible : client.Admissible call)
      (performed : call.perform rp arena client.heap = some (result, heap)) :
      Reachable rp backend start arena (client.receive call result heap)
  | write {client : Client} {block : Block} {address : Nat} (value : UInt8)
      (reachable : Reachable rp backend start arena client) (owned : block ∈ client.returned)
      (inside : block.Contains address) :
      Reachable rp backend start arena (client.write address value)

/-! ### The invariant -/

/-- The function table of a backend. -/
def Backend.vtable : Backend → Vtable
  | .rpmalloc => .rpmalloc
  | .fixedregion _ => .fixedregion
  | .bump => .bump

/-- The regions of a backend whose context lies at an address. -/
def Backend.Owns (backend : Backend) (ctx : Nat) (heap : Heap) (chain : List Nat) : Prop :=
  match backend with
  | .rpmalloc => False
  | .fixedregion _ => chain = [ctx]
  | .bump => RegionList heap ctx chain

/-- The records of an arena beside its regions. -/
def Backend.records (backend : Backend) (arena ctx : Nat) : List Block :=
  match backend with
  | .bump => [{ address := ctx, size := BumpAllocator.sizeof },
      { address := arena, size := Arena.sizeof }]
  | _ => [{ address := arena, size := Arena.sizeof }]

/-- An arena of a region backend in use. `own` are the blocks of its records, `chain` are its
regions. -/
structure Running (backend : Backend) (start : Heap) (arena ctx : Nat) (own : List LiveBlock)
    (chain : List Nat) (client : Client) : Prop where
  facade : client.heap.arena arena = { vtable := some backend.vtable, ctx := some ctx }
  owns : backend.Owns ctx client.heap chain
  holds : Holds client.heap chain (own ++ start.live)
  records : own.map LiveBlock.block = backend.records arena ctx
  serial : start.serial ≤ client.heap.serial
  returned : ∀ block ∈ client.returned, ∃ region ∈ chain,
    (client.heap.region region).memory.address ≤ block.address ∧
    block.address + block.size ≤
      (client.heap.region region).memory.address + (client.heap.region region).offset

/-! ### Creation -/

/-- No region yet. -/
theorem holds_nil {heap : Heap} (ok : heap.Ok) : Holds heap [] heap.live :=
  ⟨ok, List.nodup_nil, ⟨[], List.Perm.refl _, rfl⟩, fun _ member => absurd member List.not_mem_nil,
    fun _ member => absurd member List.not_mem_nil⟩

/-- The facade is no region. -/
theorem Holds.setArena {heap : Heap} {chain : List Nat} {others : List LiveBlock}
    (holds : Holds heap chain others) (arena : Nat) (facade : Arena) :
    Holds (heap.setArena arena facade) chain others :=
  ⟨⟨holds.ok.addresses, holds.ok.disjoint, holds.ok.bounded, holds.ok.serials, holds.ok.tame⟩,
    holds.nodup, holds.live, holds.offset_le, holds.clean⟩

/-- An arena of a region backend is created running, or nothing is kept. -/
theorem arenaCreate_cases (rp : Rpmalloc) {backend : Backend} (region : backend ≠ .rpmalloc)
    {start : Heap} (ok : start.Ok) :
    (∃ after, arenaCreate rp backend start = (none, after) ∧ Refused start after) ∨
      ∃ arena after ctx own chain, arenaCreate rp backend start = (some arena, after) ∧
        Running backend start arena ctx own chain { heap := after, returned := [] } := by
  cases backend with
  | rpmalloc => exact absurd rfl region
  | fixedregion size =>
    unfold arenaCreate arenaCreateFixedregion
    dsimp only
    rcases rpzalloc_cases rp Arena.sizeof start with failed | ⟨arena, fresh, made⟩
    · rw [failed]
      exact Or.inl ⟨_, rfl, Refused.of_refuse ok⟩
    · rw [made]
      dsimp only
      have okArena := ok.obtain fresh
      rcases fixedRegionArenaCreate_cases rp size okArena with
        ⟨after, created, refused⟩ | ⟨ctx, after, created, madeRegion⟩
      · rw [created]
        exact Or.inl ⟨_, rfl, refused_of_obtain_free fresh refused⟩
      · rw [created]
        refine Or.inr ⟨arena, _, ctx, [⟨start.serial, ⟨arena, Arena.sizeof⟩⟩], [ctx], rfl,
          ⟨?_, rfl, ?_, rfl, ?_, fun _ member => absurd member List.not_mem_nil⟩⟩
        · exact Function.update_self ..
        · exact ((holds_nil okArena).made madeRegion).setArena _ _
        · exact (Nat.le_succ _).trans madeRegion.serial
  | bump =>
    unfold arenaCreate arenaCreateBump
    dsimp only
    rcases rpzalloc_cases rp Arena.sizeof start with failed | ⟨arena, fresh, made⟩
    · rw [failed]
      exact Or.inl ⟨_, rfl, Refused.of_refuse ok⟩
    · rw [made]
      dsimp only
      have okArena := ok.obtain fresh
      rcases rpzalloc_cases rp BumpAllocator.sizeof
          (start.obtain { address := arena, size := Arena.sizeof }) with
        failed | ⟨ctx, freshCtx, madeCtx⟩
      · rw [failed]
        exact Or.inl ⟨_, rfl, refused_of_obtain_free fresh (Refused.of_refuse okArena)⟩
      · rw [madeCtx]
        refine Or.inr ⟨arena, _, ctx, [⟨start.serial + 1, ⟨ctx, BumpAllocator.sizeof⟩⟩,
          ⟨start.serial, ⟨arena, Arena.sizeof⟩⟩], [], rfl,
          ⟨?_, ?_, ?_, rfl, ?_, fun _ member => absurd member List.not_mem_nil⟩⟩
        · exact Function.update_self ..
        · refine ⟨?_, ?_, ?_⟩
          · simp only [Heap.setArena, Heap.setBump, Function.update_self]
            rfl
          · simp only [Heap.setArena, Heap.setBump, Function.update_self]
            rfl
          · intro other current
            simp only [Heap.setArena, Heap.setBump, Function.update_self] at current
            cases current
        · exact ((holds_nil (okArena.obtain freshCtx)).relinked (relinked_setBump _ _ _)).setArena
            _ _
        · exact (Nat.le_succ _).trans (Nat.le_succ _)

/-! ### What a call promises -/

/-- A region belongs to an arena. -/
def Heap.OwnedRegion (heap : Heap) (arena region : Nat) : Prop :=
  match heap.arena arena with
  | { vtable := some .fixedregion, ctx := some ctx } => region = ctx
  | { vtable := some .bump, ctx := some ctx } =>
      ∃ chain, Chain.Linked (fun region => (heap.region region).next) (heap.bump ctx).head chain ∧
        region ∈ chain
  | _ => False

/-- No cursor, no list and no byte of a live block has changed. -/
structure Unchanged (arena : Nat) (before after : Heap) : Prop where
  region : ∀ region, before.OwnedRegion arena region → after.region region = before.region region
  bump : after.bump = before.bump
  arena : after.arena = before.arena
  live : after.live.Perm before.live
  byte : ∀ entry ∈ before.live, ∀ address, entry.block.Contains address →
    after.byte address = before.byte address

/-- A block as an arena gives it out: inside one of its regions, apart from the blocks returned
before, and aligned as requested. -/
structure Given (arena : Nat) (returned : List Block) (alignment : Nat) (block : Block)
    (after : Heap) : Prop where
  nonnull : 0 < block.address
  inside : ∃ region, after.OwnedRegion arena region ∧
    (after.region region).memory.address ≤ block.address ∧
    block.address + block.size ≤
      (after.region region).memory.address + (after.region region).memory.size
  apart : ∀ other ∈ returned, block.Disjoint other
  aligned : alignment ≠ 0 → alignment ∣ block.address

/-- What a call of an arena promises. -/
structure Call.Meets (call : Call) (arena : Nat) (client : Client) (result : Option Nat)
    (after : Heap) : Prop where
  null : result = none → Unchanged arena client.heap after
  fresh : call.previous = none → ∀ pointer, result = some pointer →
    Given arena client.returned call.alignment { address := pointer, size := call.size } after ∧
    ∀ index < call.size, after.byte (pointer + index) = 0
  grown : ∀ old oldSize, call.previous = some (old, oldSize) → oldSize < call.size →
    ∀ pointer, result = some pointer →
    Given arena client.returned call.alignment { address := pointer, size := call.size } after ∧
    (∀ source, old = some source → ∀ index < oldSize,
      after.byte (pointer + index) = client.heap.byte (source + index)) ∧
    ∀ index, oldSize ≤ index → index < call.size → after.byte (pointer + index) = 0
  kept : ∀ old oldSize, call.previous = some (old, oldSize) → call.size ≤ oldSize →
    result = old ∧ after = client.heap
  stable : ∀ block ∈ client.returned, ∀ address, block.Contains address →
    after.byte address = client.heap.byte address

/-! ### Bytes written before a cursor -/

/-- Writing before the cursor of a region keeps the regions. -/
theorem Holds.setByte {heap : Heap} {chain : List Nat} {others : List LiveBlock}
    (holds : Holds heap chain others) {byte : Nat → UInt8} {region : Nat} (member : region ∈ chain)
    (before : ∀ address, byte address ≠ heap.byte address →
      (heap.region region).memory.address ≤ address ∧
      address < (heap.region region).memory.address + (heap.region region).offset) :
    Holds { heap with byte := byte } chain others := by
  refine ⟨⟨holds.ok.addresses, holds.ok.disjoint, holds.ok.bounded, holds.ok.serials,
    holds.ok.tame⟩, holds.nodup, holds.live, holds.offset_le, ?_⟩
  intro other otherMember address lower upper
  dsimp only at lower upper ⊢
  have inside := holds.offset_le region member
  by_cases written : byte address = heap.byte address
  · rw [written]
    exact holds.clean other otherMember address lower upper
  · exfalso
    obtain ⟨above, below⟩ := before address written
    by_cases same : other = region
    · rw [same] at lower
      exact absurd below (Nat.not_lt.mpr lower)
    · have apart := holds.memory_disjoint otherMember member same
      refine apart.not_contains ⟨?_, upper⟩ ⟨above, ?_⟩
      · omega
      · omega

/-- A backend reads its regions from the records alone. -/
theorem Backend.Owns.setByte {backend : Backend} {ctx : Nat} {heap : Heap} {chain : List Nat}
    (owns : backend.Owns ctx heap chain) (byte : Nat → UInt8) :
    backend.Owns ctx { heap with byte := byte } chain := by
  cases backend with
  | rpmalloc => exact owns
  | fixedregion size => exact owns
  | bump => exact RegionList.congr owns rfl (fun _ _ => rfl) fun _ _ => rfl

section

variable {backend : Backend} {start : Heap} {arena ctx : Nat}
  {own : List LiveBlock} {chain : List Nat} {client : Client}

theorem Running.setByte (running : Running backend start arena ctx own chain client)
    {byte : Nat → UInt8} {region : Nat} (member : region ∈ chain)
    (before : ∀ address, byte address ≠ client.heap.byte address →
      (client.heap.region region).memory.address ≤ address ∧
      address < (client.heap.region region).memory.address +
        (client.heap.region region).offset) :
    Running backend start arena ctx own chain
      { client with heap := { client.heap with byte := byte } } :=
  ⟨running.facade, running.owns.setByte byte, running.holds.setByte member before,
    running.records, running.serial, running.returned⟩

/-- A client that writes inside a block it was given keeps the invariant. -/
theorem Running.write (running : Running backend start arena ctx own chain client)
    {block : Block} {address : Nat} (value : UInt8) (owned : block ∈ client.returned)
    (inside : block.Contains address) :
    Running backend start arena ctx own chain (client.write address value) := by
  obtain ⟨region, member, lower, upper⟩ := running.returned block owned
  refine running.setByte member fun other different => ?_
  have same : other = address := by
    by_contra elsewhere
    exact different (Function.update_of_ne elsewhere _ _)
  unfold Block.Contains at inside
  omega

/-- The regions of the chain are the regions the arena owns. -/
theorem Running.ownedRegion_iff (running : Running backend start arena ctx own chain client)
    {region : Nat} : client.heap.OwnedRegion arena region ↔ region ∈ chain := by
  have owns := running.owns
  unfold Heap.OwnedRegion
  rw [running.facade]
  cases backend with
  | rpmalloc => exact owns.elim
  | fixedregion size =>
    rw [show chain = [ctx] from owns, List.mem_singleton]
    rfl
  | bump =>
    refine ⟨?_, fun member => ⟨chain, owns.linked, member⟩⟩
    rintro ⟨other, linked, member⟩
    rw [owns.linked.unique linked]
    exact member

/-- A block that was returned lies in a live block. -/
theorem Running.returned_live (running : Running backend start arena ctx own chain client)
    {block : Block} (owned : block ∈ client.returned) {address : Nat}
    (inside : block.Contains address) :
    ∃ entry ∈ client.heap.live, entry.block.Contains address := by
  obtain ⟨region, member, lower, upper⟩ := running.returned block owned
  obtain ⟨entry, entryMember, same⟩ := running.holds.memory_live member
  have cursor := running.holds.offset_le region member
  refine ⟨entry, entryMember, ?_⟩
  rw [same]
  unfold Block.Contains at inside ⊢
  omega

/-! ### One call -/

/-- The aligned allocation of a running arena. -/
theorem Running.alignedAlloc (running : Running backend start arena ctx own chain client)
    (rp : Rpmalloc) {alignment : Nat} (valid : validAlignment alignment = true) (word : alignment < 2 ^ 64)
    (size : Nat) :
    Outcome (backend.Owns ctx) client.heap chain (own ++ start.live) alignment size
      (backend.vtable.alignedAllocImpl rp (some ctx) alignment size client.heap) := by
  have owns := running.owns
  cases backend with
  | rpmalloc => exact owns.elim
  | fixedregion regionSize =>
    have member : ctx ∈ chain := by
      rw [show chain = [ctx] from owns]
      exact List.mem_singleton_self ctx
    rcases fixedRegionAlignedAlloc_cases running.holds member valid word size with
      failed | ⟨pointer, placed, allocated, spec, granted, holds⟩
    · exact Or.inl ⟨_, failed, Refused.refl running.holds.ok⟩
    · exact Or.inr ⟨pointer, _, chain, allocated, granted, holds, owns, rfl, le_rfl⟩
  | bump => exact bumpAlignedAlloc_outcome rp running.holds owns valid word

/-- A call that starts from no block is an aligned allocation, or fails at once. -/
theorem Running.perform_fresh (running : Running backend start arena ctx own chain client)
    (rp : Rpmalloc) {call : Call} (admissible : client.Admissible call) (fresh : call.previous = none) :
    call.perform rp arena client.heap = some (none, client.heap) ∨
      call.perform rp arena client.heap =
        backend.vtable.alignedAllocImpl rp (some ctx) call.alignment call.size client.heap := by
  have owns := running.owns
  have valid := admissible.alignment.1
  cases call with
  | realloc pointer size oldSize => cases fresh
  | alignedRealloc pointer alignment size oldSize => cases fresh
  | alloc size =>
    refine Or.inr ?_
    simp only [Call.perform, running.facade]
    cases backend <;> first | exact owns.elim | rfl
  | free pointer =>
    refine Or.inl ?_
    simp only [Call.perform, running.facade]
    cases backend <;> first | exact owns.elim | rfl
  | alignedAlloc alignment size =>
    refine Or.inr ?_
    simp only [Call.alignment] at valid
    simp only [Call.perform, running.facade]
    rw [if_pos valid]
    rfl
  | calloc count size =>
    simp only [Call.perform, running.facade]
    by_cases overflow : productOverflows count size = true
    · refine Or.inl ?_
      cases backend <;> first | exact owns.elim | exact if_pos overflow
    · refine Or.inr ?_
      cases backend <;> first | exact owns.elim | exact if_neg overflow
  | alignedCalloc alignment count size =>
    simp only [Call.perform, running.facade]
    rw [if_pos ⟨valid, admissible.objects alignment count size rfl⟩]
    by_cases overflow : productOverflows count size = true
    · refine Or.inl ?_
      cases backend <;> first | exact owns.elim | exact if_pos overflow
    · refine Or.inr ?_
      cases backend <;> first | exact owns.elim | exact if_neg overflow

/-- A call that starts from a block is the reallocation of the region backends. -/
theorem Running.perform_realloc (running : Running backend start arena ctx own chain client)
    (rp : Rpmalloc) {call : Call} (admissible : client.Admissible call) {pointer : Option Nat} {oldSize : Nat}
    (previous : call.previous = some (pointer, oldSize)) :
    call.perform rp arena client.heap =
      regionAlignedRealloc (backend.vtable.alignedAllocImpl rp (some ctx) call.alignment)
        (some ctx) pointer call.size oldSize client.heap := by
  have owns := running.owns
  have valid := admissible.alignment.1
  cases call with
  | realloc pointer size oldSize =>
    cases previous
    simp only [Call.perform, running.facade]
    cases backend <;> first | exact owns.elim | rfl
  | alignedRealloc pointer alignment size oldSize =>
    cases previous
    simp only [Call.alignment] at valid
    simp only [Call.perform, running.facade]
    rw [if_pos valid]
    cases backend <;> first | exact owns.elim | rfl
  | _ => cases previous

/-- A refused call changes nothing. -/
theorem Running.unchanged (running : Running backend start arena ctx own chain client)
    {after : Heap} (refused : Refused client.heap after) :
    Unchanged arena client.heap after where
  region region owned :=
    running.holds.region_untouched refused.untouched region (running.ownedRegion_iff.mp owned)
  bump := refused.untouched.bump
  arena := refused.untouched.arena
  live := refused.live
  byte := refused.untouched.byte

/-- A refused call keeps the invariant. -/
theorem Running.refused (running : Running backend start arena ctx own chain client)
    {after : Heap} (refused : Refused client.heap after) :
    Running backend start arena ctx own chain { client with heap := after } := by
  have same := running.holds.region_untouched refused.untouched
  refine ⟨?_, ?_, running.holds.refused refused, running.records,
    running.serial.trans refused.serial, ?_⟩
  · rw [refused.untouched.arena]
    exact running.facade
  · have owns := running.owns
    cases backend with
    | rpmalloc => exact owns
    | fixedregion size => exact owns
    | bump => exact RegionList.refused owns running.holds refused
  · intro block member
    obtain ⟨region, regionMember, lower, upper⟩ := running.returned block member
    refine ⟨region, regionMember, ?_⟩
    rw [same region regionMember]
    exact ⟨lower, upper⟩

/-- A granted call keeps the invariant. -/
theorem Running.granted (running : Running backend start arena ctx own chain client)
    {after : Heap} {grown : List Nat} {alignment size pointer : Nat}
    (granted : Granted client.heap after chain grown alignment size pointer)
    (holds : Holds after grown (own ++ start.live)) (owns : backend.Owns ctx after grown)
    (facade : after.arena = client.heap.arena) (serial : client.heap.serial ≤ after.serial) :
    Running backend start arena ctx own grown
      { heap := after, returned := { address := pointer, size := size } :: client.returned } := by
  refine ⟨?_, owns, holds, running.records, running.serial.trans serial, ?_⟩
  · rw [facade]
    exact running.facade
  · intro block member
    rcases List.mem_cons.mp member with rfl | earlier
    · exact granted.region
    · obtain ⟨region, regionMember, lower, upper⟩ := running.returned block earlier
      obtain ⟨kept, memory, cursor⟩ := granted.kept region regionMember
      refine ⟨region, kept, ?_⟩
      rw [memory]
      exact ⟨lower, upper.trans (Nat.add_le_add_left cursor _)⟩

/-- A granted block is apart from the blocks returned before. -/
theorem Running.granted_apart (running : Running backend start arena ctx own chain client)
    {after : Heap} {grown : List Nat} {alignment size pointer : Nat}
    (granted : Granted client.heap after chain grown alignment size pointer) :
    ∀ other ∈ client.returned, Block.Disjoint { address := pointer, size := size } other := by
  intro other member
  obtain ⟨region, regionMember, lower, upper⟩ := running.returned other member
  have apart := granted.apart region regionMember
  unfold Block.Disjoint at apart ⊢
  dsimp only at apart ⊢
  omega

/-- A granted block is given out as promised. -/
theorem Running.given (running : Running backend start arena ctx own chain client)
    {after : Heap} {grown : List Nat} {alignment size pointer : Nat}
    (granted : Granted client.heap after chain grown alignment size pointer)
    (runningAfter : Running backend start arena ctx own grown
      { heap := after, returned := { address := pointer, size := size } :: client.returned }) :
    Given arena client.returned alignment { address := pointer, size := size } after := by
  obtain ⟨region, member, lower, upper⟩ := granted.region
  have cursor := runningAfter.holds.offset_le region member
  obtain ⟨entry, entryMember, same⟩ := runningAfter.holds.memory_live member
  have positive := (runningAfter.holds.ok.bounded entry entryMember).1
  rw [same] at positive
  refine ⟨?_, ⟨region, runningAfter.ownedRegion_iff.mpr member, lower, ?_⟩,
    running.granted_apart granted, fun nonzero => ?_⟩
  · exact Nat.lt_of_lt_of_le positive lower
  · dsimp only at cursor ⊢
    omega
  · have dvd := granted.dvd
    rwa [placedAlignment, if_neg nonzero] at dvd

/-- A granted call leaves the blocks returned before as they were. -/
theorem Running.granted_stable (running : Running backend start arena ctx own chain client)
    {after : Heap} {grown : List Nat} {alignment size pointer : Nat}
    (granted : Granted client.heap after chain grown alignment size pointer) :
    ∀ block ∈ client.returned, ∀ address, block.Contains address →
      after.byte address = client.heap.byte address := by
  intro block member address inside
  obtain ⟨entry, entryMember, contains⟩ := running.returned_live member inside
  exact granted.byte entry entryMember address contains

/-- A call that is refused meets its promise. -/
theorem Running.meets_refused (running : Running backend start arena ctx own chain client)
    {call : Call} {after : Heap} (refused : Refused client.heap after)
    (growing : ∀ old oldSize, call.previous = some (old, oldSize) → oldSize < call.size) :
    call.Meets arena client none after := by
  refine ⟨fun _ => running.unchanged refused, ?_, ?_, ?_, ?_⟩
  · intro _ pointer impossible
    cases impossible
  · intro _ _ _ _ pointer impossible
    cases impossible
  · intro old oldSize previous small
    exact absurd (growing old oldSize previous) (Nat.not_lt.mpr small)
  · intro block member address inside
    obtain ⟨entry, entryMember, contains⟩ := running.returned_live member inside
    exact refused.untouched.byte entry entryMember address contains

/-- A call that starts from no block is answered as promised. -/
theorem Running.call_fresh (running : Running backend start arena ctx own chain client)
    (rp : Rpmalloc) {call : Call} (admissible : client.Admissible call) (previous : call.previous = none) :
    ∃ result after, call.perform rp arena client.heap = some (result, after) ∧
      call.Meets arena client result after ∧
      ∃ grown, Running backend start arena ctx own grown (client.receive call result after) := by
  obtain ⟨valid, word⟩ := admissible.alignment
  have noOld (block : Option Nat × Nat) : call.previous ≠ some block := by
    rw [previous]
    exact (Option.some_ne_none block).symm
  have refusedCall (after : Heap) (refused : Refused client.heap after) :
      call.Meets arena client none after ∧
        ∃ grown, Running backend start arena ctx own grown (client.receive call none after) :=
    ⟨running.meets_refused refused fun _ _ impossible => absurd impossible (noOld _), chain,
      running.refused refused⟩
  rcases running.perform_fresh rp admissible previous with atOnce | allocated
  · exact ⟨none, client.heap, atOnce, refusedCall _ (Refused.refl running.holds.ok)⟩
  · rw [allocated]
    rcases running.alignedAlloc rp valid word call.size with
      ⟨after, result, refused⟩ |
      ⟨pointer, after, grown, result, granted, holds, owns, facade, serial⟩
    · exact ⟨none, after, result, refusedCall after refused⟩
    · have runningAfter := running.granted granted holds owns facade serial
      refine ⟨some pointer, after, result, ⟨?_, ?_, ?_, ?_, running.granted_stable granted⟩, grown,
        runningAfter⟩
      · intro impossible
        cases impossible
      · rintro - _ ⟨⟩
        exact ⟨running.given granted runningAfter, fun index small =>
          granted.zero _ (Nat.le_add_right _ _) (Nat.add_lt_add_left small _)⟩
      · exact fun _ _ impossible => absurd impossible (noOld _)
      · exact fun _ _ impossible => absurd impossible (noOld _)

/-- Copying into the block that was just given out keeps the invariant. -/
theorem Running.memcpy (running : Running backend start arena ctx own chain client)
    {pointer size count : Nat} (source : Nat) (small : count ≤ size)
    (newest : { address := pointer, size := size } ∈ client.returned) :
    Running backend start arena ctx own chain
      { client with heap := client.heap.memcpy pointer source count } := by
  obtain ⟨region, member, lower, upper⟩ := running.returned _ newest
  refine running.setByte member fun address different => ?_
  dsimp only at lower upper
  by_cases copied : pointer ≤ address ∧ address < pointer + count
  · omega
  · exact absurd (if_neg copied) different

/-- A reallocation that grows meets its promise. -/
theorem Call.meets_grown {call : Call} {old : Option Nat} {oldSize pointer : Nat} {after : Heap}
    (previous : call.previous = some (old, oldSize)) (growing : oldSize < call.size)
    (given : Given arena client.returned call.alignment
      { address := pointer, size := call.size } after)
    (copied : ∀ source, old = some source → ∀ index < oldSize,
      after.byte (pointer + index) = client.heap.byte (source + index))
    (zeros : ∀ index, oldSize ≤ index → index < call.size → after.byte (pointer + index) = 0)
    (stable : ∀ block ∈ client.returned, ∀ address, block.Contains address →
      after.byte address = client.heap.byte address) :
    call.Meets arena client (some pointer) after := by
  refine ⟨?_, ?_, ?_, ?_, stable⟩
  · intro impossible
    cases impossible
  · exact fun impossible => absurd (previous.symm.trans impossible) (Option.some_ne_none _)
  · intro _ _ same _ _ result
    cases previous.symm.trans same
    cases result
    exact ⟨given, copied, zeros⟩
  · intro _ _ same small
    cases previous.symm.trans same
    exact absurd growing (Nat.not_lt.mpr small)

/-- A reallocation is answered as promised. -/
theorem Running.call_realloc (running : Running backend start arena ctx own chain client)
    (rp : Rpmalloc) {call : Call} (admissible : client.Admissible call) {old : Option Nat} {oldSize : Nat}
    (previous : call.previous = some (old, oldSize)) :
    ∃ result after, call.perform rp arena client.heap = some (result, after) ∧
      call.Meets arena client result after ∧
      ∃ grown, Running backend start arena ctx own grown (client.receive call result after) := by
  obtain ⟨valid, word⟩ := admissible.alignment
  have origin := admissible.previous old oldSize previous
  have notNull : ¬ (old = none ∧ oldSize ≠ 0) := by
    rintro ⟨null, nonzero⟩
    rcases origin with ⟨-, zero⟩ | ⟨address, equal, -⟩
    · exact nonzero zero
    · exact absurd (null.symm.trans equal) (Option.some_ne_none address).symm
  rw [running.perform_realloc rp admissible previous]
  unfold regionAlignedRealloc
  dsimp only
  rw [if_neg notNull]
  by_cases small : call.size ≤ oldSize
  · rw [if_pos small]
    refine ⟨old, client.heap, rfl, ⟨?_, ?_, ?_, ?_, fun _ _ _ _ => rfl⟩, chain, ?_⟩
    · exact fun _ => running.unchanged (Refused.refl running.holds.ok)
    · exact fun impossible => absurd (previous.symm.trans impossible) (Option.some_ne_none _)
    · intro _ _ same growing
      cases previous.symm.trans same
      exact absurd growing (Nat.not_lt.mpr small)
    · intro _ _ same _
      cases previous.symm.trans same
      exact ⟨rfl, rfl⟩
    · cases old with
      | none => exact running
      | some address =>
        refine ⟨running.facade, running.owns, running.holds, running.records, running.serial, ?_⟩
        intro block member
        rcases List.mem_cons.mp member with rfl | earlier
        · rcases origin with ⟨impossible, -⟩ | ⟨_, ⟨⟩, owned⟩
          · cases impossible
          · obtain ⟨region, regionMember, lower, upper⟩ := running.returned _ owned
            exact ⟨region, regionMember, lower, le_trans (Nat.add_le_add_left small _) upper⟩
        · exact running.returned block earlier
  · rw [if_neg small]
    have growing : oldSize < call.size := Nat.not_le.mp small
    rcases running.alignedAlloc rp valid word call.size with
      ⟨after, result, refused⟩ |
      ⟨pointer, after, grown, result, granted, holds, owns, facade, serial⟩
    · rw [result]
      refine ⟨none, after, rfl, running.meets_refused refused ?_, chain, running.refused refused⟩
      intro _ _ same
      cases previous.symm.trans same
      exact growing
    · rw [result]
      have runningAfter := running.granted granted holds owns facade serial
      have given := running.given granted runningAfter
      have stable := running.granted_stable granted
      have zeros (index : Nat) (inside : index < call.size) : after.byte (pointer + index) = 0 :=
        granted.zero _ (Nat.le_add_right _ _) (Nat.add_lt_add_left inside _)
      rcases origin with ⟨rfl, rfl⟩ | ⟨source, rfl, owned⟩
      · refine ⟨some pointer, after, rfl, Call.meets_grown previous growing given ?_ ?_ stable,
          grown, runningAfter⟩
        · exact fun _ _ index impossible => absurd impossible (Nat.not_lt_zero index)
        · exact fun index _ inside => zeros index inside
      · by_cases empty : oldSize = 0
        · refine ⟨some pointer, after, ?_,
            Call.meets_grown previous growing given ?_ ?_ stable, grown, runningAfter⟩
          · simp [empty]
          · rw [empty]
            exact fun _ _ index impossible => absurd impossible (Nat.not_lt_zero index)
          · exact fun index _ inside => zeros index inside
        · have copied := runningAfter.memcpy source growing.le List.mem_cons_self
          refine ⟨some pointer, after.memcpy pointer source oldSize, ?_,
            Call.meets_grown previous growing ?_ ?_ ?_ ?_, grown, copied⟩
          · simp [empty]
          · exact ⟨given.nonnull, given.inside, given.apart, given.aligned⟩
          · rintro _ ⟨⟩ index inside
            have moved : (after.memcpy pointer source oldSize).byte (pointer + index) =
                after.byte (source + (pointer + index - pointer)) :=
              if_pos ⟨Nat.le_add_right _ _, Nat.add_lt_add_left inside _⟩
            rw [moved, Nat.add_sub_cancel_left]
            exact stable _ owned _ ⟨Nat.le_add_right _ _, Nat.add_lt_add_left inside _⟩
          · intro index above inside
            rw [← zeros index inside]
            exact if_neg fun range => Nat.not_lt.mpr above (Nat.lt_of_add_lt_add_left range.2)
          · intro block member address inside
            rw [← stable block member address inside]
            have apart := (given.apart block member).symm.not_contains inside
            exact if_neg fun range => apart
              ⟨range.1, Nat.lt_of_lt_of_le range.2 (Nat.add_le_add_left growing.le _)⟩

/-- A call of a running arena is answered as promised, and the arena keeps running. -/
theorem Running.call (running : Running backend start arena ctx own chain client)
    (rp : Rpmalloc) {call : Call} (admissible : client.Admissible call) :
    ∃ result after, call.perform rp arena client.heap = some (result, after) ∧
      call.Meets arena client result after ∧
      ∃ grown, Running backend start arena ctx own grown (client.receive call result after) := by
  cases previous : call.previous with
  | none => exact running.call_fresh rp admissible previous
  | some block => exact running.call_realloc rp admissible previous

end

/-! ### Whole runs -/

/-- The invariant holds in every state of every run. -/
theorem Reachable.running {rp : Rpmalloc} {backend : Backend} (region : backend ≠ .rpmalloc)
    {start : Heap} (ok : start.Ok) {arena : Nat} {client : Client}
    (reachable : Reachable rp backend start arena client) :
    ∃ ctx own chain, Running backend start arena ctx own chain client := by
  induction reachable with
  | create created =>
    rcases arenaCreate_cases rp region ok with ⟨after, failed, -⟩ |
      ⟨other, after, ctx, own, chain, made, running⟩
    · cases created.symm.trans failed
    · cases created.symm.trans made
      exact ⟨ctx, own, chain, running⟩
  | call reachable admissible performed inductionHypothesis =>
    obtain ⟨ctx, own, chain, running⟩ := inductionHypothesis
    obtain ⟨result, after, same, -, grown, runningAfter⟩ := running.call rp admissible
    cases performed.symm.trans same
    exact ⟨ctx, own, grown, runningAfter⟩
  | write value reachable owned inside inductionHypothesis =>
    obtain ⟨ctx, own, chain, running⟩ := inductionHypothesis
    exact ⟨ctx, own, chain, running.write value owned inside⟩

/-- In every run of a fixed-region or a bump arena every call is answered as promised. -/
theorem regionArena_call_meets (rp : Rpmalloc) {backend : Backend} (region : backend ≠ .rpmalloc)
    {start : Heap} (ok : start.Ok) {arena : Nat} {client : Client}
    (reachable : Reachable rp backend start arena client) {call : Call}
    (admissible : client.Admissible call) :
    ∃ result after, call.perform rp arena client.heap = some (result, after) ∧
      call.Meets arena client result after := by
  obtain ⟨ctx, own, chain, running⟩ := reachable.running region ok
  obtain ⟨result, after, performed, meets, -⟩ := running.call rp admissible
  exact ⟨result, after, performed, meets⟩

/-- The bump arena made in an empty heap, as the stack allocator places it. -/
def Client.firstBump : Client :=
  { heap := (arenaCreate stackRpmalloc .bump Heap.empty).2, returned := [] }

theorem Client.firstBump_reachable :
    Reachable stackRpmalloc .bump Heap.empty 16 Client.firstBump :=
  Reachable.create rfl

theorem regionArena_call_meets_first_bump :
    ∃ result after, (Call.alignedAlloc 64 100).perform stackRpmalloc 16 Client.firstBump.heap =
        some (result, after) ∧
      (Call.alignedAlloc 64 100).Meets 16 Client.firstBump result after :=
  regionArena_call_meets stackRpmalloc (by decide) Heap.empty_ok Client.firstBump_reachable
    (Client.admissible_alignedAlloc _ (by decide) (by decide) 100)

/-! ### Destruction -/

/-- A chain has no more regions than there are live blocks. -/
theorem Holds.length_le {heap : Heap} {chain : List Nat} {others : List LiveBlock}
    (holds : Holds heap chain others) : chain.length ≤ heap.live.length := by
  have records : chain ⊆ heap.live.map fun entry => entry.block.address := by
    intro region member
    obtain ⟨entry, entryMember, same⟩ := holds.record_live member
    exact List.mem_map.mpr ⟨entry, entryMember, same⟩
  rw [← List.length_map (f := fun entry : LiveBlock => entry.block.address)]
  exact (List.subperm_of_subset holds.nodup records).length_le

/-- Destroying a running arena leaves the live blocks there were before its creation. -/
theorem Running.destroy {backend : Backend} {start : Heap} {arena ctx : Nat}
    {own : List LiveBlock} {chain : List Nat} {client : Client}
    (running : Running backend start arena ctx own chain client) :
    ∃ final, arenaDestroy (some arena) client.heap = some final ∧ final.Ok ∧
      final.live.Perm start.live ∧ final.serial = client.heap.serial := by
  have owns := running.owns
  have records := running.records
  have holds := running.holds.setArena arena { vtable := none, ctx := none }
  obtain ⟨owned, perm, map⟩ := holds.live
  unfold arenaDestroy
  simp only [running.facade]
  cases backend with
  | rpmalloc => exact owns.elim
  | fixedregion size =>
    rw [show chain = [ctx] from owns, List.flatMap_singleton] at map
    obtain ⟨record, buffer, pair⟩ : ∃ record buffer, owned = [record, buffer] := by
      refine List.length_eq_two.mp ?_
      rw [← List.length_map (f := LiveBlock.block), map]
      rfl
    obtain ⟨facade, single, block⟩ := List.map_eq_singleton_iff.mp records
    rw [pair, single] at perm
    rw [pair] at map
    obtain ⟨ok, live, -, -, -, -, serial⟩ := fixedRegionArenaDestroy_spec holds.ok perm map
    obtain ⟨okFinal, liveFinal, serialFinal⟩ :=
      rpfree_spec ok live arena (by rw [block])
    exact ⟨_, rfl, okFinal, liveFinal, serialFinal.trans serial⟩
  | bump =>
    obtain ⟨after, destroyed, ok, live, serial⟩ :=
      bumpDestroyLoop_spec client.heap.live.length holds.ok
        (owns.linked.congr fun _ _ => rfl) perm map running.holds.length_le
    obtain ⟨allocator, facade, split, allocatorBlock, facadeBlock⟩ :
        ∃ allocator facade, own = [allocator, facade] ∧
          allocator.block = { address := ctx, size := BumpAllocator.sizeof } ∧
          facade.block = { address := arena, size := Arena.sizeof } := by
      obtain ⟨allocator, facade, split⟩ := List.length_eq_two.mp
        ((List.length_map (f := LiveBlock.block)).symm.trans (congrArg List.length records))
      rw [split] at records
      simp only [List.map_cons, List.map_nil, Backend.records, List.cons.injEq, and_true] at records
      exact ⟨allocator, facade, split, records.1, records.2⟩
    rw [split] at live
    obtain ⟨okFirst, liveFirst, serialFirst⟩ :=
      rpfree_spec ok live ctx (by rw [allocatorBlock])
    obtain ⟨okFinal, liveFinal, serialFinal⟩ :=
      rpfree_spec okFirst liveFirst arena (by rw [facadeBlock])
    refine ⟨rpfree arena (rpfree ctx after), ?_, okFinal, liveFinal,
      serialFinal.trans (serialFirst.trans serial)⟩
    show (bumpDestroy _ (some ctx) _).bind _ = _
    unfold bumpDestroy
    dsimp only
    rw [show ((client.heap.setArena arena { vtable := none, ctx := none }).bump ctx).head =
      (client.heap.bump ctx).head from rfl, destroyed]
    rfl

/-- The list of a bump arena is well formed, and the live blocks that were obtained since a
start are the record and the buffer of each region of the list, once, and the two records of the
arena. -/
structure BumpWellFormed (start : Heap) (arena ctx : Nat) (chain : List Nat) (heap : Heap) :
    Prop where
  facade : heap.arena arena = { vtable := some .bump, ctx := some ctx }
  distinct : chain.Nodup
  linked : Chain.Linked (fun region => (heap.region region).next) (heap.bump ctx).head chain
  tail : (heap.bump ctx).tail = chain.getLast?
  current : ∀ region, (heap.bump ctx).current = some region →
    region ∈ chain ∧ (heap.region region).memory.size = 8192
  offset_le : ∀ region ∈ chain, (heap.region region).offset ≤ (heap.region region).memory.size
  live : ∃ obtained, heap.live.Perm (obtained ++ start.live) ∧
    obtained.map LiveBlock.block = chain.flatMap (regionBlocks heap) ++
      [{ address := ctx, size := BumpAllocator.sizeof },
        { address := arena, size := Arena.sizeof }]

/-- A running bump arena is well formed. -/
theorem Running.bumpWellFormed {start : Heap} {arena ctx : Nat} {own : List LiveBlock}
    {chain : List Nat} {client : Client}
    (running : Running .bump start arena ctx own chain client) :
    BumpWellFormed start arena ctx chain client.heap := by
  have list : RegionList client.heap ctx chain := running.owns
  refine ⟨running.facade, running.holds.nodup, list.linked, list.tail, list.current,
    running.holds.offset_le, ?_⟩
  obtain ⟨owned, perm, map⟩ := running.holds.live
  refine ⟨owned ++ own, ?_, ?_⟩
  · rw [List.append_assoc]
    exact perm
  · rw [List.map_append, map, running.records]
    rfl

end LaserD.Memory
