/-
This file is the region list of the bump backend.

The list runs from the head to the tail of the allocator along the links of the
regions, and the current region is one of it of the ordinary size. A request is
served by the current region, by a new ordinary region that becomes current, or
by a region of its own; each new region is linked behind the tail. A region that
was made in vain is destroyed again, so that a refused request leaves the list
and every live block as they were.

Destroying the list takes the record and the buffer of each region out of the
live blocks, once.
-/

import LaserD.Memory.Regions

namespace LaserD.Memory

/-! ### The region list -/

/-- The regions of a chain are linked from the head to the tail of a bump allocator, and its
current region is one of them, of the ordinary size. -/
structure RegionList (heap : Heap) (allocator : Nat) (chain : List Nat) : Prop where
  linked : Chain.Linked (fun region => (heap.region region).next) (heap.bump allocator).head chain
  tail : (heap.bump allocator).tail = chain.getLast?
  current : ∀ region, (heap.bump allocator).current = some region →
    region ∈ chain ∧ (heap.region region).memory.size = bumpRegionSize

/-- A heap with the same allocator, links and buffers has the same list. -/
theorem RegionList.congr {before after : Heap} {allocator : Nat} {chain : List Nat}
    (list : RegionList before allocator chain)
    (bump : after.bump allocator = before.bump allocator)
    (next : ∀ region ∈ chain, (after.region region).next = (before.region region).next)
    (memory : ∀ region ∈ chain, (after.region region).memory = (before.region region).memory) :
    RegionList after allocator chain := by
  refine ⟨?_, ?_, ?_⟩
  · rw [bump]
    exact list.linked.congr next
  · rw [bump]
    exact list.tail
  · intro region same
    rw [bump] at same
    obtain ⟨member, size⟩ := list.current region same
    rw [memory region member]
    exact ⟨member, size⟩

/-- A refused request keeps the list. -/
theorem RegionList.refused {before after : Heap} {allocator : Nat} {chain : List Nat}
    {others : List LiveBlock} (list : RegionList before allocator chain)
    (holds : Holds before chain others) (refused : Refused before after) :
    RegionList after allocator chain := by
  have same := holds.region_untouched refused.untouched
  refine list.congr ?_ ?_ ?_
  · rw [refused.untouched.bump]
  · intro region member
    rw [same region member]
  · intro region member
    rw [same region member]

/-! ### Linking a region -/

/-- Only links and allocator records differ. -/
structure Relinked (before after : Heap) : Prop where
  byte : after.byte = before.byte
  memory : ∀ region, (after.region region).memory = (before.region region).memory
  offset : ∀ region, (after.region region).offset = (before.region region).offset
  arena : after.arena = before.arena
  live : after.live = before.live
  serial : after.serial = before.serial
  freed : after.freed = before.freed
  wild : after.wild = before.wild

theorem Relinked.trans {first second third : Heap} (left : Relinked first second)
    (right : Relinked second third) : Relinked first third where
  byte := right.byte.trans left.byte
  memory region := (right.memory region).trans (left.memory region)
  offset region := (right.offset region).trans (left.offset region)
  arena := right.arena.trans left.arena
  live := right.live.trans left.live
  serial := right.serial.trans left.serial
  freed := right.freed.trans left.freed
  wild := right.wild.trans left.wild

/-- A record of a bump allocator may be replaced. -/
theorem relinked_setBump (heap : Heap) (allocator : Nat) (bump : BumpAllocator) :
    Relinked heap (heap.setBump allocator bump) :=
  ⟨rfl, fun _ => rfl, fun _ => rfl, rfl, rfl, rfl, rfl, rfl⟩

/-- A link of a region may be replaced. -/
theorem relinked_setRegion (heap : Heap) (region : Nat) (next : Option Nat) :
    Relinked heap (heap.setRegion region { heap.region region with next := next }) := by
  refine ⟨rfl, fun other => ?_, fun other => ?_, rfl, rfl, rfl, rfl, rfl⟩
  · show (Function.update heap.region region _ other).memory = (heap.region other).memory
    by_cases same : other = region
    · rw [same, Function.update_self]
    · rw [Function.update_of_ne same]
  · show (Function.update heap.region region _ other).offset = (heap.region other).offset
    by_cases same : other = region
    · rw [same, Function.update_self]
    · rw [Function.update_of_ne same]

/-- Linking keeps the regions an arena holds. -/
theorem Holds.relinked {before after : Heap} {chain : List Nat} {others : List LiveBlock}
    (holds : Holds before chain others) (relinked : Relinked before after) :
    Holds after chain others := by
  refine ⟨⟨?_, ?_, ?_, ?_, ?_⟩, holds.nodup, ?_, ?_, ?_⟩
  · rw [relinked.live]
    exact holds.ok.addresses
  · rw [relinked.live]
    exact holds.ok.disjoint
  · rw [relinked.live]
    exact holds.ok.bounded
  · rw [relinked.live, relinked.freed, relinked.serial]
    exact holds.ok.serials
  · rw [relinked.wild]
    exact holds.ok.tame
  · obtain ⟨owned, perm, map⟩ := holds.live
    refine ⟨owned, ?_, map.trans ?_⟩
    · rw [relinked.live]
      exact perm
    · refine List.flatMap_congr fun region _ => ?_
      rw [regionBlocks, regionBlocks, relinked.memory region]
  · intro region member
    rw [relinked.offset region, relinked.memory region]
    exact holds.offset_le region member
  · intro region member address lower upper
    rw [relinked.memory region, relinked.offset region] at lower
    rw [relinked.memory region] at upper
    rw [relinked.byte]
    exact holds.clean region member address lower upper

/-- Linking keeps what a granted request has done. -/
theorem Granted.relinked {before middle after : Heap} {chain grown : List Nat}
    {alignment size pointer : Nat}
    (granted : Granted before middle chain grown alignment size pointer)
    (relinked : Relinked middle after) :
    Granted before after chain grown alignment size pointer := by
  obtain ⟨region, member, lower, upper⟩ := granted.region
  refine ⟨⟨region, member, ?_, ?_⟩, ?_, granted.apart, ?_, ?_, granted.dvd⟩
  · rw [relinked.memory region]
    exact lower
  · rw [relinked.memory region, relinked.offset region]
    exact upper
  · intro other otherMember
    rw [relinked.memory other, relinked.offset other]
    exact granted.kept other otherMember
  · rw [relinked.byte]
    exact granted.zero
  · rw [relinked.byte]
    exact granted.byte

/-- A region that ends nowhere is linked behind the tail. -/
theorem bumpAppendRegion_spec {heap : Heap} {allocator region : Nat} {chain : List Nat}
    (list : RegionList heap allocator chain) (nodup : (chain ++ [region]).Nodup)
    (ends : (heap.region region).next = none) :
    ∃ after, bumpAppendRegion allocator region heap = some after ∧
      RegionList after allocator (chain ++ [region]) ∧ Relinked heap after := by
  unfold bumpAppendRegion
  rw [if_neg (fun some => some ends)]
  dsimp only
  have fresh : region ∉ chain := fun member =>
    (List.nodup_append.mp nodup).2.2 region member region (List.mem_singleton_self region) rfl
  rcases List.eq_nil_or_concat chain with empty | ⟨front, last, whole⟩
  · have noTail : (heap.bump allocator).tail = none := by rw [list.tail, empty, List.getLast?_nil]
    rw [noTail]
    refine ⟨_, rfl, ⟨?_, ?_, ?_⟩, relinked_setBump _ _ _⟩
    · simp only [Heap.setBump, Function.update_self, empty, List.nil_append]
      exact ⟨rfl, ends⟩
    · simp only [Heap.setBump, Function.update_self, empty, List.nil_append,
        List.getLast?_singleton]
    · intro other same
      simp only [Heap.setBump, Function.update_self] at same
      obtain ⟨member, size⟩ := list.current other same
      exact ⟨List.mem_append_left _ member, size⟩
  · rw [List.concat_eq_append] at whole
    have hasTail : (heap.bump allocator).tail = some last := by
      rw [list.tail, whole, List.getLast?_concat]
    rw [hasTail]
    have relinked := (relinked_setRegion heap last (some region)).trans
      (relinked_setBump (heap.setRegion last { heap.region last with next := some region })
        allocator { heap.bump allocator with tail := some region })
    refine ⟨_, rfl, ⟨?_, ?_, ?_⟩, relinked⟩
    · have linked := list.linked
      rw [whole] at linked fresh nodup
      have appended := linked.append (List.nodup_append.mp nodup).1 fresh ends
      rw [whole]
      simp only [Heap.setBump, Function.update_self]
      refine appended.congr fun node _ => ?_
      show (Function.update heap.region last _ node).next =
        Function.update (fun region => (heap.region region).next) last (some region) node
      by_cases same : node = last
      · rw [same, Function.update_self, Function.update_self]
      · rw [Function.update_of_ne same, Function.update_of_ne same]
    · simp only [Heap.setBump, Function.update_self, List.getLast?_concat]
    · intro other same
      simp only [Heap.setBump, Function.update_self] at same
      obtain ⟨member, size⟩ := list.current other same
      refine ⟨List.mem_append_left _ member, ?_⟩
      rw [relinked.memory other]
      exact size

/-! ### A region made for a request -/

/-- A region made for a request is not one of the chain. -/
theorem Holds.made_nodup {before after : Heap} {chain : List Nat} {others : List LiveBlock}
    {size region : Nat} (holds : Holds before chain others)
    (made : Made before after size region) : (chain ++ [region]).Nodup := by
  obtain ⟨record, buffer, live, blocks⟩ := made.live
  rw [regionBlocks, List.cons.injEq] at blocks
  refine List.nodup_append.mpr ⟨holds.nodup, List.nodup_singleton region, ?_⟩
  intro first firstMember second secondMember same
  rw [List.mem_singleton] at secondMember
  obtain ⟨entry, entryMember, address⟩ := holds.record_live firstMember
  have addresses := made.ok.addresses
  rw [live, List.map_cons, List.map_cons, List.nodup_cons, List.nodup_cons] at addresses
  refine addresses.2.1 (List.mem_map.mpr ⟨entry, entryMember, ?_⟩)
  rw [address, same, secondMember, blocks.1]

/-- The regions are those there were and the one made. -/
theorem Holds.made {before after : Heap} {chain : List Nat} {others : List LiveBlock}
    {size region : Nat} (holds : Holds before chain others)
    (made : Made before after size region) : Holds after (chain ++ [region]) others := by
  have same := holds.region_untouched made.untouched
  refine ⟨made.ok, holds.made_nodup made, ?_, ?_, ?_⟩
  · obtain ⟨owned, perm, map⟩ := holds.live
    obtain ⟨record, buffer, live, blocks⟩ := made.live
    refine ⟨owned ++ [record, buffer], ?_, ?_⟩
    · rw [live, List.append_assoc]
      have moved : (buffer :: record :: (owned ++ others)).Perm
          (owned ++ ([record, buffer] ++ others)) :=
        (List.Perm.swap _ _ _).trans
          (List.perm_append_comm_assoc [record, buffer] owned others)
      exact ((perm.cons record).cons buffer).trans moved
    · rw [List.map_append, List.flatMap_append, map, List.flatMap_singleton]
      refine congrArg₂ (· ++ ·) (List.flatMap_congr fun other member => ?_) blocks
      rw [regionBlocks, regionBlocks, same other member]
  · intro other member
    rcases List.mem_append.mp member with old | new
    · rw [same other old]
      exact holds.offset_le other old
    · rw [List.mem_singleton.mp new, made.record.1]
      exact Nat.zero_le _
  · intro other member address lower upper
    rcases List.mem_append.mp member with old | new
    · rw [same other old] at lower upper
      obtain ⟨entry, entryMember, block⟩ := holds.memory_live old
      rw [made.untouched.byte entry entryMember address (by
        rw [block]
        exact ⟨by omega, upper⟩)]
      exact holds.clean other old address lower upper
    · rw [List.mem_singleton.mp new] at lower upper
      exact made.zero address ⟨by omega, upper⟩

/-- A request granted after a region was made is granted. -/
theorem Granted.of_made {before middle after : Heap} {chain grown : List Nat}
    {others : List LiveBlock} {regionSize region alignment size pointer : Nat}
    (holds : Holds before chain others) (made : Made before middle regionSize region)
    (granted : Granted middle after (chain ++ [region]) grown alignment size pointer) :
    Granted before after chain grown alignment size pointer := by
  have same := holds.region_untouched made.untouched
  refine ⟨granted.region, ?_, ?_, granted.zero, ?_, granted.dvd⟩
  · intro other member
    have kept := granted.kept other (List.mem_append_left _ member)
    rw [same other member] at kept
    exact kept
  · intro other member
    have apart := granted.apart other (List.mem_append_left _ member)
    rw [same other member] at apart
    exact apart
  · intro entry member address inside
    obtain ⟨record, buffer, live, -⟩ := made.live
    have kept : entry ∈ middle.live := by
      rw [live]
      exact List.mem_cons_of_mem _ (List.mem_cons_of_mem _ member)
    rw [granted.byte entry kept address inside]
    exact made.untouched.byte entry member address inside

/-- Destroying a region that was made in vain is a refusal. -/
theorem refused_of_made {before middle : Heap} {size region : Nat}
    (made : Made before middle size region) :
    Refused before (fixedRegionArenaDestroy (some region) middle) := by
  obtain ⟨record, buffer, live, blocks⟩ := made.live
  have perm : middle.live.Perm (record :: buffer :: before.live) := by
    rw [live]
    exact List.Perm.swap _ _ _
  obtain ⟨ok, liveAfter, byte, regions, bump, arena, serial⟩ :=
    fixedRegionArenaDestroy_spec made.ok perm blocks
  refine ⟨liveAfter, ⟨?_, ?_, bump.trans made.untouched.bump, arena.trans made.untouched.arena⟩,
    made.serial.trans serial.ge, ok⟩
  · rw [byte]
    exact made.untouched.byte
  · rw [regions]
    exact made.untouched.region

section

variable {heap : Heap} {allocator : Nat} {chain : List Nat} {others : List LiveBlock}
  {alignment allocSize : Nat}

/-- Placing a request in a region keeps the list. -/
theorem RegionList.placed {region pointer : Nat} {placed : FixedRegionAllocator}
    (list : RegionList heap allocator chain)
    (spec : Placed (heap.region region) placed allocSize pointer) :
    RegionList (heap.setRegion region placed) allocator chain := by
  refine list.congr rfl (fun other _ => ?_) fun other _ => ?_
  · show (Function.update heap.region region placed other).next = (heap.region other).next
    by_cases same : other = region
    · rw [same, Function.update_self, spec.next]
    · rw [Function.update_of_ne same]
  · show (Function.update heap.region region placed other).memory = (heap.region other).memory
    by_cases same : other = region
    · rw [same, Function.update_self, spec.memory]
    · rw [Function.update_of_ne same]

/-- The newest region may become current when it has the ordinary size. -/
theorem RegionList.makeCurrent {region : Nat} (list : RegionList heap allocator (chain ++ [region]))
    (size : (heap.region region).memory.size = bumpRegionSize) :
    RegionList (heap.setBump allocator { heap.bump allocator with current := some region })
      allocator (chain ++ [region]) := by
  refine ⟨?_, ?_, ?_⟩
  · simp only [Heap.setBump, Function.update_self]
    exact list.linked
  · simp only [Heap.setBump, Function.update_self]
    exact list.tail
  · intro other same
    simp only [Heap.setBump, Function.update_self, Option.some.injEq] at same
    rw [← same]
    exact ⟨List.mem_append_right _ (List.mem_singleton_self region), size⟩

theorem bumpCreateRegionAndAllocate_outcome (rp : Rpmalloc) (holds : Holds heap chain others)
    (list : RegionList heap allocator chain) (valid : validAlignment alignment = true)
    (word : alignment < 2 ^ 64) (regionSize allocSize : Nat) (makeCurrent : Bool)
    (ordinary : makeCurrent = true → regionSize = bumpRegionSize) :
    Outcome (RegionList · allocator ·) heap chain others alignment allocSize
      (bumpCreateRegionAndAllocate rp allocator regionSize alignment allocSize makeCurrent heap) := by
  unfold bumpCreateRegionAndAllocate
  rcases fixedRegionArenaCreate_cases rp regionSize holds.ok with
    ⟨after, created, refused⟩ | ⟨region, middle, created, made⟩
  · rw [created]
    exact Or.inl ⟨after, rfl, refused⟩
  · rw [created]
    dsimp only
    have holdsMiddle := holds.made made
    have listMiddle : RegionList middle allocator chain := by
      have same := holds.region_untouched made.untouched
      refine list.congr ?_ ?_ ?_
      · rw [made.untouched.bump]
      · exact fun other member => by rw [same other member]
      · exact fun other member => by rw [same other member]
    rcases fixedRegionAlignedAlloc_cases holdsMiddle
        (List.mem_append_right _ (List.mem_singleton_self region)) valid word allocSize with
      failed | ⟨pointer, placed, allocated, spec, granted, holdsPlaced⟩
    · rw [failed]
      exact Or.inl ⟨_, rfl, refused_of_made made⟩
    · rw [allocated]
      have placedRecord : (middle.setRegion region placed).region region = placed :=
        Function.update_self ..
      obtain ⟨linkedHeap, appended, listLinked, relinked⟩ :=
        bumpAppendRegion_spec (listMiddle.placed spec) (holds.made_nodup made)
          (by rw [placedRecord, spec.next, made.record.2.1])
      have size : (linkedHeap.region region).memory.size = regionSize := by
        rw [relinked.memory region, placedRecord, spec.memory, made.record.2.2]
      have arena : linkedHeap.arena = heap.arena := relinked.arena.trans made.untouched.arena
      have serial : heap.serial ≤ linkedHeap.serial := by
        rw [relinked.serial]
        exact made.serial
      refine Or.inr ⟨pointer, ?_⟩
      simp only [Option.bind_eq_bind, Option.bind_some, appended]
      cases makeCurrent with
      | false =>
        exact ⟨linkedHeap, chain ++ [region], rfl, (granted.of_made holds made).relinked relinked,
          holdsPlaced.relinked relinked, listLinked, arena, serial⟩
      | true =>
        have current := relinked_setBump linkedHeap allocator
          { linkedHeap.bump allocator with current := some region }
        exact ⟨_, chain ++ [region], rfl,
          ((granted.of_made holds made).relinked relinked).relinked current,
          (holdsPlaced.relinked relinked).relinked current,
          listLinked.makeCurrent (size.trans (ordinary rfl)), arena, serial⟩

/-- A request that is tried again after a refusal. -/
theorem Outcome.of_refused {owns : Heap → List Nat → Prop} {after : Heap}
    {result : Option (Option Nat × Heap)} (holds : Holds heap chain others)
    (refused : Refused heap after)
    (outcome : Outcome owns after chain others alignment allocSize result) :
    Outcome owns heap chain others alignment allocSize result := by
  rcases outcome with ⟨final, equal, refusedAgain⟩ |
    ⟨pointer, final, grown, equal, granted, holdsFinal, ownsFinal, arena, serial⟩
  · exact Or.inl ⟨final, equal, refused.trans refusedAgain⟩
  · have same := holds.region_untouched refused.untouched
    refine Or.inr ⟨pointer, final, grown, equal, ⟨granted.region, ?_, ?_, granted.zero, ?_,
      granted.dvd⟩, holdsFinal, ownsFinal, arena.trans refused.untouched.arena,
      refused.serial.trans serial⟩
    · intro other member
      rw [← same other member]
      exact granted.kept other member
    · intro other member
      rw [← same other member]
      exact granted.apart other member
    · intro entry member address inside
      rw [granted.byte entry (refused.live.mem_iff.mpr member) address inside]
      exact refused.untouched.byte entry member address inside

/-- A backend that defaults the alignment before it asks a region. -/
theorem Outcome.of_placed {owns : Heap → List Nat → Prop} {result : Option (Option Nat × Heap)}
    (outcome : Outcome owns heap chain others (placedAlignment alignment) allocSize result) :
    Outcome owns heap chain others alignment allocSize result := by
  refine outcome.imp_right ?_
  rintro ⟨pointer, after, grown, equal, granted, kept⟩
  refine ⟨pointer, after, grown, equal, ⟨granted.region, granted.kept, granted.apart, granted.zero,
    granted.byte, ?_⟩, kept⟩
  rw [← placedAlignment_idem]
  exact granted.dvd

theorem bumpDedicatedAlloc_outcome (rp : Rpmalloc) (holds : Holds heap chain others)
    (list : RegionList heap allocator chain) (valid : validAlignment alignment = true)
    (word : alignment < 2 ^ 64) :
    Outcome (RegionList · allocator ·) heap chain others alignment allocSize
      (bumpDedicatedAlloc rp allocator alignment allocSize heap) := by
  unfold bumpDedicatedAlloc
  split
  · exact Or.inl ⟨heap, rfl, Refused.refl holds.ok⟩
  · exact bumpCreateRegionAndAllocate_outcome rp holds list valid word _ _ false
      fun impossible => Bool.noConfusion impossible

theorem bumpOrdinaryAlloc_outcome (rp : Rpmalloc) (holds : Holds heap chain others)
    (list : RegionList heap allocator chain) (valid : validAlignment alignment = true)
    (word : alignment < 2 ^ 64) :
    Outcome (RegionList · allocator ·) heap chain others alignment allocSize
      (bumpOrdinaryAlloc rp allocator alignment allocSize heap) := by
  unfold bumpOrdinaryAlloc
  split
  · have first := bumpCreateRegionAndAllocate_outcome rp holds list valid word bumpRegionSize
      allocSize true fun _ => rfl
    rcases first with ⟨after, equal, refused⟩ | ⟨pointer, after, grown, equal, served⟩
    · rw [equal]
      exact (bumpDedicatedAlloc_outcome rp (holds.refused refused) (list.refused holds refused)
        valid word).of_refused holds refused
    · rw [equal]
      exact Or.inr ⟨pointer, after, grown, rfl, served⟩
  · exact bumpDedicatedAlloc_outcome rp holds list valid word

/-- A request to the bump backend is granted with its list of regions kept, or refused. -/
theorem bumpAlignedAlloc_outcome (rp : Rpmalloc) (holds : Holds heap chain others)
    (list : RegionList heap allocator chain) (valid : validAlignment alignment = true)
    (word : alignment < 2 ^ 64) :
    Outcome (RegionList · allocator ·) heap chain others alignment allocSize
      (bumpAlignedAlloc rp (some allocator) alignment allocSize heap) := by
  unfold bumpAlignedAlloc
  dsimp only
  by_cases zero : allocSize = 0
  · rw [if_pos zero]
    exact Or.inl ⟨heap, rfl, Refused.refl holds.ok⟩
  · rw [if_neg zero, if_pos valid]
    have placedValid := placedAlignment_valid valid
    have placedWord := placedAlignment_word word
    refine Outcome.of_placed ?_
    rw [show (if alignment = 0 then defaultAlignment else alignment) =
      placedAlignment alignment from rfl]
    cases present : (heap.bump allocator).current with
    | none => exact bumpOrdinaryAlloc_outcome rp holds list placedValid placedWord
    | some current =>
      have member := (list.current current present).1
      rcases fixedRegionAlignedAlloc_cases holds member placedValid placedWord allocSize with
        failed | ⟨pointer, placed, allocated, spec, granted, holdsPlaced⟩
      · dsimp only
        rw [failed]
        exact bumpOrdinaryAlloc_outcome rp holds list placedValid placedWord
      · dsimp only
        rw [allocated]
        exact Or.inr ⟨pointer, _, chain, rfl, granted, holdsPlaced, list.placed spec, rfl, le_rfl⟩

end

/-! ### Destroying the list -/

/-- The loop takes the blocks of the regions, and only them, out of the live blocks. -/
theorem bumpDestroyLoop_spec {others : List LiveBlock} {chain : List Nat} (fuel : Nat)
    {start : Option Nat} {heap : Heap} {owned : List LiveBlock} (ok : heap.Ok)
    (linked : Chain.Linked (fun region => (heap.region region).next) start chain)
    (live : heap.live.Perm (owned ++ others))
    (blocks : owned.map LiveBlock.block = chain.flatMap (regionBlocks heap))
    (enough : chain.length ≤ fuel) :
    ∃ after, bumpDestroyLoop fuel start heap = some after ∧ after.Ok ∧
      after.live.Perm others ∧ after.serial = heap.serial := by
  induction chain generalizing fuel start heap owned with
  | nil =>
    rw [List.flatMap_nil, List.map_eq_nil_iff] at blocks
    rw [blocks, List.nil_append] at live
    rw [Chain.linked_nil.mp linked]
    refine ⟨heap, ?_, ok, live, rfl⟩
    cases fuel <;> rfl
  | cons region rest inductionHypothesis =>
    obtain ⟨head, tail⟩ := linked
    rw [head]
    cases fuel with
    | zero => exact absurd enough (Nat.not_succ_le_zero _)
    | succ fuel =>
      rw [List.flatMap_cons, List.map_eq_append_iff] at blocks
      obtain ⟨first, later, split, firstBlocks, laterBlocks⟩ := blocks
      obtain ⟨record, buffer, pair⟩ : ∃ record buffer, first = [record, buffer] := by
        refine List.length_eq_two.mp ?_
        rw [← List.length_map (f := LiveBlock.block), firstBlocks]
        rfl
      rw [split, pair, List.append_assoc] at live
      rw [pair] at firstBlocks
      obtain ⟨okAfter, liveAfter, -, regions, -, -, serial⟩ :=
        fixedRegionArenaDestroy_spec ok live firstBlocks
      have sameBlocks : regionBlocks (fixedRegionArenaDestroy (some region) heap) =
          regionBlocks heap := by
        funext other
        rw [regionBlocks, regionBlocks, regions]
      obtain ⟨after, result, okFinal, liveFinal, serialFinal⟩ :=
        inductionHypothesis fuel okAfter (tail.congr fun node _ => by rw [regions])
          liveAfter (by rw [sameBlocks, laterBlocks]) (Nat.le_of_succ_le_succ enough)
      exact ⟨after, result, okFinal, liveFinal, serialFinal.trans serial⟩

end LaserD.Memory
