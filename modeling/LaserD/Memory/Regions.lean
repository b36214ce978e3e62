/-
This file is the invariant of the region backends and what one allocation does
to it.

An arena holds a chain of regions. The live blocks of the heap are the record
and the buffer of every region of the chain and some others; the cursor of a
region stays inside its buffer; the bytes from the cursor on are zero. A granted
request takes the bytes between the old and the new cursor of one region, which
may be new; a refused one leaves every live block as it was.
-/

import LaserD.Memory.Arena
import Mathlib.Data.Nat.Bitwise

namespace LaserD.Memory

/-! ### Placement -/

/-- The alignment a backend places a request at. -/
def placedAlignment (alignment : Nat) : Nat :=
  if alignment = 0 then defaultAlignment else alignment

/-- A valid alignment is placed at a power of two. -/
theorem placedAlignment_two_pow {alignment : Nat} (valid : validAlignment alignment = true)
    (word : alignment < 2 ^ 64) : ∃ power, power < 64 ∧ placedAlignment alignment = 2 ^ power := by
  unfold placedAlignment
  by_cases zero : alignment = 0
  · exact ⟨3, by decide, by rw [if_pos zero]; rfl⟩
  · rw [if_neg zero]
    have bits : alignment &&& (alignment - 1) = 0 := by
      simpa [validAlignment, zero] using valid
    obtain ⟨power, equal⟩ := (Nat.and_sub_one_eq_zero_iff_isPowerOfTwo zero).mp bits
    refine ⟨power, ?_, equal⟩
    rw [equal] at word
    exact (Nat.pow_lt_pow_iff_right (by decide)).mp word

theorem placedAlignment_ne_zero (alignment : Nat) : placedAlignment alignment ≠ 0 := by
  unfold placedAlignment
  split
  · decide
  · assumption

/-- Placing twice is placing once. -/
theorem placedAlignment_idem (alignment : Nat) :
    placedAlignment (placedAlignment alignment) = placedAlignment alignment :=
  if_neg (placedAlignment_ne_zero alignment)

theorem placedAlignment_valid {alignment : Nat} (valid : validAlignment alignment = true) :
    validAlignment (placedAlignment alignment) = true := by
  unfold placedAlignment
  split
  · decide
  · exact valid

theorem placedAlignment_word {alignment : Nat} (word : alignment < 2 ^ 64) :
    placedAlignment alignment < 2 ^ 64 := by
  unfold placedAlignment
  split
  · decide
  · exact word

/-- The padded address is a multiple of the alignment. -/
theorem dvd_add_padding {address power : Nat} (inside : address ≤ 2 ^ 64) (small : power < 64) :
    2 ^ power ∣ address + padding address (2 ^ power) := by
  have period : 2 ^ power ∣ 2 ^ 64 := pow_dvd_pow 2 small.le
  unfold padding
  rw [Nat.and_two_pow_sub_one_eq_mod, Nat.mod_mod_of_dvd _ period]
  have whole : 2 ^ power ∣ address + (2 ^ 64 - address) := by
    rwa [Nat.add_sub_cancel' inside]
  have split := Nat.mod_add_div (2 ^ 64 - address) (2 ^ power)
  refine (Nat.dvd_add_left (Dvd.intro ((2 ^ 64 - address) / 2 ^ power) rfl)).mp ?_
  rwa [Nat.add_assoc, split]

/-- What a placement does: the block lies behind the old cursor, up to the new one, inside the
buffer. -/
structure Placed (region placed : FixedRegionAllocator) (allocSize pointer : Nat) : Prop where
  memory : placed.memory = region.memory
  next : placed.next = region.next
  lower : region.memory.address + region.offset ≤ pointer
  cursor : pointer + allocSize = region.memory.address + placed.offset
  inside : placed.offset ≤ region.memory.size

theorem regionPlace_placed {region placed : FixedRegionAllocator}
    {alignment allocSize pointer : Nat}
    (result : regionPlace region alignment allocSize = some (pointer, placed)) :
    Placed region placed allocSize pointer := by
  unfold regionPlace at result
  dsimp only at result
  generalize padding _ _ = pad at result
  by_cases overrun : region.offset > region.memory.size
  · rw [if_pos overrun] at result
    cases result
  · rw [if_neg overrun] at result
    by_cases padded : pad > region.memory.size - region.offset
    · rw [if_pos padded] at result
      cases result
    · rw [if_neg padded] at result
      by_cases large : allocSize > region.memory.size - region.offset - pad
      · rw [if_pos large] at result
        cases result
      · rw [if_neg large] at result
        cases result
        exact ⟨rfl, rfl, by omega, by dsimp only; omega, by dsimp only; omega⟩

/-- A placement is a multiple of the alignment. -/
theorem regionPlace_dvd {region placed : FixedRegionAllocator}
    {alignment allocSize pointer : Nat} (valid : validAlignment alignment = true)
    (word : alignment < 2 ^ 64) (bounded : region.memory.address + region.memory.size ≤ 2 ^ 64)
    (result : regionPlace region alignment allocSize = some (pointer, placed)) :
    placedAlignment alignment ∣ pointer := by
  obtain ⟨power, small, equal⟩ := placedAlignment_two_pow valid word
  have inside : region.offset ≤ region.memory.size := by
    by_contra overrun
    unfold regionPlace at result
    rw [if_pos (not_le.mp overrun)] at result
    cases result
  have multiple := dvd_add_padding
    (by omega : region.memory.address + region.offset ≤ 2 ^ 64) small
  unfold regionPlace at result
  dsimp only at result
  rw [show (if alignment = 0 then defaultAlignment else alignment) = 2 ^ power from equal] at result
  split at result
  · cases result
  · split at result
    · cases result
    · split at result
      · cases result
      · cases result
        rw [equal, ← Nat.add_assoc]
        exact multiple

/-! ### Live blocks left alone -/

/-- Every live block of the first heap, and every record in one, is the same in the second. -/
structure Untouched (before after : Heap) : Prop where
  byte : ∀ entry ∈ before.live, ∀ address, entry.block.Contains address →
    after.byte address = before.byte address
  region : ∀ entry ∈ before.live,
    after.region entry.block.address = before.region entry.block.address
  bump : after.bump = before.bump
  arena : after.arena = before.arena

theorem Untouched.refl (heap : Heap) : Untouched heap heap :=
  ⟨fun _ _ _ _ => rfl, fun _ _ => rfl, rfl, rfl⟩

theorem Untouched.trans {first second third : Heap} (left : Untouched first second)
    (right : Untouched second third) (kept : ∀ entry ∈ first.live, entry ∈ second.live) :
    Untouched first third where
  byte entry member address inside :=
    (right.byte entry (kept entry member) address inside).trans
      (left.byte entry member address inside)
  region entry member :=
    (right.region entry (kept entry member)).trans (left.region entry member)
  bump := right.bump.trans left.bump
  arena := right.arena.trans left.arena

/-- Handing out a fresh block leaves the live blocks alone. -/
theorem untouched_obtain {heap : Heap} {block : Block} (fresh : heap.Fresh block) :
    Untouched heap (heap.obtain block) where
  byte entry member address inside := by
    have outside := (fresh.disjoint entry member).symm.not_contains inside
    exact if_neg outside
  region _ _ := rfl
  bump := rfl
  arena := rfl

/-- A refused request: the live blocks are the same and left alone. -/
structure Refused (before after : Heap) : Prop where
  live : after.live.Perm before.live
  untouched : Untouched before after
  serial : before.serial ≤ after.serial
  ok : after.Ok

theorem Refused.refl {heap : Heap} (ok : heap.Ok) : Refused heap heap :=
  ⟨List.Perm.refl _, Untouched.refl heap, le_rfl, ok⟩

theorem Refused.trans {first second third : Heap} (left : Refused first second)
    (right : Refused second third) : Refused first third where
  live := right.live.trans left.live
  untouched := left.untouched.trans right.untouched fun _ member => left.live.mem_iff.mpr member
  serial := left.serial.trans right.serial
  ok := right.ok

theorem Refused.of_refuse {heap : Heap} (ok : heap.Ok) : Refused heap heap.refuse :=
  ⟨List.Perm.refl _, ⟨fun _ _ _ _ => rfl, fun _ _ => rfl, rfl, rfl⟩, le_rfl, ok.refuse⟩

/-! ### Making and destroying a region -/

theorem rpzalloc_cases (rp : Rpmalloc) (size : Nat) (heap : Heap) :
    rpzalloc rp size heap = (none, heap.refuse) ∨
      ∃ address, heap.Fresh { address := address, size := size } ∧
        rpzalloc rp size heap =
          (some address, heap.obtain { address := address, size := size }) := by
  unfold rpzalloc
  cases placed : rp.zalloc heap size with
  | none => exact Or.inl rfl
  | some address => exact Or.inr ⟨address, rp.zalloc_fresh heap size address placed, rfl⟩

/-- Freeing a live block changes nothing but the account. -/
theorem untouched_rpfree (address : Nat) (heap : Heap) :
    (rpfree address heap).byte = heap.byte ∧ (rpfree address heap).region = heap.region ∧
      (rpfree address heap).bump = heap.bump ∧ (rpfree address heap).arena = heap.arena ∧
      (rpfree address heap).serial = heap.serial := by
  unfold rpfree
  split <;> exact ⟨rfl, rfl, rfl, rfl, rfl⟩

/-- Freeing the block at an address takes it out of the live blocks. -/
theorem rpfree_spec {heap : Heap} (ok : heap.Ok) {entry : LiveBlock} {rest : List LiveBlock}
    (live : heap.live.Perm (entry :: rest)) (address : Nat)
    (same : entry.block.address = address) :
    (rpfree address heap).Ok ∧ (rpfree address heap).live.Perm rest ∧
      (rpfree address heap).serial = heap.serial := by
  rw [← same]
  refine ⟨rpfree_ok ok live, ?_, (untouched_rpfree _ heap).2.2.2.2⟩
  obtain ⟨remaining, perm, result⟩ := rpfree_of_live ok live
  rw [result]
  exact perm

/-- Handing a block out and taking it back, with a refusal between, is a refusal. -/
theorem refused_of_obtain_free {heap middle : Heap} {block : Block}
    (fresh : heap.Fresh block) (refused : Refused (heap.obtain block) middle) :
    Refused heap (rpfree block.address middle) := by
  have perm : middle.live.Perm ({ serial := heap.serial, block := block } :: heap.live) :=
    refused.live
  obtain ⟨remaining, same, result⟩ := rpfree_of_live refused.ok perm
  have okAfter := rpfree_ok refused.ok perm
  have untouched := (untouched_obtain fresh).trans refused.untouched fun _ member =>
    List.mem_cons_of_mem _ member
  have serial : heap.serial ≤ middle.serial := (Nat.le_succ _).trans refused.serial
  rw [result] at okAfter ⊢
  exact ⟨same, ⟨untouched.byte, untouched.region, untouched.bump, untouched.arena⟩, serial,
    okAfter⟩

/-- The record and the buffer of a region. -/
def regionBlocks (heap : Heap) (region : Nat) : List Block :=
  [{ address := region, size := FixedRegionAllocator.sizeof }, (heap.region region).memory]

/-- A region that was made: its record and its zeroed buffer are the two newest live blocks. -/
structure Made (before after : Heap) (size region : Nat) : Prop where
  live : ∃ record buffer, after.live = buffer :: record :: before.live ∧
    [record.block, buffer.block] = regionBlocks after region
  record : (after.region region).offset = 0 ∧ (after.region region).next = none ∧
    (after.region region).memory.size = size
  zero : ∀ address, (after.region region).memory.Contains address → after.byte address = 0
  untouched : Untouched before after
  serial : before.serial ≤ after.serial
  ok : after.Ok

theorem fixedRegionArenaCreate_cases (rp : Rpmalloc) (size : Nat) {heap : Heap} (ok : heap.Ok) :
    (∃ after, fixedRegionArenaCreate rp size heap = (none, after) ∧ Refused heap after) ∨
      ∃ region after, fixedRegionArenaCreate rp size heap = (some region, after) ∧
        Made heap after size region := by
  unfold fixedRegionArenaCreate
  rcases rpzalloc_cases rp FixedRegionAllocator.sizeof heap with failed | ⟨region, fresh, made⟩
  · rw [failed]
    exact Or.inl ⟨heap.refuse, rfl, Refused.of_refuse ok⟩
  · rw [made]
    have okRecord := ok.obtain fresh
    have recordUntouched := untouched_obtain fresh
    rcases rpzalloc_cases rp size
        (heap.obtain { address := region, size := FixedRegionAllocator.sizeof }) with
      failed | ⟨memory, freshMemory, madeMemory⟩
    · dsimp only
      rw [failed]
      exact Or.inl ⟨_, rfl, refused_of_obtain_free fresh (Refused.of_refuse okRecord)⟩
    · dsimp only
      rw [madeMemory]
      refine Or.inr ⟨region, _, rfl, ?_⟩
      have okBuffer := okRecord.obtain freshMemory
      have bufferUntouched := untouched_obtain freshMemory
      refine ⟨⟨{ serial := heap.serial, block := ⟨region, _⟩ },
        { serial := heap.serial + 1, block := ⟨memory, size⟩ }, rfl, ?_⟩, ?_, ?_, ?_, ?_, ?_⟩
      · simp only [regionBlocks, Heap.setRegion, Function.update_self]
      · simp only [Heap.setRegion, Function.update_self, true_and]
      · intro address inside
        simp only [Heap.setRegion, Function.update_self] at inside
        exact if_pos inside
      · have kept := recordUntouched.trans bufferUntouched fun entry member =>
          List.mem_cons_of_mem _ member
        refine ⟨kept.byte, fun entry member => ?_, kept.bump, kept.arena⟩
        exact (Function.update_of_ne (fresh.address_ne entry member).symm _ _).trans
          (kept.region entry member)
      · exact (Nat.le_succ _).trans (Nat.le_succ _)
      · exact ⟨okBuffer.addresses, okBuffer.disjoint, okBuffer.bounded, okBuffer.serials,
          okBuffer.tame⟩

/-- Destroying a region takes its record and its buffer out of the live blocks. -/
theorem fixedRegionArenaDestroy_spec {heap : Heap} (ok : heap.Ok) {region : Nat}
    {record buffer : LiveBlock} {rest : List LiveBlock}
    (live : heap.live.Perm (record :: buffer :: rest))
    (blocks : [record.block, buffer.block] = regionBlocks heap region) :
    let after := fixedRegionArenaDestroy (some region) heap
    after.Ok ∧ after.live.Perm rest ∧ after.byte = heap.byte ∧ after.region = heap.region ∧
      after.bump = heap.bump ∧ after.arena = heap.arena ∧ after.serial = heap.serial := by
  rw [regionBlocks, List.cons.injEq, List.cons.injEq] at blocks
  obtain ⟨recordBlock, bufferBlock, -⟩ := blocks
  have swapped : heap.live.Perm (buffer :: record :: rest) := live.trans (List.Perm.swap _ _ _)
  obtain ⟨remaining, same, result⟩ := rpfree_of_live ok swapped
  have okFirst := rpfree_ok ok swapped
  have keptFirst := untouched_rpfree buffer.block.address heap
  have recordAddress : region = record.block.address := by rw [recordBlock]
  have bufferAddress : (heap.region region).memory.address = buffer.block.address := by
    rw [bufferBlock]
  have firstLive : (rpfree buffer.block.address heap).live.Perm (record :: rest) := by
    rw [result]
    exact same
  obtain ⟨left, leftPerm, second⟩ := rpfree_of_live okFirst firstLive
  have okSecond := rpfree_ok okFirst firstLive
  have keptSecond := untouched_rpfree record.block.address (rpfree buffer.block.address heap)
  have destroyed : fixedRegionArenaDestroy (some region) heap =
      rpfree record.block.address (rpfree buffer.block.address heap) := by
    unfold fixedRegionArenaDestroy
    dsimp only
    rw [bufferAddress, ← recordAddress]
  dsimp only
  rw [destroyed]
  refine ⟨okSecond, ?_, keptSecond.1.trans keptFirst.1, keptSecond.2.1.trans keptFirst.2.1,
    keptSecond.2.2.1.trans keptFirst.2.2.1, keptSecond.2.2.2.1.trans keptFirst.2.2.2.1,
    keptSecond.2.2.2.2.trans keptFirst.2.2.2.2⟩
  rw [second]
  exact leftPerm

/-! ### The regions an arena holds -/

/-- A heap holds a chain of regions beside some other live blocks. -/
structure Holds (heap : Heap) (chain : List Nat) (others : List LiveBlock) : Prop where
  ok : heap.Ok
  nodup : chain.Nodup
  live : ∃ owned, heap.live.Perm (owned ++ others) ∧
    owned.map LiveBlock.block = chain.flatMap (regionBlocks heap)
  offset_le : ∀ region ∈ chain, (heap.region region).offset ≤ (heap.region region).memory.size
  clean : ∀ region ∈ chain, ∀ address,
    (heap.region region).memory.address + (heap.region region).offset ≤ address →
    address < (heap.region region).memory.address + (heap.region region).memory.size →
    heap.byte address = 0

section

variable {heap : Heap} {chain : List Nat} {others : List LiveBlock}

theorem Holds.block_live (holds : Holds heap chain others) {region : Nat} (member : region ∈ chain)
    {block : Block} (blocks : block ∈ regionBlocks heap region) :
    ∃ entry ∈ heap.live, entry.block = block := by
  obtain ⟨owned, perm, map⟩ := holds.live
  have flat : block ∈ owned.map LiveBlock.block := by
    rw [map]
    exact List.mem_flatMap.mpr ⟨region, member, blocks⟩
  obtain ⟨entry, entryMember, same⟩ := List.mem_map.mp flat
  exact ⟨entry, perm.mem_iff.mpr (List.mem_append_left _ entryMember), same⟩

theorem Holds.record_live (holds : Holds heap chain others) {region : Nat}
    (member : region ∈ chain) : ∃ entry ∈ heap.live, entry.block.address = region := by
  obtain ⟨entry, entryMember, same⟩ := holds.block_live member List.mem_cons_self
  exact ⟨entry, entryMember, by rw [same]⟩

theorem Holds.memory_live (holds : Holds heap chain others) {region : Nat}
    (member : region ∈ chain) : ∃ entry ∈ heap.live, entry.block = (heap.region region).memory :=
  holds.block_live member (List.mem_cons_of_mem _ List.mem_cons_self)

theorem Holds.memory_bounded (holds : Holds heap chain others) {region : Nat}
    (member : region ∈ chain) :
    (heap.region region).memory.address + (heap.region region).memory.size ≤ 2 ^ 64 := by
  obtain ⟨entry, entryMember, same⟩ := holds.memory_live member
  rw [← same]
  exact (holds.ok.bounded entry entryMember).2

/-- The buffers of two regions are apart. -/
theorem Holds.memory_disjoint (holds : Holds heap chain others) {first second : Nat}
    (firstMember : first ∈ chain) (secondMember : second ∈ chain) (different : first ≠ second) :
    (heap.region first).memory.Disjoint (heap.region second).memory := by
  obtain ⟨owned, perm, map⟩ := holds.live
  have pairwise := (perm.pairwise_iff Block.Disjoint.symm).mp holds.ok.disjoint
  have ownedPairwise := (List.pairwise_append.mp pairwise).1
  rw [← List.pairwise_map (f := LiveBlock.block) (R := Block.Disjoint), map,
    List.pairwise_flatMap] at ownedPairwise
  have symmetric : Std.Symm fun first second => ∀ x ∈ regionBlocks heap first,
      ∀ y ∈ regionBlocks heap second, x.Disjoint y :=
    ⟨fun _ _ relation x xMember y yMember => (relation y yMember x xMember).symm⟩
  have apart := ownedPairwise.2.forall firstMember secondMember different
  exact apart _ (List.mem_cons_of_mem _ List.mem_cons_self) _
    (List.mem_cons_of_mem _ List.mem_cons_self)

/-- The records of the regions are live. -/
theorem Holds.region_untouched (holds : Holds heap chain others) {after : Heap}
    (untouched : Untouched heap after) :
    ∀ region ∈ chain, after.region region = heap.region region := by
  intro region member
  obtain ⟨entry, entryMember, address⟩ := holds.record_live member
  rw [← address]
  exact untouched.region entry entryMember

/-- A refused request keeps the regions. -/
theorem Holds.refused (holds : Holds heap chain others) {after : Heap}
    (refused : Refused heap after) : Holds after chain others := by
  have same := holds.region_untouched refused.untouched
  refine ⟨refused.ok, holds.nodup, ?_, ?_, ?_⟩
  · obtain ⟨owned, perm, map⟩ := holds.live
    refine ⟨owned, refused.live.trans perm, map.trans ?_⟩
    refine List.flatMap_congr fun region member => ?_
    rw [regionBlocks, regionBlocks, same region member]
  · intro region member
    rw [same region member]
    exact holds.offset_le region member
  · intro region member address lower upper
    rw [same region member] at lower upper
    obtain ⟨entry, entryMember, block⟩ := holds.memory_live member
    rw [refused.untouched.byte entry entryMember address (by
      rw [block]
      exact ⟨by omega, upper⟩)]
    exact holds.clean region member address lower upper

end

/-! ### Granted requests -/

/-- A granted request: one region of the chain after it has given the bytes of the block,
which are zero, behind every cursor there was before; the regions there were keep their
buffers, and nothing before their cursors has changed. -/
structure Granted (before after : Heap) (chain grown : List Nat) (alignment size pointer : Nat) :
    Prop where
  region : ∃ region ∈ grown, (after.region region).memory.address ≤ pointer ∧
    pointer + size ≤ (after.region region).memory.address + (after.region region).offset
  kept : ∀ region ∈ chain, region ∈ grown ∧
    (after.region region).memory = (before.region region).memory ∧
    (before.region region).offset ≤ (after.region region).offset
  apart : ∀ region ∈ chain,
    Block.Disjoint { address := pointer, size := size }
      { address := (before.region region).memory.address, size := (before.region region).offset }
  zero : ∀ address, pointer ≤ address → address < pointer + size → after.byte address = 0
  byte : ∀ entry ∈ before.live, ∀ address, entry.block.Contains address →
    after.byte address = before.byte address
  dvd : placedAlignment alignment ∣ pointer

/-- The allocation in one region of the chain is granted there or refused. -/
theorem fixedRegionAlignedAlloc_cases {heap : Heap} {chain : List Nat} {others : List LiveBlock}
    (holds : Holds heap chain others) {region : Nat} (member : region ∈ chain)
    {alignment : Nat} (valid : validAlignment alignment = true)
    (word : alignment < 2 ^ 64) (allocSize : Nat) :
    fixedRegionAlignedAlloc (some region) alignment allocSize heap = some (none, heap) ∨
      ∃ pointer placed,
        fixedRegionAlignedAlloc (some region) alignment allocSize heap =
          some (some pointer, heap.setRegion region placed) ∧
        Placed (heap.region region) placed allocSize pointer ∧
        Granted heap (heap.setRegion region placed) chain chain alignment allocSize pointer ∧
        Holds (heap.setRegion region placed) chain others := by
  unfold fixedRegionAlignedAlloc
  dsimp only
  by_cases zero : allocSize = 0
  · exact Or.inl (if_pos zero)
  · rw [if_neg zero, if_pos valid]
    cases result : regionPlace (heap.region region) alignment allocSize with
    | none => exact Or.inl rfl
    | some pair =>
      obtain ⟨pointer, placed⟩ := pair
      have spec := regionPlace_placed result
      have dvd := regionPlace_dvd valid word (holds.memory_bounded member) result
      have lower := spec.lower
      have cursor := spec.cursor
      have inside := spec.inside
      have self : (heap.setRegion region placed).region region = placed := Function.update_self ..
      have rest (other : Nat) (different : other ≠ region) :
          (heap.setRegion region placed).region other = heap.region other :=
        Function.update_of_ne different _ _
      refine Or.inr ⟨pointer, placed, rfl, spec, ?_, ?_⟩
      · refine ⟨⟨region, member, ?_, ?_⟩, ?_, ?_, ?_, fun _ _ _ _ => rfl, dvd⟩
        · rw [self, spec.memory]
          omega
        · rw [self, spec.memory, cursor]
        · intro other otherMember
          by_cases same : other = region
          · rw [same, self]
            exact ⟨member, spec.memory, by omega⟩
          · rw [rest other same]
            exact ⟨otherMember, rfl, le_rfl⟩
        · intro other otherMember
          by_cases same : other = region
          · rw [same]
            exact Or.inr lower
          · have apart := holds.memory_disjoint member otherMember (Ne.symm same)
            have otherInside := holds.offset_le other otherMember
            unfold Block.Disjoint at apart ⊢
            dsimp only
            omega
        · intro address above below
          exact holds.clean region member address (by omega) (by omega)
      · refine ⟨⟨holds.ok.addresses, holds.ok.disjoint, holds.ok.bounded, holds.ok.serials,
          holds.ok.tame⟩, holds.nodup, ?_, ?_, ?_⟩
        · obtain ⟨owned, perm, map⟩ := holds.live
          refine ⟨owned, perm, map.trans ?_⟩
          refine List.flatMap_congr fun other _ => ?_
          by_cases same : other = region
          · rw [regionBlocks, regionBlocks, same, self, spec.memory]
          · rw [regionBlocks, regionBlocks, rest other same]
        · intro other otherMember
          by_cases same : other = region
          · rw [same, self, spec.memory]
            exact inside
          · rw [rest other same]
            exact holds.offset_le other otherMember
        · intro other otherMember address above below
          by_cases same : other = region
          · rw [same, self, spec.memory] at above below
            exact holds.clean region member address (by omega) below
          · rw [rest other same] at above below
            exact holds.clean other otherMember address above below

/-- What a request comes to: it is refused, or it is granted, the regions being those of a
chain that the backend keeps as `owns` says. -/
def Outcome (owns : Heap → List Nat → Prop) (before : Heap) (chain : List Nat)
    (others : List LiveBlock) (alignment size : Nat) (result : Option (Option Nat × Heap)) : Prop :=
  (∃ after, result = some (none, after) ∧ Refused before after) ∨
    ∃ pointer after grown, result = some (some pointer, after) ∧
      Granted before after chain grown alignment size pointer ∧ Holds after grown others ∧
      owns after grown ∧ after.arena = before.arena ∧ before.serial ≤ after.serial

end LaserD.Memory
