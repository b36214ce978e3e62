/-
This file settles at which alignments the three backends keep the default
alignment as a floor, and when an aligned reallocation of the region backends
returns memory at the alignment asked for.

The rpmalloc backend raises every request below the default alignment to it. The
region backends only replace zero: behind a block of one byte, a request for
alignment one, two or four is placed at that alignment. So the floor holds for
the rpmalloc backend at every alignment, and for the region backends exactly at
zero and from the default alignment on.

A reallocation that moves the block places it like any request. One that keeps
the block looks at the sizes alone, so it returns the block where it lies.
-/

import LaserD.Memory.Runs
import Mathlib.Tactic.IntervalCases

namespace LaserD.Memory

/-! ### The rpmalloc backend -/

/-- Allocating writes no arena record. -/
theorem rpzalloc_arena (rp : Rpmalloc) (size : Nat) (heap : Heap) :
    (rpzalloc rp size heap).2.arena = heap.arena := by
  unfold rpzalloc
  split <;> rfl

theorem rpalignedZalloc_arena (rp : Rpmalloc) (alignment size : Nat) (heap : Heap) :
    (rpalignedZalloc rp alignment size heap).2.arena = heap.arena := by
  unfold rpalignedZalloc
  split <;> rfl

theorem zeroReallocatedTail_arena (pointer : Option Nat) (size oldSize : Nat) (heap : Heap) :
    (zeroReallocatedTail pointer size oldSize heap).arena = heap.arena := by
  unfold zeroReallocatedTail
  split <;> rfl

/-- A call of an rpmalloc arena writes no arena record. -/
theorem perform_rpmalloc_arena {rp : Rpmalloc} {arena : Nat} {call : Call} {heap after : Heap}
    {result : Option Nat} (facade : heap.arena arena = { vtable := some .rpmalloc, ctx := none })
    (performed : call.perform rp arena heap = some (result, after)) :
    after.arena = heap.arena := by
  cases call with
  | alloc size =>
    simp only [Call.perform, facade, Vtable.allocImpl, Option.some.injEq] at performed
    rw [← show (arenaRpmallocAlloc rp size heap).2 = after by rw [performed]]
    exact rpzalloc_arena rp size heap
  | calloc count size =>
    simp only [Call.perform, facade, Vtable.callocImpl, Option.some.injEq] at performed
    rw [← show (arenaRpmallocCalloc rp count size heap).2 = after by rw [performed]]
    exact rpzalloc_arena rp _ heap
  | realloc pointer size oldSize =>
    simp only [Call.perform, facade, Vtable.reallocImpl, Option.some.injEq] at performed
    rw [← show (arenaRpmallocRealloc rp pointer size oldSize heap).2 = after by rw [performed]]
    exact (zeroReallocatedTail_arena _ _ _ _).trans (rp.realloc_arena _ _ _ _)
  | alignedAlloc alignment size =>
    simp only [Call.perform, facade, Vtable.alignedAllocImpl] at performed
    split at performed
    · rw [← show (arenaRpmallocAlignedAlloc rp alignment size heap).2 = after by
        rw [Option.some.inj performed]]
      exact rpalignedZalloc_arena rp _ _ heap
    · cases performed
  | alignedCalloc alignment count size =>
    simp only [Call.perform, facade, Vtable.alignedCallocImpl] at performed
    split at performed
    · rw [← show (arenaRpmallocAlignedCalloc rp alignment count size heap).2 = after by
        rw [Option.some.inj performed]]
      exact rpalignedZalloc_arena rp _ _ heap
    · cases performed
  | alignedRealloc pointer alignment size oldSize =>
    simp only [Call.perform, facade, Vtable.alignedReallocImpl] at performed
    split at performed
    · rw [← show (arenaRpmallocAlignedRealloc rp pointer alignment size oldSize heap).2 = after by
        rw [Option.some.inj performed]]
      exact (zeroReallocatedTail_arena _ _ _ _).trans (rp.realloc_arena _ _ _ _)
    · cases performed
  | free pointer =>
    simp only [Call.perform, facade, Vtable.freeImpl, Option.some.injEq, Prod.mk.injEq] at performed
    rw [← performed.2]
    cases pointer with
    | none => rfl
    | some address => exact (untouched_rpfree address heap).2.2.2.1

/-- The facade of an rpmalloc arena stays as it was made. -/
theorem Reachable.rpmalloc_facade {rp : Rpmalloc} {start : Heap} {arena : Nat} {client : Client}
    (reachable : Reachable rp .rpmalloc start arena client) :
    client.heap.arena arena = { vtable := some .rpmalloc, ctx := none } := by
  induction reachable with
  | create created =>
    unfold arenaCreate arenaCreateRpmalloc at created
    dsimp only at created
    rcases rpzalloc_cases rp Arena.sizeof start with failed | ⟨address, -, made⟩
    · rw [failed] at created
      cases created
    · rw [made] at created
      cases created
      exact Function.update_self ..
  | @call client call result heap reachable admissible performed inductionHypothesis =>
    have same := perform_rpmalloc_arena inductionHypothesis performed
    cases result with
    | none => exact (congrFun same arena).trans inductionHypothesis
    | some pointer => exact (congrFun same arena).trans inductionHypothesis
  | write value reachable owned inside inductionHypothesis => exact inductionHypothesis

/-! ### The floor -/

/-- A call for memory at an alignment. -/
def Call.AlignedRequest (call : Call) (alignment : Nat) : Prop :=
  (∃ size, call = .alignedAlloc alignment size) ∨
    ∃ count size, call = .alignedCalloc alignment count size

/-- Arenas of a kind never return memory below the default alignment when asked for an
alignment. -/
def AlignedAsPromised (kind : Vtable) (alignment : Nat) : Prop :=
  ∀ (rp : Rpmalloc) (backend : Backend) (start : Heap) (arena : Nat) (client : Client),
    backend.vtable = kind → start.Ok → Reachable rp backend start arena client →
    ∀ call : Call, call.AlignedRequest alignment → client.Admissible call →
    ∀ pointer after, call.perform rp arena client.heap = some (some pointer, after) →
      max alignment defaultAlignment ∣ pointer

theorem raisedAlignment_eq (alignment : Nat) :
    raisedAlignment alignment = max alignment defaultAlignment := by
  unfold raisedAlignment
  split
  · next below => exact (Nat.max_eq_right below.le).symm
  · next above => exact (Nat.max_eq_left (Nat.not_lt.mp above)).symm

/-- rpmalloc is asked for the raised alignment. -/
theorem rpalignedZalloc_dvd {rp : Rpmalloc} {alignment size pointer : Nat} {heap after : Heap}
    (result : rpalignedZalloc rp alignment size heap = (some pointer, after)) :
    alignment ∣ pointer := by
  unfold rpalignedZalloc at result
  split at result
  · cases result
  · next address placed =>
    cases result
    exact rp.alignedZalloc_dvd heap alignment size pointer placed

theorem alignedAsPromised_rpmalloc (alignment : Nat) : AlignedAsPromised .rpmalloc alignment := by
  intro rp backend start arena client kind ok reachable call request admissible pointer after
    performed
  cases backend with
  | fixedregion size => cases kind
  | bump => cases kind
  | rpmalloc =>
    have facade := reachable.rpmalloc_facade
    rw [← raisedAlignment_eq]
    rcases request with ⟨size, rfl⟩ | ⟨count, size, rfl⟩
    · simp only [Call.perform, facade, Vtable.alignedAllocImpl] at performed
      split at performed
      · exact rpalignedZalloc_dvd (Option.some.inj performed)
      · cases performed
    · simp only [Call.perform, facade, Vtable.alignedCallocImpl] at performed
      split at performed
      · exact rpalignedZalloc_dvd (Option.some.inj performed)
      · cases performed

/-- The region backends place a request at its alignment, zero being the default. -/
theorem regionArena_placed_dvd {rp : Rpmalloc} {backend : Backend} (region : backend ≠ .rpmalloc)
    {start : Heap} (ok : start.Ok) {arena : Nat} {client : Client}
    (reachable : Reachable rp backend start arena client) {call : Call}
    (admissible : client.Admissible call) (fresh : call.previous = none) {pointer : Nat}
    {after : Heap} (performed : call.perform rp arena client.heap = some (some pointer, after)) :
    placedAlignment call.alignment ∣ pointer := by
  obtain ⟨ctx, own, chain, running⟩ := reachable.running region ok
  obtain ⟨valid, word⟩ := admissible.alignment
  rcases running.perform_fresh rp admissible fresh with atOnce | allocated
  · cases performed.symm.trans atOnce
  · rcases running.alignedAlloc rp valid word call.size with
      ⟨_, result, -⟩ | ⟨_, _, _, result, granted, -⟩
    · cases (performed.symm.trans allocated).trans result
    · cases (performed.symm.trans allocated).trans result
      exact granted.dvd

theorem alignedAsPromised_region {kind : Vtable} {alignment : Nat}
    (above : alignment = 0 ∨ defaultAlignment ≤ alignment) (region : kind ≠ .rpmalloc) :
    AlignedAsPromised kind alignment := by
  intro rp backend start arena client same ok reachable call request admissible pointer after
    performed
  have notRpmalloc : backend ≠ .rpmalloc := by
    rintro rfl
    exact region same.symm
  have placed : placedAlignment alignment = max alignment defaultAlignment := by
    unfold placedAlignment
    rcases above with rfl | above
    · rfl
    · have nonzero : alignment ≠ 0 :=
        Nat.ne_of_gt (Nat.lt_of_lt_of_le (by decide : 0 < defaultAlignment) above)
      rw [if_neg nonzero, Nat.max_eq_left above]
  rw [← placed]
  rcases request with ⟨size, rfl⟩ | ⟨count, size, rfl⟩
  · exact regionArena_placed_dvd notRpmalloc ok reachable admissible rfl performed
  · exact regionArena_placed_dvd notRpmalloc ok reachable admissible rfl performed

/-- An arena made in an empty heap, after one byte was allocated from it. -/
def Client.afterByte (backend : Backend) : Client :=
  let created := (arenaCreate stackRpmalloc backend Heap.empty).2
  match (Call.alloc 1).perform stackRpmalloc 16 created with
  | none => { heap := created, returned := [] }
  | some (result, heap) =>
      Client.receive { heap := created, returned := [] } (.alloc 1) result heap

theorem Client.admissible_alloc (client : Client) (size : Nat) :
    client.Admissible (.alloc size) := by
  refine ⟨⟨rfl, Nat.two_pow_pos 64⟩, ?_, ?_⟩
  · intro _ _ _ impossible
    cases impossible
  · intro _ _ impossible
    cases impossible

theorem Client.afterByte_reachable {backend : Backend} {heap : Heap}
    (created : arenaCreate stackRpmalloc backend Heap.empty = (some 16, heap)) :
    Reachable stackRpmalloc backend Heap.empty 16 (Client.afterByte backend) := by
  have first := Reachable.create created
  unfold Client.afterByte
  rw [created]
  dsimp only
  split
  · exact first
  · next result after performed =>
    exact first.call (Client.admissible_alloc _ 1) performed

/-- Behind one byte a region places a request below the default alignment where that does not
divide the address. -/
theorem not_alignedAsPromised {kind : Vtable} {alignment : Nat} (region : kind ≠ .rpmalloc)
    (valid : validAlignment alignment = true) (nonzero : alignment ≠ 0)
    (below : alignment < defaultAlignment) : ¬ AlignedAsPromised kind alignment := by
  intro promised
  have positive := Nat.pos_of_ne_zero nonzero
  unfold defaultAlignment at below
  cases kind with
  | rpmalloc => exact region rfl
  | fixedregion =>
    have violated := promised stackRpmalloc (.fixedregion 16) Heap.empty 16
      (Client.afterByte (.fixedregion 16)) rfl Heap.empty_ok (Client.afterByte_reachable rfl)
      (.alignedAlloc alignment 1) (Or.inl ⟨1, rfl⟩)
      (Client.admissible_alignedAlloc _ valid (below.trans (by decide)) 1)
    interval_cases alignment
    · exact absurd (violated _ _ rfl) (by decide)
    · exact absurd (violated _ _ rfl) (by decide)
    · exact absurd valid (by decide)
    · exact absurd (violated _ _ rfl) (by decide)
    · exact absurd valid (by decide)
    · exact absurd valid (by decide)
    · exact absurd valid (by decide)
  | bump =>
    have violated := promised stackRpmalloc .bump Heap.empty 16 (Client.afterByte .bump) rfl
      Heap.empty_ok (Client.afterByte_reachable rfl) (.alignedAlloc alignment 1)
      (Or.inl ⟨1, rfl⟩) (Client.admissible_alignedAlloc _ valid (below.trans (by decide)) 1)
    interval_cases alignment
    · exact absurd (violated _ _ rfl) (by decide)
    · exact absurd (violated _ _ rfl) (by decide)
    · exact absurd valid (by decide)
    · exact absurd (violated _ _ rfl) (by decide)
    · exact absurd valid (by decide)
    · exact absurd valid (by decide)
    · exact absurd valid (by decide)

/-- The default alignment is a floor for the rpmalloc backend, and for the region backends at
zero and from the default alignment on, but at no other alignment. -/
theorem alignedAsPromised_iff (kind : Vtable) {alignment : Nat}
    (valid : validAlignment alignment = true) :
    AlignedAsPromised kind alignment ↔
      kind = .rpmalloc ∨ alignment = 0 ∨ defaultAlignment ≤ alignment := by
  by_cases rpmalloc : kind = .rpmalloc
  · rw [rpmalloc]
    exact ⟨fun _ => Or.inl rfl, fun _ => alignedAsPromised_rpmalloc alignment⟩
  · refine ⟨fun promised => Or.inr ?_, fun condition => ?_⟩
    · by_contra neither
      rw [not_or, Nat.not_le] at neither
      exact not_alignedAsPromised rpmalloc valid neither.1 neither.2 promised
    · exact alignedAsPromised_region (condition.resolve_left rpmalloc) rpmalloc

theorem alignedAsPromised_iff_bump_four :
    AlignedAsPromised .bump 4 ↔
      Vtable.bump = .rpmalloc ∨ 4 = 0 ∨ defaultAlignment ≤ 4 :=
  alignedAsPromised_iff .bump (by decide)

/-- A bump arena asked for one byte and then for one byte at alignment one. -/
theorem bump_misaligned_one :
    Reachable stackRpmalloc .bump Heap.empty 16 (Client.afterByte .bump) ∧
      (Client.afterByte .bump).returned = [{ address := 128, size := 1 }] ∧
      (∃ after, (Call.alignedAlloc 1 1).perform stackRpmalloc 16 (Client.afterByte .bump).heap =
        some (some 129, after)) ∧
      ¬ max 1 defaultAlignment ∣ 129 ∧ ¬ AlignedAsPromised .bump 1 :=
  ⟨Client.afterByte_reachable rfl, rfl, ⟨_, rfl⟩, by decide,
    not_alignedAsPromised (by decide) (by decide) (by decide) (by decide)⟩

/-! ### Reallocation -/

/-- The reallocation of a returned block starts from that block. -/
theorem Client.admissible_alignedRealloc {client : Client} {pointer oldSize : Nat}
    (owned : { address := pointer, size := oldSize } ∈ client.returned) {alignment : Nat}
    (valid : validAlignment alignment = true) (word : alignment < 2 ^ 64) (size : Nat) :
    client.Admissible (.alignedRealloc (some pointer) alignment size oldSize) := by
  refine ⟨⟨valid, word⟩, ?_, ?_⟩
  · intro _ _ _ impossible
    cases impossible
  · intro _ _ same
    cases same
    exact Or.inr ⟨pointer, rfl, owned⟩

/-- In every run of a region backend, what an aligned reallocation returns lies at the alignment
exactly when the block grows or lies at that alignment already. -/
theorem regionArena_alignedRealloc_dvd_iff (rp : Rpmalloc) {backend : Backend}
    (region : backend ≠ .rpmalloc) {start : Heap} (ok : start.Ok) {arena : Nat} {client : Client}
    (reachable : Reachable rp backend start arena client) {pointer oldSize : Nat}
    (owned : { address := pointer, size := oldSize } ∈ client.returned) {alignment : Nat}
    (valid : validAlignment alignment = true) (word : alignment < 2 ^ 64)
    (nonzero : alignment ≠ 0) (size : Nat) :
    (∀ result after,
        (Call.alignedRealloc (some pointer) alignment size oldSize).perform rp arena client.heap =
          some (some result, after) → alignment ∣ result) ↔
      oldSize < size ∨ alignment ∣ pointer := by
  have admissible := Client.admissible_alignedRealloc owned valid word size
  obtain ⟨answer, after, performed, meets⟩ :=
    regionArena_call_meets rp region ok reachable admissible
  refine ⟨fun aligned => ?_, fun condition result final same => ?_⟩
  · by_cases growing : oldSize < size
    · exact Or.inl growing
    · obtain ⟨kept, -⟩ := meets.kept _ _ rfl (Nat.not_lt.mp growing)
      rw [kept] at performed
      exact Or.inr (aligned pointer after performed)
  · cases performed.symm.trans same
    by_cases growing : oldSize < size
    · exact (meets.grown _ _ rfl growing _ rfl).1.aligned nonzero
    · obtain ⟨kept, -⟩ := meets.kept _ _ rfl (Nat.not_lt.mp growing)
      rw [Option.some.inj kept]
      exact condition.resolve_left growing

/-- A bump arena in an empty heap after two blocks of one byte at alignment one. -/
def Client.afterTwoBytes : Client :=
  match (Call.alignedAlloc 1 1).perform stackRpmalloc 16 (Client.afterByte .bump).heap with
  | none => Client.afterByte .bump
  | some (result, heap) =>
      Client.receive (Client.afterByte .bump) (.alignedAlloc 1 1) result heap

theorem Client.afterTwoBytes_reachable :
    Reachable stackRpmalloc .bump Heap.empty 16 Client.afterTwoBytes := by
  have first : Reachable stackRpmalloc .bump Heap.empty 16 (Client.afterByte .bump) :=
    Client.afterByte_reachable rfl
  unfold Client.afterTwoBytes
  split
  · exact first
  · next result after performed =>
    exact first.call (Client.admissible_alignedAlloc _ (by decide) (by decide) 1) performed

theorem regionArena_alignedRealloc_dvd_iff_two_bytes :
    (∀ result after,
        (Call.alignedRealloc (some 129) 8 2 1).perform stackRpmalloc 16
          Client.afterTwoBytes.heap = some (some result, after) → 8 ∣ result) ↔
      1 < 2 ∨ 8 ∣ 129 :=
  regionArena_alignedRealloc_dvd_iff stackRpmalloc (by decide) Heap.empty_ok
    Client.afterTwoBytes_reachable List.mem_cons_self (by decide) (by decide) (by decide) 2

/-- The second byte, asked for at the default alignment and the same size, stays at its odd
address. -/
theorem alignedRealloc_keeps_odd_address :
    Reachable stackRpmalloc .bump Heap.empty 16 Client.afterTwoBytes ∧
      { address := 129, size := 1 } ∈ Client.afterTwoBytes.returned ∧
      (∃ after, (Call.alignedRealloc (some 129) 8 1 1).perform stackRpmalloc 16
        Client.afterTwoBytes.heap = some (some 129, after)) ∧ ¬ 8 ∣ 129 :=
  ⟨Client.afterTwoBytes_reachable, List.mem_cons_self, ⟨_, rfl⟩, by decide⟩

end LaserD.Memory
