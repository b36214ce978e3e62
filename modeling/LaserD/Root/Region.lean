/-
This file models the region allocator of `dmd/root/region.d` and shows what holds over every run.

A region hands out pieces of chunks of one size from the front, and goes on to the next chunk where
the rest of the last one is too short. A position remembers how far the region was, and releasing it
makes the region go on from there; the chunks behind it are kept and filled again. The program
releases the positions that it has saved as a stack. Blocks that are still held never overlap, and
the region never asks for a chunk while it has one that it does not use.

The size of the region is computed from an `int`, so it is right below 512 chunks only.
-/

import Mathlib.Data.Nat.Bitwise
import Mathlib.Logic.Relation

namespace LaserD.Root

/-! ### The allocator -/

namespace Region

/-- `ChunkSize`. -/
def ChunkSize : Nat := 4096 * 1024

/-- `MaxAllocSize`. -/
def MaxAllocSize : Nat := ChunkSize

/-- The slice `available`. -/
structure Slice where
  ptr : Nat
  length : Nat
  deriving DecidableEq

/-- `RegionPos`. -/
structure RegionPos where
  used : Nat
  available : Slice
  deriving DecidableEq

end Region

open Region

/-- `Region`: the chunks by their addresses, how many of them are used, and what is available of the
last one. -/
structure Region where
  array : List Nat := []
  used : Nat := 0
  available : Slice := ⟨0, 0⟩
  deriving DecidableEq

namespace Region

/-- The number of bytes that is handed out for `nbytes`. -/
def rounded (nbytes : BitVec 64) : BitVec 64 :=
  (nbytes + 15) &&& ~~~(15 : BitVec 64)

/-- The available slice after a chunk has been put to use. `fresh` is what `malloc` returns for a
new one. -/
def nextChunk (region : Region) (fresh : Nat) : Option Region :=
  let array := if region.used = region.array.length then region.array ++ [fresh] else region.array
  array[region.used]?.map fun h =>
    { array := array, used := region.used + 1, available := ⟨h, MaxAllocSize⟩ }

/-- `malloc`. Nothing means a failed assertion. -/
def malloc (region : Region) (nbytes : BitVec 64) (fresh : Nat) :
    Option (Option Nat × Region) :=
  if nbytes = 0 then some (none, region)
  else
    let nbytes := (rounded nbytes).toNat
    let opened :=
      if region.available.length < nbytes then
        if nbytes ≤ MaxAllocSize then region.nextChunk fresh else none
      else some region
    opened.map fun region =>
      (some region.available.ptr,
        { region with
          available := ⟨region.available.ptr + nbytes, region.available.length - nbytes⟩ })

/-- `savePos`. -/
def savePos (region : Region) : RegionPos :=
  ⟨region.used, region.available⟩

/-- `release`. -/
def release (region : Region) (pos : RegionPos) : Region :=
  { region with used := pos.used, available := pos.available }

/-- `contains`. -/
def contains (region : Region) (p : Nat) : Bool :=
  (region.array.take region.used).any fun h => h ≤ p && p < h + ChunkSize

/-- `size`: the product is one of two `int`s. -/
def size (region : Region) : BitVec 64 :=
  (BitVec.ofNat 32 region.used * BitVec.ofNat 32 MaxAllocSize).signExtend 64 -
    BitVec.ofNat 64 region.available.length

/-! ### The bytes that are taken -/

theorem and_not_fifteen (x : BitVec 64) : x &&& ~~~(15 : BitVec 64) = (x >>> 4) <<< 4 := by
  refine BitVec.eq_of_getLsbD_eq fun i inside => ?_
  have mask : (15 : BitVec 64).getLsbD i = decide (i < 4) := Nat.testBit_two_pow_sub_one 4 i
  rw [BitVec.getLsbD_and, BitVec.getLsbD_not, mask, BitVec.getLsbD_shiftLeft,
    BitVec.getLsbD_ushiftRight, decide_eq_true inside]
  by_cases low : i < 4
  · simp [low]
  · simp [low, show 4 + (i - 4) = i by omega]

theorem toNat_rounded {nbytes : BitVec 64} (bound : nbytes.toNat ≤ MaxAllocSize) :
    (rounded nbytes).toNat = (nbytes.toNat + 15) / 16 * 16 := by
  rw [MaxAllocSize, ChunkSize] at bound
  have sum : (nbytes + 15).toNat = nbytes.toNat + 15 := by
    rw [BitVec.toNat_add]
    exact Nat.mod_eq_of_lt (show nbytes.toNat + 15 < 2 ^ 64 by omega)
  rw [rounded, and_not_fifteen, BitVec.toNat_shiftLeft, BitVec.toNat_ushiftRight, sum,
    Nat.shiftRight_eq_div_pow, Nat.shiftLeft_eq]
  exact Nat.mod_eq_of_lt (by omega)

theorem rounded_spec {nbytes : BitVec 64} (some : nbytes ≠ 0)
    (bound : nbytes.toNat ≤ MaxAllocSize) :
    nbytes.toNat ≤ (rounded nbytes).toNat ∧ 0 < (rounded nbytes).toNat ∧
      (rounded nbytes).toNat ≤ MaxAllocSize ∧ 16 ∣ (rounded nbytes).toNat := by
  have positive : nbytes.toNat ≠ 0 := fun zero => some (BitVec.eq_of_toNat_eq zero)
  rw [toNat_rounded bound]
  rw [MaxAllocSize, ChunkSize] at bound ⊢
  exact ⟨by omega, by omega, by omega, Nat.dvd_mul_left 16 _⟩

/-- A block that a program holds: its address and the number of bytes that it asked for. -/
structure Block where
  ptr : Nat
  nbytes : BitVec 64

/-- The number of bytes that are taken for a block. -/
def Block.taken (b : Block) : Nat :=
  (rounded b.nbytes).toNat

/-- Two blocks do not overlap. -/
def Block.Apart (a b : Block) : Prop :=
  a.ptr + a.taken ≤ b.ptr ∨ b.ptr + b.taken ≤ a.ptr

/-! ### Chunks -/

/-- The chunks at two addresses do not overlap. -/
def ChunksApart (g h : Nat) : Prop :=
  g + ChunkSize ≤ h ∨ h + ChunkSize ≤ g

/-- `malloc` returns aligned memory that is not in use. -/
structure IsFresh (array : List Nat) (fresh : Nat) : Prop where
  aligned : 16 ∣ fresh
  positive : 0 < fresh
  apart : ∀ h ∈ array, ChunksApart h fresh

/-- The chunks of a region are aligned and do not overlap. -/
structure Chunks (array : List Nat) : Prop where
  aligned : ∀ h ∈ array, 16 ∣ h
  positive : ∀ h ∈ array, 0 < h
  apart : array.Pairwise ChunksApart

theorem Chunks.append {array : List Nat} {fresh : Nat} (chunks : Chunks array)
    (new : IsFresh array fresh) : Chunks (array ++ [fresh]) := by
  refine ⟨List.forall_mem_append.mpr ⟨chunks.aligned, List.forall_mem_singleton.mpr new.aligned⟩,
    List.forall_mem_append.mpr ⟨chunks.positive, List.forall_mem_singleton.mpr new.positive⟩,
    List.pairwise_append.mpr ⟨chunks.apart, List.pairwise_singleton _ _, fun h member => ?_⟩⟩
  exact List.forall_mem_singleton.mpr (new.apart h member)

theorem Chunks.apart_of_ne {array : List Nat} (chunks : Chunks array) {i j g h : Nat}
    (first : array[i]? = some g) (second : array[j]? = some h) (different : i ≠ j) :
    ChunksApart g h := by
  obtain ⟨inside, rfl⟩ := List.getElem?_eq_some_iff.mp first
  obtain ⟨inside', rfl⟩ := List.getElem?_eq_some_iff.mp second
  rcases Nat.lt_or_gt_of_ne different with less | more
  · exact List.pairwise_iff_getElem.mp chunks.apart i j inside inside' less
  · exact (List.pairwise_iff_getElem.mp chunks.apart j i inside' inside more).symm

/-! ### What is held at a position -/

/-- A block lies in the chunk of an index, and in the last one before what is available. -/
structure Lies (array : List Nat) (pos : RegionPos) (b : Block) (j h : Nat) : Prop where
  used : j < pos.used
  chunk : array[j]? = some h
  low : h ≤ b.ptr
  high : b.ptr + b.taken ≤ h + ChunkSize
  before : j + 1 = pos.used → b.ptr + b.taken ≤ pos.available.ptr

/-- The blocks that are held lie in the chunks that are used, and not where the region goes on. -/
structure Holds (array : List Nat) (pos : RegionPos) (live : List Block) : Prop where
  inside : pos.used ≤ array.length
  place : (pos.used = 0 ∧ pos.available.length = 0) ∨ ∃ h, 0 < pos.used ∧
    array[pos.used - 1]? = some h ∧ h ≤ pos.available.ptr ∧
    pos.available.ptr + pos.available.length = h + ChunkSize ∧ 16 ∣ pos.available.ptr
  aligned : ∀ b ∈ live, 16 ∣ b.ptr
  asked : ∀ b ∈ live, b.nbytes.toNat ≤ b.taken
  lies : ∀ b ∈ live, ∃ j h, Lies array pos b j h
  apart : live.Pairwise Block.Apart
  filled : (live.map Block.taken).sum + pos.available.length ≤ pos.used * ChunkSize

theorem Holds.append {array : List Nat} {pos : RegionPos} {live : List Block}
    (holds : Holds array pos live) (fresh : Nat) : Holds (array ++ [fresh]) pos live := by
  have kept {i h : Nat} (found : array[i]? = some h) : (array ++ [fresh])[i]? = some h := by
    rw [List.getElem?_append_left (List.getElem?_eq_some_iff.mp found).1, found]
  refine ⟨?_, ?_, holds.aligned, holds.asked, fun b member => ?_, holds.apart, holds.filled⟩
  · rw [List.length_append]
    exact holds.inside.trans (Nat.le_add_right _ _)
  · exact holds.place.imp_right fun ⟨h, positive, found, rest⟩ => ⟨h, positive, kept found, rest⟩
  · obtain ⟨j, h, lies⟩ := holds.lies b member
    exact ⟨j, h, { lies with chunk := kept lies.chunk }⟩

/-- The next chunk is put to use. -/
theorem Holds.nextChunk {array : List Nat} {pos : RegionPos} {live : List Block} {h : Nat}
    (holds : Holds array pos live) (chunks : Chunks array) (found : array[pos.used]? = some h) :
    Holds array ⟨pos.used + 1, ⟨h, MaxAllocSize⟩⟩ live := by
  obtain ⟨inside, same⟩ := List.getElem?_eq_some_iff.mp found
  refine ⟨inside, .inr ⟨h, Nat.succ_pos _, found, le_rfl, rfl, ?_⟩, holds.aligned, holds.asked,
    fun b member => ?_, holds.apart, ?_⟩
  · exact chunks.aligned h (List.mem_of_getElem? found)
  · obtain ⟨j, g, lies⟩ := holds.lies b member
    refine ⟨j, g, { lies with used := Nat.lt_succ_of_lt lies.used, before := fun last => ?_ }⟩
    have used := lies.used
    dsimp only at last
    omega
  · have filled := holds.filled
    dsimp only
    rw [MaxAllocSize, Nat.succ_mul]
    omega

/-- A block is taken from what is available. -/
theorem Holds.take {array : List Nat} {pos : RegionPos} {live : List Block} {nbytes : BitVec 64}
    (holds : Holds array pos live) (chunks : Chunks array) (some : nbytes ≠ 0)
    (bound : nbytes.toNat ≤ MaxAllocSize)
    (room : (rounded nbytes).toNat ≤ pos.available.length) :
    Holds array ⟨pos.used, ⟨pos.available.ptr + (rounded nbytes).toNat,
        pos.available.length - (rounded nbytes).toNat⟩⟩ (⟨pos.available.ptr, nbytes⟩ :: live) := by
  obtain ⟨asked, positive, -, multiple⟩ := rounded_spec some bound
  rcases holds.place with ⟨-, empty⟩ | ⟨h, used, found, low, reach, aligned⟩
  · omega
  have lies : Lies array ⟨pos.used, ⟨pos.available.ptr + (rounded nbytes).toNat,
      pos.available.length - (rounded nbytes).toNat⟩⟩ ⟨pos.available.ptr, nbytes⟩
        (pos.used - 1) h := by
    refine ⟨Nat.sub_lt used Nat.one_pos, found, low, ?_, fun _ => le_rfl⟩
    rw [Block.taken]
    dsimp only
    omega
  refine ⟨holds.inside, .inr ⟨h, used, found, ?_, ?_, Nat.dvd_add aligned multiple⟩,
    List.forall_mem_cons.mpr ⟨aligned, holds.aligned⟩,
    List.forall_mem_cons.mpr ⟨asked, holds.asked⟩,
    List.forall_mem_cons.mpr ⟨⟨_, _, lies⟩, fun b member => ?_⟩,
    List.pairwise_cons.mpr ⟨fun b member => ?_, holds.apart⟩, ?_⟩
  · exact low.trans (Nat.le_add_right _ _)
  · dsimp only
    omega
  · obtain ⟨j, g, before⟩ := holds.lies b member
    exact ⟨j, g, { before with
      before := fun last => (before.before last).trans (Nat.le_add_right _ _) }⟩
  · obtain ⟨j, g, before⟩ := holds.lies b member
    by_cases last : j + 1 = pos.used
    · exact .inr (before.before last)
    · have different : pos.used - 1 ≠ j := by omega
      rcases chunks.apart_of_ne found before.chunk different with below | above
      · exact .inl (lies.high.trans (below.trans before.low))
      · exact .inr (before.high.trans (above.trans lies.low))
  · have filled := holds.filled
    rw [List.map_cons, List.sum_cons, Block.taken]
    dsimp only
    omega

/-! ### Runs -/

/-- A program with a region: the blocks that it holds, the positions that it has saved, each with
the blocks that it held then, and the most chunks that have been used. -/
structure Client where
  region : Region := {}
  live : List Block := []
  saves : List (RegionPos × List Block) := []
  peak : Nat := 0

/-- The program once `malloc` has returned. -/
def Client.allocate (client : Client) (nbytes : BitVec 64) (pointer : Option Nat)
    (after : Region) : Client :=
  { client with
    region := after
    live := (pointer.map fun p => Block.mk p nbytes).toList ++ client.live
    peak := max client.peak after.used }

/-- A step of a program. A release drops the positions that were saved later. -/
inductive Client.Step : Client → Client → Prop
  | malloc {client : Client} {nbytes : BitVec 64} {fresh : Nat} {pointer : Option Nat}
      {after : Region} (bound : nbytes.toNat ≤ MaxAllocSize)
      (new : IsFresh client.region.array fresh)
      (returned : client.region.malloc nbytes fresh = some (pointer, after)) :
      Step client (client.allocate nbytes pointer after)
  | savePos (client : Client) :
      Step client { client with saves := (client.region.savePos, client.live) :: client.saves }
  | release {client : Client} {k : Nat} {pos : RegionPos} {live : List Block}
      (saved : client.saves[k]? = some (pos, live)) :
      Step client
        { client with
          region := client.region.release pos
          live := live
          saves := client.saves.drop k }

/-- The states that a program with a new region reaches. -/
def Client.Reachable : Client → Prop :=
  Relation.ReflTransGen Client.Step {}

/-- What holds of a program at any time. -/
structure Client.Ok (client : Client) : Prop where
  chunks : Chunks client.region.array
  holds : Holds client.region.array client.region.savePos client.live
  saved : ∀ s ∈ client.saves, Holds client.region.array s.1 s.2 ∧ s.2 <:+ client.live
  nested : client.saves.Pairwise fun later earlier => earlier.2 <:+ later.2
  peak : client.region.array.length = client.peak

/-- The two ways in which memory is allocated. -/
theorem malloc_cases {region after : Region} {nbytes : BitVec 64} {fresh : Nat}
    {pointer : Option Nat} (returned : region.malloc nbytes fresh = some (pointer, after)) :
    nbytes = 0 ∧ pointer = none ∧ after = region ∨
      nbytes ≠ 0 ∧ ∃ opened : Region,
        (opened = region ∧ (rounded nbytes).toNat ≤ region.available.length ∨
          region.nextChunk fresh = some opened ∧ (rounded nbytes).toNat ≤ MaxAllocSize) ∧
        pointer = some opened.available.ptr ∧
        after = { opened with
          available := ⟨opened.available.ptr + (rounded nbytes).toNat,
            opened.available.length - (rounded nbytes).toNat⟩ } := by
  rw [malloc] at returned
  by_cases zero : nbytes = 0
  · rw [if_pos zero] at returned
    obtain ⟨rfl, rfl⟩ := Prod.mk.inj (Option.some.inj returned)
    exact .inl ⟨zero, rfl, rfl⟩
  rw [if_neg zero] at returned
  obtain ⟨opened, found, result⟩ := Option.map_eq_some_iff.mp returned
  obtain ⟨rfl, rfl⟩ := Prod.mk.inj result
  refine .inr ⟨zero, opened, ?_, rfl, rfl⟩
  split_ifs at found with short fits
  · exact .inr ⟨found, fits⟩
  · exact .inl ⟨(Option.some.inj found).symm, Nat.le_of_not_lt short⟩

/-- The next chunk is a new one only where no other is left. -/
theorem nextChunk_cases {region opened : Region} {fresh : Nat}
    (found : region.nextChunk fresh = some opened) : ∃ h, opened.array[region.used]? = some h ∧
      opened.used = region.used + 1 ∧ opened.available = ⟨h, MaxAllocSize⟩ ∧
      (region.used = region.array.length ∧ opened.array = region.array ++ [fresh] ∨
        region.used ≠ region.array.length ∧ opened.array = region.array) := by
  rw [nextChunk] at found
  obtain ⟨h, chunk, rfl⟩ := Option.map_eq_some_iff.mp found
  refine ⟨h, chunk, rfl, rfl, ?_⟩
  by_cases full : region.used = region.array.length
  · exact .inl ⟨full, if_pos full⟩
  · exact .inr ⟨full, if_neg full⟩

theorem Client.Ok.malloc {client : Client} (ok : client.Ok) {nbytes : BitVec 64} {fresh : Nat}
    {pointer : Option Nat} {after : Region} (bound : nbytes.toNat ≤ MaxAllocSize)
    (new : IsFresh client.region.array fresh)
    (returned : client.region.malloc nbytes fresh = some (pointer, after)) :
    (client.allocate nbytes pointer after).Ok := by
  have inside := ok.holds.inside
  have peak := ok.peak
  rcases malloc_cases returned with ⟨-, rfl, rfl⟩ | ⟨some, opened, how, rfl, rfl⟩
  · exact ⟨ok.chunks, ok.holds, ok.saved, ok.nested, peak.trans (max_eq_left (peak ▸ inside)).symm⟩
  have kept (array : List Nat) (chunks : Chunks array)
      (holds : Holds array opened.savePos client.live) (same : opened.array = array)
      (saved : ∀ s ∈ client.saves, Holds array s.1 s.2 ∧ s.2 <:+ client.live)
      (room : (rounded nbytes).toNat ≤ opened.available.length)
      (length : array.length = max client.peak opened.used) :
      (client.allocate nbytes (.some opened.available.ptr) { opened with
        available := ⟨opened.available.ptr + (rounded nbytes).toNat,
          opened.available.length - (rounded nbytes).toNat⟩ }).Ok := by
    refine ⟨same ▸ chunks, ?_, ?_, ok.nested, same ▸ length⟩
    · exact same ▸ holds.take chunks some bound room
    · intro s member
      exact ⟨same ▸ (saved s member).1, (saved s member).2.trans (List.suffix_cons _ _)⟩
  rcases how with ⟨rfl, room⟩ | ⟨found, most⟩
  · exact kept _ ok.chunks ok.holds rfl ok.saved room (by rw [max_eq_left (peak ▸ inside), peak])
  · obtain ⟨h, chunk, used, available, which⟩ := nextChunk_cases found
    have saved : Region.savePos opened = ⟨client.region.used + 1, ⟨h, MaxAllocSize⟩⟩ := by
      rw [savePos, used, available]
    have room : (rounded nbytes).toNat ≤ opened.available.length := available ▸ most
    rcases which with ⟨full, array⟩ | ⟨full, array⟩
    · have chunks := ok.chunks.append new
      have holds := ok.holds.append fresh
      refine kept _ chunks (saved ▸ holds.nextChunk chunks (array ▸ chunk)) array
        (fun s member => ⟨(ok.saved s member).1.append fresh, (ok.saved s member).2⟩) room ?_
      rw [List.length_append, List.length_singleton, used]
      omega
    · refine kept _ ok.chunks (saved ▸ ok.holds.nextChunk ok.chunks (array ▸ chunk)) array
        ok.saved room ?_
      have under : client.region.used ≤ client.region.array.length := inside
      rw [used]
      omega

theorem Client.Ok.step {client after : Client} (ok : client.Ok) (step : Client.Step client after) :
    after.Ok := by
  cases step with
  | malloc bound new returned => exact ok.malloc bound new returned
  | savePos =>
    refine ⟨ok.chunks, ok.holds, List.forall_mem_cons.mpr ⟨⟨ok.holds, List.suffix_rfl⟩, ok.saved⟩,
      List.pairwise_cons.mpr ⟨fun s member => (ok.saved s member).2, ok.nested⟩, ok.peak⟩
  | @release k pos live saved =>
    obtain ⟨inside, same⟩ := List.getElem?_eq_some_iff.mp saved
    have left : client.saves.drop k = (pos, live) :: client.saves.drop (k + 1) := by
      rw [List.drop_eq_getElem_cons inside, same]
    have nested := ok.nested.drop (i := k)
    have holds := (ok.saved _ (List.mem_of_getElem? saved)).1
    refine ⟨ok.chunks, holds, fun s member => ⟨?_, ?_⟩, nested, ok.peak⟩
    · exact (ok.saved s (List.mem_of_mem_drop member)).1
    · rw [left] at member nested
      rcases List.mem_cons.mp member with first | later
      · exact first ▸ List.suffix_rfl
      · exact (List.pairwise_cons.mp nested).1 s later

theorem Client.Reachable.ok {client : Client} (reachable : client.Reachable) : client.Ok := by
  induction reachable with
  | refl =>
    refine ⟨⟨?_, ?_, .nil⟩, ⟨le_rfl, .inl ⟨rfl, rfl⟩, ?_, ?_, ?_, .nil, le_rfl⟩, ?_, .nil, rfl⟩ <;>
      exact fun _ member => absurd member List.not_mem_nil
  | tail _ step ok => exact ok.step step

/-- A region is long enough for what it is asked for, and returns nothing for nothing only. -/
theorem Client.Ok.malloc_returns {client : Client} (ok : client.Ok) {nbytes : BitVec 64}
    {fresh : Nat} (bound : nbytes.toNat ≤ MaxAllocSize) :
    ∃ pointer after, client.region.malloc nbytes fresh = some (pointer, after) ∧
      (pointer = none ↔ nbytes = 0) := by
  rw [Region.malloc]
  by_cases zero : nbytes = 0
  · exact ⟨none, client.region, if_pos zero, iff_of_true rfl zero⟩
  rw [if_neg zero]
  have room := (rounded_spec zero bound).2.2.1
  have opens : ∃ opened, (if client.region.available.length < (rounded nbytes).toNat then
      if (rounded nbytes).toNat ≤ MaxAllocSize then client.region.nextChunk fresh else none
      else some client.region) = some opened := by
    split_ifs
    · have inside : client.region.used ≤ client.region.array.length := ok.holds.inside
      rw [nextChunk]
      split_ifs with full
      · rw [full, List.getElem?_concat_length]
        exact ⟨_, rfl⟩
      · rw [List.getElem?_eq_getElem (by omega)]
        exact ⟨_, rfl⟩
    · exact ⟨_, rfl⟩
  obtain ⟨opened, found⟩ := opens
  dsimp only
  rw [found]
  exact ⟨_, _, rfl, iff_of_false (Option.some_ne_none _) zero⟩

/-- In every run with a region, the blocks that are held are aligned, lie in chunks that are used
and do not overlap; releasing a position gives up the blocks that were allocated after it and no others;
no chunk is asked for before all are used; and every request up to the size of a chunk is met. -/
theorem region_runs {client : Client} (reachable : client.Reachable) :
    (∀ b ∈ client.live, 0 < b.ptr ∧ 16 ∣ b.ptr ∧ ∀ a, b.ptr ≤ a → a < b.ptr + b.nbytes.toNat →
        client.region.contains a = true) ∧
      (client.live.Pairwise fun a b =>
        a.ptr + a.nbytes.toNat ≤ b.ptr ∨ b.ptr + b.nbytes.toNat ≤ a.ptr) ∧
      (∀ s ∈ client.saves, s.2 <:+ client.live) ∧
      client.region.array.length = client.peak ∧
      ∀ nbytes fresh, nbytes.toNat ≤ MaxAllocSize →
        ∃ pointer after, client.region.malloc nbytes fresh = some (pointer, after) ∧
          (pointer = none ↔ nbytes = 0) := by
  have ok := reachable.ok
  refine ⟨fun b member => ?_, ?_, fun s member => (ok.saved s member).2, ok.peak,
    fun nbytes fresh bound => ok.malloc_returns bound⟩
  · obtain ⟨j, h, lies⟩ := ok.holds.lies b member
    have asked := ok.holds.asked b member
    have low := lies.low
    have high := lies.high
    refine ⟨(ok.chunks.positive h (List.mem_of_getElem? lies.chunk)).trans_le low,
      ok.holds.aligned b member, fun a above below => ?_⟩
    obtain ⟨inside, rfl⟩ := List.getElem?_eq_some_iff.mp lies.chunk
    refine List.any_eq_true.mpr ⟨_, List.mem_take_iff_getElem.mpr ⟨j, ?_, rfl⟩, ?_⟩
    · exact lt_min lies.used inside
    · rw [Bool.and_eq_true, decide_eq_true_iff, decide_eq_true_iff]
      omega
  · refine (ok.holds.apart.imp_of_mem fun {a b} first second apart => ?_)
    have asked := ok.holds.asked a first
    have asked' := ok.holds.asked b second
    rw [Block.Apart] at apart
    omega

/-- A block of 100 bytes, a position, and another block of 100 bytes. -/
def twoBlocks : Client where
  region := { array := [16], used := 1, available := ⟨240, MaxAllocSize - 224⟩ }
  live := [⟨128, 100⟩, ⟨16, 100⟩]
  saves := [(⟨1, ⟨128, MaxAllocSize - 112⟩⟩, [⟨16, 100⟩])]
  peak := 1

theorem twoBlocks_reachable : twoBlocks.Reachable := by
  have first : Client.Step {} (Client.allocate {} 100 (some 16)
      { array := [16], used := 1, available := ⟨128, MaxAllocSize - 112⟩ }) := by
    refine @Client.Step.malloc _ _ 16 _ _ (by decide) ⟨by decide, by decide, ?_⟩ rfl
    exact fun h member => absurd member List.not_mem_nil
  refine .tail (.tail (.tail .refl first) (.savePos _)) ?_
  refine @Client.Step.malloc _ 100 (ChunkSize + 16) (some 128) _ (by decide)
    ⟨by decide, by decide, fun h member => ?_⟩ rfl
  rw [List.mem_singleton.mp member]
  exact .inl (by decide)

/-- The two blocks do not overlap, and the first one is held until the position is released. -/
theorem region_runs_two :
    (twoBlocks.live.Pairwise fun a b =>
      a.ptr + a.nbytes.toNat ≤ b.ptr ∨ b.ptr + b.nbytes.toNat ≤ a.ptr) ∧
      ∀ s ∈ twoBlocks.saves, s.2 <:+ twoBlocks.live :=
  ⟨(region_runs twoBlocks_reachable).2.1, (region_runs twoBlocks_reachable).2.2.1⟩

/-- The size of a region is the number of bytes of its chunks that are not available, at least those
of the blocks that are held, exactly as long as fewer than 512 chunks are used. -/
theorem size_exact_iff {client : Client} (reachable : client.Reachable)
    (few : client.region.used < 2 ^ 31) :
    (client.live.map Block.taken).sum + client.region.available.length ≤
        client.region.used * ChunkSize ∧
      (client.region.size.toNat + client.region.available.length =
        client.region.used * ChunkSize ↔ client.region.used < 512) := by
  have ok := reachable.ok
  refine ⟨ok.holds.filled, ?_⟩
  have filled : _ + client.region.available.length ≤ client.region.used * ChunkSize :=
    ok.holds.filled
  have short : client.region.available.length ≤ ChunkSize := by
    rcases ok.holds.place with ⟨-, empty⟩ | ⟨h, -, -, low, reach, -⟩
    · exact empty.trans_le (Nat.zero_le _)
    · exact Nat.le_of_add_le_add_left ((reach.le.trans (Nat.add_le_add_right low _)))
  have product : (BitVec.ofNat 32 client.region.used * BitVec.ofNat 32 MaxAllocSize).toNat =
      client.region.used * ChunkSize % 2 ^ 32 := by
    rw [← BitVec.ofNat_mul, BitVec.toNat_ofNat]
    rfl
  rw [size, BitVec.toNat_sub, BitVec.toNat_ofNat, BitVec.toNat_signExtend, BitVec.toNat_setWidth,
    product, BitVec.msb_eq_decide, product]
  rw [ChunkSize] at *
  split <;> rename_i sign <;> rw [decide_eq_true_iff] at sign <;> omega

/-- The two blocks are counted. -/
theorem size_exact_iff_two : twoBlocks.region.size.toNat + twoBlocks.region.available.length =
    twoBlocks.region.used * ChunkSize :=
  (size_exact_iff twoBlocks_reachable (by decide)).2.mpr (by decide)

end Region

end LaserD.Root
