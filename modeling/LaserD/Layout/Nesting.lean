/-
This file proves that the layout of a whole struct is sound. The members of an
anonymous aggregate are laid out from offset 0 and then moved behind the members
in front of it: a shift keeps the ranges apart and inside of their types, and it
keeps fields aligned, since the aggregate is placed at a multiple of its own
alignment, which is at least theirs. The result for a whole struct follows by
induction on the members.
-/

import LaserD.Layout.Sound

namespace LaserD.Layout

variable {u : Nat → Nat} {target : Target}

/-! ### Moving an anonymous aggregate -/

/-- A range moved by a number of bits. -/
def Range.shift (distance : Nat) (r : Range) : Range :=
  { start := r.start + distance, stop := r.stop + distance }

theorem Range.apart_shift {distance : Nat} {a b : Range} :
    (a.shift distance).Apart (b.shift distance) ↔ a.Apart b := by
  simp only [Range.Apart, Range.shift, Nat.add_le_add_iff_right]

mutual

/-- Moving is exact if it does not leave 32 bits. -/
theorem Placed.adjustBaseOffset_exact (reduces : Reduces u) {base bound : Nat}
    (fits : bound + base < 2 ^ 32) : ∀ placed : Placed, placed.Below bound →
      placed.adjustBaseOffset u base = placed.adjustBaseOffset id base
  | .varDeclaration f own, below => by
    have le : own ≤ bound := below
    rw [Placed.adjustBaseOffset, Placed.adjustBaseOffset, reduces.small (by omega), id]
  | .bitFieldDeclaration b own bitOffset, below => by
    have le : own ≤ bound := below
    rw [Placed.adjustBaseOffset, Placed.adjustBaseOffset, reduces.small (by omega), id]
  | .anonDeclaration isunion alignment decl, below => by
    rw [Placed.adjustBaseOffset, Placed.adjustBaseOffset,
      decl.adjustBaseOffset_exact reduces fits below]

/-- Moving a list is exact if it does not leave 32 bits. -/
theorem PlacedList.adjustBaseOffset_exact (reduces : Reduces u) {base bound : Nat}
    (fits : bound + base < 2 ^ 32) : ∀ placed : PlacedList, placed.Below bound →
      placed.adjustBaseOffset u base = placed.adjustBaseOffset id base
  | .nil, _ => rfl
  | .cons member rest, below => by
    rw [PlacedList.adjustBaseOffset, PlacedList.adjustBaseOffset,
      member.adjustBaseOffset_exact reduces fits below.1,
      rest.adjustBaseOffset_exact reduces fits below.2]

end

mutual

/-- The ranges of a moved member. -/
theorem Placed.leaves_adjustBaseOffset (base : Nat) : ∀ placed : Placed,
    (placed.adjustBaseOffset id base).leaves = placed.leaves.map (Range.shift (8 * base))
  | .varDeclaration f own => by
    simp only [Placed.adjustBaseOffset, Placed.leaves, List.map_cons, List.map_nil, Range.shift, id]
    rw [Nat.mul_add, Nat.add_right_comm, Nat.mul_add 8 (own + f.memsize)]
  | .bitFieldDeclaration b own bitOffset => by
    simp only [Placed.adjustBaseOffset, Placed.leaves, id]
    split
    · rfl
    · rw [List.map_singleton, Range.shift, Nat.mul_add]
      dsimp only
      congr 2 <;> omega
  | .anonDeclaration isunion alignment decl => decl.leaves_adjustBaseOffset base

/-- The ranges of moved members. -/
theorem PlacedList.leaves_adjustBaseOffset (base : Nat) : ∀ placed : PlacedList,
    (placed.adjustBaseOffset id base).leaves = placed.leaves.map (Range.shift (8 * base))
  | .nil => rfl
  | .cons member rest => by
    rw [PlacedList.adjustBaseOffset, PlacedList.leaves, PlacedList.leaves, List.map_append,
      member.leaves_adjustBaseOffset base, rest.leaves_adjustBaseOffset base]

end

mutual

/-- Moving keeps ranges apart. -/
theorem Placed.disjoint_adjustBaseOffset (base : Nat) : ∀ placed : Placed,
    placed.Disjoint → (placed.adjustBaseOffset id base).Disjoint
  | .varDeclaration _ _, _ => trivial
  | .bitFieldDeclaration _ _ _, _ => trivial
  | .anonDeclaration isunion _ decl, disjoint =>
    decl.disjoint_adjustBaseOffset base isunion disjoint

/-- Moving keeps the ranges of a list apart. -/
theorem PlacedList.disjoint_adjustBaseOffset (base : Nat) (isunion : Bool) :
    ∀ placed : PlacedList,
      placed.Disjoint isunion → (placed.adjustBaseOffset id base).Disjoint isunion
  | .nil, _ => trivial
  | .cons member rest, ⟨first, others, apart⟩ => by
    refine ⟨member.disjoint_adjustBaseOffset base first,
      rest.disjoint_adjustBaseOffset base isunion others, fun isStruct => ?_⟩
    rw [member.leaves_adjustBaseOffset base, rest.leaves_adjustBaseOffset base]
    intro a inMember b inRest
    obtain ⟨a', inMember', rfl⟩ := List.mem_map.1 inMember
    obtain ⟨b', inRest', rfl⟩ := List.mem_map.1 inRest
    exact Range.apart_shift.2 (apart isStruct a' inMember' b' inRest')

end

mutual

/-- Moving keeps bit-fields inside of their types. -/
theorem Placed.encloses_adjustBaseOffset (base : Nat) : ∀ placed : Placed,
    placed.Encloses → (placed.adjustBaseOffset id base).Encloses
  | .varDeclaration _ _, _ => trivial
  | .bitFieldDeclaration _ _ _, encloses => encloses
  | .anonDeclaration _ _ decl, encloses => decl.encloses_adjustBaseOffset base encloses

/-- Moving keeps the bit-fields of a list inside of their types. -/
theorem PlacedList.encloses_adjustBaseOffset (base : Nat) : ∀ placed : PlacedList,
    placed.Encloses → (placed.adjustBaseOffset id base).Encloses
  | .nil, _ => trivial
  | .cons member rest, ⟨first, others⟩ =>
    ⟨member.encloses_adjustBaseOffset base first, rest.encloses_adjustBaseOffset base others⟩

end

mutual

/-- Moving by a multiple of every alignment up to the bound keeps fields aligned. -/
theorem Placed.aligned_adjustBaseOffset {base bound bound' : Nat}
    (multiple : ∀ a, IsPow a → a ≤ bound → a ∣ base ∧ a ≤ bound') : ∀ placed : Placed,
      placed.Aligned bound → (placed.adjustBaseOffset id base).Aligned bound'
  | .varDeclaration f own, aligned => fun default => by
    obtain ⟨dvd, le⟩ := aligned default
    obtain ⟨dvdBase, le'⟩ := multiple f.memalignsize ⟨f.memalignlog, rfl⟩ le
    exact ⟨Nat.dvd_add dvd dvdBase, le'⟩
  | .bitFieldDeclaration _ _ _, _ => trivial
  | .anonDeclaration _ _ decl, aligned => fun default =>
    decl.aligned_adjustBaseOffset multiple (aligned default)

/-- Moving a list by a multiple of every alignment up to the bound keeps its fields aligned. -/
theorem PlacedList.aligned_adjustBaseOffset {base bound bound' : Nat}
    (multiple : ∀ a, IsPow a → a ≤ bound → a ∣ base ∧ a ≤ bound') : ∀ placed : PlacedList,
      placed.Aligned bound → (placed.adjustBaseOffset id base).Aligned bound'
  | .nil, _ => trivial
  | .cons member rest, ⟨first, others⟩ =>
    ⟨member.aligned_adjustBaseOffset multiple first,
      rest.aligned_adjustBaseOffset multiple others⟩

end

mutual

/-- The offsets of a moved member. -/
theorem Placed.below_adjustBaseOffset {base bound bound' : Nat} (le : bound + base ≤ bound') :
    ∀ placed : Placed, placed.Below bound → (placed.adjustBaseOffset id base).Below bound'
  | .varDeclaration _ own, below => show own + base ≤ bound' from
    (Nat.add_le_add_right below base).trans le
  | .bitFieldDeclaration _ own _, below => show own + base ≤ bound' from
    (Nat.add_le_add_right below base).trans le
  | .anonDeclaration _ _ decl, below => decl.below_adjustBaseOffset le below

/-- The offsets of moved members. -/
theorem PlacedList.below_adjustBaseOffset {base bound bound' : Nat} (le : bound + base ≤ bound') :
    ∀ placed : PlacedList, placed.Below bound → (placed.adjustBaseOffset id base).Below bound'
  | .nil, _ => trivial
  | .cons member rest, ⟨first, others⟩ =>
    ⟨member.below_adjustBaseOffset le first, rest.below_adjustBaseOffset le others⟩

end

mutual

/-- Fields stay aligned when the alignment of the aggregate grows. -/
theorem Placed.Aligned.mono {bound bound' : Nat} (le : bound ≤ bound') : ∀ placed : Placed,
    placed.Aligned bound → placed.Aligned bound'
  | .varDeclaration _ _, aligned => fun default =>
    ⟨(aligned default).1, (aligned default).2.trans le⟩
  | .bitFieldDeclaration _ _ _, _ => trivial
  | .anonDeclaration _ _ decl, aligned => fun default =>
    PlacedList.Aligned.mono le decl (aligned default)

/-- The fields of a list stay aligned when the alignment of the aggregate grows. -/
theorem PlacedList.Aligned.mono {bound bound' : Nat} (le : bound ≤ bound') :
    ∀ placed : PlacedList, placed.Aligned bound → placed.Aligned bound'
  | .nil, _ => trivial
  | .cons member rest, ⟨first, others⟩ =>
    ⟨Placed.Aligned.mono le member first, PlacedList.Aligned.mono le rest others⟩

end

mutual

/-- Offsets stay below a bound that grows. -/
theorem Placed.Below.mono {bound bound' : Nat} (le : bound ≤ bound') : ∀ placed : Placed,
    placed.Below bound → placed.Below bound'
  | .varDeclaration _ _, below => Nat.le_trans below le
  | .bitFieldDeclaration _ _ _, below => Nat.le_trans below le
  | .anonDeclaration _ _ decl, below => PlacedList.Below.mono le decl below

/-- The offsets of a list stay below a bound that grows. -/
theorem PlacedList.Below.mono {bound bound' : Nat} (le : bound ≤ bound') :
    ∀ placed : PlacedList, placed.Below bound → placed.Below bound'
  | .nil, _ => trivial
  | .cons member rest, ⟨first, others⟩ =>
    ⟨Placed.Below.mono le member first, PlacedList.Below.mono le rest others⟩

end

/-! ### An anonymous aggregate without fields -/

theorem le_fields_bitFieldAlign (b : BitField) (ad : Aggregate) :
    ad.fields ≤ (bitFieldAlign target b ad).fields := by
  simp only [bitFieldAlign, apply_ite Aggregate.fields, ite_self]
  split <;> omega

@[simp]
theorem fields_zeroWidth (isunion : Bool) (b : BitField) (ad : Aggregate) (fs : FieldState) :
    (zeroWidth u target isunion b ad fs).1.fields = ad.fields := by
  rw [zeroWidth]
  split_ifs <;> rfl

@[simp]
theorem fields_continueField (isunion : Bool) (b : BitField) (ad : Aggregate) (fs : FieldState) :
    (continueField u target isunion b ad fs).1.fields = ad.fields := by
  rw [continueField]
  dsimp only
  split_ifs <;> rfl

theorem fields_startNewField {isunion : Bool} {b : BitField} {ad ad' : Aggregate}
    {fs fs' : FieldState} (returned : startNewField u target isunion b ad fs = some (ad', fs')) :
    ad'.fields = ad.fields := by
  obtain ⟨placement, -, result⟩ := Option.map_eq_some_iff.1 returned
  obtain ⟨rfl, -⟩ : _ ∧ _ := by simpa only [Prod.mk.injEq] using result
  rfl

/-- A bit-field adds at most itself to the fields. -/
theorem le_fields_visitBitField {isunion : Bool} {b : BitField} {ad ad' : Aggregate}
    {fs fs' : FieldState} {placed : Placed}
    (returned : visitBitField u target isunion b ad fs = some (ad', fs', placed)) :
    ad.fields ≤ ad'.fields ∧ (placed.leaves = [] → placed = .bitFieldDeclaration b 0 0) := by
  have grows := @le_fields_bitFieldAlign target b ad
  rw [visitBitField] at returned
  by_cases zero : b.fieldWidth = 0
  · simp only [if_pos zero, Option.some.injEq, Prod.mk.injEq] at returned
    obtain ⟨rfl, -, rfl⟩ := returned
    rw [fields_zeroWidth]
    exact ⟨grows, fun _ => rfl⟩
  · simp only [if_neg zero, Option.map_eq_some_iff, Prod.mk.injEq, Prod.exists] at returned
    obtain ⟨ad₁, fs₁, start, rfl, -, rfl⟩ := returned
    have same : ad₁.fields = (bitFieldAlign target b ad).fields := by
      by_cases starts : startsField u target b fs = true
      · rw [if_pos starts] at start
        exact fields_startNewField start
      · rw [if_neg starts, Option.some.injEq, Prod.mk.injEq] at start
        rw [start.1]
    rw [fields_continueField, same, Placed.leaves, if_neg zero]
    exact ⟨grows, fun impossible => by cases impossible⟩

mutual

/-- A member that adds no field and has no bits has its offset at 0, and no fields below it. -/
theorem Member.no_fields {isunion : Bool} : ∀ (member : Member) {ad ad' : Aggregate}
    {fs fs' : FieldState} {placed : Placed},
    member.setFieldOffset u target isunion ad fs = some (ad', fs', placed) →
      ad.fields ≤ ad'.fields ∧ (ad'.fields = ad.fields → placed.leaves = [] →
        placed.Below 0 ∧ ∀ bound, placed.Aligned bound)
  | .varDeclaration f, ad, ad', fs, fs', placed, returned => by
    obtain ⟨placement, -, result⟩ := Option.map_eq_some_iff.1 returned
    obtain ⟨rfl, -, -⟩ : _ ∧ _ ∧ _ := by simpa only [Prod.mk.injEq] using result
    exact ⟨Nat.le_succ _, fun same => absurd same (Nat.succ_ne_self _)⟩
  | .bitFieldDeclaration b, ad, ad', fs, fs', placed, returned => by
    obtain ⟨grows, placed_eq⟩ := le_fields_visitBitField returned
    refine ⟨grows, fun _ noLeaves => ?_⟩
    rw [placed_eq noLeaves]
    exact ⟨le_rfl, fun _ => trivial⟩
  | .anonDeclaration anonunion alignment decl, ad, ad', fs, fs', placed, returned => by
    rw [Member.setFieldOffset, Option.bind_eq_some_iff] at returned
    obtain ⟨⟨inner, fsInner, placedInner⟩, run, visit⟩ := returned
    obtain ⟨grows, none⟩ := decl.no_fields run
    dsimp only [visitAnon] at visit
    by_cases empty : inner.fields = ad.fields
    · rw [if_pos empty, Option.some.injEq, Prod.mk.injEq, Prod.mk.injEq] at visit
      obtain ⟨rfl, -, rfl⟩ := visit
      refine ⟨le_rfl, fun _ noLeaves => ?_⟩
      obtain ⟨below, aligned⟩ := none empty noLeaves
      exact ⟨below, fun bound _ => aligned bound⟩
    · rw [if_neg empty] at visit
      obtain ⟨placement, -, result⟩ := Option.map_eq_some_iff.1 visit
      obtain ⟨rfl, -, -⟩ : _ ∧ _ ∧ _ := by simpa only [Prod.mk.injEq] using result
      exact ⟨grows, fun same => absurd same empty⟩

/-- Members that add no field and have no bits have their offsets at 0, and no fields below
them. -/
theorem Members.no_fields {isunion restart : Bool} : ∀ (members : Members) {ad ad' : Aggregate}
    {fs fs' : FieldState} {placed : PlacedList},
    members.setFieldOffset u target isunion restart ad fs = some (ad', fs', placed) →
      ad.fields ≤ ad'.fields ∧ (ad'.fields = ad.fields → placed.leaves = [] →
        placed.Below 0 ∧ ∀ bound, placed.Aligned bound)
  | .nil, ad, ad', fs, fs', placed, returned => by
    rw [Members.setFieldOffset, Option.some.injEq, Prod.mk.injEq, Prod.mk.injEq] at returned
    obtain ⟨rfl, -, rfl⟩ := returned
    exact ⟨le_rfl, fun _ _ => ⟨trivial, fun _ => trivial⟩⟩
  | .cons member rest, ad, ad', fs, fs', placed, returned => by
    rw [Members.setFieldOffset, Option.bind_eq_some_iff] at returned
    obtain ⟨⟨ad₁, fs₁, first⟩, visit, others⟩ := returned
    obtain ⟨⟨ad₂, fs₂, list⟩, run, result⟩ := Option.map_eq_some_iff.1 others
    obtain ⟨rfl, -, rfl⟩ : _ ∧ _ ∧ _ := by simpa only [Prod.mk.injEq] using result
    obtain ⟨growsFirst, noneFirst⟩ := member.no_fields visit
    obtain ⟨growsRest, noneRest⟩ := rest.no_fields run
    refine ⟨growsFirst.trans growsRest, fun same noLeaves => ?_⟩
    obtain ⟨noFirst, noRest⟩ := List.append_eq_nil_iff.1 noLeaves
    obtain ⟨belowFirst, alignedFirst⟩ := noneFirst (by omega) noFirst
    obtain ⟨belowRest, alignedRest⟩ := noneRest (by omega) noRest
    exact ⟨⟨belowFirst, belowRest⟩, fun bound => ⟨alignedFirst bound, alignedRest bound⟩⟩

end

/-! ### All members -/

theorem visitVar_placed {isunion : Bool} {f : Field} {ad ad' : Aggregate} {fs fs' : FieldState}
    {placed : Placed} (returned : visitVar u isunion f ad fs = some (ad', fs', placed)) :
    ∃ offset, placed = .varDeclaration f offset := by
  obtain ⟨placement, -, result⟩ := Option.map_eq_some_iff.1 returned
  obtain ⟨-, -, rfl⟩ : _ ∧ _ ∧ _ := by simpa only [Prod.mk.injEq] using result
  exact ⟨placement.memoffset, rfl⟩

theorem visitBitField_placed {isunion : Bool} {b : BitField} {ad ad' : Aggregate}
    {fs fs' : FieldState} {placed : Placed}
    (returned : visitBitField u target isunion b ad fs = some (ad', fs', placed)) :
    ∃ offset bitOffset, placed = .bitFieldDeclaration b offset bitOffset := by
  rw [visitBitField] at returned
  by_cases zero : b.fieldWidth = 0
  · simp only [if_pos zero, Option.some.injEq, Prod.mk.injEq] at returned
    exact ⟨0, 0, returned.2.2.symm⟩
  · simp only [if_neg zero, Option.map_eq_some_iff, Prod.mk.injEq, Prod.exists] at returned
    obtain ⟨ad₁, fs₁, -, -, -, rfl⟩ := returned
    exact ⟨fs₁.fieldOffset, fs₁.bitOffset, rfl⟩

/-- What is proved of a member in an aggregate of a given size and alignment. -/
structure Placed.Sound (ad : Aggregate) (placed : Placed) : Prop where
  disjoint : placed.Disjoint
  encloses : placed.Encloses
  aligned : placed.Aligned ad.alignsize
  below : placed.Below ad.structsize

/-- What is proved of members in an aggregate of a given size and alignment. -/
structure PlacedList.Sound (isunion : Bool) (ad : Aggregate) (placed : PlacedList) : Prop where
  disjoint : placed.Disjoint isunion
  encloses : placed.Encloses
  aligned : placed.Aligned ad.alignsize
  below : placed.Below ad.structsize

/-- The state before the members of an anonymous aggregate are visited. -/
theorem steady_init (isunion : Bool) (fields : Nat) :
    Steady target isunion 0 { structsize := 0, alignsize := 0, fields := fields } .init :=
  ⟨Nat.two_pow_pos 32, le_rfl, Or.inr ⟨rfl, rfl⟩, le_rfl, fun _ => rfl, nofun⟩

/-- A bit-field in flight stays so when something is placed, but nothing continues it. -/
theorem Steady.inFlight_place {isunion : Bool} {top size a : Nat} {ad ad' : Aggregate}
    {fs fs' : FieldState} (steady : Steady target isunion top ad fs) {placed : Placement}
    (pow : IsPow a) (positive : 0 < size)
    (places : Places fs.offset size a ad.structsize ad.alignsize isunion placed)
    (size' : ad'.structsize = placed.aggsize)
    (fs_eq : fs' = { fs with offset := placed.nextoffset }) (inFlight : fs'.inFlight = true) :
    InFlight target isunion (8 * placed.aggsize) ad' fs' := by
  obtain ⟨grows, -, struct, -, ends, -, -, -⟩ := steady.place pow places
  subst fs_eq
  have flight := steady.flight inFlight
  cases isunion with
  | true =>
    obtain ⟨bitOffset, inside⟩ := flight
    refine ⟨bitOffset, ?_⟩
    rw [size']
    exact inside.trans grows
  | false =>
    obtain ⟨inside, bits, gcc, -⟩ := flight
    obtain ⟨sizeEq, nextEq, behind⟩ := struct rfl
    have offset := steady.offset_eq rfl
    refine ⟨?_, bits, gcc, fun stands => ?_⟩
    · show fs.fieldOffset + fs.fieldSize ≤ placed.nextoffset
      omega
    · have stands' : placed.nextoffset = fs.fieldOffset + fs.fieldSize := stands
      omega

/-- An anonymous aggregate that gets no place. -/
theorem visitAnon_dropped {isunion anonunion : Bool} {top : Nat} {alignment : StructAlign}
    {inner ad : Aggregate} {decl : PlacedList} {fs : FieldState}
    (steady : Steady target isunion top ad fs) (noLeaves : decl.leaves = [])
    (unplaced : decl.Below 0 ∧ ∀ bound, decl.Aligned bound)
    (sound : decl.Sound anonunion inner) :
    Steady target isunion top ad { fs with offset := ad.structsize } ∧
      Extends isunion top top ad ad (Placed.anonDeclaration anonunion alignment decl).leaves ∧
      (Placed.anonDeclaration anonunion alignment decl).Sound ad := by
  refine ⟨⟨steady.size, steady.top_le, steady.align, le_rfl, fun _ => rfl, fun inFlight => ?_⟩,
    ⟨le_rfl, le_rfl, le_rfl, fun _ r member => ?_, fun r member => ?_⟩,
    sound.disjoint, sound.encloses, fun _ => unplaced.2 _,
    PlacedList.Below.mono (Nat.zero_le _) decl unplaced.1⟩
  · have flight := steady.flight inFlight
    cases isunion with
    | true => exact flight
    | false =>
      have offset := steady.offset_eq rfl
      obtain ⟨inside, bits, gcc, top_le⟩ := flight
      rw [offset] at inside top_le
      exact ⟨inside, bits, gcc, top_le⟩
  · rw [Placed.leaves, noLeaves] at member
    exact absurd member List.not_mem_nil
  · rw [Placed.leaves, noLeaves] at member
    exact absurd member List.not_mem_nil

/-- An anonymous aggregate that is placed like a field. -/
theorem visitAnon_placed (reduces : Reduces u) {isunion anonunion : Bool} {top innerTop : Nat}
    {alignment : StructAlign} {inner ad ad' : Aggregate} {decl : PlacedList}
    {fs fs' fsInner : FieldState} {placed : Placed} (steady : Steady target isunion top ad fs)
    (steadyInner : Steady target anonunion innerTop inner fsInner)
    (inside : ∀ r ∈ decl.leaves, r.start ≤ r.stop ∧ r.stop ≤ innerTop)
    (sound : decl.Sound anonunion inner)
    (flat : inner.structsize = 0 → inner.alignsize ≤ 1) (counts : inner.fields ≠ ad.fields)
    (returned : visitAnon u isunion anonunion alignment inner decl ad fs =
      some (ad', fs', placed)) :
    ∃ top', Steady target isunion top' ad' fs' ∧
      Extends isunion top top' ad ad' placed.leaves ∧ placed.Sound ad' ∧
      visitAnon id isunion anonunion alignment inner decl ad fs = some (ad', fs', placed) := by
  rw [visitAnon, if_neg counts] at returned ⊢
  dsimp only at returned ⊢
  have positive : 0 < if inner.structsize = 0 then 1 else inner.structsize := by split <;> omega
  have sizeLe : inner.structsize ≤ if inner.structsize = 0 then 1 else inner.structsize := by
    split <;> omega
  have alignLe : inner.alignsize ≤ if inner.structsize = 0 then 1 else inner.alignsize := by
    split
    · exact flat ‹_›
    · exact le_rfl
  have pow : IsPow (if inner.structsize = 0 then 1 else inner.alignsize) := by
    split
    · exact ⟨0, rfl⟩
    · rcases steadyInner.align with pow | ⟨-, zero⟩
      · exact pow
      · exact absurd zero ‹_›
  generalize (if inner.structsize = 0 then 1 else inner.structsize) = size at *
  generalize (if inner.structsize = 0 then 1 else inner.alignsize) = a at *
  obtain ⟨placement, place, result⟩ := Option.map_eq_some_iff.1 returned
  obtain ⟨places, exactly⟩ := placeField_spec reduces pow place
  obtain ⟨rfl, rfl, rfl⟩ : _ ∧ _ ∧ _ := by simpa only [Prod.mk.injEq] using result
  have powActual := isPow_actualAlignment alignment pow
  obtain ⟨grows, small, struct, -, ends, alignGrows, alignBound, -⟩ :=
    steady.place powActual places
  have room := places.room
  have moved : decl.adjustBaseOffset u placement.memoffset =
      decl.adjustBaseOffset id placement.memoffset :=
    decl.adjustBaseOffset_exact reduces
      (show inner.structsize + placement.memoffset < 2 ^ 32 by omega) sound.below
  have top_le := steady.top_le
  have innerTop_le := steadyInner.top_le
  refine ⟨8 * placement.aggsize, steady_after_place steady powActual places rfl rfl rfl
    fun inFlight => steady.inFlight_place powActual positive places rfl rfl inFlight,
    ⟨grows, alignGrows, by omega, fun isStruct r member => ?_, fun r member => ?_⟩,
    ⟨?_, ?_, fun default => ?_, ?_⟩, ?_⟩
  · rw [Placed.leaves, moved, decl.leaves_adjustBaseOffset] at member
    obtain ⟨r', -, rfl⟩ := List.mem_map.1 member
    have := (struct isStruct).2.2
    show top ≤ r'.start + 8 * placement.memoffset
    omega
  · rw [Placed.leaves, moved, decl.leaves_adjustBaseOffset] at member
    obtain ⟨r', inner', rfl⟩ := List.mem_map.1 member
    obtain ⟨ordered, stop⟩ := inside r' inner'
    show r'.start + 8 * placement.memoffset ≤ r'.stop + 8 * placement.memoffset ∧
      r'.stop + 8 * placement.memoffset ≤ 8 * placement.aggsize
    omega
  · rw [Placed.Disjoint, moved]
    exact decl.disjoint_adjustBaseOffset _ _ sound.disjoint
  · rw [Placed.Encloses, moved]
    exact decl.encloses_adjustBaseOffset _ sound.encloses
  · rw [moved]
    have same : actualAlignment alignment a = a := by rw [default, actualAlignment]
    have aligned := places.aligned
    rw [same] at aligned alignBound
    refine decl.aligned_adjustBaseOffset (fun b powB le => ⟨?_, ?_⟩) sound.aligned
    · exact (powB.dvd_of_le pow (le.trans alignLe)).trans aligned
    · exact (le.trans alignLe).trans alignBound
  · rw [Placed.Below, moved]
    refine decl.below_adjustBaseOffset ?_ sound.below
    show inner.structsize + placement.memoffset ≤ placement.aggsize
    omega
  · rw [exactly, Option.map_some, moved]

/-- In an anonymous union the next member begins at offset 0 again. -/
theorem Steady.restart {isunion restart : Bool} {top : Nat} {ad : Aggregate} {fs : FieldState}
    (steady : Steady target isunion top ad fs) (onlyUnions : restart = true → isunion = true) :
    Steady target isunion top ad (if restart then { fs with offset := 0 } else fs) := by
  cases restart with
  | false => exact steady
  | true =>
    obtain rfl := onlyUnions rfl
    exact ⟨steady.size, steady.top_le, steady.align, Nat.zero_le _, nofun, steady.flight⟩

/-- One visit after another. -/
theorem Extends.append {isunion : Bool} {top top₁ top₂ : Nat} {ad ad₁ ad₂ : Aggregate}
    {first rest : List Range} (left : Extends isunion top top₁ ad ad₁ first)
    (right : Extends isunion top₁ top₂ ad₁ ad₂ rest) :
    Extends isunion top top₂ ad ad₂ (first ++ rest) := by
  refine ⟨left.size.trans right.size, left.align.trans right.align, left.bound.trans right.bound,
    fun isStruct r member => ?_, fun r member => ?_⟩
  · rcases List.mem_append.1 member with inFirst | inRest
    · exact left.low isStruct r inFirst
    · exact left.bound.trans (right.low isStruct r inRest)
  · rcases List.mem_append.1 member with inFirst | inRest
    · exact ⟨(left.high r inFirst).1, (left.high r inFirst).2.trans right.bound⟩
    · exact right.high r inRest

/-- A visit that returns grows if what it returns is larger. -/
theorem grows_of_returned {isunion : Bool} {member : Member} {ad ad' : Aggregate}
    {fs fs' : FieldState} {placed : Placed}
    (returned : member.setFieldOffset u target isunion ad fs = some (ad', fs', placed))
    (grows : ad.structsize ≤ ad'.structsize) : Grows u target isunion member ad fs := by
  intro ad'' fs'' placed' returned'
  rw [returned, Option.some.injEq, Prod.mk.injEq] at returned'
  rw [← returned'.1]
  exact grows

mutual

/-- A member that is visited in regular states only. -/
theorem Member.sound (reduces : Reduces u) {isunion : Bool} : ∀ (member : Member) {top : Nat}
    {ad ad' : Aggregate} {fs fs' : FieldState} {placed : Placed},
    Steady target isunion top ad fs →
    member.Visits u target (Regular u target) isunion ad fs →
    member.setFieldOffset u target isunion ad fs = some (ad', fs', placed) →
    (∃ top', Steady target isunion top' ad' fs' ∧
      Extends isunion top top' ad ad' placed.leaves ∧ placed.Sound ad') ∧
      member.Visits u target (Grows u target) isunion ad fs ∧
      member.setFieldOffset id target isunion ad fs = some (ad', fs', placed)
  | .varDeclaration f, top, ad, ad', fs, fs', placed, steady, _, returned => by
    obtain ⟨top', steady', extended, aligned, below, same⟩ := visitVar_spec reduces steady returned
    obtain ⟨offset, rfl⟩ := visitVar_placed returned
    exact ⟨⟨top', steady', extended, trivial, trivial, aligned, below⟩,
      grows_of_returned returned extended.size, same⟩
  | .bitFieldDeclaration b, top, ad, ad', fs, fs', placed, steady, regular, returned => by
    obtain ⟨top', steady', extended, encloses, below, same⟩ :=
      visitBitField_spec reduces steady regular returned
    obtain ⟨offset, bitOffset, rfl⟩ := visitBitField_placed returned
    exact ⟨⟨top', steady', extended, trivial, encloses, trivial, below⟩,
      grows_of_returned returned extended.size, same⟩
  | .anonDeclaration anonunion alignment decl, top, ad, ad', fs, fs', placed, steady,
      ⟨regularHere, regularInner⟩, returned => by
    have returnedHere := returned
    rw [Member.setFieldOffset, Option.bind_eq_some_iff] at returned
    obtain ⟨⟨inner, fsInner, placedInner⟩, run, visit⟩ := returned
    obtain ⟨noLeaves, flat⟩ := regularHere inner fsInner placedInner run
    obtain ⟨⟨innerTop, steadyInner, extendedInner, sound⟩, visitsInner, sameInner⟩ :=
      decl.sound reduces id (steady_init anonunion ad.fields) regularInner run
    have same : Member.setFieldOffset id target isunion
        (.anonDeclaration anonunion alignment decl) ad fs =
          visitAnon id isunion anonunion alignment inner placedInner ad fs := by
      rw [Member.setFieldOffset, sameInner, Option.bind_some]
    rw [same]
    by_cases empty : inner.fields = ad.fields
    · have unplaced := (decl.no_fields run).2 empty (noLeaves empty)
      obtain ⟨steady', extended, sound'⟩ := @visitAnon_dropped target isunion anonunion top alignment
        inner ad placedInner fs steady (noLeaves empty) unplaced sound
      dsimp only at visit
      rw [visitAnon, if_pos empty] at visit ⊢
      simp only [Option.some.injEq, Prod.mk.injEq] at visit
      obtain ⟨rfl, rfl, rfl⟩ := visit
      exact ⟨⟨top, steady', extended, sound'⟩,
        ⟨grows_of_returned returnedHere extended.size, visitsInner⟩, rfl⟩
    · obtain ⟨top', steady', extended, sound', same'⟩ := visitAnon_placed reduces steady steadyInner
        extendedInner.high sound (flat empty) empty visit
      exact ⟨⟨top', steady', extended, sound'⟩,
        ⟨grows_of_returned returnedHere extended.size, visitsInner⟩, same'⟩

/-- Members that are visited in regular states only. -/
theorem Members.sound (reduces : Reduces u) {isunion restart : Bool}
    (onlyUnions : restart = true → isunion = true) : ∀ (members : Members)
    {top : Nat} {ad ad' : Aggregate} {fs fs' : FieldState} {placed : PlacedList},
    Steady target isunion top ad fs →
    members.Visits u target (Regular u target) isunion restart ad fs →
    members.setFieldOffset u target isunion restart ad fs = some (ad', fs', placed) →
    (∃ top', Steady target isunion top' ad' fs' ∧
      Extends isunion top top' ad ad' placed.leaves ∧ placed.Sound isunion ad') ∧
      members.Visits u target (Grows u target) isunion restart ad fs ∧
      members.setFieldOffset id target isunion restart ad fs = some (ad', fs', placed)
  | .nil, top, ad, ad', fs, fs', placed, steady, _, returned => by
    rw [Members.setFieldOffset, Option.some.injEq, Prod.mk.injEq, Prod.mk.injEq] at returned
    obtain ⟨rfl, rfl, rfl⟩ := returned
    exact ⟨⟨top, steady, ⟨le_rfl, le_rfl, le_rfl, fun _ => nofun, nofun⟩,
      trivial, trivial, trivial, trivial⟩, trivial, rfl⟩
  | .cons member rest, top, ad, ad', fs, fs', placed, steady, ⟨regularFirst, regularRest⟩,
      returned => by
    rw [Members.setFieldOffset, Option.bind_eq_some_iff] at returned
    obtain ⟨⟨ad₁, fs₁, first⟩, visit, others⟩ := returned
    obtain ⟨⟨ad₂, fs₂, list⟩, run, result⟩ := Option.map_eq_some_iff.1 others
    obtain ⟨rfl, rfl, rfl⟩ : _ ∧ _ ∧ _ := by simpa only [Prod.mk.injEq] using result
    obtain ⟨⟨top₁, steady₁, extended₁, sound₁⟩, visits₁, same₁⟩ :=
      member.sound reduces steady regularFirst visit
    obtain ⟨⟨top₂, steady₂, extended₂, sound₂⟩, visits₂, same₂⟩ :=
      rest.sound reduces onlyUnions (steady₁.restart onlyUnions) (regularRest ad₁ fs₁ first visit)
        run
    refine ⟨⟨top₂, steady₂, extended₁.append extended₂, ?_, ?_, ?_, ?_⟩, ⟨visits₁, ?_⟩, ?_⟩
    · refine ⟨sound₁.disjoint, sound₂.disjoint, fun isStruct a inFirst b inRest => Or.inl ?_⟩
      exact (extended₁.high a inFirst).2.trans (extended₂.low isStruct b inRest)
    · exact ⟨sound₁.encloses, sound₂.encloses⟩
    · exact ⟨Placed.Aligned.mono extended₂.align first sound₁.aligned, sound₂.aligned⟩
    · exact ⟨Placed.Below.mono extended₂.size first sound₁.below, sound₂.below⟩
    · intro ad' fs' placed' visit'
      rw [visit, Option.some.injEq, Prod.mk.injEq, Prod.mk.injEq] at visit'
      obtain ⟨rfl, rfl, -⟩ := visit'
      exact visits₂
    · rw [Members.setFieldOffset, same₁, Option.bind_some]
      dsimp only
      rw [same₂, Option.map_some]

end

end LaserD.Layout
