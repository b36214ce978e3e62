/-
This file proves that the layout of a struct is sound. The state between two
members is summed up by `Steady`: the next field goes to the end of the struct,
all bits given out so far lie below a bound, and while a bit-field is in flight and
nothing has been placed behind it, below its end. A member that is visited in a
regular state gets bits from that bound on, and the state is steady again.

The layout is followed in exact arithmetic at the same time: every sum that the
code makes stays below 2^32, so that the two layouts are the same.
-/

import LaserD.Layout.Ranges
import Mathlib.Tactic.Ring

namespace LaserD.Layout

variable {u : Nat → Nat} {target : Target}

/-! ### The state between two members -/

/-- The field in flight. In a union every bit-field begins at its first bit. In a struct it ends at
the next field, unless something has been placed behind it, and all bits given out lie below its
end then. -/
def InFlight (target : Target) (isunion : Bool) (top : Nat) (ad : Aggregate) (fs : FieldState) :
    Prop :=
  if isunion then fs.bitOffset = 0 ∧ fs.fieldOffset + fs.fieldSize ≤ ad.structsize
  else fs.fieldOffset + fs.fieldSize ≤ fs.offset ∧ fs.bitOffset ≤ 8 * fs.fieldSize ∧
    (target.microsoft = false → 8 * fs.fieldSize < fs.bitOffset + 8) ∧
    (fs.offset = fs.fieldOffset + fs.fieldSize → top ≤ 8 * fs.fieldOffset + fs.bitOffset)

/-- The state between two members, with the bound of the bits given out so far. -/
structure Steady (target : Target) (isunion : Bool) (top : Nat) (ad : Aggregate)
    (fs : FieldState) : Prop where
  size : ad.structsize < 2 ^ 32
  top_le : top ≤ 8 * ad.structsize
  align : IsPow ad.alignsize ∨ ad.alignsize = 0 ∧ ad.structsize = 0
  offset_le : fs.offset ≤ ad.structsize
  offset_eq : isunion = false → fs.offset = ad.structsize
  flight : fs.inFlight = true → InFlight target isunion top ad fs

mutual

/-- No offset is larger than a bound. -/
def Placed.Below (bound : Nat) : Placed → Prop
  | .varDeclaration _ offset => offset ≤ bound
  | .bitFieldDeclaration _ offset _ => offset ≤ bound
  | .anonDeclaration _ _ decl => decl.Below bound

/-- No offset of a list is larger than a bound. -/
def PlacedList.Below (bound : Nat) : PlacedList → Prop
  | .nil => True
  | .cons member rest => member.Below bound ∧ rest.Below bound

end

/-- What a visit does: the size and alignment of the aggregate grow, and in a struct the member
gets bits between the old bound and the new one. -/
structure Extends (isunion : Bool) (top top' : Nat) (ad ad' : Aggregate) (leaves : List Range) :
    Prop where
  size : ad.structsize ≤ ad'.structsize
  align : ad.alignsize ≤ ad'.alignsize
  bound : top ≤ top'
  low : isunion = false → ∀ r ∈ leaves, top ≤ r.start
  high : ∀ r ∈ leaves, r.start ≤ r.stop ∧ r.stop ≤ top'

/-! ### Ordinary fields -/

/-- Placing something in a steady state. -/
theorem Steady.place {isunion : Bool} {top size a : Nat} {ad : Aggregate} {fs : FieldState}
    (steady : Steady target isunion top ad fs) {placed : Placement} (pow : IsPow a)
    (places : Places fs.offset size a ad.structsize ad.alignsize isunion placed) :
    ad.structsize ≤ placed.aggsize ∧ placed.aggsize < 2 ^ 32 ∧
      (isunion = false → placed.aggsize = placed.memoffset + size ∧
        placed.nextoffset = placed.aggsize ∧ ad.structsize ≤ placed.memoffset) ∧
      placed.nextoffset ≤ placed.aggsize ∧
      placed.memoffset + size ≤ placed.aggsize ∧
      ad.alignsize ≤ placed.aggalignsize ∧ a ≤ placed.aggalignsize ∧
      IsPow placed.aggalignsize := by
  obtain ⟨low, -, room, dvd, nextEq, sizeEq, alignEq⟩ := places
  have offset_le := steady.offset_le
  have small := steady.size
  have next : placed.nextoffset ≤ max fs.offset (placed.memoffset + size) := by
    rw [nextEq]
    split <;> omega
  have isPow : IsPow placed.aggalignsize := by
    rw [alignEq]
    rcases steady.align with powOld | ⟨zero, -⟩
    · rcases max_choice ad.alignsize a with same | same <;> rw [same]
      · exact powOld
      · exact pow
    · rw [zero, Nat.zero_max]
      exact pow
  refine ⟨by omega, by omega, fun isStruct => ?_, by omega, by omega, by omega, by omega, isPow⟩
  have offset := steady.offset_eq isStruct
  rw [isStruct, if_neg Bool.false_ne_true] at nextEq
  omega

/-- The bound after something has been placed. -/
theorem steady_after_place {isunion : Bool} {top size a : Nat} {ad ad' : Aggregate}
    {fs fs' : FieldState} (steady : Steady target isunion top ad fs) {placed : Placement}
    (pow : IsPow a)
    (places : Places fs.offset size a ad.structsize ad.alignsize isunion placed)
    (size' : ad'.structsize = placed.aggsize) (align' : ad'.alignsize = placed.aggalignsize)
    (offset' : fs'.offset = placed.nextoffset)
    (flight' : fs'.inFlight = true → InFlight target isunion (8 * placed.aggsize) ad' fs') :
    Steady target isunion (8 * placed.aggsize) ad' fs' := by
  obtain ⟨grows, small, struct, next, -, -, -, isPow⟩ := steady.place pow places
  refine ⟨by rw [size']; exact small, by rw [size'], Or.inl (by rw [align']; exact isPow), ?_,
    fun isStruct => ?_, flight'⟩
  · rw [offset', size']
    exact next
  · rw [offset', size', (struct isStruct).2.1]

/-- An ordinary field. -/
theorem visitVar_spec (reduces : Reduces u) {isunion : Bool} {top : Nat} {f : Field}
    {ad ad' : Aggregate} {fs fs' : FieldState} {placed : Placed}
    (steady : Steady target isunion top ad fs)
    (returned : visitVar u isunion f ad fs = some (ad', fs', placed)) :
    ∃ top', Steady target isunion top' ad' fs' ∧
      Extends isunion top top' ad ad' placed.leaves ∧ placed.Aligned ad'.alignsize ∧
      placed.Below ad'.structsize ∧ visitVar id isunion f ad fs = some (ad', fs', placed) := by
  have pow : IsPow f.memalignsize := ⟨f.memalignlog, rfl⟩
  obtain ⟨placement, place, result⟩ := Option.map_eq_some_iff.1 returned
  obtain ⟨places, exact'⟩ := placeField_spec reduces pow place
  obtain ⟨rfl, rfl, rfl⟩ : _ ∧ _ ∧ _ := by simpa only [Prod.mk.injEq] using result
  have powActual := isPow_actualAlignment f.alignment pow
  obtain ⟨grows, small, struct, -, ends, alignGrows, alignBound, isPow⟩ :=
    steady.place powActual places
  refine ⟨8 * placement.aggsize, ?_, ⟨grows, alignGrows, ?_, fun isStruct r member => ?_,
    fun r member => ?_⟩, fun default => ?_, ?_, ?_⟩
  · exact steady_after_place steady powActual places rfl rfl rfl nofun
  · have := steady.top_le
    omega
  · rw [Placed.leaves, List.mem_singleton] at member
    have := steady.top_le
    have := (struct isStruct).2.2
    rw [member]
    show top ≤ 8 * placement.memoffset
    omega
  · rw [Placed.leaves, List.mem_singleton] at member
    rw [member]
    show 8 * placement.memoffset ≤ 8 * (placement.memoffset + f.memsize) ∧
      8 * (placement.memoffset + f.memsize) ≤ 8 * placement.aggsize
    omega
  · have same : actualAlignment f.alignment f.memalignsize = f.memalignsize := by
      rw [default, actualAlignment]
    rw [same] at places alignBound
    exact ⟨places.aligned, alignBound⟩
  · show placement.memoffset ≤ placement.aggsize
    omega
  · rw [visitVar, exact', Option.map_some]

/-! ### Bit-fields -/

theorem bitFieldAlign_spec {b : BitField} {ad : Aggregate}
    (align : IsPow ad.alignsize ∨ ad.alignsize = 0 ∧ ad.structsize = 0) :
    (bitFieldAlign target b ad).structsize = ad.structsize ∧
      ad.alignsize ≤ (bitFieldAlign target b ad).alignsize ∧
      IsPow (bitFieldAlign target b ad).alignsize := by
  have one : IsPow (if ad.alignsize = 0 then 1 else ad.alignsize) := by
    rcases align with pow | ⟨zero, -⟩
    · rw [if_neg pow.pos.ne']
      exact pow
    · rw [if_pos zero]
      exact ⟨0, rfl⟩
  have grows : ad.alignsize ≤ if ad.alignsize = 0 then 1 else ad.alignsize := by split <;> omega
  rw [bitFieldAlign]
  dsimp only
  generalize (if ad.alignsize = 0 then 1 else ad.alignsize) = least at one grows ⊢
  by_cases raised : (!target.microsoft && target.contributesToAggregateAlignment b &&
      decide (least < b.memalignsize)) = true
  · rw [if_pos raised]
    rw [Bool.and_eq_true, decide_eq_true_iff] at raised
    exact ⟨rfl, grows.trans raised.2.le, b.memalignlog, rfl⟩
  · rw [if_neg raised]
    exact ⟨rfl, grows, one⟩

/-- The alignment of the aggregate is raised before a bit-field is placed. -/
theorem Steady.bitFieldAlign {isunion : Bool} {top : Nat} {ad : Aggregate} {fs : FieldState}
    (steady : Steady target isunion top ad fs) (b : BitField) :
    Steady target isunion top (bitFieldAlign target b ad) fs := by
  obtain ⟨same, -, pow⟩ := @bitFieldAlign_spec target b ad steady.align
  refine ⟨by rw [same]; exact steady.size, by rw [same]; exact steady.top_le, Or.inl pow,
    by rw [same]; exact steady.offset_le, by rw [same]; exact steady.offset_eq,
    fun inFlight => ?_⟩
  have flight := steady.flight inFlight
  rw [InFlight] at flight ⊢
  rw [same]
  exact flight

/-- The size of a bit-field is at most the size of its type. -/
theorem BitField.bytes_le (b : BitField) : (b.fieldWidth + 7) / 8 ≤ b.memsize := by
  have fits : b.fieldWidth ≤ b.memsize * 8 := b.fits
  omega

theorem BitField.memsize_le (b : BitField) : b.memsize ≤ 16 :=
  Nat.pow_le_pow_right Nat.two_pos b.integral.2

theorem BitField.memalignsize_le (b : BitField) : b.memalignsize ≤ b.memsize :=
  Nat.pow_le_pow_right Nat.two_pos b.integral.1

/-- A bit-field of width zero. -/
theorem zeroWidth_spec (reduces : Reduces u) {isunion : Bool} {top : Nat} {b : BitField}
    {ad : Aggregate} {fs : FieldState} (steady : Steady target isunion top ad fs)
    (fits : isunion = false → fs.offset + b.memsize - 1 < 2 ^ 32) :
    Steady target isunion top (zeroWidth u target isunion b ad fs).1
        (zeroWidth u target isunion b ad fs).2 ∧
      ad.structsize ≤ (zeroWidth u target isunion b ad fs).1.structsize ∧
      (zeroWidth u target isunion b ad fs).1.alignsize = ad.alignsize ∧
      zeroWidth u target isunion b ad fs = zeroWidth id target isunion b ad fs := by
  have rounds : ∀ a, IsPow a → a ≤ b.memsize → isunion = false → IsPow ad.alignsize ∨
      ad.alignsize = 0 ∧ ad.structsize = 0 →
      roundUp u fs.offset a = roundUp id fs.offset a ∧
        Steady target isunion top { ad with structsize := roundUp id fs.offset a }
          { fs with offset := roundUp id fs.offset a, inFlight := false } ∧
        ad.structsize ≤ roundUp id fs.offset a := by
    intro a pow le isStruct align
    have bound := fits isStruct
    have offset := steady.offset_eq isStruct
    have positive := pow.pos
    obtain ⟨low, high, -⟩ := @roundUp_spec fs.offset a positive
    have top_le := steady.top_le
    refine ⟨roundUp_exact reduces (by omega),
      ⟨?_, ?_, ?_, le_rfl, fun _ => rfl, fun flight => by cases flight⟩, by omega⟩
    · show roundUp id fs.offset a < 2 ^ 32
      omega
    · show top ≤ 8 * roundUp id fs.offset a
      omega
    · rcases align with powOld | ⟨zero, empty⟩
      · exact Or.inl powOld
      · refine Or.inr ⟨zero, ?_⟩
        show roundUp id fs.offset a = 0
        rw [offset, empty, roundUp, id, Nat.zero_add, Nat.div_eq_of_lt (by omega), Nat.zero_mul]
  by_cases gcc : (!target.microsoft && !isunion) = true
  · obtain ⟨-, isStruct⟩ : _ ∧ isunion = false := by simpa using gcc
    obtain ⟨same, steady', grows⟩ := rounds b.memalignsize ⟨_, rfl⟩ b.memalignsize_le isStruct
      steady.align
    simp only [zeroWidth, if_pos gcc, same]
    exact ⟨steady', grows, trivial, trivial⟩
  · by_cases ms : (target.microsoft && fs.inFlight && !isunion) = true
    · obtain ⟨-, isStruct⟩ : _ ∧ isunion = false := by simpa using ms
      obtain ⟨same, steady', grows⟩ := rounds b.memsize ⟨_, rfl⟩ le_rfl isStruct steady.align
      simp only [zeroWidth, if_neg gcc, if_pos ms, same]
      exact ⟨steady', grows, trivial, trivial⟩
    · simp only [zeroWidth, if_neg gcc, if_neg ms]
      exact ⟨⟨steady.size, steady.top_le, steady.align, steady.offset_le, steady.offset_eq,
        fun flight => by cases flight⟩, le_rfl, trivial, trivial⟩

/-- What the state before the last step of a bit-field in a struct says: there is room for it behind
all bits given out. -/
structure Ready (target : Target) (b : BitField) (top oldsize : Nat) (ad : Aggregate)
    (fs : FieldState) : Prop where
  small : fs.bitOffset + b.fieldWidth + 7 < 2 ^ 32
  gcc : target.microsoft = false →
    fs.fieldOffset + (fs.bitOffset + b.fieldWidth + 7) / 8 < 2 ^ 32 ∧
      oldsize ≤ fs.fieldOffset + (fs.bitOffset + b.fieldWidth + 7) / 8
  microsoft : target.microsoft = true →
    ad.structsize = fs.fieldOffset + b.memsize ∧ ad.structsize < 2 ^ 32 ∧
      fs.bitOffset + b.fieldWidth ≤ 8 * b.memsize ∧ oldsize ≤ ad.structsize
  behind : top ≤ 8 * fs.fieldOffset + fs.bitOffset
  inFlight : fs.inFlight = true
  align : IsPow ad.alignsize

/-- The last step of a bit-field in a struct. -/
theorem continueField_struct (reduces : Reduces u) {b : BitField} {top oldsize : Nat}
    {ad : Aggregate} {fs : FieldState} (ready : Ready target b top oldsize ad fs) :
    Steady target false (8 * fs.fieldOffset + fs.bitOffset + b.fieldWidth)
        (continueField u target false b ad fs).1 (continueField u target false b ad fs).2 ∧
      oldsize ≤ (continueField u target false b ad fs).1.structsize ∧
      fs.fieldOffset ≤ (continueField u target false b ad fs).1.structsize ∧
      (continueField u target false b ad fs).1.alignsize = ad.alignsize ∧
      continueField u target false b ad fs = continueField id target false b ad fs := by
  have small := ready.small
  have past : u (fs.bitOffset + b.fieldWidth) = fs.bitOffset + b.fieldWidth :=
    reduces.small (by omega)
  have bytes : u (fs.bitOffset + b.fieldWidth + 7) = fs.bitOffset + b.fieldWidth + 7 :=
    reduces.small small
  cases style : target.microsoft with
  | false =>
    obtain ⟨room, grows⟩ := ready.gcc style
    have stop : u (fs.fieldOffset + (fs.bitOffset + b.fieldWidth + 7) / 8) =
        fs.fieldOffset + (fs.bitOffset + b.fieldWidth + 7) / 8 := reduces.small room
    simp only [continueField, style, past, bytes, stop, id, Bool.false_eq_true, if_false]
    refine ⟨⟨room, ?_, Or.inl ready.align, le_rfl, fun _ => rfl, fun _ => ?_⟩, grows, ?_, trivial,
      trivial⟩
    · show 8 * fs.fieldOffset + fs.bitOffset + b.fieldWidth ≤
        8 * (fs.fieldOffset + (fs.bitOffset + b.fieldWidth + 7) / 8)
      omega
    · rw [InFlight, if_neg Bool.false_ne_true]
      dsimp only
      omega
    · omega
  | true =>
    obtain ⟨sizeEq, room, fits, grows⟩ := ready.microsoft style
    have stop : u (fs.fieldOffset + b.memsize) = fs.fieldOffset + b.memsize :=
      reduces.small (by omega)
    simp only [continueField, style, past, stop, id, Bool.false_eq_true, if_false, if_true]
    refine ⟨⟨room, ?_, Or.inl ready.align, sizeEq.ge, fun _ => sizeEq.symm, fun _ => ?_⟩, grows, ?_,
      trivial, trivial⟩
    · rw [sizeEq]
      omega
    · rw [InFlight, if_neg Bool.false_ne_true, style]
      dsimp only
      refine ⟨le_rfl, fits, nofun, fun _ => ?_⟩
      omega
    · omega

/-- The last step of a bit-field in a union. -/
theorem continueField_union (reduces : Reduces u) {b : BitField} {ad : Aggregate} {fs : FieldState}
    (size : ad.structsize < 2 ^ 32) (align : IsPow ad.alignsize) (offset : fs.offset ≤ ad.structsize)
    (start : fs.bitOffset = 0) (small : fs.fieldOffset + (b.fieldWidth + 7) / 8 < 2 ^ 32)
    (room : target.microsoft = true → fs.fieldOffset + b.memsize ≤ ad.structsize) :
    Steady target true (8 * (continueField u target true b ad fs).1.structsize)
        (continueField u target true b ad fs).1 (continueField u target true b ad fs).2 ∧
      ad.structsize ≤ (continueField u target true b ad fs).1.structsize ∧
      8 * fs.fieldOffset + b.fieldWidth ≤ 8 * (continueField u target true b ad fs).1.structsize ∧
      (continueField u target true b ad fs).1.alignsize = ad.alignsize ∧
      continueField u target true b ad fs = continueField id target true b ad fs := by
  have fits : b.fieldWidth ≤ b.memsize * 8 := b.fits
  have memsize := b.memsize_le
  have past : u b.fieldWidth = b.fieldWidth := reduces.small (by omega)
  have bytes : u (b.fieldWidth + 7) = b.fieldWidth + 7 := reduces.small (by omega)
  have stop : u (fs.fieldOffset + (b.fieldWidth + 7) / 8) =
      fs.fieldOffset + (b.fieldWidth + 7) / 8 := reduces.small small
  cases style : target.microsoft with
  | false =>
    simp only [continueField, style, start, Nat.zero_add, past, bytes, stop, id,
      Bool.false_eq_true, if_false, if_true]
    refine ⟨⟨?_, le_rfl, Or.inl align, ?_, nofun, fun _ => ?_⟩, ?_, ?_, trivial, trivial⟩
    · dsimp only
      split <;> omega
    · dsimp only
      split <;> omega
    · rw [InFlight, if_pos rfl]
      refine ⟨rfl, ?_⟩
      dsimp only
      split <;> omega
    · split <;> omega
    · split <;> omega
  | true =>
    have enough := room style
    simp only [continueField, style, start, Nat.zero_add, past, bytes, stop, id, if_true]
    refine ⟨⟨size, le_rfl, Or.inl align, offset, nofun, fun _ => ?_⟩, le_rfl, by omega, trivial,
      trivial⟩
    rw [InFlight, if_pos rfl]
    exact ⟨rfl, enough⟩

theorem isPow_newFieldAlign (b : BitField) : IsPow (newFieldAlign target b) := by
  rw [newFieldAlign]
  split_ifs
  · exact ⟨_, rfl⟩
  · exact ⟨_, rfl⟩
  · exact ⟨2, rfl⟩
  · exact ⟨1, rfl⟩
  · exact ⟨0, rfl⟩

/-- A new field begins behind everything placed so far in a struct. -/
theorem startNewField_spec (reduces : Reduces u) {isunion : Bool} {top : Nat} {b : BitField}
    {ad ad' : Aggregate} {fs fs' : FieldState} (steady : Steady target isunion top ad fs)
    (pow : IsPow ad.alignsize)
    (returned : startNewField u target isunion b ad fs = some (ad', fs')) :
    (fs'.inFlight = true ∧ fs'.bitOffset = 0 ∧ IsPow ad'.alignsize ∧
      ad.alignsize ≤ ad'.alignsize ∧ ad.structsize ≤ ad'.structsize ∧
      ad'.structsize < 2 ^ 32 ∧ fs'.fieldOffset + b.memsize ≤ ad'.structsize) ∧
      (isunion = false →
        ad.structsize ≤ fs'.fieldOffset ∧ ad'.structsize = fs'.fieldOffset + b.memsize) ∧
      fs'.offset ≤ ad'.structsize ∧
      startNewField id target isunion b ad fs = some (ad', fs') := by
  obtain ⟨placement, place, result⟩ := Option.map_eq_some_iff.1 returned
  obtain ⟨places, exact'⟩ := placeField_spec reduces (isPow_newFieldAlign b) place
  obtain ⟨rfl, rfl⟩ : _ ∧ _ := by simpa only [Prod.mk.injEq] using result
  have powActual := isPow_actualAlignment b.alignment (@isPow_newFieldAlign target b)
  obtain ⟨grows, small, struct, next, ends, alignGrows, -, isPow⟩ :=
    steady.place powActual places
  refine ⟨⟨rfl, rfl, ?_, ?_, grows, small, ends⟩, fun isStruct => ?_, next, ?_⟩
  · dsimp only
    split
    · exact isPow
    · exact pow
  · dsimp only
    split
    · exact alignGrows
    · exact le_rfl
  · exact ⟨(struct isStruct).2.2, (struct isStruct).1⟩
  · rw [startNewField, exact', Option.map_some]

/-- The position of a bit-field in a unit of its type is not changed by the reduction. -/
theorem unit_eq (reduces : Reduces u) (b : BitField) (fs : FieldState) :
    u (u (fs.fieldOffset * 8) + fs.bitOffset) % (b.memalignsize * 8) =
      (8 * fs.fieldOffset + fs.bitOffset) % (b.memalignsize * 8) := by
  have log : b.memalignsize * 8 = 2 ^ (b.memalignlog + 3) := by
    rw [Nat.pow_add]
    rfl
  have short : b.memalignlog + 3 ≤ 32 := by
    have := b.integral
    omega
  rw [log, reduces.mod short, Nat.add_mod, reduces.mod short, ← Nat.add_mod, Nat.mul_comm]

/-- What is known of a bit-field that continues the one in flight. -/
theorem startsField_eq_false {b : BitField} {fs : FieldState} :
    startsField u target b fs = false ↔ fs.inFlight = true ∧
      (target.microsoft = false →
        (fs.bitOffset % (b.memalignsize * 8) = 0 →
          u (fs.bitOffset + b.fieldWidth) ≤ b.memsize * 8) ∧
        u (u (fs.fieldOffset * 8) + fs.bitOffset) % (b.memalignsize * 8) / (b.memsize * 8) =
          (u (u (fs.fieldOffset * 8) + fs.bitOffset) % (b.memalignsize * 8) + b.fieldWidth - 1) /
            (b.memsize * 8)) ∧
      (target.microsoft = true →
        b.memsize = fs.fieldSize ∧ u (fs.bitOffset + b.fieldWidth) ≤ fs.fieldSize * 8) := by
  rw [startsField]
  cases flight : fs.inFlight <;> cases style : target.microsoft <;> simp

/-- A bit-field that continues the one in flight lies in one unit of its type, counted from the
beginning of the aggregate. -/
theorem unit_of_startsField (reduces : Reduces u) {b : BitField} {fs : FieldState}
    (style : target.microsoft = false) (continues : startsField u target b fs = false) :
    (8 * fs.fieldOffset + fs.bitOffset) % (b.memalignsize * 8) + b.fieldWidth ≤ b.memsize * 8 := by
  have memalign := b.memalignsize_le
  have positive : 0 < b.memalignsize := Nat.two_pow_pos _
  have below : (8 * fs.fieldOffset + fs.bitOffset) % (b.memalignsize * 8) < b.memalignsize * 8 :=
    Nat.mod_lt _ (by omega)
  have same := ((startsField_eq_false.1 continues).2.1 style).2
  rw [unit_eq reduces, Nat.div_eq_of_lt (by omega), eq_comm, Nat.div_eq_zero_iff] at same
  omega

/-- Whether a bit-field continues the one in flight is decided as in exact arithmetic, if its end
does not leave 32 bits when it does. -/
theorem startsField_exact (reduces : Reduces u) {b : BitField} {fs : FieldState}
    (small : startsField u target b fs = false → fs.bitOffset + b.fieldWidth < 2 ^ 32) :
    startsField u target b fs = startsField id target b fs := by
  have le := reduces.le (fs.bitOffset + b.fieldWidth)
  rw [Bool.eq_iff_iff, ← not_iff_not, Bool.not_eq_true, Bool.not_eq_true]
  constructor
  · intro continues
    have same := reduces.small (small continues)
    obtain ⟨flight, gcc, microsoft⟩ := startsField_eq_false.1 continues
    rw [same, unit_eq reduces] at gcc
    rw [same] at microsoft
    refine startsField_eq_false.2 ⟨flight, ?_, microsoft⟩
    rw [unit_eq reduces_id]
    exact gcc
  · intro continues
    obtain ⟨flight, gcc, microsoft⟩ := startsField_eq_false.1 continues
    rw [unit_eq reduces_id] at gcc
    refine startsField_eq_false.2 ⟨flight, fun style => ?_, fun style => ?_⟩
    · rw [unit_eq reduces]
      exact ⟨fun zero => le.trans ((gcc style).1 zero), (gcc style).2⟩
    · exact ⟨(microsoft style).1, le.trans (microsoft style).2⟩

/-- What the state before the last step of a bit-field says. -/
def CanContinue (target : Target) (isunion : Bool) (b : BitField) (top oldsize : Nat)
    (ad : Aggregate) (fs : FieldState) : Prop :=
  if isunion then
    (ad.structsize < 2 ^ 32 ∧ oldsize ≤ ad.structsize ∧ IsPow ad.alignsize ∧
      fs.offset ≤ ad.structsize) ∧ fs.bitOffset = 0 ∧
      fs.fieldOffset + (b.fieldWidth + 7) / 8 < 2 ^ 32 ∧
      (target.microsoft = true → fs.fieldOffset + b.memsize ≤ ad.structsize)
  else Ready target b top oldsize ad fs

/-- The last step of a bit-field. -/
theorem continueField_spec (reduces : Reduces u) {isunion : Bool} {b : BitField} {top : Nat}
    {old ad : Aggregate} {fs : FieldState} (top_le : top ≤ 8 * old.structsize)
    (align : old.alignsize ≤ ad.alignsize)
    (ready : CanContinue target isunion b top old.structsize ad fs) :
    ∃ top', Steady target isunion top' (continueField u target isunion b ad fs).1
        (continueField u target isunion b ad fs).2 ∧
      Extends isunion top top' old (continueField u target isunion b ad fs).1
        (Placed.bitFieldDeclaration b fs.fieldOffset fs.bitOffset).leaves ∧
      fs.fieldOffset ≤ (continueField u target isunion b ad fs).1.structsize ∧
      continueField u target isunion b ad fs = continueField id target isunion b ad fs := by
  cases isunion with
  | true =>
    obtain ⟨⟨size, grows, pow, offset⟩, start, small, room⟩ := ready
    obtain ⟨steady, grows', width, alignEq, same⟩ :=
      continueField_union reduces size pow offset start small room
    refine ⟨_, steady, ⟨grows.trans grows', by rw [alignEq]; exact align, by omega, nofun,
      fun r member => ?_⟩, by omega, same⟩
    rw [Placed.leaves, start] at member
    split at member
    · exact absurd member List.not_mem_nil
    · rw [List.mem_singleton.1 member]
      dsimp only
      omega
  | false =>
    obtain ⟨steady, grows, inside, alignEq, same⟩ := continueField_struct reduces ready
    have behind := ready.behind
    refine ⟨_, steady, ⟨grows, by rw [alignEq]; exact align, by omega, fun _ r member => ?_,
      fun r member => ?_⟩, inside, same⟩
    · rw [Placed.leaves] at member
      split at member
      · exact absurd member List.not_mem_nil
      · rw [List.mem_singleton.1 member]
        exact behind
    · rw [Placed.leaves] at member
      split at member
      · exact absurd member List.not_mem_nil
      · rw [List.mem_singleton.1 member]
        dsimp only
        omega

/-- A bit-field that starts a new field has room for itself. -/
theorem canContinue_startNewField (reduces : Reduces u) {isunion : Bool} {top : Nat} {b : BitField}
    {ad ad' : Aggregate} {fs fs' : FieldState} (steady : Steady target isunion top ad fs)
    (pow : IsPow ad.alignsize)
    (returned : startNewField u target isunion b ad fs = some (ad', fs')) :
    CanContinue target isunion b top ad.structsize ad' fs' ∧ ad.alignsize ≤ ad'.alignsize ∧
      fs'.bitOffset = 0 ∧ startNewField id target isunion b ad fs = some (ad', fs') := by
  obtain ⟨⟨inFlight, bitOffset, pow', align, grows, size, room⟩, struct, next, same⟩ :=
    startNewField_spec reduces steady pow returned
  refine ⟨?_, align, bitOffset, same⟩
  have top_le := steady.top_le
  have bytes := b.bytes_le
  have fits : b.fieldWidth ≤ b.memsize * 8 := b.fits
  have memsize := b.memsize_le
  cases isunion with
  | true =>
    exact ⟨⟨size, grows, pow', next⟩, bitOffset, by omega, fun _ => room⟩
  | false =>
    obtain ⟨behind, sizeEq⟩ := struct rfl
    refine ⟨?_, fun _ => ?_, fun _ => ?_, ?_, inFlight, pow'⟩
    · omega
    · rw [bitOffset, Nat.zero_add]
      omega
    · omega
    · omega

/-- A bit-field that continues the one in flight has room for itself in a regular state. -/
theorem canContinue_inFlight (reduces : Reduces u) {isunion : Bool} {top : Nat} {b : BitField}
    {ad : Aggregate} {fs : FieldState} (steady : Steady target isunion top ad fs)
    (pow : IsPow ad.alignsize) (continues : startsField u target b fs = false)
    (behind : isunion = false → fs.offset = fs.fieldOffset + fs.fieldSize)
    (small : fs.bitOffset + b.fieldWidth + 7 < 2 ^ 32)
    (room : fs.fieldOffset + (fs.bitOffset + b.fieldWidth + 7) / 8 < 2 ^ 32) :
    CanContinue target isunion b top ad.structsize ad fs := by
  obtain ⟨inFlight, -, microsoft⟩ := startsField_eq_false.1 continues
  rw [reduces.small (show fs.bitOffset + b.fieldWidth < 2 ^ 32 by omega)] at microsoft
  have flight := steady.flight inFlight
  have size := steady.size
  cases isunion with
  | true =>
    obtain ⟨bitOffset, inside⟩ := flight
    rw [bitOffset, Nat.zero_add] at room
    refine ⟨⟨size, le_rfl, pow, steady.offset_le⟩, bitOffset, room, fun style => ?_⟩
    rw [(microsoft style).1]
    exact inside
  | false =>
    obtain ⟨-, -, gcc, top_le⟩ := flight
    have stands := behind rfl
    have offset := steady.offset_eq rfl
    refine ⟨small, fun style => ⟨room, ?_⟩, fun style => ?_, top_le stands, inFlight, pow⟩
    · have short := gcc style
      omega
    · obtain ⟨sameSize, fits⟩ := microsoft style
      omega

/-- A bit-field that continues the one in flight lies inside of its type. -/
theorem encloses_inFlight (reduces : Reduces u) {b : BitField} {fs : FieldState}
    (continues : startsField u target b fs = false)
    (unit : target.microsoft = false → b.memalignsize ∣ fs.fieldOffset ∨
      fs.bitOffset + b.fieldWidth ≤ b.memsize * 8)
    (small : fs.bitOffset + b.fieldWidth + 7 < 2 ^ 32) :
    (Placed.bitFieldDeclaration b fs.fieldOffset fs.bitOffset).Encloses := by
  cases style : target.microsoft with
  | true =>
    obtain ⟨sameSize, fits⟩ := (startsField_eq_false.1 continues).2.2 style
    rw [reduces.small (by omega), ← sameSize] at fits
    exact Or.inl fits
  | false =>
    rcases unit style with ⟨units, fieldOffset⟩ | inside
    · have inUnit := unit_of_startsField reduces style continues
      have multiple : 8 * fs.fieldOffset = b.memalignsize * 8 * units := by
        rw [fieldOffset]
        ring
      rw [multiple, Nat.mul_add_mod] at inUnit
      exact Or.inr inUnit
    · exact Or.inl inside

/-- A bit-field. -/
theorem visitBitField_spec (reduces : Reduces u) {isunion : Bool} {top : Nat} {b : BitField}
    {ad ad' : Aggregate} {fs fs' : FieldState} {placed : Placed}
    (steady : Steady target isunion top ad fs)
    (regular : Regular u target isunion (.bitFieldDeclaration b) ad fs)
    (returned : visitBitField u target isunion b ad fs = some (ad', fs', placed)) :
    ∃ top', Steady target isunion top' ad' fs' ∧
      Extends isunion top top' ad ad' placed.leaves ∧ placed.Encloses ∧
      placed.Below ad'.structsize ∧
      visitBitField id target isunion b ad fs = some (ad', fs', placed) := by
  have raised := steady.bitFieldAlign b
  obtain ⟨sizeEq, alignGrows, pow⟩ := @bitFieldAlign_spec target b ad steady.align
  have top_le : top ≤ 8 * (bitFieldAlign target b ad).structsize := raised.top_le
  have extendsFrom : ∀ {top' ad' leaves},
      Extends isunion top top' (bitFieldAlign target b ad) ad' leaves →
        Extends isunion top top' ad ad' leaves := fun extended =>
    ⟨sizeEq ▸ extended.size, alignGrows.trans extended.align, extended.bound, extended.low,
      extended.high⟩
  rw [Regular] at regular
  by_cases zero : b.fieldWidth = 0
  · rw [if_pos zero] at regular
    obtain ⟨steady', grows, alignEq, same⟩ := zeroWidth_spec reduces raised regular
    simp only [visitBitField, if_pos zero, Option.some.injEq, Prod.mk.injEq] at returned
    obtain ⟨rfl, rfl, rfl⟩ := returned
    refine ⟨top, steady', extendsFrom ⟨grows, alignEq.ge, le_rfl, ?_, ?_⟩, ?_, Nat.zero_le _, ?_⟩
    · rw [Placed.leaves, if_pos zero]
      exact fun _ => nofun
    · rw [Placed.leaves, if_pos zero]
      exact nofun
    · rw [Placed.Encloses, zero]
      exact Or.inl (Nat.zero_le _)
    · rw [visitBitField, if_pos zero, same]
  · rw [if_neg zero] at regular
    have sameStart : startsField u target b fs = startsField id target b fs :=
      startsField_exact reduces fun continues => by
        have := (regular continues).2.2.1
        omega
    simp only [visitBitField, if_neg zero, Option.map_eq_some_iff, Prod.mk.injEq, Prod.exists]
      at returned ⊢
    rw [← sameStart]
    obtain ⟨ad₁, fs₁, start, rfl, rfl, rfl⟩ := returned
    cases starts : startsField u target b fs with
    | true =>
      rw [starts, if_pos rfl] at start
      obtain ⟨ready, align, first, exactly⟩ := canContinue_startNewField reduces raised pow start
      obtain ⟨top', steady', extended, below, same⟩ :=
        continueField_spec reduces top_le align ready
      refine ⟨top', steady', extendsFrom extended, ?_, below, ad₁, fs₁, ?_⟩
      · rw [Placed.Encloses, first, Nat.zero_add]
        exact Or.inl b.fits
      · rw [if_pos rfl, same]
        exact ⟨exactly, rfl, rfl, rfl⟩
    | false =>
      rw [starts, if_neg Bool.false_ne_true, Option.some.injEq, Prod.mk.injEq] at start
      obtain ⟨rfl, rfl⟩ := start
      obtain ⟨behind, unit, small, room⟩ := regular starts
      obtain ⟨top', steady', extended, below, same⟩ :=
        continueField_spec reduces top_le le_rfl
          (canContinue_inFlight reduces raised pow starts behind small room)
      refine ⟨top', steady', extendsFrom extended, encloses_inFlight reduces starts unit small,
        below, bitFieldAlign target b ad, fs, ?_⟩
      rw [if_neg Bool.false_ne_true, same]
      exact ⟨rfl, rfl, rfl, rfl⟩

end LaserD.Layout
