/-
This file proves that the layout of a whole struct or union is sound when its
members are visited in regular states and its last rounding up does not leave 32
bits, and gives structs for which it is not: a bit-field need not lie inside of its
type, counted from the beginning of its field.
-/

import LaserD.Layout.Nesting

namespace LaserD.Layout

variable {u : Nat → Nat} {target : Target}

/-! ### The whole struct -/

/-- The state before the first member. -/
def Aggregate.empty : Aggregate := { structsize := 0, alignsize := 0, fields := 0 }

/-- The members of a struct are visited in regular states, and rounding up its size does not leave
32 bits. -/
structure RegularStruct (target : Target) (kind : ClassKind) (isunion : Bool)
    (alignment : StructAlign) (members : Members) : Prop where
  visits : members.Visits uint target (Regular uint target) isunion false .empty .init
  rounds : ∀ ad fs placed,
    members.setFieldOffset uint target isunion false .empty .init = some (ad, fs, placed) →
      (ad.sized target kind).structsize + (ad.sized target kind).boundary alignment - 1 < 2 ^ 32

/-- The alignment of a struct is positive before its size is rounded up, and its size does not
shrink. -/
theorem sized_spec {isunion : Bool} {top : Nat} {ad : Aggregate} {fs : FieldState}
    (steady : Steady target isunion top ad fs) (kind : ClassKind) (alignment : StructAlign) :
    ad.structsize ≤ (ad.sized target kind).structsize ∧
      ad.alignsize ≤ (ad.sized target kind).alignsize ∧
      0 < (ad.sized target kind).boundary alignment := by
  have positive : 0 < (ad.sized target kind).alignsize := by
    rw [Aggregate.sized]
    split
    · dsimp only
      split <;> omega
    · rcases steady.align with pow | ⟨-, zero⟩
      · exact pow.pos
      · exact absurd zero ‹_›
  refine ⟨?_, ?_, ?_⟩
  · rw [Aggregate.sized]
    split <;> omega
  · rw [Aggregate.sized]
    split
    · dsimp only
      split <;> omega
    · exact le_rfl
  · cases alignment with
    | default => exact positive
    | pack log => exact positive
    | explicit log => exact Nat.two_pow_pos log

/-- The layout of a struct or union whose members are visited in regular states. Members that are
not in the same union share no bits, every member ends inside of the struct, no member lowers the
size, every bit-field lies inside of its type once the whole units in front of it are taken off,
fields of default alignment are aligned, and nothing leaves 32 bits: the layout is the one in exact
arithmetic. -/
theorem finalizeSize_sound {kind : ClassKind} {isunion : Bool} {alignment : StructAlign}
    {members : Members} {ad : Aggregate} {placed : PlacedList}
    (regular : RegularStruct target kind isunion alignment members)
    (returned : finalizeSize uint target kind isunion alignment members = some (ad, placed)) :
    placed.Disjoint isunion ∧
      (∀ r ∈ placed.leaves, r.start ≤ r.stop ∧ r.stop ≤ 8 * ad.structsize) ∧
      members.Visits uint target (Grows uint target) isunion false .empty .init ∧
      placed.Encloses ∧ placed.Aligned ad.alignsize ∧
      finalizeSize id target kind isunion alignment members = some (ad, placed) ∧
      ad.structsize < 2 ^ 32 := by
  obtain ⟨⟨last, fs, placed'⟩, run, result⟩ := Option.map_eq_some_iff.1 returned
  obtain ⟨rfl, rfl⟩ : _ ∧ _ := by simpa only [Prod.mk.injEq] using result
  obtain ⟨⟨top, steady, extended, sound⟩, visits, same⟩ :=
    members.sound reduces_uint (fun restarts => absurd restarts Bool.false_ne_true) (steady_init isunion 0) regular.visits run
  have fits := regular.rounds last fs placed' run
  obtain ⟨grows, alignGrows, positive⟩ := sized_spec steady kind alignment
  obtain ⟨low, high, -⟩ := @roundUp_spec (last.sized target kind).structsize _ positive
  have exactly := roundUp_exact reduces_uint fits
  refine ⟨sound.disjoint, fun r member => ?_, visits, sound.encloses,
    PlacedList.Aligned.mono alignGrows placed' sound.aligned, ?_, ?_⟩
  · obtain ⟨ordered, stop⟩ := extended.high r member
    have top_le := steady.top_le
    refine ⟨ordered, ?_⟩
    dsimp only
    rw [exactly]
    omega
  · rw [finalizeSize, same, Option.map_some]
    dsimp only
    rw [exactly]
  · dsimp only
    rw [exactly]
    omega

/-! ### Structs -/

mutual

/-- Every bit-field lies inside of its type, counted from the beginning of its field. -/
def Placed.InType : Placed → Prop
  | .varDeclaration _ _ => True
  | .bitFieldDeclaration b _ bitOffset => bitOffset + b.fieldWidth ≤ b.memsize * 8
  | .anonDeclaration _ _ decl => decl.InType

/-- Every bit-field of a list lies inside of its type, counted from the beginning of its field. -/
def PlacedList.InType : PlacedList → Prop
  | .nil => True
  | .cons member rest => member.InType ∧ rest.InType

end

/-- A named bit-field of default alignment, whose type has its size for its alignment. -/
def namedBits (log width : Nat) (integral : log ≤ 4) (fits : width ≤ 2 ^ log * 8)
    (named : width ≠ 0) : BitField where
  anon := false
  memsizelog := log
  memalignlog := log
  fieldWidth := width
  alignment := .default
  integral := ⟨le_rfl, integral⟩
  fits := fits
  named := Or.inl named

/-- `int a : 9;` -/
def nineBits : BitField := namedBits 2 9 (by decide) (by decide) (by decide)

/-- `ubyte b : 3;` -/
def threeBits : BitField := namedBits 0 3 (by decide) (by decide) (by decide)

/-- `short x;` -/
def shortField : Field := { memsize := 2, memalignlog := 1, alignment := .default }

/-- The layout of bit-fields by gcc and clang. -/
def gcc : Target := { microsoft := false, anonContributes := false }

/-- `struct { int a : 9; ubyte b : 3; struct { short x; } }` -/
def narrowAfterWide : Members :=
  .cons (.bitFieldDeclaration nineBits)
    (.cons (.bitFieldDeclaration threeBits)
      (.cons (.anonDeclaration false .default (.cons (.varDeclaration shortField) .nil)) .nil))

/-- The state after the first bit-field. -/
def afterNine : Aggregate × FieldState :=
  ({ structsize := 2, alignsize := 4, fields := 1 },
    { offset := 2, fieldOffset := 0, fieldSize := 2, bitOffset := 9, inFlight := true })

/-- The state after the second bit-field. -/
def afterThree : Aggregate × FieldState :=
  ({ structsize := 2, alignsize := 4, fields := 2 },
    { offset := 2, fieldOffset := 0, fieldSize := 2, bitOffset := 12, inFlight := true })

/-- The state after the anonymous struct. -/
def afterShort : Aggregate × FieldState :=
  ({ structsize := 4, alignsize := 4, fields := 3 },
    { offset := 4, fieldOffset := 0, fieldSize := 2, bitOffset := 12, inFlight := true })

theorem visit_nineBits :
    Member.setFieldOffset uint gcc false (.bitFieldDeclaration nineBits) .empty .init =
      some (afterNine.1, afterNine.2, .bitFieldDeclaration nineBits 0 0) := by
  rfl

theorem visit_threeBits :
    Member.setFieldOffset uint gcc false (.bitFieldDeclaration threeBits) afterNine.1 afterNine.2 =
      some (afterThree.1, afterThree.2, .bitFieldDeclaration threeBits 0 9) := by
  rfl

theorem run_shortField :
    Members.setFieldOffset uint gcc false false (.cons (.varDeclaration shortField) .nil)
        afterThree.1.hijacked .init =
      some ({ structsize := 2, alignsize := 2, fields := 3 }, { FieldState.init with offset := 2 },
        .cons (.varDeclaration shortField 0) .nil) := by
  rfl

theorem visitAnon_shortField :
    visitAnon uint false false .default { structsize := 2, alignsize := 2, fields := 3 }
        (.cons (.varDeclaration shortField 0) .nil) afterThree.1 afterThree.2 =
      some (afterShort.1, afterShort.2,
        .anonDeclaration false .default (.cons (.varDeclaration shortField 2) .nil)) := by
  rfl

/-- The members of the struct: `b` continues the field of `a` at its bit 9, and `x` follows at
offset 2. -/
theorem run_narrowAfterWide :
    narrowAfterWide.setFieldOffset uint gcc false false .empty .init =
      some (afterShort.1, afterShort.2,
        .cons (.bitFieldDeclaration nineBits 0 0)
          (.cons (.bitFieldDeclaration threeBits 0 9)
            (.cons (.anonDeclaration false .default
              (.cons (.varDeclaration shortField 2) .nil)) .nil))) := by
  have inner : Member.setFieldOffset uint gcc false
      (.anonDeclaration false .default (.cons (.varDeclaration shortField) .nil)) afterThree.1
        afterThree.2 = some (afterShort.1, afterShort.2,
          .anonDeclaration false .default (.cons (.varDeclaration shortField 2) .nil)) := by
    rw [Member.setFieldOffset]
    show (Members.setFieldOffset uint gcc false false _ afterThree.1.hijacked .init).bind _ = _
    rw [run_shortField, Option.bind_some]
    exact visitAnon_shortField
  simp only [narrowAfterWide, Members.setFieldOffset, visit_nineBits, visit_threeBits, inner,
    Option.bind_some, Option.map_some, Bool.false_eq_true, if_false]

theorem finalizeSize_narrowAfterWide :
    finalizeSize uint gcc .d false .default narrowAfterWide =
      some ({ structsize := 4, alignsize := 4, fields := 3 },
        .cons (.bitFieldDeclaration nineBits 0 0)
          (.cons (.bitFieldDeclaration threeBits 0 9)
            (.cons (.anonDeclaration false .default
              (.cons (.varDeclaration shortField 2) .nil)) .nil))) := by
  rw [finalizeSize]
  show (narrowAfterWide.setFieldOffset uint gcc false false .empty .init).map _ = _
  rw [run_narrowAfterWide, Option.map_some]
  rfl

theorem regular_narrowAfterWide : RegularStruct gcc .d false .default narrowAfterWide := by
  refine ⟨⟨?_, ?_⟩, ?_⟩
  · exact fun continues => absurd continues.symm Bool.false_ne_true
  · intro ad fs placed first
    rw [visit_nineBits] at first
    cases first
    refine ⟨fun _ => ⟨fun _ => rfl, fun _ => Or.inl (Nat.dvd_zero _), ?_, ?_⟩, ?_⟩
    · show 9 + 3 + 7 < 2 ^ 32
      decide
    · show 0 + (9 + 3 + 7) / 8 < 2 ^ 32
      decide
    · intro ad fs placed second
      rw [if_neg Bool.false_ne_true, visit_threeBits] at second
      cases second
      refine ⟨⟨?_, trivial, fun _ _ _ _ => trivial⟩, fun _ _ _ _ => trivial⟩
      intro inner fs placed run
      rw [run_shortField] at run
      cases run
      exact ⟨fun same => absurd (show 3 = 2 from same) (by decide),
        fun _ empty => absurd (show 2 = 0 from empty) (by decide)⟩
  · intro ad fs placed run
    rw [run_narrowAfterWide] at run
    cases run
    show 4 + 4 - 1 < 2 ^ 32
    decide

/-- The layout of this struct is sound. -/
theorem finalizeSize_sound_narrowAfterWide :
    RegularStruct gcc .d false .default narrowAfterWide ∧
      ∃ ad placed, finalizeSize uint gcc .d false .default narrowAfterWide = some (ad, placed) ∧
        placed.Disjoint false ∧
        (∀ r ∈ placed.leaves, r.start ≤ r.stop ∧ r.stop ≤ 8 * ad.structsize) ∧
        placed.Encloses ∧ placed.Aligned ad.alignsize := by
  obtain ⟨disjoint, inside, -, encloses, aligned, -⟩ :=
    finalizeSize_sound regular_narrowAfterWide finalizeSize_narrowAfterWide
  exact ⟨regular_narrowAfterWide, _, _, finalizeSize_narrowAfterWide, disjoint, inside, encloses,
    aligned⟩

/-- A bit-field need not lie inside of its type, counted from the beginning of its field: it may
continue a field that is wider. -/
theorem bitOffset_beyond_type :
    ¬ ∀ (target : Target) (kind : ClassKind) (isunion : Bool) (alignment : StructAlign)
      (members : Members) (ad : Aggregate) (placed : PlacedList),
      finalizeSize uint target kind isunion alignment members = some (ad, placed) →
        placed.InType := by
  intro claimed
  obtain ⟨-, beyond, -⟩ := claimed _ _ _ _ _ _ _ finalizeSize_narrowAfterWide
  exact absurd (show 9 + 3 ≤ 1 * 8 from beyond) (by decide)

end LaserD.Layout
