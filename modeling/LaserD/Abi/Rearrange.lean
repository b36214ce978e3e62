/-
This file proves that equivalent types are passed in the same registers.

Types are rearranged, at any depth, by replacing consecutive fields of one type by a
static array, by replacing a type by an enum over it, and by exchanging members. The first
two keep the leaves as they are, the third permutes them. Merging is not associative, so
the order of the members is immaterial only where no eightbyte mixes an integer, an x87
and a third class.
-/

import LaserD.Abi.ArgTypes

namespace LaserD.Abi

/-! ### Rearranged types -/

/-- So many consecutive fields of one type, the first at an offset, before other fields. -/
def consecutive (offset : Nat) (type : Ty) : Nat → Fields → Fields
  | 0, rest => rest
  | n + 1, rest => .cons offset type (consecutive (offset + type.size) type n rest)

mutual

/-- Types that differ by enums, by static arrays in the place of equal consecutive fields
and, where they may be reordered, by the order of members. -/
inductive Rearranged (reorders : Prop) : Ty → Ty → Prop
  | refl (t : Ty) : Rearranged reorders t t
  | symm {t t' : Ty} : Rearranged reorders t t' → Rearranged reorders t' t
  | trans {t t' t'' : Ty} : Rearranged reorders t t' → Rearranged reorders t' t'' →
      Rearranged reorders t t''
  | enumOver (t : Ty) : Rearranged reorders t (.enum t)
  | enum {t t' : Ty} : Rearranged reorders t t' → Rearranged reorders (.enum t) (.enum t')
  | sarray {t t' : Ty} (dim : Nat) : Rearranged reorders t t' →
      Rearranged reorders (.sarray t dim) (.sarray t' dim)
  | struct {fields fields' : Fields} (structsize alignsize : Nat) :
      FieldsRearranged reorders fields fields' →
      Rearranged reorders (.struct fields structsize alignsize)
        (.struct fields' structsize alignsize)

/-- Fields that differ so. -/
inductive FieldsRearranged (reorders : Prop) : Fields → Fields → Prop
  | nil : FieldsRearranged reorders .nil .nil
  | trans {fields fields' fields'' : Fields} : FieldsRearranged reorders fields fields' →
      FieldsRearranged reorders fields' fields'' → FieldsRearranged reorders fields fields''
  | cons (offset : Nat) {t t' : Ty} {rest rest' : Fields} : Rearranged reorders t t' →
      FieldsRearranged reorders rest rest' →
      FieldsRearranged reorders (.cons offset t rest) (.cons offset t' rest')
  | swap (allowed : reorders) (offset offset' : Nat) (t t' : Ty) (rest : Fields) :
      FieldsRearranged reorders (.cons offset t (.cons offset' t' rest))
        (.cons offset' t' (.cons offset t rest))
  | gather (offset : Nat) (t : Ty) (n : Nat) (rest : Fields) :
      FieldsRearranged reorders (consecutive offset t (n + 1) rest)
        (.cons offset (.sarray t (n + 1)) rest)

end

/-- What rearranged types share: their size, their alignment, whether they are a scalar,
whether an aggregate in them has no members, and their leaves up to order. -/
structure Alike (reorders : Prop) (t t' : Ty) : Prop where
  size : t.size = t'.size
  scalar : t.scalar? = t'.scalar?
  memberless : hasMemberless t = hasMemberless t'
  perm : ∀ offset, (leaves t offset).Perm (leaves t' offset)
  same : ¬ reorders → ∀ offset, leaves t offset = leaves t' offset

/-- What rearranged fields share. -/
structure FieldsAlike (reorders : Prop) (fields fields' : Fields) : Prop where
  isNil : fields.isNil = fields'.isNil
  memberless : fieldsMemberless fields = fieldsMemberless fields'
  perm : ∀ offset, (fieldLeaves fields offset).Perm (fieldLeaves fields' offset)
  same : ¬ reorders → ∀ offset, fieldLeaves fields offset = fieldLeaves fields' offset

/-- The leaves of consecutive fields are those of a static array. -/
theorem fieldLeaves_consecutive (t : Ty) (rest : Fields) (base : Nat) :
    ∀ (n offset : Nat), fieldLeaves (consecutive offset t n rest) base =
      ((List.range n).flatMap fun i => leaves t (base + offset + i * t.size)) ++
        fieldLeaves rest base := by
  intro n
  induction n with
  | zero =>
    intro offset
    rfl
  | succ n inductionHypothesis =>
    intro offset
    rw [consecutive, fieldLeaves, inductionHypothesis, List.range_succ_eq_map, List.flatMap_cons,
      List.flatMap_map, Nat.zero_mul, Nat.add_zero, List.append_assoc]
    congr 2
    refine congrArg (fun f => (List.range n).flatMap f) (funext fun i => ?_)
    congr 1
    show base + (offset + t.size) + i * t.size = base + offset + (i + 1) * t.size
    rw [Nat.succ_mul]
    omega

theorem fieldsMemberless_consecutive (t : Ty) (rest : Fields) :
    ∀ (n offset : Nat), fieldsMemberless (consecutive offset t (n + 1) rest) =
      (hasMemberless t || fieldsMemberless rest) := by
  intro n
  induction n with
  | zero =>
    intro offset
    rw [consecutive, consecutive, fieldsMemberless]
  | succ n inductionHypothesis =>
    intro offset
    rw [consecutive, fieldsMemberless, inductionHypothesis, ← Bool.or_assoc, Bool.or_self]

mutual

theorem Rearranged.alike {reorders : Prop} :
    ∀ {t t' : Ty}, Rearranged reorders t t' → Alike reorders t t'
  | _, _, .refl t => ⟨rfl, rfl, rfl, fun _ => List.Perm.refl _, fun _ _ => rfl⟩
  | _, _, .symm other => by
    have alike := Rearranged.alike other
    exact ⟨alike.size.symm, alike.scalar.symm, alike.memberless.symm,
      fun offset => (alike.perm offset).symm, fun kept offset => (alike.same kept offset).symm⟩
  | _, _, .trans first second => by
    have alike := Rearranged.alike first
    have alike' := Rearranged.alike second
    exact ⟨alike.size.trans alike'.size, alike.scalar.trans alike'.scalar,
      alike.memberless.trans alike'.memberless,
      fun offset => (alike.perm offset).trans (alike'.perm offset),
      fun kept offset => (alike.same kept offset).trans (alike'.same kept offset)⟩
  | _, _, .enumOver t => by
    refine ⟨rfl, rfl, by rw [hasMemberless], fun offset => ?_, fun _ offset => ?_⟩
    · rw [leaves]
    · rw [leaves]
  | _, _, .enum inner => by
    have alike := Rearranged.alike inner
    refine ⟨alike.size, alike.scalar, ?_, fun offset => ?_, fun kept offset => ?_⟩
    · rw [hasMemberless, hasMemberless, alike.memberless]
    · rw [leaves, leaves]
      exact alike.perm offset
    · rw [leaves, leaves, alike.same kept]
  | _, _, .sarray dim inner => by
    have alike := Rearranged.alike inner
    refine ⟨?_, rfl, ?_, fun offset => ?_, fun kept offset => ?_⟩
    · rw [Ty.size, Ty.size, alike.size]
    · rw [hasMemberless, hasMemberless, alike.memberless]
    · rw [leaves, leaves, alike.size]
      exact List.Perm.flatMap_left _ fun i _ => alike.perm _
    · rw [leaves, leaves, alike.size]
      exact congrArg (fun f => (List.range dim).flatMap f) (funext fun i => alike.same kept _)
  | _, _, .struct structsize alignsize inner => by
    have alike := FieldsRearranged.alike inner
    refine ⟨rfl, rfl, ?_, fun offset => ?_, fun kept offset => ?_⟩
    · rw [hasMemberless, hasMemberless, alike.isNil, alike.memberless]
    · rw [leaves, leaves]
      exact alike.perm offset
    · rw [leaves, leaves, alike.same kept]

theorem FieldsRearranged.alike {reorders : Prop} :
    ∀ {fields fields' : Fields}, FieldsRearranged reorders fields fields' →
      FieldsAlike reorders fields fields'
  | _, _, .nil => ⟨rfl, rfl, fun _ => List.Perm.refl _, fun _ _ => rfl⟩
  | _, _, .trans first second => by
    have alike := FieldsRearranged.alike first
    have alike' := FieldsRearranged.alike second
    exact ⟨alike.isNil.trans alike'.isNil, alike.memberless.trans alike'.memberless,
      fun offset => (alike.perm offset).trans (alike'.perm offset),
      fun kept offset => (alike.same kept offset).trans (alike'.same kept offset)⟩
  | _, _, .cons offset inner rest => by
    have alike := Rearranged.alike inner
    have alike' := FieldsRearranged.alike rest
    refine ⟨rfl, ?_, fun base => ?_, fun kept base => ?_⟩
    · rw [fieldsMemberless, fieldsMemberless, alike.memberless, alike'.memberless]
    · rw [fieldLeaves, fieldLeaves]
      exact (alike.perm _).append (alike'.perm _)
    · rw [fieldLeaves, fieldLeaves, alike.same kept, alike'.same kept]
  | _, _, .swap allowed offset offset' t t' rest => by
    refine ⟨rfl, ?_, fun base => ?_, fun kept => absurd allowed kept⟩
    · rw [fieldsMemberless, fieldsMemberless, fieldsMemberless, fieldsMemberless,
        Bool.or_left_comm]
    · rw [fieldLeaves, fieldLeaves, fieldLeaves, fieldLeaves, ← List.append_assoc,
        ← List.append_assoc]
      exact List.perm_append_comm.append_right _
  | _, _, .gather offset t n rest => by
    have equal : ∀ base, fieldLeaves (consecutive offset t (n + 1) rest) base =
        fieldLeaves (.cons offset (.sarray t (n + 1)) rest) base := by
      intro base
      rw [fieldLeaves_consecutive, fieldLeaves, leaves]
    refine ⟨rfl, ?_, fun base => ?_, fun _ => equal⟩
    · rw [fieldsMemberless_consecutive, fieldsMemberless, hasMemberless,
        decide_eq_false (Nat.succ_ne_zero n), Bool.false_or]
    · rw [equal]

end

/-! ### The register types -/

/-- Rearranged types have the same register types in the psABI. -/
theorem Rearranged.psabiTypes_eq {reorders : Prop} {t t' : Ty}
    (rearranged : Rearranged reorders t t')
    (unmixed : reorders → ∀ k, ¬ Mixed (contributions (leaves t 0) k)) :
    psabiTypes t = psabiTypes t' := by
  have alike := rearranged.alike
  have unclassified : Unclassified t 0 ↔ Unclassified t' 0 := by
    unfold Unclassified
    simp only [alike.memberless, (alike.perm 0).mem_iff]
  have merged : mergedClass (leaves t 0) = mergedClass (leaves t' 0) := by
    funext k
    by_cases reordered : reorders
    · exact mergedClass_perm (alike.perm 0) (unmixed reordered) k
    · rw [alike.same reordered]
  have classes : psabiClasses t = psabiClasses t' := by
    rw [psabiClasses, psabiClasses, alike.scalar, alike.size, merged]
    cases t'.scalar? with
    | some s => rfl
    | none =>
      dsimp only
      by_cases inMemory : Unclassified t 0
      · rw [if_pos inMemory, if_pos (unclassified.mp inMemory)]
      · rw [if_neg inMemory, if_neg fun found => inMemory (unclassified.mpr found)]
  rw [psabiTypes, psabiTypes, classes, alike.size]

/-- The register types of every type of 1 to 32 bytes whose member enums are over
scalars are those of the psABI, and no assertion fails; enums and static arrays in the
place of equal consecutive fields change nothing, and neither does the order of members
where no eightbyte mixes an integer, an x87 and a third class. -/
theorem toArgTypes_psabi :
    (∀ t : Ty, WellFormed t → MembersPlain t → 0 < t.size → t.size ≤ 32 →
      toArgTypes t = some (.tuple (psabiTypes t))) ∧
    ∀ (reorders : Prop) (t t' : Ty), Rearranged reorders t t' →
      (reorders → ∀ k, ¬ Mixed (contributions (leaves t 0) k)) →
      WellFormed t → WellFormed t' → MembersPlain t → MembersPlain t' →
      0 < t.size → t.size ≤ 32 → toArgTypes t = toArgTypes t' := by
  refine ⟨fun t formed plain positive small => toArgTypes_eq formed plain positive small, ?_⟩
  intro reorders t t' rearranged unmixed formed formed' plain plain' positive small
  have size := rearranged.alike.size
  rw [toArgTypes_eq formed plain positive small,
    toArgTypes_eq formed' plain' (size ▸ positive) (size ▸ small),
    rearranged.psabiTypes_eq unmixed]

/-- A struct of two `float`, or of what stands in their place. -/
def floats (fields : Fields) : Ty :=
  .struct fields 8 4

/-- Two `float` fields, and the static array in their place, are passed alike. -/
theorem toArgTypes_psabi_floats :
    toArgTypes (floats (consecutive 0 (.scalar .float) 2 .nil)) =
        some (.tuple (psabiTypes (floats (consecutive 0 (.scalar .float) 2 .nil)))) ∧
      toArgTypes (floats (consecutive 0 (.scalar .float) 2 .nil)) =
        toArgTypes (floats (.cons 0 (.sarray (.scalar .float) 2) .nil)) := by
  have formed : WellFormed (floats (consecutive 0 (.scalar .float) 2 .nil)) := by
    refine ⟨⟨trivial, trivial, trivial⟩, Or.inr ⟨?_, ⟨_, List.mem_cons_self, rfl⟩,
      Or.inr ⟨_, List.mem_cons_self, rfl, Nat.dvd_zero 4⟩⟩⟩
    intro m member
    rcases List.mem_cons.mp member with rfl | member
    · decide
    · rw [List.mem_singleton.mp member]
      decide
  have formed' : WellFormed (floats (.cons 0 (.sarray (.scalar .float) 2) .nil)) := by
    refine ⟨⟨trivial, trivial⟩, Or.inr ⟨?_, ⟨_, List.mem_cons_self, rfl⟩,
      Or.inr ⟨_, List.mem_cons_self, rfl, Nat.dvd_zero 4⟩⟩⟩
    intro m member
    rw [List.mem_singleton.mp member]
    decide
  have plain : MembersPlain (floats (consecutive 0 (.scalar .float) 2 .nil)) := by
    intro m member
    rcases List.mem_cons.mp member with rfl | member
    · trivial
    · rw [List.mem_singleton.mp member]
      trivial
  have plain' : MembersPlain (floats (.cons 0 (.sarray (.scalar .float) 2) .nil)) := by
    intro m member
    rw [List.mem_singleton.mp member]
    trivial
  exact ⟨toArgTypes_psabi.1 _ formed plain (by decide) (by decide),
    toArgTypes_psabi.2 False _ _ (.struct 8 4 (.gather 0 (.scalar .float) 1 .nil)) nofun formed
      formed' plain plain' (by decide) (by decide)⟩

/-- The union of a `real`, a `double` and two `long`. -/
def realFirst : Ty :=
  .struct (.cons 0 (.scalar .real) (.cons 0 (.scalar .double)
    (.cons 0 (.sarray (.scalar .integral64) 2) .nil))) 16 16

/-- The same union with its members in the opposite order. -/
def realLast : Ty :=
  .struct (.cons 0 (.sarray (.scalar .integral64) 2) (.cons 0 (.scalar .double)
    (.cons 0 (.scalar .real) .nil))) 16 16

/-- The order of the members of a union decides whether it goes to memory. -/
theorem toArgTypes_of_order :
    Rearranged True realFirst realLast ∧ toArgTypes realFirst = some (.tuple []) ∧
      toArgTypes realLast = some (.tuple [.tint64, .tint64]) := by
  refine ⟨.struct 16 16 ?_, by decide, by decide⟩
  refine .trans (.swap trivial _ _ _ _ _) (.trans (.cons 0 (.refl _) (.swap trivial _ _ _ _ _)) ?_)
  exact .swap trivial _ _ _ _ _

end LaserD.Abi
