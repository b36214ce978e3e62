/-
This file proves that the visitor merges the classes of the scalar leaves.

The loops over fields and over elements are one walk over a list of members. Where every
leaf is aligned and no aggregate is without members, the walk merges the class of each
leaf into its eightbytes, in the order of the leaves; otherwise it leaves memory in every
eightbyte, since memory absorbs what is merged into it afterwards. None of the assertions
on the way fails: a member is looked at only once it is known to be aligned.
-/

import LaserD.Abi.PsAbi

namespace LaserD.Abi

/-! ### Members -/

/-- The fields with their offsets. -/
def Fields.toList : Fields → List (Nat × Ty)
  | nil => []
  | cons offset type rest => (offset, type) :: rest.toList

theorem Fields.isNil_iff (fields : Fields) : fields.isNil = true ↔ fields.toList = [] := by
  cases fields
  · exact iff_of_true rfl rfl
  · exact iff_of_false nofun nofun

/-- The members of an aggregate with their offsets: fields, or elements. -/
def Ty.members : Ty → List (Nat × Ty)
  | sarray next dim => (List.range dim).map fun i => (i * next.size, next)
  | struct fields _ _ => fields.toList
  | scalar _ => []
  | enum _ => []

mutual

/-- Induction over a type: what holds of the members holds of the aggregate. -/
theorem Ty.inductionOn {P : Ty → Prop} (scalar : ∀ s, P (.scalar s))
    (enum : ∀ base, P base → P (.enum base)) (sarray : ∀ next dim, P next → P (.sarray next dim))
    (struct : ∀ fields structsize alignsize, (∀ f ∈ fields.toList, P f.2) →
      P (.struct fields structsize alignsize)) : ∀ t, P t
  | .scalar s => scalar s
  | .enum base => enum base (Ty.inductionOn scalar enum sarray struct base)
  | .sarray next dim => sarray next dim (Ty.inductionOn scalar enum sarray struct next)
  | .struct fields structsize alignsize =>
    struct fields structsize alignsize (Fields.inductionOn scalar enum sarray struct fields)

theorem Fields.inductionOn {P : Ty → Prop} (scalar : ∀ s, P (.scalar s))
    (enum : ∀ base, P base → P (.enum base)) (sarray : ∀ next dim, P next → P (.sarray next dim))
    (struct : ∀ fields structsize alignsize, (∀ f ∈ fields.toList, P f.2) →
      P (.struct fields structsize alignsize)) : ∀ fields : Fields, ∀ f ∈ fields.toList, P f.2
  | .nil, _, member => nomatch member
  | .cons offset type rest, f, member => by
    rcases List.mem_cons.mp member with rfl | member'
    · exact Ty.inductionOn scalar enum sarray struct type
    · exact Fields.inductionOn scalar enum sarray struct rest f member'

end

/-- An aggregate is a static array or a struct. -/
def Ty.isAggregate : Ty → Bool
  | sarray _ _ => true
  | struct _ _ _ => true
  | scalar _ => false
  | enum _ => false

/-- Induction over a type, with static arrays and structs as one case. -/
theorem Ty.inductionOnMembers {P : Ty → Prop} (scalar : ∀ s, P (.scalar s))
    (enum : ∀ base, P base → P (.enum base))
    (aggregate : ∀ t : Ty, t.isAggregate = true → (∀ m ∈ t.members, P m.2) → P t) :
    ∀ t, P t := by
  refine Ty.inductionOn scalar enum ?_ ?_
  · intro next dim holds
    refine aggregate _ rfl ?_
    intro m member
    obtain ⟨i, -, rfl⟩ := List.mem_map.mp member
    exact holds
  · intro fields structsize alignsize holds
    exact aggregate _ rfl holds

theorem fieldLeaves_eq : ∀ (fields : Fields) (base : Nat),
    fieldLeaves fields base = fields.toList.flatMap fun f => leaves f.2 (base + f.1)
  | .nil, _ => by rw [fieldLeaves, Fields.toList, List.flatMap_nil]
  | .cons offset type rest, base => by
    rw [fieldLeaves, fieldLeaves_eq rest base, Fields.toList, List.flatMap_cons]

theorem fieldsMemberless_iff : ∀ fields : Fields,
    fieldsMemberless fields = true ↔ ∃ f ∈ fields.toList, hasMemberless f.2 = true
  | .nil => iff_of_false (by rw [fieldsMemberless]; decide) (by rintro ⟨f, member, _⟩; cases member)
  | .cons offset type rest => by
    rw [fieldsMemberless, Bool.or_eq_true, fieldsMemberless_iff rest, Fields.toList]
    simp only [List.mem_cons, exists_eq_or_imp]

/-- The leaves of an aggregate are those of its members. -/
theorem leaves_of_members {t : Ty} (aggregate : t.isAggregate = true) (offset : Nat) :
    leaves t offset = t.members.flatMap fun m => leaves m.2 (offset + m.1) := by
  cases t with
  | scalar s => cases aggregate
  | enum base => cases aggregate
  | sarray next dim =>
    rw [leaves, Ty.members, List.flatMap_map]
  | struct fields structsize alignsize => rw [leaves, fieldLeaves_eq, Ty.members]

theorem hasMemberless_of_members {t : Ty} (aggregate : t.isAggregate = true) :
    hasMemberless t = true ↔ t.members = [] ∨ ∃ m ∈ t.members, hasMemberless m.2 = true := by
  cases t with
  | scalar s => cases aggregate
  | enum base => cases aggregate
  | sarray next dim =>
    rw [hasMemberless, Bool.or_eq_true, decide_eq_true_iff, Ty.members]
    cases dim with
    | zero => exact iff_of_true (Or.inl rfl) (Or.inl rfl)
    | succ dim =>
      simp only [Nat.succ_ne_zero, false_or, List.map_eq_nil_iff, List.range_eq_nil, List.mem_map,
        List.mem_range, exists_exists_and_eq_and]
      exact ⟨fun empty => ⟨0, Nat.succ_pos dim, empty⟩, fun ⟨_, _, empty⟩ => empty⟩
  | struct fields structsize alignsize =>
    rw [hasMemberless, Bool.or_eq_true, Fields.isNil_iff, fieldsMemberless_iff, Ty.members]

/-! ### The walk -/

/-- The loop of `classifyFields` over a list of members. -/
def walk (numEightbytes baseOffset : Nat) : List (Nat × Ty) → Result → Option Result
  | [], result => some result
  | m :: rest, result =>
    if (baseOffset + m.1) &&& (m.2.alignsize - 1) ≠ 0 then some (memory numEightbytes result)
    else
      match classifyMember m.2 numEightbytes (baseOffset + m.1) result with
      | none => none
      | some result' => walk numEightbytes baseOffset rest result'

theorem fieldLoop_eq_walk (n base : Nat) : ∀ (fields : Fields) (result : Result),
    fieldLoop fields n base result = walk n base fields.toList result
  | .nil, result => by rw [fieldLoop, Fields.toList, walk]
  | .cons offset type rest, result => by
    rw [fieldLoop, Fields.toList, walk]
    simp only [fieldLoop_eq_walk n base rest] <;> rfl

theorem elementLoop_eq_walk (next : Ty) (n base : Nat) :
    ∀ (left i : Nat) (result : Result),
      elementLoop (classifyMember next n) n base next.size next.alignsize left i result =
        walk n base ((List.range' i left).map fun j => (j * next.size, next)) result := by
  intro left
  induction left with
  | zero =>
    intro i result
    rfl
  | succ left inductionHypothesis =>
    intro i result
    rw [elementLoop, List.range'_succ, List.map_cons, walk]
    simp only [inductionHypothesis] <;> rfl

/-- An aggregate as a member is a walk over its members, or memory. -/
theorem classifyMember_aggregate {t : Ty} (aggregate : t.isAggregate = true)
    (n offset : Nat) (result : Result) :
    classifyMember t n offset result =
      if t.members = [] then some (memory n result) else walk n offset t.members result := by
  cases t with
  | scalar s => cases aggregate
  | enum base => cases aggregate
  | sarray next dim =>
    rw [classifyMember, classifyFields, elementLoop_eq_walk, Ty.members, List.range_eq_range']
    cases dim with
    | zero => rfl
    | succ dim => simp [List.range'_succ]
  | struct fields structsize alignsize =>
    rw [classifyMember, classifyFields, fieldLoop_eq_walk, Ty.members]
    simp only [Fields.isNil_iff]

/-- An aggregate by itself is a walk over its members and the post-merger rules. -/
theorem classify_aggregate {t : Ty} (aggregate : t.isAggregate = true) (size : Nat) :
    classify t size = (classifyMember t (eightbytes size) 0 fun _ => .noClass).map
      (finalizeAggregate (eightbytes size)) := by
  cases t with
  | scalar s => cases aggregate
  | enum base => cases aggregate
  | sarray next dim => rw [classify, classifyMember]
  | struct fields structsize alignsize => rw [classify, classifyMember]

/-! ### Well formed types -/

/-- The members of an aggregate lie inside it, one of them at its beginning, and its
alignment is that of a member that lies at a multiple of it, or it is packed. -/
structure Placed (members : List (Nat × Ty)) (size alignsize : Nat) : Prop where
  within : ∀ m ∈ members, m.1 + m.2.size ≤ size
  first : ∃ m ∈ members, m.1 = 0
  aligned : alignsize = 1 ∨ ∃ m ∈ members, m.2.alignsize = alignsize ∧ alignsize ∣ m.1

mutual

/-- Every struct in the type is naturally aligned or packed, and holds its fields. -/
def WellFormed : Ty → Prop
  | .scalar _ => True
  | .enum base => WellFormed base
  | .sarray next _ => WellFormed next
  | .struct fields structsize alignsize =>
    FieldsWellFormed fields ∧
      ((fields.toList = [] ∧ alignsize = 1) ∨ Placed fields.toList structsize alignsize)

/-- Every struct in the fields is naturally aligned or packed, and holds its fields. -/
def FieldsWellFormed : Fields → Prop
  | .nil => True
  | .cons _ type rest => WellFormed type ∧ FieldsWellFormed rest

end

mutual

/-- As a member: every enum in the type is over a scalar. -/
def Plain : Ty → Prop
  | .scalar _ => True
  | .enum base => base.scalar? ≠ none
  | .sarray next _ => Plain next
  | .struct fields _ _ => FieldsPlain fields

/-- Every enum in the fields is over a scalar. -/
def FieldsPlain : Fields → Prop
  | .nil => True
  | .cons _ type rest => Plain type ∧ FieldsPlain rest

end

/-- By itself: every enum that is the type of a member, at any depth, is over a scalar. -/
def MembersPlain (t : Ty) : Prop :=
  ∀ m ∈ (toBasetype t).members, Plain m.2

theorem fieldsWellFormed_iff : ∀ fields : Fields,
    FieldsWellFormed fields ↔ ∀ f ∈ fields.toList, WellFormed f.2
  | .nil => by
    rw [FieldsWellFormed, Fields.toList]
    exact iff_of_true trivial nofun
  | .cons offset type rest => by
    rw [FieldsWellFormed, fieldsWellFormed_iff rest, Fields.toList]
    simp only [List.forall_mem_cons]

theorem fieldsPlain_iff : ∀ fields : Fields,
    FieldsPlain fields ↔ ∀ f ∈ fields.toList, Plain f.2
  | .nil => by
    rw [FieldsPlain, Fields.toList]
    exact iff_of_true trivial nofun
  | .cons offset type rest => by
    rw [FieldsPlain, fieldsPlain_iff rest, Fields.toList]
    simp only [List.forall_mem_cons]

theorem WellFormed.of_member {t : Ty} (formed : WellFormed t) {m : Nat × Ty}
    (member : m ∈ t.members) : WellFormed m.2 := by
  cases t with
  | scalar s => cases member
  | enum base => cases member
  | sarray next dim =>
    obtain ⟨i, -, rfl⟩ := List.mem_map.mp member
    rw [WellFormed] at formed
    exact formed
  | struct fields structsize alignsize =>
    rw [WellFormed, fieldsWellFormed_iff] at formed
    exact formed.1 m member

theorem Plain.of_member {t : Ty} (plain : Plain t) {m : Nat × Ty} (member : m ∈ t.members) :
    Plain m.2 := by
  cases t with
  | scalar s => cases member
  | enum base => cases member
  | sarray next dim =>
    obtain ⟨i, -, rfl⟩ := List.mem_map.mp member
    rw [Plain] at plain
    exact plain
  | struct fields structsize alignsize =>
    rw [Plain, fieldsPlain_iff] at plain
    exact plain m member

theorem WellFormed.placed {t : Ty} (formed : WellFormed t) (aggregate : t.isAggregate = true)
    (some : t.members ≠ []) : Placed t.members t.size t.alignsize := by
  cases t with
  | scalar s => cases aggregate
  | enum base => cases aggregate
  | sarray next dim =>
    have positive : 0 < dim := by
      rw [Nat.pos_iff_ne_zero]
      rintro rfl
      exact some rfl
    have zero : ((0 * next.size, next) : Nat × Ty) ∈ (Ty.sarray next dim).members :=
      List.mem_map.mpr ⟨0, List.mem_range.mpr positive, rfl⟩
    refine ⟨?_, ⟨_, zero, Nat.zero_mul _⟩, Or.inr ⟨_, zero, rfl, ?_⟩⟩
    · intro m member
      obtain ⟨i, inside, rfl⟩ := List.mem_map.mp member
      have least : (i + 1) * next.size ≤ dim * next.size :=
        Nat.mul_le_mul_right _ (List.mem_range.mp inside)
      rw [Nat.succ_mul] at least
      exact least
    · rw [Nat.zero_mul]
      exact Nat.dvd_zero _
  | struct fields structsize alignsize =>
    rw [WellFormed] at formed
    rcases formed.2 with ⟨empty, -⟩ | placed
    · exact absurd empty some
    · exact placed

/-! ### Alignment -/

theorem Scalar.alignsize_pow (s : Scalar) : ∃ k, s.alignsize = 2 ^ k := by
  cases s
  case integral8 => exact ⟨0, rfl⟩
  case integral16 => exact ⟨1, rfl⟩
  case integral32 => exact ⟨2, rfl⟩
  case float => exact ⟨2, rfl⟩
  case real => exact ⟨4, rfl⟩
  case vector16 => exact ⟨4, rfl⟩
  case vector32 => exact ⟨5, rfl⟩
  all_goals exact ⟨3, rfl⟩

/-- An alignment is a power of two. -/
theorem WellFormed.alignsize_pow : ∀ t : Ty, WellFormed t → ∃ k, t.alignsize = 2 ^ k := by
  refine Ty.inductionOn ?_ ?_ ?_ ?_
  · intro s _
    exact s.alignsize_pow
  · intro base inductionHypothesis formed
    rw [WellFormed] at formed
    exact inductionHypothesis formed
  · intro next dim inductionHypothesis formed
    rw [WellFormed] at formed
    exact inductionHypothesis formed
  · intro fields structsize alignsize inductionHypothesis formed
    have formed' := formed
    rw [WellFormed] at formed
    rcases formed.2 with ⟨-, packed⟩ | placed
    · exact ⟨0, packed⟩
    · rcases placed.aligned with packed | ⟨m, member, same, -⟩
      · exact ⟨0, packed⟩
      · obtain ⟨k, power⟩ := inductionHypothesis m member
          (@WellFormed.of_member (.struct fields structsize alignsize) formed' m member)
        exact ⟨k, same.symm.trans power⟩

/-- The mask test of the source is a test of divisibility. -/
theorem mask_eq_zero {t : Ty} (formed : WellFormed t) (offset : Nat) :
    offset &&& (t.alignsize - 1) = 0 ↔ t.alignsize ∣ offset := by
  obtain ⟨k, power⟩ := WellFormed.alignsize_pow t formed
  rw [power, Nat.and_two_pow_sub_one_eq_mod, Nat.dvd_iff_mod_eq_zero]

theorem unclassified_of_members {t : Ty} (aggregate : t.isAggregate = true) (offset : Nat) :
    Unclassified t offset ↔
      t.members = [] ∨ ∃ m ∈ t.members, Unclassified m.2 (offset + m.1) := by
  unfold Unclassified
  rw [hasMemberless_of_members aggregate, leaves_of_members aggregate]
  constructor
  · rintro ((empty | ⟨m, member, memberless⟩) | ⟨leaf, inside, unaligned⟩)
    · exact Or.inl empty
    · exact Or.inr ⟨m, member, Or.inl memberless⟩
    · obtain ⟨m, member, inside'⟩ := List.mem_flatMap.mp inside
      exact Or.inr ⟨m, member, Or.inr ⟨leaf, inside', unaligned⟩⟩
  · rintro (empty | ⟨m, member, memberless | ⟨leaf, inside, unaligned⟩⟩)
    · exact Or.inl (Or.inl empty)
    · exact Or.inl (Or.inr ⟨m, member, memberless⟩)
    · exact Or.inr ⟨leaf, List.mem_flatMap.mpr ⟨m, member, inside⟩, unaligned⟩

/-- A type that is not aligned has a leaf that is not. -/
theorem unclassified_of_unaligned :
    ∀ t : Ty, WellFormed t → ∀ offset, ¬ t.alignsize ∣ offset → Unclassified t offset := by
  refine Ty.inductionOnMembers ?_ ?_ ?_
  · intro s _ offset unaligned
    refine Or.inr ⟨(offset, s), ?_, ?_⟩
    · rw [leaves]
      exact List.mem_singleton_self _
    · rw [LeafAligned, ← Nat.dvd_iff_mod_eq_zero]
      exact unaligned
  · intro base inductionHypothesis formed offset unaligned
    rw [WellFormed] at formed
    have found := inductionHypothesis formed offset unaligned
    unfold Unclassified at found ⊢
    rw [hasMemberless, leaves]
    exact found
  · intro t aggregate inductionHypothesis formed offset unaligned
    rw [unclassified_of_members aggregate]
    by_cases empty : t.members = []
    · exact Or.inl empty
    · rcases (formed.placed aggregate empty).aligned with packed | ⟨m, member, same, divides⟩
      · rw [packed] at unaligned
        exact absurd (Nat.one_dvd offset) unaligned
      · refine Or.inr ⟨m, member, inductionHypothesis m member (formed.of_member member) _ ?_⟩
        rw [same, Nat.dvd_add_left divides]
        exact unaligned

/-! ### Merging leaves -/

/-- The classes of leaves, merged into the eightbytes in their order. -/
def mergeLeaves (result : Result) (ls : List (Nat × Scalar)) : Result :=
  fun k => mergeAll (result k) (contributions ls k)

/-- Every eightbyte is memory. -/
def IsMemory (n : Nat) (result : Result) : Prop :=
  ∀ k, k < n → result k = .memory

theorem isMemory_memory (n : Nat) (result : Result) : IsMemory n (memory n result) := by
  intro k inside
  rw [memory, if_pos inside]

theorem merge_memory (c : Class) : merge .memory c = .memory := by
  cases c <;> decide

/-- Memory absorbs what is merged into it. -/
theorem IsMemory.mergeLeaves {n : Nat} {result : Result} (isMemory : IsMemory n result)
    (ls : List (Nat × Scalar)) : IsMemory n (mergeLeaves result ls) := by
  have absorbed : ∀ classes : List Class, mergeAll .memory classes = .memory := by
    intro classes
    induction classes with
    | nil => rfl
    | cons c classes inductionHypothesis =>
      rw [mergeAll, List.foldl_cons, merge_memory]
      exact inductionHypothesis
  intro k inside
  rw [Abi.mergeLeaves, isMemory k inside, absorbed]

theorem mergeLeaves_append (result : Result) (ls ls' : List (Nat × Scalar)) :
    mergeLeaves (mergeLeaves result ls) ls' = mergeLeaves result (ls ++ ls') := by
  funext k
  rw [mergeLeaves, mergeLeaves, mergeLeaves, contributions, contributions, contributions,
    List.filterMap_append, mergeAll, mergeAll, mergeAll, List.foldl_append]

theorem mergeSlice_eq :
    ∀ (classes : List Class) (start : Nat) (result : Result), start + classes.length ≤ 4 →
      mergeSlice start classes result = some fun k =>
        mergeAll (result k) (if start ≤ k then classes[k - start]? else none).toList := by
  intro classes
  induction classes with
  | nil =>
    intro start result _
    rw [mergeSlice]
    congr 1
    funext k
    simp [mergeAll]
  | cons c classes inductionHypothesis =>
    intro start result small
    rw [List.length_cons] at small
    rw [mergeSlice, if_pos (by omega), inductionHypothesis _ _ (by omega)]
    congr 1
    funext k
    rcases Nat.lt_trichotomy k start with before | rfl | after
    · rw [if_neg (by omega), if_neg (by omega), setClass, if_neg (by omega)]
    · rw [if_neg (by omega), if_pos (Nat.le_refl k), Nat.sub_self, setClass, if_pos rfl]
      rfl
    · rw [if_pos (by omega), if_pos (by omega), setClass, if_neg (by omega),
        show k - start = (k - (start + 1)) + 1 by omega, List.getElem?_cons_succ]

/-- A leaf that is aligned is merged into its eightbytes, and no assertion fails. -/
theorem classifyOther_scalar (s : Scalar) (offset : Nat) (result : Result)
    (aligned : s.alignsize ∣ offset) (within : offset + s.size ≤ 32) :
    classifyOther s.size offset (some ⟨scalarResult s, eightbytes s.size⟩) result =
      some (mergeLeaves result [(offset, s)]) := by
  have slice : Classification.slice ⟨scalarResult s, eightbytes s.size⟩ = s.classes := by
    cases s <;> rfl
  have assertion : offset % 8 = 0 ∨ (offset + s.size + 7) / 8 - offset / 8 ≤ 1 := by
    revert aligned
    cases s
    all_goals
      simp only [Scalar.alignsize, Scalar.size]
      omega
  have room : offset / 8 + s.classes.length ≤ 4 := by
    revert aligned within
    cases s
    all_goals
      simp only [Scalar.alignsize, Scalar.size, Scalar.classes, List.length_cons, List.length_nil]
      omega
  rw [classifyOther, if_pos assertion]
  show mergeSlice (offset / 8) (Classification.slice _) result = _
  rw [slice, mergeSlice_eq _ _ _ room]
  congr 1

/-! ### The walk merges the leaves -/

/-- What a member leaves behind: memory if it is unclassified, its leaves merged if not. -/
def Walked (n : Nat) (t : Ty) (offset : Nat) (result result' : Result) : Prop :=
  (Unclassified t offset → IsMemory n result') ∧
    (¬ Unclassified t offset → result' = mergeLeaves result (leaves t offset))

theorem Walked.isMemory {n offset : Nat} {t : Ty} {result result' : Result}
    (walked : Walked n t offset result result') (isMemory : IsMemory n result) :
    IsMemory n result' := by
  by_cases unclassified : Unclassified t offset
  · exact walked.1 unclassified
  · rw [walked.2 unclassified]
    exact isMemory.mergeLeaves _

/-- What a walk leaves behind, from what its members do. -/
theorem walk_spec {n base : Nat} :
    ∀ (ms : List (Nat × Ty)) (result : Result), (∀ m ∈ ms, WellFormed m.2) →
      (∀ m ∈ ms, m.2.alignsize ∣ base + m.1 → ∀ result, ∃ result',
        classifyMember m.2 n (base + m.1) result = some result' ∧
          Walked n m.2 (base + m.1) result result') →
      ∃ result', walk n base ms result = some result' ∧
        ((∃ m ∈ ms, Unclassified m.2 (base + m.1)) → IsMemory n result') ∧
        ((∀ m ∈ ms, ¬ Unclassified m.2 (base + m.1)) →
          result' = mergeLeaves result (ms.flatMap fun m => leaves m.2 (base + m.1))) ∧
        (IsMemory n result → IsMemory n result') := by
  intro ms
  induction ms with
  | nil =>
    intro result _ _
    refine ⟨result, rfl, ?_, ?_, id⟩
    · rintro ⟨m, member, -⟩
      cases member
    · intro _
      rfl
  | cons m ms inductionHypothesis =>
    intro result formed each
    have formedHead := formed m List.mem_cons_self
    rw [walk]
    by_cases aligned : m.2.alignsize ∣ base + m.1
    · rw [if_neg (not_not.mpr ((mask_eq_zero formedHead _).mpr aligned))]
      obtain ⟨result₁, found, walked⟩ := each m List.mem_cons_self aligned result
      obtain ⟨result₂, found₂, bad, good, keeps⟩ := inductionHypothesis result₁
        (fun m' member => formed m' (List.mem_cons_of_mem _ member))
        (fun m' member => each m' (List.mem_cons_of_mem _ member))
      rw [found]
      refine ⟨result₂, found₂, ?_, ?_, ?_⟩
      · rintro ⟨m', member, unclassified⟩
        rcases List.mem_cons.mp member with rfl | member'
        · exact keeps (walked.1 unclassified)
        · exact bad ⟨m', member', unclassified⟩
      · intro classified
        rw [good fun m' member => classified m' (List.mem_cons_of_mem _ member),
          walked.2 (classified m List.mem_cons_self), mergeLeaves_append, List.flatMap_cons]
      · intro isMemory
        exact keeps (walked.isMemory isMemory)
    · rw [if_pos (fun zero => aligned ((mask_eq_zero formedHead _).mp zero))]
      refine ⟨_, rfl, fun _ => isMemory_memory n result, ?_, fun _ => isMemory_memory n result⟩
      intro classified
      exact absurd (unclassified_of_unaligned m.2 formedHead _ aligned)
        (classified m List.mem_cons_self)

theorem scalar?_spec :
    ∀ {t : Ty} {s : Scalar}, t.scalar? = some s →
      t.size = s.size ∧ t.alignsize = s.alignsize ∧ (∀ offset, leaves t offset = [(offset, s)]) ∧
        hasMemberless t = false ∧ ∀ size, classify t size = some ⟨scalarResult s, eightbytes size⟩ := by
  intro t
  refine @Ty.inductionOnMembers (fun t => ∀ {s : Scalar}, t.scalar? = some s →
    t.size = s.size ∧ t.alignsize = s.alignsize ∧ (∀ offset, leaves t offset = [(offset, s)]) ∧
      hasMemberless t = false ∧
      ∀ size, classify t size = some ⟨scalarResult s, eightbytes size⟩) ?_ ?_ ?_ t
  · intro s s' same
    cases same
    refine ⟨rfl, rfl, ?_, ?_, ?_⟩
    · intro offset
      rw [leaves]
    · rw [hasMemberless]
    · intro size
      rw [classify]
  · intro base inductionHypothesis s found
    obtain ⟨size, align, leaf, some, classified⟩ := inductionHypothesis found
    refine ⟨size, align, ?_, ?_, ?_⟩
    · intro offset
      rw [leaves, leaf]
    · rw [hasMemberless, some]
    · intro size
      rw [classify, classified]
  · intro t aggregate _ s found
    cases t with
    | scalar s => cases aggregate
    | enum base => cases aggregate
    | sarray next dim => cases found
    | struct fields structsize alignsize => cases found

/-- A member is walked: it becomes memory if it is unclassified, and its leaves are
merged otherwise; no assertion fails. -/
theorem classifyMember_walked (n : Nat) :
    ∀ t : Ty, WellFormed t → Plain t → ∀ offset, t.alignsize ∣ offset → offset + t.size ≤ 32 →
      ∀ result, ∃ result', classifyMember t n offset result = some result' ∧
        Walked n t offset result result' := by
  have leaf : ∀ (t : Ty) (s : Scalar) (offset : Nat) (result : Result), t.scalar? = some s →
      t.alignsize ∣ offset → Walked n t offset result (mergeLeaves result [(offset, s)]) := by
    intro t s offset result found aligned
    obtain ⟨-, align, leaf, some, -⟩ := scalar?_spec found
    have classified : ¬ Unclassified t offset := by
      rintro (memberless | ⟨l, member, unaligned⟩)
      · rw [some] at memberless
        cases memberless
      · rw [leaf, List.mem_singleton] at member
        subst member
        rw [LeafAligned, ← Nat.dvd_iff_mod_eq_zero, ← align] at unaligned
        exact unaligned aligned
    exact ⟨fun unclassified => absurd unclassified classified, fun _ => by rw [leaf]⟩
  refine Ty.inductionOnMembers ?_ ?_ ?_
  · intro s _ _ offset aligned within result
    refine ⟨_, ?_, leaf (.scalar s) s offset result rfl aligned⟩
    rw [classifyMember, classifyOther_scalar s offset result aligned within]
  · intro base _ _ plain offset aligned within result
    rw [Plain] at plain
    obtain ⟨s, found⟩ := Option.ne_none_iff_exists'.mp plain
    obtain ⟨size, align, -, -, classified⟩ := scalar?_spec found
    have aligned' : s.alignsize ∣ offset := align ▸ aligned
    have within' : offset + s.size ≤ 32 := size ▸ within
    refine ⟨_, ?_, leaf (.enum base) s offset result found aligned⟩
    rw [classifyMember, classified, size, classifyOther_scalar s offset result aligned' within']
  · intro t aggregate inductionHypothesis formed plain offset aligned within result
    rw [classifyMember_aggregate aggregate]
    by_cases empty : t.members = []
    · rw [if_pos empty]
      refine ⟨_, rfl, fun _ => isMemory_memory n result, ?_⟩
      intro classified
      exact absurd ((unclassified_of_members aggregate offset).mpr (Or.inl empty)) classified
    · rw [if_neg empty]
      have placed := formed.placed aggregate empty
      obtain ⟨result', found, bad, good, -⟩ := @walk_spec n offset t.members result
        (fun m member => formed.of_member member)
        (fun m member aligned' => inductionHypothesis m member (formed.of_member member)
          (plain.of_member member) _ aligned'
          (by have := placed.within m member; omega))
      refine ⟨result', found, ?_, ?_⟩
      · intro unclassified
        rcases (unclassified_of_members aggregate offset).mp unclassified with none | some
        · exact absurd none empty
        · exact bad some
      · intro classified
        rw [leaves_of_members aggregate]
        apply good
        intro m member unclassified
        exact classified ((unclassified_of_members aggregate offset).mpr
          (Or.inr ⟨m, member, unclassified⟩))

end LaserD.Abi
