/-
This file proves when compile-time equality is equality of values.

The interpreter's comparison is right exactly when it meets no missing field and what looks alike
is what is equal. The second part holds as long as no array has `2 ^ 32` items and no string is a
hex string of a signed type, whose units are read without their sign. The constant folder's answer,
where it gives one, is then the interpreter's.
-/

import LaserD.Equality.Equivalence

namespace LaserD.Equality

open Strings (memcmp peekData)

variable {fields : Nat → List Ty} {heap : Nat → Expr}

/-! ### The constant folder -/

/-- An answer of the constant folder is right about what looks alike, and denies equality only of
values that do not both look alike and are equal. -/
def Answers (e1 e2 : Expr) (b : Bool) : Prop :=
  (b = true → Looks (seen e1) (seen e2)) ∧
    (b = false → ¬(Looks (seen e1) (seen e2) ∧ Same (denote e1) (denote e2)))

/-- The constant folder answers rightly about an expression and others of its type. -/
def Folded (fields : Nat → List Ty) (heap : Nat → Expr) (e1 : Expr) : Prop :=
  ∀ (e2 : Expr) (type : Ty) (b : Bool), Typed fields heap e1 type → Typed fields heap e2 type →
    Equal .equal e1 e2 = some b → Answers e1 e2 b

/-- Equal arrays have one length. -/
theorem length_of_same {next : Ty} {e1 e2 : Expr} (left : Typed fields heap e1 (.array next))
    (right : Typed fields heap e2 (.array next)) (same : Same (denote e1) (denote e2)) :
    e1.resolveArrayLength = e2.resolveArrayLength := by
  have leftItems : denote e1 = .array (items unitValue e1) := left.denoteWith_eq unitValue
  have rightItems : denote e2 = .array (items unitValue e2) := right.denoteWith_eq unitValue
  rw [leftItems, rightItems, Same] at same
  rw [← (left.length_items unitValue).1, ← (right.length_items unitValue).1]
  exact sameItems_length same

/-- Arrays of different lengths are not equal. -/
theorem answers_false {next : Ty} {e1 e2 : Expr} (left : Typed fields heap e1 (.array next))
    (right : Typed fields heap e2 (.array next))
    (different : e1.resolveArrayLength ≠ e2.resolveArrayLength) : Answers e1 e2 false :=
  ⟨nofun, fun _ both => different (length_of_same left right both.2)⟩

/-- Arrays of integers are compared by their lengths and their integers. -/
theorem answers_integers {e1 e2 : Expr} {us vs : List (BitVec 64)} {b : Bool}
    (leftItems : seen e1 = .array (us.map .integer))
    (rightItems : seen e2 = .array (vs.map .integer))
    (sameLength : us.length = vs.length) (decided : b = true ↔ us = vs) : Answers e1 e2 b := by
  have looks : Looks (seen e1) (seen e2) ↔ us = vs := by
    rw [leftItems, rightItems, Looks, looksItems_integers sameLength, List.length_map,
      List.length_map, sameLength, and_iff_right rfl]
  refine ⟨fun yes => looks.mpr (decided.mp yes), fun no both => ?_⟩
  rw [decided.mpr (looks.mp both.1)] at no
  cases no

/-- Two arrays of which one is empty are compared by their lengths. -/
theorem answers_empty {next : Ty} {e1 e2 : Expr} {b : Bool}
    (left : Typed fields heap e1 (.array next)) (right : Typed fields heap e2 (.array next))
    (empty : e1.resolveArrayLength = 0 ∨ e2.resolveArrayLength = 0)
    (decided : b = true ↔ e1.resolveArrayLength = e2.resolveArrayLength) : Answers e1 e2 b := by
  cases b with
  | false => exact answers_false left right (mt decided.mpr nofun)
  | true =>
    have sameLength := decided.mp rfl
    have leftLength := (left.length_items getIndex).1
    have none : e1.resolveArrayLength = 0 := empty.elim id sameLength.trans
    have leftItems : seen e1 = .array (items getIndex e1) := left.denoteWith_eq getIndex
    have rightItems : seen e2 = .array (items getIndex e2) := right.denoteWith_eq getIndex
    refine ⟨fun _ => ?_, nofun⟩
    rw [leftItems, rightItems, Looks, leftLength, (right.length_items getIndex).1, sameLength,
      List.length_eq_zero_iff.mp (leftLength.trans none)]
    exact ⟨rfl, trivial⟩

theorem map_equal (cmp : Option Bool) :
    cmp.map (fun cmp => cmp ^^ decide (EqualityOp.equal = .notEqual)) = cmp := by
  cases cmp with
  | none => rfl
  | some b => exact congrArg some (Bool.xor_false b)

/-! ### The loops of the constant folder -/

theorem equalUnits_spec {sz : Nat} {unsigned : Bool} {units : List Nat} {elements : List Expr}
    {b : Bool} (sameLength : units.length = elements.length)
    (folded : equalUnits sz unsigned units elements = some b) :
    b = true ↔ units.map (getIndex sz unsigned) = elements.map Expr.toInteger := by
  induction units generalizing elements with
  | nil =>
    rw [List.length_nil, eq_comm, List.length_eq_zero_iff] at sameLength
    subst sameLength
    cases folded
    exact iff_of_true rfl rfl
  | cons u units inductionHypothesis =>
    cases elements with
    | nil => cases sameLength
    | cons e elements =>
      rw [List.map_cons, List.map_cons, List.cons.injEq]
      rw [equalUnits] at folded
      by_cases constant : e.isConst = true
      · rw [constant, Bool.not_true, if_neg Bool.false_ne_true] at folded
        by_cases same : getIndex sz unsigned u = e.toInteger
        · rw [if_neg (not_not_intro same)] at folded
          rw [and_iff_right same]
          exact inductionHypothesis (Nat.succ_inj.mp sameLength) folded
        · rw [if_pos same] at folded
          cases folded
          exact iff_of_false nofun fun both => same both.1
      · rw [Bool.not_eq_true] at constant
        rw [constant, Bool.not_false, if_pos rfl] at folded
        cases folded

/-- A step of a loop that stops at the first pair that differs. -/
theorem of_stop {first rest : Option Bool} {b : Bool}
    (folded : (do if (← first) = false then return false
                  rest) = some b) :
    (first = some false ∧ b = false) ∨ (first = some true ∧ rest = some b) := by
  cases first with
  | none => cases folded
  | some answer =>
    cases answer with
    | false =>
      cases folded
      exact .inl ⟨rfl, rfl⟩
    | true => exact .inr ⟨rfl, folded⟩

theorem equalElements_spec {next : Ty} {xs ys : List Expr} {b : Bool}
    (answered : ∀ x ∈ xs, Folded fields heap x) (left : ∀ x ∈ xs, Typed fields heap x next)
    (right : ∀ y ∈ ys, Typed fields heap y next) (sameLength : xs.length = ys.length)
    (folded : equalElements xs ys = some b) :
    (b = true → LooksItems (xs.map seen) (ys.map seen)) ∧
      (b = false → ¬(LooksItems (xs.map seen) (ys.map seen) ∧
        SameItems (xs.map denote) (ys.map denote))) := by
  induction xs generalizing ys with
  | nil =>
    rw [equalElements] at folded
    · cases folded
      exact ⟨fun _ => trivial, fun impossible => by cases impossible⟩
    · intros
      contradiction
  | cons x xs inductionHypothesis =>
    cases ys with
    | nil => cases sameLength
    | cons y ys =>
      obtain ⟨answeredHead, answeredRest⟩ := List.forall_mem_cons.mp answered
      obtain ⟨leftHead, leftRest⟩ := List.forall_mem_cons.mp left
      obtain ⟨rightHead, rightRest⟩ := List.forall_mem_cons.mp right
      rw [equalElements] at folded
      rcases of_stop folded with ⟨answer, rfl⟩ | ⟨answer, rest⟩
      · have head := (answeredHead y next false leftHead rightHead answer).2 rfl
        exact ⟨fun impossible => (by cases impossible), fun _ both => head ⟨both.1.1, both.2.1⟩⟩
      · have head := (answeredHead y next true leftHead rightHead answer).1 rfl
        obtain ⟨yes, no⟩ := inductionHypothesis answeredRest leftRest rightRest
          (Nat.succ_inj.mp sameLength) rest
        exact ⟨fun holds => ⟨head, yes holds⟩, fun fails both => no fails ⟨both.1.2, both.2.2⟩⟩

theorem equalFields_spec {types : List Ty} {xs ys : List (Option (Nat × Expr))} {b : Bool}
    (answered : ∀ a e, some (a, e) ∈ xs → Folded fields heap e)
    (left : TypedFields fields heap xs types) (right : TypedFields fields heap ys types)
    (sameLength : xs.length = ys.length) (folded : equalFields xs ys = some b) :
    (b = true → LooksFields (denoteFields getIndex xs) (denoteFields getIndex ys)) ∧
      (b = false → ¬(LooksFields (denoteFields getIndex xs) (denoteFields getIndex ys) ∧
        SameFields (denoteFields unitValue xs) (denoteFields unitValue ys))) := by
  induction xs generalizing ys types with
  | nil =>
    rw [List.length_nil, eq_comm, List.length_eq_zero_iff] at sameLength
    subst sameLength
    have done : equalFields [] [] = some true := by
      rw [equalFields] <;> intros <;> contradiction
    rw [done] at folded
    cases folded
    exact ⟨fun _ => trivial, fun impossible => by cases impossible⟩
  | cons x xs inductionHypothesis =>
    have answeredRest : ∀ a e, some (a, e) ∈ xs → Folded fields heap e := fun a e member =>
      answered a e (List.mem_cons_of_mem _ member)
    cases right with
    | nil => cases sameLength
    | missing type ys types rightRest =>
      cases left with
      | missing type xs types leftRest =>
        rw [equalFields] at folded
        exact inductionHypothesis answeredRest leftRest rightRest (Nat.succ_inj.mp sameLength)
          folded
      | field a e type xs types located typed leftRest =>
        rw [equalFields] at folded
        cases folded
        exact ⟨fun impossible => (by cases impossible), fun _ both => both.1⟩
    | field a y type ys types located typedRight rightRest =>
      cases left with
      | missing type xs types leftRest =>
        rw [equalFields] at folded
        cases folded
        exact ⟨fun impossible => (by cases impossible), fun _ both => both.1⟩
      | field a' x type xs types located' typedLeft leftRest =>
        have step := fun rest : equalFields xs ys = some b =>
          inductionHypothesis answeredRest leftRest rightRest (Nat.succ_inj.mp sameLength) rest
        rw [equalFields] at folded
        by_cases same : a' = a
        · rw [if_pos same] at folded
          obtain ⟨yes, no⟩ := step folded
          exact ⟨fun holds => ⟨.inl same, yes holds⟩,
            fun fails both => no fails ⟨both.1.2, both.2.2⟩⟩
        · rw [if_neg same] at folded
          rcases of_stop folded with ⟨answer, rfl⟩ | ⟨answer, rest⟩
          · have head := (answered a' x List.mem_cons_self y type false typedLeft typedRight
              answer).2 rfl
            exact ⟨fun impossible => (by cases impossible), fun _ both => head ⟨both.1.1.resolve_left same, both.2.1⟩⟩
          · have head := (answered a' x List.mem_cons_self y type true typedLeft typedRight
              answer).1 rfl
            obtain ⟨yes, no⟩ := step rest
            exact ⟨fun holds => ⟨.inr head, yes holds⟩,
              fun fails both => no fails ⟨both.1.2, both.2.2⟩⟩

/-! ### The answers of the constant folder -/

theorem Equal_null_null (type type' : Ty) : Equal .equal (.null type) (.null type') = some true := by
  unfold Equal
  exact map_equal _

theorem Equal_slice_left (e1 e2 : Expr) (lwr upr : Nat) :
    Equal .equal (.slice e1 lwr upr) e2 = none := by
  unfold Equal
  cases e2 <;> exact map_equal none

theorem Equal_slice_right (e1 e2 : Expr) (lwr upr : Nat) :
    Equal .equal e1 (.slice e2 lwr upr) = none := by
  unfold Equal
  cases e1 <;> exact map_equal none

theorem Equal_assocArray_left (entries : List (Expr × Expr)) (e2 : Expr) :
    Equal .equal (.assocArrayLiteral entries) e2 = none := by
  unfold Equal
  cases e2 <;> exact map_equal none

theorem Equal_assocArray_right (entries : List (Expr × Expr)) (e1 : Expr) :
    Equal .equal e1 (.assocArrayLiteral entries) = none := by
  unfold Equal
  cases e1 <;> exact map_equal none

/-- A literal is compared with null by its length. -/
theorem Equal_null_left {e2 : Expr} (type : Ty) (literal : e2.isLiteral = true) :
    Equal .equal (.null type) e2 = some (decide (e2.resolveArrayLength = 0)) := by
  unfold Equal
  cases e2 with
  | string => exact map_equal _
  | arrayLiteral => exact map_equal _
  | _ => cases literal

theorem Equal_null_right {e1 : Expr} (type : Ty) (literal : e1.isLiteral = true) :
    Equal .equal e1 (.null type) = some (decide (e1.resolveArrayLength = 0)) := by
  unfold Equal
  cases e1 with
  | string => exact map_equal _
  | arrayLiteral => exact map_equal _
  | _ => cases literal

theorem Equal_strings (sz : Nat) (unsigned unsigned' : Bool) (units1 units2 : List Nat) :
    Equal .equal (.string sz unsigned units1) (.string sz unsigned' units2) =
      some (decide (units1.length = units2.length ∧
        memcmp (peekData sz units1) (peekData sz units2) = 0)) := by
  unfold Equal
  exact (map_equal _).trans (if_neg (not_not_intro rfl))

theorem Equal_string_array (sz : Nat) (unsigned : Bool) (units : List Nat) (type : Ty)
    (elements : List Expr) : Equal .equal (.string sz unsigned units) (.arrayLiteral type elements) =
      if units.length ≠ elements.length then some false
      else equalUnits sz unsigned units elements := by
  unfold Equal
  exact map_equal _

theorem Equal_array_string (sz : Nat) (unsigned : Bool) (units : List Nat) (type : Ty)
    (elements : List Expr) : Equal .equal (.arrayLiteral type elements) (.string sz unsigned units) =
      if units.length ≠ elements.length then some false
      else equalUnits sz unsigned units elements := by
  unfold Equal
  exact map_equal _

theorem Equal_arrays (type type' : Ty) (elements1 elements2 : List Expr) :
    Equal .equal (.arrayLiteral type elements1) (.arrayLiteral type' elements2) =
      if elements1.length ≠ elements2.length then some false
      else equalElements elements1 elements2 := by
  unfold Equal
  exact map_equal _

theorem Equal_structs (sd : Nat) (elements1 elements2 : List (Option (Nat × Expr))) :
    Equal .equal (.structLiteral sd elements1) (.structLiteral sd elements2) =
      if elements1.length ≠ elements2.length then some false
      else equalFields elements1 elements2 := by
  unfold Equal
  exact (map_equal _).trans (if_neg (not_not_intro rfl))

theorem Equal_integers (a b : BitVec 64) :
    Equal .equal (.integer a) (.integer b) = some (decide (a = b)) := by
  unfold Equal
  exact map_equal _

theorem sameFields_length {xs ys : List (Option (Nat × Value))} (same : SameFields xs ys) :
    xs.length = ys.length := by
  induction xs generalizing ys with
  | nil =>
    cases ys with
    | nil => rfl
    | cons => cases same
  | cons x xs inductionHypothesis =>
    cases ys with
    | nil => cases x <;> cases same
    | cons y ys =>
      refine congrArg (· + 1) (inductionHypothesis ?_)
      cases x <;> cases y
      · exact same
      · cases same
      · cases same
      · exact same.2

theorem seen_integers {sz : Nat} {unsigned : Bool} {type : Ty} {elements : List Expr}
    (typed : ∀ e ∈ elements, Typed fields heap e (.integral sz unsigned)) :
    seen (.arrayLiteral type elements) =
      .array ((elements.map Expr.toInteger).map .integer) := by
  rw [← map_denoteWith_of_integral getIndex typed, ← items_arrayLiteral getIndex type]
  rfl

/-- A string and an array literal of integers. -/
theorem answers_string_array {sz : Nat} {unsigned : Bool} {units : List Nat} {elements : List Expr}
    {e1 e2 : Expr} {b : Bool} (left : Typed fields heap e1 (.array (.integral sz unsigned)))
    (right : Typed fields heap e2 (.array (.integral sz unsigned)))
    (leftLength : e1.resolveArrayLength = units.length)
    (rightLength : e2.resolveArrayLength = elements.length)
    (leftItems : seen e1 = .array ((units.map (getIndex sz unsigned)).map .integer))
    (rightItems : seen e2 = .array ((elements.map Expr.toInteger).map .integer))
    (folded : (if units.length ≠ elements.length then some false
      else equalUnits sz unsigned units elements) = some b) :
    Answers e1 e2 b ∧ Answers e2 e1 b := by
  by_cases sameLength : units.length = elements.length
  · rw [if_neg (not_not_intro sameLength)] at folded
    have decided := equalUnits_spec sameLength folded
    have lengths : (units.map (getIndex sz unsigned)).length =
        (elements.map Expr.toInteger).length := by
      rw [List.length_map, List.length_map, sameLength]
    exact ⟨answers_integers leftItems rightItems lengths decided,
      answers_integers rightItems leftItems lengths.symm (decided.trans eq_comm)⟩
  · rw [if_pos sameLength] at folded
    cases folded
    rw [← leftLength, ← rightLength] at sameLength
    exact ⟨answers_false left right sameLength, answers_false right left (Ne.symm sameLength)⟩

/-- Two strings. -/
theorem answers_strings {sz : Nat} {unsigned : Bool} {units1 units2 : List Nat} {b : Bool}
    (left : Typed fields heap (.string sz unsigned units1) (.array (.integral sz unsigned)))
    (right : Typed fields heap (.string sz unsigned units2) (.array (.integral sz unsigned)))
    (decided : b = true ↔ units1.length = units2.length ∧
      memcmp (peekData sz units1) (peekData sz units2) = 0) :
    Answers (.string sz unsigned units1) (.string sz unsigned units2) b := by
  cases left with
  | string _ _ _ size inRange1 =>
    cases id right with
    | string _ _ _ _ inRange2 =>
      rw [Strings.memcmp_peekData_eq_zero inRange1 inRange2, and_comm,
        ← Strings.eq_iff_firstDifference] at decided
      by_cases sameLength : units1.length = units2.length
      · refine answers_integers (congrArg Value.array (items_string getIndex sz unsigned units1))
          (congrArg Value.array (items_string getIndex sz unsigned units2)) ?_ ?_
        · rw [List.length_map, List.length_map, sameLength]
        · rw [map_getIndex_inj unsigned size inRange1 inRange2]
          exact decided
      · have no : b = false :=
          Bool.eq_false_of_not_eq_true fun yes => sameLength (congrArg _ (decided.mp yes))
        rw [no]
        exact answers_false (.string sz unsigned units1 size inRange1 (by assumption)) right
          sameLength

/-- The constant folder answers rightly about arrays when it does about their elements. -/
theorem answers_arrays {next : Ty} {elements1 elements2 : List Expr} {b : Bool}
    (answered : ∀ e ∈ elements1, Folded fields heap e)
    (left : Typed fields heap (.arrayLiteral (.array next) elements1) (.array next))
    (right : Typed fields heap (.arrayLiteral (.array next) elements2) (.array next))
    (folded : Equal .equal (.arrayLiteral (.array next) elements1)
      (.arrayLiteral (.array next) elements2) = some b) :
    Answers (.arrayLiteral (.array next) elements1) (.arrayLiteral (.array next) elements2) b := by
  rw [Equal_arrays] at folded
  by_cases sameLength : elements1.length = elements2.length
  · rw [if_neg (not_not_intro sameLength)] at folded
    cases left with
    | arrayLiteral _ _ leftElements =>
      cases right with
      | arrayLiteral _ _ rightElements =>
        obtain ⟨yes, no⟩ := equalElements_spec answered leftElements rightElements sameLength folded
        have literal (element : Nat → Bool → Nat → BitVec 64) (elements : List Expr) :
            denoteWith element (.arrayLiteral (.array next) elements) =
              .array (elements.map (denoteWith element)) :=
          congrArg Value.array (denoteAll_eq element elements)
        rw [Answers, seen, denote, literal, literal, literal, literal, Looks, Same, List.length_map,
          List.length_map, sameLength, and_iff_right rfl]
        exact ⟨yes, no⟩
  · rw [if_pos sameLength] at folded
    cases folded
    exact answers_false left right sameLength

theorem answers_structs {sd : Nat} {elements1 elements2 : List (Option (Nat × Expr))} {b : Bool}
    (answered : ∀ a e, some (a, e) ∈ elements1 → Folded fields heap e)
    (left : TypedFields fields heap elements1 (fields sd))
    (right : TypedFields fields heap elements2 (fields sd))
    (folded : Equal .equal (.structLiteral sd elements1) (.structLiteral sd elements2) = some b) :
    Answers (.structLiteral sd elements1) (.structLiteral sd elements2) b := by
  rw [Equal_structs] at folded
  by_cases sameLength : elements1.length = elements2.length
  · rw [if_neg (not_not_intro sameLength)] at folded
    exact equalFields_spec answered left right sameLength folded
  · rw [if_pos sameLength] at folded
    cases folded
    refine ⟨nofun, fun _ both => sameLength ?_⟩
    have lengths := sameFields_length (show SameFields _ _ from both.2)
    rwa [denoteFields_eq, denoteFields_eq, List.length_map, List.length_map] at lengths

/-- The constant folder answers rightly wherever it answers. -/
theorem Equal_answers (e1 : Expr) : Folded fields heap e1 := by
  induction e1 using Expr.cases_on_elements with
  | integer value =>
    intro e2 type b left right folded
    cases left with
    | integer _ sz unsigned =>
      cases right with
      | integer value' =>
        rw [Equal_integers] at folded
        cases folded
        refine ⟨fun yes => ?_, fun no both => ?_⟩
        · exact (decide_eq_true_iff (p := value = value')).mp yes
        · exact (decide_eq_false_iff_not (p := value = value')).mp no both.1
  | null type =>
    intro e2 type' b left right folded
    cases id left with
    | nullArray next =>
      cases id right with
      | nullArray =>
        rw [Equal_null_null] at folded
        cases folded
        exact answers_empty left right (.inl rfl) (iff_of_true rfl rfl)
      | slice =>
        rw [Equal_slice_right] at folded
        cases folded
      | _ =>
        rw [Equal_null_left _ rfl] at folded
        cases folded
        exact answers_empty left right (.inl rfl) (decide_eq_true_iff.trans eq_comm)
    | nullAssocArray index next =>
      cases right with
      | nullAssocArray =>
        rw [Equal_null_null] at folded
        cases folded
        exact ⟨fun _ => ⟨rfl, trivial⟩, nofun⟩
      | assocArrayLiteral =>
        rw [Equal_assocArray_right] at folded
        cases folded
  | string sz unsigned units =>
    intro e2 type b left right folded
    cases id left with
    | string =>
      cases id right with
      | nullArray =>
        rw [Equal_null_right _ rfl] at folded
        cases folded
        exact answers_empty left right (.inr rfl) decide_eq_true_iff
      | slice =>
        rw [Equal_slice_right] at folded
        cases folded
      | string _ _ units2 =>
        rw [Equal_strings] at folded
        cases folded
        exact answers_strings left right decide_eq_true_iff
      | arrayLiteral _ elements typed =>
        rw [Equal_string_array] at folded
        exact (answers_string_array left right rfl rfl
          (congrArg Value.array (items_string getIndex sz unsigned units)) (seen_integers typed)
          folded).1
  | arrayLiteral type elements inductionHypothesis =>
    intro e2 type b left right folded
    cases id left with
    | arrayLiteral next _ typed =>
      cases id right with
      | nullArray =>
        rw [Equal_null_right _ rfl] at folded
        cases folded
        exact answers_empty left right (.inr rfl) decide_eq_true_iff
      | slice =>
        rw [Equal_slice_right] at folded
        cases folded
      | string sz unsigned units =>
        rw [Equal_array_string] at folded
        exact (answers_string_array right left rfl rfl
          (congrArg Value.array (items_string getIndex sz unsigned units)) (seen_integers typed)
          folded).2
      | arrayLiteral => exact answers_arrays inductionHypothesis left right folded
  | slice e1 lwr upr =>
    intro e2 type b _ _ folded
    rw [Equal_slice_left] at folded
    cases folded
  | structLiteral sd elements inductionHypothesis =>
    intro e2 type b left right folded
    cases left with
    | structLiteral _ _ left =>
      cases right with
      | structLiteral _ _ right => exact answers_structs inductionHypothesis left right folded
  | assocArrayLiteral entries =>
    intro e2 type b _ _ folded
    rw [Equal_assocArray_left] at folded
    cases folded

/-! ### When equality is exact -/

/-- The interpreter's `==` and the constant folder's, where it answers, tell whether two values are
equal. -/
def Exact (e1 e2 : Expr) : Prop :=
  ∃ b, ctfeEqual .equal e1 e2 = .ok b ∧ (b = true ↔ Same (denote e1) (denote e2)) ∧
    ∀ b', Equal .equal e1 e2 = some b' → b' = b

/-- No string in an expression is of a signed type. -/
inductive UnsignedStrings : Expr → Prop
  | integer (value : BitVec 64) : UnsignedStrings (.integer value)
  | null (type : Ty) : UnsignedStrings (.null type)
  | string (sz : Nat) (units : List Nat) : UnsignedStrings (.string sz true units)
  | arrayLiteral (type : Ty) (elements : List Expr)
      (unsigned : ∀ e ∈ elements, UnsignedStrings e) :
      UnsignedStrings (.arrayLiteral type elements)
  | slice (e1 : Expr) (lwr upr : Nat) (unsigned : UnsignedStrings e1) :
      UnsignedStrings (.slice e1 lwr upr)
  | structLiteral (sd : Nat) (elements : List (Option (Nat × Expr)))
      (unsigned : ∀ a e, some (a, e) ∈ elements → UnsignedStrings e) :
      UnsignedStrings (.structLiteral sd elements)
  | assocArrayLiteral (entries : List (Expr × Expr)) (keys : ∀ p ∈ entries, UnsignedStrings p.1)
      (values : ∀ p ∈ entries, UnsignedStrings p.2) :
      UnsignedStrings (.assocArrayLiteral entries)

/-- Strings of unsigned types are read as what they are. -/
theorem seen_eq_denote {e : Expr} (unsigned : UnsignedStrings e) : seen e = denote e := by
  induction e using Expr.cases_on_elements with
  | integer value => rfl
  | null type => cases type <;> rfl
  | string sz u units =>
    cases unsigned
    rfl
  | arrayLiteral type elements inductionHypothesis =>
    cases unsigned with
    | arrayLiteral _ _ unsigned =>
      refine congrArg Value.array ?_
      rw [denoteAll_eq, denoteAll_eq]
      exact List.map_congr_left fun e member => inductionHypothesis e member (unsigned e member)
  | slice e1 lwr upr inductionHypothesis =>
    cases unsigned with
    | slice _ _ _ unsigned =>
      exact congrArg (Value.sliced lwr upr) (inductionHypothesis unsigned)
  | structLiteral sd elements inductionHypothesis =>
    cases unsigned with
    | structLiteral _ _ unsigned =>
      refine congrArg Value.struct ?_
      rw [denoteFields_eq, denoteFields_eq]
      refine List.map_congr_left fun field member => ?_
      cases field with
      | none => rfl
      | some field =>
        have same := inductionHypothesis field.1 field.2 member (unsigned field.1 field.2 member)
        exact congrArg (fun v => some (field.1, v)) same
  | assocArrayLiteral entries inductionHypothesis =>
    cases unsigned with
    | assocArrayLiteral _ keys values =>
      refine congrArg Value.assoc ?_
      rw [denoteEntries_eq, denoteEntries_eq]
      refine List.map_congr_left fun p member => ?_
      obtain ⟨key, value⟩ := inductionHypothesis p member
      exact Prod.ext (key (keys p member)) (value (values p member))

/-- An element of a struct literal is the object at its address, and has a type. -/
theorem TypedFields.of_mem {elements : List (Option (Nat × Expr))} {types : List Ty} {a : Nat}
    {e : Expr} (typed : TypedFields fields heap elements types) (member : some (a, e) ∈ elements) :
    heap a = e ∧ ∃ type, Typed fields heap e type := by
  induction elements generalizing types with
  | nil => exact absurd member List.not_mem_nil
  | cons field elements inductionHypothesis =>
    cases typed with
    | missing _ _ _ rest =>
      exact inductionHypothesis rest ((List.mem_cons.mp member).resolve_left nofun)
    | field a' e' type _ _ located typedField rest =>
      rcases List.mem_cons.mp member with same | member
      · cases same
        exact ⟨located, type, typedField⟩
      · exact inductionHypothesis rest member

/-- What a typed expression stands for is well formed. -/
theorem Typed.formed {e : Expr} {type : Ty} (typed : Typed fields heap e type) :
    Formed (fun a => denote (heap a)) (denote e) := by
  induction e using Expr.cases_on_elements generalizing type with
  | integer value => exact .integer value
  | null type' =>
    cases typed with
    | nullArray => exact .array [] fun _ member => absurd member List.not_mem_nil
    | nullAssocArray =>
      exact .assoc [] .nil (fun _ member => absurd member List.not_mem_nil)
        fun _ member => absurd member List.not_mem_nil
  | string sz unsigned units =>
    refine .array _ fun x member => ?_
    obtain ⟨u, -, rfl⟩ := List.mem_map.mp member
    exact .integer _
  | arrayLiteral type' elements inductionHypothesis =>
    cases typed with
    | arrayLiteral next _ typed =>
      refine .array _ fun x member => ?_
      rw [denoteAll_eq] at member
      obtain ⟨e, present, rfl⟩ := List.mem_map.mp member
      exact inductionHypothesis e present (typed e present)
  | slice e1 lwr upr inductionHypothesis =>
    cases typed with
    | slice next _ _ _ typed =>
      have whole := inductionHypothesis typed
      have literal : denote e1 = .array (items unitValue e1) := typed.denoteWith_eq unitValue
      have part : denote (.slice e1 lwr upr) =
          .array (((items unitValue e1).drop lwr).take (upr - lwr)) :=
        congrArg (Value.sliced lwr upr) literal
      rw [literal] at whole
      rw [part]
      cases whole with
      | array _ formed =>
        exact .array _ fun x member =>
          formed x (List.mem_of_mem_drop (List.mem_of_mem_take member))
  | structLiteral sd elements inductionHypothesis =>
    cases typed with
    | structLiteral _ _ typed =>
      have field : ∀ a x, some (a, x) ∈ denoteFields unitValue elements →
          denote (heap a) = x ∧ Formed (fun a => denote (heap a)) x := by
        intro a x member
        rw [denoteFields_eq] at member
        obtain ⟨field, present, same⟩ := List.mem_map.mp member
        cases field with
        | none => cases same
        | some field =>
          cases same
          obtain ⟨located, fieldType, typedField⟩ := typed.of_mem present
          exact ⟨congrArg denote located, inductionHypothesis _ _ present typedField⟩
      exact .struct _ (fun a x member => (field a x member).1) fun a x member =>
        (field a x member).2
  | assocArrayLiteral entries inductionHypothesis =>
    cases typed with
    | assocArrayLiteral index next _ keys values distinct =>
      have entry : denoteEntries unitValue entries = entries.map (Prod.map denote denote) :=
        denoteEntries_eq unitValue entries
      show Formed _ (.assoc (denoteEntries unitValue entries))
      rw [entry]
      refine .assoc _ (List.pairwise_map.mpr distinct) ?_ ?_
      · intro p member
        obtain ⟨p, present, rfl⟩ := List.mem_map.mp member
        exact (inductionHypothesis p present).1 (keys p present)
      · intro p member
        obtain ⟨p, present, rfl⟩ := List.mem_map.mp member
        exact (inductionHypothesis p present).2 (values p present)

theorem ctfeEqual_equal (e1 e2 : Expr) : ctfeEqual .equal e1 e2 =
    (ctfeRawCmp e1 e2).map fun c => decide (c = 0) := by
  rw [ctfeEqual]
  cases ctfeRawCmp e1 e2 with
  | error => rfl
  | ok c => exact congrArg Except.ok (Bool.xor_false _)

theorem exact_iff {e1 e2 : Expr} {type : Ty} (left : Typed fields heap e1 type)
    (right : Typed fields heap e2 type) : Exact e1 e2 ↔
      ¬Meets (seen e1) (seen e2) ∧ (Looks (seen e1) (seen e2) ↔ Same (denote e1) (denote e2)) := by
  rcases ctfeRawCmp_outcome e1 e2 type left right with ⟨met, failed⟩ | ⟨free, c, done, zero⟩
  · refine iff_of_false ?_ fun both => both.1 met
    rintro ⟨b, compared, -⟩
    rw [ctfeEqual_equal, failed] at compared
    cases compared
  · have compared : ctfeEqual .equal e1 e2 = .ok (decide (c = 0)) := by
      rw [ctfeEqual_equal, done]
      rfl
    constructor
    · rintro ⟨b, answer, right, -⟩
      rw [compared] at answer
      cases answer
      rw [decide_eq_true_iff, zero] at right
      exact ⟨free, right⟩
    · rintro ⟨-, alike⟩
      refine ⟨_, compared, (decide_eq_true_iff.trans zero).trans alike, fun b folded => ?_⟩
      obtain ⟨yes, no⟩ := Equal_answers e1 e2 type b left right folded
      cases b with
      | true => exact (decide_eq_true (zero.mpr (yes rfl))).symm
      | false =>
        exact (decide_eq_false fun same => no rfl ⟨zero.mp same, alike.mp (zero.mp same)⟩).symm

/-- A literal of a union of which the second member is skipped. -/
def skipped (value : BitVec 64) : Expr :=
  .structLiteral 0 [some (value.toNat, .integer value), none]

/-- A hex string of one signed byte, and the array of that byte. -/
def hexByte : Expr :=
  .string 1 false [255]

/-- The array of the byte -1. -/
def byteArray : Expr :=
  .arrayLiteral (.array (.integral 1 false)) [.integer (-1)]

end LaserD.Equality
