/-
This file proves that equality of values is an equivalence, and that the comparison takes two values
for equal exactly when they are, as long as their arrays are short and the keys of their associative
arrays are distinct.

Lengths below `2 ^ 32` that agree in their low 32 bits are the same. Equality of keys is an
equivalence, so with distinct keys each entry has at most one counterpart, and the search for the
first one that looks like it finds the same pairing as any other order would.
-/

import LaserD.Equality.RawCmp

namespace LaserD.Equality

open GreedyMatching (greedy_congr greedy_iff)

/-- A case for each kind of value, with the elements for the induction. -/
theorem Value.cases_on_elements {motive : Value → Prop} (integer : ∀ value, motive (.integer value))
    (array : ∀ items, (∀ x ∈ items, motive x) → motive (.array items))
    (struct : ∀ fields, (∀ a x, some (a, x) ∈ fields → motive x) → motive (.struct fields))
    (assoc : ∀ entries, (∀ p ∈ entries, motive p.1 ∧ motive p.2) → motive (.assoc entries))
    (v : Value) : motive v := by
  match v with
  | .integer value => exact integer value
  | .array items =>
    exact array items fun x member => cases_on_elements integer ‹_› struct assoc x
  | .struct fields =>
    exact struct fields fun a x member => cases_on_elements integer array ‹_› assoc x
  | .assoc entries =>
    exact assoc entries fun p member =>
      ⟨cases_on_elements integer array struct ‹_› p.1,
        cases_on_elements integer array struct ‹_› p.2⟩
termination_by sizeOf v
decreasing_by
  · have smaller := List.sizeOf_lt_of_mem member
    rw [Value.array.sizeOf_spec]
    omega
  · have smaller := List.sizeOf_lt_of_mem member
    rw [Option.some.sizeOf_spec, Prod.mk.sizeOf_spec] at smaller
    rw [Value.struct.sizeOf_spec]
    omega
  all_goals
    have smaller := List.sizeOf_lt_of_mem member
    obtain ⟨key, value⟩ := p
    rw [Prod.mk.sizeOf_spec] at smaller
    rw [Value.assoc.sizeOf_spec]
    dsimp only
    omega

/-! ### Equality of values is an equivalence -/

theorem covered_iff {xs ys : List (Value × Value)} :
    Covered xs ys ↔ ∀ p ∈ xs, ∃ q ∈ ys, Same p.1 q.1 ∧ Same p.2 q.2 := by
  induction xs with
  | nil => exact iff_of_true trivial fun p member => absurd member List.not_mem_nil
  | cons p xs inductionHypothesis =>
    rw [List.forall_mem_cons, ← inductionHypothesis]
    rfl

theorem covers_iff {xs : List (Value × Value)} {q : Value × Value} :
    Covers xs q ↔ ∃ p ∈ xs, Same p.1 q.1 ∧ Same p.2 q.2 := by
  induction xs with
  | nil => exact iff_of_false not_false fun ⟨p, member, _⟩ => absurd member List.not_mem_nil
  | cons p xs inductionHypothesis =>
    rw [List.exists_mem_cons_iff, ← inductionHypothesis]
    rfl

/-- Associative arrays are equal when each entry of either has a counterpart in the other one. -/
theorem same_assoc_iff {xs ys : List (Value × Value)} :
    Same (.assoc xs) (.assoc ys) ↔
      (∀ p ∈ xs, ∃ q ∈ ys, Same p.1 q.1 ∧ Same p.2 q.2) ∧
        ∀ q ∈ ys, ∃ p ∈ xs, Same p.1 q.1 ∧ Same p.2 q.2 := by
  rw [Same, covered_iff]
  exact and_congr_right fun _ => forall₂_congr fun q _ => covers_iff

theorem same_refl (v : Value) : Same v v := by
  induction v using Value.cases_on_elements with
  | integer value => exact rfl
  | array items inductionHypothesis =>
    rw [Same]
    induction items with
    | nil => trivial
    | cons x xs rest =>
      obtain ⟨head, tail⟩ := List.forall_mem_cons.mp inductionHypothesis
      exact ⟨head, rest tail⟩
  | struct fields inductionHypothesis =>
    rw [Same]
    induction fields with
    | nil => trivial
    | cons x xs rest =>
      have tail := rest fun a x member => inductionHypothesis a x (List.mem_cons_of_mem _ member)
      cases x with
      | none => exact tail
      | some x => exact ⟨inductionHypothesis x.1 x.2 List.mem_cons_self, tail⟩
  | assoc entries inductionHypothesis =>
    exact same_assoc_iff.mpr ⟨fun p member => ⟨p, member, inductionHypothesis p member⟩,
      fun p member => ⟨p, member, inductionHypothesis p member⟩⟩

theorem same_symm {v w : Value} (same : Same v w) : Same w v := by
  induction v using Value.cases_on_elements generalizing w with
  | integer value =>
    cases w with
    | integer => exact Eq.symm same
    | _ => cases same
  | array items inductionHypothesis =>
    cases w with
    | array ys =>
      rw [Same] at same ⊢
      induction items generalizing ys with
      | nil =>
        cases ys with
        | nil => trivial
        | cons => cases same
      | cons x xs rest =>
        obtain ⟨head, tail⟩ := List.forall_mem_cons.mp inductionHypothesis
        cases ys with
        | nil => cases same
        | cons y ys => exact ⟨head same.1, rest tail ys same.2⟩
    | _ => cases same
  | struct fields inductionHypothesis =>
    cases w with
    | struct ys =>
      rw [Same] at same ⊢
      induction fields generalizing ys with
      | nil =>
        cases ys with
        | nil => trivial
        | cons => cases same
      | cons x xs rest =>
        have tail := rest fun a x member => inductionHypothesis a x (List.mem_cons_of_mem _ member)
        cases ys with
        | nil => cases x <;> cases same
        | cons y ys =>
          cases x with
          | none =>
            cases y with
            | none => exact tail ys same
            | some => cases same
          | some x =>
            cases y with
            | none => cases same
            | some y =>
              exact ⟨inductionHypothesis x.1 x.2 List.mem_cons_self same.1, tail ys same.2⟩
    | _ => cases same
  | assoc entries inductionHypothesis =>
    cases w with
    | assoc ys =>
      obtain ⟨forward, backward⟩ := same_assoc_iff.mp same
      refine same_assoc_iff.mpr ⟨fun q member => ?_, fun p member => ?_⟩
      · obtain ⟨p, found, key, value⟩ := backward q member
        obtain ⟨keySymm, valueSymm⟩ := inductionHypothesis p found
        exact ⟨p, found, keySymm key, valueSymm value⟩
      · obtain ⟨q, found, key, value⟩ := forward p member
        obtain ⟨keySymm, valueSymm⟩ := inductionHypothesis p member
        exact ⟨q, found, keySymm key, valueSymm value⟩
    | _ => cases same

theorem same_trans {v w u : Value} (left : Same v w) (right : Same w u) : Same v u := by
  induction v using Value.cases_on_elements generalizing w u with
  | integer value =>
    cases w with
    | integer =>
      cases u with
      | integer => exact Eq.trans left right
      | _ => cases right
    | _ => cases left
  | array items inductionHypothesis =>
    cases w with
    | array ys =>
      cases u with
      | array zs =>
        rw [Same] at left right ⊢
        induction items generalizing ys zs with
        | nil =>
          cases ys with
          | nil => exact right
          | cons => cases left
        | cons x xs rest =>
          obtain ⟨head, tail⟩ := List.forall_mem_cons.mp inductionHypothesis
          cases ys with
          | nil => cases left
          | cons y ys =>
            cases zs with
            | nil => cases right
            | cons z zs => exact ⟨head left.1 right.1, rest tail ys left.2 zs right.2⟩
      | _ => cases right
    | _ => cases left
  | struct fields inductionHypothesis =>
    cases w with
    | struct ys =>
      cases u with
      | struct zs =>
        rw [Same] at left right ⊢
        induction fields generalizing ys zs with
        | nil =>
          cases ys with
          | nil => exact right
          | cons => cases left
        | cons x xs rest =>
          have tail := rest fun a x member => inductionHypothesis a x (List.mem_cons_of_mem _ member)
          cases ys with
          | nil => cases x <;> cases left
          | cons y ys =>
            cases zs with
            | nil => cases y <;> cases right
            | cons z zs =>
              cases x with
              | none =>
                cases y with
                | none =>
                  cases z with
                  | none => exact tail ys left zs right
                  | some => cases right
                | some => cases left
              | some x =>
                cases y with
                | none => cases left
                | some y =>
                  cases z with
                  | none => cases right
                  | some z =>
                    exact ⟨inductionHypothesis x.1 x.2 List.mem_cons_self left.1 right.1,
                      tail ys left.2 zs right.2⟩
      | _ => cases right
    | _ => cases left
  | assoc entries inductionHypothesis =>
    cases w with
    | assoc ys =>
      cases u with
      | assoc zs =>
        obtain ⟨forward, backward⟩ := same_assoc_iff.mp left
        obtain ⟨forward', backward'⟩ := same_assoc_iff.mp right
        refine same_assoc_iff.mpr ⟨fun p member => ?_, fun r member => ?_⟩
        · obtain ⟨q, found, key, value⟩ := forward p member
          obtain ⟨r, found', key', value'⟩ := forward' q found
          obtain ⟨keyTrans, valueTrans⟩ := inductionHypothesis p member
          exact ⟨r, found', keyTrans key key', valueTrans value value'⟩
        · obtain ⟨q, found, key', value'⟩ := backward' r member
          obtain ⟨p, found', key, value⟩ := backward q found
          obtain ⟨keyTrans, valueTrans⟩ := inductionHypothesis p found'
          exact ⟨p, found', keyTrans key key', valueTrans value value'⟩
      | _ => cases right
    | _ => cases left

/-! ### What the comparison takes for equal is equal -/

/-- The object at an address is the one on the heap, and no two keys of an associative array are
equal. -/
inductive Formed (heap : Nat → Value) : Value → Prop
  | integer (value : BitVec 64) : Formed heap (.integer value)
  | array (items : List Value) (formed : ∀ x ∈ items, Formed heap x) : Formed heap (.array items)
  | struct (fields : List (Option (Nat × Value)))
      (located : ∀ a x, some (a, x) ∈ fields → heap a = x)
      (formed : ∀ a x, some (a, x) ∈ fields → Formed heap x) : Formed heap (.struct fields)
  | assoc (entries : List (Value × Value))
      (distinct : entries.Pairwise fun p q => ¬Same p.1 q.1)
      (keys : ∀ p ∈ entries, Formed heap p.1) (values : ∀ p ∈ entries, Formed heap p.2) :
      Formed heap (.assoc entries)

/-- No array has `2 ^ 32` items or more. -/
inductive Short : Value → Prop
  | integer (value : BitVec 64) : Short (.integer value)
  | array (items : List Value) (length : items.length < 2 ^ 32) (short : ∀ x ∈ items, Short x) :
      Short (.array items)
  | struct (fields : List (Option (Nat × Value)))
      (short : ∀ a x, some (a, x) ∈ fields → Short x) : Short (.struct fields)
  | assoc (entries : List (Value × Value)) (keys : ∀ p ∈ entries, Short p.1)
      (values : ∀ p ∈ entries, Short p.2) : Short (.assoc entries)

theorem sameItems_length {xs ys : List Value} (same : SameItems xs ys) : xs.length = ys.length := by
  induction xs generalizing ys with
  | nil =>
    cases ys with
    | nil => rfl
    | cons => cases same
  | cons x xs inductionHypothesis =>
    cases ys with
    | nil => cases same
    | cons y ys => exact congrArg (· + 1) (inductionHypothesis same.2)

theorem looksItems_iff {xs ys : List Value} (sameLength : xs.length = ys.length)
    (agree : ∀ x ∈ xs, ∀ y ∈ ys, Looks x y ↔ Same x y) : LooksItems xs ys ↔ SameItems xs ys := by
  induction xs generalizing ys with
  | nil =>
    rw [List.length_nil, eq_comm, List.length_eq_zero_iff] at sameLength
    rw [sameLength]
    exact Iff.rfl
  | cons x xs inductionHypothesis =>
    cases ys with
    | nil => cases sameLength
    | cons y ys =>
      rw [LooksItems, SameItems, agree x List.mem_cons_self y List.mem_cons_self,
        inductionHypothesis (Nat.succ_inj.mp sameLength) fun x' left y' right =>
          agree x' (List.mem_cons_of_mem _ left) y' (List.mem_cons_of_mem _ right)]

theorem looksFields_iff {xs ys : List (Option (Nat × Value))}
    (agree : ∀ a x b y, some (a, x) ∈ xs → some (b, y) ∈ ys → (a = b ∨ Looks x y ↔ Same x y)) :
    LooksFields xs ys ↔ SameFields xs ys := by
  induction xs generalizing ys with
  | nil => cases ys <;> exact Iff.rfl
  | cons x xs inductionHypothesis =>
    cases ys with
    | nil => cases x <;> exact Iff.rfl
    | cons y ys =>
      have rest := @inductionHypothesis ys fun a x b y left right =>
        agree a x b y (List.mem_cons_of_mem _ left) (List.mem_cons_of_mem _ right)
      cases x with
      | none =>
        cases y with
        | none => exact rest
        | some => exact Iff.rfl
      | some x =>
        cases y with
        | none => exact Iff.rfl
        | some y =>
          obtain ⟨a, x⟩ := x
          obtain ⟨b, y⟩ := y
          rw [LooksFields, SameFields, rest, agree a x b y List.mem_cons_self List.mem_cons_self]

/-- Where keys and values look alike exactly when they are equal, so do associative arrays. -/
theorem looksEntries_iff_same {xs ys : List (Value × Value)}
    (distinct : xs.Pairwise fun p q => ¬Same p.1 q.1)
    (distinctRight : ys.Pairwise fun p q => ¬Same p.1 q.1)
    (keys : ∀ p ∈ xs, ∀ q ∈ ys, Looks p.1 q.1 ↔ Same p.1 q.1)
    (values : ∀ p ∈ xs, ∀ q ∈ ys, Looks p.2 q.2 ↔ Same p.2 q.2) :
    Looks (.assoc xs) (.assoc ys) ↔ Same (.assoc xs) (.assoc ys) := by
  rw [Looks, looksEntries_iff, greedy_congr keys values, greedy_iff, same_assoc_iff]
  · exact Iff.rfl
  · refine List.Pairwise.imp (fun apart q _ both => ?_) distinct
    exact apart (same_trans both.1 (same_symm both.2))
  · refine List.Pairwise.imp (fun apart p _ both => ?_) distinctRight
    exact apart (same_trans (same_symm both.1) both.2)

/-- Short values look alike exactly when they are equal. -/
theorem looks_iff_same {heap : Nat → Value} {v w : Value} (left : Formed heap v)
    (right : Formed heap w) (leftShort : Short v) (rightShort : Short w) :
    Looks v w ↔ Same v w := by
  induction v using Value.cases_on_elements generalizing w with
  | integer value => cases w <;> exact Iff.rfl
  | array xs inductionHypothesis =>
    cases right with
    | array ys rightFormed =>
      cases left with
      | array xs leftFormed =>
        cases leftShort with
        | array xs leftLength leftShort =>
          cases rightShort with
          | array ys rightLength rightShort =>
            have agree : ∀ x ∈ xs, ∀ y ∈ ys, Looks x y ↔ Same x y := fun x member y found =>
              inductionHypothesis x member (leftFormed x member) (rightFormed y found)
                (leftShort x member) (rightShort y found)
            rw [Looks, Same, Nat.mod_eq_of_lt leftLength, Nat.mod_eq_of_lt rightLength]
            constructor
            · rintro ⟨sameLength, alike⟩
              exact (looksItems_iff sameLength agree).mp alike
            · intro same
              have sameLength := sameItems_length same
              exact ⟨sameLength, (looksItems_iff sameLength agree).mpr same⟩
    | _ => exact Iff.rfl
  | struct xs inductionHypothesis =>
    cases right with
    | struct ys rightLocated rightFormed =>
      cases left with
      | struct xs leftLocated leftFormed =>
        cases leftShort with
        | struct xs leftShort =>
          cases rightShort with
          | struct ys rightShort =>
            refine looksFields_iff fun a x b y member found => ?_
            rw [inductionHypothesis a x member (leftFormed a x member) (rightFormed b y found)
              (leftShort a x member) (rightShort b y found)]
            refine or_iff_right_of_imp fun one => ?_
            rw [← leftLocated a x member, ← rightLocated b y found, one]
            exact same_refl _
    | _ => exact Iff.rfl
  | assoc xs inductionHypothesis =>
    cases right with
    | assoc ys rightDistinct rightKeys rightValues =>
      cases left with
      | assoc xs leftDistinct leftKeys leftValues =>
        cases leftShort with
        | assoc xs leftShortKeys leftShortValues =>
          cases rightShort with
          | assoc ys rightShortKeys rightShortValues =>
            refine looksEntries_iff_same leftDistinct rightDistinct ?_ ?_
            · exact fun p member q found => (inductionHypothesis p member).1 (leftKeys p member)
                (rightKeys q found) (leftShortKeys p member) (rightShortKeys q found)
            · exact fun p member q found => (inductionHypothesis p member).2 (leftValues p member)
                (rightValues q found) (leftShortValues p member) (rightShortValues q found)
    | _ => exact Iff.rfl

end LaserD.Equality
