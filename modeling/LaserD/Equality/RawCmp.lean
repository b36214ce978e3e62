/-
This file proves that the interpreter's comparison of two values of one type fails exactly where it
meets a missing field, and tells otherwise whether the values look alike.

The proof is by induction on the size of the left expression: each loop of the comparison calls it
on parts of the left expression only.
-/

import LaserD.Equality.Outcome

namespace LaserD.Equality

open GreedyMatching (first_unique)

open Strings (intDifference)

variable {fields : Nat → List Ty} {heap : Nat → Expr}

/-- The comparison of an expression with others of its type has the outcome that their values
have. -/
def Compared (fields : Nat → List Ty) (heap : Nat → Expr) (e1 : Expr) : Prop :=
  ∀ (e2 : Expr) (type : Ty), Typed fields heap e1 type → Typed fields heap e2 type →
    Outcome (ctfeRawCmp e1 e2) (Meets (seen e1) (seen e2)) (Looks (seen e1) (seen e2))

/-! ### The loops -/

theorem cmpElements_nil_left (ys : List Expr) : cmpElements [] ys = .ok 0 := by
  rw [cmpElements]
  intros
  contradiction

theorem cmpElements_nil_right (xs : List Expr) : cmpElements xs [] = .ok 0 := by
  rw [cmpElements]
  intros
  contradiction

theorem cmpFields_nil : cmpFields [] [] = .ok 0 := by
  rw [cmpFields] <;> intros <;> contradiction

theorem findKey_nil_left (k1 : Expr) (used : List Bool) (j : Nat) :
    findKey k1 [] used j = .ok none := by
  rw [findKey]
  intros
  contradiction

theorem findKey_nil_right (k1 : Expr) (entries : List (Expr × Expr)) (j : Nat) :
    findKey k1 entries [] j = .ok none := by
  rw [findKey]
  intros
  contradiction

theorem cmpElements_outcome {next : Ty} {xs ys : List Expr}
    (compared : ∀ x ∈ xs, Compared fields heap x) (left : ∀ x ∈ xs, Typed fields heap x next)
    (right : ∀ y ∈ ys, Typed fields heap y next) :
    Outcome (cmpElements xs ys) (MeetsItems (xs.map seen) (ys.map seen))
      (LooksItems (xs.map seen) (ys.map seen)) := by
  induction xs generalizing ys with
  | nil =>
    rw [cmpElements_nil_left]
    exact .ok not_false (iff_of_true rfl trivial)
  | cons x xs inductionHypothesis =>
    cases ys with
    | nil =>
      rw [cmpElements_nil_right]
      exact .ok not_false (iff_of_true rfl trivial)
    | cons y ys =>
      obtain ⟨comparedHead, comparedRest⟩ := List.forall_mem_cons.mp compared
      obtain ⟨leftHead, leftRest⟩ := List.forall_mem_cons.mp left
      obtain ⟨rightHead, rightRest⟩ := List.forall_mem_cons.mp right
      rw [cmpElements]
      exact Outcome.andThen (comparedHead y next leftHead rightHead) fun _ _ =>
        inductionHypothesis comparedRest leftRest rightRest

theorem cmpFields_outcome {types : List Ty} {xs ys : List (Option (Nat × Expr))}
    (compared : ∀ a e, some (a, e) ∈ xs → Compared fields heap e)
    (left : TypedFields fields heap xs types) (right : TypedFields fields heap ys types)
    (sameLength : xs.length = ys.length) :
    Outcome (cmpFields xs ys) (MeetsFields (denoteFields getIndex xs) (denoteFields getIndex ys))
      (LooksFields (denoteFields getIndex xs) (denoteFields getIndex ys)) := by
  induction xs generalizing ys types with
  | nil =>
    rw [List.length_nil, eq_comm, List.length_eq_zero_iff] at sameLength
    rw [sameLength, cmpFields_nil]
    exact .ok not_false (iff_of_true rfl trivial)
  | cons x xs inductionHypothesis =>
    cases right with
    | nil => cases sameLength
    | missing type ys types rightRest =>
      cases left with
      | missing type xs types leftRest =>
        rw [cmpFields]
        exact .inl ⟨trivial, rfl⟩
      | field a e type xs types located typed leftRest =>
        rw [cmpFields]
        exact .ok not_false (iff_of_false (by decide) not_false)
    | field b y type ys types located typedRight rightRest =>
      cases left with
      | missing type xs types leftRest =>
        rw [cmpFields]
        exact .inl ⟨trivial, rfl⟩
      | field a x type xs types located typedLeft leftRest =>
        have outcomeRest := inductionHypothesis (fun a e member =>
          compared a e (List.mem_cons_of_mem _ member)) leftRest rightRest
          (Nat.succ_inj.mp sameLength)
        rw [cmpFields]
        by_cases same : a = b
        · rw [if_pos same]
          refine outcomeRest.congr ⟨fun met => .inr ⟨.inl same, met⟩, ?_⟩ ?_
          · exact fun either => either.elim (fun met => absurd same met.1) And.right
          · exact (and_iff_right (.inl same)).symm
        · rw [if_neg same]
          refine (Outcome.andThen (compared a x List.mem_cons_self y type typedLeft typedRight)
            fun _ _ => outcomeRest).congr ?_ ?_
          · exact or_congr (and_iff_right same).symm (and_congr_left' (or_iff_right same).symm)
          · exact and_congr_left' (or_iff_right same).symm

/-! ### The search for a key -/

/-- The entries that are not used. -/
def unused : List (Expr × Expr) → List Bool → List (Expr × Expr)
  | p :: entries, mark :: used => if mark then unused entries used else p :: unused entries used
  | _, _ => []

theorem unused_replicate (entries : List (Expr × Expr)) :
    unused entries (List.replicate entries.length false) = entries := by
  induction entries with
  | nil => rfl
  | cons p entries inductionHypothesis =>
    rw [List.length_cons, List.replicate_succ, unused, inductionHypothesis]
    rfl

theorem mem_of_mem_unused {p : Expr × Expr} {entries : List (Expr × Expr)} (used : List Bool)
    (member : p ∈ unused entries used) : p ∈ entries := by
  induction entries generalizing used with
  | nil => cases used <;> exact absurd member List.not_mem_nil
  | cons q entries inductionHypothesis =>
    cases used with
    | nil => exact absurd member List.not_mem_nil
    | cons mark used =>
      cases mark with
      | true => exact List.mem_cons_of_mem _ (inductionHypothesis used member)
      | false =>
        rcases List.mem_cons.mp member with rfl | member
        · exact List.mem_cons_self
        · exact List.mem_cons_of_mem _ (inductionHypothesis used member)

/-- The comparison of two keys fails or finds that they look alike. -/
def Stops (k1 k2 : Expr) : Prop :=
  Looks (seen k1) (seen k2) ∨ Meets (seen k1) (seen k2)

/-- What the search for a key comes to. It stops at the first of the entries that are not used at
whose key the comparison stops, and fails there or finds it, and then marks it as used. -/
theorem findKey_outcome {index : Ty} {k1 : Expr} {entries : List (Expr × Expr)}
    (compared : Compared fields heap k1) (left : Typed fields heap k1 index)
    (right : ∀ p ∈ entries, Typed fields heap p.1 index) (used : List Bool) (j : Nat) :
    (findKey k1 entries used j = .ok none ∧ ∀ q ∈ unused entries used, ¬Stops k1 q.1) ∨
      ∃ before p after, unused entries used = before ++ p :: after ∧
        (∀ q ∈ before, ¬Stops k1 q.1) ∧
        (Meets (seen k1) (seen p.1) ∧ findKey k1 entries used j = .error .dereference ∨
          ¬Meets (seen k1) (seen p.1) ∧ Looks (seen k1) (seen p.1) ∧ ∃ i,
            findKey k1 entries used j = .ok (some (j + i, p.2)) ∧
              unused entries (used.set i true) = before ++ after) := by
  induction entries generalizing used j with
  | nil =>
    refine .inl ⟨findKey_nil_left k1 used j, fun q member => ?_⟩
    cases used <;> exact absurd member List.not_mem_nil
  | cons p entries inductionHypothesis =>
    obtain ⟨rightHead, rightRest⟩ := List.forall_mem_cons.mp right
    obtain ⟨k2, v2⟩ := p
    cases used with
    | nil =>
      exact .inl ⟨findKey_nil_right k1 _ j, fun q member => absurd member List.not_mem_nil⟩
    | cons mark used =>
      cases mark with
      | true =>
        have skipped : findKey k1 ((k2, v2) :: entries) (true :: used) j =
            findKey k1 entries used (j + 1) := by
          rw [findKey]
          rfl
        rw [skipped]
        refine (inductionHypothesis rightRest used (j + 1)).imp id ?_
        rintro ⟨before, p, after, split, free, met | ⟨notMet, alike, i, found, removed⟩⟩
        · exact ⟨before, p, after, split, free, .inl met⟩
        · refine ⟨before, p, after, split, free, .inr ⟨notMet, alike, i + 1, ?_, removed⟩⟩
          rw [found, Nat.add_assoc, Nat.add_comm 1 i]
      | false =>
        have entered : findKey k1 ((k2, v2) :: entries) (false :: used) j = (do
            if (← ctfeRawCmp k1 k2) ≠ 0 then findKey k1 entries used (j + 1)
            else return some (j, v2)) := by
          rw [findKey]
          rfl
        rw [entered]
        rcases compared k2 index left rightHead with ⟨met, failed⟩ | ⟨free, result, done, zero⟩
        · refine .inr ⟨[], (k2, v2), unused entries used, rfl, ?_, .inl ⟨met, ?_⟩⟩
          · exact fun q member => absurd member List.not_mem_nil
          · rw [failed]
            rfl
        · rw [done]
          by_cases same : result = 0
          · refine .inr ⟨[], (k2, v2), unused entries used, rfl, ?_,
              .inr ⟨free, zero.mp same, 0, ?_, rfl⟩⟩
            · exact fun q member => absurd member List.not_mem_nil
            · show (if result ≠ 0 then _ else _) = _
              rw [if_neg (not_not_intro same)]
              rfl
          · have continued : (do
                if (← (Except.ok result : Except Failure Int)) ≠ 0 then
                  findKey k1 entries used (j + 1)
                else return some (j, v2)) = findKey k1 entries used (j + 1) := by
              show (if result ≠ 0 then _ else _) = _
              exact if_pos same
            have different : ¬Stops k1 k2 := fun either => either.elim (mt zero.mpr same) free
            rw [continued]
            rcases inductionHypothesis rightRest used (j + 1) with ⟨none, never⟩ |
              ⟨before, p, after, split, earlier, outcome⟩
            · exact .inl ⟨none, List.forall_mem_cons.mpr ⟨different, never⟩⟩
            · refine .inr ⟨(k2, v2) :: before, p, after, ?_,
                List.forall_mem_cons.mpr ⟨different, earlier⟩, ?_⟩
              · show (k2, v2) :: unused entries used = _
                rw [split, List.cons_append]
              · refine outcome.imp id ?_
                rintro ⟨notMet, alike, i, found, removed⟩
                refine ⟨notMet, alike, i + 1, ?_, ?_⟩
                · rw [found, Nat.add_assoc, Nat.add_comm 1 i]
                · show (k2, v2) :: unused entries (used.set i true) = _
                  rw [removed, List.cons_append]

/-! ### The entries of associative arrays -/

/-- What a pair of expressions stands for. -/
def seenEntry : Expr × Expr → Value × Value :=
  Prod.map seen seen

theorem map_seenEntry_split {entries before after : List (Expr × Expr)} {p : Expr × Expr}
    (split : entries = before ++ p :: after) : entries.map seenEntry =
      before.map seenEntry ++ seenEntry p :: after.map seenEntry := by
  rw [split, List.map_append, List.map_cons]

theorem seen_assocArrayLiteral (entries : List (Expr × Expr)) :
    seen (.assocArrayLiteral entries) = .assoc (entries.map seenEntry) :=
  congrArg Value.assoc (denoteEntries_eq getIndex entries)

/-- An entry whose key is not found meets nothing, and looks like no other. -/
theorem entries_of_none (value : Value) (xs : List (Value × Value)) {k1 : Expr}
    {entries : List (Expr × Expr)} (never : ∀ q ∈ entries, ¬Stops k1 q.1) :
    ¬MeetsEntries ((seen k1, value) :: xs) (entries.map seenEntry) ∧
      ¬LooksEntries ((seen k1, value) :: xs) (entries.map seenEntry) := by
  have absent (before after : List (Value × Value)) (p : Value × Value)
      (split : entries.map seenEntry = before ++ p :: after) :
      ¬Looks (seen k1) p.1 ∧ ¬Meets (seen k1) p.1 := by
    have member : p ∈ entries.map seenEntry := by
      rw [split]
      exact List.mem_append_right _ List.mem_cons_self
    obtain ⟨q, present, rfl⟩ := List.mem_map.mp member
    exact not_or.mp (never q present)
  constructor
  · rintro ⟨before, p, after, split, -, met | ⟨alike, -⟩⟩
    · exact (absent before after p split).2 met
    · exact (absent before after p split).1 alike
  · rintro ⟨before, p, after, split, -, alike, -⟩
    exact (absent before after p split).1 alike

/-- An entry whose key is found meets what its value or a later entry meets, and looks like the one
that is found when their values look alike. -/
theorem entries_of_found (value : Value) (xs : List (Value × Value)) {k1 : Expr}
    {entries before after : List (Expr × Expr)} {p : Expr × Expr}
    (split : entries = before ++ p :: after) (earlier : ∀ q ∈ before, ¬Stops k1 q.1)
    (free : ¬Meets (seen k1) (seen p.1)) (alike : Looks (seen k1) (seen p.1)) :
    (MeetsEntries ((seen k1, value) :: xs) (entries.map seenEntry) ↔
      Meets value (seen p.2) ∨ Looks value (seen p.2) ∧
        MeetsEntries xs ((before ++ after).map seenEntry)) ∧
    (LooksEntries ((seen k1, value) :: xs) (entries.map seenEntry) ↔
      Looks value (seen p.2) ∧ LooksEntries xs ((before ++ after).map seenEntry)) := by
  have splitSeen := map_seenEntry_split split
  have earlierSeen : ∀ q ∈ before.map seenEntry, ¬(Looks (seen k1) q.1 ∨ Meets (seen k1) q.1) := by
    intro q member
    obtain ⟨q, present, rfl⟩ := List.mem_map.mp member
    exact earlier q present
  rw [List.map_append]
  refine ⟨⟨?_, fun met => ?_⟩, ⟨?_, fun both => ?_⟩⟩
  · rintro ⟨before', p', after', split', earlier', met⟩
    have stops' : Looks (seen k1) p'.1 ∨ Meets (seen k1) p'.1 :=
      met.elim .inr fun both => .inl both.1
    obtain ⟨rfl, rfl, rfl⟩ := first_unique
      (P := fun q => Looks (seen k1) q.1 ∨ Meets (seen k1) q.1) (splitSeen.symm.trans split')
      earlierSeen (.inl alike) earlier' stops'
    exact met.elim (fun met => absurd met free) And.right
  · exact ⟨_, _, _, splitSeen, earlierSeen, .inr ⟨alike, met⟩⟩
  · rintro ⟨before', p', after', split', earlier', alike', both⟩
    obtain ⟨rfl, rfl, rfl⟩ := first_unique (P := fun q => Looks (seen k1) q.1)
      (splitSeen.symm.trans split') (fun q member => (not_or.mp (earlierSeen q member)).1) alike
      earlier' alike'
    exact both
  · exact ⟨_, _, _, splitSeen, fun q member => (not_or.mp (earlierSeen q member)).1, alike, both⟩

theorem cmpEntries_outcome {index next : Ty} {xs entries : List (Expr × Expr)}
    (compared : ∀ p ∈ xs, Compared fields heap p.1 ∧ Compared fields heap p.2)
    (leftKeys : ∀ p ∈ xs, Typed fields heap p.1 index)
    (leftValues : ∀ p ∈ xs, Typed fields heap p.2 next)
    (rightKeys : ∀ p ∈ entries, Typed fields heap p.1 index)
    (rightValues : ∀ p ∈ entries, Typed fields heap p.2 next) (used : List Bool) :
    Outcome (cmpEntries xs entries used)
      (MeetsEntries (xs.map seenEntry) ((unused entries used).map seenEntry))
      (LooksEntries (xs.map seenEntry) ((unused entries used).map seenEntry)) := by
  induction xs generalizing used with
  | nil =>
    rw [cmpEntries]
    exact .ok not_false (iff_of_true rfl trivial)
  | cons x xs inductionHypothesis =>
    obtain ⟨k1, v1⟩ := x
    obtain ⟨comparedHead, comparedRest⟩ := List.forall_mem_cons.mp compared
    obtain ⟨leftKey, leftKeysRest⟩ := List.forall_mem_cons.mp leftKeys
    obtain ⟨leftValue, leftValuesRest⟩ := List.forall_mem_cons.mp leftValues
    rw [List.map_cons, show seenEntry (k1, v1) = (seen k1, seen v1) from rfl, cmpEntries]
    rcases findKey_outcome comparedHead.1 leftKey rightKeys used 0 with ⟨none, never⟩ |
      ⟨before, p, after, split, earlier, ⟨met, failed⟩ | ⟨free, alike, i, found, removed⟩⟩
    · obtain ⟨notMet, different⟩ := entries_of_none (seen v1) (xs.map seenEntry) never
      rw [none]
      exact .ok notMet (iff_of_false (by decide) different)
    · rw [failed]
      refine .inl ⟨⟨_, _, _, map_seenEntry_split split, fun q member => ?_, .inl met⟩, rfl⟩
      obtain ⟨q, present, rfl⟩ := List.mem_map.mp member
      exact earlier q present
    · obtain ⟨sameMeets, sameLooks⟩ := entries_of_found (seen v1) (xs.map seenEntry)
        split earlier free alike
      have member : p ∈ entries := by
        refine mem_of_mem_unused used ?_
        rw [split]
        exact List.mem_append_right _ List.mem_cons_self
      have outcomeRest := inductionHypothesis comparedRest leftKeysRest leftValuesRest
        (used.set i true)
      rw [found, Nat.zero_add]
      rw [removed] at outcomeRest
      exact (Outcome.andThen (comparedHead.2 p.2 next leftValue (rightValues p member))
        fun _ _ => outcomeRest).congr sameMeets.symm sameLooks.symm

/-! ### The items of arrays -/

theorem not_meetsItems_integers (us : List (BitVec 64)) (ys : List Value) :
    ¬MeetsItems (us.map .integer) ys := by
  induction us generalizing ys with
  | nil => exact not_false
  | cons u us inductionHypothesis =>
    cases ys with
    | nil => exact not_false
    | cons y ys => exact fun met => met.elim (by cases y <;> exact id) fun both =>
        inductionHypothesis ys both.2

theorem looksItems_integers {us vs : List (BitVec 64)} (sameLength : us.length = vs.length) :
    LooksItems (us.map .integer) (vs.map .integer) ↔ us = vs := by
  induction us generalizing vs with
  | nil =>
    rw [List.length_nil, eq_comm, List.length_eq_zero_iff] at sameLength
    rw [sameLength]
    exact iff_of_true trivial rfl
  | cons u us inductionHypothesis =>
    cases vs with
    | nil => cases sameLength
    | cons v vs =>
      rw [List.map_cons, List.map_cons, LooksItems, Looks,
        inductionHypothesis (Nat.succ_inj.mp sameLength), List.cons.injEq]

/-- A comparison of integers looks for the first that differ. -/
theorem integers_outcome {c : Int} {us vs : List (BitVec 64)} (sameLength : us.length = vs.length)
    (zero : c = 0 ↔ us = vs) :
    Outcome (.ok c) (MeetsItems (us.map .integer) (vs.map .integer))
      (LooksItems (us.map .integer) (vs.map .integer)) :=
  .ok (not_meetsItems_integers us _) (zero.trans (looksItems_integers sameLength).symm)

theorem sliceCmpStringWithString_zero {sz lo1 lo2 len : Nat} {units1 units2 : List Nat}
    (left : ∀ u ∈ units1, u < 2 ^ (8 * sz)) (right : ∀ u ∈ units2, u < 2 ^ (8 * sz))
    (sameLength : ((units1.drop lo1).take len).length = ((units2.drop lo2).take len).length) :
    Strings.sliceCmpStringWithString sz units1 units2 lo1 lo2 len = 0 ↔
      (units1.drop lo1).take len = (units2.drop lo2).take len := by
  rw [Strings.sliceCmpStringWithString, Strings.peekData_drop, Strings.peekData_drop,
    Strings.peekData_take, Strings.peekData_take, Strings.memcmp_peekData_eq_zero,
    Strings.eq_iff_firstDifference, and_iff_left sameLength]
  · exact fun u member => left u (List.mem_of_mem_drop (List.mem_of_mem_take member))
  · exact fun u member => right u (List.mem_of_mem_drop (List.mem_of_mem_take member))

theorem cmpUnits_zero (sz : Nat) (unsigned : Bool) {units : List Nat} {elements : List Expr}
    (sameLength : units.length = elements.length) : cmpUnits sz unsigned units elements = 0 ↔
      units.map (getIndex sz unsigned) = elements.map Expr.toInteger := by
  induction units generalizing elements with
  | nil =>
    rw [List.length_nil, eq_comm, List.length_eq_zero_iff] at sameLength
    rw [sameLength]
    exact iff_of_true rfl rfl
  | cons u units inductionHypothesis =>
    cases elements with
    | nil => cases sameLength
    | cons e elements =>
      rw [List.map_cons, List.map_cons, List.cons.injEq, cmpUnits,
        ← inductionHypothesis (Nat.succ_inj.mp sameLength), ← BitVec.toNat_inj]
      rcases Nat.lt_trichotomy (getIndex sz unsigned u).toNat e.toInteger.toNat with
        less | same | greater
      · rw [if_neg less.not_gt, if_pos less, if_pos (by decide)]
        exact iff_of_false (by decide) fun both => less.ne both.1
      · rw [same, if_neg (Nat.lt_irrefl _)]
        exact (and_iff_right rfl).symm
      · rw [if_pos greater, if_neg greater.not_gt, if_pos (by decide)]
        exact iff_of_false (by decide) fun both => greater.ne' both.1

theorem cmpIntegers_zero {xs ys : List Expr} (sameLength : xs.length = ys.length) :
    cmpIntegers xs ys = 0 ↔ xs.map Expr.toInteger = ys.map Expr.toInteger := by
  induction xs generalizing ys with
  | nil =>
    rw [List.length_nil, eq_comm, List.length_eq_zero_iff] at sameLength
    rw [sameLength]
    exact iff_of_true rfl rfl
  | cons x xs inductionHypothesis =>
    cases ys with
    | nil => cases sameLength
    | cons y ys =>
      rw [List.map_cons, List.map_cons, List.cons.injEq, cmpIntegers,
        ← inductionHypothesis (Nat.succ_inj.mp sameLength)]
      have equal : (x.toInteger - y.toInteger).toInt = 0 ↔ x.toInteger = y.toInteger := by
        rw [← BitVec.toInt_zero (w := 64), BitVec.toInt_inj, BitVec.sub_eq_iff_eq_add,
          BitVec.zero_add]
      rcases lt_trichotomy (x.toInteger - y.toInteger).toInt 0 with less | same | greater
      · rw [if_neg less.not_gt, if_pos less]
        exact iff_of_false (by decide) fun both => less.ne (equal.mpr both.1)
      · rw [same, if_neg (lt_irrefl _), if_neg (lt_irrefl _)]
        exact (and_iff_right (equal.mp same)).symm
      · rw [if_pos greater]
        exact iff_of_false (by decide) fun both => greater.ne' (equal.mpr both.1)

/-! ### The parts of two literals -/

theorem length_part {α : Type} (xs : List α) {lo len : Nat} (within : lo + len ≤ xs.length) :
    ((xs.drop lo).take len).length = len := by
  rw [List.length_take, List.length_drop]
  exact min_eq_left (Nat.le_sub_of_add_le' within)

theorem part_map {α β : Type} (f : α → β) (xs : List α) (lo len : Nat) :
    ((xs.map f).drop lo).take len = ((xs.drop lo).take len).map f := by
  rw [List.map_take, List.map_drop]

/-- Strings that are read alike have the same units. -/
theorem map_getIndex_inj {sz : Nat} (unsigned : Bool) {us vs : List Nat} (size : sz ≤ 8)
    (left : ∀ u ∈ us, u < 2 ^ (8 * sz)) (right : ∀ v ∈ vs, v < 2 ^ (8 * sz)) :
    us.map (getIndex sz unsigned) = vs.map (getIndex sz unsigned) ↔ us = vs := by
  have back {ws : List Nat} (inRange : ∀ w ∈ ws, w < 2 ^ (8 * sz)) :
      (ws.map (getIndex sz unsigned)).map BitVec.toNat = ws := by
    rw [List.map_map, List.map_congr_left (g := id), List.map_id]
    intro w member
    refine Nat.mod_eq_of_lt ((inRange w member).trans_le ?_)
    exact Nat.pow_le_pow_right two_pos (by omega)
  refine ⟨fun same => ?_, congrArg _⟩
  rw [← back left, same, back right]

theorem ctfeCmpArrays_outcome {next : Ty} {x1 x2 : Expr} {lo1 lo2 len : Nat}
    (left : Typed fields heap x1 (.array next)) (leftLiteral : x1.isLiteral = true)
    (right : Typed fields heap x2 (.array next)) (rightLiteral : x2.isLiteral = true)
    (leftWithin : lo1 + len ≤ x1.resolveArrayLength)
    (rightWithin : lo2 + len ≤ x2.resolveArrayLength)
    (compared : ∀ type elements, x1 = .arrayLiteral type elements →
      ∀ e ∈ elements, Compared fields heap e) :
    Outcome (ctfeCmpArrays x1 x2 lo1 lo2 len)
      (MeetsItems (((items getIndex x1).drop lo1).take len) (((items getIndex x2).drop lo2).take len))
      (LooksItems (((items getIndex x1).drop lo1).take len) (((items getIndex x2).drop lo2).take len)) := by
  cases left with
  | nullArray => cases leftLiteral
  | slice => cases leftLiteral
  | string sz unsigned units1 size inRange1 =>
    have length1 := length_part units1 leftWithin
    cases right with
    | slice => cases rightLiteral
    | nullArray => cases rightLiteral
    | string sz unsigned units2 size inRange2 =>
      have sameLength := length1.trans (length_part units2 rightWithin).symm
      rw [items_string, items_string, part_map, part_map, part_map, part_map, ctfeCmpArrays,
        sliceCmpStringWithString, if_pos rfl]
      refine integers_outcome (by rw [List.length_map, List.length_map, sameLength]) ?_
      rw [sliceCmpStringWithString_zero inRange1 inRange2 sameLength, map_getIndex_inj unsigned size]
      · exact fun u member => inRange1 u (List.mem_of_mem_drop (List.mem_of_mem_take member))
      · exact fun u member => inRange2 u (List.mem_of_mem_drop (List.mem_of_mem_take member))
    | arrayLiteral next elements typed =>
      have sameLength := length1.trans (length_part elements rightWithin).symm
      rw [items_string, items_arrayLiteral, map_denoteWith_of_integral getIndex typed, part_map, part_map,
        part_map, part_map, ctfeCmpArrays, sliceCmpStringWithArray]
      exact integers_outcome (by rw [List.length_map, List.length_map, sameLength])
        (cmpUnits_zero sz unsigned sameLength)
  | arrayLiteral next elements1 typed1 =>
    have length1 := length_part elements1 leftWithin
    cases right with
    | slice => cases rightLiteral
    | nullArray => cases rightLiteral
    | string sz unsigned units size inRange =>
      have sameLength := (length_part units rightWithin).trans length1.symm
      rw [items_string, items_arrayLiteral, map_denoteWith_of_integral getIndex typed1, part_map, part_map,
        part_map, part_map, ctfeCmpArrays, sliceCmpStringWithArray]
      refine integers_outcome (by rw [List.length_map, List.length_map, sameLength]) ?_
      rw [neg_eq_zero, cmpUnits_zero sz unsigned sameLength]
      exact eq_comm
    | arrayLiteral next elements2 typed2 =>
      have sameLength := length1.trans (length_part elements2 rightWithin).symm
      rw [items_arrayLiteral, items_arrayLiteral, ctfeCmpArrays]
      by_cases integral : next.isIntegral = true
      · obtain ⟨sz, unsigned, rfl⟩ : ∃ sz unsigned, next = .integral sz unsigned := by
          cases next <;> first | exact ⟨_, _, rfl⟩ | cases integral
        rw [map_denoteWith_of_integral getIndex typed1, map_denoteWith_of_integral getIndex typed2, part_map, part_map, part_map,
          part_map, if_pos (show (Ty.array (.integral sz unsigned)).nextOf.any Ty.isIntegral from rfl)]
        exact integers_outcome (by rw [List.length_map, List.length_map, sameLength])
          (cmpIntegers_zero sameLength)
      · have part (elements : List Expr) (lo : Nat) :
            ∀ e ∈ (elements.drop lo).take len, e ∈ elements := fun e member =>
          List.mem_of_mem_drop (List.mem_of_mem_take member)
        rw [part_map, part_map,
          if_neg (show ¬(Ty.array next).nextOf.any Ty.isIntegral from integral)]
        exact cmpElements_outcome
          (fun e member => compared _ _ rfl e (part elements1 lo1 e member))
          (fun e member => typed1 e (part elements1 lo1 e member))
          fun e member => typed2 e (part elements2 lo2 e member)

/-! ### Two arrays -/

/-- `cast(int)` of a difference of lengths is zero when their low 32 bits agree. -/
theorem intDifference_eq_zero {n m : Nat} (left : n < 2 ^ 64) (right : m < 2 ^ 64) :
    intDifference n m = 0 ↔ n % 2 ^ 32 = m % 2 ^ 32 := by
  have divides : ((2 ^ 32 : ℕ) : Int) ∣ (((n + 2 ^ 64 - m) % 2 ^ 64 : ℕ) : Int) ↔
      n % 2 ^ 32 = m % 2 ^ 32 := by
    omega
  exact Int.dvd_iff_bmod_eq_zero.symm.trans divides

theorem ctfeRawCmp_arrays {e1 e2 : Expr} (left : e1.isArray = true) (right : e2.isArray = true) :
    ctfeRawCmp e1 e2 =
      if e1.resolveArrayLength > 0 ∧ e2.resolveArrayLength > 0 then do
        let res ← ctfeCmpArrays e1.resolved e2.resolved e1.lower e2.lower
          (if e1.resolveArrayLength < e2.resolveArrayLength then e1.resolveArrayLength
            else e2.resolveArrayLength)
        if res ≠ 0 then return res
        return intDifference e1.resolveArrayLength e2.resolveArrayLength
      else .ok (intDifference e1.resolveArrayLength e2.resolveArrayLength) := by
  unfold ctfeRawCmp
  split
  · have zero : intDifference 0 0 = 0 :=
      (intDifference_eq_zero (Nat.two_pow_pos 64) (Nat.two_pow_pos 64)).mpr rfl
    rw [if_neg fun filled => Nat.lt_irrefl 0 filled.1]
    exact congrArg Except.ok zero.symm
  · rw [if_pos (by rw [left, right]; rfl)]

theorem items_take (xs ys : List Value) (n : Nat) (enough : xs.length ≤ n ∨ ys.length ≤ n) :
    (MeetsItems (xs.take n) (ys.take n) ↔ MeetsItems xs ys) ∧
      (LooksItems (xs.take n) (ys.take n) ↔ LooksItems xs ys) := by
  induction xs generalizing ys n with
  | nil =>
    rw [List.take_nil]
    exact ⟨Iff.rfl, Iff.rfl⟩
  | cons x xs inductionHypothesis =>
    cases ys with
    | nil =>
      rw [List.take_nil]
      cases n <;> exact ⟨Iff.rfl, Iff.rfl⟩
    | cons y ys =>
      cases n with
      | zero => exact absurd enough (by rintro (short | short) <;> cases short)
      | succ n =>
        obtain ⟨meets, looks⟩ := inductionHypothesis ys n
          (enough.imp Nat.le_of_succ_le_succ Nat.le_of_succ_le_succ)
        rw [List.take_succ_cons, List.take_succ_cons, MeetsItems, MeetsItems, LooksItems,
          LooksItems, meets, looks]
        exact ⟨Iff.rfl, Iff.rfl⟩

/-- The items of an array up to a length, as a part of the literal. -/
theorem take_items {e : Expr} {next : Ty} {len : Nat} (typed : Typed fields heap e (.array next))
    (filled : 0 < e.resolveArrayLength) (within : len ≤ e.resolveArrayLength) :
    (items getIndex e).take len = ((items getIndex e.resolved).drop e.lower).take len := by
  rw [(typed.resolved getIndex filled).2.2.2, List.take_take, min_eq_left within]

/-- A comparison of items that is followed by one of lengths. -/
theorem Outcome.thenLengths {result : Except Failure Int} {meets looks same : Prop} {d : Int}
    (outcome : Outcome result meets looks) (zero : d = 0 ↔ same) :
    Outcome (do let res ← result
                if res ≠ 0 then return res
                return d) meets (same ∧ looks) := by
  rcases outcome with ⟨met, rfl⟩ | ⟨free, c, rfl, zeroItems⟩
  · exact .inl ⟨met, rfl⟩
  · refine .inr ⟨free, if c ≠ 0 then c else d, ?_, ?_⟩
    · show (if c ≠ 0 then _ else _) = _
      by_cases alike : c = 0
      · rw [if_neg (not_not_intro alike), if_neg (not_not_intro alike)]
        rfl
      · rw [if_pos alike, if_pos alike]
        rfl
    · by_cases alike : c = 0
      · rw [if_neg (not_not_intro alike), zero, and_iff_left (zeroItems.mp alike)]
      · rw [if_pos alike]
        exact iff_of_false alike fun both => alike (zeroItems.mpr both.2)

theorem arrays_outcome {next : Ty} {e1 e2 : Expr} (left : Typed fields heap e1 (.array next))
    (right : Typed fields heap e2 (.array next)) (compared : ∀ type elements,
      e1.resolved = .arrayLiteral type elements → ∀ e ∈ elements, Compared fields heap e) :
    Outcome (ctfeRawCmp e1 e2) (Meets (seen e1) (seen e2)) (Looks (seen e1) (seen e2)) := by
  obtain ⟨leftLength, leftFits⟩ := left.length_items getIndex
  obtain ⟨rightLength, rightFits⟩ := right.length_items getIndex
  have difference := intDifference_eq_zero leftFits rightFits
  show Outcome _ (Meets (denoteWith getIndex e1) (denoteWith getIndex e2))
    (Looks (denoteWith getIndex e1) (denoteWith getIndex e2))
  rw [ctfeRawCmp_arrays left.isArray right.isArray, left.denoteWith_eq, right.denoteWith_eq, Meets,
    Looks, leftLength, rightLength]
  by_cases filled : e1.resolveArrayLength > 0 ∧ e2.resolveArrayLength > 0
  · obtain ⟨leftTyped, leftLiteral, leftWithin, -⟩ := left.resolved getIndex filled.1
    obtain ⟨rightTyped, rightLiteral, rightWithin, -⟩ := right.resolved getIndex filled.2
    have shorter : (if e1.resolveArrayLength < e2.resolveArrayLength then e1.resolveArrayLength
        else e2.resolveArrayLength) = min e1.resolveArrayLength e2.resolveArrayLength := by
      split <;> omega
    rw [if_pos filled, shorter]
    refine Outcome.thenLengths ?_ difference
    obtain ⟨sameMeets, sameLooks⟩ := items_take (items getIndex e1) (items getIndex e2)
      (min e1.resolveArrayLength e2.resolveArrayLength) (by omega)
    have outcome := ctfeCmpArrays_outcome leftTyped leftLiteral rightTyped rightLiteral
      ((Nat.add_le_add_left (min_le_left _ e2.resolveArrayLength) _).trans leftWithin)
      ((Nat.add_le_add_left (min_le_right e1.resolveArrayLength _) _).trans rightWithin) compared
    rw [← take_items left filled.1 (min_le_left _ _),
      ← take_items right filled.2 (min_le_right _ _)] at outcome
    exact outcome.congr sameMeets sameLooks
  · rw [if_neg filled]
    have none : items getIndex e1 = [] ∨ items getIndex e2 = [] := by
      rw [← List.length_eq_zero_iff, ← List.length_eq_zero_iff, leftLength, rightLength]
      omega
    have trivialItems : ¬MeetsItems (items getIndex e1) (items getIndex e2) ∧ LooksItems (items getIndex e1) (items getIndex e2) := by
      rcases none with none | none
      · rw [none]
        exact ⟨not_false, trivial⟩
      · rw [none]
        cases items getIndex e1 <;> exact ⟨not_false, trivial⟩
    exact .ok trivialItems.1 (difference.trans (and_iff_left trivialItems.2).symm)

/-! ### The comparison -/

theorem ctfeRawCmp_integers {a b : BitVec 64} :
    ctfeRawCmp (.integer a) (.integer b) = .ok (if a ≠ b then 1 else 0) := by
  rw [ctfeRawCmp]
  · rfl
  all_goals
    intros
    contradiction

theorem ctfeRawCmp_assocArray_null {entries : List (Expr × Expr)} {type : Ty} :
    ctfeRawCmp (.assocArrayLiteral entries) (.null type) =
      .ok (if entries.length ≠ 0 then 1 else 0) := by
  rw [ctfeRawCmp]
  rfl

theorem ctfeRawCmp_null_assocArray {entries : List (Expr × Expr)} {type : Ty} :
    ctfeRawCmp (.null type) (.assocArrayLiteral entries) =
      .ok (if entries.length ≠ 0 then 1 else 0) := by
  rw [ctfeRawCmp]
  rfl

theorem ctfeRawCmp_structs {sd : Nat} {elements1 elements2 : List (Option (Nat × Expr))} :
    ctfeRawCmp (.structLiteral sd elements1) (.structLiteral sd elements2) =
      if elements1.length ≠ elements2.length then .ok 1 else cmpFields elements1 elements2 := by
  rw [ctfeRawCmp]
  exact if_neg (not_not_intro rfl)

theorem ctfeRawCmp_assocArrays {entries1 entries2 : List (Expr × Expr)} :
    ctfeRawCmp (.assocArrayLiteral entries1) (.assocArrayLiteral entries2) =
      if entries2.length ≠ entries1.length then .ok 1
      else cmpEntries entries1 entries2 (List.replicate entries1.length false) := by
  rw [ctfeRawCmp]
  rfl

theorem LooksFields.length_eq {xs ys : List (Option (Nat × Value))} (alike : LooksFields xs ys) :
    xs.length = ys.length := by
  induction xs generalizing ys with
  | nil =>
    cases ys with
    | nil => rfl
    | cons => cases alike
  | cons x xs inductionHypothesis =>
    cases ys with
    | nil => cases x <;> cases alike
    | cons y ys =>
      refine congrArg (· + 1) (inductionHypothesis ?_)
      cases x <;> cases y
      · exact alike
      · cases alike
      · cases alike
      · exact alike.2

theorem structs_outcome {sd : Nat} {elements1 elements2 : List (Option (Nat × Expr))}
    (compared : ∀ a e, some (a, e) ∈ elements1 → Compared fields heap e)
    (left : TypedFields fields heap elements1 (fields sd))
    (right : TypedFields fields heap elements2 (fields sd)) :
    Outcome (ctfeRawCmp (.structLiteral sd elements1) (.structLiteral sd elements2))
      (Meets (seen (.structLiteral sd elements1)) (seen (.structLiteral sd elements2)))
      (Looks (seen (.structLiteral sd elements1)) (seen (.structLiteral sd elements2))) := by
  have lengths : (denoteFields getIndex elements1).length =
      (denoteFields getIndex elements2).length ↔ elements1.length = elements2.length := by
    rw [denoteFields_eq, denoteFields_eq, List.length_map, List.length_map]
  rw [ctfeRawCmp_structs]
  by_cases sameLength : elements1.length = elements2.length
  · rw [if_neg (not_not_intro sameLength)]
    exact (cmpFields_outcome compared left right sameLength).congr
      (and_iff_right (lengths.mpr sameLength)).symm Iff.rfl
  · rw [if_pos sameLength]
    refine .ok (fun met => sameLength (lengths.mp met.1)) (iff_of_false (by decide) fun alike => ?_)
    exact sameLength (lengths.mp (LooksFields.length_eq alike))

theorem assocArrays_outcome {index next : Ty} {entries1 entries2 : List (Expr × Expr)}
    (compared : ∀ p ∈ entries1, Compared fields heap p.1 ∧ Compared fields heap p.2)
    (left : Typed fields heap (.assocArrayLiteral entries1) (.assocArray index next))
    (right : Typed fields heap (.assocArrayLiteral entries2) (.assocArray index next)) :
    Outcome (ctfeRawCmp (.assocArrayLiteral entries1) (.assocArrayLiteral entries2))
      (Meets (seen (.assocArrayLiteral entries1)) (seen (.assocArrayLiteral entries2)))
      (Looks (seen (.assocArrayLiteral entries1)) (seen (.assocArrayLiteral entries2))) := by
  cases left with
  | assocArrayLiteral index next entries1 leftKeys leftValues =>
    cases right with
    | assocArrayLiteral index next entries2 rightKeys rightValues =>
      have outcome := cmpEntries_outcome compared leftKeys leftValues rightKeys rightValues
        (List.replicate entries1.length false)
      rw [ctfeRawCmp_assocArrays, seen_assocArrayLiteral, seen_assocArrayLiteral, Meets, Looks,
        List.length_map, List.length_map]
      by_cases sameLength : entries1.length = entries2.length
      · rw [sameLength, unused_replicate] at outcome
        rw [if_neg (not_not_intro sameLength.symm), sameLength]
        exact outcome.congr (and_iff_right rfl).symm (and_iff_right rfl).symm
      · rw [if_pos (Ne.symm sameLength)]
        exact .ok (fun met => sameLength met.1)
          (iff_of_false (by decide) fun alike => sameLength alike.1)

/-- An associative array literal is compared with null by the number of its entries. -/
theorem null_outcome (entries : List (Expr × Expr)) {xs ys : List (Value × Value)}
    (none : xs = [] ∨ ys = []) (sameLength : entries.length = 0 ↔ xs.length = ys.length) :
    Outcome (.ok (if entries.length ≠ 0 then 1 else 0)) (Meets (.assoc xs) (.assoc ys))
      (Looks (.assoc xs) (.assoc ys)) := by
  have empty (agree : xs.length = ys.length) : xs = [] := by
    rcases none with none | none
    · exact none
    · exact List.length_eq_zero_iff.mp (agree.trans (List.length_eq_zero_iff.mpr none))
  refine .ok ?_ ?_
  · rintro ⟨agree, met⟩
    rw [empty agree] at met
    exact met
  · by_cases length : entries.length = 0
    · have agree := sameLength.mp length
      rw [if_neg (not_not_intro length), empty agree]
      exact iff_of_true rfl ⟨empty agree ▸ agree, trivial⟩
    · rw [if_pos length]
      exact iff_of_false (by decide) fun alike => length (sameLength.mpr alike.1)

/-- The comparison of a value has the outcome that the values have, when those of smaller ones
do. -/
theorem compared_of_smaller {e1 : Expr}
    (smaller : ∀ e, sizeOf e < sizeOf e1 → Compared fields heap e) : Compared fields heap e1 := by
  intro e2 type left right
  cases left with
  | integer value sz unsigned =>
    cases right with
    | integer value' =>
      rw [ctfeRawCmp_integers]
      refine .ok not_false ?_
      by_cases same : value = value'
      · rw [if_neg (not_not_intro same)]
        exact iff_of_true rfl same
      · rw [if_pos same]
        exact iff_of_false (by decide) same
  | nullArray next =>
    exact arrays_outcome (.nullArray next) right fun _ _ literal => by cases literal
  | nullAssocArray index next =>
    cases right with
    | nullAssocArray =>
      rw [ctfeRawCmp]
      exact .ok (fun met => met.2) (iff_of_true rfl ⟨rfl, trivial⟩)
    | assocArrayLiteral index next entries =>
      rw [ctfeRawCmp_null_assocArray, seen_assocArrayLiteral]
      exact null_outcome entries (.inl rfl) (by rw [List.length_map]; exact eq_comm)
  | string sz unsigned units size inRange addressable =>
    exact arrays_outcome (.string sz unsigned units size inRange addressable) right
      fun _ _ literal => by cases literal
  | arrayLiteral next elements typed addressable =>
    refine arrays_outcome (.arrayLiteral next elements typed addressable) right ?_
    rintro _ _ literal e member
    cases literal
    exact smaller e (sizeOf_arrayLiteral member)
  | slice next e1 lwr upr typed literal ordered within =>
    refine arrays_outcome (.slice next e1 lwr upr typed literal ordered within) right ?_
    intro type elements resolution e member
    have within : sizeOf e1 ≤ sizeOf (Expr.slice e1 lwr upr) :=
      sizeOf_resolved (.slice e1 lwr upr)
    obtain rfl : e1 = .arrayLiteral type elements := resolution
    exact smaller e ((sizeOf_arrayLiteral member).trans_le within)
  | structLiteral sd elements typed =>
    cases right with
    | structLiteral sd elements2 typed2 =>
      exact structs_outcome (fun a e member => smaller e (sizeOf_structLiteral member)) typed
        typed2
  | assocArrayLiteral index next entries keys values distinct =>
    cases right with
    | nullAssocArray =>
      rw [ctfeRawCmp_assocArray_null, seen_assocArrayLiteral]
      exact null_outcome entries (.inr rfl) (by rw [List.length_map]; rfl)
    | assocArrayLiteral index next entries2 keys2 values2 distinct2 =>
      refine assocArrays_outcome (fun p member => ?_)
        (.assocArrayLiteral index next entries keys values distinct)
        (.assocArrayLiteral index next entries2 keys2 values2 distinct2)
      obtain ⟨key, value⟩ := sizeOf_assocArrayLiteral member
      exact ⟨smaller p.1 key, smaller p.2 value⟩

/-- The comparison of two values of one type has the outcome that the values have. -/
theorem ctfeRawCmp_outcome (e1 : Expr) : Compared fields heap e1 :=
  compared_of_smaller fun e _ => ctfeRawCmp_outcome e
termination_by sizeOf e1

end LaserD.Equality
