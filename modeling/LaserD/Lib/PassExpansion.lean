/-
This file is about lists of items that are expanded pass by pass. A pass puts, for each item that
stands for a list, that list in its place; the items of the list are left for the next pass.

The items that stand for lists after a number of passes are those at one depth of nesting below the
first ones. When nothing is nested in itself, every item has a weight that counts the items that
stand for lists in it, and a pass takes from the weight of a list as many as it expands. So further
passes change a list exactly when it has something to expand, and two lists that are passed over
differently often are not, together, what they were.
-/

import Mathlib.Algebra.Order.Ring.Nat
import Mathlib.Algebra.BigOperators.Group.List.Basic
import Mathlib.Logic.Function.Iterate
import Mathlib.Order.WellFounded

namespace PassExpansion

variable {Item : Type} (expand : Item → Option (List Item))

/-- Every item that stands for a list is replaced by it. -/
def pass (items : List Item) : List Item :=
  items.flatMap fun item => (expand item).getD [item]

/-- The items that stand for lists. -/
def references (items : List Item) : List Item :=
  items.filter fun item => (expand item).isSome

/-- The items that stand for lists, at a depth of nesting. -/
def nested : Nat → List Item → List Item
  | 0, items => references expand items
  | depth + 1, items =>
    (nested depth items).flatMap fun item => references expand ((expand item).getD [])

theorem pass_append (first second : List Item) :
    pass expand (first ++ second) = pass expand first ++ pass expand second :=
  List.flatMap_append

theorem iterate_append (count : Nat) (first second : List Item) :
    (pass expand)^[count] (first ++ second) =
      (pass expand)^[count] first ++ (pass expand)^[count] second := by
  induction count generalizing first second with
  | zero => rfl
  | succ count inductionHypothesis =>
    rw [Function.iterate_succ_apply, pass_append, inductionHypothesis]
    rfl

theorem references_append (first second : List Item) :
    references expand (first ++ second) = references expand first ++ references expand second :=
  List.filter_append ..

theorem nested_append (depth : Nat) (first second : List Item) :
    nested expand depth (first ++ second) =
      nested expand depth first ++ nested expand depth second := by
  induction depth with
  | zero => exact references_append expand first second
  | succ depth inductionHypothesis =>
    show (nested expand depth (first ++ second)).flatMap _ = _
    rw [inductionHypothesis, List.flatMap_append]
    rfl

/-- The references after a pass are those in the lists that were put in. -/
theorem references_pass (items : List Item) :
    references expand (pass expand items) = nested expand 1 items := by
  induction items with
  | nil => rfl
  | cons item items inductionHypothesis =>
    show references expand ((expand item).getD [item] ++ pass expand items) = _
    rw [references_append, inductionHypothesis]
    show _ = (references expand (item :: items)).flatMap _
    unfold references
    cases list : expand item with
    | none =>
      have self : ([item].filter fun item => (expand item).isSome) = [] :=
        List.filter_cons_of_neg (by rw [list]; exact Bool.false_ne_true)
      rw [List.filter_cons_of_neg (by rw [list]; exact Bool.false_ne_true), Option.getD_none, self]
      rfl
    | some inner =>
      rw [List.filter_cons_of_pos (by rw [list]; rfl), List.flatMap_cons, list]
      rfl

theorem nested_pass (depth : Nat) (items : List Item) :
    nested expand depth (pass expand items) = nested expand (depth + 1) items := by
  induction depth with
  | zero => exact references_pass expand items
  | succ depth inductionHypothesis =>
    show (nested expand depth (pass expand items)).flatMap _ = _
    rw [inductionHypothesis]
    rfl

/-- Where nothing is nested, nothing is nested deeper. -/
theorem nested_eq_nil_of_le {items : List Item} {depth later : Nat} (le : depth ≤ later)
    (none : nested expand depth items = []) : nested expand later items = [] := by
  induction later, le using Nat.le_induction with
  | base => exact none
  | succ later _ inductionHypothesis =>
    show (nested expand later items).flatMap _ = []
    rw [inductionHypothesis]
    rfl

/-- What is left to expand after some passes is at that depth of nesting. -/
theorem references_iterate (count : Nat) (items : List Item) :
    references expand ((pass expand)^[count] items) = nested expand count items := by
  induction count generalizing items with
  | zero => rfl
  | succ count inductionHypothesis =>
    rw [Function.iterate_succ_apply, inductionHypothesis, nested_pass]

/-- A list without references is not changed by a pass. -/
theorem pass_eq_self {items : List Item} (none : references expand items = []) :
    pass expand items = items := by
  induction items with
  | nil => rfl
  | cons item items inductionHypothesis =>
    have absent := List.filter_eq_nil_iff.mp none
    have leaf : expand item = Option.none := by
      have first := absent item List.mem_cons_self
      rw [Option.not_isSome_iff_eq_none] at first
      exact first
    show (expand item).getD [item] ++ pass expand items = _
    rw [leaf, inductionHypothesis (List.filter_eq_nil_iff.mpr fun other member =>
      absent other (List.mem_cons_of_mem _ member))]
    rfl

theorem iterate_eq_self {items : List Item} (none : references expand items = []) (count : Nat) :
    (pass expand)^[count] items = items :=
  Function.iterate_fixed (pass_eq_self expand none) count

/-! ### Weights -/

/-- The weight of an item is the number of references that it is expanded to, itself included. -/
def IsWeight (weight : Item → Nat) : Prop :=
  (∀ item, expand item = none → weight item = 0) ∧
    ∀ item items, expand item = some items → weight item = (items.map weight).sum + 1

/-- The items of the list for which an item stands are inside it. -/
def Inside (inner outer : Item) : Prop :=
  ∃ items, expand outer = some items ∧ inner ∈ items

/-- When nothing is nested in itself without end, every item has a weight. -/
theorem exists_weight (wellFounded : WellFounded (Inside expand)) :
    ∃ weight, IsWeight expand weight := by
  let step : ∀ item, (∀ inner, Inside expand inner item → Nat) → Nat := fun item weigh =>
    match list : expand item with
    | none => 0
    | some items => (items.attach.map fun inner => weigh inner.1 ⟨items, list, inner.2⟩).sum + 1
  have unfold_eq : ∀ item, wellFounded.fix step item =
      step item fun inner _ => wellFounded.fix step inner :=
    fun item => wellFounded.fix_eq step item
  refine ⟨wellFounded.fix step, fun item leaf => ?_, fun item items list => ?_⟩
  · rw [unfold_eq]
    show (match list : expand item with
      | none => 0
      | some items => _) = 0
    split
    · rfl
    · rename_i found
      exact absurd (leaf.symm.trans found).symm (Option.some_ne_none _)
  · rw [unfold_eq]
    show (match list : expand item with
      | none => 0
      | some items =>
        (items.attach.map fun inner : { x // x ∈ items } => wellFounded.fix step inner.1).sum + 1) =
        _
    split
    · rename_i leaf
      exact absurd (leaf.symm.trans list).symm (Option.some_ne_none _)
    · rename_i found foundList
      obtain rfl : items = found := Option.some.inj (list.symm.trans foundList)
      rw [List.attach_map_val (f := wellFounded.fix step)]

section
variable {expand} {weight : Item → Nat} (isWeight : IsWeight expand weight)
include isWeight

/-- A pass takes one from the weight for each reference that it expands. -/
theorem weight_pass (items : List Item) :
    ((pass expand items).map weight).sum + (references expand items).length =
      (items.map weight).sum := by
  induction items with
  | nil => rfl
  | cons item items inductionHypothesis =>
    show (((expand item).getD [item] ++ pass expand items).map weight).sum +
      ((item :: items).filter fun item => (expand item).isSome).length = _
    rw [List.map_append, List.sum_append, List.map_cons, List.sum_cons]
    unfold references at inductionHypothesis
    cases list : expand item with
    | none =>
      rw [List.filter_cons_of_neg (by rw [list]; exact Bool.false_ne_true), Option.getD_none,
        List.map_cons, List.map_nil, List.sum_cons, List.sum_nil]
      omega
    | some inner =>
      rw [List.filter_cons_of_pos (by rw [list]; rfl), List.length_cons, Option.getD_some,
        isWeight.2 item inner list]
      omega

theorem weight_iterate_le (count : Nat) (items : List Item) :
    (((pass expand)^[count] items).map weight).sum ≤ (items.map weight).sum := by
  induction count generalizing items with
  | zero => exact le_rfl
  | succ count inductionHypothesis =>
    rw [Function.iterate_succ_apply]
    have first := weight_pass isWeight items
    have rest := inductionHypothesis (pass expand items)
    omega

theorem weight_iterate_lt {count : Nat} (positive : count ≠ 0) {items : List Item}
    (some : references expand items ≠ []) :
    (((pass expand)^[count] items).map weight).sum < (items.map weight).sum := by
  obtain ⟨rest, rfl⟩ := Nat.exists_eq_succ_of_ne_zero positive
  rw [Function.iterate_succ_apply]
  have first := weight_pass isWeight items
  have rest := weight_iterate_le isWeight rest (pass expand items)
  have found := List.length_pos_of_ne_nil some
  omega

/-- The nesting ends at the weight of the list. -/
theorem nested_eq_nil {items : List Item} {depth : Nat} (deep : (items.map weight).sum ≤ depth) :
    nested expand depth items = [] := by
  induction depth generalizing items with
  | zero =>
    have first := weight_pass isWeight items
    rw [← List.length_eq_zero_iff]
    show (references expand items).length = 0
    omega
  | succ depth inductionHypothesis =>
    rw [← nested_pass]
    by_cases none : references expand items = []
    · rw [pass_eq_self expand none]
      exact nested_eq_nil_of_le expand (Nat.zero_le depth) none
    · refine inductionHypothesis ?_
      have first := weight_pass isWeight items
      have found := List.length_pos_of_ne_nil none
      omega

/-- Two lists that are passed over further are together what they were exactly when each is left
alone or has nothing to expand. -/
theorem iterate_append_eq_iff (s t : Nat) (first second : List Item) :
    (pass expand)^[s] first ++ (pass expand)^[t] second = first ++ second ↔
      (s = 0 ∨ references expand first = []) ∧ (t = 0 ∨ references expand second = []) := by
  constructor
  · intro same
    have weights := congrArg (fun items => (items.map weight).sum) same
    simp only [List.map_append, List.sum_append] at weights
    have left := weight_iterate_le isWeight s first
    have right := weight_iterate_le isWeight t second
    constructor
    · by_contra changed
      rw [not_or] at changed
      have less := weight_iterate_lt isWeight changed.1 changed.2
      omega
    · by_contra changed
      rw [not_or] at changed
      have less := weight_iterate_lt isWeight changed.1 changed.2
      omega
  · have alone : ∀ count items, count = 0 ∨ references expand items = [] →
        (pass expand)^[count] items = items := by
      rintro count items (rfl | none)
      · rfl
      · exact iterate_eq_self expand none count
    rintro ⟨left, right⟩
    rw [alone s first left, alone t second right]

end

end PassExpansion
