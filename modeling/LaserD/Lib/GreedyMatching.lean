/-
This file is about pairing the elements of one list with those of another.

A search takes the elements of the first list in turn, and gives each the first of the others that
is left and has its key. It never goes back, and fails where the element it has found has another
value. As long as no two elements of a list have one key, the search finds a pairing exactly when
each element of either list has a counterpart in the other one.
-/

import Mathlib.Data.List.Basic

namespace LaserD.GreedyMatching

variable {α β : Type} {K V : α → β → Prop}

/-- Each element takes the first of the others that has its key, and that one has its value. -/
def Greedy (K V : α → β → Prop) : List α → List β → Prop
  | [], _ => True
  | x :: xs, ys => ∃ before y after, ys = before ++ y :: after ∧ (∀ z ∈ before, ¬K x z) ∧
      K x y ∧ V x y ∧ Greedy K V xs (before ++ after)

/-- No two of the elements have the key of one of the others. -/
def Distinct (K : α → β → Prop) (xs : List α) (ys : List β) : Prop :=
  xs.Pairwise fun x x' => ∀ y ∈ ys, ¬(K x y ∧ K x' y)

/-- Each of the elements has a counterpart. -/
def Covered (K V : α → β → Prop) (xs : List α) (ys : List β) : Prop :=
  ∀ x ∈ xs, ∃ y ∈ ys, K x y ∧ V x y

theorem mem_cons_of_mem_append {y z : β} {before after : List β} (member : z ∈ before ++ after) :
    z ∈ before ++ y :: after :=
  (List.mem_append.mp member).elim (List.mem_append_left _)
    fun later => List.mem_append_right _ (List.mem_cons_of_mem _ later)

theorem Distinct.subset {xs : List α} {ys zs : List β} (distinct : Distinct K xs ys)
    (subset : ∀ z ∈ zs, z ∈ ys) : Distinct K xs zs :=
  List.Pairwise.imp (fun apart z member => apart z (subset z member)) distinct

/-- There is one first element with a property. -/
theorem first_unique {P : β → Prop} {before after before' after' : List β} {y y' : β}
    (same : before ++ y :: after = before' ++ y' :: after') (none : ∀ z ∈ before, ¬P z)
    (holds : P y) (none' : ∀ z ∈ before', ¬P z) (holds' : P y') :
    before = before' ∧ y = y' ∧ after = after' := by
  induction before generalizing before' with
  | nil =>
    cases before' with
    | nil => exact ⟨rfl, List.cons.inj same⟩
    | cons z before' =>
      obtain ⟨rfl, -⟩ := List.cons.inj same
      exact absurd holds (none' y List.mem_cons_self)
  | cons z before inductionHypothesis =>
    cases before' with
    | nil =>
      obtain ⟨rfl, -⟩ := List.cons.inj same
      exact absurd holds' (none z List.mem_cons_self)
    | cons z' before' =>
      obtain ⟨rfl, rest⟩ := List.cons.inj same
      obtain ⟨rfl, agree⟩ := inductionHypothesis rest (fun w member =>
        none w (List.mem_cons_of_mem _ member)) fun w member =>
          none' w (List.mem_cons_of_mem _ member)
      exact ⟨rfl, agree⟩

/-- The search depends only on the keys and the values of the elements. -/
theorem greedy_congr {K' V' : α → β → Prop} {xs : List α} {ys : List β}
    (keys : ∀ x ∈ xs, ∀ y ∈ ys, K x y ↔ K' x y) (values : ∀ x ∈ xs, ∀ y ∈ ys, V x y ↔ V' x y) :
    Greedy K V xs ys ↔ Greedy K' V' xs ys := by
  induction xs generalizing ys with
  | nil => exact Iff.rfl
  | cons x xs inductionHypothesis =>
    rw [Greedy, Greedy]
    refine exists_congr fun before => exists_congr fun y => exists_congr fun after =>
      and_congr_right fun split => ?_
    subst split
    have member : y ∈ before ++ y :: after := List.mem_append_right _ List.mem_cons_self
    have rest := @inductionHypothesis (before ++ after)
      (fun x' left z found =>
        keys x' (List.mem_cons_of_mem _ left) z (mem_cons_of_mem_append found))
      fun x' left z found =>
        values x' (List.mem_cons_of_mem _ left) z (mem_cons_of_mem_append found)
    rw [keys x List.mem_cons_self y member, values x List.mem_cons_self y member, rest]
    refine and_congr_left fun _ => forall₂_congr fun z earlier => not_congr ?_
    exact keys x List.mem_cons_self z (List.mem_append_left _ earlier)

/-! ### What a pairing gives -/

theorem Greedy.length_le {xs : List α} {ys : List β} (greedy : Greedy K V xs ys) :
    xs.length ≤ ys.length := by
  induction xs generalizing ys with
  | nil => exact Nat.zero_le _
  | cons x xs inductionHypothesis =>
    obtain ⟨before, y, after, rfl, -, -, -, rest⟩ := greedy
    have fewer := inductionHypothesis rest
    rw [List.length_append] at fewer
    rw [List.length_append, List.length_cons, List.length_cons]
    omega

theorem Greedy.covered {xs : List α} {ys : List β} (greedy : Greedy K V xs ys) :
    Covered K V xs ys := by
  induction xs generalizing ys with
  | nil => exact fun x member => absurd member List.not_mem_nil
  | cons x xs inductionHypothesis =>
    obtain ⟨before, y, after, rfl, -, key, value, rest⟩ := greedy
    refine List.forall_mem_cons.mpr ⟨⟨y, ?_, key, value⟩, fun x' member => ?_⟩
    · exact List.mem_append_right _ List.mem_cons_self
    · obtain ⟨y', left, agree⟩ := inductionHypothesis rest x' member
      exact ⟨y', mem_cons_of_mem_append left, agree⟩

/-- In a pairing of lists of one length nothing is left. -/
theorem Greedy.covered_right {xs : List α} {ys : List β} (greedy : Greedy K V xs ys)
    (sameLength : xs.length = ys.length) : ∀ y ∈ ys, ∃ x ∈ xs, K x y ∧ V x y := by
  induction xs generalizing ys with
  | nil =>
    rw [List.length_nil, eq_comm, List.length_eq_zero_iff] at sameLength
    rw [sameLength]
    exact fun y member => absurd member List.not_mem_nil
  | cons x xs inductionHypothesis =>
    obtain ⟨before, y, after, rfl, -, key, value, rest⟩ := greedy
    have shorter : xs.length = (before ++ after).length := by
      rw [List.length_append, List.length_cons, List.length_cons] at sameLength
      rw [List.length_append]
      omega
    intro y' member
    rcases List.mem_append.mp member with earlier | later
    · obtain ⟨x', left, agree⟩ := inductionHypothesis rest shorter y'
        (List.mem_append_left _ earlier)
      exact ⟨x', List.mem_cons_of_mem _ left, agree⟩
    · rcases List.mem_cons.mp later with rfl | later
      · exact ⟨x, List.mem_cons_self, key, value⟩
      · obtain ⟨x', left, agree⟩ := inductionHypothesis rest shorter y'
          (List.mem_append_right _ later)
        exact ⟨x', List.mem_cons_of_mem _ left, agree⟩

/-! ### When the search finds a pairing -/

/-- Where the keys are distinct, each element finds its counterpart. -/
theorem greedy_of_covered {xs : List α} {ys : List β} (distinct : Distinct K xs ys)
    (distinctRight : Distinct (fun y x => K x y) ys xs) (covered : Covered K V xs ys) :
    Greedy K V xs ys := by
  induction xs generalizing ys with
  | nil => trivial
  | cons x xs inductionHypothesis =>
    obtain ⟨apart, distinctRest⟩ := List.pairwise_cons.mp distinct
    obtain ⟨y, member, key, value⟩ := covered x List.mem_cons_self
    obtain ⟨before, after, rfl⟩ := List.append_of_mem member
    obtain ⟨distinctBefore, distinctAfter, between⟩ := List.pairwise_append.mp distinctRight
    refine ⟨before, y, after, rfl, fun z earlier found => ?_, key, value,
      inductionHypothesis ?_ ?_ fun x' left => ?_⟩
    · exact between z earlier y List.mem_cons_self x List.mem_cons_self ⟨found, key⟩
    · exact Distinct.subset distinctRest fun z left => mem_cons_of_mem_append left
    · refine Distinct.subset (List.pairwise_append.mpr ⟨distinctBefore,
        (List.pairwise_cons.mp distinctAfter).2, fun z earlier z' later =>
          between z earlier z' (List.mem_cons_of_mem _ later)⟩)
        fun x' left => List.mem_cons_of_mem _ left
    · obtain ⟨y', found, key', value'⟩ := covered x' (List.mem_cons_of_mem _ left)
      refine ⟨y', ?_, key', value'⟩
      rcases List.mem_append.mp found with earlier | later
      · exact List.mem_append_left _ earlier
      · rcases List.mem_cons.mp later with rfl | later
        · exact absurd ⟨key, key'⟩ (apart x' left y' member)
        · exact List.mem_append_right _ later

/-- The search finds a pairing of lists of one length exactly when each element of either list has
a counterpart in the other one. -/
theorem greedy_iff {xs : List α} {ys : List β} (distinct : Distinct K xs ys)
    (distinctRight : Distinct (fun y x => K x y) ys xs) :
    xs.length = ys.length ∧ Greedy K V xs ys ↔
      Covered K V xs ys ∧ Covered (fun y x => K x y) (fun y x => V x y) ys xs := by
  constructor
  · rintro ⟨sameLength, greedy⟩
    exact ⟨greedy.covered, greedy.covered_right sameLength⟩
  · rintro ⟨covered, coveredRight⟩
    have greedy := greedy_of_covered distinct distinctRight covered
    have fewer := (greedy_of_covered distinctRight distinct coveredRight).length_le
    exact ⟨Nat.le_antisymm greedy.length_le fewer, greedy⟩

end LaserD.GreedyMatching
