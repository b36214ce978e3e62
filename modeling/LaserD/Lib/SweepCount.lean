/-
This file is about the number of sweeps that solve equations.

A value stands for a set of facts. The equation of a node has facts of its own and takes facts over
from other nodes along edges. A fact comes along an edge in the sweep in which it reached the node
before, when the edge goes the way in which the nodes are visited, and one sweep later otherwise.
So the number of sweeps that a way takes is one for its first edge and one more for each further
edge against the order, and the sweeps end as soon as every fact has come to every node that it
ever comes to.
-/

import LaserD.Lib.Sweeps
import Mathlib.Data.List.Nodup
import Mathlib.Logic.Function.Iterate

namespace LaserD.Sweeps

variable {B D K S : Type} [DecidableEq B] [DecidableEq K] {key : D → K}
  {transfer : B → (B → D) → D} {order : List B}

/-! ### One sweep -/

/-- A node that is not visited keeps its value. -/
theorem foldl_visit_of_notMem {rest : List B} {swept : (B → D) × Bool} {b : B}
    (outside : b ∉ rest) : (rest.foldl (visit key transfer) swept).1 b = swept.1 b := by
  induction rest generalizing swept with
  | nil => rfl
  | cons c rest inductionHypothesis =>
    rw [List.mem_cons, not_or] at outside
    rw [List.foldl_cons, inductionHypothesis outside.2]
    exact Function.update_of_ne outside.1 _ _

/-- What every visit keeps holds after some of them. -/
theorem foldl_visit_invariant {rest : List B} {motive : (B → D) → Prop}
    (kept : ∀ values, motive values → ∀ b ∈ rest,
      motive (Function.update values b (transfer b values))) {swept : (B → D) × Bool}
    (start : motive swept.1) : motive (rest.foldl (visit key transfer) swept).1 := by
  induction rest generalizing swept with
  | nil => exact start
  | cons c rest inductionHypothesis =>
    exact inductionHypothesis (fun values holds b member =>
      kept values holds b (List.mem_cons_of_mem _ member)) (kept _ start c List.mem_cons_self)

variable (key transfer) in
/-- The mark tells whether a key has changed between the beginning and the end. -/
theorem foldl_visit_mark {rest : List B} (distinct : rest.Nodup) (values : B → D) (mark : Bool) :
    (rest.foldl (visit key transfer) (values, mark)).2 = true ↔ mark = true ∨ ∃ b ∈ rest,
      key ((rest.foldl (visit key transfer) (values, mark)).1 b) ≠ key (values b) := by
  induction rest generalizing values mark with
  | nil => simp
  | cons c rest inductionHypothesis =>
    obtain ⟨fresh, distinctRest⟩ := List.nodup_cons.mp distinct
    have others : ∀ b ∈ rest, Function.update values c (transfer c values) b = values b :=
      fun b member => Function.update_of_ne (ne_of_mem_of_not_mem member fresh) _ _
    rw [List.foldl_cons, visit, inductionHypothesis distinctRest, Bool.or_eq_true,
      decide_eq_true_iff, or_assoc, List.exists_mem_cons_iff, foldl_visit_of_notMem fresh]
    dsimp only
    rw [Function.update_self]
    refine or_congr_right (or_congr_right (exists_congr fun b => and_congr_right fun member => ?_))
    rw [others b member]

variable (key) in
/-- The value that a node gets in a sweep comes from the new values of the nodes before it and the
old ones of the others. -/
theorem exists_sweep_eq (distinct : order.Nodup) {motive : (B → D) → Prop}
    (kept : ∀ values, motive values → ∀ b ∈ order,
      motive (Function.update values b (transfer b values))) {values : B → D}
    (start : motive values) {b : B} (listed : b ∈ order) :
    ∃ seen, motive seen ∧ (sweep key transfer order values).1 b = transfer b seen ∧
      ∀ c, seen c = if order.idxOf c < order.idxOf b then (sweep key transfer order values).1 c
        else values c := by
  obtain ⟨front, back, rfl⟩ := List.append_of_mem listed
  obtain ⟨_, distinctBack, apart⟩ := List.nodup_append.mp distinct
  have notFront : b ∉ front := fun member => apart b member b List.mem_cons_self rfl
  have notBack : b ∉ back := (List.nodup_cons.mp distinctBack).1
  have position : (front ++ b :: back).idxOf b = front.length := by
    rw [List.idxOf_append_of_notMem notFront, List.idxOf_cons_self, Nat.add_zero]
  refine ⟨(front.foldl (visit key transfer) (values, false)).1, ?_, ?_, fun c => ?_⟩
  · exact foldl_visit_invariant (fun values holds c member =>
      kept values holds c (List.mem_append_left _ member)) start
  · rw [sweep, List.foldl_append, List.foldl_cons, foldl_visit_of_notMem notBack]
    exact Function.update_self _ _ _
  · rw [position]
    by_cases member : c ∈ front
    · have outside : c ∉ b :: back := fun later => apart c member c later rfl
      rw [List.idxOf_append_of_mem member, if_pos (List.idxOf_lt_length_of_mem member), sweep,
        List.foldl_append, foldl_visit_of_notMem outside]
    · rw [List.idxOf_append_of_notMem member, if_neg (by omega), foldl_visit_of_notMem member]

/-! ### Ways -/

section Ways

variable (order) (init base : B → S → Prop) (feeds : B → B → S → Prop)

/-- A fact comes to a node within a number of sweeps: it is there from the beginning, it is one of
the node's own, or it comes along an edge, in the same sweep when the edge goes along the order and
in the next one when the edge goes against it. -/
inductive Way : Nat → B → S → Prop
  | here {count : Nat} {b : B} {s : S} : init b s → Way count b s
  | own {count : Nat} {b : B} {s : S} : b ∈ order → base b s → Way (count + 1) b s
  | along {count : Nat} {b c : B} {s : S} : b ∈ order → feeds c b s →
      order.idxOf c < order.idxOf b → Way (count + 1) c s → Way (count + 1) b s
  | against {count : Nat} {b c : B} {s : S} : b ∈ order → feeds c b s →
      ¬order.idxOf c < order.idxOf b → Way count c s → Way (count + 1) b s

variable {order init base feeds} {b : B} {s : S} {count : Nat}

theorem Way.succ (way : Way order init base feeds count b s) :
    Way order init base feeds (count + 1) b s := by
  induction way with
  | here first => exact .here first
  | own listed first => exact .own listed first
  | along listed edge ahead _ inductionHypothesis =>
    exact .along listed edge ahead inductionHypothesis
  | against listed edge behind _ inductionHypothesis =>
    exact .against listed edge behind inductionHypothesis

theorem Way.mono {more : Nat} (way : Way order init base feeds count b s) (fewer : count ≤ more) :
    Way order init base feeds more b s := by
  induction fewer with
  | refl => exact way
  | step _ inductionHypothesis => exact inductionHypothesis.succ

/-- The facts of a node that is not visited. -/
theorem way_of_notMem (outside : b ∉ order) :
    Way order init base feeds count b s ↔ init b s := by
  constructor
  · rintro (first | ⟨listed, _⟩ | ⟨listed, _⟩ | ⟨listed, _⟩)
    · exact first
    · exact absurd listed outside
    · exact absurd listed outside
    · exact absurd listed outside
  · exact .here

/-- The facts of a node that is visited. -/
theorem way_succ_iff (seeded : ∀ b ∈ order, ∀ s, init b s → base b s) (listed : b ∈ order) :
    Way order init base feeds (count + 1) b s ↔ base b s ∨ ∃ c, feeds c b s ∧
      if order.idxOf c < order.idxOf b then Way order init base feeds (count + 1) c s
      else Way order init base feeds count c s := by
  constructor
  · rintro (first | ⟨_, first⟩ | ⟨_, edge, ahead, way⟩ | ⟨_, edge, behind, way⟩)
    · exact Or.inl (seeded b listed s first)
    · exact Or.inl first
    · exact Or.inr ⟨_, edge, by rwa [if_pos ahead]⟩
    · exact Or.inr ⟨_, edge, by rwa [if_neg behind]⟩
  · rintro (first | ⟨c, edge, way⟩)
    · exact .own listed first
    · by_cases ahead : order.idxOf c < order.idxOf b
      · rw [if_pos ahead] at way
        exact .along listed edge ahead way
      · rw [if_neg ahead] at way
        exact .against listed edge ahead way

/-- Once a sweep brings no fact, no later one does. -/
theorem Way.settled {last : Nat}
    (settled : ∀ b s, Way order init base feeds (last + 1) b s → Way order init base feeds last b s)
    (way : Way order init base feeds count b s) : Way order init base feeds last b s := by
  induction way with
  | here first => exact .here first
  | own listed first => exact settled _ _ (.own listed first)
  | along listed edge ahead _ inductionHypothesis =>
    exact settled _ _ (.along listed edge ahead inductionHypothesis.succ)
  | against listed edge behind _ inductionHypothesis =>
    exact settled _ _ (.against listed edge behind inductionHypothesis)

end Ways

/-! ### The number of sweeps -/

/-- The equations of the nodes in terms of facts, for values that keep an invariant. -/
structure Flows (key : D → K) (transfer : B → (B → D) → D) (order : List B)
    (Good : (B → D) → Prop) (holds : B → D → S → Prop) (init base : B → S → Prop)
    (feeds : B → B → S → Prop) : Prop where
  kept : ∀ values, Good values → ∀ b ∈ order, Good (Function.update values b (transfer b values))
  equation : ∀ values, Good values → ∀ b ∈ order, ∀ s,
    holds b (transfer b values) s ↔ base b s ∨ ∃ c, feeds c b s ∧ holds c (values c) s
  keyed : ∀ values, Good values → ∀ values', Good values' → ∀ b ∈ order,
    (key (values b) = key (values' b) ↔ ∀ s, holds b (values b) s ↔ holds b (values' b) s)
  seeded : ∀ b ∈ order, ∀ s, init b s → base b s

variable {Good : (B → D) → Prop} {holds : B → D → S → Prop} {init base : B → S → Prop}
  {feeds : B → B → S → Prop}

/-- The values after a number of sweeps. -/
def after (key : D → K) (transfer : B → (B → D) → D) (order : List B) (count : Nat)
    (values : B → D) : B → D :=
  (fun values => (sweep key transfer order values).1)^[count] values

theorem after_succ (count : Nat) (values : B → D) :
    after key transfer order (count + 1) values =
      (sweep key transfer order (after key transfer order count values)).1 :=
  Function.iterate_succ_apply' _ _ _

theorem Flows.good_after (flows : Flows key transfer order Good holds init base feeds)
    {values : B → D} (good : Good values) (count : Nat) :
    Good (after key transfer order count values) := by
  induction count with
  | zero => exact good
  | succ count inductionHypothesis =>
    rw [after_succ]
    exact foldl_visit_invariant flows.kept inductionHypothesis

/-- The facts of a node after a number of sweeps are those that come to it within them. -/
theorem Flows.holds_after_iff (flows : Flows key transfer order Good holds init base feeds)
    (distinct : order.Nodup) {values : B → D} (good : Good values)
    (initial : ∀ b s, holds b (values b) s ↔ init b s) (count : Nat) (b : B) (s : S) :
    holds b (after key transfer order count values b) s ↔ Way order init base feeds count b s := by
  induction count generalizing b s with
  | zero =>
    refine (initial b s).trans ⟨.here, ?_⟩
    rintro ⟨first⟩
    exact first
  | succ count inductionHypothesis =>
    rw [after_succ]
    by_cases listed : b ∈ order
    · obtain ⟨place, same⟩ : ∃ place, order.idxOf b = place := ⟨_, rfl⟩
      induction place using Nat.strongRecOn generalizing b s with
      | ind place earlier =>
        obtain ⟨seen, goodSeen, value, old⟩ := exists_sweep_eq key distinct flows.kept
          (flows.good_after good count) listed
        rw [value, flows.equation seen goodSeen b listed s, way_succ_iff flows.seeded listed]
        refine or_congr_right (exists_congr fun c => and_congr_right fun _ => ?_)
        rw [old c]
        by_cases ahead : order.idxOf c < order.idxOf b
        · have member : c ∈ order := by
            rw [← List.idxOf_lt_length_iff]
            exact Nat.lt_trans ahead (List.idxOf_lt_length_of_mem listed)
          rw [if_pos ahead, if_pos ahead]
          exact earlier _ (same ▸ ahead) c s member rfl
        · rw [if_neg ahead, if_neg ahead]
          exact inductionHypothesis c s
    · rw [way_of_notMem listed, sweep, foldl_visit_of_notMem listed, inductionHypothesis,
        way_of_notMem listed]

/-- The mark of a sweep is off exactly when the sweep has brought no fact. -/
theorem Flows.mark_iff (flows : Flows key transfer order Good holds init base feeds)
    (distinct : order.Nodup) {values : B → D} (good : Good values)
    (initial : ∀ b s, holds b (values b) s ↔ init b s) (count : Nat) :
    (sweep key transfer order (after key transfer order count values)).2 = false ↔
      ∀ b s, Way order init base feeds (count + 1) b s → Way order init base feeds count b s := by
  have facts := flows.holds_after_iff distinct good initial
  have keys (b : B) (listed : b ∈ order) :=
    flows.keyed _ (flows.good_after good (count + 1)) _ (flows.good_after good count) b listed
  have mark := foldl_visit_mark key transfer distinct
    (after key transfer order count values) false
  rw [← Bool.not_eq_true, sweep, mark]
  push Not
  constructor
  · rintro ⟨-, same⟩ b s way
    by_cases listed : b ∈ order
    · rw [← facts] at way ⊢
      refine ((keys b listed).mp ?_ s).mp way
      rw [after_succ]
      exact same b listed
    · rw [way_of_notMem listed] at way ⊢
      exact way
  · refine fun settled => ⟨Bool.false_ne_true, fun b listed => ?_⟩
    have same := (keys b listed).mpr fun s => by
      rw [facts, facts]
      exact ⟨settled b s, Way.succ⟩
    rw [after_succ] at same
    exact same

/-- The sweeps end within a bound exactly when one of them within the bound brings no fact. -/
theorem sweeps_isSome_iff (left : Nat) (values : B → D) :
    (sweeps key transfer order left values).isSome = true ↔ ∃ count < left,
      (sweep key transfer order (after key transfer order count values)).2 = false := by
  induction left generalizing values with
  | zero => simp [sweeps]
  | succ left inductionHypothesis =>
    rw [sweeps]
    cases mark : (sweep key transfer order values).2
    · exact iff_of_true rfl ⟨0, Nat.succ_pos left, mark⟩
    · rw [if_pos rfl, inductionHypothesis]
      constructor
      · rintro ⟨count, inside, off⟩
        exact ⟨count + 1, Nat.succ_lt_succ inside, off⟩
      · rintro ⟨count, inside, off⟩
        cases count with
        | zero => exact Bool.noConfusion (mark.symm.trans off)
        | succ count => exact ⟨count, Nat.lt_of_succ_lt_succ inside, off⟩

/-- The sweeps end within a bound exactly when every fact that comes to a node does so in fewer
sweeps. -/
theorem Flows.isSome_iff (flows : Flows key transfer order Good holds init base feeds)
    (distinct : order.Nodup) {values : B → D} (good : Good values)
    (initial : ∀ b s, holds b (values b) s ↔ init b s) (left : Nat) :
    (sweeps key transfer order (left + 1) values).isSome = true ↔
      ∀ count b s, Way order init base feeds count b s → Way order init base feeds left b s := by
  rw [sweeps_isSome_iff]
  constructor
  · rintro ⟨last, inside, off⟩ count b s way
    exact (way.settled ((flows.mark_iff distinct good initial last).mp off)).mono
      (Nat.le_of_lt_succ inside)
  · intro settled
    exact ⟨left, Nat.lt_succ_self left, (flows.mark_iff distinct good initial left).mpr
      fun b s => settled (left + 1) b s⟩

end LaserD.Sweeps
