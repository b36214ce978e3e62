/-
This file proves that the register types of a type are those of the psABI.

The loop of `finalizeAggregate` applies the post-merger rules to one eightbyte after the
other; a class that it has changed is read as the old one would be by the next step. What
the leaves of a type can give to its eightbytes then excludes every combination that the
assertions behind the classification would fail on.
-/

import LaserD.Abi.Walk
import Mathlib.Tactic.IntervalCases

namespace LaserD.Abi

/-! ### The post-merger loop -/

theorem upToSse_eq_sse_or_sseUp (c : Nat → Class) (k : Nat) :
    (upToSse c k = .sse ∨ upToSse c k = .sseUp) ↔ (c k = .sse ∨ c k = .sseUp) := by
  unfold upToSse
  split_ifs with changed
  · exact iff_of_true (Or.inl rfl) (Or.inr changed.1)
  · exact Iff.rfl

theorem upToSse_of_ne {c : Nat → Class} {k : Nat} (other : c k ≠ .sseUp) : upToSse c k = c k := by
  rw [upToSse, if_neg fun both => other both.1]

theorem upToSse_eq_x87 (c : Nat → Class) (k : Nat) : upToSse c k = .x87 ↔ c k = .x87 := by
  unfold upToSse
  split_ifs with changed
  · rw [changed.1]
    decide
  · exact Iff.rfl

/-- What the loop has done in front of an eightbyte, and what it does from there on. -/
theorem finalizeLoop_spec (c : Result) :
    ∀ (left i : Nat) (result : Result),
      (∀ j, result j = if j < i then upToSse c j else c j) →
      ((finalizeLoop left i result).1 = true ↔ ∃ k ∈ List.range' i left, sentToMemory c k) ∧
        ((finalizeLoop left i result).1 = false →
          (finalizeLoop left i result).2 = fun j => if j < i + left then upToSse c j else c j) := by
  intro left
  induction left with
  | zero =>
    intro i result shape
    refine ⟨?_, fun _ => ?_⟩
    · simp [finalizeLoop]
    · funext j
      exact shape j
  | succ left inductionHypothesis =>
    intro i result shape
    have here : result i = c i := by rw [shape, if_neg (Nat.lt_irrefl i)]
    have before : ∀ e : Class, i > 0 → (result (i - 1) = e ↔ upToSse c (i - 1) = e) := by
      intro e positive
      rw [shape, if_pos (by omega)]
    have sent : (result i = .memory ∨ (result i = .x87Up ∧ ¬ (i > 0 ∧ result (i - 1) = .x87))) ↔
        sentToMemory c i := by
      unfold sentToMemory
      rw [here]
      refine or_congr Iff.rfl (and_congr Iff.rfl (not_congr ?_))
      exact and_congr_right fun positive =>
        (before .x87 positive).trans (upToSse_eq_x87 c (i - 1))
    have changed : (result i = .sseUp ∧
          ¬ (i > 0 ∧ (result (i - 1) = .sse ∨ result (i - 1) = .sseUp))) ↔
        (c i = .sseUp ∧ ¬ (i > 0 ∧ (c (i - 1) = .sse ∨ c (i - 1) = .sseUp))) := by
      rw [here]
      refine and_congr Iff.rfl (not_congr (and_congr_right fun positive => ?_))
      rw [before .sse positive, before .sseUp positive, upToSse_eq_sse_or_sseUp]
    have next : ∀ result' : Result, (∀ j, result' j = if j = i then upToSse c i else result j) →
        ∀ j, result' j = if j < i + 1 then upToSse c j else c j := by
      intro result' shape' j
      rw [shape', shape]
      rcases Nat.lt_trichotomy j i with less | rfl | greater
      · rw [if_neg (Nat.ne_of_lt less), if_pos less, if_pos (by omega)]
      · rw [if_pos rfl, if_pos (by omega)]
      · rw [if_neg (Nat.ne_of_gt greater), if_neg (by omega), if_neg (by omega)]
    have range : (∃ k ∈ List.range' i (left + 1), sentToMemory c k) ↔
        sentToMemory c i ∨ ∃ k ∈ List.range' (i + 1) left, sentToMemory c k := by
      rw [List.range'_succ]
      simp only [List.mem_cons, exists_eq_or_imp]
    rw [finalizeLoop]
    by_cases memory : sentToMemory c i
    · rw [if_pos (sent.mpr memory)]
      exact ⟨iff_of_true rfl (range.mpr (Or.inl memory)), nofun⟩
    · rw [if_neg fun found => memory (sent.mp found)]
      rw [range, or_iff_right memory, show i + (left + 1) = (i + 1) + left by omega]
      by_cases isUp : c i = .sseUp ∧ ¬ (i > 0 ∧ (c (i - 1) = .sse ∨ c (i - 1) = .sseUp))
      · rw [if_pos (changed.mpr isUp)]
        apply inductionHypothesis
        apply next
        intro j
        rw [setClass, upToSse, if_pos isUp]
      · rw [if_neg fun found => isUp (changed.mp found)]
        apply inductionHypothesis
        apply next
        intro j
        rw [upToSse, if_neg isUp, ← here]
        split_ifs with same
        · rw [same]
        · rfl

theorem slice_memory (n : Nat) (result : Result) :
    Classification.slice ⟨memory n result, n⟩ = List.replicate n .memory := by
  show (List.range n).map (memory n result) = _
  rw [List.map_eq_replicate_iff.mpr]
  · rw [List.length_range]
  · intro k inside
    exact isMemory_memory n result k (List.mem_range.mp inside)

/-- An eightbyte of class memory sends all to memory. -/
theorem finalizeAggregate_memory {n : Nat} {result : Result} (isMemory : IsMemory n result)
    (positive : 0 < n) :
    (finalizeAggregate n result).slice = List.replicate n .memory := by
  have first : result 0 = .memory := isMemory 0 positive
  have sent : finalizeLoop 4 0 result = (true, result) := by
    rw [finalizeLoop, if_pos (Or.inl first)]
  rw [finalizeAggregate, sent]
  exact slice_memory n result

/-- The post-merger rules of the visitor are those of the psABI. -/
theorem finalizeAggregate_slice {n : Nat} {c : Result} (small : n ≤ 4)
    (outside : ∀ k, n ≤ k → c k = .noClass) :
    (finalizeAggregate n c).slice = (postMerger n c).getD (List.replicate n .memory) := by
  obtain ⟨sent, left⟩ := finalizeLoop_spec c 4 0 c (fun j => by rw [if_neg (Nat.not_lt_zero j)])
  have inside : (∃ k ∈ List.range' 0 4, sentToMemory c k) ↔
      ∃ k ∈ List.range n, sentToMemory c k := by
    constructor
    · rintro ⟨k, -, found⟩
      refine ⟨k, ?_, found⟩
      rw [List.mem_range]
      by_contra beyond
      have none := outside k (Nat.not_lt.mp beyond)
      rcases found with found | ⟨found, -⟩
      · rw [none] at found
        cases found
      · rw [none] at found
        cases found
    · rintro ⟨k, member, found⟩
      refine ⟨k, ?_, found⟩
      have := List.mem_range.mp member
      rw [List.mem_range'_1]
      omega
  rw [inside] at sent
  unfold postMerger finalizeAggregate
  by_cases toMemory : ∃ k ∈ List.range n, sentToMemory c k
  · rw [if_pos toMemory]
    dsimp only
    rw [if_pos (sent.mpr toMemory), slice_memory]
    rfl
  · have stays : (finalizeLoop 4 0 c).1 = false := by
      rw [← Bool.not_eq_true]
      exact fun found => toMemory (sent.mp found)
    have classes : ∀ k, k < 4 → (finalizeLoop 4 0 c).2 k = upToSse c k := by
      intro k below
      rw [left stays]
      exact if_pos (by omega)
    have same : ∀ k ∈ List.range n, (finalizeLoop 4 0 c).2 k = upToSse c k := by
      intro k member
      exact classes k (Nat.lt_of_lt_of_le (List.mem_range.mp member) small)
    have vector : (n > 2 ∧ ((finalizeLoop 4 0 c).2 0 ≠ .sse ∨
          ∃ k ∈ List.range n, k ≥ 1 ∧ (finalizeLoop 4 0 c).2 k ≠ .sseUp)) ↔
        (n > 2 ∧ (upToSse c 0 ≠ .sse ∨ ∃ k ∈ List.range n, k ≥ 1 ∧ upToSse c k ≠ .sseUp)) := by
      rw [classes 0 (by decide)]
      refine and_congr_right fun _ => or_congr Iff.rfl (exists_congr fun k => ?_)
      refine and_congr_right fun member => and_congr_right fun _ => ?_
      rw [same k member]
    rw [if_neg toMemory]
    dsimp only
    rw [stays, if_neg (by decide), classes 1 (by decide)]
    by_cases long : n > 2 ∧ (upToSse c 0 ≠ .sse ∨ ∃ k ∈ List.range n, k ≥ 1 ∧ upToSse c k ≠ .sseUp)
    · rw [if_pos long, if_pos (vector.mpr long), slice_memory]
      rfl
    · rw [if_neg long, if_neg fun found => long (vector.mp found)]
      split_ifs
      · show [(finalizeLoop 4 0 c).2 0] = [upToSse c 0]
        rw [classes 0 (by decide)]
      · show (List.range n).map (finalizeLoop 4 0 c).2 = (List.range n).map (upToSse c)
        exact List.map_congr_left same

/-! ### What leaves give to eightbytes -/

/-- The leaves of a type lie inside it. -/
theorem leaves_within :
    ∀ t : Ty, WellFormed t → ∀ offset, ∀ leaf ∈ leaves t offset,
      leaf.1 + leaf.2.size ≤ offset + t.size := by
  refine Ty.inductionOnMembers ?_ ?_ ?_
  · intro s _ offset leaf member
    rw [leaves, List.mem_singleton] at member
    rw [member]
    exact Nat.le_refl _
  · intro base inductionHypothesis formed offset leaf member
    rw [WellFormed] at formed
    rw [leaves] at member
    exact inductionHypothesis formed offset leaf member
  · intro t aggregate inductionHypothesis formed offset leaf member
    rw [leaves_of_members aggregate] at member
    obtain ⟨m, inside, member'⟩ := List.mem_flatMap.mp member
    have some : t.members ≠ [] := List.ne_nil_of_mem inside
    have within := (formed.placed aggregate some).within m inside
    have lies := inductionHypothesis m inside (formed.of_member inside) _ leaf member'
    omega

/-- A type that is classified has a leaf at its beginning. -/
theorem leaf_at_beginning :
    ∀ t : Ty, WellFormed t → ∀ offset, ¬ Unclassified t offset →
      ∃ s, (offset, s) ∈ leaves t offset := by
  refine Ty.inductionOnMembers ?_ ?_ ?_
  · intro s _ offset _
    refine ⟨s, ?_⟩
    rw [leaves]
    exact List.mem_singleton_self _
  · intro base inductionHypothesis formed offset classified
    rw [WellFormed] at formed
    unfold Unclassified at classified
    rw [hasMemberless, leaves] at classified
    rw [leaves]
    exact inductionHypothesis formed offset classified
  · intro t aggregate inductionHypothesis formed offset classified
    rw [unclassified_of_members aggregate, not_or] at classified
    obtain ⟨m, inside, zero⟩ := (formed.placed aggregate classified.1).first
    have classified' : ¬ Unclassified m.2 (offset + m.1) :=
      fun found => classified.2 ⟨m, inside, found⟩
    obtain ⟨s, found⟩ := inductionHypothesis m inside (formed.of_member inside) _ classified'
    refine ⟨s, ?_⟩
    rw [leaves_of_members aggregate, List.mem_flatMap]
    refine ⟨m, inside, ?_⟩
    rw [zero, Nat.add_zero] at found
    rw [zero, Nat.add_zero]
    exact found

/-- A merge yields one of its classes, memory or sse. -/
theorem mergeAll_mem (classes : List Class) (c : Class) :
    mergeAll c classes = c ∨ mergeAll c classes ∈ classes ∨ mergeAll c classes = .memory ∨
      mergeAll c classes = .sse := by
  have step : ∀ a b : Class, merge a b = a ∨ merge a b = b ∨ merge a b = .memory ∨
      merge a b = .sse := by
    intro a b
    cases a <;> cases b <;> decide
  induction classes generalizing c with
  | nil => exact Or.inl rfl
  | cons d classes inductionHypothesis =>
    have unfolded : mergeAll c (d :: classes) = mergeAll (merge c d) classes := rfl
    rw [unfolded]
    rcases inductionHypothesis (merge c d) with same | inside | other
    · rw [same]
      rcases step c d with first | second | rest
      · exact Or.inl first
      · exact Or.inr (Or.inl (by rw [second]; exact List.mem_cons_self))
      · exact Or.inr (Or.inr rest)
    · exact Or.inr (Or.inl (List.mem_cons_of_mem _ inside))
    · exact Or.inr (Or.inr other)

theorem mergeAll_ne_noClass {classes : List Class} {c : Class} (some : c ≠ .noClass)
    (ofLeaves : OfLeaves classes) : mergeAll c classes ≠ .noClass := by
  have step : ∀ a b : Class, a ≠ .noClass → merge a b ≠ .noClass := by
    intro a b
    cases a <;> cases b <;> decide
  induction classes generalizing c with
  | nil => exact some
  | cons d classes inductionHypothesis =>
    exact inductionHypothesis (step c d some)
      (fun e member => ofLeaves e (List.mem_cons_of_mem _ member))

/-- A class other than memory, sse and none is given by a leaf. -/
theorem contribution_of_mergedClass {ls : List (Nat × Scalar)} {k : Nat} {c : Class}
    (merged : mergedClass ls k = c) (present : c ≠ .noClass) (notMemory : c ≠ .memory)
    (notSse : c ≠ .sse) : ∃ leaf ∈ ls, contribution k leaf = some c := by
  rcases mergeAll_mem (contributions ls k) .noClass with same | inside | isMemory | isSse
  · exact absurd (merged.symm.trans same) present
  · rw [show mergeAll .noClass (contributions ls k) = c from merged] at inside
    exact List.mem_filterMap.mp inside
  · exact absurd (merged.symm.trans isMemory) notMemory
  · exact absurd (merged.symm.trans isSse) notSse

/-- The eightbytes that an aligned leaf gives classes to, and the classes. -/
theorem contribution_spec {leaf : Nat × Scalar} {k : Nat} {c : Class}
    (aligned : LeafAligned leaf) (given : contribution k leaf = some c) :
    8 * k < leaf.1 + leaf.2.size ∧ (c = .x87 → k % 2 = 0) ∧
      (c = .sseUp → 8 * (k + 1) ≤ leaf.1 + leaf.2.size) ∧ c ≠ .complexX87 := by
  obtain ⟨offset, s⟩ := leaf
  unfold contribution at given
  split_ifs at given with below
  dsimp only at below given ⊢
  have aligned' : offset % s.alignsize = 0 := aligned
  obtain ⟨j, rfl⟩ : ∃ j, k = offset / 8 + j := ⟨k - offset / 8, by omega⟩
  rw [Nat.add_sub_cancel_left] at given
  have bound : j < s.classes.length := (List.getElem?_eq_some_iff.mp given).1
  have small : j < 4 := by
    revert bound
    cases s <;> simp only [Scalar.classes, List.length_cons, List.length_nil] <;> omega
  revert aligned' given
  cases s
  all_goals
    simp only [Scalar.classes, Scalar.alignsize, Scalar.size, List.length_cons,
      List.length_nil] at bound ⊢
    intro aligned' given
    interval_cases j
  all_goals
    cases given
    refine ⟨by omega, ?_, ?_, by decide⟩
  all_goals
    intro same
    first
      | omega
      | cases same

/-- What the eightbytes of a type that is classified can be. -/
structure Eightbytes (size : Nat) (c : Nat → Class) : Prop where
  first : c 0 ≠ .noClass
  outside : ∀ k, eightbytes size ≤ k → c k = .noClass
  even : ∀ k, c k = .x87 → k % 2 = 0
  filled : ∀ k, c k = .sseUp → 8 * (k + 1) ≤ size
  notComplex : ∀ k, c k ≠ .complexX87

theorem eightbytes_of_classified {t : Ty} (formed : WellFormed t)
    (classified : ¬ Unclassified t 0) : Eightbytes t.size (mergedClass (leaves t 0)) := by
  have aligned : ∀ leaf ∈ leaves t 0, LeafAligned leaf := by
    intro leaf member
    by_contra unaligned
    exact classified (Or.inr ⟨leaf, member, unaligned⟩)
  have within : ∀ leaf ∈ leaves t 0, leaf.1 + leaf.2.size ≤ t.size := by
    intro leaf member
    have lies := leaves_within t formed 0 leaf member
    omega
  refine ⟨?_, ?_, ?_, ?_, ?_⟩
  · obtain ⟨s, member⟩ := leaf_at_beginning t formed 0 classified
    have given : ∃ c, contribution 0 (0, s) = some c := by
      cases s <;> exact ⟨_, rfl⟩
    obtain ⟨c, given⟩ := given
    have inside : c ∈ contributions (leaves t 0) 0 := List.mem_filterMap.mpr ⟨_, member, given⟩
    have ofLeaves := ofLeaves_contributions (leaves t 0) 0
    rw [mergedClass]
    cases shape : contributions (leaves t 0) 0 with
    | nil =>
      rw [shape] at inside
      cases inside
    | cons d classes =>
      rw [shape] at ofLeaves
      have first := ofLeaves d List.mem_cons_self
      have start : merge .noClass d = d := by
        revert first
        cases d <;> decide
      rw [mergeAll, List.foldl_cons, start]
      exact mergeAll_ne_noClass first.1 fun e member => ofLeaves e (List.mem_cons_of_mem _ member)
  · intro k beyond
    have nothing : contributions (leaves t 0) k = [] := by
      rw [contributions, List.filterMap_eq_nil_iff]
      intro leaf member
      cases given : contribution k leaf with
      | none => rfl
      | some c =>
        have before := (contribution_spec (aligned leaf member) given).1
        have lies := within leaf member
        unfold eightbytes at beyond
        omega
    rw [mergedClass, nothing]
    rfl
  · intro k isX87
    obtain ⟨leaf, member, given⟩ :=
      contribution_of_mergedClass isX87 (by decide) (by decide) (by decide)
    exact (contribution_spec (aligned leaf member) given).2.1 rfl
  · intro k isUp
    obtain ⟨leaf, member, given⟩ :=
      contribution_of_mergedClass isUp (by decide) (by decide) (by decide)
    have covered := (contribution_spec (aligned leaf member) given).2.2.1 rfl
    exact Nat.le_trans covered (within leaf member)
  · intro k isComplex
    obtain ⟨leaf, member, given⟩ :=
      contribution_of_mergedClass isComplex (by decide) (by decide) (by decide)
    exact (contribution_spec (aligned leaf member) given).2.2.2 rfl

/-! ### Register types -/

/-- The class of the first eightbyte after the post-merger rules. -/
theorem Eightbytes.upToSse_first {size : Nat} {c : Nat → Class} (eightbytes : Eightbytes size c)
    (stays : ¬ sentToMemory c 0) :
    upToSse c 0 = .integer ∨ upToSse c 0 = .sse ∨ upToSse c 0 = .x87 := by
  have notMemory : c 0 ≠ .memory := fun found => stays (Or.inl found)
  have notUp : c 0 ≠ .x87Up := fun found => stays (Or.inr ⟨found, fun both => nomatch both.1⟩)
  have present := eightbytes.first
  have notComplex := eightbytes.notComplex 0
  unfold upToSse
  revert notMemory notUp present notComplex
  cases c 0 <;> simp

/-- The class of the second eightbyte after the post-merger rules. -/
theorem Eightbytes.upToSse_second {size : Nat} {c : Nat → Class} (eightbytes : Eightbytes size c)
    (stays : ¬ sentToMemory c 1) :
    upToSse c 1 = .integer ∨ upToSse c 1 = .sse ∨ upToSse c 1 = .noClass ∨
      (upToSse c 1 = .sseUp ∧ upToSse c 0 = .sse ∧ 16 ≤ size) ∨ upToSse c 0 = .x87 := by
  have notMemory : c 1 ≠ .memory := fun found => stays (Or.inl found)
  have notX87 : c 1 ≠ .x87 := fun found => nomatch eightbytes.even 1 found
  have notComplex := eightbytes.notComplex 1
  cases second : c 1
  case integer => exact Or.inl (by rw [upToSse_of_ne (by rw [second]; decide), second])
  case sse => exact Or.inr (Or.inl (by rw [upToSse_of_ne (by rw [second]; decide), second]))
  case noClass =>
    exact Or.inr (Or.inr (Or.inl (by rw [upToSse_of_ne (by rw [second]; decide), second])))
  case x87 => exact absurd second notX87
  case complexX87 => exact absurd second notComplex
  case memory => exact absurd second notMemory
  case x87Up =>
    refine Or.inr (Or.inr (Or.inr (Or.inr ?_)))
    rw [upToSse_eq_x87]
    by_contra different
    exact stays (Or.inr ⟨second, fun both => different both.2⟩)
  case sseUp =>
    by_cases before : c 0 = .sse ∨ c 0 = .sseUp
    · refine Or.inr (Or.inr (Or.inr (Or.inl ⟨?_, ?_, eightbytes.filled 1 second⟩)))
      · rw [upToSse, if_neg, second]
        rintro ⟨-, alone⟩
        exact alone ⟨Nat.one_pos, before⟩
      · unfold upToSse
        rcases before with isSse | isUp
        · rw [isSse]
          rfl
        · rw [if_pos ⟨isUp, fun both => nomatch both.1⟩]
    · refine Or.inr (Or.inl ?_)
      rw [upToSse, if_pos ⟨second, fun both => before both.2⟩]

/-- One eightbyte in a register. -/
theorem argTypesOf_single (size : Nat) {a : Class} (first : a = .integer ∨ a = .sse ∨ a = .x87) :
    argTypesOf size [a] = some (.tuple (registerTypes size [a])) := by
  rcases first with rfl | rfl | rfl
  · rfl
  · rfl
  · rfl

/-- Two eightbytes in registers. -/
theorem argTypesOf_pair {size : Nat} {a b : Class} (count : (size + 7) / 8 = 2)
    (first : a = .integer ∨ a = .sse ∨ a = .x87)
    (second : b = .integer ∨ b = .sse ∨ (b = .sseUp ∧ a = .sse ∧ 16 ≤ size) ∨ a = .x87) :
    argTypesOf size [a, b] = some (.tuple (registerTypes size [a, b])) := by
  rcases second with rfl | rfl | ⟨rfl, rfl, full⟩ | rfl
  · rcases first with rfl | rfl | rfl <;> rfl
  · rcases first with rfl | rfl | rfl <;> rfl
  · have whole : size % 8 = 0 := by omega
    rw [argTypesOf, if_pos (Or.inr rfl), if_pos ⟨rfl, by decide, whole⟩]
    · rfl
    · nofun
    · nofun
    · nofun
  · rfl

/-- A vector in a register. -/
theorem argTypesOf_vector {size m : Nat} (whole : size % 8 = 0) :
    argTypesOf size (.sse :: List.replicate (m + 2) .sseUp) =
      some (.tuple (registerTypes size (.sse :: List.replicate (m + 2) .sseUp))) := by
  rw [argTypesOf.eq_def]
  dsimp only
  rw [if_pos, if_pos]
  · rw [List.replicate_succ, registerTypes, List.length_cons, List.length_cons]
  · refine ⟨rfl, ?_, whole⟩
    intro c member
    exact List.eq_of_mem_replicate member
  · refine Or.inl ?_
    rw [List.length_cons, List.length_replicate]
    omega

/-- Behind the post-merger rules no assertion fails, and the register types are those of
the classes. -/
theorem argTypesOf_postMerger {size : Nat} {c : Nat → Class} (eightbytes : Eightbytes size c)
    (positive : 0 < size) (small : size ≤ 32) :
    argTypesOf size ((postMerger (Abi.eightbytes size) c).getD
        (List.replicate (Abi.eightbytes size) .memory)) =
      some (.tuple (((postMerger (Abi.eightbytes size) c).map (registerTypes size)).getD [])) := by
  have count : Abi.eightbytes size = (size + 7) / 8 := rfl
  have inMemory : ∀ n, 0 < n →
      argTypesOf size (List.replicate n .memory) = some (.tuple []) := by
    intro n some
    cases n with
    | zero => cases some
    | succ n => rfl
  generalize Abi.eightbytes size = n at count ⊢
  unfold postMerger
  by_cases toMemory : ∃ k ∈ List.range n, sentToMemory c k
  · rw [if_pos toMemory]
    exact inMemory n (by omega)
  rw [if_neg toMemory]
  have stays : ∀ k, k < n → ¬ sentToMemory c k := by
    intro k inside found
    exact toMemory ⟨k, List.mem_range.mpr inside, found⟩
  have first := eightbytes.upToSse_first (stays 0 (by omega))
  by_cases long : n > 2 ∧ (upToSse c 0 ≠ .sse ∨ ∃ k ∈ List.range n, k ≥ 1 ∧ upToSse c k ≠ .sseUp)
  · rw [if_pos long]
    exact inMemory n (by omega)
  rw [if_neg long]
  by_cases single : n = 1
  · subst single
    rw [if_neg (by omega)]
    exact argTypesOf_single size first
  by_cases pair : n = 2
  · subst pair
    have second := eightbytes.upToSse_second (stays 1 (by omega))
    by_cases padding : upToSse c 1 = .noClass
    · rw [if_pos ⟨rfl, padding⟩]
      exact argTypesOf_single size first
    · rw [if_neg fun both => padding both.2]
      refine argTypesOf_pair count.symm first ?_
      rcases second with isInteger | isSse | none | rest
      · exact Or.inl isInteger
      · exact Or.inr (Or.inl isSse)
      · exact absurd none padding
      · exact Or.inr (Or.inr rest)
  · obtain ⟨m, rfl⟩ : ∃ m, n = m + 3 := ⟨n - 3, by omega⟩
    rw [if_neg fun both => pair both.1]
    have isVector : upToSse c 0 = .sse ∧ ∀ k, k < m + 3 → 1 ≤ k → upToSse c k = .sseUp := by
      constructor
      · by_contra different
        exact long ⟨by omega, Or.inl different⟩
      · intro k inside behind
        by_contra different
        exact long ⟨by omega, Or.inr ⟨k, List.mem_range.mpr inside, behind, different⟩⟩
    have classes : (List.range (m + 3)).map (upToSse c) =
        .sse :: List.replicate (m + 2) .sseUp := by
      rw [List.range_succ_eq_map, List.map_cons, isVector.1, List.map_map]
      congr 1
      rw [List.map_eq_replicate_iff.mpr]
      · rw [List.length_range]
      · intro k member
        have inside := List.mem_range.mp member
        exact isVector.2 (k + 1) (by omega) (by omega)
    have last : c (m + 2) = .sseUp := by
      have up := isVector.2 (m + 2) (by omega) (by omega)
      unfold upToSse at up
      split_ifs at up
      exact up
    have full := eightbytes.filled (m + 2) last
    show argTypesOf size ((List.range (m + 3)).map (upToSse c)) =
      some (.tuple (registerTypes size ((List.range (m + 3)).map (upToSse c))))
    rw [classes]
    exact argTypesOf_vector (by omega)

/-- A scalar by itself. -/
theorem argTypesOf_scalar (s : Scalar) :
    argTypesOf s.size (Classification.slice ⟨scalarResult s, eightbytes s.size⟩) =
      some (.tuple (registerTypes s.size s.classes)) := by
  cases s <;> decide

/-- An enum is classified as the type it is over. -/
theorem toBasetype_spec :
    ∀ t : Ty, (∀ size, classify t size = classify (toBasetype t) size) ∧
      t.size = (toBasetype t).size ∧ (∀ offset, leaves t offset = leaves (toBasetype t) offset) ∧
      hasMemberless t = hasMemberless (toBasetype t) ∧
      (WellFormed t → WellFormed (toBasetype t)) ∧
      (t.scalar? = none → (toBasetype t).isAggregate = true) := by
  refine Ty.inductionOnMembers ?_ ?_ ?_
  · intro s
    exact ⟨fun _ => rfl, rfl, fun _ => rfl, rfl, id, nofun⟩
  · intro base inductionHypothesis
    obtain ⟨classified, size, same, memberless, formed, aggregate⟩ := inductionHypothesis
    refine ⟨?_, size, ?_, ?_, ?_, aggregate⟩
    · intro size
      rw [classify, toBasetype, classified]
    · intro offset
      rw [leaves, toBasetype, same]
    · rw [hasMemberless, toBasetype, memberless]
    · intro formed'
      rw [WellFormed] at formed'
      exact formed formed'
  · intro t aggregate _
    cases t with
    | scalar s => cases aggregate
    | enum base => cases aggregate
    | sarray next dim => exact ⟨fun _ => rfl, rfl, fun _ => rfl, rfl, id, fun _ => rfl⟩
    | struct fields structsize alignsize =>
      exact ⟨fun _ => rfl, rfl, fun _ => rfl, rfl, id, fun _ => rfl⟩

/-- The classes of an aggregate by itself. -/
theorem classify_slice {t : Ty} (aggregate : t.isAggregate = true) (formed : WellFormed t)
    (plain : ∀ m ∈ t.members, Plain m.2) (positive : 0 < t.size) (small : t.size ≤ 32) :
    ∃ classification, classify t t.size = some classification ∧
      (Unclassified t 0 →
        classification.slice = List.replicate (eightbytes t.size) .memory) ∧
      (¬ Unclassified t 0 → classification.slice =
        (postMerger (eightbytes t.size) (mergedClass (leaves t 0))).getD
          (List.replicate (eightbytes t.size) .memory)) := by
  have count : 0 < eightbytes t.size ∧ eightbytes t.size ≤ 4 := by
    unfold eightbytes
    omega
  have plain' : Plain t := by
    cases t with
    | scalar s => cases aggregate
    | enum base => cases aggregate
    | sarray next dim =>
      rw [Plain]
      cases dim with
      | zero =>
        rw [Ty.size, Nat.zero_mul] at positive
        cases positive
      | succ dim =>
        exact plain (0 * next.size, next)
          (List.mem_map.mpr ⟨0, List.mem_range.mpr (Nat.succ_pos dim), rfl⟩)
    | struct fields structsize alignsize =>
      rw [Plain, fieldsPlain_iff]
      exact plain
  obtain ⟨result, found, bad, good⟩ := classifyMember_walked (eightbytes t.size) t formed plain' 0
    (Nat.dvd_zero _) (by omega) fun _ => .noClass
  refine ⟨finalizeAggregate (eightbytes t.size) result, ?_, ?_, ?_⟩
  · rw [classify_aggregate aggregate, found]
    rfl
  · intro unclassified
    exact finalizeAggregate_memory (bad unclassified) count.1
  · intro classified
    rw [good classified]
    exact finalizeAggregate_slice count.2 (eightbytes_of_classified formed classified).outside

/-- The register types of a type are those of the psABI, and no assertion fails. -/
theorem toArgTypes_eq {t : Ty} (formed : WellFormed t) (plain : MembersPlain t)
    (positive : 0 < t.size) (small : t.size ≤ 32) :
    toArgTypes t = some (.tuple (psabiTypes t)) := by
  rw [toArgTypes, if_neg (by omega), if_neg (by omega), psabiTypes]
  cases scalar : t.scalar? with
  | some s =>
    obtain ⟨size, -, -, -, classified⟩ := scalar?_spec scalar
    rw [classified]
    show argTypesOf t.size (Classification.slice _) = _
    rw [size, argTypesOf_scalar, psabiClasses, scalar]
    rfl
  | none =>
    obtain ⟨classified, size, same, memberless, formed', aggregate⟩ := toBasetype_spec t
    have unclassified : Unclassified t 0 ↔ Unclassified (toBasetype t) 0 := by
      rw [Unclassified, Unclassified, memberless, same]
    obtain ⟨classification, found, bad, good⟩ := classify_slice (aggregate scalar)
      (formed' formed) plain (by omega) (by omega)
    rw [classified, size, found]
    show argTypesOf _ classification.slice = _
    rw [psabiClasses, scalar]
    dsimp only
    by_cases inMemory : Unclassified t 0
    · rw [if_pos inMemory, bad (unclassified.mp inMemory)]
      have count : 0 < eightbytes (toBasetype t).size := by
        unfold eightbytes
        omega
      obtain ⟨n, shape⟩ := Nat.exists_eq_succ_of_ne_zero (Nat.ne_of_gt count)
      rw [shape]
      rfl
    · have classified' : ¬ Unclassified (toBasetype t) 0 := fun found => inMemory (unclassified.mpr found)
      rw [if_neg inMemory, good classified', same 0, size]
      exact argTypesOf_postMerger (eightbytes_of_classified (formed' formed) classified')
        (by omega) (by omega)

end LaserD.Abi
