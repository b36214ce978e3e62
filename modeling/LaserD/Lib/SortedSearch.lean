/-
This file is about the last number of a sorted list that is not above a given one.
`IsFloor` says that an index is that of the last such number; there is one index of this
kind when the first number is not above, and it is the count of the numbers that are not
above, less one. Scans in either direction and binary search find it.
-/

import Mathlib.Algebra.Order.Ring.Nat
import Mathlib.Data.List.GetD

namespace SortedSearch

/-- The number at an index is not above the given one, and the next number is. -/
structure IsFloor (starts : List Nat) (x i : Nat) : Prop where
  inside : i < starts.length
  start_le : starts[i] ≤ x
  lt_next : ∀ next, starts[i + 1]? = some next → x < next

variable {starts : List Nat} {x i : Nat}

theorem getElem_lt (sorted : starts.Pairwise (· < ·)) {j k : Nat} (less : j < k)
    (bound : k < starts.length) : starts[j] < starts[k] :=
  List.pairwise_iff_getElem.mp sorted j k (less.trans bound) bound less

theorem getElem_le (sorted : starts.Pairwise (· ≤ ·)) {j k : Nat} (le : j ≤ k)
    (bound : k < starts.length) : starts[j] ≤ starts[k] := by
  rcases Nat.lt_or_eq_of_le le with less | rfl
  · exact List.pairwise_iff_getElem.mp sorted j k (less.trans bound) bound less
  · exact le_rfl

/-- The numbers up to the index are those that are not above. -/
theorem IsFloor.le_iff (floor : IsFloor starts x i) (sorted : starts.Pairwise (· ≤ ·)) {j : Nat}
    (bound : j < starts.length) : starts[j] ≤ x ↔ j ≤ i := by
  constructor
  · intro below
    by_contra above
    have after : i + 1 < starts.length := by omega
    have next := floor.lt_next _ (List.getElem?_eq_getElem after)
    have ordered := getElem_le sorted (show i + 1 ≤ j by omega) bound
    omega
  · intro le
    exact (getElem_le sorted le floor.inside).trans floor.start_le

theorem IsFloor.unique (floor : IsFloor starts x i) (sorted : starts.Pairwise (· ≤ ·)) {j : Nat}
    (other : IsFloor starts x j) : i = j :=
  Nat.le_antisymm ((other.le_iff sorted floor.inside).mp floor.start_le)
    ((floor.le_iff sorted other.inside).mp other.start_le)

/-- The count of the numbers that are not above. -/
theorem IsFloor.countP_eq (floor : IsFloor starts x i) (sorted : starts.Pairwise (· ≤ ·)) :
    starts.countP (fun start => start ≤ x) = i + 1 := by
  have split : starts.countP (fun start => start ≤ x) =
      (starts.take (i + 1)).countP (fun start => start ≤ x) +
      (starts.drop (i + 1)).countP (fun start => start ≤ x) := by
    rw [← List.countP_append, List.take_append_drop]
  have before : (starts.take (i + 1)).countP (fun start => start ≤ x) = i + 1 := by
    have length : (starts.take (i + 1)).length = i + 1 := by
      rw [List.length_take]
      exact Nat.min_eq_left floor.inside
    refine (List.countP_eq_length.mpr fun start member => ?_).trans length
    obtain ⟨j, bound, rfl⟩ := List.getElem_of_mem member
    rw [length] at bound
    rw [List.getElem_take, decide_eq_true_iff]
    exact (floor.le_iff sorted (bound.trans_le floor.inside)).mpr (Nat.le_of_lt_succ bound)
  have after : (starts.drop (i + 1)).countP (fun start => start ≤ x) = 0 := by
    refine List.countP_eq_zero.mpr fun start member => ?_
    obtain ⟨j, bound, rfl⟩ := List.getElem_of_mem member
    rw [List.length_drop] at bound
    rw [List.getElem_drop, decide_eq_true_iff, floor.le_iff sorted (by omega)]
    omega
  rw [split, before, after]

/-- There is such a number when the first is not above. -/
theorem exists_floor (nonempty : 0 < starts.length) (first : starts[0] ≤ x) :
    ∃ i, IsFloor starts x i := by
  by_contra none_
  have all : ∀ j (bound : j < starts.length), starts[j] ≤ x := by
    intro j
    induction j with
    | zero => exact fun _ => first
    | succ j inductionHypothesis =>
      intro bound
      by_contra above
      refine none_ ⟨j, by omega, inductionHypothesis (by omega), fun next found => ?_⟩
      rw [List.getElem?_eq_getElem bound, Option.some.injEq] at found
      omega
  refine none_ ⟨starts.length - 1, by omega, all _ (by omega), fun next found => ?_⟩
  rw [List.getElem?_eq_none (by omega)] at found
  cases found

/-- A filter that keeps exactly the elements before an index. -/
theorem filter_eq_take {A : Type} (list : List A) (keeps : A → Bool) (count : Nat)
    (before : ∀ j (bound : j < list.length), keeps list[j] = decide (j < count)) :
    list.filter keeps = list.take count := by
  induction list generalizing count with
  | nil => simp
  | cons head rest inductionHypothesis =>
    have first := before 0 (Nat.zero_lt_succ _)
    rw [List.getElem_cons_zero] at first
    cases count with
    | zero =>
      have others := inductionHypothesis 0 fun j bound => before (j + 1) (Nat.succ_lt_succ bound)
      rw [List.filter_cons, first, others]
      simp
    | succ count =>
      have others := inductionHypothesis count fun j bound => by
        have later := before (j + 1) (Nat.succ_lt_succ bound)
        rw [List.getElem_cons_succ] at later
        rw [later]
        simp
      rw [List.filter_cons, first, others]
      simp

theorem IsFloor.filter_eq (floor : IsFloor starts x i) (sorted : starts.Pairwise (· ≤ ·)) :
    starts.filter (fun start => start ≤ x) = starts.take (i + 1) := by
  refine filter_eq_take starts _ (i + 1) fun j bound => ?_
  rw [decide_eq_decide, floor.le_iff sorted bound]
  omega

/-- An increasing list of numbers below a bound is no longer than the bound. -/
theorem length_le_of_sorted (sorted : starts.Pairwise (· < ·)) {limit : Nat}
    (below : ∀ start ∈ starts, start < limit) : starts.length ≤ limit := by
  have at_least : ∀ j (bound : j < starts.length), j ≤ starts[j] := by
    intro j
    induction j with
    | zero => exact fun _ => Nat.zero_le _
    | succ j inductionHypothesis =>
      intro bound
      have less := getElem_lt sorted (show j < j + 1 by omega) bound
      have before := inductionHypothesis (by omega)
      omega
  by_cases empty : starts.length = 0
  · omega
  · have bound : starts.length - 1 < starts.length := by omega
    have last := at_least _ bound
    have small := below _ (List.getElem_mem bound)
    omega

/-! ### Searching -/

/-- A scan to larger indices. -/
def scanForward (starts : List Nat) (x : Nat) : Nat → Nat → Option Nat
  | 0, _ => none
  | fuel + 1, i =>
      if i + 1 < starts.length ∧ starts.getD (i + 1) 0 ≤ x then scanForward starts x fuel (i + 1)
      else some i

/-- A scan to smaller indices, which fails below the first. -/
def scanBackward (starts : List Nat) (x : Nat) : Nat → Option Nat
  | 0 => if x < starts.getD 0 0 then none else some 0
  | i + 1 => if x < starts.getD (i + 1) 0 then scanBackward starts x i else some (i + 1)

theorem scanForward_eq (floor : IsFloor starts x i) (sorted : starts.Pairwise (· ≤ ·))
    (fuel j : Nat) (le : j ≤ i) (enough : i - j < fuel) :
    scanForward starts x fuel j = some i := by
  induction fuel generalizing j with
  | zero => omega
  | succ fuel inductionHypothesis =>
    have bound := floor.inside
    rw [scanForward]
    by_cases last : j = i
    · subst last
      rw [if_neg]
      rintro ⟨inside, below⟩
      rw [List.getD_eq_getElem _ _ inside, floor.le_iff sorted inside] at below
      omega
    · have inside : j + 1 < starts.length := by omega
      have below : starts[j + 1] ≤ x := (floor.le_iff sorted inside).mpr (by omega)
      rw [if_pos ⟨inside, by rw [List.getD_eq_getElem _ _ inside]; exact below⟩]
      exact inductionHypothesis (j + 1) (by omega) (by omega)

theorem scanBackward_eq (floor : IsFloor starts x i) (sorted : starts.Pairwise (· ≤ ·))
    (j : Nat) (bound : j < starts.length) (le : i ≤ j) : scanBackward starts x j = some i := by
  induction j with
  | zero =>
    obtain rfl : i = 0 := by omega
    rw [scanBackward, if_neg]
    rw [List.getD_eq_getElem _ _ bound]
    exact Nat.not_lt.mpr floor.start_le
  | succ j inductionHypothesis =>
    rw [scanBackward, List.getD_eq_getElem _ _ bound]
    by_cases last : i = j + 1
    · rw [if_neg (by rw [Nat.not_lt, floor.le_iff sorted bound]; omega), last]
    · rw [if_pos (by rw [← Nat.not_le, floor.le_iff sorted bound]; omega)]
      exact inductionHypothesis (by omega) (by omega)

/-- Binary search between two indices of `size_t`. A read outside of the list fails, and so does
an empty range. -/
def binarySearch (starts : List Nat) (x : Nat) : Nat → Nat → Nat → Option Nat
  | 0, _, _ => none
  | fuel + 1, lo, hi =>
      if lo ≤ hi then do
        let mid := lo + (hi - lo) / 2
        let start ← starts[mid]?
        if start ≤ x then
          if mid = starts.length - 1 ∨ starts.getD (mid + 1) 0 > x then some mid
          else binarySearch starts x fuel (mid + 1) hi
        else binarySearch starts x fuel lo ((mid + (2 ^ 64 - 1)) % 2 ^ 64)
      else none

theorem binarySearch_eq (floor : IsFloor starts x i) (sorted : starts.Pairwise (· ≤ ·))
    (small : starts.length ≤ 2 ^ 64) (fuel lo hi : Nat) (low : lo ≤ i) (high : i ≤ hi)
    (bound : hi < starts.length) (enough : hi - lo < fuel) :
    binarySearch starts x fuel lo hi = some i := by
  induction fuel generalizing lo hi with
  | zero => omega
  | succ fuel inductionHypothesis =>
    obtain ⟨mid, mid_eq⟩ : ∃ mid, mid = lo + (hi - lo) / 2 := ⟨_, rfl⟩
    have lower : lo ≤ mid := by omega
    have upper : mid ≤ hi := by omega
    have inside : mid < starts.length := by omega
    rw [binarySearch, if_pos (low.trans high)]
    dsimp only
    rw [← mid_eq, List.getElem?_eq_getElem inside, Option.bind_eq_bind, Option.bind_some]
    by_cases below : starts[mid] ≤ x
    · rw [if_pos below]
      by_cases stop : mid = starts.length - 1 ∨ starts.getD (mid + 1) 0 > x
      · rw [if_pos stop]
        have found : IsFloor starts x mid := by
          refine ⟨inside, below, fun next at_ => ?_⟩
          obtain ⟨bound', rfl⟩ := List.getElem?_eq_some_iff.mp at_
          rcases stop with last | above
          · omega
          · rwa [List.getD_eq_getElem _ _ bound'] at above
        rw [floor.unique sorted found]
      · rw [if_neg stop]
        obtain ⟨notLast, notAbove⟩ := not_or.mp stop
        have bound' : mid + 1 < starts.length := by omega
        rw [List.getD_eq_getElem _ _ bound', gt_iff_lt, Nat.not_lt, floor.le_iff sorted bound']
          at notAbove
        exact inductionHypothesis (mid + 1) hi notAbove high bound (by omega)
    · rw [if_neg below]
      rw [floor.le_iff sorted inside] at below
      have previous : (mid + (2 ^ 64 - 1)) % 2 ^ 64 = mid - 1 := by omega
      rw [previous]
      exact inductionHypothesis lo (mid - 1) low (by omega) (by omega) (by omega)

end SortedSearch
