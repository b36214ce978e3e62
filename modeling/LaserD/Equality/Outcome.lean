/-
This file says what the interpreter's comparison comes to, by the values that the two expressions
stand for.

Two values look alike when the comparison takes them for equal: arrays when one begins with items
that look like those of the other one and the low 32 bits of their lengths agree, structs field by
field, where one object is not compared with itself, and associative arrays when each entry finds
its own among those of the other one. The comparison meets a missing field when it comes to a place
where the left struct has none, all the earlier places looking alike.
-/

import LaserD.Equality.Typed
import LaserD.Lib.GreedyMatching
import LaserD.Strings.Ordering

namespace LaserD.Equality

open GreedyMatching (Greedy)

/-! ### What the comparison takes for equal -/

mutual

/-- The comparison takes two values for equal. -/
def Looks : Value → Value → Prop
  | .integer a, .integer b => a = b
  | .array xs, .array ys => xs.length % 2 ^ 32 = ys.length % 2 ^ 32 ∧ LooksItems xs ys
  | .struct xs, .struct ys => LooksFields xs ys
  | .assoc xs, .assoc ys => xs.length = ys.length ∧ LooksEntries xs ys
  | _, _ => False
termination_by structural v => v

/-- The items look alike in pairs, as far as there are items in both. -/
def LooksItems : List Value → List Value → Prop
  | x :: xs, y :: ys => Looks x y ∧ LooksItems xs ys
  | _, _ => True
termination_by structural items => items

/-- The fields look alike in pairs, or are one object. -/
def LooksFields : List (Option (Nat × Value)) → List (Option (Nat × Value)) → Prop
  | [], [] => True
  | none :: xs, none :: ys => LooksFields xs ys
  | some (a, x) :: xs, some (b, y) :: ys => (a = b ∨ Looks x y) ∧ LooksFields xs ys
  | _, _ => False
termination_by structural fields => fields

/-- Each entry finds the first of the others whose key looks like its own, and the value too. -/
def LooksEntries : List (Value × Value) → List (Value × Value) → Prop
  | [], _ => True
  | (key, value) :: xs, ys => ∃ before p after, ys = before ++ p :: after ∧
      (∀ q ∈ before, ¬Looks key q.1) ∧ Looks key p.1 ∧ Looks value p.2 ∧
        LooksEntries xs (before ++ after)
termination_by structural entries => entries

end

theorem looksEntries_iff (xs ys : List (Value × Value)) :
    LooksEntries xs ys ↔ Greedy (fun p q => Looks p.1 q.1) (fun p q => Looks p.2 q.2) xs ys := by
  induction xs generalizing ys with
  | nil => exact Iff.rfl
  | cons p xs inductionHypothesis =>
    rw [LooksEntries, Greedy]
    refine exists_congr fun before => exists_congr fun q => exists_congr fun after => ?_
    rw [inductionHypothesis]

/-! ### When the comparison meets a missing field -/

mutual

/-- The comparison comes to a struct whose left field is missing. -/
def Meets : Value → Value → Prop
  | .array xs, .array ys => MeetsItems xs ys
  | .struct xs, .struct ys => xs.length = ys.length ∧ MeetsFields xs ys
  | .assoc xs, .assoc ys => xs.length = ys.length ∧ MeetsEntries xs ys
  | _, _ => False
termination_by structural v => v

/-- It does so at an item, after items that look alike. -/
def MeetsItems : List Value → List Value → Prop
  | x :: xs, y :: ys => Meets x y ∨ Looks x y ∧ MeetsItems xs ys
  | _, _ => False
termination_by structural items => items

/-- It does so at a field or in a field, after fields that look alike. -/
def MeetsFields : List (Option (Nat × Value)) → List (Option (Nat × Value)) → Prop
  | none :: _, _ :: _ => True
  | some (a, x) :: xs, some (b, y) :: ys =>
    a ≠ b ∧ Meets x y ∨ (a = b ∨ Looks x y) ∧ MeetsFields xs ys
  | _, _ => False
termination_by structural fields => fields

/-- It does so while it looks for a key, in the value that it has found, or at a later entry. -/
def MeetsEntries : List (Value × Value) → List (Value × Value) → Prop
  | [], _ => False
  | (key, value) :: xs, ys => ∃ before p after, ys = before ++ p :: after ∧
      (∀ q ∈ before, ¬(Looks key q.1 ∨ Meets key q.1)) ∧ (Meets key p.1 ∨ Looks key p.1 ∧
        (Meets value p.2 ∨ Looks value p.2 ∧ MeetsEntries xs (before ++ after)))
termination_by structural entries => entries

end

/-! ### The outcome of a comparison -/

/-- A comparison fails where it meets a missing field, and tells otherwise whether the values look
alike. -/
def Outcome (result : Except Failure Int) (meets looks : Prop) : Prop :=
  (meets ∧ result = .error .dereference) ∨
    (¬meets ∧ ∃ c, result = .ok c ∧ (c = 0 ↔ looks))

theorem Outcome.ok {c : Int} {meets looks : Prop} (never : ¬meets) (zero : c = 0 ↔ looks) :
    Outcome (.ok c) meets looks :=
  .inr ⟨never, c, rfl, zero⟩

theorem Outcome.congr {result : Except Failure Int} {meets meets' looks looks' : Prop}
    (outcome : Outcome result meets looks) (sameMeets : meets ↔ meets')
    (sameLooks : looks ↔ looks') : Outcome result meets' looks' := by
  rwa [propext sameMeets, propext sameLooks] at outcome

/-- A loop that stops at the first pair that differs. -/
theorem Outcome.andThen {first rest : Except Failure Int} {meets looks meets' looks' : Prop}
    (outcome : Outcome first meets looks) (outcomeRest : looks → ¬meets → Outcome rest meets' looks') :
    Outcome (do if (← first) ≠ 0 then return 1
                rest)
      (meets ∨ looks ∧ meets') (looks ∧ looks') := by
  rcases outcome with ⟨met, rfl⟩ | ⟨free, c, rfl, zero⟩
  · exact .inl ⟨.inl met, rfl⟩
  · by_cases same : c = 0
    · have alike := zero.mp same
      have continued : (do if (← (Except.ok c : Except Failure Int)) ≠ 0 then return 1
                           rest) = rest := by
        show (if c ≠ 0 then _ else _) = _
        exact if_neg (not_not_intro same)
      rw [continued]
      refine (outcomeRest alike free).congr ?_ ?_
      · exact ⟨fun met => .inr ⟨alike, met⟩, fun either => either.elim (absurd · free) And.right⟩
      · exact (and_iff_right alike).symm
    · have different := mt zero.mpr same
      have stopped : (do if (← (Except.ok c : Except Failure Int)) ≠ 0 then return 1
                         rest) = .ok 1 := by
        show (if c ≠ 0 then _ else _) = _
        exact if_pos same
      rw [stopped]
      refine .ok ?_ (iff_of_false (by decide) fun both => different both.1)
      exact fun either => either.elim free fun both => different both.1

end LaserD.Equality
