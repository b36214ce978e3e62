/-
This file states the classification of the psABI on the scalar leaves of a type.

The class of an eightbyte is the merge of the classes that the leaves lying in it give to
it, and the classes of all eightbytes together pass the post-merger rules. A type with a
leaf that is not aligned, or with an aggregate that has no members, goes to memory, and a
second eightbyte of padding only is dropped. Merging is not associative: an integer leaf
hides whether an x87 leaf has met another class. Where no eightbyte mixes an integer, an
x87 and a third class, the order of the leaves does not matter.
-/

import LaserD.Abi.Classify
import Mathlib.Data.List.Induction
import Mathlib.Data.List.Perm.Basic
import Mathlib.Tactic.SplitIfs

namespace LaserD.Abi

/-! ### Leaves -/

mutual

/-- The scalar leaves of a type at an offset, with their offsets. -/
def leaves : Ty → Nat → List (Nat × Scalar)
  | .scalar s, offset => [(offset, s)]
  | .enum base, offset => leaves base offset
  | .sarray next dim, offset =>
    (List.range dim).flatMap fun i => leaves next (offset + i * next.size)
  | .struct fields _ _, offset => fieldLeaves fields offset

/-- The leaves of fields. -/
def fieldLeaves : Fields → Nat → List (Nat × Scalar)
  | .nil, _ => []
  | .cons offset type rest, base => leaves type (base + offset) ++ fieldLeaves rest base

end

mutual

/-- Some aggregate in the type has no members. -/
def hasMemberless : Ty → Bool
  | .scalar _ => false
  | .enum base => hasMemberless base
  | .sarray next dim => decide (dim = 0) || hasMemberless next
  | .struct fields _ _ => fields.isNil || fieldsMemberless fields

/-- Some aggregate in the fields has no members. -/
def fieldsMemberless : Fields → Bool
  | .nil => false
  | .cons _ type rest => hasMemberless type || fieldsMemberless rest

end

/-- A leaf lies at a multiple of its alignment. -/
def LeafAligned (leaf : Nat × Scalar) : Prop :=
  leaf.1 % leaf.2.alignsize = 0

/-- A leaf that is not aligned, or an aggregate without members, sends a type to memory. -/
def Unclassified (t : Ty) (offset : Nat) : Prop :=
  hasMemberless t = true ∨ ∃ leaf ∈ leaves t offset, ¬ LeafAligned leaf

/-! ### Merging -/

/-- The class that a leaf gives to an eightbyte, if it lies in it. -/
def contribution (k : Nat) (leaf : Nat × Scalar) : Option Class :=
  if leaf.1 / 8 ≤ k then leaf.2.classes[k - leaf.1 / 8]? else none

/-- The classes that the leaves give to an eightbyte. -/
def contributions (ls : List (Nat × Scalar)) (k : Nat) : List Class :=
  ls.filterMap (contribution k)

/-- The merge of classes into a class. -/
def mergeAll (c : Class) (classes : List Class) : Class :=
  classes.foldl merge c

/-- The class of an eightbyte: the merge of all that the leaves give to it. -/
def mergedClass (ls : List (Nat × Scalar)) (k : Nat) : Class :=
  mergeAll .noClass (contributions ls k)

/-! ### The post-merger rules -/

/-- An eightbyte of class memory, or an upper x87 half without its lower half before it. -/
def sentToMemory (c : Nat → Class) (k : Nat) : Prop :=
  c k = .memory ∨ (c k = .x87Up ∧ ¬ (k > 0 ∧ c (k - 1) = .x87))

instance (c : Nat → Class) (k : Nat) : Decidable (sentToMemory c k) :=
  inferInstanceAs (Decidable (_ ∨ _))

/-- An upper vector half without a vector before it is a vector of its own. -/
def upToSse (c : Nat → Class) (k : Nat) : Class :=
  if c k = .sseUp ∧ ¬ (k > 0 ∧ (c (k - 1) = .sse ∨ c (k - 1) = .sseUp)) then .sse else c k

/-- The classes of an aggregate of so many eightbytes after the post-merger rules, or
nothing if it goes to memory. -/
def postMerger (n : Nat) (c : Nat → Class) : Option (List Class) :=
  if ∃ k ∈ List.range n, sentToMemory c k then none
  else if n > 2 ∧ (upToSse c 0 ≠ .sse ∨ ∃ k ∈ List.range n, k ≥ 1 ∧ upToSse c k ≠ .sseUp) then none
  else if n = 2 ∧ upToSse c 1 = .noClass then some [upToSse c 0]
  else some ((List.range n).map (upToSse c))

/-- The type that an enum stands for. -/
def toBasetype : Ty → Ty
  | .enum base => toBasetype base
  | t => t

/-- The scalar that a type is, or that it is an enum over. -/
def Ty.scalar? : Ty → Option Scalar
  | scalar s => some s
  | enum base => base.scalar?
  | sarray _ _ => none
  | struct _ _ _ => none

open Classical in
/-- The classes of a type: a scalar has its own, an aggregate the merged ones. -/
noncomputable def psabiClasses (t : Ty) : Option (List Class) :=
  match t.scalar? with
  | some s => some s.classes
  | none =>
    if Unclassified t 0 then none
    else postMerger (eightbytes t.size) (mergedClass (leaves t 0))

/-- The register type of an eightbyte of class integer or sse. -/
def registerType (sizeInEightbyte : Nat) (c : Class) : RegisterType :=
  if c = .integer then
    if sizeInEightbyte > 4 then .tint64 else if sizeInEightbyte > 2 then .tint32
    else if sizeInEightbyte > 1 then .tint16 else .tint8
  else if sizeInEightbyte > 4 then .tfloat64 else .tfloat32

/-- The registers for classes: one for an x87 pair, one for a vector, one for each
eightbyte else. -/
def registerTypes (size : Nat) : List Class → List RegisterType
  | .x87 :: _ => [.tfloat80]
  | .sse :: .sseUp :: rest => [.vector (rest.length + 2)]
  | [c] => [registerType (lastSize size) c]
  | [c, d] => [registerType 8 c, registerType (lastSize size) d]
  | _ => []

/-- The register types of the psABI: none at all for a type in memory. -/
noncomputable def psabiTypes (t : Ty) : List RegisterType :=
  ((psabiClasses t).map (registerTypes t.size)).getD []

/-! ### The order of the leaves -/

/-- A class of the x87 unit. -/
def Class.isX87 : Class → Bool
  | .x87 | .x87Up | .complexX87 => true
  | _ => false

/-- An integer, an x87 and a third class meet. -/
def Mixed (classes : List Class) : Prop :=
  .integer ∈ classes ∧ ∃ a ∈ classes, a.isX87 = true ∧ ∃ b ∈ classes, b ≠ a ∧ b ≠ .integer

/-- The classes that leaves have. -/
def OfLeaves (classes : List Class) : Prop :=
  ∀ c ∈ classes, c ≠ .noClass ∧ c ≠ .memory ∧ c ≠ .complexX87

/-- The merge of a set of classes of leaves, by which of them are in it. -/
def classOf (integer sse sseUp x87 x87Up : Bool) : Class :=
  if integer then .integer
  else if x87 && !sse && !sseUp && !x87Up then .x87
  else if x87Up && !sse && !sseUp && !x87 then .x87Up
  else if x87 || x87Up then .memory
  else if sse then .sse
  else if sseUp then .sseUp
  else .noClass

/-- The merge of classes, read off which of them there are. -/
def mergedSet (classes : List Class) : Class :=
  classOf (decide (.integer ∈ classes)) (decide (.sse ∈ classes)) (decide (.sseUp ∈ classes))
    (decide (.x87 ∈ classes)) (decide (.x87Up ∈ classes))

theorem mergedSet_perm {classes classes' : List Class} (perm : classes.Perm classes') :
    mergedSet classes = mergedSet classes' := by
  simp only [mergedSet, perm.mem_iff]

/-- Merging one more class, where no three classes mix. -/
theorem classOf_merge : ∀ (i s u x y : Bool) (c : Class),
    c ≠ .noClass → c ≠ .memory → c ≠ .complexX87 →
    ((i || decide (c = .integer)) &&
      (((x || decide (c = .x87)) &&
          (s || decide (c = .sse) || u || decide (c = .sseUp) || (y || decide (c = .x87Up)))) ||
        ((y || decide (c = .x87Up)) &&
          (s || decide (c = .sse) || u || decide (c = .sseUp) || (x || decide (c = .x87)))))) =
      false →
    merge (classOf i s u x y) c =
      classOf (i || decide (c = .integer)) (s || decide (c = .sse)) (u || decide (c = .sseUp))
        (x || decide (c = .x87)) (y || decide (c = .x87Up)) := by
  intro i s u x y c
  cases i <;> cases s <;> cases u <;> cases x <;> cases y <;> cases c <;> decide

/-- Where no three classes mix, a merge depends on which classes there are only. -/
theorem mergeAll_eq_mergedSet {classes : List Class} (ofLeaves : OfLeaves classes)
    (unmixed : ¬ Mixed classes) : mergeAll .noClass classes = mergedSet classes := by
  induction classes using List.reverseRecOn with
  | nil => decide
  | append_singleton classes c inductionHypothesis =>
    have ofLeaves' : OfLeaves classes := by
      intro d member
      exact ofLeaves d (List.mem_append_left _ member)
    have unmixed' : ¬ Mixed classes := by
      rintro ⟨integer, a, memberA, isX87, b, memberB, different⟩
      exact unmixed ⟨List.mem_append_left _ integer, a, List.mem_append_left _ memberA, isX87, b,
        List.mem_append_left _ memberB, different⟩
    have leaf := ofLeaves c (List.mem_append_right _ List.mem_cons_self)
    have member : ∀ d : Class, decide (d ∈ classes ++ [c]) =
        (decide (d ∈ classes) || decide (c = d)) := by
      intro d
      simp only [List.mem_append, List.mem_singleton, Bool.decide_or, eq_comm]
    rw [mergeAll, List.foldl_append]
    show merge (mergeAll .noClass classes) c = _
    rw [inductionHypothesis ofLeaves' unmixed', mergedSet, mergedSet, member, member, member,
      member, member]
    apply classOf_merge _ _ _ _ _ c leaf.1 leaf.2.1 leaf.2.2
    rw [← Bool.not_eq_true]
    intro mixed
    apply unmixed
    simp only [Bool.and_eq_true, Bool.or_eq_true, decide_eq_true_iff] at mixed
    have back : ∀ d : Class, (d ∈ classes ∨ c = d) → d ∈ classes ++ [c] := by
      rintro d (inside | rfl)
      · exact List.mem_append_left _ inside
      · exact List.mem_append_right _ List.mem_cons_self
    have third : ∀ d : Class, (d ∈ classes ∨ c = d) → d ≠ .integer → ∀ a : Class, d ≠ a →
        ∃ b ∈ classes ++ [c], b ≠ a ∧ b ≠ .integer := by
      intro d inside notInteger a different
      exact ⟨d, back d inside, different, notInteger⟩
    obtain ⟨integer, ⟨x87, other⟩ | ⟨x87Up, other⟩⟩ := mixed
    · refine ⟨back _ integer, .x87, back _ x87, rfl, ?_⟩
      rcases other with (((sse | sse) | sseUp) | sseUp) | x87Up
      · exact third .sse (Or.inl sse) (by decide) _ (by decide)
      · exact third .sse (Or.inr sse) (by decide) _ (by decide)
      · exact third .sseUp (Or.inl sseUp) (by decide) _ (by decide)
      · exact third .sseUp (Or.inr sseUp) (by decide) _ (by decide)
      · exact third .x87Up x87Up (by decide) _ (by decide)
    · refine ⟨back _ integer, .x87Up, back _ x87Up, rfl, ?_⟩
      rcases other with (((sse | sse) | sseUp) | sseUp) | x87
      · exact third .sse (Or.inl sse) (by decide) _ (by decide)
      · exact third .sse (Or.inr sse) (by decide) _ (by decide)
      · exact third .sseUp (Or.inl sseUp) (by decide) _ (by decide)
      · exact third .sseUp (Or.inr sseUp) (by decide) _ (by decide)
      · exact third .x87 x87 (by decide) _ (by decide)

theorem Mixed.perm {classes classes' : List Class} (perm : classes.Perm classes')
    (mixed : Mixed classes) : Mixed classes' := by
  obtain ⟨integer, a, memberA, isX87, b, memberB, different⟩ := mixed
  exact ⟨perm.mem_iff.mp integer, a, perm.mem_iff.mp memberA, isX87, b, perm.mem_iff.mp memberB,
    different⟩

theorem ofLeaves_contributions (ls : List (Nat × Scalar)) (k : Nat) :
    OfLeaves (contributions ls k) := by
  intro c member
  obtain ⟨leaf, -, found⟩ := List.mem_filterMap.mp member
  unfold contribution at found
  split_ifs at found
  have given : c ∈ leaf.2.classes := List.mem_of_getElem? found
  revert given
  cases leaf.2 <;> cases c <;> decide

/-- Where no eightbyte mixes three classes, the order of the leaves does not matter. -/
theorem mergedClass_perm {ls ls' : List (Nat × Scalar)} (perm : ls.Perm ls')
    (unmixed : ∀ k, ¬ Mixed (contributions ls k)) (k : Nat) :
    mergedClass ls k = mergedClass ls' k := by
  have classes : (contributions ls k).Perm (contributions ls' k) := perm.filterMap _
  rw [mergedClass, mergedClass,
    mergeAll_eq_mergedSet (ofLeaves_contributions ls k) (unmixed k),
    mergeAll_eq_mergedSet (ofLeaves_contributions ls' k)
      (fun mixed => unmixed k (mixed.perm classes.symm)),
    mergedSet_perm classes]

end LaserD.Abi
