/-
This file models how the interpreter changes the length of an array.

The old value is a string literal, an array literal, a slice of either, or null. The new
one has its first elements and then default elements. Both branches copy into a block of
their own: the branch for array literals adds the lower bound of a slice to the position
it reads, and the one for strings to the position it writes. A write outside of the block
is a failure.
-/

import Mathlib.Algebra.Group.Nat.Defs
import Mathlib.Data.List.Basic
import Mathlib.Tactic.SplitIfs

namespace LaserD.Ctfe

/-- `sz`: the bytes of a unit of a string. -/
inductive UnitSize
  | one
  | two
  | four
  | eight
  deriving DecidableEq, Repr

/-- The bits of a unit. -/
def UnitSize.bits : UnitSize → Nat
  | .one => 8
  | .two => 16
  | .four => 32
  | .eight => 64

section Values

variable {Element : Type}

/-- A `StringExp`, with its units, or an `ArrayLiteralExp`, with its elements. An element may be
missing. -/
inductive Literal (Element : Type)
  | string (sz : UnitSize) (units : List Nat)
  | array (elements : List (Option Element))
  deriving DecidableEq, Repr

/-- The length of a literal. -/
def Literal.length : Literal Element → Nat
  | string _ units => units.length
  | array elements => elements.length

/-- The old value: null, a literal or a slice of one. -/
inductive OldValue (Element : Type)
  | null
  | literal (e : Literal Element)
  | slice (e1 : Literal Element) (lwr upr : Nat)
  deriving DecidableEq, Repr

namespace OldValue

/-- A slice lies within its literal. -/
def WellFormed : OldValue Element → Prop
  | null => True
  | literal _ => True
  | slice e1 lwr upr => lwr ≤ upr ∧ upr ≤ e1.length

/-- The length of an array. -/
def length : OldValue Element → Nat
  | null => 0
  | literal e => e.length
  | slice _ lwr upr => upr - lwr

/-- The lower bound that is resolved, and the literal below a slice. -/
def resolve : OldValue Element → Nat × Option (Literal Element)
  | null => (0, none)
  | literal e => (0, some e)
  | slice e1 lwr _ => (lwr, some e1)

end OldValue

/-! ### The new array -/

/-- A write to a unit or an element of a block. -/
def writeAt {α : Type} (block : List α) (index : Nat) (x : α) : Option (List α) :=
  if index < block.length then some (block.set index x) else none

/-- `memcpy` of the first units of a string to those of a block. -/
def memcpy (block data : List Nat) (count : Nat) : Option (List Nat) :=
  if count ≤ data.length ∧ count ≤ block.length then some (data.take count ++ block.drop count)
  else none

/-- The loop that fills a block with one value, from a position on. -/
def fillLoop {α : Type} (offset : Nat) (x : α) : Nat → Nat → List α → Option (List α)
  | 0, _, block => some block
  | count + 1, elemi, block => do
    let block ← writeAt block (offset + elemi) x
    fillLoop offset x count (elemi + 1) block

/-- The loop that copies the elements of an array literal from a lower bound on. -/
def copyLoop {α : Type} (data : List α) (indxlo : Nat) : Nat → Nat → List α → Option (List α)
  | 0, _, block => some block
  | count + 1, i, block => do
    let x ← data[indxlo + i]?
    let block ← writeAt block i x
    copyLoop data indxlo count (i + 1) block

/-- `changeArrayLiteralLength`. The block of a string has one unit more than the string. -/
def changeArrayLiteralLength (toInteger : Element → Nat) (defaultElem : Element)
    (oldval : OldValue Element) (oldlen newlen : Nat) : Option (Literal Element) :=
  let indxlo := oldval.resolve.1
  let copylen := if oldlen < newlen then oldlen else newlen
  match oldval.resolve.2 with
  | some (.string sz units) => do
    let s ← memcpy (List.replicate (newlen + 1) 0) units copylen
    let s ← fillLoop indxlo (toInteger defaultElem % 2 ^ sz.bits) (newlen - copylen) copylen s
    some (.string sz (s.take newlen))
  | some (.array data) => do
    let elements ← copyLoop data indxlo copylen 0 (List.replicate newlen none)
    let elements ← fillLoop 0 (some defaultElem) (newlen - copylen) copylen elements
    some (.array elements)
  | none =>
    if oldlen ≠ 0 then none
    else do
      let elements ← fillLoop 0 (some defaultElem) (newlen - copylen) copylen
        (List.replicate newlen none)
      some (.array elements)

/-! ### The loops -/

theorem take_succ_set {α : Type} {block : List α} {index : Nat} (inside : index < block.length)
    (x : α) : (block.set index x).take (index + 1) = block.take index ++ [x] := by
  rw [List.take_add_one, List.take_set_of_le (Nat.le_refl index), List.getElem?_set_self inside]
  rfl

theorem fillLoop_of_le {α : Type} (offset : Nat) (x : α) (count elemi : Nat) (block : List α)
    (within : offset + elemi + count ≤ block.length) :
    fillLoop offset x count elemi block =
      some (block.take (offset + elemi) ++ List.replicate count x ++
        block.drop (offset + elemi + count)) := by
  induction count generalizing elemi block with
  | zero =>
    rw [fillLoop, List.replicate_zero, List.append_nil, Nat.add_zero, List.take_append_drop]
  | succ count inductionHypothesis =>
    have inside : offset + elemi < block.length := by omega
    rw [fillLoop, writeAt, if_pos inside]
    show fillLoop offset x count (elemi + 1) (block.set (offset + elemi) x) = _
    rw [inductionHypothesis _ _ (by rw [List.length_set]; omega)]
    refine congrArg some ?_
    rw [show offset + (elemi + 1) = offset + elemi + 1 by omega, take_succ_set inside,
      List.drop_set_of_lt (by omega), List.replicate_succ,
      show offset + elemi + 1 + count = offset + elemi + (count + 1) by omega]
    simp only [List.append_assoc, List.singleton_append]

/-- What is filled lies between what is before it and what is behind it. -/
theorem fillLoop_append {α : Type} {offset elemi count : Nat} (x : α) {front middle : List α}
    (back : List α) (place : front.length = offset + elemi) (room : middle.length = count) :
    fillLoop offset x count elemi (front ++ middle ++ back) =
      some (front ++ List.replicate count x ++ back) := by
  have before : (front ++ middle).length = offset + elemi + count := by
    rw [List.length_append, place, room]
  rw [fillLoop_of_le _ _ _ _ _ (by
    rw [List.length_append, before]
    exact Nat.le_add_right _ _), List.drop_left' before, List.append_assoc front,
    List.take_left' place]

theorem fillLoop_of_lt {α : Type} (offset : Nat) (x : α) (count elemi : Nat) (block : List α)
    (some' : 0 < count) (beyond : block.length < offset + elemi + count) :
    fillLoop offset x count elemi block = none := by
  induction count generalizing elemi block with
  | zero => exact absurd some' (Nat.lt_irrefl 0)
  | succ count inductionHypothesis =>
    rw [fillLoop, writeAt]
    by_cases inside : offset + elemi < block.length
    · rw [if_pos inside]
      refine inductionHypothesis (elemi + 1) (block.set (offset + elemi) x) (by omega) ?_
      rw [List.length_set]
      omega
    · rw [if_neg inside]
      rfl

theorem copyLoop_eq {α : Type} (data : List α) (indxlo count i : Nat) (block : List α)
    (within : indxlo + i + count ≤ data.length) (room : i + count ≤ block.length) :
    copyLoop data indxlo count i block =
      some (block.take i ++ (data.drop (indxlo + i)).take count ++ block.drop (i + count)) := by
  induction count generalizing i block with
  | zero =>
    rw [copyLoop, List.take_zero, List.append_nil, Nat.add_zero, List.take_append_drop]
  | succ count inductionHypothesis =>
    have inside : indxlo + i < data.length := by omega
    have place : i < block.length := by omega
    rw [copyLoop, List.getElem?_eq_getElem inside]
    show (writeAt block i _).bind _ = _
    rw [writeAt, if_pos place]
    show copyLoop data indxlo count (i + 1) (block.set i _) = _
    rw [inductionHypothesis _ _ (by omega) (by rw [List.length_set]; omega)]
    refine congrArg some ?_
    rw [take_succ_set place, List.drop_set_of_lt (by omega), ← Nat.add_assoc,
      List.drop_eq_getElem_cons inside, List.take_succ_cons,
      show i + 1 + count = i + (count + 1) by omega]
    simp only [List.append_assoc, List.nil_append, List.cons_append]

/-! ### The result -/

/-- The literal that the new array should be: the first elements of the old one and then default
elements. -/
def resized (toInteger : Element → Nat) (defaultElem : Element) (oldval : OldValue Element)
    (newlen : Nat) : Literal Element :=
  let oldlen := oldval.length
  match oldval.resolve.2 with
  | some (.string sz units) =>
    .string sz (((units.drop oldval.resolve.1).take oldlen).take newlen ++
      List.replicate (newlen - oldlen) (toInteger defaultElem % 2 ^ sz.bits))
  | some (.array elements) =>
    .array (((elements.drop oldval.resolve.1).take oldlen).take newlen ++
      List.replicate (newlen - oldlen) (some defaultElem))
  | none => .array (List.replicate newlen (some defaultElem))

/-- The lower bound of a slice of a string does no harm: the units that are copied are also those
at its start, and where units are filled it is zero, or one with nothing else than zeros. -/
def StartHarmless (toInteger : Element → Nat) (defaultElem : Element) (oldval : OldValue Element)
    (newlen : Nat) : Prop :=
  match oldval.resolve with
  | (indxlo, some (.string sz units)) =>
    (∀ i, i < oldval.length → i < newlen → units[i]? = units[indxlo + i]?) ∧
      (oldval.length < newlen →
        indxlo = 0 ∨ indxlo = 1 ∧ toInteger defaultElem % 2 ^ sz.bits = 0)
  | _ => True

theorem take_eq_take_drop_iff {units : List Nat} {indxlo count : Nat} :
    units.take count = (units.drop indxlo).take count ↔
      ∀ i, i < count → units[i]? = units[indxlo + i]? := by
  constructor
  · intro same i below
    have units := congrArg (·[i]?) same
    simpa only [List.getElem?_take, if_pos below, List.getElem?_drop] using units
  · intro same
    refine List.ext_getElem? fun i => ?_
    simp only [List.getElem?_take, List.getElem?_drop]
    split_ifs with below
    · exact same i below
    · rfl

/-- The branch for array literals takes the lower bound into account. -/
theorem changeArrayLiteralLength_array (toInteger : Element → Nat) (defaultElem : Element)
    {oldval : OldValue Element} (wellFormed : oldval.WellFormed) (newlen : Nat)
    {elements : List (Option Element)} (isArray : oldval.resolve.2 = some (.array elements)) :
    changeArrayLiteralLength toInteger defaultElem oldval oldval.length newlen =
      some (resized toInteger defaultElem oldval newlen) := by
  have within : oldval.resolve.1 + oldval.length ≤ elements.length := by
    cases oldval with
    | null => exact nomatch isArray
    | literal e =>
      obtain rfl := Option.some.inj isArray
      exact Nat.le_of_eq (Nat.zero_add _)
    | slice e1 lwr upr =>
      obtain rfl := Option.some.inj isArray
      obtain ⟨ordered, inside⟩ := wellFormed
      show lwr + (upr - lwr) ≤ elements.length
      rw [Nat.add_sub_cancel' ordered]
      exact inside
  unfold changeArrayLiteralLength resized
  simp only [isArray]
  generalize oldval.resolve.1 = indxlo at within ⊢
  generalize oldval.length = oldlen at within ⊢
  by_cases grows : oldlen < newlen
  · rw [if_pos grows, copyLoop_eq _ _ _ _ _ (by omega) (by rw [List.length_replicate]; omega),
      List.take_zero, List.nil_append, List.drop_replicate, Nat.add_zero, Nat.zero_add]
    have copied : ((elements.drop indxlo).take oldlen).length = oldlen := by
      rw [List.length_take, List.length_drop]
      omega
    generalize (elements.drop indxlo).take oldlen = front at copied ⊢
    have filled := @fillLoop_append (Option Element) 0 oldlen _ (some defaultElem) front _ []
      (copied.trans (Nat.zero_add _).symm)
      (List.length_replicate (n := newlen - oldlen) (a := none))
    rw [List.append_nil, List.append_nil] at filled
    simp only [Option.bind_eq_bind, Option.bind_some, filled]
    rw [List.take_of_length_le (by rw [copied]; omega)]
  · rw [if_neg grows, copyLoop_eq _ _ _ _ _ (by omega) (by rw [List.length_replicate]; omega),
      List.take_zero, List.nil_append, List.drop_replicate, Nat.add_zero, Nat.zero_add,
      Nat.sub_self, List.replicate_zero, List.append_nil, List.take_take,
      Nat.min_eq_left (Nat.le_of_not_lt grows), Nat.sub_eq_zero_of_le (Nat.le_of_not_lt grows)]
    simp only [Option.bind_eq_bind, Option.bind_some, fillLoop, List.replicate_zero,
      List.append_nil]

/-- The branch for strings is right exactly where the lower bound does no harm. -/
theorem changeArrayLiteralLength_string_iff (toInteger : Element → Nat) (defaultElem : Element)
    {oldval : OldValue Element} (wellFormed : oldval.WellFormed) (newlen : Nat) {sz : UnitSize}
    {units : List Nat} (isString : oldval.resolve.2 = some (.string sz units)) :
    changeArrayLiteralLength toInteger defaultElem oldval oldval.length newlen =
        some (resized toInteger defaultElem oldval newlen) ↔
      StartHarmless toInteger defaultElem oldval newlen := by
  have within : oldval.resolve.1 + oldval.length ≤ units.length := by
    cases oldval with
    | null => exact nomatch isString
    | literal e =>
      obtain rfl := Option.some.inj isString
      exact Nat.le_of_eq (Nat.zero_add _)
    | slice e1 lwr upr =>
      obtain rfl := Option.some.inj isString
      obtain ⟨ordered, inside⟩ := wellFormed
      show lwr + (upr - lwr) ≤ units.length
      rw [Nat.add_sub_cancel' ordered]
      exact inside
  have resolved : oldval.resolve = (oldval.resolve.1, some (.string sz units)) := by
    rw [← isString]
  unfold changeArrayLiteralLength resized StartHarmless
  rw [resolved]
  dsimp only
  generalize oldval.resolve.1 = indxlo at within ⊢
  generalize oldval.length = oldlen at within ⊢
  generalize toInteger defaultElem % 2 ^ sz.bits = x
  by_cases grows : oldlen < newlen
  · have copied : (units.take oldlen).length = oldlen := by
      rw [List.length_take]
      omega
    have aimed : ((units.drop indxlo).take oldlen).length = oldlen := by
      rw [List.length_take, List.length_drop]
      omega
    rw [if_pos grows, memcpy, if_pos (by rw [List.length_replicate]; omega),
      List.drop_replicate]
    simp only [Option.bind_eq_bind, Option.bind_some, grows, true_imp_iff]
    have same : units.take oldlen = (units.drop indxlo).take oldlen ↔
        ∀ i, i < oldlen → i < newlen → units[i]? = units[indxlo + i]? :=
      take_eq_take_drop_iff.trans
        ⟨fun all i below _ => all i below, fun all i below => all i below (by omega)⟩
    rw [← same, List.take_of_length_le (show _ ≤ newlen by rw [aimed]; omega)]
    rcases Nat.lt_trichotomy indxlo 1 with zero | one | more
    · obtain rfl := Nat.lt_one_iff.mp zero
      have filled := @fillLoop_append Nat 0 oldlen _ x (units.take oldlen) _ [0]
        (copied.trans (Nat.zero_add _).symm) (List.length_replicate (n := newlen - oldlen) (a := 0))
      have block : List.replicate (newlen + 1 - oldlen) 0 =
          List.replicate (newlen - oldlen) 0 ++ [0] := by
        rw [← List.replicate_succ', show newlen + 1 - oldlen = newlen - oldlen + 1 by omega]
      rw [block, ← List.append_assoc, filled]
      simp only [Option.bind_some, Option.some.injEq, Literal.string.injEq, true_and]
      rw [List.take_left' (by rw [List.length_append, copied, List.length_replicate]; omega),
        List.drop_zero]
      exact iff_of_true rfl ⟨rfl, Or.inl trivial⟩
    · obtain rfl := one
      have filled := @fillLoop_append Nat 1 oldlen _ x (units.take oldlen ++ [0]) _ []
        (by rw [List.length_append, copied]; exact Nat.add_comm _ _)
        (List.length_replicate (n := newlen - oldlen) (a := 0))
      have block : List.replicate (newlen + 1 - oldlen) 0 =
          [0] ++ List.replicate (newlen - oldlen) 0 ++ [] := by
        rw [List.append_nil, List.singleton_append, ← List.replicate_succ,
          show newlen + 1 - oldlen = newlen - oldlen + 1 by omega]
      rw [block, ← List.append_assoc, ← List.append_assoc, filled]
      simp only [Option.bind_some, Option.some.injEq, Literal.string.injEq, true_and]
      obtain ⟨rest, isRest⟩ : ∃ rest, newlen - oldlen = rest + 1 := ⟨newlen - oldlen - 1, by omega⟩
      have shown : (units.take oldlen ++ [0] ++ List.replicate (newlen - oldlen) x ++ []).take
          newlen = units.take oldlen ++ ([0] ++ List.replicate rest x) := by
        rw [isRest, List.replicate_succ', List.append_nil, ← List.append_assoc, List.append_assoc
          (units.take oldlen)]
        refine List.take_left' ?_
        rw [List.length_append, List.length_append, copied, List.length_replicate,
          List.length_singleton]
        omega
      rw [shown, isRest, List.replicate_succ]
      constructor
      · intro equal
        obtain ⟨first, second⟩ := List.append_inj equal (copied.trans aimed.symm)
        exact ⟨first, Or.inr (List.cons.inj second).1.symm⟩
      · rintro ⟨first, impossible | zero⟩
        · exact absurd impossible Nat.one_ne_zero
        · rw [first, zero]
          rfl
    · have beyond := fillLoop_of_lt indxlo x (newlen - oldlen) oldlen
        (units.take oldlen ++ List.replicate (newlen + 1 - oldlen) 0) (by omega) (by
          rw [List.length_append, copied, List.length_replicate]
          omega)
      rw [beyond]
      refine iff_of_false (fun impossible => (nomatch impossible)) fun harmless => ?_
      rcases harmless.2 with zero | ⟨one, -⟩ <;> omega
  · rw [if_neg grows, memcpy, if_pos (by rw [List.length_replicate]; omega),
      Nat.sub_self, Nat.sub_eq_zero_of_le (Nat.le_of_not_lt grows)]
    have copied : (units.take newlen).length = newlen := by
      rw [List.length_take]
      omega
    simp only [Option.bind_eq_bind, Option.bind_some, fillLoop, List.replicate_zero,
      List.append_nil, List.take_left' copied, List.take_take,
      Nat.min_eq_left (Nat.le_of_not_lt grows), Option.some.injEq, Literal.string.injEq, true_and]
    rw [take_eq_take_drop_iff]
    exact ⟨fun all => ⟨fun i _ below => all i below, fun impossible => absurd impossible grows⟩,
      fun all i below => all.1 i (by omega) below⟩

/-- The new array has the first elements of the old one and then default elements, and nothing is
written outside of its block, exactly where the lower bound of a slice of a string does no harm. -/
theorem changeArrayLiteralLength_iff (toInteger : Element → Nat) (defaultElem : Element)
    {oldval : OldValue Element} (wellFormed : oldval.WellFormed) (newlen : Nat) :
    changeArrayLiteralLength toInteger defaultElem oldval oldval.length newlen =
        some (resized toInteger defaultElem oldval newlen) ↔
      StartHarmless toInteger defaultElem oldval newlen := by
  rcases resolved : oldval.resolve.2 with _ | ⟨sz, units⟩ | elements
  · cases oldval with
    | null =>
      have filled := @fillLoop_append (Option Element) 0 0 newlen (some defaultElem) [] _ [] rfl
        (List.length_replicate (n := newlen) (a := none))
      rw [List.append_nil, List.append_nil, List.nil_append, List.nil_append] at filled
      refine iff_of_true ?_ trivial
      have noLength : (OldValue.null : OldValue Element).length = 0 := rfl
      unfold changeArrayLiteralLength resized
      simp only [OldValue.resolve]
      rw [if_neg (not_not_intro noLength), noLength]
      cases newlen with
      | zero => rfl
      | succ newlen =>
        rw [if_pos (Nat.succ_pos newlen), Nat.sub_zero, filled]
        rfl
    | literal e => exact nomatch resolved
    | slice e1 lwr upr => exact nomatch resolved
  · exact changeArrayLiteralLength_string_iff toInteger defaultElem wellFormed newlen resolved
  · refine iff_of_true
      (changeArrayLiteralLength_array toInteger defaultElem wellFormed newlen resolved) ?_
    unfold StartHarmless
    split
    · rename_i isString
      rw [isString] at resolved
      exact nomatch resolved
    · trivial

end Values

/-- A slice of a string from its start on grows. -/
theorem changeArrayLiteralLength_grows :
    changeArrayLiteralLength id 255 (.slice (.string .one [97, 98, 99]) 0 2) 2 4 =
      some (.string .one [97, 98, 255, 255]) :=
  (@changeArrayLiteralLength_iff Nat id 255 (.slice (.string .one [97, 98, 99]) 0 2)
    ⟨by decide, by decide⟩ 4).mpr ⟨by decide, fun _ => Or.inl rfl⟩

/-- Two units from the third on grow to three: the third is written behind the block. Two units from
the second on shrink to one: it is the first unit of the string. -/
theorem changeArrayLiteralLength_unsound :
    changeArrayLiteralLength id 255 (.slice (.string .one [97, 98, 99, 100]) 2 4) 2 3 = none ∧
      changeArrayLiteralLength id 255 (.slice (.string .one [97, 98, 99]) 1 3) 2 1 =
        some (.string .one [97]) ∧
      resized id 255 (.slice (.string .one [97, 98, 99]) 1 3) 1 = .string .one [98] := by
  decide

end LaserD.Ctfe
