/-
This file is about overwriting a stretch of a list: `overwrite stored position
values` holds `values` from `position` on and agrees with `stored` elsewhere.
Storing one element, filling a stretch, copying a stretch and appending behind
the used part of a buffer are all of this form.
-/

import Mathlib.Data.List.Range

namespace Overwrite

variable {T : Type}

/-- The list with the elements from a position on replaced. -/
def overwrite (stored : List T) (position : Nat) (values : List T) : List T :=
  stored.take position ++ values ++ stored.drop (position + values.length)

/-- The elements of an initial stretch of a function. -/
theorem getElem?_map_range (cells : Nat → T) (count index : Nat) :
    ((List.range count).map cells)[index]? = if index < count then some (cells index) else none := by
  rw [List.getElem?_map]
  by_cases inside : index < count
  · rw [List.getElem?_range inside, if_pos inside, Option.map_some]
  · rw [List.getElem?_eq_none (by simpa using inside), if_neg inside, Option.map_none]

theorem getElem?_overwrite {stored : List T} {position : Nat} {values : List T}
    (fits : position + values.length ≤ stored.length) (index : Nat) :
    (overwrite stored position values)[index]? =
      if position ≤ index ∧ index < position + values.length then values[index - position]?
      else stored[index]? := by
  unfold overwrite
  simp only [List.getElem?_append, List.getElem?_take, List.getElem?_drop, List.length_take,
    List.length_append]
  grind

theorem length_overwrite {stored : List T} {position : Nat} {values : List T}
    (fits : position + values.length ≤ stored.length) :
    (overwrite stored position values).length = stored.length := by
  unfold overwrite
  simp only [List.length_append, List.length_take, List.length_drop]
  omega

theorem overwrite_nil (stored : List T) (position : Nat) :
    overwrite stored position [] = stored := by
  unfold overwrite
  rw [List.append_nil, List.length_nil, Nat.add_zero, List.take_append_drop]

/-- A stretch is overwritten element by element. -/
theorem overwrite_cons {stored : List T} {position : Nat} {value : T} {values : List T}
    (fits : position + (values.length + 1) ≤ stored.length) :
    overwrite (overwrite stored position [value]) (position + 1) values =
      overwrite stored position (value :: values) := by
  have one : position + [value].length ≤ stored.length := by
    rw [List.length_singleton]
    omega
  have rest : position + 1 + values.length ≤ (overwrite stored position [value]).length := by
    rw [length_overwrite one]
    omega
  refine List.ext_getElem? fun index => ?_
  rw [getElem?_overwrite rest, getElem?_overwrite one,
    getElem?_overwrite (by rw [List.length_cons]; exact fits)]
  simp only [List.length_cons, List.length_nil, List.getElem?_cons]
  grind

/-- What lies before the end of the stretch. -/
theorem take_overwrite {stored : List T} {position : Nat} {values : List T}
    (fits : position + values.length ≤ stored.length) :
    (overwrite stored position values).take (position + values.length) =
      stored.take position ++ values := by
  unfold overwrite
  refine List.take_left' ?_
  rw [List.length_append, List.length_take]
  omega

/-- What lies before the stretch. -/
theorem take_overwrite_of_le {stored : List T} {position count : Nat} {values : List T}
    (fits : position + values.length ≤ stored.length) (before : count ≤ position) :
    (overwrite stored position values).take count = stored.take count := by
  unfold overwrite
  rw [List.append_assoc, List.take_append_of_le_length, List.take_take, Nat.min_eq_left before]
  rw [List.length_take]
  omega

/-- Overwriting inside an initial part is overwriting that part. -/
theorem take_overwrite_of_ge {stored : List T} {position count : Nat} {values : List T}
    (fits : position + values.length ≤ count) (inside : count ≤ stored.length) :
    (overwrite stored position values).take count = overwrite (stored.take count) position values := by
  refine List.ext_getElem? fun index => ?_
  rw [List.getElem?_take, getElem?_overwrite (fits.trans inside), getElem?_overwrite
    (by rw [List.length_take]; omega), List.getElem?_take]
  grind

theorem overwrite_singleton {stored : List T} {position : Nat} {value : T}
    (inside : position < stored.length) :
    overwrite stored position [value] = stored.set position value := by
  unfold overwrite
  rw [List.set_eq_take_append_cons_drop, if_pos inside, List.append_assoc]
  rfl

/-- Shifting a tail by one and storing an element in the gap inserts it. -/
theorem take_overwrite_shift {stored : List T} {position used : Nat} {value : T}
    (inside : position ≤ used) (room : used < stored.length) :
    (overwrite (overwrite stored (position + 1) ((stored.drop position).take (used - position)))
        position [value]).take (used + 1) =
      (stored.take used).take position ++ value :: (stored.take used).drop position := by
  have shifted : position + 1 + ((stored.drop position).take (used - position)).length ≤
      stored.length := by
    rw [List.length_take, List.length_drop]
    omega
  refine List.ext_getElem? fun index => ?_
  rw [List.getElem?_take, getElem?_overwrite (by
    rw [length_overwrite shifted, List.length_singleton]
    omega), getElem?_overwrite shifted]
  simp only [List.getElem?_append, List.getElem?_take, List.getElem?_drop, List.getElem?_cons,
    List.length_take, List.length_drop, List.length_singleton]
  grind

/-- Moving a tail forward removes what lay between. -/
theorem take_overwrite_remove {stored : List T} {first pastLast used : Nat}
    (ordered : first ≤ pastLast) (inside : pastLast ≤ used) (room : used ≤ stored.length) :
    (overwrite stored first ((stored.drop pastLast).take (used - pastLast))).take
        (used - (pastLast - first)) =
      (stored.take used).take first ++ (stored.take used).drop pastLast := by
  have moved : first + ((stored.drop pastLast).take (used - pastLast)).length ≤
      stored.length := by
    rw [List.length_take, List.length_drop]
    omega
  refine List.ext_getElem? fun index => ?_
  rw [List.getElem?_take, getElem?_overwrite moved]
  simp only [List.getElem?_append, List.getElem?_take, List.getElem?_drop, List.length_take,
    List.length_drop]
  grind

/-- Storing an element and removing what follows it up to a position. -/
theorem set_take_append_drop {xs : List T} {first pastLast : Nat} {value : T}
    (inside : first < xs.length) (ordered : first < pastLast) :
    (xs.set first value).take (first + 1) ++ (xs.set first value).drop pastLast =
      xs.take first ++ value :: xs.drop pastLast := by
  refine List.ext_getElem? fun index => ?_
  simp only [List.getElem?_append, List.getElem?_take, List.getElem?_drop, List.getElem?_set,
    List.getElem?_cons, List.length_take, List.length_set]
  grind

end Overwrite
