/-
This file is about association lists in the order of insertion: a list of keys and
values in which no two keys are the same. What it means for keys to be the same is a
parameter.

Putting a value in place keeps the positions and the keys of the others, a new key goes
behind all of them, and removing one keeps the order of the rest.
-/

import Mathlib.Data.List.Basic

namespace AssociationList

variable {κ ν : Type} (same : κ → κ → Bool)

/-- The first element whose key is the same. -/
def find (key : κ) (elements : List (κ × ν)) : Option (κ × ν) :=
  elements.find? fun element => same key element.1

/-- Put a key and a value in the place of the same key. -/
def replace (key stored : κ) (value : ν) (elements : List (κ × ν)) : List (κ × ν) :=
  elements.map fun element => if same key element.1 then (stored, value) else element

/-- Put a value in the place of the same key, which stays as it is stored. -/
def assign (key : κ) (value : ν) (elements : List (κ × ν)) : List (κ × ν) :=
  elements.map fun element => if same key element.1 then (element.1, value) else element

/-- Remove the same key. -/
def erase (key : κ) (elements : List (κ × ν)) : List (κ × ν) :=
  elements.filter fun element => !same key element.1

/-- Assign to the same key, or append a new one. -/
def insert (key stored : κ) (value : ν) (elements : List (κ × ν)) : List (κ × ν) :=
  if (find same key elements).isSome then assign same key value elements
  else elements ++ [(stored, value)]

/-- No two keys are the same. -/
def Distinct (elements : List (κ × ν)) : Prop :=
  elements.Pairwise fun first second => same first.1 second.1 = false

variable {same}

theorem find_eq_none {key : κ} {elements : List (κ × ν)} :
    find same key elements = none ↔ ∀ element ∈ elements, same key element.1 = false := by
  unfold find
  rw [List.find?_eq_none]
  refine forall₂_congr fun element _ => ?_
  rw [Bool.not_eq_true]

/-- The only element with the same key is found. -/
theorem find_eq_some {key : κ} {elements : List (κ × ν)} {element : κ × ν}
    (member : element ∈ elements) (equal : same key element.1 = true)
    (only : ∀ other ∈ elements, same key other.1 = true → other = element) :
    find same key elements = some element := by
  cases found : find same key elements with
  | none =>
    have differs := find_eq_none.mp found element member
    rw [equal] at differs
    exact absurd differs (by decide)
  | some other =>
    have otherEqual := List.find?_some (p := fun element : κ × ν => same key element.1) found
    rw [only other (List.mem_of_find?_eq_some found) otherEqual]

/-- The first key is found first. -/
theorem find_head {key : κ} {value : ν} {rest : List (κ × ν)} (equal : same key key = true) :
    find same key ((key, value) :: rest) = some (key, value) := by
  unfold find
  rw [List.find?_cons, equal]

/-- Removing the first key leaves the rest. -/
theorem erase_head {element : κ × ν} {rest : List (κ × ν)} (equal : same element.1 element.1 = true)
    (distinct : Distinct same (element :: rest)) : erase same element.1 (element :: rest) = rest := by
  unfold erase
  rw [List.filter_cons, equal, if_neg (by decide), List.filter_eq_self]
  intro other member
  rw [(List.pairwise_cons.mp distinct).1 other member]
  rfl

/-- An insertion keeps the keys, or puts a new one behind them. -/
theorem insert_keys (key stored : κ) (value : ν) (elements : List (κ × ν)) :
    ∃ added, (insert same key stored value elements).map Prod.fst =
      elements.map Prod.fst ++ added := by
  unfold insert
  by_cases present : (find same key elements).isSome = true
  · rw [if_pos present]
    refine ⟨[], ?_⟩
    unfold assign
    rw [List.map_map, List.append_nil]
    refine List.map_congr_left fun element _ => ?_
    rw [Function.comp_apply]
    by_cases equal : same key element.1 = true
    · rw [if_pos equal]
    · rw [if_neg equal]
  · rw [if_neg present]
    exact ⟨[stored], by rw [List.map_append, List.map_singleton]⟩

end AssociationList
