/-
This file is about the placement of one member. An offset is rounded up to the
alignment in effect, a power of two, and the member is placed there if the sum of
offset, alignment and size stays below 2^32. Then no step of the computation
leaves 32 bits, and the placement is the one in exact arithmetic.
-/

import LaserD.Layout.Fields
import Mathlib.Tactic.Linarith

namespace LaserD.Layout

/-! ### Rounding up -/

/-- A reduction that changes no number of 32 bits, and no remainder by a power of two. -/
structure Reduces (u : Nat → Nat) : Prop where
  le : ∀ x, u x ≤ x
  small : ∀ {x}, x < 2 ^ 32 → u x = x
  mod : ∀ {x k}, k ≤ 32 → u x % 2 ^ k = x % 2 ^ k

theorem reduces_uint : Reduces uint where
  le := fun x => Nat.mod_le x _
  small := Nat.mod_eq_of_lt
  mod := fun {x _} bound => Nat.mod_mod_of_dvd x (Nat.pow_dvd_pow 2 bound)

theorem reduces_id : Reduces id where
  le := fun _ => le_rfl
  small := fun _ => rfl
  mod := fun _ => rfl

/-- A number is a power of two. -/
def IsPow (a : Nat) : Prop := ∃ j, a = 2 ^ j

theorem IsPow.pos {a : Nat} (pow : IsPow a) : 0 < a := by
  obtain ⟨j, rfl⟩ := pow
  exact Nat.two_pow_pos j

theorem IsPow.dvd_of_le {a b : Nat} (small : IsPow a) (large : IsPow b) (le : a ≤ b) : a ∣ b := by
  obtain ⟨i, rfl⟩ := small
  obtain ⟨j, rfl⟩ := large
  exact Nat.pow_dvd_pow 2 ((Nat.pow_le_pow_iff_right Nat.one_lt_two).1 le)

variable {u : Nat → Nat}

/-- Rounding up in 32 bits is exact when it does not leave them. -/
theorem roundUp_exact (reduces : Reduces u) {offset a : Nat} (fits : offset + a - 1 < 2 ^ 32) :
    roundUp u offset a = roundUp id offset a := by
  rw [roundUp, roundUp, reduces.small fits, id]

theorem roundUp_spec {offset a : Nat} (positive : 0 < a) :
    offset ≤ roundUp id offset a ∧ roundUp id offset a < offset + a ∧ a ∣ roundUp id offset a := by
  have division := Nat.div_add_mod (offset + a - 1) a
  have below := Nat.mod_lt (offset + a - 1) positive
  rw [Nat.mul_comm] at division
  refine ⟨?_, ?_, Nat.dvd_mul_left a _⟩
  · show offset ≤ (offset + a - 1) / a * a
    omega
  · show (offset + a - 1) / a * a < offset + a
    omega

/-- The alignment in effect is a power of two. -/
theorem isPow_actualAlignment (alignment : StructAlign) {a : Nat} (pow : IsPow a) :
    IsPow (actualAlignment alignment a) := by
  cases alignment with
  | default => exact pow
  | pack log =>
    rw [actualAlignment]
    split
    · exact pow
    · exact ⟨log, rfl⟩
  | explicit log => exact ⟨log, rfl⟩

/-- An offset is rounded up to the alignment in effect. -/
theorem alignmember_eq (reduces : Reduces u) (alignment : StructAlign) (a : Nat) {offset : Nat}
    (fits : offset < 2 ^ 32) :
    alignmember u alignment a offset = roundUp u offset (actualAlignment alignment a) := by
  cases alignment with
  | default => rfl
  | pack log => rfl
  | explicit log =>
    rw [alignmember, actualAlignment]
    by_cases large : 2 ^ log > 1
    · rw [if_pos large]
    · have one : 2 ^ log = 1 := Nat.le_antisymm (Nat.not_lt.1 large) (Nat.two_pow_pos log)
      rw [if_neg large, one, roundUp, Nat.add_sub_cancel, Nat.div_one, Nat.mul_one,
        reduces.small fits]

/-- What a placement is: the next multiple of the alignment in effect, with room for the
member. -/
structure Places (next size a aggsize aggalign : Nat) (isunion : Bool) (placed : Placement) :
    Prop where
  low : next ≤ placed.memoffset
  high : placed.memoffset < next + a
  room : placed.memoffset + size < 2 ^ 32
  aligned : a ∣ placed.memoffset
  next_eq : placed.nextoffset = if isunion then next else placed.memoffset + size
  aggsize_eq : placed.aggsize = max aggsize (placed.memoffset + size)
  aggalign_eq : placed.aggalignsize = max aggalign a

/-- `placeField` places the member, as in exact arithmetic, or it is an error. -/
theorem placeField_spec (reduces : Reduces u) {next size a aggsize aggalign : Nat} {alignment : StructAlign}
    {isunion : Bool} {placed : Placement} (pow : IsPow a)
    (returned : placeField u next size a alignment aggsize aggalign isunion = some placed) :
    Places next size (actualAlignment alignment a) aggsize aggalign isunion placed ∧
      placeField id next size a alignment aggsize aggalign isunion = some placed := by
  have positive := (isPow_actualAlignment alignment pow).pos
  by_cases fits : size + actualAlignment alignment a + next < 2 ^ 32
  · have small : next < 2 ^ 32 := by omega
    obtain ⟨low, high, dvd⟩ := @roundUp_spec next _ positive
    have exactOffset : alignmember u alignment a next =
        roundUp id next (actualAlignment alignment a) := by
      rw [alignmember_eq reduces alignment a small, roundUp_exact reduces (by omega)]
    have exactId : alignmember id alignment a next =
        roundUp id next (actualAlignment alignment a) :=
      alignmember_eq reduces_id alignment a small
    have room : roundUp id next (actualAlignment alignment a) + size < 2 ^ 32 := by omega
    have result : placeField u next size a alignment aggsize aggalign isunion =
        placeField id next size a alignment aggsize aggalign isunion := by
      simp only [placeField, if_pos fits, exactOffset, exactId, reduces.small room, id]
    rw [← result, returned]
    refine ⟨?_, rfl⟩
    simp only [placeField, if_pos fits, exactOffset, reduces.small room] at returned
    obtain rfl := Option.some.inj returned
    refine ⟨low, high, room, dvd, ?_, ?_, ?_⟩
    · cases isunion <;> rfl
    · dsimp only
      split <;> omega
    · dsimp only
      split <;> omega
  · rw [placeField, if_neg fits] at returned
    exact absurd returned nofun

end LaserD.Layout
