/-
This file proves what the copies that `fixside` makes evaluate to.

A temporary is a cell of memory of its own. Two states are compared but for such cells,
and a tree that ignores them evaluates the same in both. Every copy of a container then
finds it at the same address, as long as only the other temporary is written between them.
-/

import LaserD.Cgelem.BitField
import LaserD.Cgelem.Pure

namespace LaserD.Cgelem

section Copies

variable {World : Type} {env : Environment World}

/-! ### States that differ in some cells -/

/-- The same world, and the same contents but for those of some cells. -/
structure SameBut (cells : List Nat) (before after : State World) : Prop where
  world : after.world = before.world
  contents : ∀ address ∉ cells, after.cells address = before.cells address

namespace SameBut

variable {cells : List Nat} {before middle after : State World}

theorem refl (cells : List Nat) (state : State World) : SameBut cells state state :=
  ⟨rfl, fun _ _ => rfl⟩

theorem trans (first : SameBut cells before middle) (second : SameBut cells middle after) :
    SameBut cells before after :=
  ⟨second.world.trans first.world,
    fun address outside => (second.contents address outside).trans (first.contents address outside)⟩

theorem mono {more : List Nat} (same : SameBut cells before after) (within : cells ⊆ more) :
    SameBut more before after :=
  ⟨same.world, fun address outside => same.contents address fun inside => outside (within inside)⟩

theorem read (same : SameBut cells before after) (size : Size) {address : Nat}
    (outside : address ∉ cells) : after.read size address = before.read size address := by
  unfold State.read
  rw [same.contents address outside]

/-- A store into one of the cells. -/
theorem write_inside (state : State World) (size : Size) {address : Nat} (inside : address ∈ cells)
    (value : Nat) : SameBut cells state (state.write size address value) := by
  refine ⟨rfl, fun other outside => ?_⟩
  have apart : other ≠ address := fun same => outside (same ▸ inside)
  exact Function.update_of_ne apart _ _

/-- The same store into another cell. -/
theorem write (same : SameBut cells before after) (size : Size) {address : Nat}
    (outside : address ∉ cells) (value : Nat) :
    SameBut cells (before.write size address value) (after.write size address value) := by
  refine ⟨same.world, fun other otherOutside => ?_⟩
  unfold State.write State.read
  dsimp only
  by_cases here : other = address
  · rw [here, Function.update_self, Function.update_self, same.contents address outside]
  · rw [Function.update_of_ne here, Function.update_of_ne here, same.contents other otherOutside]

end SameBut

/-! ### Evaluation, part by part -/

section Parts

variable {E1 E2 : Tree} {state middle after : State World} {x y z : Nat}

theorem run_arith_some {op : Arithmetic} {Ety : Ty} (first : run env E1 state = some (x, middle))
    (second : run env E2 middle = some (y, after))
    (computes : arithmetic op E1.size (E1.uns || E2.uns) x y = some z) :
    run env (.bin (.arith op) Ety E1 E2) state = some (low Ety.size z, after) := by
  simp only [run, first, second, computes, Option.bind_eq_bind, Option.bind_some]

theorem run_comma_some {Ety : Ty} (first : run env E1 state = some (x, middle))
    (second : run env E2 middle = some (y, after)) :
    run env (.bin .comma Ety E1 E2) state = some (low Ety.size y, after) := by
  simp only [run, first, second, Option.bind_eq_bind, Option.bind_some]

theorem run_eq_some {Ety : Ty} {address : Nat} (right : run env E2 state = some (y, middle))
    (left : place env E1 middle = some (address, after)) :
    run env (.bin .eq Ety E1 E2) state = some (assign Ety E1 address y after) := by
  simp only [run, right, left, Option.bind_eq_bind, Option.bind_some]

end Parts

/-! ### Containers -/

/-- A variable or an indirection. -/
def isContainer : Tree → Bool
  | .leaf _ _ => true
  | .una .ind _ _ => true
  | _ => false

section Containers

variable {l : Tree} (container : isContainer l = true)

include container

theorem fetch_container (address : Nat) (state : State World) :
    fetch l address state = state.read l.size address := by
  cases l with
  | bin op Ety E1 E2 => cases container
  | _ => rfl

theorem store_container (address value : Nat) (state : State World) :
    store l address value state = state.write l.size address value := by
  cases l with
  | bin op Ety E1 E2 => cases container
  | _ => rfl

/-- A container evaluates to what is at its place. -/
theorem run_container {state after : State World} {address : Nat}
    (found : place env l state = some (address, after)) :
    run env l state = some (after.read l.size address, after) := by
  cases l with
  | leaf Ety symbol =>
    rw [place] at found
    obtain ⟨rfl, rfl⟩ := Prod.mk.inj (Option.some.inj found)
    rw [run]
    rfl
  | una op Ety E1 =>
    cases op
    case ind =>
      rw [place] at found
      simp only [run, found, Option.bind_eq_bind, Option.bind_some]
      exact congrArg (fun v => some (v, after)) (low_low _ _)
    all_goals cases container
  | _ => cases container

theorem assign_container {Ety : Ty} (same : Ety.size = l.size) (address value : Nat)
    (state : State World) :
    assign Ety l address value state =
      (low l.size value, state.write l.size address value) := by
  unfold assign
  dsimp only
  rw [store_container container, fetch_container container, State.read_write, same, low_low]

end Containers

/-! ### Temporaries -/

theorem run_saved {e : Tree} {state after : State World} {x : Nat} (tmp : Nat)
    (runs : run env e state = some (x, after)) :
    run env (saved tmp e) state = some (x, after.write e.size (env.address tmp) x) := by
  have stored : run env (saved tmp e) state =
      some (assign e.ty (.leaf e.ty tmp) (env.address tmp) x after) := run_eq_some runs rfl
  have kept := @assign_container World (.leaf e.ty tmp) rfl e.ty rfl (env.address tmp) x after
  rw [stored, kept]
  show some (low e.size x, _) = _
  rw [low_of_lt (run_lt runs)]
  rfl

theorem run_temporary (tmp : Nat) (e : Tree) (state : State World) :
    run env (temporary tmp e) state = some (state.read e.size (env.address tmp), state) := by
  rw [temporary, run]
  rfl

/-- The copies of a container: twice the container itself, or an indirection through an address that
the first copy saves. -/
def Copied (tmp : Nat) (l first again : Tree) : Prop :=
  first = l ∧ again = l ∨
    ∃ Ety E1, l = .una .ind Ety E1 ∧ first = .una .ind Ety (saved tmp E1) ∧
      again = .una .ind Ety (temporary tmp E1)

theorem copied_copies {l : Tree} (container : isContainer l = true) (tmp : Nat) :
    Copied tmp l (copies tmp l).1 (copies tmp l).2 := by
  cases l with
  | leaf Ety symbol => exact Or.inl ⟨rfl, rfl⟩
  | una op Ety E1 =>
    cases op
    case ind =>
      simp only [copies]
      split_ifs
      · exact Or.inl ⟨rfl, rfl⟩
      · exact Or.inr ⟨Ety, E1, rfl, rfl, rfl⟩
    all_goals cases container
  | _ => cases container

theorem copied_signedCopies {l : Tree} (container : isContainer l = true) (tmp : Nat) :
    Copied tmp l (signedCopies tmp l).1 (signedCopies tmp l).2 := by
  cases l with
  | leaf Ety symbol => exact Or.inl ⟨rfl, rfl⟩
  | una op Ety E1 =>
    cases op
    case ind => exact Or.inr ⟨Ety, E1, rfl, rfl, rfl⟩
    all_goals cases container
  | _ => cases container

/-- The cells of the two temporaries. -/
def temporaries (env : Environment World) (tmp1 tmp2 : Nat) : List Nat :=
  [env.address tmp1, env.address tmp2]

/-- A container at an address, whatever the temporaries hold, and the temporaries apart from each
other and from it. -/
structure Located (env : Environment World) (tmp1 tmp2 : Nat) (state : State World) (l : Tree)
    (address : Nat) : Prop where
  container : isContainer l = true
  apart : env.address tmp1 ≠ env.address tmp2
  outside : address ∉ temporaries env tmp1 tmp2
  found : ∀ after, SameBut (temporaries env tmp1 tmp2) state after →
    place env l after = some (address, after)

/-- A tree with a value and no effect, whatever the temporaries hold. -/
def Operand (env : Environment World) (tmp1 tmp2 : Nat) (state : State World) (r : Tree)
    (x : Nat) : Prop :=
  ∀ after, SameBut (temporaries env tmp1 tmp2) state after → run env r after = some (x, after)

section Located

variable {tmp1 tmp2 : Nat} {state before : State World} {l first again : Tree} {address : Nat}

theorem first_within : [env.address tmp1] ⊆ temporaries env tmp1 tmp2 := by
  simp [temporaries]

theorem second_within : [env.address tmp2] ⊆ temporaries env tmp1 tmp2 := by
  simp [temporaries]

/-- The first copy finds the container, and so do the others as long as the saved address is not
written. -/
theorem Copied.place (copied : Copied tmp1 l first again)
    (located : Located env tmp1 tmp2 state l address)
    (same : SameBut (temporaries env tmp1 tmp2) state before) :
    ∃ after, SameBut [env.address tmp1] before after ∧
      place env first before = some (address, after) ∧
      ∀ later, SameBut [env.address tmp2] after later →
        place env again later = some (address, later) := by
  rcases copied with ⟨rfl, rfl⟩ | ⟨Ety, E1, rfl, rfl, rfl⟩
  · refine ⟨before, SameBut.refl _ _, located.found before same, fun later same' => ?_⟩
    exact located.found later (same.trans (same'.mono second_within))
  · have runs : run env E1 before = some (address, before) := by
      have found := located.found before same
      rwa [Cgelem.place] at found
    refine ⟨before.write E1.size (env.address tmp1) address,
      SameBut.write_inside _ _ (List.mem_singleton_self _) _, ?_, fun later same' => ?_⟩
    · rw [Cgelem.place]
      exact run_saved tmp1 runs
    · have other : env.address tmp1 ∉ [env.address tmp2] := by
        rw [List.mem_singleton]
        exact located.apart
      rw [Cgelem.place, run_temporary, same'.read E1.size other, State.read_write,
        low_of_lt (run_lt runs)]

theorem Copied.container (copied : Copied tmp1 l first again) (container : isContainer l = true) :
    isContainer first = true ∧ isContainer again = true := by
  rcases copied with ⟨rfl, rfl⟩ | ⟨Ety, E1, rfl, rfl, rfl⟩
  · exact ⟨container, container⟩
  · exact ⟨rfl, rfl⟩

theorem Copied.ty (copied : Copied tmp1 l first again) : first.ty = l.ty ∧ again.ty = l.ty := by
  rcases copied with ⟨rfl, rfl⟩ | ⟨Ety, E1, rfl, rfl, rfl⟩ <;> exact ⟨rfl, rfl⟩

end Located

end Copies

end LaserD.Cgelem
