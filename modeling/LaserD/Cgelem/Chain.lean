/-
This file proves how chains of logical operators are evaluated.

Trees that match evaluate alike, as values and as places. A chain of `||` or `&&`
evaluates the operands it is flattened to from left to right until one decides, and so
does every tree that they are combined to.
-/

import LaserD.Cgelem.Logical
import LaserD.Cgelem.Truth

namespace LaserD.Cgelem

section Sound

variable {World : Type} {env : Environment World}

/-! ### Trees that match -/

/-- Trees that evaluate alike, as values and as places. -/
structure Alike (env : Environment World) (e e' : Tree) : Prop where
  ty : e.ty = e'.ty
  runs : run env e = run env e'
  places : place env e = place env e'
  fetches : @fetch World e = fetch e'
  stores : @store World e = store e'

theorem Alike.size {e e' : Tree} (alike : Alike env e e') : e.size = e'.size :=
  congrArg Ty.size alike.ty

theorem Alike.uns {e e' : Tree} (alike : Alike env e e') : e.uns = e'.uns :=
  congrArg Ty.isUnsigned alike.ty

theorem Alike.assigns {e e' : Tree} (alike : Alike env e e') (Ety : Ty) :
    @assign World Ety e = assign Ety e' := by
  funext address value state
  simp only [assign, alike.stores, alike.fetches]

/-- The lower four bytes of two constants that match. -/
theorem setWidth_eq {c c' : BitVec 64} (same : low .long c.toNat = low .long c'.toNat) :
    c.setWidth 32 = c'.setWidth 32 := by
  rw [low_eq_toNat, low_eq_toNat] at same
  exact BitVec.eq_of_toNat_eq same

theorem sideEffect_of_elMatch (e : Tree) :
    ∀ e', elMatch e e' = true → sideEffect e = sideEffect e' := by
  induction e with
  | leaf Ety symbol =>
    intro e' same
    cases e' with
    | leaf Ety' symbol' => rfl
    | _ => cases same
  | const Ety c =>
    intro e' same
    cases e' with
    | const Ety' c' => rfl
    | _ => cases same
  | other Ety code =>
    intro e' same
    cases e' with
    | other Ety' code' => rfl
    | _ => cases same
  | una Eoper Ety E1 inductionHypothesis =>
    intro e' same
    cases e' with
    | una Eoper' Ety' E1' =>
      simp only [elMatch, Bool.and_eq_true] at same
      exact inductionHypothesis E1' same.2
    | _ => cases same
  | bin Eoper Ety E1 E2 first second =>
    intro e' same
    cases e' with
    | bin Eoper' Ety' E1' E2' =>
      simp only [elMatch, Bool.and_eq_true, decide_eq_true_eq] at same
      obtain ⟨⟨⟨rfl, -⟩, right⟩, left⟩ := same
      rw [sideEffect, sideEffect, first E1' left, second E2' right]
    | _ => cases same

/-- Bit fields of places that are alike, of the same width and offset. -/
theorem alike_bit {Ety : Ty} {E1 E1' E2 E2' : Tree} (left : Alike env E1 E1')
    (right : elMatch E2 E2' = true) (word : E2.size = .long) :
    @fetch World (.bin .bit Ety E1 E2) = fetch (.bin .bit Ety E1' E2') ∧
      @store World (.bin .bit Ety E1 E2) = store (.bin .bit Ety E1' E2') := by
  cases E2 with
  | const ty wb =>
    cases E2' with
    | const ty' wb' =>
      simp only [elMatch, Bool.and_eq_true, decide_eq_true_eq, beq_iff_eq] at right
      obtain ⟨rfl, same⟩ := right
      rw [show ty.size = .long from word] at same
      have lower := setWidth_eq same
      constructor
      · funext address state
        simp only [fetch, fieldWidth, fieldOffset, lower, left.ty, left.size]
      · funext address value state
        simp only [store, fieldWidth, fieldOffset, lower, left.size]
    | _ => cases right
  | _ =>
    cases E2' with
    | const => cases right
    | _ => exact ⟨rfl, rfl⟩

theorem alike_of_elMatch (e : Tree) : ∀ e', elMatch e e' = true → WellFormed e → WellFormed e' →
    Alike env e e' := by
  induction e with
  | leaf Ety symbol =>
    intro e' same _ _
    unfold elMatch at same
    cases e' with
    | leaf Ety' symbol' =>
      simp only [Bool.and_eq_true, decide_eq_true_eq, beq_iff_eq] at same
      obtain ⟨rfl, rfl⟩ := same
      exact ⟨rfl, rfl, rfl, rfl, rfl⟩
    | _ => cases same
  | const Ety c =>
    intro e' same _ _
    unfold elMatch at same
    cases e' with
    | const Ety' c' =>
      simp only [Bool.and_eq_true, decide_eq_true_eq, beq_iff_eq] at same
      obtain ⟨rfl, same⟩ := same
      refine ⟨rfl, ?_, rfl, rfl, rfl⟩
      funext state
      rw [run, run, same]
    | _ => cases same
  | other Ety code =>
    intro e' same _ _
    unfold elMatch at same
    cases e' with
    | other Ety' code' =>
      simp only [Bool.and_eq_true, decide_eq_true_eq, beq_iff_eq] at same
      obtain ⟨rfl, rfl⟩ := same
      exact ⟨rfl, rfl, rfl, rfl, rfl⟩
    | _ => cases same
  | una Eoper Ety E1 inductionHypothesis =>
    intro e' same formed formed'
    unfold elMatch at same
    cases e' with
    | una Eoper' Ety' E1' =>
      simp only [Bool.and_eq_true, decide_eq_true_eq] at same
      obtain ⟨⟨rfl, rfl⟩, same⟩ := same
      have operand := inductionHypothesis E1' same formed.1 formed'.1
      refine ⟨rfl, ?_, ?_, rfl, rfl⟩
      · funext state
        rw [run, run, operand.runs, operand.size]
      · funext state
        cases Eoper <;> simp only [place, operand.runs]
    | _ => cases same
  | bin Eoper Ety E1 E2 first second =>
    intro e' same formed formed'
    unfold elMatch at same
    cases e' with
    | bin Eoper' Ety' E1' E2' =>
      simp only [Bool.and_eq_true, decide_eq_true_eq] at same
      obtain ⟨⟨⟨rfl, rfl⟩, right⟩, left⟩ := same
      have leftAlike := first E1' left formed.1 formed'.1
      have rightAlike := second E2' right formed.2.1 formed'.2.1
      have fields : Eoper = .bit →
          @fetch World (.bin Eoper Ety E1 E2) = fetch (.bin Eoper Ety E1' E2') ∧
            @store World (.bin Eoper Ety E1 E2) = store (.bin Eoper Ety E1' E2') := by
        rintro rfl
        exact alike_bit leftAlike right formed.2.2.2
      refine ⟨rfl, ?_, ?_, ?_, ?_⟩
      · funext state
        cases Eoper
        case bit =>
          rw [run, run, leftAlike.places, (fields rfl).1]
        all_goals simp only [run, leftAlike.runs, leftAlike.places, leftAlike.fetches,
          leftAlike.stores, leftAlike.assigns, leftAlike.size, leftAlike.uns, rightAlike.runs,
          rightAlike.uns]
      · funext state
        cases Eoper <;> simp only [place, leftAlike.places]
      · cases Eoper
        case bit => exact (fields rfl).1
        all_goals rfl
      · cases Eoper
        case bit => exact (fields rfl).2
        all_goals rfl
    | _ => cases same

/-! ### Chains -/

/-- The evaluation of a tree for its truth value. -/
def truthRun (env : Environment World) (e : Tree) (state : State World) :
    Option (Nat × State World) :=
  (run env e state).map fun result => (ofBool (result.1 ≠ 0), result.2)

/-- The evaluation of the operands of a chain of `||` or `&&`, from left to right until one
decides. -/
def chain (env : Environment World) (isOr : Bool) :
    List Tree → State World → Option (Nat × State World)
  | [], state => some (ofBool (!isOr), state)
  | e :: rest, state =>
    (run env e state).bind fun result =>
      if decide (result.1 ≠ 0) = isOr then some (ofBool isOr, result.2)
      else chain env isOr rest result.2

/-- A chain after another one. -/
def andThen (isOr : Bool) (first : Option (Nat × State World))
    (next : State World → Option (Nat × State World)) : Option (Nat × State World) :=
  first.bind fun result => if result.1 = ofBool isOr then some result else next result.2

theorem chain_append (isOr : Bool) (before after : List Tree) (state : State World) :
    chain env isOr (before ++ after) state =
      andThen isOr (chain env isOr before state) (chain env isOr after) := by
  induction before generalizing state with
  | nil =>
    show _ = if ofBool (!isOr) = ofBool isOr then _ else chain env isOr after state
    rw [if_neg (by cases isOr <;> decide)]
    rfl
  | cons e rest inductionHypothesis =>
    rw [List.cons_append, chain, chain]
    cases run env e state with
    | none => rfl
    | some result =>
      show (if decide (result.1 ≠ 0) = isOr then _ else chain env isOr (rest ++ after) result.2) =
        andThen isOr (if decide (result.1 ≠ 0) = isOr then _ else chain env isOr rest result.2) _
      split_ifs
      · exact (if_pos rfl).symm
      · exact inductionHypothesis result.2

theorem chain_singleton (isOr : Bool) (e : Tree) (state : State World) :
    chain env isOr [e] state = truthRun env e state := by
  rw [chain, truthRun]
  cases run env e state with
  | none => rfl
  | some result =>
    show (if decide (result.1 ≠ 0) = isOr then some (ofBool isOr, result.2)
      else some (ofBool (!isOr), result.2)) = some (ofBool (decide (result.1 ≠ 0)), result.2)
    cases decide (result.1 ≠ 0) <;> cases isOr <;> rfl

/-- The operator of a chain. -/
def logical (isOr : Bool) : Binary := if isOr then .oror else .andand

/-- A chain of two operands. -/
theorem run_logical (isOr : Bool) (ty : Ty) (E1 E2 : Tree) (state : State World) :
    run env (.bin (logical isOr) ty E1 E2) state =
      andThen isOr (truthRun env E1 state) (truthRun env E2) := by
  have second (state : State World) :
      ((run env E2 state).bind fun result => some (ofBool (result.1 ≠ 0), result.2)) =
        truthRun env E2 state := by
    rw [truthRun]
    cases run env E2 state <;> rfl
  cases isOr with
  | false =>
    rw [logical, if_neg Bool.false_ne_true, run, truthRun]
    cases run env E1 state with
    | none => rfl
    | some result =>
      show (if result.1 = 0 then some (0, result.2) else _) =
        if ofBool (decide (result.1 ≠ 0)) = 0 then some (ofBool (decide (result.1 ≠ 0)), result.2)
        else truthRun env E2 result.2
      by_cases zero : result.1 = 0
      · rw [if_pos zero, zero]
        rfl
      · rw [if_neg zero, if_neg (by rw [decide_eq_true zero]; decide), ← second]
        rfl
  | true =>
    rw [logical, if_pos rfl, run, truthRun]
    cases run env E1 state with
    | none => rfl
    | some result =>
      show (if result.1 ≠ 0 then some (1, result.2) else _) =
        if ofBool (decide (result.1 ≠ 0)) = 1 then some (ofBool (decide (result.1 ≠ 0)), result.2)
        else truthRun env E2 result.2
      by_cases zero : result.1 = 0
      · rw [if_neg (not_not.mpr zero), zero, ← second]
        rfl
      · rw [if_pos zero, decide_eq_true zero]
        rfl

theorem truthRun_logical (isOr : Bool) (ty : Ty) (E1 E2 : Tree) (state : State World) :
    truthRun env (.bin (logical isOr) ty E1 E2) state =
      run env (.bin (logical isOr) ty E1 E2) state := by
  rw [truthRun, run_logical]
  have ofTruth (e : Tree) (state : State World) :
      (truthRun env e state).map (fun result => (ofBool (result.1 ≠ 0), result.2)) =
        truthRun env e state := by
    rw [truthRun]
    cases run env e state with
    | none => rfl
    | some result =>
      refine congrArg (fun v => some (v, result.2)) ?_
      show ofBool (decide (ofBool (decide (result.1 ≠ 0)) ≠ 0)) = ofBool (decide (result.1 ≠ 0))
      cases decide (result.1 ≠ 0) <;> rfl
  have first := ofTruth E1 state
  cases truth : truthRun env E1 state with
  | none => rfl
  | some result =>
    rw [truth] at first
    show (if result.1 = ofBool isOr then some result else truthRun env E2 result.2).map _ =
      if result.1 = ofBool isOr then some result else truthRun env E2 result.2
    split_ifs
    · exact first
    · exact ofTruth E2 result.2

/-- A tree is the chain of the operands that it is flattened to. -/
theorem chain_opArray (isOr : Bool) (e : Tree) (state : State World) :
    chain env isOr (opArray (logical isOr) e) state = truthRun env e state := by
  induction e generalizing state with
  | bin Eoper Ety E1 E2 first second =>
    rw [opArray]
    split_ifs with same
    · subst same
      rw [chain_append, first, truthRun_logical, run_logical]
      congr 1
      funext state
      exact second state
    · exact chain_singleton isOr _ state
  | _ => exact chain_singleton isOr _ state

/-- The tree that operands are combined to is their chain. -/
theorem truthRun_opCombine {isOr : Bool} {ty : Ty} {array : List Tree} {t : Tree}
    (combined : opCombine (logical isOr) ty array = some t) (state : State World) :
    truthRun env t state = chain env isOr array state := by
  cases array with
  | nil => cases combined
  | cons e rest =>
    obtain rfl := Option.some.inj combined
    clear combined
    have whole (rest : List Tree) : ∀ (e : Tree) (before : List Tree) (state : State World),
        (∀ state, truthRun env e state = chain env isOr before state) →
        truthRun env (rest.foldl (fun tree e => .bin (logical isOr) ty tree e) e) state =
          chain env isOr (before ++ rest) state := by
      induction rest with
      | nil =>
        intro e before state same
        rw [List.append_nil]
        exact same state
      | cons next rest inductionHypothesis =>
        intro e before state same
        rw [List.foldl_cons, inductionHypothesis _ (before ++ [next]), List.append_assoc]
        · rfl
        · intro state
          rw [truthRun_logical, run_logical, chain_append, same]
          congr 1
          funext state
          exact (chain_singleton isOr next state).symm
    exact whole rest e [e] state fun state => (chain_singleton isOr e state).symm

end Sound

end LaserD.Cgelem
