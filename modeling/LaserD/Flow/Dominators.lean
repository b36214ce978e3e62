/-
This file models the computation of the dominators. `compdom` starts with the
vectors of all bits, and sweeps over the blocks in depth-first order until a
sweep changes nothing: the vector of a block becomes the conjunction of the
vectors of its predecessors, with the bit of the block itself. Once a sweep has
changed a vector it copies without comparing.

The vectors bound the dominators from above at all times, since the sets of
dominators satisfy the same equations, and a sweep without a change leaves a
solution of the equations, which bounds them from below. A vector of another
length among those of the predecessors, or a fiftieth sweep, is an assertion that
fails, and then `compdom` does not return.
-/

import LaserD.Flow.Graph

namespace LaserD.Flow

open Dominance

/-! ### Bit vectors -/

/-- Allocate a vector of cleared bits. -/
def vecCalloc (numbits : Nat) : Vec := List.replicate numbits false

/-- Clear all bits. -/
def vecClear (v : Vec) : Vec := List.replicate v.length false

/-- Set all bits. -/
def vecSet (v : Vec) : Vec := List.replicate v.length true

/-- Set bit `b`. -/
def vecSetbit (b : Nat) (v : Vec) : Vec := v.set b true

/-- Test bit `b`. -/
def vecTestbit (b : Nat) (v : Vec) : Bool := v.getD b false

/-- Compute `v1 &= v2`. The vectors have the same number of bits, or the assertion fails. -/
def vecAndass (v1 v2 : Vec) : Option Vec :=
  if v1.length = v2.length then some (List.zipWith and v1 v2) else none

theorem vecTestbit_of_le {b : Nat} {v : Vec} (outside : v.length ≤ b) :
    vecTestbit b v = false := by
  rw [vecTestbit, List.getD_eq_getElem?_getD, List.getElem?_eq_none outside, Option.getD_none]

theorem lt_of_vecTestbit {b : Nat} {v : Vec} (set : vecTestbit b v = true) : b < v.length := by
  by_contra outside
  rw [vecTestbit_of_le (Nat.le_of_not_lt outside)] at set
  exact Bool.false_ne_true set

@[simp] theorem length_vecCalloc (numbits : Nat) : (vecCalloc numbits).length = numbits :=
  List.length_replicate

@[simp] theorem length_vecClear (v : Vec) : (vecClear v).length = v.length :=
  List.length_replicate

@[simp] theorem length_vecSet (v : Vec) : (vecSet v).length = v.length := List.length_replicate

@[simp] theorem length_vecSetbit (b : Nat) (v : Vec) : (vecSetbit b v).length = v.length :=
  List.length_set

@[simp] theorem vecTestbit_vecCalloc (i numbits : Nat) : vecTestbit i (vecCalloc numbits) = false := by
  rw [vecTestbit, vecCalloc, List.getD_eq_getElem?_getD, List.getElem?_replicate]
  split <;> rfl

@[simp] theorem vecTestbit_vecClear (i : Nat) (v : Vec) : vecTestbit i (vecClear v) = false :=
  vecTestbit_vecCalloc i v.length

theorem vecTestbit_vecSet (i : Nat) (v : Vec) : vecTestbit i (vecSet v) = decide (i < v.length) := by
  rw [vecTestbit, vecSet, List.getD_eq_getElem?_getD, List.getElem?_replicate]
  by_cases inside : i < v.length
  · rw [if_pos inside, decide_eq_true inside, Option.getD_some]
  · rw [if_neg inside, decide_eq_false inside, Option.getD_none]

theorem vecTestbit_vecSetbit {b : Nat} {v : Vec} (inside : b < v.length) (i : Nat) :
    vecTestbit i (vecSetbit b v) = (decide (i = b) || vecTestbit i v) := by
  rw [vecTestbit, vecTestbit, vecSetbit, List.getD_eq_getElem?_getD, List.getElem?_set,
    List.getD_eq_getElem?_getD]
  by_cases same : b = i
  · rw [if_pos same, if_pos inside, decide_eq_true same.symm, Bool.true_or, Option.getD_some]
  · rw [if_neg same, decide_eq_false (Ne.symm same), Bool.false_or]

theorem vecTestbit_zipWith_and {v1 v2 : Vec} (same : v1.length = v2.length) (i : Nat) :
    vecTestbit i (List.zipWith and v1 v2) = (vecTestbit i v1 && vecTestbit i v2) := by
  by_cases inside : i < v1.length
  · simp [vecTestbit, List.getD_eq_getElem?_getD, inside, same ▸ inside]
  · have first := Nat.le_of_not_lt inside
    have joined : (List.zipWith and v1 v2).length ≤ i := by
      rw [List.length_zipWith, ← same, Nat.min_self]
      exact first
    rw [vecTestbit_of_le first, vecTestbit_of_le joined, Bool.false_and]

/-! ### The sweeps -/

variable {n : Nat} (g : Flowgraph n)

/-- Initialize block information: the vector of every listed block is cleared, and the answer
is whether there is a block of inline assembler. -/
def blockinit (bo : BlockOpt n) : Bool × BlockOpt n :=
  ((List.finRange n).any fun b => g.bc b = .asm_,
    { bo with Bdom := fun b => if b ∈ bo.dfo then vecCalloc bo.dfo.length else bo.Bdom b })

/-- The vectors before the first sweep: the start block dominates itself only, every other
listed block is dominated by all of them. -/
def initdom (bo : BlockOpt n) (sb : Fin n) : Fin n → Vec :=
  let Bdom := Function.update bo.Bdom sb (vecSetbit 0 (vecClear (bo.Bdom sb)))
  fun b => if b ∈ bo.dfo ∧ b ≠ sb then vecSet (Bdom b) else Bdom b

/-- The blocks that dominate all predecessors of a block. -/
def preddom (Bdom : Fin n → Vec) (t1 : Vec) (b : Fin n) : Option Vec :=
  if (g.Bpred b).isEmpty then some (vecClear t1)
  else (g.Bpred b).foldlM (fun t1 p => vecAndass t1 (Bdom p)) (vecSet t1)

/-- The vectors and the mark that one of them has changed. -/
structure Sweep (n : Nat) where
  Bdom : Fin n → Vec
  changes : Bool

/-- One block of a sweep. Once something has changed the new vector is copied without a
comparison. -/
def sweepBlock (t1 : Vec) (sweep : Sweep n) (entry : Fin n × Nat) : Option (Sweep n) :=
  if entry.2 = 0 then some sweep
  else
    (preddom g sweep.Bdom t1 entry.1).map fun t1 =>
      let t1 := vecSetbit entry.2 t1
      if sweep.changes then { sweep with Bdom := Function.update sweep.Bdom entry.1 t1 }
      else if sweep.Bdom entry.1 ≠ t1 then
        { Bdom := Function.update sweep.Bdom entry.1 t1, changes := true }
      else sweep

/-- Sweeps until one changes nothing. The first argument is how many may be made. -/
def sweeps (dfo : List (Fin n)) (t1 : Vec) : Nat → (Fin n → Vec) → Option (Fin n → Vec)
  | 0, _ => none
  | left + 1, Bdom =>
    (dfo.zipIdx.foldlM (sweepBlock g t1) { Bdom := Bdom, changes := false }).bind fun sweep =>
      if sweep.changes then sweeps dfo t1 left sweep.Bdom else some sweep.Bdom

/-- Compute dominators for each block. The counter of the sweeps stays below 50. -/
def compdom (bo : BlockOpt n) : Option (BlockOpt n) :=
  bo.dfo.head?.bind fun sb =>
    let Bdom := initdom bo sb
    (sweeps g bo.dfo (vecCalloc (Bdom sb).length) 49 Bdom).map fun Bdom =>
      { bo with Bdom := Bdom }

/-- Test if block `A` dominates block `B`. -/
def dom (bo : BlockOpt n) (A B : Fin n) : Bool := vecTestbit (bo.Bdfoidx A) (bo.Bdom B)

/-! ### The vectors bound the dominators from above -/

/-- No block that is not reached from the start block leads to one that is, as `elimblks` leaves
the graph. -/
def Closed (startblock : Fin n) : Prop :=
  ∀ b, Reaches g.Bsucc startblock b → ∀ p ∈ g.Bpred b, Reaches g.Bsucc startblock p

/-- Vectors of the listed blocks that hold at least the dominators, and for the start block no
other. -/
structure DomBounds (startblock : Fin n) (bo : BlockOpt n) (Bdom : Fin n → Vec) : Prop where
  length : ∀ {b}, b ∈ bo.dfo → (Bdom b).length = bo.dfo.length
  start : ∀ {i}, vecTestbit i (Bdom startblock) = true → i = 0
  above : ∀ {b i a}, b ∈ bo.dfo → bo.dfo[i]? = some a → Dominates g.Bsucc startblock a b →
    vecTestbit i (Bdom b) = true

/-- The vector of a block is what its predecessors share and the bit of the block. -/
def Solved (Bdom : Fin n → Vec) (t1 : Vec) (entry : Fin n × Nat) : Prop :=
  (preddom g Bdom t1 entry.1).map (vecSetbit entry.2) = some (Bdom entry.1)

variable {g} {startblock : Fin n} {bo : BlockOpt n}

theorem foldlM_vecAndass {Bdom : Fin n → Vec} {m : Nat} (preds : List (Fin n)) {t1 : Vec}
    (length : t1.length = m) (lengths : ∀ p ∈ preds, (Bdom p).length = m) :
    ∃ t, preds.foldlM (fun t1 p => vecAndass t1 (Bdom p)) t1 = some t ∧ t.length = m ∧
      ∀ i, vecTestbit i t = (vecTestbit i t1 && preds.all fun p => vecTestbit i (Bdom p)) := by
  induction preds generalizing t1 with
  | nil =>
    refine ⟨t1, rfl, length, fun i => ?_⟩
    rw [List.all_nil, Bool.and_true]
  | cons p rest inductionHypothesis =>
    have same : t1.length = (Bdom p).length := by rw [length, lengths p List.mem_cons_self]
    have joined : (List.zipWith and t1 (Bdom p)).length = m := by
      rw [List.length_zipWith, ← same, Nat.min_self, length]
    obtain ⟨t, folded, lengthAfter, bits⟩ := inductionHypothesis joined
      fun other member => lengths other (List.mem_cons_of_mem _ member)
    refine ⟨t, ?_, lengthAfter, fun i => ?_⟩
    · rw [List.foldlM_cons, vecAndass, if_pos same]
      exact folded
    · rw [bits, vecTestbit_zipWith_and same, List.all_cons, Bool.and_assoc]

/-- What the predecessors of a block share, when their vectors have the length of the new one. -/
theorem preddom_spec {Bdom : Fin n → Vec} {t1 : Vec} {b : Fin n}
    (lengths : ∀ p ∈ g.Bpred b, (Bdom p).length = t1.length) (preceded : g.Bpred b ≠ []) :
    ∃ t, preddom g Bdom t1 b = some t ∧ t.length = t1.length ∧
      ∀ i, vecTestbit i t = true ↔
        i < t1.length ∧ ∀ p ∈ g.Bpred b, vecTestbit i (Bdom p) = true := by
  obtain ⟨t, folded, length, bits⟩ :=
    foldlM_vecAndass (g.Bpred b) (length_vecSet t1) lengths
  refine ⟨t, ?_, length, fun i => ?_⟩
  · rw [preddom, if_neg (by simpa using preceded)]
    exact folded
  · rw [bits, vecTestbit_vecSet, Bool.and_eq_true, decide_eq_true_iff, List.all_eq_true]

/-- A listed block other than the start block has a predecessor. -/
theorem Bpred_ne_nil {b : Fin n} (reached : Reaches g.Bsucc startblock b)
    (differs : b ≠ startblock) : g.Bpred b ≠ [] := by
  rcases Relation.ReflTransGen.cases_tail reached with same | ⟨p, _, isNext⟩
  · exact absurd same differs
  · exact List.ne_nil_of_mem (Flowgraph.mem_Bpred.2 isNext)

/-- The new vector of a listed block other than the start block. -/
theorem DomBounds.preddom {Bdom : Fin n → Vec} (bounds : DomBounds g startblock bo Bdom)
    (closed : Closed g startblock) (ordered : Ordered g startblock bo) {t1 : Vec}
    (length : t1.length = bo.dfo.length) {b : Fin n} (member : b ∈ bo.dfo)
    (differs : b ≠ startblock) :
    ∃ t, preddom g Bdom t1 b = some t ∧ t.length = bo.dfo.length ∧
      ∀ i, vecTestbit i t = true ↔
        i < bo.dfo.length ∧ ∀ p ∈ g.Bpred b, vecTestbit i (Bdom p) = true := by
  have reached := ordered.listed.1 member
  rw [← length]
  refine preddom_spec (fun p isPred => ?_) (Bpred_ne_nil reached differs)
  rw [length]
  exact bounds.length (ordered.listed.2 (closed b reached p isPred))

/-- Writing the new vector of a listed block keeps the bounds. -/
theorem DomBounds.update {Bdom : Fin n → Vec} (bounds : DomBounds g startblock bo Bdom)
    (closed : Closed g startblock) (ordered : Ordered g startblock bo) {b : Fin n} {i : Nat}
    {t : Vec} (listed : bo.dfo[i]? = some b) (differs : b ≠ startblock)
    (length : t.length = bo.dfo.length)
    (bits : ∀ i, vecTestbit i t = true ↔
      i < bo.dfo.length ∧ ∀ p ∈ g.Bpred b, vecTestbit i (Bdom p) = true) :
    DomBounds g startblock bo (Function.update Bdom b (vecSetbit i t)) := by
  have inside : i < t.length := by
    rw [length]
    exact (List.getElem?_eq_some_iff.1 listed).1
  refine ⟨fun {c} inDfo => ?_, fun {j} set => ?_, fun {c j a} inDfo listedA dominates => ?_⟩
  · by_cases same : c = b
    · rw [same, Function.update_self, length_vecSetbit, length]
    · rw [Function.update_of_ne same, bounds.length inDfo]
  · rw [Function.update_of_ne differs.symm] at set
    exact bounds.start set
  · by_cases same : c = b
    · rw [same] at dominates inDfo
      rw [same, Function.update_self, vecTestbit_vecSetbit inside, Bool.or_eq_true,
        decide_eq_true_iff, bits]
      by_cases self : a = b
      · rw [self] at listedA
        exact Or.inl ((ordered.numbered listedA).symm.trans (ordered.numbered listed))
      · refine Or.inr ⟨(List.getElem?_eq_some_iff.1 listedA).1, fun p isPred => ?_⟩
        refine bounds.above ?_ listedA
          (dominates.of_next (Flowgraph.mem_Bpred.1 isPred) self)
        exact ordered.listed.2 (closed b (ordered.listed.1 inDfo) p isPred)
    · rw [Function.update_of_ne same]
      exact bounds.above inDfo listedA dominates

/-- A block of a sweep keeps the bounds, and when nothing has changed the block is solved. -/
theorem sweepBlock_spec {sweep after : Sweep n} {entry : Fin n × Nat} {t1 : Vec}
    (closed : Closed g startblock) (ordered : Ordered g startblock bo)
    (length : t1.length = bo.dfo.length) (listed : bo.dfo[entry.2]? = some entry.1)
    (bounds : DomBounds g startblock bo sweep.Bdom)
    (swept : sweepBlock g t1 sweep entry = some after) :
    DomBounds g startblock bo after.Bdom ∧
      (after.changes = false →
        after = sweep ∧ (entry.2 ≠ 0 → Solved g sweep.Bdom t1 entry)) := by
  by_cases first : entry.2 = 0
  · rw [sweepBlock, if_pos first] at swept
    obtain rfl := Option.some.inj swept
    exact ⟨bounds, fun _ => ⟨rfl, fun later => absurd first later⟩⟩
  have differs : entry.1 ≠ startblock := by
    intro same
    rw [same] at listed
    exact first ((ordered.numbered listed).symm.trans (ordered.numbered ordered.getElem_zero))
  obtain ⟨t, computed, lengthAfter, bits⟩ :=
    bounds.preddom closed ordered length (List.mem_of_getElem? listed) differs
  have updated := bounds.update closed ordered listed differs lengthAfter bits
  rw [sweepBlock, if_neg first, computed, Option.map_some] at swept
  have result := Option.some.inj swept
  by_cases changed : sweep.changes = true
  · rw [if_pos changed] at result
    rw [← result]
    exact ⟨updated, fun unchanged => absurd (changed.symm.trans unchanged) Bool.noConfusion⟩
  · rw [if_neg changed] at result
    by_cases same : sweep.Bdom entry.1 = vecSetbit entry.2 t
    · rw [if_neg (not_not.2 same)] at result
      rw [← result]
      refine ⟨bounds, fun _ => ⟨rfl, fun _ => ?_⟩⟩
      rw [Solved, computed, Option.map_some, same]
    · rw [if_pos same] at result
      rw [← result]
      exact ⟨updated, fun unchanged => Bool.noConfusion unchanged⟩

/-- A sweep over listed blocks keeps the bounds, and when nothing has changed all of them are
solved. -/
theorem sweep_spec {t1 : Vec} (closed : Closed g startblock) (ordered : Ordered g startblock bo)
    (length : t1.length = bo.dfo.length) {entries : List (Fin n × Nat)}
    (listed : ∀ entry ∈ entries, bo.dfo[entry.2]? = some entry.1) {sweep after : Sweep n}
    (bounds : DomBounds g startblock bo sweep.Bdom)
    (swept : entries.foldlM (sweepBlock g t1) sweep = some after) :
    DomBounds g startblock bo after.Bdom ∧
      (after.changes = false → after = sweep ∧
        ∀ entry ∈ entries, entry.2 ≠ 0 → Solved g sweep.Bdom t1 entry) := by
  induction entries generalizing sweep with
  | nil =>
    obtain rfl := Option.some.inj swept
    exact ⟨bounds, fun _ => ⟨rfl, fun _ member => absurd member List.not_mem_nil⟩⟩
  | cons entry rest inductionHypothesis =>
    rw [List.foldlM_cons] at swept
    obtain ⟨middle, sweptEntry, sweptRest⟩ := Option.bind_eq_some_iff.1 swept
    obtain ⟨boundsMiddle, solvedEntry⟩ := sweepBlock_spec closed ordered length
      (listed entry List.mem_cons_self) bounds sweptEntry
    obtain ⟨boundsAfter, solvedRest⟩ := inductionHypothesis
      (fun other member => listed other (List.mem_cons_of_mem _ member)) boundsMiddle sweptRest
    refine ⟨boundsAfter, fun unchanged => ?_⟩
    obtain ⟨rfl, solvedOthers⟩ := solvedRest unchanged
    obtain ⟨rfl, solvedFirst⟩ := solvedEntry unchanged
    exact ⟨rfl, List.forall_mem_cons.2 ⟨solvedFirst, solvedOthers⟩⟩

/-- The sweeps end with vectors that keep the bounds and solve the equations. -/
theorem sweeps_spec {t1 : Vec} (closed : Closed g startblock) (ordered : Ordered g startblock bo)
    (length : t1.length = bo.dfo.length) {left : Nat} {Bdom final : Fin n → Vec}
    (bounds : DomBounds g startblock bo Bdom)
    (returned : sweeps g bo.dfo t1 left Bdom = some final) :
    DomBounds g startblock bo final ∧
      ∀ {i b}, bo.dfo[i]? = some b → i ≠ 0 → Solved g final t1 (b, i) := by
  induction left generalizing Bdom with
  | zero => exact absurd returned (by rw [sweeps]; exact nofun)
  | succ left inductionHypothesis =>
    rw [sweeps] at returned
    obtain ⟨sweep, swept, continued⟩ := Option.bind_eq_some_iff.1 returned
    obtain ⟨boundsAfter, solved⟩ := sweep_spec closed ordered length
      (fun entry member => List.mem_zipIdx_iff_getElem?.1 member) bounds swept
    by_cases changed : sweep.changes = true
    · rw [if_pos changed] at continued
      exact inductionHypothesis boundsAfter continued
    · rw [if_neg changed] at continued
      obtain rfl := Option.some.inj continued
      refine ⟨boundsAfter, fun {i b} listed later => ?_⟩
      obtain ⟨rfl, solvedAll⟩ := solved (Bool.eq_false_iff.2 changed)
      exact solvedAll (b, i) (List.mem_zipIdx_iff_getElem?.2 listed) later

/-- The vectors before the first sweep keep the bounds. -/
theorem initdom_bounds (ordered : Ordered g startblock bo) :
    DomBounds g startblock bo (initdom (blockinit g bo).2 startblock) := by
  have member := ordered.start_mem
  have nonempty : 0 < bo.dfo.length := List.length_pos_of_mem member
  have atStart : initdom (blockinit g bo).2 startblock startblock =
      vecSetbit 0 (vecClear (vecCalloc bo.dfo.length)) := by
    simp [initdom, blockinit, member]
  have atOther : ∀ {b}, b ∈ bo.dfo → b ≠ startblock →
      initdom (blockinit g bo).2 startblock b = vecSet (vecCalloc bo.dfo.length) := by
    intro b listed differs
    simp [initdom, blockinit, listed, differs]
  refine ⟨fun {b} listed => ?_, fun {i} set => ?_, fun {b i a} listed listedA dominates => ?_⟩
  · by_cases same : b = startblock
    · rw [same, atStart, length_vecSetbit, length_vecClear, length_vecCalloc]
    · rw [atOther listed same, length_vecSet, length_vecCalloc]
  · rw [atStart, vecTestbit_vecSetbit (by simpa using nonempty), vecTestbit_vecClear,
      Bool.or_false, decide_eq_true_iff] at set
    exact set
  · by_cases same : b = startblock
    · rw [same, dominates_start_iff] at dominates
      rw [dominates] at listedA
      rw [same, atStart, vecTestbit_vecSetbit (by simpa using nonempty), Bool.or_eq_true,
        decide_eq_true_iff]
      exact Or.inl ((ordered.numbered listedA).symm.trans (ordered.numbered ordered.getElem_zero))
    · rw [atOther listed same, vecTestbit_vecSet, decide_eq_true_iff, length_vecCalloc]
      exact (List.getElem?_eq_some_iff.1 listedA).1

/-! ### The vectors are the sets of dominators -/

/-- Vectors that keep the bounds and solve the equations hold dominators only. -/
theorem DomBounds.dominates {Bdom : Fin n → Vec} {t1 : Vec}
    (bounds : DomBounds g startblock bo Bdom) (closed : Closed g startblock)
    (ordered : Ordered g startblock bo) (length : t1.length = bo.dfo.length)
    (solved : ∀ {i b}, bo.dfo[i]? = some b → i ≠ 0 → Solved g Bdom t1 (b, i)) {b a : Fin n}
    {i : Nat} (listed : bo.dfo[i]? = some a) (set : vecTestbit i (Bdom b) = true) :
    Dominates g.Bsucc startblock a b := by
  refine dominates_of_family (fun node dominator =>
    ∃ i, bo.dfo[i]? = some dominator ∧ vecTestbit i (Bdom node) = true) ?_ ?_ ⟨i, listed, set⟩
  · rintro dominator ⟨j, listedJ, setJ⟩
    rw [bounds.start setJ, ordered.getElem_zero] at listedJ
    exact (Option.some.inj listedJ).symm
  · rintro node other dominator reached isNext differs ⟨j, listedJ, setJ⟩
    have member : other ∈ bo.dfo := ordered.listed.2 (reached.tail isNext)
    obtain ⟨k, listedK⟩ := List.mem_iff_getElem?.1 member
    have later : k ≠ 0 := by
      rintro rfl
      exact differs (Option.some.inj (listedK.symm.trans ordered.getElem_zero))
    obtain ⟨t, computed, lengthT, bits⟩ := bounds.preddom closed ordered length member differs
    have equation := solved listedK later
    rw [Solved, computed, Option.map_some] at equation
    have inside : k < t.length := by
      rw [lengthT]
      exact (List.getElem?_eq_some_iff.1 listedK).1
    rw [← Option.some.inj equation, vecTestbit_vecSetbit inside, Bool.or_eq_true,
      decide_eq_true_iff, bits] at setJ
    rcases setJ with rfl | ⟨-, shared⟩
    · exact Or.inl (Option.some.inj (listedJ.symm.trans listedK))
    · exact Or.inr ⟨j, listedJ, shared node (Flowgraph.mem_Bpred.2 isNext)⟩

/-- The vectors of the listed blocks are the sets of their dominators. -/
structure Dominated (g : Flowgraph n) (startblock : Fin n) (bo : BlockOpt n) : Prop where
  ordered : Ordered g startblock bo
  length : ∀ {b}, b ∈ bo.dfo → (bo.Bdom b).length = bo.dfo.length
  exact : ∀ {b i a}, b ∈ bo.dfo → bo.dfo[i]? = some a →
    (vecTestbit i (bo.Bdom b) = true ↔ Dominates g.Bsucc startblock a b)

/-- When `compdom` returns, the vector of each listed block is the set of its dominators. -/
theorem compdom_dominated {after : BlockOpt n} (closed : Closed g startblock)
    (ordered : Ordered g startblock bo) (returned : compdom g (blockinit g bo).2 = some after) :
    after.dfo = bo.dfo ∧ after.Bdfoidx = bo.Bdfoidx ∧ Dominated g startblock after := by
  have head : (blockinit g bo).2.dfo.head? = some startblock := ordered.first
  rw [compdom, head, Option.bind_some] at returned
  obtain ⟨Bdom, swept, rfl⟩ := Option.map_eq_some_iff.1 returned
  have initial := initdom_bounds ordered
  have length : (vecCalloc (initdom (blockinit g bo).2 startblock startblock).length).length =
      bo.dfo.length := by
    rw [length_vecCalloc, initial.length ordered.start_mem]
  obtain ⟨bounds, solved⟩ := sweeps_spec closed ordered length initial swept
  refine ⟨rfl, rfl, ⟨ordered.listed, ordered.distinct, ordered.first, ordered.numbered⟩,
    bounds.length, fun {b i a} member listed => ⟨fun set => ?_, fun dominates => ?_⟩⟩
  · exact bounds.dominates closed ordered length solved listed set
  · exact bounds.above member listed dominates

/-! ### Predecessors that are not listed -/

/-- A block that is not listed but leads to a listed one does not lead to the start block, and
holds no vector of the length of `dfo`. A block that was never listed holds none at all, and
`elimblks` removes a block that is no longer listed. -/
def Detached (g : Flowgraph n) (startblock : Fin n) (bo : BlockOpt n) : Prop :=
  ∀ p, p ∉ bo.dfo → ∀ s ∈ g.Bsucc p, s ∈ bo.dfo →
    s ≠ startblock ∧ (bo.Bdom p).length ≠ bo.dfo.length

theorem length_of_foldlM {Bdom : Fin n → Vec} {preds : List (Fin n)} {t1 t : Vec}
    (folded : preds.foldlM (fun t1 p => vecAndass t1 (Bdom p)) t1 = some t) :
    ∀ p ∈ preds, (Bdom p).length = t1.length := by
  induction preds generalizing t1 with
  | nil => exact fun p member => absurd member List.not_mem_nil
  | cons q rest inductionHypothesis =>
    rw [List.foldlM_cons] at folded
    obtain ⟨middle, first, others⟩ := Option.bind_eq_some_iff.1 folded
    rw [vecAndass] at first
    by_cases same : t1.length = (Bdom q).length
    · rw [if_pos same] at first
      have length : middle.length = t1.length := by
        rw [← Option.some.inj first, List.length_zipWith, ← same, Nat.min_self]
      rw [← length]
      exact List.forall_mem_cons.2 ⟨by rw [length, same], inductionHypothesis others⟩
    · rw [if_neg same] at first
      exact absurd first nofun

/-- When the vector of a block is computed, the predecessors of the block have vectors of the
same length. -/
theorem length_of_preddom {Bdom : Fin n → Vec} {t1 t : Vec} {b : Fin n}
    (computed : preddom g Bdom t1 b = some t) :
    ∀ p ∈ g.Bpred b, (Bdom p).length = t1.length := by
  intro p isPred
  have preceded : ¬(g.Bpred b).isEmpty = true := by
    rw [List.isEmpty_iff]
    exact List.ne_nil_of_mem isPred
  rw [preddom, if_neg preceded] at computed
  rw [← length_vecSet t1]
  exact length_of_foldlM computed p isPred

/-- A sweep over other blocks leaves the vector of a block, and reads it where the block is a
predecessor. -/
theorem length_of_sweep {t1 : Vec} {entries : List (Fin n × Nat)} {sweep after : Sweep n}
    {p : Fin n} (swept : entries.foldlM (sweepBlock g t1) sweep = some after)
    (unlisted : ∀ entry ∈ entries, entry.1 ≠ p) :
    ∀ entry ∈ entries, entry.2 ≠ 0 → p ∈ g.Bpred entry.1 →
      (sweep.Bdom p).length = t1.length := by
  induction entries generalizing sweep with
  | nil => exact fun entry member => absurd member List.not_mem_nil
  | cons first rest inductionHypothesis =>
    rw [List.foldlM_cons] at swept
    obtain ⟨middle, sweptFirst, sweptRest⟩ := Option.bind_eq_some_iff.1 swept
    have differs : p ≠ first.1 := (unlisted first List.mem_cons_self).symm
    have kept : middle.Bdom p = sweep.Bdom p := by
      rw [sweepBlock] at sweptFirst
      by_cases start : first.2 = 0
      · rw [if_pos start] at sweptFirst
        rw [← Option.some.inj sweptFirst]
      · rw [if_neg start] at sweptFirst
        obtain ⟨t, -, rfl⟩ := Option.map_eq_some_iff.1 sweptFirst
        dsimp only
        split_ifs
        · exact Function.update_of_ne differs _ _
        · exact Function.update_of_ne differs _ _
        · rfl
    rw [← kept]
    refine List.forall_mem_cons.2 ⟨fun later isPred => ?_, ?_⟩
    · rw [kept]
      rw [sweepBlock, if_neg later] at sweptFirst
      obtain ⟨t, computed, -⟩ := Option.map_eq_some_iff.1 sweptFirst
      exact length_of_preddom computed p isPred
    · exact inductionHypothesis sweptRest
        fun entry member => unlisted entry (List.mem_cons_of_mem _ member)

/-- When `compdom` returns, the predecessors of the listed blocks are listed. -/
theorem closed_of_compdom {after : BlockOpt n} (detached : Detached g startblock bo)
    (ordered : Ordered g startblock bo) (returned : compdom g (blockinit g bo).2 = some after) :
    Closed g startblock := by
  intro b reached p isPred
  by_contra unreached
  have unlisted : p ∉ bo.dfo := fun member => unreached (ordered.listed.1 member)
  obtain ⟨differs, length⟩ := detached p unlisted b (Flowgraph.mem_Bpred.1 isPred)
    (ordered.listed.2 reached)
  have head : (blockinit g bo).2.dfo.head? = some startblock := ordered.first
  rw [compdom, head, Option.bind_some] at returned
  obtain ⟨Bdom, swept, -⟩ := Option.map_eq_some_iff.1 returned
  rw [sweeps] at swept
  obtain ⟨sweep, first, -⟩ := Option.bind_eq_some_iff.1 swept
  obtain ⟨i, listed⟩ := List.mem_iff_getElem?.1 (ordered.listed.2 reached)
  have later : i ≠ 0 := by
    rintro rfl
    exact differs (Option.some.inj (listed.symm.trans ordered.getElem_zero))
  have read := length_of_sweep first (p := p) (fun entry member same => ?_) (b, i)
    (List.mem_zipIdx_iff_getElem?.2 listed) later isPred
  · refine length ?_
    rw [length_vecCalloc, (initdom_bounds ordered).length ordered.start_mem] at read
    rw [← read]
    have notStart : p ≠ startblock := fun same => unlisted (same ▸ ordered.start_mem)
    simp [initdom, blockinit, unlisted, notStart]
  · exact unlisted (same ▸ List.mem_of_getElem? (List.mem_zipIdx_iff_getElem?.1 member))

/-- `dom` tells whether one listed block dominates another. -/
theorem Dominated.dom_iff (dominated : Dominated g startblock bo) {A B : Fin n} (a : A ∈ bo.dfo)
    (b : B ∈ bo.dfo) : dom bo A B = true ↔ Dominates g.Bsucc startblock A B :=
  dominated.exact b (dominated.ordered.getElem_Bdfoidx a)

end LaserD.Flow
