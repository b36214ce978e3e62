/-
This file models the search for loops. `findloops` goes over the edges whose end
dominates their start, last block of the depth-first order first, and
`buildloop` makes a loop of each: the head, and all blocks from which `insert`
comes to the tail over predecessors. A second edge to the same head is merged
into the loop of the first. The blocks of the loop that return or lead out of it
are its exits, and the preheader is the only block outside the loop that leads to
the head, if it leads nowhere else.

The loops that `findloops` builds are the natural loops of the graph: one for
each head, with exactly the blocks that reach one of its tails without passing
the head.
-/

import LaserD.Flow.Dominators
import Mathlib.Data.Fin.VecNotation

namespace LaserD.Flow

open DepthFirst Dominance

variable {n : Nat} (g : Flowgraph n)

/-- Increase weight of a block by a factor. -/
def loopWeight (weight factor : Nat) : Nat :=
  if weight < 0x10000 then weight * (10 * factor)
  else if weight < 0x100000 then weight * (2 * factor)
  else weight + factor

/-- Loop data structure. -/
structure Loop (n : Nat) where
  Lloop : Vec
  Lexit : Vec
  Lhead : Fin n
  Ltail : Fin n
  Lpreheader : Option (Fin n)

/-- The vector that `insert` fills and the weights of the blocks. -/
structure Marks (n : Nat) where
  v : Vec
  Bweight : Fin n → Nat

/-- Mark a block and count its use. -/
def Marks.add (bo : BlockOpt n) (marks : Marks n) (b : Fin n) (factor : Nat) : Marks n where
  v := vecSetbit (bo.Bdfoidx b) marks.v
  Bweight := Function.update marks.Bweight b (loopWeight (marks.Bweight b) factor)

/-- Add a block and all its predecessors to the vector. The first argument bounds the depth of
the recursion. -/
def insert (bo : BlockOpt n) : Nat → Marks n → Fin n → Marks n
  | 0, marks, _ => marks
  | fuel + 1, marks, b =>
    if vecTestbit (bo.Bdfoidx b) marks.v then marks
    else (g.Bpred b).foldl (insert bo fuel) (marks.add bo b 1)

/-- The bits of a vector that are set, in order. -/
def vecRange (v : Vec) : List Nat := (List.range v.length).filter fun i => vecTestbit i v

/-- Compute `v1 |= v2`. -/
def vecOrass (v1 v2 : Vec) : Vec := List.zipWith or v1 v2

/-- A block of the loop that returns, or that has a successor outside of the loop. -/
def isExit (bo : BlockOpt n) (Lloop : Vec) (b : Fin n) : Bool :=
  if g.bc b = .ret ∨ g.bc b = .retexp ∨ g.bc b = .exit then true
  else (g.Bsucc b).any fun s => !vecTestbit (bo.Bdfoidx s) Lloop

/-- Find all the exit blocks. -/
def findExits (bo : BlockOpt n) (Lloop Lexit : Vec) : Vec :=
  (vecRange Lloop).foldl (fun Lexit i =>
    match bo.dfo[i]? with
    | some b => if isExit g bo Lloop b then vecSetbit i Lexit else Lexit
    | none => Lexit) Lexit

/-- Find preheader, if any, to the loop, among the predecessors of the head. -/
def findPreheader (bo : BlockOpt n) (Lloop : Vec) : List (Fin n) → Option (Fin n) → Option (Fin n)
  | [], Lpreheader => Lpreheader
  | b :: rest, Lpreheader =>
    if vecTestbit (bo.Bdfoidx b) Lloop then findPreheader bo Lloop rest Lpreheader
    else if Lpreheader.isSome then none
    else if (g.Bsucc b).tail ≠ [] then Lpreheader
    else findPreheader bo Lloop rest (some b)

/-- The loops found so far and the weights of the blocks. -/
structure Loops (n : Nat) where
  loops : List (Loop n)
  Bweight : Fin n → Nat

/-- The exits and the preheader of a loop whose blocks are known. -/
def Loop.finish (bo : BlockOpt n) (l : Loop n) (Lexit : Vec) : Loop n :=
  { l with
    Lexit := findExits g bo l.Lloop Lexit
    Lpreheader := findPreheader g bo l.Lloop (g.Bpred l.Lhead) none }

/-- Construct natural loop, and merge it into the loop with the same head if there is one. -/
def buildloop (bo : BlockOpt n) (ploops : Loops n) (head tail : Fin n) : Loops n :=
  match ploops.loops.findIdx? fun lp => lp.Lhead = head with
  | some k =>
    let marks : Marks n := { v := vecCalloc bo.dfo.length, Bweight := ploops.Bweight }
    let marks := insert g bo n (marks.add bo head 1) tail
    { loops := ploops.loops.modify k fun lp =>
        Loop.finish g bo { lp with Lloop := vecOrass lp.Lloop marks.v } (vecClear lp.Lexit)
      Bweight := marks.Bweight }
  | none =>
    let marks : Marks n := { v := vecCalloc bo.dfo.length, Bweight := ploops.Bweight }
    let marks := insert g bo n (marks.add bo head 2) tail
    let l : Loop n :=
      { Lloop := marks.v, Lexit := vecCalloc bo.dfo.length, Lhead := head, Ltail := tail,
        Lpreheader := none }
    { loops := ploops.loops ++ [l.finish g bo l.Lexit], Bweight := marks.Bweight }

/-- Find all the loops. -/
def findloops (bo : BlockOpt n) (Bweight : Fin n → Nat) : Loops n :=
  bo.dfo.reverse.foldl (fun loops b =>
    (g.Bsucc b).foldl (fun loops s =>
      if dom bo s b then buildloop g bo loops s b else loops) loops)
    { loops := [], Bweight := fun b => if b ∈ bo.dfo then 1 else Bweight b }

/-! ### The blocks of a loop -/

/-- An edge whose end dominates its start, a block that is reached. -/
structure BackEdge (startblock tail head : Fin n) : Prop where
  edge : head ∈ g.Bsucc tail
  reached : Reaches g.Bsucc startblock tail
  dominates : Dominates g.Bsucc startblock head tail

/-- The step along an edge that neither leaves nor enters the head. -/
def Avoids (head : Fin n) (b s : Fin n) : Prop := s ∈ g.Bsucc b ∧ b ≠ head ∧ s ≠ head

/-- The blocks that reach the tail without passing the head, and the head. -/
def NaturalLoop (head tail b : Fin n) : Prop :=
  b = head ∨ tail ≠ head ∧ Relation.ReflTransGen (Avoids g head) b tail

/-- The block is listed and its bit is set. -/
def InVec (bo : BlockOpt n) (v : Vec) (b : Fin n) : Prop :=
  b ∈ bo.dfo ∧ vecTestbit (bo.Bdfoidx b) v = true

instance (bo : BlockOpt n) (v : Vec) : DecidablePred (InVec bo v) := fun _ =>
  inferInstanceAs (Decidable (_ ∧ _))

/-- The blocks of a vector. -/
def marked (bo : BlockOpt n) (v : Vec) : Finset (Fin n) := Finset.univ.filter (InVec bo v)

variable {g} {startblock : Fin n} {bo : BlockOpt n}

theorem mem_marked {v : Vec} {b : Fin n} : b ∈ marked bo v ↔ InVec bo v b := by
  rw [marked, Finset.mem_filter, and_iff_right (Finset.mem_univ b)]

theorem inVec_iff {v : Vec} {b : Fin n} (member : b ∈ bo.dfo) :
    InVec bo v b ↔ vecTestbit (bo.Bdfoidx b) v = true := and_iff_right member

/-- Setting the bit of a listed block adds the block. -/
theorem marked_vecSetbit (ordered : Ordered g startblock bo) {v : Vec}
    (length : v.length = bo.dfo.length) {b : Fin n} (member : b ∈ bo.dfo) :
    marked bo (vecSetbit (bo.Bdfoidx b) v) = Insert.insert b (marked bo v) := by
  ext c
  rw [Finset.mem_insert, mem_marked, mem_marked, InVec, InVec,
    vecTestbit_vecSetbit (by rw [length]; exact ordered.Bdfoidx_lt member), Bool.or_eq_true,
    decide_eq_true_iff]
  constructor
  · rintro ⟨listed, same | set⟩
    · exact Or.inl (ordered.Bdfoidx_inj listed member same)
    · exact Or.inr ⟨listed, set⟩
  · rintro (rfl | ⟨listed, set⟩)
    · exact ⟨member, Or.inl rfl⟩
    · exact ⟨listed, Or.inr set⟩

theorem marked_vecCalloc (numbits : Nat) : marked bo (vecCalloc numbits) = ∅ := by
  ext c
  simp [mem_marked, InVec]

theorem insert_of_set {fuel : Nat} {marks : Marks n} {b : Fin n}
    (set : vecTestbit (bo.Bdfoidx b) marks.v = true) : insert g bo fuel marks b = marks := by
  cases fuel with
  | zero => rfl
  | succ fuel => rw [insert, if_pos set]

/-- With a bound of as many blocks as are not marked, `insert` searches the predecessors. -/
theorem insert_spec (closed : Closed g startblock) (ordered : Ordered g startblock bo) {fuel : Nat}
    {b : Fin n} {marks : Marks n} (member : b ∈ bo.dfo)
    (length : marks.v.length = bo.dfo.length) (enough : (marked bo marks.v)ᶜ.card ≤ fuel)
    (unmarked : b ∉ marked bo marks.v) :
    ∃ below, Search g.Bpred (Insert.insert b (marked bo marks.v)) (g.Bpred b) below ∧
      marked bo (insert g bo fuel marks b).v =
        Insert.insert b (marked bo marks.v) ∪ below.postorder.toFinset ∧
      (insert g bo fuel marks b).v.length = bo.dfo.length ∧ True := by
  induction fuel generalizing b marks with
  | zero =>
    have none := Finset.card_eq_zero.1 (Nat.le_zero.1 enough)
    exact absurd (Finset.mem_compl.2 unmarked) (by rw [none]; exact Finset.notMem_empty b)
  | succ fuel inductionHypothesis =>
    have clear : ¬vecTestbit (bo.Bdfoidx b) marks.v = true := fun set =>
      unmarked (mem_marked.2 ⟨member, set⟩)
    have added : marked bo (marks.add bo b 1).v = Insert.insert b (marked bo marks.v) :=
      marked_vecSetbit ordered length member
    have folded := exists_search_foldl g.Bpred (· ∈ bo.dfo)
      (fun marks : Marks n => marked bo marks.v)
      (fun marks : Marks n => marks.v.length = bo.dfo.length) (fun _ _ _ => True)
      (insert g bo fuel) fuel
      (fun _ => trivial) (fun _ _ => trivial)
      (fun _ seen => insert_of_set (mem_marked.1 seen).2)
      (fun inside good enough fresh => inductionHypothesis inside good enough fresh)
      (g.Bpred b)
      (fun p isPred => ordered.listed.2 (closed b (ordered.listed.1 member) p isPred))
      (marks.add bo b 1) (by rw [Marks.add, length_vecSetbit, length])
      (by rw [added]; exact card_compl_insert_le unmarked enough)
    rw [added] at folded
    rw [insert, if_neg clear]
    exact folded

/-- Going back from the tail without entering the head is going forward to it without passing
the head. -/
theorem reaches_tail_iff {head tail b : Fin n} (differs : tail ≠ head) :
    Relation.ReflTransGen (Unseen g.Bpred {head}) tail b ↔
      Relation.ReflTransGen (Avoids g head) b tail := by
  constructor
  · intro path
    have forward : b ≠ head ∧ Relation.ReflTransGen (Avoids g head) b tail := by
      induction path with
      | refl => exact ⟨differs, Relation.ReflTransGen.refl⟩
      | tail _ step inductionHypothesis =>
        have outside := Finset.notMem_singleton.1 step.2
        exact ⟨outside, inductionHypothesis.2.head
          ⟨Flowgraph.mem_Bpred.1 step.1, outside, inductionHypothesis.1⟩⟩
    exact forward.2
  · intro path
    induction path using Relation.ReflTransGen.head_induction_on with
    | refl => exact Relation.ReflTransGen.refl
    | head step _ inductionHypothesis =>
      exact inductionHypothesis.tail
        ⟨Flowgraph.mem_Bpred.2 step.1, Finset.notMem_singleton.2 step.2.1⟩

/-- The vector that `buildloop` fills for one edge holds the natural loop of the edge. -/
theorem insert_naturalLoop (closed : Closed g startblock) (ordered : Ordered g startblock bo)
    {head tail : Fin n} (headListed : head ∈ bo.dfo) (tailListed : tail ∈ bo.dfo)
    (Bweight : Fin n → Nat) (factor : Nat) {v : Vec}
    (filled : v = (insert g bo n
      (Marks.add bo { v := vecCalloc bo.dfo.length, Bweight := Bweight } head factor) tail).v) :
    v.length = bo.dfo.length ∧
      ∀ b, b ∈ bo.dfo → (InVec bo v b ↔ NaturalLoop g head tail b) := by
  set marks := Marks.add bo { v := vecCalloc bo.dfo.length, Bweight := Bweight } head factor
    with marksEq
  have length : marks.v.length = bo.dfo.length := by
    rw [marksEq, Marks.add, length_vecSetbit, length_vecCalloc]
  have onlyHead : marked bo marks.v = {head} := by
    rw [marksEq, Marks.add, marked_vecSetbit ordered (length_vecCalloc _) headListed,
      marked_vecCalloc, insert_empty_eq]
  by_cases same : tail = head
  · have set : vecTestbit (bo.Bdfoidx tail) marks.v = true := by
      rw [← inVec_iff tailListed, ← mem_marked, onlyHead, same]
      exact Finset.mem_singleton_self head
    rw [insert_of_set set] at filled
    refine ⟨by rw [filled, length], fun b member => ?_⟩
    rw [← mem_marked, filled, onlyHead, Finset.mem_singleton, NaturalLoop]
    exact ⟨Or.inl, fun natural => natural.resolve_right fun path => path.1 same⟩
  · have enough : (marked bo marks.v)ᶜ.card ≤ n :=
      (Finset.card_le_univ _).trans_eq (Fintype.card_fin n)
    have unmarked : tail ∉ marked bo marks.v := by
      rw [onlyHead]
      exact Finset.notMem_singleton.2 same
    obtain ⟨below, search, marks', lengthAfter, -⟩ :=
      insert_spec closed ordered tailListed length enough unmarked
    refine ⟨by rw [filled, lengthAfter], fun b member => ?_⟩
    have whole : Search g.Bpred {head} [tail] (.tree tail below .bare) := by
      rw [onlyHead] at search unmarked
      exact .visit unmarked search (.done _)
    have found := @Search.mem_iff _ _ _ _ _ _ whole b
    rw [Forest.mem_postorder_tree] at found
    rw [← mem_marked, filled, marks', onlyHead, NaturalLoop, ← reaches_tail_iff same]
    simp only [Finset.mem_union, Finset.mem_insert, Finset.mem_singleton, List.mem_toFinset,
      List.mem_singleton, exists_eq_left, Forest.postorder, List.not_mem_nil, or_false] at found ⊢
    rw [← found]
    tauto

/-! ### Exits and preheader -/

/-- The blocks of a loop that return or lead out of it. -/
def Exits (g : Flowgraph n) (bo : BlockOpt n) (Lloop : Vec) (b : Fin n) : Prop :=
  InVec bo Lloop b ∧
    ((g.bc b = .ret ∨ g.bc b = .retexp ∨ g.bc b = .exit) ∨
      ∃ s ∈ g.Bsucc b, ¬InVec bo Lloop s)

/-- The predecessors of the head outside of the loop, one for each edge. -/
def outside (g : Flowgraph n) (bo : BlockOpt n) (Lloop : Vec) (head : Fin n) : List (Fin n) :=
  (g.Bpred head).filter fun p => ¬InVec bo Lloop p

theorem isExit_iff (ordered : Ordered g startblock bo) {Lloop : Vec} {b : Fin n}
    (member : b ∈ bo.dfo) :
    isExit g bo Lloop b = true ↔
      (g.bc b = .ret ∨ g.bc b = .retexp ∨ g.bc b = .exit) ∨ ∃ s ∈ g.Bsucc b, ¬InVec bo Lloop s := by
  by_cases returns : g.bc b = .ret ∨ g.bc b = .retexp ∨ g.bc b = .exit
  · rw [isExit, if_pos returns]
    exact ⟨fun _ => Or.inl returns, fun _ => rfl⟩
  · rw [isExit, if_neg returns, List.any_eq_true, or_iff_right returns]
    refine exists_congr fun s => and_congr_right fun isNext => ?_
    have listed : s ∈ bo.dfo := ordered.listed.2 ((ordered.listed.1 member).tail isNext)
    rw [inVec_iff listed, Bool.not_eq_true', Bool.not_eq_true]

theorem mem_vecRange {v : Vec} {i : Nat} : i ∈ vecRange v ↔ vecTestbit i v = true := by
  rw [vecRange, List.mem_filter, List.mem_range]
  exact ⟨fun member => member.2, fun set => ⟨lt_of_vecTestbit set, set⟩⟩

/-- Setting the bits that pass a test, over a list of positions. -/
theorem foldl_exits {Lloop : Vec} (positions : List Nat) {Lexit : Vec}
    (length : Lexit.length = bo.dfo.length) :
    (positions.foldl (fun Lexit i =>
      match bo.dfo[i]? with
      | some b => if isExit g bo Lloop b then vecSetbit i Lexit else Lexit
      | none => Lexit) Lexit).length = bo.dfo.length ∧
    ∀ j b, bo.dfo[j]? = some b →
      (vecTestbit j (positions.foldl (fun Lexit i =>
        match bo.dfo[i]? with
        | some b => if isExit g bo Lloop b then vecSetbit i Lexit else Lexit
        | none => Lexit) Lexit) = true ↔
      vecTestbit j Lexit = true ∨ j ∈ positions ∧ isExit g bo Lloop b = true) := by
  induction positions generalizing Lexit with
  | nil =>
    refine ⟨length, fun j b _ => ?_⟩
    rw [List.foldl_nil, or_iff_left fun inside => List.not_mem_nil inside.1]
  | cons i rest inductionHypothesis =>
    rw [List.foldl_cons]
    cases found : bo.dfo[i]? with
    | none =>
      obtain ⟨lengthAfter, bits⟩ := inductionHypothesis length
      refine ⟨lengthAfter, fun j b listed => ?_⟩
      have differs : j ≠ i := by
        rintro rfl
        exact Option.some_ne_none b (listed.symm.trans found)
      rw [bits j b listed, List.mem_cons, or_iff_right differs]
    | some c =>
      by_cases exit : isExit g bo Lloop c = true
      · have inside : i < Lexit.length := by
          rw [length]
          exact (List.getElem?_eq_some_iff.1 found).1
        simp only [if_pos exit]
        obtain ⟨lengthAfter, bits⟩ := inductionHypothesis
          ((length_vecSetbit i Lexit).trans length)
        refine ⟨lengthAfter, fun j b listed => ?_⟩
        rw [bits j b listed, vecTestbit_vecSetbit inside, Bool.or_eq_true, decide_eq_true_iff,
          List.mem_cons]
        by_cases same : j = i
        · rw [same, found] at listed
          rw [← Option.some.inj listed]
          simp [same, exit]
        · rw [or_iff_right same, or_iff_right same]
      · simp only [if_neg exit]
        obtain ⟨lengthAfter, bits⟩ := inductionHypothesis length
        refine ⟨lengthAfter, fun j b listed => ?_⟩
        rw [bits j b listed, List.mem_cons]
        by_cases same : j = i
        · rw [same, found] at listed
          rw [← Option.some.inj listed]
          simp [exit]
        · rw [or_iff_right same]

/-- `findExits` marks the exits of the loop. -/
theorem findExits_spec (ordered : Ordered g startblock bo) (Lloop : Vec) :
    (findExits g bo Lloop (vecCalloc bo.dfo.length)).length = bo.dfo.length ∧
      ∀ b, InVec bo (findExits g bo Lloop (vecCalloc bo.dfo.length)) b ↔
        Exits g bo Lloop b := by
  obtain ⟨length, bits⟩ :=
    @foldl_exits n g bo Lloop (vecRange Lloop) _ (length_vecCalloc bo.dfo.length)
  refine ⟨length, fun b => ?_⟩
  rw [Exits, InVec, InVec, and_assoc]
  refine and_congr_right fun member => ?_
  rw [findExits, bits _ b (ordered.getElem_Bdfoidx member), vecTestbit_vecCalloc, mem_vecRange,
    isExit_iff ordered member, or_iff_right Bool.false_ne_true]

/-- A preheader has been found among the predecessors looked at, or none of them is outside. -/
theorem findPreheader_spec {Lloop : Vec} {head : Fin n}
    (preds : List (Fin n)) (listed : ∀ p ∈ preds, p ∈ bo.dfo)
    (leads : ∀ p ∈ preds, head ∈ g.Bsucc p) (p : Fin n) :
    (findPreheader g bo Lloop preds none = some p ↔
      (preds.filter fun p => ¬InVec bo Lloop p) = [p] ∧ (g.Bsucc p).length = 1) ∧
    ∀ earlier, (findPreheader g bo Lloop preds (some earlier) = some p ↔
      (preds.filter fun p => ¬InVec bo Lloop p) = [] ∧ earlier = p) := by
  induction preds with
  | nil => simp [findPreheader]
  | cons b rest inductionHypothesis =>
    obtain ⟨none', some'⟩ := inductionHypothesis
      (fun p member => listed p (List.mem_cons_of_mem _ member))
      (fun p member => leads p (List.mem_cons_of_mem _ member))
    have inside : InVec bo Lloop b ↔ _ := inVec_iff (listed b List.mem_cons_self)
    have leadsFirst := leads b List.mem_cons_self
    by_cases set : vecTestbit (bo.Bdfoidx b) Lloop = true
    · simp only [findPreheader, if_pos set]
      rw [List.filter_cons_of_neg (by simpa [inside] using set)]
      exact ⟨none', some'⟩
    · rw [List.filter_cons_of_pos (by simpa [inside] using set)]
      refine ⟨?_, fun earlier => ?_⟩
      · rw [findPreheader, if_neg set, if_neg (by simp)]
        cases succs : g.Bsucc b with
        | nil => exact absurd leadsFirst (by rw [succs]; exact List.not_mem_nil)
        | cons s others =>
          by_cases single : others = []
          · rw [if_neg (by simpa using single), some' b]
            rw [List.cons.injEq]
            refine ⟨fun ⟨nothing, same⟩ => ⟨⟨same, nothing⟩, ?_⟩,
              fun ⟨⟨same, nothing⟩, _⟩ => ⟨nothing, same⟩⟩
            rw [← same, succs, single]
            rfl
          · rw [if_pos (by simpa using single)]
            refine ⟨nofun, fun ⟨only, one⟩ => ?_⟩
            rw [← (List.cons.inj only).1, succs, List.length_cons] at one
            exact absurd (List.length_eq_zero_iff.1 (Nat.succ.inj one)) single
      · rw [findPreheader, if_neg set, if_pos Option.isSome_some]
        exact ⟨nofun, fun ⟨nothing, _⟩ => absurd nothing (List.cons_ne_nil _ _)⟩

/-! ### Building the loops -/

/-- A loop holds the natural loops of the edges to its head among those looked at, its exits
and its preheader. -/
structure LoopOf (g : Flowgraph n) (bo : BlockOpt n) (edges : List (Fin n × Fin n)) (l : Loop n) :
    Prop where
  length : l.Lloop.length = bo.dfo.length
  blocks : ∀ b ∈ bo.dfo, InVec bo l.Lloop b ↔
    ∃ tail, (tail, l.Lhead) ∈ edges ∧ NaturalLoop g l.Lhead tail b
  exits : l.Lexit = findExits g bo l.Lloop (vecCalloc bo.dfo.length)
  preheader : l.Lpreheader = findPreheader g bo l.Lloop (g.Bpred l.Lhead) none

/-- The loops are those of the edges looked at, one for each head. -/
structure Built (g : Flowgraph n) (bo : BlockOpt n) (edges : List (Fin n × Fin n))
    (loops : List (Loop n)) : Prop where
  distinct : (loops.map Loop.Lhead).Nodup
  heads : ∀ head, head ∈ loops.map Loop.Lhead ↔ ∃ tail, (tail, head) ∈ edges
  loopOf : ∀ l ∈ loops, LoopOf g bo edges l

theorem inVec_vecOrass {v1 v2 : Vec} (same : v1.length = v2.length) {b : Fin n} :
    InVec bo (vecOrass v1 v2) b ↔ InVec bo v1 b ∨ InVec bo v2 b := by
  rw [InVec, InVec, InVec, ← and_or_left]
  refine and_congr_right fun _ => ?_
  rw [vecTestbit, vecTestbit, vecTestbit, vecOrass]
  by_cases inside : bo.Bdfoidx b < v1.length
  · simp [List.getD_eq_getElem?_getD, inside, same ▸ inside]
  · have outside2 : ¬bo.Bdfoidx b < v2.length := same ▸ inside
    simp [List.getD_eq_getElem?_getD, inside, outside2]

/-- A loop is not changed by an edge to another head. -/
theorem LoopOf.other {edges : List (Fin n × Fin n)} {l : Loop n} (loopOf : LoopOf g bo edges l)
    {tail head : Fin n} (differs : l.Lhead ≠ head) : LoopOf g bo (edges ++ [(tail, head)]) l := by
  refine ⟨loopOf.length, fun b member => ?_, loopOf.exits, loopOf.preheader⟩
  rw [loopOf.blocks b member]
  refine exists_congr fun other => and_congr_left fun _ => ?_
  rw [List.mem_append, List.mem_singleton, Prod.mk.injEq, or_iff_left fun last => differs last.2]

/-- A loop with a new vector of blocks and its exits and preheader found again. -/
theorem LoopOf.finish {edges : List (Fin n × Fin n)} {l : Loop n}
    (length : l.Lloop.length = bo.dfo.length)
    (blocks : ∀ b ∈ bo.dfo, InVec bo l.Lloop b ↔
      ∃ tail, (tail, l.Lhead) ∈ edges ∧ NaturalLoop g l.Lhead tail b) :
    LoopOf g bo edges (l.finish g bo (vecCalloc bo.dfo.length)) :=
  ⟨length, blocks, rfl, rfl⟩

theorem map_modify_Lhead (loops : List (Loop n)) (k : Nat) (change : Loop n → Loop n)
    (keeps : ∀ l, (change l).Lhead = l.Lhead) :
    (loops.modify k change).map Loop.Lhead = loops.map Loop.Lhead := by
  refine List.ext_getElem? fun i => ?_
  rw [List.getElem?_map, List.getElem?_map, List.getElem?_modify, Option.map_eq_map,
    Option.map_map]
  congr 1
  funext l
  by_cases same : k = i
  · rw [Function.comp_apply, if_pos same, keeps]
  · rw [Function.comp_apply, if_neg same]

/-- The edge is added to the loop with its head, or is the first edge of a new loop. -/
theorem buildloop_built (closed : Closed g startblock) (ordered : Ordered g startblock bo)
    {edges : List (Fin n × Fin n)} {ploops : Loops n} (built : Built g bo edges ploops.loops)
    {head tail : Fin n} (headListed : head ∈ bo.dfo) (tailListed : tail ∈ bo.dfo) :
    Built g bo (edges ++ [(tail, head)]) (buildloop g bo ploops head tail).loops := by
  have newHead : ∀ other, (∃ t, (t, other) ∈ edges ++ [(tail, head)]) ↔
      (∃ t, (t, other) ∈ edges) ∨ other = head := by
    intro other
    simp only [List.mem_append, List.mem_singleton, Prod.mk.injEq, exists_or, exists_eq_left]
  cases found : ploops.loops.findIdx? fun lp => lp.Lhead = head with
  | none =>
    have fresh : head ∉ ploops.loops.map Loop.Lhead := by
      intro member
      obtain ⟨l, inLoops, same⟩ := List.mem_map.1 member
      simpa [same] using List.findIdx?_eq_none_iff.1 found l inLoops
    obtain ⟨length, natural⟩ :=
      insert_naturalLoop closed ordered headListed tailListed ploops.Bweight 2 rfl
    simp only [buildloop, found]
    refine ⟨?_, fun other => ?_, fun l member => ?_⟩
    · rw [List.map_append, List.nodup_append]
      refine ⟨built.distinct, List.nodup_singleton _, ?_⟩
      rintro other inLoops another last rfl
      rw [List.map_singleton, List.mem_singleton] at last
      rw [last] at inLoops
      exact fresh inLoops
    · rw [newHead, List.map_append, List.mem_append, built.heads, List.map_singleton,
        List.mem_singleton]
      rfl
    · rcases List.mem_append.1 member with old | new
      · refine (built.loopOf l old).other fun same => fresh ?_
        exact same ▸ List.mem_map_of_mem old
      · rw [List.mem_singleton.1 new]
        refine LoopOf.finish length fun b listed => ?_
        rw [natural b listed]
        refine ⟨fun inside => ⟨tail, List.mem_append_right _ List.mem_cons_self, inside⟩, ?_⟩
        rintro ⟨other, inEdges, inside⟩
        rcases List.mem_append.1 inEdges with old | last
        · exact absurd ((built.heads head).2 ⟨other, old⟩) fresh
        · rw [List.mem_singleton, Prod.mk.injEq] at last
          rw [← last.1]
          exact inside
  | some k =>
    obtain ⟨inRange, isHead, -⟩ := List.findIdx?_eq_some_iff_getElem.1 found
    have headK : ploops.loops[k].Lhead = head := of_decide_eq_true isHead
    obtain ⟨length, natural⟩ :=
      insert_naturalLoop closed ordered headListed tailListed ploops.Bweight 1 rfl
    simp only [buildloop, found]
    have sameHeads := map_modify_Lhead ploops.loops k fun lp =>
      Loop.finish g bo { lp with Lloop := vecOrass lp.Lloop (insert g bo n
        (Marks.add bo { v := vecCalloc bo.dfo.length, Bweight := ploops.Bweight } head 1)
          tail).v } (vecClear lp.Lexit)
    have headsAfter := sameHeads fun _ => rfl
    refine ⟨by rw [headsAfter]; exact built.distinct, fun other => ?_, fun l member => ?_⟩
    · rw [headsAfter, newHead, ← built.heads]
      refine ⟨Or.inl, fun known => known.elim id ?_⟩
      rintro rfl
      exact headK ▸ List.mem_map_of_mem (List.getElem_mem inRange)
    · obtain ⟨j, listed⟩ := List.mem_iff_getElem?.1 member
      rw [List.getElem?_modify] at listed
      obtain ⟨lp, atJ, result⟩ := Option.map_eq_some_iff.1 listed
      have loopOf := built.loopOf lp (List.mem_of_getElem? atJ)
      by_cases same : k = j
      · rw [if_pos same] at result
        have headLp : lp.Lhead = head := by
          rw [← same, List.getElem?_eq_getElem inRange] at atJ
          rw [← Option.some.inj atJ, headK]
        have cleared : vecClear lp.Lexit = vecCalloc bo.dfo.length := by
          rw [vecClear, loopOf.exits, (findExits_spec ordered lp.Lloop).1, vecCalloc]
        rw [← result, cleared]
        refine LoopOf.finish ?_ fun b inDfo => ?_
        · rw [vecOrass, List.length_zipWith, loopOf.length, length, Nat.min_self]
        · rw [inVec_vecOrass (loopOf.length.trans length.symm), loopOf.blocks b inDfo,
            natural b inDfo, headLp]
          simp only [List.mem_append, List.mem_singleton, Prod.mk.injEq, and_true, or_and_right,
            exists_or, exists_eq_left]
      · rw [if_neg same] at result
        rw [← result]
        refine loopOf.other fun sameHead => same ?_
        refine (List.getElem?_inj (by simpa using inRange) built.distinct).1 ?_
        rw [List.getElem?_map, List.getElem?_map, atJ, List.getElem?_eq_getElem inRange,
          Option.map_some, Option.map_some, headK, sameHead]

/-- The edges that `findloops` builds loops of, in its order. -/
def backEdges (g : Flowgraph n) (bo : BlockOpt n) : List (Fin n × Fin n) :=
  bo.dfo.reverse.flatMap fun b => ((g.Bsucc b).filter fun s => dom bo s b).map (b, ·)

theorem findloops_eq (Bweight : Fin n → Nat) :
    findloops g bo Bweight =
      (backEdges g bo).foldl (fun loops edge => buildloop g bo loops edge.2 edge.1)
        { loops := [], Bweight := fun b => if b ∈ bo.dfo then 1 else Bweight b } := by
  rw [findloops, backEdges, List.foldl_flatMap]
  congr 1
  funext loops b
  rw [List.foldl_map, List.foldl_filter]

theorem foldl_buildloop_built (closed : Closed g startblock) (ordered : Ordered g startblock bo)
    {edges rest : List (Fin n × Fin n)} {ploops : Loops n} (built : Built g bo edges ploops.loops)
    (listed : ∀ edge ∈ rest, edge.1 ∈ bo.dfo ∧ edge.2 ∈ bo.dfo) :
    Built g bo (edges ++ rest)
      (rest.foldl (fun loops edge => buildloop g bo loops edge.2 edge.1) ploops).loops := by
  induction rest generalizing edges ploops with
  | nil =>
    rw [List.append_nil]
    exact built
  | cons edge rest inductionHypothesis =>
    obtain ⟨tailListed, headListed⟩ := listed edge List.mem_cons_self
    rw [← List.singleton_append, ← List.append_assoc, List.singleton_append, List.foldl_cons]
    exact inductionHypothesis (buildloop_built closed ordered built headListed tailListed)
      fun other member => listed other (List.mem_cons_of_mem _ member)

/-- The edges that `findloops` looks at are the back edges of the graph. -/
theorem mem_backEdges (dominated : Dominated g startblock bo) {tail head : Fin n} :
    (tail, head) ∈ backEdges g bo ↔ BackEdge g startblock tail head := by
  simp only [backEdges, List.mem_flatMap, List.mem_reverse, List.mem_map, List.mem_filter,
    Prod.mk.injEq]
  constructor
  · rintro ⟨b, member, s, ⟨edge, dominates⟩, rfl, rfl⟩
    have reached := dominated.ordered.listed.1 member
    have listed := dominated.ordered.listed.2 (reached.tail edge)
    exact ⟨edge, reached, (dominated.dom_iff listed member).1 dominates⟩
  · rintro ⟨edge, reached, dominates⟩
    have member := dominated.ordered.listed.2 reached
    have listed := dominated.ordered.listed.2 (reached.tail edge)
    exact ⟨tail, member, head, ⟨edge, (dominated.dom_iff listed member).2 dominates⟩, rfl, rfl⟩

/-- A loop is the natural loop of its head: the blocks that reach the tail of one of the back
edges to the head without passing the head, the blocks of it that return or lead out, and the
only block outside of it that leads to the head, when that block leads nowhere else. -/
structure Natural (g : Flowgraph n) (startblock : Fin n) (bo : BlockOpt n) (l : Loop n) :
    Prop where
  blocks : ∀ b, InVec bo l.Lloop b ↔
    ∃ tail, BackEdge g startblock tail l.Lhead ∧ NaturalLoop g l.Lhead tail b
  exits : ∀ b, InVec bo l.Lexit b ↔ Exits g bo l.Lloop b
  preheader : ∀ p, l.Lpreheader = some p ↔
    outside g bo l.Lloop l.Lhead = [p] ∧ (g.Bsucc p).length = 1

/-- What is on a natural loop of a reached tail is reached. -/
theorem NaturalLoop.reached (closed : Closed g startblock) {head tail b : Fin n}
    (edge : BackEdge g startblock tail head) (natural : NaturalLoop g head tail b) :
    Reaches g.Bsucc startblock b := by
  rcases natural with rfl | ⟨-, path⟩
  · exact edge.reached.tail edge.edge
  · induction path using Relation.ReflTransGen.head_induction_on with
    | refl => exact edge.reached
    | head step _ inductionHypothesis =>
      exact closed _ inductionHypothesis _ (Flowgraph.mem_Bpred.2 step.1)

/-- `findloops` builds the natural loops of the graph, one for each head of a back edge. -/
theorem findloops_natural (closed : Closed g startblock) (dominated : Dominated g startblock bo)
    (Bweight : Fin n → Nat) :
    ((findloops g bo Bweight).loops.map Loop.Lhead).Nodup ∧
      (∀ head, head ∈ (findloops g bo Bweight).loops.map Loop.Lhead ↔
        ∃ tail, BackEdge g startblock tail head) ∧
      ∀ l ∈ (findloops g bo Bweight).loops, Natural g startblock bo l := by
  have ordered := dominated.ordered
  have listed : ∀ edge ∈ backEdges g bo, edge.1 ∈ bo.dfo ∧ edge.2 ∈ bo.dfo := by
    rintro ⟨tail, head⟩ member
    have edge := (mem_backEdges dominated).1 member
    exact ⟨ordered.listed.2 edge.reached, ordered.listed.2 (edge.reached.tail edge.edge)⟩
  have none : Built g bo [] ([] : List (Loop n)) :=
    ⟨List.nodup_nil, by simp, fun l member => absurd member List.not_mem_nil⟩
  have built : Built g bo ([] ++ backEdges g bo) ((backEdges g bo).foldl
      (fun loops edge => buildloop g bo loops edge.2 edge.1)
      { loops := [], Bweight := fun b => if b ∈ bo.dfo then 1 else Bweight b }).loops :=
    foldl_buildloop_built closed ordered none listed
  rw [← findloops_eq, List.nil_append] at built
  refine ⟨built.distinct, fun head => ?_, fun l member => ?_⟩
  · rw [built.heads]
    exact exists_congr fun tail => mem_backEdges dominated
  · have loopOf := built.loopOf l member
    refine ⟨fun b => ?_, fun b => ?_, fun p => ?_⟩
    · by_cases inDfo : b ∈ bo.dfo
      · rw [loopOf.blocks b inDfo]
        exact exists_congr fun tail => and_congr_left fun _ => mem_backEdges dominated
      · refine ⟨fun inside => absurd inside.1 inDfo, fun ⟨tail, edge, natural⟩ => ?_⟩
        exact absurd (ordered.listed.2 (natural.reached closed edge)) inDfo
    · rw [loopOf.exits]
      exact (findExits_spec ordered l.Lloop).2 b
    · have headReached : Reaches g.Bsucc startblock l.Lhead := by
        obtain ⟨tail, inEdges⟩ := (built.heads l.Lhead).1 (List.mem_map_of_mem member)
        have edge := (mem_backEdges dominated).1 inEdges
        exact edge.reached.tail edge.edge
      rw [loopOf.preheader]
      exact (findPreheader_spec (g.Bpred l.Lhead)
        (fun q isPred => ordered.listed.2 (closed _ headReached q isPred))
        (fun q isPred => Flowgraph.mem_Bpred.1 isPred) p).1

/-! ### The analysis -/

/-- A loop of two blocks between an entry and a return. -/
def whileGraph : Flowgraph 4 where
  bc := ![.goto_, .iftrue, .goto_, .ret]
  Bsucc := ![[1], [2, 3], [1], []]
  Bpred := ![[], [0, 2], [1], [1]]
  mirrors := by decide

/-- The blocks before the optimiser has run. -/
def fresh (n : Nat) : BlockOpt n where
  dfo := []
  Bdfoidx := fun _ => 0
  Bdom := fun _ => []

end LaserD.Flow
