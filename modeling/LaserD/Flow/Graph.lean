/-
This file models the control-flow graph of the back end and the depth-first
order of its blocks. A block is a number below the number of blocks of the
function, its `Bsucc` and `Bpred` are the lists of the blocks it leads to and
comes from, with an entry for each edge. The two mirror each other: a graph
carries the proof that they do.

What the optimiser writes into the blocks stands in `BlockOpt`: the array `dfo`,
the position `Bdfoidx` of each block in it and the vector `Bdom` of its
dominators. A block that `compdfo` does not reach keeps what it held before.

`compdfo` lists exactly the blocks that are reached from the start block, each of
them once, in the reverse of the postorder of a depth-first tree whose root is
the start block.
-/

import LaserD.Lib.DepthFirst
import LaserD.Lib.Dominance
import Mathlib.Data.List.Count

namespace LaserD.Flow

open DepthFirst Dominance

/-! ### Blocks -/

/-- Basic block control flow operators. -/
inductive BC where
  | none | goto_ | iftrue | ret | retexp | exit | asm_ | switch_ | ifthen | jmptab | try_ | catch_
  | jump | _try | _filter | _finally | _ret | _except | jcatch | _lpad
  deriving DecidableEq, Repr

/-- Whether a block stands in a list is decided by comparing blocks. -/
instance lawfulBEqBlock (n : Nat) : LawfulBEq (Fin n) := inferInstance

/-- A control-flow graph with `n` blocks. Every edge stands once in the list of the block it
leaves and once in the list of the block it enters. -/
structure Flowgraph (n : Nat) where
  bc : Fin n → BC
  Bsucc : Fin n → List (Fin n)
  Bpred : Fin n → List (Fin n)
  mirrors : ∀ b s, (Bpred s).count b = (Bsucc b).count s

/-- Simple bit vectors, bit 0 first. The vector without bits is the null pointer. -/
abbrev Vec := List Bool

/-- What the optimiser keeps of the blocks. -/
structure BlockOpt (n : Nat) where
  dfo : List (Fin n)
  Bdfoidx : Fin n → Nat
  Bdom : Fin n → Vec

variable {n : Nat} (g : Flowgraph n)

theorem Flowgraph.mem_Bpred {g : Flowgraph n} {b s : Fin n} : b ∈ g.Bpred s ↔ s ∈ g.Bsucc b := by
  rw [← List.count_pos_iff, ← List.count_pos_iff, g.mirrors]

/-! ### Depth-first order -/

/-- The marks and the list of a walk over the blocks. -/
structure Walk (n : Nat) where
  visited : Finset (Fin n)
  dfo : List (Fin n)

/-- Add the successors of a block to the list, then the block. The first argument bounds the
depth of the recursion. -/
def walkDFO : Nat → Fin n → Walk n → Walk n
  | 0, _, walk => walk
  | fuel + 1, b, walk =>
    let walked := (g.Bsucc b).foldl
      (fun walk bs => if bs ∈ walk.visited then walk else walkDFO fuel bs walk)
      { walk with visited := insert b walk.visited }
    { walked with dfo := walked.dfo ++ [b] }

/-- Number the blocks of the list by their positions. -/
def numberDfo (dfo : List (Fin n)) (Bdfoidx : Fin n → Nat) : Fin n → Nat :=
  dfo.zipIdx.foldl (fun numbers entry => Function.update numbers entry.1 entry.2) Bdfoidx

/-- Compute depth first order. -/
def compdfo (bo : BlockOpt n) (startblock : Fin n) : BlockOpt n :=
  let dfo := (walkDFO g n startblock { visited := ∅, dfo := [] }).dfo.reverse
  { bo with dfo := dfo, Bdfoidx := numberDfo dfo bo.Bdfoidx }

/-- With a bound of as many blocks as are not visited, the walk from an unvisited block is a
search, and it lists the tree that the search builds. -/
theorem walkDFO_spec {fuel : Nat} {b : Fin n} {walk : Walk n} (unvisited : b ∉ walk.visited)
    (enough : walk.visitedᶜ.card ≤ fuel) :
    ∃ below, Search g.Bsucc (insert b walk.visited) (g.Bsucc b) below ∧
      (walkDFO g fuel b walk).visited = insert b walk.visited ∪ below.postorder.toFinset ∧
      (walkDFO g fuel b walk).dfo = walk.dfo ++ (below.postorder ++ [b]) := by
  induction fuel generalizing b walk with
  | zero =>
    have none := Finset.card_eq_zero.1 (Nat.le_zero.1 enough)
    exact absurd (Finset.mem_compl.2 unvisited) (by rw [none]; exact Finset.notMem_empty b)
  | succ fuel inductionHypothesis =>
    obtain ⟨below, search, seen, -, grew⟩ := exists_search_foldl g.Bsucc (fun _ => True)
      Walk.visited (fun _ => True) (fun before listed after => after.dfo = before.dfo ++ listed)
      (fun walk bs => if bs ∈ walk.visited then walk else walkDFO g fuel bs walk)
      fuel (fun _ => (List.append_nil _).symm)
      (fun first second => by rw [second, first, List.append_assoc])
      (fun _ member => if_pos member)
      (fun _ _ enough fresh => by
        rw [if_neg fresh]
        obtain ⟨below, search, seen, grew⟩ := inductionHypothesis fresh enough
        exact ⟨below, search, seen, trivial, grew⟩)
      (g.Bsucc b) (fun _ _ => trivial) { walk with visited := insert b walk.visited } trivial
      (card_compl_insert_le unvisited enough)
    refine ⟨below, search, seen, ?_⟩
    rw [walkDFO, grew, List.append_assoc]

/-- The tree of the walk from the start block: the root is the start block, a child is a
successor of its parent, the tree is depth first, and `compdfo` lists its nodes, last node
first. -/
structure DepthFirstTree (startblock : Fin n) (below : Forest (Fin n)) (dfo : List (Fin n)) :
    Prop where
  follows : (Forest.tree startblock below .bare).Follows g.Bsucc
  depthFirst : (Forest.tree startblock below .bare).IsDepthFirst g.Bsucc
  reversed : dfo = (Forest.tree startblock below .bare).postorder.reverse

/-- The search that `compdfo` makes. -/
theorem exists_search_compdfo (bo : BlockOpt n) (startblock : Fin n) :
    ∃ below, Search g.Bsucc ∅ [startblock] (.tree startblock below .bare) ∧
      (compdfo g bo startblock).dfo = (Forest.tree startblock below .bare).postorder.reverse := by
  obtain ⟨below, search, -, listed⟩ := @walkDFO_spec n g n startblock ⟨∅, []⟩
    (Finset.notMem_empty startblock) ((Finset.card_le_univ _).trans_eq (Fintype.card_fin n))
  refine ⟨below, .visit (Finset.notMem_empty startblock) search (.done _), ?_⟩
  rw [compdfo, listed]
  rfl

/-- `compdfo` lists the blocks in the reverse postorder of a depth-first tree. -/
theorem compdfo_reversed (bo : BlockOpt n) (startblock : Fin n) :
    ∃ below, DepthFirstTree g startblock below (compdfo g bo startblock).dfo := by
  obtain ⟨below, search, listed⟩ := exists_search_compdfo g bo startblock
  exact ⟨below, search.follows, search.depthFirst, listed⟩

/-- `compdfo` lists exactly the blocks that are reached from the start block. -/
theorem mem_compdfo (bo : BlockOpt n) (startblock : Fin n) {b : Fin n} :
    b ∈ (compdfo g bo startblock).dfo ↔ Reaches g.Bsucc startblock b := by
  obtain ⟨below, search, listed⟩ := exists_search_compdfo g bo startblock
  have steps : Unseen g.Bsucc ∅ = fun node other => other ∈ g.Bsucc node := by
    funext node other
    simp [Unseen]
  rw [listed, List.mem_reverse, search.mem_iff, steps]
  simp [Reaches]

/-- `compdfo` lists no block twice. -/
theorem nodup_compdfo (bo : BlockOpt n) (startblock : Fin n) :
    (compdfo g bo startblock).dfo.Nodup := by
  obtain ⟨below, search, listed⟩ := exists_search_compdfo g bo startblock
  rw [listed, List.nodup_reverse]
  exact search.nodup

/-- `compdfo` lists the start block first. -/
theorem head_compdfo (bo : BlockOpt n) (startblock : Fin n) :
    (compdfo g bo startblock).dfo.head? = some startblock := by
  obtain ⟨below, search, listed⟩ := exists_search_compdfo g bo startblock
  rw [listed, Forest.postorder, Forest.postorder, List.reverse_append]
  rfl

/-! ### Positions -/

theorem foldl_update_of_notMem {dfo : List (Fin n)} (k : Nat) (Bdfoidx : Fin n → Nat) {b : Fin n}
    (unlisted : b ∉ dfo) :
    (dfo.zipIdx k).foldl (fun numbers entry => Function.update numbers entry.1 entry.2) Bdfoidx b =
      Bdfoidx b := by
  induction dfo generalizing k Bdfoidx with
  | nil => rfl
  | cons first rest inductionHypothesis =>
    rw [List.mem_cons, not_or] at unlisted
    rw [List.zipIdx_cons, List.foldl_cons, inductionHypothesis _ _ unlisted.2,
      Function.update_of_ne unlisted.1]

theorem foldl_update_of_getElem {dfo : List (Fin n)} (distinct : dfo.Nodup) (k : Nat)
    (Bdfoidx : Fin n → Nat) {i : Nat} {b : Fin n} (listed : dfo[i]? = some b) :
    (dfo.zipIdx k).foldl (fun numbers entry => Function.update numbers entry.1 entry.2) Bdfoidx b =
      k + i := by
  induction dfo generalizing k Bdfoidx i with
  | nil => exact absurd listed (by simp)
  | cons first rest inductionHypothesis =>
    obtain ⟨fresh, distinctRest⟩ := List.nodup_cons.1 distinct
    rw [List.zipIdx_cons, List.foldl_cons]
    cases i with
    | zero =>
      obtain rfl : first = b := by simpa using listed
      rw [foldl_update_of_notMem _ _ fresh, Function.update_self, Nat.add_zero]
    | succ i =>
      rw [List.getElem?_cons_succ] at listed
      rw [inductionHypothesis distinctRest _ _ listed, Nat.add_assoc, Nat.add_comm 1]

/-- The number of a listed block is its position. -/
theorem Bdfoidx_compdfo (bo : BlockOpt n) (startblock : Fin n) {i : Nat} {b : Fin n}
    (listed : (compdfo g bo startblock).dfo[i]? = some b) :
    (compdfo g bo startblock).Bdfoidx b = i := by
  have number := foldl_update_of_getElem (nodup_compdfo g bo startblock) 0 bo.Bdfoidx listed
  rw [Nat.zero_add] at number
  exact number

/-- The array `dfo` lists the blocks that are reached from the start block, each once and the
start block first, and the blocks are numbered by their positions. -/
structure Ordered (startblock : Fin n) (bo : BlockOpt n) : Prop where
  listed : ∀ {b}, b ∈ bo.dfo ↔ Reaches g.Bsucc startblock b
  distinct : bo.dfo.Nodup
  first : bo.dfo.head? = some startblock
  numbered : ∀ {i b}, bo.dfo[i]? = some b → bo.Bdfoidx b = i

theorem compdfo_ordered (bo : BlockOpt n) (startblock : Fin n) :
    Ordered g startblock (compdfo g bo startblock) where
  listed := mem_compdfo g bo startblock
  distinct := nodup_compdfo g bo startblock
  first := head_compdfo g bo startblock
  numbered := Bdfoidx_compdfo g bo startblock

variable {g}

/-- The number of a listed block leads back to the block. -/
theorem Ordered.getElem_Bdfoidx {startblock : Fin n} {bo : BlockOpt n}
    (ordered : Ordered g startblock bo) {b : Fin n} (member : b ∈ bo.dfo) :
    bo.dfo[bo.Bdfoidx b]? = some b := by
  obtain ⟨i, listed⟩ := List.mem_iff_getElem?.1 member
  rw [ordered.numbered listed, listed]

theorem Ordered.Bdfoidx_lt {startblock : Fin n} {bo : BlockOpt n}
    (ordered : Ordered g startblock bo) {b : Fin n} (member : b ∈ bo.dfo) : bo.Bdfoidx b < bo.dfo.length :=
  (List.getElem?_eq_some_iff.1 (ordered.getElem_Bdfoidx member)).1

theorem Ordered.Bdfoidx_inj {startblock : Fin n} {bo : BlockOpt n}
    (ordered : Ordered g startblock bo) {b c : Fin n} (first : b ∈ bo.dfo)
    (second : c ∈ bo.dfo) (same : bo.Bdfoidx b = bo.Bdfoidx c) : b = c := by
  have listed := ordered.getElem_Bdfoidx first
  rw [same, ordered.getElem_Bdfoidx second] at listed
  exact (Option.some.inj listed).symm

theorem Ordered.getElem_zero {startblock : Fin n} {bo : BlockOpt n}
    (ordered : Ordered g startblock bo) : bo.dfo[0]? = some startblock := by
  rw [← List.head?_eq_getElem?, ordered.first]

theorem Ordered.start_mem {startblock : Fin n} {bo : BlockOpt n}
    (ordered : Ordered g startblock bo) : startblock ∈ bo.dfo :=
  ordered.listed.2 Relation.ReflTransGen.refl

end LaserD.Flow
