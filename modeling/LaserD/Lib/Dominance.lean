/-
This file is about dominance in a graph with a start node. A path from the start
lists the nodes it passes, a node dominates another when it lies on every path
from the start to it.

The sets of dominators satisfy the data-flow equations, a node's set being the
node itself together with what dominates all of its predecessors, and they are the
greatest sets that do: any family of sets that the equations bound from above
holds dominators only.
-/

import Mathlib.Data.List.Basic
import Mathlib.Logic.Relation

namespace Dominance

variable {Node : Type} {next : Node → List Node} {start : Node}

/-- A path from the start, with the nodes it passes, first node first. -/
inductive Path (next : Node → List Node) (start : Node) : List Node → Node → Prop
  | start : Path next start [start] start
  | step {passed : List Node} {node other : Node} :
      Path next start passed node → other ∈ next node → Path next start (passed ++ [other]) other

/-- One node is reached from another along successors. -/
def Reaches (next : Node → List Node) : Node → Node → Prop :=
  Relation.ReflTransGen fun node other => other ∈ next node

/-- One node lies on every path from the start to another. -/
def Dominates (next : Node → List Node) (start dominator node : Node) : Prop :=
  ∀ passed, Path next start passed node → dominator ∈ passed

/-- What is reached from the start is the end of a path. -/
theorem exists_path {node : Node} (reached : Reaches next start node) :
    ∃ passed, Path next start passed node := by
  induction reached with
  | refl => exact ⟨[start], .start⟩
  | tail _ isNext inductionHypothesis =>
    obtain ⟨passed, path⟩ := inductionHypothesis
    exact ⟨passed ++ [_], path.step isNext⟩

/-- The nodes of a path are reached from the start. -/
theorem Path.reaches {passed : List Node} {node : Node} (path : Path next start passed node) :
    Reaches next start node := by
  induction path with
  | start => exact Relation.ReflTransGen.refl
  | step _ isNext inductionHypothesis => exact inductionHypothesis.tail isNext

theorem Path.start_mem {passed : List Node} {node : Node} (path : Path next start passed node) :
    start ∈ passed := by
  induction path with
  | start => exact List.mem_cons_self
  | step _ _ inductionHypothesis => exact List.mem_append_left _ inductionHypothesis

theorem Path.end_mem {passed : List Node} {node : Node} (path : Path next start passed node) :
    node ∈ passed := by
  cases path with
  | start => exact List.mem_cons_self
  | step _ _ => exact List.mem_append_right _ List.mem_cons_self

/-- Every node of a path is reached from the start. -/
theorem Path.reaches_of_mem {passed : List Node} {node other : Node}
    (path : Path next start passed node) (member : other ∈ passed) : Reaches next start other := by
  induction path with
  | start =>
    rw [List.mem_singleton.1 member]
    exact Relation.ReflTransGen.refl
  | step path isNext inductionHypothesis =>
    rcases List.mem_append.1 member with earlier | last
    · exact inductionHypothesis earlier
    · rw [List.mem_singleton.1 last]
      exact (path.step isNext).reaches

/-- A node dominates itself. -/
theorem dominates_self (node : Node) : Dominates next start node node :=
  fun _ path => path.end_mem

/-- Only the start dominates the start. -/
theorem dominates_start_iff {dominator : Node} :
    Dominates next start dominator start ↔ dominator = start := by
  refine ⟨fun dominates => List.mem_singleton.1 (dominates [start] .start), ?_⟩
  rintro rfl
  exact dominates_self dominator

/-- What dominates a node and is not the node dominates its predecessors. -/
theorem Dominates.of_next {dominator node other : Node}
    (dominates : Dominates next start dominator other) (isNext : other ∈ next node)
    (differs : dominator ≠ other) : Dominates next start dominator node := by
  intro passed path
  refine (List.mem_append.1 (dominates _ (path.step isNext))).resolve_right fun last => ?_
  exact differs (List.mem_singleton.1 last)

/-- A dominator of a reached node is reached. -/
theorem Dominates.reaches {dominator node : Node} (dominates : Dominates next start dominator node)
    (reached : Reaches next start node) : Reaches next start dominator := by
  obtain ⟨passed, path⟩ := exists_path reached
  exact path.reaches_of_mem (dominates passed path)

/-- A family of sets holds dominators only, when the set of the start holds the start only and
the set of every other reached node holds the node and what the sets of its predecessors
share. -/
theorem dominates_of_family (family : Node → Node → Prop)
    (atStart : ∀ dominator, family start dominator → dominator = start)
    (atNext : ∀ {node other dominator}, Reaches next start node → other ∈ next node →
      other ≠ start → family other dominator → dominator = other ∨ family node dominator)
    {node dominator : Node} (member : family node dominator) :
    Dominates next start dominator node := by
  intro passed path
  induction path with
  | start => exact List.mem_singleton.2 (atStart dominator member)
  | @step passed node other path isNext inductionHypothesis =>
    by_cases isStart : other = start
    · rw [isStart] at member
      rw [atStart dominator member]
      exact List.mem_append_left _ path.start_mem
    · rcases atNext path.reaches isNext isStart member with rfl | earlier
      · exact List.mem_append_right _ List.mem_cons_self
      · exact List.mem_append_left _ (inductionHypothesis earlier)

end Dominance
