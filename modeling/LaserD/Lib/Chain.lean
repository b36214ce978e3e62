/-
This file is about singly linked chains in a store of nodes. `next` reads the
successor of a node, `start` is the pointer to the first node, and a list of
nodes is the chain from `start` when following `next` visits exactly the nodes
of the list, in order, and ends at the null pointer.

A chain is determined by its start and visits no node twice, a store that agrees
on the nodes of a chain has the same chain, and linking a fresh node behind the
last node of a chain appends it.
-/

import Mathlib.Data.List.Basic
import Mathlib.Logic.Function.Basic

namespace Chain

variable {Node : Type}

/-- The nodes visited from `start` are those of the list, and the walk ends there. -/
def Linked (next : Node → Option Node) : Option Node → List Node → Prop
  | start, [] => start = none
  | start, node :: rest => start = some node ∧ Linked next (next node) rest

theorem linked_nil {next : Node → Option Node} {start : Option Node} :
    Linked next start [] ↔ start = none := Iff.rfl

theorem linked_cons {next : Node → Option Node} {start : Option Node} {node : Node}
    {rest : List Node} :
    Linked next start (node :: rest) ↔ start = some node ∧ Linked next (next node) rest := Iff.rfl

/-- A chain is determined by its start. -/
theorem Linked.unique {next : Node → Option Node} {start : Option Node} {first second : List Node}
    (left : Linked next start first) (right : Linked next start second) : first = second := by
  induction first generalizing start second with
  | nil =>
    cases second with
    | nil => rfl
    | cons node rest => exact absurd (right.1.symm.trans left) (Option.some_ne_none node)
  | cons node rest inductionHypothesis =>
    cases second with
    | nil => exact absurd (left.1.symm.trans right) (Option.some_ne_none node)
    | cons other others =>
      have same : node = other := Option.some.inj (left.1.symm.trans right.1)
      rw [← same] at right ⊢
      rw [inductionHypothesis left.2 right.2]

/-- The nodes behind a node of a chain are a chain from its successor. -/
theorem Linked.behind {next : Node → Option Node} {start : Option Node} {before after : List Node}
    {node : Node} (linked : Linked next start (before ++ node :: after)) :
    Linked next (next node) after := by
  induction before generalizing start with
  | nil => exact linked.2
  | cons first rest inductionHypothesis => exact inductionHypothesis linked.2

/-- A chain that ends visits no node twice. -/
theorem Linked.nodup {next : Node → Option Node} {start : Option Node} {nodes : List Node}
    (linked : Linked next start nodes) : nodes.Nodup := by
  induction nodes generalizing start with
  | nil => exact List.nodup_nil
  | cons node rest inductionHypothesis =>
    rw [List.nodup_cons]
    refine ⟨fun member => ?_, inductionHypothesis linked.2⟩
    obtain ⟨before, after, split⟩ := List.append_of_mem member
    have second := linked.2
    rw [split] at second
    have same : after = before ++ node :: after := second.behind.unique second
    have lengths := congrArg List.length same
    rw [List.length_append, List.length_cons] at lengths
    omega

/-- A store that agrees on the nodes of a chain has the same chain. -/
theorem Linked.congr {first second : Node → Option Node} {start : Option Node}
    {nodes : List Node} (linked : Linked first start nodes)
    (agree : ∀ node ∈ nodes, second node = first node) : Linked second start nodes := by
  induction nodes generalizing start with
  | nil => exact linked
  | cons node rest inductionHypothesis =>
    obtain ⟨head, tail⟩ := linked
    refine ⟨head, ?_⟩
    rw [agree node List.mem_cons_self]
    exact inductionHypothesis tail fun other member => agree other (List.mem_cons_of_mem _ member)

/-- Linking a node behind the last node of a chain appends it. -/
theorem Linked.append [DecidableEq Node] {next : Node → Option Node} {start : Option Node}
    {nodes : List Node} {last node : Node} (linked : Linked next start (nodes ++ [last]))
    (distinct : (nodes ++ [last]).Nodup) (fresh : node ∉ nodes ++ [last])
    (ends : next node = none) :
    Linked (Function.update next last (some node)) start (nodes ++ [last] ++ [node]) := by
  induction nodes generalizing start with
  | nil =>
    obtain ⟨head, _⟩ := linked
    refine ⟨head, ?_, ?_⟩
    · rw [Function.update_self]
    · have other : node ≠ last := fun same => fresh (by simp [same])
      rw [Function.update_of_ne other]
      exact ends
  | cons first rest inductionHypothesis =>
    obtain ⟨head, tail⟩ := linked
    rw [List.cons_append, List.nodup_cons] at distinct
    have other : first ≠ last := fun same => distinct.1 (by simp [same])
    refine ⟨head, ?_⟩
    rw [Function.update_of_ne other]
    exact inductionHypothesis tail distinct.2 fun member => fresh (List.mem_cons_of_mem _ member)

end Chain
