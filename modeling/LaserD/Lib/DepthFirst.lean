/-
This file is about depth-first search of a finite graph. `next` lists the
successors of a node. A search works off a list of nodes against a set of nodes
that have been seen: a seen node is skipped, an unseen one becomes the root of a
tree, below which stands the forest of the search of its successors.

The forest of a search holds exactly the nodes that are reached from the list
through unseen nodes, each of them once, and it is depth first: a successor of
one of its nodes was seen before the search, or is finished before the node, or
is an ancestor of it. The last section turns a recursive procedure that marks
what it visits, folded over a list of nodes, into such a search.
-/

import Mathlib.Data.Fintype.Card
import Mathlib.Data.Finset.Card
import Mathlib.Logic.Relation

namespace DepthFirst

variable {Node : Type}

/-! ### Forests -/

/-- A forest: the root of its first tree, the forest below that root, and the trees beside. -/
inductive Forest (Node : Type) where
  | bare
  | tree (root : Node) (below beside : Forest Node)

/-- The nodes of a forest in the order in which a search leaves them. -/
def Forest.postorder : Forest Node → List Node
  | .bare => []
  | .tree root below beside => below.postorder ++ root :: beside.postorder

/-- The roots of the trees of a forest. -/
def Forest.roots : Forest Node → List Node
  | .bare => []
  | .tree root _ beside => root :: beside.roots

/-- Every child in the forest is a successor of its parent. -/
def Forest.Follows (next : Node → List Node) : Forest Node → Prop
  | .bare => True
  | .tree root below beside =>
    (∀ child ∈ below.roots, child ∈ next root) ∧ below.Follows next ∧ beside.Follows next

/-- One node is another one or stands on the way from its root to it. -/
def Forest.Above : Forest Node → Node → Node → Prop
  | .bare, _, _ => False
  | .tree root below beside, upper, lower =>
    (upper = root ∧ (lower = root ∨ lower ∈ below.postorder)) ∨
      below.Above upper lower ∨ beside.Above upper lower

/-- One entry of a list stands in front of another. -/
def Before (list : List Node) (first second : Node) : Prop :=
  ∃ front back, list = front ++ back ∧ first ∈ front ∧ second ∈ back

/-- A forest is depth first when each successor of one of its nodes is finished before the
node or is one of its ancestors. -/
def Forest.IsDepthFirst (next : Node → List Node) (forest : Forest Node) : Prop :=
  ∀ node ∈ forest.postorder, ∀ other ∈ next node,
    Before forest.postorder other node ∨ forest.Above other node

theorem Before.append_left {list : List Node} {first second : Node}
    (before : Before list first second) (front : List Node) :
    Before (front ++ list) first second := by
  obtain ⟨front', back, rfl, inFront, inBack⟩ := before
  exact ⟨front ++ front', back, (List.append_assoc _ _ _).symm,
    List.mem_append_right front inFront, inBack⟩

theorem Before.append_right {list : List Node} {first second : Node}
    (before : Before list first second) (back : List Node) :
    Before (list ++ back) first second := by
  obtain ⟨front, back', rfl, inFront, inBack⟩ := before
  exact ⟨front, back' ++ back, List.append_assoc _ _ _, inFront, List.mem_append_left back inBack⟩

theorem Before.mem_left {list : List Node} {first second : Node}
    (before : Before list first second) : first ∈ list := by
  obtain ⟨front, back, rfl, inFront, -⟩ := before
  exact List.mem_append_left back inFront

theorem Forest.mem_postorder_tree {root node : Node} {below beside : Forest Node} :
    node ∈ (Forest.tree root below beside).postorder ↔
      node ∈ below.postorder ∨ node = root ∨ node ∈ beside.postorder := by
  rw [postorder, List.mem_append, List.mem_cons]

theorem Forest.Above.mem {forest : Forest Node} {upper lower : Node}
    (above : forest.Above upper lower) : upper ∈ forest.postorder := by
  induction forest with
  | bare => exact above.elim
  | tree root below beside belowHypothesis besideHypothesis =>
    rw [mem_postorder_tree]
    rcases above with ⟨same, -⟩ | above | above
    · exact Or.inr (Or.inl same)
    · exact Or.inl (belowHypothesis above)
    · exact Or.inr (Or.inr (besideHypothesis above))

theorem Forest.roots_mem {forest : Forest Node} {root : Node} (member : root ∈ forest.roots) :
    root ∈ forest.postorder := by
  induction forest with
  | bare => exact absurd member List.not_mem_nil
  | tree top below beside _ besideHypothesis =>
    rw [mem_postorder_tree]
    rcases List.mem_cons.1 member with rfl | inside
    · exact Or.inr (Or.inl rfl)
    · exact Or.inr (Or.inr (besideHypothesis inside))

/-- The nodes of a forest are reached from its roots. -/
theorem Forest.Follows.reached {next : Node → List Node} {forest : Forest Node}
    (follows : forest.Follows next) :
    ∀ node ∈ forest.postorder, ∃ root ∈ forest.roots,
      Relation.ReflTransGen (fun parent child => child ∈ next parent ∧ child ∈ forest.postorder)
        root node := by
  induction forest with
  | bare => exact fun node member => absurd member List.not_mem_nil
  | tree root below beside belowHypothesis besideHypothesis =>
    obtain ⟨children, followsBelow, followsBeside⟩ := follows
    intro node member
    rcases mem_postorder_tree.1 member with inside | rfl | inside
    · obtain ⟨child, isRoot, path⟩ := belowHypothesis followsBelow node inside
      refine ⟨root, List.mem_cons_self, ?_⟩
      refine Relation.ReflTransGen.head
        ⟨children child isRoot, mem_postorder_tree.2 (Or.inl (roots_mem isRoot))⟩ ?_
      refine Relation.ReflTransGen.mono ?_ _ _ path
      exact fun _ _ step => ⟨step.1, mem_postorder_tree.2 (Or.inl step.2)⟩
    · exact ⟨node, List.mem_cons_self, Relation.ReflTransGen.refl⟩
    · obtain ⟨other, isRoot, path⟩ := besideHypothesis followsBeside node inside
      refine ⟨other, List.mem_cons_of_mem _ isRoot, ?_⟩
      refine Relation.ReflTransGen.mono ?_ _ _ path
      exact fun _ _ step => ⟨step.1, mem_postorder_tree.2 (Or.inr (Or.inr step.2))⟩

/-! ### Searches -/

/-- The search of a list of nodes against a set of seen ones, with the forest it builds. -/
inductive Search [DecidableEq Node] (next : Node → List Node) :
    Finset Node → List Node → Forest Node → Prop
  | done (seen : Finset Node) : Search next seen [] .bare
  | skip {seen : Finset Node} {node : Node} {rest : List Node} {forest : Forest Node} :
      node ∈ seen → Search next seen rest forest → Search next seen (node :: rest) forest
  | visit {seen : Finset Node} {node : Node} {rest : List Node} {below beside : Forest Node} :
      node ∉ seen → Search next (insert node seen) (next node) below →
      Search next (insert node seen ∪ below.postorder.toFinset) rest beside →
      Search next seen (node :: rest) (.tree node below beside)

section Searches

variable [DecidableEq Node] {next : Node → List Node} {seen : Finset Node} {nodes : List Node}
  {forest : Forest Node}

/-- No node of the forest was seen before the search. -/
theorem Search.fresh (search : Search next seen nodes forest) :
    ∀ node ∈ forest.postorder, node ∉ seen := by
  induction search with
  | done seen => exact fun node member => absurd member List.not_mem_nil
  | skip _ _ inductionHypothesis => exact inductionHypothesis
  | visit unseen _ _ belowHypothesis besideHypothesis =>
    intro node member inSeen
    rcases Forest.mem_postorder_tree.1 member with inside | rfl | inside
    · exact belowHypothesis node inside (Finset.mem_insert_of_mem inSeen)
    · exact unseen inSeen
    · exact besideHypothesis node inside
        (Finset.mem_union_left _ (Finset.mem_insert_of_mem inSeen))

/-- The forest holds each of its nodes once. -/
theorem Search.nodup (search : Search next seen nodes forest) : forest.postorder.Nodup := by
  induction search with
  | done seen => exact List.nodup_nil
  | skip _ _ inductionHypothesis => exact inductionHypothesis
  | visit unseen searchBelow searchBeside belowHypothesis besideHypothesis =>
    rw [Forest.postorder, List.nodup_append]
    refine ⟨belowHypothesis, List.nodup_cons.2 ⟨fun member => ?_, besideHypothesis⟩, ?_⟩
    · exact searchBeside.fresh _ member
        (Finset.mem_union_left _ (Finset.mem_insert_self _ _))
    · rintro node inside other member rfl
      rcases List.mem_cons.1 member with rfl | beside
      · exact searchBelow.fresh _ inside (Finset.mem_insert_self _ _)
      · exact searchBeside.fresh _ beside
          (Finset.mem_union_right _ (List.mem_toFinset.2 inside))

/-- Every node of the list is seen or in the forest. -/
theorem Search.covers (search : Search next seen nodes forest) :
    ∀ node ∈ nodes, node ∈ seen ∨ node ∈ forest.postorder := by
  induction search with
  | done seen => exact fun node member => absurd member List.not_mem_nil
  | skip inSeen _ inductionHypothesis =>
    intro node member
    rcases List.mem_cons.1 member with rfl | inside
    · exact Or.inl inSeen
    · exact inductionHypothesis node inside
  | visit unseen _ _ _ besideHypothesis =>
    intro node member
    rw [Forest.mem_postorder_tree]
    rcases List.mem_cons.1 member with rfl | inside
    · exact Or.inr (Or.inr (Or.inl rfl))
    · rcases besideHypothesis node inside with seenThen | beside
      · simp only [Finset.mem_union, Finset.mem_insert, List.mem_toFinset] at seenThen
        tauto
      · exact Or.inr (Or.inr (Or.inr beside))

/-- The roots of the forest are nodes of the list. -/
theorem Search.roots (search : Search next seen nodes forest) :
    ∀ root ∈ forest.roots, root ∈ nodes := by
  induction search with
  | done seen => exact fun node member => absurd member List.not_mem_nil
  | skip _ _ inductionHypothesis =>
    exact fun root member => List.mem_cons_of_mem _ (inductionHypothesis root member)
  | visit _ _ _ _ besideHypothesis =>
    intro root member
    rcases List.mem_cons.1 member with rfl | inside
    · exact List.mem_cons_self
    · exact List.mem_cons_of_mem _ (besideHypothesis root inside)

/-- The children of a node of the forest are successors of it. -/
theorem Search.follows (search : Search next seen nodes forest) : forest.Follows next := by
  induction search with
  | done seen => trivial
  | skip _ _ inductionHypothesis => exact inductionHypothesis
  | visit _ searchBelow _ belowHypothesis besideHypothesis =>
    exact ⟨searchBelow.roots, belowHypothesis, besideHypothesis⟩

/-- A successor of a node of the forest was seen before the search, or is finished before the
node, or is an ancestor of it. -/
theorem Search.finished (search : Search next seen nodes forest) :
    ∀ node ∈ forest.postorder, ∀ other ∈ next node,
      other ∈ seen ∨ Before forest.postorder other node ∨ forest.Above other node := by
  induction search with
  | done seen => exact fun node member => absurd member List.not_mem_nil
  | skip _ _ inductionHypothesis => exact inductionHypothesis
  | @visit seen root rest below beside unseen searchBelow searchBeside belowHypothesis
      besideHypothesis =>
    intro node member other isNext
    rcases Forest.mem_postorder_tree.1 member with inside | rfl | inside
    · rcases belowHypothesis node inside other isNext with seenThen | before | above
      · rcases Finset.mem_insert.1 seenThen with rfl | inSeen
        · exact Or.inr (Or.inr (Or.inl ⟨rfl, Or.inr inside⟩))
        · exact Or.inl inSeen
      · exact Or.inr (Or.inl (before.append_right _))
      · exact Or.inr (Or.inr (Or.inr (Or.inl above)))
    · rcases searchBelow.covers other isNext with seenThen | below'
      · rcases Finset.mem_insert.1 seenThen with rfl | inSeen
        · exact Or.inr (Or.inr (Or.inl ⟨rfl, Or.inl rfl⟩))
        · exact Or.inl inSeen
      · exact Or.inr (Or.inl ⟨below.postorder, node :: beside.postorder, rfl, below',
          List.mem_cons_self⟩)
    · rcases besideHypothesis node inside other isNext with seenThen | before | above
      · rcases Finset.mem_union.1 seenThen with earlier | below'
        · rcases Finset.mem_insert.1 earlier with rfl | inSeen
          · refine Or.inr (Or.inl ⟨below.postorder ++ [other], beside.postorder, ?_, ?_, inside⟩)
            · rw [Forest.postorder, List.append_assoc, List.singleton_append]
            · exact List.mem_append_right _ List.mem_cons_self
          · exact Or.inl inSeen
        · exact Or.inr (Or.inl ⟨below.postorder, root :: beside.postorder, rfl,
            List.mem_toFinset.1 below', List.mem_cons_of_mem _ inside⟩)
      · refine Or.inr (Or.inl ?_)
        rw [Forest.postorder, ← List.singleton_append, ← List.append_assoc]
        exact before.append_left _
      · exact Or.inr (Or.inr (Or.inr (Or.inr above)))

/-- The step from a node to a successor that has not been seen. -/
def Unseen (next : Node → List Node) (seen : Finset Node) (node other : Node) : Prop :=
  other ∈ next node ∧ other ∉ seen

/-- The forest of a search holds exactly the nodes that are reached from the list through
unseen nodes. -/
theorem Search.mem_iff (search : Search next seen nodes forest) {node : Node} :
    node ∈ forest.postorder ↔
      ∃ root ∈ nodes, root ∉ seen ∧ Relation.ReflTransGen (Unseen next seen) root node := by
  constructor
  · intro member
    obtain ⟨root, isRoot, path⟩ := search.follows.reached node member
    refine ⟨root, search.roots root isRoot, ?_, ?_⟩
    · exact search.fresh root (Forest.roots_mem isRoot)
    · refine Relation.ReflTransGen.mono ?_ _ _ path
      exact fun _ child step => ⟨step.1, search.fresh child step.2⟩
  · rintro ⟨root, member, unseen, path⟩
    induction path with
    | refl => exact (search.covers root member).resolve_left unseen
    | tail _ step inductionHypothesis =>
      rcases search.finished _ inductionHypothesis _ step.1 with inSeen | before | above
      · exact absurd inSeen step.2
      · exact before.mem_left
      · exact above.mem

/-- A search against the empty set builds a depth-first forest. -/
theorem Search.depthFirst (search : Search next ∅ nodes forest) : forest.IsDepthFirst next := by
  intro node member other isNext
  exact (search.finished node member other isNext).resolve_left (Finset.notMem_empty other)

end Searches

/-! ### Procedures that search -/

/-- A procedure that is run on every node of a list searches the list, when on an unseen node
it searches the successors of the node, and on a seen one does nothing. `Good` is an invariant of
the state, `Grew` is what the procedure does to the rest of the state while it works off
nodes. -/
theorem exists_search_foldl [Fintype Node] [DecidableEq Node] {State : Type}
    (next : Node → List Node) (inside : Node → Prop) (seen : State → Finset Node)
    (Good : State → Prop) (Grew : State → List Node → State → Prop)
    (run : State → Node → State) (bound : Nat)
    (refl : ∀ state, Grew state [] state)
    (trans : ∀ {state middle final first second}, Grew state first middle →
      Grew middle second final → Grew state (first ++ second) final)
    (skip : ∀ {state node}, inside node → node ∈ seen state → run state node = state)
    (visit : ∀ {state node}, inside node → Good state → (seen state)ᶜ.card ≤ bound →
      node ∉ seen state → ∃ below, Search next (insert node (seen state)) (next node) below ∧
        seen (run state node) = insert node (seen state) ∪ below.postorder.toFinset ∧
        Good (run state node) ∧ Grew state (below.postorder ++ [node]) (run state node))
    (nodes : List Node) (allInside : ∀ node ∈ nodes, inside node) (state : State)
    (good : Good state) (enough : (seen state)ᶜ.card ≤ bound) :
    ∃ forest, Search next (seen state) nodes forest ∧
      seen (nodes.foldl run state) = seen state ∪ forest.postorder.toFinset ∧
      Good (nodes.foldl run state) ∧ Grew state forest.postorder (nodes.foldl run state) := by
  induction nodes generalizing state with
  | nil =>
    exact ⟨.bare, .done _, (Finset.union_empty _).symm, good, refl state⟩
  | cons node rest inductionHypothesis =>
    have restInside : ∀ other ∈ rest, inside other :=
      fun other member => allInside other (List.mem_cons_of_mem _ member)
    rw [List.foldl_cons]
    by_cases inSeen : node ∈ seen state
    · rw [skip (allInside node List.mem_cons_self) inSeen]
      obtain ⟨forest, search, after⟩ := inductionHypothesis restInside state good enough
      exact ⟨forest, .skip inSeen search, after⟩
    · obtain ⟨below, search, seenAfter, goodAfter, grew⟩ :=
        visit (allInside node List.mem_cons_self) good enough inSeen
      have enough' : (seen (run state node))ᶜ.card ≤ bound := by
        refine le_trans (Finset.card_le_card (Finset.compl_subset_compl.2 ?_)) enough
        rw [seenAfter]
        exact (Finset.subset_insert _ _).trans Finset.subset_union_left
      obtain ⟨beside, searchRest, seenRest, goodRest, grewRest⟩ :=
        inductionHypothesis restInside (run state node) goodAfter enough'
      refine ⟨.tree node below beside, ?_, ?_, goodRest, ?_⟩
      · rw [seenAfter] at searchRest
        exact .visit inSeen search searchRest
      · rw [seenRest, seenAfter]
        ext other
        simp only [Finset.mem_union, Finset.mem_insert, List.mem_toFinset,
          Forest.mem_postorder_tree]
        tauto
      · have joined := trans grew grewRest
        rwa [List.append_assoc, List.singleton_append] at joined

/-- Marking an unseen node leaves fewer nodes unseen. -/
theorem card_compl_insert_le [Fintype Node] [DecidableEq Node] {seen : Finset Node} {node : Node}
    {fuel : Nat} (unseen : node ∉ seen) (enough : seenᶜ.card ≤ fuel + 1) :
    (insert node seen)ᶜ.card ≤ fuel := by
  have fewer : (insert node seen)ᶜ.card < seenᶜ.card := by
    refine Finset.card_lt_card (Finset.compl_ssubset_compl.2 ?_)
    exact Finset.ssubset_insert unseen
  exact Nat.le_of_lt_succ (lt_of_lt_of_le fewer enough)

end DepthFirst
