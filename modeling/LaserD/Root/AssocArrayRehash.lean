/-
This file proves what growing the associative array does. The buckets of a table are described by
the lists of the nodes in their chains: a node is in the chain of the bucket that the hash of its
key selects.

Linking a node into the new buckets changes its link and the head of one new bucket. The rest of
the old chain and the new chains keep their nodes, because the node is in none of them. After the
last bucket every node is in the chain of its new bucket, with the key and the value it had.
-/

import LaserD.Root.AssocArray

namespace LaserD.Root.AssocArray

open Chain

/-- The key and the value of a node. -/
def Memory.entryAt (memory : Memory) (e : Addr) : Option (Key × Value) :=
  (memory e).map fun node => (node.key, node.value)

/-- The chains of the buckets are the lists, and each node is in the chain of the bucket that the
hash of its key selects. -/
structure Chained (memory : Memory) (b : List (Option Addr)) (chains : Nat → List Addr) : Prop where
  heads : ∀ i < b.length, ∃ head, b[i]? = some head ∧ Linked memory.next head (chains i)
  placed : ∀ i, ∀ e ∈ chains i, ∃ key value, memory.entryAt e = some (key, value) ∧
    bucketOf key b.length = i

theorem bucketOf_lt (key : Key) {len : Nat} (positive : 0 < len) : bucketOf key len < len := by
  have masked : bucketOf key len ≤ len - 1 := Nat.and_le_right
  omega

theorem load_of {memory : Memory} {e : Addr} {node : aaA} (held : memory e = some node) :
    memory.load e = .ok node := by
  unfold Memory.load
  rw [held]

theorem bucketAt_of {b : List (Option Addr)} {i : Nat} {head : Option Addr}
    (held : b[i]? = some head) : bucketAt b i = .ok head := by
  unfold bucketAt
  rw [held]

theorem next_of {memory : Memory} {e : Addr} {node : aaA} (held : memory e = some node) :
    memory.next e = node.next := by
  unfold Memory.next
  rw [held]
  rfl

theorem entryAt_of {memory : Memory} {e : Addr} {node : aaA} (held : memory e = some node) :
    memory.entryAt e = some (node.key, node.value) := by
  unfold Memory.entryAt
  rw [held]
  rfl

/-- A node with a key and a value is held. -/
theorem held_of_entryAt {memory : Memory} {e : Addr} {key : Key} {value : Value}
    (entry : memory.entryAt e = some (key, value)) :
    ∃ node, memory e = some node ∧ node.key = key ∧ node.value = value := by
  obtain ⟨node, held, same⟩ := Option.map_eq_some_iff.mp entry
  exact ⟨node, held, congrArg Prod.fst same, congrArg Prod.snd same⟩

/-- A link that is written changes no key and no value. -/
theorem entryAt_update_next {memory : Memory} {e : Addr} {node : aaA} (held : memory e = some node)
    (next : Option Addr) (other : Addr) :
    Memory.entryAt (Function.update memory e (some { node with next := next })) other =
      memory.entryAt other := by
  by_cases same : other = e
  · rw [same, entryAt_of held]
    unfold Memory.entryAt
    rw [Function.update_self]
    rfl
  · unfold Memory.entryAt
    rw [Function.update_of_ne same]

/-- A write to a node leaves the links of the others. -/
theorem next_update_of_ne {memory : Memory} {e other : Addr} (node : aaA) (differ : other ≠ e) :
    Memory.next (Function.update memory e (some node)) other = memory.next other := by
  unfold Memory.next
  rw [Function.update_of_ne differ]

/-- A chain keeps its nodes when a node outside it is written. -/
theorem linked_update {memory : Memory} {e : Addr} {head : Option Addr} {chain : List Addr}
    (node : aaA) (linked : Linked memory.next head chain) (outside : e ∉ chain) :
    Linked (Memory.next (Function.update memory e (some node))) head chain :=
  linked.congr fun _ member =>
    next_update_of_ne node fun same => outside (same ▸ member)

namespace Chained

variable {memory : Memory} {b : List (Option Addr)} {chains : Nat → List Addr}

/-- A node is in one chain only. -/
theorem same_chain (chained : Chained memory b chains) {i j : Nat} {e : Addr}
    (first : e ∈ chains i) (second : e ∈ chains j) : i = j := by
  obtain ⟨key, value, entry, bucket⟩ := chained.placed i e first
  obtain ⟨key', value', entry', bucket'⟩ := chained.placed j e second
  rw [entry] at entry'
  have keys : key = key' := congrArg Prod.fst (Option.some.inj entry')
  rw [← bucket, ← bucket', keys]

/-- A node that is in no chain becomes the first of its new chain. -/
theorem push (chained : Chained memory b chains) {e : Addr} {node : aaA} {head : Option Addr}
    (held : memory e = some node) (fresh : ∀ i, e ∉ chains i)
    (first : b[bucketOf node.key b.length]? = some head) :
    Chained (Function.update memory e (some { node with next := head }))
      (b.set (bucketOf node.key b.length) (some e))
      (Function.update chains (bucketOf node.key b.length)
        (e :: chains (bucketOf node.key b.length))) where
  heads := by
    intro i bound
    rw [List.length_set] at bound
    obtain ⟨old, atOld, linked⟩ := chained.heads i bound
    have kept := linked_update { node with next := head } linked (fresh i)
    by_cases same : i = bucketOf node.key b.length
    · rw [← same] at first ⊢
      refine ⟨some e, List.getElem?_set_self bound, ?_⟩
      rw [Function.update_self, linked_cons]
      refine ⟨rfl, ?_⟩
      rw [next_of (Function.update_self ..)]
      rw [Option.some.inj (atOld.symm.trans first)] at kept
      exact kept
    · refine ⟨old, ?_, ?_⟩
      · rw [List.getElem?_set_ne (Ne.symm same)]
        exact atOld
      · rw [Function.update_of_ne same]
        exact kept
  placed := by
    intro i other member
    rw [entryAt_update_next held, List.length_set]
    by_cases same : i = bucketOf node.key b.length
    · rw [same, Function.update_self, List.mem_cons] at member
      rcases member with first | rest
      · rw [first, entryAt_of held]
        exact ⟨node.key, node.value, rfl, same.symm⟩
      · rw [same]
        exact chained.placed _ other rest
    · rw [Function.update_of_ne same] at member
      exact chained.placed i other member

end Chained

/-! ### Relinking -/

/-- The nodes of a chain are moved to the new buckets. -/
theorem rehashBucket_moves {len : Nat} (positive : 0 < len) (todo : List Addr) :
    ∀ (fuel : Nat) (start : Option Addr) (memory : Memory) (newb : List (Option Addr))
      (chains : Nat → List Addr), todo.length ≤ fuel → Linked memory.next start todo →
      (∀ e ∈ todo, (memory e).isSome = true) → newb.length = len → Chained memory newb chains →
      (∀ i, ∀ e ∈ todo, e ∉ chains i) →
      ∃ memory' newb' chains', rehashBucket len fuel start memory newb = .ok (memory', newb') ∧
        newb'.length = len ∧ Chained memory' newb' chains' ∧
        (∀ e, memory'.entryAt e = memory.entryAt e) ∧ (∀ e, e ∉ todo → memory' e = memory e) ∧
        ∀ i e, e ∈ chains' i ↔ e ∈ chains i ∨ e ∈ todo ∧
          ∃ key value, memory.entryAt e = some (key, value) ∧ bucketOf key len = i := by
  induction todo with
  | nil =>
    intro fuel start memory newb chains _ linked _ length chained _
    rw [linked_nil] at linked
    refine ⟨memory, newb, chains, ?_, length, chained, fun _ => rfl, fun _ _ => rfl, ?_⟩
    · rw [linked]
      cases fuel <;> rfl
    · intro i e
      constructor
      · exact Or.inl
      · rintro (member | ⟨member, _⟩)
        · exact member
        · exact absurd member List.not_mem_nil
  | cons e rest inductionHypothesis =>
    intro fuel start memory newb chains enough linked present length chained apart
    have once : e ∉ rest := (List.nodup_cons.mp linked.nodup).1
    obtain ⟨head, tail⟩ := linked
    obtain ⟨node, held⟩ := Option.isSome_iff_exists.mp (present e List.mem_cons_self)
    rw [next_of held] at tail
    cases fuel with
    | zero => simp at enough
    | succ fuel =>
      have inside : bucketOf node.key newb.length < newb.length :=
        bucketOf_lt node.key (length ▸ positive)
      obtain ⟨first, atFirst, _⟩ := chained.heads _ inside
      have pushed := chained.push held (fun i => apart i e List.mem_cons_self) atFirst
      rw [length] at pushed atFirst
      set moved : Memory := Function.update memory e (some { node with next := first }) with movedEq
      set buckets := newb.set (bucketOf node.key len) (some e) with bucketsEq
      set linked' := Function.update chains (bucketOf node.key len)
        (e :: chains (bucketOf node.key len)) with linkedEq
      have entries : ∀ other, moved.entryAt other = memory.entryAt other :=
        fun other => entryAt_update_next held first other
      have members : ∀ i other, other ∈ linked' i ↔
          other ∈ chains i ∨ other = e ∧ bucketOf node.key len = i := by
        intro i other
        by_cases same : i = bucketOf node.key len
        · rw [linkedEq, same, Function.update_self, List.mem_cons]
          tauto
        · rw [linkedEq, Function.update_of_ne same]
          have differ : bucketOf node.key len ≠ i := Ne.symm same
          tauto
      obtain ⟨memory', newb', chains', result, length', chained', entries', kept, members'⟩ :=
        inductionHypothesis fuel node.next moved buckets linked'
          (Nat.le_of_succ_le_succ enough) (linked_update _ tail once)
          (by
            intro other member
            have differ : other ≠ e := fun same => once (same ▸ member)
            rw [movedEq, Function.update_of_ne differ]
            exact present other (List.mem_cons_of_mem _ member))
          (by rw [bucketsEq, List.length_set, length]) pushed
          (by
            intro i other member inChain
            rcases (members i other).mp inChain with old | ⟨same, _⟩
            · exact apart i other (List.mem_cons_of_mem _ member) old
            · exact once (same ▸ member))
      refine ⟨memory', newb', chains', ?_, length', chained', ?_, ?_, ?_⟩
      · rw [head]
        show (memory.load e >>= _) = _
        rw [load_of held]
        show (bucketAt newb (bucketOf node.key len) >>= _) = _
        rw [bucketAt_of atFirst]
        exact result
      · exact fun other => (entries' other).trans (entries other)
      · intro other outside
        rw [List.mem_cons, not_or] at outside
        rw [kept other outside.2, movedEq, Function.update_of_ne outside.1]
      · intro i other
        rw [members' i other, members i other, entries other, List.mem_cons]
        have own : other = e → ((∃ key value, memory.entryAt other = some (key, value) ∧
            bucketOf key len = i) ↔ bucketOf node.key len = i) := by
          rintro rfl
          rw [entryAt_of held]
          constructor
          · rintro ⟨key, value, entry, bucket⟩
            have keys : node.key = key := congrArg Prod.fst (Option.some.inj entry)
            rw [← bucket, keys]
          · exact fun bucket => ⟨node.key, node.value, rfl, bucket⟩
        rw [or_and_right, and_congr_right own, or_assoc]

/-- The nodes of some buckets are moved to the new ones. -/
theorem rehashBuckets_moves {len : Nat} (nodes : Nat) (positive : 0 < len)
    (b : List (Option Addr)) (old : Nat → List Addr) (short : ∀ k, (old k).length ≤ nodes)
    (disjoint : ∀ k l e, e ∈ old k → e ∈ old l → k = l) (ks : List Nat) :
    ∀ (memory : Memory) (newb : List (Option Addr)) (chains : Nat → List Addr), ks.Nodup →
      (∀ k ∈ ks, ∃ head, b[k]? = some head ∧ Linked memory.next head (old k) ∧
        ∀ e ∈ old k, (memory e).isSome = true) →
      newb.length = len → Chained memory newb chains → (∀ i, ∀ k ∈ ks, ∀ e ∈ old k, e ∉ chains i) →
      ∃ memory' newb' chains', rehashBuckets len nodes b ks memory newb = .ok (memory', newb') ∧
        newb'.length = len ∧ Chained memory' newb' chains' ∧
        (∀ e, memory'.entryAt e = memory.entryAt e) ∧
        ∀ i e, e ∈ chains' i ↔ e ∈ chains i ∨ (∃ k ∈ ks, e ∈ old k) ∧
          ∃ key value, memory.entryAt e = some (key, value) ∧ bucketOf key len = i := by
  induction ks with
  | nil =>
    intro memory newb chains _ _ length chained _
    refine ⟨memory, newb, chains, rfl, length, chained, fun _ => rfl, fun i e => ?_⟩
    simp
  | cons k ks inductionHypothesis =>
    intro memory newb chains distinct linked length chained apart
    obtain ⟨head, atHead, chain, present⟩ := linked k List.mem_cons_self
    obtain ⟨memory₁, newb₁, chains₁, result₁, length₁, chained₁, entries₁, kept₁, members₁⟩ :=
      rehashBucket_moves positive (old k) nodes head memory newb chains (short k) chain present
        length chained fun i e member => apart i k List.mem_cons_self e member
    have others : ∀ l ∈ ks, ∀ e ∈ old l, e ∉ old k := by
      intro l member e inOld inFirst
      have same : l = k := disjoint l k e inOld inFirst
      exact (List.nodup_cons.mp distinct).1 (same ▸ member)
    obtain ⟨memory₂, newb₂, chains₂, result₂, length₂, chained₂, entries₂, members₂⟩ :=
      inductionHypothesis memory₁ newb₁ chains₁ (List.nodup_cons.mp distinct).2
        (by
          intro l member
          obtain ⟨start, atStart, chain, present⟩ := linked l (List.mem_cons_of_mem _ member)
          refine ⟨start, atStart, chain.congr fun e inOld => ?_, fun e inOld => ?_⟩
          · unfold Memory.next
            rw [kept₁ e (others l member e inOld)]
          · rw [kept₁ e (others l member e inOld)]
            exact present e inOld)
        length₁ chained₁
        (by
          intro i l member e inOld inChain
          rcases (members₁ i e).mp inChain with before | ⟨inFirst, _⟩
          · exact apart i l (List.mem_cons_of_mem _ member) e inOld before
          · exact others l member e inOld inFirst)
    refine ⟨memory₂, newb₂, chains₂, ?_, length₂, chained₂, ?_, ?_⟩
    · show (bucketAt b k >>= _) = _
      rw [bucketAt_of atHead]
      show (rehashBucket len nodes head memory newb >>= _) = _
      rw [result₁]
      exact result₂
    · exact fun e => (entries₂ e).trans (entries₁ e)
    · intro i e
      rw [members₂ i e, members₁ i e, entries₁ e, List.exists_mem_cons_iff, or_and_right, or_assoc]

/-- Buckets without nodes. -/
theorem chained_replicate (memory : Memory) (len : Nat) :
    Chained memory (List.replicate len none) fun _ => [] where
  heads := by
    intro i bound
    rw [List.length_replicate] at bound
    exact ⟨none, by rw [List.getElem?_replicate, if_pos bound], linked_nil.mpr rfl⟩
  placed := fun _ _ member => absurd member List.not_mem_nil

/-- Growing puts every node into the chain of its new bucket and keeps the keys and the values. -/
theorem dmd_aaRehash_moves {aa : AA} {memory : Memory} {chains : Nat → List Addr}
    (length : aa.b.length = aa.b_length) (chained : Chained memory aa.b chains)
    (short : ∀ i, (chains i).length ≤ aa.nodes) (positive : 0 < aa.b_length)
    (grown : 0 < grownLength aa.b_length) :
    ∃ memory' b' chains', dmd_aaRehash aa memory =
        .ok ({ aa with b := b', b_length := grownLength aa.b_length }, memory') ∧
      b'.length = grownLength aa.b_length ∧ Chained memory' b' chains' ∧
      (∀ e, memory'.entryAt e = memory.entryAt e) ∧
      ∀ e, (∃ i, e ∈ chains' i) ↔ ∃ i, e ∈ chains i := by
  obtain ⟨memory', b', chains', result, length', chained', entries, members⟩ :=
    rehashBuckets_moves aa.nodes grown aa.b chains short
      (fun k l e first second => chained.same_chain first second) (List.range aa.b_length) memory
      (List.replicate (grownLength aa.b_length) none) (fun _ => []) List.nodup_range
      (by
        intro k member
        rw [List.mem_range, ← length] at member
        obtain ⟨head, atHead, linked⟩ := chained.heads k member
        refine ⟨head, atHead, linked, fun e inChain => ?_⟩
        obtain ⟨key, value, entry, _⟩ := chained.placed k e inChain
        obtain ⟨node, held, _⟩ := held_of_entryAt entry
        rw [held]
        rfl)
      List.length_replicate (chained_replicate memory _)
      (fun _ _ _ _ _ => List.not_mem_nil)
  refine ⟨memory', b', chains', ?_, length', chained', entries, fun e => ?_⟩
  · show (rehashBuckets _ _ _ _ _ _ >>= _) = _
    rw [result]
    rfl
  · constructor
    · rintro ⟨i, member⟩
      rcases (members i e).mp member with none | ⟨⟨k, _, old⟩, _⟩
      · exact absurd none List.not_mem_nil
      · exact ⟨k, old⟩
    · rintro ⟨k, old⟩
      obtain ⟨key, value, entry, bucket⟩ := chained.placed k e old
      refine ⟨bucketOf key (grownLength aa.b_length), (members _ e).mpr (Or.inr ⟨⟨k, ?_, old⟩,
        key, value, entry, rfl⟩)⟩
      rw [List.mem_range, ← bucket, length]
      exact bucketOf_lt key positive

end LaserD.Root.AssocArray
