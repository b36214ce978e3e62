/-
This file proves that the entries of the associative array are those of a finite map: a key has the
entry of the one node that holds it.

The search of a key walks the chain of its bucket, where the node of the key must be. When there is
none, the search ends at the place of the null pointer behind the last node, and the new node is
linked there. Its address is fresh, because the node in the header serves the first key and every
other key has an allocated node of its own.
-/

import LaserD.Root.AssocArrayRehash
import Mathlib.Data.Finset.Dedup
import Mathlib.Data.List.Nodup

namespace LaserD.Root.AssocArray

open Chain

/-- The chains of a table hold the entries of a map, and there are as many nodes as keys. -/
structure Table (aa : AA) (memory : Memory) (allocated : Nat) (m : Entries)
    (chains : Nat → List Addr) : Prop where
  length : aa.b.length = aa.b_length
  positive : 0 < aa.b_length
  chained : Chained memory aa.b chains
  entries : ∀ key e value, m key = some (e, value) ↔
    (∃ i, e ∈ chains i) ∧ memory.entryAt e = some (key, value)
  counted : ∃ keys, m.HasKeys keys ∧ keys.card = aa.nodes
  addresses : ∀ i, ∀ e ∈ chains i, e = .aafirst ∨ ∃ n < allocated, e = .heap n
  room : allocated * aaA.sizeof ≤ 2 ^ 64
  allocation : (aa.nodes = 0 ∧ allocated = 0) ∨ aa.nodes = allocated + 1

/-- The number of buckets suits the number of nodes. -/
def AA.Loaded (aa : AA) : Prop :=
  aa.nodes ≤ 2 * aa.b_length ∧ aa.b_length ≤ 2 ^ 62

/-- The invariant of the states: a table that was not created yet is an empty one. -/
def Invariant (s : State) (m : Entries) : Prop :=
  ∃ chains, Table (s.aa.getD .create) s.memory s.allocated m chains ∧ (s.aa.getD .create).Loaded

theorem invariant_empty : Invariant .empty fun _ => none := by
  refine ⟨fun _ => [], ?_, by decide, by decide⟩
  refine ⟨rfl, by decide, chained_replicate _ 4, ?_, ⟨∅, ?_, rfl⟩, ?_, by decide, Or.inl ⟨rfl, rfl⟩⟩
  · intro key e value
    simp
  · intro key
    simp
  · exact fun _ _ member => absurd member List.not_mem_nil

namespace Table

variable {aa : AA} {memory : Memory} {allocated : Nat} {m : Entries} {chains : Nat → List Addr}

/-- A node of a chain is held, and its key has its entry. -/
theorem held (table : Table aa memory allocated m chains) {i : Nat} {e : Addr}
    (member : e ∈ chains i) : ∃ node, memory e = some node ∧
      bucketOf node.key aa.b_length = i ∧ m node.key = some (e, node.value) := by
  obtain ⟨key, value, entry, bucket⟩ := table.chained.placed i e member
  obtain ⟨node, held, rfl, rfl⟩ := held_of_entryAt entry
  rw [table.length] at bucket
  exact ⟨node, held, bucket, (table.entries node.key e node.value).mpr ⟨⟨i, member⟩, entry⟩⟩

/-- The node of a key is in the chain of its bucket. -/
theorem node_of (table : Table aa memory allocated m chains) {key : Key} {e : Addr} {value : Value}
    (entry : m key = some (e, value)) : e ∈ chains (bucketOf key aa.b_length) ∧
      ∃ node, memory e = some node ∧ node.key = key ∧ node.value = value := by
  obtain ⟨⟨i, member⟩, content⟩ := (table.entries key e value).mp entry
  obtain ⟨node, held, sameKey, sameValue⟩ := held_of_entryAt content
  obtain ⟨other, held', bucket, _⟩ := table.held member
  rw [held] at held'
  rw [← Option.some.inj held', sameKey] at bucket
  exact ⟨bucket ▸ member, node, held, sameKey, sameValue⟩

/-- Different keys have different nodes. -/
theorem same_key (table : Table aa memory allocated m chains) {key other : Key} {e : Addr}
    {value value' : Value} (entry : m key = some (e, value))
    (entry' : m other = some (e, value')) : key = other := by
  have content := ((table.entries key e value).mp entry).2
  rw [((table.entries other e value').mp entry').2] at content
  exact (congrArg Prod.fst (Option.some.inj content)).symm

/-- A bucket is the head of its chain. -/
theorem head_of (table : Table aa memory allocated m chains) (key : Key) :
    ∃ head, aa.b[bucketOf key aa.b_length]? = some head ∧
      Linked memory.next head (chains (bucketOf key aa.b_length)) := by
  refine table.chained.heads _ ?_
  rw [table.length]
  exact bucketOf_lt key table.positive

/-- There are no chains beyond the last bucket. -/
theorem no_chain (table : Table aa memory allocated m chains) {i : Nat}
    (outside : ¬ i < aa.b_length) : chains i = [] := by
  rw [List.eq_nil_iff_forall_not_mem]
  intro e member
  obtain ⟨node, _, bucket, _⟩ := table.held member
  exact outside (bucket ▸ bucketOf_lt node.key table.positive)

theorem chain_nodup (table : Table aa memory allocated m chains) (i : Nat) :
    (chains i).Nodup := by
  by_cases bound : i < aa.b_length
  · obtain ⟨_, _, linked⟩ := table.chained.heads i (table.length.symm ▸ bound)
    exact linked.nodup
  · rw [table.no_chain bound]
    exact List.nodup_nil

/-- Nodes of the chains that are listed once are no more than all the nodes. -/
theorem length_le (table : Table aa memory allocated m chains) {list : List Addr}
    (distinct : list.Nodup) (members : ∀ e ∈ list, ∃ i, e ∈ chains i) :
    list.length ≤ aa.nodes := by
  obtain ⟨keys, hasKeys, counted⟩ := table.counted
  let keyOf : Addr → Key := fun e => ((memory e).map (·.key)).getD 0#64
  have keyOf_eq : ∀ e ∈ list, ∃ value, m (keyOf e) = some (e, value) := by
    intro e member
    obtain ⟨i, inChain⟩ := members e member
    obtain ⟨node, held, _, entry⟩ := table.held inChain
    refine ⟨node.value, ?_⟩
    have same : keyOf e = node.key := by
      show ((memory e).map (·.key)).getD 0#64 = node.key
      rw [held]
      rfl
    rw [same]
    exact entry
  have injective : ∀ e ∈ list, ∀ e' ∈ list, keyOf e = keyOf e' → e = e' := by
    intro e member e' member' same
    obtain ⟨value, entry⟩ := keyOf_eq e member
    obtain ⟨value', entry'⟩ := keyOf_eq e' member'
    rw [same, entry'] at entry
    exact (congrArg Prod.fst (Option.some.inj entry)).symm
  have distinctKeys : (list.map keyOf).Nodup := distinct.map_on injective
  have inside : (list.map keyOf).toFinset ⊆ keys := by
    intro key member
    rw [List.mem_toFinset, List.mem_map] at member
    obtain ⟨e, inList, rfl⟩ := member
    obtain ⟨value, entry⟩ := keyOf_eq e inList
    rw [hasKeys, entry]
    rfl
  have bound := Finset.card_le_card inside
  rw [List.toFinset_card_of_nodup distinctKeys, List.length_map, counted] at bound
  exact bound

theorem chain_length_le (table : Table aa memory allocated m chains) (i : Nat) :
    (chains i).length ≤ aa.nodes :=
  table.length_le (table.chain_nodup i) fun _ member => ⟨i, member⟩

/-- A table without nodes has no entries. -/
theorem no_entry (table : Table aa memory allocated m chains) (none : aa.nodes = 0) (key : Key) :
    m key = Option.none := by
  obtain ⟨keys, hasKeys, counted⟩ := table.counted
  rw [none, Finset.card_eq_zero] at counted
  rw [← Option.not_isSome_iff_eq_none, ← hasKeys key, counted]
  exact Finset.notMem_empty key

end Table

/-! ### Searching -/

/-- Where the null pointer behind the nodes of a chain is. -/
def EndOf (pe : Place) (chain : List Addr) (last : Place) : Prop :=
  (chain = [] ∧ last = pe) ∨ ∃ before e, chain = before ++ [e] ∧ last = .next e

theorem endOf_cons {pe last : Place} {e : Addr} {rest : List Addr}
    (ends : EndOf (.next e) rest last) : EndOf pe (e :: rest) last := by
  rcases ends with ⟨rfl, rfl⟩ | ⟨before, final, rfl, rfl⟩
  · exact Or.inr ⟨[], e, rfl, rfl⟩
  · exact Or.inr ⟨e :: before, final, rfl, rfl⟩

/-- The search of a chain finds the node of the key, or the end of the chain. -/
theorem search_finds {b : List (Option Addr)} {memory : Memory} (key : Key) (chain : List Addr) :
    ∀ (fuel : Nat) (pe : Place) (head : Option Addr), chain.length < fuel →
      pe.load b memory = .ok head → Linked memory.next head chain →
      (∀ e ∈ chain, ∃ node, memory e = some node) →
      (∃ e ∈ chain, ∃ node, memory e = some node ∧ node.key = key ∧
        search b memory key fuel pe = .ok (.node e)) ∨
      ∃ last, search b memory key fuel pe = .ok (.absent last) ∧ EndOf pe chain last ∧
        ∀ e ∈ chain, ∀ node, memory e = some node → node.key ≠ key := by
  induction chain with
  | nil =>
    intro fuel pe head enough atPlace linked _
    cases fuel with
    | zero => exact absurd enough (Nat.not_lt_zero _)
    | succ fuel =>
      refine Or.inr ⟨pe, ?_, Or.inl ⟨rfl, rfl⟩, fun _ member => absurd member List.not_mem_nil⟩
      rw [linked_nil] at linked
      show (pe.load b memory >>= _) = _
      rw [atPlace, linked]
      rfl
  | cons e rest inductionHypothesis =>
    intro fuel pe head enough atPlace linked present
    cases fuel with
    | zero => exact absurd enough (Nat.not_lt_zero _)
    | succ fuel =>
      obtain ⟨start, tail⟩ := linked
      obtain ⟨node, held⟩ := present e List.mem_cons_self
      have unfolded : search b memory key (fuel + 1) pe =
          if key = node.key then .ok (.node e) else search b memory key fuel (.next e) := by
        show (pe.load b memory >>= _) = _
        rw [atPlace, start]
        show (memory.load e >>= _) = _
        rw [load_of held]
        rfl
      by_cases same : key = node.key
      · rw [if_pos same] at unfolded
        exact Or.inl ⟨e, List.mem_cons_self, node, held, same.symm, unfolded⟩
      · rw [if_neg same] at unfolded
        have atNext : (Place.next e).load b memory = .ok (memory.next e) := by
          show (memory.load e >>= _) = _
          rw [load_of held, next_of held]
          rfl
        rcases inductionHypothesis fuel (.next e) (memory.next e) (Nat.lt_of_succ_lt_succ enough)
          atNext tail (fun other member => present other (List.mem_cons_of_mem _ member)) with
          ⟨other, member, found, heldOther, sameKey, result⟩ | ⟨last, result, ends, differ⟩
        · exact Or.inl ⟨other, List.mem_cons_of_mem _ member, found, heldOther, sameKey,
            unfolded.trans result⟩
        · refine Or.inr ⟨last, unfolded.trans result, endOf_cons ends, ?_⟩
          rintro other member found heldOther
          rcases List.mem_cons.mp member with rfl | inRest
          · rw [held] at heldOther
            rw [← Option.some.inj heldOther]
            exact Ne.symm same
          · exact differ other inRest found heldOther

/-- The search of `dmd_aaGet` decides whether the key has an entry. -/
theorem search_of_table {aa : AA} {memory : Memory} {allocated : Nat} {m : Entries}
    {chains : Nat → List Addr} (table : Table aa memory allocated m chains) (key : Key) :
    (∃ e value, m key = some (e, value) ∧
      search aa.b memory key (aa.nodes + 1) (.bucket (bucketOf key aa.b_length)) =
        .ok (.node e)) ∨
    ∃ last, m key = none ∧
      search aa.b memory key (aa.nodes + 1) (.bucket (bucketOf key aa.b_length)) =
        .ok (.absent last) ∧
      EndOf (.bucket (bucketOf key aa.b_length)) (chains (bucketOf key aa.b_length)) last := by
  obtain ⟨head, atHead, linked⟩ := table.head_of key
  rcases search_finds key (chains (bucketOf key aa.b_length)) (aa.nodes + 1)
      (.bucket (bucketOf key aa.b_length)) head (Nat.lt_succ_of_le (table.chain_length_le _))
      (bucketAt_of atHead) linked
      (fun e member => (table.held member).imp fun _ facts => facts.1) with
    ⟨e, member, node, held, sameKey, result⟩ | ⟨last, result, ends, differ⟩
  · obtain ⟨other, held', _, entry⟩ := table.held member
    rw [held] at held'
    rw [← Option.some.inj held', sameKey] at entry
    exact Or.inl ⟨e, node.value, entry, result⟩
  · refine Or.inr ⟨last, ?_, result, ends⟩
    rw [Option.eq_none_iff_forall_ne_some]
    rintro ⟨e, value⟩ entry
    obtain ⟨member, node, held, sameKey, _⟩ := table.node_of entry
    exact differ e member node held sameKey

/-- The search of `dmd_aaGetRvalue` returns the value of the node with the key. -/
theorem searchValue_finds {memory : Memory} (key : Key) (chain : List Addr) :
    ∀ (fuel : Nat) (head : Option Addr), chain.length ≤ fuel → Linked memory.next head chain →
      (∀ e ∈ chain, ∃ node, memory e = some node) →
      (∃ e ∈ chain, ∃ node, memory e = some node ∧ node.key = key ∧
        searchValue memory key fuel head = .ok node.value) ∨
      (searchValue memory key fuel head = .ok 0#64 ∧
        ∀ e ∈ chain, ∀ node, memory e = some node → node.key ≠ key) := by
  induction chain with
  | nil =>
    intro fuel head _ linked _
    rw [linked_nil] at linked
    refine Or.inr ⟨?_, fun _ member => absurd member List.not_mem_nil⟩
    rw [linked]
    cases fuel <;> rfl
  | cons e rest inductionHypothesis =>
    intro fuel head enough linked present
    cases fuel with
    | zero => exact absurd enough (Nat.not_succ_le_zero _)
    | succ fuel =>
      obtain ⟨start, tail⟩ := linked
      obtain ⟨node, held⟩ := present e List.mem_cons_self
      rw [next_of held] at tail
      have unfolded : searchValue memory key (fuel + 1) head =
          if key = node.key then .ok node.value else searchValue memory key fuel node.next := by
        rw [start]
        show (memory.load e >>= _) = _
        rw [load_of held]
        rfl
      by_cases same : key = node.key
      · rw [if_pos same] at unfolded
        exact Or.inl ⟨e, List.mem_cons_self, node, held, same.symm, unfolded⟩
      · rw [if_neg same] at unfolded
        rcases inductionHypothesis fuel node.next (Nat.le_of_succ_le_succ enough) tail
          (fun other member => present other (List.mem_cons_of_mem _ member)) with
          ⟨other, member, found, heldOther, sameKey, result⟩ | ⟨result, differ⟩
        · exact Or.inl ⟨other, List.mem_cons_of_mem _ member, found, heldOther, sameKey,
            unfolded.trans result⟩
        · refine Or.inr ⟨unfolded.trans result, ?_⟩
          rintro other member found heldOther
          rcases List.mem_cons.mp member with rfl | inRest
          · rw [held] at heldOther
            rw [← Option.some.inj heldOther]
            exact Ne.symm same
          · exact differ other inRest found heldOther

/-- `dmd_aaGetRvalue` returns the value of the entry, and null where there is none. -/
theorem dmd_aaGetRvalue_eq {s : State} {m : Entries} (invariant : Invariant s m) (key : Key) :
    dmd_aaGetRvalue s key = .ok (((m key).map Prod.snd).getD 0#64) := by
  obtain ⟨chains, table, _⟩ := invariant
  unfold dmd_aaGetRvalue
  cases created : s.aa with
  | none =>
    rw [created] at table
    rw [table.no_entry rfl key]
    rfl
  | some aa =>
    rw [created, Option.getD_some] at table
    obtain ⟨head, atHead, linked⟩ := table.head_of key
    show (bucketAt aa.b (bucketOf key aa.b_length) >>= _) = _
    rw [bucketAt_of atHead]
    show searchValue s.memory key aa.nodes head = _
    rcases searchValue_finds key _ aa.nodes head (table.chain_length_le _) linked
        (fun e member => (table.held member).imp fun _ facts => facts.1) with
      ⟨e, member, node, held, sameKey, result⟩ | ⟨result, differ⟩
    · obtain ⟨other, held', _, entry⟩ := table.held member
      rw [held] at held'
      rw [← Option.some.inj held', sameKey] at entry
      rw [result, entry]
      rfl
    · have absent : m key = none := by
        rw [Option.eq_none_iff_forall_ne_some]
        rintro ⟨e, value⟩ entry
        obtain ⟨member, node, held, sameKey, _⟩ := table.node_of entry
        exact differ e member node held sameKey
      rw [result, absent]
      rfl

end LaserD.Root.AssocArray
