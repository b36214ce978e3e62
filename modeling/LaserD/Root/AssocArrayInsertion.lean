/-
This file proves what adding an entry to the associative array does.

A new node is linked behind the last node of the chain of its bucket, and the table grows when it
has more than two nodes for a bucket. Neither moves a node, so the entries of the other keys keep
their addresses and their values. The number of nodes is below the number of those that fit into
the address space, so that the number of buckets never overflows.
-/

import LaserD.Root.AssocArrayEntries

namespace LaserD.Root.AssocArray

open Chain

/-! ### Adding a node -/

/-- The links after a node is linked behind another. -/
theorem next_update_next {memory : Memory} {last : Addr} {node : aaA} (next : Option Addr) :
    Memory.next (Function.update memory last (some { node with next := next })) =
      Function.update memory.next last next := by
  funext e
  by_cases same : e = last
  · rw [same, Function.update_self]
    exact next_of (Function.update_self ..)
  · rw [next_update_of_ne _ same, Function.update_of_ne same]

/-- A new node is linked behind the last node of the chain of its bucket. -/
theorem store_chained {memory : Memory} {b : List (Option Addr)} {chains : Nat → List Addr}
    (chained : Chained memory b chains) {e : Addr} (node : aaA) (ends : node.next = none)
    (fresh : ∀ i, e ∉ chains i) (inside : bucketOf node.key b.length < b.length) {last : Place}
    (place : EndOf (.bucket (bucketOf node.key b.length)) (chains (bucketOf node.key b.length))
      last) :
    ∃ b' memory', last.store b (Function.update memory e (some node)) e = .ok (b', memory') ∧
      b'.length = b.length ∧
      Chained memory' b' (Function.update chains (bucketOf node.key b.length)
        (chains (bucketOf node.key b.length) ++ [e])) ∧
      ∀ other, memory'.entryAt other =
        Memory.entryAt (Function.update memory e (some node)) other := by
  set i := bucketOf node.key b.length with bucket
  have added : Memory.entryAt (Function.update memory e (some node)) e =
      some (node.key, node.value) := entryAt_of (Function.update_self ..)
  have kept : ∀ other, other ≠ e →
      Memory.entryAt (Function.update memory e (some node)) other = memory.entryAt other := by
    intro other differ
    unfold Memory.entryAt
    rw [Function.update_of_ne differ]
  have placed : ∀ j, ∀ other ∈ Function.update chains i (chains i ++ [e]) j, ∃ key value,
      Memory.entryAt (Function.update memory e (some node)) other = some (key, value) ∧
        bucketOf key b.length = j := by
    intro j other member
    have cases : other ∈ chains j ∨ (other = e ∧ i = j) := by
      by_cases same : j = i
      · rw [same, Function.update_self, List.mem_append, List.mem_singleton] at member
        rw [same]
        exact member.imp_right fun equal => ⟨equal, rfl⟩
      · rw [Function.update_of_ne same] at member
        exact Or.inl member
    rcases cases with old | ⟨rfl, same⟩
    · have differ : other ≠ e := fun same => fresh j (same ▸ old)
      rw [kept other differ]
      exact chained.placed j other old
    · exact ⟨node.key, node.value, added, same⟩
  have linkedAfter : ∀ j head, Linked memory.next head (chains j) →
      Linked (Memory.next (Function.update memory e (some node))) head (chains j) :=
    fun j head linked => linked_update node linked (fresh j)
  have endsAfter : Memory.next (Function.update memory e (some node)) e = none := by
    rw [next_of (Function.update_self ..)]
    exact ends
  rcases place with ⟨emptyChain, rfl⟩ | ⟨before, final, chain, rfl⟩
  · obtain ⟨head, atHead, _⟩ := chained.heads i inside
    refine ⟨b.set i (some e), Function.update memory e (some node), ?_, List.length_set,
      ⟨?_, ?_⟩, fun _ => rfl⟩
    · show (bucketAt b i >>= _) = _
      rw [bucketAt_of atHead]
      rfl
    · intro j bound
      rw [List.length_set] at bound
      by_cases same : j = i
      · rw [same, Function.update_self, emptyChain]
        exact ⟨some e, List.getElem?_set_self inside, rfl, endsAfter⟩
      · obtain ⟨old, atOld, linked⟩ := chained.heads j bound
        rw [Function.update_of_ne same, List.getElem?_set_ne (Ne.symm same)]
        exact ⟨old, atOld, linkedAfter j old linked⟩
    · rw [List.length_set]
      exact placed
  · have inChain : final ∈ chains i := by
      rw [chain]
      exact List.mem_append_right _ (List.mem_singleton_self final)
    have differ : final ≠ e := fun same => fresh i (same ▸ inChain)
    obtain ⟨key, value, entry, _⟩ := chained.placed i final inChain
    obtain ⟨old, held, _⟩ := held_of_entryAt entry
    have heldAfter : (Function.update memory e (some node)) final = some old := by
      rw [Function.update_of_ne differ]
      exact held
    refine ⟨b, _, ?_, rfl, ⟨?_, ?_⟩, entryAt_update_next heldAfter (some e)⟩
    · show (Memory.load _ final >>= _) = _
      rw [load_of heldAfter]
      rfl
    · intro j bound
      obtain ⟨head, atHead, linked⟩ := chained.heads j bound
      refine ⟨head, atHead, ?_⟩
      have linked' := linkedAfter j head linked
      by_cases same : j = i
      · rw [same, Function.update_self, next_update_next, chain]
        rw [same, chain] at linked'
        refine linked'.append linked'.nodup ?_ endsAfter
        rw [← chain]
        exact fresh i
      · rw [Function.update_of_ne same]
        refine linked_update _ linked' fun member => same ?_
        exact chained.same_chain member inChain
    · intro j other member
      rw [entryAt_update_next heldAfter]
      exact placed j other member

/-- The members of the chains after a node was appended to one of them. -/
theorem mem_append_chain {chains : Nat → List Addr} {i : Nat} {e other : Addr} :
    (∃ j, other ∈ Function.update chains i (chains i ++ [e]) j) ↔
      (∃ j, other ∈ chains j) ∨ other = e := by
  constructor
  · rintro ⟨j, member⟩
    by_cases same : j = i
    · rw [same, Function.update_self, List.mem_append, List.mem_singleton] at member
      exact member.imp_left fun old => ⟨i, old⟩
    · rw [Function.update_of_ne same] at member
      exact Or.inl ⟨j, member⟩
  · rintro (⟨j, old⟩ | rfl)
    · by_cases same : j = i
      · refine ⟨i, ?_⟩
        rw [Function.update_self]
        exact List.mem_append_left _ (same ▸ old)
      · refine ⟨j, ?_⟩
        rw [Function.update_of_ne same]
        exact old
    · refine ⟨i, ?_⟩
      rw [Function.update_self]
      exact List.mem_append_right _ (List.mem_singleton_self other)

/-- A key that had no entry has one more. -/
theorem hasKeys_insert {m : Entries} {keys : Finset Key} (hasKeys : m.HasKeys keys) (key : Key)
    (e : Addr) (value : Value) :
    Entries.HasKeys (Function.update m key (some (e, value))) (insert key keys) := by
  intro other
  rw [Finset.mem_insert]
  by_cases same : other = key
  · rw [same, Function.update_self]
    simp
  · rw [Function.update_of_ne same, hasKeys other]
    simp [same]

/-- The table after an absent key got a fresh node. -/
theorem Table.withNode {aa : AA} {memory : Memory} {allocated : Nat} {m : Entries}
    {chains : Nat → List Addr} (table : Table aa memory allocated m chains) {key : Key}
    (absent : m key = none) {e : Addr} (fresh : ∀ i, e ∉ chains i) {last : Place}
    (place : EndOf (.bucket (bucketOf key aa.b_length)) (chains (bucketOf key aa.b_length)) last)
    {allocated' : Nat} (address : e = .aafirst ∨ ∃ n < allocated', e = .heap n)
    (more : allocated ≤ allocated') (room : allocated' * aaA.sizeof ≤ 2 ^ 64)
    (counted : aa.nodes = allocated') :
    ∃ b' memory' chains', last.store aa.b
        (Function.update memory e (some { next := none, key := key, value := 0#64 })) e =
        .ok (b', memory') ∧
      Table { aa with b := b', nodes := aa.nodes + 1 } memory' allocated'
        (Function.update m key (some (e, 0#64))) chains' := by
  have inside : bucketOf key aa.b.length < aa.b.length := by
    rw [table.length]
    exact bucketOf_lt key table.positive
  rw [← table.length] at place
  obtain ⟨b', memory', stored, length, chained, entries⟩ :=
    store_chained table.chained { next := none, key := key, value := 0#64 } rfl fresh inside place
  refine ⟨b', memory', Function.update chains (bucketOf key aa.b.length)
    (chains (bucketOf key aa.b.length) ++ [e]), stored, ?_⟩
  refine ⟨length.trans table.length, table.positive, chained, ?_, ?_, ?_, room,
    Or.inr (congrArg (· + 1) counted)⟩
  · intro other place' value
    have kept : (∃ i, place' ∈ chains i) → Memory.entryAt (Function.update memory e
        (some { next := none, key := key, value := 0#64 })) place' = memory.entryAt place' := by
      rintro ⟨i, old⟩
      have differ : place' ≠ e := fun same => fresh i (same ▸ old)
      unfold Memory.entryAt
      rw [Function.update_of_ne differ]
    have added : Memory.entryAt (Function.update memory e
        (some { next := none, key := key, value := 0#64 })) e = some (key, 0#64) :=
      entryAt_of (Function.update_self ..)
    rw [mem_append_chain, entries]
    by_cases same : other = key
    · rw [same, Function.update_self]
      constructor
      · intro entry
        obtain ⟨rfl, rfl⟩ := Prod.mk.inj (Option.some.inj entry)
        exact ⟨Or.inr rfl, added⟩
      · rintro ⟨old | rfl, entry⟩
        · rw [kept old] at entry
          rw [(table.entries key place' value).mpr ⟨old, entry⟩] at absent
          exact absurd absent (Option.some_ne_none _)
        · rw [added] at entry
          obtain ⟨_, rfl⟩ := Prod.mk.inj (Option.some.inj entry)
          rfl
    · rw [Function.update_of_ne same, table.entries other place' value]
      constructor
      · rintro ⟨old, entry⟩
        exact ⟨Or.inl old, (kept old).trans entry⟩
      · rintro ⟨old | rfl, entry⟩
        · exact ⟨old, (kept old).symm.trans entry⟩
        · rw [added] at entry
          exact absurd (Prod.mk.inj (Option.some.inj entry)).1.symm same
  · obtain ⟨keys, hasKeys, card⟩ := table.counted
    refine ⟨insert key keys, hasKeys_insert hasKeys key e 0#64, ?_⟩
    have outside : key ∉ keys := by
      rw [hasKeys key, absent]
      exact Bool.false_ne_true
    rw [Finset.card_insert_of_notMem outside, card]
  · intro i other member
    rcases mem_append_chain.mp ⟨i, member⟩ with ⟨j, old⟩ | rfl
    · refine (table.addresses j other old).imp_right ?_
      rintro ⟨n, bound, same⟩
      exact ⟨n, lt_of_lt_of_le bound more, same⟩
    · exact address

/-! ### Getting an address -/

/-- The table grows when it has more than two nodes for a bucket. -/
theorem grow_if_full {aa : AA} {memory : Memory} {allocated : Nat} {m : Entries}
    {chains : Nat → List Addr} (table : Table aa memory allocated m chains)
    (load : aa.nodes ≤ 2 * aa.b_length + 1) (small : aa.b_length ≤ 2 ^ 62) :
    ∃ aa' memory' chains', (if aa.b_length * 2 % 2 ^ 64 < aa.nodes then dmd_aaRehash aa memory
        else .ok (aa, memory)) = .ok (aa', memory') ∧
      Table aa' memory' allocated m chains' ∧ aa'.Loaded := by
  have unwrapped : aa.b_length * 2 % 2 ^ 64 = aa.b_length * 2 := Nat.mod_eq_of_lt (by omega)
  by_cases full : aa.b_length * 2 % 2 ^ 64 < aa.nodes
  · rw [if_pos full]
    rw [unwrapped] at full
    have below : aa.b_length ≤ 2 ^ 60 := by
      have room : allocated * 24 ≤ 2 ^ 64 := table.room
      have allocation := table.allocation
      omega
    have grown : aa.b_length < grownLength aa.b_length ∧ grownLength aa.b_length ≤ 2 ^ 62 := by
      have positive := table.positive
      unfold grownLength
      by_cases four : aa.b_length = 4
      · rw [if_pos four, four]
        decide
      · rw [if_neg four, Nat.mod_eq_of_lt (by omega)]
        omega
    obtain ⟨memory', b', chains', result, length, chained, entries, members⟩ :=
      dmd_aaRehash_moves table.length table.chained
        table.chain_length_le table.positive (Nat.lt_of_le_of_lt (Nat.zero_le _) grown.1)
    refine ⟨_, memory', chains', result, ⟨length, ?_, chained, ?_, table.counted, ?_, table.room,
      table.allocation⟩, ?_, grown.2⟩
    · exact Nat.lt_of_le_of_lt (Nat.zero_le _) grown.1
    · intro key e value
      rw [members e, entries e]
      exact table.entries key e value
    · intro i e member
      obtain ⟨j, old⟩ := (members e).mp ⟨i, member⟩
      exact table.addresses j e old
    · show aa.nodes ≤ 2 * grownLength aa.b_length
      omega
  · rw [if_neg full]
    rw [unwrapped] at full
    exact ⟨aa, memory, chains, rfl, table, by omega, small⟩

/-- The first node is the one in the header, and every other one is allocated, so that its address
is new. -/
theorem dmd_aaGet_does {s : State} {m : Entries} (invariant : Invariant s m) (key : Key) :
    (∃ e value s', m key = some (e, value) ∧ dmd_aaGet s key = .ok (e, s') ∧ Invariant s' m) ∨
    (m key = none ∧ ((2 ^ 64 < (s.allocated + 1) * aaA.sizeof ∧
        dmd_aaGet s key = .error .outOfMemory) ∨
      ∃ e s', dmd_aaGet s key = .ok (e, s') ∧ (∀ other value, m other ≠ some (e, value)) ∧
        Invariant s' (Function.update m key (some (e, 0#64))))) := by
  obtain ⟨chains, table, load, small⟩ := invariant
  set aa := s.aa.getD .create with header
  rcases search_of_table table key with ⟨e, value, entry, found⟩ | ⟨last, absent, found, place⟩
  · refine Or.inl ⟨e, value, { s with aa := some aa }, entry, ?_, chains, table, load, small⟩
    show (search _ _ _ _ _ >>= _) = _
    rw [← header, found]
    rfl
  · refine Or.inr ⟨absent, ?_⟩
    have room : s.allocated * 24 ≤ 2 ^ 64 := table.room
    have unwrapped : (aa.nodes + 1) % 2 ^ 64 = aa.nodes + 1 := by
      have allocation := table.allocation
      exact Nat.mod_eq_of_lt (by omega)
    have addresses : ∀ e, (∀ i, e ∉ chains i) → ∀ other value, m other ≠ some (e, value) :=
      fun e fresh other value entry => fresh _ (table.node_of entry).1
    have finish : ∀ e allocated',
        newNode ((aa.nodes + 1) % 2 ^ 64) s.allocated = .ok (e, allocated') →
        (∀ i, e ∉ chains i) → (e = .aafirst ∨ ∃ n < allocated', e = .heap n) →
        s.allocated ≤ allocated' → allocated' * aaA.sizeof ≤ 2 ^ 64 → aa.nodes = allocated' →
        ∃ s', dmd_aaGet s key = .ok (e, s') ∧
          Invariant s' (Function.update m key (some (e, 0#64))) := by
      intro e allocated' got fresh address more room counted
      obtain ⟨b', memory', chains', stored, table'⟩ :=
        table.withNode absent fresh place address more room counted
      obtain ⟨aa'', memory'', chains'', result, table'', loaded⟩ :=
        grow_if_full table' (Nat.succ_le_succ load) small
      refine ⟨{ aa := some aa'', memory := memory'', allocated := allocated' }, ?_, chains'',
        table'', loaded⟩
      show (search _ _ _ _ _ >>= _) = _
      rw [← header, found]
      show (newNode _ _ >>= _) = _
      rw [got]
      show (last.store _ _ _ >>= _) = _
      rw [stored, unwrapped]
      by_cases full : aa.b_length * 2 % 2 ^ 64 < aa.nodes + 1
      · rw [if_pos full] at result
        show (if aa.b_length * 2 % 2 ^ 64 < aa.nodes + 1 then _ else _) = _
        rw [if_pos full]
        show (dmd_aaRehash _ _ >>= _) = _
        rw [result]
        rfl
      · rw [if_neg full] at result
        show (if aa.b_length * 2 % 2 ^ 64 < aa.nodes + 1 then _ else _) = _
        rw [if_neg full]
        obtain ⟨rfl, rfl⟩ := Prod.mk.inj (Except.ok.inj result)
        rfl
    rcases table.allocation with ⟨none, unused⟩ | allocated
    · have fresh : ∀ i, Addr.aafirst ∉ chains i := by
        intro i member
        obtain ⟨node, _, _, entry⟩ := table.held member
        rw [table.no_entry none node.key] at entry
        exact absurd entry.symm (Option.some_ne_none _)
      obtain ⟨s', result, invariant⟩ := finish .aafirst s.allocated
        (if_neg (by rw [unwrapped, none]; decide)) fresh (Or.inl rfl) le_rfl table.room
        (none.trans unused.symm)
      exact Or.inr ⟨.aafirst, s', result, addresses _ fresh, invariant⟩
    · have another : (aa.nodes + 1) % 2 ^ 64 ≠ 1 := by
        rw [unwrapped, allocated]
        omega
      by_cases fits : (s.allocated + 1) * aaA.sizeof ≤ 2 ^ 64
      · have fresh : ∀ i, Addr.heap s.allocated ∉ chains i := by
          intro i member
          rcases table.addresses i _ member with first | ⟨n, bound, same⟩
          · exact absurd first (by simp)
          · have equal : s.allocated = n := Addr.heap.inj same
            omega
        obtain ⟨s', result, invariant⟩ := finish (.heap s.allocated) (s.allocated + 1)
          ((if_pos another).trans (if_pos fits)) fresh
          (Or.inr ⟨s.allocated, Nat.lt_succ_self _, rfl⟩) (Nat.le_succ _) fits allocated
        exact Or.inr ⟨.heap s.allocated, s', result, addresses _ fresh, invariant⟩
      · refine Or.inl ⟨not_le.mp fits, ?_⟩
        show (search _ _ _ _ _ >>= _) = _
        rw [← header, found]
        have noMemory : newNode ((aa.nodes + 1) % 2 ^ 64) s.allocated = .error .outOfMemory :=
          (if_pos another).trans (if_neg fits)
        show (newNode _ _ >>= _) = _
        rw [noMemory]
        rfl

end LaserD.Root.AssocArray
