/-
This file proves that the associative array is a finite map, in every state that calls reach.

The pointer that was returned for a key stays the address of its value, because the map keeps the
address of every entry. A range walks the chains in the order of the buckets, so it visits the node
of every key once.
-/

import LaserD.Root.AssocArrayInsertion

namespace LaserD.Root.AssocArray

open Chain

/-! ### Writing a value -/

/-- The links after a value is written. -/
theorem next_update_value {memory : Memory} {e : Addr} {node : aaA} (held : memory e = some node)
    (value : Value) :
    Memory.next (Function.update memory e (some { node with value := value })) = memory.next := by
  funext other
  by_cases same : other = e
  · rw [same, next_of held]
    unfold Memory.next
    rw [Function.update_self]
    rfl
  · exact next_update_of_ne _ same

/-- A write through the pointer of a key changes the value of its entry. -/
theorem writeValue_does {s : State} {m : Entries} (invariant : Invariant s m) {key : Key}
    {e : Addr} {old : Value} (entry : m key = some (e, old)) (value : Value) :
    ∃ s', writeValue s e value = .ok s' ∧
      Invariant s' (Function.update m key (some (e, value))) := by
  obtain ⟨chains, table, loaded⟩ := invariant
  obtain ⟨inChain, node, held, sameKey, _⟩ := table.node_of entry
  refine ⟨{ s with memory := Function.update s.memory e (some { node with value := value }) }, ?_,
    chains, ?_, loaded⟩
  · show (s.memory.load e >>= _) = _
    rw [load_of held]
    rfl
  have written : Memory.entryAt (Function.update s.memory e (some { node with value := value })) e =
      some (key, value) := by
    rw [entryAt_of (Function.update_self ..), sameKey]
  have kept : ∀ other, other ≠ e → Memory.entryAt
      (Function.update s.memory e (some { node with value := value })) other =
        s.memory.entryAt other := by
    intro other differ
    unfold Memory.entryAt
    rw [Function.update_of_ne differ]
  refine ⟨table.length, table.positive, ⟨?_, ?_⟩, ?_, ?_, table.addresses, table.room,
    table.allocation⟩
  · rw [next_update_value held]
    exact table.chained.heads
  · intro i other member
    obtain ⟨key', value', content, bucket⟩ := table.chained.placed i other member
    by_cases same : other = e
    · rw [same] at content ⊢
      rw [entryAt_of held, sameKey] at content
      rw [← (Prod.mk.inj (Option.some.inj content)).1] at bucket
      exact ⟨key, value, written, bucket⟩
    · exact ⟨key', value', (kept other same).trans content, bucket⟩
  · intro other place value'
    by_cases same : place = e
    · rw [same, written]
      constructor
      · intro after
        by_cases sameKey' : other = key
        · rw [sameKey', Function.update_self] at after
          rw [sameKey', (Prod.mk.inj (Option.some.inj after)).2]
          exact ⟨⟨_, inChain⟩, rfl⟩
        · rw [Function.update_of_ne sameKey'] at after
          exact absurd (table.same_key after entry) sameKey'
      · rintro ⟨_, content⟩
        obtain ⟨rfl, rfl⟩ := Prod.mk.inj (Option.some.inj content)
        exact Function.update_self ..
    · rw [kept place same]
      by_cases sameKey' : other = key
      · rw [sameKey', Function.update_self]
        constructor
        · intro after
          exact absurd (Prod.mk.inj (Option.some.inj after)).1.symm same
        · intro content
          have first := (table.entries key place value').mpr content
          rw [entry] at first
          exact absurd (Prod.mk.inj (Option.some.inj first)).1.symm same
      · rw [Function.update_of_ne sameKey']
        exact table.entries other place value'
  · obtain ⟨keys, hasKeys, card⟩ := table.counted
    refine ⟨keys, fun other => ?_, card⟩
    rw [hasKeys other]
    by_cases sameKey' : other = key
    · rw [sameKey', Function.update_self, entry]
      rfl
    · rw [Function.update_of_ne sameKey']

/-! ### Ranges -/

/-- The nodes of the buckets from an index on. -/
def nodesFrom (aa : AA) (chains : Nat → List Addr) (bIndex : Nat) : List Addr :=
  (List.range' bIndex (aa.b_length - bIndex)).flatMap chains

theorem nodesFrom_of_lt {aa : AA} (chains : Nat → List Addr) {bIndex : Nat}
    (inside : bIndex < aa.b_length) :
    nodesFrom aa chains bIndex = chains bIndex ++ nodesFrom aa chains (bIndex + 1) := by
  unfold nodesFrom
  have count : aa.b_length - bIndex = aa.b_length - (bIndex + 1) + 1 := by omega
  rw [count, List.range'_succ, List.flatMap_cons]

theorem nodesFrom_of_le {aa : AA} (chains : Nat → List Addr) {bIndex : Nat}
    (outside : aa.b_length ≤ bIndex) : nodesFrom aa chains bIndex = [] := by
  unfold nodesFrom
  rw [Nat.sub_eq_zero_of_le outside]
  rfl

/-- The nodes that a range has yet to visit. -/
def Pending (aa : AA) (memory : Memory) (chains : Nat → List Addr) :
    Nat × Option Addr → List Addr → Prop
  | (_, none), rest => rest = []
  | (bIndex, some current), rest => ∃ chain,
      Linked memory.next (some current) chain ∧ rest = chain ++ nodesFrom aa chains (bIndex + 1)

section
variable {aa : AA} {memory : Memory} {allocated : Nat} {m : Entries} {chains : Nat → List Addr}

/-- `toNext` finds the first node of the buckets from an index on. -/
theorem toNext_pending (table : Table aa memory allocated m chains) :
    ∀ (fuel bIndex : Nat), aa.b_length ≤ bIndex + fuel →
      ∃ position, toNext aa fuel bIndex = .ok position ∧
        Pending aa memory chains position (nodesFrom aa chains bIndex) := by
  intro fuel
  induction fuel with
  | zero =>
    intro bIndex enough
    exact ⟨(bIndex, none), if_neg (not_lt.mpr enough), nodesFrom_of_le chains enough⟩
  | succ fuel inductionHypothesis =>
    intro bIndex enough
    by_cases inside : bIndex < aa.b_length
    · obtain ⟨head, atHead, linked⟩ := table.chained.heads bIndex (table.length.symm ▸ inside)
      rw [nodesFrom_of_lt chains inside]
      cases head with
      | some next =>
        refine ⟨(bIndex, some next), (if_pos inside).trans ?_, chains bIndex, linked, rfl⟩
        rw [bucketAt_of atHead]
        rfl
      | none =>
        have emptyChain : chains bIndex = [] := linked.unique (linked_nil.mpr rfl)
        obtain ⟨position, result, pending⟩ := inductionHypothesis (bIndex + 1) (by omega)
        rw [emptyChain, List.nil_append]
        refine ⟨position, (if_pos inside).trans ?_, pending⟩
        rw [bucketAt_of atHead]
        exact result
    · exact ⟨(bIndex, none), if_neg inside, nodesFrom_of_le chains (not_lt.mp inside)⟩

/-- The fronts of a range are the entries of the nodes that it has yet to visit. -/
theorem fronts_pending (table : Table aa memory allocated m chains) (rest : List Addr) :
    ∀ (fuel : Nat) (position : Nat × Option Addr), rest.length ≤ fuel →
      Pending aa memory chains position rest → (∀ e ∈ rest, ∃ node, memory e = some node) →
      ∃ list, fronts aa memory fuel position = .ok list ∧
        list.map some = rest.map memory.entryAt := by
  induction rest with
  | nil =>
    rintro fuel ⟨bIndex, current⟩ _ pending _
    cases current with
    | none =>
      refine ⟨[], ?_, rfl⟩
      cases fuel <;> rfl
    | some current =>
      obtain ⟨chain, linked, split⟩ := pending
      rw [List.append_eq_nil_iff.mp split.symm |>.1, linked_nil] at linked
      exact absurd linked (Option.some_ne_none _)
  | cons e rest inductionHypothesis =>
    rintro fuel ⟨bIndex, current⟩ enough pending present
    cases fuel with
    | zero => exact absurd enough (Nat.not_succ_le_zero _)
    | succ fuel =>
      cases current with
      | none => exact absurd pending (List.cons_ne_nil _ _)
      | some current =>
        obtain ⟨chain, linked, split⟩ := pending
        cases chain with
        | nil => exact absurd linked (Option.some_ne_none _)
        | cons first chain =>
          rw [List.cons_append] at split
          obtain ⟨rfl, rfl⟩ := List.cons.inj split
          obtain ⟨head, tail⟩ := linked
          obtain rfl : current = e := Option.some.inj head
          obtain ⟨node, held⟩ := present current List.mem_cons_self
          rw [next_of held] at tail
          have popped : ∃ position, popFront aa memory bIndex current = .ok position ∧
              Pending aa memory chains position (chain ++ nodesFrom aa chains (bIndex + 1)) := by
            cases next : node.next with
            | some successor =>
              rw [next] at tail
              refine ⟨(bIndex, some successor), ?_, chain, tail, rfl⟩
              unfold popFront
              rw [load_of held]
              dsimp only [bind, Except.bind]
              rw [next]
              rfl
            | none =>
              rw [next] at tail
              obtain rfl : chain = [] := tail.unique (linked_nil.mpr rfl)
              obtain ⟨position, result, after⟩ :=
                toNext_pending table aa.b_length (bIndex + 1) (by omega)
              refine ⟨position, ?_, after⟩
              unfold popFront
              rw [load_of held]
              dsimp only [bind, Except.bind]
              rw [next]
              exact result
          obtain ⟨position, result, after⟩ := popped
          obtain ⟨list, fronts', entries⟩ := inductionHypothesis fuel position
            (Nat.le_of_succ_le_succ enough) after
            fun other member => present other (List.mem_cons_of_mem _ member)
          refine ⟨(node.key, node.value) :: list, ?_, ?_⟩
          · show (memory.load current >>= _) = _
            rw [load_of held]
            show (popFront _ _ _ _ >>= _) = _
            rw [result]
            show (fronts _ _ _ _ >>= _) = _
            rw [fronts']
            rfl
          · rw [List.map_cons, List.map_cons, entries, entryAt_of held]

/-- The chains of all buckets list every node once. -/
theorem nodesFrom_zero (table : Table aa memory allocated m chains) :
    (nodesFrom aa chains 0).Nodup ∧ ∀ e, e ∈ nodesFrom aa chains 0 ↔ ∃ i, e ∈ chains i := by
  constructor
  · unfold nodesFrom
    rw [List.nodup_flatMap]
    refine ⟨fun i _ => table.chain_nodup i, ?_⟩
    have buckets : (List.range' 0 (aa.b_length - 0)).Pairwise (· ≠ ·) := List.nodup_range'
    refine buckets.imp ?_
    intro i j differ e first second
    exact differ (table.chained.same_chain first second)
  · intro e
    unfold nodesFrom
    rw [List.mem_flatMap]
    constructor
    · rintro ⟨i, _, member⟩
      exact ⟨i, member⟩
    · rintro ⟨i, member⟩
      refine ⟨i, ?_, member⟩
      obtain ⟨node, _, bucket, _⟩ := table.held member
      have inside := bucketOf_lt node.key table.positive
      rw [List.mem_range'_1]
      omega

end

/-- A range visits every key once, with its value. -/
theorem asRange_does {s : State} {m : Entries} (invariant : Invariant s m) :
    ∃ list, asRange s = .ok list ∧ (list.map Prod.fst).Nodup ∧
      ∀ key value, (key, value) ∈ list ↔ ∃ e, m key = some (e, value) := by
  obtain ⟨chains, table, _⟩ := invariant
  have visited : ∃ list, asRange s = .ok list ∧
      list.map some = (nodesFrom (s.aa.getD .create) chains 0).map s.memory.entryAt := by
    unfold asRange
    cases created : s.aa with
    | none =>
      rw [created] at table
      refine ⟨[], rfl, ?_⟩
      have nothing : nodesFrom AA.create chains 0 = [] := by
        rw [List.eq_nil_iff_forall_not_mem]
        intro e member
        obtain ⟨i, inChain⟩ := ((nodesFrom_zero table).2 e).mp member
        obtain ⟨node, _, _, entry⟩ := table.held inChain
        rw [table.no_entry rfl node.key] at entry
        exact absurd entry.symm (Option.some_ne_none _)
      rw [Option.getD_none, nothing]
      rfl
    | some aa =>
      rw [created, Option.getD_some] at table
      obtain ⟨distinct, members⟩ := nodesFrom_zero table
      obtain ⟨position, first, pending⟩ := toNext_pending table aa.b_length 0 (by omega)
      obtain ⟨list, result, entries⟩ := fronts_pending table (nodesFrom aa chains 0) aa.nodes
        position (table.length_le distinct fun e member => (members e).mp member) pending
        (by
          intro e member
          obtain ⟨i, inChain⟩ := (members e).mp member
          exact (table.held inChain).imp fun _ facts => facts.1)
      refine ⟨list, ?_, entries⟩
      show (toNext _ _ _ >>= _) = _
      rw [first]
      exact result
  obtain ⟨list, result, entries⟩ := visited
  obtain ⟨distinct, members⟩ := nodesFrom_zero table
  have inside : ∀ key value, (key, value) ∈ list ↔ ∃ e, m key = some (e, value) := by
    intro key value
    have mapped : (key, value) ∈ list ↔ some (key, value) ∈ list.map some :=
      (List.mem_map_of_injective (Option.some_injective _)).symm
    rw [mapped, entries, List.mem_map]
    refine exists_congr fun e => ?_
    rw [members e, table.entries key e value]
  refine ⟨list, result, ?_, inside⟩
  have keys : (list.map Prod.fst).map some =
      (nodesFrom (s.aa.getD .create) chains 0).map fun e => (s.memory.entryAt e).map Prod.fst := by
    have mapped := congrArg (List.map (Option.map Prod.fst)) entries
    rw [List.map_map, List.map_map] at mapped
    rw [List.map_map]
    exact mapped
  refine List.Nodup.of_map some ?_
  rw [keys]
  refine distinct.map_on fun e member e' member' same => ?_
  obtain ⟨i, inChain⟩ := (members e).mp member
  obtain ⟨j, inChain'⟩ := (members e').mp member'
  obtain ⟨node, held, _, entry⟩ := table.held inChain
  obtain ⟨node', held', _, entry'⟩ := table.held inChain'
  rw [entryAt_of held, entryAt_of held'] at same
  have sameKey : node.key = node'.key := Option.some.inj same
  rw [sameKey, entry'] at entry
  exact (Prod.mk.inj (Option.some.inj entry)).1.symm

/-! ### Every call -/

/-- A call does what it does to the map, unless a new key needs a node for which there is no
memory. -/
theorem step_does {s : State} {m : Entries} (invariant : Invariant s m) (op : Op)
    (valid : op.Valid m) :
    (∃ key, op = .getLvalue key ∧ m key = none ∧ 2 ^ 64 < (s.allocated + 1) * aaA.sizeof ∧
      step s op = .error .outOfMemory) ∨
    ∃ result s' m', step s op = .ok (result, s') ∧ op.Does m result m' ∧ Invariant s' m' := by
  cases op with
  | getLvalue key =>
    rcases dmd_aaGet_does invariant key with ⟨e, value, s', entry, result, after⟩ |
      ⟨absent, ⟨full, result⟩ | ⟨e, s', result, fresh, after⟩⟩
    · refine Or.inr ⟨.pointer e, s', m, ?_, ⟨e, rfl, Or.inl ⟨value, entry, rfl⟩⟩, after⟩
      show (dmd_aaGet s key >>= _) = _
      rw [result]
      rfl
    · refine Or.inl ⟨key, rfl, absent, full, ?_⟩
      show (dmd_aaGet s key >>= _) = _
      rw [result]
      rfl
    · refine Or.inr ⟨.pointer e, s', _, ?_, ⟨e, rfl, Or.inr ⟨absent, fresh, rfl⟩⟩, after⟩
      show (dmd_aaGet s key >>= _) = _
      rw [result]
      rfl
  | opIndex key =>
    refine Or.inr ⟨_, s, m, ?_, ⟨rfl, rfl⟩, invariant⟩
    show (dmd_aaGetRvalue s key >>= _) = _
    rw [dmd_aaGetRvalue_eq invariant]
    rfl
  | length =>
    refine Or.inr ⟨_, s, m, rfl, ?_, invariant⟩
    obtain ⟨chains, table, _⟩ := invariant
    obtain ⟨keys, hasKeys, card⟩ := table.counted
    refine ⟨keys, hasKeys, ?_, rfl⟩
    rw [card]
    unfold dmd_aaLen
    cases s.aa <;> rfl
  | write e value =>
    obtain ⟨key, old, entry⟩ := valid
    obtain ⟨s', result, after⟩ := writeValue_does invariant entry value
    refine Or.inr ⟨.done, s', _, ?_, ⟨key, old, entry, rfl, rfl⟩, after⟩
    show (writeValue s e value >>= _) = _
    rw [result]
    rfl
  | asRange =>
    obtain ⟨list, result, distinct, entries⟩ := asRange_does invariant
    refine Or.inr ⟨.entries list, s, m, ?_, ⟨list, rfl, distinct, entries, rfl⟩, invariant⟩
    show (asRange s >>= _) = _
    rw [result]
    rfl

/-- What a call returns determines what it did to the map. -/
theorem does_unique {op : Op} {m first second : Entries} {result : Result}
    (left : op.Does m result first) (right : op.Does m result second)
    (apart : ∀ key other e value value', m key = some (e, value) → m other = some (e, value') →
      key = other) : first = second := by
  cases op with
  | getLvalue key =>
    obtain ⟨e, rfl, left⟩ := left
    obtain ⟨e', same, right⟩ := right
    obtain rfl : e = e' := Result.pointer.inj same
    rcases left with ⟨value, entry, rfl⟩ | ⟨absent, _, rfl⟩ <;>
      rcases right with ⟨value', entry', rfl⟩ | ⟨absent', _, rfl⟩
    · rfl
    · exact absurd (absent'.symm.trans entry).symm (Option.some_ne_none _)
    · exact absurd (absent.symm.trans entry').symm (Option.some_ne_none _)
    · rfl
  | opIndex key => exact left.2.trans right.2.symm
  | length =>
    obtain ⟨_, _, _, rfl⟩ := left
    obtain ⟨_, _, _, rfl⟩ := right
    rfl
  | write e value =>
    obtain ⟨key, old, entry, _, rfl⟩ := left
    obtain ⟨key', old', entry', _, rfl⟩ := right
    rw [apart key key' e old old' entry entry']
  | asRange =>
    obtain ⟨_, _, _, _, rfl⟩ := left
    obtain ⟨_, _, _, _, rfl⟩ := right
    rfl

theorem Reaches.invariant {s : State} {calls : List (Op × Result)} {m : Entries}
    (reaches : Reaches s calls m) : Invariant s m := by
  induction reaches with
  | start => exact invariant_empty
  | call op before valid stepped does inductionHypothesis =>
    rcases step_does inductionHypothesis op valid with ⟨_, _, _, _, failed⟩ |
      ⟨result, s', m', stepped', does', after⟩
    · exact absurd (stepped.symm.trans failed) (by simp)
    · obtain ⟨rfl, rfl⟩ := Prod.mk.inj (Except.ok.inj (stepped.symm.trans stepped'))
      obtain ⟨chains, table, _⟩ := inductionHypothesis
      rw [does_unique does does' fun key other e value value' entry entry' =>
        table.same_key entry entry']
      exact after

/-- A call changes at most one entry: it writes the value of one that was there, or adds one for the
key whose address it returns. -/
theorem does_changes {op : Op} {m m' : Entries} {result : Result} (does : op.Does m result m') :
    m' = m ∨ ∃ key e value, m' = Function.update m key (some (e, value)) ∧
      ((∃ old, m key = some (e, old)) ∨ (m key = none ∧ op = .getLvalue key)) := by
  cases op with
  | getLvalue key =>
    obtain ⟨e, _, ⟨_, _, same⟩ | ⟨absent, _, changed⟩⟩ := does
    · exact Or.inl same
    · exact Or.inr ⟨key, e, 0#64, changed, Or.inr ⟨absent, rfl⟩⟩
  | opIndex key => exact Or.inl does.2
  | length => exact Or.inl (does.elim fun _ facts => facts.2.2)
  | write e value =>
    obtain ⟨key, old, entry, _, changed⟩ := does
    exact Or.inr ⟨key, e, value, changed, Or.inl ⟨old, entry⟩⟩
  | asRange => exact Or.inl (does.elim fun _ facts => facts.2.2.2)

/-- A call keeps the address of every entry. -/
theorem does_keeps {op : Op} {m m' : Entries} {result : Result} (does : op.Does m result m')
    {key : Key} {e : Addr} (entry : ∃ value, m key = some (e, value)) :
    ∃ value, m' key = some (e, value) := by
  rcases does_changes does with rfl | ⟨other, e', value, rfl, before⟩
  · exact entry
  by_cases same : key = other
  · obtain ⟨first, entry⟩ := entry
    rw [same] at entry ⊢
    rw [Function.update_self]
    rcases before with ⟨old, held⟩ | ⟨absent, _⟩
    · rw [held] at entry
      exact ⟨value, by rw [(Prod.mk.inj (Option.some.inj entry)).1]⟩
    · exact absurd (absent.symm.trans entry).symm (Option.some_ne_none _)
  · rw [Function.update_of_ne same]
    exact entry

/-- A call adds no key but the one whose address it returns. -/
theorem does_adds {op : Op} {m m' : Entries} {result : Result} (does : op.Does m result m')
    {key : Key} (entry : (m' key).isSome = true) :
    (m key).isSome = true ∨ op = .getLvalue key := by
  rcases does_changes does with rfl | ⟨other, e, value, rfl, before⟩
  · exact Or.inl entry
  by_cases same : key = other
  · rw [same]
    rcases before with ⟨old, held⟩ | ⟨_, call⟩
    · exact Or.inl (Option.isSome_iff_exists.mpr ⟨_, held⟩)
    · exact Or.inr call
  · rw [Function.update_of_ne same] at entry
    exact Or.inl entry

/-- The pointer that was returned for a key is the address of its entry. -/
theorem Reaches.pointer {s : State} {calls : List (Op × Result)} {m : Entries}
    (reaches : Reaches s calls m) {key : Key} {e : Addr}
    (call : (Op.getLvalue key, Result.pointer e) ∈ calls) : ∃ value, m key = some (e, value) := by
  induction reaches with
  | start => exact absurd call List.not_mem_nil
  | call op before valid stepped does inductionHypothesis =>
    rcases List.mem_cons.mp call with last | earlier
    · obtain ⟨rfl, rfl⟩ := Prod.mk.inj last
      obtain ⟨e', same, ⟨value, entry, rfl⟩ | ⟨_, _, rfl⟩⟩ := does
      · exact ⟨value, Result.pointer.inj same ▸ entry⟩
      · refine ⟨0#64, ?_⟩
        rw [Function.update_self, Result.pointer.inj same]
    · exact does_keeps does (inductionHypothesis earlier)

/-- A call for an address returned a pointer. -/
theorem Reaches.returned {s : State} {calls : List (Op × Result)} {m : Entries}
    (reaches : Reaches s calls m) {key : Key} {result : Result}
    (call : (Op.getLvalue key, result) ∈ calls) : ∃ e, result = .pointer e := by
  induction reaches with
  | start => exact absurd call List.not_mem_nil
  | call op before valid stepped does inductionHypothesis =>
    rcases List.mem_cons.mp call with last | earlier
    · obtain ⟨rfl, rfl⟩ := Prod.mk.inj last
      exact does.imp fun _ facts => facts.1
    · exact inductionHypothesis earlier

/-- The keys with an entry are those whose address was asked for. -/
theorem Reaches.keys {s : State} {calls : List (Op × Result)} {m : Entries}
    (reaches : Reaches s calls m) (key : Key) :
    (m key).isSome = true ↔ ∃ result, (Op.getLvalue key, result) ∈ calls := by
  constructor
  · intro entry
    induction reaches with
    | start => exact absurd entry Bool.false_ne_true
    | call op before valid stepped does inductionHypothesis =>
      rcases does_adds does entry with earlier | rfl
      · exact (inductionHypothesis earlier).imp fun _ member => List.mem_cons_of_mem _ member
      · exact ⟨_, List.mem_cons_self⟩
  · rintro ⟨result, call⟩
    obtain ⟨e, rfl⟩ := reaches.returned call
    obtain ⟨value, entry⟩ := reaches.pointer call
    rw [entry]
    rfl

/-- In every state that calls reach, every bucket is a chain that ends, with each node in the
bucket that its hash selects; the keys of the map are those whose address was asked for; the
pointer that was returned for a key is the address of its value; and every call does what it does
to the map, unless a new key needs a node for which there is no memory. -/
theorem aa_refines_map {s : State} {calls : List (Op × Result)} {m : Entries}
    (reaches : Reaches s calls m) :
    s.Placed ∧
    (∀ key, (m key).isSome = true ↔ ∃ result, (Op.getLvalue key, result) ∈ calls) ∧
    (∀ key e, (Op.getLvalue key, Result.pointer e) ∈ calls → ∃ node, s.memory e = some node ∧
      node.key = key ∧ m key = some (e, node.value)) ∧
    ∀ op : Op, op.Valid m →
      (∃ key, op = .getLvalue key ∧ m key = none ∧ 2 ^ 64 < (s.allocated + 1) * aaA.sizeof ∧
        step s op = .error .outOfMemory) ∨
      ∃ result s' m', step s op = .ok (result, s') ∧ op.Does m result m' := by
  have invariant := reaches.invariant
  refine ⟨?_, reaches.keys, ?_, fun op valid => (step_does invariant op valid).imp_right ?_⟩
  · intro aa created
    obtain ⟨chains, table, _⟩ := invariant
    rw [created, Option.getD_some] at table
    refine ⟨table.length, fun i inside => ?_⟩
    obtain ⟨head, atHead, linked⟩ := table.chained.heads i (table.length.symm ▸ inside)
    refine ⟨head, chains i, atHead, linked, linked.nodup, fun e member => ?_⟩
    obtain ⟨node, held, bucket, _⟩ := table.held member
    exact ⟨node, held, bucket⟩
  · intro key e call
    obtain ⟨value, entry⟩ := reaches.pointer call
    obtain ⟨chains, table, _⟩ := invariant
    obtain ⟨_, node, held, sameKey, rfl⟩ := table.node_of entry
    exact ⟨node, held, sameKey, entry⟩
  · rintro ⟨result, s', m', stepped, does, _⟩
    exact ⟨result, s', m', stepped, does⟩

/-- The calls of the test: the value of the null key is null, and then what was written. -/
theorem aa_refines_map_null : ∃ s m,
    Reaches s [(.write .aafirst 3#64, .done), (.getLvalue 0#64, .pointer .aafirst)] m ∧
      s.Placed ∧ ∃ node, s.memory .aafirst = some node ∧ m 0#64 = some (.aafirst, node.value) := by
  have first : ∃ s, step .empty (.getLvalue 0#64) = .ok (.pointer .aafirst, s) ∧
      ∃ s', step s (.write .aafirst 3#64) = .ok (.done, s') := ⟨_, rfl, _, rfl⟩
  obtain ⟨s, got, s', written⟩ := first
  have added : Reaches s [(.getLvalue 0#64, .pointer .aafirst)]
      (Function.update (fun _ => none) 0#64 (some (.aafirst, 0#64))) :=
    .call (.getLvalue 0#64) .start trivial got
      ⟨.aafirst, rfl, Or.inr ⟨rfl, fun _ _ => (Option.some_ne_none _).symm, rfl⟩⟩
  have reaches : Reaches s' _ _ :=
    .call (.write .aafirst 3#64) added ⟨0#64, 0#64, Function.update_self ..⟩ written
      ⟨0#64, 0#64, Function.update_self .., rfl, rfl⟩
  obtain ⟨placed, _, pointers, _⟩ := aa_refines_map reaches
  obtain ⟨node, held, _, entry⟩ :=
    pointers 0#64 .aafirst (List.mem_cons_of_mem _ List.mem_cons_self)
  exact ⟨s', _, reaches, placed, node, held, entry⟩

end LaserD.Root.AssocArray
