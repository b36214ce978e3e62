/-
This file models the associative array with pointers for keys and values.

The table is an array of buckets, each the head of a chain of nodes. The first node is embedded in
the header of the table and the others are allocated, so that a node never moves and the address of
a value is that of its node. The array of buckets grows when there are more than two nodes for a
bucket, and the nodes are then linked into the new buckets in place.

A call ends with a failure where memory that holds nothing would be read, where a loop does not
end, and where there is no memory for another node.
-/

import Mathlib.Algebra.Group.Nat.Defs
import LaserD.Lib.Chain
import Mathlib.Data.Finset.Card

namespace LaserD.Root.AssocArray

/-- A pointer to a key. -/
abbrev Key := BitVec 64

/-- A pointer to a value; zero is null. -/
abbrev Value := BitVec 64

/-- The hash of a pointer. -/
def hash (a : BitVec 64) : BitVec 64 :=
  let a := a ^^^ ((a >>> 20) ^^^ (a >>> 12))
  a ^^^ (a >>> 7) ^^^ (a >>> 4)

/-- The address of a node: the node in the header, or an allocated one. -/
inductive Addr
  | aafirst
  | heap (n : Nat)
  deriving DecidableEq

/-- A node. -/
structure aaA where
  next : Option Addr
  key : Key
  value : Value
  deriving DecidableEq

/-- The header: the buckets, their number and the number of nodes. The buckets are `binit` at first
and allocated after that, which matters only for the freeing of the old ones. -/
structure AA where
  b : List (Option Addr)
  b_length : Nat
  nodes : Nat

/-- The nodes in memory. -/
abbrev Memory := Addr → Option aaA

/-- The pointer to the header, the nodes and the number of nodes that were allocated. -/
structure State where
  aa : Option AA
  memory : Memory
  allocated : Nat

/-- The state before the first call. -/
def State.empty : State where
  aa := none
  memory := fun _ => none
  allocated := 0

/-- The failures of a call. -/
inductive Stop
  | outOfMemory
  | outside
  | endless
  deriving DecidableEq

/-- `aaA.sizeof`. -/
def aaA.sizeof : Nat := 24

/-- The bucket of a key in an array of buckets. -/
def bucketOf (key : Key) (b_length : Nat) : Nat :=
  (hash key).toNat &&& (b_length - 1)

/-- A node is read. -/
def Memory.load (memory : Memory) (e : Addr) : Except Stop aaA :=
  match memory e with
  | some node => .ok node
  | none => .error .outside

/-- A bucket is read. -/
def bucketAt (b : List (Option Addr)) (i : Nat) : Except Stop (Option Addr) :=
  match b[i]? with
  | some e => .ok e
  | none => .error .outside

/-! ### Growing the table -/

/-- The loop of `dmd_aaRehash` over the nodes of a bucket: each is linked in front of its new
bucket. -/
def rehashBucket (len : Nat) :
    Nat → Option Addr → Memory → List (Option Addr) → Except Stop (Memory × List (Option Addr))
  | _, none, memory, newb => .ok (memory, newb)
  | 0, some _, _, _ => .error .endless
  | fuel + 1, some e, memory, newb => do
    let node ← memory.load e
    let j := bucketOf node.key len
    let head ← bucketAt newb j
    rehashBucket len fuel node.next (Function.update memory e (some { node with next := head }))
      (newb.set j (some e))

/-- The loop of `dmd_aaRehash` over the buckets. -/
def rehashBuckets (len nodes : Nat) (b : List (Option Addr)) :
    List Nat → Memory → List (Option Addr) → Except Stop (Memory × List (Option Addr))
  | [], memory, newb => .ok (memory, newb)
  | k :: ks, memory, newb => do
    let e ← bucketAt b k
    let (memory, newb) ← rehashBucket len nodes e memory newb
    rehashBuckets len nodes b ks memory newb

/-- The number of buckets after growing. -/
def grownLength (len : Nat) : Nat :=
  if len = 4 then 32 else len * 4 % 2 ^ 64

/-- `dmd_aaRehash`. -/
def dmd_aaRehash (aa : AA) (memory : Memory) : Except Stop (AA × Memory) := do
  let len := grownLength aa.b_length
  let newb := List.replicate len none
  let (memory, newb) ← rehashBuckets len aa.nodes aa.b (List.range aa.b_length) memory newb
  return ({ aa with b := newb, b_length := len }, memory)

/-! ### Reading and adding entries -/

/-- The place that holds a pointer to a node: a bucket, or the link of a node. -/
inductive Place
  | bucket (i : Nat)
  | next (e : Addr)
  deriving DecidableEq

/-- The pointer at a place. -/
def Place.load (b : List (Option Addr)) (memory : Memory) : Place → Except Stop (Option Addr)
  | .bucket i => bucketAt b i
  | .next e => do return (← memory.load e).next

/-- The pointer at a place is written. -/
def Place.store (b : List (Option Addr)) (memory : Memory) (e : Addr) :
    Place → Except Stop (List (Option Addr) × Memory)
  | .bucket i => do
    let _ ← bucketAt b i
    return (b.set i (some e), memory)
  | .next last => do
    let node ← memory.load last
    return (b, Function.update memory last (some { node with next := some e }))

/-- What the search of `dmd_aaGet` ends with: a node with the key, or the place of the null pointer
at the end of the chain. -/
inductive Found
  | node (e : Addr)
  | absent (pe : Place)
  deriving DecidableEq

/-- The loop of `dmd_aaGet`. -/
def search (b : List (Option Addr)) (memory : Memory) (key : Key) :
    Nat → Place → Except Stop Found
  | 0, _ => .error .endless
  | fuel + 1, pe => do
    match ← pe.load b memory with
    | none => return .absent pe
    | some e =>
      let node ← memory.load e
      if key = node.key then return .node e else search b memory key fuel (.next e)

/-- The header that `dmd_aaGet` creates. -/
def AA.create : AA where
  b := [none, none, none, none]
  b_length := 4
  nodes := 0

/-- A node is allocated, if the address space has room for it. -/
def xmalloc (allocated : Nat) : Except Stop (Addr × Nat) :=
  if (allocated + 1) * aaA.sizeof ≤ 2 ^ 64 then .ok (.heap allocated, allocated + 1)
  else .error .outOfMemory

/-- The memory of a new node: the first one is in the header. -/
def newNode (nodes allocated : Nat) : Except Stop (Addr × Nat) :=
  if nodes ≠ 1 then xmalloc allocated else .ok (.aafirst, allocated)

/-- `dmd_aaGet`. -/
def dmd_aaGet (s : State) (key : Key) : Except Stop (Addr × State) := do
  let aa := s.aa.getD .create
  let i := bucketOf key aa.b_length
  match ← search aa.b s.memory key (aa.nodes + 1) (.bucket i) with
  | .node e => return (e, { s with aa := some aa })
  | .absent pe =>
    let nodes := (aa.nodes + 1) % 2 ^ 64
    let (e, allocated) ← newNode nodes s.allocated
    let memory := Function.update s.memory e (some { next := none, key := key, value := 0#64 })
    let (b, memory) ← pe.store aa.b memory e
    let aa := { aa with b := b, nodes := nodes }
    if aa.b_length * 2 % 2 ^ 64 < nodes then
      let (aa, memory) ← dmd_aaRehash aa memory
      return (e, { aa := some aa, memory := memory, allocated := allocated })
    else
      return (e, { aa := some aa, memory := memory, allocated := allocated })

/-- The loop of `dmd_aaGetRvalue`. -/
def searchValue (memory : Memory) (key : Key) : Nat → Option Addr → Except Stop Value
  | _, none => .ok 0#64
  | 0, some _ => .error .endless
  | fuel + 1, some e => do
    let node ← memory.load e
    if key = node.key then return node.value else searchValue memory key fuel node.next

/-- `dmd_aaGetRvalue`. -/
def dmd_aaGetRvalue (s : State) (key : Key) : Except Stop Value :=
  match s.aa with
  | none => .ok 0#64
  | some aa => do
    let e ← bucketAt aa.b (bucketOf key aa.b_length)
    searchValue s.memory key aa.nodes e

/-- `dmd_aaLen`. -/
def dmd_aaLen (s : State) : Nat :=
  match s.aa with
  | none => 0
  | some aa => aa.nodes

/-- A value is written through the pointer that `dmd_aaGet` returned. -/
def writeValue (s : State) (e : Addr) (value : Value) : Except Stop State := do
  let node ← s.memory.load e
  return { s with memory := Function.update s.memory e (some { node with value := value }) }

/-! ### Ranges -/

/-- The loop of `toNext`: the first bucket from an index on that has nodes. -/
def toNext (aa : AA) : Nat → Nat → Except Stop (Nat × Option Addr)
  | 0, bIndex => if bIndex < aa.b_length then .error .endless else .ok (bIndex, none)
  | fuel + 1, bIndex =>
    if bIndex < aa.b_length then do
      match ← bucketAt aa.b bIndex with
      | some next => return (bIndex, some next)
      | none => toNext aa fuel (bIndex + 1)
    else .ok (bIndex, none)

/-- `popFront`. -/
def popFront (aa : AA) (memory : Memory) (bIndex : Nat) (current : Addr) :
    Except Stop (Nat × Option Addr) := do
  match (← memory.load current).next with
  | some next => return (bIndex, some next)
  | none => toNext aa aa.b_length (bIndex + 1)

/-- The fronts of a range until it is empty. -/
def fronts (aa : AA) (memory : Memory) :
    Nat → Nat × Option Addr → Except Stop (List (Key × Value))
  | _, (_, none) => .ok []
  | 0, (_, some _) => .error .endless
  | fuel + 1, (bIndex, some current) => do
    let front ← memory.load current
    let rest ← fronts aa memory fuel (← popFront aa memory bIndex current)
    return (front.key, front.value) :: rest

/-- `asRange`, from the first entry to the last. -/
def asRange (s : State) : Except Stop (List (Key × Value)) :=
  match s.aa with
  | none => .ok []
  | some aa => do fronts aa s.memory aa.nodes (← toNext aa aa.b_length 0)

/-! ### The calls -/

/-- The calls, and the writes through the pointers that they return. -/
inductive Op
  | getLvalue (key : Key)
  | opIndex (key : Key)
  | length
  | write (e : Addr) (value : Value)
  | asRange
  deriving DecidableEq

/-- What a call returns. -/
inductive Result
  | pointer (e : Addr)
  | value (v : Value)
  | size (n : Nat)
  | done
  | entries (list : List (Key × Value))
  deriving DecidableEq

/-- A call: what it returns, and the state after it. -/
def step (s : State) : Op → Except Stop (Result × State)
  | .getLvalue key => do
    let (e, s) ← dmd_aaGet s key
    return (.pointer e, s)
  | .opIndex key => do return (.value (← dmd_aaGetRvalue s key), s)
  | .length => .ok (.size (dmd_aaLen s), s)
  | .write e value => do return (.done, ← writeValue s e value)
  | .asRange => do return (.entries (← asRange s), s)

/-- A finite map: the keys that have an entry, with the address and the value of each. -/
abbrev Entries := Key → Option (Addr × Value)

/-- The finite set of the keys that have an entry. -/
def Entries.HasKeys (m : Entries) (keys : Finset Key) : Prop :=
  ∀ key, key ∈ keys ↔ (m key).isSome = true

/-- A write goes through the pointer that was returned for a key. -/
def Op.Valid (m : Entries) : Op → Prop
  | .write e _ => ∃ key value, m key = some (e, value)
  | _ => True

/-- What a call does to the map: what it returns, and the map after it. -/
def Op.Does (m : Entries) (result : Result) (m' : Entries) : Op → Prop
  | .getLvalue key => ∃ e, result = .pointer e ∧
      ((∃ value, m key = some (e, value) ∧ m' = m) ∨
        (m key = none ∧ (∀ other value, m other ≠ some (e, value)) ∧
          m' = Function.update m key (some (e, 0#64))))
  | .opIndex key => result = .value (((m key).map Prod.snd).getD 0#64) ∧ m' = m
  | .length => ∃ keys, m.HasKeys keys ∧ result = .size keys.card ∧ m' = m
  | .write e value => ∃ key old, m key = some (e, old) ∧ result = .done ∧
      m' = Function.update m key (some (e, value))
  | .asRange => ∃ list, result = .entries list ∧ (list.map Prod.fst).Nodup ∧
      (∀ key value, (key, value) ∈ list ↔ ∃ e, m key = some (e, value)) ∧ m' = m

/-- The states that valid calls reach, with the calls and what they returned, the last one first,
and the map of the entries. -/
inductive Reaches : State → List (Op × Result) → Entries → Prop
  | start : Reaches .empty [] fun _ => none
  | call {s s' : State} {calls : List (Op × Result)} {m m' : Entries} {result : Result} (op : Op)
      (reaches : Reaches s calls m) (valid : op.Valid m) (stepped : step s op = .ok (result, s'))
      (does : op.Does m result m') : Reaches s' ((op, result) :: calls) m'

/-- The link of a node. -/
def Memory.next (memory : Memory) (e : Addr) : Option Addr :=
  (memory e).bind (·.next)

/-- Every bucket is the head of a chain that ends at the null pointer, and each node of the chain
is one whose hash selects the bucket. -/
def State.Placed (s : State) : Prop :=
  ∀ aa, s.aa = some aa → aa.b.length = aa.b_length ∧ ∀ i < aa.b_length, ∃ head chain,
    aa.b[i]? = some head ∧ Chain.Linked s.memory.next head chain ∧ chain.Nodup ∧
      ∀ e ∈ chain, ∃ node, s.memory e = some node ∧ bucketOf node.key aa.b_length = i

end LaserD.Root.AssocArray
