/-
This file says what the expression trees do when they are executed.

Memory consists of the bytes of variables and of other bytes. Trees read and write variables
directly. Pointers lead to bytes that are shared: those outside variables and those of the
variables whose address may be taken. Calls and the operators on strings see and change what is
shared, in whatever way. What values are and what the operators compute is a parameter.

The accesses to variables are logged. The log has no influence on the execution.
-/

import LaserD.Flow.Elem

namespace LaserD.Flow

variable {Sym : Type} [DecidableEq Sym] {A W V : Type} [DecidableEq A]

/-! ### Memory -/

/-- A byte of a variable or another byte. -/
inductive Loc (Sym A : Type)
  | var (s : Sym) (offset : Nat)
  | heap (a : A)
  deriving DecidableEq

/-- Pointers and calls may access the byte. -/
def Loc.Shared (tab : Symtab Sym) : Loc Sym A → Prop
  | .var s _ => tab.SFLunambig s = false
  | .heap _ => True

instance (tab : Symtab Sym) (l : Loc Sym A) : Decidable (l.Shared tab) := by
  cases l with
  | var s offset => exact inferInstanceAs (Decidable (_ = _))
  | heap a => exact inferInstanceAs (Decidable True)

abbrev Byte := BitVec 8

/-- The bytes, and the world outside the program. -/
@[ext]
structure Memory (Sym A W : Type) where
  bytes : Loc Sym A → Byte
  world : W

/-- What is shared of a memory. -/
def Memory.hide (tab : Symtab Sym) (memory : Memory Sym A W) : Memory Sym A W :=
  { memory with bytes := fun l => if l.Shared tab then memory.bytes l else 0 }

/-- A memory of which others changed what is shared. -/
def Memory.merge (tab : Symtab Sym) (own others : Memory Sym A W) : Memory Sym A W :=
  { others with bytes := fun l => if l.Shared tab then others.bytes l else own.bytes l }

/-- Write the first `size` bytes of `byte` to the places `loc`. -/
def writeBytes (loc : Nat → Loc Sym A) (byte : Nat → Byte) :
    Nat → (Loc Sym A → Byte) → Loc Sym A → Byte
  | 0, bytes => bytes
  | size + 1, bytes => Function.update (writeBytes loc byte size bytes) (loc size) (byte size)

/-- An access to variables: to bytes of one of them, to what is shared, or to all of them, and
leaving the function. -/
inductive Access (Sym : Type)
  | read (s : Sym) (offset size : Nat)
  | write (s : Sym) (offset size : Nat)
  | shared
  | all
  | exit
  deriving DecidableEq

structure State (Sym A W : Type) extends Memory Sym A W where
  log : List (Access Sym) := []

def State.logged (σ : State Sym A W) (access : Access Sym) : State Sym A W :=
  { σ with log := σ.log ++ [access] }

/-- A result and the state, or the state in which the execution stopped. -/
abbrev Outcome (Sym A W T : Type) := Except (State Sym A W) (T × State Sym A W)

/-! ### Operators -/

inductive Oper
  | una (op : Una)
  | bin (op : Bin)
  deriving DecidableEq

/-- What an operator does besides computing a value. -/
inductive Effect
  | pure | load | peek | exec | port
  deriving DecidableEq

def Oper.effect : Oper → Effect
  | .una .ind => .load
  | .una .strlen => .peek
  | .una .ucallns => .peek
  | .una .ucall => .exec
  | .una .inp => .port
  | .bin .strcmp => .peek
  | .bin .memcmp => .peek
  | .bin .bt => .peek
  | .bin .callns => .peek
  | .bin .call => .exec
  | .bin .strcpy => .exec
  | .bin .memcpy => .exec
  | .bin .memset => .exec
  | .bin .strcat => .exec
  | .bin .btc => .exec
  | .bin .btr => .exec
  | .bin .bts => .exec
  | .bin .outp => .port
  | _ => .pure

/-- The operator accesses what is shared. -/
def Oper.accessesShared (op : Oper) : Bool :=
  op.effect ∈ [.load, .peek, .exec]

/-- What the trees are executed on. An operation without a result does not return. Pointers lead
to what is shared. -/
structure Machine (tab : Symtab Sym) (A W V : Type) where
  leaf : Leaf → Ty → Nat → V
  apply : Oper → Ty → List V → Option V
  modify : Oper → Ty → V → List V → Option (V × V)
  peek : Oper → Ty → List V → Memory Sym A W → Option V
  exec : Oper → Ty → List V → Memory Sym A W → Option V × Memory Sym A W
  port : Oper → Ty → List V → W → V × W
  asm_ : Nat → Memory Sym A W → Option V × Memory Sym A W
  truth : V → Bool
  ofBool : Ty → Bool → V
  ofBytes : Ty → List Byte → V
  toBytes : Nat → V → Nat → Byte
  locate : V → Nat → Loc Sym A
  select : V → Nat
  inline8087 : Bool
  shared : ∀ v i, (locate v i).Shared tab

variable {tab : Symtab Sym} (m : Machine tab A W V)

/-- Where an assignment goes. -/
inductive Place (Sym V : Type)
  | direct (s : Sym) (offset : Nat)
  | pointer (v : V)

namespace Machine

def loc : Place Sym V → Nat → Loc Sym A
  | .direct s offset, i => .var s (offset + i)
  | .pointer v, i => m.locate v i

/-- Read a value of a type. -/
def fetch (ty : Ty) (place : Place Sym V) (σ : State Sym A W) : V × State Sym A W :=
  (m.ofBytes ty ((List.range ty.tysize).map fun i => σ.bytes (m.loc place i)),
    match place with
    | .direct s offset => σ.logged (.read s offset ty.tysize)
    | .pointer _ => σ.logged .shared)

/-- Write a value of a size. -/
def store (size : Nat) (place : Place Sym V) (v : V) (σ : State Sym A W) : State Sym A W :=
  let written :=
    { σ with bytes := writeBytes (m.loc place) (m.toBytes size v) size σ.bytes }
  match place with
  | .direct s offset => written.logged (.write s offset size)
  | .pointer _ => written

/-- An operator on the values of its operands. -/
def applyOp (op : Oper) (ty : Ty) (vs : List V) (σ : State Sym A W) : Outcome Sym A W V :=
  match op.effect with
  | .pure =>
      match m.apply op ty vs with
      | some v => .ok (v, σ)
      | none => .error σ
  | .load =>
      match vs with
      | [p] => .ok (m.fetch ty (.pointer p) σ)
      | _ => .error σ
  | .peek =>
      match m.peek op ty vs (σ.hide tab) with
      | some v => .ok (v, σ.logged .shared)
      | none => .error (σ.logged .shared)
  | .exec =>
      let (v, others) := m.exec op ty vs (σ.hide tab)
      let σ := { σ.logged .shared with toMemory := σ.merge tab others }
      match v with
      | some v => .ok (v, σ)
      | none => .error σ
  | .port =>
      let (v, world) := m.port op ty vs σ.world
      .ok (v, { σ with world := world })

/-- An assignment that reads what it changes. -/
def modifyOp (op : Oper) (ty : Ty) (place : Place Sym V) (vs : List V) (σ : State Sym A W) :
    Outcome Sym A W V :=
  let (old, σ) := m.fetch ty place σ
  match m.modify op ty old vs with
  | some (v, stored) => .ok (v, m.store ty.tysize place stored σ)
  | none => .error σ

/-- Assembly code may do anything. -/
def asmOp (code : Nat) (σ : State Sym A W) : Outcome Sym A W V :=
  let (v, memory) := m.asm_ code σ.toMemory
  let σ := { σ.logged .all with toMemory := memory }
  match v with
  | some v => .ok (v, σ)
  | none => .error σ

/-! ### Trees -/

/-- The function that is called does not return. -/
def exits (tab : Symtab Sym) : Elem Sym → Bool
  | .var _ s _ => tab.SFLexit s
  | _ => false

/-- A call of a function, which may be one that does not return. -/
def returning (tab : Symtab Sym) (op : Oper) (callee : Elem Sym) :
    Outcome Sym A W V → Outcome Sym A W V
  | .ok (v, σ) =>
      if op ∈ [.una .ucall, .bin .call] ∧ exits tab callee then .error σ else .ok (v, σ)
  | .error σ => .error σ

mutual

/-- Evaluate a tree. -/
def eval : Elem Sym → State Sym A W → Except (State Sym A W) (V × State Sym A W)
  | .var n s offset, σ => .ok (m.fetch n.Ety (.direct s offset) σ)
  | .leaf op n value, σ =>
      if op = .halt then .error σ else .ok (m.leaf op n.Ety value, σ)
  | .asm_ code, σ => m.asmOp code σ
  | .una op n E1, σ =>
      if op = .negass then do
        let (p, σ) ← place E1 σ
        m.modifyOp (.una op) E1.Ety p [] σ
      else do
        let (v, σ) ← eval E1 σ
        returning tab (.una op) E1 (m.applyOp (.una op) n.Ety [v] σ)
  | .cond _ E1 whenTrue whenFalse, σ => do
      let (v, σ) ← eval E1 σ
      if m.truth v then eval whenTrue σ else eval whenFalse σ
  | .bin op n E1 E2, σ =>
      if op = .comma then do
        let (_, σ) ← eval E1 σ
        eval E2 σ
      else if op = .andand ∨ op = .oror then do
        let (v, σ) ← eval E1 σ
        if m.truth v = decide (op = .andand) then do
          let (w, σ) ← eval E2 σ
          .ok (m.ofBool n.Ety (m.truth w), σ)
        else .ok (m.ofBool n.Ety (m.truth v), σ)
      else if op = .eq ∨ op = .streq then do
        let (v, σ) ← eval E2 σ
        let (p, σ) ← place E1 σ
        .ok (v, m.store (if op = .streq then n.ET else E1.Ety.tysize) p v σ)
      else if op.OTassign then
        if ERTOL m.inline8087 op n then do
          let (v, σ) ← eval E2 σ
          let (p, σ) ← place E1 σ
          m.modifyOp (.bin op) E1.Ety p [v] σ
        else do
          let (p, σ) ← place E1 σ
          let (v, σ) ← eval E2 σ
          m.modifyOp (.bin op) E1.Ety p [v] σ
      else if ERTOL m.inline8087 op n then do
        let (w, σ) ← eval E2 σ
        let (v, σ) ← eval E1 σ
        returning tab (.bin op) E1 (m.applyOp (.bin op) n.Ety [v, w] σ)
      else do
        let (v, σ) ← eval E1 σ
        let (w, σ) ← eval E2 σ
        returning tab (.bin op) E1 (m.applyOp (.bin op) n.Ety [v, w] σ)

/-- Evaluate the operand on the left of an assignment. -/
def place : Elem Sym → State Sym A W → Except (State Sym A W) (Place Sym V × State Sym A W)
  | .var _ s offset, σ => .ok (.direct s offset, σ)
  | .una .ind _ E1, σ => do
      let (v, σ) ← eval E1 σ
      .ok (.pointer v, σ)
  | _, σ => .error σ

end

end Machine

/-! ### Graphs -/

/-- The execution stands at the beginning of a block, has stopped, or has left the function. -/
inductive Config (Sym A W V : Type) (n : Nat)
  | at_ (b : Fin n) (σ : State Sym A W)
  | stopped (σ : State Sym A W)
  | left (b : Fin n) (v : Option V) (σ : State Sym A W)

namespace Machine

variable {n : Nat} (p : Program Sym n)

/-- Execute the tree of a block, and the code of a block of assembly code. -/
def block (b : Fin n) (σ : State Sym A W) : Except (State Sym A W) (Option V × State Sym A W) := do
  let (v, σ) ← match p.Belem b with
    | some e => (m.eval e σ).map fun (v, σ) => (some v, σ)
    | none => .ok (none, σ)
  if p.graph.bc b = .asm_ then (m.asmOp b σ).map fun (w, σ) => (some w, σ) else .ok (v, σ)

/-- The successor that a block goes to. -/
def successor (b : Fin n) (v : Option V) : Option (Fin n) :=
  match p.graph.bc b with
  | .iftrue => (p.graph.Bsucc b)[if v.any m.truth then 0 else 1]?
  | .goto_ => (p.graph.Bsucc b)[0]?
  | _ => (p.graph.Bsucc b)[v.elim 0 m.select]?

/-- Execute a block. A block without successors leaves the function. -/
def step : Config Sym A W V n → Config Sym A W V n
  | .at_ b σ =>
      match m.block p b σ with
      | .error σ => .stopped σ
      | .ok (v, σ) =>
          if p.graph.Bsucc b = [] then .left b v (σ.logged .exit)
          else match m.successor p b v with
            | some s => .at_ s σ
            | none => .stopped σ
  | config => config

/-- Execute a number of blocks. -/
def run (steps : Nat) (config : Config Sym A W V n) : Config Sym A W V n :=
  (m.step p)^[steps] config

end Machine

end LaserD.Flow
