/-
This file says what the bit vectors of the back end are for: each vector is a set of numbers below
its number of bits, and the operations are operations on sets.

The vectors that the program holds are a partial function of the pointer. An operation is described
by what it returns and by the vectors after it, so that nothing is said about where a new vector is
put, except that no vector that is held is there.
-/

import LaserD.Dvec.Vectors
import Mathlib.Data.Finset.Sort

namespace LaserD.Dvec

/-- A set of numbers below a number of bits. -/
@[ext]
structure VecSet where
  numbits : Nat
  bits : Finset Nat
  bounded : ∀ b ∈ bits, b < numbits

namespace VecSet

/-- No bits are set. -/
def empty (numbits : Nat) : VecSet where
  numbits := numbits
  bits := ∅
  bounded := fun _ member => absurd member (Finset.notMem_empty _)

/-- All bits are set. -/
def full (numbits : Nat) : VecSet where
  numbits := numbits
  bits := Finset.range numbits
  bounded := fun _ member => Finset.mem_range.mp member

/-- The bits below another number of bits. -/
def resize (x : VecSet) (numbits : Nat) : VecSet where
  numbits := numbits
  bits := x.bits.filter (· < numbits)
  bounded := fun _ member => (Finset.mem_filter.mp member).2

/-- The least bit from a number on, or the number of bits if there is none. -/
def IsIndex (x : VecSet) (b n : Nat) : Prop :=
  (n ∈ x.bits ∧ b ≤ n ∧ ∀ c ∈ x.bits, b ≤ c → n ≤ c) ∨ (n = x.numbits ∧ ∀ c ∈ x.bits, c < b)

end VecSet

/-- The operations that make a set from two others. -/
inductive SetOp
  | and
  | or
  | xor
  | sub
  deriving DecidableEq

/-- The set that an operation makes. -/
def SetOp.apply (op : SetOp) (s t : Finset Nat) : Finset Nat :=
  match op with
  | and => s ∩ t
  | or => s ∪ t
  | xor => symmDiff s t
  | sub => s \ t

/-- The vectors that the program holds. -/
abbrev Vectors := Nat → Option VecSet

namespace Vectors

/-- The set of a vector; a null pointer has no bits. -/
def value (s : Vectors) : vec_t → Option VecSet
  | none => some (.empty 0)
  | some p => s p

/-- A vector becomes another set. -/
def write (s : Vectors) (v : vec_t) (x : VecSet) : Vectors :=
  match v with
  | none => s
  | some p => Function.update s p (some x)

/-- A vector is no longer held. -/
def remove (s : Vectors) (v : vec_t) : Vectors :=
  match v with
  | none => s
  | some p => Function.update s p none

/-- A new vector of a set is held, at a pointer where none was; no bits are at the null pointer. -/
def Adds (s : Vectors) (x : VecSet) (v : vec_t) (s' : Vectors) : Prop :=
  match v with
  | none => x.numbits = 0 ∧ s' = s
  | some p => x.numbits ≠ 0 ∧ s p = none ∧ s' = Function.update s p (some x)

end Vectors

/-- The calls of the operations. -/
inductive Op
  | calloc (numbits : Nat)
  | clone (v : vec_t)
  | free (v : vec_t)
  | realloc (v : vec_t) (numbits : Nat)
  | recycle (v : vec_t) (numbits : Nat)
  | setbit (b : Nat) (v : vec_t)
  | clearbit (b : Nat) (v : vec_t)
  | testbit (b : Nat) (v : vec_t)
  | index (b : Nat) (v : vec_t)
  | numBitsSet (v : vec_t)
  | range (v : vec_t)
  | ass (op : SetOp) (v1 v2 : vec_t)
  | combine (op : SetOp) (v1 v2 v3 : vec_t)
  | clear (v : vec_t)
  | set (v : vec_t)
  | copy (to_ from_ : vec_t)
  | equal (v1 v2 : vec_t)
  | disjoint (v1 v2 : vec_t)
  deriving DecidableEq

/-- What a call returns. -/
inductive Result
  | done
  | vec (v : vec_t)
  | size (n : Nat)
  | truth (b : Bool)
  | bits (bs : List Nat)
  deriving DecidableEq

/-- The functions of the operations that make a vector from two others. -/
def SetOp.vec_combine (op : SetOp) : VecGlobal → vec_t → vec_t → vec_t → Option VecGlobal :=
  match op with
  | and => vec_and
  | or => vec_or
  | xor => vec_xor
  | sub => vec_sub

/-- The functions of the operations that change a vector by another one. -/
def SetOp.vec_ass (op : SetOp) : VecGlobal → vec_t → vec_t → Option VecGlobal :=
  match op with
  | and => vec_andass
  | or => vec_orass
  | xor => vec_xorass
  | sub => vec_subass

/-- A call: what it returns, and the state after it. Nothing means that the program ends. -/
def step (g : VecGlobal) : Op → Option (Result × VecGlobal)
  | .calloc numbits => (vec_calloc g numbits).map fun (v, g) => (.vec v, g)
  | .clone v => (vec_clone g v).map fun (v, g) => (.vec v, g)
  | .free v => (vec_free g v).map fun g => (.done, g)
  | .realloc v numbits => (vec_realloc g v numbits).map fun (v, g) => (.vec v, g)
  | .recycle v numbits => (vec_recycle g v numbits).map fun (v, g) => (.vec v, g)
  | .setbit b v => (vec_setbit g b v).map fun g => (.done, g)
  | .clearbit b v => (vec_clearbit g b v).map fun g => (.done, g)
  | .testbit b v => (vec_testbit g b v).map fun t => (.truth t, g)
  | .index b v => (vec_index g b v).map fun n => (.size n, g)
  | .numBitsSet v => (vec_numBitsSet g v).map fun n => (.size n, g)
  | .range v => (VecRange g v).map fun bs => (.bits bs, g)
  | .ass op v1 v2 => (op.vec_ass g v1 v2).map fun g => (.done, g)
  | .combine op v1 v2 v3 => (op.vec_combine g v1 v2 v3).map fun g => (.done, g)
  | .clear v => (vec_clear g v).map fun g => (.done, g)
  | .set v => (vec_set g v).map fun g => (.done, g)
  | .copy to_ from_ => (vec_copy g to_ from_).map fun g => (.done, g)
  | .equal v1 v2 => (vec_equal g v1 v2).map fun t => (.truth t, g)
  | .disjoint v1 v2 => (vec_disjoint g v1 v2).map fun t => (.truth t, g)

/-- A call that the program may make: its vectors are held or null, they have equally many bits
where there are several, and the bit that is written or tested is one of them. -/
def Op.Valid (s : Vectors) : Op → Prop
  | .calloc numbits => numbits < 2 ^ 64
  | .clone v | .free v | .numBitsSet v | .range v | .clear v | .set v => ∃ x, s.value v = some x
  | .realloc v numbits | .recycle v numbits => numbits < 2 ^ 64 ∧ ∃ x, s.value v = some x
  | .setbit b v | .clearbit b v | .testbit b v => ∃ x, s.value v = some x ∧ b < x.numbits
  | .index b v => b < 2 ^ 64 ∧ ∃ x, s.value v = some x
  | .ass _ v1 v2 | .copy v1 v2 | .equal v1 v2 | .disjoint v1 v2 =>
    ∃ x y, s.value v1 = some x ∧ s.value v2 = some y ∧ x.numbits = y.numbits
  | .combine _ v1 v2 v3 =>
    ∃ x y z, s.value v1 = some x ∧ s.value v2 = some y ∧ s.value v3 = some z ∧
      x.numbits = y.numbits ∧ x.numbits = z.numbits

/-- What a call does to the sets: what it returns, and the vectors after it. -/
def Op.Does (s : Vectors) (result : Result) (s' : Vectors) : Op → Prop
  | .calloc numbits => ∃ v, result = .vec v ∧ s.Adds (.empty numbits) v s'
  | .clone v => ∃ x v', s.value v = some x ∧ result = .vec v' ∧ s.Adds x v' s'
  | .free v => result = .done ∧ s' = s.remove v
  | .realloc v numbits => ∃ x v', s.value v = some x ∧ result = .vec v' ∧
      (s.remove v).Adds (x.resize numbits) v' s'
  | .recycle v numbits => ∃ v', result = .vec v' ∧ (s.remove v).Adds (.empty numbits) v' s'
  | .setbit b v => ∃ x y, s.value v = some x ∧ result = .done ∧ s' = s.write v y ∧
      y.numbits = x.numbits ∧ y.bits = insert b x.bits
  | .clearbit b v => ∃ x y, s.value v = some x ∧ result = .done ∧ s' = s.write v y ∧
      y.numbits = x.numbits ∧ y.bits = x.bits.erase b
  | .testbit b v => ∃ x, s.value v = some x ∧ result = .truth (decide (b ∈ x.bits)) ∧ s' = s
  | .index b v => ∃ x n, s.value v = some x ∧ result = .size n ∧ x.IsIndex b n ∧ s' = s
  | .numBitsSet v => ∃ x, s.value v = some x ∧ result = .size x.bits.card ∧ s' = s
  | .range v => ∃ x, s.value v = some x ∧ result = .bits (x.bits.sort (· ≤ ·)) ∧ s' = s
  | .ass op v1 v2 => ∃ x y z, s.value v1 = some x ∧ s.value v2 = some y ∧ result = .done ∧
      s' = s.write v1 z ∧ z.numbits = x.numbits ∧ z.bits = op.apply x.bits y.bits
  | .combine op v1 v2 v3 => ∃ x y z w, s.value v1 = some x ∧ s.value v2 = some y ∧
      s.value v3 = some z ∧ result = .done ∧ s' = s.write v1 w ∧ w.numbits = x.numbits ∧
      w.bits = op.apply y.bits z.bits
  | .clear v => ∃ x, s.value v = some x ∧ result = .done ∧ s' = s.write v (.empty x.numbits)
  | .set v => ∃ x, s.value v = some x ∧ result = .done ∧ s' = s.write v (.full x.numbits)
  | .copy to_ from_ => ∃ y, s.value from_ = some y ∧ result = .done ∧ s' = s.write to_ y
  | .equal v1 v2 => ∃ x y, s.value v1 = some x ∧ s.value v2 = some y ∧
      result = .truth (decide (x.bits = y.bits)) ∧ s' = s
  | .disjoint v1 v2 => ∃ x y, s.value v1 = some x ∧ s.value v2 = some y ∧
      result = .truth (decide (Disjoint x.bits y.bits)) ∧ s' = s

/-- The largest number of bits whose words can be counted. -/
def maxNumbits : Nat := 2 ^ 64 - VECBITS

/-- The number of bits of a new vector is one whose words can be counted. -/
def Op.Sized : Op → Prop
  | .calloc numbits | .realloc _ numbits | .recycle _ numbits => numbits ≤ maxNumbits
  | _ => True

/-- The calls that do what they say: a vector without bits is not counted, visited or tested for
disjointness, and a vector that is counted has fewer than `2 ^ 32` bits set. -/
def Op.Meets (s : Vectors) : Op → Prop
  | .numBitsSet v => v ≠ none ∧ ∀ x, s.value v = some x → x.bits.card < 2 ^ 32
  | .range v => v ≠ none
  | .disjoint v1 _ => v1 ≠ none
  | _ => True

/-- The states that valid calls reach, with the vectors that the program holds there. -/
inductive Reaches : VecGlobal → Vectors → Prop
  | start : Reaches .empty fun _ => none
  | call {g g' : VecGlobal} {s s' : Vectors} {result : Result} (op : Op) (reaches : Reaches g s)
      (valid : op.Valid s) (sized : op.Sized) (meets : op.Meets s)
      (stepped : step g op = some (result, g')) (does : op.Does s result s') : Reaches g' s'

/-- The words of the vectors that are held: their bits are the set, so none at or beyond the number
of bits is set. -/
def Represents (g : VecGlobal) (s : Vectors) : Prop :=
  ∀ p x, s p = some x → ∃ block, g.heap p = some block ∧ block.numbits = x.numbits ∧
    block.words.length = block.dim ∧
      ∀ b, PackedBits.bitAt block.words b = true ↔ b ∈ x.bits

end LaserD.Dvec
