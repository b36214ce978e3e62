/-
This file models the bit vectors of the back end.

A vector is a pointer to words of 64 bits, with the number of words and the number of bits in the
two words before them. A null pointer is the vector without bits. Freed vectors of fewer than 30
words go to a list for their number of words, from which the next allocation takes its block with
whatever words it holds.
-/

import LaserD.Lib.PackedBits

namespace LaserD.Dvec

/-- `vec_base_t`. -/
abbrev Word := BitVec 64

/-- The number of bits of a word. -/
def VECBITS : Nat := 64

def VECMASK : Nat := VECBITS - 1

def VECSHIFT : Nat := 6

/-- A block of memory: `vec_dim`, `vec_numbits` and the words of the vector. While the block is on
a free list its first word is the link, which the next allocation writes before it is read. -/
structure Block where
  dim : Nat
  numbits : Nat
  words : List Word
  deriving DecidableEq

/-- `vec_t`: null, or the address of a block. -/
abbrev vec_t := Option Nat

/-- `VecGlobal` with the heap: the blocks, the first address that was never used, and the free
lists by the number of words. -/
structure VecGlobal where
  heap : Nat → Option Block
  next : Nat
  freelist : Nat → List Nat

/-- The state before the first operation. -/
def VecGlobal.empty : VecGlobal where
  heap := fun _ => none
  next := 0
  freelist := fun _ => []

/-- `freelist.length`. -/
def freelistLength : Nat := 30

/-! ### Words -/

/-- `MASK`. -/
def MASK (b : Nat) : Word :=
  1#64 <<< (b &&& VECMASK)

/-- `memset` on the first words, where nothing means a write outside the block. -/
def memset (words : List Word) (value : Word) (count : Nat) : Option (List Word) :=
  if count ≤ words.length then some (List.replicate count value ++ words.drop count) else none

/-- `memcpy` of the first words. -/
def memcpy (to_ from_ : List Word) (count : Nat) : Option (List Word) :=
  if count ≤ to_.length ∧ count ≤ from_.length then some (from_.take count ++ to_.drop count)
  else none

/-- The loop of the operations on words: the first words of `v1` are made from those of `v2` and
`v3`. -/
def combineWords (f : Word → Word → Word) (v1 v2 v3 : List Word) (count : Nat) :
    Option (List Word) :=
  if count ≤ v1.length ∧ count ≤ v2.length ∧ count ≤ v3.length then
    some (List.zipWith f (v2.take count) (v3.take count) ++ v1.drop count)
  else none

/-- A word is read, changed and written back. -/
def modifyWord (words : List Word) (index : Nat) (f : Word → Word) : Option (List Word) :=
  (words[index]?).map fun word => words.set index (f word)

/-! ### Allocation -/

namespace VecGlobal

/-- The words of a block are replaced. -/
def write (g : VecGlobal) (p : Nat) (block : Block) : VecGlobal :=
  { g with heap := Function.update g.heap p (some block) }

/-- The first block of the free list for a number of words. -/
def take (g : VecGlobal) (dim : Nat) : Option (Nat × VecGlobal) :=
  if dim < freelistLength then
    match g.freelist dim with
    | [] => none
    | p :: rest => some (p, { g with freelist := Function.update g.freelist dim rest })
  else none

/-- `calloc`: a block of zeros at an address that was never used. -/
def calloc (g : VecGlobal) (dim numbits : Nat) (words : List Word) : vec_t × VecGlobal :=
  (some g.next, { g.write g.next ⟨dim, numbits, words⟩ with next := g.next + 1 })

/-- `allocate`, where nothing means that the program ends. -/
def allocate (g : VecGlobal) (numbits : Nat) : Option (vec_t × VecGlobal) :=
  if numbits = 0 then some (none, g)
  else
    let dim := ((numbits + (VECBITS - 1)) % 2 ^ 64) >>> VECSHIFT
    match g.take dim with
    | some (p, g) =>
      (g.heap p).bind fun block => (memset block.words 0 dim).map fun words =>
        (some p, g.write p ⟨dim, numbits, words⟩)
    | none =>
      if dim ≥ (2 ^ 64 - 1) / 8 - 1024 then none
      else some (g.calloc dim numbits (List.replicate dim 0))

/-- `dup`. -/
def dup (g : VecGlobal) (v : vec_t) : Option (vec_t × VecGlobal) :=
  match v with
  | none => some (none, g)
  | some p =>
    (g.heap p).bind fun block =>
      match g.take block.dim with
      | some (vc, g) =>
        (g.heap vc).bind fun old => (memcpy old.words block.words block.dim).map fun words =>
          (some vc, g.write vc ⟨block.dim, block.numbits, words⟩)
      | none =>
        (memcpy (List.replicate block.dim 0) block.words block.dim).map fun words =>
          g.calloc block.dim block.numbits words

/-- `free`. -/
def free (g : VecGlobal) (v : vec_t) : Option VecGlobal :=
  match v with
  | none => some g
  | some p =>
    (g.heap p).map fun block =>
      if block.dim < freelistLength then
        { g with freelist := Function.update g.freelist block.dim (p :: g.freelist block.dim) }
      else { g with heap := Function.update g.heap p none }

end VecGlobal

/-- `vec_calloc`. -/
def vec_calloc (g : VecGlobal) (numbits : Nat) : Option (vec_t × VecGlobal) :=
  g.allocate numbits

/-- `vec_clone`. -/
def vec_clone (g : VecGlobal) (v : vec_t) : Option (vec_t × VecGlobal) :=
  g.dup v

/-- `vec_free`. -/
def vec_free (g : VecGlobal) (v : vec_t) : Option VecGlobal :=
  g.free v

/-- `vec_clearextrabits`. Without words, the word before the first is outside the vector. -/
def vec_clearextrabits (block : Block) : Option Block :=
  if block.numbits &&& VECMASK ≠ 0 then
    if block.dim = 0 then none
    else (modifyWord block.words (block.dim - 1) (· &&& (MASK block.numbits - 1))).map fun words =>
      { block with words := words }
  else some block

/-- `vec_realloc`. -/
def vec_realloc (g : VecGlobal) (v : vec_t) (numbits : Nat) : Option (vec_t × VecGlobal) :=
  match v with
  | none => vec_calloc g numbits
  | some p =>
    if numbits = 0 then (vec_free g v).map fun g => (none, g)
    else
      (g.heap p).bind fun block =>
        if numbits = block.numbits then some (v, g)
        else
          (vec_calloc g numbits).bind fun (newv, g) =>
            match newv with
            | none => (vec_free g v).map fun g => (none, g)
            | some p' =>
              (g.heap p).bind fun block => (g.heap p').bind fun new =>
                let count := if block.dim < new.dim then block.dim else new.dim
                (memcpy new.words block.words count).bind fun words =>
                  (vec_clearextrabits { new with words := words }).bind fun new =>
                    (vec_free (g.write p' new) v).map fun g => (newv, g)

/-- `vec_recycle`. -/
def vec_recycle (g : VecGlobal) (v : vec_t) (numbits : Nat) : Option (vec_t × VecGlobal) :=
  (vec_free g v).bind fun g => vec_calloc g numbits

/-! ### Bits -/

/-- The words of a vector that is not null are changed. -/
def modify (g : VecGlobal) (v : vec_t) (f : Block → Option Block) : Option VecGlobal :=
  v.bind fun p => (g.heap p).bind fun block => (f block).map (g.write p)

/-- `vec_setbit`. -/
def vec_setbit (g : VecGlobal) (b : Nat) (v : vec_t) : Option VecGlobal :=
  modify g v fun block =>
    if b < block.numbits then
      (modifyWord block.words (b / VECBITS) (· ||| 1#64 <<< (b % VECBITS))).map fun words =>
        { block with words := words }
    else none

/-- `vec_clearbit`. -/
def vec_clearbit (g : VecGlobal) (b : Nat) (v : vec_t) : Option VecGlobal :=
  modify g v fun block =>
    if b < block.numbits then
      (modifyWord block.words (b / VECBITS) (· &&& ~~~(1#64 <<< (b % VECBITS)))).map fun words =>
        { block with words := words }
    else none

/-- `vec_testbit`. -/
def vec_testbit (g : VecGlobal) (b : Nat) (v : vec_t) : Option Bool :=
  match v with
  | none => some false
  | some p =>
    (g.heap p).bind fun block =>
      if b < block.numbits then (block.words[b / VECBITS]?).map (·.getLsbD (b % VECBITS)) else none

/-- The loop over the bits of a word: the position, and whether a bit is found there. -/
def scan (starv : Word) (b : Nat) : Nat × Bool :=
  if _none : starv = 0 then (b, false)
  else if starv &&& 1 ≠ 0 then (b, true)
  else scan (starv >>> 1) ((b + 1) % 2 ^ 64)
termination_by starv.toNat
decreasing_by
  rw [BitVec.toNat_ushiftRight, Nat.shiftRight_eq_div_pow]
  have positive : starv.toNat ≠ 0 := fun zero => _none (BitVec.eq_of_toNat_eq zero)
  omega

/-- The loop over the words, of which those after the present one are still to come. -/
def indexLoop (numbits : Nat) (words : List Word) (starv : Word) (b : Nat) : Nat :=
  match scan starv b with
  | (b, true) => b
  | (b, false) =>
    match words with
    | [] => numbits
    | word :: words => indexLoop numbits words word ((b + VECBITS) % 2 ^ 64 / VECBITS * VECBITS)

/-- `vec_index` on a block, where nothing means a read outside it. -/
def Block.index (block : Block) (b : Nat) : Option Nat :=
  if b < block.numbits then
    let bit := b &&& VECMASK
    match (block.words.take block.dim).drop (if bit ≠ b then b >>> VECSHIFT else 0) with
    | [] => none
    | word :: words => some (indexLoop block.numbits words (word >>> bit) b)
  else some block.numbits

/-- `vec_index`. -/
def vec_index (g : VecGlobal) (b : Nat) (v : vec_t) : Option Nat :=
  match v with
  | none => some 0
  | some p => (g.heap p).bind fun block => block.index b

/-- The loop of `vec_numBitsSet`, which is left before the fuel is used up. -/
def Block.countLoop (block : Block) (fuel i n : Nat) : Option Nat :=
  match fuel with
  | 0 => none
  | fuel + 1 =>
    (block.index i).bind fun i =>
      if i < block.numbits then block.countLoop fuel ((i + 1) % 2 ^ 64) ((n + 1) % 2 ^ 32)
      else some n

/-- `vec_numBitsSet`, which reads the number of bits of a null pointer too. -/
def vec_numBitsSet (g : VecGlobal) (v : vec_t) : Option Nat :=
  v.bind fun p => (g.heap p).bind fun block => block.countLoop (block.numbits + 1) 0 0

/-- The calls of `empty`, `front` and `popFront` on a range at an index. -/
def Block.rangeLoop (block : Block) (fuel i : Nat) : Option (List Nat) :=
  match fuel with
  | 0 => none
  | fuel + 1 =>
    if i = block.numbits then some []
    else (block.index ((i + 1) % 2 ^ 64)).bind fun next =>
      (block.rangeLoop fuel next).map (i :: ·)

/-- The bits that `foreach (i; VecRange(v))` visits, in its order. `empty` reads the number of bits
of a null pointer too. -/
def VecRange (g : VecGlobal) (v : vec_t) : Option (List Nat) :=
  v.bind fun p => (g.heap p).bind fun block =>
    (block.index 0).bind fun i => block.rangeLoop (block.numbits + 1) i

/-! ### Operations on words -/

/-- The operations that make a vector from two others. -/
def combine (f : Word → Word → Word) (g : VecGlobal) (v1 v2 v3 : vec_t) : Option VecGlobal :=
  match v1 with
  | some p1 =>
    (g.heap p1).bind fun block1 => v2.bind fun p2 => (g.heap p2).bind fun block2 =>
      v3.bind fun p3 => (g.heap p3).bind fun block3 =>
        if block1.numbits = block2.numbits ∧ block1.numbits = block3.numbits then
          (combineWords f block1.words block2.words block3.words block1.dim).map fun words =>
            g.write p1 { block1 with words := words }
        else none
  | none => if v2 = none ∧ v3 = none then some g else none

/-- The operations that change a vector by another one. The numbers of bits are compared where the
comparison is not for debugging alone. -/
def combineAss (f : Word → Word → Word) (compared : Bool) (g : VecGlobal) (v1 v2 : vec_t) :
    Option VecGlobal :=
  match v1 with
  | some p1 =>
    (g.heap p1).bind fun block1 => v2.bind fun p2 => (g.heap p2).bind fun block2 =>
      if compared && block1.numbits ≠ block2.numbits then none
      else (combineWords f block1.words block1.words block2.words block1.dim).map fun words =>
        g.write p1 { block1 with words := words }
  | none => if v2 = none then some g else none

def vec_andass (g : VecGlobal) (v1 v2 : vec_t) : Option VecGlobal :=
  combineAss (· &&& ·) true g v1 v2

def vec_and (g : VecGlobal) (v1 v2 v3 : vec_t) : Option VecGlobal :=
  combine (· &&& ·) g v1 v2 v3

def vec_xorass (g : VecGlobal) (v1 v2 : vec_t) : Option VecGlobal :=
  combineAss (· ^^^ ·) true g v1 v2

def vec_xor (g : VecGlobal) (v1 v2 v3 : vec_t) : Option VecGlobal :=
  combine (· ^^^ ·) g v1 v2 v3

def vec_orass (g : VecGlobal) (v1 v2 : vec_t) : Option VecGlobal :=
  combineAss (· ||| ·) false g v1 v2

def vec_or (g : VecGlobal) (v1 v2 v3 : vec_t) : Option VecGlobal :=
  combine (· ||| ·) g v1 v2 v3

def vec_subass (g : VecGlobal) (v1 v2 : vec_t) : Option VecGlobal :=
  combineAss (fun word word' => word &&& ~~~word') true g v1 v2

def vec_sub (g : VecGlobal) (v1 v2 v3 : vec_t) : Option VecGlobal :=
  combine (fun word word' => word &&& ~~~word') g v1 v2 v3

/-- `vec_clear`. -/
def vec_clear (g : VecGlobal) (v : vec_t) : Option VecGlobal :=
  match v with
  | none => some g
  | some _ =>
    modify g v fun block => (memset block.words 0 block.dim).map fun words =>
      { block with words := words }

/-- `vec_set`. -/
def vec_set (g : VecGlobal) (v : vec_t) : Option VecGlobal :=
  match v with
  | none => some g
  | some _ =>
    modify g v fun block => (memset block.words (~~~0) block.dim).bind fun words =>
      vec_clearextrabits { block with words := words }

/-- `vec_copy`. -/
def vec_copy (g : VecGlobal) (to_ from_ : vec_t) : Option VecGlobal :=
  if to_ = from_ then some g
  else
    from_.bind fun p => (g.heap p).bind fun block =>
      modify g to_ fun block' =>
        if block'.numbits = block.numbits then
          (memcpy block'.words block.words block'.dim).map fun words =>
            { block' with words := words }
        else none

/-- `vec_equal`. -/
def vec_equal (g : VecGlobal) (v1 v2 : vec_t) : Option Bool :=
  if v1 = v2 then some true
  else
    v1.bind fun p1 => (g.heap p1).bind fun block1 => v2.bind fun p2 => (g.heap p2).bind fun block2 =>
      if block1.numbits = block2.numbits ∧ block1.dim ≤ block1.words.length ∧
          block1.dim ≤ block2.words.length then
        some (block1.words.take block1.dim = block2.words.take block1.dim)
      else none

/-- `vec_disjoint`. -/
def vec_disjoint (g : VecGlobal) (v1 v2 : vec_t) : Option Bool :=
  v1.bind fun p1 => (g.heap p1).bind fun block1 => v2.bind fun p2 => (g.heap p2).bind fun block2 =>
    if block1.numbits = block2.numbits ∧ block1.dim ≤ block1.words.length ∧
        block1.dim ≤ block2.words.length then
      some (((block1.words.take block1.dim).zip (block2.words.take block1.dim)).all fun (w1, w2) =>
        w1 &&& w2 = 0)
    else none

end LaserD.Dvec
