/-
This file models the spell checker.

The candidates are written one after the other into one buffer, which is put right again after each.
They are looked up by a function of the caller, which says what it finds and at which cost; the best
result is kept, and the search ends as soon as the cost cannot get any better. On the second level
each candidate is changed once more, in a buffer of its own, and looked up then.
-/

import Mathlib.Algebra.Group.Int.Defs
import Mathlib.Data.List.Basic

namespace LaserD.Root.Speller

/-- A `char` of a word. -/
abbrev CodeUnit := BitVec 8

/-- A word that is looked up. -/
abbrev Word := List CodeUnit

/-- `int.max`. -/
def intMax : Int := 2 ^ 31 - 1

/-- `idchars`. -/
def idchars : List CodeUnit :=
  "abcdefghijklmnopqrstuvwxyzABCDEFGHIJKLMNOPQRSTUVWXYZ0123456789_".toList.map fun c =>
    .ofNat 8 c.toNat

variable {T : Type}

/-! ### The best result -/

/-- `combineSpellerResult`: the best result, its cost, and whether the search can stop. -/
def combineSpellerResult (p : Option T) (cost : Int) (np : Option T) (ncost : Int) :
    Option T × Int × Bool :=
  if np.isSome ∧ ncost < cost then (np, ncost, decide (ncost ≤ 0)) else (p, cost, false)

/-- What the search has found: the best result and its cost, the words that were looked up, and
whether it has stopped. -/
structure Best (T : Type) where
  p : Option T
  cost : Int
  probes : List Word
  stopped : Bool

/-- Nothing has been looked up. -/
def Best.start : Best T where
  p := none
  cost := intMax
  probes := []
  stopped := false

/-- What a lookup finds, its cost, and the words that it looks up. -/
abbrev Found (T : Type) := Option T × Int × List Word

/-- A result is compared with the best one. -/
def Best.see (best : Best T) (found : Found T) : Best T :=
  let (p, cost, stopped) := combineSpellerResult best.p best.cost found.1 found.2.1
  ⟨p, cost, best.probes ++ found.2.2, stopped⟩

/-! ### The buffer -/

/-- A write at an index, where nothing means that it is outside the buffer. -/
def put (buf : Word) (i : Nat) (c : CodeUnit) : Option Word :=
  if i < buf.length then some (buf.set i c) else none

/-- `buf[lo .. hi] = src`. -/
def copyTo (buf : Word) (lo hi : Nat) (src : Word) : Option Word :=
  if lo ≤ hi ∧ hi ≤ buf.length ∧ src.length = hi - lo then
    some (buf.take lo ++ src ++ buf.drop hi)
  else none

/-- `a[lo .. hi]`. -/
def slice (a : Word) (lo hi : Nat) : Option Word :=
  if lo ≤ hi ∧ hi ≤ a.length then some ((a.take hi).drop lo) else none

/-- The state of a search: what it has found, and its buffer. -/
structure State (T : Type) where
  best : Best T
  buf : Word

/-- The buffer is written. -/
def State.write (s : State T) (buf : Option Word) : Option (State T) :=
  buf.map fun buf => { s with buf := buf }

/-- A part of the search, and what follows it unless it has stopped. -/
def andThen (first : Option (State T)) (next : State T → Option (State T)) : Option (State T) :=
  first.bind fun s => if s.best.stopped then some s else next s

/-- A loop over indices from `i` on. -/
def forRange (count i : Nat) (body : Nat → State T → Option (State T)) (s : State T) :
    Option (State T) :=
  match count with
  | 0 => some s
  | count + 1 => andThen (body i s) (forRange count (i + 1) body)

/-- A loop over characters. -/
def forEach (chars : List CodeUnit) (body : CodeUnit → State T → Option (State T)) (s : State T) :
    Option (State T) :=
  match chars with
  | [] => some s
  | c :: chars => andThen (body c s) (forEach chars body)

/-- The first characters of the buffer are looked up. -/
def attempt (look : Word → Nat → Option (Found T)) (length index : Nat) (s : State T) :
    Option (State T) :=
  (slice s.buf 0 length).bind fun word =>
    (look word index).map fun found => { s with best := s.best.see found }

/-- The lookup of a word as it is. -/
def lookup (dg : Word → Option T × Int) (word : Word) (_ : Nat) : Option (Found T) :=
  some ((dg word).1, (dg word).2, [word])

/-! ### The second level -/

/-- The character at the index is deleted. -/
def deletionAt (look : Word → Nat → Option (Found T)) (seed : Word) (index : Nat) (s : State T) :
    Option (State T) :=
  if index < seed.length then
    andThen ((slice seed (index + 1) seed.length).bind fun rest =>
      s.write (copyTo s.buf index (seed.length - 1) rest)) fun s =>
        attempt look (seed.length - 1) 0 s
  else some s

/-- The character at the index is substituted. -/
def substitutionAt (look : Word → Nat → Option (Found T)) (seed : Word) (index : Nat) (s : State T) :
    Option (State T) :=
  if index < seed.length then
    andThen (s.write (copyTo s.buf 0 seed.length seed)) fun s =>
      forEach idchars (fun c s =>
        andThen (s.write (put s.buf index c)) fun s => attempt look seed.length 0 s) s
  else some s

/-- A character is inserted at the index. -/
def insertionAt (look : Word → Nat → Option (Found T)) (seed : Word) (index : Nat) (s : State T) :
    Option (State T) :=
  andThen ((slice seed index seed.length).bind fun rest =>
    s.write (copyTo s.buf (index + 1) (seed.length + 1) rest)) fun s =>
      forEach idchars (fun c s =>
        andThen (s.write (put s.buf index c)) fun s => attempt look (seed.length + 1) 0 s) s

/-- `spellerY`. The contents of a new buffer are arbitrary. -/
def spellerY (dg : Word → Option T × Int) (junk : Nat → CodeUnit) (seed : Word) (index : Nat) :
    Option (Found T) :=
  if seed.length = 0 then some (none, 0, [])
  else
    let look := lookup dg
    let buf := (List.range (seed.length + 1)).map junk
    let first : Option (State T) := (slice seed 0 index).bind fun rest =>
      State.write ⟨.start, buf⟩ (copyTo buf 0 index rest)
    (andThen (andThen (andThen first (deletionAt look seed index)) (substitutionAt look seed index))
      (insertionAt look seed index)).map fun s => (s.best.p, s.best.cost, s.best.probes)

/-! ### The first level -/

/-- The character of the position is put back. -/
def restore (seed : Word) (i : Nat) (s : State T) : Option (State T) :=
  seed[i]?.bind fun c => s.write (put s.buf i c)

/-- Deletions. -/
def deletions (look : Word → Nat → Option (Found T)) (seed : Word) (s : State T) :
    Option (State T) :=
  forRange seed.length 0 (fun i s =>
    andThen (attempt look (seed.length - 1) i s) fun s => restore seed i s) s

/-- Transpositions. -/
def transpositions (look : Word → Nat → Option (Found T)) (seed : Word) (s : State T) :
    Option (State T) :=
  andThen (s.write (copyTo s.buf 0 seed.length seed)) fun s =>
    forRange (seed.length - 1) 0 (fun i s =>
      andThen (seed[i + 1]?.bind fun c => s.write (put s.buf i c)) fun s =>
        andThen (seed[i]?.bind fun c => s.write (put s.buf (i + 1) c)) fun s =>
          andThen (attempt look seed.length 0 s) fun s => restore seed i s) s

/-- Substitutions. -/
def substitutions (look : Word → Nat → Option (Found T)) (seed : Word) (s : State T) :
    Option (State T) :=
  andThen (s.write (copyTo s.buf 0 seed.length seed)) fun s =>
    forRange seed.length 0 (fun i s =>
      andThen (forEach idchars (fun c s =>
        andThen (s.write (put s.buf i c)) fun s => attempt look seed.length (i + 1) s) s)
        fun s => restore seed i s) s

/-- Insertions. -/
def insertions (look : Word → Nat → Option (Found T)) (seed : Word) (s : State T) :
    Option (State T) :=
  andThen (s.write (copyTo s.buf 1 (seed.length + 1) seed)) fun s =>
    forRange (seed.length + 1) 0 (fun i s =>
      andThen (forEach idchars (fun c s =>
        andThen (s.write (put s.buf i c)) fun s => attempt look (seed.length + 1) (i + 1) s) s)
        fun s => if i < seed.length then restore seed i s else some s) s

/-- `spellerX`: the result, and the words that were looked up. Nothing means an access outside a
buffer. -/
def spellerX (dg : Word → Option T × Int) (junk : Nat → CodeUnit) (seed : Word) (flag : Bool) :
    Option (Option T × List Word) :=
  if seed.length = 0 then some (none, [])
  else
    let look := if flag then spellerY dg junk else lookup dg
    let buf := (List.range (seed.length + 1)).map junk
    let first : Option (State T) := (slice seed 1 seed.length).bind fun rest =>
      State.write ⟨.start, buf⟩ (copyTo buf 0 (seed.length - 1) rest)
    (andThen (andThen (andThen (andThen first (deletions look seed))
      fun s => if flag then some s else transpositions look seed s)
      (substitutions look seed)) (insertions look seed)).map fun s => (s.best.p, s.best.probes)

end LaserD.Root.Speller
