/-
This file models the expansion of response files in the arguments of the command line.

An argument that begins with `@` names a variable of the environment or a file, whose contents are
split into arguments that take its place. The contents are split in place: an argument is written
to the buffer from its start on, at a position that is never beyond the one that is read. The
arguments that were put in are left for the next pass over all arguments, which is made when one
that was read in this pass is written with an `@` at its start.
-/

import LaserD.Lib.PassExpansion
import Mathlib.Data.Set.Finite.Basic
import Mathlib.Logic.Relation

namespace LaserD.Root.Response

/-- An argument, without the null at its end. -/
abbrev Arg := List Char

/-! ### Splitting the contents of a file -/

/-- The state of the loop over an argument: what was written, whether the position is between
quotes, the number of backslashes before it, and how far the writing is behind the reading. -/
structure Scan where
  text : Arg
  instring : Bool
  numSlashes : Nat
  spare : Nat

/-- The start of an argument. -/
def Scan.start : Scan where
  text := []
  instring := false
  numSlashes := 0
  spare := 0

/-- What a character does to the scan of an argument: the scan goes on, the argument ends, or the
file ends. -/
inductive Step
  | more (scan : Scan)
  | endArgument
  | endFile

/-- The character is written. -/
def Scan.put (s : Scan) (c : Char) : Scan :=
  { s with
    text := s.text ++ [c]
    numSlashes := if c = '\\' then s.numSlashes + 1 else 0 }

/-- A quote: of the backslashes before it half are kept, and it is written itself if their number
is odd. -/
def Scan.quote (s : Scan) : Scan :=
  let nonSlashes := s.numSlashes % 2
  let numSlashes := s.numSlashes / 2
  let text := s.text.take (s.text.length - numSlashes)
  { text := if nonSlashes ≠ 0 then text.dropLast ++ ['"'] else text
    instring := if nonSlashes ≠ 0 then s.instring else !s.instring
    numSlashes := 0
    spare := s.spare + numSlashes + 1 }

/-- The body of the loop over an argument. -/
def Scan.step (s : Scan) (c : Char) : Step :=
  match c with
  | '"' => .more s.quote
  | '\x1a' => .endFile
  | '\r' => .more { s with spare := s.spare + 1 }
  | ' ' | '\t' => if s.instring then .more (s.put c) else .endArgument
  | '\n' | '\x00' => .endArgument
  | _ => .more (s.put c)

/-- The arguments of a file, and whether one of them is written with an `@` at its start. -/
abbrev Contents := List Arg × Bool

mutual

/-- The loop of `insertArgumentsFromResponse`. Nothing means a write outside the buffer. -/
def scanArguments (comment : Bool) : List Char → Option Contents
  | [] => some ([], false)
  | c :: rest =>
    match c with
    | '\x1a' => some ([], false)
    | '\r' | '\n' => scanArguments false rest
    | '\x00' | ' ' | '\t' => scanArguments comment rest
    | '#' => scanArguments true rest
    | _ =>
      if comment then scanArguments comment rest
      else
        match Scan.start.step c with
        | .more scan => (scanArgument scan rest).map fun found => (found.1, c = '@' || found.2)
        | .endArgument => (scanArguments comment rest).map fun found => ([] :: found.1, found.2)
        | .endFile => some ([[]], false)

/-- The loop over an argument, from the second character on. -/
def scanArgument (scan : Scan) : List Char → Option Contents
  | [] => if scan.spare = 0 then none else some ([scan.text], false)
  | c :: rest =>
    match scan.step c with
    | .more scan => scanArgument scan rest
    | .endArgument =>
      (scanArguments false rest).map fun found => (scan.text :: found.1, found.2)
    | .endFile => some ([scan.text], false)

end

/-- `insertArgumentsFromResponse`: the arguments that are put in, and whether another response
argument was found. -/
def insertArgumentsFromResponse (buffer : List Char) : Option Contents :=
  scanArguments false buffer

/-- The arguments of the test of the splitting. -/
example : insertArgumentsFromResponse
      "\\\\\\\\\"foo bar\" \\\\\\\\foo \\\\\\\"foo \\\"foo \"\\\"\" # @comment\x00".toList =
    some (["\\\\foo bar".toList, "\\\\\\\\foo".toList, "\\\"foo".toList, "\"foo".toList,
      "\"".toList], false) := by
  decide

/-! ### Expanding the arguments -/

/-- How the expansion ends: with the arguments, with the first response file that could not be
found, with a write outside a buffer, or not at all. -/
inductive Expansion (α : Type)
  | success (a : α)
  | missing (cp : Arg) (args : List Arg)
  | outside
  | endless
  deriving DecidableEq

/-- The loop of `responseExpandFrom`: the arguments before the position, those from it on, and
whether another pass is to be made. -/
def expandPass (lookup : Arg → Option (List Char)) :
    List Arg → List Arg → Bool → Expansion (List Arg × Bool)
  | before, [], recurse => .success (before, recurse)
  | before, cp :: rest, recurse =>
    if cp.head? ≠ some '@' then expandPass lookup (before ++ [cp]) rest recurse
    else
      match lookup cp.tail with
      | none => .missing cp (before ++ rest)
      | some buffer =>
        match insertArgumentsFromResponse buffer with
        | none => .outside
        | some (inserted, found) => expandPass lookup (before ++ inserted) rest (found || recurse)

/-- `responseExpandFrom`. -/
def responseExpandFrom (lookup : Arg → Option (List Char)) :
    Nat → List Arg → Expansion (List Arg)
  | 0, _ => .endless
  | fuel + 1, args =>
    match expandPass lookup [] args false with
    | .success (args, recurse) =>
      if recurse then responseExpandFrom lookup fuel args else .success args
    | .missing cp args => .missing cp args
    | .outside => .outside
    | .endless => .endless

/-! ### Environments -/

/-- The contents of the response file that an argument names. -/
def contents (lookup : Arg → Option (List Char)) : Arg → Option Contents
  | '@' :: name => (lookup name).bind insertArgumentsFromResponse
  | _ => none

/-- The arguments that take the place of an argument. -/
def expandArg (lookup : Arg → Option (List Char)) (arg : Arg) : Option (List Arg) :=
  (contents lookup arg).map Prod.fst

/-- The contents of a name have an argument that refers to another one. -/
def Refers (lookup : Arg → Option (List Char)) (name other : Arg) : Prop :=
  ∃ buffer found, lookup name = some buffer ∧ insertArgumentsFromResponse buffer = some found ∧
    '@' :: other ∈ found.1

/-- An environment: finitely many names have contents, the contents end with a null, and no name
refers to itself, directly or through others. -/
structure Environment where
  lookup : Arg → Option (List Char)
  finite : { name | (lookup name).isSome = true }.Finite
  terminated : ∀ name buffer, lookup name = some buffer → buffer.getLast? = some '\x00'
  acyclic : ∀ name, ¬ Relation.TransGen (Refers lookup) name name

/-- The names that arguments refer to, directly or through others. -/
inductive Environment.Referenced (env : Environment) (args : List Arg) : Arg → Prop
  | argument {name : Arg} (member : '@' :: name ∈ args) : env.Referenced args name
  | nested {name other : Arg} (referenced : env.Referenced args name)
      (refers : Refers env.lookup name other) : env.Referenced args other

/-- Every name that the arguments refer to has contents. -/
def Environment.Resolves (env : Environment) (args : List Arg) : Prop :=
  ∀ name, env.Referenced args name → (env.lookup name).isSome = true

/-- The expansion of arguments ends with other ones. -/
def Environment.Expands (env : Environment) (args result : List Arg) : Prop :=
  ∃ fuel, responseExpandFrom env.lookup fuel args = .success result

/-! ### Nested references -/

/-- The arguments that refer to files, at a depth of nesting below the arguments. -/
def Environment.nested (env : Environment) (depth : Nat) (args : List Arg) : List Arg :=
  PassExpansion.nested (expandArg env.lookup) depth args

/-- One of the files at a depth has an argument that is written with an `@` at its start. -/
def Environment.goesOn (env : Environment) (args : List Arg) (depth : Nat) : Bool :=
  (env.nested depth args).any fun arg => ((contents env.lookup arg).map Prod.snd).getD false

/-- The first depth whose files have no such argument; the passes end there. -/
def Environment.StopsAt (env : Environment) (args : List Arg) (depth : Nat) : Prop :=
  env.goesOn args depth = false ∧ ∀ less < depth, env.goesOn args less = true

/-- References are left at the depth where the passes end: all of them are written in quotes. -/
def Environment.Leaves (env : Environment) (args : List Arg) (depth : Nat) : Prop :=
  env.nested (depth + 1) args ≠ []

/-- Where the passes over one list of arguments leave references, those over the other end no
later. -/
def Environment.Independent (env : Environment) (a b : List Arg) : Prop :=
  ∀ m n, env.StopsAt a m → env.StopsAt b n →
    (env.Leaves a m → n ≤ m) ∧ (env.Leaves b n → m ≤ n)

end LaserD.Root.Response
