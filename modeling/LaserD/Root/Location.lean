/-
This file models the source locations of `dmd/location.d`.

A location is an index of 32 bits. Every file takes an interval of indices, one for each
byte and one for the end; the offset in a file is resolved to a line by the offsets at
which lines start, and then to the name and number that the last `#line` directive gives
it. Three indices are cached: of the file, of the line and of the substitution that were
found last. Lines and substitutions are searched by one algorithm, which tries the cached
index and its neighbours and falls back on binary search from there.

`File` is what a program has registered of a file, without caches, and `Source.sourceLoc`
is the location by that alone.
-/

import LaserD.Lib.SortedSearch

namespace LaserD.Root.Location

open SortedSearch

/-! ### Tables -/

/-- An entry of `substitutions`: the fields of the `BaseLoc` that are used there. -/
structure Substitution where
  filename : String
  startIndex : Nat
  startLine : BitVec 32

/-- A `BaseLoc`. Offsets and indices are below `2 ^ 32`; lines are added as `int`. -/
structure BaseLoc where
  filename : String
  fileContents : List (BitVec 8)
  startIndex : Nat
  startLine : BitVec 32
  lines : List Nat
  substitutions : List Substitution := []
  lastLineIndex : Nat := 0
  lastSubstIndex : Nat := 0

/-- A `SourceLoc`. -/
structure SourceLoc where
  filename : String := ""
  line : BitVec 32 := 0
  column : Nat := 0
  fileOffset : Nat := 0
  fileContent : List (BitVec 8) := []

/-- The global tables. -/
structure Locations where
  locIndex : Nat := 1
  locFileTable : List BaseLoc := []
  lastFileTableIndex : Nat := 0

/-! ### Searching with a cache -/

/-- The cached index or one of its neighbours, with the new cache. `current` is the test of the
cached index. -/
def nearHit (starts : List Nat) (last offset : Nat) (current : Bool) : Option Nat :=
  if last < starts.length - 1 then
    if current then some last
    else if last + 1 < starts.length - 1 ∧ starts.getD (last + 1) 0 ≤ offset ∧
        offset < starts.getD (last + 2) 0 then some (last + 1)
    else if last > 0 ∧ starts.getD (last - 1) 0 ≤ offset ∧ offset < starts.getD last 0 then
      some (last - 1)
    else none
  else if last = starts.length - 1 ∧ starts.getD last 0 ≤ offset then some last
  else none

/-- The search of `getLineIndex` and `getSubstitutionIndex`: the index found and the new cache. -/
def cachedSearch (starts : List Nat) (last offset : Nat) (current : Bool) : Option (Nat × Nat) :=
  if starts.length ≤ 1 then some (0, last)
  else
    match nearHit starts last offset current with
    | some hit => some (hit, hit)
    | none => do
        let start ← starts[last]?
        let lo := if offset < start then 0 else last
        let hi := if offset < start then last else starts.length - 1
        let mid ← binarySearch starts offset starts.length lo hi
        return (mid, mid)

namespace BaseLoc

/-- `getLineIndex`. -/
def getLineIndex (b : BaseLoc) (offset : Nat) : Option (Nat × BaseLoc) :=
  let current := b.lines.getD b.lastLineIndex 0 ≤ offset ∧
    offset < b.lines.getD (b.lastLineIndex + 1) 0
  (cachedSearch b.lines b.lastLineIndex offset current).map fun (i, last) =>
    (i, { b with lastLineIndex := last })

/-- `getSubstitutionIndex`. -/
def getSubstitutionIndex (b : BaseLoc) (offset : Nat) : Option (Nat × BaseLoc) :=
  let starts := b.substitutions.map Substitution.startIndex
  let current := starts.getD b.lastSubstIndex 0 ≤ offset ∧
    (b.lastSubstIndex = starts.length - 1 ∨ starts.getD (b.lastSubstIndex + 1) 0 > offset)
  (cachedSearch starts b.lastSubstIndex offset current).map fun (i, last) =>
    (i, { b with lastSubstIndex := last })

/-- `newLine`. -/
def newLine (b : BaseLoc) (offset : Nat) : BaseLoc :=
  { b with lines := b.lines ++ [offset] }

/-- `getLoc`. -/
def getLoc (b : BaseLoc) (offset : Nat) : Nat :=
  (b.startIndex + offset) % 2 ^ 32

/-- `addSubstitution`. -/
def addSubstitution (b : BaseLoc) (offset : Nat) (filename : String) (line : BitVec 32) :
    BaseLoc :=
  let substitutions := if b.substitutions.length = 0 then [⟨b.filename, 0, 0⟩] else b.substitutions
  let fname := if filename.length = 0 then
    (substitutions.getLast?.map Substitution.filename).getD "" else filename
  { b with substitutions := substitutions ++
      [⟨fname, offset, line - BitVec.ofNat 32 b.lines.length + b.startLine - 2⟩] }

/-- `substitute`. -/
def substitute (b : BaseLoc) (loc : SourceLoc) : Option (SourceLoc × BaseLoc) :=
  if b.substitutions.length = 0 then some (loc, b)
  else do
    let (i, b) ← b.getSubstitutionIndex loc.fileOffset
    let s ← b.substitutions[i]?
    let loc := if s.filename.length > 0 then { loc with filename := s.filename } else loc
    return ({ loc with line := loc.line + s.startLine }, b)

/-- `getSourceLoc`. -/
def getSourceLoc (b : BaseLoc) (offset : Nat) : Option (SourceLoc × BaseLoc) := do
  let (i, b) ← b.getLineIndex offset
  let start ← b.lines[i]?
  b.substitute ⟨b.filename, BitVec.ofNat 32 i + b.startLine, (1 + offset - start) % 2 ^ 32, offset,
    b.fileContents⟩

end BaseLoc

namespace Locations

/-- `newBaseLoc`. -/
def newBaseLoc (t : Locations) (filename : String) (fileContent : List (BitVec 8)) : Locations :=
  { t with
    locFileTable := t.locFileTable ++ [⟨filename, fileContent, t.locIndex, 1, [0], [], 0, 0⟩]
    locIndex := (t.locIndex + (fileContent.length + 1)) % 2 ^ 32 }

/-- `Loc.singleFilename`. -/
def singleFilename (t : Locations) (filename : String) : Locations :=
  { t with
    locFileTable := t.locFileTable ++ [⟨filename, [], t.locIndex, 0, [0], [], 0, 0⟩]
    locIndex := (t.locIndex + 1) % 2 ^ 32 }

/-- `fileTableIndex`. -/
def fileTableIndex (t : Locations) (index : Nat) : Option (Nat × Locations) := do
  let starts := t.locFileTable.map BaseLoc.startIndex
  let start ← starts[t.lastFileTableIndex]?
  let i ←
    if start ≤ index then scanForward starts index starts.length t.lastFileTableIndex
    else scanBackward starts index t.lastFileTableIndex
  return (i, { t with lastFileTableIndex := i })

/-- The file of an index, with its number and the offset. -/
def resolve (t : Locations) (index : Nat) : Option (Nat × BaseLoc × Nat × Locations) := do
  let (i, t) ← t.fileTableIndex index
  let b ← t.locFileTable[i]?
  return (i, b, (index + 2 ^ 32 - b.startIndex) % 2 ^ 32, t)

/-- A file whose caches have changed. -/
def setFile (t : Locations) (i : Nat) (b : BaseLoc) : Locations :=
  { t with locFileTable := t.locFileTable.set i b }

/-- `SourceLoc(loc)`. -/
def sourceLoc (t : Locations) (index : Nat) : Option (SourceLoc × Locations) :=
  if index = 0 ∨ t.locFileTable.length = 0 then some ({}, t)
  else do
    let (i, b, offset, t) ← t.resolve index
    let (loc, b) ← b.getSourceLoc offset
    return (loc, t.setFile i b)

/-- `Loc.fileOffset`. -/
def fileOffset (t : Locations) (index : Nat) : Option (Nat × Locations) := do
  let (_, _, offset, t) ← t.resolve index
  return (offset, t)

/-- `Loc.filename`. -/
def filename (t : Locations) (index : Nat) : Option (Option String × Locations) :=
  if index = 0 then some (none, t)
  else do
    let (i, b, offset, t) ← t.resolve index
    if b.substitutions.length > 0 then
      let (si, b) ← b.getSubstitutionIndex offset
      let s ← b.substitutions[si]?
      let fname := if s.filename.length > 0 then s.filename else b.filename
      return (some fname, t.setFile i b)
    else return (some b.filename, t)

/-- `Loc.nextLine`. -/
def nextLine (t : Locations) (index : Nat) : Option (Nat × Locations) := do
  let (i, b, offset, t) ← t.resolve index
  let (j, b) ← b.getLineIndex offset
  match b.lines[j + 1]? with
  | some start => return ((b.startIndex + start) % 2 ^ 32, t.setFile i b)
  | none => return (index, t.setFile i b)

end Locations

/-! ### Locations without caches -/

/-- A directive: from an offset on, a physical line has the given number, later lines count up
from it, and the file has another name unless the name is empty. -/
structure Directive where
  offset : Nat
  filename : String
  physical : Nat
  number : BitVec 32

/-- What has been registered of a file. `firstLine` is the number of its first line. -/
structure File where
  filename : String
  contents : List (BitVec 8)
  start : Nat
  firstLine : Nat
  lines : List Nat
  directives : List Directive

namespace File

/-- The number of indices of the file. -/
def size (f : File) : Nat :=
  f.contents.length + 1

/-- The number of lines that start up to an offset. -/
def physicalLine (f : File) (offset : Nat) : Nat :=
  f.lines.countP fun start => start ≤ offset

/-- Where the line of an offset starts. -/
def lineStart (f : File) (offset : Nat) : Nat :=
  ((f.lines.filter fun start => start ≤ offset).getLast?).getD 0

/-- The directives up to an offset. -/
def directivesAt (f : File) (offset : Nat) : List Directive :=
  f.directives.filter fun d => d.offset ≤ offset

/-- The number of the line of an offset. -/
def line (f : File) (offset : Nat) : BitVec 32 :=
  match (f.directivesAt offset).getLast? with
  | some d => d.number + BitVec.ofNat 32 (f.physicalLine offset) - BitVec.ofNat 32 d.physical
  | none => BitVec.ofNat 32 (f.physicalLine offset) + BitVec.ofNat 32 f.firstLine - 1

/-- The name at an offset: that of the last directive with a name. -/
def name (f : File) (offset : Nat) : String :=
  (((f.directivesAt offset).filter fun d => d.filename.length ≠ 0).getLast?.map
    Directive.filename).getD f.filename

/-- The location of an offset. -/
def sourceLoc (f : File) (offset : Nat) : SourceLoc :=
  ⟨f.name offset, f.line offset, offset - f.lineStart offset + 1, offset, f.contents⟩

end File

/-- The files of a program. -/
abbrev Source := List File

namespace Source

/-- The number of indices in use. -/
def total (files : Source) : Nat :=
  (files.map File.size).sum

/-- The file whose interval has the index. -/
def fileAt (files : Source) (index : Nat) : Option File :=
  files.find? fun f => f.start ≤ index ∧ index < f.start + f.size

/-- The location of an index. -/
def sourceLoc (files : Source) (index : Nat) : SourceLoc :=
  match files.fileAt index with
  | some f => f.sourceLoc (index - f.start)
  | none => {}

end Source

/-! ### Registrations and queries -/

/-- An operation. `poundLine` is a directive that ends with a new line, as the lexer registers it:
its line number is set, counted up at the end of the line, and passed on from there. -/
inductive Op
  | newBaseLoc (filename : String) (fileContent : List (BitVec 8))
  | singleFilename (filename : String)
  | newLine (file offset : Nat)
  | addSubstitution (file offset : Nat) (filename : String) (line : BitVec 32)
  | poundLine (file offset : Nat) (filename : String) (number : BitVec 32)
  | sourceLoc (index : Nat)
  | fileOffset (index : Nat)
  | filename (index : Nat)
  | nextLine (index : Nat)

/-- The operation on the tables. -/
def Op.perform (op : Op) (t : Locations) : Option Locations :=
  match op with
  | .newBaseLoc fname fileContent => some (t.newBaseLoc fname fileContent)
  | .singleFilename fname => some (t.singleFilename fname)
  | .newLine file offset => (t.locFileTable[file]?).map fun b => t.setFile file (b.newLine offset)
  | .addSubstitution file offset fname line => (t.locFileTable[file]?).map fun b =>
      t.setFile file (b.addSubstitution offset fname line)
  | .poundLine file offset fname number => (t.locFileTable[file]?).map fun b =>
      t.setFile file ((b.newLine offset).addSubstitution offset fname (number + 1))
  | .sourceLoc index => (t.sourceLoc index).map Prod.snd
  | .fileOffset index => (t.fileOffset index).map Prod.snd
  | .filename index => (t.filename index).map Prod.snd
  | .nextLine index => (t.nextLine index).map Prod.snd

/-- The operation on what has been registered. -/
def Op.register (op : Op) (files : Source) : Source :=
  match op with
  | .newBaseLoc fname fileContent => files ++ [⟨fname, fileContent, 1 + files.total, 1, [0], []⟩]
  | .singleFilename fname => files ++ [⟨fname, [], 1 + files.total, 0, [0], []⟩]
  | .newLine file offset =>
      files.modify file fun f => { f with lines := f.lines ++ [offset] }
  | .addSubstitution file offset fname line =>
      files.modify file fun f => { f with
        directives := f.directives ++ [⟨offset, fname, f.lines.length, line - 1⟩] }
  | .poundLine file offset fname number =>
      files.modify file fun f => { f with
        lines := f.lines ++ [offset]
        directives := f.directives ++ [⟨offset, fname, f.lines.length + 1, number⟩] }
  | _ => files

/-- A file with lines, in which new lines and directives come after the ones there are. -/
def File.Extends (f : File) (offset : Nat) : Prop :=
  f.firstLine = 1 ∧ offset < 2 ^ 32 ∧ ∀ d ∈ f.directives, d.offset < offset

/-- The operations of a program: the files together stay below `2 ^ 32`, lines and directives
come in order, and indices are those of files. -/
def Op.Admissible (op : Op) (files : Source) : Prop :=
  match op with
  | .newBaseLoc _ fileContent => files.total + (fileContent.length + 1) < 2 ^ 32
  | .singleFilename _ => files.total + 1 < 2 ^ 32
  | .newLine file offset => ∃ f, files[file]? = some f ∧ f.firstLine = 1 ∧ offset < 2 ^ 32 ∧
      ∀ start ∈ f.lines, start < offset
  | .addSubstitution file offset _ _ => ∃ f, files[file]? = some f ∧ f.Extends offset
  | .poundLine file offset _ _ => ∃ f, files[file]? = some f ∧ f.Extends offset ∧
      ∀ start ∈ f.lines, start < offset
  | .sourceLoc index => index < 1 + files.total
  | .filename index => index < 1 + files.total
  | .fileOffset index => 0 < index ∧ index < 1 + files.total
  | .nextLine index => 0 < index ∧ index < 1 + files.total

end LaserD.Root.Location
