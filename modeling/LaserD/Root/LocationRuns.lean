/-
This file follows the tables of source locations through a program: files are registered,
lines and directives are added to them, and locations are asked for, in any order.

`Agrees` is the invariant. The files lie one after the other from index 1 on, so that an
index below the end lies in one of them; the scan from the cached file finds that file, and
the location inside of it is the one of `LocationCaches`.
-/

import LaserD.Root.LocationCaches

namespace LaserD.Root.Location

open SortedSearch

/-! ### Registrations in a file -/

section

variable {b : BaseLoc} {f : File} {offset : Nat}

/-- A new line. -/
def File.newLine (f : File) (offset : Nat) : File :=
  { f with lines := f.lines ++ [offset] }

/-- A new directive. -/
def File.direct (f : File) (d : Directive) : File :=
  { f with directives := f.directives ++ [d] }

theorem pairwise_concat {starts : List Nat} (sorted : starts.Pairwise (· < ·))
    (after : ∀ start ∈ starts, start < offset) : (starts ++ [offset]).Pairwise (· < ·) := by
  rw [List.pairwise_append]
  refine ⟨sorted, List.pairwise_singleton _ _, fun start member last atLast => ?_⟩
  rw [List.mem_singleton] at atLast
  rw [atLast]
  exact after start member

theorem Holds.newLine (holds : Holds b f) (small : offset < 2 ^ 32)
    (after : ∀ start ∈ f.lines, start < offset) : Holds (b.newLine offset) (f.newLine offset) := by
  have ordered := holds.ordered
  have kept : (f.lines ++ [offset])[0]? = some 0 := by
    rw [List.getElem?_append_left (Nat.zero_lt_of_lt holds.lineCache)]
    exact ordered.first
  have below : ∀ start ∈ f.lines ++ [offset], start < 2 ^ 32 := by
    intro start member
    rcases List.mem_append.mp member with old | new
    · exact ordered.lines_lt start old
    · rw [List.mem_singleton] at new
      rwa [new]
  refine ⟨⟨pairwise_concat ordered.lines after, kept, below, ordered.directives,
    ordered.directives_lt, ordered.numbered⟩, holds.filename, holds.contents, holds.start,
    holds.startLine, ?_, holds.substitutions, ?_, holds.substCache⟩
  · show b.lines ++ [offset] = f.lines ++ [offset]
    rw [holds.lines]
  · show b.lastLineIndex < (f.lines ++ [offset]).length
    rw [List.length_append]
    exact Nat.lt_add_right _ holds.lineCache

/-- The name of the last substitution is that of the last directive that has one. -/
theorem File.getLast?_substitutions (f : File) (some_ : f.directives ≠ []) :
    f.substitutions.getLast?.map Substitution.filename = some (lastName f.filename f.directives) := by
  obtain ⟨before, d, split⟩ : ∃ before d, f.directives = before ++ [d] :=
    ⟨_, _, (List.dropLast_concat_getLast some_).symm⟩
  rw [File.substitutions, if_neg some_, split, named_concat, ← List.cons_append,
    List.getLast?_concat]
  rfl

/-- A directive is the substitution that makes the given physical line have the given number. -/
theorem File.substitutions_direct (f : File) (d : Directive) :
    (f.direct d).substitutions =
      (if f.substitutions.length = 0 then [⟨f.filename, 0, 0⟩] else f.substitutions) ++
        [⟨if d.filename.length = 0 then lastName f.filename f.directives else d.filename, d.offset,
          d.number - BitVec.ofNat 32 d.physical⟩] := by
  rw [File.substitutions, File.direct]
  dsimp only
  rw [if_neg (List.append_ne_nil_of_right_ne_nil _ (List.cons_ne_nil _ _)), named_concat,
    lastName_concat]
  by_cases none_ : f.directives = []
  · have empty : f.substitutions = [] := if_pos none_
    rw [none_, empty, if_pos List.length_nil]
    rfl
  · rw [if_neg (File.length_substitutions_ne none_), File.substitutions, if_neg none_]
    rfl

theorem Holds.addSubstitution (holds : Holds b f) (extends_ : f.Extends offset) (fname : String)
    (line : BitVec 32) : Holds (b.addSubstitution offset fname line)
      (f.direct ⟨offset, fname, f.lines.length, line - 1⟩) := by
  have ordered := holds.ordered
  obtain ⟨first, small, after⟩ := extends_
  have sorted : ((f.directives ++ [(⟨offset, fname, f.lines.length, line - 1⟩ : Directive)]).map
      Directive.offset).Pairwise (· < ·) := by
    rw [List.map_append]
    refine pairwise_concat ordered.directives fun start member => ?_
    obtain ⟨d, inside, rfl⟩ := List.mem_map.mp member
    exact after d inside
  have below : ∀ d ∈ f.directives ++ [(⟨offset, fname, f.lines.length, line - 1⟩ : Directive)],
      d.offset < 2 ^ 32 := by
    intro d member
    rcases List.mem_append.mp member with old | new
    · exact ordered.directives_lt d old
    · rw [List.mem_singleton] at new
      rwa [new]
  refine ⟨⟨ordered.lines, ordered.first, ordered.lines_lt, sorted, below, fun _ => first⟩,
    holds.filename, holds.contents, holds.start, holds.startLine, holds.lines, ?_, holds.lineCache,
    ?_⟩
  · have delta : line - BitVec.ofNat 32 f.lines.length + 1#32 - 2 =
        line - 1 - BitVec.ofNat 32 f.lines.length := by bv_omega
    rw [File.substitutions_direct, BaseLoc.addSubstitution, holds.substitutions, holds.filename,
      holds.startLine, holds.lines, first, delta]
    dsimp only
    by_cases none_ : f.directives = []
    · have empty : f.substitutions = [] := if_pos none_
      rw [none_, empty, if_pos List.length_nil]
      rfl
    · rw [if_neg (File.length_substitutions_ne none_), f.getLast?_substitutions none_]
      rfl
  · show b.lastSubstIndex ≤ (f.directives ++ [_]).length
    rw [List.length_append]
    exact Nat.le_add_right_of_le holds.substCache

end

/-! ### The files -/

/-- The files lie one after the other from an index on. -/
def Placed : Nat → Source → Prop
  | _, [] => True
  | first, f :: rest => f.start = first ∧ Placed (first + f.size) rest

/-- The index is one of the file. -/
def File.Has (f : File) (index : Nat) : Prop :=
  f.start ≤ index ∧ index < f.start + f.size

theorem Source.total_cons (f : File) (rest : Source) :
    Source.total (f :: rest) = f.size + Source.total rest := by
  rw [Source.total, Source.total, List.map_cons, List.sum_cons]

theorem Source.total_concat (files : Source) (f : File) :
    Source.total (files ++ [f]) = files.total + f.size := by
  rw [Source.total, Source.total, List.map_append, List.sum_append, List.map_singleton,
    List.sum_singleton]

theorem Placed.concat {first : Nat} {files : Source} (placed : Placed first files) {f : File}
    (last : f.start = first + files.total) : Placed first (files ++ [f]) := by
  induction files generalizing first with
  | nil => exact ⟨last, trivial⟩
  | cons g rest inductionHypothesis =>
    rw [Source.total_cons, ← Nat.add_assoc] at last
    exact ⟨placed.1, inductionHypothesis placed.2 last⟩

/-- A change of a file that leaves it where it is. -/
theorem Placed.modify {first : Nat} {files : Source} (placed : Placed first files)
    {change : File → File} (start : ∀ f, (change f).start = f.start)
    (contents : ∀ f, (change f).contents = f.contents) (i : Nat) :
    Placed first (files.modify i change) ∧ Source.total (files.modify i change) = files.total := by
  have size : ∀ f, (change f).size = f.size := fun f => by rw [File.size, File.size, contents]
  induction files generalizing first i with
  | nil =>
    rw [List.modify_nil]
    exact ⟨placed, rfl⟩
  | cons f rest inductionHypothesis =>
    cases i with
    | zero =>
      rw [List.modify_zero_cons, Source.total_cons, Source.total_cons, size]
      refine ⟨⟨(start f).trans placed.1, ?_⟩, rfl⟩
      rw [size]
      exact placed.2
    | succ i =>
      obtain ⟨rest_, total_⟩ := inductionHypothesis placed.2 i
      rw [List.modify_succ_cons, Source.total_cons, Source.total_cons, total_]
      exact ⟨⟨placed.1, rest_⟩, rfl⟩

theorem Placed.first_le {first : Nat} {files : Source} (placed : Placed first files) :
    ∀ start ∈ files.map File.start, first ≤ start := by
  induction files generalizing first with
  | nil => simp
  | cons f rest inductionHypothesis =>
    intro start member
    rw [List.map_cons, List.mem_cons] at member
    rcases member with rfl | later
    · exact placed.1.ge
    · exact (Nat.le_add_right _ _).trans (inductionHypothesis placed.2 start later)

/-- The indices of a file end before those of a later one begin. -/
theorem Placed.apart {first : Nat} {files : Source} (placed : Placed first files) :
    files.Pairwise fun f g => f.start + f.size ≤ g.start := by
  induction files generalizing first with
  | nil => exact List.Pairwise.nil
  | cons f rest inductionHypothesis =>
    rw [List.pairwise_cons]
    refine ⟨fun g member => ?_, inductionHypothesis placed.2⟩
    rw [placed.1]
    exact placed.2.first_le g.start (List.mem_map_of_mem member)

theorem Placed.sorted {first : Nat} {files : Source} (placed : Placed first files) :
    (files.map File.start).Pairwise (· ≤ ·) := by
  rw [List.pairwise_map]
  exact placed.apart.imp fun apart => (Nat.le_add_right _ _).trans apart

/-- An index is in one file only. -/
theorem Placed.unique {first : Nat} {files : Source} (placed : Placed first files) {i j : Nat}
    {f g : File} (at_ : files[i]? = some f) (other : files[j]? = some g) {index : Nat}
    (has : f.Has index) (otherHas : g.Has index) : i = j := by
  obtain ⟨bound, rfl⟩ := List.getElem?_eq_some_iff.mp at_
  obtain ⟨otherBound, rfl⟩ := List.getElem?_eq_some_iff.mp other
  have apart := List.pairwise_iff_getElem.mp placed.apart
  rcases Nat.lt_trichotomy i j with less | same | more
  · exact absurd (has.2.trans_le (apart i j bound otherBound less)) (Nat.not_lt.mpr otherHas.1)
  · exact same
  · exact absurd (otherHas.2.trans_le (apart j i otherBound bound more)) (Nat.not_lt.mpr has.1)

theorem Placed.le_end {first : Nat} {files : Source} (placed : Placed first files) {f : File}
    (member : f ∈ files) : f.start + f.size ≤ first + files.total := by
  induction files generalizing first with
  | nil => cases member
  | cons g rest inductionHypothesis =>
    rw [Source.total_cons, ← Nat.add_assoc]
    rcases List.mem_cons.mp member with rfl | later
    · rw [placed.1]
      exact Nat.le_add_right _ _
    · exact inductionHypothesis placed.2 later

/-- Every index below the end is in a file. -/
theorem Placed.exists_file {first : Nat} {files : Source} (placed : Placed first files)
    {index : Nat} (low : first ≤ index) (high : index < first + files.total) :
    ∃ i f, files[i]? = some f ∧ f.Has index ∧ IsFloor (files.map File.start) index i ∧
      files.fileAt index = some f := by
  induction files generalizing first with
  | nil => exact absurd high (Nat.not_lt.mpr low)
  | cons f rest inductionHypothesis =>
    rw [Source.total_cons] at high
    by_cases inside : index < first + f.size
    · have has : f.Has index := ⟨placed.1.le.trans low, by rw [placed.1]; exact inside⟩
      refine ⟨0, f, rfl, has, ⟨Nat.zero_lt_succ _, has.1, fun next at_ => ?_⟩, ?_⟩
      · rw [List.map_cons, List.getElem?_cons_succ] at at_
        exact inside.trans_le (placed.2.first_le next (List.mem_of_getElem? at_))
      · rw [Source.fileAt, List.find?_cons_of_pos (by rw [decide_eq_true_iff]; exact has)]
    · obtain ⟨i, g, at_, has, floor, found⟩ := inductionHypothesis placed.2
        (Nat.le_of_not_lt inside) (by omega)
      refine ⟨i + 1, g, at_, has, ⟨?_, ?_, ?_⟩, ?_⟩
      · rw [List.map_cons, List.length_cons]
        exact Nat.succ_lt_succ floor.inside
      · exact floor.start_le
      · exact floor.lt_next
      · rw [Source.fileAt, List.find?_cons_of_neg]
        · exact found
        · rw [decide_eq_true_iff, placed.1]
          exact fun inside' => inside inside'.2

/-- The tables are what was registered, and the cached file is one of them. -/
structure Agrees (t : Locations) (files : Source) : Prop where
  length : t.locFileTable.length = files.length
  held : ∀ (i : Nat) b f, t.locFileTable[i]? = some b → files[i]? = some f → Holds b f
  placed : Placed 1 files
  locIndex : t.locIndex = (1 + files.total) % 2 ^ 32
  small : files.total < 2 ^ 32
  cache : t.lastFileTableIndex ≤ files.length - 1

theorem agrees_empty : Agrees {} [] :=
  ⟨rfl, fun _ _ _ none_ _ => by simp at none_, trivial, rfl, by decide, le_rfl⟩

namespace Agrees

variable {t : Locations} {files : Source}

theorem exists_table (agrees : Agrees t files) {i : Nat} {f : File} (at_ : files[i]? = some f) :
    ∃ b, t.locFileTable[i]? = some b ∧ Holds b f := by
  obtain ⟨bound, rfl⟩ := List.getElem?_eq_some_iff.mp at_
  have inside : i < t.locFileTable.length := by rwa [agrees.length]
  exact ⟨_, List.getElem?_eq_getElem inside, agrees.held i _ _ (List.getElem?_eq_getElem inside) at_⟩

theorem starts (agrees : Agrees t files) :
    t.locFileTable.map BaseLoc.startIndex = files.map File.start := by
  refine List.ext_getElem (by rw [List.length_map, List.length_map, agrees.length]) ?_
  intro i tableBound bound
  rw [List.getElem_map, List.getElem_map]
  rw [List.length_map] at tableBound bound
  exact (agrees.held i _ _ (List.getElem?_eq_getElem tableBound) (List.getElem?_eq_getElem bound)).start

/-- A file whose tables follow a change of what is registered. -/
theorem modify (agrees : Agrees t files) (change : File → File)
    (start : ∀ f, (change f).start = f.start) (contents : ∀ f, (change f).contents = f.contents)
    {i : Nat} {b : BaseLoc} {f : File} (at_ : files[i]? = some f) (holds : Holds b (change f)) :
    Agrees (t.setFile i b) (files.modify i change) := by
  obtain ⟨placed, total⟩ := agrees.placed.modify start contents i
  refine ⟨?_, ?_, placed, ?_, ?_, ?_⟩
  · rw [Locations.setFile, List.length_set, List.length_modify, agrees.length]
  · intro j b' f' table registered
    rw [Locations.setFile] at table
    dsimp only at table
    by_cases here : i = j
    · subst here
      rw [List.getElem?_modify_eq, at_] at registered
      obtain ⟨_, table_⟩ := List.getElem?_eq_some_iff.mp table
      rw [List.getElem_set_self] at table_
      rw [← table_, ← Option.some.inj registered]
      exact holds
    · rw [List.getElem?_set_ne here] at table
      rw [List.getElem?_modify_ne _ _ here] at registered
      exact agrees.held j b' f' table registered
  · rw [total]
    exact agrees.locIndex
  · rw [total]
    exact agrees.small
  · rw [List.length_modify]
    exact agrees.cache

/-- A file whose caches have changed. -/
theorem setFile (agrees : Agrees t files) {i : Nat} {b : BaseLoc} {f : File}
    (at_ : files[i]? = some f) (holds : Holds b f) : Agrees (t.setFile i b) files := by
  have kept : Agrees (t.setFile i b) (files.modify i id) :=
    agrees.modify id (fun _ => rfl) (fun _ => rfl) at_ holds
  rwa [List.modify_id] at kept

/-- Another cached file. -/
theorem setCache (agrees : Agrees t files) {i : Nat} (inside : i < files.length) :
    Agrees { t with lastFileTableIndex := i } files :=
  ⟨agrees.length, agrees.held, agrees.placed, agrees.locIndex, agrees.small, Nat.le_sub_one_of_lt inside⟩

/-- A new file at the end. -/
theorem concat (agrees : Agrees t files) {b : BaseLoc} {f : File} (holds : Holds b f)
    (start : f.start = 1 + files.total) (small : files.total + f.size < 2 ^ 32) {locIndex : Nat}
    (next : locIndex = (1 + (files.total + f.size)) % 2 ^ 32) :
    Agrees { t with locFileTable := t.locFileTable ++ [b], locIndex := locIndex }
      (files ++ [f]) := by
  refine ⟨?_, ?_, agrees.placed.concat start, ?_, ?_, ?_⟩
  · rw [List.length_append, List.length_append, agrees.length]
    rfl
  · intro i b' f' table registered
    dsimp only at table
    by_cases old : i < files.length
    · rw [List.getElem?_append_left old] at registered
      rw [List.getElem?_append_left (by rwa [agrees.length])] at table
      exact agrees.held i b' f' table registered
    · rw [List.getElem?_append_right (Nat.le_of_not_lt old), List.getElem?_singleton] at registered
      rw [List.getElem?_append_right (by rw [agrees.length]; exact Nat.le_of_not_lt old),
        List.getElem?_singleton, agrees.length] at table
      by_cases last : i - files.length = 0
      · rw [if_pos last] at registered table
        rw [← Option.some.inj registered, ← Option.some.inj table]
        exact holds
      · rw [if_neg last] at registered
        cases registered
  · rw [Source.total_concat]
    exact next
  · rwa [Source.total_concat]
  · show t.lastFileTableIndex ≤ (files ++ [f]).length - 1
    rw [List.length_append, List.length_singleton, Nat.add_sub_cancel]
    exact agrees.cache.trans (Nat.sub_le _ _)

/-- The file of an index is found from any cached file. -/
theorem resolve_eq (agrees : Agrees t files) {index : Nat} (positive : 0 < index)
    (below : index < 1 + files.total) :
    ∃ i b f, files[i]? = some f ∧ f.Has index ∧ files.fileAt index = some f ∧ Holds b f ∧
      t.locFileTable[i]? = some b ∧
      t.resolve index = some (i, b, index - f.start, { t with lastFileTableIndex := i }) ∧
      Agrees { t with lastFileTableIndex := i } files := by
  obtain ⟨i, f, at_, has, floor, found⟩ := agrees.placed.exists_file positive below
  obtain ⟨b, table, holds⟩ := agrees.exists_table at_
  obtain ⟨bound, _⟩ := List.getElem?_eq_some_iff.mp at_
  have sorted := agrees.placed.sorted
  have cached : t.lastFileTableIndex < (files.map File.start).length := by
    have cache := agrees.cache
    rw [List.length_map]
    omega
  have scanned : t.fileTableIndex index = some (i, { t with lastFileTableIndex := i }) := by
    rw [Locations.fileTableIndex, agrees.starts]
    dsimp only
    rw [List.getElem?_eq_getElem cached, Option.bind_eq_bind, Option.bind_some]
    by_cases before : (files.map File.start)[t.lastFileTableIndex] ≤ index
    · have le := (floor.le_iff sorted cached).mp before
      rw [if_pos before, scanForward_eq floor sorted _ _ le
        (by rw [List.length_map]; omega)]
      rfl
    · have above := mt (floor.le_iff sorted cached).mpr before
      rw [if_neg before, scanBackward_eq floor sorted _ cached (Nat.le_of_not_le above)]
      rfl
  have offset : (index + 2 ^ 32 - f.start) % 2 ^ 32 = index - f.start := by
    have low := has.1
    have small := agrees.small
    omega
  refine ⟨i, b, f, at_, has, found, holds, table, ?_, agrees.setCache bound⟩
  rw [Locations.resolve, scanned, Option.bind_eq_bind, Option.bind_some]
  dsimp only
  rw [table, Option.bind_eq_bind, Option.bind_some, holds.start, offset]
  rfl

/-- No file has the index of the null location. -/
theorem fileAt_zero (agrees : Agrees t files) : Source.fileAt files 0 = none := by
  rw [Source.fileAt, List.find?_eq_none]
  intro f member
  have first := agrees.placed.first_le f.start (List.mem_map_of_mem member)
  rw [decide_eq_true_iff]
  omega

/-- `SourceLoc(loc)` is the location without caches. -/
theorem sourceLoc_eq (agrees : Agrees t files) {index : Nat} (below : index < 1 + files.total) :
    ∃ t', t.sourceLoc index = some (Source.sourceLoc files index, t') ∧ Agrees t' files := by
  rw [Locations.sourceLoc]
  by_cases null : index = 0
  · rw [if_pos (Or.inl null), Source.sourceLoc, null, agrees.fileAt_zero]
    exact ⟨t, rfl, agrees⟩
  obtain ⟨i, b, f, at_, has, found, holds, table, resolved, agrees'⟩ :=
    agrees.resolve_eq (Nat.pos_of_ne_zero null) below
  have some_ : ¬ t.locFileTable.length = 0 := by
    obtain ⟨bound, _⟩ := List.getElem?_eq_some_iff.mp table
    omega
  obtain ⟨b', located, holds'⟩ := holds.getSourceLoc_eq (show index - f.start < 2 ^ 32 - 1 by
    have low := agrees.placed.first_le f.start
      (List.mem_map_of_mem (List.mem_of_getElem? at_))
    have small := agrees.small
    omega)
  refine ⟨_, ?_, agrees'.setFile at_ holds'⟩
  rw [if_neg (not_or.mpr ⟨null, some_⟩), resolved, Option.bind_eq_bind, Option.bind_some]
  dsimp only
  rw [located, Option.bind_eq_bind, Option.bind_some, Source.sourceLoc, found]
  rfl

theorem fileOffset_eq (agrees : Agrees t files) {index : Nat} (positive : 0 < index)
    (below : index < 1 + files.total) :
    ∃ f t', files.fileAt index = some f ∧ t.fileOffset index = some (index - f.start, t') ∧
      Agrees t' files := by
  obtain ⟨i, b, f, at_, has, found, holds, table, resolved, agrees'⟩ :=
    agrees.resolve_eq positive below
  refine ⟨f, _, found, ?_, agrees'⟩
  rw [Locations.fileOffset, resolved]
  rfl

theorem filename_eq (agrees : Agrees t files) {index : Nat} (below : index < 1 + files.total) :
    ∃ t', t.filename index = some ((files.fileAt index).map fun f => f.name (index - f.start), t') ∧
      Agrees t' files := by
  rw [Locations.filename]
  by_cases null : index = 0
  · rw [if_pos null, null, agrees.fileAt_zero]
    exact ⟨t, rfl, agrees⟩
  obtain ⟨i, b, f, at_, has, found, holds, table, resolved, agrees'⟩ :=
    agrees.resolve_eq (Nat.pos_of_ne_zero null) below
  rw [if_neg null, resolved, found, Option.bind_eq_bind, Option.bind_some]
  dsimp only
  rw [holds.substitutions, holds.filename]
  by_cases none_ : f.directives = []
  · have empty : f.substitutions = [] := if_pos none_
    refine ⟨_, ?_, agrees'⟩
    rw [empty, List.length_nil, if_neg (Nat.lt_irrefl 0), Option.map_some, File.name, File.directivesAt, none_]
    rfl
  · obtain ⟨j, b', searched, holds', le, before⟩ :=
      holds.getSubstitutionIndex_eq none_ (index - f.start)
    obtain ⟨s, substitution, nameEq, _⟩ := holds.ordered.substitution_at none_ le before
    refine ⟨_, ?_, agrees'.setFile at_ holds'⟩
    rw [if_pos (Nat.pos_of_ne_zero (File.length_substitutions_ne none_)), searched,
      Option.bind_eq_bind, Option.bind_some]
    dsimp only
    rw [holds'.substitutions, substitution, Option.bind_eq_bind, Option.bind_some, nameEq,
      holds'.filename, f.name_of_empty]
    rfl

theorem nextLine_eq (agrees : Agrees t files) {index : Nat} (positive : 0 < index)
    (below : index < 1 + files.total) :
    ∃ next t', t.nextLine index = some (next, t') ∧ Agrees t' files := by
  obtain ⟨i, b, f, at_, has, found, holds, table, resolved, agrees'⟩ :=
    agrees.resolve_eq positive below
  obtain ⟨j, b', searched, holds', floor⟩ := holds.getLineIndex_eq (index - f.start)
  rw [Locations.nextLine, resolved, Option.bind_eq_bind, Option.bind_some]
  dsimp only
  rw [searched, Option.bind_eq_bind, Option.bind_some]
  dsimp only
  cases b'.lines[j + 1]? with
  | some start => exact ⟨_, _, rfl, agrees'.setFile at_ holds'⟩
  | none => exact ⟨_, _, rfl, agrees'.setFile at_ holds'⟩

/-- A file that has just been registered. -/
theorem holds_new (fname : String) (contents : List (BitVec 8)) (start firstLine : Nat) :
    Holds ⟨fname, contents, start, BitVec.ofNat 32 firstLine, [0], [], 0, 0⟩
      ⟨fname, contents, start, firstLine, [0], []⟩ :=
  ⟨⟨List.pairwise_singleton _ _, rfl, by simp, List.Pairwise.nil, by simp,
    fun some_ => absurd rfl some_⟩, rfl, rfl, rfl, rfl, rfl, rfl, Nat.zero_lt_one, le_rfl⟩

theorem newFile (agrees : Agrees t files) (fname : String) (contents : List (BitVec 8))
    (firstLine : Nat) (fits : files.total + (contents.length + 1) < 2 ^ 32) :
    Agrees { t with
        locFileTable := t.locFileTable ++
          [⟨fname, contents, t.locIndex, BitVec.ofNat 32 firstLine, [0], [], 0, 0⟩]
        locIndex := (t.locIndex + (contents.length + 1)) % 2 ^ 32 }
      (files ++ [⟨fname, contents, 1 + files.total, firstLine, [0], []⟩]) := by
  have start : t.locIndex = 1 + files.total := by
    rw [agrees.locIndex]
    omega
  rw [start]
  exact agrees.concat (holds_new fname contents _ firstLine) rfl fits (by rw [Nat.add_assoc]; rfl)

/-- Every operation of a program returns and keeps the tables what was registered. -/
theorem perform (agrees : Agrees t files) {op : Op} (admissible : op.Admissible files) :
    ∃ t', op.perform t = some t' ∧ Agrees t' (op.register files) := by
  cases op with
  | newBaseLoc fname fileContent =>
    exact ⟨_, rfl, agrees.newFile fname fileContent 1 admissible⟩
  | singleFilename fname =>
    exact ⟨_, rfl, agrees.newFile fname [] 0 admissible⟩
  | newLine file offset =>
    obtain ⟨f, at_, _, small, after⟩ := admissible
    obtain ⟨b, table, holds⟩ := agrees.exists_table at_
    refine ⟨_, ?_, agrees.modify (fun f => f.newLine offset) (fun _ => rfl) (fun _ => rfl) at_
      (holds.newLine small after)⟩
    rw [Op.perform, table]
    rfl
  | addSubstitution file offset fname line =>
    obtain ⟨f, at_, extends_⟩ := admissible
    obtain ⟨b, table, holds⟩ := agrees.exists_table at_
    refine ⟨_, ?_, agrees.modify (fun f => f.direct ⟨offset, fname, f.lines.length, line - 1⟩)
      (fun _ => rfl) (fun _ => rfl) at_ (holds.addSubstitution extends_ fname line)⟩
    rw [Op.perform, table]
    rfl
  | poundLine file offset fname number =>
    obtain ⟨f, at_, extends_, after⟩ := admissible
    obtain ⟨b, table, holds⟩ := agrees.exists_table at_
    have kept := (holds.newLine extends_.2.1 after).addSubstitution extends_ fname (number + 1)
    have count : (f.newLine offset).lines.length = f.lines.length + 1 := List.length_append
    have number_ : number + 1 - 1 = number := by bv_omega
    rw [count, number_] at kept
    refine ⟨_, ?_, agrees.modify (fun f => (f.newLine offset).direct
      ⟨offset, fname, f.lines.length + 1, number⟩) (fun _ => rfl) (fun _ => rfl) at_ kept⟩
    rw [Op.perform, table]
    rfl
  | sourceLoc index =>
    obtain ⟨t', located, agrees'⟩ := agrees.sourceLoc_eq admissible
    refine ⟨t', ?_, agrees'⟩
    rw [Op.perform, located]
    rfl
  | fileOffset index =>
    obtain ⟨f, t', _, located, agrees'⟩ := agrees.fileOffset_eq admissible.1 admissible.2
    refine ⟨t', ?_, agrees'⟩
    rw [Op.perform, located]
    rfl
  | filename index =>
    obtain ⟨t', located, agrees'⟩ := agrees.filename_eq admissible
    refine ⟨t', ?_, agrees'⟩
    rw [Op.perform, located]
    rfl
  | nextLine index =>
    obtain ⟨next, t', located, agrees'⟩ := agrees.nextLine_eq admissible.1 admissible.2
    refine ⟨t', ?_, agrees'⟩
    rw [Op.perform, located]
    rfl

end Agrees

/-! ### Programs -/

/-- The states of a program, with what has been registered. -/
inductive Reached : Locations → Source → Prop
  | empty : Reached {} []
  | step {t t' : Locations} {files : Source} (op : Op) (reached : Reached t files)
      (admissible : op.Admissible files) (performed : op.perform t = some t') :
      Reached t' (op.register files)

theorem Reached.agrees {t : Locations} {files : Source} (reached : Reached t files) :
    Agrees t files := by
  induction reached with
  | empty => exact agrees_empty
  | step op _ admissible performed inductionHypothesis =>
    obtain ⟨t'', result, agrees⟩ := inductionHypothesis.perform admissible
    rw [performed, Option.some.injEq] at result
    rwa [result]

/-- The offset of an index of a file, and back. -/
theorem Agrees.getLoc_fileOffset {t : Locations} {files : Source} (agrees : Agrees t files)
    {i : Nat} {b : BaseLoc} {f : File} (table : t.locFileTable[i]? = some b)
    (at_ : files[i]? = some f) {offset : Nat} (inside : offset < f.size) :
    b.getLoc offset = f.start + offset ∧
      ∃ t', t.fileOffset (f.start + offset) = some (offset, t') := by
  have low := agrees.placed.first_le f.start (List.mem_map_of_mem (List.mem_of_getElem? at_))
  have high := agrees.placed.le_end (List.mem_of_getElem? at_)
  have small := agrees.small
  have location : b.getLoc offset = f.start + offset := by
    rw [BaseLoc.getLoc, (agrees.held i b f table at_).start]
    exact Nat.mod_eq_of_lt (by omega)
  have has : f.Has (f.start + offset) := ⟨Nat.le_add_right _ _, Nat.add_lt_add_left inside _⟩
  obtain ⟨j, _, g, other, otherHas, _, _, _, resolved, _⟩ :=
    agrees.resolve_eq (show 0 < f.start + offset by omega) (by omega)
  obtain rfl := agrees.placed.unique at_ other has otherHas
  obtain rfl : f = g := Option.some.inj (at_.symm.trans other)
  refine ⟨location, { t with lastFileTableIndex := i }, ?_⟩
  rw [Locations.fileOffset, resolved, Nat.add_sub_cancel_left]
  rfl

/-- The line after a directive has the number of the directive. -/
theorem File.line_direct {f : File} {offset : Nat} (extends_ : f.Extends offset)
    (after : ∀ start ∈ f.lines, start < offset) (fname : String) (number : BitVec 32) :
    ((f.newLine offset).direct ⟨offset, fname, f.lines.length + 1, number⟩).line offset =
      number := by
  have counted : ((f.newLine offset).direct
      ⟨offset, fname, f.lines.length + 1, number⟩).physicalLine offset = f.lines.length + 1 := by
    show (f.lines ++ [offset]).countP _ = _
    rw [List.countP_append, List.countP_eq_length.mpr fun start member =>
      decide_eq_true (after start member).le]
    simp
  have last : ((f.newLine offset).direct ⟨offset, fname, f.lines.length + 1, number⟩).directivesAt
      offset = f.directives ++ [⟨offset, fname, f.lines.length + 1, number⟩] := by
    refine List.filter_eq_self.mpr fun d member => ?_
    rw [decide_eq_true_iff]
    rcases List.mem_append.mp member with old | new
    · exact (extends_.2.2 d old).le
    · rw [List.mem_singleton.mp new]
  rw [File.line, last, List.getLast?_concat, counted]
  dsimp only
  bv_omega

/-- In every state of a program, whatever was asked before, operations return, the location of an
index is the one that the files alone give, an index is in one file and stands for one offset of
it, and the line after a directive has the directive's number. -/
theorem sourceLoc_refines {t : Locations} {files : Source} (reached : Reached t files) :
    (∀ op : Op, op.Admissible files → ∃ t', op.perform t = some t') ∧
    (∀ index, index < 1 + files.total →
      ∃ t', t.sourceLoc index = some (Source.sourceLoc files index, t')) ∧
    (∀ index, 0 < index → index < 1 + files.total → ∃ i f, files[i]? = some f ∧ f.Has index ∧
      Source.sourceLoc files index = f.sourceLoc (index - f.start) ∧
      ∀ (j : Nat) g, files[j]? = some g → g.Has index → j = i) ∧
    (∀ (i : Nat) b f, t.locFileTable[i]? = some b → files[i]? = some f →
      (∀ offset < f.size, ∃ t', t.fileOffset (b.getLoc offset) = some (offset, t')) ∧
      ∀ index, f.Has index →
        ∃ offset t', t.fileOffset index = some (offset, t') ∧ b.getLoc offset = index) ∧
    ∀ file offset fname number, (Op.poundLine file offset fname number).Admissible files →
      ∃ f, ((Op.poundLine file offset fname number).register files)[file]? = some f ∧
        f.line offset = number := by
  have agrees := reached.agrees
  refine ⟨?_, ?_, ?_, ?_, ?_⟩
  · intro op admissible
    obtain ⟨t', performed, _⟩ := agrees.perform admissible
    exact ⟨t', performed⟩
  · intro index below
    obtain ⟨t', located, _⟩ := agrees.sourceLoc_eq below
    exact ⟨t', located⟩
  · intro index positive below
    obtain ⟨i, f, at_, has, _, found⟩ := agrees.placed.exists_file positive below
    refine ⟨i, f, at_, has, ?_, fun j g other otherHas =>
      agrees.placed.unique other at_ otherHas has⟩
    rw [Source.sourceLoc, found]
  · intro i b f table at_
    constructor
    · intro offset inside
      obtain ⟨location, t', result⟩ := agrees.getLoc_fileOffset table at_ inside
      exact ⟨t', by rw [location, result]⟩
    · intro index has
      have split : f.start + (index - f.start) = index := Nat.add_sub_cancel' has.1
      have inside : index - f.start < f.size := Nat.sub_lt_left_of_lt_add has.1 has.2
      obtain ⟨location, t', result⟩ := agrees.getLoc_fileOffset table at_ inside
      rw [split] at location result
      exact ⟨_, t', result, location⟩
  · rintro file offset fname number ⟨f, at_, extends_, after⟩
    refine ⟨(f.newLine offset).direct ⟨offset, fname, f.lines.length + 1, number⟩, ?_,
      File.line_direct extends_ after fname number⟩
    rw [Op.register, List.getElem?_modify_eq, at_]
    rfl

/-- A file of three bytes with a second line: the last byte is in line 2, column 1. -/
theorem sourceLoc_refines_second_line :
    ∃ t t', Reached t [⟨"a.d", [120, 10, 121], 1, 1, [0, 2], []⟩] ∧
      t.sourceLoc 3 = some (⟨"a.d", 2, 1, 2, [120, 10, 121]⟩, t') := by
  have file : Reached (Locations.newBaseLoc {} "a.d" [120, 10, 121])
      [⟨"a.d", [120, 10, 121], 1, 1, [0], []⟩] :=
    Reached.step (.newBaseLoc "a.d" [120, 10, 121]) Reached.empty
      (show Source.total [] + (3 + 1) < 2 ^ 32 by decide) rfl
  have lines := Reached.step (.newLine 0 2) file ⟨_, rfl, rfl, by decide, by decide⟩ rfl
  obtain ⟨t', located⟩ := (sourceLoc_refines lines).2.1 3 (by decide)
  exact ⟨_, t', lines, located⟩

/-- A location that only holds a filename is in line 0 of it, although a line starts at its
offset. -/
theorem singleFilename_line_zero :
    ∃ t t' files loc f, Reached t files ∧ t.sourceLoc 1 = some (loc, t') ∧
      Source.fileAt files 1 = some f ∧ f.directives = [] ∧ f.physicalLine (1 - f.start) = 1 ∧
      loc.line = 0 := by
  have file : Reached (Locations.singleFilename {} "a.d") [⟨"a.d", [], 1, 0, [0], []⟩] :=
    Reached.step (.singleFilename "a.d") Reached.empty
      (show Source.total [] + 1 < 2 ^ 32 by decide) rfl
  exact ⟨_, _, _, _, _, file, rfl, rfl, rfl, rfl, rfl⟩

end LaserD.Root.Location
