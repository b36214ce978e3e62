/-
This file shows that the caches of source locations never show: whatever was asked before,
a location is that of the files as they were registered.

The caches are indices inside of their tables, and this is all the searches need of them.
`Holds` relates the tables of a file to what was registered, and is kept by registrations
and queries alike.
-/

import LaserD.Root.Location

namespace LaserD.Root.Location

open SortedSearch

/-! ### The cached search -/

/-- The cached search finds the last start that is not above the offset. -/
theorem cachedSearch_eq {starts : List Nat} {last offset i : Nat} {current : Bool}
    (floor : IsFloor starts offset i) (sorted : starts.Pairwise (· ≤ ·))
    (small : starts.length ≤ 2 ^ 64) (inside : last < starts.length)
    (tests : last < starts.length - 1 → current = true → starts.getD last 0 ≤ offset ∧
      offset < starts.getD (last + 1) 0) :
    ∃ cache, cachedSearch starts last offset current = some (i, cache) ∧
      cache < starts.length := by
  have bound := floor.inside
  rw [cachedSearch]
  by_cases single : starts.length ≤ 1
  · rw [if_pos single]
    obtain rfl : i = 0 := by omega
    exact ⟨last, rfl, inside⟩
  rw [if_neg single]
  have hit : ∀ found, nearHit starts last offset current = some found → found = i := by
    intro found near
    have isFloor : ∀ k (kBound : k < starts.length), starts.getD k 0 ≤ offset →
        (k + 1 < starts.length → offset < starts.getD (k + 1) 0) → k = i := by
      intro k kBound below above
      rw [List.getD_eq_getElem _ _ kBound] at below
      refine IsFloor.unique ⟨kBound, below, fun next at_ => ?_⟩ sorted floor
      obtain ⟨nextBound, rfl⟩ := List.getElem?_eq_some_iff.mp at_
      have later := above nextBound
      rwa [List.getD_eq_getElem _ _ nextBound] at later
    rw [nearHit] at near
    by_cases notLast : last < starts.length - 1
    · rw [if_pos notLast] at near
      by_cases here : current = true
      · rw [if_pos here, Option.some.injEq] at near
        obtain ⟨below, above⟩ := tests notLast here
        exact near ▸ isFloor last inside below fun _ => above
      rw [if_neg here] at near
      by_cases next : last + 1 < starts.length - 1 ∧ starts.getD (last + 1) 0 ≤ offset ∧
          offset < starts.getD (last + 2) 0
      · rw [if_pos next, Option.some.injEq] at near
        exact near ▸ isFloor (last + 1) (by omega) next.2.1 fun _ => next.2.2
      rw [if_neg next] at near
      by_cases previous : last > 0 ∧ starts.getD (last - 1) 0 ≤ offset ∧ offset < starts.getD last 0
      · rw [if_pos previous, Option.some.injEq] at near
        refine near ▸ isFloor (last - 1) (by omega) previous.2.1 fun _ => ?_
        rw [Nat.sub_add_cancel previous.1]
        exact previous.2.2
      · rw [if_neg previous] at near
        cases near
    · rw [if_neg notLast] at near
      by_cases end_ : last = starts.length - 1 ∧ starts.getD last 0 ≤ offset
      · rw [if_pos end_, Option.some.injEq] at near
        exact near ▸ isFloor last inside end_.2 fun more => by omega
      · rw [if_neg end_] at near
        cases near
  cases near : nearHit starts last offset current with
  | some found =>
    obtain rfl := hit found near
    exact ⟨found, rfl, bound⟩
  | none =>
    dsimp only
    rw [List.getElem?_eq_getElem inside, Option.bind_eq_bind, Option.bind_some]
    by_cases before : offset < starts[last]
    · have below := mt (floor.le_iff sorted inside).mpr (Nat.not_le.mpr before)
      rw [if_pos before, if_pos before, binarySearch_eq floor sorted small _ 0 last (Nat.zero_le _)
        (by omega) inside (by omega)]
      exact ⟨i, rfl, bound⟩
    · have above := (floor.le_iff sorted inside).mp (Nat.le_of_not_lt before)
      rw [if_neg before, if_neg before, binarySearch_eq floor sorted small _ last
        (starts.length - 1) above (by omega) (by omega) (by omega)]
      exact ⟨i, rfl, bound⟩

/-! ### Substitutions -/

/-- The name that directives leave. -/
def lastName (own : String) (directives : List Directive) : String :=
  ((directives.filter fun d => d.filename.length ≠ 0).getLast?.map Directive.filename).getD own

/-- The substitutions of directives, with the name that each inherits. -/
def named : String → List Directive → List Substitution
  | _, [] => []
  | own, d :: rest =>
      let own := if d.filename.length = 0 then own else d.filename
      ⟨own, d.offset, d.number - BitVec.ofNat 32 d.physical⟩ :: named own rest

/-- The substitutions of a file: the first stands for the file before all directives. -/
def File.substitutions (f : File) : List Substitution :=
  if f.directives = [] then [] else ⟨f.filename, 0, 0⟩ :: named f.filename f.directives

theorem File.length_substitutions_ne {f : File} (some_ : f.directives ≠ []) :
    ¬ f.substitutions.length = 0 := by
  rw [File.substitutions, if_neg some_]
  exact Nat.succ_ne_zero _

theorem lastName_cons (own : String) (d : Directive) (rest : List Directive) :
    lastName own (d :: rest) = lastName (if d.filename.length = 0 then own else d.filename) rest := by
  rw [lastName, lastName]
  by_cases empty : d.filename.length = 0
  · rw [List.filter_cons_of_neg (by simpa using empty), if_pos empty]
  · rw [List.filter_cons_of_pos (by simpa using empty), if_neg empty, List.getLast?_cons]
    cases (rest.filter fun d => d.filename.length ≠ 0).getLast? <;> rfl

theorem getElem?_named (own : String) (directives : List Directive) (i : Nat) :
    (named own directives)[i]? = directives[i]?.map fun d =>
      ⟨lastName own (directives.take (i + 1)), d.offset,
        d.number - BitVec.ofNat 32 d.physical⟩ := by
  induction directives generalizing own i with
  | nil => simp [named]
  | cons d rest inductionHypothesis =>
    cases i with
    | zero =>
      rw [named, List.getElem?_cons_zero, List.getElem?_cons_zero, Option.map_some,
        List.take_succ_cons, lastName_cons]
      rfl
    | succ i =>
      rw [named, List.getElem?_cons_succ, List.getElem?_cons_succ, inductionHypothesis,
        List.take_succ_cons, lastName_cons]

theorem map_startIndex_named (own : String) (directives : List Directive) :
    (named own directives).map Substitution.startIndex = directives.map Directive.offset := by
  induction directives generalizing own with
  | nil => rfl
  | cons d rest inductionHypothesis => rw [named, List.map_cons, List.map_cons, inductionHypothesis]

theorem length_named (own : String) (directives : List Directive) :
    (named own directives).length = directives.length := by
  have lengths := congrArg List.length (map_startIndex_named own directives)
  rwa [List.length_map, List.length_map] at lengths

theorem named_concat (own : String) (directives : List Directive) (d : Directive) :
    named own (directives ++ [d]) = named own directives ++
      [⟨lastName own (directives ++ [d]), d.offset, d.number - BitVec.ofNat 32 d.physical⟩] := by
  refine List.ext_getElem? fun i => ?_
  rw [getElem?_named]
  rcases Nat.lt_trichotomy i directives.length with less | rfl | more
  · rw [List.getElem?_append_left less, List.getElem?_append_left (by rw [length_named]; exact less),
      getElem?_named, List.take_append_of_le_length less]
  · rw [List.getElem?_concat_length, List.take_of_length_le (by simp), ← length_named own directives,
      List.getElem?_concat_length]
    rfl
  · rw [List.getElem?_eq_none (by simp; omega), List.getElem?_eq_none (by simp [length_named]; omega)]
    rfl

theorem lastName_concat (own : String) (directives : List Directive) (d : Directive) :
    lastName own (directives ++ [d]) =
      if d.filename.length = 0 then lastName own directives else d.filename := by
  rw [lastName, List.filter_append]
  by_cases empty : d.filename.length = 0
  · rw [List.filter_cons_of_neg (by simpa using empty), List.filter_nil, List.append_nil,
      if_pos empty, lastName]
  · rw [List.filter_cons_of_pos (by simpa using empty), List.filter_nil, List.getLast?_concat,
      if_neg empty]
    rfl

/-! ### Files -/

/-- The lines and directives of a file are in order. -/
structure File.Ordered (f : File) : Prop where
  lines : f.lines.Pairwise (· < ·)
  first : f.lines[0]? = some 0
  lines_lt : ∀ start ∈ f.lines, start < 2 ^ 32
  directives : (f.directives.map Directive.offset).Pairwise (· < ·)
  directives_lt : ∀ d ∈ f.directives, d.offset < 2 ^ 32
  numbered : f.directives ≠ [] → f.firstLine = 1

/-- The tables of a file are what was registered, and its caches are inside of them. -/
structure Holds (b : BaseLoc) (f : File) : Prop where
  ordered : f.Ordered
  filename : b.filename = f.filename
  contents : b.fileContents = f.contents
  start : b.startIndex = f.start
  startLine : b.startLine = BitVec.ofNat 32 f.firstLine
  lines : b.lines = f.lines
  substitutions : b.substitutions = f.substitutions
  lineCache : b.lastLineIndex < f.lines.length
  substCache : b.lastSubstIndex ≤ f.directives.length

section

variable {b : BaseLoc} {f : File}

theorem File.Ordered.exists_line (ordered : f.Ordered) (offset : Nat) :
    ∃ i, IsFloor f.lines offset i := by
  obtain ⟨bound, zero⟩ := List.getElem?_eq_some_iff.mp ordered.first
  exact exists_floor bound (by rw [zero]; exact Nat.zero_le _)

theorem File.Ordered.length_lines (ordered : f.Ordered) : f.lines.length ≤ 2 ^ 64 :=
  (length_le_of_sorted ordered.lines ordered.lines_lt).trans (by decide)

/-- The offsets at which substitutions start. -/
theorem File.Ordered.substitution_starts (ordered : f.Ordered) (some_ : f.directives ≠ []) :
    f.substitutions.map Substitution.startIndex = 0 :: f.directives.map Directive.offset ∧
      (0 :: f.directives.map Directive.offset).Pairwise (· ≤ ·) ∧
      (0 :: f.directives.map Directive.offset).length ≤ 2 ^ 64 := by
  refine ⟨?_, ?_, ?_⟩
  · rw [File.substitutions, if_neg some_, List.map_cons, map_startIndex_named]
  · exact List.pairwise_cons.mpr ⟨fun offset _ => Nat.zero_le offset,
      ordered.directives.imp Nat.le_of_lt⟩
  · have count : (f.directives.map Directive.offset).length ≤ 2 ^ 32 := by
      refine length_le_of_sorted ordered.directives fun offset member => ?_
      obtain ⟨d, inside, rfl⟩ := List.mem_map.mp member
      exact ordered.directives_lt d inside
    rw [List.length_cons]
    omega

/-- `getLineIndex` finds the line. -/
theorem Holds.getLineIndex_eq (holds : Holds b f) (offset : Nat) :
    ∃ i b', b.getLineIndex offset = some (i, b') ∧ Holds b' f ∧ IsFloor f.lines offset i := by
  obtain ⟨i, floor⟩ := holds.ordered.exists_line offset
  rw [BaseLoc.getLineIndex, holds.lines]
  have tests : b.lastLineIndex < f.lines.length - 1 →
      decide (f.lines.getD b.lastLineIndex 0 ≤ offset ∧
        offset < f.lines.getD (b.lastLineIndex + 1) 0) = true →
      f.lines.getD b.lastLineIndex 0 ≤ offset ∧
        offset < f.lines.getD (b.lastLineIndex + 1) 0 := fun _ test => of_decide_eq_true test
  obtain ⟨cache, found, inside⟩ := cachedSearch_eq floor (holds.ordered.lines.imp Nat.le_of_lt)
    holds.ordered.length_lines holds.lineCache tests
  refine ⟨i, { b with lastLineIndex := cache }, ?_, ?_, floor⟩
  · rw [found, holds.lines]
    rfl
  · exact ⟨holds.ordered, holds.filename, holds.contents, holds.start, holds.startLine, holds.lines,
      holds.substitutions, inside, holds.substCache⟩

/-- `getSubstitutionIndex` finds how many directives are not after the offset. -/
theorem Holds.getSubstitutionIndex_eq (holds : Holds b f) (some_ : f.directives ≠ [])
    (offset : Nat) :
    ∃ i b', b.getSubstitutionIndex offset = some (i, b') ∧ Holds b' f ∧
      i ≤ f.directives.length ∧ f.directivesAt offset = f.directives.take i := by
  obtain ⟨starts, sorted, small⟩ := holds.ordered.substitution_starts some_
  obtain ⟨i, floor⟩ : ∃ i, IsFloor (0 :: f.directives.map Directive.offset) offset i :=
    exists_floor (Nat.zero_lt_succ _) (Nat.zero_le _)
  have inside : b.lastSubstIndex < (0 :: f.directives.map Directive.offset).length := by
    rw [List.length_cons, List.length_map]
    exact Nat.lt_succ_of_le holds.substCache
  rw [BaseLoc.getSubstitutionIndex, holds.substitutions, starts]
  have tests : b.lastSubstIndex < (0 :: f.directives.map Directive.offset).length - 1 →
      decide ((0 :: f.directives.map Directive.offset).getD b.lastSubstIndex 0 ≤ offset ∧
        (b.lastSubstIndex = (0 :: f.directives.map Directive.offset).length - 1 ∨
          (0 :: f.directives.map Directive.offset).getD (b.lastSubstIndex + 1) 0 > offset)) = true →
      (0 :: f.directives.map Directive.offset).getD b.lastSubstIndex 0 ≤ offset ∧
        offset < (0 :: f.directives.map Directive.offset).getD (b.lastSubstIndex + 1) 0 := by
    intro notLast test
    rw [decide_eq_true_iff] at test
    exact ⟨test.1, test.2.resolve_left notLast.ne⟩
  obtain ⟨cache, found, cacheInside⟩ := cachedSearch_eq floor sorted small inside tests
  have bound := floor.inside
  rw [List.length_cons, List.length_map] at bound cacheInside
  refine ⟨i, { b with lastSubstIndex := cache }, ?_, ?_, by omega, ?_⟩
  · rw [found, holds.substitutions]
    rfl
  · exact ⟨holds.ordered, holds.filename, holds.contents, holds.start, holds.startLine, holds.lines,
      holds.substitutions, holds.lineCache, by dsimp only; omega⟩
  · refine filter_eq_take _ _ i fun j jBound => ?_
    have next : j + 1 < (0 :: f.directives.map Directive.offset).length := by simpa using jBound
    have at_ : (0 :: f.directives.map Directive.offset)[j + 1] = f.directives[j].offset := by simp
    have test := floor.le_iff sorted next
    rw [at_] at test
    rw [decide_eq_decide, test]
    omega

/-- Where the line that was found starts. -/
theorem File.Ordered.lineStart_eq (ordered : f.Ordered) {offset i : Nat}
    (floor : IsFloor f.lines offset i) : f.lines[i]? = some (f.lineStart offset) := by
  have bound := floor.inside
  rw [File.lineStart, floor.filter_eq (ordered.lines.imp Nat.le_of_lt), List.getLast?_take,
    if_neg (Nat.succ_ne_zero i), Nat.add_sub_cancel, List.getElem?_eq_getElem bound]
  rfl

theorem File.Ordered.physicalLine_eq (ordered : f.Ordered) {offset i : Nat}
    (floor : IsFloor f.lines offset i) : f.physicalLine offset = i + 1 :=
  floor.countP_eq (ordered.lines.imp Nat.le_of_lt)

theorem File.lineStart_le (ordered : f.Ordered) (offset : Nat) : f.lineStart offset ≤ offset := by
  obtain ⟨i, floor⟩ := ordered.exists_line offset
  have found := ordered.lineStart_eq floor
  rw [List.getElem?_eq_getElem floor.inside, Option.some.injEq] at found
  rw [← found]
  exact floor.start_le

theorem lastName_of_empty (own : String) (directives : List Directive)
    (empty : (lastName own directives).length = 0) : lastName own directives = own := by
  rw [lastName] at empty ⊢
  cases found : (directives.filter fun d => d.filename.length ≠ 0).getLast? with
  | none => rfl
  | some d =>
    rw [found] at empty
    have kept := List.mem_of_getLast? found
    rw [List.mem_filter, decide_eq_true_iff] at kept
    exact absurd empty kept.2

/-- The name that a substitution gives, or the file's own when the substitution has none. -/
theorem File.name_of_empty (f : File) (offset : Nat) :
    (if (f.name offset).length > 0 then f.name offset else f.filename) = f.name offset := by
  by_cases empty : (f.name offset).length > 0
  · rw [if_pos empty]
  · rw [if_neg empty]
    exact (lastName_of_empty f.filename _ (Nat.eq_zero_of_not_pos empty)).symm

/-- The substitution that was found gives the name and number of the line. -/
theorem File.Ordered.substitution_at (ordered : f.Ordered) (some_ : f.directives ≠ [])
    {offset j : Nat} (le : j ≤ f.directives.length)
    (before : f.directivesAt offset = f.directives.take j) :
    ∃ s, f.substitutions[j]? = some s ∧ s.filename = f.name offset ∧
      ∀ i, f.physicalLine offset = i + 1 →
        BitVec.ofNat 32 i + BitVec.ofNat 32 f.firstLine + s.startLine = f.line offset := by
  rw [File.substitutions, if_neg some_]
  have nameEq : f.name offset = lastName f.filename (f.directives.take j) := by
    rw [File.name, before]
    rfl
  rw [nameEq]
  cases j with
  | zero =>
    refine ⟨⟨f.filename, 0, 0⟩, rfl, rfl, fun i physical => ?_⟩
    rw [File.line, before, physical, List.take_zero, List.getLast?_nil]
    dsimp only
    bv_omega
  | succ k =>
    have bound : k < f.directives.length := le
    refine ⟨⟨lastName f.filename (f.directives.take (k + 1)), f.directives[k].offset,
      f.directives[k].number - BitVec.ofNat 32 f.directives[k].physical⟩, ?_, rfl,
      fun i physical => ?_⟩
    · rw [List.getElem?_cons_succ, getElem?_named, List.getElem?_eq_getElem bound]
      rfl
    · have last : (f.directives.take (k + 1)).getLast? = some f.directives[k] := by
        rw [List.getLast?_take, if_neg (Nat.succ_ne_zero k), Nat.add_sub_cancel,
          List.getElem?_eq_getElem bound]
        rfl
      rw [File.line, before, last, physical, ordered.numbered some_]
      dsimp only
      bv_omega

/-- `substitute` gives the name and number of the line. -/
theorem Holds.substitute_eq (holds : Holds b f) {i : Nat} {loc : SourceLoc}
    (floor : IsFloor f.lines loc.fileOffset i) (own : loc.filename = f.filename)
    (line : loc.line = BitVec.ofNat 32 i + BitVec.ofNat 32 f.firstLine) :
    ∃ b', b.substitute loc = some (⟨f.name loc.fileOffset, f.line loc.fileOffset, loc.column,
      loc.fileOffset, loc.fileContent⟩, b') ∧ Holds b' f := by
  have physical := holds.ordered.physicalLine_eq floor
  rw [BaseLoc.substitute, holds.substitutions]
  by_cases none_ : f.directives = []
  · refine ⟨b, ?_, holds⟩
    have unnamed : f.name loc.fileOffset = loc.filename := by
      rw [File.name, File.directivesAt, none_, own]
      rfl
    have unnumbered : f.line loc.fileOffset = loc.line := by
      rw [File.line, File.directivesAt, none_, List.filter_nil, List.getLast?_nil, physical, line]
      dsimp only
      bv_omega
    rw [File.substitutions, if_pos none_, if_pos List.length_nil, unnamed, unnumbered]
  · obtain ⟨j, b', searched, holds', le, before⟩ :=
      holds.getSubstitutionIndex_eq none_ loc.fileOffset
    obtain ⟨s, at_, nameEq, lineEq⟩ := holds.ordered.substitution_at none_ le before
    refine ⟨b', ?_, holds'⟩
    rw [if_neg (File.length_substitutions_ne none_), searched, Option.bind_eq_bind, Option.bind_some]
    dsimp only
    rw [holds'.substitutions, at_, Option.bind_eq_bind, Option.bind_some, nameEq, ← lineEq i physical,
      ← line]
    have named_ := f.name_of_empty loc.fileOffset
    by_cases empty : (f.name loc.fileOffset).length > 0
    · rw [if_pos empty]
      rfl
    · rw [if_neg empty] at named_ ⊢
      rw [← named_, ← own]
      rfl

/-- `getSourceLoc` is the location by what was registered. -/
theorem Holds.getSourceLoc_eq (holds : Holds b f) {offset : Nat} (small : offset < 2 ^ 32 - 1) :
    ∃ b', b.getSourceLoc offset = some (f.sourceLoc offset, b') ∧ Holds b' f := by
  obtain ⟨i, b', found, holds', floor⟩ := holds.getLineIndex_eq offset
  have column : (1 + offset - f.lineStart offset) % 2 ^ 32 = offset - f.lineStart offset + 1 := by
    have le := File.lineStart_le holds.ordered offset
    omega
  rw [BaseLoc.getSourceLoc, found, Option.bind_eq_bind, Option.bind_some]
  dsimp only
  rw [holds'.lines, holds.ordered.lineStart_eq floor, Option.bind_eq_bind, Option.bind_some, column,
    holds'.filename, holds'.startLine, holds'.contents]
  exact holds'.substitute_eq floor rfl rfl

end

end LaserD.Root.Location
