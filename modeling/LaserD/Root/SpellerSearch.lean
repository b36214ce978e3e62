/-
This file proves what the spell checker finds.

The words that are looked up are those that are one edit away, and the best of those is returned. No
word is missed unless a word without any cost is found before it, and then nothing better can be
missed. On the second level the words are two edits away.
-/

import LaserD.Root.SpellerBuffer

namespace LaserD.Root.Speller

variable {T : Type}

/-! ### Edits -/

/-- One deletion, one substitution or one insertion of a character of `idchars`. -/
inductive Edit : Word → Word → Prop
  | deletion (before after : Word) (c : CodeUnit) : Edit (before ++ c :: after) (before ++ after)
  | substitution (before after : Word) (c s : CodeUnit) (known : s ∈ idchars) :
    Edit (before ++ c :: after) (before ++ s :: after)
  | insertion (before after : Word) (s : CodeUnit) (known : s ∈ idchars) :
    Edit (before ++ after) (before ++ s :: after)

/-- Two adjacent characters change places. -/
inductive Transposed : Word → Word → Prop
  | mk (before after : Word) (c d : CodeUnit) :
    Transposed (before ++ c :: d :: after) (before ++ d :: c :: after)

/-- The words that are one edit or one transposition away. -/
def Near (seed word : Word) : Prop :=
  Edit seed word ∨ Transposed seed word

/-! ### The words of the two levels -/

/-- The words that `spellerX` looks up, each with the index from which the second level goes on. -/
def wordsX (seed : Word) (flag : Bool) : List (Word × Nat) :=
  (List.range' 0 seed.length).flatMap (fun i => [(deleted seed i, i)]) ++
    (if flag then []
      else (List.range' 0 (seed.length - 1)).flatMap fun i => [(swapped seed i, 0)]) ++
    (List.range' 0 seed.length).flatMap (fun i =>
      idchars.flatMap fun c => [(replaced seed i c, i + 1)]) ++
    (List.range' 0 (seed.length + 1)).flatMap (fun i =>
      idchars.flatMap fun c => [(inserted seed i c, i + 1)])

/-- The words that `spellerY` looks up. -/
def wordsY (seed : Word) (index : Nat) : List (Word × Nat) :=
  (if index < seed.length then [(deleted seed index, 0)] else []) ++
    (if index < seed.length then idchars.flatMap fun c => [(replaced seed index c, 0)] else []) ++
    idchars.flatMap fun c => [(inserted seed index c, 0)]

section

variable {look : Word → Nat → Option (Found T)} {words : List (Word × Nat)} {best : Best T}

/-- What is read of the state at the end is that of the search of the words. -/
theorem Follows.map_eq {after : Word → Prop} {result : Option (State T)} {R : Type}
    (follows : Follows look words best after result) (read : Best T → R) :
    (result.map fun s => read s.best) = (scan look words best).map read := by
  rcases follows with ⟨failed, rfl⟩ | ⟨best', buf, scanned, rfl, -⟩
  · rw [failed]
    rfl
  · rw [scanned]
    rfl

theorem length_junk (junk : Nat → CodeUnit) (n : Nat) :
    ((List.range n).map junk).length = n := by
  rw [List.length_map, List.length_range]

/-- The first level is a search of its words. -/
theorem spellerX_eq (dg : Word → Option T × Int) (junk : Nat → CodeUnit) {seed : Word}
    (nonempty : 0 < seed.length) (flag : Bool) : spellerX dg junk seed flag =
      (scan (if flag then spellerY dg junk else lookup dg) (wordsX seed flag) .start).map
        fun best => (best.p, best.probes) := by
  rw [spellerX, if_neg nonempty.ne']
  dsimp only
  generalize (if flag then spellerY dg junk else lookup dg) = look
  have running : (Best.start : Best T).stopped = false := rfl
  have size := length_junk junk (seed.length + 1)
  generalize (List.range (seed.length + 1)).map junk = buf at size ⊢
  have first : Follows look [] .start (Lacks seed 0)
      ((slice seed 1 seed.length).bind fun rest =>
        State.write ⟨.start, buf⟩ (copyTo buf 0 (seed.length - 1) rest)) := by
    have short : (seed.drop 1).length = seed.length - 1 - 0 := List.length_drop
    rw [slice_suffix seed nonempty, Option.bind_some]
    refine Follows.write (copyTo_eq (Nat.zero_le _) (by omega) short) ⟨?_, fun _ => ⟨_, rfl⟩⟩
    rw [List.take_zero, List.nil_append, List.length_append, short, List.length_drop]
    omega
  have second (best : Best T) (buf : Word) (running : best.stopped = false)
      (size : buf.length = seed.length + 1) : Follows look
      (if flag then []
        else (List.range' 0 (seed.length - 1)).flatMap fun i => [(swapped seed i, 0)]) best
      (fun buf => buf.length = seed.length + 1)
      (if flag then some ⟨best, buf⟩ else transpositions look seed ⟨best, buf⟩) := by
    cases flag with
    | true => exact Follows.done size
    | false => exact transpositions_follow running nonempty size
  have all : Follows look (wordsX seed flag) .start (fun _ => True)
      (andThen (andThen (andThen (andThen ((slice seed 1 seed.length).bind fun rest =>
        State.write ⟨.start, buf⟩ (copyTo buf 0 (seed.length - 1) rest)) (deletions look seed))
        fun s => if flag then some s else transpositions look seed s)
        (substitutions look seed)) (insertions look seed)) :=
    Follows.andThen running (Follows.andThen running (Follows.andThen running
      (Follows.andThen running first fun _ _ running lacks => deletions_follow running lacks)
      second) fun _ _ running size => substitutions_follow running nonempty size)
      fun _ _ running size => insertions_follow running size
  exact all.map_eq fun best => (best.p, best.probes)

/-- The second level is a search of its words. -/
theorem spellerY_eq (dg : Word → Option T × Int) (junk : Nat → CodeUnit) {seed : Word}
    (nonempty : 0 < seed.length) {index : Nat} (within : index ≤ seed.length) :
    spellerY dg junk seed index = (scan (lookup dg) (wordsY seed index) .start).map
      fun best => (best.p, best.cost, best.probes) := by
  rw [spellerY, if_neg nonempty.ne']
  dsimp only
  have running : (Best.start : Best T).stopped = false := rfl
  have size := length_junk junk (seed.length + 1)
  generalize (List.range (seed.length + 1)).map junk = buf at size ⊢
  have prefix_ : (seed.take index).length = index := length_take within
  have first : Follows (lookup dg) [] .start (Starts seed index)
      ((slice seed 0 index).bind fun rest =>
        State.write ⟨.start, buf⟩ (copyTo buf 0 index rest)) := by
    have taken := slice_front (seed.take index) (seed.drop index) prefix_
    rw [List.take_append_drop] at taken
    rw [taken, Option.bind_some]
    refine Follows.write (copyTo_eq (Nat.zero_le _) (by omega) (by rw [prefix_]; rfl)) ⟨?_, _, rfl⟩
    rw [List.take_zero, List.nil_append, List.length_append, prefix_, List.length_drop]
    omega
  have all := Follows.andThen running (Follows.andThen running (Follows.andThen running first
    fun _ _ running starts => deletionAt_follows running within starts)
    fun _ _ running starts => substitutionAt_follows running starts)
    fun _ _ running starts => insertionAt_follows running within starts
  exact all.map_eq fun best => (best.p, best.cost, best.probes)

end

/-! ### The words are near the seed -/

theorem split_at {seed : Word} {i : Nat} (inside : i < seed.length) :
    ∃ c, seed = seed.take i ++ c :: seed.drop (i + 1) := by
  obtain ⟨c, -, dropped, -⟩ := at_index inside
  exact ⟨c, by rw [← dropped, List.take_append_drop]⟩

theorem edit_deleted {seed : Word} {i : Nat} (inside : i < seed.length) :
    Edit seed (deleted seed i) := by
  obtain ⟨c, whole⟩ := split_at inside
  have edit := Edit.deletion (seed.take i) (seed.drop (i + 1)) c
  rwa [← whole] at edit

theorem edit_replaced {seed : Word} {i : Nat} (inside : i < seed.length) {s : CodeUnit}
    (known : s ∈ idchars) : Edit seed (replaced seed i s) := by
  obtain ⟨c, whole⟩ := split_at inside
  have edit := Edit.substitution (seed.take i) (seed.drop (i + 1)) c s known
  rwa [← whole] at edit

theorem edit_inserted (seed : Word) (i : Nat) {s : CodeUnit} (known : s ∈ idchars) :
    Edit seed (inserted seed i s) := by
  have edit := Edit.insertion (seed.take i) (seed.drop i) s known
  rwa [List.take_append_drop] at edit

theorem transposed_swapped {seed : Word} {i : Nat} (inside : i + 1 < seed.length) :
    Transposed seed (swapped seed i) := by
  obtain ⟨c, -, dropped, -⟩ := at_index (Nat.lt_of_succ_lt inside)
  obtain ⟨d, -, dropped', -⟩ := at_index inside
  have transposed := Transposed.mk (seed.take i) (seed.drop (i + 1 + 1)) c d
  rw [← dropped', ← dropped, List.take_append_drop] at transposed
  rwa [swapped, dropped, dropped']

/-- The words of a level are those that are named by a position and perhaps a character. -/
theorem mem_wordsX {seed : Word} {flag : Bool} {word : Word} {index : Nat} :
    (word, index) ∈ wordsX seed flag ↔
      (∃ i < seed.length, word = deleted seed i ∧ index = i) ∨
      (flag = false ∧ ∃ i, i + 1 < seed.length ∧ word = swapped seed i ∧ index = 0) ∨
      (∃ i < seed.length, ∃ c ∈ idchars, word = replaced seed i c ∧ index = i + 1) ∨
      ∃ i ≤ seed.length, ∃ c ∈ idchars, word = inserted seed i c ∧ index = i + 1 := by
  have swaps : (word, index) ∈ (if flag then []
      else (List.range' 0 (seed.length - 1)).flatMap fun i => [(swapped seed i, 0)]) ↔
      flag = false ∧ ∃ i, i + 1 < seed.length ∧ word = swapped seed i ∧ index = 0 := by
    cases flag with
    | true => simp
    | false =>
      simp only [Bool.false_eq_true, if_false, List.mem_flatMap, List.mem_range'_1, List.mem_singleton,
        Prod.mk.injEq, true_and, Nat.zero_add, Nat.zero_le]
      refine exists_congr fun i => and_congr_left fun _ => ?_
      omega
  rw [wordsX, List.mem_append, List.mem_append, List.mem_append, swaps, or_assoc, or_assoc]
  simp only [List.mem_flatMap, List.mem_range'_1, List.mem_singleton, Prod.mk.injEq, Nat.zero_add,
    Nat.zero_le, true_and, Nat.lt_succ_iff]

/-- The words of the first level are those that are near the seed. -/
theorem near_iff (seed word : Word) :
    Near seed word ↔ word ∈ (wordsX seed false).map Prod.fst := by
  have named : word ∈ (wordsX seed false).map Prod.fst ↔
      ∃ index, (word, index) ∈ wordsX seed false := by
    rw [List.mem_map]
    exact ⟨fun ⟨pair, member, same⟩ => ⟨pair.2, same ▸ member⟩, fun ⟨index, member⟩ =>
      ⟨_, member, rfl⟩⟩
  rw [named]
  constructor
  · rintro ((⟨before, after, c⟩ | ⟨before, after, c, t, known⟩ | ⟨before, after, t, known⟩) |
      ⟨before, after, c, d⟩)
    · refine ⟨before.length, mem_wordsX.mpr (.inl ⟨before.length, ?_, ?_, rfl⟩)⟩
      · rw [List.length_append, List.length_cons]
        omega
      · rw [deleted, List.take_left, List.drop_append, List.drop_eq_nil_of_le (Nat.le_succ _),
          Nat.add_sub_cancel_left]
        rfl
    · refine ⟨_, mem_wordsX.mpr (.inr (.inr (.inl ⟨before.length, ?_, t, known, ?_, rfl⟩)))⟩
      · rw [List.length_append, List.length_cons]
        omega
      · rw [replaced, List.take_left, List.drop_append, List.drop_eq_nil_of_le (Nat.le_succ _),
          Nat.add_sub_cancel_left]
        rfl
    · refine ⟨_, mem_wordsX.mpr (.inr (.inr (.inr ⟨before.length, ?_, t, known, ?_, rfl⟩)))⟩
      · rw [List.length_append]
        exact Nat.le_add_right _ _
      · rw [inserted, List.take_left, List.drop_left]
    · refine ⟨0, mem_wordsX.mpr (.inr (.inl ⟨rfl, before.length, ?_, ?_, rfl⟩))⟩
      · rw [List.length_append, List.length_cons, List.length_cons]
        omega
      · rw [swapped, List.drop_left]
        show _ = List.take before.length _ ++ d :: c :: after
        rw [List.take_left]
  · rintro ⟨index, member⟩
    rcases mem_wordsX.mp member with ⟨i, inside, rfl, -⟩ | ⟨-, i, inside, rfl, -⟩ |
      ⟨i, inside, c, known, rfl, -⟩ | ⟨i, -, c, known, rfl, -⟩
    · exact .inl (edit_deleted inside)
    · exact .inr (transposed_swapped inside)
    · exact .inl (edit_replaced inside known)
    · exact .inl (edit_inserted seed i known)

theorem edit_of_mem_wordsY {seed word : Word} {index n : Nat}
    (member : (word, n) ∈ wordsY seed index) : Edit seed word := by
  rw [wordsY, List.mem_append, List.mem_append] at member
  by_cases inside : index < seed.length
  · rw [if_pos inside, if_pos inside] at member
    simp only [List.mem_flatMap, List.mem_singleton, Prod.mk.injEq] at member
    rcases member with (⟨rfl, -⟩ | ⟨c, known, rfl, -⟩) | ⟨c, known, rfl, -⟩
    · exact edit_deleted inside
    · exact edit_replaced inside known
    · exact edit_inserted seed index known
  · rw [if_neg inside, if_neg inside] at member
    simp only [List.mem_flatMap, List.mem_singleton, Prod.mk.injEq, List.not_mem_nil, false_or]
      at member
    obtain ⟨c, known, rfl, -⟩ := member
    exact edit_inserted seed index known

/-! ### The best result -/

/-- The best result of the words that were looked up: it was found at its cost, no other was found
at a lower one, and the search stops only when nothing can be lower. -/
structure IsBest (dg : Word → Option T × Int) (best : Best T) : Prop where
  found : ∀ q, best.p = some q →
    best.cost < intMax ∧ ∃ word ∈ best.probes, dg word = (some q, best.cost)
  unfound : best.p = none → best.cost = intMax
  least : ∀ word ∈ best.probes, (dg word).1.isSome → best.cost ≤ (dg word).2
  stopped : best.stopped = true → best.cost ≤ 0

theorem isBest_start (dg : Word → Option T × Int) : IsBest dg .start where
  found := nofun
  unfound := fun _ => rfl
  least := fun _ member => absurd member List.not_mem_nil
  stopped := nofun

/-- A word is looked up and compared with the best result. -/
theorem IsBest.see {dg : Word → Option T × Int} {best : Best T} (isBest : IsBest dg best)
    (word : Word) : IsBest dg (best.see ((dg word).1, (dg word).2, [word])) := by
  have below : best.cost ≤ intMax := by
    cases some_ : best.p with
    | none => exact (isBest.unfound some_).le
    | some q => exact (isBest.found q some_).1.le
  rw [Best.see, combineSpellerResult]
  dsimp only
  by_cases better : (dg word).1.isSome ∧ (dg word).2 < best.cost
  · rw [if_pos better]
    refine ⟨fun q same => ⟨better.2.trans_le below, word, ?_, Prod.ext same rfl⟩, fun nothing => ?_,
      fun other member found => ?_, fun stops => of_decide_eq_true stops⟩
    · exact List.mem_append_right _ List.mem_cons_self
    · have some_ := better.1
      rw [show (dg word).1 = none from nothing] at some_
      cases some_
    · rcases List.mem_append.mp member with earlier | last
      · exact better.2.le.trans (isBest.least other earlier found)
      · rw [List.mem_singleton.mp last]
  · rw [if_neg better]
    refine ⟨fun q same => ?_, isBest.unfound, fun other member found => ?_, nofun⟩
    · obtain ⟨cheap, other, member, value⟩ := isBest.found q same
      exact ⟨cheap, other, List.mem_append_left _ member, value⟩
    · rcases List.mem_append.mp member with earlier | last
      · exact isBest.least other earlier found
      · rw [List.mem_singleton.mp last] at found ⊢
        exact not_lt.mp fun lower => better ⟨found, lower⟩

/-- The words of a list are looked up one after the other, all of them unless the search stops. -/
theorem scan_lookup (dg : Word → Option T × Int) (words : List (Word × Nat)) {best : Best T}
    (isBest : IsBest dg best) : ∃ best' seen unseen, scan (lookup dg) words best = some best' ∧
      IsBest dg best' ∧ words.map Prod.fst = seen ++ unseen ∧
      best'.probes = best.probes ++ seen ∧ (unseen = [] ∨ best'.stopped = true) := by
  induction words generalizing best with
  | nil => exact ⟨best, [], [], rfl, isBest, rfl, (List.append_nil _).symm, .inl rfl⟩
  | cons pair words inductionHypothesis =>
    obtain ⟨word, index⟩ := pair
    have isBest' := isBest.see word
    rw [scan, lookup, Option.bind_some]
    by_cases stopped : (best.see ((dg word).1, (dg word).2, [word])).stopped = true
    · rw [if_pos stopped]
      exact ⟨_, [word], words.map Prod.fst, rfl, isBest', rfl, rfl, .inr stopped⟩
    · rw [if_neg stopped]
      obtain ⟨best', seen, unseen, scanned, isBest'', whole, probes, ended⟩ :=
        inductionHypothesis isBest'
      refine ⟨best', word :: seen, unseen, scanned, isBest'', ?_, ?_, ended⟩
      · rw [List.map_cons, whole]
        rfl
      · rw [probes]
        exact List.append_assoc _ _ _

/-- What holds of all words that the lookups look up holds of all words that are looked up. -/
theorem scan_probes (look : Word → Nat → Option (Found T)) {P : Word → Prop}
    (words : List (Word × Nat)) (best : Best T) (holds : ∀ word ∈ best.probes, P word)
    (looks : ∀ word index, (word, index) ∈ words → ∃ found, look word index = some found ∧
      ∀ word ∈ found.2.2, P word) : ∃ best', scan look words best = some best' ∧
      ∀ word ∈ best'.probes, P word := by
  induction words generalizing best with
  | nil => exact ⟨best, rfl, holds⟩
  | cons pair words inductionHypothesis =>
    obtain ⟨word, index⟩ := pair
    obtain ⟨found, looked, each⟩ := looks word index List.mem_cons_self
    have holds' : ∀ word ∈ (best.see found).probes, P word := fun word member =>
      (List.mem_append.mp member).elim (holds word) (each word)
    rw [scan, looked, Option.bind_some]
    by_cases stopped : (best.see found).stopped = true
    · rw [if_pos stopped]
      exact ⟨_, rfl, holds'⟩
    · rw [if_neg stopped]
      exact inductionHypothesis _ holds' fun word index member =>
        looks word index (List.mem_cons_of_mem _ member)

/-- The words that the second level looks up are one edit away from its own seed. -/
theorem spellerY_probes (dg : Word → Option T × Int) (junk : Nat → CodeUnit) {seed : Word}
    (nonempty : 0 < seed.length) {index : Nat} (within : index ≤ seed.length) :
    ∃ found, spellerY dg junk seed index = some found ∧ ∀ word ∈ found.2.2, Edit seed word := by
  obtain ⟨best, scanned, probes⟩ := scan_probes (lookup dg) (P := Edit seed)
    (wordsY seed index) .start (fun _ member => absurd member List.not_mem_nil)
    fun word n member => ⟨_, rfl, fun other same => by
      rw [List.mem_singleton.mp same]
      exact edit_of_mem_wordsY member⟩
  refine ⟨(best.p, best.cost, best.probes), ?_, probes⟩
  rw [spellerY_eq dg junk nonempty within, scanned]
  rfl

/-! ### What is found -/

/-- The first level looks up words that are one edit or transposition away, all of them unless it
finds one without any cost. It returns nothing exactly when none of them is found below the highest
cost, and otherwise one that is found at the least cost. The second level looks up words that are
two edits away. Neither level leaves its buffer. -/
theorem spellerX_spec (dg : Word → Option T × Int) (nonneg : ∀ word, 0 ≤ (dg word).2)
    (junk : Nat → CodeUnit) (seed : Word) (long : 2 ≤ seed.length) :
    (∃ p probes, spellerX dg junk seed false = some (p, probes) ∧
      (∀ word ∈ probes, Near seed word) ∧
      ((∀ word, Near seed word → (dg word).1.isSome → 0 < (dg word).2) →
        ∀ word, Near seed word → word ∈ probes) ∧
      (p = none ↔ ∀ word, Near seed word → (dg word).1.isSome → intMax ≤ (dg word).2) ∧
      ∀ q, p = some q → ∃ word, Near seed word ∧ (dg word).1 = some q ∧
        ∀ other, Near seed other → (dg other).1.isSome → (dg word).2 ≤ (dg other).2) ∧
    ∃ p probes, spellerX dg junk seed true = some (p, probes) ∧
      ∀ word ∈ probes, ∃ between, Edit seed between ∧ Edit between word := by
  have nonempty : 0 < seed.length := by omega
  constructor
  · obtain ⟨best, seen, unseen, scanned, isBest, whole, probes, ended⟩ :=
      scan_lookup dg (wordsX seed false) (isBest_start dg)
    have same : best.probes = seen := probes
    have near (word : Word) (member : word ∈ best.probes) : Near seed word := by
      rw [near_iff, whole]
      exact List.mem_append_left _ (same ▸ member)
    have all (running : best.stopped = false) (word : Word) (isNear : Near seed word) :
        word ∈ best.probes := by
      rcases ended with nothing | stopped
      · rw [near_iff, whole, nothing, List.append_nil] at isNear
        exact same ▸ isNear
      · rw [running] at stopped
        cases stopped
    refine ⟨best.p, best.probes, ?_, near, fun costly => all ?_, ⟨fun nothing => ?_, fun nothing => ?_⟩,
      fun q found => ?_⟩
    · rw [spellerX_eq dg junk nonempty, if_neg Bool.false_ne_true, scanned]
      rfl
    · by_contra stops
      have free := isBest.stopped (Bool.not_eq_false _ ▸ stops)
      cases some_ : best.p with
      | none =>
        rw [isBest.unfound some_] at free
        exact absurd free (by decide)
      | some q =>
        obtain ⟨-, word, member, value⟩ := isBest.found q some_
        have cost := costly word (near word member) (by rw [value]; rfl)
        rw [value] at cost
        exact absurd free (not_le.mpr cost)
    · have cost := isBest.unfound nothing
      have running : best.stopped = false := by
        by_contra stops
        have free := isBest.stopped (Bool.not_eq_false _ ▸ stops)
        rw [cost] at free
        exact absurd free (by decide)
      intro word isNear found
      rw [← cost]
      exact isBest.least word (all running word isNear) found
    · by_contra some_
      obtain ⟨q, found⟩ := Option.ne_none_iff_exists'.mp some_
      obtain ⟨cheap, word, member, value⟩ := isBest.found q found
      have expensive := nothing word (near word member) (by rw [value]; rfl)
      rw [value] at expensive
      exact absurd cheap (not_lt.mpr expensive)
    · obtain ⟨-, word, member, value⟩ := isBest.found q found
      refine ⟨word, near word member, by rw [value], fun other isNear otherFound => ?_⟩
      rw [value]
      by_cases stops : best.stopped = true
      · exact (isBest.stopped stops).trans (nonneg other)
      · exact isBest.least other (all (Bool.not_eq_true _ ▸ stops) other isNear) otherFound
  · have looks (word : Word) (index : Nat) (member : (word, index) ∈ wordsX seed true) :
        ∃ found, spellerY dg junk word index = some found ∧
          ∀ other ∈ found.2.2, ∃ between, Edit seed between ∧ Edit between other := by
      have step (edit : Edit seed word) (filled : 0 < word.length) (within : index ≤ word.length) :
          ∃ found, spellerY dg junk word index = some found ∧
            ∀ other ∈ found.2.2, ∃ between, Edit seed between ∧ Edit between other := by
        obtain ⟨found, looked, each⟩ := spellerY_probes dg junk filled within
        exact ⟨found, looked, fun other inside => ⟨word, edit, each other inside⟩⟩
      rcases mem_wordsX.mp member with ⟨i, inside, rfl, rfl⟩ | ⟨other, -⟩ |
        ⟨i, inside, c, known, rfl, rfl⟩ | ⟨i, within, c, known, rfl, rfl⟩
      · have length := length_deleted inside
        exact step (edit_deleted inside) (by omega) (by omega)
      · cases other
      · have length := length_replaced inside c
        exact step (edit_replaced inside known) (by omega) (by omega)
      · have length := length_inserted within c
        exact step (edit_inserted seed i known) (by omega) (by omega)
    obtain ⟨best, scanned, probes⟩ := scan_probes (spellerY dg junk) (wordsX seed true) .start
      (fun _ member => absurd member List.not_mem_nil) looks
    refine ⟨best.p, best.probes, ?_, probes⟩
    rw [spellerX_eq dg junk nonempty, if_pos rfl, scanned]
    rfl

/-- A dictionary of one word, which is found without any cost. -/
def dictionary (known word : Word) : Option Word × Int :=
  if word = known then (some known, 0) else (none, 0)

theorem spellerX_spec_ab :
    (∃ p probes, spellerX (dictionary [98]) (fun _ => 0) [97, 98] false = some (p, probes) ∧
      (∀ word ∈ probes, Near [97, 98] word) ∧
      ((∀ word, Near [97, 98] word → (dictionary [98] word).1.isSome →
          0 < (dictionary [98] word).2) → ∀ word, Near [97, 98] word → word ∈ probes) ∧
      (p = none ↔ ∀ word, Near [97, 98] word → (dictionary [98] word).1.isSome →
        intMax ≤ (dictionary [98] word).2) ∧
      ∀ q, p = some q → ∃ word, Near [97, 98] word ∧ (dictionary [98] word).1 = some q ∧
        ∀ other, Near [97, 98] other → (dictionary [98] other).1.isSome →
          (dictionary [98] word).2 ≤ (dictionary [98] other).2) ∧
    ∃ p probes, spellerX (dictionary [98]) (fun _ => 0) [97, 98] true = some (p, probes) ∧
      ∀ word ∈ probes, ∃ between, Edit [97, 98] between ∧ Edit between word :=
  spellerX_spec (dictionary [98])
    (fun word => by rw [dictionary]; split <;> exact le_rfl) (fun _ => 0) [97, 98] (by decide)

/-- Where `b` is known, one edit away from `ab`, the search ends with it, and the other word that a
deletion makes is not looked up. -/
theorem spellerX_stops : ∃ probes,
    spellerX (dictionary [98]) (fun _ => 0) [97, 98] false = some (some [98], probes) ∧
      Near [97, 98] [97] ∧ [97] ∉ probes :=
  ⟨[[98]], by decide +kernel, .inl (.deletion [97] [] 98), by decide⟩

end LaserD.Root.Speller
