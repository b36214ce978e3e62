/-
This file proves that the spell checker looks up the words that it is meant to, although it makes
them all in one buffer.

Each part of the search is compared with a list of words: it looks up the words of the list one
after the other and stops when they do. The loops over positions keep that the buffer is the word
with the position left out, overwritten or doubled; putting the character of the position back moves
it on to the next one.
-/

import LaserD.Root.Speller
import Mathlib.Algebra.Order.Ring.Nat

namespace LaserD.Root.Speller

variable {T : Type}

/-! ### Searching a list of words -/

/-- The words of a list are looked up, each with an index, until the search stops. -/
def scan (look : Word → Nat → Option (Found T)) : List (Word × Nat) → Best T → Option (Best T)
  | [], best => some best
  | (word, index) :: rest, best =>
    (look word index).bind fun found =>
      if (best.see found).stopped then some (best.see found) else scan look rest (best.see found)

theorem scan_append (look : Word → Nat → Option (Found T)) (words words' : List (Word × Nat))
    (best : Best T) (running : best.stopped = false) : scan look (words ++ words') best =
      (scan look words best).bind fun best =>
        if best.stopped then some best else scan look words' best := by
  induction words generalizing best with
  | nil =>
    rw [List.nil_append, scan, Option.bind_some, if_neg (Bool.eq_false_iff.mp running)]
  | cons pair words inductionHypothesis =>
    obtain ⟨word, index⟩ := pair
    rw [List.cons_append, scan, scan]
    cases look word index with
    | none => rfl
    | some found =>
      rw [Option.bind_some, Option.bind_some]
      by_cases stopped : (best.see found).stopped = true
      · rw [if_pos stopped, if_pos stopped, Option.bind_some, if_pos stopped]
      · rw [if_neg stopped, if_neg stopped,
          inductionHypothesis _ (Bool.not_eq_true _ ▸ stopped)]

/-- A part of the search looks up the words of a list, and unless it stops it leaves the buffer with
a property. -/
def Follows (look : Word → Nat → Option (Found T)) (words : List (Word × Nat)) (best : Best T)
    (after : Word → Prop) (result : Option (State T)) : Prop :=
  (scan look words best = none ∧ result = none) ∨
    ∃ best' buf, scan look words best = some best' ∧ result = some ⟨best', buf⟩ ∧
      (best'.stopped = false → after buf)

namespace Follows

variable {look : Word → Nat → Option (Found T)} {best : Best T} {buf : Word}

/-- Nothing is looked up. -/
theorem done {after : Word → Prop} (holds : after buf) :
    Follows look [] best after (some ⟨best, buf⟩) :=
  .inr ⟨best, buf, rfl, rfl, fun _ => holds⟩

/-- A write looks up nothing. -/
theorem write {after : Word → Prop} {buf' : Word} {written : Option Word}
    (succeeds : written = some buf') (holds : after buf') :
    Follows look [] best after (State.write ⟨best, buf⟩ written) := by
  rw [State.write, succeeds]
  exact done holds

/-- The first characters of the buffer are looked up. -/
theorem attempt {after : Word → Prop} {word : Word} {length index : Nat}
    (sliced : slice buf 0 length = some word) (holds : after buf) :
    Follows look [(word, index)] best after (Speller.attempt look length index ⟨best, buf⟩) := by
  rw [Speller.attempt, sliced, Option.bind_some, Follows, scan]
  cases look word index with
  | none => exact .inl ⟨rfl, rfl⟩
  | some found =>
    refine .inr ⟨best.see found, buf, ?_, rfl, fun _ => holds⟩
    rw [Option.bind_some, scan, ite_self]

theorem weaken {words : List (Word × Nat)} {after after' : Word → Prop}
    {result : Option (State T)} (follows : Follows look words best after result)
    (implies : ∀ buf, after buf → after' buf) : Follows look words best after' result := by
  rcases follows with failed | ⟨best', buf, scanned, finished, holds⟩
  · exact .inl failed
  · exact .inr ⟨best', buf, scanned, finished, fun running => implies buf (holds running)⟩

/-- One part of the search comes after another. -/
theorem andThen {words words' : List (Word × Nat)} {between after : Word → Prop}
    {first : Option (State T)} {next : State T → Option (State T)}
    (running : best.stopped = false) (follows : Follows look words best between first)
    (continues : ∀ best' buf, best'.stopped = false → between buf →
      Follows look words' best' after (next ⟨best', buf⟩)) :
    Follows look (words ++ words') best after (Speller.andThen first next) := by
  rw [Follows, scan_append look words words' best running]
  rcases follows with ⟨failed, rfl⟩ | ⟨best', buf, scanned, rfl, holds⟩
  · rw [failed]
    exact .inl ⟨rfl, rfl⟩
  · rw [scanned, Option.bind_some, Speller.andThen, Option.bind_some]
    by_cases stopped : best'.stopped = true
    · rw [if_pos stopped]
      refine .inr ⟨best', buf, rfl, if_pos stopped, fun other => ?_⟩
      rw [stopped] at other
      cases other
    · have goesOn : best'.stopped = false := Bool.not_eq_true _ ▸ stopped
      rw [if_neg stopped, if_neg stopped]
      exact continues best' buf goesOn (holds goesOn)

/-- What comes after a part of the search looks up nothing. -/
theorem andWrite {words : List (Word × Nat)} {between after : Word → Prop}
    {first : Option (State T)} {next : State T → Option (State T)}
    (running : best.stopped = false) (follows : Follows look words best between first)
    (continues : ∀ best' buf, best'.stopped = false → between buf →
      Follows look [] best' after (next ⟨best', buf⟩)) :
    Follows look words best after (Speller.andThen first next) := by
  rw [← List.append_nil words]
  exact andThen running follows continues

/-- A write comes before a part of the search. -/
theorem writeThen {words : List (Word × Nat)} {after : Word → Prop} {buf' : Word}
    {written : Option Word} {next : State T → Option (State T)} (running : best.stopped = false)
    (succeeds : written = some buf') (continues : Follows look words best after (next ⟨best, buf'⟩)) :
    Follows look words best after (Speller.andThen (State.write ⟨best, buf⟩ written) next) := by
  rw [State.write, succeeds, Option.map_some, Speller.andThen, Option.bind_some]
  exact (if_neg (Bool.eq_false_iff.mp running)) ▸ continues

/-- A loop over characters keeps a property of the buffer. -/
theorem forEach (invariant : Word → Prop) {body : CodeUnit → State T → Option (State T)}
    (words : CodeUnit → List (Word × Nat)) (chars : List CodeUnit)
    (step : ∀ c ∈ chars, ∀ best' buf, best'.stopped = false → invariant buf →
      Follows look (words c) best' invariant (body c ⟨best', buf⟩))
    (running : best.stopped = false) (holds : invariant buf) :
    Follows look (chars.flatMap words) best invariant
      (Speller.forEach chars body ⟨best, buf⟩) := by
  induction chars generalizing best buf with
  | nil => exact done holds
  | cons c chars inductionHypothesis =>
    obtain ⟨head, tail⟩ := List.forall_mem_cons.mp step
    rw [List.flatMap_cons]
    exact andThen running (head best buf running holds) fun best' buf running' holds' =>
      inductionHypothesis tail running' holds'

/-- A loop over indices keeps a property of the index and the buffer. -/
theorem forRange (invariant : Nat → Word → Prop) {body : Nat → State T → Option (State T)}
    (words : Nat → List (Word × Nat)) (count i : Nat)
    (step : ∀ j, i ≤ j → j < i + count → ∀ best' buf, best'.stopped = false → invariant j buf →
      Follows look (words j) best' (invariant (j + 1)) (body j ⟨best', buf⟩))
    (running : best.stopped = false) (holds : invariant i buf) :
    Follows look ((List.range' i count).flatMap words) best (invariant (i + count))
      (Speller.forRange count i body ⟨best, buf⟩) := by
  induction count generalizing i best buf with
  | zero => exact done holds
  | succ count inductionHypothesis =>
    have last : i + (count + 1) = i + 1 + count := by omega
    rw [List.range'_succ, List.flatMap_cons, last]
    refine andThen running (step i le_rfl (by omega) best buf running holds)
      fun best' buf running' holds' => ?_
    exact inductionHypothesis (i + 1) (fun j from_ before => step j (by omega) (by omega)) running'
      holds'

end Follows

/-! ### The buffer -/

theorem slice_front (word tail : Word) {length : Nat} (same : word.length = length) :
    slice (word ++ tail) 0 length = some word := by
  subst same
  rw [slice, if_pos ⟨Nat.zero_le _, by rw [List.length_append]; exact Nat.le_add_right _ _⟩,
    List.take_left, List.drop_zero]

theorem slice_suffix (word : Word) {lo : Nat} (within : lo ≤ word.length) :
    slice word lo word.length = some (word.drop lo) := by
  rw [slice, if_pos ⟨within, le_rfl⟩, List.take_length]

theorem put_at (before after : Word) (old c : CodeUnit) {i : Nat} (at_ : before.length = i) :
    put (before ++ old :: after) i c = some (before ++ c :: after) := by
  subst at_
  rw [put, if_pos (by rw [List.length_append, List.length_cons]; omega),
    List.set_append_right _ _ le_rfl, Nat.sub_self]
  rfl

theorem copyTo_eq {buf src : Word} {lo hi : Nat} (order : lo ≤ hi) (within : hi ≤ buf.length)
    (length : src.length = hi - lo) :
    copyTo buf lo hi src = some (buf.take lo ++ src ++ buf.drop hi) :=
  if_pos ⟨order, within, length⟩

/-! ### The words -/

/-- The character at an index is left out. -/
def deleted (seed : Word) (i : Nat) : Word :=
  seed.take i ++ seed.drop (i + 1)

/-- The characters at an index and after it change places. -/
def swapped (seed : Word) (i : Nat) : Word :=
  match seed.drop i with
  | c :: d :: after => seed.take i ++ d :: c :: after
  | _ => seed

/-- The character at an index is replaced. -/
def replaced (seed : Word) (i : Nat) (c : CodeUnit) : Word :=
  seed.take i ++ c :: seed.drop (i + 1)

/-- A character is inserted at an index. -/
def inserted (seed : Word) (i : Nat) (c : CodeUnit) : Word :=
  seed.take i ++ c :: seed.drop i

theorem at_index {seed : Word} {i : Nat} (inside : i < seed.length) : ∃ c, seed[i]? = some c ∧
    seed.drop i = c :: seed.drop (i + 1) ∧ seed.take (i + 1) = seed.take i ++ [c] :=
  ⟨seed[i], List.getElem?_eq_getElem inside, List.drop_eq_getElem_cons inside,
    List.take_succ_eq_append_getElem inside⟩

theorem length_take {seed : Word} {i : Nat} (within : i ≤ seed.length) :
    (seed.take i).length = i :=
  List.length_take_of_le within

/-! ### The loops over positions -/

section

variable {look : Word → Nat → Option (Found T)} {best : Best T} {seed buf : Word}

/-- The buffer is the seed without the character at the index, and two characters more. -/
def Lacks (seed : Word) (i : Nat) (buf : Word) : Prop :=
  buf.length = seed.length + 1 ∧
    (i < seed.length → ∃ tail, buf = deleted seed i ++ tail)

/-- The buffer is the seed, with some character at the index, and one character more. -/
def Differs (seed : Word) (i : Nat) (buf : Word) : Prop :=
  buf.length = seed.length + 1 ∧
    (i < seed.length → ∃ y tail, buf = replaced seed i y ++ tail)

/-- The buffer is the seed, with some character before the index. -/
def Gains (seed : Word) (i : Nat) (buf : Word) : Prop :=
  buf.length = seed.length + 1 ∧ (i ≤ seed.length → ∃ y, buf = inserted seed i y)

theorem length_deleted {i : Nat} (inside : i < seed.length) :
    (deleted seed i).length = seed.length - 1 := by
  rw [deleted, List.length_append, length_take inside.le, List.length_drop]
  omega

theorem length_replaced {i : Nat} (inside : i < seed.length) (c : CodeUnit) :
    (replaced seed i c).length = seed.length := by
  rw [replaced, List.length_append, length_take inside.le, List.length_cons, List.length_drop]
  omega

theorem length_inserted {i : Nat} (within : i ≤ seed.length) (c : CodeUnit) :
    (inserted seed i c).length = seed.length + 1 := by
  rw [inserted, List.length_append, length_take within, List.length_cons, List.length_drop]
  omega

theorem restore_follows {after : Word → Prop} {i : Nat} {c : CodeUnit} (y : CodeUnit) (rest : Word)
    (at_ : seed[i]? = some c) (within : i ≤ seed.length) (shape : buf = seed.take i ++ y :: rest)
    (holds : after (seed.take i ++ c :: rest)) :
    Follows look [] best after (restore seed i ⟨best, buf⟩) := by
  rw [restore, at_, Option.bind_some]
  refine Follows.write ?_ holds
  show put buf i c = _
  rw [shape, put_at _ _ _ _ (length_take within)]

theorem deletions_follow (running : best.stopped = false) (lacks : Lacks seed 0 buf) :
    Follows look ((List.range' 0 seed.length).flatMap fun i => [(deleted seed i, i)]) best
      (fun buf => buf.length = seed.length + 1)
      (deletions look seed ⟨best, buf⟩) := by
  refine (Follows.forRange (Lacks seed) (fun i => [(deleted seed i, i)]) seed.length 0
    (fun i _ before best buf running lacks => ?_) running lacks).weaken fun buf lacks => lacks.1
  have inside : i < seed.length := by omega
  obtain ⟨length, shape⟩ := lacks
  obtain ⟨tail, rfl⟩ := shape inside
  obtain ⟨c, at_, dropped, taken⟩ := at_index inside
  refine Follows.andWrite running (Follows.attempt
    (slice_front _ tail (length_deleted inside)) (Eq.refl (deleted seed i ++ tail))) ?_
  rintro best' _ - rfl
  have some_ : seed.drop (i + 1) ++ tail ≠ [] := by
    intro none
    rw [deleted, List.append_assoc, none, List.append_nil, length_take inside.le] at length
    omega
  obtain ⟨y, rest, split⟩ := List.exists_cons_of_ne_nil some_
  refine restore_follows y rest at_ inside.le ?_ ⟨?_, fun next => ?_⟩
  · rw [deleted, List.append_assoc, split]
  · rw [← length, deleted, List.append_assoc, split, List.length_append, List.length_append]
    rfl
  · obtain ⟨d, -, dropped', -⟩ := at_index next
    rw [dropped', List.cons_append] at split
    obtain ⟨-, rfl⟩ := List.cons_eq_cons.mp split
    refine ⟨tail, ?_⟩
    rw [deleted, taken, List.append_assoc, List.append_assoc]
    rfl

/-- After the character is put back, some character is at the next index. -/
theorem Differs.next {i : Nat} {c : CodeUnit} {rest : Word} (tail : Word)
    (length : (seed.take i ++ c :: rest).length = seed.length + 1)
    (taken : seed.take (i + 1) = seed.take i ++ [c])
    (split : i + 1 < seed.length → ∃ y, rest = y :: (seed.drop (i + 2) ++ tail)) :
    Differs seed (i + 1) (seed.take i ++ c :: rest) := by
  refine ⟨length, fun next => ?_⟩
  obtain ⟨y, rfl⟩ := split next
  refine ⟨y, tail, ?_⟩
  rw [replaced, taken, List.append_assoc, List.append_assoc]
  rfl

/-- The whole seed is written before a loop over positions. -/
theorem differs_start (nonempty : 0 < seed.length) (length : buf.length = seed.length + 1) :
    Differs seed 0 (buf.take 0 ++ seed ++ buf.drop seed.length) := by
  obtain ⟨c, -, dropped, -⟩ := at_index nonempty
  refine ⟨?_, fun _ => ⟨c, buf.drop seed.length, ?_⟩⟩
  · rw [List.take_zero, List.nil_append, List.length_append, List.length_drop]
    omega
  · rw [List.drop_zero] at dropped
    rw [replaced, List.take_zero, List.take_zero, List.nil_append, List.nil_append, ← dropped]

theorem transpositions_follow (running : best.stopped = false) (nonempty : 0 < seed.length)
    (size : buf.length = seed.length + 1) :
    Follows look ((List.range' 0 (seed.length - 1)).flatMap fun i => [(swapped seed i, 0)]) best
      (fun buf => buf.length = seed.length + 1) (transpositions look seed ⟨best, buf⟩) := by
  refine Follows.writeThen running
    (copyTo_eq (Nat.zero_le _) (Nat.le_of_succ_le size.ge) rfl) ?_
  refine (Follows.forRange (Differs seed) (fun i => [(swapped seed i, 0)]) _ 0
    (fun i _ before best buf running differs => ?_) running
    (differs_start nonempty size)).weaken fun buf differs => differs.1
  have inside : i < seed.length := by omega
  have inside' : i + 1 < seed.length := by omega
  obtain ⟨length, shape⟩ := differs
  obtain ⟨y, tail, rfl⟩ := shape inside
  obtain ⟨c, at_, dropped, taken⟩ := at_index inside
  obtain ⟨d, at', dropped', -⟩ := at_index inside'
  have swap : swapped seed i = seed.take i ++ d :: c :: seed.drop (i + 1 + 1) := by
    rw [swapped, dropped, dropped']
  have short : (swapped seed i).length = seed.length := by
    rw [swap, List.length_append, length_take inside.le, List.length_cons, List.length_cons,
      List.length_drop]
    omega
  have whole : replaced seed i y ++ tail =
      seed.take i ++ y :: d :: (seed.drop (i + 1 + 1) ++ tail) := by
    rw [replaced, dropped', List.append_assoc]
    rfl
  have one : (seed.take i ++ [d]).length = i + 1 := by
    rw [List.length_append, length_take inside.le]
    rfl
  have second : put (seed.take i ++ d :: d :: (seed.drop (i + 1 + 1) ++ tail)) (i + 1) c =
      some (swapped seed i ++ tail) := by
    have written := put_at (seed.take i ++ [d]) (seed.drop (i + 1 + 1) ++ tail) d c one
    rw [List.append_assoc, List.append_assoc] at written
    rw [swap, List.append_assoc]
    exact written
  rw [at', at_, whole, Option.bind_some]
  refine Follows.writeThen running (put_at _ _ y d (length_take inside.le)) ?_
  rw [Option.bind_some]
  refine Follows.writeThen running second ?_
  refine Follows.andWrite running (Follows.attempt (slice_front _ tail short)
    (Eq.refl (swapped seed i ++ tail))) ?_
  rintro best' _ - rfl
  refine restore_follows d (c :: (seed.drop (i + 1 + 1) ++ tail)) at_ inside.le ?_
    (Differs.next tail ?_ taken fun _ => ⟨c, rfl⟩)
  · rw [swap, List.append_assoc]
    rfl
  · rw [← length, whole]
    simp only [List.length_append, List.length_cons]

/-- Every character is tried at an index. -/
theorem substitute_each {i level : Nat} (inside : i < seed.length) (y : CodeUnit) (tail : Word)
    (running : best.stopped = false) :
    Follows look (idchars.flatMap fun c => [(replaced seed i c, level)]) best
      (fun buf => ∃ y, buf = replaced seed i y ++ tail) (forEach idchars (fun c s =>
        andThen (s.write (put s.buf i c)) fun s => attempt look seed.length level s)
        ⟨best, replaced seed i y ++ tail⟩) := by
  refine Follows.forEach _ _ _ (fun s _ best' buf' running' differs' => ?_) running ⟨y, rfl⟩
  obtain ⟨y', rfl⟩ := differs'
  have written : put (replaced seed i y' ++ tail) i s = some (replaced seed i s ++ tail) := by
    rw [replaced, replaced, List.append_assoc, List.append_assoc]
    exact put_at _ _ y' s (length_take inside.le)
  exact Follows.writeThen running' written
    (Follows.attempt (slice_front _ tail (length_replaced inside s)) ⟨s, rfl⟩)

/-- Every character is tried before an index. -/
theorem insert_each {i level : Nat} (within : i ≤ seed.length) (y : CodeUnit)
    (running : best.stopped = false) :
    Follows look (idchars.flatMap fun c => [(inserted seed i c, level)]) best
      (fun buf => ∃ y, buf = inserted seed i y) (forEach idchars (fun c s =>
        andThen (s.write (put s.buf i c)) fun s => attempt look (seed.length + 1) level s)
        ⟨best, inserted seed i y⟩) := by
  refine Follows.forEach _ _ _ (fun s _ best' buf' running' gains' => ?_) running ⟨y, rfl⟩
  obtain ⟨y', rfl⟩ := gains'
  have written : put (inserted seed i y') i s = some (inserted seed i s) :=
    put_at _ _ y' s (length_take within)
  have sliced := slice_front (inserted seed i s) [] (length_inserted within s)
  rw [List.append_nil] at sliced
  exact Follows.writeThen running' written (Follows.attempt sliced ⟨s, rfl⟩)

theorem substitutions_follow (running : best.stopped = false) (nonempty : 0 < seed.length)
    (size : buf.length = seed.length + 1) :
    Follows look ((List.range' 0 seed.length).flatMap fun i =>
        idchars.flatMap fun c => [(replaced seed i c, i + 1)]) best
      (fun buf => buf.length = seed.length + 1) (substitutions look seed ⟨best, buf⟩) := by
  refine Follows.writeThen running
    (copyTo_eq (Nat.zero_le _) (Nat.le_of_succ_le size.ge) rfl) ?_
  refine (Follows.forRange (Differs seed) _ _ 0 (fun i _ before best buf running differs => ?_)
    running (differs_start nonempty size)).weaken fun buf differs => differs.1
  have inside : i < seed.length := by omega
  obtain ⟨length, shape⟩ := differs
  obtain ⟨y, tail, rfl⟩ := shape inside
  obtain ⟨c, at_, dropped, taken⟩ := at_index inside
  refine Follows.andWrite running (substitute_each inside y tail running)
    fun best' buf' _ differs' => ?_
  obtain ⟨y', rfl⟩ := differs'
  refine restore_follows y' (seed.drop (i + 1) ++ tail) at_ inside.le ?_
    (Differs.next tail ?_ taken fun next => ?_)
  · rw [replaced, List.append_assoc]
    rfl
  · rw [List.length_append, length_replaced inside] at length
    simp only [List.length_append, List.length_cons, length_take inside.le, List.length_drop]
    omega
  · obtain ⟨d, -, dropped', -⟩ := at_index next
    exact ⟨d, by rw [dropped']; rfl⟩

theorem insertions_follow (running : best.stopped = false)
    (size : buf.length = seed.length + 1) :
    Follows look ((List.range' 0 (seed.length + 1)).flatMap fun i =>
        idchars.flatMap fun c => [(inserted seed i c, i + 1)]) best (fun _ => True)
      (insertions look seed ⟨best, buf⟩) := by
  have start : Gains seed 0 (buf.take 1 ++ seed ++ buf.drop (seed.length + 1)) := by
    rw [← size, List.drop_length, List.append_nil]
    rcases buf with - | ⟨y, rest⟩
    · cases size
    · exact ⟨rfl, fun _ => ⟨y, rfl⟩⟩
  refine Follows.writeThen running
    (copyTo_eq (Nat.succ_le_succ (Nat.zero_le _)) size.ge rfl) ?_
  refine (Follows.forRange (Gains seed) _ _ 0 (fun i _ before best buf running gains => ?_) running
    start).weaken fun _ _ => trivial
  have within : i ≤ seed.length := by omega
  obtain ⟨length, shape⟩ := gains
  obtain ⟨y, rfl⟩ := shape within
  refine Follows.andWrite running (insert_each within y running) fun best' buf' _ gains' => ?_
  obtain ⟨y', rfl⟩ := gains'
  have same : (inserted seed i y').length = seed.length + 1 := length_inserted within y'
  by_cases inside : i < seed.length
  · obtain ⟨c, at_, dropped, taken⟩ := at_index inside
    rw [if_pos inside]
    refine restore_follows y' (seed.drop i) at_ within rfl ⟨length_inserted within c, fun _ => ?_⟩
    refine ⟨c, ?_⟩
    rw [inserted, taken, dropped, List.append_assoc]
    rfl
  · rw [if_neg inside]
    exact Follows.done ⟨same, fun next => absurd next (by omega)⟩

/-! ### One position -/

/-- The buffer begins with the seed up to an index. -/
def Starts (seed : Word) (index : Nat) (buf : Word) : Prop :=
  buf.length = seed.length + 1 ∧ ∃ rest, buf = seed.take index ++ rest

theorem Starts.take_eq {index : Nat} (starts : Starts seed index buf)
    (within : index ≤ seed.length) : buf.take index = seed.take index := by
  obtain ⟨-, rest, rfl⟩ := starts
  rw [List.take_append_of_le_length (length_take within).ge, List.take_take, Nat.min_self]

theorem deletionAt_follows {index : Nat} (running : best.stopped = false)
    (within : index ≤ seed.length) (starts : Starts seed index buf) :
    Follows look (if index < seed.length then [(deleted seed index, 0)] else []) best
      (Starts seed index) (deletionAt look seed index ⟨best, buf⟩) := by
  rw [deletionAt]
  by_cases inside : index < seed.length
  · have size := starts.1
    have short : (seed.drop (index + 1)).length = seed.length - 1 - index := by
      rw [List.length_drop]
      omega
    rw [if_pos inside, if_pos inside, slice_suffix seed inside, Option.bind_some]
    refine Follows.writeThen running (copyTo_eq (by omega) (by show _ ≤ buf.length; omega) short) ?_
    rw [starts.take_eq within]
    refine Follows.attempt (slice_front _ _ (length_deleted inside)) ⟨?_, ?_⟩
    · dsimp only
      rw [List.length_append, ← deleted, length_deleted inside, List.length_drop]
      omega
    · exact ⟨_, List.append_assoc _ _ _⟩
  · rw [if_neg inside, if_neg inside]
    exact Follows.done starts

theorem substitutionAt_follows {index : Nat} (running : best.stopped = false)
    (starts : Starts seed index buf) :
    Follows look (if index < seed.length then idchars.flatMap fun c => [(replaced seed index c, 0)]
      else []) best (Starts seed index) (substitutionAt look seed index ⟨best, buf⟩) := by
  rw [substitutionAt]
  by_cases inside : index < seed.length
  · have size := starts.1
    obtain ⟨c, -, dropped, -⟩ := at_index inside
    rw [if_pos inside, if_pos inside]
    refine Follows.writeThen running
      (copyTo_eq (Nat.zero_le _) (Nat.le_of_succ_le size.ge) rfl) ?_
    have whole : buf.take 0 ++ seed ++ buf.drop seed.length =
        replaced seed index c ++ buf.drop seed.length := by
      rw [List.take_zero, List.nil_append, replaced, ← dropped, List.take_append_drop]
    rw [whole]
    refine (substitute_each inside c _ running).weaken fun buf' differs => ?_
    obtain ⟨y, rfl⟩ := differs
    refine ⟨?_, y :: (seed.drop (index + 1) ++ buf.drop seed.length), ?_⟩
    · rw [List.length_append, length_replaced inside, List.length_drop]
      omega
    · rw [replaced, List.append_assoc]
      rfl
  · rw [if_neg inside, if_neg inside]
    exact Follows.done starts

theorem insertionAt_follows {index : Nat} (running : best.stopped = false)
    (within : index ≤ seed.length) (starts : Starts seed index buf) :
    Follows look (idchars.flatMap fun c => [(inserted seed index c, 0)]) best (fun _ => True)
      (insertionAt look seed index ⟨best, buf⟩) := by
  obtain ⟨size, rest, rfl⟩ := starts
  have length := length_take within
  have length_ : rest.length = seed.length + 1 - index := by
    rw [List.length_append, length] at size
    omega
  rw [insertionAt, slice_suffix seed within, Option.bind_some]
  refine Follows.writeThen running
    (copyTo_eq (by omega) size.ge (by rw [List.length_drop]; omega)) ?_
  obtain ⟨y, rest', rfl⟩ : ∃ y rest', rest = y :: rest' := by
    rcases rest with - | ⟨y, rest'⟩
    · rw [List.length_nil] at length_
      omega
    · exact ⟨y, rest', rfl⟩
  have whole : (seed.take index ++ y :: rest').take (index + 1) ++ seed.drop index ++
      (seed.take index ++ y :: rest').drop (seed.length + 1) = inserted seed index y := by
    rw [← size, List.drop_length, List.append_nil, inserted, List.take_append, length,
      List.take_of_length_le (by omega), Nat.add_sub_cancel_left, List.append_assoc]
    rfl
  show Follows _ _ _ _ (forEach idchars _ ⟨best, (seed.take index ++ y :: rest').take (index + 1) ++
    seed.drop index ++ (seed.take index ++ y :: rest').drop (seed.length + 1)⟩)
  rw [whole]
  exact (insert_each within y running).weaken fun _ _ => trivial

end

end LaserD.Root.Speller
