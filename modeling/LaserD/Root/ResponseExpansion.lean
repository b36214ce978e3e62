/-
This file proves when the expansion of response files is the same for a list of arguments as for
its parts.

The passes over the arguments end at the first depth of nesting whose files have no argument that
is written with an `@` at its start. An argument in quotes that begins with an `@` is expanded by
the next pass, if there is one, and left as it is otherwise. So the passes over one part of a list
expand the references that those over the other part left behind.
-/

import LaserD.Root.Response
import Mathlib.Order.WellFoundedSet

namespace LaserD.Root.Response

open PassExpansion

/-! ### Buffers that end with a null -/

theorem getLast_tail {c : Char} {rest : List Char} {last : Char}
    (ends : (c :: rest).getLast? = some last) :
    (rest = [] ∧ c = last) ∨ rest.getLast? = some last := by
  cases rest with
  | nil => exact Or.inl ⟨rfl, Option.some.inj ends⟩
  | cons other rest =>
    rw [List.getLast?_cons_cons] at ends
    exact Or.inr ends

/-- An argument goes on at characters other than a null only. -/
theorem step_ne_null {scan next : Scan} {c : Char} (more : scan.step c = .more next) :
    c ≠ '\x00' := by
  rintro rfl
  exact absurd more (by simp [Scan.step])

/-- The loops never write outside a buffer that ends with a null. -/
theorem scan_isSome (buffer : List Char) :
    (∀ comment, (buffer = [] ∨ buffer.getLast? = some '\x00') →
      (scanArguments comment buffer).isSome = true) ∧
    ∀ scan, buffer.getLast? = some '\x00' → (scanArgument scan buffer).isSome = true := by
  induction buffer with
  | nil => exact ⟨fun _ _ => rfl, fun _ ends => absurd ends (by simp)⟩
  | cons c rest inductionHypothesis =>
    have between : (c :: rest).getLast? = some '\x00' → ∀ comment,
        (scanArguments comment rest).isSome = true :=
      fun ends comment => inductionHypothesis.1 comment ((getLast_tail ends).imp_left And.left)
    have inside : (c :: rest).getLast? = some '\x00' → ∀ scan next : Scan, scan.step c = .more next →
        (scanArgument next rest).isSome = true := by
      intro ends scan next more
      rcases getLast_tail ends with ⟨_, null⟩ | ends
      · exact absurd null (step_ne_null more)
      · exact inductionHypothesis.2 next ends
    constructor
    · rintro comment (none | ends)
      · exact absurd none (List.cons_ne_nil _ _)
      unfold scanArguments
      split
      · rfl
      · exact between ends false
      · exact between ends false
      · exact between ends comment
      · exact between ends comment
      · exact between ends comment
      · exact between ends true
      · split
        · exact between ends comment
        · split
          · rename_i more
            rw [Option.isSome_map]
            exact inside ends _ _ more
          · rw [Option.isSome_map]
            exact between ends comment
          · rfl
    · intro scan ends
      unfold scanArgument
      split
      · rename_i more
        exact inside ends _ _ more
      · rw [Option.isSome_map]
        exact between ends false
      · rfl

namespace Environment

variable (env : Environment)

/-- The arguments of a file are read. -/
theorem contents_isSome {name : Arg} (found : (env.lookup name).isSome = true) :
    (contents env.lookup ('@' :: name)).isSome = true := by
  obtain ⟨buffer, held⟩ := Option.isSome_iff_exists.mp found
  show ((env.lookup name).bind insertArgumentsFromResponse).isSome = true
  rw [held]
  exact (scan_isSome buffer).1 false (Or.inr (env.terminated name buffer held))

/-- An argument that has contents refers to a name. -/
theorem refers_of_expandArg {arg : Arg} {items : List Arg}
    (expanded : expandArg env.lookup arg = some items) :
    ∃ name, arg = '@' :: name ∧ (env.lookup name).isSome = true ∧
      ∀ other, '@' :: other ∈ items → Refers env.lookup name other := by
  unfold expandArg at expanded
  obtain ⟨found, held, rfl⟩ := Option.map_eq_some_iff.mp expanded
  unfold contents at held
  split at held
  · rename_i name
    obtain ⟨buffer, looked, read⟩ := Option.bind_eq_some_iff.mp held
    exact ⟨name, rfl, Option.isSome_iff_exists.mpr ⟨buffer, looked⟩,
      fun other member => ⟨buffer, found, looked, read, member⟩⟩
  · exact absurd held.symm (Option.some_ne_none _)

/-- No chain of references is endless. -/
theorem refers_wellFounded : WellFounded fun other name => Refers env.lookup name other := by
  have irreflexive : Std.Irrefl fun other name => Relation.TransGen (Refers env.lookup) name other :=
    ⟨env.acyclic⟩
  have transitive : IsTrans Arg fun other name =>
      Relation.TransGen (Refers env.lookup) name other :=
    ⟨fun _ _ _ first second => second.trans first⟩
  have strict : IsStrictOrder Arg fun other name =>
    Relation.TransGen (Refers env.lookup) name other := ⟨⟩
  have ordered := Set.wellFoundedOn_iff.mp (env.finite.wellFoundedOn
    (r := fun other name => Relation.TransGen (Refers env.lookup) name other))
  have found : ∀ {name other}, Refers env.lookup name other → (env.lookup name).isSome = true :=
    fun ⟨buffer, _, looked, _⟩ => Option.isSome_iff_exists.mpr ⟨buffer, looked⟩
  refine ⟨fun name => ordered.induction name fun name inductionHypothesis => ?_⟩
  refine Acc.intro name fun other refers => ?_
  by_cases goesOn : (env.lookup other).isSome = true
  · exact inductionHypothesis other ⟨.single refers, goesOn, found refers⟩
  · exact Acc.intro other fun _ refers' => absurd (found refers') goesOn

/-- No nesting of arguments is endless. -/
theorem inside_wellFounded : WellFounded (Inside (expandArg env.lookup)) := by
  have reference : ∀ name, Acc (Inside (expandArg env.lookup)) ('@' :: name) := by
    intro name
    induction name using env.refers_wellFounded.induction with
    | h name inductionHypothesis =>
      refine Acc.intro _ fun inner ⟨items, expanded, member⟩ => ?_
      obtain ⟨_, same, _, refers⟩ := env.refers_of_expandArg expanded
      obtain ⟨_, rfl⟩ := List.cons.inj same
      refine Acc.intro inner fun innermost ⟨items', expanded', member'⟩ => ?_
      obtain ⟨other, rfl, _, _⟩ := env.refers_of_expandArg expanded'
      exact (inductionHypothesis other (refers other member)).inv ⟨items', expanded', member'⟩
  refine ⟨fun arg => Acc.intro arg fun inner ⟨items, expanded, member⟩ => ?_⟩
  obtain ⟨name, rfl, _, _⟩ := env.refers_of_expandArg expanded
  exact (reference name).inv ⟨items, expanded, member⟩

/-! ### Passes -/

variable {env}

theorem Resolves.append {a b : List Arg} (resolves : env.Resolves (a ++ b)) :
    env.Resolves a ∧ env.Resolves b := by
  constructor
  · intro name referenced
    refine resolves name ?_
    induction referenced with
    | argument member => exact .argument (List.mem_append_left _ member)
    | nested _ refers inductionHypothesis => exact .nested inductionHypothesis refers
  · intro name referenced
    refine resolves name ?_
    induction referenced with
    | argument member => exact .argument (List.mem_append_right _ member)
    | nested _ refers inductionHypothesis => exact .nested inductionHypothesis refers

theorem Resolves.pass {args : List Arg} (resolves : env.Resolves args) :
    env.Resolves (pass (expandArg env.lookup) args) := by
  intro name referenced
  refine resolves name ?_
  induction referenced with
  | @argument name member =>
    obtain ⟨arg, inArgs, inItems⟩ := List.mem_flatMap.mp member
    cases expanded : expandArg env.lookup arg with
    | none =>
      rw [expanded, Option.getD_none, List.mem_singleton] at inItems
      exact .argument (inItems ▸ inArgs)
    | some items =>
      rw [expanded, Option.getD_some] at inItems
      obtain ⟨outer, rfl, _, refers⟩ := env.refers_of_expandArg expanded
      exact .nested (.argument inArgs) (refers name inItems)
  | nested _ refers inductionHypothesis => exact .nested inductionHypothesis refers

/-- The contents of an argument have another response argument. -/
def flag (env : Environment) (arg : Arg) : Bool :=
  ((contents env.lookup arg).map Prod.snd).getD false

/-- A pass puts the contents of all files in the place of the arguments that name them. -/
theorem expandPass_eq (rest : List Arg) :
    ∀ (before : List Arg) (recurse : Bool), (∀ name, '@' :: name ∈ rest →
      (env.lookup name).isSome = true) →
      expandPass env.lookup before rest recurse =
        .success (before ++ pass (expandArg env.lookup) rest, rest.any (flag env) || recurse) := by
  induction rest with
  | nil =>
    intro before recurse _
    show Expansion.success (before, recurse) = .success (before ++ [], false || recurse)
    rw [List.append_nil, Bool.false_or]
  | cons cp rest inductionHypothesis =>
    intro before recurse found
    have foundRest : ∀ name, '@' :: name ∈ rest → (env.lookup name).isSome = true :=
      fun name member => found name (List.mem_cons_of_mem _ member)
    show _ = Expansion.success (before ++ ((expandArg env.lookup cp).getD [cp] ++ pass _ rest),
      (flag env cp || rest.any (flag env)) || recurse)
    rw [← List.append_assoc]
    unfold expandPass
    by_cases reference : cp.head? = some '@'
    · obtain ⟨name, rfl⟩ : ∃ name, cp = '@' :: name := by
        cases cp with
        | nil => exact absurd reference.symm (Option.some_ne_none _)
        | cons first name => exact ⟨name, by rw [Option.some.inj reference]⟩
      obtain ⟨⟨inserted, more⟩, held⟩ :=
        Option.isSome_iff_exists.mp (env.contents_isSome (found name List.mem_cons_self))
      have expanded : expandArg env.lookup ('@' :: name) = some inserted := by
        unfold expandArg
        rw [held]
        rfl
      have flagged : flag env ('@' :: name) = more := by
        unfold flag
        rw [held]
        rfl
      obtain ⟨buffer, looked, read⟩ := Option.bind_eq_some_iff.mp held
      rw [if_neg (not_not.mpr reference), List.tail_cons]
      simp only [looked, read]
      show expandPass env.lookup (before ++ inserted) rest (more || recurse) = _
      rw [inductionHypothesis _ _ foundRest, expanded, flagged, Option.getD_some,
        Bool.or_comm more (rest.any _), Bool.or_assoc]
    · have leaf : contents env.lookup cp = none := by
        unfold contents
        split
        · exact absurd rfl reference
        · rfl
      have expanded : expandArg env.lookup cp = none := by
        unfold expandArg
        rw [leaf]
        rfl
      have flagged : flag env cp = false := by
        unfold flag
        rw [leaf]
        rfl
      rw [if_pos reference, inductionHypothesis _ _ foundRest, expanded, flagged, Option.getD_none,
        Bool.false_or]

/-- The flag of a pass is that of the files at the first depth. -/
theorem any_flag (args : List Arg) : args.any (flag env) = env.goesOn args 0 := by
  show _ = (args.filter fun arg => (expandArg env.lookup arg).isSome).any (flag env)
  rw [List.any_filter]
  refine congrArg (args.any ·) (funext fun arg => ?_)
  unfold flag expandArg
  cases contents env.lookup arg <;> simp

theorem goesOn_pass (args : List Arg) (depth : Nat) :
    env.goesOn (PassExpansion.pass (expandArg env.lookup) args) depth =
      env.goesOn args (depth + 1) := by
  unfold Environment.goesOn Environment.nested
  rw [nested_pass]

/-- The passes end at the depth where they stop, with what is there after one more. -/
theorem responseExpandFrom_eq {depth : Nat} : ∀ {args : List Arg} {fuel : Nat},
    env.Resolves args → env.StopsAt args depth → depth < fuel →
      responseExpandFrom env.lookup fuel args =
        .success ((PassExpansion.pass (expandArg env.lookup))^[depth + 1] args) := by
  induction depth with
  | zero =>
    rintro args fuel resolves ⟨stops, _⟩ enough
    obtain ⟨fuel, rfl⟩ := Nat.exists_eq_succ_of_ne_zero (Nat.ne_of_gt enough)
    unfold responseExpandFrom
    rw [expandPass_eq args [] false fun name member => resolves name (.argument member), any_flag,
      stops]
    rfl
  | succ depth inductionHypothesis =>
    rintro args fuel resolves ⟨stops, goesOn⟩ enough
    obtain ⟨fuel, rfl⟩ := Nat.exists_eq_succ_of_ne_zero (Nat.ne_of_gt (Nat.zero_lt_of_lt enough))
    unfold responseExpandFrom
    rw [expandPass_eq args [] false fun name member => resolves name (.argument member), any_flag,
      goesOn 0 (Nat.zero_lt_succ _), List.nil_append]
    refine inductionHypothesis resolves.pass ⟨?_, fun less bound => ?_⟩
      (Nat.lt_of_succ_lt_succ enough)
    · rw [goesOn_pass]
      exact stops
    · rw [goesOn_pass]
      exact goesOn (less + 1) (Nat.succ_lt_succ bound)

/-- The passes do not end before the depth where they stop. -/
theorem responseExpandFrom_endless {fuel : Nat} : ∀ {args : List Arg}, env.Resolves args →
    (∀ less < fuel, env.goesOn args less = true) →
      responseExpandFrom env.lookup fuel args = .endless := by
  induction fuel with
  | zero => exact fun _ _ => rfl
  | succ fuel inductionHypothesis =>
    intro args resolves goesOn
    unfold responseExpandFrom
    rw [expandPass_eq args [] false fun name member => resolves name (.argument member), any_flag,
      goesOn 0 (Nat.zero_lt_succ _), List.nil_append]
    refine inductionHypothesis resolves.pass fun less bound => ?_
    rw [goesOn_pass]
    exact goesOn (less + 1) (Nat.succ_lt_succ bound)

/-! ### Where the passes end -/

/-- The passes end. -/
theorem exists_stopsAt (args : List Arg) : ∃ depth, env.StopsAt args depth := by
  obtain ⟨weight, isWeight⟩ := exists_weight _ env.inside_wellFounded
  have stops : ∃ depth, env.goesOn args depth = false := by
    refine ⟨(args.map weight).sum, ?_⟩
    unfold Environment.goesOn Environment.nested
    rw [nested_eq_nil isWeight le_rfl]
    rfl
  refine ⟨Nat.find stops, Nat.find_spec stops, fun less bound => ?_⟩
  rw [← Bool.not_eq_false]
  exact Nat.find_min stops bound

theorem StopsAt.le {args : List Arg} {depth other : Nat} (stops : env.StopsAt args depth)
    (ends : env.goesOn args other = false) : depth ≤ other := by
  by_contra later
  rw [stops.2 other (not_le.mp later)] at ends
  exact absurd ends Bool.noConfusion

theorem StopsAt.unique {args : List Arg} {depth other : Nat} (stops : env.StopsAt args depth)
    (stops' : env.StopsAt args other) : depth = other :=
  Nat.le_antisymm (stops.le stops'.1) (stops'.le stops.1)

/-- The expansion is what is there after the last pass. -/
theorem expands_iff {args : List Arg} (resolves : env.Resolves args) {depth : Nat}
    (stops : env.StopsAt args depth) (result : List Arg) :
    env.Expands args result ↔
      result = (PassExpansion.pass (expandArg env.lookup))^[depth + 1] args := by
  constructor
  · rintro ⟨fuel, ends⟩
    by_cases enough : depth < fuel
    · rw [responseExpandFrom_eq resolves stops enough] at ends
      exact (Expansion.success.inj ends).symm
    · rw [responseExpandFrom_endless resolves fun less bound =>
        stops.2 less (Nat.lt_of_lt_of_le bound (not_lt.mp enough))] at ends
      exact absurd ends (by simp)
  · rintro rfl
    exact ⟨depth + 1, responseExpandFrom_eq resolves stops (Nat.lt_succ_self depth)⟩

theorem goesOn_append (a b : List Arg) (depth : Nat) :
    env.goesOn (a ++ b) depth = (env.goesOn a depth || env.goesOn b depth) := by
  unfold Environment.goesOn Environment.nested
  rw [nested_append, List.any_append]

/-- Where no references are left, the passes would not go on. -/
theorem goesOn_of_not_leaves {args : List Arg} {depth later : Nat}
    (leaves : ¬env.Leaves args depth) (deeper : depth < later) :
    env.goesOn args later = false := by
  have none : env.nested later args = [] :=
    nested_eq_nil_of_le _ (Nat.succ_le_of_lt deeper) (not_not.mp leaves)
  unfold Environment.goesOn
  rw [none]
  rfl

/-- The passes over both parts end where those over each part do, or where they would have nothing
to expand, exactly when neither part leaves references that the other goes beyond. -/
theorem independent_iff {a b : List Arg} {m n k : Nat} (stopsA : env.StopsAt a m)
    (stopsB : env.StopsAt b n) (stops : env.StopsAt (a ++ b) k) :
    ((k = m ∨ ¬env.Leaves a m) ∧ (k = n ∨ ¬env.Leaves b n)) ↔ env.Independent a b := by
  have ends := stops.1
  rw [goesOn_append, Bool.or_eq_false_iff] at ends
  have laterA := stopsA.le ends.1
  have laterB := stopsB.le ends.2
  constructor
  · rintro ⟨left, right⟩ m' n' stopsA' stopsB'
    obtain rfl := stopsA.unique stopsA'
    obtain rfl := stopsB.unique stopsB'
    constructor
    · intro leaves
      rw [← left.resolve_right (not_not.mpr leaves)]
      exact laterB
    · intro leaves
      rw [← right.resolve_right (not_not.mpr leaves)]
      exact laterA
  · intro independent
    obtain ⟨left, right⟩ := independent m n stopsA stopsB
    have endsAt : ∀ depth, m ≤ depth → n ≤ depth → (m = depth ∨ ¬env.Leaves a m) →
        (n = depth ∨ ¬env.Leaves b n) → k ≤ depth := by
      intro depth belowA belowB caseA caseB
      refine stops.le ?_
      rw [goesOn_append, Bool.or_eq_false_iff]
      constructor
      · rcases Nat.eq_or_lt_of_le belowA with same | less
        · exact same ▸ stopsA.1
        · exact goesOn_of_not_leaves (caseA.resolve_left (Nat.ne_of_lt less)) less
      · rcases Nat.eq_or_lt_of_le belowB with same | less
        · exact same ▸ stopsB.1
        · exact goesOn_of_not_leaves (caseB.resolve_left (Nat.ne_of_lt less)) less
    constructor
    · by_cases leaves : env.Leaves a m
      · refine Or.inl (Nat.le_antisymm (endsAt m le_rfl (left leaves) (Or.inl rfl) ?_) laterA)
        by_cases leavesB : env.Leaves b n
        · exact Or.inl (Nat.le_antisymm (left leaves) (right leavesB))
        · exact Or.inr leavesB
      · exact Or.inr leaves
    · by_cases leaves : env.Leaves b n
      · refine Or.inl (Nat.le_antisymm (endsAt n (right leaves) le_rfl ?_ (Or.inl rfl)) laterB)
        by_cases leavesA : env.Leaves a m
        · exact Or.inl (Nat.le_antisymm (right leaves) (left leavesA))
        · exact Or.inr leavesA
      · exact Or.inr leaves

end Environment

/-! ### Lists of arguments and their parts -/

/-- The expansion of two lists of arguments that are all resolved ends, and it is that of the first
followed by that of the second exactly when neither leaves references in quotes at the depth where
its passes end while those over the other go on. -/
theorem responseExpandFrom_append (env : Environment) (a b : List Arg)
    (resolves : env.Resolves (a ++ b)) : ∃ expandedA expandedB expanded,
      (∀ result, env.Expands a result ↔ result = expandedA) ∧
      (∀ result, env.Expands b result ↔ result = expandedB) ∧
      (∀ result, env.Expands (a ++ b) result ↔ result = expanded) ∧
      (expanded = expandedA ++ expandedB ↔ env.Independent a b) := by
  have exists_depth : ∀ args, ∃ depth, env.StopsAt args depth := Environment.exists_stopsAt
  obtain ⟨m, stopsA⟩ := exists_depth a
  obtain ⟨n, stopsB⟩ := exists_depth b
  obtain ⟨k, stops⟩ := exists_depth (a ++ b)
  refine ⟨_, _, _, Environment.expands_iff resolves.append.1 stopsA,
    Environment.expands_iff resolves.append.2 stopsB, Environment.expands_iff resolves stops, ?_⟩
  have ends := stops.1
  rw [Environment.goesOn_append, Bool.or_eq_false_iff] at ends
  obtain ⟨s, rfl⟩ := Nat.exists_eq_add_of_le (stopsA.le ends.1)
  obtain ⟨t, same⟩ := Nat.exists_eq_add_of_le (stopsB.le ends.2)
  have further : ∀ depth count args, (pass (expandArg env.lookup))^[depth + count + 1] args =
      (pass (expandArg env.lookup))^[count] ((pass (expandArg env.lookup))^[depth + 1] args) := by
    intro depth count args
    rw [← Function.iterate_add_apply]
    exact congrArg (fun number => (pass (expandArg env.lookup))^[number] args) (by omega)
  obtain ⟨weight, isWeight⟩ := exists_weight _ env.inside_wellFounded
  rw [← Environment.independent_iff stopsA stopsB stops, iterate_append, further m s a, same,
    further n t b, iterate_append_eq_iff isWeight, references_iterate, references_iterate]
  refine and_congr (or_congr ?_ not_not.symm) (or_congr ?_ not_not.symm)
  · omega
  · omega

/-- Two of the files of the test, and one that names one of them in quotes. -/
def quotedLookup (name : Arg) : Option (List Char) :=
  if name = "Quoted".toList then some "\"@Nil\"\x00".toList
  else if name = "Bar".toList then some "bar @Nil\x00".toList
  else if name = "Nil".toList then some "\x00".toList
  else none

theorem quotedLookup_some {name : Arg} {buffer : List Char}
    (held : quotedLookup name = some buffer) :
    (name = "Quoted".toList ∧ buffer = "\"@Nil\"\x00".toList) ∨
      (name = "Bar".toList ∧ buffer = "bar @Nil\x00".toList) ∨
        (name = "Nil".toList ∧ buffer = "\x00".toList) := by
  unfold quotedLookup at held
  split at held
  · exact Or.inl ⟨‹_›, (Option.some.inj held).symm⟩
  split at held
  · exact Or.inr (Or.inl ⟨‹_›, (Option.some.inj held).symm⟩)
  split at held
  · exact Or.inr (Or.inr ⟨‹_›, (Option.some.inj held).symm⟩)
  · exact absurd held.symm (Option.some_ne_none _)

/-- The files refer to the one that is empty. -/
theorem quotedLookup_refers {name other : Arg} (refers : Refers quotedLookup name other) :
    other = "Nil".toList ∧ name ≠ "Nil".toList := by
  obtain ⟨buffer, found, held, read, member⟩ := refers
  rcases quotedLookup_some held with ⟨rfl, rfl⟩ | ⟨rfl, rfl⟩ | ⟨rfl, rfl⟩
  · obtain rfl : (["@Nil".toList], false) = found :=
      Option.some.inj ((show insertArgumentsFromResponse _ = _ by decide).symm.trans read)
    exact ⟨List.cons.inj (List.mem_singleton.mp member) |>.2, by decide⟩
  · obtain rfl : (["bar".toList, "@Nil".toList], true) = found :=
      Option.some.inj ((show insertArgumentsFromResponse _ = _ by decide).symm.trans read)
    rcases List.mem_cons.mp member with first | second
    · exact absurd first (by simp)
    · exact ⟨List.cons.inj (List.mem_singleton.mp second) |>.2, by decide⟩
  · obtain rfl : (([] : List Arg), false) = found :=
      Option.some.inj ((show insertArgumentsFromResponse _ = _ by decide).symm.trans read)
    exact absurd member List.not_mem_nil

def quotedEnvironment : Environment where
  lookup := quotedLookup
  finite := by
    refine (List.finite_toSet ["Quoted".toList, "Bar".toList, "Nil".toList]).subset ?_
    intro name found
    obtain ⟨buffer, held⟩ := Option.isSome_iff_exists.mp found
    rcases quotedLookup_some held with ⟨rfl, _⟩ | ⟨rfl, _⟩ | ⟨rfl, _⟩ <;> simp
  terminated := by
    intro name buffer held
    rcases quotedLookup_some held with ⟨_, rfl⟩ | ⟨_, rfl⟩ | ⟨_, rfl⟩ <;> decide
  acyclic := by
    intro name cycle
    obtain ⟨_, _, last⟩ := Relation.TransGen.tail'_iff.mp cycle
    obtain ⟨_, first, _⟩ := Relation.TransGen.head'_iff.mp cycle
    exact (quotedLookup_refers first).2 (quotedLookup_refers last).1

theorem quotedEnvironment_resolves :
    quotedEnvironment.Resolves (["@Quoted".toList] ++ ["@Bar".toList]) := by
  intro name referenced
  cases referenced with
  | argument member =>
    rcases List.mem_cons.mp member with first | second
    · rw [(List.cons.inj first).2]
      rfl
    · rw [(List.cons.inj (List.mem_singleton.mp second)).2]
      rfl
  | nested _ refers =>
    rw [(quotedLookup_refers refers).1]
    rfl

/-- The argument in quotes is left when its file is expanded alone, and expanded after another file
whose argument is written without quotes. -/
theorem responseExpandFrom_quoted :
    quotedEnvironment.Resolves (["@Quoted".toList] ++ ["@Bar".toList]) ∧
      quotedEnvironment.Expands ["@Quoted".toList] ["@Nil".toList] ∧
      quotedEnvironment.Expands ["@Bar".toList] ["bar".toList] ∧
      quotedEnvironment.Expands (["@Quoted".toList] ++ ["@Bar".toList]) ["bar".toList] ∧
      ["bar".toList] ≠ ["@Nil".toList] ++ ["bar".toList] := by
  refine ⟨quotedEnvironment_resolves, ⟨1, ?_⟩, ⟨2, ?_⟩, ⟨2, ?_⟩, by decide⟩
  · decide
  · decide
  · decide

theorem responseExpandFrom_append_quoted : ∃ expandedA expandedB expanded,
      (∀ result, quotedEnvironment.Expands ["@Quoted".toList] result ↔ result = expandedA) ∧
      (∀ result, quotedEnvironment.Expands ["@Bar".toList] result ↔ result = expandedB) ∧
      (∀ result, quotedEnvironment.Expands (["@Quoted".toList] ++ ["@Bar".toList]) result ↔
        result = expanded) ∧
      (expanded = expandedA ++ expandedB ↔
        quotedEnvironment.Independent ["@Quoted".toList] ["@Bar".toList]) :=
  responseExpandFrom_append quotedEnvironment ["@Quoted".toList] ["@Bar".toList]
    quotedEnvironment_resolves

end LaserD.Root.Response
