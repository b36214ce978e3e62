/-
This file models `st_foreach` and proves which entries it visits.

The callback may call back into the table at every visit. What it does in an iteration is a
list of visits, each with the calls it makes and the action it returns. After a visit under
which the number of rebuilds changed, the loop searches for the key of the current entry
and goes on behind it. When the entry is gone, the index becomes the reserved value that
no bound exceeds, and the iteration ends, whatever is left.

The keys of a table fall into those behind the index and those before it. A visit whose
calls do not rebuild the table keeps both parts, up to the keys that are removed and the new
ones at the end, and so does one that rebuilds it and keeps the current entry.
-/

import LaserD.Hash.Refinement

namespace LaserD.Hash

/-! ### Iteration -/

/-- The actions of an iteration callback; all that continue the iteration are one. -/
inductive ForeachAction where
  | cont | stop | delete | other
  deriving Repr, DecidableEq

/-- What a callback does at one visit. -/
structure Visit where
  calls : List Reentry
  action : ForeachAction
  deriving Repr, DecidableEq

/-- What happened at a visit: the key it was for, the keys its calls removed, whether they
rebuilt the table, whether the number of rebuilds was another one afterwards, and the keys
its action removed. -/
structure Visited where
  key : Word
  removed : List Word
  rebuilt : Bool
  noticed : Bool
  dropped : List Word
  deriving Repr, DecidableEq

/-- How an iteration goes on after a visit. -/
inductive Next where
  | finish (code : Int)
  | goOn (index : Nat)
  deriving Repr, DecidableEq

section Iteration

variable (type : HashType) (call : Comparison) (fuel : Nat)

/-- The key a deletion removed. -/
def Deleted.removed (deleted : Deleted) : List Word := if deleted.code = 1 then [deleted.key] else []

/-- One call of a callback, and the keys it removes. -/
def callBack (reentry : Reentry) (state : State) : Option (List Word × State) :=
  match reentry with
  | .insert key value => do
    let (_, state) ← stInsert type call fuel key value state
    return ([], state)
  | .delete key => do
    let (deleted, state) ← stDelete type call fuel key state
    return (deleted.removed, state)
  | .lookup key => do
    let (_, state) ← stLookup type call fuel key state
    return ([], state)

/-- The calls of a callback, the keys they remove, and whether one rebuilds the table. -/
def callAll : List Reentry → State → Option (List Word × Bool × State)
  | [], state => some ([], false, state)
  | reentry :: rest, state => do
    let (removed, middle) ← callBack type call fuel reentry state
    let (others, rebuilt, after) ← callAll rest middle
    return (removed ++ others,
      decide (state.table.rebuildsNum ≠ middle.table.rebuildsNum) || rebuilt, after)

/-- The index of the current entry after its visit: it is searched for again when the number
of rebuilds changed. -/
def findCurrent (noticed : Bool) (index : Nat) (hash key : Word) (state : State) :
    Option (Nat × State) :=
  if noticed then searchLoop type call fuel hash key fuel state else some (index, state)

/-- One visit. -/
def visitEntry (visit : Visit) (index : Nat) (state : State) :
    Option (Visited × Next × State) := do
  let entry := state.storage.entries index
  let (removed, rebuilt, after) ← callAll type call fuel visit.calls state
  let noticed := decide (state.table.rebuildsNum ≠ after.table.rebuildsNum)
  let (index, after) ← findCurrent type call fuel noticed index entry.hash entry.key after
  let visited : Visited :=
    { key := entry.key, removed := removed, rebuilt := rebuilt, noticed := noticed, dropped := [] }
  if noticed && decide (index = noIndex) then return (visited, .goOn index, after)
  else
    match visit.action with
    | .stop => return (visited, .finish 0, after)
    | .other => return (visited, .finish 1, after)
    | .cont => return (visited, .goOn (index + 1), after)
    | .delete => do
      let (deleted, after) ← stDelete type call fuel entry.key after
      return ({ visited with dropped := deleted.removed }, .goOn (index + 1), after)

/-- The loop of `st_foreach`. When the visits are used up, the callback does nothing and
continues. -/
def foreachLoop : (rounds index : Nat) → List Visit → State →
    Option (Int × List Visited × State)
  | 0, _, _, _ => none
  | rounds + 1, index, visits, state =>
    if index < state.table.entriesBound then
      if (state.storage.entries index).hash ≠ deletedHash then do
        let (visited, next, after) ← visitEntry type call fuel
          (visits.headD { calls := [], action := .cont }) index state
        match next with
        | .finish code => return (code, [visited], after)
        | .goOn index => do
          let (code, rest, final) ← foreachLoop rounds index visits.tail after
          return (code, visited :: rest, final)
      else foreachLoop rounds (index + 1) visits state
    else some (0, [], state)

def stForeach (rounds : Nat) (visits : List Visit) (state : State) :
    Option (Int × List Visited × State) :=
  foreachLoop type call fuel rounds state.table.entriesStart visits state

end Iteration

/-! ### Keys behind and before an index -/

/-- The keys of the live entries among some indices. -/
def keysAt (state : State) (indices : List Nat) : List Word :=
  ((indices.map state.storage.entries).filter Entry.live).map Entry.key

/-- The keys behind an index. -/
def keysBelow (state : State) (index : Nat) : List Word := keysAt state (List.range index)

/-- The keys from an index on. -/
def keysFrom (state : State) (index : Nat) : List Word :=
  keysAt state (List.range' index (state.table.entriesBound - index))

/-- The keys of a table. -/
def keysOf (state : State) : List Word := state.contents.map Prod.fst

theorem keysAt_append (state : State) (first second : List Nat) :
    keysAt state (first ++ second) = keysAt state first ++ keysAt state second := by
  unfold keysAt
  rw [List.map_append, List.filter_append, List.map_append]

theorem keysAt_cons_live {state : State} {index : Nat} {indices : List Nat}
    (live : (state.storage.entries index).live = true) :
    keysAt state (index :: indices) = (state.storage.entries index).key :: keysAt state indices := by
  unfold keysAt
  rw [List.map_cons, List.filter_cons_of_pos live, List.map_cons]

theorem keysAt_cons_dead {state : State} {index : Nat} {indices : List Nat}
    (dead : (state.storage.entries index).live ≠ true) :
    keysAt state (index :: indices) = keysAt state indices := by
  unfold keysAt
  rw [List.map_cons, List.filter_cons_of_neg dead]

theorem keysAt_eq (state : State) (indices : List Nat) :
    keysAt state indices = (indices.filter fun index => (state.storage.entries index).live).map
      fun index => (state.storage.entries index).key := by
  unfold keysAt
  rw [List.filter_map, List.map_map]
  rfl

/-- Keys are read off which entries are live, and off their keys. -/
theorem keysAt_congr {before after : State} {indices : List Nat}
    (lives : ∀ index ∈ indices,
      (after.storage.entries index).live = (before.storage.entries index).live)
    (keys : ∀ index ∈ indices,
      (after.storage.entries index).key = (before.storage.entries index).key) :
    keysAt after indices = keysAt before indices := by
  rw [keysAt_eq, keysAt_eq, List.filter_congr lives]
  exact List.map_congr_left fun index member => keys index (List.mem_of_mem_filter member)

theorem keysOf_eq (state : State) : keysOf state = keysBelow state state.table.entriesBound := by
  unfold keysOf State.contents contents keysBelow keysAt liveEntries segment
  rw [List.map_map]
  rfl

theorem keysOf_split {state : State} {index : Nat} (inside : index ≤ state.table.entriesBound) :
    keysOf state = keysBelow state index ++ keysFrom state index := by
  have joined := @List.range'_append_1 0 index (state.table.entriesBound - index)
  rw [Nat.zero_add, Nat.add_sub_cancel' inside] at joined
  rw [keysOf_eq]
  unfold keysBelow keysFrom
  rw [← keysAt_append, List.range_eq_range', List.range_eq_range', joined]

theorem keysBelow_succ {state : State} {index : Nat}
    (live : (state.storage.entries index).live = true) :
    keysBelow state (index + 1) = keysBelow state index ++ [(state.storage.entries index).key] := by
  unfold keysBelow
  rw [List.range_succ, keysAt_append, keysAt_cons_live live]
  rfl

theorem keysFrom_cons {state : State} {index : Nat} (inside : index < state.table.entriesBound)
    (live : (state.storage.entries index).live = true) :
    keysFrom state index = (state.storage.entries index).key :: keysFrom state (index + 1) := by
  unfold keysFrom
  have width : state.table.entriesBound - index = state.table.entriesBound - (index + 1) + 1 := by
    omega
  rw [width, List.range'_succ, keysAt_cons_live live]

theorem keysFrom_dead {state : State} {index : Nat} (inside : index < state.table.entriesBound)
    (dead : (state.storage.entries index).live ≠ true) :
    keysFrom state index = keysFrom state (index + 1) := by
  unfold keysFrom
  have width : state.table.entriesBound - index = state.table.entriesBound - (index + 1) + 1 := by
    omega
  rw [width, List.range'_succ, keysAt_cons_dead dead]

theorem keysBelow_dead {state : State} {index : Nat}
    (dead : (state.storage.entries index).live ≠ true) :
    keysBelow state (index + 1) = keysBelow state index := by
  unfold keysBelow
  rw [List.range_succ, keysAt_append, keysAt_cons_dead dead]
  exact List.append_nil _

/-- There are no keys from beyond the bound on. -/
theorem keysFrom_beyond {state : State} {index : Nat}
    (beyond : state.table.entriesBound ≤ index) : keysFrom state index = [] := by
  unfold keysFrom
  rw [Nat.sub_eq_zero_of_le beyond]
  rfl

variable {type : HashType} {fuel : Nat}

theorem keysOf_nodup (lawful : type.Lawful) {state : State} (ok : state.Ok type) :
    (keysOf state).Nodup := by
  unfold keysOf State.contents contents
  rw [List.map_map, List.Nodup, List.pairwise_map]
  refine ok.distinct.imp fun {first second} different same => different ?_
  have equal : first.key = second.key := same
  rw [equal]
  exact lawful.refl _

/-! ### What calls do to the keys -/

/-- Keys without the removed ones. -/
def without (removed keys : List Word) : List Word := keys.filter fun key => decide (key ∉ removed)

theorem without_nil (keys : List Word) : without [] keys = keys := by
  unfold without
  rw [List.filter_eq_self]
  exact fun key _ => decide_eq_true List.not_mem_nil

theorem without_append (removed first second : List Word) :
    without removed (first ++ second) = without removed first ++ without removed second :=
  List.filter_append _ _

theorem without_without (first second keys : List Word) :
    without second (without first keys) = without (first ++ second) keys := by
  unfold without
  rw [List.filter_filter]
  refine List.filter_congr fun key _ => ?_
  rw [← Bool.decide_and]
  refine decide_eq_decide.mpr ?_
  rw [List.mem_append, not_or]
  exact and_comm

/-- What calls back into a table do: keys are removed and new ones appended, and as long as
the table is not rebuilt, the others stay where they are. -/
structure Evolves (type : HashType) (calls : Nat) (removed : List Word) (rebuilt : Bool)
    (before after : State) : Prop where
  ok : after.Ok type
  bound : after.table.entriesBound ≤ before.table.entriesBound + calls
  keys : ∃ added, keysOf after = without removed (keysOf before) ++ added
  rebuilds : rebuilt = false → after.table.rebuildsNum = before.table.rebuildsNum
  grows : rebuilt = false → before.table.entriesBound ≤ after.table.entriesBound
  below : rebuilt = false → ∀ index ≤ before.table.entriesBound,
    keysBelow after index = without removed (keysBelow before index)

theorem Evolves.refl {state : State} (ok : state.Ok type) : Evolves type 0 [] false state state where
  ok := ok
  bound := Nat.le_refl _
  keys := ⟨[], by rw [without_nil, List.append_nil]⟩
  rebuilds _ := rfl
  grows _ := Nat.le_refl _
  below _ index _ := (without_nil _).symm

theorem Evolves.trans {firstCalls secondCalls : Nat} {firstRemoved secondRemoved : List Word}
    {firstRebuilt secondRebuilt : Bool} {before middle after : State}
    (first : Evolves type firstCalls firstRemoved firstRebuilt before middle)
    (second : Evolves type secondCalls secondRemoved secondRebuilt middle after) :
    Evolves type (firstCalls + secondCalls) (firstRemoved ++ secondRemoved)
      (firstRebuilt || secondRebuilt) before after where
  ok := second.ok
  bound := by
    have := first.bound
    have := second.bound
    omega
  keys := by
    obtain ⟨firstAdded, firstKeys⟩ := first.keys
    obtain ⟨secondAdded, secondKeys⟩ := second.keys
    refine ⟨without secondRemoved firstAdded ++ secondAdded, ?_⟩
    rw [secondKeys, firstKeys, without_append, without_without, List.append_assoc]
  rebuilds neither := by
    obtain ⟨firstNot, secondNot⟩ := Bool.or_eq_false_iff.mp neither
    rw [second.rebuilds secondNot, first.rebuilds firstNot]
  grows neither := by
    obtain ⟨firstNot, secondNot⟩ := Bool.or_eq_false_iff.mp neither
    exact Nat.le_trans (first.grows firstNot) (second.grows secondNot)
  below neither index inside := by
    obtain ⟨firstNot, secondNot⟩ := Bool.or_eq_false_iff.mp neither
    rw [second.below secondNot index (Nat.le_trans inside (first.grows firstNot)),
      first.below firstNot index inside, without_without]

/-- A rebuild changes the number of rebuilds. -/
theorem Rebuilt.noticed {before after : State} (rebuilt : Rebuilt type before after) :
    after.table.rebuildsNum ≠ before.table.rebuildsNum := by
  rw [rebuilt.rebuilds]
  omega

/-- An insertion that does not rebuild the table keeps the keys where they are. -/
theorem ChangesOne.keeps {before after : State} (changes : ChangesOne type before after)
    (same : after.table.rebuildsNum = before.table.rebuildsNum) :
    before.table.entriesBound ≤ after.table.entriesBound ∧
      ∀ index ≤ before.table.entriesBound, keysBelow after index = keysBelow before index := by
  rcases changes with refused | ⟨roomy, isRoomy, change⟩
  · refine ⟨(congrArg Table.entriesBound refused.table).ge, fun index _ => ?_⟩
    refine keysAt_congr (fun _ _ => ?_) fun _ _ => ?_
    · rw [refused.storage]
    · rw [refused.storage]
  · have unchanged : roomy = before := by
      refine isRoomy.step.resolve_right fun rebuilt => rebuilt.noticed ?_
      rcases change with ⟨index, value, rfl⟩ | ⟨entry, bin, rfl⟩
      · exact same
      · exact same
    rw [unchanged] at change
    rcases change with ⟨place, value, rfl⟩ | ⟨entry, bin, rfl⟩
    · have entries : ∀ index,
          ((setRecord place value before).storage.entries index).hash =
              (before.storage.entries index).hash ∧
            ((setRecord place value before).storage.entries index).key =
              (before.storage.entries index).key := by
        intro index
        show (Function.update before.storage.entries place _ index).hash = _ ∧
          (Function.update before.storage.entries place _ index).key = _
        rw [Function.update_apply]
        by_cases isPlace : index = place
        · rw [if_pos isPlace, isPlace]
          exact ⟨rfl, rfl⟩
        · rw [if_neg isPlace]
          exact ⟨rfl, rfl⟩
      refine ⟨Nat.le_refl _, fun index _ => keysAt_congr (fun other _ => ?_) fun other _ => ?_⟩
      · unfold Entry.live
        rw [(entries other).1]
      · exact (entries other).2
    · have entries : (appendEntry entry bin before).storage.entries =
          Function.update before.storage.entries before.table.entriesBound entry := by
        unfold appendEntry
        dsimp only
        split_ifs <;> rfl
      have old : ∀ index ≤ before.table.entriesBound, ∀ other ∈ List.range index,
          (appendEntry entry bin before).storage.entries other =
            before.storage.entries other := by
        intro index inside other member
        rw [entries]
        have less := List.mem_range.mp member
        exact Function.update_of_ne (by omega) _ _
      refine ⟨Nat.le_succ _, fun index inside => ?_⟩
      refine keysAt_congr (fun other member => ?_) fun other member => ?_
      · rw [old index inside other member]
      · rw [old index inside other member]

/-- An insertion makes the entries longer by at most one. -/
theorem ChangesOne.bound_le {before after : State} (changes : ChangesOne type before after) :
    after.table.entriesBound ≤ before.table.entriesBound + 1 := by
  rcases changes with refused | ⟨roomy, isRoomy, change⟩
  · rw [refused.table]
    exact Nat.le_succ _
  · have roomyBound : roomy.table.entriesBound ≤ before.table.entriesBound := by
      rcases isRoomy.step with rfl | rebuilt
      · exact Nat.le_refl _
      · exact rebuilt.bound
    rcases change with ⟨index, value, rfl⟩ | ⟨entry, bin, rfl⟩
    · exact Nat.le_succ_of_le roomyBound
    · exact Nat.succ_le_succ roomyBound

theorem insert_evolves (lawful : type.Lawful) (enough : searchRounds ≤ fuel) {before : State}
    (ok : before.Ok type) (key value : Word) :
    ∃ code after, stInsert type quiet fuel key value before = some (code, after) ∧
      Evolves type 1 [] (decide (before.table.rebuildsNum ≠ after.table.rebuildsNum))
        before after := by
  obtain ⟨code, after, inserted, ⟨afterOk, outcome⟩, changes⟩ :=
    @insertLoop_quiet type fuel lawful key key value (Or.inl rfl) before ok enough
  refine ⟨code, after, inserted, afterOk, changes.bound_le, ?_, ?_, ?_, ?_⟩
  · rw [without_nil]
    rcases outcome with ⟨_, refused⟩ | ⟨_, inserts⟩
    · refine ⟨[], ?_⟩
      unfold keysOf
      rw [refused.contents_eq, List.append_nil]
    · unfold keysOf
      rw [inserts]
      exact AssociationList.insert_keys _ _ _ _
  · exact fun same => (not_not.mp (of_decide_eq_false same)).symm
  · exact fun same => (changes.keeps (not_not.mp (of_decide_eq_false same)).symm).1
  · intro same index inside
    rw [without_nil]
    exact (changes.keeps (not_not.mp (of_decide_eq_false same)).symm).2 index inside

/-- A deletion keeps the other keys where they are. -/
theorem MarksOne.below (lawful : type.Lawful) {before after : State} (ok : before.Ok type)
    {key : Word} {deleted : Deleted} (marks : MarksOne type key before deleted after) :
    after.table.entriesBound = before.table.entriesBound ∧
      after.table.rebuildsNum = before.table.rebuildsNum ∧
      ∀ index ≤ before.table.entriesBound,
        keysBelow after index = without deleted.removed (keysBelow before index) := by
  unfold Deleted.removed
  rcases marks with ⟨none, rfl⟩ | ⟨place, bin, present, one, stored, rfl⟩
  · rw [none, if_neg (by decide)]
    exact ⟨rfl, rfl, fun index _ => (without_nil _).symm⟩
  · rw [one, if_pos rfl, stored]
    have entries := deleteEntry_entries place bin before
    refine ⟨?_, ?_, fun index inside => ?_⟩
    · rw [deleteEntry_table]
    · rw [deleteEntry_table]
    · unfold keysBelow without
      rw [keysAt_eq, keysAt_eq, List.filter_map, List.filter_filter]
      have keys : ∀ other, ((deleteEntry place bin before).storage.entries other).key =
          (before.storage.entries other).key := by
        intro other
        rw [entries, Function.update_apply]
        by_cases isPlace : other = place
        · rw [if_pos isPlace, isPlace]
        · rw [if_neg isPlace]
      simp only [keys]
      congr 1
      refine List.filter_congr fun other member => ?_
      have less := List.mem_range.mp member
      rw [entries, Function.update_apply, Function.comp_apply]
      by_cases isPlace : other = place
      · rw [if_pos isPlace, isPlace, decide_eq_false (not_not.mpr (List.mem_singleton.mpr rfl))]
        rfl
      · rw [if_neg isPlace]
        cases live : (before.storage.entries other).live with
        | false => rw [Bool.and_false]
        | true =>
          rw [Bool.and_true]
          symm
          rw [decide_eq_true_iff]
          intro same
          refine isPlace ?_
          refine WellFormed.index_eq lawful ok (by omega) present.inside live present.live ?_
          rw [List.mem_singleton.mp same]
          exact lawful.refl _

theorem delete_evolves (lawful : type.Lawful) (enough : searchRounds ≤ fuel) {before : State}
    (ok : before.Ok type) (key : Word) :
    ∃ deleted after, stDelete type quiet fuel key before = some (deleted, after) ∧
      deleted = deletedFrom type key before.contents ∧
      Evolves type 0 deleted.removed false before after := by
  obtain ⟨deleted, after, performed, afterOk, returned, _, marks⟩ :=
    deleteLoop_quiet lawful ok enough key
  obtain ⟨bound, rebuilds, below⟩ := marks.below lawful ok
  refine ⟨deleted, after, performed, returned, afterOk, bound.le, ⟨[], ?_⟩, fun _ => rebuilds,
    fun _ => bound.ge, fun _ => below⟩
  rw [keysOf_eq, keysOf_eq, bound, below _ (Nat.le_refl _), List.append_nil]

theorem callBack_evolves (lawful : type.Lawful) (enough : searchRounds ≤ fuel) {before : State}
    (ok : before.Ok type) (reentry : Reentry) :
    ∃ removed after, callBack type quiet fuel reentry before = some (removed, after) ∧
      Evolves type 1 removed (decide (before.table.rebuildsNum ≠ after.table.rebuildsNum))
        before after := by
  cases reentry with
  | insert key value =>
    obtain ⟨code, after, inserted, evolves⟩ := insert_evolves lawful enough ok key value
    exact ⟨[], after, Option.bind_eq_some_iff.mpr ⟨_, inserted, rfl⟩, evolves⟩
  | delete key =>
    obtain ⟨deleted, after, performed, _, evolves⟩ := delete_evolves lawful enough ok key
    refine ⟨_, after, Option.bind_eq_some_iff.mpr ⟨_, performed, rfl⟩, ?_⟩
    rw [decide_eq_false (not_not.mpr (evolves.rebuilds rfl).symm)]
    exact { evolves with bound := Nat.le_succ_of_le evolves.bound }
  | lookup key =>
    have looked := @lookupWith_quiet type fuel lawful Entry.record Prod.snd (fun _ => rfl) before
      ok enough key
    refine ⟨[], before, Option.bind_eq_some_iff.mpr ⟨_, looked, rfl⟩, ?_⟩
    rw [decide_eq_false (not_not.mpr rfl)]
    exact { Evolves.refl ok with bound := Nat.le_succ _ }

theorem callAll_evolves (lawful : type.Lawful) (enough : searchRounds ≤ fuel) :
    ∀ (calls : List Reentry) {before : State}, before.Ok type →
      ∃ removed rebuilt after, callAll type quiet fuel calls before =
          some (removed, rebuilt, after) ∧
        Evolves type calls.length removed rebuilt before after := by
  intro calls
  induction calls with
  | nil => exact fun ok => ⟨[], false, _, rfl, Evolves.refl ok⟩
  | cons reentry rest inductionHypothesis =>
    intro before ok
    obtain ⟨removed, middle, called, first⟩ := callBack_evolves lawful enough ok reentry
    obtain ⟨others, rebuilt, after, calledRest, second⟩ := inductionHypothesis first.ok
    refine ⟨_, _, after, Option.bind_eq_some_iff.mpr ⟨_, called,
      Option.bind_eq_some_iff.mpr ⟨_, calledRest, rfl⟩⟩, ?_⟩
    rw [List.length_cons, Nat.add_comm]
    exact first.trans second

/-! ### One visit -/

/-- A visit that rebuilds the table changes the number of rebuilds and keeps the entry it is
for. -/
def Visited.Sound (visited : Visited) : Prop :=
  visited.rebuilt = true → visited.noticed = true ∧ visited.key ∉ visited.removed

/-- The keys that are removed at a visit. -/
def Visited.gone (visited : Visited) : List Word := visited.removed ++ visited.dropped

/-- The parts of the keys of a table around a place. -/
theorem split_unique {first second before after : List Word} {key : Word}
    (nodup : (first ++ key :: second).Nodup)
    (same : first ++ key :: second = before ++ key :: after) :
    first = before ∧ second = after := by
  have elsewhere := (List.nodup_cons.mp (List.nodup_middle.mp nodup)).1
  rw [List.mem_append, not_or] at elsewhere
  obtain ⟨isFirst, _, isSecond⟩ :=
    (List.append_cons_inj_of_notMem elsewhere.1 elsewhere.2).mp same
  exact ⟨isFirst, isSecond⟩

/-- Calls that do not rebuild the table keep both parts of the keys. -/
theorem Evolves.split {calls : Nat} {removed : List Word} {before after : State}
    (evolves : Evolves type calls removed false before after) {index : Nat}
    (inside : index ≤ before.table.entriesBound) :
    keysBelow after index = without removed (keysBelow before index) ∧
      ∃ added, keysFrom after index = without removed (keysFrom before index) ++ added := by
  have below := evolves.below rfl index inside
  obtain ⟨added, keys⟩ := evolves.keys
  refine ⟨below, added, ?_⟩
  rw [keysOf_split (Nat.le_trans inside (evolves.grows rfl)), keysOf_split inside, without_append,
    below, List.append_assoc] at keys
  exact List.append_cancel_left keys

/-- The keys around the entry of a key. -/
theorem keysOf_around {state : State} {index : Nat} (inside : index < state.table.entriesBound)
    (live : (state.storage.entries index).live = true) :
    keysOf state = keysBelow state index ++
      (state.storage.entries index).key :: keysFrom state (index + 1) := by
  rw [keysOf_split (Nat.le_of_lt inside), keysFrom_cons inside live]

theorem mem_keysOf {state : State} {key : Word} :
    key ∈ keysOf state ↔ ∃ index < state.table.entriesBound,
      (state.storage.entries index).live = true ∧ (state.storage.entries index).key = key := by
  unfold keysOf
  rw [List.mem_map]
  constructor
  · rintro ⟨element, member, rfl⟩
    obtain ⟨index, inside, live, rfl⟩ := mem_contents.mp member
    exact ⟨index, inside, live, rfl⟩
  · rintro ⟨index, inside, live, rfl⟩
    exact ⟨_, mem_contents.mpr ⟨index, inside, live, rfl⟩, rfl⟩

/-- A key that was not removed is still there. -/
theorem Evolves.mem {calls : Nat} {removed : List Word} {rebuilt : Bool} {before after : State}
    (evolves : Evolves type calls removed rebuilt before after) {key : Word}
    (member : key ∈ keysOf before) (kept : key ∉ removed) : key ∈ keysOf after := by
  obtain ⟨added, keys⟩ := evolves.keys
  rw [keys]
  exact List.mem_append_left _ (List.mem_filter.mpr ⟨member, decide_eq_true kept⟩)

/-- The search for a key that is there finds it, under the same key. -/
theorem Answers.key_eq (lawful : type.Lawful) {state : State} (ok : state.Ok type) {key : Word}
    {index : Nat} (answers : Answers type key state index) (member : key ∈ keysOf state) :
    Present type key state index ∧ (state.storage.entries index).key = key := by
  obtain ⟨place, inside, live, rfl⟩ := mem_keysOf.mp member
  have present := answers.resolve_left fun absent =>
    absent.2 place inside live (Or.inl rfl)
  refine ⟨present, ?_⟩
  rw [(present.compare_iff lawful ok inside live).mp (lawful.refl _)]

/-- Calls that keep an entry keep both parts of the keys around it. -/
theorem Evolves.around (lawful : type.Lawful) {calls : Nat} {removed : List Word} {rebuilt : Bool}
    {before after : State} (evolves : Evolves type calls removed rebuilt before after)
    {index place : Nat} {key : Word} (inside : index < before.table.entriesBound)
    (live : (before.storage.entries index).live = true)
    (isKey : (before.storage.entries index).key = key) (kept : key ∉ removed)
    (present : Present type key after place) (same : (after.storage.entries place).key = key) :
    keysBelow after (place + 1) = without removed (keysBelow before index ++ [key]) ∧
      ∃ added, keysFrom after (place + 1) =
        without removed (keysFrom before (index + 1)) ++ added := by
  obtain ⟨added, keys⟩ := evolves.keys
  have nodup := keysOf_nodup lawful evolves.ok
  have keptKey : without removed [key] = [key] := by
    unfold without
    rw [List.filter_eq_self]
    intro other member
    rw [List.mem_singleton.mp member]
    exact decide_eq_true kept
  rw [keysOf_around present.inside present.live, same] at nodup keys
  rw [keysOf_around inside live, isKey, without_append,
    show key :: keysFrom before (index + 1) = [key] ++ keysFrom before (index + 1) from rfl,
    without_append, keptKey, List.append_assoc, List.append_assoc, List.singleton_append] at keys
  obtain ⟨first, second⟩ := split_unique nodup keys
  refine ⟨?_, added, second⟩
  rw [keysBelow_succ present.live, same, first, without_append, keptKey]

/-- What is left of the keys behind and before an index when an iteration goes on. -/
def Advances (removed behind ahead : List Word) (after : State) (index : Nat) : Prop :=
  keysBelow after index = without removed behind ∧
    ∃ added, keysFrom after index = without removed ahead ++ added

theorem Advances.trans {calls : Nat} {firstRemoved secondRemoved behind ahead : List Word}
    {middle after : State} {index : Nat}
    (advances : Advances firstRemoved behind ahead middle index)
    (evolves : Evolves type calls secondRemoved false middle after)
    (inside : index ≤ middle.table.entriesBound) :
    Advances (firstRemoved ++ secondRemoved) behind ahead after index := by
  obtain ⟨below, added, before⟩ := advances
  obtain ⟨nextBelow, nextAdded, nextBefore⟩ := evolves.split inside
  refine ⟨?_, without secondRemoved added ++ nextAdded, ?_⟩
  · rw [nextBelow, below, without_without]
  · rw [nextBefore, before, without_append, without_without, List.append_assoc]

/-- After its calls, a visit goes on at the place of its entry. -/
theorem Evolves.located (lawful : type.Lawful) (enough : searchRounds ≤ fuel) {calls : Nat}
    {removed : List Word} {rebuilt : Bool} {before middle : State}
    (evolves : Evolves type calls removed rebuilt before middle) {index : Nat} {key : Word}
    (inside : index < before.table.entriesBound)
    (live : (before.storage.entries index).live = true)
    (isKey : (before.storage.entries index).key = key) :
    ∃ place, findCurrent type quiet fuel
        (decide (before.table.rebuildsNum ≠ middle.table.rebuildsNum)) index (doHash type key) key
        middle = some (place, middle) ∧
      ((rebuilt = true → before.table.rebuildsNum ≠ middle.table.rebuildsNum ∧ key ∉ removed) →
        place < middle.table.entriesBound ∧
          Advances removed (keysBelow before index ++ [key]) (keysFrom before (index + 1)) middle
            (place + 1)) := by
  unfold findCurrent
  by_cases noticed : before.table.rebuildsNum ≠ middle.table.rebuildsNum
  · rw [if_pos (decide_eq_true noticed)]
    obtain ⟨place, searched, answers⟩ := searchLoop_quiet lawful evolves.ok enough key
    refine ⟨place, searched, fun sound => ?_⟩
    have kept : key ∉ removed := by
      cases rebuilt with
      | true => exact (sound rfl).2
      | false => exact absurd (evolves.rebuilds rfl).symm noticed
    have member := evolves.mem (mem_keysOf.mpr ⟨index, inside, live, isKey⟩) kept
    obtain ⟨present, same⟩ := answers.key_eq lawful evolves.ok member
    exact ⟨present.inside, evolves.around lawful inside live isKey kept present same⟩
  · rw [if_neg fun isNoticed => noticed (of_decide_eq_true isNoticed)]
    refine ⟨index, rfl, fun sound => ?_⟩
    cases rebuilt with
    | true => exact absurd (sound rfl).1 noticed
    | false =>
      obtain ⟨below, added, before⟩ := evolves.split inside
      rw [keysBelow_succ live, isKey] at below
      exact ⟨Nat.lt_of_lt_of_le inside (evolves.grows rfl), below, added, before⟩

theorem visitEntry_spec (lawful : type.Lawful) (enough : searchRounds ≤ fuel) {before : State}
    (ok : before.Ok type) {index : Nat} (inside : index < before.table.entriesBound)
    (live : (before.storage.entries index).live = true) {visit : Visit}
    (goesOn : visit.action = .cont ∨ visit.action = .delete) :
    ∃ visited next after, visitEntry type quiet fuel visit index before =
        some (visited, .goOn next, after) ∧
      after.Ok type ∧ after.table.entriesBound ≤ before.table.entriesBound + visit.calls.length ∧
      visited.key = (before.storage.entries index).key ∧
      (∃ added, keysOf after = without visited.gone (keysOf before) ++ added) ∧
      (visited.Sound → Advances visited.gone
        (keysBelow before index ++ [(before.storage.entries index).key])
        (keysFrom before (index + 1)) after next) := by
  obtain ⟨removed, rebuilt, middle, called, evolves⟩ :=
    callAll_evolves lawful enough visit.calls ok
  have hash := WellFormed.hash_eq ok inside live
  obtain ⟨place, located, advances⟩ := evolves.located lawful enough inside live rfl
  unfold visitEntry
  rw [called, Option.bind_eq_bind, Option.bind_some]
  dsimp only
  rw [hash, located, Option.bind_eq_bind, Option.bind_some]
  dsimp only
  by_cases lost : (decide (before.table.rebuildsNum ≠ middle.table.rebuildsNum) &&
      decide (place = noIndex)) = true
  · rw [if_pos lost]
    refine ⟨_, _, middle, rfl, evolves.ok, evolves.bound, rfl, ?_, fun sound => ?_⟩
    · unfold Visited.gone
      rw [List.append_nil]
      exact evolves.keys
    have below := (advances fun isRebuilt =>
      ⟨of_decide_eq_true (sound isRebuilt).1, (sound isRebuilt).2⟩).1
    have small := evolves.ok.index_lt below
    rw [of_decide_eq_true (Bool.and_eq_true_iff.mp lost).2] at small
    exact absurd small (by decide)
  · rw [if_neg lost]
    rcases goesOn with isCont | isDelete
    · rw [isCont]
      unfold Visited.gone
      refine ⟨_, _, middle, rfl, evolves.ok, evolves.bound, rfl, ?_, fun sound => ?_⟩
      · rw [List.append_nil]
        exact evolves.keys
      · rw [List.append_nil]
        exact (advances fun isRebuilt =>
          ⟨of_decide_eq_true (sound isRebuilt).1, (sound isRebuilt).2⟩).2
    · rw [isDelete]
      obtain ⟨deleted, after, performed, _, evolvesOn⟩ :=
        delete_evolves lawful enough evolves.ok (before.storage.entries index).key
      refine ⟨_, _, after, Option.bind_eq_some_iff.mpr ⟨_, performed, rfl⟩, evolvesOn.ok, ?_, rfl,
        (evolves.trans evolvesOn).keys, fun sound => ?_⟩
      · have := evolves.bound
        have := evolvesOn.bound
        omega
      · obtain ⟨below, advancesTo⟩ := advances fun isRebuilt =>
          ⟨of_decide_eq_true (sound isRebuilt).1, (sound isRebuilt).2⟩
        exact advancesTo.trans evolvesOn below

/-! ### Which keys are visited -/

/-- Visits cover the keys ahead: those that are never removed are visited once each and in
order, and keys behind are visited only when they are removed. -/
structure Covers (visited removed behind ahead : List Word) : Prop where
  ahead : visited.filter (fun key => decide (key ∈ ahead ∧ key ∉ removed)) = without removed ahead
  behind : ∀ key ∈ visited, key ∈ behind → key ∈ removed

theorem mem_without {removed keys : List Word} {key : Word} :
    key ∈ without removed keys ↔ key ∈ keys ∧ key ∉ removed := by
  unfold without
  rw [List.mem_filter, decide_eq_true_iff]

/-- The later visits cover what was ahead, too. -/
theorem Covers.rest {visited gone later behind rest added : List Word}
    (nodup : (without gone rest ++ added).Nodup)
    (covers : Covers visited later behind (without gone rest ++ added)) :
    visited.filter (fun key => decide (key ∈ rest ∧ key ∉ gone ++ later)) =
      without (gone ++ later) rest := by
  have kept := congrArg (List.filter fun key => decide (key ∈ rest ∧ key ∉ gone)) covers.ahead
  rw [List.filter_filter, without_append, List.filter_append] at kept
  have none : (without later added).filter (fun key => decide (key ∈ rest ∧ key ∉ gone)) = [] := by
    rw [List.filter_eq_nil_iff]
    intro key member isKept
    have disjoint := (List.nodup_append.mp nodup).2.2
    exact disjoint key (mem_without.mpr (of_decide_eq_true isKept)) key (mem_without.mp member).1 rfl
  have all : (without later (without gone rest)).filter
      (fun key => decide (key ∈ rest ∧ key ∉ gone)) = without later (without gone rest) := by
    rw [List.filter_eq_self]
    intro key member
    exact decide_eq_true (mem_without.mp (mem_without.mp member).1)
  rw [none, all, List.append_nil, without_without] at kept
  rw [← kept]
  refine List.filter_congr fun key _ => ?_
  rw [← Bool.decide_and]
  refine decide_eq_decide.mpr ?_
  rw [List.mem_append, List.mem_append, mem_without, not_or]
  constructor
  · rintro ⟨inRest, notGone, notLater⟩
    exact ⟨⟨inRest, notGone⟩, Or.inl ⟨inRest, notGone⟩, notLater⟩
  · rintro ⟨⟨inRest, notGone⟩, _, notLater⟩
    exact ⟨inRest, notGone, notLater⟩

/-- One more visit before those that cover what it left. -/
theorem Covers.cons {visited gone later behind rest added : List Word} {key : Word}
    (nodup : (behind ++ key :: rest).Nodup) (nodupAfter : (without gone rest ++ added).Nodup)
    (covers : Covers visited later (without gone (behind ++ [key])) (without gone rest ++ added)) :
    Covers (key :: visited) (gone ++ later) behind (key :: rest) := by
  have elsewhere := (List.nodup_cons.mp (List.nodup_middle.mp nodup)).1
  rw [List.mem_append, not_or] at elsewhere
  have once : key ∈ visited → key ∈ gone ++ later := by
    intro member
    rw [List.mem_append]
    by_cases isGone : key ∈ gone
    · exact Or.inl isGone
    · refine Or.inr (covers.behind key member (mem_without.mpr ⟨?_, isGone⟩))
      exact List.mem_append_right _ (List.mem_singleton.mpr rfl)
  have others : visited.filter (fun other => decide (other ∈ key :: rest ∧ other ∉ gone ++ later)) =
      without (gone ++ later) rest := by
    rw [← covers.rest nodupAfter]
    refine List.filter_congr fun other member => ?_
    refine decide_eq_decide.mpr (and_congr_left fun notRemoved => ?_)
    rw [List.mem_cons]
    refine or_iff_right fun same => notRemoved ?_
    rw [same] at member ⊢
    exact once member
  constructor
  · unfold without
    by_cases removed : key ∈ gone ++ later
    · rw [List.filter_cons_of_neg, List.filter_cons_of_neg]
      · exact others
      · rw [decide_eq_true_iff]
        exact not_not.mpr removed
      · rw [decide_eq_true_iff]
        exact fun kept => kept.2 removed
    · rw [List.filter_cons_of_pos, List.filter_cons_of_pos]
      · exact congrArg _ others
      · rw [decide_eq_true_iff]
        exact removed
      · rw [decide_eq_true_iff]
        exact ⟨List.mem_cons_self, removed⟩
  · intro other member isBehind
    rcases List.mem_cons.mp member with rfl | member
    · exact absurd isBehind elsewhere.1
    · rw [List.mem_append]
      by_cases isGone : other ∈ gone
      · exact Or.inl isGone
      · exact Or.inr (covers.behind other member
          (mem_without.mpr ⟨List.mem_append_left _ isBehind, isGone⟩))

/-! ### Whole iterations -/

/-- The calls the visits to come make. -/
def callsOf (visits : List Visit) : Nat := (visits.map fun visit => visit.calls.length).sum

/-- More rounds than an iteration needs from an index on. -/
def roundsFrom (visits : List Visit) (bound index : Nat) : Nat :=
  visits.length * (bound + callsOf visits + 1) + (bound - index) + 1

theorem roundsFrom_next {bound index rounds : Nat} (visits : List Visit)
    (inside : index < bound) (enough : roundsFrom visits bound index ≤ rounds + 1) :
    roundsFrom visits bound (index + 1) ≤ rounds := by
  unfold roundsFrom at enough ⊢
  omega

/-- A visit leaves fewer rounds to go, wherever it goes on. -/
theorem roundsFrom_visit {bound index after next rounds : Nat} {visit : Visit}
    {visits : List Visit} (grows : after ≤ bound + visit.calls.length)
    (enough : roundsFrom (visit :: visits) bound index ≤ rounds + 1) :
    roundsFrom visits after next ≤ rounds := by
  have calls : callsOf (visit :: visits) = visit.calls.length + callsOf visits := by
    unfold callsOf
    rw [List.map_cons, List.sum_cons]
  unfold roundsFrom at enough ⊢
  rw [calls, List.length_cons, Nat.succ_mul] at enough
  have product : visits.length * (after + callsOf visits + 1) ≤
      visits.length * (bound + (visit.calls.length + callsOf visits) + 1) :=
    Nat.mul_le_mul_left _ (by omega)
  omega

/-- The visit of a callback that does nothing. -/
def idleVisit (key : Word) : Visited :=
  { key := key, removed := [], rebuilt := false, noticed := false, dropped := [] }

theorem visitEntry_idle (index : Nat) (state : State) :
    visitEntry type quiet fuel { calls := [], action := .cont } index state =
      some (idleVisit (state.storage.entries index).key, .goOn (index + 1), state) := by
  unfold visitEntry callAll findCurrent
  rw [Option.bind_eq_bind, Option.bind_some]
  dsimp only
  rw [decide_eq_false (not_not.mpr rfl), if_neg Bool.false_ne_true]
  rfl

/-- The keys that are removed in an iteration. -/
def removedIn (trail : List Visited) : List Word := trail.flatMap Visited.gone

/-- The callback continues the iteration, or deletes the entry and continues. -/
def Visit.GoesOn (visit : Visit) : Prop := visit.action = .cont ∨ visit.action = .delete

/-- What an iteration from an index on leaves and visits. -/
structure Iterates (type : HashType) (index : Nat) (before : State) (trail : List Visited)
    (after : State) : Prop where
  ok : after.Ok type
  keys : ∃ added, keysOf after = without (removedIn trail) (keysOf before) ++ added
  covers : (∀ visited ∈ trail, visited.Sound) →
    Covers (trail.map Visited.key) (removedIn trail) (keysBelow before index)
      (keysFrom before index)

/-- A visit and the iteration behind it. -/
theorem Iterates.cons (lawful : type.Lawful) {index next : Nat} {before middle after : State}
    {visited : Visited} {trail : List Visited} (ok : before.Ok type)
    (inside : index < before.table.entriesBound)
    (live : (before.storage.entries index).live = true)
    (isKey : visited.key = (before.storage.entries index).key) (middleOk : middle.Ok type)
    (keys : ∃ added, keysOf middle = without visited.gone (keysOf before) ++ added)
    (advances : visited.Sound → Advances visited.gone
      (keysBelow before index ++ [(before.storage.entries index).key])
      (keysFrom before (index + 1)) middle next)
    (iterates : Iterates type next middle trail after) :
    Iterates type index before (visited :: trail) after where
  ok := iterates.ok
  keys := by
    obtain ⟨firstAdded, first⟩ := keys
    obtain ⟨added, later⟩ := iterates.keys
    refine ⟨without (removedIn trail) firstAdded ++ added, ?_⟩
    rw [later, first, without_append, without_without, List.append_assoc]
    rfl
  covers sound := by
    obtain ⟨below, added, from_⟩ := advances (sound visited List.mem_cons_self)
    have covers := iterates.covers fun other member => sound other (List.mem_cons_of_mem _ member)
    rw [below, from_] at covers
    have nodup := keysOf_nodup lawful ok
    rw [keysOf_around inside live] at nodup
    have nodupAfter : (without visited.gone (keysFrom before (index + 1)) ++ added).Nodup := by
      rw [← from_]
      by_cases beyond : middle.table.entriesBound ≤ next
      · rw [keysFrom_beyond beyond]
        exact List.nodup_nil
      · have whole := keysOf_nodup lawful middleOk
        rw [keysOf_split (Nat.le_of_not_le beyond)] at whole
        exact (List.nodup_append.mp whole).2.1
    rw [keysFrom_cons inside live, List.map_cons, isKey]
    exact covers.cons nodup nodupAfter

theorem foreachLoop_spec (lawful : type.Lawful) (enough : searchRounds ≤ fuel) :
    ∀ (rounds index : Nat) (visits : List Visit) {before : State}, before.Ok type →
      (∀ visit ∈ visits, visit.GoesOn) →
      roundsFrom visits before.table.entriesBound index ≤ rounds →
      ∃ trail after, foreachLoop type quiet fuel rounds index visits before =
        some (0, trail, after) ∧ Iterates type index before trail after := by
  intro rounds
  induction rounds with
  | zero =>
    intro index visits before _ _ few
    unfold roundsFrom at few
    omega
  | succ rounds inductionHypothesis =>
    intro index visits before ok goOn few
    unfold foreachLoop
    by_cases inside : index < before.table.entriesBound
    · rw [if_pos inside]
      by_cases isLive : (before.storage.entries index).hash ≠ deletedHash
      · have live := (live_iff _).mpr isLive
        rw [if_pos isLive]
        cases visits with
        | nil =>
          rw [List.headD_nil, visitEntry_idle, Option.bind_eq_bind, Option.bind_some]
          dsimp only
          obtain ⟨trail, after, ran, iterates⟩ := inductionHypothesis (index + 1) [] ok goOn
            (roundsFrom_next [] inside few)
          refine ⟨_, after, Option.bind_eq_some_iff.mpr ⟨_, ran, rfl⟩, ?_⟩
          refine iterates.cons lawful ok inside live rfl ok ?_ fun _ => ?_
          · exact ⟨[], by rw [List.append_nil]; exact (without_nil _).symm⟩
          · refine ⟨?_, [], ?_⟩
            · rw [keysBelow_succ live]
              exact (without_nil _).symm
            · rw [List.append_nil]
              exact (without_nil _).symm
        | cons visit visits =>
          obtain ⟨visited, next, middle, ran, middleOk, grows, isKey, keys, advances⟩ :=
            visitEntry_spec lawful enough ok inside live (goOn visit List.mem_cons_self)
          rw [List.headD_cons, ran, Option.bind_eq_bind, Option.bind_some]
          dsimp only
          obtain ⟨trail, after, ranOn, iterates⟩ := inductionHypothesis next visits middleOk
            (fun other member => goOn other (List.mem_cons_of_mem _ member))
            (roundsFrom_visit grows few)
          refine ⟨_, after, Option.bind_eq_some_iff.mpr ⟨_, ranOn, rfl⟩, ?_⟩
          exact iterates.cons lawful ok inside live isKey middleOk keys advances
      · rw [if_neg isLive]
        have dead : (before.storage.entries index).live ≠ true := by
          rw [Ne, live_iff]
          exact isLive
        obtain ⟨trail, after, ran, iterates⟩ := inductionHypothesis (index + 1) visits ok goOn
          (roundsFrom_next visits inside few)
        refine ⟨trail, after, ran, iterates.ok, iterates.keys, fun sound => ?_⟩
        rw [← keysBelow_dead dead, keysFrom_dead inside dead]
        exact iterates.covers sound
    · rw [if_neg inside]
      refine ⟨[], before, rfl, ok, ⟨[], ?_⟩, fun _ => ⟨?_, ?_⟩⟩
      · rw [List.append_nil]
        exact (without_nil _).symm
      · rw [keysFrom_beyond (Nat.le_of_not_lt inside)]
        rfl
      · exact fun key member => absurd member List.not_mem_nil

/-- The rounds an iteration over a table needs at most. -/
def iterationRounds (visits : List Visit) (state : State) : Nat :=
  roundsFrom visits state.table.entriesBound state.table.entriesStart

/-- An iteration over any table a program reaches returns zero. When every visit that
rebuilds the table keeps its entry, and is noticed, the keys that were there at the
beginning and are never removed are visited once each and in order. -/
theorem stForeach_visits_survivors (enough : searchRounds ≤ fuel) {world : World}
    (reachable : Reachable fuel world) {handle : Handle} (isTable : handle ∈ world.tables)
    {visits : List Visit} (goOn : ∀ visit ∈ visits, visit.GoesOn) {rounds : Nat}
    (many : iterationRounds visits (world.load handle) ≤ rounds) :
    ∃ trail after, stForeach handle.type quiet fuel rounds visits (world.load handle) =
        some (0, trail, after) ∧
      (∃ added, keysOf after =
        without (removedIn trail) (keysOf (world.load handle)) ++ added) ∧
      ((∀ visited ∈ trail, visited.Sound) →
        (trail.map Visited.key).filter (fun key =>
            decide (key ∈ keysOf (world.load handle) ∧ key ∉ removedIn trail)) =
          without (removedIn trail) (keysOf (world.load handle))) := by
  have worldOk := reachable.ok enough
  have lawful := worldOk.lawful handle isTable
  have ok : (world.load handle).Ok handle.type := worldOk.wellFormed handle isTable
  obtain ⟨trail, after, ran, iterates⟩ := foreachLoop_spec lawful enough rounds _ visits ok goOn many
  refine ⟨trail, after, ran, iterates.keys, fun sound => ?_⟩
  have whole : keysFrom (world.load handle) (world.load handle).table.entriesStart =
      keysOf (world.load handle) := by
    have none : keysBelow (world.load handle) (world.load handle).table.entriesStart = [] := by
      unfold keysBelow
      rw [keysAt_eq, List.map_eq_nil_iff, List.filter_eq_nil_iff]
      intro index member
      rw [ok.before index (List.mem_range.mp member)]
      exact Bool.false_ne_true
    rw [keysOf_split ok.start_le, none, List.nil_append]
  have covers := (iterates.covers sound).ahead
  rw [whole] at covers
  exact covers

/-! ### Losing the current entry -/

/-- An iteration over the filled table whose first visit deletes another entry. -/
theorem stForeach_visits_survivors_filled :
    ∃ world ∈ runAll searchRounds filling (emptyWorld (grantingFirst 2)),
      ∃ handle ∈ world.tables, ∃ trail after, stForeach handle.type quiet searchRounds
          (iterationRounds [{ calls := [.delete 2], action := .cont }] (world.load handle))
          [{ calls := [.delete 2], action := .cont }] (world.load handle) =
        some (0, trail, after) := by
  have evaluated : ((runAll searchRounds filling (emptyWorld (grantingFirst 2))).map fun world =>
      world.tables.length) = some 1 := by
    decide +kernel
  obtain ⟨world, ran, one⟩ := Option.map_eq_some_iff.mp evaluated
  obtain ⟨handle, isTable⟩ := List.length_eq_one_iff.mp one
  have member : handle ∈ world.tables := by
    rw [isTable]
    exact List.mem_singleton.mpr rfl
  have goOn : ∀ visit ∈ [({ calls := [.delete 2], action := .cont } : Visit)], visit.GoesOn := by
    intro visit isVisit
    rw [List.mem_singleton.mp isVisit]
    exact Or.inl rfl
  obtain ⟨trail, after, iterated, _⟩ := stForeach_visits_survivors (Nat.le_refl _)
    (filling_reachable ran) member goOn (Nat.le_refl _)
  exact ⟨world, ran, handle, member, trail, after, iterated⟩

/-- A callback that deletes the current entry and then makes the table compact itself ends
the iteration: the entries behind it stay and are not visited. -/
theorem stForeach_skips_survivors :
    ¬ ∀ world, Reachable searchRounds world → ∀ handle ∈ world.tables, ∀ visits : List Visit,
      (∀ visit ∈ visits, visit.GoesOn) → ∀ rounds ≥ iterationRounds visits (world.load handle),
        ∀ trail after, stForeach handle.type quiet searchRounds rounds visits (world.load handle) =
          some (0, trail, after) →
          (trail.map Visited.key).filter (fun key =>
              decide (key ∈ keysOf (world.load handle) ∧ key ∉ removedIn trail)) =
            without (removedIn trail) (keysOf (world.load handle)) := by
  intro covers
  have evaluated : ((runAll searchRounds filling (emptyWorld (grantingFirst 2))).bind fun world =>
      (world.tables[0]?).bind fun handle =>
        if iterationRounds [{ calls := [.delete 0, .insert 9 19], action := .cont }]
            (world.load handle) ≤ 20 then
          (stForeach handle.type quiet searchRounds 20
            [{ calls := [.delete 0, .insert 9 19], action := .cont }] (world.load handle)).map
              fun result => (result.1, result.2.1.map Visited.key, removedIn result.2.1,
                keysOf (world.load handle))
        else none) = some (0, [0], [0], [0, 1, 2, 3]) := by
    decide +kernel
  obtain ⟨world, ran, evaluated⟩ := Option.bind_eq_some_iff.mp evaluated
  obtain ⟨handle, isTable, evaluated⟩ := Option.bind_eq_some_iff.mp evaluated
  by_cases enough : iterationRounds [{ calls := [.delete 0, .insert 9 19], action := .cont }]
      (world.load handle) ≤ 20
  · rw [if_pos enough] at evaluated
    obtain ⟨⟨code, trail, after⟩, iterated, outcome⟩ := Option.map_eq_some_iff.mp evaluated
    obtain ⟨rfl, outcome⟩ := Prod.mk.inj outcome
    obtain ⟨keys, outcome⟩ := Prod.mk.inj outcome
    obtain ⟨removed, present⟩ := Prod.mk.inj outcome
    have covered := covers world (filling_reachable ran) handle (List.mem_of_getElem? isTable) _
      (fun visit isVisit => by
        rw [List.mem_singleton.mp isVisit]
        exact Or.inl rfl) 20 enough trail after iterated
    dsimp only at keys removed
    rw [keys, removed, present] at covered
    exact absurd covered (by decide)
  · rw [if_neg enough] at evaluated
    cases evaluated

end LaserD.Hash
