/-
This file shows that string tables are finite maps over every run.

`Contents` is what a program knows of a table: the entry of each string, and the string
and value of each entry it has ever been given. `Contents.Step` says what an operation
does to it. The code does the same in every run with fewer than `2 ^ 20` pools, whatever
the hash function: every call returns, entries keep their strings and values when the
table grows or is made anew, and `apply` visits each string once.
-/

import LaserD.Root.StringSearch

namespace LaserD.Root.StringTable

open OpenAddressing

variable {T : Type}

/-! ### Operations -/

/-- The operations of a program, with the store of a value through the pointer of an entry. -/
inductive Op (T : Type)
  | init (size : Nat)
  | lookup (str : Str)
  | insert (str : Str) (value : T)
  | update (str : Str)
  | write (sv : Pointer) (value : T)

/-- The operation on a table, with the pointer it returns. -/
def Op.perform (sizes : Sizes) (calcHash : Str → BitVec 32) (tInit : T) (op : Op T) (t : Table T) :
    Option (Option Pointer × Table T) :=
  match op with
  | .init size => (StringTable.init t.blocks size).map fun after => (none, after)
  | .lookup str => (StringTable.lookup sizes calcHash t str).map fun sv => (sv, t)
  | .insert str value => StringTable.insert sizes calcHash t str value
  | .update str => StringTable.update sizes calcHash tInit t str
  | .write sv value => (writeValue sizes t.blocks sv value).map fun blocks =>
      (none, { t with blocks })

/-- The entry of each string, and the string and value of each entry. -/
structure Contents (T : Type) where
  index : Str → Option Pointer
  cell : Pointer → Option (Str × T)

/-- Nothing. -/
def Contents.empty : Contents T :=
  ⟨fun _ => none, fun _ => none⟩

/-- A new entry of a string. -/
def Contents.add (contents : Contents T) (p : Pointer) (str : Str) (value : T) : Contents T :=
  ⟨Function.update contents.index str (some p), Function.update contents.cell p (some (str, value))⟩

/-- What an operation returns and leaves. -/
inductive Contents.Step (tInit : T) : Contents T → Op T → Option Pointer → Contents T → Prop
  | init (c : Contents T) (size : Nat) :
      Step tInit c (.init size) none ⟨fun _ => none, c.cell⟩
  | lookup (c : Contents T) (str : Str) : Step tInit c (.lookup str) (c.index str) c
  | insertPresent (c : Contents T) (str : Str) (value : T) (p : Pointer) :
      c.index str = some p → Step tInit c (.insert str value) none c
  | insertNew (c : Contents T) (str : Str) (value : T) (p : Pointer) :
      c.index str = none → c.cell p = none →
      Step tInit c (.insert str value) (some p) (c.add p str value)
  | updatePresent (c : Contents T) (str : Str) (p : Pointer) :
      c.index str = some p → Step tInit c (.update str) (some p) c
  | updateNew (c : Contents T) (str : Str) (p : Pointer) :
      c.index str = none → c.cell p = none →
      Step tInit c (.update str) (some p) (c.add p str tInit)
  | write (c : Contents T) (sv : Pointer) (str : Str) (old value : T) :
      c.cell sv = some (str, old) →
      Step tInit c (.write sv value) none ⟨c.index, Function.update c.cell sv (some (str, value))⟩

/-- Values are stored through pointers to entries only. -/
def Op.Admissible (op : Op T) (contents : Contents T) : Prop :=
  match op with
  | .write sv _ => contents.cell sv ≠ none
  | _ => True

/-- The number of pools with which the operation ends. -/
def Op.poolCount (sizes : Sizes) (op : Op T) (contents : Contents T) (t : Table T) : Nat :=
  let after (str : Str) :=
    if contents.index str = none then
      (choosePool t (extent sizes str)).pools.length
    else t.pools.length
  match op with
  | .init _ => 0
  | .insert str _ => after str
  | .update str => after str
  | _ => t.pools.length

/-! ### The invariant -/

/-- The table holds the contents, and is not too full. -/
structure Meets (sizes : Sizes) (calcHash : Str → BitVec 32) (t : Table T) (contents : Contents T) :
    Prop where
  apart : Apart sizes t.blocks contents.cell
  filled : Filled sizes t.blocks contents.cell t.pools t.nfill
  indexed : ∃ bits, 5 ≤ bits ∧ bits ≤ 60 ∧
    Indexed calcHash bits t.pools contents.cell contents.index t.table
  trigger : t.countTrigger = t.table.length * 8 / 10
  count_eq : t.count = used t.table
  count_le : t.count ≤ t.countTrigger
  count_fill : t.count ≤ fill t

section

variable {sizes : Sizes} {calcHash : Str → BitVec 32} {t : Table T} {contents : Contents T}

/-- There is a free slot. -/
theorem Meets.room (meets : Meets sizes calcHash t contents) : used t.table < t.table.length := by
  obtain ⟨bits, low, -, indexed⟩ := meets.indexed
  have trigger := meets.trigger
  have count := meets.count_eq
  have le := meets.count_le
  have positive : 0 < t.table.length := by
    rw [indexed.length]
    exact Nat.two_pow_pos bits
  omega

theorem Meets.exists_free (meets : Meets sizes calcHash t contents) :
    ∃ se ∈ t.table, se.vptr = 0 :=
  StringTable.exists_free meets.room

/-- `lookup` returns the entry of the string. -/
theorem Meets.lookup_eq (meets : Meets sizes calcHash t contents) (str : Str) :
    lookup sizes calcHash t str = some (contents.index str) := by
  obtain ⟨bits, -, -, indexed⟩ := meets.indexed
  obtain ⟨free, member, empty⟩ := meets.exists_free
  obtain ⟨n, se, found, at_, outcome⟩ := findSlot_cases meets.apart indexed str member empty
  rw [lookup, found, Option.bind_eq_bind, Option.bind_some, at_, Option.bind_eq_bind,
    Option.bind_some]
  rcases outcome with ⟨p, present, taken, pointer⟩ | ⟨absent, unused, -⟩
  · rw [getValue_eq t taken, pointer, present]
    rfl
  · rw [getValue, if_pos unused, absent]

/-! ### Making a table -/

theorem nextpow2From_spec {val : Nat} (small : val ≤ 2 ^ 61) (fuel k : Nat) (low : k ≤ 61)
    (enough : 62 ≤ k + fuel) : ∃ m, m ≤ 61 ∧ nextpow2From fuel (2 ^ k) val = some (2 ^ m) := by
  induction fuel generalizing k with
  | zero => omega
  | succ fuel inductionHypothesis =>
    rw [nextpow2From]
    by_cases less : 2 ^ k < val
    · have below : k < 61 := by
        by_contra high
        have equal : k = 61 := by omega
        rw [equal] at less
        omega
      have doubled : 2 ^ k <<< 1 % 2 ^ 64 = 2 ^ (k + 1) := by
        rw [Nat.shiftLeft_eq, Nat.pow_one, ← Nat.pow_succ]
        exact Nat.mod_eq_of_lt (Nat.pow_lt_pow_right (by decide) (by omega))
      rw [if_pos less, doubled]
      exact inductionHypothesis (k + 1) (by omega) (by omega)
    · rw [if_neg less]
      exact ⟨k, low, rfl⟩

/-- `_init` returns unless the size of the slots in bytes overflows, and then the table has a
power of two of free slots. -/
theorem init_spec (blocks : Blocks T) (size : Nat) {after : Table T}
    (made : init blocks size = some after) :
    ∃ bits, 5 ≤ bits ∧ bits ≤ 60 ∧ after = {
      blocks
      table := List.replicate (2 ^ bits) {}
      pools := []
      nfill := 0
      count := 0
      countTrigger := 2 ^ bits * 8 / 10 } := by
  have small : size * loadFactorDenominator % 2 ^ 64 / loadFactorNumerator ≤ 2 ^ 61 := by
    rw [loadFactorNumerator]
    omega
  obtain ⟨m, high, power⟩ := nextpow2From_spec small 65 0 (by decide) (by decide)
  have next : nextpow2 (size * loadFactorDenominator % 2 ^ 64 / loadFactorNumerator) =
    some (2 ^ m) := power
  obtain ⟨bits, low, high', chosen⟩ : ∃ bits, 5 ≤ bits ∧ bits ≤ 61 ∧
      (if 2 ^ m < 32 then 32 else 2 ^ m) = 2 ^ bits := by
    by_cases less : 2 ^ m < 32
    · exact ⟨5, le_rfl, by decide, if_pos less⟩
    · refine ⟨m, ?_, high, if_neg less⟩
      by_contra below
      exact less (Nat.pow_lt_pow_right (by decide) (Nat.lt_of_not_le below))
  rw [init, next, Option.bind_eq_bind, Option.bind_some] at made
  dsimp only at made
  rw [chosen, xcalloc] at made
  by_cases fits : 2 ^ bits * 8 < 2 ^ 64
  · have bound : bits ≤ 60 := by
      by_contra above
      have equal : bits = 61 := by omega
      rw [equal] at fits
      omega
    rw [if_pos fits, Option.bind_eq_bind, Option.bind_some] at made
    refine ⟨bits, low, bound, ?_⟩
    rw [← Option.some.inj made, List.length_replicate, loadFactorNumerator, loadFactorDenominator,
      Nat.mod_eq_of_lt fits]
  · rw [if_neg fits] at made
    cases made

/-- A new table holds nothing; the entries of earlier tables stay. -/
theorem init_meets {blocks : Blocks T} {cell : Pointer → Option (Str × T)}
    (apart : Apart sizes blocks cell) {size : Nat} {after : Table T}
    (made : init blocks size = some after) :
    Meets sizes calcHash after ⟨fun _ => none, cell⟩ := by
  obtain ⟨bits, low, high, rfl⟩ := init_spec blocks size made
  refine ⟨apart, ⟨by simp, List.nodup_nil, fun {b p s v} last => ?_⟩,
    ⟨bits, low, high, Indexed.empty calcHash bits [] cell⟩, ?_, ?_, Nat.zero_le _, Nat.zero_le _⟩
  · cases last
  · dsimp only
    rw [List.length_replicate]
  · exact (used_empty _).symm

/-! ### Adding an entry -/

theorem fill_le (t : Table T) : fill t ≤ (t.pools.length + 1) * 4096 := by
  have size : poolSize = 4096 := rfl
  rw [fill, size]
  omega

/-- `grow` places the same entries in twice as many slots. -/
theorem grow_spec {cell : Pointer → Option (Str × T)} {index : Str → Option Pointer}
    (apart : Apart sizes t.blocks cell) {bits : Nat} (small : bits ≤ 59)
    (indexed : Indexed calcHash bits t.pools cell index t.table)
    (room : used t.table < 2 ^ (bits + 1)) :
    ∃ final, grow sizes t =
        some { t with table := final, countTrigger := 2 ^ (bits + 1) * 8 / 10 } ∧
      Indexed calcHash (bits + 1) t.pools cell index final ∧ used final = used t.table := by
  have doubled : t.table.length * 2 = 2 ^ (bits + 1) := by rw [indexed.length, Nat.pow_succ]
  have fits : 2 ^ (bits + 1) * 8 < 2 ^ 64 := by
    have power : 2 ^ (bits + 1) ≤ 2 ^ 60 := Nat.pow_le_pow_right (by decide) (by omega)
    omega
  have moved : Moved t.pools cell [] index fun _ => none :=
    ⟨fun member => absurd member List.not_mem_nil, fun _ => rfl⟩
  obtain ⟨final, grown, result, count⟩ := growFrom_spec
    (t := { t with countTrigger := 2 ^ (bits + 1) * 8 / 10 }) apart t.table [] (fun _ => none)
    (List.replicate (2 ^ (bits + 1)) {}) indexed (Indexed.empty calcHash (bits + 1) t.pools cell)
    moved (used_empty _) room
  refine ⟨final, ?_, result, count⟩
  rw [grow, doubled, xcalloc, if_pos fits, loadFactorNumerator, loadFactorDenominator,
    Nat.mod_eq_of_lt fits]
  exact grown

/-- Where a new string goes, when the table has grown if it must. -/
theorem makeRoom_spec (meets : Meets sizes calcHash t contents) {bits : Nat} (low : 5 ≤ bits)
    (high : bits ≤ 60) (few : t.pools.length < 2 ^ 20)
    (indexed : Indexed calcHash bits t.pools contents.cell contents.index t.table)
    {str : Str} (absent : contents.index str = none) {n : Nat} {se : StringEntry}
    (at_ : t.table[probe calcHash bits str n]? = some se) (unused : se.vptr = 0)
    (passed : Passed (probe calcHash bits) (slotString t.pools contents.cell t.table) str n) :
    ∃ bits' n' table countTrigger se',
      makeRoom sizes calcHash { t with count := t.count + 1 } (probe calcHash bits str n) str =
        some (probe calcHash bits' str n', { t with count := t.count + 1, table, countTrigger }) ∧
      5 ≤ bits' ∧ bits' ≤ 60 ∧
      Indexed calcHash bits' t.pools contents.cell contents.index table ∧
      countTrigger = table.length * 8 / 10 ∧ t.count + 1 ≤ countTrigger ∧ used table = t.count ∧
      table[probe calcHash bits' str n']? = some se' ∧ se'.vptr = 0 ∧
      Passed (probe calcHash bits') (slotString t.pools contents.cell table) str n' := by
  have trigger := meets.trigger
  have count := meets.count_eq
  have countLe := meets.count_le
  have length := indexed.length
  rw [makeRoom]
  by_cases full : t.countTrigger < t.count + 1
  · have bound : t.count ≤ 2 ^ 32 := by
      have fills := meets.count_fill
      have most := fill_le t
      omega
    have notLarge : bits ≤ 59 := by
      by_contra above
      have power : 2 ^ 60 ≤ 2 ^ bits := Nat.pow_le_pow_right (by decide) (by omega)
      omega
    have room : used t.table < 2 ^ (bits + 1) := by
      have inside := meets.room
      rw [Nat.pow_succ]
      omega
    obtain ⟨final, grown, result, same⟩ := grow_spec (t := { t with count := t.count + 1 })
      meets.apart notLarge indexed room
    have finalLength := result.length
    have power : 2 ^ 5 ≤ 2 ^ bits := Nat.pow_le_pow_right (by decide) low
    have finalRoom : used final < final.length := by
      rw [finalLength, same]
      exact room
    obtain ⟨free, member, empty⟩ := StringTable.exists_free finalRoom
    obtain ⟨n', se', found, at', outcome⟩ := findSlot_cases
      (t := { t with count := t.count + 1, table := final, countTrigger := 2 ^ (bits + 1) * 8 / 10 })
      meets.apart result str member empty
    rcases outcome with ⟨p, present, -⟩ | ⟨-, unused', passed'⟩
    · rw [absent] at present
      cases present
    refine ⟨bits + 1, n', final, 2 ^ (bits + 1) * 8 / 10, se', ?_, by omega, by omega, result,
      by rw [finalLength], ?_, by rw [same, count], at', unused', passed'⟩
    · rw [if_pos full, grown, Option.bind_eq_bind, Option.bind_some, found]
      rfl
    · rw [Nat.pow_succ]
      omega
  · rw [if_neg full]
    exact ⟨bits, n, t.table, t.countTrigger, se, rfl, low, high, indexed, trigger, by omega,
      count.symm, at_, unused, passed⟩

/-- A string that is not in the table gets a new entry. -/
theorem insertAt_spec (meets : Meets sizes calcHash t contents) {bits : Nat} (low : 5 ≤ bits)
    (high : bits ≤ 60)
    (indexed : Indexed calcHash bits t.pools contents.cell contents.index t.table)
    {str : Str} (few : (choosePool t (extent sizes str)).pools.length < 2 ^ 20)
    (absent : contents.index str = none) {n : Nat} {se : StringEntry}
    (at_ : t.table[probe calcHash bits str n]? = some se) (unused : se.vptr = 0)
    (passed : Passed (probe calcHash bits) (slotString t.pools contents.cell t.table) str n)
    (v : T) :
    ∃ p after, insertAt sizes calcHash t (probe calcHash bits str n) str v = some (some p, after) ∧
      contents.cell p = none ∧ Meets sizes calcHash after (contents.add p str v) := by
  have poolsGrow : t.pools.length ≤ (choosePool t (extent sizes str)).pools.length := by
    rw [choosePool]
    split
    · simp
    · exact le_rfl
  obtain ⟨bits', n', table, countTrigger, se', made, low', high', indexed', trigger', room', count',
    at', unused', passed'⟩ := makeRoom_spec meets low high (poolsGrow.trans_lt few) indexed absent
    at_ unused passed
  obtain ⟨p, after, allocated, tableSame, countSame, triggerSame, poolsSame, grows, last, below,
    fresh, fills, apartAfter, filledAfter⟩ := allocValue_spec
    (t := { t with count := t.count + 1, table, countTrigger }) meets.apart meets.filled str v
  have fewAfter : after.pools.length < 2 ^ 20 := by
    have samePools : (choosePool { t with count := t.count + 1, table, countTrigger }
        (extent sizes str)).pools = (choosePool t (extent sizes str)).pools := by
      rw [choosePool, choosePool]
      split <;> rfl
    rw [poolsSame, samePools]
    exact few
  have keeps : ∀ {q : Pointer} {s : Str} {w : T}, contents.cell q = some (s, w) →
      ∃ w', Function.update contents.cell p (some (str, v)) q = some (s, w') := by
    intro q s w entry
    refine ⟨w, ?_⟩
    rw [Function.update_of_ne, entry]
    rintro rfl
    rw [fresh] at entry
    cases entry
  obtain ⟨stays, view⟩ := indexed'.mono grows keeps
  have entry : Function.update contents.cell p (some (str, v)) p = some (str, v) :=
    Function.update_self ..
  let newEntry : StringEntry :=
    ⟨calcHash str, BitVec.ofNat 32 (after.pools.length <<< poolBits ||| p.offset)⟩
  have handle : newEntry.vptr ≠ 0 ∧ pointerAt after.pools newEntry.vptr = some p :=
    pointerAt_handle last fewAfter below
  rw [← view] at passed'
  have placed := stays.place absent passed' at' unused' handle.1 handle.2 entry rfl
  refine ⟨p, ⟨after.blocks, after.table.set (probe calcHash bits' str n') newEntry, after.pools,
    after.nfill, after.count, after.countTrigger⟩, ?_, fresh, ?_⟩
  · rw [insertAt, made, Option.bind_eq_bind, Option.bind_some]
    dsimp only
    rw [allocated, Option.bind_eq_bind, Option.bind_some]
    have value : getValue (Table.mk after.blocks
        (after.table.set (probe calcHash bits' str n') newEntry) after.pools after.nfill after.count
        after.countTrigger) newEntry.vptr = some (some p) := by
      rw [getValue_eq _ handle.1, handle.2]
      rfl
    dsimp only
    rw [value]
    rfl
  · dsimp only at tableSame countSame triggerSame
    refine ⟨apartAfter, filledAfter, ⟨bits', low', high', ?_⟩, ?_, ?_, ?_, ?_⟩
    · rw [tableSame]
      exact placed
    · rw [triggerSame, trigger', List.length_set, tableSame]
    · dsimp only
      rw [countSame, tableSame, used_set at' unused' handle.1, count']
    · rw [countSame, triggerSame]
      exact room'
    · have more := meets.count_fill
      have step : fill t + 1 ≤ fill after := fills
      show after.count ≤ fill after
      rw [countSame]
      omega

/-! ### One operation -/

/-- An operation that ends with fewer than `2 ^ 20` pools returns, unless it makes a table for
which there is no memory; it does what it does to the contents. -/
theorem Op.perform_spec (tInit : T) (meets : Meets sizes calcHash t contents) (op : Op T)
    (admissible : op.Admissible contents) (few : op.poolCount sizes contents t < 2 ^ 20) :
    (∃ size, op = .init size ∧ op.perform sizes calcHash tInit t = none) ∨
    ∃ answer after contents', op.perform sizes calcHash tInit t = some (answer, after) ∧
      Contents.Step tInit contents op answer contents' ∧ Meets sizes calcHash after contents' := by
  cases op with
  | init size =>
    cases made : StringTable.init t.blocks size with
    | none => exact Or.inl ⟨size, rfl, by rw [Op.perform, made, Option.map_none]⟩
    | some after =>
      refine Or.inr ⟨none, after, _, ?_, .init contents size, init_meets meets.apart made⟩
      rw [Op.perform, made, Option.map_some]
  | lookup str =>
    refine Or.inr ⟨_, t, contents, ?_, .lookup contents str, meets⟩
    rw [Op.perform, meets.lookup_eq, Option.map_some]
  | insert str value =>
    refine Or.inr ?_
    obtain ⟨bits, low, high, indexed⟩ := meets.indexed
    obtain ⟨free, member, empty⟩ := meets.exists_free
    obtain ⟨n, se, found, at_, outcome⟩ := findSlot_cases meets.apart indexed str member empty
    rw [Op.perform, StringTable.insert, found, Option.bind_eq_bind, Option.bind_some, at_,
      Option.bind_eq_bind, Option.bind_some]
    rcases outcome with ⟨p, present, taken, -⟩ | ⟨absent, unused, passed⟩
    · rw [if_pos taken]
      exact ⟨none, t, contents, rfl, .insertPresent contents str value p present, meets⟩
    · rw [if_neg (not_not_intro unused)]
      have room : (choosePool t (extent sizes str)).pools.length < 2 ^ 20 := by
        rw [Op.poolCount] at few
        dsimp only at few
        rwa [if_pos absent] at few
      obtain ⟨p, after, inserted, fresh, result⟩ := insertAt_spec meets low high indexed room absent
        at_ unused passed value
      exact ⟨some p, after, _, inserted, .insertNew contents str value p absent fresh, result⟩
  | update str =>
    refine Or.inr ?_
    obtain ⟨bits, low, high, indexed⟩ := meets.indexed
    obtain ⟨free, member, empty⟩ := meets.exists_free
    obtain ⟨n, se, found, at_, outcome⟩ := findSlot_cases meets.apart indexed str member empty
    rw [Op.perform, StringTable.update, found, Option.bind_eq_bind, Option.bind_some, at_,
      Option.bind_eq_bind, Option.bind_some]
    rcases outcome with ⟨p, present, taken, pointer⟩ | ⟨absent, unused, passed⟩
    · rw [if_neg taken, getValue_eq t taken, pointer]
      exact ⟨some p, t, contents, rfl, .updatePresent contents str p present, meets⟩
    · rw [if_pos unused]
      have room : (choosePool t (extent sizes str)).pools.length < 2 ^ 20 := by
        rw [Op.poolCount] at few
        dsimp only at few
        rwa [if_pos absent] at few
      obtain ⟨p, after, inserted, fresh, result⟩ := insertAt_spec meets low high indexed room absent
        at_ unused passed tInit
      exact ⟨some p, after, _, inserted, .updateNew contents str p absent fresh, result⟩
  | write sv value =>
    refine Or.inr ?_
    obtain ⟨⟨str, old⟩, entry⟩ := Option.ne_none_iff_exists'.mp admissible
    obtain ⟨blocks, written, apart, filled⟩ := writeValue_spec meets.apart meets.filled entry value
    obtain ⟨bits, low, high, indexed⟩ := meets.indexed
    have keeps : ∀ {q : Pointer} {s : Str} {w : T}, contents.cell q = some (s, w) →
        ∃ w', Function.update contents.cell sv (some (str, value)) q = some (s, w') := by
      intro q s w here
      by_cases same : q = sv
      · rw [same, entry, Option.some.injEq, Prod.mk.injEq] at here
        exact ⟨value, by rw [same, Function.update_self, here.1]⟩
      · exact ⟨w, by rw [Function.update_of_ne same, here]⟩
    refine ⟨none, { t with blocks }, _, ?_, .write contents sv str old value entry, apart, filled,
      ⟨bits, low, high, (indexed.mono (List.prefix_refl _) keeps).1⟩, meets.trigger,
      meets.count_eq, meets.count_le, meets.count_fill⟩
    rw [Op.perform, written, Option.map_some]

/-! ### Visiting the entries -/

/-- A function called for each of some entries until it answers another number than zero. -/
def walk {State : Type} (fp : State → Pointer → State × Int) :
    List Pointer → State → State × Int
  | [], state => (state, 0)
  | p :: rest, state =>
      if (fp state p).2 ≠ 0 then fp state p else walk fp rest (fp state p).1

/-- The entries in the order of their slots. -/
def visited (pools : List Nat) (table : List StringEntry) : List Pointer :=
  table.filterMap fun se => if se.vptr = 0 then none else pointerAt pools se.vptr

theorem visited_cons_free (pools : List Nat) {se : StringEntry} (rest : List StringEntry)
    (free : se.vptr = 0) : visited pools (se :: rest) = visited pools rest := by
  simp [visited, free]

theorem visited_cons_used {pools : List Nat} {se : StringEntry} (rest : List StringEntry)
    {p : Pointer} (taken : se.vptr ≠ 0) (pointer : pointerAt pools se.vptr = some p) :
    visited pools (se :: rest) = p :: visited pools rest := by
  rw [visited, List.filterMap_cons, if_neg taken, pointer, visited]

theorem applyFrom_eq {State : Type} (fp : State → Pointer → State × Int)
    (entries : List StringEntry)
    (pointers : ∀ se ∈ entries, se.vptr ≠ 0 → ∃ p, pointerAt t.pools se.vptr = some p)
    (state : State) :
    applyFrom t fp entries state = some (walk fp (visited t.pools entries) state) := by
  induction entries generalizing state with
  | nil => rfl
  | cons se rest inductionHypothesis =>
    have further := inductionHypothesis fun other member => pointers other (List.mem_cons_of_mem _ member)
    rw [applyFrom]
    by_cases free : se.vptr = 0
    · rw [if_pos free, further, visited_cons_free _ _ free]
    · obtain ⟨p, pointer⟩ := pointers se List.mem_cons_self free
      rw [if_neg free, getValue_eq t free, visited_cons_used rest free pointer, pointer, walk]
      by_cases stop : (fp state p).2 ≠ 0
      · rw [if_pos stop]
        exact if_pos stop
      · rw [if_neg stop]
        exact (if_neg stop).trans (further _)

/-- `apply` visits the entry of each string once. -/
theorem Meets.visited_spec (meets : Meets sizes calcHash t contents) :
    (visited t.pools t.table).Nodup ∧
      ∀ p, p ∈ visited t.pools t.table ↔ ∃ str, contents.index str = some p := by
  obtain ⟨bits, -, -, indexed⟩ := meets.indexed
  constructor
  · rw [visited, List.nodup_iff_pairwise_ne, List.pairwise_filterMap, List.pairwise_iff_getElem]
    intro i j iBound jBound less p first q second same
    have slot : ∀ (k : Nat) (bound : k < t.table.length),
        (if t.table[k].vptr = 0 then none else pointerAt t.pools t.table[k].vptr) = some p →
        ∃ s v, contents.cell p = some (s, v) ∧
          slotString t.pools contents.cell t.table k = some s := by
      intro k bound pointer
      rcases indexed.slot_cases (List.getElem?_eq_getElem bound) with
        ⟨free, -⟩ | ⟨taken, q, s, v, pointer', entry, -, -, here⟩
      · rw [if_pos free] at pointer
        cases pointer
      · rw [if_neg taken] at pointer
        obtain rfl := Option.some.inj (pointer.symm.trans pointer')
        exact ⟨s, v, entry, here⟩
    obtain ⟨s, v, entry, here⟩ := slot i iBound first
    obtain ⟨s', v', entry', there⟩ := slot j jBound (same ▸ second)
    have strings : s = s' := congrArg Prod.fst (Option.some.inj (entry.symm.trans entry'))
    have equal := indexed.placed.unique here (strings ▸ there)
    omega
  · intro p
    rw [visited, List.mem_filterMap]
    constructor
    · rintro ⟨se, member, pointer⟩
      by_cases free : se.vptr = 0
      · rw [if_pos free] at pointer
        cases pointer
      · rw [if_neg free] at pointer
        obtain ⟨q, s, v, pointer', -, listed, -⟩ := indexed.slots member free
        rw [pointer, Option.some.injEq] at pointer'
        exact ⟨s, by rw [listed, pointer']⟩
    · rintro ⟨str, listed⟩
      obtain ⟨-, i, here⟩ := indexed.indexed listed
      obtain ⟨se, q, v, found, taken, pointer, -, listed'⟩ := indexed.of_slotString here
      refine ⟨se, List.mem_of_getElem? found, ?_⟩
      rw [if_neg taken, pointer, ← listed, ← listed']

/-! ### Runs -/

/-- The tables of a program and their contents, from the first `_init` on. -/
inductive Reached (sizes : Sizes) (calcHash : Str → BitVec 32) (tInit : T) :
    Table T → Contents T → Prop
  | start (size : Nat) (t : Table T) : init [] size = some t →
      Reached sizes calcHash tInit t Contents.empty
  | step (t after : Table T) (c c' : Contents T) (op : Op T) (answer : Option Pointer) :
      Reached sizes calcHash tInit t c → op.Admissible c → op.poolCount sizes c t < 2 ^ 20 →
      op.perform sizes calcHash tInit t = some (answer, after) →
      Contents.Step tInit c op answer c' → Reached sizes calcHash tInit after c'

/-- The contents after an operation are determined by its answer. -/
theorem Contents.Step.unique {tInit : T} {c first second : Contents T} {op : Op T}
    {answer : Option Pointer} (one : Contents.Step tInit c op answer first)
    (two : Contents.Step tInit c op answer second) : first = second := by
  cases one with
  | init size | lookup str =>
    cases two
    rfl
  | insertPresent str value p present =>
    cases two
    rfl
  | insertNew str value p absent fresh =>
    cases two
    rfl
  | updatePresent str p present =>
    cases two with
    | updatePresent => rfl
    | updateNew _ _ absent =>
      rw [present] at absent
      cases absent
  | updateNew str p absent fresh =>
    cases two with
    | updatePresent _ _ present =>
      rw [absent] at present
      cases present
    | updateNew => rfl
  | write sv str old value entry =>
    cases two with
    | write _ str' old' _ entry' =>
      obtain ⟨rfl, -⟩ := Prod.mk.inj (Option.some.inj (entry.symm.trans entry'))
      rfl

theorem Reached.meets {tInit : T} (reached : Reached sizes calcHash tInit t contents) :
    Meets sizes calcHash t contents := by
  induction reached with
  | start size t made =>
    refine init_meets ⟨?_, ?_, ?_⟩ made
    · intro p s v entry
      cases entry
    · intro p s v entry
      cases entry
    · intro p q s s' v v' entry
      cases entry
  | step t after c c' op answer _ admissible few performed stepped inductionHypothesis =>
    rcases Op.perform_spec tInit inductionHypothesis op admissible few with
      ⟨size, -, failed⟩ | ⟨answer', after', expected, returned, expectedStep, result⟩
    · rw [failed] at performed
      cases performed
    · rw [returned, Option.some.injEq, Prod.mk.injEq] at performed
      obtain ⟨rfl, rfl⟩ := performed
      rw [stepped.unique expectedStep]
      exact result

/-- In every run of operations with fewer than `2 ^ 20` pools a string table is the finite map
that its contents are. -/
theorem table_is_map (tInit : T) (reached : Reached sizes calcHash tInit t contents) :
    (∀ op : Op T, op.Admissible contents → op.poolCount sizes contents t < 2 ^ 20 →
      (∃ size, op = .init size ∧ op.perform sizes calcHash tInit t = none) ∨
      ∃ answer after contents', op.perform sizes calcHash tInit t = some (answer, after) ∧
        Contents.Step tInit contents op answer contents' ∧
        Reached sizes calcHash tInit after contents') ∧
    (∀ p str v, contents.cell p = some (str, v) →
      svToString sizes t.blocks p = some str ∧ readValue t.blocks p = some v) ∧
    (∀ str p, contents.index str = some p → ∃ v, contents.cell p = some (str, v)) ∧
    (∃ entries : List Pointer, entries.Nodup ∧
      (∀ p, p ∈ entries ↔ ∃ str, contents.index str = some p) ∧
      ∀ (State : Type) (fp : State → Pointer → State × Int) (state : State),
        apply t fp state = some (walk fp entries state)) ∧
    (∀ str, ∃ i, findSlot sizes t (calcHash str) str = some i) ∧
    ∃ se ∈ t.table, se.vptr = 0 := by
  have meets := reached.meets
  obtain ⟨bits, -, -, indexed⟩ := meets.indexed
  refine ⟨fun op admissible few => ?_, fun p str v entry => ?_, fun str p listed => ?_, ?_,
    fun str => ?_, meets.exists_free⟩
  · rcases Op.perform_spec tInit meets op admissible few with
      failed | ⟨answer, after, contents', performed, stepped, -⟩
    · exact Or.inl failed
    · exact Or.inr ⟨answer, after, contents', performed, stepped,
        .step t after contents contents' op answer reached admissible few performed stepped⟩
  · exact ⟨(meets.apart.holds entry).svToString_eq, (meets.apart.holds entry).readValue_eq⟩
  · exact (indexed.indexed listed).1
  · refine ⟨visited t.pools t.table, meets.visited_spec.1, meets.visited_spec.2,
      fun State fp state => applyFrom_eq fp t.table (fun se member taken => ?_) state⟩
    obtain ⟨p, s, v, pointer, -⟩ := indexed.slots member taken
    exact ⟨p, pointer⟩
  · obtain ⟨free, member, empty⟩ := meets.exists_free
    obtain ⟨n, found, -⟩ := findSlot_spec meets.apart indexed str member empty
    exact ⟨_, found⟩

/-- A string inserted in a new table, with a hash function that makes all strings collide. -/
theorem table_is_map_insert :
    ∃ (t : Table Nat) (contents : Contents Nat) (p : Pointer),
      Reached ⟨8, 8, 16, by decide, by decide, by decide⟩ (fun _ => 7) 0 t contents ∧
      contents.index [97] = some p ∧ readValue t.blocks p = some 5 := by
  obtain ⟨first, made⟩ : ∃ first : Table Nat, init [] 0 = some first := ⟨_, rfl⟩
  have start : Reached ⟨8, 8, 16, by decide, by decide, by decide⟩ (fun _ => 7) 0 first
      Contents.empty := .start 0 first made
  obtain ⟨calls, -⟩ := table_is_map 0 start
  have few : (Op.insert [97] 5).poolCount ⟨8, 8, 16, by decide, by decide, by decide⟩
      Contents.empty first < 2 ^ 20 := by
    obtain rfl := Option.some.inj made
    decide
  rcases calls (.insert [97] 5) trivial few with
    ⟨size, wrong, -⟩ | ⟨answer, after, contents, performed, stepped, reached⟩
  · cases wrong
  · cases stepped with
    | insertPresent _ _ p present => cases present
    | insertNew _ _ p absent fresh =>
      have listed : (Contents.empty.add p [97] 5).index [97] = some p := by
        simp [Contents.add]
      have entry : (Contents.empty.add p [97] 5).cell p = some ([97], 5) := by
        simp [Contents.add]
      exact ⟨after, _, p, reached, listed, ((table_is_map 0 reached).2.1 p [97] 5 entry).2⟩

end

end LaserD.Root.StringTable
