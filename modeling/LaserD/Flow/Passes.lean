/-
This file counts the sweeps of `compdom` and `flowlv`.

Both assert that they need fewer than 50. That a block is not dominated by another comes to it along
a path from the start block around the other one, and that a variable is live comes to a block from
its last use back along a path without a definition. Each edge of such a path that goes against the
order of the sweeps costs a sweep, except the first, and so the assertions hold exactly when no
fact needs a path with 48 such edges.
-/

import LaserD.Lib.SweepCount
import LaserD.Flow.Dominators
import LaserD.Flow.Live

namespace LaserD.Flow

open Dominance

/-! ### Live variables -/

section Live

variable {Sym : Type} [DecidableEq Sym] (tab : Symtab Sym) (inline8087 : Bool) {n : Nat}
  (p : Program Sym n) (dfo : List (Fin n))

/-- The variable is used in the listed block before it is defined there. -/
def UsedFirst (b : Fin n) (s : Sym) : Prop := b ∈ dfo ∧ s ∈ (lvgenkill tab inline8087 p b).GEN

/-- The block alone makes the variable live at its beginning. -/
def LiveHere (b : Fin n) (s : Sym) : Prop :=
  s ∈ (lvgenkill tab inline8087 p b).GEN ∨
    p.graph.Bsucc b = [] ∧ s ∈ livexit tab ∧ s ∉ (lvgenkill tab inline8087 p b).KILL

/-- The variable is live at the beginning of `b` when it is live at that of `c`. -/
def LiveAcross (c b : Fin n) (s : Sym) : Prop :=
  c ∈ p.graph.Bsucc b ∧ s ∉ (lvgenkill tab inline8087 p b).KILL

/-- A path along which a variable is live at a block, with a bound of the sweeps it takes. -/
abbrev LiveWay : Nat → Fin n → Sym → Prop :=
  Sweeps.Way dfo.reverse (UsedFirst tab inline8087 p dfo) (LiveHere tab inline8087 p)
    (LiveAcross tab inline8087 p)

variable {tab inline8087 p}

theorem mem_foldl_union {sets : Fin n → LiveSets Sym} (rest : List (Fin n)) (out : Finset Sym)
    (s : Sym) : s ∈ rest.foldl (fun out b => out ∪ (sets b).Binlv) out ↔
      s ∈ out ∨ ∃ b ∈ rest, s ∈ (sets b).Binlv := by
  induction rest generalizing out with
  | nil => simp
  | cons first rest inductionHypothesis =>
    rw [List.foldl_cons, inductionHypothesis, Finset.mem_union, or_assoc, List.exists_mem_cons_iff]

/-- What is live at a block by the equation. -/
theorem mem_liveTransfer {b : Fin n} {sets : Fin n → LiveSets Sym} {s : Sym} :
    s ∈ (liveTransfer tab inline8087 p b sets).Binlv ↔ LiveHere tab inline8087 p b s ∨
      ∃ c, LiveAcross tab inline8087 p c b s ∧ s ∈ (sets c).Binlv := by
  unfold LiveHere LiveAcross
  rw [liveTransfer, Finset.mem_union, Finset.mem_sdiff]
  cases successors : p.graph.Bsucc b with
  | nil =>
    dsimp only
    simp only [List.not_mem_nil, false_and, exists_false, or_false, true_and]
    exact or_comm
  | cons first rest =>
    dsimp only
    rw [mem_foldl_union, ← List.exists_mem_cons_iff (fun c => s ∈ (sets c).Binlv)]
    simp only [List.cons_ne_nil, false_and, or_false]
    constructor
    · rintro (⟨⟨c, succ, live⟩, kept⟩ | used)
      · exact Or.inr ⟨c, ⟨succ, kept⟩, live⟩
      · exact Or.inl used
    · rintro (used | ⟨c, ⟨succ, kept⟩, live⟩)
      · exact Or.inr used
      · exact Or.inl ⟨⟨c, succ, live⟩, kept⟩

/-- `flowlv` returns exactly when a variable that is live at a block is so within 48 sweeps. -/
theorem flowlv_isSome_iff (distinct : dfo.Nodup) :
    (flowlv tab inline8087 p dfo).isSome = true ↔ ∀ count b s,
      LiveWay tab inline8087 p dfo count b s → LiveWay tab inline8087 p dfo 48 b s := by
  have flows : Sweeps.Flows LiveSets.Binlv (liveTransfer tab inline8087 p) dfo.reverse
      (fun _ => True) (fun _ sets s => s ∈ sets.Binlv) (UsedFirst tab inline8087 p dfo)
      (LiveHere tab inline8087 p) (LiveAcross tab inline8087 p) :=
    ⟨fun _ _ _ _ => trivial, fun _ _ _ _ _ => mem_liveTransfer,
      fun _ _ _ _ _ _ => Finset.ext_iff, fun b listed s used => Or.inl used.2⟩
  refine flows.isSome_iff (List.nodup_reverse.mpr distinct) trivial (fun b s => ?_) 48
  by_cases listed : b ∈ dfo
  · simp [listed, UsedFirst]
  · simp [listed, UsedFirst]

end Live

/-! ### Dominators -/

section Dominators

variable {n : Nat} (g : Flowgraph n) (startblock : Fin n) (bo : BlockOpt n)

/-- The start block is reached around every other listed block. -/
def AroundStart (b a : Fin n) : Prop := b = startblock ∧ a ∈ bo.dfo ∧ a ≠ startblock

/-- An edge to another block leads around a block. -/
def AroundEdge (c b a : Fin n) : Prop := c ∈ g.Bpred b ∧ a ≠ b

/-- A path from the start block around a block, with a bound of the sweeps it takes. -/
abbrev AroundWay : Nat → Fin n → Fin n → Prop :=
  Sweeps.Way bo.dfo.tail (AroundStart startblock bo) (fun _ _ => False) (AroundEdge g)

variable {g startblock bo}

theorem Ordered.dfo_eq (ordered : Ordered g startblock bo) :
    bo.dfo = startblock :: bo.dfo.tail := by
  cases list : bo.dfo with
  | nil => exact absurd ordered.start_mem (by rw [list]; exact List.not_mem_nil)
  | cons first rest =>
    have head := ordered.first
    rw [list] at head
    rw [Option.some.inj head]
    rfl

/-- The listed blocks but the start block. -/
theorem Ordered.mem_tail (ordered : Ordered g startblock bo) {b : Fin n} :
    b ∈ bo.dfo.tail ↔ b ∈ bo.dfo ∧ b ≠ startblock := by
  have distinct := ordered.distinct
  rw [ordered.dfo_eq, List.nodup_cons] at distinct
  constructor
  · intro member
    exact ⟨List.mem_of_mem_tail member, ne_of_mem_of_not_mem member distinct.1⟩
  · rintro ⟨member, differs⟩
    rw [ordered.dfo_eq, List.mem_cons] at member
    exact member.resolve_left differs

/-- A path around a block leads around it. -/
theorem exists_path_of_aroundWay {a b : Fin n} {count : Nat}
    (way : AroundWay g startblock bo count b a) :
    ∃ passed, Path g.Bsucc startblock passed b ∧ a ∉ passed := by
  have extend {a b c : Fin n} (edge : AroundEdge g c b a)
      (before : ∃ passed, Path g.Bsucc startblock passed c ∧ a ∉ passed) :
      ∃ passed, Path g.Bsucc startblock passed b ∧ a ∉ passed := by
    obtain ⟨passed, path, outside⟩ := before
    refine ⟨_, path.step (Flowgraph.mem_Bpred.mp edge.1), ?_⟩
    rw [List.mem_append, List.mem_singleton, not_or]
    exact ⟨outside, edge.2⟩
  induction way with
  | here first =>
    obtain ⟨rfl, _, differs⟩ := first
    exact ⟨_, .start, by rwa [List.mem_singleton]⟩
  | own _ never => exact never.elim
  | along _ edge _ _ inductionHypothesis => exact extend edge inductionHypothesis
  | against _ edge _ _ inductionHypothesis => exact extend edge inductionHypothesis

/-- There is a path around a block exactly when the block does not dominate. -/
theorem exists_aroundWay_iff (ordered : Ordered g startblock bo) {a b : Fin n}
    (listedA : a ∈ bo.dfo) (listed : b ∈ bo.dfo) :
    (∃ count, AroundWay g startblock bo count b a) ↔ ¬Dominates g.Bsucc startblock a b := by
  constructor
  · rintro ⟨count, way⟩ dominates
    obtain ⟨passed, path, outside⟩ := exists_path_of_aroundWay way
    exact outside (dominates passed path)
  · intro avoids
    rw [Dominates] at avoids
    push Not at avoids
    obtain ⟨passed, path, outside⟩ := avoids
    induction path with
    | start =>
      rw [List.mem_singleton] at outside
      exact ⟨0, .here ⟨rfl, listedA, outside⟩⟩
    | @step passed c b path isNext inductionHypothesis =>
      rw [List.mem_append, List.mem_singleton, not_or] at outside
      by_cases isStart : b = startblock
      · exact ⟨0, .here ⟨isStart, listedA, fun same => outside.1 (same ▸ path.start_mem)⟩⟩
      · obtain ⟨count, way⟩ := inductionHypothesis (ordered.listed.mpr path.reaches) outside.1
        have edge : AroundEdge g c b a := ⟨Flowgraph.mem_Bpred.mpr isNext, outside.2⟩
        have member := ordered.mem_tail.mpr ⟨listed, isStart⟩
        by_cases ahead : bo.dfo.tail.idxOf c < bo.dfo.tail.idxOf b
        · exact ⟨count + 1, .along member edge ahead way.succ⟩
        · exact ⟨count + 1, .against member edge ahead way⟩

/-- The vectors of the listed blocks have a bit for each of them. -/
def Sized (bo : BlockOpt n) (Bdom : Fin n → Vec) : Prop :=
  ∀ b ∈ bo.dfo, (Bdom b).length = bo.dfo.length

/-- The new vector of a block. -/
def newdom (g : Flowgraph n) (bo : BlockOpt n) (t1 : Vec) (b : Fin n) (Bdom : Fin n → Vec) : Vec :=
  vecSetbit (bo.Bdfoidx b) ((preddom g Bdom t1 b).getD [])

/-- The vector of a block tells that it is reached around a block. -/
def Clear (bo : BlockOpt n) (b : Fin n) (v : Vec) (a : Fin n) : Prop :=
  b ∈ bo.dfo ∧ a ∈ bo.dfo ∧ vecTestbit (bo.Bdfoidx a) v = false

theorem Ordered.Bdfoidx_eq_iff (ordered : Ordered g startblock bo) {a b : Fin n}
    (listedA : a ∈ bo.dfo) (listed : b ∈ bo.dfo) : bo.Bdfoidx a = bo.Bdfoidx b ↔ a = b :=
  ⟨ordered.Bdfoidx_inj listedA listed, fun same => congrArg _ same⟩

/-- The vector that is computed for a listed block other than the start block. -/
theorem preddom_of_sized (closed : Closed g startblock) (ordered : Ordered g startblock bo)
    {Bdom : Fin n → Vec} (sized : Sized bo Bdom) {t1 : Vec} (length : t1.length = bo.dfo.length)
    {b : Fin n} (listed : b ∈ bo.dfo.tail) :
    ∃ t, preddom g Bdom t1 b = some t ∧ t.length = bo.dfo.length ∧
      ∀ i, vecTestbit i t = true ↔
        i < bo.dfo.length ∧ ∀ c ∈ g.Bpred b, vecTestbit i (Bdom c) = true := by
  obtain ⟨member, differs⟩ := ordered.mem_tail.mp listed
  have reached := ordered.listed.mp member
  rw [← length]
  refine preddom_spec (fun c isPred => ?_) (Bpred_ne_nil reached differs)
  rw [length]
  exact sized c (ordered.listed.mpr (closed b reached c isPred))

/-- Vectors of one length with the same bits are the same. -/
theorem eq_of_vecTestbit {v v' : Vec} (lengths : v.length = v'.length)
    (bits : ∀ i < v.length, vecTestbit i v = vecTestbit i v') : v = v' := by
  refine List.ext_getElem lengths fun i first second => ?_
  have bit := bits i first
  rw [vecTestbit, vecTestbit, List.getD_eq_getElem?_getD, List.getD_eq_getElem?_getD,
    List.getElem?_eq_getElem first, List.getElem?_eq_getElem second] at bit
  exact bit

/-- The equations of the vectors. -/
theorem compdom_flows (closed : Closed g startblock) (ordered : Ordered g startblock bo) {t1 : Vec}
    (length : t1.length = bo.dfo.length) :
    Sweeps.Flows id (newdom g bo t1) bo.dfo.tail (Sized bo) (Clear bo)
      (AroundStart startblock bo) (fun _ _ => False) (AroundEdge g) := by
  refine ⟨fun Bdom sized b listed c member => ?_, fun Bdom sized b listed a => ?_,
    fun Bdom sized Bdom' sized' b listed => ?_, fun b listed a first => ?_⟩
  · by_cases same : c = b
    · obtain ⟨t, computed, lengthT, _⟩ := preddom_of_sized closed ordered sized length listed
      rw [same, Function.update_self, newdom, computed, Option.getD_some, length_vecSetbit, lengthT]
    · rw [Function.update_of_ne same]
      exact sized c member
  · obtain ⟨t, computed, lengthT, bits⟩ := preddom_of_sized closed ordered sized length listed
    have member := (ordered.mem_tail.mp listed).1
    have inside : bo.Bdfoidx b < t.length := lengthT ▸ ordered.Bdfoidx_lt member
    rw [false_or, newdom, computed, Option.getD_some]
    constructor
    · rintro ⟨_, listedA, clear⟩
      rw [vecTestbit_vecSetbit inside, Bool.or_eq_false_iff, decide_eq_false_iff_not,
        ordered.Bdfoidx_eq_iff listedA member, ← Bool.not_eq_true, bits] at clear
      obtain ⟨differs, shared⟩ := clear
      push Not at shared
      obtain ⟨c, isPred, clear⟩ := shared (ordered.Bdfoidx_lt listedA)
      exact ⟨c, ⟨isPred, differs⟩,
        ordered.listed.mpr (closed b (ordered.listed.mp member) c isPred), listedA, Bool.not_eq_true _ ▸ clear⟩
    · rintro ⟨c, ⟨isPred, differs⟩, _, listedA, clear⟩
      refine ⟨member, listedA, ?_⟩
      rw [vecTestbit_vecSetbit inside, Bool.or_eq_false_iff, decide_eq_false_iff_not,
        ordered.Bdfoidx_eq_iff listedA member, ← Bool.not_eq_true, bits]
      exact ⟨differs, fun shared => absurd (shared.2 c isPred) (by rw [clear]; exact nofun)⟩
  · have member := (ordered.mem_tail.mp listed).1
    refine ⟨fun same a => ?_, fun same => ?_⟩
    · rw [id, id] at same
      rw [same]
    · have lengths := (sized b member).trans (sized' b member).symm
      refine eq_of_vecTestbit lengths fun i short => ?_
      have inside : i < bo.dfo.length := sized b member ▸ short
      have bit := same bo.dfo[i]
      have listedA : bo.dfo[i]? = some bo.dfo[i] := List.getElem?_eq_getElem inside
      simp only [Clear, member, List.getElem_mem inside, true_and, ordered.numbered listedA] at bit
      rw [Bool.eq_iff_iff, ← not_iff_not, Bool.not_eq_true, Bool.not_eq_true]
      exact bit
  · exact absurd first.1 (ordered.mem_tail.mp listed).2

/-- A sweep makes the visits, as long as it finds vectors of the right length. -/
theorem foldlM_sweepBlock (closed : Closed g startblock) (ordered : Ordered g startblock bo)
    {t1 : Vec} (length : t1.length = bo.dfo.length) {entries : List (Fin n × Nat)}
    (listed : ∀ entry ∈ entries, bo.dfo[entry.2]? = some entry.1 ∧ entry.2 ≠ 0) {sweep : Sweep n}
    (sized : Sized bo sweep.Bdom) :
    entries.foldlM (sweepBlock g t1) sweep =
      some ⟨((entries.map Prod.fst).foldl (Sweeps.visit id (newdom g bo t1))
          (sweep.Bdom, sweep.changes)).1,
        ((entries.map Prod.fst).foldl (Sweeps.visit id (newdom g bo t1))
          (sweep.Bdom, sweep.changes)).2⟩ := by
  induction entries generalizing sweep with
  | nil => rfl
  | cons entry rest inductionHypothesis =>
    obtain ⟨position, later⟩ := listed entry List.mem_cons_self
    have number : bo.Bdfoidx entry.1 = entry.2 := ordered.numbered position
    have member : entry.1 ∈ bo.dfo.tail := by
      refine ordered.mem_tail.mpr ⟨List.mem_of_getElem? position, fun isStart => later ?_⟩
      rw [← number, isStart, ordered.numbered ordered.getElem_zero]
    obtain ⟨t, computed, _⟩ := preddom_of_sized closed ordered sized length member
    have value : newdom g bo t1 entry.1 sweep.Bdom = vecSetbit entry.2 t := by
      rw [newdom, computed, Option.getD_some, number]
    have visited : sweepBlock g t1 sweep entry =
        some ⟨(Sweeps.visit id (newdom g bo t1) (sweep.Bdom, sweep.changes) entry.1).1,
          (Sweeps.visit id (newdom g bo t1) (sweep.Bdom, sweep.changes) entry.1).2⟩ := by
      rw [sweepBlock, if_neg later, computed, Option.map_some, Sweeps.visit]
      dsimp only [id]
      rw [value]
      cases changed : sweep.changes
      · by_cases same : sweep.Bdom entry.1 = vecSetbit entry.2 t
        · rw [if_neg Bool.false_ne_true, if_neg (not_not.mpr same), ← same,
            Function.update_eq_self, decide_eq_false (not_not.mpr rfl), Bool.or_false, ← changed]
        · rw [if_neg Bool.false_ne_true, if_pos same, decide_eq_true (Ne.symm same), Bool.or_true]
      · rfl
    rw [List.foldlM_cons, visited, List.map_cons, List.foldl_cons]
    exact inductionHypothesis (fun other inside => listed other (List.mem_cons_of_mem _ inside))
      ((compdom_flows closed ordered length).kept _ sized _ member)

theorem Ordered.tail_entries (ordered : Ordered g startblock bo) :
    bo.dfo.zipIdx = (startblock, 0) :: bo.dfo.tail.zipIdx 1 := by
  rw [ordered.dfo_eq]
  rfl

/-- The sweeps of `compdom` are sweeps over the listed blocks but the first. -/
theorem sweeps_eq (closed : Closed g startblock) (ordered : Ordered g startblock bo) {t1 : Vec}
    (length : t1.length = bo.dfo.length) (left : Nat) {Bdom : Fin n → Vec} (sized : Sized bo Bdom) :
    sweeps g bo.dfo t1 left Bdom =
      Sweeps.sweeps id (newdom g bo t1) bo.dfo.tail left Bdom := by
  induction left generalizing Bdom with
  | zero => rfl
  | succ left inductionHypothesis =>
    have entries : (bo.dfo.tail.zipIdx 1).map Prod.fst = bo.dfo.tail := List.zipIdx_map_fst 1 _
    have listed : ∀ entry ∈ bo.dfo.tail.zipIdx 1,
        bo.dfo[entry.2]? = some entry.1 ∧ entry.2 ≠ 0 := by
      intro entry member
      refine ⟨List.mem_zipIdx_iff_getElem?.mp ?_, ?_⟩
      · rw [ordered.tail_entries]
        exact List.mem_cons_of_mem _ member
      · have least := List.le_snd_of_mem_zipIdx member
        omega
    have swept : (bo.dfo.tail.zipIdx 1).foldlM (sweepBlock g t1) ⟨Bdom, false⟩ =
        some ⟨(Sweeps.sweep id (newdom g bo t1) bo.dfo.tail Bdom).1,
          (Sweeps.sweep id (newdom g bo t1) bo.dfo.tail Bdom).2⟩ := by
      have visits : (bo.dfo.tail.zipIdx 1).foldlM (sweepBlock g t1) ⟨Bdom, false⟩ = _ :=
        foldlM_sweepBlock closed ordered length listed sized
      rw [entries] at visits
      exact visits
    rw [sweeps, Sweeps.sweeps, ordered.tail_entries, List.foldlM_cons, sweepBlock, if_pos rfl]
    show ((bo.dfo.tail.zipIdx 1).foldlM (sweepBlock g t1) ⟨Bdom, false⟩).bind _ = _
    rw [swept, Option.bind_some]
    dsimp only
    by_cases changed : (Sweeps.sweep id (newdom g bo t1) bo.dfo.tail Bdom).2 = true
    · rw [if_pos changed, if_pos changed]
      refine inductionHypothesis ?_
      exact Sweeps.foldl_visit_invariant (compdom_flows closed ordered length).kept sized
    · rw [if_neg changed, if_neg changed]

/-- Before the sweeps only the start block is known to be reached around others. -/
theorem clear_initdom (ordered : Ordered g startblock bo) (b a : Fin n) :
    Clear bo b (initdom (blockinit g bo).2 startblock b) a ↔ AroundStart startblock bo b a := by
  have bounds := initdom_bounds ordered
  unfold Clear AroundStart
  constructor
  · rintro ⟨listed, listedA, clear⟩
    have isStart : b = startblock := by
      by_contra differs
      have all : initdom (blockinit g bo).2 startblock b = vecSet (vecCalloc bo.dfo.length) := by
        simp [initdom, blockinit, listed, differs]
      rw [all, vecTestbit_vecSet, length_vecCalloc, decide_eq_false_iff_not] at clear
      exact clear (ordered.Bdfoidx_lt listedA)
    refine ⟨isStart, listedA, fun same => ?_⟩
    rw [isStart, same, bounds.above ordered.start_mem
      (ordered.getElem_Bdfoidx ordered.start_mem) (dominates_self startblock)] at clear
    exact Bool.noConfusion clear
  · rintro ⟨rfl, listedA, differs⟩
    refine ⟨ordered.start_mem, listedA, ?_⟩
    rw [← Bool.not_eq_true]
    intro set
    refine differs (ordered.Bdfoidx_inj listedA ordered.start_mem ?_)
    rw [bounds.start set, ordered.numbered ordered.getElem_zero]

/-- The blocks of a path around a block are listed. -/
theorem listed_of_aroundWay {a b : Fin n} {count : Nat} (ordered : Ordered g startblock bo)
    (way : AroundWay g startblock bo count b a) : b ∈ bo.dfo ∧ a ∈ bo.dfo := by
  induction way with
  | here first => exact ⟨first.1 ▸ ordered.start_mem, first.2.1⟩
  | own _ never => exact never.elim
  | along member _ _ _ inductionHypothesis =>
    exact ⟨List.mem_of_mem_tail member, inductionHypothesis.2⟩
  | against member _ _ _ inductionHypothesis =>
    exact ⟨List.mem_of_mem_tail member, inductionHypothesis.2⟩

/-- `compdom` returns exactly when no block that is not listed leads to a listed one and every
block that does not dominate another leaves it a path of 48 sweeps. -/
theorem compdom_isSome_iff (detached : Detached g startblock bo)
    (ordered : Ordered g startblock bo) :
    (compdom g (blockinit g bo).2).isSome = true ↔ Closed g startblock ∧
      ∀ a ∈ bo.dfo, ∀ b ∈ bo.dfo, ¬Dominates g.Bsucc startblock a b →
        AroundWay g startblock bo 48 b a := by
  have head : (blockinit g bo).2.dfo.head? = some startblock := ordered.first
  have initial := initdom_bounds ordered
  have length : (vecCalloc (initdom (blockinit g bo).2 startblock startblock).length).length =
      bo.dfo.length := by
    rw [length_vecCalloc, initial.length ordered.start_mem]
  have ways (closed : Closed g startblock) : (compdom g (blockinit g bo).2).isSome = true ↔
      ∀ count b a, AroundWay g startblock bo count b a → AroundWay g startblock bo 48 b a := by
    rw [compdom, head, Option.bind_some, Option.isSome_map]
    show (sweeps g bo.dfo _ 49 _).isSome = true ↔ _
    rw [sweeps_eq closed ordered length 49 (fun b member => initial.length member)]
    have distinct : bo.dfo.tail.Nodup := ordered.distinct.tail
    exact (compdom_flows closed ordered length).isSome_iff distinct
      (fun b member => initial.length member) (clear_initdom ordered) 48
  constructor
  · intro returned
    have closed : Closed g startblock := by
      obtain ⟨after, result⟩ := Option.isSome_iff_exists.mp returned
      exact closed_of_compdom detached ordered result
    refine ⟨closed, fun a listedA b listed avoids => ?_⟩
    obtain ⟨count, way⟩ := (exists_aroundWay_iff ordered listedA listed).mpr avoids
    exact (ways closed).mp returned count b a way
  · rintro ⟨closed, short⟩
    refine (ways closed).mpr fun count b a way => ?_
    obtain ⟨listed, listedA⟩ := listed_of_aroundWay ordered way
    exact short a listedA b listed ((exists_aroundWay_iff ordered listedA listed).mp ⟨count, way⟩)

end Dominators

/-! ### The assertions -/

/-- The blocks before the optimiser has run. -/
def unvisited (n : Nat) : BlockOpt n where
  dfo := []
  Bdfoidx := fun _ => 0
  Bdom := fun _ => []

/-- A loop of two blocks, without a tree in either. -/
def pairProgram : Program (Fin 2) 2 where
  graph :=
    { bc := fun _ => .iftrue
      Bsucc := fun b => [1 - b]
      Bpred := fun b => [1 - b]
      mirrors := by decide }
  Belem := fun _ => none

/-- The two variables are locals of four bytes. -/
def pairSymtab : Symtab (Fin 2) where
  globsym := Finset.univ
  typeSize := fun _ => 4
  SFLunambig := fun _ => true
  SFLlivexit := fun _ => false
  SFLexit := fun _ => false
  tyfloating := fun _ => false
  outside := fun s other => absurd (Finset.mem_univ s) other

/-- The predecessors of a block when no edge is doubled. -/
def mirrorSucc {n : Nat} (Bsucc : Fin n → List (Fin n)) (s : Fin n) : List (Fin n) :=
  (List.finRange n).filter fun b => s ∈ Bsucc b

theorem count_mirrorSucc {n : Nat} {Bsucc : Fin n → List (Fin n)}
    (distinct : ∀ b, (Bsucc b).Nodup) (b s : Fin n) :
    (mirrorSucc Bsucc s).count b = (Bsucc b).count s := by
  by_cases edge : s ∈ Bsucc b
  · rw [List.count_eq_one_of_mem (distinct b) edge, mirrorSucc, List.count_filter (by simpa using edge)]
    exact List.count_eq_one_of_mem (List.nodup_finRange n) (List.mem_finRange b)
  · rw [List.count_eq_zero_of_not_mem edge]
    exact List.count_eq_zero_of_not_mem (by simp [mirrorSucc, edge])

/-- The edges up and down a ladder of 50 rungs. The entry leads to the lowest and to the highest
rung, and the lowest rung leads to the return. -/
def ladderSucc (b : Fin 52) : List (Fin 52) :=
  if b = 0 then [1, 50] else if b = 1 then [51, 2] else if b = 50 then [49]
  else if b = 51 then [] else [b + 1, b - 1]

/-- The ladder as a graph. -/
def ladder : Flowgraph 52 where
  bc b := if b = 51 then .ret else if b = 50 then .goto_ else .iftrue
  Bsucc := ladderSucc
  Bpred := mirrorSucc ladderSucc
  mirrors := count_mirrorSucc (by decide)

/-- One variable that is read on every rung but the lowest, and one that is read there only. -/
def ladderProgram : Program (Fin 2) 52 where
  graph := ladder
  Belem b := if b = 51 then none else some (.var { Ety := { tysize := 4 } } (if b = 1 then 1 else 0) 0)

theorem dfo_ladder : (compdfo ladder (unvisited 52) 0).dfo = List.finRange 52 := by
  decide +kernel

/-- The edges of the ladder. -/
theorem mem_ladder_Bsucc (b c : Fin 52) : c ∈ ladder.Bsucc b ↔
    b.val = 0 ∧ (c.val = 1 ∨ c.val = 50) ∨ b.val = 1 ∧ c.val = 51 ∨
      1 ≤ b.val ∧ b.val ≤ 49 ∧ c.val = b.val + 1 ∨
      2 ≤ b.val ∧ b.val ≤ 50 ∧ c.val + 1 = b.val := by
  have up : (b + 1).val = (b.val + 1) % 52 := rfl
  have down : (b - 1).val = (51 + b.val) % 52 := rfl
  show c ∈ ladderSucc b ↔ _
  unfold ladderSucc
  split_ifs
  all_goals
    simp only [List.mem_cons, List.not_mem_nil, or_false, false_iff, Fin.ext_iff, up, down,
      Fin.isValue, Fin.coe_ofNat_eq_mod] at *
    omega

/-- The positions in the order without its first block and in the reversed order. -/
theorem idxOf_ladder : ∀ d : Fin 52,
    (List.finRange 52).tail.idxOf d = (if d = 0 then 51 else d.val - 1) ∧
      (List.finRange 52).reverse.idxOf d = 51 - d.val := by
  decide

theorem idxOf_ladder_tail (c b : Fin 52) (later : b ≠ 0) :
    (List.finRange 52).tail.idxOf c < (List.finRange 52).tail.idxOf b ↔ c ≠ 0 ∧ c < b := by
  rw [(idxOf_ladder c).1, (idxOf_ladder b).1, if_neg later, Fin.lt_def]
  split_ifs with start
  · omega
  · omega

theorem idxOf_ladder_reverse (c b : Fin 52) :
    (List.finRange 52).reverse.idxOf c < (List.finRange 52).reverse.idxOf b ↔ b < c := by
  rw [(idxOf_ladder c).2, (idxOf_ladder b).2, Fin.lt_def]
  omega

/-- The blocks of the ladder in depth-first order. -/
abbrev ladderOrder : BlockOpt 52 := compdfo ladder (unvisited 52) 0

/-- The upper rungs are reached around the lowest one from above, with a sweep for each. -/
theorem ladder_around {count : Nat} {b : Fin 52} (way : AroundWay ladder 0 ladderOrder count b 1) :
    b = 0 ∨ 2 ≤ b.val ∧ 51 ≤ b.val + count := by
  generalize lowest : (1 : Fin 52) = a at way
  rw [AroundWay, dfo_ladder] at way
  induction way with
  | here first => exact Or.inl first.1
  | own _ never => exact never.elim
  | @along count b c a member edge ahead _ inductionHypothesis =>
    have later : b ≠ 0 := by
      rintro rfl
      exact absurd member (by decide)
    have order := (idxOf_ladder_tail c b later).mp ahead
    have step := (mem_ladder_Bsucc c b).mp (Flowgraph.mem_Bpred.mp edge.1)
    have around : b.val ≠ 1 := fun same => edge.2 (lowest.symm.trans (Fin.ext same.symm))
    have source := inductionHypothesis lowest
    have below : c.val < b.val := order.2
    omega
  | @against count b c a member edge behind _ inductionHypothesis =>
    have step := (mem_ladder_Bsucc c b).mp (Flowgraph.mem_Bpred.mp edge.1)
    have around : b.val ≠ 1 := fun same => edge.2 (lowest.symm.trans (Fin.ext same.symm))
    have source := inductionHypothesis lowest
    omega

theorem mem_ladder_GEN : ∀ b : Fin 52,
    ((1 : Fin 2) ∈ (lvgenkill pairSymtab false ladderProgram b).GEN ↔ b = 1) ∧
      (1 : Fin 2) ∉ (lvgenkill pairSymtab false ladderProgram b).KILL := by
  decide

/-- The variable of the lowest rung is live on the upper ones, with a sweep for each. -/
theorem ladder_live {count : Nat} {b : Fin 52}
    (way : LiveWay pairSymtab false ladderProgram ladderOrder.dfo count b 1) :
    b.val ≤ count + 1 := by
  generalize lowest : (1 : Fin 2) = s at way
  rw [LiveWay, dfo_ladder] at way
  induction way with
  | @here count b s first =>
    have rung : b = 1 := (mem_ladder_GEN b).1.mp (lowest ▸ first.2)
    rw [rung]
    exact Nat.le_add_left 1 count
  | @own count b s _ first =>
    have rung : b = 1 := by
      rcases first with used | ⟨_, exit, _⟩
      · exact (mem_ladder_GEN b).1.mp (lowest ▸ used)
      · exact absurd exit (by rw [← lowest]; decide)
    rw [rung]
    exact Nat.le_add_left 1 _
  | @along count b c s _ edge ahead _ inductionHypothesis =>
    have order : b.val < c.val := (idxOf_ladder_reverse c b).mp ahead
    have source := inductionHypothesis lowest
    omega
  | @against count b c s _ edge _ _ inductionHypothesis =>
    have step := (mem_ladder_Bsucc b c).mp edge.1
    have source := inductionHypothesis lowest
    omega

/-- The lowest rung dominates no other. -/
theorem ladder_not_dominates (count : Nat) (inside : count ≤ 48) :
    ¬Dominates ladder.Bsucc 0 1 ⟨50 - count, by omega⟩ := by
  suffices avoids : ∃ passed, Path ladder.Bsucc 0 passed ⟨50 - count, by omega⟩ ∧ 1 ∉ passed by
    obtain ⟨passed, path, outside⟩ := avoids
    exact fun dominates => outside (dominates passed path)
  induction count with
  | zero => exact ⟨[0] ++ [50], .step .start (by decide), by decide⟩
  | succ count inductionHypothesis =>
    obtain ⟨passed, path, outside⟩ := inductionHypothesis (by omega)
    refine ⟨_, path.step ((mem_ladder_Bsucc _ _).mpr (by dsimp only; omega)), ?_⟩
    rw [List.mem_append, List.mem_singleton, not_or]
    refine ⟨outside, fun same => ?_⟩
    have value : 1 = 50 - (count + 1) := congrArg Fin.val same
    omega

/-- The variable of the lowest rung is live on every rung. -/
theorem ladder_liveWay (count : Nat) (inside : count ≤ 49) :
    LiveWay pairSymtab false ladderProgram ladderOrder.dfo count ⟨count + 1, by omega⟩ 1 := by
  rw [LiveWay, dfo_ladder]
  induction count with
  | zero => exact .here ⟨List.mem_finRange _, (mem_ladder_GEN _).1.mpr rfl⟩
  | succ count inductionHypothesis =>
    refine .against (List.mem_reverse.mpr (List.mem_finRange _))
      ⟨(mem_ladder_Bsucc _ _).mpr ?_, (mem_ladder_GEN _).2⟩ ?_ (inductionHypothesis (by omega))
    · dsimp only
      omega
    · rw [idxOf_ladder_reverse, Fin.lt_def]
      dsimp only
      omega

theorem ladder_closed : Closed ladder 0 :=
  fun _ _ b _ => (compdfo_ordered ladder (unvisited 52) 0).listed.mp
    (by rw [dfo_ladder]; exact List.mem_finRange b)

end LaserD.Flow
