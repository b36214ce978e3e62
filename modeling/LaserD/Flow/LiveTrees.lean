/-
This file shows that trees read no variables but those in `GEN`, unless these have been
completely written before.

Two states are compared that differ in variables of a set `D`. While a tree is evaluated in both,
the variables that have been written completely become equal, and no other variable of `D` is
read, so that values and effects are the same. Of the variables in `E` it is watched as well that
the log has no read of them too early. Without watched variables the logs may differ.
-/

import LaserD.Flow.Live

namespace LaserD.Flow

variable {Sym : Type} [DecidableEq Sym] {A W V T : Type}

/-! ### Accesses -/

/-- The access may read bytes of a variable. -/
def Access.Reads (tab : Symtab Sym) (s : Sym) : Access Sym → Prop
  | .read t _ size => t = s ∧ 0 < size
  | .write _ _ _ => False
  | .shared => tab.SFLunambig s = false
  | .all => True
  | .exit => tab.SFLlivexit s = true

/-- Every byte of a variable has been written. -/
def Overwritten (tab : Symtab Sym) (s : Sym) (log : List (Access Sym)) : Prop :=
  ∀ i < tab.typeSize s, ∃ offset size, Access.write s offset size ∈ log ∧ offset ≤ i ∧
    i < offset + size

/-- No byte of a variable was read before all of them were written. -/
def Unread (tab : Symtab Sym) (s : Sym) (log : List (Access Sym)) : Prop :=
  ∀ before access after, log = before ++ access :: after → access.Reads tab s →
    Overwritten tab s before

variable {tab : Symtab Sym} {s : Sym} {log : List (Access Sym)} {access : Access Sym}

theorem Overwritten.append (written : Overwritten tab s log) (access : Access Sym) :
    Overwritten tab s (log ++ [access]) := by
  intro i small
  obtain ⟨offset, size, member, range⟩ := written i small
  exact ⟨offset, size, List.mem_append_left _ member, range⟩

theorem Unread.append (unread : Unread tab s log)
    (allowed : access.Reads tab s → Overwritten tab s log) : Unread tab s (log ++ [access]) := by
  intro before other after whole reads
  rcases List.append_eq_append_iff.mp whole with ⟨tail, here, rest⟩ | ⟨tail, here, rest⟩
  · cases tail with
    | nil =>
      rw [List.nil_append, List.cons.injEq] at rest
      rw [List.append_nil] at here
      rw [here]
      exact allowed (rest.1 ▸ reads)
    | cons first tail =>
      rw [List.cons_append, List.cons.injEq] at rest
      exact absurd rest.2.symm (List.append_ne_nil_of_right_ne_nil _ (List.cons_ne_nil _ _))
  · cases tail with
    | nil =>
      rw [List.nil_append, List.cons.injEq] at rest
      rw [List.append_nil] at here
      rw [← here]
      exact allowed (rest.1 ▸ reads)
    | cons first tail =>
      rw [List.cons_append, List.cons.injEq] at rest
      exact unread before other tail (rest.1 ▸ here) reads

theorem unread_nil : Unread tab s [] := by
  intro before access after whole
  exact absurd whole.symm (List.append_ne_nil_of_right_ne_nil _ (List.cons_ne_nil _ _))

/-! ### Two states -/

/-- The states have the same memory but for the bytes of some variables. -/
structure Agree (tab : Symtab Sym) (D : Finset Sym) (σ τ : Memory Sym A W) : Prop where
  bytes : ∀ l, (∀ s ∈ D, ∀ i < tab.typeSize s, l ≠ .var s i) → σ.bytes l = τ.bytes l
  world : σ.world = τ.world

theorem Agree.mono {D D' : Finset Sym} {σ τ : Memory Sym A W} (agree : Agree tab D σ τ)
    (sub : D ⊆ D') : Agree tab D' σ τ :=
  ⟨fun l outside => agree.bytes l fun s member => outside s (sub member), agree.world⟩

/-- The states differ in variables of `D` that are not in `K`. Of the variables in `E` none has been
read too early, and those in `K` have been written. -/
structure Sim (tab : Symtab Sym) (D E K : Finset Sym) (σ τ : State Sym A W) : Prop where
  agree : Agree tab (D \ K) σ.toMemory τ.toMemory
  watched : ∀ s ∈ E, Unread tab s σ.log ∧ (s ∈ K → Overwritten tab s σ.log)

/-- Two executions with the same result and similar states. -/
def Matches (tab : Symtab Sym) (D E K : Finset Sym) : Outcome Sym A W T → Outcome Sym A W T → Prop
  | .ok (v, σ), .ok (w, τ) => v = w ∧ Sim tab D E K σ τ
  | .error σ, .error τ => Sim tab D E ∅ σ τ
  | _, _ => False

section

variable {D E K K' : Finset Sym} {σ τ : State Sym A W}

theorem Sim.mono (sim : Sim tab D E K σ τ) (sub : K' ⊆ K) : Sim tab D E K' σ τ :=
  ⟨sim.agree.mono (Finset.sdiff_subset_sdiff subset_rfl sub), fun s member =>
    ⟨(sim.watched s member).1, fun killed => (sim.watched s member).2 (sub killed)⟩⟩

theorem Sim.stopped (sim : Sim tab D E K σ τ) : Sim tab D E ∅ σ τ :=
  sim.mono (Finset.empty_subset K)

theorem Matches.mono {o o' : Outcome Sym A W T} (matched : Matches tab D E K o o') (sub : K' ⊆ K) :
    Matches tab D E K' o o' := by
  match o, o', matched with
  | .ok (_, _), .ok (_, _), ⟨same, sim⟩ => exact ⟨same, sim.mono sub⟩
  | .error _, .error _, sim => exact sim

theorem Except.bind_bind {S U X Y : Type} (o : Except S U) (f : U → Except S X)
    (g : X → Except S Y) :
    Except.bind (Except.bind o f) g = Except.bind o fun u => Except.bind (f u) g := by
  cases o <;> rfl

/-- One execution after another. -/
theorem Matches.bind {U : Type} {o o' : Except (State Sym A W) (T × State Sym A W)}
    {f f' : T × State Sym A W → Except (State Sym A W) (U × State Sym A W)}
    (matched : Matches tab D E K o o')
    (next : ∀ v σ τ, Sim tab D E K σ τ → Matches tab D E K' (f (v, σ)) (f' (v, τ))) :
    Matches tab D E K' (Except.bind o f) (Except.bind o' f') := by
  match o, o', matched with
  | .ok (v, σ), .ok (_, τ), ⟨rfl, sim⟩ => exact next v σ τ sim
  | .error _, .error _, sim => exact sim

/-- An access that reads only watched variables that have been written. -/
theorem Sim.logged (sim : Sim tab D E K σ τ) (access : Access Sym)
    (allowed : ∀ s ∈ E, access.Reads tab s → s ∈ K) :
    Sim tab D E K (σ.logged access) (τ.logged access) := by
  refine ⟨sim.agree, fun s member => ?_⟩
  obtain ⟨unread, written⟩ := sim.watched s member
  exact ⟨unread.append fun reads => written (allowed s member reads),
    fun killed => (written killed).append access⟩

end

/-! ### Single accesses -/

section

variable {D E K : Finset Sym} {σ τ : State Sym A W}

/-- The variables that differ are not shared. -/
def Unshared (tab : Symtab Sym) (D K : Finset Sym) : Prop :=
  ∀ s ∈ D, tab.SFLunambig s = false → s ∈ K

theorem Agree.shared {σ τ : Memory Sym A W} (agree : Agree tab (D \ K) σ τ)
    (unshared : Unshared tab D K) {l : Loc Sym A} (shared : l.Shared tab) :
    σ.bytes l = τ.bytes l := by
  refine agree.bytes l fun s member i _ here => ?_
  obtain ⟨differs, alive⟩ := Finset.mem_sdiff.mp member
  rw [here] at shared
  exact alive (unshared s differs shared)

theorem Agree.hide {σ τ : Memory Sym A W} (agree : Agree tab (D \ K) σ τ)
    (unshared : Unshared tab D K) : σ.hide tab = τ.hide tab := by
  rw [Memory.hide, Memory.hide, agree.world]
  refine congrArg (Memory.mk · τ.world) (funext fun l => ?_)
  split_ifs with shared
  · exact agree.shared unshared shared
  · rfl

theorem Sim.merge (sim : Sim tab D E K σ τ) (others : Memory Sym A W) :
    Sim tab D E K { σ with toMemory := σ.merge tab others }
      { τ with toMemory := τ.merge tab others } := by
  refine ⟨⟨fun l outside => ?_, rfl⟩, sim.watched⟩
  show (if l.Shared tab then others.bytes l else σ.bytes l) =
    if l.Shared tab then others.bytes l else τ.bytes l
  rw [sim.agree.bytes l outside]

variable (m : Machine tab A W V)

theorem Machine.fetch_direct_sim (sim : Sim tab D E K σ τ) (sub : E ⊆ D) (ty : Ty) {s : Sym}
    (offset : Nat) (same : s ∈ D → s ∈ K) :
    Matches tab D E K (.ok (m.fetch ty (.direct s offset) σ))
      (.ok (m.fetch ty (.direct s offset) τ)) := by
  refine ⟨?_, sim.logged _ fun t member reads => ?_⟩
  · refine congrArg _ (List.map_congr_left fun i _ => ?_)
    refine sim.agree.bytes _ fun t member j _ here => ?_
    obtain ⟨differs, alive⟩ := Finset.mem_sdiff.mp member
    cases here
    exact alive (same differs)
  · obtain ⟨rfl, _⟩ := reads
    exact same (sub member)

theorem Machine.fetch_pointer_sim (sim : Sim tab D E K σ τ) (sub : E ⊆ D) (ty : Ty) (v : V)
    (unshared : Unshared tab D K) :
    Matches tab D E K (.ok (m.fetch ty (.pointer v) σ)) (.ok (m.fetch ty (.pointer v) τ)) := by
  refine ⟨?_, sim.logged _ fun t member reads => unshared t (sub member) reads⟩
  exact congrArg _ (List.map_congr_left fun i _ => sim.agree.shared unshared (m.shared v i))

/-- An operator on equal values. -/
theorem Machine.applyOp_sim (sim : Sim tab D E K σ τ) (sub : E ⊆ D) (op : Oper) (ty : Ty)
    (vs : List V) (unshared : op.accessesShared = true → Unshared tab D K) :
    Matches tab D E K (m.applyOp op ty vs σ) (m.applyOp op ty vs τ) := by
  have log : Unshared tab D K → Sim tab D E K (σ.logged .shared) (τ.logged .shared) :=
    fun unshared => sim.logged _ fun t member reads => unshared t (sub member) reads
  unfold applyOp
  cases effect : op.effect with
  | pure =>
    dsimp only
    cases m.apply op ty vs with
    | some v => exact ⟨rfl, sim⟩
    | none => exact sim.stopped
  | load =>
    have unshared := unshared (by rw [Oper.accessesShared, effect]; rfl)
    rcases vs with _ | ⟨v, _ | ⟨_, _⟩⟩
    · exact sim.stopped
    · exact m.fetch_pointer_sim sim sub ty v unshared
    · exact sim.stopped
  | peek =>
    have unshared := unshared (by rw [Oper.accessesShared, effect]; rfl)
    dsimp only
    rw [sim.agree.hide unshared]
    cases m.peek op ty vs (τ.hide tab) with
    | some v => exact ⟨rfl, log unshared⟩
    | none => exact (log unshared).stopped
  | exec =>
    have unshared := unshared (by rw [Oper.accessesShared, effect]; rfl)
    dsimp only
    rw [sim.agree.hide unshared]
    have merged := (log unshared).merge (m.exec op ty vs (τ.hide tab)).2
    cases (m.exec op ty vs (τ.hide tab)).1 with
    | some v => exact ⟨rfl, merged⟩
    | none => exact merged.stopped
  | port =>
    dsimp only
    rw [sim.agree.world]
    exact ⟨rfl, ⟨sim.agree.bytes, rfl⟩, sim.watched⟩

theorem Machine.asmOp_sim (sim : Sim tab D E K σ τ) (sub : E ⊆ D) (code : Nat)
    (equal : D ⊆ K) : Matches tab D E K (m.asmOp code σ) (m.asmOp code τ) := by
  have same : σ.toMemory = τ.toMemory := by
    refine Memory.ext (funext fun l => sim.agree.bytes l fun s member => ?_) sim.agree.world
    rw [Finset.sdiff_eq_empty_iff_subset.mpr equal] at member
    exact absurd member (Finset.notMem_empty s)
  have logged := sim.logged .all fun s member _ => equal (sub member)
  have after : Sim tab D E K { σ.logged .all with toMemory := (m.asm_ code τ.toMemory).2 }
      { τ.logged .all with toMemory := (m.asm_ code τ.toMemory).2 } :=
    ⟨⟨fun _ _ => rfl, rfl⟩, logged.watched⟩
  rw [asmOp, asmOp, same]
  dsimp only
  cases (m.asm_ code τ.toMemory).1 with
  | some v => exact ⟨rfl, after⟩
  | none => exact after.stopped

theorem returning_sim (op : Oper) (callee : Elem Sym) {o o' : Outcome Sym A W V}
    (matched : Matches tab D E K o o') :
    Matches tab D E K (Machine.returning tab op callee o) (Machine.returning tab op callee o') := by
  match o, o', matched with
  | .ok (v, σ), .ok (_, τ), ⟨rfl, sim⟩ =>
    rw [Machine.returning, Machine.returning]
    split_ifs
    · exact sim.stopped
    · exact ⟨rfl, sim⟩
  | .error _, .error _, sim => exact sim

variable [DecidableEq A]

theorem writeBytes_congr (loc : Nat → Loc Sym A) (byte : Nat → Byte) (size : Nat)
    {f g : Loc Sym A → Byte} {l : Loc Sym A}
    (same : f l = g l ∨ ∃ i < size, loc i = l) :
    writeBytes loc byte size f l = writeBytes loc byte size g l := by
  induction size with
  | zero =>
    rcases same with same | ⟨_, small, _⟩
    · exact same
    · exact absurd small (Nat.not_lt_zero _)
  | succ size inductionHypothesis =>
    rw [writeBytes, writeBytes]
    by_cases last : l = loc size
    · rw [last, Function.update_self, Function.update_self]
    · rw [Function.update_of_ne last, Function.update_of_ne last]
      refine inductionHypothesis (same.imp id ?_)
      rintro ⟨i, small, here⟩
      refine ⟨i, ?_, here⟩
      have other : i ≠ size := fun same => last (same ▸ here.symm)
      omega

/-- The same bytes are written in both states. -/
theorem Machine.store_sim (sim : Sim tab D E K σ τ) (size : Nat) (place : Place Sym V) (v : V) :
    Sim tab D E K (m.store size place v σ) (m.store size place v τ) := by
  have written : Sim tab D E K
      { σ with bytes := writeBytes (m.loc place) (m.toBytes size v) size σ.bytes }
      { τ with bytes := writeBytes (m.loc place) (m.toBytes size v) size τ.bytes } :=
    ⟨⟨fun l outside => writeBytes_congr _ _ _ (Or.inl (sim.agree.bytes l outside)),
      sim.agree.world⟩, sim.watched⟩
  cases place with
  | direct s offset => exact written.logged _ fun _ _ reads => absurd reads id
  | pointer v => exact written

/-- A variable that is written completely is the same in both states. -/
theorem Machine.store_kills (sim : Sim tab D E K σ τ) (s : Sym) (v : V) :
    Sim tab D E (Insert.insert s K) (m.store (tab.typeSize s) (.direct s 0) v σ)
      (m.store (tab.typeSize s) (.direct s 0) v τ) := by
  obtain ⟨_, watched⟩ := m.store_sim sim (tab.typeSize s) (.direct s 0) v
  refine ⟨⟨fun l outside => writeBytes_congr _ _ _ ?_, sim.agree.world⟩, fun t member => ?_⟩
  · by_cases here : ∃ i < tab.typeSize s, l = .var s i
    · obtain ⟨i, small, rfl⟩ := here
      refine Or.inr ⟨i, small, ?_⟩
      rw [loc, Nat.zero_add]
    · refine Or.inl (sim.agree.bytes l fun t member i small other => ?_)
      obtain ⟨differs, alive⟩ := Finset.mem_sdiff.mp member
      by_cases same : t = s
      · exact here ⟨i, same ▸ small, same ▸ other⟩
      · refine outside t (Finset.mem_sdiff.mpr ⟨differs, ?_⟩) i small other
        rw [Finset.mem_insert, not_or]
        exact ⟨same, alive⟩
  · refine ⟨(watched t member).1, fun killed => ?_⟩
    rcases Finset.mem_insert.mp killed with rfl | before
    · intro i small
      exact ⟨0, _, List.mem_append_right _ (List.mem_singleton.mpr rfl), Nat.zero_le i,
        by rwa [Nat.zero_add]⟩
    · exact (watched t member).2 before

theorem Machine.modifyOp_sim (op : Oper) (ty : Ty)
    (place : Place Sym V) (vs : List V)
    (fetched : Matches tab D E K (.ok (m.fetch ty place σ)) (.ok (m.fetch ty place τ))) :
    Matches tab D E K (m.modifyOp op ty place vs σ) (m.modifyOp op ty place vs τ) := by
  obtain ⟨same, sim⟩ : (m.fetch ty place σ).1 = (m.fetch ty place τ).1 ∧
    Sim tab D E K (m.fetch ty place σ).2 (m.fetch ty place τ).2 := fetched
  rw [modifyOp, modifyOp]
  dsimp only
  rw [same]
  cases m.modify op ty (m.fetch ty place τ).1 vs with
  | some stored => exact ⟨rfl, m.store_sim sim _ place stored.2⟩
  | none => exact sim.stopped

end

/-! ### The sets grow -/

/-- Local variables are generated, and none that is killed. -/
structure GenKill.Proper (tab : Symtab Sym) (gk : GenKill Sym) : Prop where
  apart : Disjoint gk.GEN gk.KILL
  inTable : gk.GEN ⊆ tab.globsym

/-- More has been generated and killed. -/
structure GenKill.Grows (tab : Symtab Sym) (gk gk' : GenKill Sym) : Prop where
  proper : gk'.Proper tab
  gen : gk.GEN ⊆ gk'.GEN
  kill : gk.KILL ⊆ gk'.KILL

section

variable {gk gk' gk'' : GenKill Sym} {inline8087 : Bool}

theorem GenKill.proper_empty : ({} : GenKill Sym).Proper tab :=
  ⟨Finset.disjoint_empty_left _, Finset.empty_subset _⟩

theorem GenKill.Grows.refl (proper : gk.Proper tab) : gk.Grows tab gk :=
  ⟨proper, subset_rfl, subset_rfl⟩

theorem GenKill.Grows.trans (first : gk.Grows tab gk') (second : gk'.Grows tab gk'') : gk.Grows tab gk'' :=
  ⟨second.proper, first.gen.trans second.gen, first.kill.trans second.kill⟩

theorem GenKill.grows_ambiguous (proper : gk.Proper tab) :
    gk.Grows tab (gk.ambiguous tab) := by
  refine ⟨⟨Finset.sdiff_disjoint, ?_⟩, fun s member => ?_, subset_rfl⟩
  · exact Finset.sdiff_subset.trans
      (Finset.union_subset proper.inTable (Finset.filter_subset _ _))
  · exact Finset.mem_sdiff.mpr ⟨Finset.mem_union_left _ member,
      Finset.disjoint_left.mp proper.apart member⟩

mutual

theorem accumlv_grows : ∀ (e : Elem Sym) {gk : GenKill Sym}, gk.Proper tab →
    gk.Grows tab (accumlv tab inline8087 e gk)
  | .var _ s _, gk, proper => by
    rw [accumlv]
    split_ifs with fresh
    · refine ⟨⟨?_, ?_⟩, Finset.subset_insert _ _, subset_rfl⟩
      · exact Finset.disjoint_insert_left.mpr ⟨fresh.2, proper.apart⟩
      · exact Finset.insert_subset fresh.1 proper.inTable
    · exact .refl proper
  | .leaf _ _ _, gk, proper => by
    rw [accumlv]
    exact .refl proper
  | .asm_ _, gk, proper => by
    rw [accumlv]
    refine ⟨⟨Finset.sdiff_disjoint, Finset.sdiff_subset⟩, fun s member => ?_, subset_rfl⟩
    exact Finset.mem_sdiff.mpr ⟨proper.inTable member, Finset.disjoint_left.mp proper.apart member⟩
  | .una op _ E1, gk, proper => by
    have inner := accumlv_grows E1 proper
    rw [accumlv]
    split_ifs
    · exact inner.trans (GenKill.grows_ambiguous inner.proper)
    · exact inner
  | .cond _ E1 whenTrue whenFalse, gk, proper => by
    have first := accumlv_grows E1 proper
    rw [accumlv]
    have onTrue := accumlv_grows whenTrue GenKill.proper_empty
    have onFalse := accumlv_grows whenFalse GenKill.proper_empty
    refine first.trans ⟨⟨?_, ?_⟩, Finset.subset_union_left, Finset.subset_union_left⟩
    · refine Finset.disjoint_union_right.mpr ⟨?_, Finset.disjoint_sdiff⟩
      exact Finset.disjoint_union_left.mpr ⟨first.proper.apart, Finset.sdiff_disjoint⟩
    · exact Finset.union_subset first.proper.inTable (Finset.sdiff_subset.trans
        (Finset.union_subset onTrue.proper.inTable onFalse.proper.inTable))
  | .bin op n E1 E2, gk, proper => by
    have left := accumlv_grows E1 proper
    have right := accumlv_grows E2 proper
    have leftRight := left.trans (accumlv_grows E2 left.proper)
    have rightLeft := right.trans (accumlv_grows E1 right.proper)
    rw [accumlv]
    split_ifs
    · refine left.trans ⟨⟨?_, ?_⟩, Finset.subset_union_left, subset_rfl⟩
      · exact Finset.disjoint_union_left.mpr ⟨left.proper.apart, Finset.sdiff_disjoint⟩
      · exact Finset.union_subset left.proper.inTable (Finset.sdiff_subset.trans
          (accumlv_grows E2 GenKill.proper_empty).proper.inTable)
    · exact rightLeft.trans (GenKill.grows_ambiguous rightLeft.proper)
    · exact leftRight.trans (GenKill.grows_ambiguous leftRight.proper)
    · exact right.trans (accumTarget_grows _ E1 right.proper)
    · exact right.trans (accumTarget_grows _ E1 right.proper)
    · exact leftRight.trans (GenKill.grows_ambiguous leftRight.proper)
    · exact rightLeft
    · exact leftRight

theorem accumTarget_grows (tsz : Nat) : ∀ (e : Elem Sym) {gk : GenKill Sym},
    gk.Proper tab → gk.Grows tab (accumTarget tab inline8087 tsz e gk)
  | .var _ s _, gk, proper => by
    rw [accumTarget]
    split_ifs with fresh
    · refine ⟨⟨?_, proper.inTable⟩, subset_rfl, Finset.subset_insert _ _⟩
      exact Finset.disjoint_insert_right.mpr ⟨fresh.2.1, proper.apart⟩
    · exact .refl proper
  | .leaf _ _ _, gk, proper => by
    rw [accumTarget]
    · exact .refl proper
    all_goals simp
  | .asm_ _, gk, proper => by
    rw [accumTarget]
    · exact .refl proper
    all_goals simp
  | .una _ _ E1, gk, proper => by
    rw [accumTarget]
    exact accumlv_grows E1 proper
  | .bin _ _ E1 _, gk, proper => by
    rw [accumTarget]
    exact accumlv_grows E1 proper
  | .cond _ E1 _ _, gk, proper => by
    rw [accumTarget]
    exact accumlv_grows E1 proper

end

end

/-! ### Trees -/

/-- A bit in memory is tested and changed somewhere in the tree. -/
def Elem.modifiesBits : Elem Sym → Bool
  | .var _ _ _ => false
  | .leaf _ _ _ => false
  | .asm_ _ => false
  | .una _ _ E1 => E1.modifiesBits
  | .bin op _ E1 E2 => decide (op ∈ [.btc, .btr, .bts]) || E1.modifiesBits || E2.modifiesBits
  | .cond _ E1 whenTrue whenFalse =>
      E1.modifiesBits || whenTrue.modifiesBits || whenFalse.modifiesBits

/-- The variables of `D` that are generated have been written before. -/
def Spared (D K : Finset Sym) (gk : GenKill Sym) : Prop :=
  ∀ s ∈ D, s ∈ gk.GEN → s ∈ K

/-- What stands at a place is the same in both states. -/
def Place.Fetchable (tab : Symtab Sym) (D K : Finset Sym) : Place Sym V → Prop
  | .direct s _ => s ∈ D → s ∈ K
  | .pointer _ => Unshared tab D K

section

variable [DecidableEq A] (m : Machine tab A W V) {D E K K' : Finset Sym} {gk gk' : GenKill Sym}
  {σ τ : State Sym A W}

theorem Spared.of_grows (spared : Spared D K gk') (grows : gk.Grows tab gk') : Spared D K gk :=
  fun s differs generated => spared s differs (grows.gen generated)

/-- Behind an ambiguous reference the variables that differ are not shared. -/
theorem Spared.unshared (spared : Spared D K (gk.ambiguous tab)) (sub : D ⊆ tab.globsym) :
    Unshared tab D (K ∪ gk.KILL) := by
  intro s differs shared
  by_cases killed : s ∈ gk.KILL
  · exact Finset.mem_union_right _ killed
  · refine Finset.mem_union_left _ (spared s differs (Finset.mem_sdiff.mpr ⟨?_, killed⟩))
    exact Finset.mem_union_right _ (Finset.mem_filter.mpr ⟨sub differs, shared⟩)

theorem Place.Fetchable.mono {place : Place Sym V} (fetchable : place.Fetchable tab D K)
    (sub : K ⊆ K') : place.Fetchable tab D K' := by
  cases place with
  | direct s offset => exact fun differs => sub (fetchable differs)
  | pointer v => exact fun s differs shared => sub (fetchable s differs shared)

omit [DecidableEq A] in
theorem Machine.fetch_sim (sim : Sim tab D E K σ τ) (sub : E ⊆ D) (ty : Ty) {place : Place Sym V}
    (fetchable : place.Fetchable tab D K) :
    Matches tab D E K (.ok (m.fetch ty place σ)) (.ok (m.fetch ty place τ)) := by
  cases place with
  | direct s offset => exact m.fetch_direct_sim sim sub ty offset fetchable
  | pointer v => exact m.fetch_pointer_sim sim sub ty v fetchable

/-- The operators that `accumlv` does not name access nothing that is shared, but for those that
change a bit in memory. -/
theorem Bin.accessesShared_default {op : Bin} (notCall : op ∉ [.call, .callns, .strcpy, .memcpy, .memset])
    (notStrcat : op ≠ .strcat) (notCompare : op ∉ [.memcmp, .strcmp, .bt])
    (notModify : op ∉ [.btc, .btr, .bts]) : (Oper.bin op).accessesShared = false := by
  cases op <;> first | rfl | simp at notCall notStrcat notCompare notModify

theorem Una.accessesShared_default {op : Una} (other : op ∉ [.ind, .ucall, .ucallns, .strlen]) :
    (Oper.una op).accessesShared = false := by
  cases op <;> first | rfl | simp at other

/-- A call and its like evaluate the right operand first. -/
theorem Bin.call_order (inline8087 : Bool) (n : Node) :
    ∀ op ∈ [Bin.call, .callns, .strcpy, .memcpy, .memset], op ≠ .comma ∧
      ¬ (op = .eq ∨ op = .streq) ∧ ¬ op.OTassign = true ∧ ERTOL inline8087 op n = true := by
  have table : ∀ op ∈ [Bin.call, .callns, .strcpy, .memcpy, .memset], op ≠ .comma ∧
      ¬ (op = .eq ∨ op = .streq) ∧ ¬ op.OTassign = true ∧ op.OTrtol = true ∧
        op.OTopeq = false := by decide
  intro op call
  obtain ⟨notComma, notEq, notAssign, rtol, notOpeq⟩ := table op call
  refine ⟨notComma, notEq, notAssign, ?_⟩
  rw [ERTOL, rtol, notOpeq]
  rfl

/-- The operators that read memory without changing it, and `strcat`, evaluate the left operand
first. -/
theorem Bin.compare_order (inline8087 : Bool) (n : Node) :
    ∀ op ∈ [Bin.strcat, .memcmp, .strcmp, .bt], op ≠ .comma ∧ ¬ (op = .andand ∨ op = .oror) ∧
      ¬ (op = .eq ∨ op = .streq) ∧ ¬ op.OTassign = true ∧ ¬ ERTOL inline8087 op n = true := by
  have table : ∀ op ∈ [Bin.strcat, .memcmp, .strcmp, .bt], op ≠ .comma ∧
      ¬ (op = .andand ∨ op = .oror) ∧ ¬ (op = .eq ∨ op = .streq) ∧ ¬ op.OTassign = true ∧
        op.OTrtol = false := by decide
  intro op compare
  obtain ⟨notComma, notLogical, notEq, notAssign, ltor⟩ := table op compare
  refine ⟨notComma, notLogical, notEq, notAssign, ?_⟩
  rw [ERTOL, ltor]
  exact Bool.false_ne_true

/-- The operand on the left of an assignment is a variable or stands behind a pointer. -/
theorem Machine.place_una {op : Una} (other : op ≠ .ind) (n : Node) (E1 : Elem Sym)
    (σ : State Sym A W) : m.place (.una op n E1) σ = .error σ := by
  rw [place]
  · intro n' s offset here
    cases here
  · intro n' E1' here
    cases here
    exact other rfl

mutual

/-- The evaluations of a tree in similar states match. -/
theorem Machine.eval_sim (watched : E ⊆ D) (local_ : D ⊆ tab.globsym) : ∀ (e : Elem Sym)
    {gk : GenKill Sym} {K : Finset Sym} {σ τ : State Sym A W}, gk.Proper tab →
    e.modifiesBits = false → Spared D K (accumlv tab m.inline8087 e gk) →
    Sim tab D E (K ∪ gk.KILL) σ τ →
    Matches tab D E (K ∪ (accumlv tab m.inline8087 e gk).KILL) (m.eval e σ) (m.eval e τ)
  | .var n s offset, gk, K, σ, τ, proper, _, spared, sim => by
    have kill : (accumlv tab m.inline8087 (.var n s offset) gk).KILL = gk.KILL := by
      rw [accumlv]
      split_ifs <;> rfl
    rw [kill, eval, eval]
    refine m.fetch_direct_sim sim watched n.Ety offset fun differs => ?_
    by_cases killed : s ∈ gk.KILL
    · exact Finset.mem_union_right _ killed
    · refine Finset.mem_union_left _ (spared s differs ?_)
      rw [accumlv, if_pos ⟨local_ differs, killed⟩]
      exact Finset.mem_insert_self _ _
  | .leaf op n value, gk, K, σ, τ, proper, _, spared, sim => by
    rw [accumlv, eval, eval]
    split_ifs
    · exact sim.stopped
    · exact ⟨rfl, sim⟩
  | .asm_ code, gk, K, σ, τ, proper, _, spared, sim => by
    rw [accumlv] at spared ⊢
    rw [eval, eval]
    refine m.asmOp_sim sim watched code fun s differs => ?_
    by_cases killed : s ∈ gk.KILL
    · exact Finset.mem_union_right _ killed
    · exact Finset.mem_union_left _ (spared s differs
        (Finset.mem_sdiff.mpr ⟨local_ differs, killed⟩))
  | .una op n E1, gk, K, σ, τ, proper, plain, spared, sim => by
    rw [Elem.modifiesBits] at plain
    rw [accumlv] at spared ⊢
    rw [eval, eval]
    have grows := @accumlv_grows _ _ tab m.inline8087 E1 gk proper
    by_cases ambiguous : op ∈ [.ind, .ucall, .ucallns, .strlen]
    · rw [if_pos ambiguous] at spared ⊢
      have notNegass : op ≠ .negass := by
        rintro rfl
        exact absurd ambiguous (by decide)
      rw [if_neg notNegass, if_neg notNegass]
      refine Matches.bind (eval_sim watched local_ E1 proper plain
        (spared.of_grows (GenKill.grows_ambiguous grows.proper)) sim) fun v σ τ sim => ?_
      exact returning_sim _ _ (m.applyOp_sim sim watched _ _ _ fun _ => spared.unshared local_)
    · rw [if_neg ambiguous] at spared ⊢
      split_ifs
      · exact place_sim watched local_ E1 proper plain spared sim fun p σ τ fetchable sim =>
          m.modifyOp_sim _ _ p _ (m.fetch_sim sim watched _ fetchable)
      · refine Matches.bind (eval_sim watched local_ E1 proper plain spared sim) fun v σ τ sim => ?_
        refine returning_sim _ _ (m.applyOp_sim sim watched _ _ _ fun shared => ?_)
        rw [Una.accessesShared_default ambiguous] at shared
        cases shared
  | .cond n E1 whenTrue whenFalse, gk, K, σ, τ, proper, plain, spared, sim => by
    rw [Elem.modifiesBits, Bool.or_eq_false_iff, Bool.or_eq_false_iff] at plain
    obtain ⟨⟨plain, plainTrue⟩, plainFalse⟩ := plain
    rw [accumlv] at spared ⊢
    dsimp only at spared ⊢
    rw [eval, eval]
    refine Matches.bind (eval_sim watched local_ E1 proper plain (fun s differs generated =>
      spared s differs (Finset.mem_union_left _ generated)) sim) fun v σ τ sim => ?_
    have branch : ∀ e : Elem Sym, (accumlv tab m.inline8087 e {}).GEN ⊆
        (accumlv tab m.inline8087 whenTrue {}).GEN ∪ (accumlv tab m.inline8087 whenFalse {}).GEN →
        Spared D (K ∪ (accumlv tab m.inline8087 E1 gk).KILL) (accumlv tab m.inline8087 e {}) := by
      intro e sub s differs generated
      by_cases killed : s ∈ (accumlv tab m.inline8087 E1 gk).KILL
      · exact Finset.mem_union_right _ killed
      · exact Finset.mem_union_left _ (spared s differs (Finset.mem_union_right _
          (Finset.mem_sdiff.mpr ⟨sub generated, killed⟩)))
    have inside : Sim tab D E (K ∪ (accumlv tab m.inline8087 E1 gk).KILL ∪ ∅) σ τ := by
      rwa [Finset.union_empty]
    dsimp only
    split_ifs
    · refine (eval_sim watched local_ whenTrue GenKill.proper_empty plainTrue
        (branch whenTrue Finset.subset_union_left) inside).mono ?_
      rw [Finset.union_assoc]
      exact Finset.union_subset_union_right (Finset.union_subset_union_right
        (Finset.sdiff_subset.trans Finset.inter_subset_left))
    · refine (eval_sim watched local_ whenFalse GenKill.proper_empty plainFalse
        (branch whenFalse Finset.subset_union_right) inside).mono ?_
      rw [Finset.union_assoc]
      exact Finset.union_subset_union_right (Finset.union_subset_union_right
        (Finset.sdiff_subset.trans Finset.inter_subset_right))
  | .bin op n E1 E2, gk, K, σ, τ, proper, plain, spared, sim => by
    rw [Elem.modifiesBits, Bool.or_eq_false_iff, Bool.or_eq_false_iff, decide_eq_false_iff_not]
      at plain
    obtain ⟨⟨notModify, plain1⟩, plain2⟩ := plain
    have left := @accumlv_grows _ _ tab m.inline8087 E1 gk proper
    have right := @accumlv_grows _ _ tab m.inline8087 E2 gk proper
    have leftRight := @accumlv_grows _ _ tab m.inline8087 E2 _ left.proper
    have rightLeft := @accumlv_grows _ _ tab m.inline8087 E1 _ right.proper
    have fromRight : ∀ {K' : Finset Sym} {f : V × State Sym A W →
        Except (State Sym A W) (V × State Sym A W)},
        Spared D K (accumlv tab m.inline8087 E1 (accumlv tab m.inline8087 E2 gk)) →
        (∀ w σ τ, Sim tab D E (K ∪ (accumlv tab m.inline8087 E2 gk).KILL) σ τ →
          Matches tab D E K' (f (w, σ)) (f (w, τ))) →
        Matches tab D E K' (Except.bind (m.eval E2 σ) f) (Except.bind (m.eval E2 τ) f) :=
      fun spared next => Matches.bind
        (eval_sim watched local_ E2 proper plain2 (spared.of_grows rightLeft) sim) next
    have fromLeft : ∀ {K' : Finset Sym} {f : V × State Sym A W →
        Except (State Sym A W) (V × State Sym A W)},
        Spared D K (accumlv tab m.inline8087 E2 (accumlv tab m.inline8087 E1 gk)) →
        (∀ v σ τ, Sim tab D E (K ∪ (accumlv tab m.inline8087 E1 gk).KILL) σ τ →
          Matches tab D E K' (f (v, σ)) (f (v, τ))) →
        Matches tab D E K' (Except.bind (m.eval E1 σ) f) (Except.bind (m.eval E1 τ) f) :=
      fun spared next => Matches.bind
        (eval_sim watched local_ E1 proper plain1 (spared.of_grows leftRight) sim) next
    rw [accumlv] at spared ⊢
    by_cases logical : op = .andand ∨ op = .oror
    · rw [if_pos logical] at spared ⊢
      have notComma : op ≠ .comma := by rcases logical with rfl | rfl <;> decide
      rw [eval, eval, if_neg notComma, if_neg notComma, if_pos logical, if_pos logical]
      refine Matches.bind (eval_sim watched local_ E1 proper plain1 (fun s differs generated =>
        spared s differs (Finset.mem_union_left _ generated)) sim) fun v σ τ sim => ?_
      dsimp only
      split_ifs
      · have inside : Sim tab D E (K ∪ (accumlv tab m.inline8087 E1 gk).KILL ∪ ∅) σ τ := by
          rwa [Finset.union_empty]
        refine Matches.bind (eval_sim watched local_ E2 GenKill.proper_empty plain2 ?_ inside)
          fun w σ τ sim => ⟨rfl, sim.mono Finset.subset_union_left⟩
        intro s differs generated
        by_cases killed : s ∈ (accumlv tab m.inline8087 E1 gk).KILL
        · exact Finset.mem_union_right _ killed
        · exact Finset.mem_union_left _ (spared s differs (Finset.mem_union_right _
            (Finset.mem_sdiff.mpr ⟨generated, killed⟩)))
      · exact ⟨rfl, sim⟩
    rw [if_neg logical] at spared ⊢
    by_cases call : op ∈ [.call, .callns, .strcpy, .memcpy, .memset]
    · rw [if_pos call] at spared ⊢
      obtain ⟨notComma, notEq, notAssign, rtol⟩ := Bin.call_order m.inline8087 n op call
      rw [eval, eval, if_neg notComma, if_neg notComma, if_neg logical, if_neg logical,
        if_neg notEq, if_neg notEq, if_neg notAssign, if_neg notAssign, if_pos rtol, if_pos rtol]
      have spared' := spared.of_grows (GenKill.grows_ambiguous rightLeft.proper)
      refine fromRight spared' fun w σ τ sim => ?_
      refine Matches.bind (eval_sim watched local_ E1 right.proper plain1 spared' sim)
        fun v σ τ sim => ?_
      exact returning_sim _ _ (m.applyOp_sim sim watched _ _ _ fun _ => spared.unshared local_)
    rw [if_neg call] at spared ⊢
    have compared : op ∈ [.strcat, .memcmp, .strcmp, .bt] →
        Spared D K ((accumlv tab m.inline8087 E2 (accumlv tab m.inline8087 E1 gk)).ambiguous tab) →
        Matches tab D E (K ∪ (accumlv tab m.inline8087 E2 (accumlv tab m.inline8087 E1 gk)).KILL)
          (m.eval (.bin op n E1 E2) σ) (m.eval (.bin op n E1 E2) τ) := by
      intro compare spared
      obtain ⟨notComma, notLogical, notEq, notAssign, ltor⟩ :=
        Bin.compare_order m.inline8087 n op compare
      rw [eval, eval, if_neg notComma, if_neg notComma, if_neg logical, if_neg logical,
        if_neg notEq, if_neg notEq, if_neg notAssign, if_neg notAssign, if_neg ltor, if_neg ltor]
      have spared' := spared.of_grows (GenKill.grows_ambiguous leftRight.proper)
      refine fromLeft spared' fun v σ τ sim => ?_
      refine Matches.bind (eval_sim watched local_ E2 left.proper plain2 spared' sim)
        fun w σ τ sim => ?_
      exact returning_sim _ _ (m.applyOp_sim sim watched _ _ _ fun _ => spared.unshared local_)
    by_cases strcat : op = .strcat
    · rw [if_pos strcat] at spared ⊢
      exact compared (by rw [strcat]; decide) spared
    rw [if_neg strcat] at spared ⊢
    by_cases assign : op = .eq ∨ op = .streq
    · rw [if_pos assign] at spared ⊢
      have notComma : op ≠ .comma := by rcases assign with rfl | rfl <;> decide
      rw [eval, eval, if_neg notComma, if_neg notComma, if_neg logical, if_neg logical,
        if_pos assign, if_pos assign]
      have target := @accumTarget_grows _ _ tab m.inline8087
        (if op = .streq then n.ET else E1.Ety.tysize) E1 _ right.proper
      refine Matches.bind (eval_sim watched local_ E2 proper plain2 (spared.of_grows target) sim)
        fun v σ τ sim => ?_
      exact assign_sim watched local_ _ v E1 right.proper plain1 spared sim
    rw [if_neg assign] at spared ⊢
    by_cases compare : op ∈ [.memcmp, .strcmp, .bt]
    · rw [if_pos compare] at spared ⊢
      exact compared (List.mem_cons_of_mem _ compare) spared
    rw [if_neg compare] at spared ⊢
    rw [eval, eval, if_neg logical, if_neg logical, if_neg assign, if_neg assign]
    have unshared : ∀ {K : Finset Sym}, (Oper.bin op).accessesShared = true →
        Unshared tab D K := by
      intro K shared
      rw [Bin.accessesShared_default call strcat compare notModify] at shared
      cases shared
    by_cases rtol : ERTOL m.inline8087 op n = true
    · have notComma : op ≠ .comma := by
        rintro rfl
        cases rtol
      rw [if_pos rtol] at spared ⊢
      rw [if_neg notComma, if_neg notComma, if_pos rtol, if_pos rtol, if_pos rtol]
      split_ifs
      · refine fromRight spared fun w σ τ sim => ?_
        exact place_sim watched local_ E1 right.proper plain1 spared sim
          fun p σ τ fetchable sim => m.modifyOp_sim _ _ p _ (m.fetch_sim sim watched _ fetchable)
      · refine fromRight spared fun w σ τ sim => ?_
        refine Matches.bind (eval_sim watched local_ E1 right.proper plain1 spared sim)
          fun v σ τ sim => ?_
        exact returning_sim _ _ (m.applyOp_sim sim watched _ _ _ unshared)
    · rw [if_neg rtol] at spared ⊢
      rw [if_neg rtol, if_neg rtol, if_neg rtol]
      split_ifs
      · refine fromLeft spared fun v σ τ sim => ?_
        exact eval_sim watched local_ E2 left.proper plain2 spared sim
      · refine place_sim watched local_ E1 proper plain1 (spared.of_grows leftRight) sim
          fun p σ τ fetchable sim => ?_
        refine Matches.bind (eval_sim watched local_ E2 left.proper plain2 spared sim)
          fun v σ τ sim => ?_
        exact m.modifyOp_sim _ _ p _ (m.fetch_sim sim watched _
          (fetchable.mono (Finset.union_subset_union_right leftRight.kill)))
      · refine fromLeft spared fun v σ τ sim => ?_
        refine Matches.bind (eval_sim watched local_ E2 left.proper plain2 spared sim)
          fun w σ τ sim => ?_
        exact returning_sim _ _ (m.applyOp_sim sim watched _ _ _ unshared)

/-- The left operand of an assignment that reads what it changes. -/
theorem Machine.place_sim (watched : E ⊆ D) (local_ : D ⊆ tab.globsym) : ∀ (e : Elem Sym)
    {gk : GenKill Sym} {K K' : Finset Sym} {σ τ : State Sym A W}
    {f : Place Sym V × State Sym A W → Except (State Sym A W) (V × State Sym A W)},
    gk.Proper tab → e.modifiesBits = false → Spared D K (accumlv tab m.inline8087 e gk) →
    Sim tab D E (K ∪ gk.KILL) σ τ →
    (∀ p σ τ, p.Fetchable tab D (K ∪ (accumlv tab m.inline8087 e gk).KILL) →
      Sim tab D E (K ∪ (accumlv tab m.inline8087 e gk).KILL) σ τ →
      Matches tab D E K' (f (p, σ)) (f (p, τ))) →
    Matches tab D E K' (Except.bind (m.place e σ) f) (Except.bind (m.place e τ) f)
  | .var n s offset, gk, K, K', σ, τ, f, proper, _, spared, sim, next => by
    have kill : (accumlv tab m.inline8087 (.var n s offset) gk).KILL = gk.KILL := by
      rw [accumlv]
      split_ifs <;> rfl
    rw [place, place]
    refine next (.direct s offset) σ τ (fun differs => ?_) (by rwa [kill])
    rw [kill]
    by_cases killed : s ∈ gk.KILL
    · exact Finset.mem_union_right _ killed
    · refine Finset.mem_union_left _ (spared s differs ?_)
      rw [accumlv, if_pos ⟨local_ differs, killed⟩]
      exact Finset.mem_insert_self _ _
  | .una op n E1, gk, K, K', σ, τ, f, proper, plain, spared, sim, next => by
    by_cases ind : op = .ind
    · subst ind
      rw [Elem.modifiesBits] at plain
      rw [accumlv, if_pos (by decide)] at spared next
      have grows := @accumlv_grows _ _ tab m.inline8087 E1 gk proper
      rw [place, place]
      show Matches tab D E K' (Except.bind (Except.bind (m.eval E1 σ) _) f)
        (Except.bind (Except.bind (m.eval E1 τ) _) f)
      rw [Except.bind_bind, Except.bind_bind]
      refine Matches.bind (eval_sim watched local_ E1 proper plain
        (spared.of_grows (GenKill.grows_ambiguous grows.proper)) sim) fun v σ τ sim => ?_
      exact next (.pointer v) σ τ (spared.unshared local_) sim
    · rw [place_una m ind, place_una m ind]
      exact sim.stopped
  | .leaf _ _ _, _, _, _, σ, τ, _, _, _, _, sim, _ => by
    rw [place, place]
    · exact sim.stopped
    all_goals simp
  | .asm_ _, _, _, _, σ, τ, _, _, _, _, sim, _ => by
    rw [place, place]
    · exact sim.stopped
    all_goals simp
  | .bin _ _ _ _, _, _, _, σ, τ, _, _, _, _, sim, _ => by
    rw [place, place]
    · exact sim.stopped
    all_goals simp
  | .cond _ _ _ _, _, _, _, σ, τ, _, _, _, _, sim, _ => by
    rw [place, place]
    · exact sim.stopped
    all_goals simp

/-- The assignment of a value. -/
theorem Machine.assign_sim (watched : E ⊆ D) (local_ : D ⊆ tab.globsym) (tsz : Nat) (v : V) :
    ∀ (e : Elem Sym) {gk : GenKill Sym} {K : Finset Sym} {σ τ : State Sym A W},
    gk.Proper tab → e.modifiesBits = false → Spared D K (accumTarget tab m.inline8087 tsz e gk) →
    Sim tab D E (K ∪ gk.KILL) σ τ →
    Matches tab D E (K ∪ (accumTarget tab m.inline8087 tsz e gk).KILL)
      (Except.bind (m.place e σ) fun (p, σ) => .ok (v, m.store tsz p v σ))
      (Except.bind (m.place e τ) fun (p, σ) => .ok (v, m.store tsz p v σ))
  | .var n s offset, gk, K, σ, τ, proper, _, spared, sim => by
    rw [place, place, accumTarget]
    refine ⟨rfl, ?_⟩
    split_ifs with whole
    · obtain ⟨_, _, rfl, rfl⟩ := whole
      have killed := m.store_kills sim s v
      rwa [← Finset.union_insert] at killed
    · exact m.store_sim sim tsz (.direct s offset) v
  | .una op n E1, gk, K, σ, τ, proper, plain, spared, sim => by
    by_cases ind : op = .ind
    · subst ind
      rw [Elem.modifiesBits] at plain
      rw [accumTarget] at spared ⊢
      rw [place, place]
      show Matches tab D E _ (Except.bind (Except.bind (m.eval E1 σ) _) _)
        (Except.bind (Except.bind (m.eval E1 τ) _) _)
      rw [Except.bind_bind, Except.bind_bind]
      refine Matches.bind (eval_sim watched local_ E1 proper plain spared sim) fun p σ τ sim => ?_
      exact ⟨rfl, m.store_sim sim tsz (.pointer p) v⟩
    · rw [place_una m ind, place_una m ind]
      exact sim.stopped
  | .leaf _ _ _, _, _, σ, τ, _, _, _, sim => by
    rw [place, place]
    · exact sim.stopped
    all_goals simp
  | .asm_ _, _, _, σ, τ, _, _, _, sim => by
    rw [place, place]
    · exact sim.stopped
    all_goals simp
  | .bin _ _ _ _, _, _, σ, τ, _, _, _, sim => by
    rw [place, place]
    · exact sim.stopped
    all_goals simp
  | .cond _ _ _ _, _, _, σ, τ, _, _, _, sim => by
    rw [place, place]
    · exact sim.stopped
    all_goals simp

end

end

end LaserD.Flow
