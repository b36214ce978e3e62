/-
This file shows that the sets of `flowlv` tell which variables matter in a run.

Two runs start at one block, in states that differ in variables that are not live there. They
pass through the same blocks, stop or leave the function together, and leave it with the same
value and the same live variables; and the variables that are not live at the beginning are read
in none of them before all of their bytes have been written. The invariant is that those of them
that are live before the block that is reached have been written.
-/

import LaserD.Flow.LiveTrees

namespace LaserD.Flow

open Dominance

variable {Sym : Type} [DecidableEq Sym] {A W V : Type} {tab : Symtab Sym} {n : Nat}

/-! ### Two runs -/

/-- No block tests and changes bits in memory. -/
def Program.Plain (p : Program Sym n) : Prop :=
  ∀ b e, p.Belem b = some e → e.modifiesBits = false

/-- What the execution has logged. -/
def Config.log : Config Sym A W V n → List (Access Sym)
  | .at_ _ σ => σ.log
  | .stopped σ => σ.log
  | .left _ _ σ => σ.log

section

variable (tab) (sets : Fin n → LiveSets Sym)

/-- The local variables that are not live before a block. -/
def deadBefore (b : Fin n) : Finset Sym := tab.globsym \ (sets b).Binlv

/-- Two executions have come to one block with the same live variables, have stopped, or have left
the function with the same value. A stopped execution leaves variables of `D` alone to differ. -/
def SameBehaviour (D : Finset Sym) : Config Sym A W V n → Config Sym A W V n → Prop
  | .at_ b σ, .at_ c τ => b = c ∧ Agree tab (deadBefore tab sets b) σ.toMemory τ.toMemory
  | .stopped σ, .stopped τ => Agree tab D σ.toMemory τ.toMemory
  | .left b v σ, .left c w τ =>
      b = c ∧ v = w ∧ Agree tab (tab.globsym \ livexit tab) σ.toMemory τ.toMemory
  | _, _ => False

/-- The invariant of two runs. Their states differ in variables of `D`, but for those of a set `K`
that have been written, and every variable of `D` that is live is in `K`. -/
def Alike (dfo : List (Fin n)) (D E : Finset Sym) : Config Sym A W V n → Config Sym A W V n → Prop
  | .at_ b σ, .at_ c τ =>
      b = c ∧ b ∈ dfo ∧ ∃ K, (∀ s ∈ D, s ∈ (sets b).Binlv → s ∈ K) ∧ Sim tab D E K σ τ
  | .stopped σ, .stopped τ => Sim tab D E ∅ σ τ
  | .left b v σ, .left c w τ =>
      b = c ∧ v = w ∧ ∃ K, (∀ s ∈ D, s ∈ livexit tab → s ∈ K) ∧ Sim tab D E K σ τ
  | _, _ => False

end

variable [DecidableEq A] (m : Machine tab A W V) {p : Program Sym n} {dfo : List (Fin n)}
  {sets : Fin n → LiveSets Sym} {D E K : Finset Sym} {σ τ : State Sym A W} {b : Fin n}

/-! ### One block -/

omit [DecidableEq A] in
theorem Matches.some {T : Type} {o o' : Outcome Sym A W T} (matched : Matches tab D E K o o') :
    Matches tab D E K (o.map fun (v, σ) => (Option.some v, σ))
      (o'.map fun (v, σ) => (Option.some v, σ)) := by
  match o, o', matched with
  | .ok (_, _), .ok (_, _), ⟨same, sim⟩ => exact ⟨congrArg Option.some same, sim⟩
  | .error _, .error _, sim => exact sim

/-- The executions of the tree of a block match. -/
theorem Machine.tree_sim (watched : E ⊆ D) (local_ : D ⊆ tab.globsym) (e : Elem Sym)
    (plain : e.modifiesBits = false) (spared : Spared D K (accumlv tab m.inline8087 e {}))
    (sim : Sim tab D E K σ τ) :
    Matches tab D E (K ∪ (accumlv tab m.inline8087 e {}).KILL)
      ((m.eval e σ).map fun (v, σ) => (Option.some v, σ))
      ((m.eval e τ).map fun (v, σ) => (Option.some v, σ)) := by
  rw [← Finset.union_empty K] at sim
  exact (m.eval_sim watched local_ e GenKill.proper_empty plain spared sim).some

/-- A block executes its tree, if it has one, and then the assembly code that it may have. -/
theorem Machine.block_eq (p : Program Sym n) (b : Fin n) (σ : State Sym A W) :
    m.block p b σ = Except.bind
      ((p.Belem b).elim (.ok (none, σ)) fun e => (m.eval e σ).map fun (v, σ) => (Option.some v, σ))
      fun (v, σ) =>
        if p.graph.bc b = .asm_ then (m.asmOp b σ).map fun (w, σ) => (Option.some w, σ)
        else .ok (v, σ) := by
  rw [block]
  cases p.Belem b <;> rfl

/-- The executions of a block in similar states match. -/
theorem Machine.block_sim (watched : E ⊆ D) (local_ : D ⊆ tab.globsym) (plain : p.Plain)
    (spared : Spared D K (lvgenkill tab m.inline8087 p b)) (sim : Sim tab D E K σ τ) :
    Matches tab D E (K ∪ (lvgenkill tab m.inline8087 p b).KILL) (m.block p b σ)
      (m.block p b τ) := by
  rw [block_eq, block_eq]
  rw [lvgenkill] at spared ⊢
  by_cases assembly : p.graph.bc b = .asm_
  · rw [if_pos assembly] at spared ⊢
    have equal : D ⊆ K := fun s differs => spared s differs (local_ differs)
    rw [Finset.union_empty]
    refine Matches.bind (K := K) ?_ fun v σ τ sim => ?_
    · cases tree : p.Belem b with
      | none => exact ⟨rfl, sim⟩
      | some e =>
        exact (m.tree_sim watched local_ e (plain b e tree) (fun s differs _ => equal differs)
          sim).mono Finset.subset_union_left
    · dsimp only
      rw [if_pos assembly, if_pos assembly]
      exact (m.asmOp_sim sim watched _ equal).some
  · rw [if_neg assembly] at spared ⊢
    cases tree : p.Belem b with
    | none =>
      show Matches tab D E _ (if p.graph.bc b = .asm_ then _ else .ok (none, σ))
        (if p.graph.bc b = .asm_ then _ else .ok (none, τ))
      rw [if_neg assembly, if_neg assembly]
      exact ⟨rfl, sim.mono (Finset.union_empty K).subset⟩
    | some e =>
      rw [tree] at spared
      refine Matches.bind (m.tree_sim watched local_ e (plain b e tree) spared sim)
        fun v σ τ sim => ?_
      dsimp only
      rw [if_neg assembly, if_neg assembly]
      exact ⟨rfl, sim⟩

/-! ### Runs -/

omit [DecidableEq A] in
/-- The variables of `D` that are live behind a block have been written. -/
theorem written_behind (flow : flowlv tab m.inline8087 p dfo = some sets) (listed : b ∈ dfo)
    (written : ∀ s ∈ D, s ∈ (sets b).Binlv → s ∈ K) :
    ∀ s ∈ D, s ∈ (sets b).Boutlv → s ∈ K ∪ (lvgenkill tab m.inline8087 p b).KILL := by
  intro s differs live
  by_cases killed : s ∈ (lvgenkill tab m.inline8087 p b).KILL
  · exact Finset.mem_union_right _ killed
  · refine Finset.mem_union_left _ (written s differs ?_)
    have solved := flowlv_solved flow listed
    rw [solved] at live ⊢
    exact Finset.mem_union_left _ (Finset.mem_sdiff.mpr ⟨live, killed⟩)

theorem Machine.step_alike (flow : flowlv tab m.inline8087 p dfo = some sets)
    (closed : ∀ b ∈ dfo, ∀ s ∈ p.graph.Bsucc b, s ∈ dfo) (plain : p.Plain) (watched : E ⊆ D)
    (local_ : D ⊆ tab.globsym) {config config' : Config Sym A W V n}
    (alike : Alike tab sets dfo D E config config') :
    Alike tab sets dfo D E (m.step p config) (m.step p config') := by
  match config, config', alike with
  | .stopped _, .stopped _, sim => exact sim
  | .left _ _ _, .left _ _ _, alike => exact alike
  | .at_ b σ, .at_ _ τ, ⟨rfl, listed, K, written, sim⟩ =>
    have solved := flowlv_solved flow listed
    have spared : Spared D K (lvgenkill tab m.inline8087 p b) := by
      intro s differs generated
      refine written s differs ?_
      rw [solved]
      exact Finset.mem_union_right _ generated
    have behind := written_behind m flow listed written
    have matched := m.block_sim watched local_ plain spared sim
    rw [step, step]
    match m.block p b σ, m.block p b τ, matched with
    | .error _, .error _, sim => exact sim
    | .ok (v, σ), .ok (_, τ), ⟨rfl, sim⟩ =>
      dsimp only
      by_cases last : p.graph.Bsucc b = []
      · rw [if_pos last, if_pos last]
        rw [solved, liveTransfer_exit last] at behind
        refine ⟨rfl, rfl, _, behind, sim.logged .exit fun s member reads => ?_⟩
        exact behind s (watched member)
          (Finset.mem_filter.mpr ⟨local_ (watched member), reads⟩)
      · rw [if_neg last, if_neg last]
        cases next : m.successor p b v with
        | none => exact sim.stopped
        | some s =>
          have edge : s ∈ p.graph.Bsucc b := by
            unfold successor at next
            split at next <;> exact List.mem_of_getElem? next
          refine ⟨rfl, closed b listed s edge, _, fun t differs live => ?_, sim⟩
          refine behind t differs ?_
          rw [solved]
          exact liveTransfer_succ edge live

theorem Machine.run_alike (flow : flowlv tab m.inline8087 p dfo = some sets)
    (closed : ∀ b ∈ dfo, ∀ s ∈ p.graph.Bsucc b, s ∈ dfo) (plain : p.Plain) (watched : E ⊆ D)
    (local_ : D ⊆ tab.globsym) {config config' : Config Sym A W V n}
    (alike : Alike tab sets dfo D E config config') (steps : Nat) :
    Alike tab sets dfo D E (m.run p steps config) (m.run p steps config') := by
  induction steps with
  | zero => exact alike
  | succ steps inductionHypothesis =>
    rw [run, run, Function.iterate_succ_apply', Function.iterate_succ_apply']
    exact m.step_alike flow closed plain watched local_ inductionHypothesis

omit [DecidableEq A] in
theorem Alike.sameBehaviour {config config' : Config Sym A W V n} (local_ : D ⊆ tab.globsym)
    (alike : Alike tab sets dfo D E config config') :
    SameBehaviour tab sets D config config' := by
  have dead {K live : Finset Sym} (written : ∀ s ∈ D, s ∈ live → s ∈ K) :
      D \ K ⊆ tab.globsym \ live := by
    intro s member
    obtain ⟨differs, unwritten⟩ := Finset.mem_sdiff.mp member
    exact Finset.mem_sdiff.mpr ⟨local_ differs, fun live => unwritten (written s differs live)⟩
  match config, config', alike with
  | .at_ _ _, .at_ _ _, ⟨rfl, _, _, written, sim⟩ => exact ⟨rfl, sim.agree.mono (dead written)⟩
  | .stopped _, .stopped _, sim => exact sim.agree.mono Finset.sdiff_subset
  | .left _ _ _, .left _ _ _, ⟨rfl, rfl, _, written, sim⟩ =>
    exact ⟨rfl, rfl, sim.agree.mono (dead written)⟩

omit [DecidableEq A] in
theorem Alike.unread {config config' : Config Sym A W V n}
    (alike : Alike tab sets dfo D E config config') : ∀ s ∈ E, Unread tab s config.log := by
  match config, config', alike with
  | .at_ _ _, .at_ _ _, ⟨_, _, _, _, sim⟩ => exact fun s member => (sim.watched s member).1
  | .stopped _, .stopped _, sim => exact fun s member => (sim.watched s member).1
  | .left _ _ _, .left _ _ _, ⟨_, _, _, _, sim⟩ => exact fun s member => (sim.watched s member).1

/-- Live-variable analysis is sound: in every run from a block, what the variables hold that
`flowlv` does not count as live there makes no difference, and none of them is read before all of
its bytes have been written. -/
theorem flowlv_sound {bo : BlockOpt n} {startblock : Fin n}
    (flow : flowlv tab m.inline8087 p (compdfo p.graph bo startblock).dfo = some sets)
    (plain : p.Plain) (reached : Reaches p.graph.Bsucc startblock b)
    (agree : Agree tab (deadBefore tab sets b) σ.toMemory τ.toMemory) (fresh : σ.log = [])
    (steps : Nat) :
    SameBehaviour tab sets (deadBefore tab sets b) (m.run p steps (.at_ b σ))
        (m.run p steps (.at_ b τ)) ∧
      ∀ s ∈ deadBefore tab sets b, Unread tab s (m.run p steps (.at_ b σ)).log := by
  have local_ : deadBefore tab sets b ⊆ tab.globsym := Finset.sdiff_subset
  have closed : ∀ b ∈ (compdfo p.graph bo startblock).dfo, ∀ s ∈ p.graph.Bsucc b,
      s ∈ (compdfo p.graph bo startblock).dfo := by
    intro b listed s edge
    rw [mem_compdfo] at listed ⊢
    exact listed.tail edge
  have start : Alike tab sets (compdfo p.graph bo startblock).dfo (deadBefore tab sets b)
      (deadBefore tab sets b) (.at_ b σ : Config Sym A W V n) (.at_ b τ) := by
    refine ⟨rfl, (mem_compdfo _ _ _).mpr reached, ∅, fun s differs live => ?_, ?_, fun s _ => ?_⟩
    · exact absurd live (Finset.mem_sdiff.mp differs).2
    · exact agree.mono Finset.sdiff_empty.symm.subset
    · rw [fresh]
      exact ⟨unread_nil, fun killed => absurd killed (Finset.notMem_empty s)⟩
  have alike := m.run_alike flow closed plain subset_rfl local_ start steps
  exact ⟨alike.sameBehaviour local_, alike.unread⟩

/-! ### A run -/

/-- Values are bytes in a row; nothing but variables is in memory. -/
def byteMachine (tab : Symtab Sym) : Machine tab Unit Unit (List Byte) where
  leaf _ _ value := [BitVec.ofNat 8 value]
  apply _ _ _ := none
  modify _ _ _ _ := none
  peek _ _ _ _ := none
  exec _ _ _ memory := (none, memory)
  port _ _ _ world := ([], world)
  asm_ _ memory := (none, memory)
  truth v := v.any (· ≠ 0)
  ofBool _ b := [if b then 1 else 0]
  ofBytes _ bytes := bytes
  toBytes _ v i := v.getD i 0
  locate _ _ := .heap ()
  select _ := 0
  inline8087 := false
  shared _ _ := trivial

/-- Two local variables of one byte. -/
def copySymtab : Symtab Bool where
  globsym := Finset.univ
  typeSize := fun _ => 1
  SFLunambig := fun _ => true
  SFLlivexit := fun _ => false
  SFLexit := fun _ => false
  tyfloating := fun _ => false
  outside := fun s other => absurd (Finset.mem_univ s) other

/-- The second variable is assigned to the first one, which is returned. -/
def copyProgram : Program Bool 2 where
  graph :=
    { bc := fun b => if b = Fin.last 1 then .retexp else .goto_
      Bsucc := fun b => if b = Fin.last 1 then [] else [Fin.last 1]
      Bpred := fun b => if b = Fin.last 1 then [b.rev] else []
      mirrors := by decide }
  Belem := fun b =>
    if b = Fin.last 1 then some (.var { Ety := { tysize := 1 } } false 0)
    else some (.bin .eq { Ety := { tysize := 1 } } (.var { Ety := { tysize := 1 } } false 0)
      (.var { Ety := { tysize := 1 } } true 0))

/-- The first variable holds a byte, and the second one 7. -/
def copyState (first : Byte) : State Bool Unit Unit where
  bytes := fun l => if l = .var false 0 then first else 7
  world := ()

/-- What the first variable holds at the beginning makes no difference. -/
theorem flowlv_sound_copy : ∃ sets,
    flowlv copySymtab false copyProgram
        (compdfo copyProgram.graph ⟨[], fun _ => 0, fun _ => []⟩ 0).dfo = some sets ∧
      SameBehaviour copySymtab sets (deadBefore copySymtab sets 0)
        ((byteMachine copySymtab).run copyProgram 2 (.at_ 0 (copyState 1)))
        ((byteMachine copySymtab).run copyProgram 2 (.at_ 0 (copyState 2))) := by
  have solved : (flowlv copySymtab false copyProgram
      (compdfo copyProgram.graph ⟨[], fun _ => 0, fun _ => []⟩ 0).dfo).any
        (fun sets => decide (false ∈ deadBefore copySymtab sets 0)) = true := by
    decide
  obtain ⟨sets, flow, dead⟩ := (Option.any_eq_true _ _).mp solved
  have agree : Agree copySymtab (deadBefore copySymtab sets 0) (copyState 1).toMemory
      (copyState 2).toMemory := by
    refine ⟨fun l outside => ?_, rfl⟩
    have other : l ≠ .var false 0 := outside false (of_decide_eq_true dead) 0 Nat.one_pos
    exact (if_neg other).trans (if_neg other).symm
  have plain : copyProgram.Plain := by
    have forms : ∀ b, (copyProgram.Belem b).all (fun e => !e.modifiesBits) = true := by decide
    intro b e tree
    have form := forms b
    rw [tree] at form
    exact Bool.not_eq_true' _ ▸ form
  exact ⟨sets, flow, (flowlv_sound (byteMachine copySymtab) flow plain .refl agree rfl 2).1⟩

end LaserD.Flow
