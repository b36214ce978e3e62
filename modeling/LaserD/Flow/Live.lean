/-
This file models the analysis of live variables.

`accumlv` walks over a tree in the order of its evaluation and accumulates the variables that
are read before they are completely written, and those that are completely written before they
are read. `flowlv` solves the equations of the blocks by sweeps from the last block to the
first; the assertion that there are fewer than 50 of them may fail.
-/

import LaserD.Lib.Sweeps
import LaserD.Flow.Machine

namespace LaserD.Flow

variable {Sym : Type} [DecidableEq Sym] (tab : Symtab Sym) (inline8087 : Bool)

/-! ### Trees -/

/-- The sets `GEN` and `KILL`. -/
structure GenKill (Sym : Type) where
  GEN : Finset Sym := ∅
  KILL : Finset Sym := ∅
  deriving DecidableEq

/-- The variables that could be referenced through a pointer or by a call. -/
def ambigsym : Finset Sym :=
  tab.globsym.filter fun s => tab.SFLunambig s = false

/-- A reference to any of the variables with ambiguous references. -/
def GenKill.ambiguous (gk : GenKill Sym) : GenKill Sym :=
  { gk with GEN := (gk.GEN ∪ ambigsym tab) \ gk.KILL }

mutual

/-- Accumulate `GEN` and `KILL` for live variables. -/
def accumlv : Elem Sym → GenKill Sym → GenKill Sym
  | .var _ s _, gk =>
      if s ∈ tab.globsym ∧ s ∉ gk.KILL then { gk with GEN := Insert.insert s gk.GEN } else gk
  | .leaf _ _ _, gk => gk
  | .asm_ _, gk => { gk with GEN := tab.globsym \ gk.KILL }
  | .una op _ E1, gk =>
      if op ∈ [.ind, .ucall, .ucallns, .strlen] then (accumlv E1 gk).ambiguous tab
      else accumlv E1 gk
  | .cond _ E1 whenTrue whenFalse, gk =>
      let gk := accumlv E1 gk
      let l := accumlv whenTrue {}
      let r := accumlv whenFalse {}
      let GEN := gk.GEN ∪ ((l.GEN ∪ r.GEN) \ gk.KILL)
      ⟨GEN, gk.KILL ∪ ((l.KILL ∩ r.KILL) \ GEN)⟩
  | .bin op n E1 E2, gk =>
      if op = .andand ∨ op = .oror then
        let gk := accumlv E1 gk
        { gk with GEN := gk.GEN ∪ ((accumlv E2 {}).GEN \ gk.KILL) }
      else if op ∈ [.call, .callns, .strcpy, .memcpy, .memset] then
        (accumlv E1 (accumlv E2 gk)).ambiguous tab
      else if op = .strcat then (accumlv E2 (accumlv E1 gk)).ambiguous tab
      else if op = .eq ∨ op = .streq then
        accumTarget (if op = .streq then n.ET else E1.Ety.tysize) E1 (accumlv E2 gk)
      else if op ∈ [.memcmp, .strcmp, .bt] then (accumlv E2 (accumlv E1 gk)).ambiguous tab
      else if ERTOL inline8087 op n then accumlv E1 (accumlv E2 gk)
      else accumlv E2 (accumlv E1 gk)

/-- The left operand of `=`, to which `tsz` bytes are assigned. -/
def accumTarget (tsz : Nat) : Elem Sym → GenKill Sym → GenKill Sym
  | .var _ s offset, gk =>
      if s ∈ tab.globsym ∧ s ∉ gk.GEN ∧ offset = 0 ∧ tsz = tab.typeSize s then
        { gk with KILL := Insert.insert s gk.KILL }
      else gk
  | .una _ _ E1, gk => accumlv E1 gk
  | .bin _ _ E1 _, gk => accumlv E1 gk
  | .cond _ E1 _ _, gk => accumlv E1 gk
  | _, gk => gk

end

/-! ### Graphs -/

variable {n : Nat} (p : Program Sym n)

/-- `lvgenkill`: `Bgen` and `Bkill` of a block. -/
def lvgenkill (b : Fin n) : GenKill Sym :=
  if p.graph.bc b = .asm_ then ⟨tab.globsym, ∅⟩
  else match p.Belem b with
    | some e => accumlv tab inline8087 e {}
    | none => {}

/-- `Binlv` and `Boutlv` of a block. -/
structure LiveSets (Sym : Type) where
  Binlv : Finset Sym := ∅
  Boutlv : Finset Sym := ∅

/-- The variables that are live on exit from the function. -/
def livexit : Finset Sym :=
  tab.globsym.filter fun s => tab.SFLlivexit s

/-- The sets of a block from those of its successors. -/
def liveTransfer (b : Fin n) (sets : Fin n → LiveSets Sym) : LiveSets Sym :=
  let Boutlv := match p.graph.Bsucc b with
    | [] => livexit tab
    | first :: rest => rest.foldl (fun out s => out ∪ (sets s).Binlv) (sets first).Binlv
  let gk := lvgenkill tab inline8087 p b
  ⟨(Boutlv \ gk.KILL) ∪ gk.GEN, Boutlv⟩

/-- Do live variable analysis. -/
def flowlv (dfo : List (Fin n)) : Option (Fin n → LiveSets Sym) :=
  Sweeps.sweeps LiveSets.Binlv (liveTransfer tab inline8087 p) dfo.reverse 49 fun b =>
    if b ∈ dfo then { Binlv := (lvgenkill tab inline8087 p b).GEN } else {}

/-! ### The equations -/

variable {tab inline8087 p}

/-- What is live behind a block is live before its successors. -/
theorem liveTransfer_succ {b s : Fin n} {sets : Fin n → LiveSets Sym}
    (succ : s ∈ p.graph.Bsucc b) :
    (sets s).Binlv ⊆ (liveTransfer tab inline8087 p b sets).Boutlv := by
  have collected : ∀ (rest : List (Fin n)) (out : Finset Sym),
      out ⊆ rest.foldl (fun out s => out ∪ (sets s).Binlv) out ∧
        ∀ s ∈ rest, (sets s).Binlv ⊆ rest.foldl (fun out s => out ∪ (sets s).Binlv) out := by
    intro rest
    induction rest with
    | nil => exact fun out => ⟨subset_rfl, fun _ member => absurd member List.not_mem_nil⟩
    | cons first rest inductionHypothesis =>
      intro out
      obtain ⟨kept, each⟩ := inductionHypothesis (out ∪ (sets first).Binlv)
      refine ⟨Finset.subset_union_left.trans kept, fun s member => ?_⟩
      rcases List.mem_cons.mp member with rfl | later
      · exact Finset.subset_union_right.trans kept
      · exact each s later
  rw [liveTransfer]
  dsimp only
  cases list : p.graph.Bsucc b with
  | nil =>
    rw [list] at succ
    cases succ
  | cons first rest =>
    rw [list] at succ
    obtain ⟨kept, each⟩ := collected rest (sets first).Binlv
    rcases List.mem_cons.mp succ with rfl | later
    · exact kept
    · exact each s later

theorem liveTransfer_exit {b : Fin n} {sets : Fin n → LiveSets Sym}
    (last : p.graph.Bsucc b = []) :
    (liveTransfer tab inline8087 p b sets).Boutlv = livexit tab := by
  rw [liveTransfer, last]

/-- The sets of the blocks solve the equations. -/
theorem flowlv_solved {dfo : List (Fin n)} {sets : Fin n → LiveSets Sym}
    (flow : flowlv tab inline8087 p dfo = some sets) {b : Fin n} (listed : b ∈ dfo) :
    sets b = liveTransfer tab inline8087 p b sets := by
  have looks : Sweeps.LooksAtKeys LiveSets.Binlv (liveTransfer tab inline8087 p) := by
    intro b values values' keys
    simp only [liveTransfer, keys]
  exact Sweeps.sweeps_solved looks flow b (List.mem_reverse.mpr listed)

end LaserD.Flow
