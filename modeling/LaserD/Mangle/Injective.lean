/-
This file proves that a mangled type says which type it is.

What was written into an empty buffer is read back as the type that all types of its spelling
share. Two types have one mangling just when they share that type.
-/

import LaserD.Mangle.RoundTrip

namespace LaserD.Mangle

open Numerals

/-! ### Whole types -/

section

variable {text : List Char}

/-- In the empty buffer nothing is referred to. -/
theorem before_empty (text : List Char) (size : Nat) : Before text {} size :=
  ⟨⟨fun _ _ member => absurd member List.not_mem_nil,
    fun _ _ member => absurd member List.not_mem_nil⟩,
    fun _ _ member => absurd member List.not_mem_nil⟩

/-- The reader reads what the writer wrote of a type that is the one of its spelling. -/
theorem demangle_canonical {t : AnyTy} (regular : t.Regular) (canonical : t.canonical = t)
    (written : mangleToBuffer t = some text) {fuel : Nat} (enough : t.size ≤ fuel) :
    demangle text fuel = some t := by
  rw [mangleToBuffer, Option.map_eq_some_iff] at written
  obtain ⟨st, run, rfl⟩ := written
  have stops : Stops st.buf st.buf.length := stops_end (List.getElem?_eq_none le_rfl)
  cases t with
  | ty t =>
    rw [AnyTy.canonical, AnyTy.ty.injEq] at canonical
    have start := (mangleTy_heads t run (List.prefix_refl _) (before_empty _ t.size).heads).2
    obtain ⟨_, read⟩ := mangleTy_reads t regular canonical (fun plain => absurd rfl plain) run
      (List.prefix_refl _) (before_empty _ _) stops
    have start : functionStart st.buf 0 = false := start.notFunction
    have read : readTy st.buf (readers st.buf fuel) .none 0 = some (t, st.buf.length) :=
      read fuel enough
    rw [demangle, start, if_neg (by decide), read]
    rfl
  | fn f =>
    rw [AnyTy.canonical, AnyTy.fn.injEq] at canonical
    rw [mangleType, canonical] at run
    obtain ⟨_, start, read⟩ := visit_reads_fn (fun qualified => absurd rfl qualified) run
      (List.prefix_refl _) (before_empty _ _) fun {entered} entry =>
        ⟨mangleFn_appends f entry, (mangleFn_heads f entry (List.prefix_refl _)).1, fun smaller =>
          mangleFn_reads f regular canonical entry (List.prefix_refl _) smaller stops⟩
    have start : functionStart st.buf 0 = true := start
    have read : readFn st.buf (readers st.buf fuel) 0 = some (f, st.buf.length) :=
      read fuel enough
    rw [demangle, start, if_pos rfl, read]
    rfl

theorem AnyTy.canonical_canonical (t : AnyTy) : t.canonical.canonical = t.canonical := by
  cases t with
  | ty t => rw [AnyTy.canonical, AnyTy.canonical, t.canonical_canonical]
  | fn f => rw [AnyTy.canonical, AnyTy.canonical, f.canonical_canonical]

theorem AnyTy.regular_canonical {t : AnyTy} (regular : t.Regular) : t.canonical.Regular := by
  cases t with
  | ty t => exact t.regular_canonical regular
  | fn f => exact f.regular_canonical regular

end

/-! ### Main results -/

/-- An identifier of one letter. -/
def symbolOf (c : Char) : Ident :=
  if digit : c.isDigit = false then ⟨[c], c, [], rfl, digit⟩ else importC

/-- The reader recovers a type from its mangling, and so the manglings of two types are equal
just when the types are, apart from what is not spelled. -/
theorem mangleToBuffer_injective {t₁ t₂ : AnyTy} {text : List Char} (regular₁ : t₁.Regular)
    (regular₂ : t₂.Regular) (written : mangleToBuffer t₁ = some text) :
    (∀ fuel, t₁.canonical.size ≤ fuel → demangle text fuel = some t₁.canonical) ∧
      (mangleToBuffer t₂ = some text ↔ t₁.canonical = t₂.canonical) := by
  have decoded : ∀ {t : AnyTy}, t.Regular → mangleToBuffer t = some text →
      ∀ fuel, t.canonical.size ≤ fuel → demangle text fuel = some t.canonical := by
    intro t regular written fuel enough
    rw [← mangleToBuffer_canonical] at written
    exact demangle_canonical (AnyTy.regular_canonical regular) t.canonical_canonical written enough
  refine ⟨decoded regular₁ written, fun written' => ?_, fun same => ?_⟩
  · have first := decoded regular₁ written (t₁.canonical.size + t₂.canonical.size)
      (Nat.le_add_right _ _)
    have second := decoded regular₂ written' (t₁.canonical.size + t₂.canonical.size)
      (Nat.le_add_left _ _)
    exact Option.some.inj (first.symm.trans second)
  · rw [← mangleToBuffer_canonical, ← same, mangleToBuffer_canonical]
    exact written

/-- `int* function(const(S)*, S, int*)` is written with references to the names of `S` and to
`int*`. -/
theorem mangleToBuffer_injective_references :
    let int_ : Ty := .next .pointer .none (.basic .int32 .none)
    let s : Names := .parent (symbolOf 'm') (.symbol (symbolOf 'S'))
    let f : AnyTy := .fn (.mk {} (.cons {} (.next .pointer .none (.named .struct_ .const_ .d s))
      (.cons {} (.named .struct_ .none .d s) (.cons {} int_ .nil))) int_)
    mangleToBuffer f = some "FPxS1m1SSQfQfPiZQd".toList ∧
      (∀ fuel, f.canonical.size ≤ fuel →
        demangle "FPxS1m1SSQfQfPiZQd".toList fuel = some f.canonical) := by
  intro int_ s f
  have written : mangleToBuffer f = some "FPxS1m1SSQfQfPiZQd".toList := by decide +kernel
  have plain : ∀ mod : Mod, Mod.none ≠ .none → mod ≠ .none := fun _ qualified =>
    absurd rfl qualified
  have names : s.Regular := ⟨rfl, rfl⟩
  have pointer : int_.Regular := ⟨plain _, trivial⟩
  have unmarked : ∀ mod : Mod, false = true → mod ≠ .none := fun _ marked =>
    absurd marked (by decide)
  have regular : f.Regular :=
    ⟨⟨unmarked _, ⟨plain _, names⟩, unmarked _, names, unmarked _, pointer, trivial⟩, pointer⟩
  exact ⟨written, (mangleToBuffer_injective regular regular written).1⟩

/-! ### Types that are not told apart -/

/-- Types that differ and have one mangling: a class of a name that is reserved to the compiler in
two modules, the linkage of a function that was not given, two levels of purity, a constant
delegate that is called with a constant context, a shared vector of a shared base, a local
number and an identifier of its form, and a parent with a linkage whose letter ends
parameters. -/
theorem mangleToBuffer_not_injective :
    let int_ : Ty := .basic .int32 .none
    let typeInfo (parent : Char) : Ty := .named .class_ .none .d
      (.parent (symbolOf parent) (.symbol ⟨"TypeInfo_X".toList, 'T', "ypeInfo_X".toList, rfl, rfl⟩))
    let call (signature : Signature) : Ty := .call .pointer .none (.mk signature .nil int_)
    let delegate (mod : Mod) : Ty := .call .delegate_ .const_ (.mk { mod := mod } .nil int_)
    let inner (names : Names) : Params :=
      .cons {} (.call .pointer .none (.mk { varargs := .variadic }
        (.cons {} (.named .struct_ .none .d names) .nil) int_)) .nil
    let objc (c : Char) (rest : Names) : Names :=
      .function (symbolOf c) false { linkage := .objc } (.cons {} int_ .nil) rest
    let pairs : List (Ty × Ty) := [
      (typeInfo 'm', typeInfo 'n'),
      (call { linkage := .default_ }, call { linkage := .d }),
      (call { attributes := { purity := .weak } }, call { attributes := { purity := .const_ } }),
      (delegate .none, delegate .const_),
      (.vector .shared_ true 4 .int32, .vector .shared_ false 4 .int32),
      (.named .struct_ .none .d (.localNum 1 (.symbol (symbolOf 'S'))),
        .named .struct_ .none .d (.parent ⟨"__S1".toList, '_', "_S1".toList, rfl, rfl⟩
          (.symbol (symbolOf 'S')))),
      (.named .struct_ .none .d (.function (symbolOf 'f') false {}
          (inner (.symbol (symbolOf 'x'))) (objc 'g' (.symbol (symbolOf 'S')))),
        .named .struct_ .none .d (.function (symbolOf 'f') false {}
          (inner (objc 'x' (.symbol (symbolOf 'g')))) (.symbol (symbolOf 'S'))))]
    ∀ pair ∈ pairs, pair.1 ≠ pair.2 ∧
      mangleToBuffer (.ty pair.1) = mangleToBuffer (.ty pair.2) ∧
      (mangleToBuffer (.ty pair.1)).isSome := by
  decide +kernel

end LaserD.Mangle
