/-
This file shows that the reader reads what the writer wrote.

A table may hold types that are still being written; they are larger than the type at hand,
so that no reference is made to them. `Before` says that the smaller ones can be read where
they stand, and is kept by all that is written. The induction is on the types, with the
letters of `Written` for what follows a part.
-/

import LaserD.Mangle.Regular
import LaserD.Mangle.Steps

namespace LaserD.Mangle

open Numerals

/-! ### Tables that can be read -/

/-- With enough fuel the type can be read at a position. -/
def Readable (text : List Char) : AnyTy → Nat → Prop
  | .ty t, offset => ∀ fuel, t.size ≤ fuel →
      ∃ after, (readers text fuel).body t.mod offset = some (t, after)
  | .fn f, offset => ∀ fuel, f.size ≤ fuel →
      ∃ after, (readers text fuel).fn f.signature.mod offset = some (f, after)

/-- The tables are true of the text, and types up to a size can be read where they stand. -/
structure Before (text : List Char) (st : State) (size : Nat) : Prop where
  heads : Heads text st
  readable : ∀ t offset, (t, offset) ∈ st.types → t.size ≤ size → Readable text t offset

/-- The types that were entered can be read. -/
def New (text : List Char) (st st' : State) : Prop :=
  ∀ t offset, (t, offset) ∈ st'.types → (t, offset) ∈ st.types ∨ Readable text t offset

section

variable {text : List Char} {st st' st'' : State} {size : Nat}

theorem New.refl (st : State) : New text st st :=
  fun _ _ member => Or.inl member

theorem New.trans (first : New text st st') (second : New text st' st'') : New text st st'' :=
  fun t offset member => (second t offset member).elim (first t offset) Or.inr

theorem New.of_types (same : st'.types = st.types) : New text st st' :=
  fun _ _ member => Or.inl (same ▸ member)

theorem Before.after (before : Before text st size) (new : New text st st')
    (heads : Heads text st') : Before text st' size :=
  ⟨heads, fun t offset member small => (new t offset member).elim
    (fun old => before.readable t offset old small) id⟩

theorem Before.write (before : Before text st size) (word : List Char) :
    Before text (st.write word) size :=
  ⟨before.heads.write word, before.readable⟩

theorem Before.mono (before : Before text st size) {smaller : Nat} (le : smaller ≤ size) :
    Before text st smaller :=
  ⟨before.heads, fun t offset member small => before.readable t offset member (small.trans le)⟩

/-- While a type is being written the smaller ones can be read. -/
theorem Before.enter {t : AnyTy} (before : Before text st t.size)
    (head : HeadOf text t st.buf.length) {smaller : Nat} (less : smaller < t.size) :
    Before text (st.enter t) smaller := by
  refine ⟨before.heads.enter head, fun t' offset member small => ?_⟩
  rcases List.mem_cons.mp member with here | there
  · rw [Prod.mk.injEq] at here
    rw [here.1] at small
    omega
  · exact before.readable t' offset there (small.trans less.le)

/-- A type that was entered and written is new. -/
theorem New.enter {t : AnyTy} (new : New text (st.enter t) st')
    (readable : Readable text t st.buf.length) : New text st st' := by
  intro t' offset member
  rcases new t' offset member with entered | later
  · rcases List.mem_cons.mp entered with here | there
    · rw [Prod.mk.injEq] at here
      rw [here.1, here.2]
      exact Or.inr readable
    · exact Or.inl there
  · exact Or.inr later

/-- A reference to a type, or the type. -/
theorem State.addRefToType_reads {t : Ty} {body : State → Option State}
    (run : st.addRefToType (.ty t) body = some st') (within : st'.buf <+: text)
    (before : Before text st t.size)
    (letters : body (st.enter (.ty t)) = some st' → BodyAt text st.buf.length)
    (reads : (∀ smaller, smaller < t.size → Before text (st.enter (.ty t)) smaller) →
      body (st.enter (.ty t)) = some st' → New text (st.enter (.ty t)) st' ∧
        ∀ fuel, t.size ≤ fuel →
          (readers text fuel).body t.mod st.buf.length = some (t, st'.buf.length)) :
    New text st st' ∧ ∀ fuel, t.size ≤ fuel →
      refer text st.buf.length ((readers text fuel).body t.mod) = some (t, st'.buf.length) := by
  rcases State.addRefToType_cases run with ⟨offset, member, rfl⟩ | entered
  · refine ⟨New.of_types rfl, fun fuel enough => ?_⟩
    obtain ⟨after, there⟩ := before.readable _ offset member le_rfl fuel enough
    rw [refer_back (stands_write within) (before.heads.types _ offset member).1 there,
      length_write]
  · have head := letters entered
    obtain ⟨new, read⟩ := reads (fun smaller less =>
      @Before.enter text st (.ty t) before head smaller less) entered
    obtain ⟨c, at_, notQ, _⟩ := head.letter
    refine ⟨new.enter fun fuel enough => ⟨_, read fuel enough⟩, fun fuel enough => ?_⟩
    rw [refer_direct (by rw [at_, Ne, Option.some.injEq]; exact notQ)]
    exact read fuel enough

theorem State.addRefToType_reads_fn {f : Fn} {body : State → Option State}
    (run : st.addRefToType (.fn f) body = some st') (within : st'.buf <+: text)
    (before : Before text st f.size)
    (letters : body (st.enter (.fn f)) = some st' →
      ∃ c, text[st.buf.length]? = some c ∧ isLinkage c = true)
    (reads : (∀ smaller, smaller < f.size → Before text (st.enter (.fn f)) smaller) →
      body (st.enter (.fn f)) = some st' → New text (st.enter (.fn f)) st' ∧
        ∀ fuel, f.size ≤ fuel →
          (readers text fuel).fn f.signature.mod st.buf.length = some (f, st'.buf.length)) :
    New text st st' ∧ ∀ fuel, f.size ≤ fuel →
      refer text st.buf.length ((readers text fuel).fn f.signature.mod) =
        some (f, st'.buf.length) := by
  rcases State.addRefToType_cases run with ⟨offset, member, rfl⟩ | entered
  · refine ⟨New.of_types rfl, fun fuel enough => ?_⟩
    obtain ⟨after, there⟩ := before.readable _ offset member le_rfl fuel enough
    rw [refer_back (stands_write within) (before.heads.types _ offset member).1 there,
      length_write]
  · have head := letters entered
    obtain ⟨new, read⟩ := reads (fun smaller less =>
      @Before.enter text st (.fn f) before head smaller less) entered
    obtain ⟨c, at_, linkage⟩ := head
    have notQ : text[st.buf.length]? ≠ some 'Q' := by
      rw [at_, Ne, Option.some.injEq]
      rintro rfl
      exact absurd linkage (by decide)
    refine ⟨new.enter fun fuel enough => ⟨_, read fuel enough⟩, fun fuel enough => ?_⟩
    rw [refer_direct notQ]
    exact read fuel enough

theorem State.mangleIdentifier_reads {ident : Ident} (run : st.mangleIdentifier ident = some st')
    (within : st'.buf <+: text) (heads : Heads text st) :
    New text st st' ∧ readIdent text st.buf.length = some (ident, st'.buf.length) ∧
      ∃ c, text[st.buf.length]? = some c ∧ c ≠ '0' ∧ c ≠ '_' := by
  rcases State.mangleIdentifier_cases run with ⟨offset, member, rfl⟩ | rfl
  · obtain ⟨before, stands⟩ := heads.idents _ offset member
    obtain ⟨q, _⟩ := readMarked_writeBackRef (stands_write within)
    have there := readIdent_spelling stands
    obtain ⟨c, at_, digit, _⟩ := ident.head_spelling stands
    rw [readIdent, refer_direct (by
      rw [at_, Ne, Option.some.injEq]
      rintro rfl
      cases digit)] at there
    refine ⟨New.of_types rfl, ?_, 'Q', q, by decide, by decide⟩
    rw [readIdent, refer_back (stands_write within) before there, length_write]
  · have stands : Stands text st.buf.length ident.spelling := stands_write within
    obtain ⟨c, at_, digit, notZero⟩ := ident.head_spelling stands
    refine ⟨New.of_types rfl, ?_, c, at_, notZero, ?_⟩
    · rw [readIdent_spelling stands, length_write]
    · rintro rfl
      cases digit

/-- A type with its qualifiers: what is written for a new entry can be read. -/
theorem visit_reads {mask mod : Mod} {t : Ty} {body : State → Option State} (modEq : t.mod = mod)
    (allowed : mask ≠ .none → mod ≠ .none)
    (run : (st.write (mask.under mod)).addRefToType (.ty t) body = some st')
    (within : st'.buf <+: text) (before : Before text st t.size)
    (reads : ∀ {entered : State}, body entered = some st' → entered.buf <+: st'.buf ∧
      BodyAt text entered.buf.length ∧ ((∀ smaller, smaller < t.size → Before text entered smaller) →
        New text entered st' ∧ ∀ fuel, t.size ≤ fuel →
          (readers text fuel).body mod entered.buf.length = some (t, st'.buf.length))) :
    New text st st' ∧ ∀ fuel, t.size ≤ fuel →
      readTy text (readers text fuel) mask st.buf.length = some (t, st'.buf.length) := by
  subst modEq
  have entry := @reads ((st.write (mask.under t.mod)).enter (.ty t))
  have grows := State.addRefToType_appends run fun entered => (entry entered).1
  have under := stands_write (grows.trans within)
  have ref := State.addRefToType_refAt run within (before.heads.write _) fun entered =>
    (entry entered).2.1
  obtain ⟨new, read⟩ := State.addRefToType_reads run within (before.write _)
    (fun entered => (entry entered).2.1) fun smaller entered => (entry entered).2.2 smaller
  rw [length_write] at ref read
  refine ⟨(New.of_types rfl : New text st (st.write _)).trans new, fun fuel enough => ?_⟩
  rw [readTy_under _ under ref.notMod allowed]
  exact read fuel enough

/-- A function type with its qualifiers. -/
theorem visit_reads_fn {mask : Mod} {f : Fn} {body : State → Option State}
    (allowed : mask ≠ .none → f.signature.mod ≠ mask)
    (run : (st.write (mask.under f.signature.mod)).addRefToType (.fn f) body = some st')
    (within : st'.buf <+: text) (before : Before text st f.size)
    (reads : ∀ {entered : State}, body entered = some st' → entered.buf <+: st'.buf ∧
      (∃ c, text[entered.buf.length]? = some c ∧ isLinkage c = true) ∧
      ((∀ smaller, smaller < f.size → Before text entered smaller) →
        New text entered st' ∧ ∀ fuel, f.size ≤ fuel →
          (readers text fuel).fn f.signature.mod entered.buf.length = some (f, st'.buf.length))) :
    New text st st' ∧ functionStart text st.buf.length = true ∧ ∀ fuel, f.size ≤ fuel →
      readFn text (readers text fuel) st.buf.length = some (f, st'.buf.length) := by
  have entry := @reads ((st.write (mask.under f.signature.mod)).enter (.fn f))
  have grows := State.addRefToType_appends run fun entered => (entry entered).1
  have under := stands_write (grows.trans within)
  obtain ⟨notMod, c, head, linkage⟩ := State.addRefToType_headAt run within
    (before.heads.write _) fun entered => (entry entered).2.1
  obtain ⟨new, read⟩ := State.addRefToType_reads_fn run within (before.write _)
    (fun entered => (entry entered).2.1) fun smaller entered => (entry entered).2.2 smaller
  rw [length_write] at notMod head read
  refine ⟨(New.of_types rfl : New text st (st.write _)).trans new, ?_, fun fuel enough => ?_⟩
  · rw [functionStart, readMod_under under notMod]
    dsimp only
    rw [head, Option.any_some, linkage]
  · rw [readFn_under _ under notMod allowed]
    exact read fuel enough

theorem State.write_cons (st : State) (c : Char) (word : List Char) :
    st.write (c :: word) = (st.write [c]).write word := by
  simp [State.write]

theorem Names.canonical_of_spelled {kind : NamedKind} {origin : Origin} {names : Names}
    (same : spelled kind origin names.canonical = names) :
    names.canonical = names ∧ spelled kind origin names = names := by
  have fixed : names.canonical = names := by
    rw [spelled_canonical] at same
    have twice := (spelled kind origin names).canonical_canonical
    rwa [same] at twice
  exact ⟨fixed, by rwa [fixed] at same⟩

/-- The base of a vector. -/
theorem vectorBase_reads {pos dim : Nat} {element : Basic} {mod : Mod}
    (first : Stands text pos (NextKind.sarray dim).text)
    (second : Stands text (pos + (NextKind.sarray dim).text.length) element.text) {fuel : Nat}
    (enough : 2 ≤ fuel) :
    (readers text fuel).body mod pos = some (.next (.sarray dim) mod (.basic element mod),
      pos + (NextKind.sarray dim).text.length + element.text.length) := by
  obtain ⟨fuel, rfl⟩ : ∃ more, fuel = more + 2 := ⟨fuel - 2, by omega⟩
  have body := element.bodyAt second
  have tyAt : TyAt text (pos + (NextKind.sarray dim).text.length) := by
    rw [TyAt, body.notMod.readMod_eq]
    exact Or.inl body
  have elementRead : (readers text (fuel + 1)).body mod (pos + (NextKind.sarray dim).text.length) =
      _ := bodyStep_basic (readers text fuel) mod second
  show bodyStep text (readers text (fuel + 1)) mod pos = _
  rw [bodyStep_next _ mod first tyAt, readNext, readTy_plain _ body, elementRead]
  rfl

end

/-! ### Types -/

mutual

/-- A type that was written is read back. -/
theorem mangleTy_reads {text : List Char} : ∀ (t : Ty) {mask : Mod} {st st' : State},
    t.Regular → t.canonical = t → (mask ≠ .none → t.mod ≠ .none) →
    mangleTy t mask st = some st' → st'.buf <+: text → Before text st t.size →
    Stops text st'.buf.length → New text st st' ∧ ∀ fuel, t.size ≤ fuel →
      readTy text (readers text fuel) mask st.buf.length = some (t, st'.buf.length)
  | .basic ty mod, mask, st, st', _, _, allowed, run, within, _, _ => by
    rw [mangleTy, Option.some.injEq] at run
    subst run
    obtain ⟨under, body⟩ := stands_append.mp (stands_write within)
    refine ⟨New.of_types rfl, fun fuel enough => ?_⟩
    have bodyAt := ty.bodyAt body
    obtain ⟨c, at_, notQ, _⟩ := bodyAt.letter
    rw [readTy_under _ under bodyAt.notMod allowed,
      refer_direct (by rw [at_, Ne, Option.some.injEq]; exact notQ)]
    cases fuel with
    | zero => exact absurd enough (by rw [Ty.size]; decide)
    | succ fuel =>
      rw [length_write, List.length_append, ← Nat.add_assoc]
      exact bodyStep_basic (readers text fuel) mod body
  | .single ty mod, mask, st, st', _, _, allowed, run, within, before, _ => by
    rw [mangleTy] at run
    refine visit_reads rfl allowed run within before fun entered => ?_
    rw [Option.some.injEq] at entered
    subst entered
    have stands := stands_write within
    refine ⟨prefix_write _ _, ty.bodyAt stands, fun _ => ⟨New.of_types rfl, fun fuel enough => ?_⟩⟩
    cases fuel with
    | zero => exact absurd enough (by rw [Ty.size]; decide)
    | succ fuel =>
      rw [length_write]
      exact bodyStep_single (readers text fuel) mod stands
  | .next kind mod next, mask, st, st', ⟨transitive, regular⟩, canonical, allowed, run, within,
      before, stops => by
    rw [mangleTy, canonical] at run
    rw [Ty.canonical, Ty.next.injEq] at canonical
    refine visit_reads rfl allowed run within before fun {entered} entry => ?_
    have grows := mangleTy_appends next entry
    have stands := stands_write (grows.trans within)
    refine ⟨(prefix_write _ _).trans grows, kind.bodyAt stands, fun smaller => ?_⟩
    have inner := (smaller next.size (Nat.lt_succ_self _)).write kind.text
    have tyAt := (mangleTy_heads next entry within inner.heads).2
    obtain ⟨new, read⟩ := mangleTy_reads next regular canonical.2.2 transitive entry within inner stops
    refine ⟨(New.of_types rfl : New text entered (entered.write _)).trans new,
      fun fuel enough => ?_⟩
    cases fuel with
    | zero => exact absurd enough (by rw [Ty.size]; omega)
    | succ fuel =>
      rw [length_write] at tyAt read
      show bodyStep text (readers text fuel) mod entered.buf.length = _
      rw [bodyStep_next _ mod stands tyAt, readNext, read fuel (Nat.le_of_succ_le_succ enough)]
      rfl
  | .aarray mod index next, mask, st, st', ⟨regular, transitive, regular'⟩, canonical, allowed, run,
      within, before, stops => by
    rw [mangleTy, canonical] at run
    rw [Ty.canonical, Ty.aarray.injEq] at canonical
    refine visit_reads rfl allowed run within before fun {entered} entry => ?_
    obtain ⟨mid, first, second⟩ := Option.bind_eq_some_iff.mp entry
    have grows := mangleTy_appends index first
    have midWithin := (mangleTy_appends next second).trans within
    have stands := stands_write (grows.trans midWithin)
    refine ⟨(prefix_write _ _).trans (grows.trans (mangleTy_appends next second)),
      bodyAt_of_stands stands (by decide), fun smaller => ?_⟩
    have inner := (smaller (index.size + next.size) (Nat.lt_succ_self _)).write ['H']
    have midHeads := (mangleTy_heads index first midWithin inner.heads).1
    have tyAt := (mangleTy_heads next second within midHeads).2
    obtain ⟨new, read⟩ := mangleTy_reads index regular canonical.2.1 (fun plain => absurd rfl plain)
      first midWithin (inner.mono (Nat.le_add_right _ _)) tyAt.stops
    obtain ⟨new', read'⟩ := mangleTy_reads next regular' canonical.2.2 transitive second within
      ((inner.after new midHeads).mono (Nat.le_add_left _ _)) stops
    refine ⟨(New.of_types rfl : New text entered (entered.write _)).trans (new.trans new'),
      fun fuel enough => ?_⟩
    cases fuel with
    | zero => exact absurd enough (by rw [Ty.size]; omega)
    | succ fuel =>
      have enough' : index.size + next.size ≤ fuel := Nat.le_of_succ_le_succ enough
      have start : readTy text (readers text fuel) .none (entered.buf.length + 1) =
          some (index, mid.buf.length) := by
        rw [length_write] at read
        exact read fuel (by omega)
      show bodyStep text (readers text fuel) mod entered.buf.length = _
      rw [bodyStep, (stands_cons.mp stands).1]
      dsimp only
      rw [start, Option.bind_eq_bind, Option.bind_some]
      dsimp only
      rw [read' fuel (by omega)]
      rfl
  | .vector mod sharedBase dim element, mask, st, st', regular, _, allowed, run, within, before,
      _ => by
    rw [mangleTy] at run
    refine visit_reads rfl allowed run within before fun {entered} entry => ?_
    have baseWritten : ∀ {inner : State}, some (inner.write ((NextKind.sarray dim).text ++
        element.text)) = some st' → inner.buf <+: st'.buf ∧
          Stands text inner.buf.length (NextKind.sarray dim).text ∧
          Stands text (inner.buf.length + (NextKind.sarray dim).text.length) element.text ∧
          st'.buf.length = inner.buf.length + (NextKind.sarray dim).text.length +
            element.text.length ∧ New text inner st' := by
      intro inner written
      rw [Option.some.injEq] at written
      subst written
      obtain ⟨first, second⟩ := stands_append.mp (stands_write within)
      refine ⟨prefix_write _ _, first, second, ?_, New.of_types rfl⟩
      rw [length_write, List.length_append, Nat.add_assoc]
    have grows := State.addRefToType_appends entry fun inner => (baseWritten inner).1
    have stands := stands_write (grows.trans within)
    obtain ⟨marks, under⟩ := stands_append.mp stands
    obtain ⟨n, h⟩ := stands_cons.mp marks
    refine ⟨(prefix_write _ _).trans grows, ⟨'N', n, Or.inr ⟨rfl, Or.inl (stands_cons.mp h).1⟩⟩,
      fun smaller => ?_⟩
    have inner := (smaller 2 (Nat.lt_succ_self _)).write (['N', 'h'] ++ mod.under (baseMod sharedBase))
    have baseSize : (vectorBase sharedBase dim element).size = 2 := rfl
    have ref := State.addRefToType_refAt entry within inner.heads fun inner =>
      (NextKind.sarray dim).bodyAt (baseWritten inner).2.1
    obtain ⟨new, read⟩ := State.addRefToType_reads entry within (by rwa [baseSize])
      (fun inner => (NextKind.sarray dim).bodyAt (baseWritten inner).2.1) fun _ inner => by
        obtain ⟨_, first, second, length, kept⟩ := baseWritten inner
        exact ⟨kept, fun fuel enough => by rw [length]; exact vectorBase_reads first second enough⟩
    rw [length_write, List.length_append, ← Nat.add_assoc] at ref read
    refine ⟨(New.of_types rfl : New text entered (entered.write _)).trans new,
      fun fuel enough => ?_⟩
    cases fuel with
    | zero => exact absurd enough (by rw [Ty.size]; decide)
    | succ fuel =>
      have told : mod ≠ .none → baseMod sharedBase ≠ mod := by
        rintro qualified rfl
        cases sharedBase with
        | true => exact regular ⟨rfl, rfl⟩
        | false => exact qualified rfl
      have same : decide (baseMod sharedBase = .shared_) = sharedBase := by
        cases sharedBase <;> rfl
      have base : readTy text (readers text fuel) .none (entered.buf.length + 2) =
          some (vectorBase sharedBase dim element, st'.buf.length) :=
        (readTy_none_under _ under ref.notMod told).trans
          (read fuel (Nat.le_of_succ_le_succ enough))
      show bodyStep text (readers text fuel) mod entered.buf.length = _
      rw [bodyStep_vector _ mod marks, readVector, base, Option.bind_eq_bind, Option.bind_some,
        vectorBase]
      dsimp only
      rw [same]
      rfl
  | .call kind mod function, mask, st, st', ⟨allowed', regular⟩, canonical, allowed, run, within,
      before, stops => by
    rw [mangleTy, canonical] at run
    rw [Ty.canonical, Ty.call.injEq] at canonical
    obtain ⟨_, _, canonical⟩ := canonical
    refine visit_reads rfl allowed run within before fun {entered} entry => ?_
    dsimp only at entry
    rw [canonical, State.write_cons] at entry
    have grows := State.addRefToType_appends entry fun inner => mangleFn_appends function inner
    have stands := stands_write (((prefix_write _ _).trans grows).trans within)
    have letter : kind.letter ∈ bodyLetters := by cases kind <;> decide
    refine ⟨(prefix_write _ _).trans ((prefix_write _ _).trans grows),
      bodyAt_of_stands stands letter, fun smaller => ?_⟩
    have inner := (smaller function.size (Nat.lt_succ_self _)).write [kind.letter]
    obtain ⟨new, start, read⟩ := visit_reads_fn allowed' entry within inner fun {called} inner =>
      ⟨mangleFn_appends function inner, (mangleFn_heads function inner within).1, fun smaller =>
        mangleFn_reads function regular canonical inner within smaller stops⟩
    rw [length_write] at start read
    refine ⟨(New.of_types rfl : New text entered (entered.write _)).trans new,
      fun fuel enough => ?_⟩
    cases fuel with
    | zero => exact absurd enough (by rw [Ty.size]; omega)
    | succ fuel =>
      show bodyStep text (readers text fuel) mod entered.buf.length = _
      rw [bodyStep_call _ mod (stands_cons.mp stands).1 start, readCall,
        show readFn text (readers text fuel) (entered.buf.length + 1) = _ from
          read fuel (Nat.le_of_succ_le_succ enough)]
      rfl
  | .named kind mod origin names, mask, st, st', regular, canonical, allowed, run, within, before,
      stops => by
    rw [mangleTy, canonical] at run
    rw [Ty.canonical, Ty.named.injEq] at canonical
    obtain ⟨_, _, d, same⟩ := canonical
    obtain ⟨fixed, spelled_⟩ := Names.canonical_of_spelled same
    refine visit_reads rfl allowed run within before fun {entered} entry => ?_
    rw [mangleNames_spelled, spelled_] at entry
    have grows := mangleNames_appends names entry
    have stands := stands_write (grows.trans within)
    have letter : kind.letter ∈ bodyLetters := by cases kind <;> decide
    refine ⟨(prefix_write _ _).trans grows, bodyAt_of_stands stands letter, fun smaller => ?_⟩
    have inner := (smaller names.size (Nat.lt_succ_self _)).write [kind.letter]
    obtain ⟨new, read⟩ := mangleNames_reads names regular fixed entry within inner stops
    rw [length_write] at read
    refine ⟨(New.of_types rfl : New text entered (entered.write _)).trans new,
      fun fuel enough => ?_⟩
    cases fuel with
    | zero => exact absurd enough (by rw [Ty.size]; omega)
    | succ fuel =>
      show bodyStep text (readers text fuel) mod entered.buf.length = _
      rw [bodyStep_named _ mod (stands_cons.mp stands).1, readNamed,
        show (readers text fuel).names (entered.buf.length + 1) = _ from
          read fuel (Nat.le_of_succ_le_succ enough), ← d]
      rfl

/-- A function type behind its qualifiers that was written is read back. -/
theorem mangleFn_reads {text : List Char} : ∀ (f : Fn) {st st' : State},
    f.Regular → f.canonical = f → mangleFn f st = some st' → st'.buf <+: text →
    (∀ smaller, smaller < f.size → Before text st smaller) → Stops text st'.buf.length →
    New text st st' ∧ ∀ fuel, f.size ≤ fuel →
      (readers text fuel).fn f.signature.mod st.buf.length = some (f, st'.buf.length)
  | .mk signature params result, st, st', regular, canonical, run, within, smaller, stops => by
    rw [mangleFn] at run
    rw [Fn.canonical, Fn.mk.injEq] at canonical
    obtain ⟨signed, first, run⟩ := Option.bind_eq_some_iff.mp run
    obtain ⟨listed, second, third⟩ := Option.bind_eq_some_iff.mp run
    obtain ⟨c, letter, rfl⟩ := State.writeSignature_eq first
    have closedWithin := (mangleTy_appends result third).trans within
    have listedWithin := (prefix_write _ _).trans closedWithin
    have closed := signature.varargs.closed closedWithin
    have closing := (stands_cons.mp (stands_write closedWithin)).1
    have stands := stands_write ((mangleParams_appends params second).trans listedWithin)
    have before := (smaller (params.size + result.size) (Nat.lt_succ_self _)).write
      (c :: signature.attributes.text)
    obtain ⟨kept, param⟩ := mangleParams_heads params second listedWithin closed before.heads
    obtain ⟨new, read⟩ := mangleParams_reads params regular.1 canonical.2.1 second listedWithin
      closed (before.mono (Nat.le_add_right _ _))
    obtain ⟨new', read'⟩ := mangleTy_reads result regular.2 canonical.2.2
      (fun plain => absurd rfl plain) third within
      (((before.after new kept).mono (Nat.le_add_left _ _)).write _) stops
    rw [length_write] at param read read'
    refine ⟨(New.of_types rfl : New text st (st.write _)).trans (new.trans
      ((New.of_types rfl : New text listed (listed.write _)).trans new')), fun fuel enough => ?_⟩
    cases fuel with
    | zero => exact absurd enough (by rw [Fn.size]; omega)
    | succ fuel =>
      have enough' : params.size + result.size ≤ fuel := Nat.le_of_succ_le_succ enough
      have signed := readSignature_eq (readers text fuel) letter stands param
        (read fuel (by omega)) closing
      show fnStep text (readers text fuel) signature.mod st.buf.length = _
      rw [fnStep, signed, Option.bind_eq_bind, Option.bind_some]
      dsimp only
      rw [show readTy text (readers text fuel) .none (listed.buf.length + 1) = _ from
        read' fuel (by omega), canonical.1]
      rfl

/-- Parameters that were written are read back. -/
theorem mangleParams_reads {text : List Char} : ∀ (ps : Params) {st st' : State},
    ps.Regular → ps.canonical = ps → mangleParams ps st = some st' → st'.buf <+: text →
    Closed text st' → Before text st ps.size → New text st st' ∧ ∀ fuel, ps.size ≤ fuel →
      (readers text fuel).params st.buf.length = some (ps, st'.buf.length)
  | .nil, st, st', _, _, run, _, closed, _ => by
    rw [mangleParams, Option.some.injEq] at run
    subst run
    obtain ⟨c, at_, closing⟩ := closed
    refine ⟨New.refl st, fun fuel enough => ?_⟩
    cases fuel with
    | zero => exact absurd enough (by rw [Params.size]; decide)
    | succ fuel => exact paramsStep_nil (readers text fuel) at_ closing
  | .cons storage ty rest, st, st', ⟨allowed, typeRegular, restRegular⟩, canonical, run, within,
      closed, before => by
    rw [mangleParams] at run
    rw [Params.canonical, Params.cons.injEq] at canonical
    obtain ⟨stored, first, run⟩ := Option.bind_eq_some_iff.mp run
    obtain ⟨typed, second, third⟩ := Option.bind_eq_some_iff.mp run
    obtain ⟨codes, coded, rfl⟩ := State.writeStorage_eq first
    have typedWithin := (mangleParams_appends rest third).trans within
    have stands := stands_write ((mangleTy_appends ty second).trans typedWithin)
    have before' := (before.mono (Nat.le_succ (ty.size + rest.size))).write
      (codes.flatMap Code.text)
    obtain ⟨kept, tyAt⟩ := mangleTy_heads ty second typedWithin before'.heads
    have param := (mangleParams_heads rest third within closed kept).2
    have under : (if storage.in_ then Mod.const_ else Mod.none) ≠ .none → ty.mod ≠ .none := by
      intro qualified
      by_cases in_ : storage.in_ = true
      · exact allowed in_
      · exact absurd (if_neg in_) qualified
    obtain ⟨new, read⟩ := mangleTy_reads ty typeRegular canonical.2.1 under second typedWithin
      (before'.mono (Nat.le_add_right _ _)) param.stops
    obtain ⟨new', read'⟩ := mangleParams_reads rest restRegular canonical.2.2 third within closed
      ((before'.after new kept).mono (Nat.le_add_left _ _))
    rw [length_write] at tyAt read
    refine ⟨(New.of_types rfl : New text st (st.write _)).trans (new.trans new'),
      fun fuel enough => ?_⟩
    cases fuel with
    | zero => exact absurd enough (by rw [Params.size]; omega)
    | succ fuel =>
      have enough' : ty.size + rest.size ≤ fuel := Nat.le_of_succ_le_succ enough
      exact paramsStep_cons (readers text fuel) coded canonical.1 stands tyAt
        (read fuel (by omega)) (read' fuel (by omega))

/-- Template arguments that were written are read back. -/
theorem mangleArgs_reads {text : List Char} : ∀ (args : Args) {st st' : State},
    args.Regular → args.canonical = args → mangleArgs args st = some st' → st'.buf <+: text →
    text[st'.buf.length]? = some 'Z' → Before text st args.size →
    New text st st' ∧ ∀ fuel, args.size ≤ fuel →
      (readers text fuel).args st.buf.length = some (args, st'.buf.length)
  | .nil, st, st', _, _, run, _, closed, _ => by
    rw [mangleArgs, Option.some.injEq] at run
    subst run
    refine ⟨New.refl st, fun fuel enough => ?_⟩
    cases fuel with
    | zero => exact absurd enough (by rw [Args.size]; decide)
    | succ fuel => exact argsStep_nil (readers text fuel) closed
  | .cons specialized ty rest, st, st', ⟨typeRegular, restRegular⟩, canonical, run, within, closed,
      before => by
    rw [mangleArgs] at run
    rw [Args.canonical, Args.cons.injEq] at canonical
    obtain ⟨typed, first, second⟩ := Option.bind_eq_some_iff.mp run
    have typedWithin := (mangleArgs_appends rest second).trans within
    have stands := stands_write ((mangleTy_appends ty first).trans typedWithin)
    have before' := (before.mono (Nat.le_succ (ty.size + rest.size))).write
      ((if specialized then ['H'] else []) ++ ['T'])
    have kept := (mangleTy_heads ty first typedWithin before'.heads).1
    have stops := (mangleArgs_heads rest second within closed kept).2
    obtain ⟨new, read⟩ := mangleTy_reads ty typeRegular canonical.2.1
      (fun plain => absurd rfl plain) first typedWithin (before'.mono (Nat.le_add_right _ _)) stops
    obtain ⟨new', read'⟩ := mangleArgs_reads rest restRegular canonical.2.2 second within closed
      ((before'.after new kept).mono (Nat.le_add_left _ _))
    rw [length_write] at read
    refine ⟨(New.of_types rfl : New text st (st.write _)).trans (new.trans new'),
      fun fuel enough => ?_⟩
    cases fuel with
    | zero => exact absurd enough (by rw [Args.size]; omega)
    | succ fuel =>
      have enough' : ty.size + rest.size ≤ fuel := Nat.le_of_succ_le_succ enough
      exact argsStep_cons (readers text fuel) stands (read fuel (by omega))
        (read' fuel (by omega))

/-- Names that were written are read back. -/
theorem mangleNames_reads {text : List Char} : ∀ (names : Names) {st st' : State},
    names.Regular → names.canonical = names → mangleNames names st = some st' →
    st'.buf <+: text → Before text st names.size → Stops text st'.buf.length →
    New text st st' ∧ ∀ fuel, names.size ≤ fuel →
      (readers text fuel).names st.buf.length = some (names, st'.buf.length)
  | .symbol ident, st, st', regular, _, run, within, before, stops => by
    rw [mangleNames] at run
    obtain ⟨new, read, c, at_, notZero, notLine⟩ :=
      State.mangleIdentifier_reads run within before.heads
    refine ⟨new, fun fuel enough => ?_⟩
    cases fuel with
    | zero => exact absurd enough (by rw [Names.size]; decide)
    | succ fuel =>
      show namesStep text (readers text fuel) st.buf.length = _
      rw [namesStep_ident _ at_ notZero notLine read, readParent_symbol _ regular stops]
  | .parent ident rest, st, st', ⟨proper, regular⟩, canonical, run, within, before, stops => by
    rw [mangleNames] at run
    rw [Names.canonical, Names.parent.injEq] at canonical
    obtain ⟨named, first, second⟩ := Option.bind_eq_some_iff.mp run
    have namedWithin := (mangleNames_appends rest second).trans within
    have kept := (State.mangleIdentifier_heads first namedWithin before.heads).1
    obtain ⟨new, identRead, c, at_, notZero, notLine⟩ :=
      State.mangleIdentifier_reads first namedWithin before.heads
    have name := (mangleNames_heads rest second within kept).2
    obtain ⟨new', read⟩ := mangleNames_reads rest regular canonical.2 second within
      ((before.after new kept).mono (Nat.le_succ _)) stops
    refine ⟨new.trans new', fun fuel enough => ?_⟩
    cases fuel with
    | zero => exact absurd enough (by rw [Names.size]; omega)
    | succ fuel =>
      show namesStep text (readers text fuel) st.buf.length = _
      rw [namesStep_ident _ at_ notZero notLine identRead,
        readParent_parent _ proper name (read fuel (Nat.le_of_succ_le_succ enough))]
  | .function ident needThis signature params rest, st, st',
      ⟨proper, linkage, paramsRegular, restRegular⟩, canonical, run, within, before, stops => by
    rw [mangleNames] at run
    rw [Names.canonical, Names.function.injEq] at canonical
    obtain ⟨_, _, signature_, params_, rest_⟩ := canonical
    obtain ⟨named, first, run⟩ := Option.bind_eq_some_iff.mp run
    obtain ⟨signed, second, run⟩ := Option.bind_eq_some_iff.mp run
    obtain ⟨listed, third, fourth⟩ := Option.bind_eq_some_iff.mp run
    obtain ⟨c, letter, rfl⟩ := State.writeSignature_eq second
    have closedWithin := (mangleNames_appends rest fourth).trans within
    have listedWithin := (prefix_write _ _).trans closedWithin
    have closed := signature.varargs.closed closedWithin
    have closing := (stands_cons.mp (stands_write closedWithin)).1
    have signedWithin := (mangleParams_appends params third).trans listedWithin
    have stands := stands_write signedWithin
    have marks := stands_write ((prefix_write _ _).trans signedWithin)
    have namedWithin := (prefix_write _ _).trans ((prefix_write _ _).trans signedWithin)
    have kept := (State.mangleIdentifier_heads first namedWithin before.heads).1
    obtain ⟨new, identRead, d, at_, notZero, notLine⟩ :=
      State.mangleIdentifier_reads first namedWithin before.heads
    have before' := (((before.after new kept).mono (Nat.le_succ (params.size + rest.size))).write
      (functionMarks needThis signature.mod)).write (c :: signature.attributes.text)
    obtain ⟨kept', param⟩ := mangleParams_heads params third listedWithin closed before'.heads
    obtain ⟨new', read⟩ := mangleParams_reads params paramsRegular params_ third listedWithin
      closed (before'.mono (Nat.le_add_right _ _))
    obtain ⟨new'', read'⟩ := mangleNames_reads rest restRegular rest_ fourth within
      (((before'.after new' kept').mono (Nat.le_add_left _ _)).write _) stops
    rw [length_write, length_write] at param read
    rw [length_write] at stands
    have told : c = 'W' ∨ c = 'Y' → needThis = true ∨ signature.mod ≠ .none :=
      fun closing => linkage (Linkage.of_closing letter closing)
    refine ⟨new.trans (New.trans (New.of_types rfl) (new'.trans
      ((New.of_types rfl : New text listed (listed.write _)).trans new''))), fun fuel enough => ?_⟩
    cases fuel with
    | zero => exact absurd enough (by rw [Names.size]; omega)
    | succ fuel =>
      have enough' : params.size + rest.size ≤ fuel := Nat.le_of_succ_le_succ enough
      have signatureRead := readSignature_eq (readers text fuel) letter stands param
        (read fuel (by omega)) closing
      have restRead : (readers text fuel).names (listed.buf.length + 1) =
          some (rest, st'.buf.length) := by
        rw [length_write] at read'
        exact read' fuel (by omega)
      show namesStep text (readers text fuel) st.buf.length = _
      rw [namesStep_ident _ at_ notZero notLine identRead, readParent_function _ proper signature_
        letter told marks signatureRead (stands_cons.mp stands).1 restRead]
  | .template inConstraint ident args rest, st, st', ⟨argsRegular, restRegular⟩, canonical, run,
      within, before, stops => by
    rw [mangleNames] at run
    rw [Names.canonical, Names.template.injEq] at canonical
    obtain ⟨_, _, args_, rest_⟩ := canonical
    obtain ⟨named, first, run⟩ := Option.bind_eq_some_iff.mp run
    obtain ⟨listed, second, third⟩ := Option.bind_eq_some_iff.mp run
    have closedWithin := (mangleNames_appends rest third).trans within
    have closing := (stands_cons.mp (stands_write closedWithin)).1
    have listedWithin := (prefix_write _ _).trans closedWithin
    have namedWithin := (mangleArgs_appends args second).trans listedWithin
    have stands := stands_write ((State.mangleIdentifier_appends first).trans namedWithin)
    have before' := (before.mono (Nat.le_succ (args.size + rest.size))).write
      ['_', '_', if inConstraint then 'U' else 'T']
    have kept := (State.mangleIdentifier_heads first namedWithin before'.heads).1
    obtain ⟨new, identRead, _⟩ := State.mangleIdentifier_reads first namedWithin before'.heads
    have before'' := before'.after new kept
    have kept' := (mangleArgs_heads args second listedWithin closing kept).1
    obtain ⟨new', read⟩ := mangleArgs_reads args argsRegular args_ second listedWithin closing
      (before''.mono (Nat.le_add_right _ _))
    obtain ⟨new'', read'⟩ := mangleNames_reads rest restRegular rest_ third within
      (((before''.after new' kept').mono (Nat.le_add_left _ _)).write _) stops
    rw [length_write] at identRead
    refine ⟨(New.of_types rfl : New text st (st.write _)).trans (new.trans (new'.trans
      ((New.of_types rfl : New text listed (listed.write _)).trans new''))), fun fuel enough => ?_⟩
    cases fuel with
    | zero => exact absurd enough (by rw [Names.size]; omega)
    | succ fuel =>
      have enough' : args.size + rest.size ≤ fuel := Nat.le_of_succ_le_succ enough
      have restRead : (readers text fuel).names (listed.buf.length + 1) =
          some (rest, st'.buf.length) := by
        rw [length_write] at read'
        exact read' fuel (by omega)
      exact namesStep_template (readers text fuel) stands identRead (read fuel (by omega)) restRead
  | .anonymous rest, st, st', regular, canonical, run, within, before, stops => by
    rw [mangleNames] at run
    rw [Names.canonical, Names.anonymous.injEq] at canonical
    have stands := stands_write ((mangleNames_appends rest run).trans within)
    obtain ⟨new, read⟩ := mangleNames_reads rest regular canonical run within
      ((before.mono (Nat.le_succ _)).write _) stops
    rw [length_write] at read
    refine ⟨(New.of_types rfl : New text st (st.write _)).trans new, fun fuel enough => ?_⟩
    cases fuel with
    | zero => exact absurd enough (by rw [Names.size]; omega)
    | succ fuel =>
      exact namesStep_anonymous (readers text fuel) (stands_cons.mp stands).1
        (read fuel (Nat.le_of_succ_le_succ enough))
  | .localNum number rest, st, st', regular, canonical, run, within, before, stops => by
    rw [mangleNames] at run
    rw [Names.canonical, Names.localNum.injEq] at canonical
    have stands := stands_write ((mangleNames_appends rest run).trans within)
    obtain ⟨new, read⟩ := mangleNames_reads rest regular canonical.2 run within
      ((before.mono (Nat.le_succ _)).write _) stops
    rw [length_write, localParent_eq] at read
    rw [localParent_eq] at stands
    obtain ⟨c, at_, digit, notZero⟩ := (localIdent number).head_spelling stands
    have notLine : c ≠ '_' := by
      rintro rfl
      cases digit
    refine ⟨(New.of_types rfl : New text st (st.write _)).trans new, fun fuel enough => ?_⟩
    cases fuel with
    | zero => exact absurd enough (by rw [Names.size]; omega)
    | succ fuel =>
      show namesStep text (readers text fuel) st.buf.length = _
      rw [namesStep_ident _ at_ notZero notLine (readIdent_spelling stands),
        readParent_local _ (read fuel (Nat.le_of_succ_le_succ enough))]

end

end LaserD.Mangle
