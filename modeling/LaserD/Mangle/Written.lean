/-
This file shows of all that the writer writes that the buffer only grows, that the tables stay
true of the text, and with which letters it begins.
-/

import LaserD.Mangle.Heads

namespace LaserD.Mangle

open Numerals

/-! ### Growing -/

section

variable {st st' : State}

theorem prefix_write (st : State) (word : List Char) : st.buf <+: (st.write word).buf :=
  List.prefix_append _ _

theorem State.addRefToType_appends {t : AnyTy} {body : State → Option State}
    (run : st.addRefToType t body = some st')
    (grows : body (st.enter t) = some st' → (st.enter t).buf <+: st'.buf) :
    st.buf <+: st'.buf := by
  rcases State.addRefToType_cases run with ⟨offset, _, rfl⟩ | entered
  · exact prefix_write _ _
  · exact grows entered

theorem State.mangleIdentifier_appends {ident : Ident}
    (run : st.mangleIdentifier ident = some st') : st.buf <+: st'.buf := by
  rcases State.mangleIdentifier_cases run with ⟨offset, _, rfl⟩ | rfl
  · exact prefix_write _ _
  · exact List.prefix_append _ _

/-- A signature is its letter and its attributes. -/
theorem State.writeSignature_eq {signature : Signature}
    (run : st.writeSignature signature = some st') :
    ∃ c, signature.linkage.letter? = some c ∧ st' = st.write (c :: signature.attributes.text) := by
  rw [State.writeSignature, Option.map_eq_some_iff] at run
  obtain ⟨c, letter, rfl⟩ := run
  exact ⟨c, letter, rfl⟩

theorem State.writeStorage_eq {storage : Storage} (run : st.writeStorage storage = some st') :
    ∃ codes, storage.codes = some codes ∧ st' = st.write (codes.flatMap Code.text) := by
  rw [State.writeStorage, Option.map_eq_some_iff] at run
  obtain ⟨codes, coded, rfl⟩ := run
  exact ⟨codes, coded, rfl⟩

end

mutual

theorem mangleTy_appends : ∀ (t : Ty) {mask : Mod} {st st' : State},
    mangleTy t mask st = some st' → st.buf <+: st'.buf
  | .basic _ _, _, st, st', run => by
    rw [mangleTy, Option.some.injEq] at run
    rw [← run]
    exact prefix_write _ _
  | .single _ _, _, st, st', run => by
    rw [mangleTy] at run
    refine (prefix_write _ _).trans (State.addRefToType_appends run fun entered => ?_)
    rw [Option.some.injEq] at entered
    rw [← entered]
    exact prefix_write _ _
  | .next _ _ next, _, st, st', run => by
    rw [mangleTy] at run
    exact (prefix_write _ _).trans (State.addRefToType_appends run fun entered =>
      (prefix_write _ _).trans (mangleTy_appends next entered))
  | .aarray _ index next, _, st, st', run => by
    rw [mangleTy] at run
    refine (prefix_write _ _).trans (State.addRefToType_appends run fun entered => ?_)
    obtain ⟨mid, first, second⟩ := Option.bind_eq_some_iff.mp entered
    exact (prefix_write _ _).trans ((mangleTy_appends index first).trans
      (mangleTy_appends next second))
  | .vector _ _ _ _, _, st, st', run => by
    rw [mangleTy] at run
    refine (prefix_write _ _).trans (State.addRefToType_appends run fun entered =>
      (prefix_write _ _).trans (State.addRefToType_appends entered fun base => ?_))
    rw [Option.some.injEq] at base
    rw [← base]
    exact prefix_write _ _
  | .call _ _ function, _, st, st', run => by
    rw [mangleTy] at run
    exact (prefix_write _ _).trans (State.addRefToType_appends run fun entered =>
      (prefix_write _ _).trans (State.addRefToType_appends entered fun inner =>
        mangleFn_appends function inner))
  | .named kind _ origin names, _, st, st', run => by
    rw [mangleTy] at run
    refine (prefix_write _ _).trans (State.addRefToType_appends run fun entered => ?_)
    split_ifs at entered
    · exact (prefix_write _ _).trans (State.mangleIdentifier_appends entered)
    · obtain ⟨mid, first, second⟩ := Option.bind_eq_some_iff.mp entered
      exact (prefix_write _ _).trans ((State.mangleIdentifier_appends first).trans
        (State.mangleIdentifier_appends second))
    · exact (prefix_write _ _).trans (mangleNames_appends names entered)

theorem mangleFn_appends : ∀ (f : Fn) {st st' : State},
    mangleFn f st = some st' → st.buf <+: st'.buf
  | .mk _ params result, st, st', run => by
    rw [mangleFn] at run
    obtain ⟨signed, first, run⟩ := Option.bind_eq_some_iff.mp run
    obtain ⟨listed, second, third⟩ := Option.bind_eq_some_iff.mp run
    obtain ⟨c, _, rfl⟩ := State.writeSignature_eq first
    exact (prefix_write _ _).trans ((mangleParams_appends params second).trans
      ((prefix_write _ _).trans (mangleTy_appends result third)))

theorem mangleParams_appends : ∀ (ps : Params) {st st' : State},
    mangleParams ps st = some st' → st.buf <+: st'.buf
  | .nil, st, st', run => by
    rw [mangleParams, Option.some.injEq] at run
    exact run ▸ List.prefix_rfl
  | .cons _ ty rest, st, st', run => by
    rw [mangleParams] at run
    obtain ⟨stored, first, run⟩ := Option.bind_eq_some_iff.mp run
    obtain ⟨typed, second, third⟩ := Option.bind_eq_some_iff.mp run
    obtain ⟨codes, _, rfl⟩ := State.writeStorage_eq first
    exact (prefix_write _ _).trans ((mangleTy_appends ty second).trans
      (mangleParams_appends rest third))

theorem mangleArgs_appends : ∀ (args : Args) {st st' : State},
    mangleArgs args st = some st' → st.buf <+: st'.buf
  | .nil, st, st', run => by
    rw [mangleArgs, Option.some.injEq] at run
    exact run ▸ List.prefix_rfl
  | .cons _ ty rest, st, st', run => by
    rw [mangleArgs] at run
    obtain ⟨typed, first, second⟩ := Option.bind_eq_some_iff.mp run
    exact (prefix_write _ _).trans ((mangleTy_appends ty first).trans
      (mangleArgs_appends rest second))

theorem mangleNames_appends : ∀ (names : Names) {st st' : State},
    mangleNames names st = some st' → st.buf <+: st'.buf
  | .symbol _, st, st', run => by
    rw [mangleNames] at run
    exact State.mangleIdentifier_appends run
  | .parent _ rest, st, st', run => by
    rw [mangleNames] at run
    obtain ⟨named, first, second⟩ := Option.bind_eq_some_iff.mp run
    exact (State.mangleIdentifier_appends first).trans (mangleNames_appends rest second)
  | .function _ _ _ params rest, st, st', run => by
    rw [mangleNames] at run
    obtain ⟨named, first, run⟩ := Option.bind_eq_some_iff.mp run
    obtain ⟨signed, second, run⟩ := Option.bind_eq_some_iff.mp run
    obtain ⟨listed, third, fourth⟩ := Option.bind_eq_some_iff.mp run
    obtain ⟨c, _, rfl⟩ := State.writeSignature_eq second
    exact (State.mangleIdentifier_appends first).trans ((prefix_write _ _).trans
      ((prefix_write _ _).trans ((mangleParams_appends params third).trans
        ((prefix_write _ _).trans (mangleNames_appends rest fourth)))))
  | .template _ _ args rest, st, st', run => by
    rw [mangleNames] at run
    obtain ⟨named, first, run⟩ := Option.bind_eq_some_iff.mp run
    obtain ⟨listed, second, third⟩ := Option.bind_eq_some_iff.mp run
    exact (prefix_write _ _).trans ((State.mangleIdentifier_appends first).trans
      ((mangleArgs_appends args second).trans ((prefix_write _ _).trans
        (mangleNames_appends rest third))))
  | .anonymous rest, st, st', run => by
    rw [mangleNames] at run
    exact (prefix_write _ _).trans (mangleNames_appends rest run)
  | .localNum _ rest, st, st', run => by
    rw [mangleNames] at run
    exact (prefix_write _ _).trans (mangleNames_appends rest run)

end

/-! ### Tables and first letters -/

section

variable {text : List Char} {st st' : State}

/-- A word that was written is in the text. -/
theorem stands_write {word : List Char} (within : (st.write word).buf <+: text) :
    Stands text st.buf.length word := by
  obtain ⟨after, rfl⟩ := within
  refine ⟨after, ?_⟩
  rw [State.buf_write, List.append_assoc, List.drop_left]

theorem length_write (st : State) (word : List Char) :
    (st.write word).buf.length = st.buf.length + word.length :=
  List.length_append

theorem bodyAt_of_stands {pos : Nat} {c : Char} {word : List Char}
    (stands : Stands text pos (c :: word)) (letter : c ∈ bodyLetters) : BodyAt text pos :=
  ⟨c, (stands_cons.mp stands).1, Or.inl letter⟩

theorem Basic.bodyAt {pos : Nat} (ty : Basic) (stands : Stands text pos ty.text) :
    BodyAt text pos := by
  cases ty <;> exact bodyAt_of_stands stands (by decide)

theorem Single.bodyAt {pos : Nat} (ty : Single) (stands : Stands text pos ty.text) :
    BodyAt text pos := by
  cases ty with
  | null_ => exact bodyAt_of_stands stands (by decide)
  | noreturn_ =>
    obtain ⟨first, rest⟩ := stands_cons.mp stands
    exact ⟨'N', first, Or.inr ⟨rfl, Or.inr (stands_cons.mp rest).1⟩⟩

theorem NextKind.bodyAt {pos : Nat} (kind : NextKind) (stands : Stands text pos kind.text) :
    BodyAt text pos := by
  cases kind <;> exact bodyAt_of_stands stands (by decide)

theorem Linkage.isLinkage_letter {linkage : Linkage} {c : Char}
    (letter : linkage.letter? = some c) : isLinkage c = true := by
  cases linkage <;> cases letter <;> rfl

/-- A type behind its qualifiers: a reference, or what is written for a new entry. -/
theorem State.addRefToType_refAt {t : Ty} {body : State → Option State}
    (run : st.addRefToType (.ty t) body = some st') (within : st'.buf <+: text)
    (heads : Heads text st)
    (letters : body (st.enter (.ty t)) = some st' → BodyAt text st.buf.length) :
    RefAt text st.buf.length := by
  rcases State.addRefToType_cases run with ⟨offset, member, rfl⟩ | entered
  · obtain ⟨before, head⟩ := heads.types _ offset member
    obtain ⟨first, read⟩ := readMarked_writeBackRef (stands_write within)
    refine Or.inr ⟨first, _, _, read, ?_⟩
    rw [Nat.sub_sub_self before]
    exact head
  · exact Or.inl (letters entered)

theorem State.addRefToType_heads {t : AnyTy} {body : State → Option State}
    (run : st.addRefToType t body = some st') (heads : Heads text st)
    (written : body (st.enter t) = some st' → HeadOf text t st.buf.length ∧
      (Heads text (st.enter t) → Heads text st')) : Heads text st' := by
  rcases State.addRefToType_cases run with ⟨offset, member, rfl⟩ | entered
  · exact heads.write _
  · obtain ⟨head, kept⟩ := written entered
    exact kept (heads.enter head)

/-- A function type behind its qualifiers. -/
theorem State.addRefToType_headAt {f : Fn} {body : State → Option State}
    (run : st.addRefToType (.fn f) body = some st') (within : st'.buf <+: text)
    (heads : Heads text st)
    (letters : body (st.enter (.fn f)) = some st' →
      ∃ c, text[st.buf.length]? = some c ∧ isLinkage c = true) :
    NotMod text st.buf.length ∧ ∃ c, headAt text st.buf.length = some c ∧ isLinkage c = true := by
  rcases State.addRefToType_cases run with ⟨offset, member, rfl⟩ | entered
  · obtain ⟨before, c, at_, linkage⟩ := heads.types _ offset member
    obtain ⟨q, _⟩ := readMarked_writeBackRef (stands_write within)
    refine ⟨notMod_reference q, c, ?_, linkage⟩
    rw [headAt_back (stands_write within) before]
    exact at_
  · obtain ⟨c, at_, linkage⟩ := letters entered
    refine ⟨notMod_linkage at_ linkage, c, ?_, linkage⟩
    rw [headAt, if_neg, at_]
    rw [at_, Option.some.injEq]
    rintro rfl
    exact absurd linkage (by decide)

/-- A type with its qualifiers. -/
theorem tyAt_under {pos : Nat} {mask mod : Mod} (stands : Stands text pos (mask.under mod))
    (ref : RefAt text (pos + (mask.under mod).length)) : TyAt text pos := by
  rw [TyAt, readMod_under stands ref.notMod]
  exact ref

/-- `addRefToType` behind the qualifiers. -/
theorem tyAt_visit {mask mod : Mod} {t : Ty} {body : State → Option State}
    (run : (st.write (mask.under mod)).addRefToType (.ty t) body = some st')
    (within : st'.buf <+: text) (heads : Heads text st)
    (written : ∀ {entered : State}, entered.buf = (st.write (mask.under mod)).buf →
      body entered = some st' → entered.buf <+: st'.buf ∧ BodyAt text entered.buf.length ∧
        (Heads text entered → Heads text st')) :
    Heads text st' ∧ TyAt text st.buf.length := by
  have grows := State.addRefToType_appends run fun entered =>
    (@written ((st.write (mask.under mod)).enter (.ty t)) rfl entered).1
  have entry := @written ((st.write (mask.under mod)).enter (.ty t)) rfl
  have kept := State.addRefToType_heads run (heads.write _) fun entered => (entry entered).2
  have ref := State.addRefToType_refAt run within (heads.write _) fun entered =>
    (entry entered).2.1
  rw [length_write] at ref
  exact ⟨kept, tyAt_under (stands_write (grows.trans within)) ref⟩

theorem State.mangleIdentifier_heads {ident : Ident} (run : st.mangleIdentifier ident = some st')
    (within : st'.buf <+: text) (heads : Heads text st) :
    Heads text st' ∧ nameStart text st.buf.length = true := by
  rcases State.mangleIdentifier_cases run with ⟨offset, member, rfl⟩ | rfl
  · obtain ⟨before, stands⟩ := heads.idents _ offset member
    obtain ⟨c, at_, digit, _⟩ := ident.head_spelling stands
    refine ⟨heads.write _, ?_⟩
    rw [nameStart, headAt_back (stands_write within) before, at_, Option.any_some, digit,
      Bool.true_or]
  · have stands : Stands text st.buf.length ident.spelling := stands_write within
    obtain ⟨c, at_, digit, _⟩ := ident.head_spelling stands
    constructor
    · have entered : Heads text { st with idents := (ident, st.buf.length) :: st.idents } := by
        refine ⟨heads.types, fun ident' offset member => ?_⟩
        rcases List.mem_cons.mp member with here | there
        · rw [Prod.mk.injEq] at here
          rw [here.1, here.2]
          exact ⟨le_rfl, stands⟩
        · exact heads.idents ident' offset there
      exact entered.write _
    · rw [nameStart, headAt, if_neg, at_, Option.any_some, digit, Bool.true_or]
      rw [at_, Option.some.injEq]
      rintro rfl
      cases digit

/-- What ends the parameters at the end of a buffer. -/
def Closed (text : List Char) (st : State) : Prop :=
  ∃ c, text[st.buf.length]? = some c ∧ (VarArg.ofLetter? c).isSome

theorem VarArg.closed (varargs : VarArg) (within : (st.write [varargs.letter]).buf <+: text) :
    Closed text st :=
  ⟨varargs.letter, (stands_cons.mp (stands_write within)).1, by cases varargs <;> rfl⟩

end

mutual

theorem mangleTy_heads {text : List Char} : ∀ (t : Ty) {mask : Mod} {st st' : State},
    mangleTy t mask st = some st' → st'.buf <+: text → Heads text st →
      Heads text st' ∧ TyAt text st.buf.length
  | .basic ty mod, mask, st, st', run, within, heads => by
    rw [mangleTy, Option.some.injEq] at run
    rw [← run] at within ⊢
    obtain ⟨under, body⟩ := stands_append.mp (stands_write within)
    exact ⟨heads.write _, tyAt_under under (Or.inl (ty.bodyAt body))⟩
  | .single ty mod, mask, st, st', run, within, heads => by
    rw [mangleTy] at run
    refine tyAt_visit run within heads fun _ entered => ?_
    rw [Option.some.injEq] at entered
    rw [← entered] at within ⊢
    exact ⟨prefix_write _ _, ty.bodyAt (stands_write within), fun kept => kept.write _⟩
  | .next kind mod next, mask, st, st', run, within, heads => by
    rw [mangleTy] at run
    refine tyAt_visit run within heads fun _ entered => ?_
    have grows := mangleTy_appends next entered
    exact ⟨(prefix_write _ _).trans grows, kind.bodyAt (stands_write (grows.trans within)),
      fun kept => (mangleTy_heads next entered within (kept.write _)).1⟩
  | .aarray mod index next, mask, st, st', run, within, heads => by
    rw [mangleTy] at run
    refine tyAt_visit run within heads fun _ entered => ?_
    obtain ⟨mid, first, second⟩ := Option.bind_eq_some_iff.mp entered
    have midGrows := mangleTy_appends index first
    have midWithin := (mangleTy_appends next second).trans within
    refine ⟨(prefix_write _ _).trans (midGrows.trans (mangleTy_appends next second)),
      bodyAt_of_stands (stands_write (midGrows.trans midWithin)) (by decide), fun kept => ?_⟩
    exact (mangleTy_heads next second within
      (mangleTy_heads index first midWithin (kept.write _)).1).1
  | .vector mod sharedBase dim element, mask, st, st', run, within, heads => by
    rw [mangleTy] at run
    refine tyAt_visit run within heads fun _ entered => ?_
    have baseRead : ∀ {inner : State}, some (inner.write ((NextKind.sarray dim).text ++
        element.text)) = some st' → inner.buf <+: st'.buf ∧ BodyAt text inner.buf.length ∧
          (Heads text inner → Heads text st') := by
      intro inner written
      rw [Option.some.injEq] at written
      rw [← written] at within ⊢
      exact ⟨prefix_write _ _, (NextKind.sarray dim).bodyAt
        (stands_append.mp (stands_write within)).1, fun kept => kept.write _⟩
    have grows := State.addRefToType_appends entered fun inner => (baseRead inner).1
    obtain ⟨n, rest⟩ := stands_cons.mp (stands_write (grows.trans within))
    refine ⟨(prefix_write _ _).trans grows, ⟨'N', n, Or.inr ⟨rfl, Or.inl
      (stands_cons.mp rest).1⟩⟩, fun kept => ?_⟩
    exact State.addRefToType_heads entered (kept.write _) fun inner => (baseRead inner).2
  | .call kind mod function, mask, st, st', run, within, heads => by
    rw [mangleTy] at run
    refine tyAt_visit run within heads fun _ entered => ?_
    have grows := State.addRefToType_appends entered fun inner => mangleFn_appends function inner
    have letter : kind.letter ∈ bodyLetters := by cases kind <;> decide
    refine ⟨(prefix_write _ _).trans grows,
      bodyAt_of_stands (stands_write (grows.trans within)) letter, fun kept => ?_⟩
    exact State.addRefToType_heads entered (kept.write _) fun inner =>
      mangleFn_heads function inner within
  | .named kind mod origin names, mask, st, st', run, within, heads => by
    have letter : kind.letter ∈ bodyLetters := by cases kind <;> decide
    rw [mangleTy] at run
    refine tyAt_visit run within heads fun _ entered => ?_
    have bodyAt : ∀ {inner : State}, (inner.write [kind.letter]).buf <+: st'.buf →
        inner.buf <+: st'.buf ∧ BodyAt text inner.buf.length := fun grows =>
      ⟨(prefix_write _ _).trans grows, bodyAt_of_stands (stands_write (grows.trans within)) letter⟩
    split_ifs at entered
    · obtain ⟨grows, body⟩ := bodyAt (State.mangleIdentifier_appends entered)
      exact ⟨grows, body, fun kept =>
        (State.mangleIdentifier_heads entered within (kept.write _)).1⟩
    · obtain ⟨mid, first, second⟩ := Option.bind_eq_some_iff.mp entered
      have last := State.mangleIdentifier_appends second
      obtain ⟨grows, body⟩ := bodyAt ((State.mangleIdentifier_appends first).trans last)
      refine ⟨grows, body, fun kept => (State.mangleIdentifier_heads second within ?_).1⟩
      exact (State.mangleIdentifier_heads first (last.trans within) (kept.write _)).1
    · obtain ⟨grows, body⟩ := bodyAt (mangleNames_appends names entered)
      exact ⟨grows, body, fun kept => (mangleNames_heads names entered within (kept.write _)).1⟩

theorem mangleFn_heads {text : List Char} : ∀ (f : Fn) {st st' : State},
    mangleFn f st = some st' → st'.buf <+: text →
      (∃ c, text[st.buf.length]? = some c ∧ isLinkage c = true) ∧
        (Heads text st → Heads text st')
  | .mk signature params result, st, st', run, within => by
    rw [mangleFn] at run
    obtain ⟨signed, first, run⟩ := Option.bind_eq_some_iff.mp run
    obtain ⟨listed, second, third⟩ := Option.bind_eq_some_iff.mp run
    obtain ⟨c, letter, rfl⟩ := State.writeSignature_eq first
    have closedWithin := (mangleTy_appends result third).trans within
    have listedWithin := (prefix_write _ _).trans closedWithin
    have stands := stands_write ((mangleParams_appends params second).trans listedWithin)
    refine ⟨⟨c, (stands_cons.mp stands).1, Linkage.isLinkage_letter letter⟩, fun heads => ?_⟩
    have listed_ := (mangleParams_heads params second listedWithin
      (signature.varargs.closed closedWithin) (heads.write _)).1
    exact (mangleTy_heads result third within (listed_.write _)).1

theorem mangleParams_heads {text : List Char} : ∀ (ps : Params) {st st' : State},
    mangleParams ps st = some st' → st'.buf <+: text → Closed text st' → Heads text st →
      Heads text st' ∧ ParamAt text st.buf.length
  | .nil, st, st', run, _, closed, heads => by
    rw [mangleParams, Option.some.injEq] at run
    rw [run] at heads ⊢
    exact ⟨heads, Or.inl closed⟩
  | .cons storage ty rest, st, st', run, within, closed, heads => by
    rw [mangleParams] at run
    obtain ⟨stored, first, run⟩ := Option.bind_eq_some_iff.mp run
    obtain ⟨typed, second, third⟩ := Option.bind_eq_some_iff.mp run
    obtain ⟨codes, _, rfl⟩ := State.writeStorage_eq first
    have typedWithin := (mangleParams_appends rest third).trans within
    have stands := stands_write ((mangleTy_appends ty second).trans typedWithin)
    obtain ⟨typed_, tyAt⟩ := mangleTy_heads ty second typedWithin (heads.write _)
    rw [length_write] at tyAt
    exact ⟨(mangleParams_heads rest third within closed typed_).1, Or.inr ⟨codes, stands, tyAt⟩⟩

theorem mangleArgs_heads {text : List Char} : ∀ (args : Args) {st st' : State},
    mangleArgs args st = some st' → st'.buf <+: text → text[st'.buf.length]? = some 'Z' →
      Heads text st → Heads text st' ∧ Stops text st.buf.length
  | .nil, st, st', run, _, closed, heads => by
    rw [mangleArgs, Option.some.injEq] at run
    rw [run] at heads ⊢
    exact ⟨heads, stops_of_letter closed (by decide) (by decide) fun n => absurd n (by decide)⟩
  | .cons specialized ty rest, st, st', run, within, closed, heads => by
    rw [mangleArgs] at run
    obtain ⟨typed, first, second⟩ := Option.bind_eq_some_iff.mp run
    have typedWithin := (mangleArgs_appends rest second).trans within
    have stands := stands_write ((mangleTy_appends ty first).trans typedWithin)
    have typed_ := (mangleTy_heads ty first typedWithin (heads.write _)).1
    refine ⟨(mangleArgs_heads rest second within closed typed_).1, ?_⟩
    cases specialized with
    | false =>
      exact stops_of_letter (stands_cons.mp stands).1 (by decide) (by decide) fun n =>
        absurd n (by decide)
    | true =>
      exact stops_of_letter (stands_cons.mp stands).1 (by decide) (by decide) fun n =>
        absurd n (by decide)

theorem mangleNames_heads {text : List Char} : ∀ (names : Names) {st st' : State},
    mangleNames names st = some st' → st'.buf <+: text → Heads text st →
      Heads text st' ∧ nameStart text st.buf.length = true
  | .symbol _, st, st', run, within, heads => by
    rw [mangleNames] at run
    exact State.mangleIdentifier_heads run within heads
  | .parent ident rest, st, st', run, within, heads => by
    rw [mangleNames] at run
    obtain ⟨named, first, second⟩ := Option.bind_eq_some_iff.mp run
    obtain ⟨named_, start⟩ := State.mangleIdentifier_heads first
      ((mangleNames_appends rest second).trans within) heads
    exact ⟨(mangleNames_heads rest second within named_).1, start⟩
  | .function ident needThis signature params rest, st, st', run, within, heads => by
    rw [mangleNames] at run
    obtain ⟨named, first, run⟩ := Option.bind_eq_some_iff.mp run
    obtain ⟨signed, second, run⟩ := Option.bind_eq_some_iff.mp run
    obtain ⟨listed, third, fourth⟩ := Option.bind_eq_some_iff.mp run
    obtain ⟨c, letter, rfl⟩ := State.writeSignature_eq second
    have closedWithin := (mangleNames_appends rest fourth).trans within
    have listedWithin := (prefix_write _ _).trans closedWithin
    have namedWithin := (prefix_write _ _).trans ((prefix_write _ _).trans
      ((mangleParams_appends params third).trans listedWithin))
    obtain ⟨named_, start⟩ := State.mangleIdentifier_heads first namedWithin heads
    have listed_ := (mangleParams_heads params third listedWithin
      (signature.varargs.closed closedWithin) ((named_.write _).write _)).1
    exact ⟨(mangleNames_heads rest fourth within (listed_.write _)).1, start⟩
  | .template inConstraint ident args rest, st, st', run, within, heads => by
    rw [mangleNames] at run
    obtain ⟨named, first, run⟩ := Option.bind_eq_some_iff.mp run
    obtain ⟨listed, second, third⟩ := Option.bind_eq_some_iff.mp run
    have closedWithin := (mangleNames_appends rest third).trans within
    have listedWithin := (prefix_write _ _).trans closedWithin
    have namedWithin := (mangleArgs_appends args second).trans listedWithin
    have named_ := (State.mangleIdentifier_heads first namedWithin (heads.write _)).1
    have closed := (stands_cons.mp (stands_write closedWithin)).1
    have listed_ := (mangleArgs_heads args second listedWithin closed named_).1
    have line := (stands_cons.mp (stands_write
      ((State.mangleIdentifier_appends first).trans namedWithin))).1
    refine ⟨(mangleNames_heads rest third within (listed_.write _)).1, ?_⟩
    rw [nameStart, headAt, if_neg (by rw [line]; decide), line]
    rfl
  | .anonymous rest, st, st', run, within, heads => by
    rw [mangleNames] at run
    have zero := (stands_cons.mp (stands_write ((mangleNames_appends rest run).trans within))).1
    refine ⟨(mangleNames_heads rest run within (heads.write _)).1, ?_⟩
    rw [nameStart, headAt, if_neg (by rw [zero]; decide), zero]
    rfl
  | .localNum number rest, st, st', run, within, heads => by
    rw [mangleNames] at run
    have stands := stands_write ((mangleNames_appends rest run).trans within)
    rw [localParent_eq] at stands
    obtain ⟨c, at_, digit, _⟩ := (localIdent number).head_spelling stands
    refine ⟨(mangleNames_heads rest run within (heads.write _)).1, ?_⟩
    rw [nameStart, headAt, if_neg, at_, Option.any_some, digit, Bool.true_or]
    rw [at_, Option.some.injEq]
    rintro rfl
    cases digit

end

end LaserD.Mangle
