/-
This file is about the letters with which types, parameters and names begin, since these say
where a name, the attributes of a function or its storage classes end.

`Heads` relates the tables of the writer to the text: a type in the table stands where the
first letter of a type is, and an identifier where it is written. It holds of all that is
written, whatever the types are.
-/

import LaserD.Mangle.Pieces

namespace LaserD.Mangle

open Numerals

variable {text : List Char} {pos : Nat}

/-! ### First letters -/

/-- The letters with which a type begins behind its qualifiers, apart from `N`. -/
def bodyLetters : List Char :=
  ['a', 'b', 'c', 'd', 'e', 'f', 'g', 'h', 'i', 'j', 'k', 'l', 'm', 'n', 'o', 'p', 'q', 'r', 's',
    't', 'u', 'v', 'w', 'z', 'A', 'G', 'P', 'D', 'H', 'S', 'C', 'E']

/-- A type begins behind its qualifiers. -/
def BodyAt (text : List Char) (pos : Nat) : Prop :=
  ∃ c, text[pos]? = some c ∧ (c ∈ bodyLetters ∨ c = 'N' ∧
    (text[pos + 1]? = some 'h' ∨ text[pos + 1]? = some 'n'))

/-- A type or a reference to one. -/
def RefAt (text : List Char) (pos : Nat) : Prop :=
  BodyAt text pos ∨ text[pos]? = some 'Q' ∧
    ∃ distance after, readMarked text (pos + 1) = some (distance, after) ∧
      BodyAt text (pos - distance)

/-- A type with its qualifiers. -/
def TyAt (text : List Char) (pos : Nat) : Prop :=
  RefAt text (readMod text pos).2

/-- The end of parameters, or a parameter. -/
def ParamAt (text : List Char) (pos : Nat) : Prop :=
  (∃ c, text[pos]? = some c ∧ (VarArg.ofLetter? c).isSome) ∨
    ∃ codes : List Code, Stands text pos (codes.flatMap Code.text) ∧
      TyAt text (pos + (codes.flatMap Code.text).length)

/-- No name goes on at a position. -/
def Stops (text : List Char) (pos : Nat) : Prop :=
  nameStart text pos = false ∧ signatureStart text pos = false

theorem isLinkage_mem {c : Char} (linkage : isLinkage c = true) :
    c ∈ ['F', 'U', 'W', 'R', 'Y'] := by
  rw [isLinkage, Linkage.ofLetter?.eq_def] at linkage
  split at linkage <;> first | decide | cases linkage

theorem notMod_linkage {c : Char} (at_ : text[pos]? = some c) (linkage : isLinkage c = true) :
    NotMod text pos := by
  have other : ∀ c ∈ ['F', 'U', 'W', 'R', 'Y'], c ≠ 'x' ∧ c ≠ 'y' ∧ c ≠ 'O' ∧ c ≠ 'N' :=
    forall_mem_of_all (by decide)
  obtain ⟨notX, notY, notO, notN⟩ := other c (isLinkage_mem linkage)
  refine ⟨?_, ?_, ?_, fun n => ?_⟩
  · rwa [at_, Ne, Option.some.injEq]
  · rwa [at_, Ne, Option.some.injEq]
  · rwa [at_, Ne, Option.some.injEq]
  · rw [at_, Option.some.injEq] at n
    exact absurd n notN

/-- A reference has no qualifiers. -/
theorem notMod_reference (q : text[pos]? = some 'Q') : NotMod text pos := by
  refine ⟨?_, ?_, ?_, fun n => ?_⟩
  · rw [q]
    decide
  · rw [q]
    decide
  · rw [q]
    decide
  · rw [q] at n
    exact absurd n (by decide)

theorem bodyLetters_other : ∀ c ∈ bodyLetters, c ≠ 'Q' ∧ isLinkage c = false ∧
    c.isDigit = false ∧ c ≠ '_' ∧ c ∉ ['x', 'y', 'O'] :=
  forall_mem_of_all (by decide)

theorem BodyAt.letter (body : BodyAt text pos) : ∃ c, text[pos]? = some c ∧ c ≠ 'Q' ∧
    isLinkage c = false ∧ c.isDigit = false ∧ c ≠ '_' := by
  obtain ⟨c, at_, letter | ⟨rfl, _⟩⟩ := body
  · obtain ⟨notQ, notLinkage, notDigit, notLine, _⟩ := bodyLetters_other c letter
    exact ⟨c, at_, notQ, notLinkage, notDigit, notLine⟩
  · exact ⟨'N', at_, by decide⟩

theorem BodyAt.notMod (body : BodyAt text pos) : NotMod text pos := by
  obtain ⟨c, at_, letter⟩ := body
  have other : ∀ d, d ∈ ['x', 'y', 'O'] → text[pos]? ≠ some d := by
    intro d member
    rw [at_, Ne, Option.some.injEq]
    rintro rfl
    rcases letter with letter | ⟨rfl, _⟩
    · exact (bodyLetters_other c letter).2.2.2.2 member
    · revert member
      decide
  refine ⟨other 'x' (by decide), other 'y' (by decide), other 'O' (by decide), fun wild => ?_⟩
  rw [at_, Option.some.injEq] at wild
  subst wild
  rcases letter with letter | ⟨_, next | next⟩
  · exact absurd letter (by decide)
  · rw [next]
    decide
  · rw [next]
    decide

theorem RefAt.notMod (ref : RefAt text pos) : NotMod text pos := by
  rcases ref with body | ⟨first, _⟩
  · exact body.notMod
  · exact notMod_reference first

/-- The letter where a reference at a type refers to. -/
theorem RefAt.head (ref : RefAt text pos) : ∃ c, headAt text pos = some c ∧
    isLinkage c = false ∧ c.isDigit = false ∧ c ≠ '_' := by
  rcases ref with body | ⟨first, distance, after, read, body⟩
  · obtain ⟨c, at_, notQ, facts⟩ := body.letter
    refine ⟨c, ?_, facts⟩
    rw [headAt, if_neg (by rw [at_, Option.some.injEq]; exact notQ)]
    exact at_
  · obtain ⟨c, at_, _, facts⟩ := body.letter
    refine ⟨c, ?_, facts⟩
    rw [headAt, if_pos first, read, Option.bind_some]
    exact at_

theorem RefAt.notLinkage (ref : RefAt text pos) :
    ∃ c, text[pos]? = some c ∧ isLinkage c = false := by
  rcases ref with body | ⟨first, _⟩
  · obtain ⟨c, at_, _, notLinkage, _⟩ := body.letter
    exact ⟨c, at_, notLinkage⟩
  · exact ⟨'Q', first, by decide⟩

/-- The letters with which a type with its qualifiers begins. -/
def TyLetter (text : List Char) (pos : Nat) (c : Char) : Prop :=
  c ∈ bodyLetters ∨ c ∈ ['x', 'y', 'O'] ∨ c = 'Q' ∨
    c = 'N' ∧ ∃ d ∈ ['g', 'h', 'n'], text[pos + 1]? = some d

theorem RefAt.tyLetter (ref : RefAt text pos) :
    ∃ c, text[pos]? = some c ∧ TyLetter text pos c := by
  rcases ref with ⟨c, at_, letter | ⟨rfl, next⟩⟩ | ⟨at_, _⟩
  · exact ⟨c, at_, Or.inl letter⟩
  · refine ⟨'N', at_, Or.inr (Or.inr (Or.inr ⟨rfl, ?_⟩))⟩
    rcases next with next | next
    · exact ⟨'h', by decide, next⟩
    · exact ⟨'n', by decide, next⟩
  · exact ⟨'Q', at_, Or.inr (Or.inr (Or.inl rfl))⟩

theorem TyAt.tyLetter (ty : TyAt text pos) : ∃ c, text[pos]? = some c ∧ TyLetter text pos c := by
  rw [TyAt, readMod] at ty
  split at ty
  · exact ⟨'x', ‹_›, Or.inr (Or.inl (by decide))⟩
  · exact ⟨'y', ‹_›, Or.inr (Or.inl (by decide))⟩
  · exact ⟨'O', ‹_›, Or.inr (Or.inl (by decide))⟩
  · rename_i first
    by_cases wild : text[pos + 1]? = some 'g'
    · exact ⟨'N', first, Or.inr (Or.inr (Or.inr ⟨rfl, 'g', by decide, wild⟩))⟩
    · rw [if_neg wild] at ty
      exact RefAt.tyLetter ty
  · exact RefAt.tyLetter ty

/-- No letter with which a type begins is one of other things. -/
theorem TyLetter.other {c : Char} (letter : TyLetter text pos c) :
    c ∉ ['M', 'I', 'J', 'K', 'L'] ∧ VarArg.ofLetter? c = Option.none ∧
      (c.isDigit || decide (c = '_')) = false := by
  have all : ∀ c ∈ bodyLetters ++ ['x', 'y', 'O', 'Q', 'N'],
      c ∉ ['M', 'I', 'J', 'K', 'L'] ∧ VarArg.ofLetter? c = Option.none ∧
        (c.isDigit || decide (c = '_')) = false := forall_mem_of_all (by decide)
  refine all c (List.mem_append.mpr ?_)
  rcases letter with body | qualifier | rfl | ⟨rfl, _⟩
  · exact Or.inl body
  · exact Or.inr (List.mem_append_left ['Q', 'N'] qualifier)
  · exact Or.inr (by decide)
  · exact Or.inr (by decide)

theorem TyLetter.next (letter : TyLetter text pos 'N') :
    ∃ d ∈ ['g', 'h', 'n'], text[pos + 1]? = some d := by
  rcases letter with body | qualifier | q | ⟨_, next⟩
  · exact absurd body (by decide)
  · exact absurd qualifier (by decide)
  · exact absurd q (by decide)
  · exact next

/-! ### What ends where a type begins -/

/-- No name and no signature goes on where a type begins. -/
theorem TyAt.notMember (ty : TyAt text pos) : ∀ c ∈ text[pos]?, c ∉ ['M', 'I', 'J', 'K', 'L'] := by
  intro c here
  obtain ⟨d, at_, letter⟩ := ty.tyLetter
  rw [at_, Option.mem_some] at here
  exact here ▸ letter.other.1

theorem TyAt.storageCodes (ty : TyAt text pos) : storageCodes (text.drop pos) = [] := by
  refine storageCodes_drop ty.notMember fun n => ?_
  obtain ⟨c, at_, letter⟩ := ty.tyLetter
  rw [n, Option.some.injEq] at at_
  obtain ⟨d, member, next⟩ := TyLetter.next (at_ ▸ letter)
  rw [next, Ne, Option.some.injEq]
  rintro rfl
  revert member
  decide

theorem TyAt.notVarArg (ty : TyAt text pos) :
    text[pos]?.bind VarArg.ofLetter? = none := by
  obtain ⟨c, at_, letter⟩ := ty.tyLetter
  rw [at_, Option.bind_some]
  exact letter.other.2.1

/-- A type is not taken for the continuation of a name. -/
theorem TyAt.stops (ty : TyAt text pos) : Stops text pos := by
  constructor
  · obtain ⟨c, at_, letter⟩ := ty.tyLetter
    by_cases q : text[pos]? = some 'Q'
    · rw [TyAt, (notMod_reference q).readMod_eq] at ty
      obtain ⟨d, head, _, notDigit, notLine⟩ := RefAt.head ty
      rw [nameStart, head, Option.any_some, notDigit, Bool.false_or, decide_eq_false_iff_not]
      exact notLine
    · rw [nameStart, headAt, if_neg q, at_, Option.any_some]
      exact letter.other.2.2
  · obtain ⟨c, at_, notLinkage⟩ := RefAt.notLinkage ty
    have notM : text[pos]? ≠ some 'M' := fun m => ty.notMember 'M' m (by decide)
    rw [signatureStart, if_neg notM]
    dsimp only
    rw [at_, Option.any_some, notLinkage, Bool.false_and]

/-- Nothing goes on where a letter stands that begins neither a name nor a signature. -/
theorem stops_of_letter {c : Char} (at_ : text[pos]? = some c)
    (notName : c ≠ 'Q' ∧ (c.isDigit || decide (c = '_')) = false)
    (notSignature : c ∉ ['M', 'x', 'y', 'O', 'F', 'U', 'R'])
    (notWild : c = 'N' → text[pos + 1]? ≠ some 'g') : Stops text pos := by
  have other : ∀ d, d ∈ ['M', 'x', 'y', 'O', 'F', 'U', 'R'] → text[pos]? ≠ some d := by
    intro d member
    rw [at_, Ne, Option.some.injEq]
    rintro rfl
    exact notSignature member
  constructor
  · rw [nameStart, headAt, if_neg (by rw [at_, Option.some.injEq]; exact notName.1), at_,
      Option.any_some]
    exact notName.2
  · have plain : NotMod text pos := by
      refine ⟨other 'x' (by decide), other 'y' (by decide), other 'O' (by decide), fun n => ?_⟩
      rw [at_, Option.some.injEq] at n
      exact notWild n
    rw [signatureStart, if_neg (other 'M' (by decide)), plain.readMod_eq]
    dsimp only
    rw [at_, Option.any_some, decide_eq_false (Nat.lt_irrefl pos), Bool.false_or]
    by_contra linked
    rw [Bool.not_eq_false, Bool.and_eq_true] at linked
    obtain ⟨linkage, notClosing⟩ := linked
    have member := isLinkage_mem linkage
    rw [Bool.and_eq_true, decide_eq_true_iff, decide_eq_true_iff] at notClosing
    simp only [List.mem_cons, List.not_mem_nil, or_false] at member notSignature
    rcases member with f | u | w | r | y
    · exact notSignature (by simp [f])
    · exact notSignature (by simp [u])
    · exact notClosing.1 w
    · exact notSignature (by simp [r])
    · exact notClosing.2 y

/-- The first letter of storage classes. -/
theorem code_letter {code : Code} {codes : List Code}
    (stands : Stands text pos ((code :: codes).flatMap Code.text)) :
    ∃ c, text[pos]? = some c ∧ c ∈ ['M', 'N', 'I', 'J', 'K', 'L'] ∧
      (c = 'N' → text[pos + 1]? = some 'k') ∧ (c = 'M' → code = .scope_) := by
  rw [List.flatMap_cons] at stands
  obtain ⟨here, _⟩ := stands_append.mp stands
  have notN : ∀ {c : Char}, c ≠ 'N' → c = 'N' → text[pos + 1]? = some 'k' :=
    fun other same => absurd same other
  cases code with
  | scope_ => exact ⟨'M', (stands_cons.mp here).1, by decide, notN (by decide), fun _ => rfl⟩
  | return_ =>
    obtain ⟨first, rest⟩ := stands_cons.mp here
    exact ⟨'N', first, by decide, fun _ => (stands_cons.mp rest).1, by decide⟩
  | in_ => exact ⟨'I', (stands_cons.mp here).1, by decide, notN (by decide), by decide⟩
  | out_ => exact ⟨'J', (stands_cons.mp here).1, by decide, notN (by decide), by decide⟩
  | ref_ => exact ⟨'K', (stands_cons.mp here).1, by decide, notN (by decide), by decide⟩
  | lazy_ => exact ⟨'L', (stands_cons.mp here).1, by decide, notN (by decide), by decide⟩

theorem code_notMod {code : Code} {codes : List Code}
    (stands : Stands text pos ((code :: codes).flatMap Code.text)) : NotMod text pos := by
  obtain ⟨c, at_, member, return_, _⟩ := code_letter stands
  have other : ∀ c ∈ ['M', 'N', 'I', 'J', 'K', 'L'], c ≠ 'x' ∧ c ≠ 'y' ∧ c ≠ 'O' :=
    forall_mem_of_all (by decide)
  obtain ⟨notX, notY, notO⟩ := other c member
  refine ⟨?_, ?_, ?_, fun n => ?_⟩
  · rw [at_, Ne, Option.some.injEq]
    exact notX
  · rw [at_, Ne, Option.some.injEq]
    exact notY
  · rw [at_, Ne, Option.some.injEq]
    exact notO
  · rw [at_, Option.some.injEq] at n
    rw [return_ n]
    decide

/-- Behind qualifiers no signature begins where storage classes or a type stand. -/
theorem codes_notLinkage {codes : List Code} (stands : Stands text pos (codes.flatMap Code.text))
    (ty : TyAt text (pos + (codes.flatMap Code.text).length)) :
    ∃ c, text[(readMod text pos).2]? = some c ∧ isLinkage c = false := by
  cases codes with
  | nil => exact RefAt.notLinkage ty
  | cons code codes =>
    obtain ⟨c, at_, member, _⟩ := code_letter stands
    have other : ∀ c ∈ ['M', 'N', 'I', 'J', 'K', 'L'], isLinkage c = false :=
      forall_mem_of_all (by decide)
    refine ⟨c, ?_, other c member⟩
    rw [(code_notMod stands).readMod_eq]
    exact at_

/-- The end of parameters or a parameter is not taken for the continuation of a name. -/
theorem ParamAt.stops (param : ParamAt text pos) : Stops text pos := by
  rcases param with ⟨c, at_, closing⟩ | ⟨codes, stands, ty⟩
  · have closes : ∀ c, (VarArg.ofLetter? c).isSome → c ∈ ['Z', 'Y', 'X', 'W'] := by
      intro c closing
      rw [VarArg.ofLetter?.eq_def] at closing
      split at closing <;> first | decide | cases closing
    have facts : ∀ c ∈ ['Z', 'Y', 'X', 'W'], (c ≠ 'Q' ∧ (c.isDigit || decide (c = '_')) = false) ∧
        c ∉ ['M', 'x', 'y', 'O', 'F', 'U', 'R'] ∧ c ≠ 'N' := forall_mem_of_all (by decide)
    obtain ⟨notName, notSignature, notN⟩ := facts c (closes c closing)
    exact stops_of_letter at_ notName notSignature fun n => absurd n notN
  · cases codes with
    | nil => exact ty.stops
    | cons code codes =>
      obtain ⟨c, at_, member, return_, scope_⟩ := code_letter stands
      have notName : ∀ c ∈ ['M', 'N', 'I', 'J', 'K', 'L'],
          c ≠ 'Q' ∧ (c.isDigit || decide (c = '_')) = false := forall_mem_of_all (by decide)
      by_cases m : c = 'M'
      · obtain rfl := scope_ m
        subst m
        rw [List.flatMap_cons, List.length_append, ← Nat.add_assoc] at ty
        rw [List.flatMap_cons] at stands
        obtain ⟨d, after, notLinkage⟩ := codes_notLinkage (stands_append.mp stands).2 ty
        constructor
        · rw [nameStart, headAt, if_neg (by rw [at_]; decide), at_]
          rfl
        · rw [signatureStart, if_pos at_]
          dsimp only
          rw [show text[(readMod text (pos + 1)).2]? = some d from after, Option.any_some,
            notLinkage, Bool.false_and]
      · have others : ∀ c ∈ ['M', 'N', 'I', 'J', 'K', 'L'],
            c ≠ 'M' → c ∉ ['M', 'x', 'y', 'O', 'F', 'U', 'R'] := forall_mem_of_all (by decide)
        refine stops_of_letter at_ (notName c member) (others c member m) fun n => ?_
        rw [return_ n]
        decide

/-- Attributes end where parameters begin. -/
theorem ParamAt.attributeLetters (param : ParamAt text pos) :
    attributeLetters (text.drop pos) = [] := by
  refine attributeLetters_drop fun n c next => ?_
  rcases param with ⟨d, at_, closing⟩ | ⟨codes, stands, ty⟩
  · rw [n, Option.some.injEq] at at_
    rw [← at_] at closing
    exact absurd closing (by decide)
  · cases codes with
    | nil =>
      obtain ⟨d, at_, letter⟩ := TyAt.tyLetter ty
      have at' : text[pos]? = some d := at_
      rw [n, Option.some.injEq] at at'
      subst at'
      obtain ⟨e, member, next'⟩ := letter.next
      have next'' : text[pos + 1]? = some e := next'
      have others : ∀ c ∈ ['g', 'h', 'n'], c ∉ attributeSet := forall_mem_of_all (by decide)
      rw [next'', Option.mem_some] at next
      exact next ▸ others e member
    | cons code codes =>
      obtain ⟨d, at_, _, return_, _⟩ := code_letter stands
      rw [n, Option.some.injEq] at at_
      rw [return_ at_.symm, Option.mem_some] at next
      rw [← next]
      decide

/-- Nothing goes on at the end of the text. -/
theorem stops_end (finished : text[pos]? = none) : Stops text pos := by
  constructor
  · rw [nameStart, headAt, finished]
    rfl
  · have plain : NotMod text pos := by
      refine ⟨?_, ?_, ?_, fun n => ?_⟩
      · rw [finished]
        decide
      · rw [finished]
        decide
      · rw [finished]
        decide
      · rw [finished] at n
        cases n
    rw [signatureStart, if_neg (by rw [finished]; decide), plain.readMod_eq]
    dsimp only
    rw [finished]
    rfl

/-! ### The tables -/

/-- The first letter of a type in the table. -/
def HeadOf (text : List Char) : AnyTy → Nat → Prop
  | .ty _, offset => BodyAt text offset
  | .fn _, offset => ∃ c, text[offset]? = some c ∧ isLinkage c = true

/-- What is in the tables stands in the text. -/
structure Heads (text : List Char) (st : State) : Prop where
  types : ∀ t offset, (t, offset) ∈ st.types → offset ≤ st.buf.length ∧ HeadOf text t offset
  idents : ∀ ident offset, (ident, offset) ∈ st.idents →
    offset ≤ st.buf.length ∧ Stands text offset ident.spelling

section

variable {st st' : State} {word : List Char}

theorem mem_of_lookup {A B : Type} [DecidableEq A] {table : List (A × B)} {key : A} {value : B}
    (found : table.lookup key = some value) : (key, value) ∈ table := by
  obtain ⟨before, after, rfl, _⟩ := List.lookup_eq_some_iff.mp found
  exact List.mem_append_right _ List.mem_cons_self

theorem State.buf_write (st : State) (word : List Char) : (st.write word).buf = st.buf ++ word :=
  rfl

theorem Heads.write (heads : Heads text st) (word : List Char) : Heads text (st.write word) := by
  have longer : st.buf.length ≤ (st.write word).buf.length := by
    rw [State.buf_write, List.length_append]
    exact Nat.le_add_right _ _
  constructor
  · intro t offset member
    obtain ⟨before, head⟩ := heads.types t offset member
    exact ⟨before.trans longer, head⟩
  · intro ident offset member
    obtain ⟨before, stands⟩ := heads.idents ident offset member
    exact ⟨before.trans longer, stands⟩

/-- The state in which a type is entered. -/
def State.enter (st : State) (t : AnyTy) : State :=
  { st with types := (t, st.buf.length) :: st.types }

theorem Heads.enter (heads : Heads text st) {t : AnyTy} (head : HeadOf text t st.buf.length) :
    Heads text (st.enter t) := by
  refine ⟨fun t' offset member => ?_, heads.idents⟩
  rcases List.mem_cons.mp member with here | there
  · rw [Prod.mk.injEq] at here
    rw [here.1, here.2]
    exact ⟨le_rfl, head⟩
  · exact heads.types t' offset there

/-- A reference or an entry. -/
theorem State.addRefToType_cases {t : AnyTy} {body : State → Option State}
    (run : st.addRefToType t body = some st') :
    (∃ offset, (t, offset) ∈ st.types ∧ st' = st.write (writeBackRef (st.buf.length - offset))) ∨
      body (st.enter t) = some st' := by
  rw [State.addRefToType] at run
  cases found : st.types.lookup t with
  | some offset =>
    rw [found, Option.some.injEq] at run
    exact Or.inl ⟨offset, mem_of_lookup found, run.symm⟩
  | none =>
    rw [found] at run
    exact Or.inr run

theorem State.mangleIdentifier_cases {ident : Ident} (run : st.mangleIdentifier ident = some st') :
    (∃ offset, (ident, offset) ∈ st.idents ∧
      st' = st.write (writeBackRef (st.buf.length - offset))) ∨
      st' = { st with idents := (ident, st.buf.length) :: st.idents }.write ident.spelling := by
  rw [State.mangleIdentifier] at run
  cases found : st.idents.lookup ident with
  | some offset =>
    rw [found, Option.some.injEq] at run
    exact Or.inl ⟨offset, mem_of_lookup found, run.symm⟩
  | none =>
    rw [found] at run
    dsimp only at run
    split at run
    · cases run
    · exact Or.inr (Option.some.inj run).symm

end

end LaserD.Mangle
