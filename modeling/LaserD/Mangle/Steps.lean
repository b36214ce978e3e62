/-
This file shows of each step of the reader what it reads, given what the readers of the level
below read.
-/

import LaserD.Mangle.Written

namespace LaserD.Mangle

open Numerals

/-! ### Reading parts -/

variable {text : List Char} {pos : Nat} (r : Readers)

/-- The qualifiers that are read when they are written unless they are plain. -/
theorem getD_under {mask mod : Mod} (allowed : mask ≠ .none → mod ≠ mask) :
    (if mask = mod ∨ mod = .none then none else some mod).getD Mod.none = mod := by
  by_cases silent : mask = mod ∨ mod = .none
  · rw [if_pos silent]
    rcases silent with same | plain
    · by_contra other
      exact allowed (fun none_ => other (none_.symm.trans same)) same.symm
    · exact plain.symm
  · rw [if_neg silent]
    rfl

/-- A type behind qualifiers that are written as far as they do not apply. -/
theorem readTy_under {mask mod : Mod} (stands : Stands text pos (mask.under mod))
    (notMod : NotMod text (pos + (mask.under mod).length)) (allowed : mask ≠ .none → mod ≠ .none) :
    readTy text r mask pos = refer text (pos + (mask.under mod).length) (r.body mod) := by
  rw [readTy, readMod_under stands notMod]
  dsimp only
  by_cases silent : mask = mod ∨ mod = .none
  · have same : mask = mod := by
      rcases silent with same | plain
      · exact same
      · by_contra other
        exact allowed (fun none_ => other (none_.trans plain.symm)) plain
    rw [if_pos silent, same]
    rfl
  · rw [if_neg silent]
    rfl

/-- A type whose qualifiers are written unless they are plain. -/
theorem readTy_none_under {mask mod : Mod} (stands : Stands text pos (mask.under mod))
    (notMod : NotMod text (pos + (mask.under mod).length)) (allowed : mask ≠ .none → mod ≠ mask) :
    readTy text r .none pos = refer text (pos + (mask.under mod).length) (r.body mod) := by
  rw [readTy, readMod_under stands notMod]
  dsimp only
  rw [getD_under allowed]

/-- A type without qualifiers of its own. -/
theorem readTy_plain {mask : Mod} (body : BodyAt text pos) :
    readTy text r mask pos = r.body mask pos := by
  obtain ⟨c, at_, notQ, _⟩ := body.letter
  rw [readTy, body.notMod.readMod_eq]
  exact refer_direct (by rw [at_, Ne, Option.some.injEq]; exact notQ)

/-- A function type behind its qualifiers. -/
theorem readFn_under {mask mod : Mod} (stands : Stands text pos (mask.under mod))
    (notMod : NotMod text (pos + (mask.under mod).length)) (allowed : mask ≠ .none → mod ≠ mask) :
    readFn text r pos = refer text (pos + (mask.under mod).length) (r.fn mod) := by
  rw [readFn, readMod_under stands notMod]
  dsimp only
  rw [getD_under allowed]

theorem bodyStep_basic {ty : Basic} (mod : Mod) (stands : Stands text pos ty.text) :
    bodyStep text r mod pos = some (.basic ty mod, pos + ty.text.length) := by
  have first : ∀ {c word}, Stands text pos (c :: word) → text[pos]? = some c :=
    fun stands => (stands_cons.mp stands).1
  have second : ∀ {c d word}, Stands text pos (c :: d :: word) → text[pos + 1]? = some d :=
    fun stands => (stands_cons.mp (stands_cons.mp stands).2).1
  cases ty with
  | int128 =>
    rw [bodyStep, first stands]
    exact if_pos (second stands)
  | uns128 =>
    rw [bodyStep, first stands]
    exact if_neg (by rw [second stands]; decide)
  | _ =>
    rw [bodyStep, first stands]
    rfl

theorem bodyStep_single {ty : Single} (mod : Mod) (stands : Stands text pos ty.text) :
    bodyStep text r mod pos = some (.single ty mod, pos + ty.text.length) := by
  cases ty with
  | null_ =>
    rw [bodyStep, (stands_cons.mp stands).1]
    rfl
  | noreturn_ =>
    obtain ⟨first, rest⟩ := stands_cons.mp stands
    rw [bodyStep, first]
    exact if_pos (stands_cons.mp rest).1

theorem TyAt.notFunction (ty : TyAt text pos) : functionStart text pos = false := by
  obtain ⟨c, head, notLinkage, _⟩ := RefAt.head ty
  rw [functionStart, head, Option.any_some, notLinkage]

theorem bodyStep_next {kind : NextKind} (mod : Mod) (stands : Stands text pos kind.text)
    (ty : TyAt text (pos + kind.text.length)) :
    bodyStep text r mod pos = readNext text r kind mod (pos + kind.text.length) := by
  cases kind with
  | pointer =>
    rw [bodyStep, (stands_cons.mp stands).1]
    exact if_neg (by rw [show functionStart text (pos + 1) = false from ty.notFunction]; decide)
  | darray =>
    rw [bodyStep, (stands_cons.mp stands).1]
    rfl
  | sarray dim =>
    obtain ⟨first, digits⟩ := stands_cons.mp stands
    have length : pos + 1 + (Nat.toDigits 10 dim).length = pos + (NextKind.sarray dim).text.length := by
      rw [NextKind.text, List.length_cons]
      omega
    have dimension : readDecimal text (pos + 1) = (dim, pos + (NextKind.sarray dim).text.length) := by
      rw [← length]
      refine readDecimal_eq digits fun c at_ => ?_
      rw [length] at at_
      obtain ⟨d, at', letter⟩ := ty.tyLetter
      rw [at_, Option.some.injEq] at at'
      subst at'
      exact (Bool.or_eq_false_iff.mp letter.other.2.2).1
    rw [bodyStep, first, dimension]
    rfl

theorem bodyStep_call {kind : CallKind} (mod : Mod) (first : text[pos]? = some kind.letter)
    (function : functionStart text (pos + 1) = true) :
    bodyStep text r mod pos = readCall text r kind mod (pos + 1) := by
  cases kind with
  | pointer =>
    rw [bodyStep, first]
    exact if_pos function
  | delegate_ =>
    rw [bodyStep, first]
    rfl

theorem bodyStep_named {kind : NamedKind} (mod : Mod) (first : text[pos]? = some kind.letter) :
    bodyStep text r mod pos = readNamed r kind mod (pos + 1) := by
  cases kind <;> (rw [bodyStep, first]; rfl)

theorem bodyStep_vector (mod : Mod) (stands : Stands text pos ['N', 'h']) :
    bodyStep text r mod pos = readVector text r mod (pos + 2) := by
  obtain ⟨first, rest⟩ := stands_cons.mp stands
  rw [bodyStep, first]
  exact if_neg (by rw [(stands_cons.mp rest).1]; decide)

/-! ### Signatures -/

theorem Linkage.ofLetter?_letter {linkage : Linkage} {c : Char}
    (letter : linkage.letter? = some c) : Linkage.ofLetter? c = some linkage.canonical := by
  cases linkage <;> cases letter <;> rfl

/-- The linkages with letters that end parameters. -/
theorem Linkage.of_closing {linkage : Linkage} {c : Char} (letter : linkage.letter? = some c)
    (closing : c = 'W' ∨ c = 'Y') : linkage = .windows ∨ linkage = .objc := by
  have all : ∀ linkage : Linkage, linkage.letter? = some 'W' ∨ linkage.letter? = some 'Y' →
      linkage = .windows ∨ linkage = .objc := by
    intro linkage
    cases linkage <;> decide
  refine all linkage ?_
  rcases closing with rfl | rfl
  · exact Or.inl letter
  · exact Or.inr letter

theorem VarArg.ofLetter?_letter (varargs : VarArg) :
    VarArg.ofLetter? varargs.letter = some varargs := by
  cases varargs <;> rfl

theorem Attributes.length_text (a : Attributes) : a.text.length = 2 * a.letters.length := by
  rw [Attributes.text, List.length_flatMap]
  simp [Nat.mul_comm]

/-- A signature with its parameters. -/
theorem readSignature_eq {signature : Signature} {c : Char} {params : Params} {after : Nat}
    (letter : signature.linkage.letter? = some c)
    (stands : Stands text pos (c :: signature.attributes.text))
    (param : ParamAt text (pos + (c :: signature.attributes.text).length))
    (listed : r.params (pos + (c :: signature.attributes.text).length) = some (params, after))
    (closing : text[after]? = some signature.varargs.letter) :
    readSignature text r signature.mod pos = some (signature.canonical, params, after + 1) := by
  obtain ⟨first, attributes⟩ := stands_cons.mp stands
  have drop : text.drop (pos + 1) = signature.attributes.text ++
      text.drop (pos + (c :: signature.attributes.text).length) := by
    obtain ⟨rest, whole⟩ := attributes
    rw [← whole, List.length_cons, show pos + (signature.attributes.text.length + 1) =
      pos + 1 + signature.attributes.text.length by omega, ← List.drop_drop, ← whole,
      List.drop_left]
  have letters : attributeLetters (text.drop (pos + 1)) = signature.attributes.letters := by
    rw [drop]
    exact attributeLetters_append signature.attributes.mem_attributeSet param.attributeLetters
  have start : pos + 1 + 2 * signature.attributes.letters.length =
      pos + (c :: signature.attributes.text).length := by
    rw [List.length_cons, Attributes.length_text]
    omega
  rw [readSignature, first, Option.bind_eq_bind, Option.bind_some,
    Linkage.ofLetter?_letter letter, Option.bind_some, letters]
  dsimp only
  rw [start, listed, Option.bind_eq_bind, Option.bind_some]
  dsimp only
  rw [closing, Option.bind_eq_bind, Option.bind_some, VarArg.ofLetter?_letter, Option.bind_some,
    Attributes.ofLetters_letters]
  rfl

/-! ### Parameters and arguments -/

theorem paramsStep_nil {c : Char} (at_ : text[pos]? = some c)
    (closing : (VarArg.ofLetter? c).isSome) : paramsStep text r pos = some (.nil, pos) := by
  rw [paramsStep, at_]
  exact if_pos closing

/-- A parameter: its storage classes, and its type under the qualifier of `in`. -/
theorem paramsStep_cons {storage : Storage} {codes : List Code} {ty : Ty} {rest : Params}
    {typed after : Nat} (coded : storage.codes = some codes) (canonical : storage.canonical = storage)
    (stands : Stands text pos (codes.flatMap Code.text))
    (tyAt : TyAt text (pos + (codes.flatMap Code.text).length))
    (tyRead : readTy text r (if storage.in_ then .const_ else .none)
      (pos + (codes.flatMap Code.text).length) = some (ty, typed))
    (restRead : r.params typed = some (rest, after)) :
    paramsStep text r pos = some (.cons storage ty rest, after) := by
  have open_ : text[pos]?.bind VarArg.ofLetter? = none := by
    cases codes with
    | nil => exact TyAt.notVarArg tyAt
    | cons code codes =>
      obtain ⟨c, at_, member, _⟩ := code_letter stands
      have others : ∀ c ∈ ['M', 'N', 'I', 'J', 'K', 'L'], VarArg.ofLetter? c = Option.none :=
        forall_mem_of_all (by decide)
      rw [at_, Option.bind_some, others c member]
  have read : storageCodes (text.drop pos) = codes := by
    obtain ⟨after, whole⟩ := stands
    have stop := tyAt.storageCodes
    rw [← List.drop_drop, ← whole, List.drop_left] at stop
    rw [← whole]
    exact storageCodes_append codes stop
  have stored : Storage.ofCodes codes = storage := (Storage.ofCodes_codes coded).trans canonical
  rw [paramsStep, if_neg (by rw [open_]; decide), read]
  dsimp only
  rw [stored, tyRead, Option.bind_eq_bind, Option.bind_some]
  dsimp only
  rw [restRead]
  rfl

theorem argsStep_nil (closing : text[pos]? = some 'Z') : argsStep text r pos = some (.nil, pos) := by
  rw [argsStep, if_pos closing]

theorem argsStep_cons {specialized : Bool} {ty : Ty} {rest : Args} {typed after : Nat}
    (stands : Stands text pos ((if specialized then ['H'] else []) ++ ['T']))
    (tyRead : readTy text r .none
      (pos + ((if specialized then ['H'] else []) ++ ['T']).length) = some (ty, typed))
    (restRead : r.args typed = some (rest, after)) :
    argsStep text r pos = some (.cons specialized ty rest, after) := by
  cases specialized with
  | false =>
    have t : text[pos]? = some 'T' := (stands_cons.mp stands).1
    have read : readTy text r .none (pos + 1) = some (ty, typed) := tyRead
    rw [argsStep, if_neg (by rw [t]; decide), t]
    dsimp only
    rw [if_neg (by decide), read, Option.bind_eq_bind, Option.bind_some]
    dsimp only
    rw [restRead]
    rfl
  | true =>
    have h : text[pos]? = some 'H' := (stands_cons.mp stands).1
    have read : readTy text r .none (pos + 2) = some (ty, typed) := tyRead
    rw [argsStep, if_neg (by rw [h]; decide), h]
    dsimp only
    rw [if_pos (by decide), read, Option.bind_eq_bind, Option.bind_some]
    dsimp only
    rw [restRead]
    rfl

/-! ### Names -/

/-- A name does not begin as a signature does. -/
theorem signatureStart_of_nameStart (name : nameStart text pos = true) :
    signatureStart text pos = false := by
  obtain ⟨c, at_, first⟩ : ∃ c, text[pos]? = some c ∧
      (c = 'Q' ∨ (c.isDigit || decide (c = '_')) = true) := by
    by_cases q : text[pos]? = some 'Q'
    · exact ⟨'Q', q, Or.inl rfl⟩
    · rw [nameStart, headAt, if_neg q] at name
      cases here : text[pos]? with
      | none =>
        rw [here] at name
        cases name
      | some c =>
        rw [here, Option.any_some] at name
        exact ⟨c, rfl, Or.inr name⟩
  have letters : ∀ d ∈ ['M', 'x', 'y', 'O', 'N', 'F', 'U', 'W', 'R', 'Y'],
      ¬ (d = 'Q' ∨ (d.isDigit || decide (d = '_')) = true) := forall_mem_of_all (by decide)
  have other : ∀ d ∈ ['M', 'x', 'y', 'O', 'N', 'F', 'U', 'W', 'R', 'Y'], c ≠ d := by
    rintro d member rfl
    exact letters c member first
  have plain : NotMod text pos := by
    refine ⟨?_, ?_, ?_, fun n => ?_⟩
    · rw [at_, Ne, Option.some.injEq]
      exact other 'x' (by decide)
    · rw [at_, Ne, Option.some.injEq]
      exact other 'y' (by decide)
    · rw [at_, Ne, Option.some.injEq]
      exact other 'O' (by decide)
    · rw [at_, Option.some.injEq] at n
      exact absurd n (other 'N' (by decide))
  have notM : text[pos]? ≠ some 'M' := by
    rw [at_, Ne, Option.some.injEq]
    exact other 'M' (by decide)
  have notLinkage : isLinkage c = false := by
    rw [← Bool.not_eq_true]
    intro linkage
    exact other c (List.mem_cons_of_mem _ (List.mem_cons_of_mem _ (List.mem_cons_of_mem _
      (List.mem_cons_of_mem _ (List.mem_cons_of_mem _ (isLinkage_mem linkage)))))) rfl
  rw [signatureStart, if_neg notM, plain.readMod_eq]
  dsimp only
  rw [at_, Option.any_some, notLinkage, Bool.false_and]

/-- The marks between a function and its signature. -/
def functionMarks (needThis : Bool) (mod : Mod) : List Char :=
  (if needThis then ['M'] else []) ++ Mod.under .none mod

/-- A signature after a name. -/
theorem signature_after {needThis : Bool} {mod : Mod} {c : Char}
    (stands : Stands text pos (functionMarks needThis mod))
    (at_ : text[pos + (functionMarks needThis mod).length]? = some c) (linkage : isLinkage c = true)
    (told : c = 'W' ∨ c = 'Y' → needThis = true ∨ mod ≠ .none) :
    signatureStart text pos = true ∧ decide (text[pos]? = some 'M') = needThis ∧
      ∃ mod', readMod text (if text[pos]? = some 'M' then pos + 1 else pos) =
        (mod', pos + (functionMarks needThis mod).length) ∧ mod'.getD .none = mod := by
  obtain ⟨marked, under⟩ := stands_append.mp stands
  have notMod := notMod_linkage at_ linkage
  rw [functionMarks, List.length_append, ← Nat.add_assoc] at notMod
  have read := readMod_under under notMod
  rw [Nat.add_assoc, ← List.length_append, ← functionMarks] at read
  have value := @getD_under .none mod fun plain => absurd rfl plain
  have m : decide (text[pos]? = some 'M') = needThis := by
    cases needThis with
    | true => exact decide_eq_true (stands_cons.mp marked).1
    | false =>
      refine decide_eq_false ?_
      have under' : Stands text pos (Mod.under .none mod) := under
      cases mod with
      | none =>
        have here : text[pos]? = some c := at_
        rw [here, Option.some.injEq]
        rintro rfl
        exact absurd linkage (by decide)
      | _ =>
        rw [(stands_cons.mp under').1]
        decide
  have from_ : (if text[pos]? = some 'M' then pos + 1 else pos) =
      pos + (if needThis then ['M'] else []).length := by
    cases needThis with
    | true => rw [if_pos (of_decide_eq_true m)]; rfl
    | false => rw [if_neg (of_decide_eq_false m)]; rfl
  refine ⟨?_, m, _, by rw [from_]; exact read, value⟩
  rw [signatureStart, from_, read]
  dsimp only
  rw [at_, Option.any_some, linkage, Bool.true_and, Bool.or_eq_true]
  by_cases closing : c = 'W' ∨ c = 'Y'
  · refine Or.inl (decide_eq_true ?_)
    have longer : 0 < (functionMarks needThis mod).length := by
      rcases told closing with this | qualified
      · rw [this]
        exact Nat.zero_lt_succ _
      · cases mod with
        | none => exact absurd rfl qualified
        | _ => cases needThis <;> exact Nat.zero_lt_succ _
    omega
  · obtain ⟨notW, notY⟩ := not_or.mp closing
    refine Or.inr ?_
    rw [decide_eq_true notW, decide_eq_true notY]
    rfl

theorem namesStep_ident {c : Char} {ident : Ident} {after : Nat} (at_ : text[pos]? = some c)
    (notZero : c ≠ '0') (notLine : c ≠ '_')
    (read : readIdent text pos = some (ident, after)) :
    namesStep text r pos = readParent text r ident after := by
  rw [namesStep, at_]
  split
  · rename_i zero
    exact absurd (Option.some.inj zero) notZero
  · rename_i line
    exact absurd (Option.some.inj line) notLine
  · rw [read]
    rfl

theorem namesStep_anonymous {rest : Names} {after : Nat} (zero : text[pos]? = some '0')
    (read : r.names (pos + 1) = some (rest, after)) :
    namesStep text r pos = some (.anonymous rest, after) := by
  rw [namesStep, zero]
  dsimp only
  rw [read]
  rfl

theorem namesStep_template {inConstraint : Bool} {ident : Ident} {args : Args} {rest : Names}
    {named listed after : Nat}
    (stands : Stands text pos ['_', '_', if inConstraint then 'U' else 'T'])
    (identRead : readIdent text (pos + 3) = some (ident, named))
    (argsRead : r.args named = some (args, listed))
    (restRead : r.names (listed + 1) = some (rest, after)) :
    namesStep text r pos = some (.template inConstraint ident args rest, after) := by
  obtain ⟨line, stands⟩ := stands_cons.mp stands
  obtain ⟨_, stands⟩ := stands_cons.mp stands
  have constraint : decide (text[pos + 2]? = some 'U') = inConstraint := by
    rw [show text[pos + 2]? = some (if inConstraint then 'U' else 'T') from
      (stands_cons.mp stands).1]
    cases inConstraint <;> rfl
  rw [namesStep, line]
  dsimp only
  rw [identRead, Option.bind_eq_bind, Option.bind_some]
  dsimp only
  rw [argsRead, Option.bind_eq_bind, Option.bind_some]
  dsimp only
  rw [restRead, constraint]
  rfl

theorem readParent_symbol {ident : Ident} (proper : ident.isLocal = false)
    (stops : Stops text pos) : readParent text r ident pos = some (.symbol ident, pos) := by
  rw [readParent, if_neg (by rw [proper]; decide), if_neg (by rw [stops.2]; decide),
    if_neg (by rw [stops.1]; decide)]

theorem readParent_parent {ident : Ident} {rest : Names} {after : Nat}
    (proper : ident.isLocal = false) (name : nameStart text pos = true)
    (read : r.names pos = some (rest, after)) :
    readParent text r ident pos = some (.parent ident rest, after) := by
  rw [readParent, if_neg (by rw [proper]; decide),
    if_neg (by rw [signatureStart_of_nameStart name]; decide), if_pos name, read]
  rfl

theorem readParent_local {number : Nat} {rest : Names} {after : Nat}
    (read : r.names pos = some (rest, after)) :
    readParent text r (localIdent number) pos = some (.localNum number rest, after) := by
  rw [readParent, if_pos (isLocal_localIdent number), read, number_localIdent]
  rfl

theorem readParent_function {ident : Ident} {needThis : Bool} {signature : Signature} {c : Char}
    {params : Params} {rest : Names} {listed after : Nat} (proper : ident.isLocal = false)
    (canonical : signature.canonical = signature) (letter : signature.linkage.letter? = some c)
    (told : c = 'W' ∨ c = 'Y' → needThis = true ∨ signature.mod ≠ .none)
    (marks : Stands text pos (functionMarks needThis signature.mod))
    (read : readSignature text r signature.mod
      (pos + (functionMarks needThis signature.mod).length) =
        some (signature.canonical, params, listed))
    (at_ : text[pos + (functionMarks needThis signature.mod).length]? = some c)
    (restRead : r.names listed = some (rest, after)) :
    readParent text r ident pos = some (.function ident needThis signature params rest, after) := by
  obtain ⟨start, m, mod, modRead, modEq⟩ :=
    signature_after marks at_ (Linkage.isLinkage_letter letter) told
  rw [readParent, if_neg (by rw [proper]; decide), if_pos start]
  dsimp only
  rw [modRead]
  dsimp only
  rw [modEq, read, Option.bind_eq_bind, Option.bind_some]
  dsimp only
  rw [restRead, canonical, Option.bind_eq_bind, Option.bind_some, m]
  rfl

end LaserD.Mangle
