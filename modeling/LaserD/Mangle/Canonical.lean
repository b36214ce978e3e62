/-
This file shows that the spelling of a type is that of its canonical form, so that types of
one canonical form are mangled alike. The other direction is in `RoundTrip`.
-/

import LaserD.Mangle.Writer

namespace LaserD.Mangle

/-! ### Signatures and storage classes -/

theorem Linkage.letter?_canonical (linkage : Linkage) :
    linkage.canonical.letter? = linkage.letter? := by
  cases linkage <;> rfl

theorem Linkage.canonical_canonical (linkage : Linkage) :
    linkage.canonical.canonical = linkage.canonical := by
  cases linkage <;> rfl

theorem Attributes.letters_canonical (a : Attributes) : a.canonical.letters = a.letters := by
  obtain ⟨purity, nothrow, ref_, property, nogc, returnScope, returnInferred, scopeQual,
    scopeInferred, return_, live, trust⟩ := a
  have pure_ : (if purity = .impure then Purity.impure else .weak) ≠ .impure ↔ purity ≠ .impure := by
    cases purity <;> decide
  simp only [Attributes.letters, Attributes.canonical, pure_, Bool.not_false, Bool.and_true]
  cases returnScope <;> cases returnInferred <;> cases trust <;> simp

theorem Attributes.canonical_canonical (a : Attributes) : a.canonical.canonical = a.canonical := by
  obtain ⟨purity, nothrow, ref_, property, nogc, returnScope, returnInferred, scopeQual,
    scopeInferred, return_, live, trust⟩ := a
  cases purity <;> cases trust <;> simp [Attributes.canonical]

theorem Signature.canonical_canonical (s : Signature) : s.canonical.canonical = s.canonical := by
  simp only [Signature.canonical, Linkage.canonical_canonical, Attributes.canonical_canonical]

theorem State.writeSignature_canonical (st : State) (s : Signature) :
    st.writeSignature s.canonical = st.writeSignature s := by
  simp only [State.writeSignature, Signature.canonical, Linkage.letter?_canonical,
    Attributes.text, Attributes.letters_canonical]

/-- The storage classes without those that are inferred. -/
def Storage.explicit (s : Storage) : Storage :=
  { s with
    scope_ := s.scope_ && !s.scopeinferred
    scopeinferred := false
    return_ := s.return_ && !s.returninferred
    returninferred := false }

theorem Storage.codes_explicit (s : Storage) : s.explicit.codes = s.codes := by
  obtain ⟨in_, ref_, out_, lazy_, scope_, scopeinferred, return_, returninferred, returnScope⟩ := s
  cases scopeinferred <;> cases returninferred <;>
    simp only [Storage.codes, Storage.explicit, Bool.not_true, Bool.not_false, Bool.and_true,
      Bool.and_false] <;> rfl

theorem Storage.canonical_explicit (s : Storage) : s.explicit.canonical = s.canonical := by
  simp only [Storage.canonical, Storage.explicit, Bool.not_false, Bool.and_true]

/-- What holds of storage classes none of which is inferred holds of the explicit ones. -/
theorem Storage.explicit_cases {p : Storage → Prop} (s : Storage)
    (all : ∀ in_ ref_ out_ lazy_ scope_ return_ returnScope,
      p ⟨in_, ref_, out_, lazy_, scope_, false, return_, false, returnScope⟩) :
    p s.explicit :=
  all _ _ _ _ _ _ _

theorem Storage.codes_canonical (s : Storage) : s.canonical.codes = s.codes := by
  rw [← s.codes_explicit, ← s.canonical_explicit]
  refine s.explicit_cases (p := fun s => s.canonical.codes = s.codes) ?_
  intro in_ ref_ out_ lazy_ scope_ return_ returnScope
  cases return_ <;> cases scope_ <;> cases ref_ <;> cases out_ <;> cases returnScope <;> rfl

theorem Storage.canonical_canonical (s : Storage) : s.canonical.canonical = s.canonical := by
  rw [← s.canonical_explicit]
  refine s.explicit_cases (p := fun s => s.canonical.canonical = s.canonical) ?_
  intro in_ ref_ out_ lazy_ scope_ return_ returnScope
  cases return_ <;> cases scope_ <;> cases ref_ <;> cases out_ <;> cases returnScope <;> rfl

theorem Storage.in_canonical (s : Storage) : s.canonical.in_ = s.in_ :=
  rfl

/-! ### Names -/

theorem Names.ident_canonical : ∀ names : Names, names.canonical.ident = names.ident
  | .symbol _ => rfl
  | .parent _ rest => rest.ident_canonical
  | .function _ _ _ _ rest => rest.ident_canonical
  | .template _ _ _ rest => rest.ident_canonical
  | .anonymous rest => rest.ident_canonical
  | .localNum _ rest => rest.ident_canonical

theorem Names.parentIdent_canonical (last : Option Ident) :
    ∀ names : Names, names.canonical.parentIdent last = names.parentIdent last
  | .symbol _ => rfl
  | .parent ident rest => rest.parentIdent_canonical (some ident)
  | .function ident _ _ _ rest => rest.parentIdent_canonical (some ident)
  | .template _ ident _ rest => rest.parentIdent_canonical (some ident)
  | .anonymous rest => rest.parentIdent_canonical none
  | .localNum _ rest => rest.parentIdent_canonical last

theorem reserved_canonical (origin : Origin) (names : Names) :
    reserved origin names.canonical = reserved origin names := by
  rw [reserved, reserved, names.ident_canonical, names.parentIdent_canonical]

theorem spelled_canonical (kind : NamedKind) (origin : Origin) (names : Names) :
    spelled kind origin names.canonical = (spelled kind origin names).canonical := by
  rw [spelled, spelled, reserved_canonical, names.ident_canonical]
  split_ifs <;> rfl

/-- A name is reserved by itself or because the symbol is one of the compiler's. -/
theorem reserved_of_d {origin : Origin} {names other : Names} (same : other.ident = names.ident)
    (parents : ∀ parent ∈ other.parentIdent none, parent.Is "object" →
      parent ∈ names.parentIdent none) (here : reserved .d other = true) :
    reserved origin names = true := by
  rw [reserved, decide_eq_true_iff, same] at here
  rw [reserved, decide_eq_true_iff]
  rcases here with ⟨exception, parent, found, object⟩ | first | second | third | fourth |
    builtin | named
  · exact Or.inl ⟨exception, parent, parents parent found object, object⟩
  · exact Or.inr (Or.inl first)
  · exact Or.inr (Or.inr (Or.inl second))
  · exact Or.inr (Or.inr (Or.inr (Or.inl third)))
  · exact Or.inr (Or.inr (Or.inr (Or.inr (Or.inl fourth))))
  · cases builtin
  · exact Or.inr (Or.inr (Or.inr (Or.inr (Or.inr (Or.inr named)))))

theorem spelled_spelled (kind : NamedKind) (origin : Origin) (names : Names) :
    spelled kind .d (spelled kind origin names) = spelled kind origin names := by
  by_cases simple : kind = .class_ ∧ reserved origin names
  · have symbol : spelled kind origin names = .symbol names.ident := if_pos simple
    rw [symbol, spelled]
    split_ifs <;> first | rfl | contradiction
  by_cases c : origin = .c
  · have parent : spelled kind origin names = .parent importC (.symbol names.ident) := by
      rw [spelled, if_neg simple, if_pos c]
    have notObject : ∀ parent ∈ (Names.parent importC (.symbol names.ident)).parentIdent none,
        parent.Is "object" → parent ∈ names.parentIdent none := by
      intro parent found object
      rw [Names.parentIdent, Names.parentIdent, Option.mem_some] at found
      rw [← found] at object
      exact absurd object (by decide)
    have simple' : ¬ (kind = .class_ ∧ reserved .d (.parent importC (.symbol names.ident))) :=
      fun here => simple ⟨here.1, @reserved_of_d origin names (.parent importC (.symbol names.ident))
        rfl notObject here.2⟩
    rw [parent, spelled, if_neg simple', if_neg (by decide)]
  · have whole : spelled kind origin names = names := by
      rw [spelled, if_neg simple, if_neg c]
    rw [whole, spelled, if_neg fun here => simple ⟨here.1, reserved_of_d rfl (fun _ found _ => found) here.2⟩,
      if_neg (by decide)]

/-! ### Types -/

mutual

theorem Ty.canonical_canonical : ∀ t : Ty, t.canonical.canonical = t.canonical
  | .basic _ _ => rfl
  | .single _ _ => rfl
  | .next _ _ next => by rw [Ty.canonical, Ty.canonical, next.canonical_canonical]
  | .aarray _ index next => by
    rw [Ty.canonical, Ty.canonical, index.canonical_canonical, next.canonical_canonical]
  | .vector _ _ _ _ => rfl
  | .call _ _ function => by rw [Ty.canonical, Ty.canonical, function.canonical_canonical]
  | .named _ _ _ names => by
    rw [Ty.canonical, Ty.canonical, ← spelled_canonical, names.canonical_canonical, spelled_spelled]

theorem Fn.canonical_canonical : ∀ f : Fn, f.canonical.canonical = f.canonical
  | .mk _ params result => by
    rw [Fn.canonical, Fn.canonical, Signature.canonical_canonical, params.canonical_canonical,
      result.canonical_canonical]

theorem Params.canonical_canonical : ∀ ps : Params, ps.canonical.canonical = ps.canonical
  | .nil => rfl
  | .cons _ ty rest => by
    rw [Params.canonical, Params.canonical, Storage.canonical_canonical, ty.canonical_canonical,
      rest.canonical_canonical]

theorem Args.canonical_canonical : ∀ args : Args, args.canonical.canonical = args.canonical
  | .nil => rfl
  | .cons _ ty rest => by
    rw [Args.canonical, Args.canonical, ty.canonical_canonical, rest.canonical_canonical]

theorem Names.canonical_canonical : ∀ names : Names, names.canonical.canonical = names.canonical
  | .symbol _ => rfl
  | .parent _ rest => by rw [Names.canonical, Names.canonical, rest.canonical_canonical]
  | .function _ _ _ params rest => by
    rw [Names.canonical, Names.canonical, Signature.canonical_canonical, params.canonical_canonical,
      rest.canonical_canonical]
  | .template _ _ args rest => by
    rw [Names.canonical, Names.canonical, args.canonical_canonical, rest.canonical_canonical]
  | .anonymous rest => by rw [Names.canonical, Names.canonical, rest.canonical_canonical]
  | .localNum _ rest => by rw [Names.canonical, Names.canonical, rest.canonical_canonical]

end

/-- The chain of names that is written for a symbol. -/
theorem mangleNames_spelled (kind : NamedKind) (origin : Origin) (names : Names) (st : State) :
    (if kind = .class_ ∧ reserved origin names then
        (st.write [kind.letter]).mangleIdentifier names.ident
      else if origin = .c then do
        let st ← (st.write [kind.letter]).mangleIdentifier importC
        st.mangleIdentifier names.ident
      else mangleNames names (st.write [kind.letter])) =
      mangleNames (spelled kind origin names) (st.write [kind.letter]) := by
  rw [spelled]
  split_ifs <;> rfl

mutual

theorem mangleTy_canonical (mask : Mod) :
    ∀ (t : Ty) (st : State), mangleTy t.canonical mask st = mangleTy t mask st
  | .basic _ _, _ => rfl
  | .single _ _, _ => rfl
  | .next kind mod next, st => by
    have same := (Ty.next kind mod next).canonical_canonical
    rw [Ty.canonical] at same ⊢
    rw [mangleTy, mangleTy, same]
    simp only [mangleTy_canonical mod next, Ty.canonical]
  | .aarray mod index next, st => by
    have same := (Ty.aarray mod index next).canonical_canonical
    rw [Ty.canonical] at same ⊢
    rw [mangleTy, mangleTy, same]
    simp only [mangleTy_canonical .none index, mangleTy_canonical mod next, Ty.canonical]
  | .vector _ _ _ _, _ => rfl
  | .call kind mod (.mk signature params result), st => by
    have same := (Ty.call kind mod (.mk signature params result)).canonical_canonical
    have function := (Fn.mk signature params result).canonical_canonical
    rw [Ty.canonical] at same ⊢
    rw [mangleTy, mangleTy, same, function]
    simp only [mangleFn_canonical (.mk signature params result), Ty.canonical]
    rfl
  | .named kind mod origin names, st => by
    have same := (Ty.named kind mod origin names).canonical_canonical
    have spelling : ∀ st, mangleNames (spelled kind origin names.canonical) st =
        mangleNames (spelled kind origin names) st := by
      intro st
      rw [spelled, spelled, reserved_canonical, names.ident_canonical]
      split_ifs
      · rfl
      · rfl
      · exact mangleNames_canonical names st
    rw [Ty.canonical] at same ⊢
    rw [mangleTy, mangleTy, same, funext (mangleNames_spelled kind origin names),
      funext (mangleNames_spelled kind .d (spelled kind origin names.canonical)), spelled_spelled]
    simp only [spelling, Ty.canonical]

theorem mangleFn_canonical :
    ∀ (f : Fn) (st : State), mangleFn f.canonical st = mangleFn f st
  | .mk signature params result, st => by
    rw [Fn.canonical, mangleFn, mangleFn]
    simp only [State.writeSignature_canonical, mangleParams_canonical params,
      mangleTy_canonical .none result]
    rfl

theorem mangleParams_canonical :
    ∀ (ps : Params) (st : State), mangleParams ps.canonical st = mangleParams ps st
  | .nil, _ => rfl
  | .cons storage ty rest, st => by
    rw [Params.canonical, mangleParams, mangleParams, State.writeStorage, State.writeStorage,
      Storage.codes_canonical, Storage.in_canonical,
      funext (mangleTy_canonical (if storage.in_ then .const_ else .none) ty),
      funext (mangleParams_canonical rest)]

theorem mangleArgs_canonical :
    ∀ (args : Args) (st : State), mangleArgs args.canonical st = mangleArgs args st
  | .nil, _ => rfl
  | .cons specialized ty rest, st => by
    rw [Args.canonical, mangleArgs, mangleArgs]
    simp only [mangleTy_canonical .none ty, mangleArgs_canonical rest]

theorem mangleNames_canonical :
    ∀ (names : Names) (st : State), mangleNames names.canonical st = mangleNames names st
  | .symbol _, _ => rfl
  | .parent ident rest, st => by
    rw [Names.canonical, mangleNames, mangleNames]
    simp only [mangleNames_canonical rest]
  | .function ident needThis signature params rest, st => by
    rw [Names.canonical, mangleNames, mangleNames]
    simp only [State.writeSignature_canonical, mangleParams_canonical params,
      mangleNames_canonical rest]
    rfl
  | .template inConstraint ident args rest, st => by
    rw [Names.canonical, mangleNames, mangleNames]
    simp only [mangleArgs_canonical args, mangleNames_canonical rest]
  | .anonymous rest, st => by
    rw [Names.canonical, mangleNames, mangleNames, mangleNames_canonical rest]
  | .localNum number rest, st => by
    rw [Names.canonical, mangleNames, mangleNames, mangleNames_canonical rest]

end

theorem mangleToBuffer_canonical (t : AnyTy) : mangleToBuffer t.canonical = mangleToBuffer t := by
  cases t with
  | ty t =>
    rw [AnyTy.canonical, mangleToBuffer, mangleToBuffer, mangleType, mangleType,
      mangleTy_canonical]
  | fn f =>
    cases f with
    | mk signature params result =>
      rw [AnyTy.canonical, mangleToBuffer, mangleToBuffer, mangleType, mangleType,
        Fn.canonical_canonical, funext (mangleFn_canonical (.mk signature params result))]
      rfl

end LaserD.Mangle
