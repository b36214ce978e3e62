/-
This file says which types are told apart by their spelling.

`Regular` is what the front end keeps of the types it makes: qualifiers apply to what a type
refers to, and the type of an `in` parameter is qualified. It leaves out the few types whose
spelling is that of another type as well.
-/

import LaserD.Mangle.Canonical

namespace LaserD.Mangle

/-! ### Sizes -/

mutual

def Ty.size : Ty → Nat
  | .basic _ _ => 1
  | .single _ _ => 1
  | .next _ _ next => next.size + 1
  | .aarray _ index next => index.size + next.size + 1
  | .vector _ _ _ _ => 3
  | .call _ _ function => function.size + 1
  | .named _ _ _ names => names.size + 1

def Fn.size : Fn → Nat
  | .mk _ params result => params.size + result.size + 1

def Params.size : Params → Nat
  | .nil => 1
  | .cons _ ty rest => ty.size + rest.size + 1

def Args.size : Args → Nat
  | .nil => 1
  | .cons _ ty rest => ty.size + rest.size + 1

def Names.size : Names → Nat
  | .symbol _ => 1
  | .parent _ rest => rest.size + 1
  | .function _ _ _ params rest => params.size + rest.size + 1
  | .template _ _ args rest => args.size + rest.size + 1
  | .anonymous rest => rest.size + 1
  | .localNum _ rest => rest.size + 1

end

def AnyTy.size : AnyTy → Nat
  | .ty t => t.size
  | .fn f => f.size

/-! ### Regular types -/

mutual

/-- The qualifiers of a type apply to what it refers to. Left out are the types that are not told
apart: a qualified pointer or delegate of a function type with the same qualifier, and a shared
vector of a shared base. -/
def Ty.Regular : Ty → Prop
  | .basic _ _ => True
  | .single _ _ => True
  | .next _ mod next => (mod ≠ .none → next.mod ≠ .none) ∧ next.Regular
  | .aarray mod index next => index.Regular ∧ (mod ≠ .none → next.mod ≠ .none) ∧ next.Regular
  | .vector mod sharedBase _ _ => ¬ (mod = .shared_ ∧ sharedBase = true)
  | .call _ mod function =>
      (mod ≠ .none → function.signature.mod ≠ mod) ∧ function.Regular
  | .named _ _ _ names => names.Regular

def Fn.Regular : Fn → Prop
  | .mk _ params result => params.Regular ∧ result.Regular

/-- The type of an `in` parameter is qualified. -/
def Params.Regular : Params → Prop
  | .nil => True
  | .cons storage ty rest =>
      (storage.in_ = true → ty.mod ≠ .none) ∧ ty.Regular ∧ rest.Regular

def Args.Regular : Args → Prop
  | .nil => True
  | .cons _ ty rest => ty.Regular ∧ rest.Regular

/-- Identifiers are not those that stand for local numbers. A parent that is a function without
`this` and without qualifiers has no linkage whose letter ends parameters. -/
def Names.Regular : Names → Prop
  | .symbol ident => ident.isLocal = false
  | .parent ident rest => ident.isLocal = false ∧ rest.Regular
  | .function ident needThis signature params rest => ident.isLocal = false ∧
      (signature.linkage = .windows ∨ signature.linkage = .objc →
        needThis = true ∨ signature.mod ≠ .none) ∧
      params.Regular ∧ rest.Regular
  | .template _ _ args rest => args.Regular ∧ rest.Regular
  | .anonymous rest => rest.Regular
  | .localNum _ rest => rest.Regular

end

def AnyTy.Regular : AnyTy → Prop
  | .ty t => t.Regular
  | .fn f => f.Regular

theorem Ty.mod_canonical (t : Ty) : t.canonical.mod = t.mod := by
  cases t <;> rfl

theorem Names.isLocal_ident : ∀ (names : Names), names.Regular → names.ident.isLocal = false
  | .symbol _, regular => regular
  | .parent _ rest, regular => rest.isLocal_ident regular.2
  | .function _ _ _ _ rest, regular => rest.isLocal_ident regular.2.2.2
  | .template _ _ _ rest, regular => rest.isLocal_ident regular.2
  | .anonymous rest, regular => rest.isLocal_ident regular
  | .localNum _ rest, regular => rest.isLocal_ident regular

theorem Names.regular_spelled {kind : NamedKind} {origin : Origin} {names : Names}
    (regular : names.Regular) : (spelled kind origin names).Regular := by
  rw [spelled]
  split_ifs
  · exact names.isLocal_ident regular
  · exact ⟨by decide, names.isLocal_ident regular⟩
  · exact regular

mutual

theorem Ty.regular_canonical : ∀ (t : Ty), t.Regular → t.canonical.Regular
  | .basic _ _, regular => regular
  | .single _ _, regular => regular
  | .next _ _ next, ⟨allowed, regular⟩ =>
    ⟨by rwa [next.mod_canonical], next.regular_canonical regular⟩
  | .aarray _ index next, ⟨first, allowed, second⟩ =>
    ⟨index.regular_canonical first, by rwa [next.mod_canonical], next.regular_canonical second⟩
  | .vector _ _ _ _, regular => regular
  | .call _ _ (.mk signature params result), ⟨allowed, regular⟩ =>
    ⟨allowed, (Fn.mk signature params result).regular_canonical regular⟩
  | .named _ _ _ names, regular => Names.regular_spelled (names.regular_canonical regular)

theorem Fn.regular_canonical : ∀ (f : Fn), f.Regular → f.canonical.Regular
  | .mk _ params result, ⟨listed, returned⟩ =>
    ⟨params.regular_canonical listed, result.regular_canonical returned⟩

theorem Params.regular_canonical : ∀ (ps : Params), ps.Regular → ps.canonical.Regular
  | .nil, regular => regular
  | .cons _ ty rest, ⟨allowed, typed, listed⟩ =>
    ⟨by rwa [Storage.in_canonical, ty.mod_canonical], ty.regular_canonical typed,
      rest.regular_canonical listed⟩

theorem Args.regular_canonical : ∀ (args : Args), args.Regular → args.canonical.Regular
  | .nil, regular => regular
  | .cons _ ty rest, ⟨typed, listed⟩ =>
    ⟨ty.regular_canonical typed, rest.regular_canonical listed⟩

theorem Names.regular_canonical : ∀ (names : Names), names.Regular → names.canonical.Regular
  | .symbol _, regular => regular
  | .parent _ rest, ⟨proper, regular⟩ => ⟨proper, rest.regular_canonical regular⟩
  | .function _ _ signature params rest, ⟨proper, allowed, listed, regular⟩ => by
    refine ⟨proper, fun linkage => allowed ?_, params.regular_canonical listed,
      rest.regular_canonical regular⟩
    have same : ∀ linkage : Linkage, linkage.canonical = .windows ∨ linkage.canonical = .objc →
        linkage = .windows ∨ linkage = .objc := by
      intro linkage
      cases linkage <;> decide
    exact same signature.linkage linkage
  | .template _ _ args rest, ⟨listed, regular⟩ =>
    ⟨args.regular_canonical listed, rest.regular_canonical regular⟩
  | .anonymous rest, regular => rest.regular_canonical regular
  | .localNum _ rest, regular => rest.regular_canonical regular

end

end LaserD.Mangle
