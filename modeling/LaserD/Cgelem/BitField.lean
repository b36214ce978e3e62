/-
This file models the lowering of bit fields to shifts and masks: `elbit` for a load, the
part of `eleq` for an assignment, `elopass` for an assignment with an operator and
`elpost` for the post operators.

The container is a variable or an indirection. Where a tree has to be evaluated once and
used again, `fixside` stores it in a temporary; the temporaries that `el_alloctmp` would
make are parameters.
-/

import LaserD.Cgelem.Divide

namespace LaserD.Cgelem

/-- The second operand of a bit field of this width and offset. -/
def bitfieldarg (width offset : Nat) : BitVec 64 := BitVec.ofNat 64 (width * 256 + offset)

/-- The mask so many bits wide. -/
def fieldMask (w : Nat) : BitVec 64 := if w = 64 then -1 else (1#64 <<< w) - 1

/-- A shift count. -/
def shiftCount (b : Nat) : Tree := elLong TYint (BitVec.ofNat 64 b)

/-- `elbit` -/
def elbit (Ety : Ty) (e1 : Tree) (wb : BitVec 64) : Tree :=
  let tym1 := e1.ty
  let sz := tym1.size.bits
  let w := fieldWidth wb
  let b := fieldOffset wb
  if w = 8 ∧ sz = 16 ∧ b = 0 then
    if tym1.isUnsigned then .una .u8_16 Ety (.una .of16_8 TYuchar e1)
    else .una .s8_16 Ety (.una .of16_8 TYschar e1)
  else if tym1.isUnsigned then
    let m := if w + b = sz then -1 else fieldMask w
    .bin (.arith .and) Ety (.bin (.arith .shr) tym1 (.bin (.arith .shl) tym1 e1 (shiftCount 0))
      (shiftCount b)) (.const Ety m)
  else
    .bin (.arith .and) Ety (.bin (.arith .ashr) tym1
      (.bin (.arith .shl) tym1 e1 (shiftCount (sz - (w + b)))) (shiftCount (sz - w)))
      (.const Ety (-1))

/-! ### Copies -/

/-- The tree that `fixside` leaves where a tree is evaluated, and the one where it is used again. -/
def saved (tmp : Nat) (e : Tree) : Tree := .bin .eq e.ty (.leaf e.ty tmp) e
@[inherit_doc saved] def temporary (tmp : Nat) (e : Tree) : Tree := .leaf e.ty tmp

/-- The first copy of a container and the others, where the address of an indirection is saved
unless it is a leaf. -/
def copies (tmp : Nat) : Tree → Tree × Tree
  | .una Eoper Ety E1 =>
    if E1.isLeaf then (.una Eoper Ety E1, .una Eoper Ety E1)
    else (.una Eoper Ety (saved tmp E1), .una Eoper Ety (temporary tmp E1))
  | l => (l, l)

/-- The copies of a signed container in an assignment with an operator, where the address of an
indirection is always saved. -/
def signedCopies (tmp : Nat) : Tree → Tree × Tree
  | .una .ind Ety E1 => (.una .ind Ety (saved tmp E1), .una .ind Ety (temporary tmp E1))
  | l => (l, l)

/-- The bits of a value in the place of the field, and the other bits of the container. -/
def blend (t : Ty) (x l : Tree) (b : Nat) (m : BitVec 64) : Tree :=
  .bin (.arith .or) t (.bin (.arith .shl) t x (shiftCount b))
    (.bin (.arith .and) t l (elLong t (~~~(m <<< b))))

/-! ### Stores -/

/-- `elbitassign`: an assignment to a bit field of the container `l`. -/
def elbitassign (config : Config) (goal : Goal) (tmp1 tmp2 : Nat) (t : Ty) (l : Tree)
    (wb : BitVec 64) (r : Tree) : Tree :=
  let tyl := l.ty
  let sz := tyl.size.bits
  let w := (Vuns wb >>> 8).toNat
  let m := fieldMask w
  let b := fieldOffset wb
  let again := (copies tmp1 l).2
  let l2 := (copies tmp1 l).1
  let twice := goal ≠ .none ∧ r.isLeaf = false
  let r2 : Tree := .bin (.arith .and) t (if twice then saved tmp2 r else r)
    (elLong t (if config.optimizer = true ∧ w + b = sz then -1 else m))
  let eres : Tree := .bin .eq t again (blend t r2 l2 b m)
  if goal = .none then eres
  else
    let r := if twice then temporary tmp2 r else r
    let e2 : Tree :=
      if tyl.isUnsigned then .bin (.arith .and) t r (elLong t m)
      else .bin (.arith .ashr) t (.bin (.arith .shl) tyl r (shiftCount (sz - w)))
        (shiftCount (sz - w))
    .bin .comma t eres e2

/-- The part of `elopass` for a bit field of type `ty1` in the container `l`. -/
def elopass (goal : Goal) (tmp1 tmp2 : Nat) (op : Arithmetic) (Ety ty1 ty2 : Ty) (l : Tree)
    (wb : BitVec 64) (r : Tree) : Tree :=
  let t := touns Ety
  let m := fieldMask (fieldWidth wb)
  let b := fieldOffset wb
  if l.ty.isUnsigned then
    let l2 := (copies tmp1 l).1
    let again := (copies tmp1 l).2
    let old : Tree := .bin (.arith .and) t (.bin (.arith .shr) t l2 (shiftCount b)) (elLong t m)
    let result : Tree := .bin (.arith .and) t (.bin (.arith op) t old r) (elLong t m)
    if goal = .none then .bin .eq t again (blend t result again b m)
    else .bin .comma t (.bin .eq t again (blend t (saved tmp2 result) again b m))
      (temporary tmp2 result)
  else
    .bin .eq Ety (.bin .bit ty1 (signedCopies tmp1 l).2 (.const ty2 wb))
      (.bin (.arith op) t (.bin .bit ty1 (signedCopies tmp1 l).1 (.const ty2 wb)) r)

/-- The part of `elpost` for a bit field. -/
def elpost (isPostinc : Bool) (ty ty1 ty2 : Ty) (l : Tree) (wb : BitVec 64) (ty3 : Ty)
    (c : BitVec 64) : Tree :=
  let r := if isPostinc then elTolong ty3 c else -elTolong ty3 c
  let e : Tree := .bin (.arithass (if isPostinc then .add else .min)) ty
    (.bin .bit ty1 l (.const ty2 wb)) (.const ty3 c)
  let e : Tree := .bin (.arith .min) ty e (elLong ty r)
  if l.ty.isUnsigned then .bin (.arith .and) ty e (elLong ty (fieldMask (fieldWidth wb))) else e

end LaserD.Cgelem
