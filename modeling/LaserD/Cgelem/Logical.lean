/-
This file models the two rewritings of logical operators to faster comparisons:
`optim_loglog`, which turns a run of comparisons of one operand with constants into a
range check and a bit test, and the part of `elandand` that turns two bounds into one
comparison.

The operands of a chain are a list, in the order in which `el_opArray` collects them. The
scan for the run keeps the variables of its loop.
-/

import LaserD.Cgelem.Compare

namespace LaserD.Cgelem

/-- `el_match`, for types that are equivalent where their sizes and signs are the same. -/
def elMatch : Tree → Tree → Bool
  | .leaf Ety symbol, .leaf Ety' symbol' => decide (Ety = Ety') && symbol == symbol'
  | .const Ety c, .const Ety' c' =>
    decide (Ety = Ety') && low Ety.size c.toNat == low Ety.size c'.toNat
  | .una Eoper Ety E1, .una Eoper' Ety' E1' =>
    decide (Eoper = Eoper') && decide (Ety = Ety') && elMatch E1 E1'
  | .bin Eoper Ety E1 E2, .bin Eoper' Ety' E1' E2' =>
    decide (Eoper = Eoper') && decide (Ety = Ety') && elMatch E2 E2' && elMatch E1 E1'
  | .other Ety code, .other Ety' code' => decide (Ety = Ety') && code == code'
  | _, _ => false

/-- Variables match when they are the same. -/
example (Ety : Ty) (symbol symbol' : Nat) :
    elMatch (.leaf Ety symbol) (.leaf Ety symbol') = (symbol == symbol') := by
  unfold elMatch
  rw [decide_eq_true rfl, Bool.true_and]

/-! ### Chains -/

/-- `el_opArray` -/
def opArray (op : Binary) : Tree → List Tree
  | .bin Eoper Ety E1 E2 =>
    if Eoper = op then opArray op E1 ++ opArray op E2 else [.bin Eoper Ety E1 E2]
  | e => [e]

/-- `el_opCombine` -/
def opCombine (op : Binary) (ty : Ty) : List Tree → Option Tree
  | [] => none
  | e :: rest => some (rest.foldl (fun tree e => .bin op ty tree e) e)

/-- The comparisons that the rewriting of a chain looks for. -/
def comparisonOf (op : Binary) : Relation := if op = .andand then .ne else .eqeq

/-- A comparison of an operand without side effects with a constant: the operand and the
constant. -/
def candidate (op : Binary) : Tree → Option (Tree × BitVec 64)
  | .bin (.rel relation) _ x (.const ty c) =>
    if relation = comparisonOf op ∧ sideEffect x = false then some (x, elTolong ty c) else none
  | _ => none

/-- The variables of the scan. -/
structure Scan where
  any : Bool
  first : Nat
  last : Nat
  emin : BitVec 64
  emax : BitVec 64
  deriving DecidableEq, Repr

/-- A run that starts at an index. -/
def Scan.start (i : Nat) (m : BitVec 64) : Scan :=
  { any := true, first := i, last := i, emin := m, emax := m }

/-- A run that goes on to an index. -/
def Scan.extend (s : Scan) (i : Nat) (m : BitVec 64) : Scan :=
  { s with last := i, emin := if m < s.emin then m else s.emin,
           emax := if s.emax < m then m else s.emax }

/-- The loop over the operands from an index on. -/
def scan (op : Binary) (array : List Tree) : Nat → List Tree → Scan → Scan
  | _, [], s => s
  | i, eq :: rest, s =>
    match candidate op eq with
    | some (x, m) =>
      if s.any then
        if (((array[s.first]?).bind (candidate op)).any fun first => elMatch first.1 x) then
          scan op array (i + 1) rest (s.extend i m)
        else if 2 < s.last - s.first then s
        else scan op array (i + 1) rest (Scan.start i m)
      else scan op array (i + 1) rest (Scan.start i m)
    | none =>
      if s.any ∧ 2 < s.last - s.first then s
      else scan op array (i + 1) rest { s with any := false }

/-- The bits of the constants of a run. -/
def bitmap (op : Binary) (emin : BitVec 64) (run : List Tree) : BitVec 64 :=
  run.foldl (fun bits eq =>
    match candidate op eq with
    | some (_, m) => bits ||| 1#64 <<< (m - emin)
    | none => bits) 0

/-- The shift count as an int. -/
def countOf (tyc : Ty) (ey : Tree) : Tree :=
  match tyc.size with
  | .char => .una .u16_32 TYint (.una .u8_16 TYint ey)
  | .short => .una .u16_32 TYint ey
  | .llong => .una .of64_32 TYint ey
  | _ => ey

/-- The range check and the bit test. -/
def rangeTest (op : Binary) (ty : Ty) (x y : Tree) (emin emax bits : BitVec 64) : Tree :=
  let tyc := x.ty
  let ex : Tree := .bin (.arith .min) tyc x (elLong tyc emin)
  let ex : Tree := .bin (.rel (if op = .andand then .gt else .le)) TYbool ex
    (elLong (touns tyc) (emax - emin))
  let ey : Tree := .bin (.arith .min) tyc y (elLong tyc emin)
  let tybits := if 32 ≤ (emax - emin).toNat then TYullong else TYuint
  let ey : Tree := .bin .btst TYbool (elLong tybits bits) (countOf tyc ey)
  .bin (if op = .andand then .oror else .andand) ty ex ey

/-- The operands of two comparisons. -/
def operands (op : Binary) (first second : Tree) : Option (Tree × Tree) :=
  (candidate op first).bind fun x => (candidate op second).map fun y => (x.1, y.1)

/-- `optim_loglog`: the new tree, where there is one. -/
def optimLoglog (config : Config) (op : Binary) (e : Tree) : Option Tree :=
  let array := opArray op e
  if array.length ≤ 3 then none
  else
    let s := scan op array 0 array { any := false, first := 0, last := 0, emin := 0, emax := 0 }
    if s.any ∧ 2 < s.last - s.first ∧ (s.emax - s.emin).toNat < config.regsize.bits then
      let emin := if s.emax.toNat < 32 then 0 else s.emin
      let run := (array.drop s.first).take (s.last - s.first + 1)
      let bits := bitmap op emin run
      let bits := if op = .andand then ~~~bits else bits
      match run with
      | first :: second :: _ =>
        (operands op first second).bind fun (x, y) =>
          opCombine op e.ty (array.take s.first ++
            rangeTest op e.ty x y emin s.emax bits :: array.drop (s.last + 1))
      | _ => none
    else none

/-! ### Two bounds -/

/-- The rule of `elandand` for `a >= c1 && a < c2`. -/
def boundsRule (config : Config) (Ety : Ty) (e1 e2 : Tree) : Option Tree :=
  match e1, e2 with
  | .bin (.rel lower) _ a (.const ty1 k1), .bin (.rel upper) _ a' (.const ty2 k2) =>
    if config.optimizer = true ∧ (lower = .ge ∨ lower = .gt) ∧ (upper = .lt ∨ upper = .le) ∧
        sideEffect a = false ∧ elMatch a a' = true ∧ ty1 = ty2 ∧ a.size = config.regsize then
      let c1 := if lower = .gt then elTolong ty1 k1 + 1 else elTolong ty1 k1
      let c2 := elTolong ty2 k2
      if (0#64).sle c1 = true ∧ c1.sle c2 = true then
        some (.bin (.rel upper) Ety (.bin (.arith .min) a.ty a (.const ty1 c1))
          (elLong (touns ty2) (c2 - c1)))
      else none
    else none
  | _, _ => none

end LaserD.Cgelem
