/-
This file models the elimination of a basic induction variable from the test of
a loop. A loop over a variable `X` keeps a temporary `T = c1 * X + c2` of the
family of `X`, and apart from its increment the loop refers to `X` in one
comparison `X relop e` only. `elimbasivs` then compares `T` with `e * c1 + c2`,
deletes the increment of `X`, and puts `X = (T - c2) / c1` on the exits where `X`
is live. All of it is integer arithmetic in 2, 4 or 8 bytes that wraps around.

The rest of the loop is arbitrary. It sees `T` but not `X`, and what it does next
is one of four things: some work of its own, the increment, the comparison, whose
outcome it goes on with, or to leave the loop.
-/

import Mathlib.Data.BitVec

namespace LaserD.Ivs

/-! ### Types and operands -/

/-- The sizes of the induction variables. -/
inductive Size where
  | SHORTSIZE | LONGSIZE | LLONGSIZE
  deriving DecidableEq, Repr

/-- The width in bits. -/
def Size.bits : Size → Nat
  | .SHORTSIZE => 16
  | .LONGSIZE => 32
  | .LLONGSIZE => 64

/-- The bits of a 64-bit number that a nonnegative number of the size does not have. -/
def Size.excess : Size → BitVec 64
  | .SHORTSIZE => ~~~0x7FFF#64
  | .LONGSIZE => ~~~0x7FFFFFFF#64
  | .LLONGSIZE => ~~~0x7FFFFFFFFFFFFFFF#64

/-- A loop-invariant operand: whether it is a constant, whether its type is unsigned, and its
value while the loop runs. -/
structure Invariant (w : Nat) where
  const : Bool
  uns : Bool
  value : BitVec w

/-- Extract long value from constant. -/
def elTolong {w : Nat} (e : Invariant w) : BitVec 64 :=
  if e.uns then e.value.setWidth 64 else e.value.signExtend 64

/-! ### Comparisons -/

/-- Relational operators. -/
inductive Relop where
  | le | gt | lt | ge | eqeq | ne
  deriving DecidableEq, Repr

/-- The operator that compares the swapped operands. -/
def swaprel : Relop → Relop
  | .le => .ge
  | .gt => .lt
  | .lt => .gt
  | .ge => .le
  | .eqeq => .eqeq
  | .ne => .ne

/-- The operators from `OPle` to `OPge`. -/
def Relop.ordering : Relop → Bool
  | .le | .gt | .lt | .ge => true
  | .eqeq | .ne => false

/-- The outcome of a comparison. -/
def Relop.holds {w : Nat} (op : Relop) (uns : Bool) (a b : BitVec w) : Bool :=
  match op, uns with
  | .le, true => a.ule b
  | .le, false => a.sle b
  | .gt, true => b.ult a
  | .gt, false => b.slt a
  | .lt, true => a.ult b
  | .lt, false => a.slt b
  | .ge, true => b.ule a
  | .ge, false => b.sle a
  | .eqeq, _ => a == b
  | .ne, _ => a != b

/-- The only reference to the variable: the variable itself, compared with zero, or a comparison
with the variable on the left or on the right. `unsX` is whether it is read as unsigned. -/
inductive Reference (w : Nat) where
  | alone (unsX : Bool)
  | left (op : Relop) (unsX : Bool) (e : Invariant w)
  | right (e : Invariant w) (op : Relop) (unsX : Bool)

/-- The outcome of the test before the variable is eliminated. -/
def Reference.holds {w : Nat} (ref : Reference w) (X : BitVec w) : Bool :=
  match ref with
  | .alone _ => X != 0
  | .left op unsX e => op.holds (unsX || e.uns) X e.value
  | .right e op unsX => op.holds (unsX || e.uns) e.value X

/-- The test with the variable on the left. -/
structure Test (w : Nat) where
  op : Relop
  unsX : Bool
  e : Invariant w

/-- Replace (X) with (X != 0), and (e relop X) with (X relop e). -/
def Reference.test {w : Nat} : Reference w → Test w
  | .alone unsX => { op := .ne, unsX := unsX, e := { const := true, uns := unsX, value := 0 } }
  | .left op unsX e => { op := op, unsX := unsX, e := e }
  | .right e op unsX => { op := swaprel op, unsX := unsX, e := e }

/-! ### Induction variables -/

/-- The operators of an increment. -/
inductive Incop where
  | addass | minass | postinc | postdec
  deriving DecidableEq, Repr

/-- The value after an increment. -/
def Incop.apply {w : Nat} (op : Incop) (a c : BitVec w) : BitVec w :=
  match op with
  | .addass | .postinc => a + c
  | .minass | .postdec => a - c

/-- A variable of the family: `c1 * X + c2`, whether it has a temporary, and whether its type is
unsigned. A family grows by constant factors only. -/
structure Famlist (w : Nat) where
  c1 : Invariant w
  c2 : Invariant w
  FLtemp : Bool
  FLuns : Bool
  constant : c1.const = true

/-- A basic induction variable, with what `elimbasivs` reads of the loop: its type, its increment
and whether the value of the increment is used, its family, the only reference to it and whether
that was made unsigned by an earlier pass, and whether it is used outside of an enclosing try
block. -/
structure Iv (sz : Size) where
  uns : Bool
  incop : Incop
  incr : Invariant sz.bits
  nogoal : Bool
  catchRef : Bool
  IVfamily : List (Famlist sz.bits)
  ref : Reference sz.bits
  touns : Bool

/-- Find simplest elem in family. `flcmp` tells whether the first of two is the simpler one. -/
def simfl {w : Nat} (flcmp : Famlist w → Famlist w → Bool) (fams : List (Famlist w)) :
    Option (Famlist w) :=
  fams.foldl (fun sofar fl =>
    if !fl.FLtemp then sofar
    else match sofar with
      | none => some fl
      | some best => if flcmp best fl then some best else some fl) none

/-- What the comparison becomes: the operator, whether it is unsigned, and the bound. -/
structure Replacement (w : Nat) where
  fl : Famlist w
  op : Relop
  uns : Bool
  fofe : Invariant w

/-- Whether `e * c1 + c2` would result in a sign change or an overflow, as far as it is
checked. -/
def overflows {sz : Size} (c1 e : Invariant sz.bits) : Bool :=
  (e.const && (elTolong c1 * elTolong e) &&& sz.excess != 0) || elTolong c1 &&& sz.excess != 0

/-- Replace e with e*c1 + c2. The bound is a constant when the operands are. -/
def foldBound {w : Nat} (uns : Bool) (e c1 c2 : Invariant w) : Invariant w where
  const := e.const && c2.const
  uns := uns
  value := e.value * c1.value + c2.value

/-- Whether the increment makes the variable smaller, as far as it is checked. -/
def decrements {sz : Size} (biv : Iv sz) : Bool :=
  biv.incop = .minass || (biv.incr.const && (elTolong biv.incr).slt 0)

/-- Eliminate basic IV: the new comparison, unless one of the checks says not to. -/
def elimbasivs {sz : Size} (flcmp : Famlist sz.bits → Famlist sz.bits → Bool) (biv : Iv sz) :
    Option (Replacement sz.bits) :=
  if !biv.nogoal || biv.catchRef then none
  else match simfl flcmp biv.IVfamily with
  | none => none
  | some fl =>
    let ref := biv.ref.test
    let unsigned := ref.unsX || ref.e.uns
    let flty := fl.FLuns || unsigned
    let op := if !biv.uns && (elTolong fl.c1).slt 0 then swaprel ref.op else ref.op
    let fofe := foldBound flty ref.e fl.c1 fl.c2
    if ref.op.ordering && !unsigned && flty then none
    else if overflows fl.c1 ref.e then none
    else if decrements biv && (ref.op = .lt || ref.op = .le) && unsigned then none
    else if biv.touns && fl.c2.const && (elTolong fl.c2).slt 0 then none
    else if flty && op = .ge && fofe.const && fofe.value == 0 && fl.c2.const &&
        fl.c2.value != 0 then none
    else some { fl := fl, op := op, uns := flty, fofe := fofe }

/-! ### Loops -/

/-- What the rest of a loop does next. -/
inductive Action (State : Type) where
  | work (after : State)
  | increment (after : State)
  | test (after : Bool → State)
  | leave (live : Bool) (after : State)

/-- The rest of a loop: what it does next, from its own state and the temporary. -/
structure Loop (State : Type) (w : Nat) where
  next : State → BitVec w → Action State

/-- How a loop is left: the states of the rest that it has passed, whether the variable is live
there, and its value. -/
structure Left (State : Type) (w : Nat) where
  passed : List State
  live : Bool
  X : BitVec w

/-- One more state has been passed before. -/
def Left.after {State : Type} {w : Nat} (left : Left State w) (s : State) : Left State w :=
  { left with passed := s :: left.passed }

variable {State : Type} {sz : Size}

/-- The value of the temporary for a value of the variable. -/
def Famlist.temp {w : Nat} (fl : Famlist w) (X : BitVec w) : BitVec w :=
  fl.c1.value * X + fl.c2.value

/-- The loop with the variable and the temporary, for at most so many steps. -/
def original (biv : Iv sz) (fl : Famlist sz.bits) (loop : Loop State sz.bits) :
    Nat → State → BitVec sz.bits → BitVec sz.bits → Option (Left State sz.bits)
  | 0, _, _, _ => none
  | steps + 1, s, X, T =>
    match loop.next s T with
    | .work after => (original biv fl loop steps after X T).map (·.after s)
    | .increment after =>
      (original biv fl loop steps after (biv.incop.apply X biv.incr.value)
        (biv.incop.apply T (fl.c1.value * biv.incr.value))).map (·.after s)
    | .test after => (original biv fl loop steps (after (biv.ref.holds X)) X T).map (·.after s)
    | .leave live after => some { passed := [s, after], live := live, X := X }

/-- X = (T - c2) / c1, a division of the type of the variable by one of the type of `c1`. -/
def restore (biv : Iv sz) (fl : Famlist sz.bits) (T : BitVec sz.bits) : BitVec sz.bits :=
  if biv.uns || fl.c1.uns then (T - fl.c2.value).udiv fl.c1.value
  else (T - fl.c2.value).sdiv fl.c1.value

/-- The loop without the increment of the variable: the variable keeps its value from before the
loop, until an exit where it is live. -/
def eliminated (biv : Iv sz) (rep : Replacement sz.bits) (loop : Loop State sz.bits)
    (X : BitVec sz.bits) : Nat → State → BitVec sz.bits → Option (Left State sz.bits)
  | 0, _, _ => none
  | steps + 1, s, T =>
    match loop.next s T with
    | .work after => (eliminated biv rep loop X steps after T).map (·.after s)
    | .increment after =>
      (eliminated biv rep loop X steps after
        (biv.incop.apply T (rep.fl.c1.value * biv.incr.value))).map (·.after s)
    | .test after =>
      (eliminated biv rep loop X steps (after (rep.op.holds rep.uns T rep.fofe.value)) T).map
        (·.after s)
    | .leave live after =>
      some
        { passed := [s, after]
          live := live
          X := if live then restore biv rep.fl T else X }

end LaserD.Ivs
