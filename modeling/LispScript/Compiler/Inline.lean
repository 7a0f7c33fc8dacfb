import LispScript.Script.Syntax

/-!
The code of direct calls of built-in functions.
-/

namespace LispScript.Compiler

open Script

/-- The operator that folds the arguments of an arithmetic function. -/
def foldOp? : Primitive → Option BinaryOp
  | .add => some .add
  | .sub => some .sub
  | .mul => some .mul
  | _ => none

/-- The operator that compares exactly two arguments. -/
def compareOp? : Primitive → Option BinaryOp
  | .numEq => some .strictEq
  | .lt => some .lt
  | .gt => some .gt
  | .le => some .le
  | .ge => some .ge
  | .eq => some .strictEq
  | _ => none

/-- A script's truth value as a Lisp one. -/
def lispTruth (test : Expr) : Expr := .cond test .t .nil

/-- Arithmetic on arguments from the left. A single argument is negated or combined with the
operator's neutral element, which checks that it is a number. -/
def inlineFold (op : BinaryOp) (args : List Expr) : Expr :=
  let neutral := Expr.number (if op = .mul then 1 else 0)
  match args with
  | [] => neutral
  | [arg] => if op = .sub then .unary .neg arg else .binary op neutral arg
  | arg :: args => args.foldl (Expr.binary op) arg

/-- The code of a call of a built-in function with as many arguments as it accepts. -/
def inlineCall (p : Primitive) (args : List Expr) (acceptor : Expr) : Expr :=
  match foldOp? p with
  | some op => inlineFold op args
  | none =>
      match compareOp? p, args with
      | some op, [a, b] => lispTruth (.binary op a b)
      | _, _ =>
          match p, args with
          | .inc, [x] => .binary .add x (.number 1)
          | .dec, [x] => .binary .sub x (.number 1)
          | .null, [x] | .not, [x] => lispTruth (.binary .strictEq x .nil)
          | .values, _ => .call acceptor args
          | _, _ => .callPrimitive p (if p.takesAcceptor then acceptor :: args else args)

end LispScript.Compiler
