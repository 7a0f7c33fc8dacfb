import LispScript.Machine.Basic

/-!
The operators of scripts on values that are already computed.
-/

namespace LispScript.Machine

open Script (BinaryOp UnaryOp)

/-- An operator on two numbers; the ones that do not take numbers alone have no answer here. -/
def onNumbers? (op : BinaryOp) (a b : Float) : Option Value :=
  match op with
  | .add => some (.number (a + b))
  | .sub => some (.number (a - b))
  | .mul => some (.number (a * b))
  | .div => some (.number (a / b))
  | .rem => some (.number (Number.remainder a b))
  | .lt => some (.bool (a < b))
  | .gt => some (.bool (b < a))
  | .le => some (.bool (a ≤ b))
  | .ge => some (.bool (b ≤ a))
  | _ => none

/-- Two strings are joined, or compared by their code points. -/
def onStrings (op : BinaryOp) (left : Value) (a b : String) : Run Value :=
  match op with
  | .add => Run.newString (a ++ b)
  | .lt => return .bool (a < b)
  | .gt => return .bool (b < a)
  | .le => return .bool (!(b < a))
  | .ge => return .bool (!(a < b))
  | _ => Run.typeError left "NUMBER"

/-- A binary operator on the values of its operands. The complaint about operands of the wrong type
names the left one unless that is a number. -/
def applyBinary (op : BinaryOp) (left right : Value) : Run Value :=
  match op with
  | .strictEq | .looseEq => return .bool (left.strictEq right)
  | .strictNe | .looseNe => return .bool (!left.strictEq right)
  | _ =>
      match left, right with
      | .number a, .number b =>
          match onNumbers? op a b with
          | some value => return value
          | none => Run.fail (.host ("unsupported operator " ++ op.sign))
      | .string _ a, .string _ b => onStrings op left a b
      | .number _, other => Run.typeError other "NUMBER"
      | other, _ => Run.typeError other "NUMBER"

def applyUnary (op : UnaryOp) (operand : Value) : Run Value :=
  match op with
  | .not => return .bool (!operand.truthy)
  | .neg =>
      match operand with
      | .number n => return .number (-n)
      | other => Run.typeError other "NUMBER"

end LispScript.Machine
