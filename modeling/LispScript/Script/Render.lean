import LispScript.Number.Text
import LispScript.Script.Quoted
import LispScript.Script.Syntax

/-!
Scripts as source text.
-/

namespace LispScript.Script

/-- Whether an expression can be an operand without parentheses. -/
def Expr.isPrimary : Expr → Bool
  | number n => !(n < 0) && Number.isFinite n
  | string _ | bool _ | undefined | ident _ | support _ | member _ _ | index _ _ | call _ _
  | array _ => true
  | _ => false

def parenthesize (text : String) : String := "(" ++ text ++ ")"

/-- The text of an operand of an operator, a call or a member access. -/
def Expr.asOperand (e : Expr) (text : String) : String :=
  if e.isPrimary then text else parenthesize text

/-- The text of an element of a list that commas separate. -/
def Expr.asItem (e : Expr) (text : String) : String :=
  match e with
  | comma _ => parenthesize text
  | _ => text

/-- The text of an expression in statement position, where a function literal would be taken for
a declaration. -/
def Expr.asStatement (e : Expr) (text : String) : String :=
  match e with
  | function _ _ => parenthesize text
  | _ => text

def commaSeparated (texts : List String) : String := String.intercalate ", " texts

def indentation (depth : Nat) : String := String.ofList (List.replicate (2 * depth) ' ')

/-- Statements between braces, each text already ending its line. -/
def braced (depth : Nat) (lines : List String) : String :=
  "\x7b\n" ++ String.join lines ++ indentation depth ++ "\x7d"

def line (depth : Nat) (text : String) : String := indentation depth ++ text ++ "\n"

def labelText : Option String → String
  | some label => label ++ ": "
  | none => ""

mutual

def Expr.render (depth : Nat) : Expr → String
  | .number n => Number.text n
  | .string s => quote s
  | .bool b => if b then "true" else "false"
  | .undefined => "undefined"
  | .ident name => name
  | .support member => "internals." ++ member.name
  | .member object property => object.asOperand (object.render depth) ++ "." ++ property
  | .index object position =>
      object.asOperand (object.render depth) ++ "[" ++ position.render depth ++ "]"
  | .call callee args =>
      callee.asOperand (callee.render depth) ++ "(" ++ commaSeparated (renderItems depth args) ++ ")"
  | .function params body =>
      "function(" ++ commaSeparated params ++ ") " ++ braced depth (renderLines (depth + 1) body)
  | .array items => "[" ++ commaSeparated (renderItems depth items) ++ "]"
  | .binary op left right =>
      left.asOperand (left.render depth) ++ " " ++ op.sign ++ " " ++
        right.asOperand (right.render depth)
  | .unary op operand =>
      (match op with
        | .not => "!"
        | .neg => "-") ++ operand.asOperand (operand.render depth)
  | .cond test yes no =>
      test.asOperand (test.render depth) ++ " ? " ++ yes.asOperand (yes.render depth) ++ " : " ++
        no.asOperand (no.render depth)
  | .assign target value => target.render depth ++ " = " ++ value.asItem (value.render depth)
  | .comma items => commaSeparated (renderItems depth items)

def renderItems (depth : Nat) : List Expr → List String
  | [] => []
  | item :: rest => item.asItem (item.render depth) :: renderItems depth rest

def Stmt.render (depth : Nat) : Stmt → String
  | .declare name => line depth ("var " ++ name ++ ";")
  | .define name value =>
      line depth ("var " ++ name ++ " = " ++ value.asItem (value.render depth) ++ ";")
  | .effect value => line depth (value.asStatement (value.render depth) ++ ";")
  | .ret value => line depth ("return " ++ value.render depth ++ ";")
  | .branch test yes no =>
      let lines := renderLines (depth + 1) no
      line depth ("if (" ++ test.render depth ++ ") " ++ braced depth (renderLines (depth + 1) yes) ++
        (if no.isEmpty then "" else " else " ++ braced depth lines))
  | .loop label test body =>
      line depth (labelText label ++ "while (" ++ test.render depth ++ ") " ++
        braced depth (renderLines (depth + 1) body))
  | .iterate start test update body =>
      line depth ("for (" ++ start.render depth ++ "; " ++ test.render depth ++ "; " ++
        update.render depth ++ ") " ++ braced depth (renderLines (depth + 1) body))
  | .select subject cases =>
      line depth ("switch (" ++ subject.render depth ++ ") " ++
        braced depth (renderCases (depth + 1) cases))
  | .leave none => line depth "break;"
  | .leave (some label) => line depth ("break " ++ label ++ ";")
  | .raise value => line depth ("throw " ++ value.render depth ++ ";")
  | .guarded block handler cleanup =>
      line depth ("try " ++ braced depth (renderLines (depth + 1) block) ++ handler.render depth ++
        cleanup.render depth)

def renderLines (depth : Nat) : List Stmt → List String
  | [] => []
  | stmt :: rest => stmt.render depth :: renderLines depth rest

def Case.render (depth : Nat) : Case → String
  | .case test body =>
      line depth ("case " ++ test.render depth ++ ":") ++ String.join (renderLines (depth + 1) body)
  | .otherwise body => line depth "default:" ++ String.join (renderLines (depth + 1) body)

def renderCases (depth : Nat) : List Case → List String
  | [] => []
  | case :: rest => case.render depth :: renderCases depth rest

def Handler.render (depth : Nat) : Handler → String
  | .none => ""
  | .catching param body =>
      " catch (" ++ param ++ ") " ++ braced depth (renderLines (depth + 1) body)

def Cleanup.render (depth : Nat) : Cleanup → String
  | .none => ""
  | .always body => " finally " ++ braced depth (renderLines (depth + 1) body)

end

/-- The source text of a program. -/
def Program.render (program : Program) : String := String.join (renderLines 0 program.body)

/-- The source text of an expression by itself. -/
def Expr.source (e : Expr) : String := e.render 0

end LispScript.Script
