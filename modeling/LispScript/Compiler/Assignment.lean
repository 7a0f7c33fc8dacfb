import LispScript.Compiler.FunctionName

/-!
Constants, choices and assignments: `QUOTE`, `FUNCTION`, `IF`, `SETQ` and `THE`.
-/

namespace LispScript.Compiler

open Script

/-- `(QUOTE datum)` -/
def compileQuote (form : Value) (args : List Value) : Compile Expr := do
  expectArgs form args 1 (some 1)
  literal (args.headD .nil)

section Forms

variable (compile : FormCompiler) (context : Context) (form : Value)

/-- `(FUNCTION designator)` -/
def compileFunction (args : List Value) : Compile Expr := do
  expectArgs form args 1 (some 1)
  functionReference compile context (args.headD .nil)

/-- `(IF test then [else])` -/
def compileIf (args : List Value) : Compile Expr := do
  expectArgs form args 2 (some 3)
  match args with
  | test :: yes :: rest => do
      let test ← compileSingle compile context test
      let yes ← compile context yes
      let no ← match rest with
        | no :: _ => compile context no
        | [] => pure .nil
      return .cond (truthTest test) yes no
  | _ => return .nil

/-- The assignments of values to variables, in order. -/
def compileAssignments : List Value → Compile (List Expr)
  | target :: value :: rest => do
      let id ← symbolArg form target "variable"
      let place ← variablePlace context id
      let value ← compileSingle compile context value
      return .assign place value :: (← compileAssignments rest)
  | _ => return []

/-- `(SETQ {variable value}*)` -/
def compileSetq (args : List Value) : Compile Expr := do
  if args.length % 2 != 0 then malformed form "odd number of arguments"
  match ← compileAssignments compile context form args with
  | [] => return .nil
  | [assignment] => return assignment
  | assignments => return .comma assignments

/-- `(THE type form)`; the type is not looked at. -/
def compileThe (args : List Value) : Compile Expr := do
  expectArgs form args 2 (some 2)
  match args with
  | [_, value] => compile context value
  | _ => return .nil

end Forms

end LispScript.Compiler
