import LispScript.Compiler.Body

/-!
Forms that handle all the values of others: `MULTIPLE-VALUE-CALL` and `MULTIPLE-VALUE-PROG1`.
-/

namespace LispScript.Compiler

open Script

variable (compile : FormCompiler) (context : Context) (form : Value)

/-- A vector of arguments, to which the values of the forms are appended. -/
def appendBundles (arguments : Expr) : List Value → Compile Expr
  | [] => return arguments
  | form :: rest => do
      let bundle ← compileBundle compile context form
      appendBundles (.callRoutine .appendValues [arguments, bundle]) rest

/-- `(MULTIPLE-VALUE-CALL function . forms)` -/
def compileMultipleValueCall (args : List Value) : Compile Expr := do
  expectArgs form args 1 none
  let function ← compileSingle compile context (args.headD .nil)
  let arguments ← appendBundles compile context (.array [context.acceptor]) args.tail
  return .callRoutine .applyVector [.callRoutine .coerceFunction [function], arguments]

/-- `(MULTIPLE-VALUE-PROG1 first . forms)`; the first form's values are held while the others
run. -/
def compileMultipleValueProg1 (args : List Value) : Compile Expr := do
  expectArgs form args 1 none
  let first ← compile context (args.headD .nil)
  if args.tail.isEmpty then return first
  let result ← freshVariable "result"
  let effects ← compileEffects compile context args.tail
  return .wrap ([.define result first] ++ effects.map .effect ++ [.ret (.ident result)])

end LispScript.Compiler
