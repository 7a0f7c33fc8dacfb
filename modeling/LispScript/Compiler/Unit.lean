import LispScript.Compiler.Basic
import LispScript.Machine.Evaluate

/-!
Top-level units: a form as a program of its own, with the literals it mentions made at its head, and
the evaluation of forms while others are being compiled.
-/

namespace LispScript.Compiler

open Script

/-- Compiles with no literals made yet and returns the ones made. The literals of an enclosing unit
are in force again afterwards, also after a failure. -/
def inFreshUnit (step : Compile α) : Compile (α × Literals) := fun s =>
  let outer := s.literals
  match step { s with literals := {} } with
  | .ok a s => .ok (a, s.literals) { s with literals := outer }
  | .error e s => .error e { s with literals := outer }

/-- Where a top-level form stands. -/
def Context.toplevel : Context := { env := [], manyValues := true }

/-- A function of the routine that packs values, called where it stands. -/
def unitProgram (literals : Literals) (value : Expr) : Program :=
  ⟨[.effect (.inPlace ["values"] [.routine .packValues]
    (literals.initializers.toList ++ [.ret value]))]⟩

/-- A form as a program that depends on nothing compiled before it. -/
def compileToplevel (compile : FormCompiler) (form : Value) : Compile Program := do
  let _ ← onCounters Counters.freshUnit
  let (value, literals) ← inFreshUnit (compile .toplevel form)
  return unitProgram literals value

/-- A run of the machine as a step of the compiler; the failure of one becomes the failure that
`explain` makes of it. -/
def onMachine (run : Run α) (explain : RuntimeError → CompileError) : Compile α := fun s =>
  match run s.image with
  | .ok a image => .ok a { s with image }
  | .error interrupt image => .error (explain (interrupt.asError image)) { s with image }

/-- The first value of a form, which is compiled as a unit of its own and run at once. -/
def evalNow (compile : FormCompiler) (form : Value) : Compile Value := do
  let program ← compileToplevel compile form
  let result ← onMachine (Machine.run program) .compileTimeEval
  return ((← get).image.valuesOf result).headD .nil

end LispScript.Compiler
