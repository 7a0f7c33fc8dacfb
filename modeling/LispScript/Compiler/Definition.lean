import LispScript.Compiler.Body
import LispScript.Compiler.Macro

/-!
Forms that act while the program is being compiled: `DEFMACRO`, `DEFCONSTANT`, `DECLAIM` and
`EVAL-WHEN`.
-/

namespace LispScript.Compiler

open Script

section Proclamations

/-- Declarations of global bindings. -/
def proclaim (specs : DeclSpecs) : Compile Unit := do
  let change (space : Namespace) (set : Bindings → Binding → Bindings) (id : SymbolId) :
      Compile Unit := do
    let binding ← onBindings (·.lookupGlobal id space)
    modifyBindings fun bindings => set bindings binding
  specs.specials.forM (change .vars (·.setSpecial · true))
  specs.notInline.forM (change .functions (·.setNotInline · true))
  specs.inlined.forM (change .functions (·.setNotInline · false))

/-- Another failure in place of a malformed declaration. -/
def orFail (step : Compile α) (failure : Compile α) : Compile α := fun s =>
  match step s with
  | .ok a s => .ok a s
  | .error _ s => failure s

/-- `(DECLAIM . specifiers)` -/
def compileDeclaim (form : Value) (args : List Value) : Compile Expr := do
  let declaration ← newCons .nil (← newList args)
  proclaim (← orFail (parseDeclaration declaration {}) (malformed form "bad proclamation"))
  return .nil

end Proclamations

section Forms

variable (compile : FormCompiler) (context : Context) (form : Value)

/-- `(DEFMACRO name lambda-list . body)` -/
def compileDefmacro (args : List Value) : Compile Expr := do
  expectArgs form args 2 none
  match args with
  | name :: lambdaList :: body => do
      let id ← symbolArg form name "macro name"
      let expander ← makeExpander compile id lambdaList body
      let _ ← onBindings (·.define id .functions (.expander expander))
      symbolLiteral id
  | _ => return .nil

/-- `(DEFCONSTANT name value [documentation])`. The value is computed at once, and every later
mention of the name stands for it; when the code runs, the symbol gets it too. -/
def compileDefconstant (args : List Value) : Compile Expr := do
  expectArgs form args 2 (some 3)
  match args with
  | name :: init :: _ => do
      let id ← symbolArg form name "constant name"
      if id = SymbolId.t || id = SymbolId.nil || (← symbols).isKeyword id then
        throw (.constantAssignment (← symbolName id))
      let value ← evalNow compile init
      let written ← literal value
      let binding ← onBindings (·.define id .vars (.constant value))
      modifyBindings (·.setConstant binding true)
      let cell ← symbolLiteral id
      return .comma [.assign (.member cell "value") written, cell]
  | _ => return .nil

/-- Whether one of the situations is among the given ones. -/
def anySituation (situations : List Value) (ids : List SymbolId) : Bool :=
  situations.any fun situation => (situation.asSymbol?.map ids.contains).getD false

/-- `(EVAL-WHEN situations . body)`. The body is run at once only at top level. -/
def compileEvalWhen (args : List Value) : Compile Expr := do
  expectArgs form args 1 none
  let situations ← listArg form (args.headD .nil) "situation list"
  let now := anySituation situations [SymbolId.compileToplevelKey, SymbolId.compile]
  let later := anySituation situations
    [SymbolId.loadToplevelKey, SymbolId.load, SymbolId.executeKey, SymbolId.eval]
  let body ← newCons (.symbol SpecialForm.progn.symbol) (← newList args.tail)
  if now && context.env.isEmpty then
    let _ ← evalNow compile body
  if later then compile context body else return .nil

end Forms

end LispScript.Compiler
