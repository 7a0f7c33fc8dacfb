import LispScript.Compiler.Lambda
import LispScript.Compiler.Macro

/-!
Forms that bind names in their bodies: `LET`, `LET*`, `FLET`, `LABELS`, `MACROLET` and, for
declarations alone, `LOCALLY`.
-/

namespace LispScript.Compiler

open Script

section Parsing

variable (form : Value)

/-- `name`, `(name)` or `(name init)`: a variable and its first value. -/
def parseBinding (spec : Value) : Compile (SymbolId × Value) := do
  match spec with
  | .symbol _ | .nil => return (← symbolArg form spec "bound name", .nil)
  | .cons _ =>
      match ← listArg form spec "binding" with
      | [name] => return (← symbolArg form name "bound name", .nil)
      | [name, init] => return (← symbolArg form name "bound name", init)
      | _ => malformed form "binding must be (name [init])"
  | _ => malformed form "binding must be a symbol or a list"

/-- The bindings of a form that binds variables. Constants are refused as they come up. -/
def parseBindings (context : Context) (list : Value) : Compile (List (SymbolId × Value)) := do
  (← listArg form list "binding list").mapM fun spec => do
    let (id, init) ← parseBinding form spec
    checkBindable context id
    return (id, init)

/-- A function or macro that is defined for the body of a form. -/
structure LocalDefinition where
  name : SymbolId
  lambdaList : Value
  body : List Value

/-- `(name lambda-list . body)` -/
def parseDefinition (definition : Value) : Compile LocalDefinition := do
  match ← listArg form definition "definition" with
  | name :: lambdaList :: body => return ⟨← symbolArg form name "function name", lambdaList, body⟩
  | _ => malformed form "definition needs a name and a lambda list"

def parseDefinitions (list : Value) : Compile (List LocalDefinition) := do
  (← listArg form list "definition list").mapM (parseDefinition form)

end Parsing

section Forms

variable (compile : FormCompiler) (context : Context)

/-- The body of a form that binds names, after the statements that bind them. -/
def finishBinding (prologue : Prologue) (env : Environment) (body : Body)
    (bound : List SymbolId) : Compile Expr := do
  let env ← applyFreeDeclarations env body.declarations bound
  let stmts ← compileBody compile (context.withEnv env) body.forms
  return statementsExpr (prologue.finish stmts)

/-- Defines script variables with the values of the inits, in order. -/
def defineInits (prologue : Prologue) : List (SymbolId × Value) →
    Compile (Prologue × List (SymbolId × String))
  | [] => return (prologue, [])
  | (id, init) :: rest => do
      let host ← freshVariableFor id
      let value ← compileSingle compile context init
      let (prologue, hosts) ← defineInits (prologue.add [.define host value]) rest
      return (prologue, (id, host) :: hosts)

/-- Lets variables have the values that script variables hold. -/
def bindHosts (specials : List SymbolId) (head : Head) :
    List (SymbolId × String) → Compile Head
  | [] => return head
  | (id, host) :: rest => do bindHosts specials (← bindParameter specials head id host) rest

/-- Binds variables one by one, each init compiled where the variables before it are bound. -/
def bindInits (specials : List SymbolId) (head : Head) :
    List (SymbolId × Value) → Compile Head
  | [] => return head
  | (id, init) :: rest => do
      let host ← freshVariableFor id
      let value ← compileSingle compile (context.withEnv head.env) init
      bindInits specials (← bindParameter specials (head.add [.define host value]) id host) rest

/-- `(LET bindings . body)`; all inits are computed before any variable is bound. -/
def compileLet (form : Value) (args : List Value) : Compile Expr := do
  expectArgs form args 1 none
  let bindings ← parseBindings form context (args.headD .nil)
  let body ← parseBody args.tail false
  let (prologue, hosts) ← defineInits compile context {} bindings
  let head ← bindHosts body.declarations.specials { env := context.env, prologue } hosts
  finishBinding compile context head.prologue head.env body (bindings.map Prod.fst)

/-- `(LET* bindings . body)`; each init sees the variables before it. -/
def compileLetStar (form : Value) (args : List Value) : Compile Expr := do
  expectArgs form args 1 none
  let bindings ← parseBindings form context (args.headD .nil)
  let body ← parseBody args.tail false
  let head ← bindInits compile context body.declarations.specials { env := context.env } bindings
  finishBinding compile context head.prologue head.env body (bindings.map Prod.fst)

/-- An environment in which the definitions' names mean script variables. -/
def bindFunctions (env : Environment) (hosts : List (LocalDefinition × String)) :
    Compile Environment :=
  hosts.foldlM (fun env (definition, host) => do
    return (← newBinding (.ofSymbol definition.name) .functions (.host host)) :: env) env

/-- `(FLET definitions . body)` and `(LABELS definitions . body)`; in the second, which is
recursive, the functions see each other. -/
def compileLocalFunctions (recursive : Bool) (form : Value) (args : List Value) :
    Compile Expr := do
  expectArgs form args 1 none
  let definitions ← parseDefinitions form (args.headD .nil)
  let body ← parseBody args.tail false
  let hosts ← definitions.mapM fun definition => do
    return (definition, ← freshVariableFor definition.name)
  let inner ← bindFunctions context.env hosts
  let within := if recursive then context.withEnv inner else context
  let stmts ← hosts.mapM fun (definition, host) => do
    let function ← compileLambda compile within definition.lambdaList definition.body
      (some definition.name)
    return Stmt.define host function
  finishBinding compile context { current := stmts } inner body []

/-- `(LOCALLY . body)` -/
def compileLocally (forms : List Value) : Compile Expr := do
  let body ← parseBody forms false
  let env ← applyFreeDeclarations context.env body.declarations []
  compileProgn compile (context.withEnv env) body.forms

/-- Binds macros one by one. Expanders are compiled as units of their own, so none sees the names
that are bound around it. -/
def bindMacros : Environment → List LocalDefinition → Compile Environment
  | env, [] => return env
  | env, definition :: rest => do
      let expander ← makeExpander compile definition.name definition.lambdaList definition.body
      let binding ← newBinding (.ofSymbol definition.name) .functions (.expander expander)
      bindMacros (binding :: env) rest

/-- `(MACROLET definitions . body)` -/
def compileMacrolet (form : Value) (args : List Value) : Compile Expr := do
  expectArgs form args 1 none
  let definitions ← parseDefinitions form (args.headD .nil)
  let env ← bindMacros compile context.env definitions
  compileLocally compile (context.withEnv env) args.tail

end Forms

end LispScript.Compiler
