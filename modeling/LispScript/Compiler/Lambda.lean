import LispScript.Compiler.Body
import LispScript.Compiler.DynamicBinding
import LispScript.Compiler.LambdaList
import LispScript.Compiler.Variable

/-!
Functions. Every compiled function takes the acceptor of its caller before the arguments proper; the
statements at its head check the arguments and distribute them over the parameters.
-/

namespace LispScript.Compiler

open Script

/-- The environment and the statements of a function's head, as far as they are built. -/
structure Head where
  env : Environment
  prologue : Prologue := {}

section Pieces

def countLiteral (n : Nat) : Expr := .number (Float.ofNat n)

def argumentsLength : Expr := .member (.ident "arguments") "length"

/-- The number of arguments proper. -/
def argumentCount : Expr := .binary .sub argumentsLength (countLiteral 1)

def argumentAt (position : Expr) : Expr := .index (.ident "arguments") position

def assignVar (name : String) (value : Expr) : Expr := .assign (.ident name) value

def assignStmt (name : String) (value : Expr) : Stmt := .effect (assignVar name value)

/-- Checks the number of arguments. -/
def arityChecks (list : LambdaList) : List Stmt :=
  let required := list.required.length
  let optional := list.optional.length
  let check (r : Routine) (n : Nat) : Stmt :=
    .effect (.callRoutine r [argumentCount, countLiteral n])
  if optional = 0 && !list.isVariadic then [check .checkArgs required]
  else (if 0 < required then [check .checkArgsAtLeast required] else []) ++
    (if list.isVariadic then [] else [check .checkArgsAtMost (required + optional)])

/-- Looks at every second argument from a position on. -/
def scanPairs (index : String) (first : Nat) (body : List Stmt) : Stmt :=
  .iterate (assignVar index (countLiteral first))
    (.binary .lt (.ident index) argumentsLength)
    (assignVar index (.binary .add (.ident index) (countLiteral 2)))
    body

/-- The argument after the one at hand. -/
def pairedArgument (index : String) : Expr :=
  argumentAt (.binary .add (.ident index) (countLiteral 1))

/-- Collects the arguments from a position on into a list, from the last to the first. -/
def collectRest (host index : String) (first : Nat) : List Stmt :=
  [.define host .nil, .declare index,
    .iterate (assignVar index argumentCount)
      (.binary .ge (.ident index) (countLiteral first))
      (assignVar index (.binary .sub (.ident index) (countLiteral 1)))
      [assignStmt host (.callPrimitive .cons [argumentAt (.ident index), .ident host])]]

/-- Complains unless the arguments from a position on come in pairs. -/
def pairCheck (first : Nat) : Stmt :=
  let extra := Expr.binary .sub argumentsLength (countLiteral first)
  .branch (.binary .gt extra (countLiteral 0))
    [.effect (.callRoutine .checkKeywordPairs [extra])] []

/-- Complains about a keyword that is not among the ones given, unless the call waives it by a true
value for the keyword `allowKey`. -/
def unknownKeyCheck (index allow : String) (first : Nat) (known : List Expr) (allowKey : Expr) :
    List Stmt :=
  let current := argumentAt (.ident index)
  let differs := (known ++ [allowKey]).map fun key => Expr.binary .strictNe current key
  let unknown := match differs with
    | [] => .bool true
    | test :: tests => tests.foldl (Expr.binary .and) test
  let unwaived := Expr.binary .or (.binary .strictEq (.ident allow) .undefined)
    (.binary .strictEq (.ident allow) .nil)
  [.declare allow,
    scanPairs index first [.branch (.binary .strictEq current allowKey)
      [assignStmt allow (pairedArgument index), .leave none] []],
    .branch unwaived [scanPairs index first [.branch unknown
      [.effect (.callRoutine .unknownKeyword [current])] []]] []]

end Pieces

section Parameters

variable (compile : FormCompiler) (context : Context) (specials : List SymbolId)

def Head.add (head : Head) (stmts : List Stmt) : Head :=
  { head with prologue := head.prologue.add stmts }

/-- Binds a parameter whose value is in a script variable. -/
def bindParameter (head : Head) (var : SymbolId) (host : String) : Compile Head := do
  let special ← bindsSpecial var specials
  let prologue ← if special then head.prologue.bindSpecial var (.ident host) else pure head.prologue
  let binding ← variableBinding var host special
  return { env := binding :: head.env, prologue }

/-- The script parameters for required parameters. -/
def bindRequired : Head → List SymbolId → Compile (Head × List String)
  | head, [] => return (head, [])
  | head, var :: vars => do
      let host ← freshVariableFor var
      let head ← bindParameter specials head var host
      let (head, hosts) ← bindRequired head vars
      return (head, host :: hosts)

/-- The script parameters for optional parameters, and the variables that tell which of them were
given. -/
def bindSupplied : Head → Nat → List OptionalParam → Compile (Head × List String)
  | head, _, [] => return (head, [])
  | head, position, param :: params => do
      let host ← freshVariableFor param.var
      let head ← match param.supplied with
        | none => pure head
        | some supplied => do
            let flag ← freshVariableFor supplied
            let given := Expr.binary .gt argumentCount (countLiteral position)
            bindParameter specials (head.add [.define flag (.cond given .t .nil)]) supplied flag
      let (head, hosts) ← bindSupplied head (position + 1) params
      return (head, host :: hosts)

/-- Gives missing optional parameters their defaults one by one, each bound before the next default
is computed. -/
def bindDefaultsInOrder : Head → Nat → List (OptionalParam × String) → Compile Head
  | head, _, [] => return head
  | head, position, (param, host) :: params => do
      let default ← compileSingle compile (context.withEnv head.env) param.default
      let missing := Expr.binary .le argumentCount (countLiteral position)
      let head := head.add [.branch missing [assignStmt host default] []]
      bindDefaultsInOrder (← bindParameter specials head param.var host) (position + 1) params

/-- The cases of a switch on the number of arguments, which fall through from the first missing
optional parameter to the last. -/
def defaultCases : Environment → Nat → List (OptionalParam × String) →
    Compile (Environment × List Case)
  | env, _, [] => return (env, [])
  | env, position, (param, host) :: params => do
      let default ← compileSingle compile (context.withEnv env) param.default
      let binding ← variableBinding param.var host false
      let (env, cases) ← defaultCases (binding :: env) (position + 1) params
      return (env, .case (countLiteral position) [assignStmt host default] :: cases)

/-- The defaults of optional parameters. They are given in order where one of the parameters is
dynamic. -/
def bindDefaults (head : Head) (position : Nat) (params : List (OptionalParam × String)) :
    Compile Head := do
  if ← params.anyM fun (param, _) => bindsSpecial param.var specials then
    bindDefaultsInOrder compile context specials head position params
  else if params.isEmpty then return head
  else
    let (env, cases) ← defaultCases compile context head.env position params
    return { head.add [.select argumentCount cases] with env }

def bindRest (head : Head) (first : Nat) (rest : SymbolId) : Compile Head := do
  let host ← freshVariableFor rest
  let index ← freshVariable "i"
  bindParameter specials (head.add (collectRest host index first)) rest host

/-- Keyword parameters, the leftmost argument for a keyword counting; with them, the expressions of
the keywords. -/
def bindKeys (index : String) (first : Nat) : Head → List KeyParam → Compile (Head × List Expr)
  | head, [] => return (head, [])
  | head, param :: params => do
      let host ← freshVariableFor param.var
      let keyword ← symbolLiteral param.keyword
      let flag? ← param.supplied.mapM fun supplied => do
        return (supplied, ← freshVariableFor supplied)
      let flagDefined := flag?.toList.map fun (_, flag) => Stmt.define flag .nil
      let flagSet := flag?.toList.map fun (_, flag) => assignStmt flag .t
      let found := [assignStmt host (pairedArgument index)] ++ flagSet ++ [.leave none]
      let search := scanPairs index first
        [.branch (.binary .strictEq (argumentAt (.ident index)) keyword) found []]
      let default ← compileSingle compile (context.withEnv head.env) param.default
      let head := head.add ([.declare host] ++ flagDefined ++ [search,
        .branch (.binary .strictEq (.ident host) .undefined) [assignStmt host default] []])
      let head ← match flag? with
        | some (supplied, flag) => bindParameter specials head supplied flag
        | none => pure head
      let head ← bindParameter specials head param.var host
      let (head, keywords) ← bindKeys index first head params
      return (head, keyword :: keywords)

/-- The whole section of keyword parameters. -/
def bindKeySection (head : Head) (list : LambdaList) (first : Nat) : Compile Head := do
  let index ← freshVariable "i"
  let head := head.add [.declare index, pairCheck first]
  let (head, keywords) ← bindKeys compile context specials index first head list.keys
  if list.allowOtherKeys then return head
  let allowKey ← symbolLiteral SymbolId.allowOtherKeysKey
  let allow ← freshVariable "allow"
  return head.add (unknownKeyCheck index allow first keywords allowKey)

/-- All parameters, and the names of the script parameters after the acceptor. -/
def bindParameters (list : LambdaList) : Compile (Head × List String) := do
  let required := list.required.length
  let optional := list.optional.length
  let head : Head := { env := context.env, prologue := { current := arityChecks list } }
  let (head, requiredHosts) ← bindRequired specials head list.required
  let (head, optionalHosts) ← bindSupplied specials head required list.optional
  let head ← bindDefaults compile context specials head required (list.optional.zip optionalHosts)
  let first := required + optional + 1
  let head ← match list.rest with
    | some rest => bindRest specials head first rest
    | none => pure head
  let head ← if list.hasKeys then bindKeySection compile context specials head list first
    else pure head
  return (head, requiredHosts ++ optionalHosts)

end Parameters

section Functions

variable (compile : FormCompiler) (context : Context)

/-- A function that sets properties of a new function before it is used. -/
def withProperties (function : Expr) (properties : List (String × String)) : Compile Expr := do
  if properties.isEmpty then return function
  let f ← freshVariable "f"
  let setup := properties.map fun (property, text) =>
    Stmt.effect (.assign (.member (.ident f) property) (.string text))
  return .inPlace [f] [function] (setup ++ [.ret (.ident f)])

/-- A lambda expression. One with a name gets a block of that name around its body and keeps the
name as a property. -/
def compileLambda (lambdaList : Value) (body : List Value) (name : Option SymbolId) :
    Compile Expr := do
  let list ← parseLambdaList lambdaList
  let body ← parseBody body true
  list.boundVars.forM (checkBindable context)
  let forms ← match name with
    | some name => do
        let forms ← newList body.forms
        pure [← newListWithTail [.symbol SpecialForm.block.symbol, .ofSymbol name] forms]
    | none => pure body.forms
  let (head, hosts) ← bindParameters compile context body.declarations.specials list
  let env ← applyFreeDeclarations head.env body.declarations list.boundVars
  let stmts ← compileBody compile { env, manyValues := true } forms
  let function := Expr.function ("values" :: hosts) (head.prologue.finish stmts)
  let fname ← name.mapM symbolName
  withProperties function (fname.toList.map (("fname", ·)) ++
    body.docstring.toList.map (("docstring", ·)))

end Functions

end LispScript.Compiler
