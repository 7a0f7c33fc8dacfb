import LispScript.Compiler.Body

/-!
Non-local exits: `BLOCK` and `RETURN-FROM`, `CATCH` and `THROW`, `TAGBODY` and `GO`, and
`UNWIND-PROTECT`. Every exit throws a transfer, which has a kind, the identity of what is left, and
a payload. A handler takes the transfers of its own kind and identity and throws all else again, so
that the forms nest freely.
-/

namespace LispScript.Compiler

open Script

section Signals

/-- The script variable that holds what a handler received. -/
def signal : Expr := .ident "cf"

def signalPayload : Expr := .member signal "payload"

/-- Whether the transfer received is meant for what `target` identifies. -/
def matchesSignal (kind : TransferKind) (target : Expr) : Expr :=
  .binary .and (.binary .strictEq (.member signal "kind") (.string kind.name))
    (.binary .strictEq (.member signal "id") target)

/-- A block that handles the transfers meant for it. -/
def intercept (block : List Stmt) (kind : TransferKind) (target : Expr) (handler : List Stmt) :
    Stmt :=
  .guarded block (.catching "cf" [.branch (matchesSignal kind target) handler [.raise signal]])
    .none

def transferExpr (kind : TransferKind) (target payload label : Expr) : Expr :=
  .callRoutine .transfer [.string kind.name, target, payload, label]

def raiseTransfer (kind : TransferKind) (target payload label : Expr) : Expr :=
  .wrap [.raise (transferExpr kind target payload label)]

end Signals

section Forms

variable (compile : FormCompiler) (context : Context) (form : Value)

section Blocks

/-- The block that a form names. -/
def blockName (name : Value) : Compile SymbolId :=
  match name.asSymbol? with
  | some id => return id
  | none => malformed form "block name must be a symbol"

/-- `(BLOCK name . body)`. A vector made on entry identifies the activation; a block that nothing
returns from needs no handler. -/
def compileBlock (args : List Value) : Compile Expr := do
  match args with
  | [] => malformed form "missing block name"
  | name :: body => do
      let name ← blockName form name
      let token ← onCounters Counters.freshBlock
      let binding ← newBinding (.ofSymbol name) .blocks (.block token context.manyValues)
      let stmts ← compileBody compile (context.withEnv (binding :: context.env)) body
      if !(← declared binding).used then return statementsExpr stmts
      let result := if context.manyValues then
          .callRoutine .deliverValues [.ident "values", signalPayload]
        else signalPayload
      return .wrap [.define token (.array []),
        intercept stmts .block (.ident token) [.ret result]]

/-- `(RETURN-FROM name [value])` -/
def compileReturnFrom (args : List Value) : Compile Expr := do
  if args.isEmpty || 2 < args.length then
    malformed form "expected a block name and an optional value"
  let name ← blockName form (args.headD .nil)
  match context.env.lookup? (.ofSymbol name) .blocks with
  | none => throw (.unknownBlock (← symbolName name))
  | some binding => do
      markUsed binding
      match binding.reference with
      | .block token manyValues => do
          let value := args.tail.headD .nil
          let payload ← if manyValues then compileBundle compile context value
            else compileSingle compile context value
          return raiseTransfer .block (.ident token) payload (.string (← symbolName name))
      | _ => throw (.unknownBlock (← symbolName name))

end Blocks

section Catches

/-- `(CATCH tag . body)`; the tag is computed when the code runs. -/
def compileCatch (args : List Value) : Compile Expr := do
  match args with
  | [] => malformed form "missing catch tag"
  | tag :: body => do
      let host ← freshVariable "tag"
      let tag ← compileSingle compile context tag
      let stmts ← compileBody compile context body
      let result := Expr.callRoutine .deliverValues [context.acceptor, signalPayload]
      return .wrap [.define host tag, intercept stmts .catching (.ident host) [.ret result]]

/-- `(THROW tag result)` -/
def compileThrow (args : List Value) : Compile Expr := do
  match args with
  | [tag, result] => do
      let host ← freshVariable "tag"
      let tag ← compileSingle compile context tag
      let bundle ← compileBundle compile context result
      return .wrap [.define host tag,
        .raise (transferExpr .catching (.ident host) bundle (.ident host))]
  | _ => malformed form "expected a tag and a result form"

end Catches

section Tagbodies

/-- Whether an item of a tagbody is a tag; a list is a form, and anything else is refused. -/
def isTag (item : Value) : Compile Bool := do
  match item with
  | .symbol _ | .nil | .number _ => return true
  | .cons _ => return false
  | _ => malformed form ((← describe item) ++ " is not a valid tag")

/-- The forms up to the first tag, and each tag with the forms up to the next one. -/
def splitAtTags : List (Value × Bool) → List Value × List (Value × List Value)
  | [] => ([], [])
  | (item, isTag) :: rest =>
      let (forms, segments) := splitAtTags rest
      if isTag then ([], (item, forms) :: segments) else (item :: forms, segments)

/-- The bindings of the tags, in order. -/
def bindTags (token : String) : List Value → Compile (List (Nat × Binding))
  | [] => return []
  | tag :: rest => do
      let label ← onCounters Counters.freshTag
      let binding ← newBinding tag .tags (.tag token label)
      return (label, binding) :: (← bindTags token rest)

def labelExpr (label : Nat) : Expr := .number (Float.ofNat label)

/-- A tagbody with tags: a loop around a switch on the label to go on from. Control falls from case
to case; a `GO` brings the label of its tag to the loop's handler, and the loop goes round. -/
def compileTagged (leading : List Value) (segments : List (Value × List Value)) :
    Compile Expr := do
  let (token, loopLabel) ← onCounters Counters.freshTagbody
  let start ← if leading.isEmpty then pure [] else do
    pure [← onCounters Counters.freshTag]
  let tags ← bindTags token (segments.map Prod.fst)
  let inner := context.withEnv ((tags.map Prod.snd).reverse ++ context.env)
  let sections := if leading.isEmpty then segments.map Prod.snd
    else leading :: segments.map Prod.snd
  let labels := start ++ tags.map Prod.fst
  let bodies ← sections.mapM fun forms => do
    return (← compileArgs compile inner forms).map Stmt.effect
  let isUsed ← tags.anyM fun (_, binding) => do return (← declared binding).used
  if !isUsed then return statementsExpr (bodies.flatten ++ [.ret .nil])
  let branch ← freshVariable "branch"
  let cases := (labels.zip bodies).map fun (label, body) => Case.case (labelExpr label) body
  let turn := intercept [.select (.ident branch) cases, .leave (some loopLabel)]
    .tagbody (.ident token) [.effect (.assign (.ident branch) signalPayload)]
  return .wrap [.define token (.array []), .define branch (labelExpr (labels.headD 0)),
    .loop (some loopLabel) (.bool true) [turn], .ret .nil]

/-- `(TAGBODY {tag | form}*)` -/
def compileTagbody (args : List Value) : Compile Expr := do
  let items ← args.mapM fun item => do return (item, ← isTag form item)
  match splitAtTags items with
  | (_, []) => compileProgn compile context (args ++ [.nil])
  | (leading, segments) => compileTagged compile context leading segments

/-- `(GO tag)` -/
def compileGo (args : List Value) : Compile Expr := do
  match args with
  | [tag] =>
      match context.env.lookup? tag .tags with
      | none => throw (.unknownTag (← describe tag))
      | some binding => do
          markUsed binding
          match binding.reference with
          | .tag token label =>
              return raiseTransfer .tagbody (.ident token) (labelExpr label)
                (.string (← describe tag))
          | _ => throw (.unknownTag (← describe tag))
  | _ => malformed form "expected exactly one tag"

end Tagbodies

/-- `(UNWIND-PROTECT protected . cleanup)` -/
def compileUnwindProtect (args : List Value) : Compile Expr := do
  match args with
  | [] => malformed form "missing protected form"
  | guardedForm :: cleanup => do
      let value ← compile context guardedForm
      if cleanup.isEmpty then return value
      let effects ← compileEffects compile context cleanup
      return .wrap [.guarded [.ret value] .none (.always (effects.map .effect))]

end Forms

end LispScript.Compiler
