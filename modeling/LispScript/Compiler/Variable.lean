import LispScript.Compiler.Literal

/-!
References to variables.
-/

namespace LispScript.Compiler

open Script

/-- Constants are `T`, `NIL`, keywords and names defined as constants. -/
def isConstantSymbol (context : Context) (id : SymbolId) : Compile Bool := do
  if id = SymbolId.t || id = SymbolId.nil || (← symbols).isKeyword id then return true
  match ← resolve context (.ofSymbol id) .vars with
  | some binding => return (← declared binding).constant
  | none => return false

/-- Refuses to bind a constant. -/
def checkBindable (context : Context) (id : SymbolId) : Compile Unit := do
  if ← isConstantSymbol context id then throw (.constantBinding (← symbolName id))

/-- Whether a form that binds a variable binds it dynamically: because the form declares it, or
because it is proclaimed special. -/
def bindsSpecial (id : SymbolId) (specials : List SymbolId) : Compile Bool := do
  if specials.contains id then return true
  let bindings := (← get).bindings
  match bindings.getGlobal? id .vars with
  | some binding => return (bindings.declared binding).special
  | none => return false

/-- The meaning of a variable that a form has just bound: its symbol's value slot if it is dynamic,
and otherwise a script variable. -/
def variableBinding (id : SymbolId) (host : String) (special : Bool) : Compile Binding := do
  if special then
    let binding ← newBinding (.ofSymbol id) .vars .slot
    modifyBindings (·.setSpecial binding true)
    return binding
  else newBinding (.ofSymbol id) .vars (.host host)

/-- The script variable that a binding stands for, unless it is dynamic. -/
def hostVariable? (binding : Binding) : Compile (Option String) := do
  match binding.reference with
  | .host name => return if (← declared binding).special then none else some name
  | _ => return none

/-- A symbol as an expression. -/
def compileSymbol (context : Context) (id : SymbolId) : Compile Expr := do
  if id = SymbolId.t || (← symbols).isKeyword id then return ← symbolLiteral id
  match ← resolve context (.symbol id) .vars with
  | none => throw (.unsupportedLiteral (← describe (.symbol id)))
  | some binding => do
      markUsed binding
      match binding.reference with
      | .constant value => literal value
      | _ =>
          match ← hostVariable? binding with
          | some name => return .ident name
          | none => return .callPrimitive .symbolValue [← symbolLiteral id]

/-- The place that an assignment to a variable changes. -/
def variablePlace (context : Context) (id : SymbolId) : Compile Expr := do
  if ← isConstantSymbol context id then throw (.constantAssignment (← symbolName id))
  match ← resolve context (.symbol id) .vars with
  | none => throw (.unsupportedLiteral (← describe (.symbol id)))
  | some binding => do
      markUsed binding
      match ← hostVariable? binding with
      | some name => return .ident name
      | none => return .member (← symbolLiteral id) "value"

end LispScript.Compiler
