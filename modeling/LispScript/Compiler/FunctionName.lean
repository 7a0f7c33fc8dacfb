import LispScript.Compiler.Lambda

/-!
Functions that a form names: a symbol that is bound as a function, or a lambda expression.
-/

namespace LispScript.Compiler

open Script

/-- The function that a symbol holds when the code runs. -/
def globalFunction (id : SymbolId) : Compile Expr := do
  return .callPrimitive .symbolFunction [← symbolLiteral id]

/-- Whether a form is a list that starts with `LAMBDA` or `NAMED-LAMBDA`. -/
def isLambdaExpression (form : Value) : Compile Bool := do
  match (← carOf? form).bind Value.asSymbol? with
  | some id => return id = SymbolId.lambda || id = SymbolId.namedLambda
  | none => return false

def badFunctionName (designator : Value) : Compile α := do
  throw (.badFunctionName (← describe designator))

/-- The function that a name means, unless it names no function or a macro. -/
def namedFunction (context : Context) (designator : Value) (id : SymbolId) : Compile Expr := do
  match ← resolve context designator .functions with
  | none => badFunctionName designator
  | some binding => do
      markUsed binding
      match binding.reference with
      | .host name => return .ident name
      | .slot => globalFunction id
      | _ => badFunctionName designator

section Lambda

variable (compile : FormCompiler) (context : Context)

/-- The lambda list and the body after what names a lambda expression. -/
def compileLambdaParts (designator : Value) (name : Option SymbolId) : List Value → Compile Expr
  | lambdaList :: body => compileLambda compile context lambdaList body name
  | [] => malformed designator "missing lambda list"

/-- `(LAMBDA list . body)` or `(NAMED-LAMBDA name list . body)` -/
def compileLambdaExpression (designator : Value) : Compile Expr := do
  match (← heap).listItems? designator with
  | none => malformed designator "dotted lambda expression"
  | some items =>
      if items.head?.bind Value.asSymbol? = some SymbolId.namedLambda then
        match items.tail.head?.bind Value.asSymbol? with
        | some name =>
            compileLambdaParts compile context designator (some name) (items.drop 2)
        | none => malformed designator "NAMED-LAMBDA needs a symbol name"
      else compileLambdaParts compile context designator none (items.drop 1)

/-- The function that a form designates. -/
def functionReference (designator : Value) : Compile Expr := do
  match designator with
  | .symbol id => namedFunction context designator id
  | .cons _ =>
      if ← isLambdaExpression designator then compileLambdaExpression compile context designator
      else badFunctionName designator
  | _ => badFunctionName designator

end Lambda

end LispScript.Compiler
