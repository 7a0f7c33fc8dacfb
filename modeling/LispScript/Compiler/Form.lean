import LispScript.Compiler.Assignment
import LispScript.Compiler.Binding
import LispScript.Compiler.Definition
import LispScript.Compiler.Exit
import LispScript.Compiler.Inline
import LispScript.Compiler.ManyValues
import LispScript.Compiler.Quasiquote

/-!
Forms. What a form means depends on what stands at its head: a lambda expression, a special form, a
macro, or a function. Since macros can expand into ever larger forms, compilation is bounded by a
number of steps.
-/

namespace LispScript.Compiler

open Script

section Steps

variable (compile : FormCompiler) (context : Context)

def compileSpecial (special : SpecialForm) (form : Value) (args : List Value) : Compile Expr :=
  match special with
  | .quote => compileQuote form args
  | .function => compileFunction compile context form args
  | .conditional => compileIf compile context form args
  | .progn => compileProgn compile context args
  | .setq => compileSetq compile context form args
  | .bind => compileLet compile context form args
  | .bindInOrder => compileLetStar compile context form args
  | .flet => compileLocalFunctions compile context false form args
  | .labels => compileLocalFunctions compile context true form args
  | .macrolet => compileMacrolet compile context form args
  | .locally => compileLocally compile context args
  | .typed => compileThe compile context form args
  | .evalWhen => compileEvalWhen compile context form args
  | .declaim => compileDeclaim form args
  | .macroDefinition => compileDefmacro compile form args
  | .constantDefinition => compileDefconstant compile form args
  | .backquote => do
      expectArgs form args 1 (some 1)
      compile context (← expandBackquote (args.headD .nil))
  | .unquote | .unquoteSplicing => do throw (.strayUnquote (← describe form))
  | .multipleValueCall => compileMultipleValueCall compile context form args
  | .multipleValueProg1 => compileMultipleValueProg1 compile context form args
  | .block => compileBlock compile context form args
  | .returnFrom => compileReturnFrom compile context form args
  | .catching => compileCatch compile context form args
  | .throwing => compileThrow compile context form args
  | .tagbody => compileTagbody compile context form args
  | .go => compileGo context form args
  | .unwindProtect => compileUnwindProtect compile context form args

/-- The built-in function that a call with so many arguments can be replaced by. -/
def inlinable? (binding : Binding) (id : SymbolId) (count : Nat) : Compile (Option Primitive) := do
  if (← declared binding).notInline then return none
  return (Primitive.ofSymbol? id).filter (·.arity.accepts count)

/-- A form whose head is a symbol. -/
def compileNamed (form : Value) (id : SymbolId) (args : List Value) : Compile Expr := do
  if id = SymbolId.lambda then return ← functionReference compile context form
  if let some special := SpecialForm.ofSymbol? id then
    return ← compileSpecial compile context special form args
  match ← resolve context (.symbol id) .functions with
  | none => throw (.illegalCall (← describe form))
  | some binding => do
      markUsed binding
      match binding.reference with
      | .expander function => do compile context (← callExpander id function form)
      | .host name => compileCall compile context (.ident name) args
      | .slot =>
          match ← inlinable? binding id args.length with
          | some p => return inlineCall p (← compileArgs compile context args) context.acceptor
          | none => do compileCall compile context (← globalFunction id) args
      | _ => throw (.illegalCall (← describe form))

/-- A form that is a list. -/
def compileCompound (form head : Value) : Compile Expr := do
  match ← restItems? form with
  | none => malformed form "dotted argument list"
  | some args =>
      match head with
      | .symbol id => compileNamed compile context form id args
      | _ =>
          if ← isLambdaExpression head then do
            compileCall compile context (← functionReference compile context head) args
          else throw (.illegalCall (← describe form))

/-- One step: the parts of the form are compiled by `compile`. -/
def compileStep (form : Value) : Compile Expr := do
  match form with
  | .symbol id => compileSymbol context id
  | .cons address => do compileCompound compile context form ((← heap).cell address).car
  | other => literal other

end Steps

/-- Compiles forms, looking into them down to the given depth. -/
def compileWithin : Nat → FormCompiler
  | 0, _, _ => throw .outOfSteps
  | depth + 1, context, form => compileStep (compileWithin depth) context form

/-- A depth that no form reaches. -/
def ampleDepth : Nat := Nat.pow 2 60

def compile : FormCompiler := compileWithin ampleDepth

/-- A form as a program of its own. -/
def compileUnit (form : Value) : Compile Program := compileToplevel compile form

/-- Expands a form until it calls no macro. -/
def expand (context : Context) (form : Value) : Compile (Value × Bool) :=
  expandWithin context ampleDepth false form

end LispScript.Compiler
