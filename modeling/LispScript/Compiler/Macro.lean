import LispScript.Compiler.Destructuring
import LispScript.Compiler.Unit

/-!
Macros. The expander of a macro is a compiled function of the whole form and of its arguments.
-/

namespace LispScript.Compiler

open Script

/-- The function of a lowered lambda list, with the variable for the whole form before it. -/
def expanderOf (compile : FormCompiler) (name whole : SymbolId) (lowered : Lowered) :
    Compile Value := do
  let list ← newCons (.ofSymbol whole) lowered.list
  let lambda ← newListWithTail [.symbol SymbolId.namedLambda, .ofSymbol name, list]
    (← newList lowered.body)
  match ← evalNow compile (← newList [.symbol SymbolId.function, lambda]) with
  | .function address => return .function address
  | other => do
      let value ← describe other
      throw (.macroExpansion (← symbolName name) (.notFunction value))

/-- The function that expands calls of a macro. -/
def makeExpander (compile : FormCompiler) (name : SymbolId) (lambdaList : Value)
    (body : List Value) : Compile Value := do
  let lowered ← lowerLambdaList lambdaList body
  let whole ← match lowered.whole with
    | some var => pure var
    | none => onSymbols (·.gensym "WHOLE")
  expanderOf compile name whole lowered

/-- The expansion of a form by the given expander. -/
def callExpander (name : SymbolId) (expander form : Value) : Compile Value := do
  match ← restItems? form with
  | none => malformed form "dotted argument list"
  | some args => do
      let acceptor := Value.function (Image.nativeAddress (.routine .primaryValue))
      let name ← symbolName name
      onMachine (Machine.call expander (acceptor :: form :: args)) fun cause =>
        .macroExpansion name (.failed cause)

/-- The macro that a form calls, and its expander. -/
def macroOf? (context : Context) (form : Value) : Compile (Option (SymbolId × Value)) := do
  match ← carOf? form with
  | none => return none
  | some head =>
      match head.asSymbol? with
      | none => return none
      | some id =>
          if (SpecialForm.ofSymbol? id).isSome then return none
          match ← resolve context head .functions with
          | some { reference := .expander function, .. } => return some (id, function)
          | _ => return none

/-- One step of expansion, or nothing for a form that is no call of a macro. -/
def expandOnce? (context : Context) (form : Value) : Compile (Option Value) := do
  match ← macroOf? context form with
  | some (name, expander) => some <$> callExpander name expander form
  | none => return none

/-- Expands at most so many times; with the result, whether anything was expanded. -/
def expandWithin (context : Context) : Nat → Bool → Value → Compile (Value × Bool)
  | 0, _, _ => throw .outOfSteps
  | steps + 1, expanded, form => do
      match ← expandOnce? context form with
      | some expansion => expandWithin context steps true expansion
      | none => return (form, expanded)

end LispScript.Compiler
