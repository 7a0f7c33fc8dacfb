import LispScript.Compiler.Environment
import LispScript.Compiler.Names
import LispScript.Machine.Basic

/-!
The compiler's state, its errors, and the steps that every part of it shares. A compilation that
fails keeps the names it used up, the symbols it interned and the definitions it made.
-/

namespace LispScript

/-- Why a macro gives no expansion: its expander is none, or the run of it failed. -/
inductive ExpansionFailure where
  | notFunction (value : String)
  | failed (cause : RuntimeError)
deriving DecidableEq, Repr

def ExpansionFailure.message : ExpansionFailure → String
  | notFunction value => "expander evaluated to " ++ value
  | failed cause => cause.message

/-- Why a form cannot be compiled. The texts were printed when the error arose. -/
inductive CompileError where
  | malformed (form reason : String)
  | illegalCall (form : String)
  | badFunctionName (designator : String)
  | unknownBlock (name : String)
  | unknownTag (tag : String)
  | lambdaList (list reason : String)
  | unsupportedLiteral (value : String)
  | constantAssignment (name : String)
  | constantBinding (name : String)
  | strayUnquote (form : String)
  | spliceOutsideList (form : String)
  | macroExpansion (name : String) (cause : ExpansionFailure)
  | compileTimeEval (cause : RuntimeError)
  | outOfSteps
deriving DecidableEq, Repr

def CompileError.message : CompileError → String
  | malformed form reason => "malformed " ++ form ++ ": " ++ reason
  | illegalCall form => "illegal function call: " ++ form
  | badFunctionName designator => "not a function name: " ++ designator
  | unknownBlock name => "return from unknown block: " ++ name
  | unknownTag tag => "attempt to GO to nonexistent tag: " ++ tag
  | lambdaList list reason => "malformed lambda list " ++ list ++ ": " ++ reason
  | unsupportedLiteral value => "cannot compile literal " ++ value
  | constantAssignment name => name ++ " is a constant and cannot be assigned"
  | constantBinding name => name ++ " is a constant and cannot be bound"
  | strayUnquote form => "comma not inside a backquote: " ++ form
  | spliceOutsideList form => ",@ after backquote in " ++ form
  | macroExpansion name cause => "error while expanding macro " ++ name ++ ": " ++ cause.message
  | compileTimeEval cause => "error during compile-time evaluation: " ++ cause.message
  | outOfSteps => "out of steps"

namespace Compiler

/-- What makes two literals of a unit the same: the symbol, the character, or the object. -/
inductive LiteralKey where
  | symbol (id : SymbolId)
  | character (c : Char)
  | cons (address : Address)
  | vector (address : Address)
deriving DecidableEq, Repr

/-- The key as one number. -/
def LiteralKey.code : LiteralKey → Nat
  | symbol id => 4 * id.index
  | character c => 4 * c.toNat + 1
  | cons address => 4 * address + 2
  | vector address => 4 * address + 3

theorem LiteralKey.code_inj {key other : LiteralKey} : key.code = other.code ↔ key = other := by
  have injective : key.code = other.code → key = other := by
    cases key <;> cases other <;> simp only [code] <;> intro equal <;> try omega
    case symbol.symbol id jd =>
      obtain ⟨n⟩ := id
      obtain ⟨m⟩ := jd
      simp only at equal
      rw [show n = m by omega]
    case character.character c d =>
      rw [Char.toNat_inj.mp (by omega : c.toNat = d.toNat)]
    case cons.cons a b =>
      rw [Nat.eq_of_mul_eq_mul_left (by decide) (Nat.add_right_cancel equal)]
    case vector.vector a b =>
      rw [Nat.eq_of_mul_eq_mul_left (by decide) (Nat.add_right_cancel equal)]
  exact ⟨injective, congrArg code⟩

/-- The literals of the unit under compilation and the statements that make them. -/
structure Literals where
  /-- The names, by the codes of the keys. -/
  names : Std.TreeMap Nat String compare := {}
  initializers : Array Script.Stmt := #[]
deriving Inhabited

/-- Where a form stands: what its names mean, and whether all its values are wanted. -/
structure Context where
  env : Environment := []
  manyValues : Bool := true

namespace Context

/-- The same place, wanting one value. -/
def single (context : Context) : Context := { context with manyValues := false }

def many (context : Context) : Context := { context with manyValues := true }

def withEnv (context : Context) (env : Environment) : Context := { context with env }

/-- What a callee is given to hand its values to. -/
def acceptor (context : Context) : Script.Expr :=
  if context.manyValues then .ident "values" else .routine .primaryValue

end Context

end Compiler

structure CompileState where
  image : Image
  counters : Compiler.Counters := {}
  bindings : Compiler.Bindings := .initial
  literals : Compiler.Literals := {}
deriving Inhabited

/-- Steps of the compiler. -/
abbrev Compile := EStateM CompileError CompileState

namespace Compiler

open Script

section State

/-- Counts on. A counter that stands at the largest machine word has no new name to give, which
takes more steps than any session has. -/
def onCounters (f : Counters → α × Counters) : Compile α := fun s =>
  let (a, counters) := f s.counters
  if counters = s.counters then .error .outOfSteps s else .ok a { s with counters }

def onBindings (f : Bindings → α × Bindings) : Compile α := fun s =>
  let (a, bindings) := f s.bindings
  .ok a { s with bindings }

def modifyBindings (f : Bindings → Bindings) : Compile Unit :=
  modify fun s => { s with bindings := f s.bindings }

def onSymbols (f : SymbolTable → α × SymbolTable) : Compile α := fun s =>
  let (a, symbols) := f s.image.symbols
  .ok a { s with image := { s.image with symbols } }

def onHeap (f : Heap → α × Heap) : Compile α := fun s =>
  let (a, heap) := f s.image.heap
  .ok a { s with image := { s.image with heap } }

def heap : Compile Heap := fun s => .ok s.image.heap s

def symbols : Compile SymbolTable := fun s => .ok s.image.symbols s

def describe (value : Value) : Compile String := fun s => .ok (s.image.print value) s

def symbolName (id : SymbolId) : Compile String := fun s => .ok (s.image.symbols.symbolName id) s

end State

section Failure

def malformed (form : Value) (reason : String) : Compile α := do
  throw (.malformed (← describe form) reason)

/-- Refuses a form unless its number of arguments is within the limits. -/
def expectArgs (form : Value) (args : List Value) (min : Nat) (max : Option Nat) :
    Compile Unit := do
  let accepted := min ≤ args.length && match max with
    | some max => args.length ≤ max
    | none => true
  if !accepted then
    let expected := match max with
      | some max =>
          if max = min then "exactly " ++ toString min ++ " argument(s)"
          else toString min ++ " to " ++ toString max ++ " arguments"
      | none => "at least " ++ toString min ++ " argument(s)"
    malformed form ("expected " ++ expected)

/-- The symbol that a part of a form is. -/
def symbolArg (form value : Value) (what : String) : Compile SymbolId :=
  match value.asSymbol? with
  | some id => return id
  | none => malformed form (what ++ " must be a symbol")

/-- The elements of a part of a form that is a proper list. -/
def listArg (form value : Value) (what : String) : Compile (List Value) := do
  match (← heap).listItems? value with
  | some items => return items
  | none => malformed form (what ++ " must be a proper list")

end Failure

section Data

def carOf? (value : Value) : Compile (Option Value) := do
  match value with
  | .cons address => return some ((← heap).cell address).car
  | _ => return none

/-- The elements of what follows the first one, when that is a proper list. -/
def restItems? (value : Value) : Compile (Option (List Value)) := do
  match value with
  | .cons address => do
      let heap ← heap
      return heap.listItems? (heap.cell address).cdr
  | _ => return none

def newCons (car cdr : Value) : Compile Value := onHeap (·.allocCell car cdr)

def newList (items : List Value) : Compile Value := onHeap (·.allocList items)

def newListWithTail (items : List Value) (tail : Value) : Compile Value :=
  onHeap (·.allocListWithTail items tail)

end Data

section Names

def freshVariable (hint : String) : Compile String := onCounters (·.freshVariable hint)

/-- A script variable named after a symbol. -/
def freshVariableFor (id : SymbolId) : Compile String := do freshVariable (← symbolName id)

end Names

section Bindings

def declared (binding : Binding) : Compile Declarations := fun s =>
  .ok (s.bindings.declared binding) s

def markUsed (binding : Binding) : Compile Unit := modifyBindings (·.markUsed binding)

def newBinding (name : Value) (space : Namespace) (reference : Reference) : Compile Binding :=
  onBindings (·.bind name space reference)

def resolve (context : Context) (name : Value) (space : Namespace) : Compile (Option Binding) :=
  onBindings (·.resolve context.env name space)

end Bindings

/-- Compiles forms in place. Every part of the compiler is given this one to compile subforms
with. -/
abbrev FormCompiler := Context → Value → Compile Expr

section Subforms

variable (compile : FormCompiler) (context : Context)

def compileSingle (form : Value) : Compile Expr := compile context.single form

def compileArgs (args : List Value) : Compile (List Expr) := args.mapM (compile context.single)

/-- An expression whose value always carries all values of the form: `values` is bound anew to the
routine that packs them. -/
def compileBundle (form : Value) : Compile Expr := do
  let value ← compile context.many form
  return .wrap [.define "values" (.routine .packValues), .ret value]

/-- A call in the Lisp convention. -/
def compileCall (callee : Expr) (args : List Value) : Compile Expr := do
  return .call callee (context.acceptor :: (← compileArgs compile context args))

end Subforms

/-- A test of Lisp truth where a script wants its own. -/
def truthTest (value : Expr) : Expr := .binary .strictNe value .nil

/-- Statements as an expression; a lone `return` needs no wrapping. -/
def statementsExpr : List Stmt → Expr
  | [.ret value] => value
  | stmts => .wrap stmts

end Compiler

end LispScript
