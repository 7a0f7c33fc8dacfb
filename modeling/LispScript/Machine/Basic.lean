import LispScript.Printer

/-!
The machine that runs scripts: how a run can end, and the steps that every part of it shares. A run
that fails keeps all that it changed.
-/

namespace LispScript

/-- Failures that no script can intercept. The texts in them were printed when the failure arose. -/
inductive RuntimeError where
  | unboundVariable (name : String)
  | undefinedFunction (name : String)
  | arity (expected : String) (got : Nat)
  | oddKeywords
  | unknownKeyword (keyword : String)
  | notAFunction (value : String)
  | typeError (value expected : String)
  | unmatchedTransfer (kind : TransferKind) (label : String)
  | uncaught (value : String)
  | signal (text : String)
  | stackExhausted (depth : Nat)
  | host (text : String)
deriving DecidableEq, Repr

def RuntimeError.message : RuntimeError → String
  | unboundVariable name => "the variable " ++ name ++ " is unbound"
  | undefinedFunction name => "the function " ++ name ++ " is undefined"
  | arity expected got =>
      "invalid number of arguments: " ++ toString got ++ " (expected " ++ expected ++ ")"
  | oddKeywords => "odd number of &KEY arguments"
  | unknownKeyword keyword => "unknown &KEY argument: " ++ keyword
  | notAFunction value => value ++ " is not a function"
  | typeError value expected => "the value " ++ value ++ " is not of type " ++ expected
  | unmatchedTransfer kind label =>
      "attempt to " ++ kind.name ++ " to " ++ label ++ ", which is no longer active"
  | uncaught value => "uncaught host exception: " ++ value
  | signal text => text
  | stackExhausted depth => "control stack exhausted (depth " ++ toString depth ++ ")"
  | host text => "host error: " ++ text

/-- What ends a run early: a thrown value, which handlers receive, a failure, which only cleanups
see, or the end of the steps that the run was given. -/
inductive Interrupt where
  | thrown (value : Value)
  | failed (error : RuntimeError)
  | outOfSteps
deriving Repr

/-- Runs of the machine. -/
abbrev Run := EStateM Interrupt Image

namespace Run

def fail (error : RuntimeError) : Run α := throw (.failed error)

def symbols : Run SymbolTable := fun image => .ok image.symbols image

def heap : Run Heap := fun image => .ok image.heap image

/-- A change of the symbol table. -/
def onSymbols (f : SymbolTable → α × SymbolTable) : Run α := fun image =>
  let (a, symbols) := f image.symbols
  .ok a { image with symbols }

/-- A change of the heap. -/
def onHeap (f : Heap → α × Heap) : Run α := fun image =>
  let (a, heap) := f image.heap
  .ok a { image with heap }

def modifySymbols (f : SymbolTable → SymbolTable) : Run Unit :=
  modify fun image => { image with symbols := f image.symbols }

def modifyHeap (f : Heap → Heap) : Run Unit :=
  modify fun image => { image with heap := f image.heap }

/-- The printed text of a value. -/
def describe (value : Value) : Run String := fun image => .ok (image.print value) image

def typeError (value : Value) (expected : String) : Run α := do
  fail (.typeError (← describe value) expected)

def newString (text : String) : Run Value := onHeap (·.allocString text)

end Run

/-- The failure that an interrupt amounts to where nothing is left to intercept it. -/
def Interrupt.asError (image : Image) : Interrupt → RuntimeError
  | .failed error => error
  | .thrown (.transfer address) =>
      let transfer := image.heap.transfer address
      .unmatchedTransfer transfer.kind (transfer.label.getD (image.print transfer.target))
  | .thrown value => .uncaught (image.print value)
  | .outOfSteps => .host "out of steps"

end LispScript
