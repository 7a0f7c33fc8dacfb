import LispScript.Machine.Basic

/-!
The support routines that call nothing in turn. A missing argument is `undefined`.
-/

namespace LispScript.Machine

open Script (Routine)

def argument (args : List Value) (i : Nat) : Value := args[i]?.getD .undefined

/-- A count given as a number that is not negative. -/
def count (value : Value) : Run Nat :=
  match value with
  | .number n => if 0 ≤ n then return Number.toCount n else Run.typeError value "INTEGER"
  | _ => Run.typeError value "INTEGER"

/-- Several values, or none, make a bundle; one value stays as it is. -/
def packValues : List Value → Run Value
  | [value] => return value
  | values => Run.onHeap (·.allocBundle values)

def primaryValue (args : List Value) : Value := args.headD .nil

def valuesOf (value : Value) : Run (List Value) := fun image => .ok (image.valuesOf value) image

/-- The function that a function or a symbol designates. -/
def coerceFunction (designator : Value) : Run Value := do
  match designator with
  | .function _ => return designator
  | _ =>
      match designator.asSymbol? with
      | some id =>
          match ((← Run.symbols).symbol id).function with
          | some function => return function
          | none => Run.fail (.undefinedFunction (← Run.describe designator))
      | none => Run.fail (.notAFunction (← Run.describe designator))

/-- The character with a code, of which the low 32 bits count. -/
def characterOf (value : Value) : Run Value := do
  let code := (← count value) % Nat.pow 2 32
  if code.isValidChar then return .character (Char.ofNat code)
  else Run.typeError value "CHARACTER-CODE"

/-- Compares an argument count with a limit. -/
def checkCount (args : List Value) (ok : Nat → Nat → Bool) (expected : Nat → String) :
    Run Value := do
  let got ← count (argument args 0)
  let limit ← count (argument args 1)
  if ok got limit then return .undefined else Run.fail (.arity (expected limit) got)

def vectorItems (value : Value) : Run (Array Value) := do
  match value with
  | .vector address => return (← Run.heap).vector address
  | _ => Run.typeError value "VECTOR"

def appendValues (args : List Value) : Run Value := do
  let items ← vectorItems (argument args 0)
  let values ← valuesOf (argument args 1)
  Run.onHeap (·.allocVector (items ++ values))

/-- Builds the signal of a non-local exit. -/
def makeTransfer (args : List Value) : Run Value := do
  let kind? := match argument args 0 with
    | .string _ name => TransferKind.ofName? name
    | _ => none
  match kind? with
  | none => Run.fail (.host "invalid transfer kind")
  | some kind =>
      let label ← match argument args 3 with
        | .string _ text => pure (some text)
        | .undefined => pure none
        | other => some <$> Run.describe other
      Run.onHeap (·.allocTransfer ⟨kind, argument args 1, argument args 2, label⟩)

/-- Interns a name in a package given by name, the empty name standing for the user package. -/
def internSymbol (args : List Value) : Run Value := do
  match argument args 0, argument args 1 with
  | .string _ name, .string _ packageName =>
      match (← Run.symbols).findPackage? packageName with
      | some package => Value.ofSymbol <$> Run.onSymbols (·.intern name package)
      | none =>
          if packageName.isEmpty then
            Value.ofSymbol <$> Run.onSymbols (·.intern name PackageId.commonLispUser)
          else Run.fail (.host ("package " ++ packageName ++ " does not exist"))
  | other, _ => Run.typeError other "STRING"

/-- The uninterned symbol with the given name and number, or a new one of that name. -/
def uninternedSymbol (args : List Value) : Run Value := do
  match argument args 0 with
  | .string _ name =>
      let known ← match argument args 1 with
        | .number n => do
            let symbols ← Run.symbols
            let id : SymbolId := ⟨min (Number.toCount n) (Nat.pow 2 32 - 1)⟩
            let symbol := symbols.symbol id
            pure (if id.index < symbols.symbolCount && symbol.home.isNone && symbol.name == name
              then some id else none)
        | _ => pure none
      match known with
      | some id => return .symbol id
      | none => Value.symbol <$> Run.onSymbols (·.makeSymbol name)
  | other => Run.typeError other "STRING"

/-- The routines that finish without calling a function. -/
def runRoutine (r : Routine) (args : List Value) : Run Value := do
  match r with
  | .packValues => packValues args
  | .primaryValue => return primaryValue args
  | .appendValues => appendValues args
  | .coerceFunction => coerceFunction (argument args 0)
  | .character => characterOf (argument args 0)
  | .checkArgs => checkCount args (· == ·) toString
  | .checkArgsAtLeast => checkCount args (fun got min => min ≤ got) ("at least " ++ toString ·)
  | .checkArgsAtMost => checkCount args (fun got max => got ≤ max) ("at most " ++ toString ·)
  | .checkKeywordPairs =>
      if (← count (argument args 0)) % 2 = 0 then return .undefined else Run.fail .oddKeywords
  | .unknownKeyword => Run.fail (.unknownKeyword (← Run.describe (argument args 0)))
  | .transfer => makeTransfer args
  | .internSymbol => internSymbol args
  | .uninternedSymbol => uninternedSymbol args
  | .deliverValues | .applyVector => return .undefined

end LispScript.Machine
