import LispScript.Equality
import LispScript.Machine.Routine

/-!
The built-in functions that call nothing in turn, on arguments without an acceptor. A missing
argument is the empty list.
-/

namespace LispScript.Machine

/-- An argument of a built-in function. -/
def actual (args : List Value) (i : Nat) : Value := args[i]?.getD .nil

def numberOf (value : Value) : Run Float :=
  match value with
  | .number n => return n
  | _ => Run.typeError value "NUMBER"

def symbolOf (value : Value) : Run SymbolId :=
  match value.asSymbol? with
  | some id => return id
  | none => Run.typeError value "SYMBOL"

def listItems (value : Value) : Run (List Value) := do
  match (← Run.heap).listItems? value with
  | some items => return items
  | none => Run.typeError value "LIST"

def newList (items : List Value) : Run Value := Run.onHeap (·.allocList items)

def newVector (items : List Value) : Run Value := Run.onHeap (·.allocVector items.toArray)

section Arithmetic

/-- Combines numbers from the left. -/
def accumulate (op : Float → Float → Float) : Float → List Value → Run Value
  | total, [] => return .number total
  | total, value :: rest => do accumulate op (op total (← numberOf value)) rest

/-- Divides by numbers from the left, none of them zero. -/
def divideBy : Float → List Value → Run Value
  | total, [] => return .number total
  | total, value :: rest => do
      let divisor ← numberOf value
      if divisor == 0 then Run.fail (.signal "division by zero")
      else divideBy (total / divisor) rest

def subtract (args : List Value) : Run Value := do
  let first ← numberOf (actual args 0)
  match args with
  | [_] => return .number (-first)
  | _ => accumulate (· - ·) first args.tail

def divide (args : List Value) : Run Value := do
  let first ← numberOf (actual args 0)
  match args with
  | [_] => divideBy 1 args
  | _ => divideBy first args.tail

/-- The remainder of flooring division: it has the sign of the divisor. -/
def floorMod (args : List Value) : Run Value := do
  let a ← numberOf (actual args 0)
  let b ← numberOf (actual args 1)
  if b == 0 then Run.fail (.signal "division by zero")
  else return .number (a - b * (a / b).floor)

/-- Whether each number stands in a relation to the next; the first that does not ends the
comparison. -/
def chainFrom (related : Float → Float → Bool) : Float → List Value → Run Value
  | _, [] => return .t
  | previous, value :: rest => do
      let current ← numberOf value
      if related previous current then chainFrom related current rest else return .nil

def chain (related : Float → Float → Bool) (args : List Value) : Run Value := do
  chainFrom related (← numberOf (actual args 0)) args.tail

end Arithmetic

section Lists

def carOf (value : Value) : Run Value := do
  match value with
  | .nil => return .nil
  | .cons address => return ((← Run.heap).cell address).car
  | _ => Run.typeError value "LIST"

def cdrOf (value : Value) : Run Value := do
  match value with
  | .nil => return .nil
  | .cons address => return ((← Run.heap).cell address).cdr
  | _ => Run.typeError value "LIST"

def replaceCar (cell value : Value) : Run Value := do
  match cell with
  | .cons address => do
      Run.modifyHeap (·.setCar address value)
      return cell
  | _ => Run.typeError cell "CONS"

def replaceCdr (cell value : Value) : Run Value := do
  match cell with
  | .cons address => do
      Run.modifyHeap (·.setCdr address value)
      return cell
  | _ => Run.typeError cell "CONS"

/-- A list of all arguments but the last, which becomes its tail. -/
def listStar (args : List Value) : Run Value :=
  match args.getLast? with
  | some tail => Run.onHeap (·.allocListWithTail args.dropLast tail)
  | none => return .nil

/-- Copies all lists but the last, which is shared. -/
def appendLists (args : List Value) : Run Value := do
  match args.getLast? with
  | some tail => do
      let lists ← args.dropLast.mapM listItems
      Run.onHeap (·.allocListWithTail lists.flatten tail)
  | none => return .nil

def lengthOf (value : Value) : Run Value := do
  match value with
  | .vector address => return .number (Float.ofNat ((← Run.heap).vector address).size)
  | .string _ text => return .number (Float.ofNat text.length)
  | _ => return .number (Float.ofNat (← listItems value).length)

def reverseOf (value : Value) : Run Value := do
  match value with
  | .vector address => newVector ((← Run.heap).vector address).toList.reverse
  | .string _ text => Run.newString (String.ofList text.toList.reverse)
  | _ => newList (← listItems value).reverse

/-- The element of a list after `n` others; past the end it is the empty list. -/
def nthOf : Nat → Value → Run Value
  | 0, list => carOf list
  | n + 1, list => do
      match list with
      | .cons address => nthOf n ((← Run.heap).cell address).cdr
      | .nil => return .nil
      | _ => Run.typeError list "LIST"

end Lists

section Symbols

def symbolValue (value : Value) : Run Value := do
  let id ← symbolOf value
  match ((← Run.symbols).symbol id).value with
  | some bound => return bound
  | none => Run.fail (.unboundVariable (← Run.describe value))

def symbolFunction (value : Value) : Run Value := do
  let id ← symbolOf value
  match ((← Run.symbols).symbol id).function with
  | some function => return function
  | none => Run.fail (.undefinedFunction (← Run.describe value))

def setValue (place value : Value) : Run Value := do
  let id ← symbolOf place
  Run.modifySymbols (·.setValue id (some value))
  return value

def setFunction (place function : Value) : Run Value := do
  let id ← symbolOf place
  if function.isFunction then
    Run.modifySymbols (·.setFunction id (some function))
    return function
  else Run.typeError function "FUNCTION"

/-- The value after an indicator in a property list, looking at every other element. -/
def findProperty? (indicator : Value) : List Value → Option Value
  | [] => none
  | [key] => if key.eql indicator then some .nil else none
  | key :: value :: rest => if key.eql indicator then some value else findProperty? indicator rest

def getFromPlist (symbol indicator default : Value) : Run Value := do
  let id ← symbolOf symbol
  let items ← listItems ((← Run.symbols).symbol id).plist
  return (findProperty? indicator items).getD default

def packageNamed (name : String) : Run PackageId := do
  match (← Run.symbols).requirePackage name with
  | .ok id => return id
  | .error e => Run.fail (.signal e.message)

/-- The package that a package, a string or a symbol designates. -/
def packageOf (designator : Value) : Run PackageId := do
  match designator with
  | .package id => return id
  | .string _ name => packageNamed name
  | .symbol id => packageNamed ((← Run.symbols).symbolName id)
  | _ => Run.typeError designator "PACKAGE"

def intern (args : List Value) : Run Value := do
  match actual args 0 with
  | .string _ name => do
      let package ← match args[1]? with
        | some designator => packageOf designator
        | none => SymbolTable.current <$> Run.symbols
      Value.ofSymbol <$> Run.onSymbols (·.intern name package)
  | other => Run.typeError other "STRING"

def makeSymbol (name : Value) : Run Value :=
  match name with
  | .string _ text => Value.symbol <$> Run.onSymbols (·.makeSymbol text)
  | other => Run.typeError other "STRING"

/-- A new symbol with a generated name; a stem that is not a string is taken for a `G`. -/
def gensym (args : List Value) : Run Value :=
  let stem := match args.head? with
    | some (.string _ text) => text
    | _ => "G"
  Value.symbol <$> Run.onSymbols (·.gensym stem)

end Symbols

/-- The documentation of a function, or of the function that a symbol holds. -/
def documentation (target : Value) : Run Value := do
  let function ← match target with
    | .symbol id => do pure (((← Run.symbols).symbol id).function.getD .nil)
    | other => pure other
  match function with
  | .function address =>
      match (← Run.heap).property address "docstring" with
      | .undefined => return .nil
      | text => return text
  | _ => return .nil

/-- An element of a vector or a string. -/
def elementOf (sequence position : Value) : Run Value := do
  let n ← numberOf position
  let i := Number.toCount n
  let found ← match sequence with
    | .vector address => do pure ((← Run.heap).vector address)[i]?
    | .string _ text => pure (text.toList[i]?.map Value.character)
    | _ => Run.typeError sequence "VECTOR"
  match found with
  | some item => return item
  | none => Run.fail (.signal
      ("index " ++ Number.messageText n ++ " out of bounds for " ++ (← Run.describe sequence)))

/-- A message with its directives filled in: `~a` and `~s` take an argument each, which may be
missing, `~%` ends a line and `~~` is a tilde. -/
def formatMessage (image : Image) : List Char → List Value → String
  | [], _ => ""
  | '~' :: directive :: rest, args =>
      match directive.toUpper with
      | 'A' => (args.head?.map image.princ).getD "" ++ formatMessage image rest args.tail
      | 'S' => (args.head?.map image.print).getD "" ++ formatMessage image rest args.tail
      | '%' => "\n" ++ formatMessage image rest args
      | '~' => "~" ++ formatMessage image rest args
      | other => "~" ++ String.singleton other ++ formatMessage image rest args
  | c :: rest, args => String.singleton c ++ formatMessage image rest args

def signalError (args : List Value) : Run Value := do
  match actual args 0 with
  | .string _ control => do
      Run.fail (.signal (formatMessage (← get) control.toList args.tail))
  | other => Run.fail (.signal (← Run.describe other))

/-- The built-in functions that finish without calling a function. -/
def runBuiltin (p : Primitive) (args : List Value) : Run Value := do
  let first := actual args 0
  let second := actual args 1
  match p with
  | .add => accumulate (· + ·) 0 args
  | .sub => subtract args
  | .mul => accumulate (· * ·) 1 args
  | .div => divide args
  | .inc => return .number ((← numberOf first) + 1)
  | .dec => return .number ((← numberOf first) - 1)
  | .floorMod => floorMod args
  | .numEq => chain (· == ·) args
  | .lt => chain (fun a b => a < b) args
  | .gt => chain (fun a b => b < a) args
  | .le => chain (fun a b => a ≤ b) args
  | .ge => chain (fun a b => b ≤ a) args
  | .cons => Run.onHeap (·.allocCell first second)
  | .car => carOf first
  | .cdr => cdrOf first
  | .rplaca => replaceCar first second
  | .rplacd => replaceCdr first second
  | .list => newList args
  | .listStar => listStar args
  | .append => appendLists args
  | .length => lengthOf first
  | .reverse => reverseOf first
  | .nth => do nthOf (Number.toCount (← numberOf first)) second
  | .eq => return .ofBool (first.strictEq second)
  | .eql => return .ofBool (first.eql second)
  | .equal => return .ofBool ((← Run.heap).equal first second)
  | .null | .not => return .ofBool first.isNil
  | .consp => return .ofBool first.isCons
  | .atom => return .ofBool (!first.isCons)
  | .listp => return .ofBool (first.isNil || first.isCons)
  | .symbolp => return .ofBool first.asSymbol?.isSome
  | .keywordp =>
      match first with
      | .symbol id => return .ofBool ((← Run.symbols).isKeyword id)
      | _ => return .nil
  | .numberp => return .ofBool first.isNumber
  | .stringp => return .ofBool first.isString
  | .characterp => return .ofBool first.isCharacter
  | .functionp => return .ofBool first.isFunction
  | .vectorp => return .ofBool first.isVector
  | .symbolValue => symbolValue first
  | .symbolFunction => symbolFunction first
  | .set => setValue first second
  | .fset => setFunction first second
  | .boundp => return .ofBool ((← Run.symbols).symbol (← symbolOf first)).value.isSome
  | .fboundp => return .ofBool ((← Run.symbols).symbol (← symbolOf first)).function.isSome
  | .symbolName => do Run.newString ((← Run.symbols).symbolName (← symbolOf first))
  | .symbolPlist => return ((← Run.symbols).symbol (← symbolOf first)).plist
  | .get => getFromPlist first second (actual args 2)
  | .intern => intern args
  | .makeSymbol => makeSymbol first
  | .gensym => gensym args
  | .documentation => documentation first
  | .vector => newVector args
  | .aref => elementOf first second
  | .error => signalError args
  | .funcall | .apply | .values | .valuesList => return .undefined

end LispScript.Machine
