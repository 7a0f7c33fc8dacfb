import LispScript.Machine.Basic

/-!
Members and elements of values, as scripts see them. What is not there is `undefined`.
-/

namespace LispScript.Machine

def slotValue (slot : Option Value) : Value := slot.getD .undefined

/-- The slots of a symbol that scripts can read. -/
def symbolProperty (id : SymbolId) (property : String) : Run Value := do
  let symbol := (← Run.symbols).symbol id
  match property with
  | "value" => return slotValue symbol.value
  | "fvalue" => return slotValue symbol.function
  | "name" => Run.newString symbol.name
  | "package" => return (symbol.home.map Value.package).getD .nil
  | "plist" => return symbol.plist
  | _ => return .undefined

def transferProperty (transfer : Transfer) (property : String) : Run Value := do
  match property with
  | "kind" => Run.newString transfer.kind.name
  | "id" => return transfer.target
  | "payload" => return transfer.payload
  | "name" =>
      match transfer.label with
      | some label => Run.newString label
      | none => return .undefined
  | _ => return .undefined

def countValue (n : Nat) : Value := .number (Float.ofNat n)

/-- `object.property` -/
def getProperty (object : Value) (property : String) : Run Value := do
  match object with
  | .nil => symbolProperty .nil property
  | .symbol id => symbolProperty id property
  | .function address => return (← Run.heap).property address property
  | .cons address =>
      match property with
      | "car" => return ((← Run.heap).cell address).car
      | "cdr" => return ((← Run.heap).cell address).cdr
      | _ => return .undefined
  | .vector address =>
      if property = "length" then return countValue ((← Run.heap).vector address).size
      else return .undefined
  | .string _ text =>
      if property = "length" then return countValue text.length else return .undefined
  | .bundle address =>
      if property = "length" then return countValue ((← Run.heap).bundle address).length
      else return .undefined
  | .transfer address => transferProperty ((← Run.heap).transfer address) property
  | _ => return .undefined

/-- A slot holds nothing after `undefined` is written to it. -/
def slotOf : Value → Option Value
  | .undefined => none
  | value => some value

def cannotSet (object : Value) (property : String) : Run Unit := do
  Run.fail (.host ("cannot set property " ++ property ++ " of " ++ (← Run.describe object)))

def setSymbolProperty (id : SymbolId) (property : String) (value : Value) : Run Unit :=
  match property with
  | "value" => Run.modifySymbols (·.setValue id (slotOf value))
  | "fvalue" => Run.modifySymbols (·.setFunction id (slotOf value))
  | "plist" => Run.modifySymbols (·.setPlist id value)
  | _ => cannotSet (.ofSymbol id) property

/-- `object.property = value` -/
def setProperty (object : Value) (property : String) (value : Value) : Run Unit :=
  match object with
  | .nil => setSymbolProperty .nil property value
  | .symbol id => setSymbolProperty id property value
  | .function address => Run.modifyHeap (·.setProperty address property value)
  | .cons address =>
      match property with
      | "car" => Run.modifyHeap (·.setCar address value)
      | "cdr" => Run.modifyHeap (·.setCdr address value)
      | _ => cannotSet object property
  | _ => cannotSet object property

/-- `object[position]`. A position that is not a whole number from zero up selects nothing. -/
def getElement (object position : Value) : Run Value := do
  match position with
  | .number n =>
      if 0 ≤ n && Number.isWhole n then
        let i := Number.toCount n
        match object with
        | .vector address => return ((← Run.heap).vector address)[i]?.getD .undefined
        | .bundle address => return ((← Run.heap).bundle address)[i]?.getD .undefined
        | .string _ text => return (text.toList[i]?.map Value.character).getD .undefined
        | _ => return .undefined
      else return .undefined
  | _ => return .undefined

/-- `object[position] = value` -/
def setElement (object position value : Value) : Run Unit :=
  match object, position with
  | .vector address, .number n =>
      if 0 ≤ n then Run.modifyHeap (·.setElement address (Number.toCount n) value)
      else Run.typeError object "VECTOR"
  | _, _ => Run.typeError object "VECTOR"

end LispScript.Machine
