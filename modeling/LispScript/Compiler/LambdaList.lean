import LispScript.Compiler.Basic

/-!
Ordinary lambda lists.
-/

namespace LispScript.Compiler

/-- An optional parameter: its default form, and the variable that tells whether an argument was
given. -/
structure OptionalParam where
  var : SymbolId
  default : Value
  supplied : Option SymbolId
deriving Repr

/-- A keyword parameter, which also has the symbol that callers name it by. -/
structure KeyParam where
  var : SymbolId
  keyword : SymbolId
  default : Value
  supplied : Option SymbolId
deriving Repr

structure LambdaList where
  required : List SymbolId := []
  optional : List OptionalParam := []
  rest : Option SymbolId := none
  /-- Whether a section of keyword parameters is there, even an empty one. -/
  hasKeys : Bool := false
  keys : List KeyParam := []
  allowOtherKeys : Bool := false
deriving Repr

namespace LambdaList

/-- All variables, in the order in which they stand. -/
def boundVars (list : LambdaList) : List SymbolId :=
  list.required ++ list.optional.flatMap (fun p => p.var :: p.supplied.toList) ++
    list.rest.toList ++ list.keys.flatMap (fun p => p.var :: p.supplied.toList)

/-- Whether any number of further arguments may follow. -/
def isVariadic (list : LambdaList) : Bool := list.rest.isSome || list.hasKeys

end LambdaList

/-- The part of a lambda list that an item stands in; `afterRest` has no items. -/
inductive Section where
  | required
  | optional
  | rest
  | key
  | afterRest
deriving DecidableEq, Repr

/-- The variable that an item names: a symbol other than `NIL` and the lambda-list keywords. -/
def parameter? : Value → Option SymbolId
  | .symbol id => if id.isLambdaKeyword then none else some id
  | _ => none

/-- The default and the supplied-p variable after the first part of a parameter specifier of at
most three parts. -/
def defaultParts? : List Value → Option (Value × Option SymbolId)
  | [] => some (.nil, none)
  | [default] => some (default, none)
  | [default, supplied] => (parameter? supplied).map fun supplied => (default, some supplied)
  | _ => none

/-- `var` or `(var [default [supplied-p]])` -/
def optionalParam? (heap : Heap) (item : Value) : Option OptionalParam :=
  match parameter? item with
  | some var => some ⟨var, .nil, none⟩
  | none => do
      match ← heap.listItems? item with
      | [] => none
      | first :: parts => do
          let var ← parameter? first
          let (default, supplied) ← defaultParts? parts
          return ⟨var, default, supplied⟩

/-- The variable of a keyword parameter, and its keyword: the one given with it, or the one of the
variable's name. -/
def keyNames? (head : Value) : Compile (Option (SymbolId × SymbolId)) := do
  match head with
  | .cons _ =>
      match (← heap).listItems? head with
      | some [keyword, var] => return (parameter? var).bind fun var =>
          keyword.asSymbol?.map fun keyword => (var, keyword)
      | _ => return none
  | _ =>
      match parameter? head with
      | some var => do
          let keyword ← onSymbols (·.internKeyword (← symbolName var))
          return some (var, keyword)
      | none => return none

/-- `var`, `(var [default [supplied-p]])` or `((keyword var) [default [supplied-p]])` -/
def keyParam? (item : Value) : Compile (Option KeyParam) := do
  match ← carOf? item with
  | some head =>
      match ← keyNames? head with
      | none => return none
      | some (var, keyword) => do
          let parts := (((← heap).listItems? item).map List.tail).bind defaultParts?
          return parts.map fun (default, supplied) => ⟨var, keyword, default, supplied⟩
  | none => return (← keyNames? item).map fun (var, keyword) => ⟨var, keyword, .nil, none⟩

def badLambdaList (list : Value) (reason : String) : Compile α := do
  throw (.lambdaList (← describe list) reason)

/-- The section that a lambda-list keyword opens. -/
def opens? (id : SymbolId) : Option Section :=
  if id = SymbolId.ampOptional then some .optional
  else if id = SymbolId.ampRest || id = SymbolId.ampBody then some .rest
  else if id = SymbolId.ampKey then some .key
  else none

/-- Whether one section can follow another. -/
def canFollow : Section → Section → Bool
  | .optional, current => current == .required
  | .rest, current => current == .required || current == .optional
  | _, current => current == .required || current == .optional || current == .afterRest

/-- Reads the items of a lambda list from within a section. -/
def parseItems (list : Value) : Section → LambdaList → List Value → Compile LambdaList
  | current, parsed, [] =>
      if current = .rest then badLambdaList list "&REST without a variable" else return parsed
  | current, parsed, item :: items => do
      let keyword? := item.asSymbol?.filter (·.isLambdaKeyword)
      match keyword? with
      | some keyword =>
          match opens? keyword with
          | some opened =>
              if canFollow opened current then
                parseItems list opened { parsed with hasKeys := parsed.hasKeys || opened == .key } items
              else badLambdaList list "lambda-list keywords out of order"
          | none =>
              if keyword = SymbolId.ampAllowOtherKeys then
                if current = .key then
                  parseItems list current { parsed with allowOtherKeys := true } items
                else badLambdaList list "&ALLOW-OTHER-KEYS must follow &KEY"
              else badLambdaList list "lambda-list keyword not allowed here"
      | none =>
          match current with
          | .required =>
              match parameter? item with
              | some var => parseItems list current { parsed with required := parsed.required ++ [var] } items
              | none => badLambdaList list "required parameter must be a symbol"
          | .optional =>
              match optionalParam? (← heap) item with
              | some param =>
                  parseItems list current { parsed with optional := parsed.optional ++ [param] } items
              | none => badLambdaList list "bad &OPTIONAL parameter"
          | .rest =>
              match parameter? item with
              | some var => parseItems list .afterRest { parsed with rest := some var } items
              | none => badLambdaList list "&REST needs a symbol"
          | .key => do
              match ← keyParam? item with
              | some param => parseItems list current { parsed with keys := parsed.keys ++ [param] } items
              | none => badLambdaList list "bad &KEY parameter"
          | .afterRest => badLambdaList list "only one variable may follow &REST"

def parseLambdaList (list : Value) : Compile LambdaList := do
  match (← heap).listItems? list with
  | some items => parseItems list .required {} items
  | none => badLambdaList list "dotted lambda list"

end LispScript.Compiler
