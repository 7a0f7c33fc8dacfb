import LispScript.Compiler.LambdaList

/-!
Macro lambda lists. They are lowered to ordinary ones: a list in the place of a required parameter
becomes a fresh parameter, whose value is spread over the parameters of an inner function.
-/

namespace LispScript.Compiler

/-- The items of a macro lambda list, sorted. -/
structure MacroItems where
  /-- The items of the ordinary lambda list, in order. -/
  flat : List Value := []
  whole : Option SymbolId := none
  environment : Option SymbolId := none
  /-- The fresh parameters with the lists they stand for, in order. -/
  destructured : List (SymbolId × Value) := []

/-- An ordinary lambda list and the body that does the rest of the work. -/
structure Lowered where
  list : Value
  body : List Value
  whole : Option SymbolId

/-- Sorts items; `isFirst` tells whether none was taken yet and `required` whether no keyword has
ended the required parameters. -/
def sortItems (list : Value) : Bool → Bool → MacroItems → List Value → Compile MacroItems
  | _, _, sorted, [] => return sorted
  | isFirst, required, sorted, item :: rest => do
      match item.asSymbol?.filter (·.isLambdaKeyword) with
      | some keyword =>
          if keyword = SymbolId.ampWhole then
            if !isFirst then badLambdaList list "&WHOLE must come first"
            else match rest with
              | [] => badLambdaList list "&WHOLE needs a variable"
              | value :: rest =>
                  match value.asSymbol? with
                  | some var => sortItems list false required { sorted with whole := some var } rest
                  | none => badLambdaList list "&WHOLE needs a variable"
          else if keyword = SymbolId.ampEnvironment then
            match rest with
            | [] => badLambdaList list "&ENVIRONMENT needs a variable"
            | value :: rest =>
                match value.asSymbol? with
                | some var =>
                    sortItems list false required { sorted with environment := some var } rest
                | none => badLambdaList list "&ENVIRONMENT needs a variable"
          else sortItems list false false { sorted with flat := sorted.flat ++ [item] } rest
      | none =>
          if required && item.isCons then do
            let param ← onSymbols (·.gensym "ARG")
            sortItems list false required
              { sorted with
                flat := sorted.flat ++ [.symbol param]
                destructured := sorted.destructured ++ [(param, item)] } rest
          else sortItems list false required { sorted with flat := sorted.flat ++ [item] } rest

/-- A dotted tail is a rest parameter. -/
def tailItems (list tail : Value) : Compile (List Value) :=
  match tail with
  | .nil => return []
  | .symbol _ => return [.symbol SymbolId.ampRest, tail]
  | _ => badLambdaList list "dotted tail must be a symbol"

/-- `(LET ((var value)) . body)` -/
def letForm (var : SymbolId) (value : Value) (body : List Value) : Compile Value := do
  let binding ← newList [.ofSymbol var, value]
  let bindings ← newList [binding]
  newListWithTail [.symbol SpecialForm.bind.symbol, bindings] (← newList body)

/-- `(APPLY (FUNCTION (LAMBDA list . body)) param)` -/
def spreadForm (lowered : Lowered) (param : SymbolId) : Compile Value := do
  let lambda ← newListWithTail [.symbol SymbolId.lambda, lowered.list] (← newList lowered.body)
  let function ← newList [.symbol SymbolId.function, lambda]
  newList [.symbol SymbolId.apply, function, .ofSymbol param]

/-- The body as the one form that spreads a parameter over the variables of a sublist. -/
def spreadBody (param : SymbolId) (lowered : Lowered) : Compile (List Value) := do
  let spread ← spreadForm lowered param
  match lowered.whole with
  | some var => return [← letForm var (.ofSymbol param) [spread]]
  | none => return [spread]

/-- Lowers a macro lambda list whose sublists nest at most `depth` deep. The last destructured
parameter is spread innermost. -/
def lowerWithin : Nat → Value → List Value → Compile Lowered
  | 0, _, _ => throw .outOfSteps
  | depth + 1, list, body => do
      let (items, tail) := (← heap).splitDotted list
      let sorted ← sortItems list true true {} items
      let flat := sorted.flat ++ (← tailItems list tail)
      let body ← match sorted.environment with
        | some var => do pure [← letForm var .nil body]
        | none => pure body
      let body ← sorted.destructured.foldrM (fun (param, sublist) body => do
        spreadBody param (← lowerWithin depth sublist body)) body
      return ⟨← newList flat, body, sorted.whole⟩

def lowerLambdaList (list : Value) (body : List Value) : Compile Lowered := do
  lowerWithin (← heap).size list body

end LispScript.Compiler
