import LispScript.Compiler.Basic

/-!
Templates. A backquoted template becomes a form that builds its instance. The depth counts the
backquotes around a part: an unquote at depth one is evaluated, and deeper ones are rebuilt as data
with one level taken away.
-/

namespace LispScript.Compiler

/-- The operators that have a meaning inside a template. -/
inductive Marker where
  | backquote
  | unquote
  | splice
deriving DecidableEq, Repr

namespace Marker

def symbol : Marker → SymbolId
  | backquote => SymbolId.backquote
  | unquote => SymbolId.unquote
  | splice => SymbolId.unquoteSplicing

def ofSymbol? (id : SymbolId) : Option Marker :=
  if id = SymbolId.backquote then some backquote
  else if id = SymbolId.unquote then some unquote
  else if id = SymbolId.unquoteSplicing then some splice
  else none

end Marker

/-- A list of a marker and one form, and that form. -/
def marked? (heap : Heap) (template : Value) : Option (Marker × Value) :=
  match template with
  | .cons address =>
      let cell := heap.cell address
      match cell.car.asSymbol?.bind Marker.ofSymbol?, heap.listItems? cell.cdr with
      | some marker, some [arg] => some (marker, arg)
      | _, _ => none
  | _ => none

/-- The elements of a list template up to its end or to a tail that is itself a marked form, which
follows them; `seen` stands in reverse. -/
def templateParts (heap : Heap) : Nat → List Value → Value → List Value × Value
  | limit + 1, seen, .cons address =>
      if (marked? heap (.cons address)).isSome then (seen.reverse, .cons address)
      else
        let cell := heap.cell address
        templateParts heap limit (cell.car :: seen) cell.cdr
  | _, seen, rest => (seen.reverse, rest)

def quoteForm (value : Value) : Compile Value := newList [.symbol SymbolId.quote, value]

/-- The form that builds a list of a marker and what another form builds. -/
def rebuildForm (marker : Marker) (inner : Value) : Compile Value := do
  newList [.symbol SymbolId.list, ← quoteForm (.ofSymbol marker.symbol), inner]

mutual

/-- The form that builds an instance of a template that nests at most `limit` deep. -/
def expandTemplate : Nat → Nat → Value → Compile Value
  | 0, _, _ => throw .outOfSteps
  | limit + 1, depth, template => do
      match template with
      | .cons _ =>
          match marked? (← heap) template with
          | some (marker, arg) => expandMarked limit depth template marker arg
          | none => expandList limit depth template
      | .vector address => do
          let items := ((← heap).vector address).toList
          let list ← expandList limit depth (← newList items)
          let function ← newList [.symbol SymbolId.function, .symbol SymbolId.vector]
          newList [.symbol SymbolId.apply, function, list]
      | .symbol _ | .nil => quoteForm template
      | other => return other

/-- A marked form within `depth` backquotes. -/
def expandMarked : Nat → Nat → Value → Marker → Value → Compile Value
  | 0, _, _, _, _ => throw .outOfSteps
  | limit + 1, depth, template, marker, arg => do
      match marker with
      | .backquote => do rebuildForm .backquote (← expandTemplate limit (depth + 1) arg)
      | .unquote =>
          if depth = 1 then return arg
          else do rebuildForm .unquote (← expandTemplate limit (depth - 1) arg)
      | .splice =>
          if depth = 1 then throw (.spliceOutsideList (← describe template))
          else do rebuildForm .splice (← expandTemplate limit (depth - 1) arg)

/-- A list template. Elements are put in front one by one, spliced lists are appended, and a tail
that is unquoted is the tail of the instance. -/
def expandList : Nat → Nat → Value → Compile Value
  | 0, _, _ => throw .outOfSteps
  | limit + 1, depth, template => do
      let heap ← heap
      let (elements, rest) := templateParts heap heap.cells.size [] template
      let tail ← match marked? heap rest with
        | some (.unquote, arg) | some (.splice, arg) =>
            if depth = 1 then pure arg else expandTemplate limit depth rest
        | _ => if rest.isNil then pure .nil else expandTemplate limit depth rest
      elements.foldrM (fun element result => do
        match marked? (← Compiler.heap) element, depth with
        | some (.splice, arg), 1 => newList [.symbol SymbolId.append, arg, result]
        | _, _ => do newList [.symbol SymbolId.cons, ← expandTemplate limit depth element, result]) tail

end

/-- The form that a backquoted template stands for. Each level of a template takes four steps at
most. -/
def expandBackquote (template : Value) : Compile Value := do
  expandTemplate (4 * (← heap).size) 1 template

end LispScript.Compiler
