import LispScript.Compiler.Basic

/-!
Literals. Symbols, characters and objects are made once, at the head of the unit that mentions
them, and then referred to by name; so an object that occurs twice in a unit stays one object.
-/

namespace LispScript.Compiler

open Script

/-- The name of a literal, which `make` builds when the unit does not have it yet. -/
def hoist (key : LiteralKey) (make : Compile Expr) : Compile Expr := do
  match (← get).literals.names[key.code]? with
  | some name => return .ident name
  | none => do
      let value ← make
      let name ← onCounters Counters.freshLiteral
      modify fun s => { s with
        literals := { s.literals with
          names := s.literals.names.insert key.code name
          initializers := s.literals.initializers.push (.define name value) } }
      return .ident name

/-- The expression that finds a symbol again, by its name and home package or, without a home, by
its name and number. -/
def symbolInitializer (symbols : SymbolTable) (id : SymbolId) : Expr :=
  let symbol := symbols.symbol id
  match symbol.home with
  | some home =>
      .callRoutine .internSymbol [.string symbol.name, .string (symbols.packageName home)]
  | none =>
      .callRoutine .uninternedSymbol [.string symbol.name, .number (Float.ofNat id.index)]

def symbolLiteral (id : SymbolId) : Compile Expr :=
  if id = SymbolId.nil then return .nil
  else if id = SymbolId.t then return .t
  else hoist (.symbol id) do return symbolInitializer (← symbols) id

/-- The expression for a value that nests at most `depth` deep. -/
def literalWithin : Nat → Value → Compile Expr
  | 0, _ => throw .outOfSteps
  | depth + 1, value => do
      match value with
      | .nil => return .nil
      | .number n => return .number n
      | .string _ text => return .string text
      | .symbol id => symbolLiteral id
      | .character c => hoist (.character c) do
          return .callRoutine .character [.number (Float.ofNat c.toNat)]
      | .cons address => hoist (.cons address) do
          let cell := (← heap).cell address
          let car ← literalWithin depth cell.car
          let cdr ← literalWithin depth cell.cdr
          return .callPrimitive .cons [car, cdr]
      | .vector address => hoist (.vector address) do
          let items ← ((← heap).vector address).toList.mapM (literalWithin depth)
          return .callPrimitive .vector items
      | other => do throw (.unsupportedLiteral (← describe other))

/-- The expression for a value that appears in a program. -/
def literal (value : Value) : Compile Expr := do literalWithin (← heap).size value

end LispScript.Compiler
