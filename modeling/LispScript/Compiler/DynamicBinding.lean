import LispScript.Compiler.Literal

/-!
The statements before a body that bind its variables. What follows the binding of a dynamic variable
runs under a cleanup that restores the variable, so every way out of the body undoes the binding.
-/

namespace LispScript.Compiler

open Script

/-- Statements so far, and before them the sections that a dynamic binding ended, each with the
statement that undoes the binding; the section before last comes first. -/
structure Prologue where
  current : List Stmt := []
  sections : List (List Stmt × Stmt) := []

namespace Prologue

def add (prologue : Prologue) (stmts : List Stmt) : Prologue :=
  { prologue with current := prologue.current ++ stmts }

/-- Gives a dynamic variable a value until the body is left. -/
def bindSpecial (prologue : Prologue) (id : SymbolId) (value : Expr) : Compile Prologue := do
  let place := Expr.member (← symbolLiteral id) "value"
  let old ← freshVariable "old"
  let before := prologue.current ++ [.define old place, .effect (.assign place value)]
  let restore := Stmt.effect (.assign place (.ident old))
  return { current := [], sections := (before, restore) :: prologue.sections }

/-- The whole sequence with the body at its end. -/
def finish (prologue : Prologue) (body : List Stmt) : List Stmt :=
  prologue.sections.foldl (fun inner (before, restore) =>
    before ++ [.guarded inner .none (.always [restore])]) (prologue.current ++ body)

end Prologue

end LispScript.Compiler
