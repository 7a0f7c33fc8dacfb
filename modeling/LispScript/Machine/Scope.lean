import LispScript.Heap

/-!
Variables of scripts: look-up and assignment along the chain of scopes. A scope is made after its
parent, so the chain is no longer than the number of scopes.
-/

namespace LispScript.Heap

/-- The nearest of at most `limit` scopes from `scope` outward that satisfies a predicate. -/
def findScopeWithin (heap : Heap) (p : Scope → Bool) : Nat → Address → Option Address
  | 0, _ => none
  | limit + 1, address =>
      let scope := heap.scope address
      if p scope then some address
      else match scope.parent with
        | some parent => heap.findScopeWithin p limit parent
        | none => none

/-- The value of a variable in the nearest of at most `limit` scopes that has it. -/
def findVariableWithin (heap : Heap) (name : String) : Nat → Address → Option Value
  | 0, _ => none
  | limit + 1, address =>
      let scope := heap.scope address
      match scope.vars[name]? with
      | some value => some value
      | none =>
          match scope.parent with
          | some parent => heap.findVariableWithin name limit parent
          | none => none

def lookupVariable? (heap : Heap) (scope : Address) (name : String) : Option Value :=
  heap.findVariableWithin name heap.scopes.size scope

/-- The nearest scope that has a variable of that name, which an assignment changes. -/
def variableScope? (heap : Heap) (scope : Address) (name : String) : Option Address :=
  heap.findScopeWithin (·.vars.contains name) heap.scopes.size scope

/-- The scope that a `var` declaration in the given scope belongs to. -/
def functionScope (heap : Heap) (scope : Address) : Address :=
  (heap.findScopeWithin (·.isFunction) heap.scopes.size scope).getD scope

/-- Declares a variable in the nearest function scope, with a value. -/
def defineVariable (heap : Heap) (scope : Address) (name : String) (value : Value) : Heap :=
  heap.bindVariable (heap.functionScope scope) name value

/-- Declares a variable in the nearest function scope. One that is there already keeps its value. -/
def declareVariable (heap : Heap) (scope : Address) (name : String) : Heap :=
  let target := heap.functionScope scope
  if (heap.scope target).vars.contains name then heap
  else heap.bindVariable target name .undefined

end LispScript.Heap
