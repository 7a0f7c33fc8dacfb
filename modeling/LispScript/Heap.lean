import LispScript.Script.Syntax
import LispScript.Value
import Std.Data.TreeMap

/-!
The heap: every object with an identity, region by region. Objects are only ever added, and the
address of an object is its place in its region.
-/

namespace LispScript

structure Cell where
  car : Value
  cdr : Value
deriving Repr, Inhabited

/-- A signal that unwinds the stack to the exit that `target` identifies. The label serves messages
only. -/
structure Transfer where
  kind : TransferKind
  target : Value
  payload : Value
  label : Option String
deriving Repr

instance : Inhabited Transfer := ⟨.block, .nil, .nil, none⟩

/-- The values of variables by name. -/
abbrev Variables := Std.TreeMap String Value compare

/-- A scope of variables. `var` declarations go to the nearest function scope; the others hold the
parameter of an exception handler. -/
structure Scope where
  vars : Variables
  parent : Option Address
  isFunction : Bool
deriving Repr

instance : Inhabited Scope := ⟨{}, none, true⟩

/-- What a function object runs. A closure keeps the scope in which its literal was evaluated. A
primitive is called like compiled code, with an acceptor before the arguments. -/
inductive Callable where
  | closure (params : List String) (body : List Script.Stmt) (scope : Address)
  | native (n : Script.Native)
  | primitive (p : Primitive)

instance : Inhabited Callable := ⟨.closure [] [] 0⟩

structure FunctionObject where
  callable : Callable
  properties : List (String × Value) := []
deriving Inhabited

structure Heap where
  cells : Array Cell := #[]
  vectors : Array (Array Value) := #[]
  functions : Array FunctionObject := #[]
  bundles : Array (List Value) := #[]
  transfers : Array Transfer := #[]
  scopes : Array Scope := #[]
  /-- How many strings were made. -/
  strings : Nat := 0
deriving Inhabited

namespace Heap

def cell (heap : Heap) (address : Address) : Cell := heap.cells.getD address default

def vector (heap : Heap) (address : Address) : Array Value := heap.vectors.getD address #[]

def function (heap : Heap) (address : Address) : FunctionObject :=
  heap.functions.getD address default

def bundle (heap : Heap) (address : Address) : List Value := heap.bundles.getD address []

def transfer (heap : Heap) (address : Address) : Transfer := heap.transfers.getD address default

def scope (heap : Heap) (address : Address) : Scope := heap.scopes.getD address default

def allocCell (heap : Heap) (car cdr : Value) : Value × Heap :=
  (.cons heap.cells.size, { heap with cells := heap.cells.push ⟨car, cdr⟩ })

def allocVector (heap : Heap) (items : Array Value) : Value × Heap :=
  (.vector heap.vectors.size, { heap with vectors := heap.vectors.push items })

def allocFunction (heap : Heap) (callable : Callable) : Value × Heap :=
  (.function heap.functions.size, { heap with functions := heap.functions.push { callable } })

def allocBundle (heap : Heap) (values : List Value) : Value × Heap :=
  (.bundle heap.bundles.size, { heap with bundles := heap.bundles.push values })

def allocTransfer (heap : Heap) (transfer : Transfer) : Value × Heap :=
  (.transfer heap.transfers.size, { heap with transfers := heap.transfers.push transfer })

def allocScope (heap : Heap) (scope : Scope) : Address × Heap :=
  (heap.scopes.size, { heap with scopes := heap.scopes.push scope })

def allocString (heap : Heap) (text : String) : Value × Heap :=
  (.string heap.strings text, { heap with strings := heap.strings + 1 })

def setCar (heap : Heap) (address : Address) (value : Value) : Heap :=
  { heap with cells := heap.cells.modify address fun cell => { cell with car := value } }

def setCdr (heap : Heap) (address : Address) (value : Value) : Heap :=
  { heap with cells := heap.cells.modify address fun cell => { cell with cdr := value } }

/-- Writes an element; a vector that is too short is first filled up with `undefined`. -/
def setElement (heap : Heap) (address : Address) (position : Nat) (value : Value) : Heap :=
  { heap with
    vectors := heap.vectors.modify address fun items =>
      let items := items ++ Array.replicate (position + 1 - items.size) Value.undefined
      items.setIfInBounds position value }

/-- Associates a name with a value, in place of an earlier association. -/
def associate (name : String) (value : Value) : List (String × Value) → List (String × Value)
  | [] => [(name, value)]
  | (key, old) :: rest =>
      if key = name then (key, value) :: rest else (key, old) :: associate name value rest

def setProperty (heap : Heap) (address : Address) (property : String) (value : Value) : Heap :=
  { heap with
    functions := heap.functions.modify address fun function =>
      { function with properties := associate property value function.properties } }

/-- A property of a function; one that was never set is `undefined`. -/
def property (heap : Heap) (address : Address) (name : String) : Value :=
  ((heap.function address).properties.lookup name).getD .undefined

def bindVariable (heap : Heap) (scope : Address) (name : String) (value : Value) : Heap :=
  { heap with
    scopes := heap.scopes.modify scope fun scope =>
      { scope with vars := scope.vars.insert name value } }

/-- An upper bound on the length of a chain of distinct objects. -/
def size (heap : Heap) : Nat :=
  heap.cells.size + heap.vectors.size + heap.bundles.size + 1

section Lists

/-- The elements of a list of at most `limit` cells and what follows the last one, after the
elements in `seen`, which stand in reverse. -/
def spineFrom (heap : Heap) : Nat → List Value → Value → List Value × Value
  | limit + 1, seen, .cons address =>
      let cell := heap.cell address
      heap.spineFrom limit (cell.car :: seen) cell.cdr
  | _, seen, value => (seen.reverse, value)

/-- The elements of a possibly dotted list and its final tail. No list that ends is longer than
the number of cells. -/
def splitDotted (heap : Heap) (value : Value) : List Value × Value :=
  heap.spineFrom heap.cells.size [] value

/-- The elements of a proper list. -/
def listItems? (heap : Heap) (value : Value) : Option (List Value) :=
  match heap.splitDotted value with
  | (items, .nil) => some items
  | _ => none

/-- A fresh list of the items, ending in the given tail. -/
def allocListWithTail (heap : Heap) (items : List Value) (tail : Value) : Value × Heap :=
  items.foldr (fun item (rest, heap) => heap.allocCell item rest) (tail, heap)

def allocList (heap : Heap) (items : List Value) : Value × Heap :=
  heap.allocListWithTail items .nil

end Lists

section Lemmas

variable {heap : Heap} {address other : Address} {value : Value}

@[simp] theorem allocCell_cell {car cdr : Value} :
    (heap.allocCell car cdr).2.cell heap.cells.size = ⟨car, cdr⟩ := by
  simp [allocCell, cell]

theorem allocCell_cell_of_lt {car cdr : Value} (bound : address < heap.cells.size) :
    (heap.allocCell car cdr).2.cell address = heap.cell address := by
  simp [allocCell, cell, Array.getElem?_push, Nat.ne_of_lt bound]

theorem setCar_cell (bound : address < heap.cells.size) :
    (heap.setCar address value).cell address = { heap.cell address with car := value } := by
  simp [setCar, cell, Array.getElem_modify, bound]

theorem setCdr_cell (bound : address < heap.cells.size) :
    (heap.setCdr address value).cell address = { heap.cell address with cdr := value } := by
  simp [setCdr, cell, Array.getElem_modify, bound]

theorem setCar_cell_of_ne (different : other ≠ address) :
    (heap.setCar address value).cell other = heap.cell other := by
  simp [setCar, cell, Array.getElem?_modify, Ne.symm different]

theorem setCdr_cell_of_ne (different : other ≠ address) :
    (heap.setCdr address value).cell other = heap.cell other := by
  simp [setCdr, cell, Array.getElem?_modify, Ne.symm different]

end Lemmas

end Heap

end LispScript
