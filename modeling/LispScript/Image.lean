import LispScript.Heap
import LispScript.Standard

/-!
The image: all that running code can read or change.
-/

namespace LispScript

/-- Symbols, objects, and the number of calls of compiled functions that are under way with its
limit. -/
structure Image where
  symbols : SymbolTable
  heap : Heap
  depth : Nat := 0
  depthLimit : Nat
deriving Inhabited

namespace Image

/-- The scope of a script's top level. -/
def globalScope : Address := 0

/-- The routines of the support object are the first function objects. -/
def nativeAddress : Script.Native → Address
  | .routine r => r.ctorIdx
  | .primitive p => Script.Routine.all.length + p.ctorIdx

/-- The functions that the symbols of the primitives hold come after the routines. -/
def primitiveAddress (p : Primitive) : Address := Script.Native.all.length + p.ctorIdx

def initialHeap : Heap :=
  { functions := (Script.Native.all.map fun n => { callable := .native n }).toArray ++
      (Primitive.all.map fun p => { callable := .primitive p }).toArray
    scopes := #[⟨{}, none, true⟩] }

def initialSymbols : SymbolTable :=
  Primitive.all.foldl (fun table p => table.setFunction p.symbol
    (some (.function (primitiveAddress p)))) SymbolTable.standard

/-- The image before anything is read, with a limit for the depth of calls. -/
def initial (depthLimit : Nat) : Image :=
  { symbols := initialSymbols, heap := initialHeap, depthLimit }

/-- The value of a member of the support object, unless there is no such member. -/
def support? : Script.Support → Option Value
  | .nil => some .nil
  | .t => some .t
  | .native n => some (.function (nativeAddress n))
  | .absent _ => none

/-- The values that a result carries, bundled or bare. -/
def valuesOf (image : Image) : Value → List Value
  | .bundle address => image.heap.bundle address
  | value => [value]

theorem routineIndex (r : Script.Routine) : Script.Routine.all[r.ctorIdx]? = some r := by
  cases r <;> rfl

theorem primitiveIndex (p : Primitive) : Primitive.all[p.ctorIdx]? = some p := by
  cases p <;> rfl

end Image

end LispScript
