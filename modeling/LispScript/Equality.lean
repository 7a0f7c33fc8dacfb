import LispScript.Heap

/-!
Equality by content. A chain of distinct objects is no longer than the heap is large, which bounds
the descent into data without cycles.
-/

namespace LispScript.Heap

/-- `EQUAL` down to the given depth: conses and strings by content, all else by identity. -/
def equalWithin (heap : Heap) : Nat → Value → Value → Bool
  | depth + 1, .cons a, .cons b =>
      a == b || (heap.equalWithin depth (heap.cell a).car (heap.cell b).car &&
        heap.equalWithin depth (heap.cell a).cdr (heap.cell b).cdr)
  | _ + 1, .string _ a, .string _ b => a == b
  | _ + 1, a, b => a.eql b
  | 0, _, _ => false

def equal (heap : Heap) (a b : Value) : Bool := heap.equalWithin (heap.cells.size + 1) a b

/-- Equality down to the given depth that also compares vectors and bundles by content. -/
def similarWithin (heap : Heap) : Nat → Value → Value → Bool
  | depth + 1, .cons a, .cons b =>
      heap.similarWithin depth (heap.cell a).car (heap.cell b).car &&
        heap.similarWithin depth (heap.cell a).cdr (heap.cell b).cdr
  | _ + 1, .string _ a, .string _ b => a == b
  | depth + 1, .vector a, .vector b =>
      (heap.vector a).size == (heap.vector b).size &&
        ((heap.vector a).toList.zip (heap.vector b).toList).all fun (x, y) =>
          heap.similarWithin depth x y
  | depth + 1, .bundle a, .bundle b =>
      (heap.bundle a).length == (heap.bundle b).length &&
        ((heap.bundle a).zip (heap.bundle b)).all fun (x, y) => heap.similarWithin depth x y
  | _ + 1, a, b => a.eql b
  | 0, _, _ => false

def similar (heap : Heap) (a b : Value) : Bool := heap.similarWithin heap.size a b

end LispScript.Heap
