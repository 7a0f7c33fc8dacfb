/-!
Evenly spaced runs of code points, the shape in which tables of character properties are written.
-/

namespace LispScript.Text

/-- The code points `first`, `first + step`, … up to `last`. -/
structure CodeRange where
  first : Nat
  last : Nat
  step : Nat
deriving Repr, DecidableEq

namespace CodeRange

def contains (range : CodeRange) (code : Nat) : Bool :=
  range.first ≤ code && code ≤ range.last && (code - range.first) % range.step == 0

theorem contains_iff (range : CodeRange) (code : Nat) :
    range.contains code = true ↔
      range.first ≤ code ∧ code ≤ range.last ∧ (code - range.first) % range.step = 0 := by
  simp [contains, and_assoc]

end CodeRange

end LispScript.Text
