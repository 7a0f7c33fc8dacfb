import LispScript.Number.Binary

/-!
The shortest decimal that reads back as a given double.

A double stands for the reals that round to it. The decimals with a fixed last place form a grid;
going from coarse grids to fine ones, the first grid with a point among those reals gives the
answer, and of two such points the nearer one is taken.
-/

namespace LispScript.Number

/-- The number `digits · 10 ^ scale`. -/
structure Decimal where
  digits : Nat
  scale : Int
deriving Repr, DecidableEq

/-- The reals around `value` that round to it, all four counts in units of `1 / unit`: from
`value - below` to `value + above`, the ends included when `closed`. -/
structure Rounding where
  value : Nat
  below : Nat
  above : Nat
  unit : Nat
  closed : Bool
deriving Repr, DecidableEq

namespace Rounding

/-- The reals that round to the magnitude of a finite nonzero double. The gap below a power of two
is half the gap above it, except next to the subnormals. -/
def ofFloat (x : Float) : Rounding :=
  let b := Binary.ofFloat x
  let up := Nat.pow 2 b.exponent.toNat
  let narrow := fractionBits x == 0 && 1 < exponentBits x
  { value := 4 * b.significand * up
    below := if narrow then up else 2 * up
    above := 2 * up
    unit := 4 * Nat.pow 2 (-b.exponent).toNat
    closed := b.significand % 2 == 0 }

/-- The same reals in units that make the grid `10 ^ scale` whole. -/
def onScale (r : Rounding) (scale : Int) : Rounding :=
  let grow := Nat.pow 10 (-scale).toNat
  { r with
    value := r.value * grow
    below := r.below * grow
    above := r.above * grow
    unit := r.unit * Nat.pow 10 scale.toNat }

/-- Whether the whole multiple `count` of the unit rounds to the value. -/
def contains (r : Rounding) (count : Nat) : Bool :=
  if r.closed then r.value ≤ count * r.unit + r.below && count * r.unit ≤ r.value + r.above
  else r.value < count * r.unit + r.below && count * r.unit < r.value + r.above

/-- The grid point nearest to the value among those that round to it, a tie going up. -/
def nearest? (r : Rounding) : Option Nat :=
  let low := r.value / r.unit
  let high := low + 1
  let lowFits := low != 0 && r.contains low
  if r.contains high then
    if lowFits && r.value - low * r.unit < high * r.unit - r.value then some low else some high
  else if lowFits then some low else none

/-- Tries `count` scales downward from `scale`. -/
def search (r : Rounding) : Nat → Int → Option Decimal
  | 0, _ => none
  | count + 1, scale =>
      match (r.onScale scale).nearest? with
      | some digits => some ⟨digits, scale⟩
      | none => r.search count (scale - 1)

theorem nearest?_contains {r : Rounding} {digits : Nat} (found : r.nearest? = some digits) :
    r.contains digits = true := by
  simp only [nearest?] at found
  split at found
  · rename_i fits
    split at found <;> cases found
    · rename_i low
      simp only [Bool.and_eq_true] at low
      exact low.1.2
    · exact fits
  · split at found
    · rename_i low
      cases found
      simp only [Bool.and_eq_true] at low
      exact low.2
    · contradiction

end Rounding

/-- The shortest decimal for the magnitude of a finite nonzero double. No double needs more than
seventeen digits or a place below the 342nd. -/
def shortest (x : Float) : Decimal :=
  let r := Rounding.ofFloat x
  let whole := r.value / r.unit
  let start := if whole = 0 then 0 else (Nat.toDigits 10 whole).length
  (r.search 360 start).getD ⟨0, 0⟩

end LispScript.Number
