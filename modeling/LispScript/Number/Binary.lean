/-!
Finite doubles as exact binary fractions, and the whole numbers taken from them.
-/

namespace LispScript.Number

/-- The number `significand · 2 ^ exponent`. -/
structure Binary where
  significand : Nat
  exponent : Int
deriving Repr, DecidableEq

/-- The weight of the leading bit of a significand, which normal numbers leave unwritten. -/
def leadingBit : UInt64 := (1 : UInt64) <<< 52

def fractionBits (x : Float) : Nat := (x.toBits % leadingBit).toNat

def exponentBits (x : Float) : Nat := (x.toBits / leadingBit % 2048).toNat

/-- The sign bit, set for `-0.0` too. -/
def isNegative (x : Float) : Bool := (1 : UInt64) <<< 63 ≤ x.toBits

def isFinite (x : Float) : Bool := exponentBits x != 2047

namespace Binary

/-- The magnitude of a finite double. -/
def ofFloat (x : Float) : Binary :=
  if exponentBits x = 0 then ⟨fractionBits x, -1074⟩
  else ⟨(x.toBits % leadingBit + leadingBit).toNat, (exponentBits x : Int) - 1075⟩

/-- The whole part. -/
def truncate (b : Binary) : Nat :=
  match b.exponent with
  | .ofNat up => b.significand <<< up
  | .negSucc down => b.significand >>> (down + 1)

def isWhole (b : Binary) : Bool :=
  match b.exponent with
  | .ofNat _ => true
  | .negSucc down => b.significand >>> (down + 1) <<< (down + 1) == b.significand

theorem truncate_of_isWhole {b : Binary} (whole : b.isWhole = true) (small : b.exponent < 0) :
    b.truncate * Nat.pow 2 (-b.exponent).toNat = b.significand := by
  obtain ⟨significand, exponent⟩ := b
  cases exponent with
  | ofNat up => exact absurd small (by simp)
  | negSucc down =>
      have exact : significand >>> (down + 1) <<< (down + 1) = significand := by
        simpa [isWhole] using whole
      rw [Nat.shiftLeft_eq] at exact
      simpa [truncate] using exact

end Binary

/-- No fractional part; infinities and not-a-number have none to be without. -/
def isWhole (x : Float) : Bool := isFinite x && (Binary.ofFloat x).isWhole

/-- The largest machine-word count. -/
def wordLimit : Nat := Nat.pow 2 64 - 1

/-- A double as a count: the whole part, with negative numbers and not-a-number at zero and numbers
too large for a word at the largest word. -/
def toCount (x : Float) : Nat :=
  if isNegative x then 0
  else if isFinite x then min (Binary.ofFloat x).truncate wordLimit
  else if x == x then wordLimit else 0

theorem toCount_le (x : Float) : toCount x ≤ wordLimit := by
  unfold toCount
  repeat' split
  all_goals first
    | exact Nat.zero_le _
    | exact Nat.min_le_right _ _
    | exact Nat.le_refl _

/-- The remainder of truncating division: it has the sign of the dividend. -/
def remainder (x y : Float) : Float :=
  if !isFinite x || y == 0 || !(y == y) then 0.0 / 0.0
  else if !isFinite y then x
  else
    let a := Binary.ofFloat x
    let b := Binary.ofFloat y
    let exponent := min a.exponent b.exponent
    let dividend := a.significand * Nat.pow 2 (a.exponent - exponent).toNat
    let divisor := b.significand * Nat.pow 2 (b.exponent - exponent).toNat
    let magnitude := (Float.ofNat (dividend % divisor)).scaleB exponent
    if isNegative x then -magnitude else magnitude

end LispScript.Number
