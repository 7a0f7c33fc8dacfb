import LispScript.Number.Binary

/-!
Reading decimal notation: the spellings that denote numbers and the nearest double to a decimal.
-/

namespace LispScript.Number

def infinity : Float := 1.0 / 0.0

/-- The double nearest to `digits · 10 ^ exponent`. Beyond the bounds, which lie well outside the
range of doubles, the answer is infinity or zero without computing the power. -/
def nearestDouble (digits : Nat) (exponent : Int) : Float :=
  let magnitude := (Nat.toDigits 10 digits).length + exponent
  if digits = 0 || magnitude < -400 then 0.0
  else if 400 < magnitude then infinity
  else if 0 ≤ exponent then Float.ofScientific digits false exponent.toNat
  else Float.ofScientific digits true (-exponent).toNat

/-- The value of a run of decimal digits. -/
def digitsValue (cs : List Char) : Nat :=
  cs.foldl (fun value c => 10 * value + (c.toNat - '0'.toNat)) 0

/-- Splits off an optional sign. -/
def splitSign : List Char → Bool × List Char
  | '+' :: cs => (false, cs)
  | '-' :: cs => (true, cs)
  | cs => (false, cs)

/-- The letters that introduce an exponent. -/
def isExponentMarker (c : Char) : Bool :=
  c == 'E' || c == 'D' || c == 'F' || c == 'S' || c == 'L'

/-- The exponent of the text after an exponent marker: an optional sign and at least one digit. -/
def exponent? (cs : List Char) : Option Int :=
  let (negative, digits) := splitSign cs
  if digits.isEmpty || !digits.all Char.isDigit then none
  else some (if negative then -(digitsValue digits : Int) else digitsValue digits)

/-- The digits before and after the first point, `none` after it when there is no point. -/
def splitPoint (cs : List Char) : List Char × Option (List Char) :=
  match cs.dropWhile (· != '.') with
  | [] => (cs.takeWhile (· != '.'), none)
  | _ :: fraction => (cs.takeWhile (· != '.'), some fraction)

/-- The text before and after the first exponent marker. -/
def splitExponent (cs : List Char) : List Char × Option (List Char) :=
  match cs.dropWhile (fun c => !isExponentMarker c) with
  | [] => (cs.takeWhile (fun c => !isExponentMarker c), none)
  | _ :: exponent => (cs.takeWhile (fun c => !isExponentMarker c), some exponent)

/-- An unsigned number with a fraction or an exponent. A point may end the digits only where an
exponent follows, and a digit must stand on one side of it. -/
def fractional? (body : List Char) : Option Float :=
  let (mantissa, exponentText) := splitExponent body
  let (whole, fraction) := splitPoint mantissa
  let digits := whole ++ fraction.getD []
  let shaped := match fraction with
    | some fraction => !digits.isEmpty && (!fraction.isEmpty || exponentText.isSome)
    | none => exponentText.isSome && !whole.isEmpty
  if !shaped || !digits.all Char.isDigit then none
  else
    let places : Int := (fraction.getD []).length
    match exponentText with
    | none => some (nearestDouble (digitsValue digits) (-places))
    | some text => (exponent? text).map fun e => nearestDouble (digitsValue digits) (e - places)

/-- An unsigned whole number, with an optional final point. -/
def whole? (body : List Char) : Option Float :=
  let digits := if body.getLast? = some '.' then body.dropLast else body
  if digits.isEmpty || !digits.all Char.isDigit then none
  else some (nearestDouble (digitsValue digits) 0)

/-- The number that an upper-case token spells, if it spells one. -/
def ofToken? (cs : List Char) : Option Float :=
  let (negative, body) := splitSign cs
  ((whole? body).orElse fun _ => fractional? body).map fun x => if negative then -x else x

end LispScript.Number
