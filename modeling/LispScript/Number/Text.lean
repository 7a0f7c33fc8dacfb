import LispScript.Number.Shortest

/-!
How numbers are written, both as data and in scripts.
-/

namespace LispScript.Number

/-- Positional notation, never an exponent. -/
def Decimal.positional (d : Decimal) : String :=
  let digits := Nat.toDigits 10 d.digits
  if 0 ≤ d.scale then String.ofList (digits ++ List.replicate d.scale.toNat '0')
  else
    let places := (-d.scale).toNat
    let padded := List.replicate (places + 1 - digits.length) '0' ++ digits
    let whole := padded.length - places
    String.ofList (padded.take whole ++ '.' :: padded.drop whole)

/-- Magnitudes below this bound are written as whole numbers when they are whole. -/
def wholeBound : Nat := Nat.pow 10 15

/-- A whole number below `10 ^ 15` in magnitude is written without a point and any other number as
the shortest positional decimal that reads back; a zero has no sign. -/
def text (x : Float) : String :=
  if !(x == x) then "NaN"
  else
    let sign := if isNegative x then "-" else ""
    if !isFinite x then sign ++ "Infinity"
    else
      let b := Binary.ofFloat x
      if b.isWhole && b.truncate < wholeBound then
        if b.significand = 0 then "0" else sign ++ toString b.truncate
      else sign ++ (shortest x).positional

/-- The text of a number inside a message: as above, but with the sign of a zero and a short
infinity. -/
def messageText (x : Float) : String :=
  let sign := if isNegative x then "-" else ""
  if !(x == x) then "NaN"
  else if !isFinite x then sign ++ "inf"
  else if x == 0 then sign ++ "0"
  else text x

end LispScript.Number
