import Behavior.Decimal.Shortest

/-!
How the digits of a double are laid out as text: positional or with an exponent, with or without a
fractional part when there is none.
-/

namespace Behavior.Decimal

/-- Choices of one text form for doubles. -/
structure Layout where
  /-- Whether a decimal whose point stands after this many digits is written positionally. -/
  positional : Int → Bool
  /-- Whether a whole number is written with a fractional part. -/
  keepFraction : Bool

def chars (digits : List Nat) : List Char :=
  digits.map fun d => Char.ofNat ('0'.toNat + d)

/-- Digits with the point written in place, and zeros where the digits do not reach it. -/
def Digits.inPlace (d : Digits) (keepFraction : Bool) : List Char :=
  if d.point ≤ 0 then
    '0' :: '.' :: List.replicate (-d.point).toNat '0' ++ chars d.digits
  else
    let whole := d.point.toNat
    let fraction := d.digits.drop whole
    let front := chars (d.digits.take whole) ++ List.replicate (whole - d.digits.length) '0'
    if !fraction.isEmpty then front ++ '.' :: chars fraction
    else if keepFraction then front ++ ['.', '0']
    else front

/-- One digit, the others behind a point, and the power of ten. -/
def Digits.withExponent (d : Digits) : List Char :=
  let exponent := (toString (d.point - 1)).toList
  match d.digits with
  | [] => []
  | [only] => chars [only] ++ 'e' :: exponent
  | first :: rest => chars [first] ++ '.' :: chars rest ++ 'e' :: exponent

/-- Text of a double in the given layout. -/
def Layout.render (l : Layout) (x : Float) : String :=
  match Binary64.parts? x with
  | none => if x.isNaN then "NaN" else if x < 0.0 then "-inf" else "inf"
  | some p =>
    let d := shortest p
    let text := if l.positional d.point then d.inPlace l.keepFraction else d.withExponent
    String.ofList (if p.negative then '-' :: text else text)

/-- Every digit in place, whole numbers without a fraction. -/
def plain : Layout where
  positional _ := true
  keepFraction := false

/-- Positional from one ten-thousandth up to sixteen digits, with a fraction in any case; an
exponent outside. -/
def scientific : Layout where
  positional point := -4 < point && point ≤ 16
  keepFraction := true

end Behavior.Decimal
