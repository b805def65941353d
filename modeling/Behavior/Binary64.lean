/-!
Doubles as exact numbers: a finite double is a signed natural number times a power of two. The
questions asked of a value here (is it a whole number, which one, what remains after division) are
answered in integers, without rounding.
-/

namespace Behavior.Binary64

/-- The leading bit of a mantissa, which is there but not stored unless the number is very small:
two to the power of fifty-two. -/
def leadingBit : Nat := 0x10000000000000

/-- A finite double, `(-1) ^ negative * mantissa * 2 ^ exponent`. -/
structure Parts where
  negative : Bool
  mantissa : Nat
  exponent : Int
deriving DecidableEq, Repr

/-- Sign bit of a double; also set for negative zero. -/
def isNegative (x : Float) : Bool :=
  x.toBits >>> 63 == 1

/-- The exact value of a finite double, nothing for infinities and NaN. Subnormal doubles share the
exponent of the smallest normal ones and lack the implicit leading bit. -/
def parts? (x : Float) : Option Parts :=
  let field := ((x.toBits >>> 52) &&& 0x7ff).toNat
  let fraction := (x.toBits &&& 0xfffffffffffff).toNat
  if field = 0x7ff then none
  else if field = 0 then some ⟨isNegative x, fraction, -1074⟩
  else some ⟨isNegative x, fraction + leadingBit, (field : Int) - 1075⟩

/-- The double with the given value, which has to be representable: the mantissa is first shifted
into the range that a double's fraction covers. -/
def ofParts (p : Parts) : Float :=
  let lift := min (52 - p.mantissa.log2) (p.exponent + 1074).toNat
  let mantissa := p.mantissa * Nat.pow 2 lift
  let exponent := p.exponent - lift
  let magnitude :=
    if mantissa < leadingBit then mantissa
    else (exponent + 1075).toNat * leadingBit + (mantissa - leadingBit)
  let signed := if p.negative then magnitude + 0x8000000000000000 else magnitude
  Float.ofBits signed.toUInt64

/-- The magnitude as a natural number, for a value without fractional part. -/
def Parts.whole? (p : Parts) : Option Nat :=
  match p.exponent with
  | .ofNat e => some (p.mantissa * Nat.pow 2 e)
  | .negSucc e =>
    if p.mantissa % Nat.pow 2 (e + 1) = 0 then some (p.mantissa / Nat.pow 2 (e + 1)) else none

/-- Finite and without fractional part. -/
def isWhole (x : Float) : Bool :=
  ((parts? x).bind Parts.whole?).isSome

/-- The natural number a double is equal to; negative zero is zero. -/
def toNat? (x : Float) : Option Nat :=
  match parts? x with
  | some p => if p.negative && p.mantissa != 0 then none else p.whole?
  | none => none

/-- The nearest natural number to a non-negative value, halves going up. -/
def Parts.roundHalfUp (p : Parts) : Nat :=
  match p.exponent with
  | .ofNat e => p.mantissa * Nat.pow 2 e
  | .negSucc e => (p.mantissa + Nat.pow 2 e) / Nat.pow 2 (e + 1)

/-- The nearest natural number to `scale` times a non-negative value, halves going to even. -/
def Parts.roundHalfEven (p : Parts) (scale : Nat) : Nat :=
  match p.exponent with
  | .ofNat e => p.mantissa * Nat.pow 2 e * scale
  | .negSucc e =>
    let unit := Nat.pow 2 (e + 1)
    let quotient := p.mantissa * scale / unit
    let rest := p.mantissa * scale % unit
    if 2 * rest < unit then quotient
    else if unit < 2 * rest then quotient + 1
    else quotient + quotient % 2

/-- What remains of `a` after removing the largest whole multiple of `b`, truncated toward zero:
the result has the sign of `a` and is exact. There is no remainder by zero or of an infinity, and
an infinite divisor leaves the dividend as it is. -/
def remainder (a b : Float) : Float :=
  match parts? a, parts? b with
  | some p, some q =>
    if q.mantissa = 0 then 0.0 / 0.0
    else
      let exponent := min p.exponent q.exponent
      let left := p.mantissa * Nat.pow 2 (p.exponent - exponent).toNat
      let right := q.mantissa * Nat.pow 2 (q.exponent - exponent).toNat
      ofParts ⟨p.negative, left % right, exponent⟩
  | some _, none => if b.isNaN then b else a
  | none, _ => 0.0 / 0.0

end Behavior.Binary64
