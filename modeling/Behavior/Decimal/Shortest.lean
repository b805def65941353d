import Behavior.Binary64

/-!
The shortest decimal that reads back as a given double.

A positive finite double `m * 2 ^ q` stands for every real that rounds to it: an interval that
reaches half way to each neighbour, with its ends when `m` is even. Among the decimals inside it
the ones with the fewest digits are found by trying one digit, two digits and so on; on each grid
only the two neighbours of the value have to be looked at.
-/

namespace Behavior.Decimal

/-- The decimal `0.d₁d₂… * 10 ^ point`, most significant digit first. -/
structure Digits where
  digits : List Nat
  point : Int
deriving DecidableEq, Repr

/-- The reals that round to one double, as multiples of a common unit `scale / divisor`. -/
structure Interval where
  low : Nat
  value : Nat
  high : Nat
  closed : Bool
  scale : Nat
  divisor : Nat
deriving Repr

/-- The interval of a positive double. Its unit is a quarter of the gap above the value; the gap
below a power of two is half as wide, unless the value is among the smallest ones. -/
def Interval.ofParts (p : Binary64.Parts) : Interval :=
  let narrow := p.mantissa = Binary64.leadingBit ∧ -1074 < p.exponent
  let exponent := p.exponent - 2
  { low := if narrow then 4 * p.mantissa - 1 else 4 * p.mantissa - 2
    value := 4 * p.mantissa
    high := 4 * p.mantissa + 2
    closed := p.mantissa % 2 = 0
    scale := Nat.pow 2 exponent.toNat
    divisor := Nat.pow 2 (-exponent).toNat }

/-- Decimal digits of a positive number. -/
def digitsOf (n : Nat) : List Nat :=
  (Nat.toDigits 10 n).map fun c => c.toNat - '0'.toNat

/-- The power of ten of a value's leading digit. The value is scaled by `10 ^ 400` first, which
makes every double at least one. -/
def Interval.leading (i : Interval) : Int :=
  ((digitsOf (i.value * i.scale * Nat.pow 10 400 / i.divisor)).length : Int) - 401

/-- The multiple `n` of the grid unit `10 ^ unit` lies in the interval. -/
def Interval.contains (i : Interval) (unit : Int) (n : Nat) : Bool :=
  let point := n * Nat.pow 10 unit.toNat * i.divisor
  let low := i.low * i.scale * Nat.pow 10 (-unit).toNat
  let high := i.high * i.scale * Nat.pow 10 (-unit).toNat
  if i.closed then low ≤ point && point ≤ high else low < point && point < high

/-- The point of the grid `10 ^ unit` in the interval that is nearest to the value, the upper one
of two equally near ones. -/
def Interval.onGrid? (i : Interval) (unit : Int) : Option Nat :=
  let value := i.value * i.scale * Nat.pow 10 (-unit).toNat
  let step := Nat.pow 10 unit.toNat * i.divisor
  let below := value / step
  match i.contains unit below && below != 0, i.contains unit (below + 1) with
  | true, true => if 2 * (value % step) < step then some below else some (below + 1)
  | true, false => some below
  | false, true => some (below + 1)
  | false, false => none

/-- The shortest decimal in the interval with at least `count` digits, tried for `fuel` counts. -/
def Interval.search (i : Interval) (leading : Int) : (fuel count : Nat) → Nat × Int
  | 0, _ => (0, 0)
  | fuel + 1, count =>
    let unit := leading - (count : Int) + 1
    match i.onGrid? unit with
    | some n => (n, unit)
    | none => i.search leading fuel (count + 1)

def trimZeros (digits : List Nat) : List Nat :=
  (digits.reverse.dropWhile (· == 0)).reverse

/-- The shortest digits of a non-negative double; zero is the single digit zero. Seventeen digits
always suffice. -/
def shortest (p : Binary64.Parts) : Digits :=
  if p.mantissa = 0 then ⟨[0], 1⟩
  else
    let i := Interval.ofParts p
    let (n, unit) := i.search i.leading 17 1
    let digits := digitsOf n
    ⟨trimZeros digits, unit + digits.length⟩

end Behavior.Decimal
