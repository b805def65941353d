import Behavior.Binary64

/-!
Operators on run-time values.

Every value is a double. A value counts as true unless it is zero, and truth is written as one or
zero. The machine and the constant folder both compute through the functions here, so a folded
expression has the bits that running it would have given.
-/

namespace Behavior

/-- A value is true unless it is a zero of either sign; NaN is true. -/
def truthy (x : Float) : Bool :=
  x != 0.0

/-- Truth as a value. -/
def truthValue (b : Bool) : Float :=
  if b then 1.0 else 0.0

/-- The smaller of two values; a NaN gives way to the other one. -/
def lesser (a b : Float) : Float :=
  if a.isNaN then b else if b.isNaN then a else if b < a then b else a

/-- The larger of two values; a NaN gives way to the other one. -/
def greater (a b : Float) : Float :=
  if a.isNaN then b else if b.isNaN then a else if a < b then b else a

/-- Operators with one operand. -/
inductive UnaryFn where
  | neg
  | not
  | abs
deriving DecidableEq, Repr, Inhabited

/-- Operators with two operands. -/
inductive BinaryFn where
  | add
  | sub
  | mul
  | div
  | mod
  | min
  | max
  | eq
  | ne
  | lt
  | le
  | gt
  | ge
  | and
  | or
deriving DecidableEq, Repr, Inhabited

/-- Operators with three operands: linear interpolation and restriction to a range. -/
inductive TernaryFn where
  | lerp
  | clamp
deriving DecidableEq, Repr, Inhabited

def UnaryFn.apply : UnaryFn → Float → Float
  | .neg, x => -x
  | .not, x => truthValue (!truthy x)
  | .abs, x => x.abs

/-- Both operands are always evaluated, also of the logical operators. Comparisons with NaN are
false, except that NaN differs from everything. -/
def BinaryFn.apply : BinaryFn → Float → Float → Float
  | .add, a, b => a + b
  | .sub, a, b => a - b
  | .mul, a, b => a * b
  | .div, a, b => a / b
  | .mod, a, b => Binary64.remainder a b
  | .min, a, b => lesser a b
  | .max, a, b => greater a b
  | .eq, a, b => truthValue (a == b)
  | .ne, a, b => truthValue (a != b)
  | .lt, a, b => truthValue (decide (a < b))
  | .le, a, b => truthValue (decide (a ≤ b))
  | .gt, a, b => truthValue (decide (b < a))
  | .ge, a, b => truthValue (decide (b ≤ a))
  | .and, a, b => truthValue (truthy a && truthy b)
  | .or, a, b => truthValue (truthy a || truthy b)

/-- `lerp a b t` is `a + (b - a) * t`. `clamp x low high` is total: inverted bounds give the upper
one. -/
def TernaryFn.apply : TernaryFn → Float → Float → Float → Float
  | .lerp, a, b, t => a + (b - a) * t
  | .clamp, x, low, high => lesser (greater x low) high

end Behavior
