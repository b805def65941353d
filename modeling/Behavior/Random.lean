/-!
The seeded sequence of random numbers a model draws from.
-/

namespace Behavior

/-- State of a SplitMix64 generator. -/
structure Random where
  state : UInt64
deriving DecidableEq, Repr, Inhabited

namespace Random

/-- The generator's next state; each draw moves it by a fixed odd number. -/
def advance (r : Random) : Random :=
  ⟨r.state + 0x9e3779b97f4a7c15⟩

/-- Sixty-four bits mixed from a state. -/
def mix (z : UInt64) : UInt64 :=
  let z := (z ^^^ (z >>> 30)) * 0xbf58476d1ce4e5b9
  let z := (z ^^^ (z >>> 27)) * 0x94d049bb133111eb
  z ^^^ (z >>> 31)

/-- The next number, uniform in `[0, 1)`: the upper fifty-three bits over `2 ^ 53`. -/
def next (r : Random) : Float × Random :=
  let r := r.advance
  ((mix r.state >>> 11).toFloat * (1.0 / 9007199254740992.0), r)

end Random

end Behavior
