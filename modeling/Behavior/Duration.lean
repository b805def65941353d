import Behavior.Binary64

/-!
Spans of time in whole nanoseconds. A duration has at most `2^64 - 1` seconds and one nanosecond
short of another; arithmetic stops at that bound.
-/

namespace Behavior

structure Duration where
  nanos : Nat
deriving DecidableEq, Repr, Inhabited

namespace Duration

def zero : Duration := ⟨0⟩

def perSecond : Nat := 1000000000

def longest : Duration := ⟨0x10000000000000000 * perSecond - 1⟩

def ofParts (seconds nanos : Nat) : Duration := ⟨seconds * perSecond + nanos⟩

def ofMillis (n : Nat) : Duration := ⟨n * 1000000⟩

def seconds (d : Duration) : Nat := d.nanos / perSecond

def subsecond (d : Duration) : Nat := d.nanos % perSecond

/-- Sum of two durations, at most the longest one. -/
def add (a b : Duration) : Duration := ⟨min (a.nanos + b.nanos) longest.nanos⟩

/-- The duration in nanoseconds, at most what sixty-four bits hold. -/
def clockNanos (d : Duration) : Nat := min d.nanos 0xffffffffffffffff

/-- The duration of a number of seconds, to the nearest nanosecond, halves going to even. Numbers
that are not positive stand for no time, and what is too long for the longest duration. -/
def ofSeconds (x : Float) : Duration :=
  if 0.0 < x then
    match Binary64.parts? x with
    | some p =>
      let nanos := p.roundHalfEven perSecond
      if nanos ≤ longest.nanos then ⟨nanos⟩ else longest
    | none => longest
  else zero

end Duration

end Behavior
