import Behavior.Json

/-!
Intents: what a source wants a channel to do, and how urgently.
-/

namespace Behavior

/-- What a contribution asks for. -/
inductive IntentValue where
  | scalar (value : Float)
  | vector (x y z : Float)
  /-- Index into the string table of the contributing model. Symbols are never blended. -/
  | symbol (index : UInt32)
deriving Inhabited

namespace IntentValue

/-- Whether both values are scalars, vectors or symbols. -/
def sameKind : IntentValue → IntentValue → Bool
  | scalar _, scalar _ => true
  | vector _ _ _, vector _ _ _ => true
  | symbol _, symbol _ => true
  | _, _ => false

/-- The numbers that are blended, if the value can be. -/
def components? : IntentValue → Option (Float × Float × Float)
  | scalar v => some (v, 0.0, 0.0)
  | vector x y z => some (x, y, z)
  | symbol _ => none

end IntentValue

/-- How much a source wants its value. -/
structure Urgency where
  value : Float
  range : 0.0 ≤ value ∧ value ≤ 1.0

namespace Urgency

def zero : Urgency :=
  ⟨0.0, by decide⟩

def one : Urgency :=
  ⟨1.0, by decide⟩

instance : Inhabited Urgency :=
  ⟨zero⟩

/-- Bring a number into range. One that is not a number is no urgency at all. -/
def ofFloat (x : Float) : Urgency :=
  if h : 0.0 ≤ x ∧ x ≤ 1.0 then ⟨x, h⟩
  else if 1.0 < x then one
  else zero

/-- Whether the source wants nothing. -/
def isAbstention (u : Urgency) : Bool :=
  u.value ≤ 0.0

end Urgency

/-- What one source wants of one channel. -/
structure Contribution where
  /-- Sources are numbered in the order in which they were registered. -/
  source : UInt32
  channel : UInt16
  value : IntentValue
  urgency : Urgency
deriving Inhabited

/-- Read a value, a variant named for its kind. -/
def IntentValue.ofJson? (number : Json → Option Float) (j : Json) : Option IntentValue := do
  match ← j.variant? with
  | ("scalar", some v) => return .scalar (← number v)
  | ("vector", some (.arr [x, y, z])) => return .vector (← number x) (← number y) (← number z)
  | ("symbol", some v) => return .symbol (← v.uint32?)
  | _ => none

def Contribution.ofJson? (number : Json → Option Float) (j : Json) : Option Contribution :=
  match j.record? ["source", "channel", "value", "urgency"] with
  | some [some source, some channel, some value, some urgency] => do
    return {
      source := ← source.uint32?
      channel := ← channel.uint16?
      value := ← IntentValue.ofJson? number value
      urgency := .ofFloat (← number urgency) }
  | _ => none

end Behavior
