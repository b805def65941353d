import Behavior.Binary64
import Behavior.Intent
import Behavior.Intent.Channels
import Behavior.Model.LoadError
import Behavior.Schema

/-!
Reading the intents of a model out of its output vector.
-/

namespace Behavior

/-- Why a model does not fit an entity. -/
inductive BindError where
  | unknownInput (name : String)
  | unknownChannel (name : String)
  | load (e : LoadError)
deriving Inhabited

def BindError.message : BindError → String
  | unknownInput name => s!"state provider has no value for input {name}"
  | unknownChannel name => s!"channel {name} is not configured in the merger"
  | load e => e.message

/-- A channel of a model and its number among the channels of an entity. -/
structure BoundChannel where
  channel : UInt16
  layout : Schema.Channel
deriving Inhabited

namespace BoundChannel

/-- The value in a channel's slots. A vector that is too short, or a number that is no index where
a text is meant, gives none. -/
def value? (layout : Schema.Channel) (outputs : Array Float) : Option IntentValue :=
  let slot := layout.valueSlot.toNat
  match layout.type with
  | .vector3 => do
    return .vector (← outputs[slot]?) (← outputs[slot + 1]?) (← outputs[slot + 2]?)
  | .string => do
    let i ← Binary64.toNat? (← outputs[slot]?)
    if i < UInt32.size then some (.symbol i.toUInt32) else none
  | .number | .bool => do
    return .scalar (← outputs[slot]?)

/-- The contribution to one channel. Without a value it is an abstention. -/
def contribution (b : BoundChannel) (source : UInt32) (outputs : Array Float) : Contribution :=
  match value? b.layout outputs with
  | some value =>
    ⟨source, b.channel, value, .ofFloat (outputs.getD b.layout.urgencySlot.toNat 0.0)⟩
  | none => ⟨source, b.channel, .symbol 0, .zero⟩

end BoundChannel

/-- Find the channels of a model among those of an entity. -/
def Channels.bind (channels : Channels) (s : Schema) : Except BindError (List BoundChannel) :=
  s.channels.mapM fun layout =>
    match channels.channel? layout.name with
    | some channel => .ok ⟨channel, layout⟩
    | none => .error (.unknownChannel layout.name)

/-- The contributions of a source, one per channel of its model. -/
def contributions (bound : List BoundChannel) (source : UInt32) (outputs : Array Float) :
    List Contribution :=
  bound.map (·.contribution source outputs)

end Behavior
