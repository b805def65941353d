import Behavior.Schema
import Behavior.Stream.StringMap

/-!
An extension in the state vectors of the model it extends: variables and channels are matched by
name and type.
-/

namespace Behavior

/-- For the slots of an extension, the slots of the stream's vectors. -/
structure Bridge where
  inputs : Array Nat
  outputs : Array Nat
  /-- Slots of the extension that hold texts. -/
  stringInputs : List Nat
  stringOutputs : List Nat
  strings : StringMap
deriving Inhabited

namespace Bridge

/-- Map a run of slots to a run of others. -/
def link (slots : Array Nat) (own root width : Nat) : Array Nat :=
  (List.range width).foldl (fun slots i => slots.setIfInBounds (own + i) (root + i)) slots

/-- Map the slots of variables. The name of one that the other side lacks is given instead. -/
def linkEntries (root : List Schema.Entry) :
    List Schema.Entry → Array Nat → Except String (Array Nat)
  | [], slots => .ok slots
  | e :: rest, slots =>
    match root.find? fun r => r.name == e.name && r.type == e.type with
    | none => .error e.name
    | some r => linkEntries root rest (link slots e.slot.toNat r.slot.toNat e.type.width)

/-- Map the slots of channels, values and urgencies. -/
def linkChannels (root : List Schema.Channel) :
    List Schema.Channel → Array Nat → Except String (Array Nat)
  | [], slots => .ok slots
  | c :: rest, slots =>
    match root.find? fun r => r.name == c.name && r.type == c.type with
    | none => .error c.name
    | some r =>
      let slots := link slots c.valueSlot.toNat r.valueSlot.toNat c.type.width
      linkChannels root rest (slots.setIfInBounds c.urgencySlot.toNat r.urgencySlot.toNat)

/-- The bridge from an extension to the model that a stream started with, or the name of a variable
or channel that does not fit. Slots that belong to nothing are mapped to the first one. -/
def build (root own : Schema) (strings : StringMap) : Except String Bridge := do
  let inputs ← linkEntries root.inputs own.inputs (Array.replicate own.inputSize 0)
  let outputs ← linkEntries root.outputs own.outputs (Array.replicate own.outputSize 0)
  let outputs ← linkChannels root.channels own.channels outputs
  return {
    inputs
    outputs
    stringInputs := (own.inputs.filter (·.type == .string)).map (·.slot.toNat)
    stringOutputs := (own.outputs.filter (·.type == .string)).map (·.slot.toNat) ++
      (own.channels.filter (·.type == .string)).map (·.valueSlot.toNat)
    strings }

/-- Change a vector at some slots. -/
def recode (f : Float → Float) (slots : List Nat) (values : Array Float) : Array Float :=
  slots.foldl (fun values slot => values.modify slot f) values

def readInputs (b : Bridge) (inputs : Array Float) : Array Float :=
  recode b.strings.enter b.stringInputs (b.inputs.map fun slot => inputs.getD slot 0.0)

def readOutputs (b : Bridge) (outputs : Array Float) : Array Float :=
  recode b.strings.enter b.stringOutputs (b.outputs.map fun slot => outputs.getD slot 0.0)

/-- The stream's outputs after the extension left its own. -/
def writeOutputs (b : Bridge) (own outputs : Array Float) : Array Float :=
  let own := recode b.strings.leave b.stringOutputs own
  (own.toList.zip b.outputs.toList).foldl
    (fun outputs (value, slot) => outputs.setIfInBounds slot value) outputs

end Bridge

end Behavior
