import Behavior.Evaluator
import Behavior.Intent.Bound
import Behavior.Intent.Merge
import Behavior.Snapshot

/-!
All models that drive one entity. Each cycle evaluates every one of them on the entity's state and
merges what they want.
-/

namespace Behavior

structure BoundInput where
  key : Nat
  slot : Nat
  width : Nat
deriving DecidableEq, Repr, Inhabited

/-- A model of an ensemble. -/
structure Member where
  evaluator : Evaluator
  inputs : List BoundInput
  channels : List BoundChannel
  /-- The inputs of the last cycle. -/
  inputVector : Array Float
  /-- The outputs of the last cycle. -/
  outputVector : Array Float
deriving Inhabited

/-- The members, numbered in the order of registration, with the state they read and the channels
they write. -/
structure Ensemble where
  state : Snapshot := {}
  merger : Merger
  members : Array Member := #[]
deriving Inhabited

namespace Ensemble

/-- An ensemble without members, for an entity of which nothing is known yet. -/
def new (channels : Channels) : Ensemble where
  merger := .new channels

def bindInputs (s : Snapshot) (inputs : List Schema.Entry) : Except BindError (List BoundInput) :=
  inputs.mapM fun e =>
    match s.key? e.name e.type with
    | some key => .ok ⟨key, e.slot.toNat, e.type.width⟩
    | none => .error (.unknownInput e.name)

/-- Add a model. Its number as a source is the number of members before it. -/
def register (e : Ensemble) (m : Model) (settings : RunSettings) : Except BindError Ensemble := do
  let channels ← e.merger.channels.bind m.schema
  let inputs ← bindInputs e.state m.schema.inputs
  let evaluator ← (Evaluator.new m settings).mapError BindError.load
  return { e with members := e.members.push {
    evaluator
    inputs
    channels
    inputVector := Array.replicate m.inputSize 0.0
    outputVector := Array.replicate m.outputSize 0.0 } }

/-- Start the random numbers anew, a different sequence for each member. -/
def reseed (e : Ensemble) (seed : UInt64) : Ensemble :=
  { e with members := e.members.mapIdx fun i m =>
      { m with evaluator := m.evaluator.reseed (seed + i.toUInt64) } }

end Ensemble

def Member.cycle (m : Member) (s : Snapshot) : Option Fault × Member :=
  let inputs := m.inputs.foldl (fun v b => s.read b.key b.slot b.width v) m.inputVector
  let e := m.evaluator.evaluate inputs m.outputVector
  (e.fault?, { m with
    evaluator := e.evaluator
    inputVector := inputs
    outputVector := e.outputs })

namespace Ensemble

def cycleMembers (s : Snapshot) : List Member → Option Fault × List Member
  | [] => (none, [])
  | m :: rest =>
    match m.cycle s with
    | (some f, m) => (some f, m :: rest)
    | (none, m) =>
      let (fault?, rest) := cycleMembers s rest
      (fault?, m :: rest)

/-- What the members want, by their last outputs. -/
def wishes (e : Ensemble) : List Contribution :=
  e.members.toList.zipIdx.flatMap fun (m, i) => contributions m.channels i.toUInt32 m.outputVector

/-- Evaluate every member, then merge what they want. A fault ends the cycle, and the members after
it are not evaluated. -/
def evaluate (e : Ensemble) : Except Fault Decisions × Ensemble :=
  let (fault?, members) := cycleMembers e.state e.members.toList
  let e := { e with members := members.toArray }
  match fault? with
  | some f => (.error f, e)
  | none =>
    let merger := e.merger.merge e.wishes
    (.ok merger.decisions, { e with merger })

/-- Outputs of a member in the last cycle. -/
def outputs? (e : Ensemble) (source : UInt32) : Option (Array Float) :=
  e.members[source.toNat]?.map (·.outputVector)

def model? (e : Ensemble) (source : UInt32) : Option Model :=
  e.members[source.toNat]?.map (·.evaluator.model)

/-- The text of a decision for a symbol, from the strings of the model that won. -/
def symbol? (e : Ensemble) (value : IntentValue) (winner? : Option UInt32) : Option String :=
  match value with
  | .symbol i => do (← e.model? (← winner?)).strings[i.toNat]?
  | _ => none

end Ensemble

end Behavior
