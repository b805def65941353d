import Behavior.Evaluator
import Behavior.Stream.Stage

/-!
Running a model over time.

A stream has a clock that each advance moves on. A wait lasts until the clock has reached its end.
A continuation point waits for an extension until its deadline; one that is attached in time takes
over at its entry, and otherwise the model goes on at the point's default offset.
-/

namespace Behavior

/-- What can be seen of a stream between advances. -/
inductive Phase where
  | running
  | awaitingExtension
  | terminal
deriving DecidableEq, Repr, Inhabited

/-- The continuation point that the current stage waits at. -/
structure Awaiting where
  point : Nat
  deadline : Duration
  defaultOffset : Nat
deriving DecidableEq, Repr, Inhabited

/-- What an extension for the latest continuation point has to match. -/
structure Pending where
  parent : ModelId
  pointHash : UInt32
  /-- Deadline in nanoseconds. -/
  deadline : Nat
  /-- An extension was accepted, or the deadline has passed. -/
  resolved : Bool
deriving DecidableEq, Repr, Inhabited

structure Stream where
  root : Model
  settings : StreamSettings
  stage : Stage
  clock : Duration := .zero
  phase : Phase := .running
  waitUntil? : Option Duration := none
  awaiting? : Option Awaiting := none
  pending? : Option Pending := none
  /-- An accepted extension that has not taken over yet. -/
  incoming? : Option Stage := none
  /-- Whether an advance finds an extension to take over, before it looks at `incoming?`. -/
  hasIncoming : Bool := false
  /-- Every model of the stream, extensions that have not taken over included, the latest first. -/
  lineage : List ModelId
  /-- The string table with those of the latest accepted extension. -/
  strings : Array String
  hasFault : Bool := false
deriving Inhabited

/-- Why an extension was refused. -/
inductive Rejection where
  | notAnExtension
  | schemaMismatch (name : String)
  | noPendingPoint
  | alreadyResolved
  | parentMismatch (expected actual : ModelId)
  | attachPointMismatch
  | deadlineElapsed
  | circularExtension (id : ModelId)
  | chainTooDeep (limit : Nat)
deriving DecidableEq, Repr, Inhabited

def Rejection.message : Rejection → String
  | notAnExtension => "model is not an extension"
  | schemaMismatch name =>
    s!"extension variable {name} does not match the running model's schema"
  | noPendingPoint => "no continuation point is awaiting an extension"
  | alreadyResolved => "continuation point already resolved"
  | parentMismatch expected actual =>
    s!"extension targets parent {actual.toHex}, running model is {expected.toHex}"
  | attachPointMismatch => "extension targets a different continuation point"
  | deadlineElapsed => "continuation point deadline elapsed"
  | circularExtension id => s!"extension {id.toHex} is already part of the running chain"
  | chainTooDeep limit => s!"extension chain longer than {limit}"

namespace Stream

def new (m : Model) (settings : StreamSettings) : Stream where
  root := m
  settings := settings
  stage := Stage.root m ⟨settings.run.seed⟩
  lineage := [m.id]
  strings := m.strings

/-- Name of the continuation point that the stream waits at. -/
def awaitedPoint? (s : Stream) : Option String := do
  let a ← s.awaiting?
  return (← s.stage.model.points[a.point]?).name

def resolveString? (s : Stream) (value : Float) : Option String :=
  (Binary64.toNat? value).bind fun i => s.stage.strings[i]?

def stringIndex? (s : Stream) (text : String) : Option Nat :=
  s.stage.strings.findIdx? (· == text)

/-! ## Attaching -/

/-- Fails unless an extension may be attached now. -/
def accept (s : Stream) (id : ModelId) (a : Attachment) : Except Rejection Pending := do
  let some p := s.pending? | throw .noPendingPoint
  if p.resolved then throw .alreadyResolved
  if a.parent ≠ p.parent then throw (.parentMismatch p.parent a.parent)
  if a.pointHash ≠ p.pointHash then throw .attachPointMismatch
  if p.deadline ≤ s.clock.clockNanos then throw .deadlineElapsed
  if s.lineage.contains id then throw (.circularExtension id)
  if s.settings.maxChain < s.lineage.length then throw (.chainTooDeep s.settings.maxChain)
  return p

/-- Attach an extension to the continuation point that the stream waits at. It takes over with the
next advance. -/
def attach (s : Stream) (m : Model) : Except Rejection Stream := do
  let some a := m.extends? | throw .notAnExtension
  let (strings, map) := StringMap.build s.strings m.strings
  let bridge ←
    match Bridge.build s.root.schema m.schema map with
    | .ok bridge => pure bridge
    | .error name => throw (.schemaMismatch name)
  let p ← s.accept m.id a
  let stage : Stage := {
    model := m
    frame := Frame.start m ⟨s.settings.run.seed ^^^ m.id.value⟩
    strings
    bridge? := some bridge }
  return { s with
    pending? := some { p with resolved := true }
    incoming? := some stage
    hasIncoming := true
    lineage := m.id :: s.lineage
    strings }

/-! ## Advancing -/

/-- Wait at a continuation point of the current stage. -/
def pauseAt (s : Stream) (point : Nat) : Except Fault Stream :=
  match s.stage.model.points[point]? with
  | none => .error (.invalidOperand (s.stage.frame.ip - 1))
  | some p =>
    let deadline := s.clock.add p.timeout
    .ok { s with
      pending? := some {
        parent := s.stage.model.id
        pointHash := p.nameHash
        deadline := deadline.clockNanos
        resolved := false }
      awaiting? := some ⟨point, deadline, p.defaultOffset.toNat⟩ }

/-- Leave a continuation point: an accepted extension takes over, also when the deadline has passed
meanwhile; without one the model goes on at the default offset once the deadline has passed. Nothing
if the stream has to wait on. -/
def resolve? (s : Stream) (a : Awaiting) : Option Stream :=
  if s.clock.nanos < a.deadline.nanos ∧ s.hasIncoming = false then none
  else
    match s.incoming? with
    | some stage =>
      some { s with stage, incoming? := none, hasIncoming := false, awaiting? := none }
    | none =>
      if a.deadline.nanos ≤ s.clock.nanos then
        some { s with
          pending? := s.pending?.map fun p => { p with resolved := true }
          awaiting? := none
          stage := { s.stage with frame := { s.stage.frame with ip := a.defaultOffset } } }
      else none

/-- Whether the stream has to wait before it can run: past its wait, if it has one, and its
continuation point. Otherwise the stream that can run. -/
def ready (s : Stream) : Except Phase Stream :=
  let waiting := match s.waitUntil? with
    | some stop => decide (s.clock.nanos < stop.nanos)
    | none => false
  if waiting then .error .running
  else
    let s := { s with waitUntil? := none }
    match s.awaiting? with
    | none => .ok s
    | some a =>
      match s.resolve? a with
      | some s => .ok s
      | none => .error .awaitingExtension

structure Advance where
  result : Except Fault Phase
  stream : Stream
  outputs : Array Float
deriving Inhabited

/-- Run stages, pass waits that are over and points that are resolved, until the stream has to wait
or is done, for at most `fuel` instructions. -/
def proceed (fuel : Nat) (s : Stream) (inputs outputs : Array Float) : Advance :=
  match s.ready with
  | .error phase => ⟨.ok phase, s, outputs⟩
  | .ok s =>
    match _h : s.stage.run s.settings.run.instructionLimit.toNat fuel inputs outputs with
    | .faulted f stage outputs => ⟨.error f, { s with stage }, outputs⟩
    | .stopped .halt stage outputs _ => ⟨.ok .terminal, { s with stage }, outputs⟩
    | .stopped (.wait seconds) stage outputs rest =>
      let stop := s.clock.add (.ofSeconds seconds)
      proceed rest { s with stage, waitUntil? := some stop } inputs outputs
    | .stopped (.pause point) stage outputs rest =>
      match pauseAt { s with stage } point with
      | .error f => ⟨.error f, { s with stage }, outputs⟩
      | .ok s => proceed rest s inputs outputs
termination_by fuel
decreasing_by
  all_goals exact Stage.fuel_lt_of_run _h

/-- Move the clock on and run as far as it allows. The outputs keep what was written to them
before. A fault ends the stream: it is terminal and every later advance reports it. -/
def advance (s : Stream) (dt : Duration) (inputs outputs : Array Float) : Advance :=
  if s.hasFault then ⟨.error .faulted, s, outputs⟩
  else if s.phase = .terminal then ⟨.ok .terminal, s, outputs⟩
  else
    match s.root.checkVectors inputs outputs with
    | .error f => ⟨.error f, s, outputs⟩
    | .ok () =>
      let s := { s with clock := s.clock.add dt }
      let a := s.proceed s.settings.run.instructionLimit.toNat inputs outputs
      match a.result with
      | .ok phase => { a with stream := { a.stream with phase } }
      | .error _ => { a with stream := { a.stream with phase := .terminal, hasFault := true } }

end Stream

end Behavior
