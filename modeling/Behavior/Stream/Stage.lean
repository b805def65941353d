import Behavior.Machine
import Behavior.Stream.Bridge

/-!
A model that a stream runs: the one it started with, or an extension behind a bridge.
-/

namespace Behavior

structure Stage where
  model : Model
  frame : Frame
  /-- The stream's string table as of this stage. -/
  strings : Array String
  bridge? : Option Bridge := none
deriving Inhabited

/-- How running a stage ended, and the stream's outputs after it. -/
inductive Stage.Outcome where
  | stopped (signal : Signal) (stage : Stage) (outputs : Array Float) (fuel : Nat)
  | faulted (f : Fault) (stage : Stage) (outputs : Array Float)
deriving Inhabited

namespace Stage

def root (m : Model) (random : Random) : Stage where
  model := m
  frame := Frame.start m random
  strings := m.strings

/-- Run until the model halts, waits or pauses. -/
def run (stage : Stage) (limit fuel : Nat) (inputs outputs : Array Float) : Outcome :=
  let (ownInputs, ownOutputs) :=
    match stage.bridge? with
    | some b => (b.readInputs inputs, b.readOutputs outputs)
    | none => (inputs, outputs)
  let write (own : Array Float) : Array Float :=
    match stage.bridge? with
    | some b => b.writeOutputs own outputs
    | none => own
  let start : Machine := { toFrame := stage.frame, outputs := ownOutputs }
  match start.run stage.model ownInputs limit false fuel with
  | .stopped signal s rest =>
    .stopped signal { stage with frame := s.toFrame } (write s.outputs) rest
  | .faulted f s => .faulted f { stage with frame := s.toFrame } (write s.outputs)

/-- A stage that stops has executed an instruction. -/
theorem fuel_lt_of_run {stage next : Stage} {limit fuel rest : Nat}
    {inputs outputs after : Array Float} {signal : Signal}
    (h : stage.run limit fuel inputs outputs = .stopped signal next after rest) : rest < fuel := by
  simp only [run] at h
  split at h
  · rename_i hr
    cases h
    exact Machine.fuel_lt_of_run hr
  · cases h

end Stage

end Behavior
