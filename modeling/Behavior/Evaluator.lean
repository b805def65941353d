import Behavior.Machine
import Behavior.Model.LoadError
import Behavior.Settings

/-!
Running a model from its entry to its end, once per evaluation. Waits are passed over. Between
evaluations only the state of the random numbers is kept.
-/

namespace Behavior

structure Evaluator where
  model : Model
  limit : Nat
  random : Random
deriving Inhabited

structure Evaluation where
  fault? : Option Fault
  outputs : Array Float
  evaluator : Evaluator
deriving Inhabited

def checkSize (vector : StateVector) (expected actual : Nat) : Except Fault Unit :=
  if expected = actual then .ok () else .error (.stateMismatch vector expected actual)

/-- Fails unless both vectors have the sizes that the model expects. -/
def Model.checkVectors (m : Model) (inputs outputs : Array Float) : Except Fault Unit := do
  checkSize .input m.inputSize inputs.size
  checkSize .output m.outputSize outputs.size

namespace Evaluator

/-- Set up a model, which must have no continuation points. -/
def new (m : Model) (settings : RunSettings) : Except LoadError Evaluator :=
  if m.hasPoints then .error .requiresStreaming
  else .ok ⟨m, settings.instructionLimit.toNat, ⟨settings.seed⟩⟩

/-- Start the random numbers anew. -/
def reseed (e : Evaluator) (seed : UInt64) : Evaluator :=
  { e with random := ⟨seed⟩ }

/-- Evaluate the model. Outputs start at zero, so those that the model does not write are zero
afterwards; vectors of the wrong size are left alone. A fault leaves the outputs written until
then. -/
def evaluate (e : Evaluator) (inputs outputs : Array Float) : Evaluation :=
  match e.model.checkVectors inputs outputs with
  | .error f => ⟨some f, outputs, e⟩
  | .ok () =>
    let start : Machine := {
      toFrame := Frame.start e.model e.random
      outputs := Array.replicate e.model.outputSize 0.0 }
    match start.run e.model inputs e.limit true e.limit with
    | .faulted f s => ⟨some f, s.outputs, { e with random := s.random }⟩
    | .stopped (.pause _) s _ =>
      ⟨some (.unexpectedPause (s.ip - 1)), s.outputs, { e with random := s.random }⟩
    | .stopped _ s _ => ⟨none, s.outputs, { e with random := s.random }⟩

end Evaluator

end Behavior
