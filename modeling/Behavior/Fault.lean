/-!
Why running a model stopped without a result.
-/

namespace Behavior

/-- The two vectors that a caller provides. -/
inductive StateVector where
  | input
  | output
deriving DecidableEq, Repr, Inhabited

def StateVector.name : StateVector → String
  | input => "input"
  | output => "output"

/-- A fault, with the offset of the instruction at which it happened. A model that is fit to run
only has faults of its caller's making: too many instructions, or vectors of the wrong size. -/
inductive Fault where
  | stackOverflow (ip : Nat)
  | stackUnderflow (ip : Nat)
  | callStackOverflow (ip : Nat)
  | instructionLimit (limit : Nat)
  | stateMismatch (vector : StateVector) (expected actual : Nat)
  | invalidOpcode (ip : Nat) (byte : UInt8)
  | invalidOperand (ip : Nat)
  | programCounter (ip : Nat)
  | unexpectedPause (ip : Nat)
  /-- The stream had a fault before. -/
  | faulted
deriving DecidableEq, Repr, Inhabited

def Fault.message : Fault → String
  | stackOverflow ip => s!"operand stack overflow at {ip}"
  | stackUnderflow ip => s!"operand stack underflow at {ip}"
  | callStackOverflow ip => s!"call stack overflow at {ip}"
  | instructionLimit limit => s!"instruction limit of {limit} exceeded"
  | stateMismatch vector expected actual =>
    s!"{vector.name} state has {actual} slots, model expects {expected}"
  | invalidOpcode ip byte => s!"invalid opcode {byte.toNat} at {ip}"
  | invalidOperand ip => s!"invalid operand at {ip}"
  | programCounter ip => s!"instruction pointer {ip} is out of range"
  | unexpectedPause ip =>
    s!"continuation point reached at {ip} outside the streaming interpreter"
  | faulted => "interpreter already faulted"

end Behavior
