import Behavior.Document
import Behavior.Scalar

/-!
Flows as a graph of blocks: steps without jumps, then one exit. Vectors are three numbers here.
-/

namespace Behavior

inductive Step where
  | setLocal (slot : Nat) (value : Scalar)
  | setOutput (slot : Nat) (value : Scalar)
  /-- Run the flow that starts at a block and come back. -/
  | call (block : Nat)
deriving Inhabited

inductive Exit where
  | jump (block : Nat)
  | branch (condition : Scalar) (thenBlock elseBlock : Nat)
  /-- The flow is over: back to its caller, or stop when there is none. -/
  | ret
  | halt
  | wait (seconds : Scalar) (next : Nat)
  /-- A continuation point, and where its default flow starts. -/
  | pause (point defaultBlock : Nat)
deriving Inhabited

structure Block where
  steps : List (Step × Span) := []
  exit : Exit := .ret
  exitSpan : Span := {}
deriving Inhabited

/-- Blocks of a document by number. Those of the lowest numbers are where its flows start, in
order. -/
structure BlockGraph where
  blocks : Array Block
  /-- The blocks that have code, in the order of their code. -/
  layout : List Nat
  /-- Names of the flows. -/
  flows : Array String
  localCount : Nat
deriving Inhabited

namespace Step

def value? : Step → Option Scalar
  | setLocal _ value | setOutput _ value => some value
  | call _ => none

def mapValue (f : Scalar → Scalar) : Step → Step
  | setLocal slot value => setLocal slot (f value)
  | setOutput slot value => setOutput slot (f value)
  | call block => call block

def retarget (f : Nat → Nat) : Step → Step
  | call block => call (f block)
  | step => step

def target? : Step → Option Nat
  | call block => some block
  | _ => none

end Step

namespace Exit

def value? : Exit → Option Scalar
  | branch condition _ _ => some condition
  | wait seconds _ => some seconds
  | _ => none

def mapValue (f : Scalar → Scalar) : Exit → Exit
  | branch condition thenBlock elseBlock => branch (f condition) thenBlock elseBlock
  | wait seconds next => wait (f seconds) next
  | exit => exit

def retarget (f : Nat → Nat) : Exit → Exit
  | jump block => jump (f block)
  | branch condition thenBlock elseBlock => branch condition (f thenBlock) (f elseBlock)
  | wait seconds next => wait seconds (f next)
  | pause point defaultBlock => pause point (f defaultBlock)
  | ret => ret
  | halt => halt

def targets : Exit → List Nat
  | jump block => [block]
  | branch _ thenBlock elseBlock => [thenBlock, elseBlock]
  | wait _ next => [next]
  | pause _ defaultBlock => [defaultBlock]
  | ret | halt => []

end Exit

namespace Block

/-- The expressions of a block, in the order in which they are evaluated. -/
def values (b : Block) : List Scalar :=
  b.steps.filterMap (·.1.value?) ++ b.exit.value?.toList

def mapValues (f : Scalar → Scalar) (b : Block) : Block :=
  { b with
    steps := b.steps.map fun (step, span) => (step.mapValue f, span)
    exit := b.exit.mapValue f }

def targets (b : Block) : List Nat :=
  b.steps.filterMap (·.1.target?) ++ b.exit.targets

end Block

namespace BlockGraph

/-- Where the first flow starts. -/
def entry : Nat := 0

def mapBlocks (f : Block → Block) (g : BlockGraph) : BlockGraph :=
  { g with blocks := g.blocks.map f }

end BlockGraph

end Behavior
