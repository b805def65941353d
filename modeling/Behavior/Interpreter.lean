import Behavior.Evaluator

/-!
Evaluating a model in buffers that are set up once. Each evaluation uses them as the one before has
left them, faults included: stacks are cleared by forgetting how far they were filled, and only the
locals go back to zero.
-/

namespace Behavior

/-- A stack in a buffer for `n` values. A value that is taken off stays in its cell. -/
structure BufferStack (α : Type) (n : Nat) where
  cells : Vector α n
  /-- Number of cells in use, which are the first ones. -/
  height : Nat
  height_le : height ≤ n

namespace BufferStack

variable {α : Type} {n : Nat}

def new (value : α) : BufferStack α n :=
  ⟨Vector.replicate n value, 0, Nat.zero_le n⟩

def clear (b : BufferStack α n) : BufferStack α n :=
  ⟨b.cells, 0, Nat.zero_le n⟩

/-- Fails when the buffer is full. -/
def push? (b : BufferStack α n) (value : α) : Option (BufferStack α n) :=
  if h : b.height < n then some ⟨b.cells.set b.height value, b.height + 1, h⟩ else none

/-- The value on top and what is below it. -/
def pop? : BufferStack α n → Option (α × BufferStack α n)
  | ⟨_, 0, _⟩ => none
  | ⟨cells, height + 1, h⟩ => some (cells[height], ⟨cells, height, Nat.le_of_succ_le h⟩)

end BufferStack

/-- The buffers for a model, and what else is kept between evaluations. -/
structure Workspace (m : Model) where
  stack : BufferStack Float m.maxStack.toNat
  calls : BufferStack Nat m.maxCallDepth.toNat
  locals : Vector Float m.localCount.toNat
  /-- Offset of the next instruction. -/
  ip : Nat
  random : Random
  /-- Instructions executed in the current evaluation. -/
  executed : Nat
  limit : Nat

namespace Workspace

variable {m : Model}

def new (m : Model) (settings : RunSettings) : Workspace m where
  stack := .new 0.0
  calls := .new 0
  locals := Vector.replicate _ 0.0
  ip := m.entry.toNat
  random := ⟨settings.seed⟩
  executed := 0
  limit := settings.instructionLimit.toNat

/-- Back to the entry, with empty stacks, all locals zero and nothing executed. -/
def reset (w : Workspace m) : Workspace m :=
  { w with
    stack := w.stack.clear
    calls := w.calls.clear
    locals := w.locals.map fun _ => 0.0
    ip := m.entry.toNat
    executed := 0 }

end Workspace

/-- A workspace in use, with the outputs that are written. -/
structure Engine (m : Model) extends Workspace m where
  outputs : Array Float

inductive Engine.Reaction (m : Model) where
  | next (e : Engine m)
  | stop (signal : Signal) (e : Engine m)
  | fault (f : Fault) (e : Engine m)

namespace Engine

variable {m : Model}

/-- Offset of the instruction that is being executed. -/
def here (e : Engine m) : Nat :=
  e.ip - 1

def push (e : Engine m) (value : Float) (k : Engine m → Reaction m) : Reaction m :=
  match e.stack.push? value with
  | some stack => k { e with stack }
  | none => .fault (.stackOverflow e.here) e

def load (e : Engine m) (vector : Array Float) (index : Nat) : Reaction m :=
  match vector[index]? with
  | some value => e.push value .next
  | none => .fault (.invalidOperand e.here) e

/-- Pop a value, on which the rest depends. -/
def pop (e : Engine m) (k : Float → Engine m → Reaction m) : Reaction m :=
  match e.stack.pop? with
  | some (value, stack) => k value { e with stack }
  | none => .fault (.stackUnderflow e.here) e

/-- Pop a value and jump if it tells to. -/
def jumpIf (e : Engine m) (dest : Nat) (jumps : Float → Bool) : Reaction m :=
  e.pop fun value e => .next (if jumps value then { e with ip := dest } else e)

/-- Execute an instruction, beyond which the engine has already moved. -/
def execute (inputs : Array Float) (op : Opcode) (operand : Nat) (e : Engine m) : Reaction m :=
  match op with
  | .pushConst =>
    match m.constants[operand]? with
    | some c => e.push c.value .next
    | none => .fault (.invalidOperand e.here) e
  | .pop => e.pop fun _ e => .next e
  | .dup =>
    match e.stack.pop? with
    | some (value, _) => e.push value .next
    | none => .fault (.stackUnderflow e.here) e
  | .swap => e.pop fun top e => e.pop fun below e => e.push top fun e => e.push below .next
  | .loadInput => e.load inputs operand
  | .loadLocal => e.load e.locals.toArray operand
  | .storeLocal =>
    e.pop fun value e =>
      if operand < m.localCount.toNat then
        .next { e with locals := e.locals.setIfInBounds operand value }
      else .fault (.invalidOperand e.here) e
  | .storeOutput =>
    e.pop fun value e =>
      if operand < e.outputs.size then
        .next { e with outputs := e.outputs.setIfInBounds operand value }
      else .fault (.invalidOperand e.here) e
  | .unary f => e.pop fun a e => e.push (f.apply a) .next
  | .binary f => e.pop fun b e => e.pop fun a e => e.push (f.apply a b) .next
  | .ternary f => e.pop fun c e => e.pop fun b e => e.pop fun a e => e.push (f.apply a b c) .next
  | .jump => .next { e with ip := operand }
  | .jumpIfFalse => e.jumpIf operand fun value => !truthy value
  | .jumpIfTrue => e.jumpIf operand truthy
  | .call =>
    match e.calls.push? e.ip with
    | some calls => .next { e with calls, ip := operand }
    | none => .fault (.callStackOverflow e.here) e
  | .ret =>
    match e.calls.pop? with
    | some (back, calls) => .next { e with calls, ip := back }
    | none => .stop .halt e
  | .halt => .stop .halt e
  | .random =>
    let (value, random) := e.random.next
    { e with random }.push value .next
  | .wait => e.pop fun seconds e => .stop (.wait seconds) e
  | .pause => .stop (.pause operand) e
  | .nop => .next e

/-- Count an instruction and execute it. -/
def step (inputs : Array Float) (word : Word) (e : Engine m) : Reaction m :=
  let e := { e with executed := e.executed + 1 }
  match Word.opcode? word with
  | some op => { e with ip := e.ip + 1 }.execute inputs op (Word.operand word)
  | none => .fault (.invalidOpcode e.ip (Word.byte word)) e

/-- How a run ended. -/
inductive Outcome (m : Model) where
  | stopped (signal : Signal) (e : Engine m)
  | faulted (f : Fault) (e : Engine m)

/-- Run until the model halts or pauses, for at most `fuel` instructions. Waits are passed over. -/
def runFor (inputs : Array Float) : (fuel : Nat) → Engine m → Outcome m
  | 0, e =>
    match m.code[e.ip]? with
    | some _ => .faulted (.instructionLimit e.limit) { e with executed := e.executed + 1 }
    | none => .faulted (.programCounter e.ip) e
  | fuel + 1, e =>
    match m.code[e.ip]? with
    | none => .faulted (.programCounter e.ip) e
    | some word =>
      match e.step inputs word with
      | .next e => runFor inputs fuel e
      | .stop (.wait _) e => runFor inputs fuel e
      | .stop signal e => .stopped signal e
      | .fault f e => .faulted f e

/-- Run for as many instructions as the limit still allows. -/
def run (inputs : Array Float) (e : Engine m) : Outcome m :=
  e.runFor inputs (e.limit - e.executed)

end Engine

/-- A model with its buffers. -/
structure Interpreter where
  model : Model
  workspace : Workspace model

/-- What an evaluation leaves behind. -/
structure Interpreter.Answer where
  fault? : Option Fault
  outputs : Array Float
  interpreter : Interpreter

namespace Interpreter

/-- Set up buffers for a model, which must have no continuation points. -/
def new (m : Model) (settings : RunSettings) : Except LoadError Interpreter :=
  if m.hasPoints then .error .requiresStreaming
  else .ok ⟨m, .new m settings⟩

/-- Start the random numbers anew. -/
def reseed (i : Interpreter) (seed : UInt64) : Interpreter :=
  { i with workspace := { i.workspace with random := ⟨seed⟩ } }

/-- Evaluate the model. The vector for the outputs is overwritten with zeros first, unless a vector
has the wrong size. -/
def evaluate (i : Interpreter) (inputs outputs : Array Float) : Answer :=
  match i.model.checkVectors inputs outputs with
  | .error f => ⟨some f, outputs, i⟩
  | .ok () =>
    let start : Engine i.model := {
      toWorkspace := i.workspace.reset
      outputs := outputs.map fun _ => 0.0 }
    match start.run inputs with
    | .faulted f e => ⟨some f, e.outputs, ⟨i.model, e.toWorkspace⟩⟩
    | .stopped (.pause _) e =>
      ⟨some (.unexpectedPause e.here), e.outputs, ⟨i.model, e.toWorkspace⟩⟩
    | .stopped _ e => ⟨none, e.outputs, ⟨i.model, e.toWorkspace⟩⟩

end Interpreter

end Behavior
