import Behavior.Fault
import Behavior.Model
import Behavior.Random

/-!
The stack machine that runs a model's code.
-/

namespace Behavior

/-- What a model keeps while it is suspended. -/
structure Frame where
  /-- Offset of the next instruction. -/
  ip : Nat
  /-- Operands, the top first. -/
  stack : List Float := []
  /-- Return offsets, the innermost first. -/
  calls : List Nat := []
  locals : Array Float
  random : Random
deriving Inhabited

/-- The frame a model starts with: at its entry, with all locals zero. -/
def Frame.start (m : Model) (random : Random) : Frame where
  ip := m.entry.toNat
  locals := Array.replicate m.localCount.toNat 0.0
  random := random

/-- A running model: its frame, and the outputs it writes. -/
structure Machine extends Frame where
  outputs : Array Float
deriving Inhabited

/-- Why a machine stops of its own accord. -/
inductive Signal where
  /-- The model is done. -/
  | halt
  /-- Suspend for a number of seconds. -/
  | wait (seconds : Float)
  /-- Suspend at a continuation point. -/
  | pause (point : Nat)
deriving Inhabited

/-- What one instruction does. -/
inductive Reaction where
  | next (s : Machine)
  | stop (signal : Signal) (s : Machine)
  | fault (f : Fault) (s : Machine)
deriving Inhabited

namespace Machine

/-- Go on with the next instruction. -/
def advance (s : Machine) : Machine :=
  { s with ip := s.ip + 1 }

def push (m : Model) (s : Machine) (value : Float) : Reaction :=
  if s.stack.length < m.maxStack.toNat then
    .next { s with stack := value :: s.stack, ip := s.ip + 1 }
  else .fault (.stackOverflow s.ip) s

/-- Push an entry of a vector and go on. -/
def load (m : Model) (s : Machine) (vector : Array Float) (index : Nat) : Reaction :=
  match vector[index]? with
  | some value => push m s value
  | none => .fault (.invalidOperand s.ip) s

/-- Pop a value, on which the rest depends. -/
@[inline]
def pop (s : Machine) (k : Float → Machine → Reaction) : Reaction :=
  match s.stack with
  | value :: rest => k value { s with stack := rest }
  | [] => .fault (.stackUnderflow s.ip) s

/-- Pop a value and jump if it tells to. -/
def jumpIf (s : Machine) (dest : Nat) (jumps : Float → Bool) : Reaction :=
  s.pop fun value s => .next (if jumps value then { s with ip := dest } else s.advance)

def execute (m : Model) (inputs : Array Float) (op : Opcode) (operand : Nat) (s : Machine) :
    Reaction :=
  match op with
  | .pushConst =>
    match m.constants[operand]? with
    | some c => push m s c.value
    | none => .fault (.invalidOperand s.ip) s
  | .pop => s.pop fun _ s => .next s.advance
  | .dup =>
    match s.stack with
    | value :: _ => push m s value
    | [] => .fault (.stackUnderflow s.ip) s
  | .swap =>
    match s.stack with
    | a :: b :: rest => .next { s with stack := b :: a :: rest, ip := s.ip + 1 }
    | _ => .fault (.stackUnderflow s.ip) s
  | .loadInput => load m s inputs operand
  | .loadLocal => load m s s.locals operand
  | .storeLocal =>
    s.pop fun value s =>
      if operand < s.locals.size then
        .next { s with locals := s.locals.setIfInBounds operand value, ip := s.ip + 1 }
      else .fault (.invalidOperand s.ip) s
  | .storeOutput =>
    s.pop fun value s =>
      if operand < s.outputs.size then
        .next { s with outputs := s.outputs.setIfInBounds operand value, ip := s.ip + 1 }
      else .fault (.invalidOperand s.ip) s
  | .unary f => s.pop fun a s => push m s (f.apply a)
  | .binary f => s.pop fun b s => s.pop fun a s => push m s (f.apply a b)
  | .ternary f => s.pop fun c s => s.pop fun b s => s.pop fun a s => push m s (f.apply a b c)
  | .jump => .next { s with ip := operand }
  | .jumpIfFalse => s.jumpIf operand fun value => !truthy value
  | .jumpIfTrue => s.jumpIf operand truthy
  | .call =>
    if s.calls.length < m.maxCallDepth.toNat then
      .next { s with calls := (s.ip + 1) :: s.calls, ip := operand }
    else .fault (.callStackOverflow s.ip) s
  | .ret =>
    match s.calls with
    | back :: rest => .next { s with calls := rest, ip := back }
    | [] => .stop .halt s.advance
  | .halt => .stop .halt s.advance
  | .random =>
    let (value, random) := s.random.next
    push m { s with random } value
  | .wait => s.pop fun seconds s => .stop (.wait seconds) s.advance
  | .pause => .stop (.pause operand) s.advance
  | .nop => .next s.advance

/-- Execute the instruction that a word stands for. -/
def step (m : Model) (inputs : Array Float) (word : Word) (s : Machine) : Reaction :=
  match Word.opcode? word with
  | some op => s.execute m inputs op (Word.operand word)
  | none => .fault (.invalidOpcode s.ip (Word.byte word)) s

/-- How a run ended; a stop tells how many more instructions would have been allowed. -/
inductive Outcome where
  | stopped (signal : Signal) (s : Machine) (fuel : Nat)
  | faulted (f : Fault) (s : Machine)
deriving Inhabited

/-- Run until the model halts, waits or pauses, for at most `fuel` instructions out of the `limit`
that a fault names. Waits are passed over if `skipWaits` is set. -/
def run (m : Model) (inputs : Array Float) (limit : Nat) (skipWaits : Bool) :
    (fuel : Nat) → Machine → Outcome
  | 0, s =>
    match m.code[s.ip]? with
    | some _ => .faulted (.instructionLimit limit) s
    | none => .faulted (.programCounter s.ip) s
  | fuel + 1, s =>
    match m.code[s.ip]? with
    | none => .faulted (.programCounter s.ip) s
    | some word =>
      match s.step m inputs word with
      | .next s => run m inputs limit skipWaits fuel s
      | .stop (.wait seconds) s =>
        if skipWaits then run m inputs limit skipWaits fuel s
        else .stopped (.wait seconds) s fuel
      | .stop signal s => .stopped signal s fuel
      | .fault f s => .faulted f s

/-- A run that stops has executed an instruction. -/
theorem fuel_lt_of_run {m : Model} {inputs : Array Float} {limit fuel rest : Nat}
    {skipWaits : Bool} {s t : Machine} {signal : Signal}
    (h : run m inputs limit skipWaits fuel s = .stopped signal t rest) : rest < fuel := by
  induction fuel generalizing s with
  | zero =>
    unfold run at h
    split at h <;> cases h
  | succ n ih =>
    unfold run at h
    split at h
    · cases h
    · split at h
      · exact Nat.lt_succ_of_lt (ih h)
      · split at h
        · exact Nat.lt_succ_of_lt (ih h)
        · cases h
          exact Nat.lt_succ_self _
      · cases h
        exact Nat.lt_succ_self _
      · cases h

end Machine

end Behavior
