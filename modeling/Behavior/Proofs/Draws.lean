import Behavior.Evaluator

/-!
The random numbers that are drawn, on record.

What a document means, and what a walk through its blocks does, is told over a tape that keeps the
numbers drawn so far. A machine has no such record: what it draws is read off the instructions it
executes.
-/

namespace Behavior

/-- Random numbers, with those drawn so far. -/
structure Tape where
  random : Random
  drawn : List Float
deriving DecidableEq, Inhabited

namespace Tape

/-- Nothing has been drawn yet. -/
def start (random : Random) : Tape :=
  ⟨random, []⟩

def next (t : Tape) : Float × Tape :=
  (t.random.next.1, ⟨t.random.next.2, t.drawn ++ [t.random.next.1]⟩)

end Tape

namespace Machine

/-- What the instruction draws. -/
def drawn (s : Machine) (word : Word) : List Float :=
  if Word.opcode? word = some .random then [s.random.next.1] else []

/-- What a run draws, in order. -/
def draws (m : Model) (inputs : Array Float) (skipWaits : Bool) : (fuel : Nat) → Machine → List Float
  | 0, _ => []
  | fuel + 1, s =>
    match m.code[s.ip]? with
    | none => []
    | some word =>
      match s.step m inputs word with
      | .next t => s.drawn word ++ t.draws m inputs skipWaits fuel
      | .stop (.wait _) t =>
        s.drawn word ++ if skipWaits then t.draws m inputs skipWaits fuel else []
      | _ => s.drawn word

end Machine

/-- What an evaluation draws, in order. -/
def Evaluator.draws (e : Evaluator) (inputs : Array Float) : List Float :=
  ({ toFrame := Frame.start e.model e.random,
     outputs := Array.replicate e.model.outputSize 0.0 } : Machine).draws e.model inputs true e.limit

end Behavior
