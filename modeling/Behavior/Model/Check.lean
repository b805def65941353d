import Behavior.Model.CallDepth
import Behavior.Model.StackDepth

/-!
Fitness of a model to run. A model that passes keeps every operand within its table, pauses only
where its continuation points say, never falls off its code, and stays within the stack and call
depths it declares.
-/

namespace Behavior.Model

/-- The name of an entry that an earlier one has already. -/
def duplicate? : List Schema.Entry → Option String :=
  go []
where
  go (seen : List String) : List Schema.Entry → Option String
    | [] => none
    | e :: rest => if seen.contains e.name then some e.name else go (e.name :: seen) rest

/-- Variables have different names, and no urgency stands among its own value. -/
def checkSchema (s : Schema) : Except LoadError Unit :=
  match duplicate? s.inputs, duplicate? s.outputs with
  | some name, _ => .error (.invalidSchema name .duplicateInput)
  | none, some name => .error (.invalidSchema name .duplicateOutput)
  | none, none =>
    match s.channels.find? fun c => c.coversValue c.urgencySlot.toNat with
    | some c => .error (.invalidSchema c.name .urgencyInValue)
    | none => .ok ()

/-- How many entries there are of each kind that an operand can refer to. -/
structure TableSizes where
  constants : Nat
  inputs : Nat
  locals : Nat
  outputs : Nat
  code : Nat
  points : Nat

def tableSizes (m : Model) : TableSizes where
  constants := m.constants.size
  inputs := m.inputSize
  locals := m.localCount.toNat
  outputs := m.outputSize
  code := m.code.size
  points := m.points.size

/-- One past the largest operand that an instruction may have; an instruction without operand has
zero in its place. -/
def TableSizes.bound (s : TableSizes) : Opcode → Nat
  | .pushConst => s.constants
  | .loadInput => s.inputs
  | .loadLocal | .storeLocal => s.locals
  | .storeOutput => s.outputs
  | .jump | .jumpIfFalse | .jumpIfTrue | .call => s.code
  | .pause => s.points
  | _ => 1

/-- A word is an instruction with an operand below its bound. -/
def checkWord (sizes : TableSizes) (offset : Nat) (word : Word) : Except LoadError Unit :=
  match Word.opcode? word with
  | none => .error (.invalidOpcode offset (Word.byte word))
  | some op =>
    if Word.operand word < sizes.bound op then .ok ()
    else .error (.operandOutOfRange offset op (Word.operand word))

def checkWords (sizes : TableSizes) (offset : Nat) : List Word → Except LoadError Unit
  | [] => .ok ()
  | word :: rest =>
    match checkWord sizes offset word with
    | .error e => .error e
    | .ok () => checkWords sizes (offset + 1) rest

/-- There is code, and every word of it is in order. -/
def checkCode (m : Model) : Except LoadError Unit :=
  if m.code.isEmpty then .error (.truncated .code)
  else checkWords m.tableSizes 0 m.code.toList

/-- A continuation point has the hash of its name and a default offset in the code, and the only
pause that refers to it stands where it says. -/
def checkPoint (m : Model) (index : Nat) (p : ContinuationPoint) : Except LoadError Unit :=
  let pause := Word.encode .pause index
  if p.nameHash ≠ Behavior.nameHash p.name then .error (.continuationPoint index .nameHash)
  else if m.code.size ≤ p.defaultOffset.toNat then .error (.continuationPoint index .defaultOffset)
  else if m.code.count pause ≠ 1 then .error (.continuationPoint index .pauseCount)
  else if m.code[p.offset.toNat]? ≠ some pause then .error (.continuationPoint index .pauseOffset)
  else .ok ()

def checkPoints (m : Model) : Except LoadError Unit :=
  m.points.toList.zipIdx.forM fun (p, index) => m.checkPoint index p

/-- Flags agree with the tables they announce. -/
def checkFlags (m : Model) : Except LoadError Unit :=
  if m.flags.contains .isExtension ≠ m.extends?.isSome then .error .extensionHeader
  else if m.flags.contains .continuationPoints ≠ m.hasPoints then
    .error (.continuationPoint 0 .flag)
  else if m.flags.contains .debugInfo ≠ m.debug?.isSome then .error .debugInfo
  else .ok ()

/-- Declared depths cover the depths that the code can reach. -/
def checkDepths (m : Model) : Except LoadError Unit :=
  match StackDepth.analyze m.code m.points m.entry.toNat with
  | .error e => .error (.stack e)
  | .ok required =>
    let declared := m.maxStack.toNat
    if declared < required ∨ StackDepth.limit < declared then
      .error (.stackLimit declared required StackDepth.limit)
    else
      match CallDepth.analyze m.code m.points m.entry.toNat with
      | .error e => .error (.stack e)
      | .ok calls =>
        if m.maxCallDepth.toNat < calls then .error (.callDepthLimit m.maxCallDepth.toNat calls)
        else .ok ()

/-- Whether a model is fit to run; of several defects the first in this order is reported. -/
def check (m : Model) : Except LoadError Unit := do
  m.checkFlags
  checkSchema m.schema
  m.checkCode
  m.checkPoints
  if m.code.size ≤ m.entry.toNat then throw (.entryOutOfRange m.entry)
  m.checkDepths

end Behavior.Model
