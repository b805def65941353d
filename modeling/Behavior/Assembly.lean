import Behavior.Block
import Behavior.Model
import Behavior.Pool
import Behavior.Typed

/-!
Code from blocks. Blocks are emitted in the order of the layout, with jumps and calls to blocks as
symbolic words; once every block has its place these become offsets.
-/

namespace Behavior.Assembly

/-- A code word, or one whose operand is where a block starts. -/
inductive Item where
  | word (w : Word)
  | toBlock (op : Opcode) (block : Nat)
deriving Inhabited

/-- A continuation point whose pause has a place in the code. -/
structure PlacedPoint where
  point : Typed.Point
  offset : Nat
  defaultBlock : Nat
deriving Inhabited

/-- What has been emitted so far. -/
structure State where
  code : Array Item := #[]
  constants : Array Constant := #[]
  /-- Where blocks start. -/
  starts : Array (Option Nat)
  points : Array PlacedPoint := #[]
  spans : Array (UInt32 × Span) := #[]
  /-- Where flows start, the latest first. -/
  flows : List (UInt32 × String) := []
deriving Inhabited

abbrev Emit := StateM State

def offset : Emit Nat := do
  return (← get).code.size

def emitItem (item : Item) : Emit Unit :=
  modify fun s => { s with code := s.code.push item }

def emit (op : Opcode) (operand : Nat) : Emit Unit :=
  emitItem (.word (Word.encode op operand))

/-- The code from here on comes from a place. A mark at the same offset is replaced, and none is
made if the place stays the same. -/
def mark (span : Span) : Emit Unit :=
  modify fun s =>
    let here := s.code.size.toUInt32
    match s.spans.back? with
    | some (start, last) =>
      if last = span then s
      else if start = here then { s with spans := s.spans.pop.push (here, span) }
      else { s with spans := s.spans.push (here, span) }
    | none => { s with spans := s.spans.push (here, span) }

/-- Push the value of an expression. A choice jumps over the branch that is not taken. -/
def emitScalar : Scalar → Emit Unit
  | .const x => do
    let index ← modifyGet fun s =>
      let (index, constants) := Pool.intern s.constants (.ofFloat x)
      (index, { s with constants })
    emit .pushConst index
  | .inputSlot slot => emit .loadInput slot
  | .localSlot slot => emit .loadLocal slot
  | .random => emit .random 0
  | .unary f a => do
    emitScalar a
    emit (.unary f) 0
  | .binary f a b => do
    emitScalar a
    emitScalar b
    emit (.binary f) 0
  | .ternary f a b c => do
    emitScalar a
    emitScalar b
    emitScalar c
    emit (.ternary f) 0
  | .select condition a b => do
    emitScalar condition
    let here ← offset
    let elseStart := here + a.codeSize + 2
    emit .jumpIfFalse elseStart
    emitScalar a
    emit .jump (elseStart + b.codeSize)
    emitScalar b

def emitStep : Step → Emit Unit
  | .setLocal slot value => do
    emitScalar value
    emit .storeLocal slot
  | .setOutput slot value => do
    emitScalar value
    emit .storeOutput slot
  | .call block => emitItem (.toBlock .call block)

def emitJump (next : Option Nat) (block : Nat) : Emit Unit := do
  if next ≠ some block then emitItem (.toBlock .jump block)

/-- A pause. Points are numbered in the order of their pauses, so one without a pause has no
number. -/
def emitPause (points : Array Typed.Point) (point defaultBlock : Nat) : Emit Unit := do
  let here ← offset
  let placed : PlacedPoint := ⟨points.getD point default, here, defaultBlock⟩
  let index ← modifyGet fun s => (s.points.size, { s with points := s.points.push placed })
  emit .pause index

/-- Leave a block, after which the code of the block `next` comes. -/
def emitExit (points : Array Typed.Point) (next : Option Nat) : Exit → Emit Unit
  | .jump block => emitJump next block
  | .branch condition thenBlock elseBlock => do
    emitScalar condition
    if next = some elseBlock then emitItem (.toBlock .jumpIfTrue thenBlock)
    else
      emitItem (.toBlock .jumpIfFalse elseBlock)
      emitJump next thenBlock
  | .ret => emit .ret 0
  | .halt => emit .halt 0
  | .wait seconds block => do
    emitScalar seconds
    emit .wait 0
    emitJump next block
  | .pause point defaultBlock => emitPause points point defaultBlock

def emitSteps : List (Step × Span) → Emit Unit
  | [] => return
  | (step, span) :: rest => do
    mark span
    emitStep step
    emitSteps rest

def emitBlock (g : BlockGraph) (points : Array Typed.Point) (block : Nat) (next : Option Nat) :
    Emit Unit := do
  let b := g.blocks.getD block {}
  let here ← offset
  modify fun s => { s with starts := s.starts.setIfInBounds block (some here) }
  match g.flows[block]? with
  | some name => modify fun s => { s with flows := (here.toUInt32, name) :: s.flows }
  | none => pure ()
  emitSteps b.steps
  mark b.exitSpan
  emitExit points next b.exit

def emitBlocks (g : BlockGraph) (points : Array Typed.Point) : List Nat → Emit Unit
  | [] => return
  | block :: rest => do
    emitBlock g points block rest.head?
    emitBlocks g points rest

end Assembly

/-- Code and tables of a document. -/
structure Assembly where
  code : Array Word
  constants : Array Constant
  entry : Nat
  points : Array ContinuationPoint
  debug : DebugMap
deriving Inhabited

namespace Assembly

def startOf (starts : Array (Option Nat)) (block : Nat) : Except Problem Nat :=
  match starts.getD block none with
  | some start => .ok start
  | none => .error (.blockWithoutCode block)

def resolveItem (starts : Array (Option Nat)) : Item → Except Problem Word
  | .word w => .ok w
  | .toBlock op block => do return Word.encode op (← startOf starts block)

def resolvePoint (starts : Array (Option Nat)) (p : PlacedPoint) :
    Except Problem ContinuationPoint := do
  let start ← startOf starts p.defaultBlock
  return {
    name := p.point.name
    nameHash := nameHash p.point.name
    timeoutMs := p.point.timeoutMs.toUInt32
    defaultOffset := start.toUInt32
    offset := p.offset.toUInt32 }

/-- Entries of a table are numbered by operands. -/
def checkTable (table : TableKind) (size : Nat) : Except Problem Unit :=
  if size ≤ Word.maxOperand then .ok () else .error (.tableTooLarge table size)

/-- The code of a block graph; `stringCount` is the size of the string table. -/
def ofBlocks (g : BlockGraph) (points : Array Typed.Point) (stringCount : Nat) :
    Except Problem Assembly := do
  let start : State := { starts := Array.replicate g.blocks.size none }
  let s := ((emitBlocks g points g.layout).run start).2
  checkTable .code s.code.size
  checkTable .constants s.constants.size
  checkTable .strings stringCount
  checkTable .points s.points.size
  return {
    code := ← s.code.mapM (resolveItem s.starts)
    constants := s.constants
    points := ← s.points.mapM (resolvePoint s.starts)
    entry := ← startOf s.starts BlockGraph.entry
    debug := ⟨s.spans, s.flows.reverse⟩ }

end Assembly

end Behavior
