import Behavior.Block
import Behavior.Typed

/-!
From checked documents to blocks.
-/

namespace Behavior.Lower

open Typed (Triple Value)

/-- Blocks under construction. -/
structure State where
  blocks : Array Block := #[]
  /-- Blocks entered so far, the latest first. -/
  layout : List Nat := []
  current : Nat := 0
  /-- Steps of the current block, the latest first. -/
  steps : List (Step × Span) := []
  localCount : Nat
deriving Inhabited

abbrev Build := StateM State

def newBlock : Build Nat :=
  modifyGet fun s => (s.blocks.size, { s with blocks := s.blocks.push {} })

/-- Make a block the current one. Its code comes after that of the blocks before. -/
def enter (block : Nat) : Build Unit :=
  modify fun s => { s with current := block, layout := block :: s.layout }

def step (span : Span) (step : Step) : Build Unit :=
  modify fun s => { s with steps := (step, span) :: s.steps }

/-- Complete the current block. -/
def leave (span : Span) (exit : Exit) : Build Unit :=
  modify fun s => { s with
    blocks := s.blocks.setIfInBounds s.current ⟨s.steps.reverse, exit, span⟩
    steps := [] }

/-- Complete the current block and go on in one that nothing leads to. -/
def leaveForGood (span : Span) (exit : Exit) : Build Unit := do
  leave span exit
  enter (← newBlock)

def keep (span : Span) (value : Scalar) : Build Scalar := do
  let slot := (← get).localCount
  modify fun s => { s with localCount := slot + 1 }
  step span (.setLocal slot value)
  return .localSlot slot

/-- The components of a vector. The condition of a choice is needed for each of them, so it is kept
if it draws random numbers. -/
def lowerTriple (span : Span) : Triple → Build (Scalar × Scalar × Scalar)
  | .make x y z => return (x, y, z)
  | .inputSlots first =>
    return (.inputSlot first, .inputSlot (first + 1), .inputSlot (first + 2))
  | .localSlots first =>
    return (.localSlot first, .localSlot (first + 1), .localSlot (first + 2))
  | .select condition a b => do
    let c ← if condition.isPure then pure condition else keep span condition
    let (x, y, z) ← lowerTriple span a
    let (u, v, w) ← lowerTriple span b
    return (.select c x u, .select c y v, .select c z w)

def lowerValue (span : Span) : Value → Build (List Scalar)
  | .number e | .bool e | .string e => return [e]
  | .vector v => do
    let (x, y, z) ← lowerTriple span v
    return [x, y, z]

def store (span : Span) (set : Nat → Scalar → Step) (slot : Nat) : List Scalar → Build Unit
  | [] => return
  | e :: rest => do
    step span (set slot e)
    store span set (slot + 1) rest

mutual

def lowerStmt : Typed.Stmt → Build Unit
  | .setLocal span slot value => do store span .setLocal slot (← lowerValue span value)
  | .setOutput span slot value => do store span .setOutput slot (← lowerValue span value)
  | .intent span valueSlot urgencySlot value urgency => do
    store span .setOutput valueSlot (← lowerValue span value)
    step span (.setOutput urgencySlot urgency)
  | .branch span condition thenBody elseBody => do
    let thenBlock ← newBlock
    let merge ← newBlock
    let elseBlock ← if elseBody.isEmpty then pure merge else newBlock
    leave span (.branch condition thenBlock elseBlock)
    enter thenBlock
    lowerStmts thenBody
    leave span (.jump merge)
    if !elseBody.isEmpty then
      enter elseBlock
      lowerStmts elseBody
      leave span (.jump merge)
    enter merge
  | .loop span count counter body => do
    if count ≠ 0 then
      step span (.setLocal counter (.const (Float.ofNat count)))
      let header ← newBlock
      let bodyBlock ← newBlock
      let after ← newBlock
      leave span (.jump header)
      enter header
      leave span (.branch (.binary .gt (.localSlot counter) (.const 0.0)) bodyBlock after)
      enter bodyBlock
      step span (.setLocal counter (.binary .sub (.localSlot counter) (.const 1.0)))
      lowerStmts body
      leave span (.jump header)
      enter after
  | .call span flow => step span (.call flow)
  | .goto span flow => leaveForGood span (.jump flow)
  | .wait span seconds => do
    let next ← newBlock
    leave span (.wait seconds next)
    enter next
  | .continuation span point defaultFlow => leaveForGood span (.pause point defaultFlow)
  | .halt span => leaveForGood span .halt

def lowerStmts : List Typed.Stmt → Build Unit
  | [] => return
  | s :: rest => do
    lowerStmt s
    lowerStmts rest

end

/-- Fill the blocks of flows, of which the first starts at the block numbered `index`. -/
def lowerFlows (index : Nat) : List Typed.Flow → Build Unit
  | [] => return
  | flow :: rest => do
    enter index
    lowerStmts flow.body
    leave flow.span .ret
    lowerFlows (index + 1) rest

end Lower

def Typed.Program.toBlocks (p : Typed.Program) : BlockGraph :=
  let start : Lower.State :=
    { blocks := Array.replicate p.flows.length {}, localCount := p.localCount }
  let s := ((Lower.lowerFlows 0 p.flows).run start).2
  { blocks := s.blocks
    layout := s.layout.reverse
    flows := (p.flows.map (·.name)).toArray
    localCount := s.localCount }

end Behavior
