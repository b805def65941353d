import Behavior.Block
import Behavior.Reachability

/-!
Shortening the ways between blocks: branches on constants, chains of empty blocks, and blocks that
cannot be reached.
-/

namespace Behavior

/-- A branch on a constant leads to one block. -/
def Exit.settle : Exit → Exit
  | .branch (.const x) thenBlock elseBlock => .jump (if truthy x then thenBlock else elseBlock)
  | exit => exit

/-- A branch to the same block either way needs no condition, unless that draws random numbers. -/
def Exit.merge : Exit → Exit
  | .branch condition thenBlock elseBlock =>
    if thenBlock = elseBlock ∧ condition.isPure then .jump thenBlock
    else .branch condition thenBlock elseBlock
  | exit => exit

namespace BlockGraph

def settleBranches (g : BlockGraph) : BlockGraph :=
  g.mapBlocks fun b => { b with exit := b.exit.settle }

/-- Where a jump to a block ends up: an empty block that only jumps is passed. -/
def follow (blocks : Array Block) : (fuel target : Nat) → Nat
  | 0, target => target
  | fuel + 1, target =>
    match blocks[target]? with
    | some { steps := [], exit := .jump next, .. } =>
      if next = target then target else follow blocks fuel next
    | _ => target

/-- Let every jump and call lead to where it ends up. -/
def threadJumps (g : BlockGraph) : BlockGraph :=
  let final := follow g.blocks g.blocks.size
  g.mapBlocks fun b => { b with
    steps := b.steps.map fun (step, span) => (step.retarget final, span)
    exit := (b.exit.retarget final).merge }

/-- Leave out the blocks that cannot be reached from the first flow. -/
def dropUnreachable (g : BlockGraph) : BlockGraph :=
  let next (block : Nat) : List Nat :=
    match g.blocks[block]? with
    | some b => b.targets
    | none => []
  let reached := Reachability.reachable g.blocks.size next [entry]
  { g with layout := g.layout.filter fun block => reached.getD block false }

end BlockGraph

end Behavior
