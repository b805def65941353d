import Behavior.Proofs.Walk

/-!
Which slots a block graph uses. Operands have twenty-four bits, so code can only be told apart from
other code if every slot fits, and a local is free if no block mentions it.
-/

namespace Behavior

/-- Numbers of slots of each kind. -/
structure Extent where
  inputs : Nat
  outputs : Nat
  locals : Nat

/-- An expression mentions only slots within an extent. -/
def Scalar.Within (x : Extent) : Scalar → Prop
  | .const _ | .random => True
  | .inputSlot slot => slot < x.inputs
  | .localSlot slot => slot < x.locals
  | .unary _ a => a.Within x
  | .binary _ a b => a.Within x ∧ b.Within x
  | .ternary _ a b c | .select a b c => a.Within x ∧ b.Within x ∧ c.Within x

def Step.Within (x : Extent) : Step → Prop
  | .setLocal slot value => slot < x.locals ∧ value.Within x
  | .setOutput slot value => slot < x.outputs ∧ value.Within x
  | .call _ => True

def Exit.Within (x : Extent) : Exit → Prop
  | .branch condition _ _ => condition.Within x
  | .wait seconds _ => seconds.Within x
  | _ => True

/-- A block mentions only slots within an extent. -/
structure Block.Within (x : Extent) (b : Block) : Prop where
  steps : ∀ s ∈ b.steps, s.1.Within x
  exit : b.exit.Within x

/-- All blocks of a graph mention only slots within an extent. -/
def BlockGraph.Within (x : Extent) (g : BlockGraph) : Prop :=
  ∀ i, (g.block i).Within x

/-- Every slot within the extent can be an operand. -/
structure Extent.Encodable (x : Extent) : Prop where
  inputs : x.inputs ≤ Word.maxOperand
  outputs : x.outputs ≤ Word.maxOperand
  locals : x.locals ≤ Word.maxOperand

/-- An extent that is nowhere smaller. -/
structure Extent.Le (x y : Extent) : Prop where
  inputs : x.inputs ≤ y.inputs
  outputs : x.outputs ≤ y.outputs
  locals : x.locals ≤ y.locals

namespace Extent.Le

variable {x y : Extent}

theorem scalar (h : x.Le y) {e : Scalar} (he : e.Within x) : e.Within y := by
  induction e with
  | const v | random => trivial
  | inputSlot slot => exact Nat.lt_of_lt_of_le he h.inputs
  | localSlot slot => exact Nat.lt_of_lt_of_le he h.locals
  | unary f a iha => exact iha he
  | binary f a b iha ihb => exact ⟨iha he.1, ihb he.2⟩
  | ternary f a b c iha ihb ihc | select a b c iha ihb ihc =>
    exact ⟨iha he.1, ihb he.2.1, ihc he.2.2⟩

theorem step (h : x.Le y) {s : Step} (hs : s.Within x) : s.Within y := by
  cases s with
  | setLocal slot value => exact ⟨Nat.lt_of_lt_of_le hs.1 h.locals, h.scalar hs.2⟩
  | setOutput slot value => exact ⟨Nat.lt_of_lt_of_le hs.1 h.outputs, h.scalar hs.2⟩
  | call block => trivial

theorem exit (h : x.Le y) {e : Exit} (he : e.Within x) : e.Within y := by
  cases e with
  | branch condition thenBlock elseBlock | wait seconds next => exact h.scalar he
  | jump block | ret | halt | pause point defaultBlock => trivial

theorem block (h : x.Le y) {b : Block} (hb : b.Within x) : b.Within y :=
  ⟨fun s hs => h.step (hb.steps s hs), h.exit hb.exit⟩

end Extent.Le

end Behavior
