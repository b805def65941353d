import Behavior.Reachability

/-!
How the flows of a document lead to each other. A call comes back and a jump does not.
-/

namespace Behavior

inductive Passage where
  | call
  | jump
deriving DecidableEq, Repr, Inhabited

structure FlowGraph where
  edges : Array (List (Nat × Passage)) := #[]
deriving Inhabited

namespace FlowGraph

def size (g : FlowGraph) : Nat := g.edges.size

def successors (g : FlowGraph) (flow : Nat) : List Nat :=
  (g.edges.getD flow []).map (·.1)

/-- How many steps lead to each flow. -/
def inDegrees (g : FlowGraph) : Array Nat :=
  (List.range g.size).foldl (fun degrees flow =>
    (g.successors flow).foldl (fun degrees target => degrees.modify target (· + 1)) degrees)
    (Array.replicate g.size 0)

/-- Take off a step to a flow. The flow is ready when no step to it is left. -/
def release (state : Array Nat × List Nat) (target : Nat) : Array Nat × List Nat :=
  match state.1[target]? with
  | some (left + 1) =>
    (state.1.setIfInBounds target left, if left = 0 then target :: state.2 else state.2)
  | _ => state

theorem measure_release (state : Array Nat × List Nat) (target : Nat) :
    (release state target).1.countP (· ≠ 0) + (release state target).2.length =
      state.1.countP (· ≠ 0) + state.2.length := by
  unfold release
  split
  · next left hleft =>
    obtain ⟨hlt, htarget⟩ := Array.getElem?_eq_some_iff.1 hleft
    have hpos : 0 < state.1.countP (· ≠ 0) :=
      Array.countP_pos_iff.2 ⟨_, Array.getElem_mem hlt, by simp [htarget]⟩
    rw [Array.setIfInBounds, dif_pos hlt, Array.countP_set hlt, htarget]
    -- the flow becomes ready when the last step to it is taken off, and counts as such
    cases left with
    | zero =>
      simp only [ne_eq, decide_not] at hpos ⊢
      simp
      omega
    | succ left =>
      simp only [ne_eq, decide_not] at hpos ⊢
      simp
      omega
  · rfl

/-- Take off the steps from a flow. -/
def releaseAll (degrees : Array Nat) (ready targets : List Nat) : Array Nat × List Nat :=
  targets.foldl release (degrees, ready)

theorem measure_releaseAll (degrees : Array Nat) (ready targets : List Nat) :
    (releaseAll degrees ready targets).1.countP (· ≠ 0) +
      (releaseAll degrees ready targets).2.length = degrees.countP (· ≠ 0) + ready.length := by
  unfold releaseAll
  exact List.foldlRecOn (motive := fun state : Array Nat × List Nat =>
    state.1.countP (· ≠ 0) + state.2.length = _) targets _ rfl
    fun state hstate target _ => (measure_release state target).trans hstate

/-- Put the flows that are ready in order. -/
def orderFrom (g : FlowGraph) (degrees : Array Nat) (ready : List Nat) : List Nat :=
  match ready with
  | [] => []
  | flow :: rest =>
    flow :: g.orderFrom (releaseAll degrees rest (g.successors flow)).1
      (releaseAll degrees rest (g.successors flow)).2
termination_by degrees.countP (· ≠ 0) + ready.length
decreasing_by
  rw [measure_releaseAll]
  exact Nat.lt_succ_self _

/-- The flows so that each comes before those it leads to. Flows on a cycle are left out, and those
that a cycle leads to. -/
def order (g : FlowGraph) : List Nat :=
  let degrees := g.inDegrees
  g.orderFrom degrees ((List.range g.size).filter fun flow => degrees[flow]? = some 0).reverse

/-- Whether a flow can lead back to itself. -/
def isRecursive (g : FlowGraph) (flow : Nat) : Bool :=
  Reachability.search g.successors flow (Array.replicate g.size false) (g.successors flow).reverse

/-- The flows that can lead back to themselves, in order. They are among those that have been left
out of the order. -/
def recursive (g : FlowGraph) : List Nat :=
  let ordered := g.order.foldl (fun ordered flow => ordered.setIfInBounds flow true)
    (Array.replicate g.size false)
  (List.range g.size).filter fun flow => !ordered.getD flow false && g.isRecursive flow

/-- Greatest number of calls after one step, given those of the flows a step leads to. -/
def deepest (depths : Array Nat) (edges : List (Nat × Passage)) : Nat :=
  edges.foldl (fun deep (target, passage) =>
    let depth := depths.getD target 0
    max deep (match passage with
      | .call => depth + 1
      | .jump => depth)) 0

/-- Greatest number of calls on a path from each flow, in a graph without recursive flows. Those of
the flows that a flow leads to are found first. -/
def depths (g : FlowGraph) : Array Nat :=
  g.order.reverse.foldl (fun depths flow =>
    depths.setIfInBounds flow (deepest depths (g.edges.getD flow []))) (Array.replicate g.size 0)

/-- Greatest number of calls on a path from the first flow, in a graph without recursive flows. -/
def callDepth (g : FlowGraph) : Nat :=
  g.depths.getD 0 0

end FlowGraph

end Behavior
