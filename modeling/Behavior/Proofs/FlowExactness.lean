import Behavior.Proofs.CleanChecks
import Behavior.Proofs.FlowOrder

/-!
The check of how flows lead to each other is exact. A flow is recursive if it lies on a cycle of
calls and jumps; being led to from a cycle is not enough. Without recursive flows a path from a flow
makes a greatest number of calls, and that is the depth of the flow.
-/

namespace Behavior

namespace FlowGraph

variable {g : FlowGraph} {flow flow' : Nat}

/-- A path from one flow to another makes a number of calls. -/
inductive Path (g : FlowGraph) : Nat → Nat → Nat → Prop
  | nil (flow : Nat) : Path g flow flow 0
  | call {flow flow' dest n : Nat} (hstep : (flow', .call) ∈ g.edges.getD flow [])
      (hrest : Path g flow' dest n) : Path g flow dest (n + 1)
  | jump {flow flow' dest n : Nat} (hstep : (flow', .jump) ∈ g.edges.getD flow [])
      (hrest : Path g flow' dest n) : Path g flow dest n

theorem pairwise_recursive (g : FlowGraph) : g.recursive.Pairwise (· < ·) :=
  List.pairwise_lt_range.filter _

/-! ## Calls on paths -/

theorem depth_of_size_le (h : g.size ≤ flow) : g.depth flow = 0 := by
  rw [depth, depths_eq, Array.getD_eq_getD_getElem?,
    Array.getElem?_eq_none (by rwa [size_depthsOf])]
  rfl

/-- The greatest number of calls after a step is that after one of the steps. -/
theorem exists_along_eq {depths : Array Nat} {edges : List (Nat × Passage)}
    (h : deepest depths edges ≠ 0) : ∃ e ∈ edges, along depths e = deepest depths edges := by
  by_contra hnone
  have hbelow : ∀ e ∈ edges, along depths e ≤ deepest depths edges - 1 := by
    intro e he
    have hle : along depths e ≤ deepest depths edges := along_le_deepest he
    have hne : along depths e ≠ deepest depths edges := fun heq => hnone ⟨e, he, heq⟩
    omega
  have hle : deepest depths edges ≤ deepest depths edges - 1 := by
    nth_rewrite 1 [deepest_eq]
    exact (Schema.foldl_max_le_iff _ edges 0 _).2 ⟨Nat.zero_le _, hbelow⟩
  omega

/-- Some path makes as many calls as the depth says. -/
theorem exists_path (h : g.recursive = []) (flow : Nat) : ∃ dest, g.Path flow dest (g.depth flow) := by
  induction hrank : g.rank flow using Nat.strong_induction_on generalizing flow with
  | _ rank ih =>
    by_cases hlt : flow < g.size
    · by_cases hzero : g.depth flow = 0
      · exact ⟨flow, hzero ▸ .nil flow⟩
      · rw [depth_eq_deepest h hlt] at hzero ⊢
        obtain ⟨⟨next, passage⟩, hmem, hdepth⟩ := exists_along_eq hzero
        -- a step that leaves the graph is the last one
        have hnext : ∃ dest, g.Path next dest (g.depth next) := by
          by_cases hin : next < g.size
          · have hstep : next ∈ g.successors flow := mem_successors_iff.2 ⟨passage, hmem⟩
            exact ih _ (hrank ▸ rank_lt_rank h hstep hin) next rfl
          · exact ⟨next, depth_of_size_le (Nat.le_of_not_lt hin) ▸ .nil next⟩
        obtain ⟨dest, hpath⟩ := hnext
        rw [← hdepth]
        cases passage with
        | call => exact ⟨dest, .call hmem hpath⟩
        | jump => exact ⟨dest, .jump hmem hpath⟩
    · exact ⟨flow, depth_of_size_le (Nat.le_of_not_lt hlt) ▸ .nil flow⟩

theorem Path.calls_le (h : g.recursive = []) {dest n : Nat} (hpath : g.Path flow dest n) :
    n ≤ g.depth flow := by
  induction hpath with
  | nil flow => exact Nat.zero_le _
  | call hstep _ ih => exact Nat.le_trans (Nat.succ_le_succ ih) (depth_le_depth h hstep)
  | jump hstep _ ih => exact Nat.le_trans ih (depth_le_depth h hstep)

/-- The depth of a flow is the greatest number of calls on a path from it. -/
theorem isGreatest_depth (h : g.recursive = []) (flow : Nat) :
    IsGreatest {n | ∃ dest, g.Path flow dest n} (g.depth flow) := by
  refine ⟨exists_path h flow, ?_⟩
  rintro n ⟨dest, hpath⟩
  exact hpath.calls_le h

end FlowGraph

/-! ## Reports -/

namespace Typed

/-- A diagnostic says of the flow with a number that it can lead back to itself. -/
def SaysRecursive (flows : List Flow) (index : Nat) (diagnostic : Diagnostic) : Prop :=
  ∃ flow, flows[index]? = some flow ∧ diagnostic = ⟨.recursiveFlow flow.name, flow.span⟩

theorem run_reportRecursive {flows : List Flow} {indices : List Nat}
    (h : ∀ index ∈ indices, index < flows.length) (s : State) :
    ∃ reports, List.Forall₂ (SaysRecursive flows) indices reports ∧
      (indices.forM (reportRecursive flows)).run s =
        ((), { s with problems := reports.reverse ++ s.problems }) := by
  induction indices generalizing s with
  | nil => exact ⟨[], .nil, rfl⟩
  | cons index rest ih =>
    obtain ⟨hindex, hrest⟩ := List.forall_mem_cons.1 h
    have hflow : flows[index]? = some flows[index] := List.getElem?_eq_getElem hindex
    let first : Diagnostic := ⟨.recursiveFlow flows[index].name, flows[index].span⟩
    obtain ⟨reports, hreports, hrun⟩ := ih hrest { s with problems := first :: s.problems }
    refine ⟨first :: reports, .cons ⟨_, hflow, rfl⟩ hreports, ?_⟩
    have hfirst : (reportRecursive flows index).run s =
        ((), { s with problems := first :: s.problems }) := by
      rw [reportRecursive, hflow]
      rfl
    show (reportRecursive flows index >>= fun _ => rest.forM (reportRecursive flows)).run s = _
    rw [StateT.run_bind, hfirst]
    refine hrun.trans ?_
    simp only [List.reverse_cons, List.append_assoc, List.singleton_append]

/-- Checking a graph reports exactly the flows that lie on a cycle, each once and in order. If there
is none, it finds the greatest number of calls on a path from the first flow, and reports that if it
is out of range. Nothing else changes. -/
theorem checkGraph_exact (checked : List (Flow × List (Nat × Passage))) (s : State) :
    let flows := checked.map (·.1)
    let g : FlowGraph := ⟨(checked.map (·.2)).toArray⟩
    ∃ cyclic : List Nat, cyclic.Pairwise (· < ·) ∧
      (∀ index, index ∈ cyclic ↔ Relation.TransGen g.Leads index index) ∧
      (cyclic ≠ [] → ∃ reports, List.Forall₂ (SaysRecursive flows) cyclic reports ∧
        (checkGraph flows g).run s = (0, { s with problems := reports.reverse ++ s.problems })) ∧
      (cyclic = [] → ∃ depth, IsGreatest {n | ∃ dest, g.Path 0 dest n} depth ∧
        (checkGraph flows g).run s =
          (depth, if depth ≤ 0xffff then s
            else { s with problems := ⟨.callDepth, {}⟩ :: s.problems })) := by
  intro flows g
  refine ⟨g.recursive, g.pairwise_recursive, fun index => FlowGraph.mem_recursive_iff, ?_, ?_⟩
  · intro hcyclic
    have hinside : ∀ index ∈ g.recursive, index < flows.length := by
      intro index hindex
      obtain ⟨next, hstep, -⟩ :=
        Relation.TransGen.head'_iff.1 (FlowGraph.mem_recursive_iff.1 hindex)
      have hlt : index < (checked.map (·.2)).toArray.size := hstep.lt_size
      simpa [flows] using hlt
    obtain ⟨reports, hreports, hrun⟩ := run_reportRecursive hinside s
    refine ⟨reports, hreports, ?_⟩
    rw [checkGraph_eq, if_neg (by simpa using hcyclic), StateT.run_bind, hrun]
    rfl
  · intro hnone
    refine ⟨g.depth 0, FlowGraph.isGreatest_depth hnone 0, ?_⟩
    rw [checkGraph_eq, if_pos (by simpa using hnone), show g.callDepth = g.depth 0 from rfl]
    by_cases hle : g.depth 0 ≤ 0xffff
    · rw [if_neg (Nat.not_lt.2 hle), if_pos hle]
      rfl
    · rw [if_pos (Nat.lt_of_not_le hle), if_neg hle]
      rfl

end Typed

end Behavior
