import Behavior.FlowGraph
import Behavior.Proofs.Exploration
import Behavior.Schema
import Mathlib

/-!
The order of flows. A flow comes next if no flow that is left leads to it, and the order ends when
some flow that is left leads to each of them. So a flow on a cycle is never put in the order, and
without cycles all flows are. Each flow then has a rank, and leads only to flows of lower rank. It
also has a depth, which counts the calls that can be nested in it.
-/

namespace Behavior

namespace FlowGraph

open Reachability (Exploring Marked Within)

variable {g : FlowGraph} {flow flow' : Nat} {edges : List (Nat × Passage)}

/-- A flow leads to another, by a call or by a jump. -/
def Leads (g : FlowGraph) (flow flow' : Nat) : Prop :=
  ∃ passage, (flow', passage) ∈ g.edges.getD flow []

theorem mem_successors_iff : flow' ∈ g.successors flow ↔ g.Leads flow flow' := by
  constructor
  · intro h
    obtain ⟨⟨_, passage⟩, hmem, rfl⟩ := List.mem_map.1 h
    exact ⟨passage, hmem⟩
  · rintro ⟨passage, hmem⟩
    exact List.mem_map.2 ⟨_, hmem, rfl⟩

theorem Leads.lt_size (h : g.Leads flow flow') : flow < g.size := by
  obtain ⟨passage, hmem⟩ := h
  refine Nat.lt_of_not_le fun hle => ?_
  rw [Array.getD_eq_getD_getElem?, Array.getElem?_eq_none hle] at hmem
  cases hmem

theorem within_of_leads {dest : Nat} (h : Relation.ReflTransGen g.Leads flow dest)
    (hdest : dest < g.size) :
    flow < g.size ∧ Relation.ReflTransGen (Within g.size g.successors) flow dest := by
  induction h using Relation.ReflTransGen.head_induction_on with
  | refl => exact ⟨hdest, .refl⟩
  | head hstep _ ih => exact ⟨hstep.lt_size, ih.2.head ⟨mem_successors_iff.2 hstep, ih.1⟩⟩

/-- The search finds a way by one step or more. -/
theorem isRecursive_iff (hlt : flow < g.size) :
    g.isRecursive flow = true ↔ Relation.TransGen g.Leads flow flow := by
  have hstart : Exploring (Within g.size g.successors)
      (fun s => s ∈ g.successors flow ∧ s < g.size) (Marked (Array.replicate g.size false))
      ((g.successors flow).reverse.filter (· < g.size)) :=
    .start_of (Reachability.not_marked_replicate g.size) fun i => by simp
  rw [isRecursive, Reachability.search_iff Array.size_replicate hstart hlt
    (Reachability.not_marked_replicate _ _), Relation.TransGen.head'_iff]
  constructor
  · rintro ⟨s, ⟨hs, -⟩, hway⟩
    exact ⟨s, mem_successors_iff.1 hs,
      Relation.ReflTransGen.mono (fun _ _ hj => mem_successors_iff.1 hj.1) _ _ hway⟩
  · rintro ⟨s, hs, hway⟩
    obtain ⟨hlt', hway'⟩ := within_of_leads hway hlt
    exact ⟨s, ⟨mem_successors_iff.2 hs, hlt'⟩, hway'⟩

/-! ## The order -/

/-- Flows are put in order as long as there is one that no flow left leads to. -/
inductive Ordered (g : FlowGraph) : Finset Nat → List Nat → Prop
  | done {left : Finset Nat} (h : ∀ flow ∈ left, ∃ flow' ∈ left, g.Leads flow' flow) :
      Ordered g left []
  | next {left : Finset Nat} {flow : Nat} {rest : List Nat} (hflow : flow ∈ left)
      (hfirst : ∀ flow' ∈ left, ¬ g.Leads flow' flow) (hrest : Ordered g (left.erase flow) rest) :
      Ordered g left (flow :: rest)

/-- Degrees count the steps from the flows that are left, and those from one more flow that have not
been taken off. The flows left without any are ready. -/
structure Counted (g : FlowGraph) (left : Finset Nat) (targets : List Nat) (degrees : Array Nat)
    (ready : List Nat) : Prop where
  left_lt : ∀ flow ∈ left, flow < g.size
  counts : ∀ flow, degrees[flow]? = if flow < g.size then
    some (∑ flow' ∈ left, (g.successors flow').count flow + targets.count flow) else none
  placed : ∀ flow < g.size, flow ∉ left → degrees[flow]? = some 0
  mem_ready : ∀ flow, flow ∈ ready ↔ flow ∈ left ∧ degrees[flow]? = some 0
  nodup : ready.Nodup

section

variable {left : Finset Nat} {targets ready rest : List Nat} {degrees : Array Nat} {target : Nat}

theorem Counted.release (h : g.Counted left (target :: targets) degrees ready) :
    g.Counted left targets (release (degrees, ready) target).1
      (release (degrees, ready) target).2 := by
  have hother {flow : Nat} (hne : target ≠ flow) :
      (target :: targets).count flow = targets.count flow := List.count_cons_of_ne hne
  unfold FlowGraph.release
  by_cases hlt : target < g.size
  · have htarget := h.counts target
    rw [if_pos hlt, List.count_cons_self, ← Nat.add_assoc] at htarget
    have hleft : target ∈ left := by
      by_contra hnone
      cases htarget.symm.trans (h.placed target hlt hnone)
    have hunready : target ∉ ready := fun hready => by
      cases htarget.symm.trans ((h.mem_ready target).1 hready).2
    have hset (n flow : Nat) : (degrees.setIfInBounds target n)[flow]? =
        if target = flow then some n else degrees[flow]? := by
      rw [Array.getElem?_setIfInBounds, if_pos (Array.getElem?_eq_some_iff.1 htarget).1]
    simp only [htarget]
    refine ⟨h.left_lt, ?_, ?_, ?_, ?_⟩
    · intro flow
      rw [hset]
      by_cases heq : target = flow
      · rw [if_pos heq, heq, if_pos (heq ▸ hlt)]
      · rw [if_neg heq, h.counts, hother heq]
    · intro flow hflow hnone
      have hne : target ≠ flow := fun heq => hnone (heq ▸ hleft)
      rw [hset, if_neg hne]
      exact h.placed flow hflow hnone
    · intro flow
      rw [hset]
      by_cases heq : target = flow
      · subst heq
        rw [if_pos rfl, Option.some_inj, and_iff_right hleft]
        split
        · next hzero => exact iff_of_true List.mem_cons_self hzero
        · next hpos => exact iff_of_false hunready hpos
      · rw [if_neg heq, ← h.mem_ready]
        split
        · rw [List.mem_cons, or_iff_right (Ne.symm heq)]
        · rfl
    · split
      · exact List.nodup_cons.2 ⟨hunready, h.nodup⟩
      · exact h.nodup
  · simp only [(h.counts target).trans (if_neg hlt)]
    refine ⟨h.left_lt, fun flow => ?_, h.placed, h.mem_ready, h.nodup⟩
    rw [h.counts]
    split
    · next hflow => rw [hother fun heq => hlt (heq ▸ hflow)]
    · rfl

theorem Counted.releaseAll (h : g.Counted left targets degrees ready) :
    g.Counted left [] (FlowGraph.releaseAll degrees ready targets).1
      (FlowGraph.releaseAll degrees ready targets).2 := by
  unfold FlowGraph.releaseAll
  induction targets generalizing degrees ready with
  | nil => exact h
  | cons target rest ih => exact ih h.release

/-- The steps from the flow that comes next are those to be taken off. -/
theorem Counted.take (h : g.Counted left [] degrees (flow :: rest)) :
    g.Counted (left.erase flow) (g.successors flow) degrees rest := by
  obtain ⟨hflow, hzero⟩ := (h.mem_ready flow).1 List.mem_cons_self
  obtain ⟨hrest, hnodup⟩ := List.nodup_cons.1 h.nodup
  refine ⟨fun i hi => h.left_lt i (Finset.mem_of_mem_erase hi), fun i => ?_,
    fun i hi hnone => ?_, fun i => ?_, hnodup⟩
  · rw [h.counts, Finset.sum_erase_add _ _ hflow]
    rfl
  · by_cases heq : i = flow
    · exact heq ▸ hzero
    · exact h.placed i hi fun hleft => hnone (Finset.mem_erase.2 ⟨heq, hleft⟩)
  · rw [Finset.mem_erase, and_assoc, ← h.mem_ready, List.mem_cons]
    by_cases heq : i = flow
    · exact iff_of_false (heq ▸ hrest) fun hne => hne.1 heq
    · exact ⟨fun hi => ⟨heq, .inr hi⟩, fun hi => hi.2.resolve_left heq⟩

theorem Counted.degree_eq_zero_iff (h : g.Counted left [] degrees ready) (hlt : flow < g.size) :
    degrees[flow]? = some 0 ↔ ∀ flow' ∈ left, ¬ g.Leads flow' flow := by
  rw [h.counts, if_pos hlt, Option.some_inj]
  simp only [List.count_nil, Nat.add_zero, Finset.sum_eq_zero_iff, List.count_eq_zero,
    mem_successors_iff]

theorem Counted.ordered (h : g.Counted left [] degrees ready) :
    g.Ordered left (g.orderFrom degrees ready) := by
  fun_induction orderFrom g degrees ready generalizing left with
  | case1 degrees =>
    refine .done fun flow hflow => ?_
    by_contra hnone
    push Not at hnone
    have hzero := (h.degree_eq_zero_iff (h.left_lt flow hflow)).2 hnone
    cases (h.mem_ready flow).2 ⟨hflow, hzero⟩
  | case2 degrees flow rest ih =>
    obtain ⟨hflow, hzero⟩ := (h.mem_ready flow).1 List.mem_cons_self
    exact .next hflow ((h.degree_eq_zero_iff (h.left_lt flow hflow)).1 hzero) (ih h.take.releaseAll)

theorem getElem?_countAll (targets : List Nat) (degrees : Array Nat) (flow : Nat) :
    (targets.foldl (fun degrees target => degrees.modify target (· + 1)) degrees)[flow]? =
      degrees[flow]?.map (· + targets.count flow) := by
  induction targets generalizing degrees with
  | nil => exact Option.map_id'.symm
  | cons target rest ih =>
    rw [List.foldl_cons, ih, Array.getElem?_modify, List.count_cons]
    by_cases heq : target = flow
    · rw [if_pos heq, if_pos (beq_iff_eq.2 heq), Option.map_map]
      congr 1
      funext n
      simp only [Function.comp_apply]
      omega
    · rw [if_neg heq, if_neg (mt eq_of_beq heq), Nat.add_zero]

theorem getElem?_inDegrees (g : FlowGraph) (flow : Nat) :
    g.inDegrees[flow]? = if flow < g.size then
      some (∑ flow' ∈ Finset.range g.size, (g.successors flow').count flow) else none := by
  have hcount (n : Nat) : ((List.range n).foldl (fun degrees flow =>
      (g.successors flow).foldl (fun degrees target => degrees.modify target (· + 1)) degrees)
      (Array.replicate g.size 0))[flow]? = if flow < g.size then
        some (∑ flow' ∈ Finset.range n, (g.successors flow').count flow) else none := by
    induction n with
    | zero => exact Array.getElem?_replicate
    | succ n ih =>
      rw [List.range_succ, List.foldl_append, List.foldl_cons, List.foldl_nil, getElem?_countAll,
        ih, Finset.sum_range_succ]
      split <;> rfl
  exact hcount g.size

theorem ordered_order (g : FlowGraph) : g.Ordered (Finset.range g.size) g.order := by
  refine Counted.ordered ⟨fun _ => Finset.mem_range.1, g.getElem?_inDegrees,
    fun flow hlt hnone => absurd (Finset.mem_range.2 hlt) hnone, fun flow => ?_, ?_⟩
  · rw [List.mem_reverse, List.mem_filter, List.mem_range, Finset.mem_range, decide_eq_true_iff]
  · exact List.nodup_reverse.2 (List.nodup_range.filter _)

end

namespace Ordered

variable {left : Finset Nat} {order : List Nat}

theorem length_le (h : g.Ordered left order) : order.length ≤ left.card := by
  induction h with
  | done => exact Nat.zero_le _
  | next hflow _ _ ih => exact (Nat.succ_le_succ ih).trans_eq (Finset.card_erase_add_one hflow)

theorem mem_left (h : g.Ordered left order) (hflow : flow ∈ order) : flow ∈ left := by
  induction h with
  | done => cases hflow
  | next hmem _ _ ih =>
    rcases List.mem_cons.1 hflow with rfl | hflow
    · exact hmem
    · exact Finset.mem_of_mem_erase (ih hflow)

/-- Flows that each have a flow among them that leads to them wait for each other. -/
theorem not_mem_of_closed (h : g.Ordered left order) {S : Nat → Prop} (hleft : ∀ i, S i → i ∈ left)
    (hclosed : ∀ i, S i → ∃ j, S j ∧ g.Leads j i) (hflow : S flow) : flow ∉ order := by
  induction h with
  | done => exact List.not_mem_nil
  | @next left first rest _ hfirst _ ih =>
    have hne {i : Nat} (hi : S i) (heq : i = first) : False := by
      obtain ⟨j, hj, hleads⟩ := hclosed i hi
      exact hfirst j (hleft j hj) (heq ▸ hleads)
    have hrest := ih fun i hi => Finset.mem_erase.2 ⟨hne hi, hleft i hi⟩
    exact fun hmem => (List.mem_cons.1 hmem).elim (hne hflow) hrest

/-- Without cycles all flows are put in order: among finitely many there is one that none of the
others leads to. -/
theorem mem_of_acyclic (h : g.Ordered left order)
    (hacyclic : ∀ i, ¬ Relation.TransGen g.Leads i i) (hflow : flow ∈ left) : flow ∈ order := by
  induction h with
  | @done left hleads =>
    have : IsStrictOrder Nat (Relation.TransGen g.Leads) :=
      { irrefl := hacyclic, trans := fun _ _ _ => Relation.TransGen.trans }
    have hfounded := left.finite_toSet.wellFoundedOn (r := Relation.TransGen g.Leads)
    refine (hfounded.induction (P := fun _ => False) hflow fun i hi ih => ?_).elim
    obtain ⟨j, hj, hstep⟩ := hleads i hi
    exact ih j hj (.single hstep)
  | @next left first rest _ _ _ ih =>
    by_cases heq : flow = first
    · exact heq ▸ List.mem_cons_self
    · exact List.mem_cons_of_mem _ (ih (Finset.mem_erase.2 ⟨heq, hflow⟩))

/-- A flow comes before those it leads to. -/
theorem idxOf_lt_idxOf (h : g.Ordered left order) (hstep : g.Leads flow flow')
    (hflow : flow ∈ left) (hflow' : flow' ∈ order) : order.idxOf flow < order.idxOf flow' := by
  induction h with
  | done => cases hflow'
  | @next left first rest _ hfirst _ ih =>
    have hne' : first ≠ flow' := fun heq => hfirst flow hflow (heq ▸ hstep)
    rw [List.idxOf_cons_ne _ hne']
    by_cases heq : first = flow
    · rw [heq, List.idxOf_cons_self]
      exact Nat.succ_pos _
    · rw [List.idxOf_cons_ne _ heq]
      exact Nat.succ_lt_succ (ih (Finset.mem_erase.2 ⟨Ne.symm heq, hflow⟩)
        ((List.mem_cons.1 hflow').resolve_left (Ne.symm hne')))

end Ordered

/-- A cycle waits for itself. -/
theorem not_mem_order (h : Relation.TransGen g.Leads flow flow) : flow ∉ g.order := by
  refine g.ordered_order.not_mem_of_closed
    (S := fun i => Relation.TransGen g.Leads flow i ∧ Relation.TransGen g.Leads i flow)
    (fun i hi => ?_) (fun i hi => ?_) ⟨h, h⟩
  · obtain ⟨j, hstep, -⟩ := Relation.TransGen.head'_iff.1 hi.2
    exact Finset.mem_range.2 hstep.lt_size
  · obtain ⟨j, hway, hstep⟩ := Relation.TransGen.tail'_iff.1 hi.1
    have hback := Relation.TransGen.head hstep hi.2
    exact ⟨j, ⟨Relation.TransGen.trans_left h hway, hback⟩, hstep⟩

theorem getD_marked_iff (order : List Nat) (seen : Array Bool) (hlt : flow < seen.size) :
    (order.foldl (fun seen flow => seen.setIfInBounds flow true) seen).getD flow false = true ↔
      seen.getD flow false = true ∨ flow ∈ order := by
  induction order generalizing seen with
  | nil => simp
  | cons first rest ih =>
    rw [List.foldl_cons, ih _ (by rwa [Array.size_setIfInBounds])]
    simp only [Array.getD_eq_getD_getElem?, Array.getElem?_setIfInBounds, List.mem_cons]
    by_cases heq : first = flow
    · subst heq
      simp [hlt]
    · simp [heq, Ne.symm heq]

/-- A flow is recursive just where it lies on a cycle. -/
theorem mem_recursive_iff : flow ∈ g.recursive ↔ Relation.TransGen g.Leads flow flow := by
  rw [recursive, List.mem_filter, List.mem_range, Bool.and_eq_true_iff]
  constructor
  · rintro ⟨hlt, -, hrecursive⟩
    exact (isRecursive_iff hlt).1 hrecursive
  · intro h
    obtain ⟨next, hstep, -⟩ := Relation.TransGen.head'_iff.1 h
    refine ⟨hstep.lt_size, ?_, (isRecursive_iff hstep.lt_size).2 h⟩
    rw [Bool.not_eq_true', ← Bool.not_eq_true,
      getD_marked_iff _ _ (hstep.lt_size.trans_eq Array.size_replicate.symm)]
    rintro (hnone | hmem)
    · rw [Array.getD_eq_getD_getElem?, Array.getElem?_replicate] at hnone
      split at hnone <;> cases hnone
    · exact not_mem_order h hmem

theorem mem_order (h : g.recursive = []) (hlt : flow < g.size) : flow ∈ g.order := by
  refine g.ordered_order.mem_of_acyclic (fun i hi => ?_) (Finset.mem_range.2 hlt)
  cases h ▸ mem_recursive_iff.2 hi

/-- The number of flows that come after a flow. -/
def rank (g : FlowGraph) (flow : Nat) : Nat :=
  g.order.length - (g.order.idxOf flow + 1)

/-- A flow leads to flows of lower rank. -/
theorem rank_lt_rank (h : g.recursive = []) (hstep : flow' ∈ g.successors flow)
    (hlt : flow' < g.size) : g.rank flow' < g.rank flow := by
  have hleads := mem_successors_iff.1 hstep
  have hbefore := g.ordered_order.idxOf_lt_idxOf hleads (Finset.mem_range.2 hleads.lt_size)
    (mem_order h hlt)
  have hlast := List.idxOf_lt_length_iff.2 (mem_order h hlt)
  unfold rank
  omega

theorem rank_lt_size (hlt : flow < g.size) : g.rank flow < g.size := by
  have hle := g.ordered_order.length_le
  rw [Finset.card_range] at hle
  unfold rank
  omega

/-! ## Depths -/

/-- Calls on a way that begins with a passage, given those from the flows. -/
def along (depths : Array Nat) (passage : Nat × Passage) : Nat :=
  match passage.2 with
  | .call => depths.getD passage.1 0 + 1
  | .jump => depths.getD passage.1 0

theorem deepest_eq (depths : Array Nat) (edges : List (Nat × Passage)) :
    deepest depths edges = edges.foldl (fun deep e => max deep (along depths e)) 0 := by
  unfold deepest
  congr

theorem along_le_deepest {depths : Array Nat} {e : Nat × Passage} (h : e ∈ edges) :
    along depths e ≤ deepest depths edges := by
  rw [deepest_eq]
  exact ((Schema.foldl_max_le_iff _ edges 0 _).1 (Nat.le_refl _)).2 e h

theorem deepest_congr {depths depths' : Array Nat}
    (h : ∀ e ∈ edges, depths.getD e.1 0 = depths'.getD e.1 0) :
    deepest depths edges = deepest depths' edges := by
  rw [deepest_eq, deepest_eq]
  refine List.foldl_ext _ _ _ fun deep e he => ?_
  rw [along, along, h e he]

/-- Greatest number of calls on a path from a flow. -/
def depth (g : FlowGraph) (flow : Nat) : Nat :=
  g.depths.getD flow 0

/-- The depths of some flows at the end of the order. -/
def depthsOf (g : FlowGraph) (order : List Nat) : Array Nat :=
  order.foldr (fun flow depths =>
    depths.setIfInBounds flow (deepest depths (g.edges.getD flow []))) (Array.replicate g.size 0)

theorem depths_eq (g : FlowGraph) : g.depths = g.depthsOf g.order :=
  List.foldl_reverse

theorem size_depthsOf (g : FlowGraph) (order : List Nat) : (g.depthsOf order).size = g.size := by
  induction order with
  | nil => exact Array.size_replicate
  | cons flow rest ih => exact Array.size_setIfInBounds.trans ih

theorem getD_depthsOf_cons {rest : List Nat} (hlt : flow < g.size) (flow' : Nat) :
    (g.depthsOf (flow :: rest)).getD flow' 0 =
      if flow = flow' then deepest (g.depthsOf rest) (g.edges.getD flow [])
      else (g.depthsOf rest).getD flow' 0 := by
  have hset : g.depthsOf (flow :: rest) = (g.depthsOf rest).setIfInBounds flow
      (deepest (g.depthsOf rest) (g.edges.getD flow [])) := rfl
  have hin : flow < (g.depthsOf rest).size := by rwa [size_depthsOf]
  rw [hset, Array.getD_eq_getD_getElem?, Array.getElem?_setIfInBounds, if_pos hin]
  split
  · rfl
  · exact Array.getD_eq_getD_getElem?.symm

/-- The depth of a flow is found after those of the flows it leads to. -/
theorem Ordered.getD_eq_deepest {left : Finset Nat} {order : List Nat} (h : g.Ordered left order)
    (hleft : ∀ flow ∈ left, flow < g.size) (hflow : flow ∈ order) :
    (g.depthsOf order).getD flow 0 = deepest (g.depthsOf order) (g.edges.getD flow []) := by
  induction h with
  | done => cases hflow
  | @next left first rest hmem hfirst hrest ih =>
    -- no flow that is left leads to the first one, so its depth is read by none of them
    have hsame {i : Nat} (hi : i ∈ left) :
        deepest (g.depthsOf (first :: rest)) (g.edges.getD i []) =
          deepest (g.depthsOf rest) (g.edges.getD i []) := by
      refine deepest_congr fun e he => ?_
      rw [getD_depthsOf_cons (hleft first hmem), if_neg]
      rintro rfl
      exact hfirst i hi ⟨e.2, he⟩
    rw [getD_depthsOf_cons (hleft first hmem)]
    split
    · next heq => rw [← heq, hsame hmem]
    · next hne =>
      have hin : flow ∈ rest := (List.mem_cons.1 hflow).resolve_left (Ne.symm hne)
      rw [hsame (Finset.mem_of_mem_erase (hrest.mem_left hin))]
      exact ih (fun i hi => hleft i (Finset.mem_of_mem_erase hi)) hin

theorem depth_eq_deepest (h : g.recursive = []) (hlt : flow < g.size) :
    g.depth flow = deepest g.depths (g.edges.getD flow []) := by
  rw [depth, depths_eq]
  exact g.ordered_order.getD_eq_deepest (fun _ => Finset.mem_range.1) (mem_order h hlt)

/-- A flow is as deep as every flow it leads to, and deeper than those it calls. -/
theorem depth_le_depth (h : g.recursive = []) {passage : Passage}
    (hstep : (flow', passage) ∈ g.edges.getD flow []) :
    g.depth flow' + (if passage = .call then 1 else 0) ≤ g.depth flow := by
  rw [depth_eq_deepest h (Leads.lt_size ⟨passage, hstep⟩)]
  refine Nat.le_trans (Nat.le_of_eq ?_) (along_le_deepest hstep)
  cases passage <;> rfl

end FlowGraph

end Behavior
